import LocalVault.Types

namespace LocalVault

/-- A continuation byte of a multi-byte sequence. -/
def isContinuation (b : UInt8) : Bool := b &&& 0xC0 == 0x80

/-- The second byte of an overlong form, of a surrogate or of a code point
above U+10FFFF. -/
def isForbiddenSecond (first second : UInt8) : Bool :=
  (first == 0xE0 && second < 0xA0) || (first == 0xED && second > 0x9F) ||
    (first == 0xF0 && second < 0x90) || (first == 0xF4 && second > 0x8F)

/-- `is_valid_utf8` of the scanner and of the restore engine. -/
def isValidUtf8 : Bytes → Bool
  | [] => true
  | first :: rest =>
    if first ≤ 0x7F then isValidUtf8 rest
    else if 0xC2 ≤ first ∧ first ≤ 0xDF then
      match rest with
      | b :: rest => isContinuation b && isValidUtf8 rest
      | _ => false
    else if 0xE0 ≤ first ∧ first ≤ 0xEF then
      match rest with
      | b :: c :: rest =>
        isContinuation b && isContinuation c && !isForbiddenSecond first b && isValidUtf8 rest
      | _ => false
    else if 0xF0 ≤ first ∧ first ≤ 0xF4 then
      match rest with
      | b :: c :: d :: rest =>
        isContinuation b && isContinuation c && isContinuation d &&
          !isForbiddenSecond first b && isValidUtf8 rest
      | _ => false
    else false

/-- The elements of a `std::filesystem::path` on POSIX: the root directory, the
names, and an empty name after a trailing separator. -/
def components (text : Bytes) : List Name :=
  (if text.head? = some slash then [[slash]] else []) ++ names text ++
    (if names text ≠ [] ∧ text.getLast? = some slash then [[]] else [])

/-- One element in the normal-form algorithm; the stack holds the names kept so
far, last first, and the flag says that a separator now ends the path. -/
def normalStep (rooted : Bool) : List Name × Bool → Name → List Name × Bool
  | (kept, trailing), c =>
    if c = [] ∨ c = dot then (kept, true)
    else if c = dotDot then
      match kept with
      | [] => if rooted then ([], trailing) else ([dotDot], false)
      | top :: below => if top = dotDot then (dotDot :: kept, false) else (below, true)
    else (c :: kept, false)

/-- `path::lexically_normal`, on elements. -/
def lexicallyNormal (elements : List Name) : List Name :=
  let rooted : Bool := elements.head? = some [slash]
  let walked := (if rooted then elements.tail else elements).foldl (normalStep rooted) ([], false)
  if elements = [] then []
  else if walked.1 = [] then (if rooted then [[slash]] else [dot])
  else (if rooted then [[slash]] else []) ++ walked.1.reverse ++
    (if walked.2 = true ∧ walked.1.head? ≠ some dotDot then [[]] else [])

/-- The path ends in a separator. -/
def trailing (p : Path) : Bool := p.getLast? = some []

def bare (p : Path) : Path := if trailing p then p.dropLast else p

/-- Elements joined by single separators. -/
def joined : List Name → Bytes
  | [] => []
  | [c] => c
  | c :: cs => c ++ slash :: joined cs

/-- `path_key`: the generic UTF-8 spelling. -/
def pathKey (text : Bytes) : Bytes :=
  match components text with
  | c :: cs => if c = [slash] then slash :: joined cs else joined (c :: cs)
  | [] => []

/-- `parent_path` of a relative path. -/
def parentComponents (text : Bytes) : List Name := (components text).dropLast

def isSafeStoredPath (text : Bytes) : Bool :=
  if text = [] ∨ text.head? = some slash ∨ lexicallyNormal (components text) ≠ components text then
    false
  else if (components text).any (fun c => c = [] ∨ c = dot ∨ c = dotDot) then false
  else isValidUtf8 (pathKey text)

def nul : UInt8 := 0

/-- What the system reads of `path.c_str()`. -/
def cString (path : Bytes) : Bytes := path.takeWhile (· ≠ nul)

/-- `root / path`, for a nonempty root and a relative path. -/
def appended (root path : Bytes) : Bytes :=
  if root.getLast? = some slash then root ++ path else root ++ slash :: path

def pathDepth (text : Bytes) : Nat := (components text).length

/-- `is_component_prefix`. Names are compared one by one. -/
def isComponentPrefix : List Name → List Name → Bool
  | [], _ => true
  | _ :: _, [] => false
  | c :: cs, d :: ds => if c ≠ d then false else isComponentPrefix cs ds

def hexadecimal : Bytes := ascii "0123456789abcdef"

/-- `Blake3Hasher::to_hex`. -/
def toHex (digest : Vector UInt8 32) : Bytes :=
  digest.toList.flatMap (fun (b : UInt8) =>
    [hexadecimal.getD (b >>> 4).toNat 0, hexadecimal.getD (b &&& 0x0F).toNat 0])

def isLowercaseHexDigit (c : UInt8) : Bool := (48 ≤ c && c ≤ 57) || (97 ≤ c && c ≤ 102)

def isLowercaseBlake3Hex (value : Bytes) : Bool :=
  value.length == 64 && value.all isLowercaseHexDigit

theorem hexadecimal_digit (n : Nat) (h : n < 16) :
    isLowercaseHexDigit (hexadecimal.getD n 0) = true := by
  revert n
  decide

theorem toHex_lowercase (digest : Vector UInt8 32) : isLowercaseBlake3Hex (toHex digest) = true := by
  have hl : (toHex digest).length = 64 := by
    simp [toHex, List.length_flatMap]
  simp only [isLowercaseBlake3Hex, hl, Bool.and_eq_true, List.all_eq_true]
  refine ⟨rfl, ?_⟩
  intro c hc
  simp only [toHex, List.mem_flatMap, List.mem_cons, List.not_mem_nil, or_false] at hc
  obtain ⟨b, _, hb | hb⟩ := hc
  · rw [hb]
    apply hexadecimal_digit
    simp only [UInt8.toNat_shiftRight]
    have := b.toNat_lt
    simp [Nat.shiftRight_eq_div_pow]
    omega
  · rw [hb]
    apply hexadecimal_digit
    simp only [UInt8.toNat_and]
    exact Nat.lt_of_le_of_lt Nat.and_le_right (by decide)

theorem hexadecimal_injective (m n : Fin 16)
    (h : hexadecimal.getD m 0 = hexadecimal.getD n 0) : m = n := by
  revert m n
  decide

/-- The two digits of a byte tell it apart. -/
theorem hexadecimal_byte {b b' : UInt8}
    (hhigh : hexadecimal.getD (b >>> 4).toNat 0 = hexadecimal.getD (b' >>> 4).toNat 0)
    (hlow : hexadecimal.getD (b &&& 0x0F).toNat 0 = hexadecimal.getD (b' &&& 0x0F).toNat 0) :
    b = b' := by
  have hb := b.toNat_lt
  have hb' := b'.toNat_lt
  have hshift : ∀ c : UInt8, (c >>> 4).toNat = c.toNat / 16 := by
    intro c
    simp [UInt8.toNat_shiftRight, Nat.shiftRight_eq_div_pow]
  have hmask : ∀ c : UInt8, (c &&& 0x0F).toNat = c.toNat % 16 := by
    intro c
    rw [UInt8.toNat_and]
    exact Nat.and_two_pow_sub_one_eq_mod c.toNat 4
  rw [hshift, hshift] at hhigh
  rw [hmask, hmask] at hlow
  have hq := hexadecimal_injective ⟨b.toNat / 16, by omega⟩ ⟨b'.toNat / 16, by omega⟩ hhigh
  have hr := hexadecimal_injective ⟨b.toNat % 16, by omega⟩ ⟨b'.toNat % 16, by omega⟩ hlow
  simp only [Fin.mk.injEq] at hq hr
  exact UInt8.toNat_inj.mp (by omega)

/-- A digest can be read back from its hexadecimal text. -/
theorem toHex_injective {digest digest' : Vector UInt8 32} (h : toHex digest = toHex digest') :
    digest = digest' := by
  suffices hlist : ∀ bs bs' : List UInt8,
      (bs.flatMap fun (b : UInt8) => [hexadecimal.getD (b >>> 4).toNat 0,
        hexadecimal.getD (b &&& 0x0F).toNat 0]) =
      (bs'.flatMap fun (b : UInt8) => [hexadecimal.getD (b >>> 4).toNat 0,
        hexadecimal.getD (b &&& 0x0F).toNat 0]) → bs = bs' from
    Vector.toList_inj.mp (hlist _ _ h)
  intro bs bs' he
  induction bs generalizing bs' with
  | nil =>
    cases bs' with
    | nil => rfl
    | cons b' bs' => simp at he
  | cons b bs ih =>
    cases bs' with
    | nil => simp at he
    | cons b' bs' =>
      simp only [List.flatMap_cons, List.cons_append, List.nil_append, List.cons.injEq] at he
      rw [hexadecimal_byte he.1 he.2.1, ih bs' he.2.2]

theorem lowercase_length {value : Bytes} (h : isLowercaseBlake3Hex value = true) :
    value.length = 64 := by
  simp only [isLowercaseBlake3Hex, Bool.and_eq_true, beq_iff_eq] at h
  exact h.1

theorem isComponentPrefix_iff (p q : List Name) : isComponentPrefix p q = true ↔ p <+: q := by
  induction p generalizing q with
  | nil => simp [isComponentPrefix]
  | cons c cs ih =>
    cases q with
    | nil => simp [isComponentPrefix]
    | cons d ds =>
      by_cases h : c = d
      · simp [isComponentPrefix, h, ih]
      · simp [isComponentPrefix, h]

/-- A name that a path keeps in its normal form and that is not resolved specially. -/
def Ordinary (c : Name) : Prop := c ≠ [] ∧ c ≠ dot ∧ c ≠ dotDot

/-- A rooted walk never keeps another name. -/
theorem normalStep_ordinary {kept : List Name} {trailing : Bool} (h : ∀ d ∈ kept, Ordinary d)
    (c : Name) : ∀ d ∈ (normalStep true (kept, trailing) c).1, Ordinary d := by
  simp only [normalStep]
  split
  · exact h
  · rename_i hc
    split
    · cases kept with
      | nil => exact h
      | cons top below =>
        have ht := h top (by simp)
        simp only [ht.2.2, ↓reduceIte]
        exact fun d hd => h d (List.mem_cons_of_mem _ hd)
    · rename_i hd
      intro d hm
      rcases List.mem_cons.mp hm with rfl | hm
      · exact ⟨fun he => hc (Or.inl he), fun he => hc (Or.inr he), hd⟩
      · exact h d hm

theorem normalSteps_ordinary (elements : List Name) (start : List Name × Bool)
    (h : ∀ d ∈ start.1, Ordinary d) :
    ∀ d ∈ (elements.foldl (normalStep true) start).1, Ordinary d := by
  induction elements generalizing start with
  | nil => exact h
  | cons c cs ih => exact ih _ (normalStep_ordinary h c)

theorem names_ne_nil {text : Bytes} {c : Name} (h : c ∈ names text) : c ≠ [] := by
  simpa using (List.mem_filter.mp h).2

theorem names_eq_nil {text : Bytes} (hs : text.head? ≠ some slash) (hn : names text = []) :
    text = [] := by
  cases text with
  | nil => rfl
  | cons c cs =>
    have hc : c ≠ slash := by simpa using hs
    exfalso
    cases hp : pieces cs with
    | nil => simp [names, pieces, hc, hp] at hn
    | cons p ps => simp [names, pieces, hc, hp] at hn

/-- What the restore engine relies on after `is_safe_stored_path`. -/
theorem safe_components {text : Bytes} (h : isSafeStoredPath text = true) :
    components text = names text ∧ components text ≠ [] ∧
      ∀ c ∈ components text, c ≠ [] ∧ c ≠ dot ∧ c ≠ dotDot := by
  unfold isSafeStoredPath at h
  split at h
  · cases h
  · rename_i hn
    simp only [not_or, Decidable.not_not] at hn
    split at h
    · cases h
    · rename_i hc
      have hall : ∀ c ∈ components text, c ≠ [] ∧ c ≠ dot ∧ c ≠ dotDot := by
        simpa [List.any_eq_true, not_or] using hc
      have htrail : ¬ (names text ≠ [] ∧ text.getLast? = some slash) := by
        intro ht
        have hm : ([] : Name) ∈ components text := by simp [components, ht]
        exact (hall [] hm).1 rfl
      have he : components text = names text := by simp [components, hn.2.1, htrail]
      refine ⟨he, ?_, hall⟩
      intro hnil
      -- an empty element list has the normal form of the empty path
      have hempty : names text = [] := he ▸ hnil
      exact hn.1 (names_eq_nil hn.2.1 hempty)

theorem pieces_name {c : Name} (hc : slash ∉ c) : pieces c = [c] := by
  induction c with
  | nil => rfl
  | cons b bs ih =>
    have hb : b ≠ slash := fun h => hc (by simp [h])
    simp [pieces, hb, ih (fun h => hc (by simp [h]))]

theorem pieces_separated {c : Name} (hc : slash ∉ c) (rest : Bytes) :
    pieces (c ++ slash :: rest) = c :: pieces rest := by
  induction c with
  | nil => simp [pieces]
  | cons b bs ih =>
    have hb : b ≠ slash := fun h => hc (by simp [h])
    simp [pieces, hb, ih (fun h => hc (by simp [h]))]

theorem pieces_joined {cs : List Name} (hne : cs ≠ []) (hc : ∀ c ∈ cs, slash ∉ c) :
    pieces (joined cs) = cs := by
  induction cs with
  | nil => exact absurd rfl hne
  | cons c cs ih =>
    cases cs with
    | nil => exact pieces_name (hc c (by simp))
    | cons d ds =>
      have hrest := ih (by simp) (fun e he => hc e (List.mem_cons_of_mem _ he))
      rw [joined, pieces_separated (hc c (by simp)), hrest]
      simp

/-- Joined names are read back. -/
theorem names_joined {cs : List Name} (hne : ∀ c ∈ cs, c ≠ []) (hc : ∀ c ∈ cs, slash ∉ c) :
    names (joined cs) = cs := by
  cases cs with
  | nil => rfl
  | cons c cs =>
    unfold names
    rw [pieces_joined (by simp) hc, List.filter_eq_self]
    exact fun d hd => by simpa using hne d hd

theorem pieces_slash_free (text : Bytes) : ∀ c ∈ pieces text, slash ∉ c := by
  induction text with
  | nil => simp [pieces]
  | cons b bs ih =>
    intro c hc
    unfold pieces at hc
    split at hc
    · rcases List.mem_cons.mp hc with rfl | hc
      · simp
      · exact ih c hc
    · rename_i hb
      split at hc
      · rw [List.mem_singleton.mp hc]
        simpa using Ne.symm hb
      · rename_i p ps hp
        rcases List.mem_cons.mp hc with rfl | hc
        · have := ih p (by simp [hp])
          simpa using ⟨Ne.symm hb, this⟩
        · exact ih c (by simp [hp, hc])

theorem names_slash_free {text : Bytes} {c : Name} (h : c ∈ names text) : slash ∉ c :=
  pieces_slash_free text c (List.mem_filter.mp h).1

theorem pieces_ne_nil (text : Bytes) : pieces text ≠ [] := by
  cases text with
  | nil => simp [pieces]
  | cons c cs =>
    unfold pieces
    split
    · simp
    · split <;> simp

theorem pieces_cons {c : UInt8} (hc : c ≠ slash) {text p : Bytes} {ps : List Bytes}
    (h : pieces text = p :: ps) : pieces (c :: text) = (c :: p) :: ps := by
  simp [pieces, hc, h]

/-- The pieces of two texts side by side: the last of the first and the first of the second are
one. -/
theorem pieces_append {a b : Bytes} {above qs : List Bytes} {p q : Bytes}
    (ha : pieces a = above ++ [p]) (hb : pieces b = q :: qs) :
    pieces (a ++ b) = above ++ (p ++ q) :: qs := by
  induction a generalizing above p with
  | nil =>
    have hsplit : above = [] ∧ p = [] := by
      cases above with
      | nil => simpa [pieces, eq_comm] using ha
      | cons r above => simp [pieces] at ha
    simpa [hsplit.1, hsplit.2] using hb
  | cons c a ih =>
    obtain ⟨front, last, hlast⟩ : ∃ front last, pieces a = front ++ [last] :=
      ⟨_, _, (List.dropLast_append_getLast (pieces_ne_nil a)).symm⟩
    have hrest := ih hlast
    by_cases hc : c = slash
    · subst hc
      have hpieces : [] :: (front ++ [last]) = above ++ [p] := by simpa [pieces, hlast] using ha
      cases above with
      | nil => simp at hpieces
      | cons r above =>
        obtain ⟨rfl, htail⟩ := List.cons.inj hpieces
        obtain ⟨rfl, hp⟩ := List.append_inj' htail rfl
        cases hp
        simp [pieces, hrest]
    · cases front with
      | nil =>
        have hpieces : [c :: last] = above ++ [p] := by
          rw [← ha]
          exact (pieces_cons hc hlast).symm
        cases above with
        | nil =>
          cases hpieces
          exact pieces_cons hc hrest
        | cons r above => simp at hpieces
      | cons r front =>
        have hpieces : (c :: r) :: (front ++ [last]) = above ++ [p] := by
          rw [← ha]
          exact (pieces_cons hc hlast).symm
        cases above with
        | nil => simp at hpieces
        | cons r' above =>
          obtain ⟨rfl, htail⟩ := List.cons.inj hpieces
          obtain ⟨rfl, hp⟩ := List.append_inj' htail rfl
          cases hp
          exact pieces_cons hc hrest

theorem pieces_split (text : Bytes) : ∃ above p, pieces text = above ++ [p] :=
  ⟨_, _, (List.dropLast_append_getLast (pieces_ne_nil text)).symm⟩

/-- The last piece is empty behind a trailing separator, and of the empty text. -/
theorem pieces_last_nil {text : Bytes} {above : List Bytes} (h : pieces text = above ++ [[]]) :
    text = [] ∨ text.getLast? = some slash := by
  by_contra hno
  rw [not_or] at hno
  obtain ⟨init, c, rfl⟩ : ∃ init c, text = init ++ [c] :=
    ⟨_, _, (List.dropLast_append_getLast hno.1).symm⟩
  have hc : c ≠ slash := by simpa using hno.2
  obtain ⟨front, q, hq⟩ := pieces_split init
  have hlast : pieces (init ++ [c]) = front ++ [q ++ [c]] :=
    pieces_append hq (by simp [pieces, hc])
  rw [h] at hlast
  have := (List.append_inj' hlast rfl).2
  simp at this

/-- Behind a trailing separator the last piece is empty. -/
theorem pieces_trailing {text : Bytes} {above : List Bytes} {p : Bytes}
    (h : pieces text = above ++ [p]) (hlast : text.getLast? = some slash) : p = [] := by
  obtain ⟨init, rfl⟩ : ∃ init, text = init ++ [slash] :=
    ⟨_, (List.dropLast_append_getLast? slash hlast).symm⟩
  obtain ⟨front, q, hq⟩ := pieces_split init
  have hpieces : pieces (init ++ [slash]) = front ++ (q ++ []) :: [[]] :=
    pieces_append hq (by simp [pieces])
  rw [h, show front ++ (q ++ []) :: [[]] = (front ++ [q]) ++ [[]] by simp] at hpieces
  simpa using (List.append_inj' hpieces rfl).2

/-- A separator between two texts is none in a name. -/
theorem names_behind (a b : Bytes) : names (a ++ slash :: b) = names a ++ names b := by
  obtain ⟨above, p, hp⟩ := pieces_split a
  have hb : pieces (slash :: b) = [] :: pieces b := by simp [pieces]
  unfold names
  rw [pieces_append hp hb, hp, List.append_nil, List.append_cons, List.filter_append]

end LocalVault
