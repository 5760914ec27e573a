import LocalVault.Library.Glob
import LocalVault.Snapshot.Ignore

namespace LocalVault.Snapshot
open Library Library.Glob

/-- The UTF-8 encoding of a text. -/
def encode (text : List Char) : Bytes := text.flatMap String.utf8EncodeChar

/-- What a character of a pattern stands for. -/
def element (c : Char) : Glob Char :=
  if c = '?' then .one else if c = '*' then .many else .literal c

def sameCharacter : IgnoreCaseSensitivity → Char → Char → Bool
  | .sensitive, a, c => a = c
  | .insensitive, a, c => a.toLower = c.toLower

/-- How many bytes follow the first one of a character. -/
def trailingBytes (first : UInt8) : Nat :=
  if first &&& 0xE0 = 0xC0 then 1
  else if first &&& 0xF0 = 0xE0 then 2
  else if first &&& 0xF8 = 0xF0 then 3
  else 0

theorem nextCharacter_cons (first : UInt8) (rest : Bytes) :
    nextCharacter (first :: rest) = rest.drop (trailingBytes first) := by
  simp only [nextCharacter, trailingBytes]
  split_ifs <;> rfl

theorem continuation_byte : ∀ n < 64, 128 ≤ (UInt8.ofNat (n + 0x80)).toNat := by decide

theorem first_of_two : ∀ n < 32, 128 ≤ (UInt8.ofNat (n + 0xc0)).toNat ∧
    trailingBytes (UInt8.ofNat (n + 0xc0)) = 1 := by decide

theorem first_of_three : ∀ n < 16, 128 ≤ (UInt8.ofNat (n + 0xe0)).toNat ∧
    trailingBytes (UInt8.ofNat (n + 0xe0)) = 2 := by decide

theorem first_of_four : ∀ n < 8, 128 ≤ (UInt8.ofNat (n + 0xf0)).toNat ∧
    trailingBytes (UInt8.ofNat (n + 0xf0)) = 3 := by decide

theorem ascii_byte : ∀ n < 128, trailingBytes (UInt8.ofNat n) = 0 := by decide

/-- A character is one byte below 128, or several from 128 on. -/
theorem utf8EncodeChar_cases (c : Char) :
    (c.toNat < 128 ∧ String.utf8EncodeChar c = [UInt8.ofNat c.toNat]) ∨
    ∃ first rest, String.utf8EncodeChar c = first :: rest ∧ 128 ≤ c.toNat ∧
      rest.length = trailingBytes first ∧ ∀ b ∈ first :: rest, 128 ≤ b.toNat := by
  have hmod := continuation_byte
  unfold String.utf8EncodeChar
  dsimp only
  split
  · exact Or.inl ⟨Nat.lt_succ_of_le ‹_›, rfl⟩
  refine Or.inr ?_
  have hc : 128 ≤ c.toNat := Nat.succ_le_of_lt (Nat.lt_of_not_le ‹_›)
  split
  · obtain ⟨hf, hw⟩ := first_of_two (c.val.toNat / 64 % 0x20) (Nat.mod_lt _ (by decide))
    refine ⟨_, _, rfl, hc, hw.symm, ?_⟩
    simp only [List.mem_cons, List.not_mem_nil, or_false, forall_eq_or_imp, forall_eq]
    exact ⟨hf, hmod _ (Nat.mod_lt _ (by decide))⟩
  split
  · obtain ⟨hf, hw⟩ := first_of_three (c.val.toNat / 4096 % 0x10) (Nat.mod_lt _ (by decide))
    refine ⟨_, _, rfl, hc, hw.symm, ?_⟩
    simp only [List.mem_cons, List.not_mem_nil, or_false, forall_eq_or_imp, forall_eq]
    exact ⟨hf, hmod _ (Nat.mod_lt _ (by decide)), hmod _ (Nat.mod_lt _ (by decide))⟩
  · obtain ⟨hf, hw⟩ := first_of_four (c.val.toNat / 262144 % 0x08) (Nat.mod_lt _ (by decide))
    refine ⟨_, _, rfl, hc, hw.symm, ?_⟩
    simp only [List.mem_cons, List.not_mem_nil, or_false, forall_eq_or_imp, forall_eq]
    exact ⟨hf, hmod _ (Nat.mod_lt _ (by decide)), hmod _ (Nat.mod_lt _ (by decide)),
      hmod _ (Nat.mod_lt _ (by decide))⟩

theorem utf8EncodeChar_injective {a c : Char}
    (h : String.utf8EncodeChar a = String.utf8EncodeChar c) : a = c := by
  have hdecode : ∀ c : Char, ((String.utf8EncodeChar c).toByteArray).utf8DecodeChar? 0 = some c := by
    intro c
    have := ByteArray.utf8DecodeChar?_utf8EncodeChar_append (b := ByteArray.empty) (c := c)
    simpa using this
  have ha := hdecode a
  rw [h, hdecode c] at ha
  exact (Option.some.inj ha).symm

@[simp]
theorem encode_nil : encode [] = [] := rfl

@[simp]
theorem encode_cons (c : Char) (text : List Char) :
    encode (c :: text) = String.utf8EncodeChar c ++ encode text := rfl

theorem nextCharacter_encode (text : List Char) : nextCharacter (encode text) = encode text.tail := by
  cases text with
  | nil => rfl
  | cons c text =>
    rw [encode_cons, List.tail_cons]
    rcases utf8EncodeChar_cases c with ⟨hc, he⟩ | ⟨first, rest, he, _, hl, _⟩
    · rw [he, List.singleton_append, nextCharacter_cons, ascii_byte _ hc, List.drop_zero]
    · rw [he, List.cons_append, nextCharacter_cons, ← hl, List.drop_left]

variable {cs : IgnoreCaseSensitivity}

theorem nextCharacter_attempt (after start : Bytes) : ∀ s ∈ some (StarOffset.mk after
    (nextCharacter start)), (nextCharacter start).length ≤ s.name.length := by
  simp

/-- The next attempt of the last `*`. -/
def tryAgain (cs : IgnoreCaseSensitivity) : Option StarOffset → Bool
  | none => false
  | some ⟨after, start⟩ =>
    matchFrom cs after (nextCharacter start) (some ⟨after, nextCharacter start⟩)
      (nextCharacter_attempt after start)

theorem matchFrom_nil {pattern : Bytes} {last : Option StarOffset} (h) :
    matchFrom cs pattern [] last h = pattern.all (· = star) := by
  rw [matchFrom.eq_def]

theorem matchFrom_end {name : Bytes} {last : Option StarOffset} (hname : name ≠ []) (h) :
    matchFrom cs [] name last h = tryAgain cs last := by
  cases name with
  | nil => exact absurd rfl hname
  | cons c name =>
    rw [matchFrom.eq_def]
    cases last <;> rfl

theorem matchFrom_one {pattern name : Bytes} {last : Option StarOffset} (hname : name ≠ []) (h)
    (h') : matchFrom cs (questionMark :: pattern) name last h =
      matchFrom cs pattern (nextCharacter name) last h' := by
  cases name with
  | nil => exact absurd rfl hname
  | cons c name =>
    rw [matchFrom.eq_def]
    simp

theorem matchFrom_star {pattern name : Bytes} {last : Option StarOffset} (hname : name ≠ []) (h) :
    matchFrom cs (star :: pattern) name last h =
      matchFrom cs pattern name (some ⟨pattern, name⟩) (by simp) := by
  cases name with
  | nil => exact absurd rfl hname
  | cons c name =>
    rw [matchFrom.eq_def]
    simp [star, questionMark]

theorem matchFrom_literal {q : UInt8} {pattern : Bytes} {c : UInt8} {name : Bytes}
    {last : Option StarOffset} (hq : q ≠ questionMark) (hs : q ≠ star) (h) (h') :
    matchFrom cs (q :: pattern) (c :: name) last h =
      if equalLiteral q c cs then matchFrom cs pattern name last h' else tryAgain cs last := by
  rw [matchFrom.eq_def]
  simp only [hq, hs, ↓reduceIte]
  cases last <;> rfl

/-- The lower case of an ASCII letter. -/
def lower (n : Nat) : Nat := if 65 ≤ n ∧ n ≤ 90 then n + 32 else n

theorem foldAscii_toNat (c : UInt8) : (foldAscii c).toNat = lower c.toNat := by
  unfold foldAscii lower
  simp only [UInt8.le_iff_toNat_le, UInt8.reduceToNat]
  split
  · rw [UInt8.toNat_add]
    simp only [UInt8.reduceToNat]
    omega
  · rfl

theorem toLower_toNat (c : Char) : c.toLower.toNat = lower c.toNat := by
  unfold Char.toLower lower
  by_cases h : c.val ≥ 'A'.val ∧ c.val ≤ 'Z'.val
  · have hn : 65 ≤ c.toNat ∧ c.toNat ≤ 90 := h
    rw [dif_pos h, if_pos hn]
    change (c.val + ('a'.val - 'A'.val)).toNat = c.val.toNat + 32
    rw [UInt32.toNat_add]
    have : c.val.toNat ≤ 90 := hn.2
    change (c.val.toNat + 32) % 2 ^ 32 = _
    omega
  · have hn : ¬ (65 ≤ c.toNat ∧ c.toNat ≤ 90) := h
    rw [dif_neg h, if_neg hn]

theorem equalLiteral_iff {a b : UInt8} : equalLiteral a b cs = true ↔
    a.toNat = b.toNat ∨ (cs = .insensitive ∧ lower a.toNat = lower b.toNat) := by
  simp only [equalLiteral, ← foldAscii_toNat, UInt8.toNat_inj]
  cases cs <;> by_cases h : a = b <;> simp [h]

theorem sameCharacter_iff {a c : Char} : sameCharacter cs a c = true ↔
    a.toNat = c.toNat ∨ (cs = .insensitive ∧ lower a.toNat = lower c.toNat) := by
  simp only [sameCharacter, ← toLower_toNat, Char.toNat_inj]
  cases cs
  · simp
  · by_cases h : a = c <;> simp [h]

theorem equalLiteral_high {a b : UInt8} (h : 128 ≤ a.toNat) :
    equalLiteral a b cs = true ↔ a = b := by
  rw [equalLiteral_iff, UInt8.toNat_inj]
  unfold lower
  constructor
  · rintro (h | ⟨_, hl⟩)
    · exact h
    · rw [← UInt8.toNat_inj]
      split at hl <;> split at hl <;> omega
  · exact Or.inl

/-- The bytes of a character are compared one by one. -/
theorem matchFrom_literals {u v pattern name : Bytes} {last : Option StarOffset}
    (hl : u.length = v.length) (hu : ∀ b ∈ u, 128 ≤ b.toNat) (h) (h') :
    matchFrom cs (u ++ pattern) (v ++ name) last h =
      if u = v then matchFrom cs pattern name last h' else tryAgain cs last := by
  induction u generalizing v with
  | nil =>
    cases v with
    | nil => rfl
    | cons c v => cases hl
  | cons b u ih =>
    cases v with
    | nil => cases hl
    | cons c v =>
      have hb : 128 ≤ b.toNat := hu b (by simp)
      have hrest : ∀ s ∈ last, (v ++ name).length ≤ s.name.length :=
        fun s hs => Nat.le_of_succ_le (h s hs)
      have hbytes : b ≠ questionMark ∧ b ≠ star := by
        constructor <;> rintro rfl <;> revert hb <;> decide
      change matchFrom cs (b :: (u ++ pattern)) (c :: (v ++ name)) last h = _
      rw [matchFrom_literal hbytes.1 hbytes.2 _ hrest]
      simp only [equalLiteral_high hb]
      by_cases hbc : b = c
      · rw [if_pos hbc, ih (by simpa using hl) (fun b hb => hu b (List.mem_cons_of_mem _ hb))]
        simp [hbc]
      · simp [hbc]

theorem ofNat_toNat_lt {n : Nat} (h : n < 128) : (UInt8.ofNat n).toNat = n := by
  rw [UInt8.toNat_ofNat']
  omega

theorem matchFrom_mismatch {q : UInt8} {pattern : Bytes} {c : UInt8} {name : Bytes}
    {last : Option StarOffset} (hq : q ≠ questionMark) (hs : q ≠ star)
    (hne : ¬ equalLiteral q c cs = true) (h) :
    matchFrom cs (q :: pattern) (c :: name) last h = tryAgain cs last := by
  rw [matchFrom_literal hq hs h (fun s hs => Nat.le_of_succ_le (h s hs)), if_neg hne]

/-- A character of the pattern that is no wildcard is compared as a whole. -/
theorem matchFrom_character {a c : Char} (hq : a ≠ '?') (hs : a ≠ '*') {pattern name : Bytes}
    {last : Option StarOffset} (h) (h') :
    matchFrom cs (String.utf8EncodeChar a ++ pattern) (String.utf8EncodeChar c ++ name) last h =
      if sameCharacter cs a c then matchFrom cs pattern name last h' else tryAgain cs last := by
  have hsame : sameCharacter cs a c = true ↔ _ := sameCharacter_iff
  have hhigh : ∀ b : UInt8, 128 ≤ b.toNat → b ≠ questionMark ∧ b ≠ star := by
    intro b hb
    constructor <;> rintro rfl <;> revert hb <;> decide
  rcases utf8EncodeChar_cases a with ⟨ha, hea⟩ | ⟨fa, ra, hea, ha, hla, hba⟩
  · have hna : UInt8.ofNat a.toNat ≠ questionMark ∧ UInt8.ofNat a.toNat ≠ star := by
      constructor
      · intro he
        have hn := congrArg UInt8.toNat he
        rw [ofNat_toNat_lt ha] at hn
        exact hq (Char.toNat_inj.mp hn)
      · intro he
        have hn := congrArg UInt8.toNat he
        rw [ofNat_toNat_lt ha] at hn
        exact hs (Char.toNat_inj.mp hn)
    rcases utf8EncodeChar_cases c with ⟨hc, hec⟩ | ⟨fc, rc, hec, hc, hlc, hbc⟩
    · have heq : equalLiteral (UInt8.ofNat a.toNat) (UInt8.ofNat c.toNat) cs = sameCharacter cs a c := by
        rw [Bool.eq_iff_iff, equalLiteral_iff, hsame, ofNat_toNat_lt ha, ofNat_toNat_lt hc]
      simp only [hea, hec, List.singleton_append]
      rw [matchFrom_literal hna.1 hna.2 _ h', heq]
    · have hne : ¬ equalLiteral (UInt8.ofNat a.toNat) fc cs = true := by
        have := hbc fc (by simp)
        rw [equalLiteral_iff, ofNat_toNat_lt ha]
        unfold lower
        split <;> split <;> omega
      have hno : ¬ sameCharacter cs a c = true := by
        rw [hsame]
        unfold lower
        split <;> split <;> omega
      simp only [hea, hec, List.cons_append]
      rw [matchFrom_mismatch hna.1 hna.2 hne, if_neg hno]
  · have hfa := hba fa (by simp)
    obtain ⟨hfq, hfs⟩ := hhigh fa hfa
    rcases utf8EncodeChar_cases c with ⟨hc, hec⟩ | ⟨fc, rc, hec, hc, hlc, hbc⟩
    · have hne : ¬ equalLiteral fa (UInt8.ofNat c.toNat) cs = true := by
        rw [equalLiteral_high hfa]
        rintro rfl
        rw [ofNat_toNat_lt hc] at hfa
        omega
      have hno : ¬ sameCharacter cs a c = true := by
        rw [hsame]
        unfold lower
        split <;> split <;> omega
      simp only [hea, hec, List.cons_append]
      rw [matchFrom_mismatch hfq hfs hne, if_neg hno]
    · have hsame' : sameCharacter cs a c = true ↔ String.utf8EncodeChar a = String.utf8EncodeChar c := by
        rw [hsame]
        unfold lower
        constructor
        · intro h
          have : a.toNat = c.toNat := by split at h <;> split at h <;> omega
          rw [Char.toNat_inj.mp this]
        · intro h
          exact Or.inl (congrArg Char.toNat (utf8EncodeChar_injective h))
      by_cases hff : fa = fc
      · have hlength : (String.utf8EncodeChar a).length = (String.utf8EncodeChar c).length := by
          simp [hea, hec, hla, hlc, hff]
        rw [matchFrom_literals hlength (by rw [hea]; exact hba) h h']
        simp only [hsame']
      · have hne : ¬ equalLiteral fa fc cs = true := by
          rwa [equalLiteral_high hfa]
        have hno : ¬ sameCharacter cs a c = true := by
          rw [hsame', hea, hec]
          simp [hff]
        simp only [hea, hec, List.cons_append]
        rw [matchFrom_mismatch hfq hfs hne, if_neg hno]

theorem encode_star (p : List Char) :
    (encode p).all (· = star) = true ↔ ∀ t ∈ p.map element, t = .many := by
  induction p with
  | nil => simp
  | cons a p ih =>
    have ha : (String.utf8EncodeChar a).all (· = star) = true ↔ element a = .many := by
      by_cases hs : a = '*'
      · subst hs
        exact ⟨fun _ => by simp [element], fun _ => by decide⟩
      · have hne : element a ≠ .many := by
          unfold element
          split
          · simp
          · simp
        rcases utf8EncodeChar_cases a with ⟨ha, he⟩ | ⟨f, r, he, ha, _, hb⟩
        · simp only [he, List.all_cons, List.all_nil, Bool.and_true, decide_eq_true_eq, hne, iff_false]
          intro hstar
          have hn := congrArg UInt8.toNat hstar
          rw [ofNat_toNat_lt ha] at hn
          exact hs (Char.toNat_inj.mp hn)
        · simp only [he, List.all_cons, Bool.and_eq_true, decide_eq_true_eq, hne, iff_false, not_and]
          intro hstar
          have := hb f (by simp)
          rw [hstar] at this
          exact absurd this (by decide)
    rw [encode_cons, List.all_append, Bool.and_eq_true, ha, ih]
    simp

/-- The bytes of a loop state of `match_component`. -/
def starOffset (s : List Char × List Char) : StarOffset := ⟨encode s.1, encode s.2⟩

/-- What is known of the last `*` in the middle of the loop, in characters. -/
def Tried (p n : List Char) (last : Option (List Char × List Char)) : Prop :=
  Attempt (p.map element) n (last.map (fun s => (s.1.map element, s.2)))

theorem Tried.length {p n : List Char} {last : Option (List Char × List Char)} (h : Tried p n last)
    {s : List Char × List Char} (hs : s ∈ last) : n.length ≤ s.2.length := by
  obtain ⟨_, w, _, hw, _⟩ := h _ (Option.mem_map_of_mem _ hs)
  rw [show s.2 = w ++ n from hw]
  simp

/-- How much of the name the next attempt of the last `*` starts with. -/
def triesLeft (n : List Char) (last : Option (List Char × List Char)) : Nat :=
  (last.map (fun s => s.2.length)).getD (n.length + 1)

theorem Tried.left {p n : List Char} {last : Option (List Char × List Char)} (h : Tried p n last) :
    n.length ≤ triesLeft n last := by
  cases last with
  | none => exact Nat.le_succ _
  | some s => exact h.length rfl

theorem Tried.next {a : Char} {p n : List Char} {c : Char}
    {last : Option (List Char × List Char)} (h : Tried (a :: p) (c :: n) last)
    (ha : element a ≠ .many) : Tried p n last := by
  rw [Tried, List.map_cons] at h
  exact h.step ha

/-- What `match_component` decides in the middle of its loop. -/
def Decides (cs : IgnoreCaseSensitivity) (p n : List Char) (last : Option (List Char × List Char)) :
    Prop :=
  ∀ h, matchFrom cs (encode p) (encode n) (last.map starOffset) h = true ↔
    Matches (sameCharacter cs) (p.map element) n ∨
      ∃ s ∈ last, Matches (sameCharacter cs) (.many :: s.1.map element) s.2.tail

theorem decides_nil {p : List Char} {last : Option (List Char × List Char)} (tried : Tried p [] last) :
    Decides cs p [] last := by
  intro h
  rw [encode_nil] at h
  simp only [encode_nil]
  rw [matchFrom_nil, encode_star, matches_empty, iff_self_or]
  rintro ⟨s, hs, hm⟩
  obtain ⟨m, hm, _, hp⟩ := tried.behind (Option.mem_map_of_mem _ hs) hm
  rw [List.suffix_nil.mp hm] at hp
  exact matches_empty.mp hp

theorem tryAgain_iff {last : Option (List Char × List Char)}
    (h : ∀ s ∈ last, Decides cs s.1 s.2.tail (some (s.1, s.2.tail))) :
    tryAgain cs (last.map starOffset) = true ↔
      ∃ s ∈ last, Matches (sameCharacter cs) (.many :: s.1.map element) s.2.tail := by
  cases last with
  | none => simp [tryAgain]
  | some s =>
    have hnext := h s rfl (by simp [starOffset])
    simp only [Option.mem_def, Option.some.injEq, exists_eq_left'] at hnext ⊢
    rw [matches_many_tail, ← hnext]
    simp only [tryAgain, Option.map_some, starOffset, nextCharacter_encode]

section Step

variable {a c : Char} {p n : List Char} {last : Option (List Char × List Char)}

theorem encode_ne_nil : encode (c :: n) ≠ [] := by
  simp [String.utf8EncodeChar_ne_nil]

theorem shorter (h : ∀ s ∈ last.map starOffset, (encode (c :: n)).length ≤ s.name.length) :
    ∀ s ∈ last.map starOffset, (encode n).length ≤ s.name.length := by
  intro s hs
  have := h s hs
  rw [encode_cons, List.length_append] at this
  omega

theorem decides_one (h : Decides cs p n last) : Decides cs ('?' :: p) (c :: n) last := by
  intro hl
  have hone : element '?' = .one := by simp [element]
  have hrest : ∀ s ∈ last.map starOffset, (nextCharacter (encode (c :: n))).length ≤ s.name.length := by
    rw [nextCharacter_encode, List.tail_cons]
    exact shorter hl
  have hnext := h (shorter hl)
  rw [List.map_cons, hone, matches_single (by simp)]
  simp only [fits, true_and]
  rw [← hnext]
  change matchFrom cs (questionMark :: encode p) _ _ hl = true ↔ _
  rw [matchFrom_one encode_ne_nil hl hrest]
  simp only [nextCharacter_encode, List.tail_cons]

/-- What an earlier `*` would give, a new one gives as well. -/
theorem decides_star (tried : Tried ('*' :: p) (c :: n) last)
    (h : Decides cs p (c :: n) (some (p, c :: n))) : Decides cs ('*' :: p) (c :: n) last := by
  intro hl
  have hmany : element '*' = .many := by simp [element]
  have hnext := h (by simp [starOffset])
  simp only [Option.mem_def, Option.some.injEq, exists_eq_left', List.tail_cons] at hnext
  change matchFrom cs (star :: encode p) _ _ hl = true ↔ _
  rw [matchFrom_star encode_ne_nil, List.map_cons, hmany]
  refine hnext.trans ?_
  rw [← matches_many_cons]
  constructor
  · exact Or.inl
  · rintro (hm | ⟨s, hs, hm⟩)
    · exact hm
    · rw [Tried, List.map_cons, hmany] at tried
      obtain ⟨m, hsuffix, _, hp⟩ := tried.behind (Option.mem_map_of_mem _ hs) hm
      exact hp.extend hsuffix

theorem decides_literal (hq : a ≠ '?') (hs : a ≠ '*')
    (hagain : tryAgain cs (last.map starOffset) = true ↔
      ∃ s ∈ last, Matches (sameCharacter cs) (.many :: s.1.map element) s.2.tail)
    (h : Decides cs p n last) : Decides cs (a :: p) (c :: n) last := by
  intro hl
  have helement : element a = .literal a := by simp [element, hq, hs]
  have hnext := h (shorter hl)
  simp only [encode_cons, List.map_cons, helement]
  rw [matchFrom_character hq hs _ (shorter hl), matches_single (by simp)]
  by_cases hsame : sameCharacter cs a c = true
  · rw [if_pos hsame, hnext]
    simp [fits, hsame]
  · rw [if_neg hsame, hagain]
    simp [fits, hsame]

end Step

/-- By induction on the tries that are left, and on the pattern while none is spent. -/
theorem decides (p n : List Char) (last : Option (List Char × List Char)) (tried : Tried p n last) :
    Decides cs p n last := by
  induction hk : triesLeft n last using Nat.strong_induction_on generalizing p n last with
  | _ k ihk =>
  have htry : ∀ {p c n last}, Tried p (c :: n) last → triesLeft (c :: n) last = k →
      ∀ s ∈ last, Decides cs s.1 s.2.tail (some (s.1, s.2.tail)) := by
    intro p c n last htried hk s hs
    have hpos := htried.length hs
    refine ihk _ ?_ _ _ _ (Attempt.start _ _) rfl
    cases hs
    rw [← hk]
    simp only [triesLeft, Option.map_some, Option.getD_some, List.length_tail, List.length_cons]
      at hpos ⊢
    omega
  induction p generalizing n last with
  | nil =>
    cases n with
    | nil => exact decides_nil tried
    | cons c n =>
      intro hl
      rw [encode_nil, matchFrom_end encode_ne_nil, tryAgain_iff (htry tried hk)]
      simp
  | cons a p ihp =>
    cases n with
    | nil => exact decides_nil tried
    | cons c n =>
      have hrec : ∀ {n last}, Tried p n last → triesLeft n last ≤ k → Decides cs p n last := by
        intro n last htried hle
        rcases Nat.lt_or_eq_of_le hle with hlt | heq
        · exact ihk _ hlt p n last htried rfl
        · exact ihp n last htried heq
      have hstep : triesLeft n last ≤ k := by
        rw [← hk]
        cases last <;> simp [triesLeft]
      by_cases hq : a = '?'
      · subst hq
        exact decides_one (hrec (tried.next (by simp [element])) hstep)
      by_cases hs : a = '*'
      · subst hs
        exact decides_star tried (hrec (Attempt.start _ _) (hk ▸ tried.left))
      · exact decides_literal hq hs (tryAgain_iff (htry tried hk))
          (hrec (tried.next (by simp [element, hq, hs])) hstep)

/-- What `match_component` decides of encoded texts. -/
theorem matchComponent_iff (pattern name : List Char) (cs : IgnoreCaseSensitivity) :
    matchComponent (encode pattern) (encode name) cs = true ↔
      Matches (sameCharacter cs) (pattern.map element) name := by
  have htried : Tried pattern name none := by
    intro s hs
    cases hs
  have hdecides : Decides cs pattern name none := decides pattern name none htried
  have h := hdecides (by simp)
  simpa [matchComponent] using h

end LocalVault.Snapshot
