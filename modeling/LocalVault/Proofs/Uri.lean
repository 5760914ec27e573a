import LocalVault.Database.Uri

namespace LocalVault.ImmutableUri
open Library

/-- The URI is read as the path, with `immutable=1` as the only parameter. -/
def Denotes (platform : Platform) (path : Bytes) : Prop :=
  opened platform (immutableDatabaseUri platform path) =
    some (path, [(ascii "immutable", ascii "1")])

instance (platform : Platform) (path : Bytes) : Decidable (Denotes platform path) :=
  inferInstanceAs (Decidable (_ = _))

section Denotes

variable {platform : Platform} {path rest : Bytes} {b : UInt8}

theorem plain_percent : isUriPathCharacter Uri.percent = false := by decide

/-- No byte that ends a path is written into one. -/
theorem percentEncodeUriPath_mem (h : b ∈ percentEncodeUriPath path) :
    b ≠ Uri.hash ∧ b ≠ Uri.question := by
  have hplain : isUriPathCharacter Uri.hash = false ∧ isUriPathCharacter Uri.question = false := by
    decide
  have hdigits : Uri.hash ∉ Uri.hexadecimal ∧ Uri.question ∉ Uri.hexadecimal := by decide
  constructor
  all_goals
    rintro rfl
    rcases Uri.encode_mem h with h | h | h
    · simp [hplain] at h
    · revert h
      decide
    · simp [hdigits] at h

theorem percentEncodeUriPath_cons : percentEncodeUriPath (b :: rest) =
    (if isUriPathCharacter b then [b] else Uri.escape b) ++ percentEncodeUriPath rest := rfl

/-- The first byte of an encoded path is a slash when the first byte of the path is. -/
theorem percentEncodeUriPath_head (h : (percentEncodeUriPath path).head? = some slash) :
    path.head? = some slash := by
  cases path with
  | nil => cases h
  | cons b rest =>
    rw [percentEncodeUriPath_cons] at h
    split at h
    · exact h
    · cases h

theorem decode_percentEncodeUriPath (hz : 0 ∉ path) :
    Uri.decode (percentEncodeUriPath path) = path := by
  have h : Uri.decode (percentEncodeUriPath path ++ []) = path ++ Uri.decode [] :=
    Uri.decode_encode plain_percent hz
  rwa [List.append_nil, show Uri.decode [] = [] from rfl, List.append_nil] at h

/-- Behind its authority a URI is read up to the query that the code adds. -/
theorem parse_text {text encoded : Bytes} (he : ∀ b ∈ encoded, b ≠ Uri.hash ∧ b ≠ Uri.question)
    (h : Uri.dropAuthority text = some (encoded ++ ascii "?immutable=1")) :
    Uri.parse (ascii "file:" ++ text) =
      some ⟨Uri.decode encoded, [(ascii "immutable", ascii "1")]⟩ := by
  have hscheme : ascii "file:" = Uri.scheme := by decide
  have hquery : ascii "?immutable=1" = Uri.question :: ascii "immutable=1" := by decide
  have hwhole : (encoded ++ ascii "?immutable=1").takeWhile (· ≠ Uri.hash) =
      encoded ++ ascii "?immutable=1" := by
    rw [List.takeWhile_append_of_pos (by simpa using fun b hb => (he b hb).1)]
    rfl
  have hpath : (encoded ++ ascii "?immutable=1").takeWhile (· ≠ Uri.question) = encoded := by
    rw [List.takeWhile_append_of_pos (by simpa using fun b hb => (he b hb).2), hquery]
    simp
  have hrest : (encoded ++ ascii "?immutable=1").dropWhile (· ≠ Uri.question) =
      ascii "?immutable=1" := by
    rw [List.dropWhile_append_of_pos (by simpa using fun b hb => (he b hb).2)]
    rfl
  unfold Uri.parse
  rw [hscheme, List.take_left, if_pos rfl, List.drop_left, h]
  simp only [bind, Option.bind, hwhole, hpath, hrest]
  rfl

/-- A text that does not start with two slashes has no authority. -/
theorem dropAuthority_self {text : Bytes} (h : text.take 2 ≠ [slash, slash]) :
    Uri.dropAuthority text = some text :=
  if_neg h

theorem openedPath_length : (openedPath platform path).length ≤ path.length := by
  unfold openedPath
  split
  · split
    · simp
    · exact le_rfl
  · exact le_rfl

/-- What the code writes behind the scheme. -/
theorem immutableDatabaseUri_text (h : platform = .posix ∨ namesDrive path = false) :
    immutableDatabaseUri platform path =
      ascii "file:" ++ (percentEncodeUriPath path ++ ascii "?immutable=1") := by
  have hno : ¬ (platform = .windows ∧ namesDrive path = true) := by
    rintro ⟨rfl, hd⟩
    rcases h with h | h
    · cases h
    · simp [h] at hd
  rw [immutableDatabaseUri, if_neg hno, List.append_nil, List.append_assoc]

/-- A rooted path whose second byte is no slash goes without an authority. -/
theorem denotes_rooted (hz : 0 ∉ slash :: rest) (hsecond : rest.head? ≠ some slash) :
    Denotes .posix (slash :: rest) := by
  have hcons : percentEncodeUriPath (slash :: rest) = slash :: percentEncodeUriPath rest := rfl
  have htext : (percentEncodeUriPath (slash :: rest) ++ ascii "?immutable=1").take 2 ≠
      [slash, slash] := by
    intro h
    rw [hcons] at h
    cases he : percentEncodeUriPath rest with
    | nil =>
      rw [he] at h
      exact absurd h (by decide)
    | cons c tail =>
      rw [he] at h
      simp only [List.cons_append, List.take_succ_cons, List.take_zero, List.cons.injEq, true_and,
        and_true] at h
      exact hsecond (percentEncodeUriPath_head (by rw [he, h]; rfl))
  unfold Denotes opened
  rw [immutableDatabaseUri_text (.inl rfl),
    parse_text (fun _ => percentEncodeUriPath_mem) (dropAuthority_self htext),
    decode_percentEncodeUriPath hz]
  rfl

/-- A drive goes behind an empty authority, and loses the slash in front of it when it is
opened. -/
theorem denotes_drive (hz : 0 ∉ path) (hd : namesDrive path = true) : Denotes .windows path := by
  have hauthority : Uri.dropAuthority (ascii "///" ++
      (percentEncodeUriPath path ++ ascii "?immutable=1")) =
        some (percentEncodeUriPath (slash :: path) ++ ascii "?immutable=1") := rfl
  have hz' : 0 ∉ slash :: path := by
    simp only [List.mem_cons, not_or]
    exact ⟨by decide, hz⟩
  have hopened : openedPath .windows (slash :: path) = path := by
    unfold namesDrive at hd
    match path, hd with
    | first :: second :: third :: tail, hd =>
      simp only [isAbsolute, Bool.and_eq_true, Bool.or_eq_true, beq_iff_eq, List.getElem?_cons_zero,
        List.getElem?_cons_succ, Option.some.injEq] at hd
      obtain ⟨⟨⟨hd, -⟩, hsecond⟩, -⟩ := hd
      have hletter : isLetter first = true := by
        rcases hd with ⟨⟨h, -⟩, -⟩ | ⟨⟨-, h⟩, -⟩
        · exact h
        · rw [hsecond] at h
          exact absurd h (by decide)
      exact if_pos ⟨rfl, hletter, hsecond⟩
  have huri : immutableDatabaseUri .windows path = ascii "file:" ++ (ascii "///" ++
      (percentEncodeUriPath path ++ ascii "?immutable=1")) := by
    rw [immutableDatabaseUri, if_pos ⟨rfl, hd⟩, List.append_assoc, List.append_assoc]
  unfold Denotes opened
  rw [huri, parse_text (fun _ => percentEncodeUriPath_mem) hauthority,
    decode_percentEncodeUriPath hz', Option.map_some, hopened]

theorem parse_refused {text : Bytes} (h : Uri.dropAuthority text = none) :
    Uri.parse (ascii "file:" ++ text) = none := by
  have hscheme : ascii "file:" = Uri.scheme := by decide
  unfold Uri.parse
  rw [hscheme, List.take_left, if_pos rfl, List.drop_left, h]
  rfl

/-- An authority that is let through is empty or the name of this machine. -/
theorem dropAuthority_network {text tail : Bytes}
    (h : Uri.dropAuthority (slash :: slash :: text) = some tail) :
    ∃ authority, (authority = [] ∨ authority = Uri.localhost) ∧ text = authority ++ tail := by
  unfold Uri.dropAuthority at h
  rw [if_pos (show List.take 2 (slash :: slash :: text) = [Uri.separator, Uri.separator] from
    rfl)] at h
  dsimp only at h
  split at h
  · rename_i ha
    refine ⟨_, ha, ?_⟩
    rw [← Option.some.inj h]
    exact (List.takeWhile_append_dropWhile).symm
  · cases h

/-- An authority that is let through is a plain part of the encoded path. -/
theorem authority_split {authority tail : Bytes}
    (h : percentEncodeUriPath rest ++ ascii "?immutable=1" = authority ++ tail)
    (ha : authority = [] ∨ authority = Uri.localhost) :
    ∃ encoded, percentEncodeUriPath rest = authority ++ encoded ∧
      tail = encoded ++ ascii "?immutable=1" := by
  have hno : Uri.question ∉ authority := by
    rcases ha with rfl | rfl <;> decide
  rcases List.append_eq_append_iff.mp h with ⟨c, hc, ht⟩ | ⟨c, hc, ht⟩
  · cases c with
    | nil => exact ⟨[], by simpa using hc.symm, by simpa using ht.symm⟩
    | cons q c =>
      have hq : q = Uri.question := (Option.some.inj (congrArg List.head? ht)).symm
      refine absurd ?_ hno
      rw [hc, hq]
      simp
  · exact ⟨c, hc, ht⟩

/-- The first name of a network path stands where a URI has its authority. -/
theorem not_denotes_network (hz : 0 ∉ slash :: slash :: rest) :
    ¬ Denotes platform (slash :: slash :: rest) := by
  have hno : namesDrive (slash :: slash :: rest) = false := by
    have hne : (slash == colon) = false := by decide
    simp [namesDrive, hne]
  have htext : percentEncodeUriPath (slash :: slash :: rest) ++ ascii "?immutable=1" =
      slash :: slash :: (percentEncodeUriPath rest ++ ascii "?immutable=1") := rfl
  intro hd
  unfold Denotes opened at hd
  rw [immutableDatabaseUri_text (.inr hno), htext] at hd
  cases ha : Uri.dropAuthority
      (slash :: slash :: (percentEncodeUriPath rest ++ ascii "?immutable=1")) with
  | none =>
    rw [show Uri.parse _ = none from parse_refused ha] at hd
    cases hd
  | some tail =>
    obtain ⟨authority, hplain, hsplit⟩ := dropAuthority_network ha
    obtain ⟨encoded, hencoded, rfl⟩ := authority_split hsplit hplain
    have hmem : ∀ b ∈ encoded, b ≠ Uri.hash ∧ b ≠ Uri.question := fun b hb =>
      @percentEncodeUriPath_mem rest b (hencoded ▸ List.mem_append_right _ hb)
    rw [parse_text hmem ha] at hd
    have hrest : authority ++ Uri.decode encoded = rest := by
      have hself : percentEncodeUriPath authority = authority ∧ 0 ∉ authority := by
        rcases hplain with rfl | rfl <;> decide
      have hdecode : Uri.decode (percentEncodeUriPath authority ++ encoded) =
          authority ++ Uri.decode encoded :=
        Uri.decode_encode plain_percent hself.2
      have hwhole : Uri.decode (percentEncodeUriPath rest) = rest :=
        decode_percentEncodeUriPath fun h => hz (by simp [h])
      rw [hself.1, ← hencoded, hwhole] at hdecode
      exact hdecode.symm
    have hpath : openedPath platform (Uri.decode encoded) = slash :: slash :: rest := by
      simpa using congrArg (Option.map Prod.fst) hd
    have hshort := @openedPath_length platform (Uri.decode encoded)
    rw [hpath, ← hrest] at hshort
    simp only [List.length_cons, List.length_append] at hshort
    omega

/-- The URI denotes an absolute path unless the path starts with two slashes. -/
theorem immutableDatabaseUri_denotes (platform : Platform) (path : Bytes)
    (habsolute : isAbsolute platform path = true) (hzero : 0 ∉ path) :
    Denotes platform path ↔ ¬ [slash, slash] <+: path := by
  constructor
  · rintro hd ⟨rest, rfl⟩
    exact not_denotes_network hzero hd
  · intro hp
    cases platform with
    | posix =>
      cases path with
      | nil => cases habsolute
      | cons first rest =>
        have hfirst : first = slash := by simpa [isAbsolute] using habsolute
        subst hfirst
        refine denotes_rooted hzero fun h => hp ?_
        obtain ⟨tail, rfl⟩ := List.head?_eq_some_iff.mp h
        exact ⟨tail, rfl⟩
    | windows =>
      refine denotes_drive hzero ?_
      match path, habsolute with
      | first :: second :: third :: tail, habs =>
        have hparts := habs
        simp only [isAbsolute, Bool.and_eq_true, Bool.or_eq_true, beq_iff_eq] at hparts
        rcases hparts with ⟨⟨-, hsecond⟩, hthird⟩ | ⟨⟨hf, hs⟩, -⟩
        · subst hsecond hthird
          simp [namesDrive, habs]
        · exact absurd ⟨third :: tail, by rw [hf, hs]; rfl⟩ hp

/-- A drive path with every kind of byte that has to be escaped. -/
theorem immutableDatabaseUri_denotes_drive :
    Denotes .windows (ascii "C:/50% #1/r.db") :=
  (immutableDatabaseUri_denotes .windows (ascii "C:/50% #1/r.db") (by decide) (by decide)).mpr
    (by decide)

/-- A database on a network share is not opened: its server is refused as an authority. -/
theorem network_path_refused :
    isAbsolute .windows (ascii "//server/share/repository.db") = true ∧
      0 ∉ ascii "//server/share/repository.db" ∧
      Uri.parse (immutableDatabaseUri .windows (ascii "//server/share/repository.db")) = none ∧
      ¬ Denotes .windows (ascii "//server/share/repository.db") := by
  decide +kernel

end Denotes

end LocalVault.ImmutableUri
