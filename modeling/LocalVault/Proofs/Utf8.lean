import LocalVault.Library.Utf8
import LocalVault.Proofs.Globbing
import LocalVault.Utf8

namespace LocalVault
open Library.Utf8 Snapshot

variable {first b c d : UInt8} {w rest : Bytes}

theorem continuation_table : ∀ high < 16, ∀ low < 16,
    isContinuation (UInt8.ofNat (16 * high + low)) = decide (8 ≤ high ∧ high < 12) := by
  decide

theorem isContinuation_iff : isContinuation b = true ↔ 0x80 ≤ b.toNat ∧ b.toNat < 0xC0 := by
  have hlt := b.toNat_lt
  have h := continuation_table (b.toNat / 16) (by omega) (b.toNat % 16) (by omega)
  rw [Nat.div_add_mod, UInt8.ofNat_toNat] at h
  rw [h, decide_eq_true_iff]
  omega

theorem isForbiddenSecond_iff : isForbiddenSecond first b = true ↔
    (first.toNat = 0xE0 ∧ b.toNat < 0xA0) ∨ (first.toNat = 0xED ∧ 0x9F < b.toNat) ∨
      (first.toNat = 0xF0 ∧ b.toNat < 0x90) ∨ (first.toNat = 0xF4 ∧ 0x8F < b.toNat) := by
  simp [isForbiddenSecond, ← UInt8.toNat_inj, UInt8.lt_iff_toNat_lt, or_assoc]

theorem within_iff {low high : UInt8} : (low ≤ first ∧ first ≤ high) ↔
    low.toNat ≤ first.toNat ∧ first.toNat ≤ high.toNat := by
  rw [UInt8.le_iff_toNat_le, UInt8.le_iff_toNat_le]

theorem not_single (h : 0x80 ≤ first.toNat) : ¬ first ≤ 0x7F := by
  rw [UInt8.le_iff_toNat_le]
  simp
  omega

/-- The text begins with the bytes of a character. -/
theorem isValidUtf8_cons : isValidUtf8 (first :: rest) = true ↔
    ∃ w tail, first :: rest = w ++ tail ∧ IsCharacter w ∧ isValidUtf8 tail = true := by
  constructor
  · intro h
    rw [isValidUtf8.eq_def] at h
    simp only [within_iff] at h
    split_ifs at h with hone htwo hthree hfour
    · refine ⟨[first], rest, rfl, isCharacter_one.mpr ?_, h⟩
      have := UInt8.le_iff_toNat_le.mp hone
      simp at this
      omega
    · match rest, h with
      | b :: rest, h =>
        simp only [Bool.and_eq_true, isContinuation_iff] at h
        exact ⟨[first, b], rest, rfl, isCharacter_two.mpr ⟨htwo, h.1⟩, h.2⟩
    · match rest, h with
      | b :: c :: rest, h =>
        simp only [Bool.and_eq_true, isContinuation_iff, Bool.not_eq_true',
          ← Bool.not_eq_true, isForbiddenSecond_iff] at h
        exact ⟨[first, b, c], rest, rfl, isCharacter_three.mpr ⟨hthree, by omega⟩, h.2⟩
    · match rest, h with
      | b :: c :: d :: rest, h =>
        simp only [Bool.and_eq_true, isContinuation_iff, Bool.not_eq_true',
          ← Bool.not_eq_true, isForbiddenSecond_iff] at h
        exact ⟨[first, b, c, d], rest, rfl, isCharacter_four.mpr ⟨hfour, by omega⟩, h.2⟩
  · rintro ⟨w, tail, happend, hw, h⟩
    rw [happend, isValidUtf8.eq_def]
    rcases isCharacter_cases hw with ⟨a, rfl⟩ | ⟨a, b, rfl⟩ | ⟨a, b, c, rfl⟩ | ⟨a, b, c, d, rfl⟩
    · have ha := isCharacter_one.mp hw
      have hone : a ≤ 0x7F := UInt8.le_iff_toNat_le.mpr (by simp; omega)
      simpa [hone] using h
    · obtain ⟨ha, hb⟩ := isCharacter_two.mp hw
      have htwo : 0xC2 ≤ a ∧ a ≤ 0xDF := within_iff.mpr ha
      have hone : ¬ a ≤ 0x7F := not_single (by omega)
      simp [hone, htwo, isContinuation_iff.mpr hb, h]
    · obtain ⟨ha, hb, hc, hlong, hsurrogate⟩ := isCharacter_three.mp hw
      have htwo : ¬ (0xC2 ≤ a ∧ a ≤ 0xDF) := by
        rw [within_iff]
        simp
        omega
      have hthree : 0xE0 ≤ a ∧ a ≤ 0xEF := within_iff.mpr ha
      have hallowed : ¬ isForbiddenSecond a b = true := by
        rw [isForbiddenSecond_iff]
        omega
      have hone : ¬ a ≤ 0x7F := not_single (by omega)
      simp [hone, htwo, hthree, isContinuation_iff.mpr hb, isContinuation_iff.mpr hc,
        hallowed, h]
    · obtain ⟨ha, hb, hc, hd, hlong, hlarge⟩ := isCharacter_four.mp hw
      have htwo : ¬ (0xC2 ≤ a ∧ a ≤ 0xDF) := by
        rw [within_iff]
        simp
        omega
      have hthree : ¬ (0xE0 ≤ a ∧ a ≤ 0xEF) := by
        rw [within_iff]
        simp
        omega
      have hfour : 0xF0 ≤ a ∧ a ≤ 0xF4 := within_iff.mpr ha
      have hallowed : ¬ isForbiddenSecond a b = true := by
        rw [isForbiddenSecond_iff]
        omega
      have hone : ¬ a ≤ 0x7F := not_single (by omega)
      simp [hone, htwo, hthree, hfour, isContinuation_iff.mpr hb,
        isContinuation_iff.mpr hc, isContinuation_iff.mpr hd, hallowed, h]

/-- The valid texts are the encoded ones. -/
theorem isValidUtf8_iff (text : Bytes) :
    isValidUtf8 text = true ↔ ∃ characters : List Char, encode characters = text := by
  constructor
  · intro h
    induction hk : text.length using Nat.strong_induction_on generalizing text with
    | _ k ih =>
    cases text with
    | nil => exact ⟨[], rfl⟩
    | cons first rest =>
      obtain ⟨w, tail, happend, ⟨c, rfl⟩, htail⟩ := isValidUtf8_cons.mp h
      have hlength := congrArg List.length happend
      have hpos := c.utf8Size_pos
      rw [List.length_append, String.length_utf8EncodeChar] at hlength
      obtain ⟨cs, rfl⟩ := ih tail.length (by omega) tail htail rfl
      exact ⟨c :: cs, happend.symm⟩
  · rintro ⟨characters, rfl⟩
    induction characters with
    | nil => rfl
    | cons c cs ih =>
      obtain ⟨first, rest, hcons⟩ := List.exists_cons_of_ne_nil (encode_ne_nil (c := c) (n := cs))
      rw [hcons, isValidUtf8_cons, ← hcons]
      exact ⟨String.utf8EncodeChar c, encode cs, rfl, ⟨c, rfl⟩, ih⟩

section Loop

variable {text : Bytes} {index : Nat}

theorem followedBy_drop (text : Bytes) (position count : Nat) :
    followedBy text position count = followedBy (text.drop position) 0 count := by
  induction count generalizing position text with
  | zero => rfl
  | succ count ih =>
    rw [followedBy, followedBy, List.getElem?_drop, ih text (position + 1),
      ih (text.drop position) (0 + 1), List.drop_drop]
    rfl

theorem secondRefused_eq (h : text[index + 1]? = some b) :
    secondRefused text index first = some (isForbiddenSecond first b) := by
  unfold secondRefused
  split
  · rw [h]
    rfl
  · rename_i hplain
    simp only [not_or] at hplain
    simp [isForbiddenSecond, hplain]

/-- From any place on the loop decides whether the rest of the text is valid, and it stays
inside. -/
theorem validUtf8From_eq (text : Bytes) (index : Nat) :
    validUtf8From text index = some (isValidUtf8 (text.drop index)) := by
  induction hk : text.length - index using Nat.strong_induction_on generalizing index with
  | _ k ih =>
  rw [validUtf8From]
  by_cases hin : index < text.length
  swap
  · rw [if_neg hin, List.drop_eq_nil_of_le (by omega)]
    rfl
  rw [if_pos hin, List.getElem?_eq_getElem hin, List.drop_eq_getElem_cons hin]
  generalize text[index] = first
  have hrest : (text.drop (index + 1)).length = text.length - (index + 1) := List.length_drop
  have hagain : ∀ n, 0 < n → validUtf8From text (index + n) =
      some (isValidUtf8 ((text.drop (index + 1)).drop (n - 1))) := by
    intro n hn
    rw [ih _ (by omega) (index + n) rfl, List.drop_drop]
    congr 3
    omega
  have hsecond : ∀ b rest, text.drop (index + 1) = b :: rest →
      secondRefused text index first = some (isForbiddenSecond first b) := by
    intro b rest htail
    refine secondRefused_eq ?_
    rw [← Nat.add_zero (index + 1), ← List.getElem?_drop, htail]
    rfl
  have hlong : ∀ n, text.length < index + n ↔ (text.drop (index + 1)).length + 1 < n := by omega
  simp only [followedBy_drop text, hlong]
  generalize text.drop (index + 1) = tail at hagain hsecond
  rw [isValidUtf8.eq_def]
  dsimp only
  by_cases hone : first ≤ 0x7F
  · simpa [hone] using hagain 1 (by omega)
  rw [if_neg hone, if_neg hone]
  split
  · rename_i hnone
    unfold announcedLength at hnone
    split_ifs at hnone
    simp [*]
  · rename_i length hlength
    unfold announcedLength at hlength
    split_ifs at hlength with htwo hthree hfour
    · cases hlength
      rw [if_pos htwo, hagain 2 (by omega)]
      rcases tail with _ | ⟨b, rest⟩
      · rfl
      · have hallowed : isForbiddenSecond first b = false := by
          rw [within_iff] at htwo
          rw [← Bool.not_eq_true, isForbiddenSecond_iff]
          simp at htwo
          omega
        cases hb : isContinuation b <;> simp [followedBy, hb, hsecond b rest rfl, hallowed]
    · cases hlength
      rw [if_neg htwo, if_pos hthree, hagain 3 (by omega)]
      rcases tail with _ | ⟨b, _ | ⟨c, rest⟩⟩
      · rfl
      · rfl
      · cases hb : isContinuation b <;> cases hc : isContinuation c <;>
          cases hf : isForbiddenSecond first b <;>
          simp [followedBy, hb, hc, hf, hsecond b _ rfl]
    · cases hlength
      rw [if_neg htwo, if_neg hthree, if_pos hfour, hagain 4 (by omega)]
      rcases tail with _ | ⟨b, _ | ⟨c, _ | ⟨d, rest⟩⟩⟩
      · rfl
      · rfl
      · rfl
      · cases hb : isContinuation b <;> cases hc : isContinuation c <;>
          cases hd : isContinuation d <;> cases hf : isForbiddenSecond first b <;>
          simp [followedBy, hb, hc, hd, hf, hsecond b _ rfl]

end Loop

theorem scanner_isValidUtf8 (text : Bytes) :
    FileScanner.isValidUtf8 text = some (isValidUtf8 text) :=
  validUtf8From_eq text 0

theorem restore_isValidUtf8 (text : Bytes) :
    RestoreEngine.isValidUtf8 text = some (isValidUtf8 text) :=
  validUtf8From_eq text 0

/-- Both validators have a value for every text, the same one, and accept what some sequence of
Unicode scalar values is encoded as. -/
theorem utf8_validators (text : Bytes) :
    ∃ valid, FileScanner.isValidUtf8 text = some valid ∧
      RestoreEngine.isValidUtf8 text = some valid ∧
      (valid = true ↔ ∃ characters : List Char, encode characters = text) :=
  ⟨isValidUtf8 text, scanner_isValidUtf8 text, restore_isValidUtf8 text, isValidUtf8_iff text⟩

namespace Snapshot
open Library Library.Glob

/-- A character and itself or, without regard to case, a letter of ASCII in either case. -/
def SameLetter (cs : IgnoreCaseSensitivity) (a c : Char) : Prop :=
  a = c ∨ cs = .insensitive ∧ a.isAlpha = true ∧ c.isAlpha = true ∧ a.toLower = c.toLower

theorem isAlpha_iff {c : Char} : c.isAlpha = true ↔
    (65 ≤ c.toNat ∧ c.toNat ≤ 90) ∨ (97 ≤ c.toNat ∧ c.toNat ≤ 122) := by
  unfold Char.isAlpha Char.isUpper Char.isLower
  simp only [Bool.or_eq_true, Bool.and_eq_true, decide_eq_true_eq, ge_iff_le, UInt32.le_iff_toNat_le]
  rfl

theorem sameCharacter_letter {cs : IgnoreCaseSensitivity} {a c : Char} :
    sameCharacter cs a c = true ↔ SameLetter cs a c := by
  rw [sameCharacter_iff, SameLetter, isAlpha_iff, isAlpha_iff, ← Char.toNat_inj, ← Char.toNat_inj,
    toLower_toNat, toLower_toNat]
  constructor
  · rintro (h | ⟨hcs, h⟩)
    · exact Or.inl h
    · by_cases he : a.toNat = c.toNat
      · exact Or.inl he
      · refine Or.inr ⟨hcs, ?_, ?_, h⟩ <;> unfold lower at h <;> split_ifs at h <;> omega
  · rintro (h | ⟨hcs, _, _, h⟩)
    · exact Or.inl h
    · exact Or.inr ⟨hcs, h⟩

/-- What a piece of a name may be for one character of a pattern. -/
def ReplacedBy (cs : IgnoreCaseSensitivity) (a : Char) (piece : List Char) : Prop :=
  if a = '*' then True
  else if a = '?' then ∃ c, piece = [c]
  else ∃ c, piece = [c] ∧ SameLetter cs a c

theorem stands_element {cs : IgnoreCaseSensitivity} {a : Char} {piece : List Char} :
    StandsFor (sameCharacter cs) (element a) piece ↔ ReplacedBy cs a piece := by
  unfold element ReplacedBy
  by_cases hq : a = '?'
  · subst hq
    simp [StandsFor]
  by_cases hs : a = '*'
  · subst hs
    simp [StandsFor]
  · simp [hq, hs, StandsFor, sameCharacter_letter]

/-- A name matches when it can be got from the pattern by replacing each character of it. -/
theorem matchComponent_replaces (pattern name : Bytes) (cs : IgnoreCaseSensitivity)
    (hpattern : isValidUtf8 pattern = true) (hname : isValidUtf8 name = true) :
    matchComponent pattern name cs = true ↔ ∃ characters pieces,
      encode characters = pattern ∧ encode pieces.flatten = name ∧
        List.Forall₂ (ReplacedBy cs) characters pieces := by
  have hstands : ∀ characters pieces, List.Forall₂ (ReplacedBy cs) characters pieces ↔
      List.Forall₂ (StandsFor (sameCharacter cs)) (characters.map element) pieces := by
    intro characters pieces
    rw [List.forall₂_map_left_iff]
    have hsame : ReplacedBy cs = fun a => StandsFor (sameCharacter cs) (element a) := by
      funext a piece
      exact propext stands_element.symm
    rw [hsame]
  constructor
  · obtain ⟨characters, rfl⟩ := (isValidUtf8_iff pattern).mp hpattern
    obtain ⟨text, rfl⟩ := (isValidUtf8_iff name).mp hname
    intro h
    obtain ⟨pieces, rfl, hpieces⟩ := matches_iff_pieces.mp ((matchComponent_iff _ _ cs).mp h)
    exact ⟨characters, pieces, rfl, rfl, (hstands _ _).mpr hpieces⟩
  · rintro ⟨characters, pieces, rfl, rfl, hpieces⟩
    exact (matchComponent_iff _ _ cs).mpr
      (matches_iff_pieces.mpr ⟨pieces, rfl, (hstands _ _).mp hpieces⟩)

/-- With `b` behind it, a star must give back what it has taken. -/
theorem matchComponent_replaces_back : matchComponent (ascii "*b") (ascii "abb") .sensitive = true ↔
    ∃ characters pieces, encode characters = ascii "*b" ∧ encode pieces.flatten = ascii "abb" ∧
      List.Forall₂ (ReplacedBy .sensitive) characters pieces :=
  matchComponent_replaces (ascii "*b") (ascii "abb") .sensitive (by decide) (by decide)

end Snapshot

end LocalVault
