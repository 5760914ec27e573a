import Mathlib.Algebra.BigOperators.Ring.Finset
import Mathlib.Algebra.Order.BigOperators.Group.List
import Mathlib.Algebra.Order.Ring.Int
import Mathlib.Data.List.Sort
import Mathlib.Tactic.SplitIfs

namespace LocalVault.Library.Utf8

/-- The bytes of one Unicode scalar value. -/
def IsCharacter (w : List UInt8) : Prop := ∃ c : Char, String.utf8EncodeChar c = w

/-- The bytes of the scalar value `n`. -/
def spelling (n : Nat) : List UInt8 :=
  if n < 0x80 then [.ofNat n]
  else if n < 0x800 then [.ofNat (n / 64 + 0xC0), .ofNat (n % 64 + 0x80)]
  else if n < 0x10000 then
    [.ofNat (n / 4096 + 0xE0), .ofNat (n / 64 % 64 + 0x80), .ofNat (n % 64 + 0x80)]
  else
    [.ofNat (n / 262144 + 0xF0), .ofNat (n / 4096 % 64 + 0x80), .ofNat (n / 64 % 64 + 0x80),
      .ofNat (n % 64 + 0x80)]

variable {a b c d : UInt8} {w : List UInt8} {n : Nat}

theorem valid_max (h : n.isValidChar) : n < 0x110000 := by
  rcases h with h | h <;> omega

theorem utf8EncodeChar_eq (c : Char) : String.utf8EncodeChar c = spelling c.val.toNat := by
  have hmax := valid_max (n := c.val.toNat) c.valid
  unfold String.utf8EncodeChar spelling
  dsimp only
  split_ifs <;> first | rfl | omega | skip
  · rw [Nat.mod_eq_of_lt (a := c.val.toNat / 64) (by omega)]
  · rw [Nat.mod_eq_of_lt (a := c.val.toNat / 4096) (by omega)]
  · rw [Nat.mod_eq_of_lt (a := c.val.toNat / 262144) (by omega)]

theorem isCharacter_iff : IsCharacter w ↔ ∃ n : Nat, n.isValidChar ∧ spelling n = w := by
  constructor
  · rintro ⟨c, rfl⟩
    exact ⟨c.val.toNat, c.valid, (utf8EncodeChar_eq c).symm⟩
  · rintro ⟨n, hn, rfl⟩
    refine ⟨Char.ofNat n, ?_⟩
    rw [utf8EncodeChar_eq, show (Char.ofNat n).val.toNat = n from ?_]
    rw [Char.ofNat, dif_pos hn]
    rfl

theorem ofNat_eq (hn : n < 256) : UInt8.ofNat n = a ↔ n = a.toNat := by
  rw [← UInt8.toNat_inj, UInt8.toNat_ofNat_of_lt' hn]

theorem isCharacter_one : IsCharacter [a] ↔ a.toNat < 0x80 := by
  rw [isCharacter_iff]
  constructor
  · rintro ⟨n, hn, h⟩
    unfold spelling at h
    split_ifs at h
    · rw [List.cons.injEq, ofNat_eq (by omega)] at h
      omega
    all_goals simp at h
  · intro h
    refine ⟨a.toNat, Or.inl (by omega), ?_⟩
    rw [spelling, if_pos h, UInt8.ofNat_toNat]

/-- The second byte carries the last six bits. -/
theorem isCharacter_two : IsCharacter [a, b] ↔
    (0xC2 ≤ a.toNat ∧ a.toNat ≤ 0xDF) ∧ 0x80 ≤ b.toNat ∧ b.toNat < 0xC0 := by
  rw [isCharacter_iff]
  constructor
  · rintro ⟨n, hn, h⟩
    unfold spelling at h
    split_ifs at h
    · simp at h
    · simp only [List.cons.injEq, and_true] at h
      rw [ofNat_eq (by omega), ofNat_eq (by omega)] at h
      omega
    all_goals simp at h
  · rintro ⟨ha, hb⟩
    refine ⟨(a.toNat - 0xC0) * 64 + (b.toNat - 0x80), Or.inl (by omega), ?_⟩
    rw [spelling, if_neg (by omega), if_pos (by omega)]
    simp only [List.cons.injEq, and_true]
    rw [ofNat_eq (by omega), ofNat_eq (by omega)]
    omega

/-- After `0xE0` an overlong form must be kept out, after `0xED` a surrogate. -/
theorem isCharacter_three : IsCharacter [a, b, c] ↔
    (0xE0 ≤ a.toNat ∧ a.toNat ≤ 0xEF) ∧ (0x80 ≤ b.toNat ∧ b.toNat < 0xC0) ∧
      (0x80 ≤ c.toNat ∧ c.toNat < 0xC0) ∧ (a.toNat = 0xE0 → 0xA0 ≤ b.toNat) ∧
      (a.toNat = 0xED → b.toNat ≤ 0x9F) := by
  rw [isCharacter_iff]
  constructor
  · rintro ⟨n, hn, h⟩
    have hmax := valid_max hn
    unfold spelling at h
    split_ifs at h
    · simp at h
    · simp at h
    · simp only [List.cons.injEq, and_true] at h
      rw [ofNat_eq (by omega), ofNat_eq (by omega), ofNat_eq (by omega)] at h
      rcases hn with hn | hn <;> omega
    · simp at h
  · rintro ⟨ha, hb, hc, hlong, hsurrogate⟩
    refine ⟨(a.toNat - 0xE0) * 4096 + (b.toNat - 0x80) * 64 + (c.toNat - 0x80), ?_, ?_⟩
    · by_cases hbefore : a.toNat ≤ 0xED
      · exact Or.inl (by omega)
      · exact Or.inr (by omega)
    · rw [spelling, if_neg (by omega), if_neg (by omega), if_pos (by omega)]
      simp only [List.cons.injEq, and_true]
      rw [ofNat_eq (by omega), ofNat_eq (by omega), ofNat_eq (by omega)]
      omega

/-- After `0xF0` an overlong form must be kept out, after `0xF4` what is above U+10FFFF. -/
theorem isCharacter_four : IsCharacter [a, b, c, d] ↔
    (0xF0 ≤ a.toNat ∧ a.toNat ≤ 0xF4) ∧ (0x80 ≤ b.toNat ∧ b.toNat < 0xC0) ∧
      (0x80 ≤ c.toNat ∧ c.toNat < 0xC0) ∧ (0x80 ≤ d.toNat ∧ d.toNat < 0xC0) ∧
      (a.toNat = 0xF0 → 0x90 ≤ b.toNat) ∧ (a.toNat = 0xF4 → b.toNat ≤ 0x8F) := by
  rw [isCharacter_iff]
  constructor
  · rintro ⟨n, hn, h⟩
    have hmax := valid_max hn
    unfold spelling at h
    split_ifs at h
    · simp at h
    · simp at h
    · simp at h
    · simp only [List.cons.injEq, and_true] at h
      rw [ofNat_eq (by omega), ofNat_eq (by omega), ofNat_eq (by omega), ofNat_eq (by omega)] at h
      omega
  · rintro ⟨ha, hb, hc, hd, hlong, hlarge⟩
    refine ⟨(a.toNat - 0xF0) * 262144 + (b.toNat - 0x80) * 4096 + (c.toNat - 0x80) * 64 +
      (d.toNat - 0x80), Or.inr (by omega), ?_⟩
    rw [spelling, if_neg (by omega), if_neg (by omega), if_neg (by omega)]
    simp only [List.cons.injEq, and_true]
    rw [ofNat_eq (by omega), ofNat_eq (by omega), ofNat_eq (by omega), ofNat_eq (by omega)]
    omega

/-- A character takes one to four bytes. -/
theorem isCharacter_cases (h : IsCharacter w) :
    (∃ a, w = [a]) ∨ (∃ a b, w = [a, b]) ∨ (∃ a b c, w = [a, b, c]) ∨
      ∃ a b c d, w = [a, b, c, d] := by
  obtain ⟨n, _, rfl⟩ := isCharacter_iff.mp h
  unfold spelling
  split_ifs
  · exact Or.inl ⟨_, rfl⟩
  · exact Or.inr (Or.inl ⟨_, _, rfl⟩)
  · exact Or.inr (Or.inr (Or.inl ⟨_, _, _, rfl⟩))
  · exact Or.inr (Or.inr (Or.inr ⟨_, _, _, _, rfl⟩))

end LocalVault.Library.Utf8
