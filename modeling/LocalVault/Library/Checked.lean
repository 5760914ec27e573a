import Mathlib.Algebra.BigOperators.Ring.Finset
import Mathlib.Algebra.Order.BigOperators.Group.List
import Mathlib.Algebra.Order.Ring.Int
import Mathlib.Data.List.Sort

namespace LocalVault.Library

/-- The result of a signed operation of 64 bits, if it does not overflow. -/
def signed (v : Int) : Option Int64 :=
  if -2 ^ 63 ≤ v ∧ v < 2 ^ 63 then some (Int64.ofInt v) else none

/-- The result of an unsigned operation of 64 bits, if it does not wrap. -/
def unsigned (v : Int) : Option UInt64 :=
  if 0 ≤ v ∧ v < 2 ^ 64 then some (UInt64.ofNat v.toNat) else none

theorem toInt_range (a : Int64) : -2 ^ 63 ≤ a.toInt ∧ a.toInt < 2 ^ 63 :=
  ⟨Int64.le_toInt a, Int64.toInt_lt a⟩

theorem signed_toInt (a : Int64) : signed a.toInt = some a := by
  unfold signed
  rw [if_pos (toInt_range a), Int64.ofInt_toInt]

theorem signed_eq_some {v : Int} {a : Int64} : signed v = some a ↔ a.toInt = v := by
  constructor
  · intro h
    unfold signed at h
    split at h
    · rename_i hrange
      cases h
      exact Int64.toInt_ofInt_of_le hrange.1 hrange.2
    · cases h
  · rintro rfl
    exact signed_toInt a

/-- An operation whose exact result fits has it. -/
theorem signed_fits {v : Int} (hlow : -2 ^ 63 ≤ v) (hhigh : v < 2 ^ 63) :
    ∃ a, signed v = some a ∧ a.toInt = v := by
  refine ⟨Int64.ofInt v, ?_, Int64.toInt_ofInt_of_le hlow hhigh⟩
  unfold signed
  rw [if_pos ⟨hlow, hhigh⟩]

theorem unsigned_toNat (a : UInt64) : unsigned a.toNat = some a := by
  have h := a.toNat_lt
  unfold unsigned
  rw [if_pos ⟨Int.natCast_nonneg _, by omega⟩, Int.toNat_natCast, UInt64.ofNat_toNat]

theorem unsigned_eq_some {v : Int} {a : UInt64} : unsigned v = some a ↔ (a.toNat : Int) = v := by
  constructor
  · intro h
    unfold unsigned at h
    split at h
    · rename_i hrange
      cases h
      have hlt : v.toNat < 2 ^ 64 := by omega
      rw [UInt64.toNat_ofNat_of_lt' hlt]
      exact Int.toNat_of_nonneg hrange.1
    · cases h
  · rintro rfl
    exact unsigned_toNat a

theorem unsigned_fits {v : Int} (hlow : 0 ≤ v) (hhigh : v < 2 ^ 64) :
    ∃ a, unsigned v = some a ∧ (a.toNat : Int) = v := by
  refine ⟨UInt64.ofNat v.toNat, ?_, ?_⟩
  · unfold unsigned
    rw [if_pos ⟨hlow, hhigh⟩]
  · have hlt : v.toNat < 2 ^ 64 := by omega
    rw [UInt64.toNat_ofNat_of_lt' hlt]
    exact Int.toNat_of_nonneg hlow

end LocalVault.Library
