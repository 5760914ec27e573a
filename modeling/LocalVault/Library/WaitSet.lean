import Mathlib.Algebra.BigOperators.Ring.Finset
import Mathlib.Algebra.Order.BigOperators.Group.List
import Mathlib.Algebra.Order.Ring.Int
import Mathlib.Data.List.Sort

namespace LocalVault.Library

/-! Threads that are parked on condition variables until they are notified. -/

/-- What a thread that goes on does to the conditions. -/
inductive Signal (κ : Type) where
  | nobody
  | one (condition : κ)
  | all (conditions : List κ)
  deriving DecidableEq, Repr

variable {τ κ : Type} [DecidableEq κ] {members : List τ} {on : τ → Option κ}
  {parked parked' : τ → Bool} {chosen : Option τ} {signal : Signal κ} {k : κ} {ks : List κ}

/-- A thread is parked on the condition. -/
def isParkedOn (on : τ → Option κ) (parked : τ → Bool) (k : κ) (t : τ) : Bool :=
  parked t && on t == some k

theorem isParkedOn_iff {t : τ} :
    isParkedOn on parked k t = true ↔ parked t = true ∧ on t = some k := by
  simp [isParkedOn]

variable [DecidableEq τ]

/-- The threads that stay parked. Of those on a condition with `one` notification the chosen one
goes on, and nobody is chosen only if there is nobody. -/
def Signal.wake (members : List τ) (on : τ → Option κ) (parked : τ → Bool) (chosen : Option τ) :
    Signal κ → Option (τ → Bool)
  | .nobody => if chosen = none then some parked else none
  | .all ks =>
    if chosen = none then some (fun t => parked t && !ks.any (isParkedOn on parked · t)) else none
  | .one k =>
    match chosen with
    | none => if members.any (isParkedOn on parked k) then none else some parked
    | some t => if isParkedOn on parked k t then some (Function.update parked t false) else none

theorem Signal.wake_all (h : (Signal.all ks).wake members on parked chosen = some parked') (t : τ) :
    parked' t = true ↔ parked t = true ∧ ∀ k ∈ ks, on t ≠ some k := by
  simp only [Signal.wake] at h
  split at h
  · cases h
    simp only [Bool.and_eq_true, Bool.not_eq_true', List.any_eq_false, isParkedOn_iff]
    constructor
    · rintro ⟨hparked, hnot⟩
      exact ⟨hparked, fun k hk hon => hnot k hk ⟨hparked, hon⟩⟩
    · rintro ⟨hparked, hnot⟩
      exact ⟨hparked, fun k hk hon => hnot k hk hon.2⟩
  · cases h

/-- One that waits on the condition goes on, unless nobody waits. -/
theorem Signal.wake_one (h : (Signal.one k).wake members on parked chosen = some parked') :
    (parked' = parked ∧ ∀ t ∈ members, parked t = true → on t ≠ some k) ∨
      ∃ t, parked t = true ∧ on t = some k ∧ parked' = Function.update parked t false := by
  cases chosen with
  | none =>
    simp only [Signal.wake] at h
    split at h
    · cases h
    · rename_i hnobody
      cases h
      refine .inl ⟨rfl, fun t ht hparked hon => hnobody ?_⟩
      exact List.any_eq_true.mpr ⟨t, ht, isParkedOn_iff.mpr ⟨hparked, hon⟩⟩
  | some t =>
    simp only [Signal.wake] at h
    split at h
    · rename_i ht
      cases h
      obtain ⟨hparked, hon⟩ := isParkedOn_iff.mp ht
      exact .inr ⟨t, hparked, hon, rfl⟩
    · cases h

/-- Nobody is parked by a notification. -/
theorem Signal.wake_parked (h : signal.wake members on parked chosen = some parked') {t : τ}
    (ht : parked' t = true) : parked t = true := by
  cases signal with
  | nobody =>
    simp only [Signal.wake] at h
    split at h
    · cases h
      exact ht
    · cases h
  | all ks => exact ((Signal.wake_all h t).mp ht).1
  | one k =>
    rcases Signal.wake_one h with ⟨rfl, -⟩ | ⟨t', -, -, rfl⟩
    · exact ht
    · by_cases hsame : t = t'
      · subst hsame
        simp at ht
      · rwa [Function.update_of_ne hsame] at ht

/-- Somebody can always be chosen. -/
theorem Signal.wake_exists (members : List τ) (on : τ → Option κ) (parked : τ → Bool)
    (signal : Signal κ) : ∃ chosen parked', signal.wake members on parked chosen = some parked' := by
  cases signal with
  | nobody => exact ⟨none, parked, rfl⟩
  | all ks => exact ⟨none, _, rfl⟩
  | one k =>
    cases hany : members.any (isParkedOn on parked k) with
    | false => exact ⟨none, parked, by simp [Signal.wake, hany]⟩
    | true =>
      obtain ⟨t, -, ht⟩ := List.any_eq_true.mp hany
      exact ⟨some t, Function.update parked t false, by simp [Signal.wake, ht]⟩

end LocalVault.Library
