import Mathlib.Algebra.BigOperators.Ring.Finset
import Mathlib.Algebra.Order.BigOperators.Group.List
import Mathlib.Algebra.Order.Ring.Int
import Mathlib.Data.List.Sort

namespace LocalVault.Library

variable {σ τ ι ο : Type}

/-- What a machine answers to a list of inputs, and the state it ends in. -/
def answers (step : σ → ι → ο × σ) : σ → List ι → List ο × σ
  | s, [] => ([], s)
  | s, i :: inputs =>
    let here := step s i
    let rest := answers step here.2 inputs
    (here.1 :: rest.1, rest.2)

variable {f : σ → ι → ο × σ} {g : τ → ι → ο × τ} {inputs : List ι} {s : σ} {t : τ}

@[simp] theorem answers_nil : answers f s [] = ([], s) := rfl

@[simp] theorem answers_cons {i : ι} : answers f s (i :: inputs) =
    ((f s i).1 :: (answers f (f s i).2 inputs).1, (answers f (f s i).2 inputs).2) := rfl

/-- Every input is answered once. -/
@[simp] theorem answers_length : (answers f s inputs).1.length = inputs.length := by
  induction inputs generalizing s with
  | nil => rfl
  | cons i inputs ih => simp [ih]

/-- Two machines that run in lockstep: what relates their states is kept by
each input, and the answers to an input are related as `Q` says. -/
theorem lockstep {R : σ → τ → Prop} {Q : ι → ο → ο → Prop}
    (hstep : ∀ i ∈ inputs, ∀ s t, R s t → Q i (f s i).1 (g t i).1 ∧ R (f s i).2 (g t i).2)
    (h : R s t) :
    R (answers f s inputs).2 (answers g t inputs).2 ∧
      ∀ (n : Nat) (i : ι), inputs[n]? = some i → ∃ o o', (answers f s inputs).1[n]? = some o ∧
        (answers g t inputs).1[n]? = some o' ∧ Q i o o' := by
  induction inputs generalizing s t with
  | nil => exact ⟨h, fun n i hi => by simp at hi⟩
  | cons j inputs ih =>
    obtain ⟨hq, hr⟩ := hstep j (by simp) s t h
    obtain ⟨hend, hrest⟩ := ih (fun i hi => hstep i (List.mem_cons_of_mem j hi)) hr
    refine ⟨hend, fun n i hi => ?_⟩
    cases n with
    | zero =>
      simp only [List.getElem?_cons_zero, Option.some.injEq] at hi
      subst hi
      exact ⟨_, _, rfl, rfl, hq⟩
    | succ n => exact hrest n i (by simpa using hi)

/-- Machines whose answers agree one by one answer alike. -/
theorem answers_eq (h : ∀ (n : Nat) (i : ι), inputs[n]? = some i →
    ∃ o, (answers f s inputs).1[n]? = some o ∧
      (answers g t inputs).1[n]? = some o) :
    (answers f s inputs).1 = (answers g t inputs).1 := by
  refine List.ext_getElem? (fun n => ?_)
  cases hn : inputs[n]? with
  | some i =>
    obtain ⟨o, ho, ho'⟩ := h n i hn
    rw [ho, ho']
  | none =>
    rw [List.getElem?_eq_none_iff] at hn
    rw [List.getElem?_eq_none_iff.mpr (by simpa using hn),
      List.getElem?_eq_none_iff.mpr (by simpa using hn)]

end LocalVault.Library
