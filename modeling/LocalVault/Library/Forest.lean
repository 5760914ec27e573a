import Mathlib.Algebra.BigOperators.Ring.Finset
import Mathlib.Algebra.Order.BigOperators.Group.List
import Mathlib.Algebra.Order.Ring.Int
import Mathlib.Data.List.Sort

namespace LocalVault.Library

/-- The entries of a directory in the order in which they are listed: a name, what is known of
the object, the entries below it, and the entries that follow. -/
inductive Forest (ν α : Type) where
  | nil
  | cons (name : ν) (label : α) (below rest : Forest ν α)
  deriving DecidableEq, Repr

namespace Forest

variable {ν α : Type}

def names : Forest ν α → List ν
  | .nil => []
  | .cons name _ _ rest => name :: rest.names

/-- No directory lists a name twice. -/
def Distinct : Forest ν α → Prop
  | .nil => True
  | .cons name _ below rest => name ∉ rest.names ∧ below.Distinct ∧ rest.Distinct

def All (P : ν → α → Prop) : Forest ν α → Prop
  | .nil => True
  | .cons name label below rest => P name label ∧ below.All P ∧ rest.All P

def decideDistinct [DecidableEq ν] : (f : Forest ν α) → Decidable f.Distinct
  | .nil => isTrue trivial
  | .cons _ _ below rest =>
    have := decideDistinct below
    have := decideDistinct rest
    inferInstanceAs (Decidable (_ ∧ _ ∧ _))

instance [DecidableEq ν] : DecidablePred (Distinct : Forest ν α → Prop) := decideDistinct

def decideAll {P : ν → α → Prop} [∀ n a, Decidable (P n a)] : (f : Forest ν α) → Decidable (f.All P)
  | .nil => isTrue trivial
  | .cons _ _ below rest =>
    have := decideAll (P := P) below
    have := decideAll (P := P) rest
    inferInstanceAs (Decidable (_ ∧ _ ∧ _))

instance {P : ν → α → Prop} [∀ n a, Decidable (P n a)] :
    DecidablePred (All P : Forest ν α → Prop) := decideAll

/-- The object at a path. -/
def find [DecidableEq ν] : Forest ν α → List ν → Option α
  | .nil, _ => none
  | .cons _ _ _ _, [] => none
  | .cons name label below rest, n :: p =>
    if n = name then (if p = [] then some label else below.find p) else rest.find (n :: p)

/-- The same objects, with every directory listed in any order. -/
inductive Reordered : Forest ν α → Forest ν α → Prop
  | nil : Reordered .nil .nil
  | cons (name : ν) (label : α) {below below' rest rest' : Forest ν α} :
      Reordered below below' → Reordered rest rest' →
      Reordered (.cons name label below rest) (.cons name label below' rest')
  | swap (n m : ν) (a b : α) (f g rest : Forest ν α) :
      Reordered (.cons n a f (.cons m b g rest)) (.cons m b g (.cons n a f rest))
  | trans {f g h : Forest ν α} : Reordered f g → Reordered g h → Reordered f h

variable [DecidableEq ν]

theorem find_nil_path (f : Forest ν α) : f.find [] = none := by
  cases f <;> rfl

theorem find_head {name : ν} {label : α} {below rest : Forest ν α} {p : List ν} :
    (cons name label below rest).find (name :: p) = if p = [] then some label else below.find p := by
  simp [find]

theorem find_other {name n : ν} {label : α} {below rest : Forest ν α} {p : List ν} (h : n ≠ name) :
    (cons name label below rest).find (n :: p) = rest.find (n :: p) := by
  simp [find, h]

/-- A path that is found starts with a listed name. -/
theorem find_listed {f : Forest ν α} {n : ν} {p : List ν} {label : α}
    (h : f.find (n :: p) = some label) : n ∈ f.names := by
  induction f with
  | nil => cases h
  | cons name label' below rest _ ihr =>
    by_cases hn : n = name
    · simp [names, hn]
    · rw [find_other hn] at h
      exact List.mem_cons_of_mem _ (ihr h)

/-- Every name on a path that is found is a name of the forest. -/
theorem find_names {P : ν → Prop} {f : Forest ν α} (hf : f.All (fun n _ => P n)) {p : List ν}
    {label : α} (h : f.find p = some label) : ∀ n ∈ p, P n := by
  induction f generalizing p with
  | nil => cases p <;> cases h
  | cons name label' below rest ihb ihr =>
    obtain ⟨hname, hbelow, hrest⟩ := hf
    cases p with
    | nil => cases h
    | cons m p =>
      by_cases hm : m = name
      · subst hm
        rw [find_head] at h
        split at h
        · rename_i hp
          simpa [hp] using hname
        · simpa using ⟨hname, ihb hbelow h⟩
      · rw [find_other hm] at h
        exact ihr hrest h

theorem find_label {P : α → Prop} {f : Forest ν α} (hf : f.All (fun _ a => P a)) {p : List ν}
    {label : α} (h : f.find p = some label) : P label := by
  induction f generalizing p with
  | nil => cases p <;> cases h
  | cons name label' below rest ihb ihr =>
    obtain ⟨hlabel, hbelow, hrest⟩ := hf
    cases p with
    | nil => cases h
    | cons m p =>
      by_cases hm : m = name
      · subst hm
        rw [find_head] at h
        split at h
        · cases h
          exact hlabel
        · exact ihb hbelow h
      · rw [find_other hm] at h
        exact ihr hrest h

end Forest
end LocalVault.Library
