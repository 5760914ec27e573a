import Mathlib.Algebra.BigOperators.Ring.Finset
import Mathlib.Algebra.Order.BigOperators.Group.List
import Mathlib.Algebra.Order.Ring.Int
import Mathlib.Data.List.Forall2
import Mathlib.Data.List.Sort

namespace LocalVault.Library

/-- One element of a pattern. -/
inductive Glob (α : Type) where
  | one
  | many
  | literal (a : α)

namespace Glob

variable {α β : Type} {same : α → β → Bool}

/-- The text can be got from the pattern: `one` stands for any element, `many` for any number of
elements, and a literal for what it is the same as. -/
inductive Matches (same : α → β → Bool) : List (Glob α) → List β → Prop
  | nil : Matches same [] []
  | one (c : β) {p : List (Glob α)} {n : List β} : Matches same p n → Matches same (.one :: p) (c :: n)
  | none {p : List (Glob α)} {n : List β} : Matches same p n → Matches same (.many :: p) n
  | more (c : β) {p : List (Glob α)} {n : List β} :
      Matches same (.many :: p) n → Matches same (.many :: p) (c :: n)
  | literal {a : α} {c : β} {p : List (Glob α)} {n : List β} :
      same a c = true → Matches same p n → Matches same (.literal a :: p) (c :: n)

/-- A pattern element that stands for one element of the text. -/
def fits (same : α → β → Bool) : Glob α → β → Bool
  | .one, _ => true
  | .many, _ => false
  | .literal a, c => same a c

@[simp]
theorem matches_nil {n : List β} : Matches same [] n ↔ n = [] := by
  constructor
  · intro h
    cases h
    rfl
  · rintro rfl
    exact .nil

theorem matches_many_nil {p : List (Glob α)} :
    Matches same (.many :: p) ([] : List β) ↔ Matches same p [] := by
  constructor
  · intro h
    cases h with
    | none h => exact h
  · exact .none

theorem matches_many_cons {p : List (Glob α)} {c : β} {n : List β} :
    Matches same (.many :: p) (c :: n) ↔ Matches same p (c :: n) ∨ Matches same (.many :: p) n := by
  constructor
  · intro h
    cases h with
    | none h => exact Or.inl h
    | more _ h => exact Or.inr h
  · rintro (h | h)
    · exact .none h
    · exact .more c h

theorem matches_many_tail {p : List (Glob α)} {n : List β} :
    Matches same (.many :: p) n ↔ Matches same p n ∨ Matches same (.many :: p) n.tail := by
  cases n with
  | nil => simp [matches_many_nil]
  | cons c n => exact matches_many_cons

theorem matches_single {t : Glob α} (ht : t ≠ .many) {p : List (Glob α)} {c : β} {n : List β} :
    Matches same (t :: p) (c :: n) ↔ fits same t c = true ∧ Matches same p n := by
  constructor
  · intro h
    cases h with
    | one _ h => exact ⟨rfl, h⟩
    | none h => exact absurd rfl ht
    | more _ h => exact absurd rfl ht
    | literal hs h => exact ⟨hs, h⟩
  · rintro ⟨hf, h⟩
    cases t with
    | one => exact .one c h
    | many => exact absurd rfl ht
    | literal a => exact .literal hf h

theorem matches_empty {p : List (Glob α)} :
    Matches same p ([] : List β) ↔ ∀ t ∈ p, t = .many := by
  induction p with
  | nil => simp
  | cons t p ih =>
    by_cases ht : t = .many
    · subst ht
      rw [matches_many_nil]
      simp [ih]
    · constructor
      · intro h
        cases h with
        | none h => exact absurd rfl ht
      · exact fun h => absurd (h t (by simp)) ht

/-- What `many` stands for can be left out. -/
theorem Matches.suffix {p : List (Glob α)} {n : List β} (h : Matches same (.many :: p) n) :
    ∃ m, m <:+ n ∧ Matches same p m := by
  induction n with
  | nil => exact ⟨[], List.suffix_refl _, matches_many_nil.mp h⟩
  | cons c n ih =>
    rcases matches_many_cons.mp h with h | h
    · exact ⟨_, List.suffix_refl _, h⟩
    · obtain ⟨m, hm, hp⟩ := ih h
      exact ⟨m, hm.trans (List.suffix_cons c n), hp⟩

theorem Matches.extend {p : List (Glob α)} {m n : List β} (h : Matches same (.many :: p) m)
    (hm : m <:+ n) : Matches same (.many :: p) n := by
  obtain ⟨w, rfl⟩ := hm
  induction w with
  | nil => exact h
  | cons c w ih => exact .more c ih

/-- Elements that each stand for one element of the text take as many of it. -/
theorem Matches.split {p q : List (Glob α)} {n : List β} (hp : ∀ t ∈ p, t ≠ .many)
    (h : Matches same (p ++ q) n) : ∃ w m, n = w ++ m ∧ w.length = p.length ∧ Matches same q m := by
  induction p generalizing n with
  | nil => exact ⟨[], n, rfl, rfl, h⟩
  | cons t p ih =>
    have ht : t ≠ .many := hp t (by simp)
    cases n with
    | nil => exact absurd (matches_empty.mp h t (by simp)) ht
    | cons c n =>
      obtain ⟨_, h⟩ := (matches_single ht).mp h
      obtain ⟨w, m, rfl, hl, hq⟩ := ih (fun t ht => hp t (List.mem_cons_of_mem _ ht)) h
      exact ⟨c :: w, m, rfl, by simp [hl], hq⟩

/-- What a piece of the text may be for one element of the pattern. -/
def StandsFor (same : α → β → Bool) : Glob α → List β → Prop
  | .one, piece => ∃ c, piece = [c]
  | .many, _ => True
  | .literal a, piece => ∃ c, piece = [c] ∧ same a c = true

/-- The text is cut into pieces, one for each element of the pattern. -/
theorem matches_iff_pieces {p : List (Glob α)} {n : List β} :
    Matches same p n ↔ ∃ pieces, n = pieces.flatten ∧ List.Forall₂ (StandsFor same) p pieces := by
  constructor
  · intro h
    induction h with
    | nil => exact ⟨[], rfl, .nil⟩
    | one c h ih =>
      obtain ⟨pieces, rfl, hp⟩ := ih
      exact ⟨[c] :: pieces, rfl, .cons ⟨c, rfl⟩ hp⟩
    | none h ih =>
      obtain ⟨pieces, rfl, hp⟩ := ih
      exact ⟨[] :: pieces, rfl, .cons trivial hp⟩
    | more c h ih =>
      obtain ⟨pieces, rfl, hp⟩ := ih
      cases hp with
      | cons _ hp => exact ⟨(c :: _) :: _, rfl, .cons trivial hp⟩
    | @literal a c p n hs h ih =>
      obtain ⟨pieces, rfl, hp⟩ := ih
      exact ⟨[c] :: pieces, rfl, .cons ⟨c, rfl, hs⟩ hp⟩
  · rintro ⟨pieces, rfl, hp⟩
    induction hp with
    | nil => exact .nil
    | @cons t piece p pieces ht hp ih =>
      cases t with
      | one =>
        obtain ⟨c, rfl⟩ := ht
        exact .one c ih
      | many => exact (Matches.none ih).extend (List.suffix_append piece _)
      | literal a =>
        obtain ⟨c, rfl, hs⟩ := ht
        exact .literal hs ih

/-- Since the last `many`, each pattern element has taken one element of the text. -/
def Attempt (pattern : List (Glob α)) (name : List β) (last : Option (List (Glob α) × List β)) : Prop :=
  ∀ s ∈ last, ∃ p w, s.1 = p ++ pattern ∧ s.2 = w ++ name ∧ w.length = p.length ∧ ∀ t ∈ p, t ≠ .many

theorem Attempt.start (pattern : List (Glob α)) (name : List β) :
    Attempt pattern name (some (pattern, name)) := by
  intro s hs
  cases hs
  exact ⟨[], [], rfl, rfl, rfl, by simp⟩

theorem Attempt.step {t : Glob α} {c : β} {pattern : List (Glob α)} {name : List β}
    {last : Option (List (Glob α) × List β)} (h : Attempt (t :: pattern) (c :: name) last)
    (ht : t ≠ .many) : Attempt pattern name last := by
  intro s hs
  obtain ⟨p, w, hp, hw, hl, hplain⟩ := h s hs
  refine ⟨p ++ [t], w ++ [c], by simp [hp], by simp [hw], by simp [hl], ?_⟩
  intro u hu
  rcases List.mem_append.mp hu with hu | hu
  · exact hplain u hu
  · rwa [List.mem_singleton.mp hu]

/-- What another place for the last `many` would give, what stands behind the attempt has a part
for. -/
theorem Attempt.behind {pattern : List (Glob α)} {name : List β}
    {last : Option (List (Glob α) × List β)} (h : Attempt pattern name last)
    {s : List (Glob α) × List β} (hs : s ∈ last) (hm : Matches same (.many :: s.1) s.2.tail) :
    ∃ m, m <:+ name ∧ (s.2 ≠ [] → m ≠ name) ∧ Matches same pattern m := by
  obtain ⟨p, w, hp, hw, hl, hplain⟩ := h s hs
  obtain ⟨m, hsuffix, hm⟩ := hm.suffix
  rw [hp] at hm
  obtain ⟨u, m', rfl, hu, hq⟩ := hm.split hplain
  have hshort : u.length + m'.length ≤ s.2.length - 1 := by
    simpa [List.length_tail] using hsuffix.length_le
  have htotal : s.2.length = w.length + name.length := by simp [hw]
  refine ⟨m', ?_, ?_, hq⟩
  · have hrest : m' <:+ s.2 :=
      (List.suffix_append u m').trans (hsuffix.trans (List.tail_suffix _))
    exact List.suffix_of_suffix_length_le hrest ⟨w, hw.symm⟩ (by omega)
  · intro hne he
    have := List.length_pos_of_ne_nil hne
    rw [he] at hshort
    omega

end Glob
end LocalVault.Library
