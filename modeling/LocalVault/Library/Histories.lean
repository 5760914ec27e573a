import Mathlib.Algebra.BigOperators.Ring.Finset
import Mathlib.Algebra.Order.BigOperators.Group.List
import Mathlib.Algebra.Order.Ring.Int
import Mathlib.Data.List.Sort

namespace LocalVault.Library

/-! Systems that take one step for each event, and catalogues that show each item once. -/

section Runs

variable {σ ε α : Type} {step : σ → ε → Option σ} {s t : σ} {events : List ε}

/-- The state behind some events, as far as all of them are possible. -/
def runs (step : σ → ε → Option σ) : σ → List ε → Option σ
  | s, [] => some s
  | s, event :: events => (step s event).bind (fun t => runs step t events)

theorem runs_append (before after : List ε) :
    runs step s (before ++ after) = (runs step s before).bind (fun t => runs step t after) := by
  induction before generalizing s with
  | nil => rfl
  | cons event before ih =>
    simp only [List.cons_append, runs, Option.bind_assoc]
    congr 1
    funext t
    exact ih

/-- What every possible step keeps holds behind every history of admitted events. -/
theorem runs_invariant {P : σ → Prop} {Q : ε → Prop}
    (hstep : ∀ s event t, Q event → P s → step s event = some t → P t) (hs : P s)
    (hq : ∀ event ∈ events, Q event) (h : runs step s events = some t) : P t := by
  induction events generalizing s with
  | nil =>
    cases h
    exact hs
  | cons event events ih =>
    obtain ⟨u, hu, h⟩ := Option.bind_eq_some_iff.mp h
    exact ih (hstep s event u (hq event (by simp)) hs hu)
      (fun e he => hq e (List.mem_cons_of_mem _ he)) h

/-- Each step is some steps of an abstract relation, so a history is. -/
theorem runs_refines {R : α → α → Prop} {P : σ → Prop} {Q : ε → Prop} (abs : σ → α)
    (hstep : ∀ s event t, Q event → P s → step s event = some t →
      P t ∧ Relation.ReflTransGen R (abs s) (abs t)) (hs : P s)
    (hq : ∀ event ∈ events, Q event) (h : runs step s events = some t) :
    Relation.ReflTransGen R (abs s) (abs t) := by
  refine (runs_invariant (P := fun u => P u ∧ Relation.ReflTransGen R (abs s) (abs u)) (Q := Q)
    ?_ ⟨hs, .refl⟩ hq h).2
  intro u event w hevent hu hw
  obtain ⟨hkept, hsteps⟩ := hstep u event w hevent hu.1 hw
  exact ⟨hkept, hu.2.trans hsteps⟩

end Runs

/-- Items shown under keys. The keys up to `issued` have been handed out. -/
structure Catalogue (κ α : Type) where
  issued : κ
  shown : κ → Option α

namespace Catalogue

variable {κ α : Type} [LinearOrder κ] {c d e : Catalogue κ α} {k : κ} {a b : α}

/-- An item appears under a new key only, and never changes until it is withdrawn. -/
inductive Change (c : Catalogue κ α) : Catalogue κ α → Prop
  | stays (issued : κ) (h : c.issued ≤ issued) : Change c ⟨issued, c.shown⟩
  | publishes (k : κ) (a : α) (fresh : c.issued < k) :
      Change c ⟨k, Function.update c.shown k (some a)⟩
  | withdraws (k : κ) : Change c ⟨c.issued, Function.update c.shown k none⟩

/-- Only keys that were handed out show something. -/
def Issued (c : Catalogue κ α) : Prop := ∀ k a, c.shown k = some a → k ≤ c.issued

theorem Change.issued_le (h : Change c d) : c.issued ≤ d.issued := by
  cases h with
  | stays issued h => exact h
  | publishes k a fresh => exact fresh.le
  | withdraws k => exact le_rfl

theorem Change.issued (h : Change c d) (hc : c.Issued) : d.Issued := by
  intro k a hk
  cases h with
  | stays issued h => exact (hc k a hk).trans h
  | publishes new item fresh =>
    by_cases hnew : k = new
    · exact hnew.le
    · change Function.update c.shown new (some item) k = some a at hk
      rw [Function.update_of_ne hnew] at hk
      exact (hc k a hk).trans fresh.le
  | withdraws old =>
    by_cases hold : k = old
    · subst hold
      simp at hk
    · change Function.update c.shown old none k = some a at hk
      rw [Function.update_of_ne hold] at hk
      exact hc k a hk

/-- Under a key that was handed out, an item stays as it is or goes. -/
theorem Change.shown (h : Change c d) (hk : k ≤ c.issued) :
    d.shown k = c.shown k ∨ d.shown k = none := by
  cases h with
  | stays issued h => exact .inl rfl
  | publishes new item fresh =>
    exact .inl (Function.update_of_ne (hk.trans_lt fresh).ne _ _)
  | withdraws old =>
    by_cases hold : k = old
    · subst hold
      exact .inr (Function.update_self _ _ _)
    · exact .inl (Function.update_of_ne hold _ _)

/-- Any number of changes. -/
abbrev Changes : Catalogue κ α → Catalogue κ α → Prop := Relation.ReflTransGen Change

theorem Changes.issued_le (h : Changes c d) : c.issued ≤ d.issued := by
  induction h with
  | refl => exact le_rfl
  | tail _ hlast ih => exact ih.trans hlast.issued_le

theorem Changes.issued (h : Changes c d) (hc : c.Issued) : d.Issued := by
  induction h with
  | refl => exact hc
  | tail _ hlast ih => exact hlast.issued ih

theorem Changes.shown (h : Changes c d) (hk : k ≤ c.issued) :
    d.shown k = c.shown k ∨ d.shown k = none := by
  induction h with
  | refl => exact .inl rfl
  | tail hbefore hlast ih =>
    rcases hlast.shown (hk.trans (Changes.issued_le hbefore)) with hsame | hgone
    · rw [hsame]
      exact ih
    · exact .inr hgone

/-- What is gone does not come back. -/
theorem Changes.gone (h : Changes c d) (hk : k ≤ c.issued) (hc : c.shown k = none) :
    d.shown k = none := by
  rcases h.shown hk with hd | hd
  · rw [hd, hc]
  · exact hd

/-- A key shows one item at most, and without a break. -/
theorem Changes.once (h : Changes c d) (h' : Changes d e) (hc : c.Issued)
    (ha : c.shown k = some a) (hb : e.shown k = some b) : a = b ∧ d.shown k = some a := by
  have hk := hc k a ha
  have hd : d.shown k = some a := by
    rcases h.shown hk with hd | hd
    · rw [hd, ha]
    · rw [h'.gone (hk.trans h.issued_le) hd] at hb
      cases hb
  rcases h'.shown (hk.trans h.issued_le) with he | he
  · rw [hb, hd] at he
    exact ⟨(Option.some.inj he).symm, hd⟩
  · rw [hb] at he
    cases he

end Catalogue
end LocalVault.Library
