import Mathlib.Algebra.BigOperators.Ring.Finset
import Mathlib.Algebra.Order.BigOperators.Group.List
import Mathlib.Algebra.Order.Ring.Int
import Mathlib.Data.List.Sort

namespace LocalVault.Library

variable {α : Type}

/-- The members of a list whose time lies in a half-open window. -/
def within (time : α → Int) (width start : Int) (l : List α) : List α :=
  l.filter (fun e => start ≤ time e && time e < start + width)

variable {time read : α → Int} {width start : Int} {l l' : List α} {a : α}

theorem mem_within : a ∈ within time width start l ↔
    a ∈ l ∧ start ≤ time a ∧ time a < start + width := by
  simp [within]

theorem within_append :
    within time width start (l ++ l') = within time width start l ++ within time width start l' :=
  List.filter_append l l'

/-- Whoever forgets only what is older than the width, and adds nothing to so many, never has
more than so many in a window. -/
theorem within_push {past old kept : List α} {n : Nat}
    (hbound : ∀ start, (within time width start past).length ≤ n) (hsplit : past = old ++ kept)
    (hold : ∀ e ∈ old, time e + width ≤ time a) (hroom : kept.length < n) (start : Int) :
    (within time width start (past ++ [a])).length ≤ n := by
  rw [within_append, List.length_append]
  by_cases ha : start ≤ time a ∧ time a < start + width
  · have hnone : within time width start old = [] := by
      refine List.filter_eq_nil_iff.mpr fun e he => ?_
      have hlate := hold e he
      simp only [Bool.and_eq_true, decide_eq_true_eq, not_and]
      omega
    have hfew : (within time width start past).length ≤ kept.length := by
      rw [hsplit, within_append, hnone, List.nil_append]
      exact List.length_filter_le _ _
    have hone : (within time width start [a]).length ≤ 1 := List.length_filter_le _ _
    omega
  · have hnone : within time width start [a] = [] := by
      refine List.filter_eq_nil_iff.mpr fun e he => ?_
      rw [List.mem_singleton.mp he]
      simpa using ha
    rw [hnone]
    exact hbound start

/-- When each member is read no later than its time, and behind the time of the one before it,
all but the first in a window are read in it. -/
theorem within_delayed (hspaced : l.Pairwise (fun a b => time a ≤ read b))
    (hread : ∀ e ∈ l, read e ≤ time e) {first : α} {rest : List α}
    (h : within time width start l = first :: rest) :
    rest.Sublist (within read width start l) := by
  induction l with
  | nil => cases h
  | cons a l ih =>
    obtain ⟨hfirst, htail⟩ := List.pairwise_cons.mp hspaced
    have hrest : ∀ e ∈ l, read e ≤ time e := fun e he => hread e (List.mem_cons_of_mem _ he)
    by_cases ha : (start ≤ time a && time a < start + width) = true
    · have hcons : within time width start (a :: l) = a :: within time width start l :=
        List.filter_cons_of_pos ha
      rw [hcons, List.cons.injEq] at h
      obtain ⟨rfl, rfl⟩ := h
      have hboth : within time width start l =
          within time width start (within read width start l) := by
        unfold within
        rw [List.filter_filter]
        refine List.filter_congr fun e he => ?_
        have hlate := hfirst e he
        have hearly := hrest e he
        simp only [Bool.and_eq_true, decide_eq_true_eq] at ha
        rw [Bool.eq_iff_iff]
        simp only [Bool.and_eq_true, decide_eq_true_eq]
        omega
      rw [hboth]
      refine List.filter_sublist.trans ?_
      unfold within
      rw [List.filter_cons]
      split
      · exact List.sublist_cons_self _ _
      · exact List.Sublist.refl _
    · have hcons : within time width start (a :: l) = within time width start l :=
        List.filter_cons_of_neg ha
      rw [hcons] at h
      refine (ih htail hrest h).trans ?_
      unfold within
      rw [List.filter_cons]
      split
      · exact List.sublist_cons_self _ _
      · exact List.Sublist.refl _

theorem within_filter {p : α → Bool} :
    within time width start (l.filter p) = (within time width start l).filter p := by
  unfold within
  rw [List.filter_filter, List.filter_filter]
  exact List.filter_congr fun e _ => Bool.and_comm _ _

theorem within_map {β : Type} {f : β → α} {l : List β} :
    within time width start (l.map f) = (within (time ∘ f) width start l).map f :=
  List.filter_map

/-- Of two kinds, where the first member is of the one and there are no more than `n` of it, and
no more than `k` of the other are read in a window, a window has no more than both together. -/
theorem within_kinds (kind : α → Bool) {n k : Nat}
    (hspaced : l.Pairwise (fun a b => time a ≤ read b)) (hread : ∀ e ∈ l, read e ≤ time e)
    (hhead : ∀ first rest, l = first :: rest → kind first = true)
    (hone : (l.filter kind).length ≤ n)
    (hother : (within read width start (l.filter (fun e => !kind e))).length ≤ k) :
    (within time width start l).length ≤ n + k := by
  have hsplit : (within time width start l).length =
      ((within time width start l).filter kind).length +
        ((within time width start l).filter (fun e => !kind e)).length :=
    List.length_eq_length_filter_add kind
  have hpart : ((within time width start l).filter kind).length ≤ (l.filter kind).length :=
    (List.filter_sublist.filter kind).length_le
  cases hw : within time width start l with
  | nil => exact Nat.zero_le _
  | cons first rest =>
    rw [hw] at hsplit hpart
    cases hk : kind first with
    | true =>
      -- all of the other kind come behind the first of the window
      have hbehind := (within_delayed hspaced hread hw).filter (fun e => !kind e)
      rw [← within_filter] at hbehind
      have hle := Nat.le_trans hbehind.length_le hother
      rw [List.filter_cons_of_neg (p := fun e => !kind e) (by simp [hk])] at hsplit
      omega
    | false =>
      -- the first member of all lies in front of the window
      obtain ⟨head, tail, rfl⟩ : ∃ head tail, l = head :: tail := by
        cases l with
        | nil => cases hw
        | cons head tail => exact ⟨head, tail, rfl⟩
      have hkind := hhead head tail rfl
      have houtside : within time width start (head :: tail) = within time width start tail := by
        refine List.filter_cons_of_neg fun hinside => ?_
        have hcons : within time width start (head :: tail) = head :: within time width start tail :=
          List.filter_cons_of_pos hinside
        rw [hcons, List.cons.injEq] at hw
        rw [hw.1, hk] at hkind
        cases hkind
      have htail : ((first :: rest).filter kind).length ≤ (tail.filter kind).length := by
        rw [← hw, houtside]
        exact (List.filter_sublist.filter kind).length_le
      rw [List.filter_cons_of_pos hkind, List.length_cons] at hone
      have hfew : ((first :: rest).filter (fun e => !kind e)).length ≤ k + 1 := by
        have hfirst : within time width start ((head :: tail).filter (fun e => !kind e)) =
            first :: rest.filter (fun e => !kind e) := by
          rw [within_filter, hw]
          exact List.filter_cons_of_pos (by simp [hk])
        have hsub : ((head :: tail).filter (fun e => !kind e)).Sublist (head :: tail) :=
          List.filter_sublist
        have hdelayed := within_delayed (hspaced.sublist hsub)
          (fun e he => hread e (hsub.subset he)) hfirst
        rw [List.filter_cons_of_pos (by simp [hk]), List.length_cons]
        exact Nat.succ_le_succ (Nat.le_trans hdelayed.length_le hother)
      omega

end LocalVault.Library
