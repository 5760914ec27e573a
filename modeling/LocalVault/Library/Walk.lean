import Mathlib.Algebra.BigOperators.Ring.Finset
import Mathlib.Algebra.Order.BigOperators.Group.List
import Mathlib.Algebra.Order.Ring.Int
import Mathlib.Data.List.Sort

namespace LocalVault.Library

variable {ν α : Type}

/-- Items at distinct paths; above each of them stand inner items only. -/
structure Branching (path : α → List ν) (inner : α → Bool) (items : List α) : Prop where
  distinct : (items.map path).Nodup
  below : ∀ a ∈ items, path a ≠ []
  parent : ∀ a ∈ items, (path a).dropLast ≠ [] →
    ∃ d ∈ items, inner d = true ∧ path d = (path a).dropLast

/-- The items that are met from a path on, through inner items, to a depth. -/
def walk (children : List ν → List α) (path : α → List ν) (inner : α → Bool) :
    Nat → List ν → List α
  | 0, _ => []
  | depth + 1, p => children p ++
      ((children p).filter inner).flatMap (fun d => walk children path inner depth (path d))

variable {path : α → List ν} {inner : α → Bool} {items : List α} {p : List ν} {a : α}

theorem Branching.map_iff {β : Type} {f : α → β} {path : β → List ν} {inner : β → Bool} :
    Branching path inner (items.map f) ↔ Branching (path ∘ f) (inner ∘ f) items := by
  constructor
  · intro h
    refine ⟨by simpa using h.distinct, fun a ha => h.below _ (List.mem_map_of_mem ha),
      fun a ha hne => ?_⟩
    obtain ⟨_, hmem, hinner, hpath⟩ := h.parent _ (List.mem_map_of_mem ha) hne
    obtain ⟨d, hd, rfl⟩ := List.mem_map.mp hmem
    exact ⟨d, hd, hinner, hpath⟩
  · intro h
    refine ⟨by simpa using h.distinct, List.forall_mem_map.mpr h.below,
      List.forall_mem_map.mpr fun a ha hne => ?_⟩
    obtain ⟨d, hd, hinner, hpath⟩ := h.parent a ha hne
    exact ⟨f d, List.mem_map_of_mem hd, hinner, hpath⟩

theorem Branching.perm {items' : List α} (h : Branching path inner items) (hp : items.Perm items') :
    Branching path inner items' where
  distinct := (hp.map path).nodup_iff.mp h.distinct
  below a ha := h.below a (hp.mem_iff.mpr ha)
  parent a ha hne := by
    obtain ⟨d, hd, hinner⟩ := h.parent a (hp.mem_iff.mpr ha) hne
    exact ⟨d, hp.mem_iff.mp hd, hinner⟩

/-- Every prefix of a path is the path of an inner item. -/
theorem Branching.above (h : Branching path inner items) {q r : List ν} (ha : a ∈ items)
    (hsplit : path a = q ++ r) (hq : q ≠ []) (hr : r ≠ []) :
    ∃ d ∈ items, inner d = true ∧ path d = q := by
  induction r using List.reverseRecOn generalizing a with
  | nil => exact absurd rfl hr
  | append_singleton r x ih =>
    have hdrop : (path a).dropLast = q ++ r := by
      rw [hsplit, ← List.append_assoc, List.dropLast_concat]
    obtain ⟨d, hd, hinner, hpath⟩ := h.parent a ha (by simp [hdrop, hq])
    rw [hdrop] at hpath
    by_cases hnil : r = []
    · exact ⟨d, hd, hinner, by rw [hpath, hnil, List.append_nil]⟩
    · exact ih hd hpath hnil

/-- The start of a walk, or an item of it. -/
def Met (path : α → List ν) (items : List α) (p : List ν) : Prop := p = [] ∨ ∃ d ∈ items, path d = p

section Walks

variable [DecidableEq ν] {children : List ν → List α} (h : Branching path inner items)
  (hchildren : ∀ p, Met path items p →
    (children p).Perm (items.filter (fun a => (path a).dropLast = p)))
include h hchildren

theorem mem_children (hp : Met path items p) :
    a ∈ children p ↔ a ∈ items ∧ ∃ n, path a = p ++ [n] := by
  rw [(hchildren p hp).mem_iff, List.mem_filter, decide_eq_true_eq]
  refine and_congr_right fun ha => ⟨fun hdrop => ?_, ?_⟩
  · exact ⟨_, by rw [← hdrop, List.dropLast_append_getLast (h.below a ha)]⟩
  · rintro ⟨n, hn⟩
    rw [hn, List.dropLast_concat]

/-- A walk meets what stands below its start and not too deep. -/
theorem mem_walk {depth : Nat} (hp : Met path items p) :
    a ∈ walk children path inner depth p ↔
      a ∈ items ∧ ∃ r, r ≠ [] ∧ path a = p ++ r ∧ r.length ≤ depth := by
  induction depth generalizing p a with
  | zero =>
    refine ⟨fun hm => absurd hm List.not_mem_nil, ?_⟩
    rintro ⟨-, r, hr, -, hlength⟩
    exact absurd (List.length_eq_zero_iff.mp (Nat.le_zero.mp hlength)) hr
  | succ depth ih =>
    unfold walk
    rw [List.mem_append, List.mem_flatMap, mem_children h hchildren hp]
    constructor
    · rintro (⟨ha, n, hn⟩ | ⟨d, hd, hm⟩)
      · exact ⟨ha, [n], by simp, hn, by simp⟩
      · obtain ⟨hd, n, hn⟩ := (mem_children h hchildren hp).mp (List.mem_of_mem_filter hd)
        obtain ⟨ha, r, -, hpath, hlength⟩ := (ih (Or.inr ⟨d, hd, rfl⟩)).mp hm
        rw [hn, List.append_assoc, List.singleton_append] at hpath
        exact ⟨ha, n :: r, by simp, hpath, Nat.succ_le_succ hlength⟩
    · rintro ⟨ha, r, hr, hpath, hlength⟩
      cases r with
      | nil => exact absurd rfl hr
      | cons n r =>
        by_cases hnil : r = []
        · rw [hnil] at hpath
          exact Or.inl ⟨ha, n, hpath⟩
        · rw [← List.singleton_append, ← List.append_assoc] at hpath
          obtain ⟨d, hd, hinner, hd'⟩ := h.above ha hpath (by simp) hnil
          refine Or.inr ⟨d, List.mem_filter.mpr ⟨?_, hinner⟩, ?_⟩
          · exact (mem_children h hchildren hp).mpr ⟨hd, n, hd'⟩
          · exact (ih (Or.inr ⟨d, hd, rfl⟩)).mpr
              ⟨ha, r, hnil, by rw [hpath, hd'], Nat.le_of_succ_le_succ hlength⟩

theorem walk_nodup (depth : Nat) (hp : Met path items p) :
    (walk children path inner depth p).Nodup := by
  induction depth generalizing p with
  | zero => exact List.nodup_nil
  | succ depth ih =>
    have hchild : (children p).Nodup :=
      (hchildren p hp).nodup_iff.mpr ((List.Nodup.of_map path h.distinct).filter _)
    have hinside : ∀ d ∈ (children p).filter inner,
        Met path items (path d) ∧ ∃ n, path d = p ++ [n] := by
      intro d hd
      obtain ⟨hd, hn⟩ := (mem_children h hchildren hp).mp (List.mem_of_mem_filter hd)
      exact ⟨Or.inr ⟨d, hd, rfl⟩, hn⟩
    unfold walk
    rw [List.nodup_append', List.nodup_flatMap]
    refine ⟨hchild, ⟨fun d hd => ih (hinside d hd).1, ?_⟩, ?_⟩
    · -- what two children lead to differs in the name behind `p`
      refine (hchild.filter _).imp_of_mem fun {d e} hd he hne b hb hb' => hne ?_
      obtain ⟨hb, r, -, hr, -⟩ := (mem_walk h hchildren (hinside d hd).1).mp hb
      obtain ⟨-, s, -, hs, -⟩ := (mem_walk h hchildren (hinside e he).1).mp hb'
      obtain ⟨-, n, hn⟩ := hinside d hd
      obtain ⟨-, m, hm⟩ := hinside e he
      rw [hr, hn, hm, List.append_assoc, List.append_assoc] at hs
      have hname := (List.cons.inj (List.append_cancel_left hs)).1
      have hmem := fun f hf => ((mem_children h hchildren hp).mp (List.mem_of_mem_filter
        (a := f) (p := inner) hf)).1
      exact List.inj_on_of_nodup_map h.distinct (hmem d hd) (hmem e he) (by rw [hn, hm, hname])
    · -- a child stands above everything that its siblings lead to
      intro b hb hb'
      obtain ⟨-, n, hn⟩ := (mem_children h hchildren hp).mp hb
      obtain ⟨d, hd, hb'⟩ := List.mem_flatMap.mp hb'
      obtain ⟨hmet, m, hm⟩ := hinside d hd
      obtain ⟨-, r, hr, hpath, -⟩ := (mem_walk h hchildren hmet).mp hb'
      rw [hn, hm, List.append_assoc] at hpath
      exact hr (List.cons.inj (List.append_cancel_left hpath)).2.symm

/-- A walk from the root meets every item once, and nothing else. -/
theorem walk_perm {depth : Nat} (hdepth : ∀ a ∈ items, (path a).length ≤ depth) :
    (walk children path inner depth []).Perm items := by
  rw [List.perm_ext_iff_of_nodup (walk_nodup h hchildren depth (Or.inl rfl))
    (List.Nodup.of_map path h.distinct)]
  intro a
  rw [mem_walk h hchildren (Or.inl rfl)]
  exact ⟨fun ha => ha.1, fun ha => ⟨ha, path a, h.below a ha, rfl, hdepth a ha⟩⟩

end Walks

end LocalVault.Library
