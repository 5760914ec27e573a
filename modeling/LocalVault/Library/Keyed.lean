import Mathlib.Algebra.BigOperators.Ring.Finset
import Mathlib.Algebra.Order.BigOperators.Group.List
import Mathlib.Algebra.Order.Ring.Int
import Mathlib.Data.List.Sort

namespace LocalVault.Library

/-! Tables as lists of rows with a primary key. -/

variable {ρ κ : Type} {key : ρ → κ} {rows : List ρ}

/-- A lookup by a key finds one row. -/
theorem filter_key [BEq κ] [LawfulBEq κ] (hk : (rows.map key).Nodup) {r : ρ} (hr : r ∈ rows) :
    rows.filter (fun s => key s == key r) = [r] := by
  induction rows with
  | nil => cases hr
  | cons s rs ih =>
    obtain ⟨hs, hrs⟩ := List.nodup_cons.mp hk
    rcases List.mem_cons.mp hr with rfl | hr
    · have hnone : rs.filter (fun s => key s == key r) = [] := by
        rw [List.filter_eq_nil_iff]
        intro a ha he
        exact hs (List.mem_map.mpr ⟨a, ha, by simpa using he⟩)
      simp [hnone]
    · have hne : key s ≠ key r := fun he => hs (List.mem_map.mpr ⟨r, hr, he.symm⟩)
      simp [hne, ih hrs hr]

theorem find_key [BEq κ] [LawfulBEq κ] (hk : (rows.map key).Nodup) {r : ρ} (hr : r ∈ rows) :
    rows.find? (fun s => key s == key r) = some r := by
  rw [← List.head?_filter, filter_key hk hr]
  rfl

/-- A lookup by a key and a condition finds the row of the key, if it meets
the condition. -/
theorem filter_key_and [BEq κ] [LawfulBEq κ] (hk : (rows.map key).Nodup) {r : ρ} (hr : r ∈ rows)
    (p : ρ → Bool) :
    rows.filter (fun s => key s == key r && p s) = if p r then [r] else [] := by
  have h : rows.filter (fun s => key s == key r && p s) =
      (rows.filter (fun s => key s == key r)).filter p := by
    rw [List.filter_filter]
    congr 1
    funext s
    exact Bool.and_comm _ _
  rw [h, filter_key hk hr]
  cases hp : p r <;> simp [hp]

theorem nodup_key_filter (hk : (rows.map key).Nodup) (p : ρ → Bool) :
    ((rows.filter p).map key).Nodup :=
  hk.sublist (List.filter_sublist.map key)

/-- Changes that leave the keys alone. -/
theorem nodup_key_map (hk : (rows.map key).Nodup) {f : ρ → ρ} (hf : ∀ r, key (f r) = key r) :
    ((rows.map f).map key).Nodup := by
  simpa [List.map_map, Function.comp_def, hf] using hk

theorem nodup_key_append (hk : (rows.map key).Nodup) {r : ρ} (hr : ∀ s ∈ rows, key s ≠ key r) :
    ((rows ++ [r]).map key).Nodup := by
  rw [List.map_append, List.nodup_append]
  refine ⟨hk, by simp, ?_⟩
  intro a ha b hb hab
  obtain ⟨s, hs, rfl⟩ := List.mem_map.mp ha
  simp only [List.map_cons, List.map_nil, List.mem_singleton] at hb
  exact hr s hs (hab.trans hb)

/-- Two lists with the same keys, where a key decides the value, have the same
sum of values. -/
theorem sum_by_key {α : Type} [DecidableEq κ] {as : List α} {name : α → κ} {value : α → Int}
    {amount : ρ → Int} (hkeys : (as.map name).Perm (rows.map key)) (hk : (rows.map key).Nodup)
    (hvalue : ∀ a ∈ as, ∀ r ∈ rows, name a = key r → value a = amount r) :
    (as.map value).sum = (rows.map amount).sum := by
  let worth : κ → Int := fun k => ((rows.find? (fun r => key r == k)).map amount).getD 0
  have hworth : ∀ r ∈ rows, worth (key r) = amount r := by
    intro r hr
    simp only [worth, find_key hk hr, Option.map_some, Option.getD_some]
  have hleft : as.map value = (as.map name).map worth := by
    rw [List.map_map]
    apply List.map_congr_left
    intro a ha
    obtain ⟨r, hr, he⟩ := List.mem_map.mp (hkeys.mem_iff.mp (List.mem_map.mpr ⟨a, ha, rfl⟩))
    rw [hvalue a ha r hr he.symm, Function.comp_apply, ← he, hworth r hr]
  have hright : rows.map amount = (rows.map key).map worth := by
    rw [List.map_map]
    apply List.map_congr_left
    intro r hr
    rw [Function.comp_apply, hworth r hr]
  rw [hleft, hright]
  exact (hkeys.map worth).sum_eq

/-- The first keys, in their order, of the rows of one owner. -/
def batchOf (key : ρ → Int) (mine : ρ → Bool) (limit : Nat) (rows : List ρ) : List Int :=
  (((rows.filter mine).map key).insertionSort (· ≤ ·)).take limit

section Batches

variable {key : ρ → Int} {mine : ρ → Bool} {limit : Nat}

theorem batchOf_mine (hk : (rows.map key).Nodup) {r : ρ} (hr : r ∈ rows)
    (hb : key r ∈ batchOf key mine limit rows) : mine r = true := by
  have hsorted := List.mem_of_mem_take hb
  rw [List.mem_insertionSort] at hsorted
  obtain ⟨s, hs, hkey⟩ := List.mem_map.mp hsorted
  obtain ⟨hs, hmine⟩ := List.mem_filter.mp hs
  rwa [List.inj_on_of_nodup_map hk hr hs hkey.symm]

/-- A batch that removes nothing found nothing. -/
theorem batchOf_empty (hl : 0 < limit)
    (h : (rows.filter (fun r => (batchOf key mine limit rows).contains (key r))).length = 0) :
    rows.filter mine = [] := by
  by_contra hne
  have hsorted : ((rows.filter mine).map key).insertionSort (· ≤ ·) ≠ [] := by
    intro he
    have hlen := congrArg List.length he
    rw [List.length_insertionSort, List.length_map] at hlen
    exact hne (List.eq_nil_of_length_eq_zero hlen)
  obtain ⟨k, hk⟩ := List.exists_mem_of_ne_nil (batchOf key mine limit rows) (by
    unfold batchOf
    intro he
    rcases List.take_eq_nil_iff.mp he with h0 | h0
    · omega
    · exact hsorted h0)
  have hmem := List.mem_of_mem_take hk
  rw [List.mem_insertionSort] at hmem
  obtain ⟨r, hr, rfl⟩ := List.mem_map.mp hmem
  have hin : r ∈ rows.filter (fun r => (batchOf key mine limit rows).contains (key r)) :=
    List.mem_filter.mpr ⟨List.mem_of_mem_filter hr, by simpa using hk⟩
  rw [List.eq_nil_of_length_eq_zero h] at hin
  cases hin

/-- A batch that removes something leaves fewer rows of its owner. -/
theorem batchOf_fewer (hk : (rows.map key).Nodup)
    (h : (rows.filter (fun r => (batchOf key mine limit rows).contains (key r))).length ≠ 0) :
    ((rows.filter (fun r => !(batchOf key mine limit rows).contains (key r))).filter mine).length <
      (rows.filter mine).length := by
  obtain ⟨r, hr⟩ := List.exists_mem_of_ne_nil _ (fun he => h (congrArg List.length he))
  obtain ⟨hr, hin⟩ := List.mem_filter.mp hr
  have hmine := batchOf_mine hk hr (by simpa using hin)
  rw [List.filter_comm]
  exact List.length_filter_lt_length_iff_exists.mpr
    ⟨r, List.mem_filter.mpr ⟨hr, hmine⟩, by simpa using hin⟩

/-- A batch removes no more rows than it has keys. -/
theorem batchOf_bounded (hk : (rows.map key).Nodup) :
    (rows.filter (fun r => (batchOf key mine limit rows).contains (key r))).length ≤ limit := by
  have hkeys := nodup_key_filter hk (fun r => (batchOf key mine limit rows).contains (key r))
  have hsub : (rows.filter (fun r => (batchOf key mine limit rows).contains (key r))).map key ⊆
      batchOf key mine limit rows := by
    intro k hmem
    obtain ⟨r, hr, rfl⟩ := List.mem_map.mp hmem
    exact List.contains_iff_mem.mp (List.mem_filter.mp hr).2
  calc (rows.filter (fun r => (batchOf key mine limit rows).contains (key r))).length
      = ((rows.filter (fun r => (batchOf key mine limit rows).contains (key r))).map key).length :=
        (List.length_map key).symm
    _ ≤ (batchOf key mine limit rows).length := (List.subperm_of_subset hkeys hsub).length_le
    _ ≤ limit := List.length_take_le _ _

end Batches

/-- What a loop over batches needs to know of one: its rows are those of the
owner, they are few, and an empty one is the last. -/
structure Removal {ω : Type} [BEq ω] (rows : List ρ) (owner : ρ → ω) (id : ω) (limit : Nat)
    (drop : ρ → Bool) (removed : Nat) : Prop where
  mine : ∀ r ∈ rows, drop r = true → owner r = id
  bounded : (rows.filter drop).length ≤ limit
  empty : removed = 0 → (rows.filter (fun r => !drop r)).filter (fun r => owner r == id) = []
  fewer : removed ≠ 0 → ((rows.filter (fun r => !drop r)).filter (fun r => owner r == id)).length <
    (rows.filter (fun r => owner r == id)).length

theorem removal_batchOf {ω : Type} [BEq ω] [LawfulBEq ω] {key : ρ → Int} (hk : (rows.map key).Nodup)
    {owner : ρ → ω} {id : ω} {limit : Nat} (hl : 0 < limit) {batch : List Int}
    (hb : batch = batchOf key (fun r => owner r == id) limit rows) :
    Removal rows owner id limit (fun r => batch.contains (key r))
      (rows.filter (fun r => batch.contains (key r))).length := by
  subst hb
  refine ⟨?_, batchOf_bounded hk, ?_, batchOf_fewer hk⟩
  · intro r hr hdrop
    exact eq_of_beq (batchOf_mine hk hr (List.contains_iff_mem.mp hdrop))
  · intro hzero
    rw [List.filter_comm, batchOf_empty hl hzero]
    rfl

end LocalVault.Library
