import Mathlib.Algebra.BigOperators.Ring.Finset
import Mathlib.Algebra.Order.BigOperators.Group.List
import Mathlib.Algebra.Order.Ring.Int
import Mathlib.Data.List.Sort

namespace LocalVault.Library

variable {α : Type} {size offset : Nat} {content : List α} {blocks : List (Nat × List α)}

/-- A sequence cut into blocks of one size and a shorter rest, each with its offset. -/
inductive Blocks (size : Nat) : Nat → List α → List (Nat × List α) → Prop where
  | nil (offset : Nat) : Blocks size offset [] []
  | full {offset : Nat} {block rest : List α} {blocks : List (Nat × List α)}
      (whole : block.length = size) (tail : Blocks size (offset + size) rest blocks) :
      Blocks size offset (block ++ rest) ((offset, block) :: blocks)
  | last {offset : Nat} {block : List α} (some : block ≠ []) (short : block.length < size) :
      Blocks size offset block [(offset, block)]

/-- What an exact cut of a sequence is. -/
structure Partition (size : Nat) (content : List α) (blocks : List (Nat × List α)) : Prop where
  nonempty : ∀ b ∈ blocks, b.2 ≠ []
  joined : (blocks.map Prod.snd).flatten = content
  offsets : ∀ i (h : i < blocks.length),
    blocks[i].1 = ((blocks.take i).map (fun b => b.2.length)).sum
  full : ∀ b ∈ blocks.dropLast, b.2.length = size
  bounded : ∀ b ∈ blocks, b.2.length ≤ size
  empty : content = [] → blocks = []

namespace Blocks

/-- Every finite sequence can be cut. -/
theorem exist (hs : 0 < size) (offset : Nat) (content : List α) :
    ∃ blocks, Blocks size offset content blocks := by
  induction h : content.length using Nat.strong_induction_on generalizing offset content with
  | _ n ih =>
    by_cases hshort : content.length < size
    · by_cases hnil : content = []
      · exact ⟨[], hnil ▸ .nil offset⟩
      · exact ⟨_, .last hnil hshort⟩
    · have hdrop : (content.drop size).length < n := by
        rw [List.length_drop]
        omega
      obtain ⟨blocks, hb⟩ := ih _ hdrop (offset + size) (content.drop size) rfl
      have hfull : (content.take size).length = size := List.length_take_of_le (by omega)
      have := Blocks.full hfull hb
      rw [List.take_append_drop] at this
      exact ⟨_, this⟩

theorem joined (h : Blocks size offset content blocks) :
    (blocks.map Prod.snd).flatten = content := by
  induction h with
  | nil offset => rfl
  | full whole tail ih => simp [ih]
  | last some short => simp

theorem nonempty (hs : 0 < size) (h : Blocks size offset content blocks) :
    ∀ b ∈ blocks, b.2 ≠ [] := by
  induction h with
  | nil offset => simp
  | full whole tail ih =>
    intro b hb
    rcases List.mem_cons.mp hb with rfl | hb
    · exact List.ne_nil_of_length_pos (by simpa [whole] using hs)
    · exact ih b hb
  | last some short => simpa using some

theorem bounded (h : Blocks size offset content blocks) : ∀ b ∈ blocks, b.2.length ≤ size := by
  induction h with
  | nil offset => simp
  | full whole tail ih =>
    intro b hb
    rcases List.mem_cons.mp hb with rfl | hb
    · exact le_of_eq whole
    · exact ih b hb
  | last some short => simpa using short.le

/-- Only the last block may be short. -/
theorem full_length (h : Blocks size offset content blocks) :
    ∀ b ∈ blocks.dropLast, b.2.length = size := by
  induction h with
  | nil offset => simp
  | @full offset block rest blocks whole tail ih =>
    cases blocks with
    | nil => simp
    | cons c cs =>
      intro b hb
      rw [List.dropLast_cons_cons] at hb
      rcases List.mem_cons.mp hb with rfl | hb
      · exact whole
      · exact ih b hb
  | last some short => simp

/-- The offsets are running sums of the lengths. -/
theorem offset_sum (h : Blocks size offset content blocks) : ∀ i (hi : i < blocks.length),
    blocks[i].1 = offset + ((blocks.take i).map (fun b => b.2.length)).sum := by
  induction h with
  | nil offset => simp
  | full whole tail ih =>
    intro i hi
    cases i with
    | zero => simp
    | succ i =>
      have := ih i (by simpa using hi)
      simp only [List.getElem_cons_succ, List.take_succ_cons, List.map_cons, List.sum_cons, this,
        whole]
      omega
  | last some short =>
    intro i hi
    have : i = 0 := by simpa using hi
    subst this
    simp

theorem partition (hs : 0 < size) (h : Blocks size 0 content blocks) :
    Partition size content blocks where
  nonempty := h.nonempty hs
  joined := h.joined
  offsets i hi := by simpa using h.offset_sum i hi
  full := h.full_length
  bounded := h.bounded
  empty hc := by
    cases h with
    | nil => rfl
    | full whole tail =>
      rw [(List.append_eq_nil_iff.mp hc).1] at whole
      exact absurd whole hs.ne
    | last some short => exact absurd hc some

end Blocks
end LocalVault.Library
