import LocalVault.Types

namespace LocalVault.Snapshot

/-- `BoundedQueue`: the items with their sizes, in the order of arrival. -/
structure Queue (α : Type) where
  items : List (α × Nat)
  closed : Bool
  itemCapacity : Nat
  byteCapacity : Option Nat

/-- How a `push` ends, if it does not wait. -/
inductive Pushed (α : Type) where
  | accepted (q : Queue α)
  | refused
  | oversized
  | waits

inductive Popped (α : Type) where
  | item (a : α) (q : Queue α)
  | ended
  | waits

namespace Queue

variable {α : Type}

def empty (itemCapacity : Nat) (byteCapacity : Option Nat) : Queue α :=
  ⟨[], false, itemCapacity, byteCapacity⟩

def bytesUsed (q : Queue α) : Nat := (q.items.map Prod.snd).sum

def hasCapacity (q : Queue α) (itemBytes : Nat) : Bool :=
  decide (q.items.length < q.itemCapacity) &&
    match q.byteCapacity with
    | none => true
    | some capacity => decide (itemBytes ≤ capacity - q.bytesUsed)

def tooLarge (q : Queue α) (itemBytes : Nat) : Bool :=
  match q.byteCapacity with
  | none => false
  | some capacity => decide (capacity < itemBytes)

/-- `push_impl` in one critical section. -/
def push (q : Queue α) (stopRequested : Bool) (a : α) (itemBytes : Nat) : Pushed α :=
  if stopRequested then .refused
  else if q.tooLarge itemBytes then .oversized
  else if q.closed then .refused
  else if q.hasCapacity itemBytes then
    .accepted { q with items := q.items ++ [(a, itemBytes)] }
  else .waits

/-- `pop` in one critical section. -/
def pop (q : Queue α) (stopRequested : Bool) : Popped α :=
  if stopRequested then .ended
  else match q.items with
    | [] => if q.closed then .ended else .waits
    | (a, _) :: rest => .item a { q with items := rest }

def close (q : Queue α) : Queue α := { q with closed := true }

def values (q : Queue α) : List α := q.items.map Prod.fst

variable {q q' : Queue α} {stop : Bool} {a : α} {n : Nat}

theorem push_accepted (h : q.push stop a n = .accepted q') :
    stop = false ∧ q.closed = false ∧ q.hasCapacity n = true ∧
      q' = { q with items := q.items ++ [(a, n)] } := by
  unfold push at h
  split at h
  · cases h
  · rename_i hs
    split at h
    · cases h
    · split at h
      · cases h
      · rename_i hc
        split at h
        · cases h
          exact ⟨by simpa using hs, by simpa using hc, ‹_›, rfl⟩
        · cases h

theorem push_refused (h : q.push stop a n = .refused) : stop = true ∨ q.closed = true := by
  unfold push at h
  split at h
  · exact Or.inl ‹_›
  · split at h
    · cases h
    · split at h
      · exact Or.inr ‹_›
      · split at h <;> cases h

theorem push_oversized (h : q.push stop a n = .oversized) : stop = false ∧ q.tooLarge n = true := by
  unfold push at h
  split at h
  · cases h
  · rename_i hs
    split at h
    · exact ⟨by simpa using hs, ‹_›⟩
    · split at h
      · cases h
      · split at h <;> cases h

theorem pop_item (h : q.pop stop = .item a q') :
    stop = false ∧ ∃ n, q.items = (a, n) :: q'.items ∧ q' = { q with items := q'.items } := by
  unfold pop at h
  split at h
  · cases h
  · rename_i hs
    split at h
    · split at h <;> cases h
    · rename_i b m rest hi
      cases h
      exact ⟨by simpa using hs, m, hi, rfl⟩

theorem pop_ended (h : q.pop stop = .ended) :
    stop = true ∨ q.items = [] ∧ q.closed = true := by
  unfold pop at h
  split at h
  · exact Or.inl ‹_›
  · split at h
    · rename_i hi
      split at h
      · exact Or.inr ⟨hi, ‹_›⟩
      · cases h
    · cases h

end Queue
end LocalVault.Snapshot
