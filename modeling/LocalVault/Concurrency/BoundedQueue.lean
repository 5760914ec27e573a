import LocalVault.Types

namespace LocalVault.Concurrency

/-- The arguments of a constructor of `BoundedQueue` that does not throw, and the
number of threads that use the queue. A byte capacity comes with a size function. -/
structure Setup where
  itemCapacity : Nat
  byteCapacity : Option UInt64
  threadCount : Nat
  itemsPositive : 0 < itemCapacity
  bytesPositive : ∀ capacity ∈ byteCapacity, 0 < capacity

/-- `items_`, `bytes_used_` and `closed_`. -/
structure Contents (α : Type) where
  items : List (α × UInt64)
  bytesUsed : UInt64
  closed : Bool

/-- A stop token; `stop_token{}` is never stopped. -/
abbrev Token := Option Nat

/-- A call that waits on a condition: `push` on `not_full_`, `pop` on `not_empty_`. -/
inductive Call (α : Type) where
  | push (a : α) (itemBytes : UInt64)
  | pop
  deriving DecidableEq

inductive Condition where
  | notFull
  | notEmpty
  deriving DecidableEq

def Call.condition {α : Type} : Call α → Condition
  | .push _ _ => .notFull
  | .pop => .notEmpty

/-- Where a thread stands in `wait(lock, stop_token, predicate)` and behind it. The flag
`notified` is history: the thread has been woken and has not waited again. -/
inductive Place where
  | testing (notified : Bool)
  | parked
  | woken
  | passed (ready notified : Bool)
  deriving DecidableEq

inductive Phase (α : Type) where
  | idle
  | entering (a : α) (token : Token)
  | locking (item : Option α) (token : Token)
  | sizing (a : α) (token : Token)
  | sized (a : α) (itemBytes : UInt64) (token : Token)
  | waiting (call : Call α) (token : Token) (place : Place)
  | closing
  deriving DecidableEq

/-- How the last call of a thread ended. -/
inductive Outcome (α : Type) where
  | accepted (a : α)
  | refused (a : α)
  | item (a : α)
  | nothing
  | threw
  | closed
  deriving DecidableEq

structure Thread (α : Type) where
  phase : Phase α
  outcome : Option (Outcome α)

/-- `owner` is the thread that holds `mutex_`. The lists are history: the items whose push
returned true and those that a pop returned, in their order. -/
structure State (α : Type) where
  contents : Contents α
  owner : Option Nat
  stopped : Nat → Bool
  threads : Nat → Thread α
  pushed : List α
  popped : List α

/-- What happens next: a thread calls, goes on by itself, gets a size from the size function,
meets an exception in code of the element type, or ends a successful call and notifies the
thread that `notify_one` chooses. -/
inductive Label (α : Type) where
  | callPush (i : Nat) (a : α) (token : Token)
  | callPop (i : Nat) (token : Token)
  | callClose (i : Nat)
  | next (i : Nat)
  | sizes (i : Nat) (itemBytes : UInt64)
  | throws (i : Nat)
  | finish (i : Nat) (chosen : Option Nat)
  | spurious (i : Nat)
  | requestStop (source : Nat)
  deriving DecidableEq

variable {α : Type}

/-- The thread that takes a step. -/
def Label.actor : Label α → Option Nat
  | .callPush i _ _ | .callPop i _ | .callClose i | .next i | .sizes i _ | .throws i
  | .finish i _ => some i
  | .spurious _ | .requestStop _ => none

/-- `has_capacity`, on unsigned words. -/
def Contents.hasCapacity (c : Setup) (q : Contents α) (itemBytes : UInt64) : Bool :=
  decide (q.items.length < c.itemCapacity) &&
    match c.byteCapacity with
    | none => true
    | some capacity => decide (itemBytes ≤ capacity - q.bytesUsed)

/-- The predicate a call waits for. -/
def Contents.ready (c : Setup) (q : Contents α) : Call α → Bool
  | .push _ itemBytes => q.closed || q.hasCapacity c itemBytes
  | .pop => q.closed || !q.items.isEmpty

def Contents.append (q : Contents α) (a : α) (itemBytes : UInt64) : Contents α :=
  { q with items := q.items ++ [(a, itemBytes)], bytesUsed := q.bytesUsed + itemBytes }

def oversized (c : Setup) (itemBytes : UInt64) : Bool :=
  match c.byteCapacity with
  | none => false
  | some capacity => decide (capacity < itemBytes)

namespace State

def stopRequested (s : State α) : Token → Bool
  | none => false
  | some source => s.stopped source

def phase (s : State α) (i : Nat) : Phase α := (s.threads i).phase

def setThread (s : State α) (i : Nat) (thread : Thread α) : State α :=
  { s with threads := Function.update s.threads i thread }

/-- A thread goes on inside its call. -/
def goto (s : State α) (i : Nat) (phase : Phase α) : State α :=
  s.setThread i ⟨phase, (s.threads i).outcome⟩

def acquire (s : State α) (i : Nat) : State α := { s with owner := some i }

def release (s : State α) : State α := { s with owner := none }

/-- A thread leaves the queue. -/
def leave (s : State α) (i : Nat) (outcome : Outcome α) : State α :=
  (s.setThread i ⟨.idle, some outcome⟩).release

end State

/-- The condition on which a thread is parked. -/
def Phase.parkedOn : Phase α → Option Condition
  | .waiting call _ .parked => some call.condition
  | _ => none

def Phase.wake : Phase α → Phase α
  | .waiting call token _ => .waiting call token .woken
  | phase => phase

/-- The condition whose `wait` a thread is inside of, where a stop of its token is heard. -/
def Phase.hears (source : Nat) : Phase α → Option Condition
  | .waiting _ _ (.passed _ _) => none
  | .waiting call (some s) _ => if s = source then some call.condition else none
  | _ => none

namespace State

/-- `notify_all`. -/
def notifyAll (s : State α) (condition : Condition) : State α :=
  { s with threads := fun i =>
      if (s.phase i).parkedOn = some condition then
        ⟨(s.phase i).wake, (s.threads i).outcome⟩
      else s.threads i }

/-- `notify_one`: a thread that is parked on the condition, if there is one. -/
def notifyOne (c : Setup) (s : State α) (condition : Condition) (chosen : Option Nat) :
    Option (State α) :=
  match chosen with
  | some j =>
    if j < c.threadCount ∧ (s.phase j).parkedOn = some condition then
      some (s.goto j (s.phase j).wake)
    else none
  | none =>
    if (List.range c.threadCount).all (fun j => (s.phase j).parkedOn ≠ some condition) then some s
    else none

/-- A `wait` on the condition has a token of the source. -/
def heard (c : Setup) (s : State α) (source : Nat) (condition : Condition) : Bool :=
  (List.range c.threadCount).any (fun i => (s.phase i).hears source = some condition)

/-- `request_stop`: the first one wakes all that are parked on a condition with such a `wait`. -/
def stop (c : Setup) (s : State α) (source : Nat) : State α :=
  if s.stopped source then s
  else
    let stopping := { s with stopped := Function.update s.stopped source true }
    let woken := if s.heard c source .notFull then stopping.notifyAll .notFull else stopping
    if s.heard c source .notEmpty then woken.notifyAll .notEmpty else woken

/-- A push or a pop that is through its wait may go on. -/
def succeeds (s : State α) (ready : Bool) (token : Token) : Call α → Bool
  | .push _ _ => ready && !s.stopRequested token && !s.contents.closed
  | .pop => ready && !s.stopRequested token && !s.contents.items.isEmpty

def failure : Call α → Outcome α
  | .push a _ => .refused a
  | .pop => .nothing

/-- A thread goes on by itself. -/
def next (c : Setup) (s : State α) (i : Nat) : Option (State α) :=
  match s.phase i with
  | .entering a token =>
    if s.stopRequested token then some (s.setThread i ⟨.idle, some (.refused a)⟩)
    else some (s.goto i (.locking (some a) token))
  | .locking (some a) token =>
    if s.owner = none then
      some ((s.goto i (if c.byteCapacity = none then .sized a 0 token
        else .sizing a token)).acquire i)
    else none
  | .locking none token =>
    if s.owner = none then some ((s.goto i (.waiting .pop token (.testing false))).acquire i)
    else none
  | .sized a itemBytes token =>
    if s.stopRequested token || oversized c itemBytes then some (s.leave i (.refused a))
    else some (s.goto i (.waiting (.push a itemBytes) token (.testing false)))
  | .waiting call token (.testing notified) =>
    if s.contents.ready c call then some (s.goto i (.waiting call token (.passed true notified)))
    else if s.stopRequested token then
      some (s.goto i (.waiting call token (.passed false notified)))
    else some ((s.goto i (.waiting call token .parked)).release)
  | .waiting call token .woken =>
    if s.owner = none then some ((s.goto i (.waiting call token (.testing true))).acquire i)
    else none
  | .waiting call token (.passed ready _) =>
    if s.succeeds ready token call then none else some (s.leave i (failure call))
  | .closing =>
    if s.owner = none then
      some (({ s with contents := { s.contents with closed := true } }.setThread i
        ⟨.idle, some .closed⟩).notifyAll .notEmpty |>.notifyAll .notFull)
    else none
  | _ => none

/-- The end of a push or a pop that succeeds. -/
def finish (c : Setup) (s : State α) (i : Nat) (chosen : Option Nat) : Option (State α) :=
  match s.phase i with
  | .waiting (.push a itemBytes) token (.passed ready _) =>
    if s.succeeds ready token (.push a itemBytes) then
      ({ s with
        contents := s.contents.append a itemBytes
        pushed := s.pushed ++ [a] }.leave i (.accepted a)).notifyOne c .notEmpty chosen
    else none
  | .waiting .pop token (.passed ready _) =>
    match s.contents.items with
    | (a, itemBytes) :: rest =>
      if s.succeeds ready token .pop then
        ({ s with
          contents := { s.contents with
            items := rest
            bytesUsed := s.contents.bytesUsed - itemBytes }
          popped := s.popped ++ [a] }.leave i (.item a)).notifyOne c .notFull chosen
      else none
    | [] => none
  | _ => none

/-- An exception of the size function, or of the element type where an item goes in or out. -/
def throws (s : State α) (i : Nat) : Option (State α) :=
  match s.phase i with
  | .sizing _ _ => some (s.leave i .threw)
  | .waiting call token (.passed ready _) =>
    if s.succeeds ready token call then some (s.leave i .threw) else none
  | _ => none

end State

def step (c : Setup) (s : State α) : Label α → Option (State α)
  | .callPush i a token =>
    match s.phase i with
    | .idle => if i < c.threadCount then some (s.goto i (.entering a token)) else none
    | _ => none
  | .callPop i token =>
    match s.phase i with
    | .idle => if i < c.threadCount then some (s.goto i (.locking none token)) else none
    | _ => none
  | .callClose i =>
    match s.phase i with
    | .idle => if i < c.threadCount then some (s.goto i .closing) else none
    | _ => none
  | .next i => s.next c i
  | .sizes i itemBytes =>
    match s.phase i with
    | .sizing a token => some (s.goto i (.sized a itemBytes token))
    | _ => none
  | .throws i => s.throws i
  | .finish i chosen => s.finish c i chosen
  | .spurious i =>
    if ((s.phase i).parkedOn).isSome then some (s.goto i (s.phase i).wake) else none
  | .requestStop source => some (s.stop c source)

/-- The steps of a schedule, one after the other. -/
def run (c : Setup) : State α → List (Label α) → Option (State α)
  | s, [] => some s
  | s, l :: ls => (step c s l).bind fun t => run c t ls

/-- A new queue, with nobody in it. -/
def State.start : State α :=
  { contents := ⟨[], 0, false⟩, owner := none, stopped := fun _ => false
    threads := fun _ => ⟨.idle, none⟩, pushed := [], popped := [] }

end LocalVault.Concurrency
