import LocalVault.Proofs.Closings
import LocalVault.Proofs.Conservation
import LocalVault.Snapshot.Parking

namespace LocalVault.Snapshot
open Library Repository

variable {c : Config} {x : Externals} {s t : State} {l : Label} {thread : Thread} {i : Nat}
  {k : Condition} {chosen : Option Thread} {u : Parking}

/-! Wake-ups in the pipeline: who waits needs to, or somebody who was woken is on the way. -/

theorem condition_scanner (h : t.scanner = s.scanner) :
    t.condition .scanner = s.condition .scanner := by
  simp only [State.condition, h]

theorem condition_worker (h : t.workers i = s.workers i) :
    t.condition (.worker i) = s.condition (.worker i) := by
  simp only [State.condition, h]

theorem condition_writer (h : t.writer = s.writer) : t.condition .writer = s.condition .writer := by
  simp only [State.condition, h]

/-- Each condition has its own kind of waiter. -/
theorem condition_waiter (h : s.condition thread = some k) :
    thread = .scanner ∧ k = .jobsNotFull ∨ thread = .writer ∧ k = .processedNotEmpty ∨
      ∃ i, thread = .worker i ∧ (k = .jobsNotEmpty ∨ k = .processedNotFull) := by
  unfold State.condition at h
  split at h
  · cases h
  · split at h
    · exact .inl ⟨rfl, (Option.some.inj h).symm⟩
    · cases h
  · split at h
    · exact .inr (.inr ⟨_, rfl, .inl (Option.some.inj h).symm⟩)
    · exact .inr (.inr ⟨_, rfl, .inr (Option.some.inj h).symm⟩)
    · cases h
  · split at h
    · exact .inr (.inl ⟨rfl, (Option.some.inj h).symm⟩)
    · cases h

theorem waiter_scanner (h : s.condition thread = some .jobsNotFull) : thread = .scanner := by
  rcases condition_waiter h with ⟨rfl, -⟩ | ⟨-, hk⟩ | ⟨_, -, hk | hk⟩
  · rfl
  all_goals cases hk

theorem waiter_writer (h : s.condition thread = some .processedNotEmpty) : thread = .writer := by
  rcases condition_waiter h with ⟨-, hk⟩ | ⟨rfl, -⟩ | ⟨_, -, hk | hk⟩
  · cases hk
  · rfl
  all_goals cases hk

theorem waiter_worker (h : s.condition thread = some k)
    (hk : k = .jobsNotEmpty ∨ k = .processedNotFull) : ∃ i, thread = .worker i := by
  rcases condition_waiter h with ⟨-, rfl⟩ | ⟨-, rfl⟩ | ⟨i, rfl, -⟩
  · rcases hk with hk | hk <;> cases hk
  · rcases hk with hk | hk <;> cases hk
  · exact ⟨i, rfl⟩

theorem condition_eq (hscanner : t.scanner = s.scanner) (hworkers : t.workers = s.workers)
    (hwriter : t.writer = s.writer) (thread : Thread) : t.condition thread = s.condition thread := by
  cases thread with
  | main => rfl
  | scanner => exact condition_scanner hscanner
  | worker i => exact condition_worker (congrFun hworkers i)
  | writer => exact condition_writer hwriter

/-- The calling thread touches nobody at a queue. -/
theorem MainMove.condition (hm : MainMove c s t) (hy : Young s) (thread : Thread) :
    t.condition thread = s.condition thread := by
  cases hm with
  | creates created hp =>
    have hu := hy created (by rw [hp]; rfl)
    have hcreates := create_creates (c := c) (s := s) created
    generalize s.create c created = t at hcreates ⊢
    cases hcreates with
    | progress => exact condition_eq rfl rfl rfl thread
    | writer =>
      cases thread with
      | writer => simp [State.condition, hu.writer (Nat.le_refl _)]
      | _ => rfl
    | worker i hi =>
      cases thread with
      | worker j =>
        by_cases hj : j = i
        · subst hj
          simp [State.condition, State.moveWorker, setWorker_same, hu.workers j (Nat.le_refl _)]
        · simp only [State.condition, State.moveWorker, setWorker_other hj]
      | _ => rfl
    | scanner _ hn =>
      cases thread with
      | scanner => simp [State.condition, hu.scanner]
      | _ => rfl
  | cancels f stage hp =>
    have hu : Untouched s (s.shut f stage) := shut_untouched
    exact condition_eq hu.scanner hu.workers hu.writer thread
  | shuts f stage hp =>
    have hu : Untouched s (s.shut f stage) := shut_untouched
    exact condition_eq hu.scanner hu.workers hu.writer thread
  | _ => exact condition_eq rfl rfl rfl thread

/-- A thread that does not move stays where it is. -/
theorem step_condition (hy : Young s) (h : step c x s l = some t) (hl : l.thread ≠ some thread) :
    t.condition thread = s.condition thread := by
  cases l with
  | scanner a =>
    have hframe := (stepScanner_move h).frame
    cases thread with
    | scanner => exact absurd rfl hl
    | main => rfl
    | worker j => exact condition_worker (congrFun hframe.workers j)
    | writer => exact condition_writer hframe.writer
  | worker i a =>
    simp only [step] at h
    split at h
    · have hframe := (stepWorker_move h).frame
      cases thread with
      | scanner => exact condition_scanner hframe.scanner
      | main => rfl
      | worker j => exact condition_worker (hframe.others j (fun he => hl (by rw [he]; rfl)))
      | writer => exact condition_writer hframe.writer
    · cases h
  | writer a =>
    have hframe := (stepWriter_move h).frame
    cases thread with
    | scanner => exact condition_scanner hframe.scanner
    | main => rfl
    | worker j => exact condition_worker (congrFun hframe.workers j)
    | writer => exact absurd rfl hl
  | progress a =>
    have hframe := (stepProgress_move (c := c) h).frame
    exact condition_eq hframe.scanner hframe.workers hframe.writer thread
  | canceller =>
    have hframe := (stepCanceller_move (c := c) h).frame
    exact condition_eq hframe.scanner hframe.workers hframe.writer thread
  | requestExternalStop =>
    have hframe := (stepRequest_move h).frame
    exact condition_eq hframe.scanner hframe.workers hframe.writer thread
  | main a => exact (stepMain_move h).condition hy thread

/-- What a step does to the items of the queues, and whom it notifies of it. -/
inductive Handles (c : Config) (s t : State) (l : Label) : Prop
  | nothing (hjobs : t.jobs.items = s.jobs.items) (hprocessed : t.processed.items = s.processed.items)
  | pushesJob (hl : l.thread = some .scanner)
      (hjobs : t.jobs.items.length = s.jobs.items.length + 1)
      (hprocessed : t.processed.items = s.processed.items) (hsignal : s.signal t = .one .jobsNotEmpty)
  | popsJob (i : Nat) (hl : l.thread = some (.worker i))
      (hp : s.condition (.worker i) = some .jobsNotEmpty) (ht : t.condition (.worker i) = none)
      (hjobs : s.jobs.items.length = t.jobs.items.length + 1)
      (hprocessed : t.processed.items = s.processed.items) (hsignal : s.signal t = .one .jobsNotFull)
  | pushesResult (i : Nat) (hl : l.thread = some (.worker i))
      (hp : s.condition (.worker i) = some .processedNotFull) (hjobs : t.jobs.items = s.jobs.items)
      (hprocessed : t.processed.items.length = s.processed.items.length + 1)
      (hsignal : s.signal t = .one .processedNotEmpty)
  | popsResult (hl : l.thread = some .writer) (hjobs : t.jobs.items = s.jobs.items)
      (hprocessed : s.processed.items.length = t.processed.items.length + 1)
      (hsignal : s.signal t = .one .processedNotFull)

theorem between_condition (h : (s.workers i).pc.between = true) : s.condition (.worker i) = none := by
  unfold State.condition
  dsimp only
  split
  · simp_all [WorkerPc.between]
  · simp_all [WorkerPc.between]
  · rfl

theorem ScannerMove.handles (hm : ScannerMove c s t) (hl : l.thread = some .scanner) :
    Handles c s t l := by
  cases hm with
  | pushes job rest jobs hp hq =>
    obtain ⟨-, -, -, rfl⟩ := Queue.push_accepted hq
    exact .pushesJob hl (by simp) rfl (by simp [State.signal, State.closings])
  | shuts f stage hp => exact .nothing shut_untouched.jobItems shut_untouched.processedItems
  | _ => exact .nothing rfl rfl

theorem WorkerMove.handles (hm : WorkerMove c x s i t) (hl : l.thread = some (.worker i)) :
    Handles c s t l := by
  cases hm with
  | pops job jobs hp hq =>
    obtain ⟨-, n, hitems, hjobs⟩ := Queue.pop_item hq
    have hclosed : jobs.closed = s.jobs.closed := by rw [hjobs]
    refine .popsJob i hl (by simp [State.condition, hp]) ?_ (by simp [State.setWorker, hitems]) rfl ?_
    · exact between_condition (by rw [setWorker_same]; exact accept_between job)
    · simp [State.signal, State.closings, State.setWorker, hitems, hclosed]
  | pushes p processed hp hq =>
    obtain ⟨-, -, -, rfl⟩ := Queue.push_accepted hq
    exact .pushesResult i hl (by simp [State.condition, hp]) rfl
      (by simp [State.moveWorker, State.setWorker])
      (by simp [State.signal, State.closings, State.moveWorker, State.setWorker])
  | shuts f stage hp => exact .nothing shut_untouched.jobItems shut_untouched.processedItems
  | _ => exact .nothing rfl rfl

theorem WriterMove.handles (hm : WriterMove c s t) (hl : l.thread = some .writer) :
    Handles c s t l := by
  cases hm with
  | pops p processed hp hq =>
    obtain ⟨-, n, hitems, hprocessed⟩ := Queue.pop_item hq
    have hclosed : processed.closed = s.processed.closed := by rw [hprocessed]
    exact .popsResult hl rfl (by simp [hitems])
      (by simp [State.signal, State.closings, hitems, hclosed])
  | shuts f stage hp => exact .nothing shut_untouched.jobItems shut_untouched.processedItems
  | _ => exact .nothing rfl rfl

theorem step_handles (hy : Young s) (h : step c x s l = some t) : Handles c s t l := by
  cases l with
  | scanner a => exact (stepScanner_move h).handles rfl
  | worker i a =>
    simp only [step] at h
    split at h
    · exact (stepWorker_move h).handles rfl
    · cases h
  | writer a => exact (stepWriter_move h).handles rfl
  | progress a =>
    have hframe := (stepProgress_move (c := c) h).frame
    exact .nothing hframe.jobItems hframe.processedItems
  | canceller =>
    have hframe := (stepCanceller_move (c := c) h).frame
    exact .nothing hframe.jobItems hframe.processedItems
  | requestExternalStop =>
    have hframe := (stepRequest_move h).frame
    exact .nothing hframe.jobItems hframe.processedItems
  | main a =>
    have hcalm := (stepMain_move h).calm hy
    exact .nothing hcalm.jobs hcalm.processed

/-- A worker that has thrown, and whose `shutdown` has not requested the stop. -/
def WorkerPc.throwing : WorkerPc → Bool
  | .refused _ _ => true
  | .shutting _ stage => !stage.stopped
  | _ => false

/-- A thrown worker is at work until the stop. -/
def State.throws (c : Config) (s : State) : Prop :=
  ∃ i < c.workerCount, (s.workers i).pc.throwing = true

theorem WorkerMove.throwing (hm : WorkerMove c x s i t) (h : (s.workers i).pc.throwing = true) :
    (t.workers i).pc.throwing = true ∨ t.stopRequested = true := by
  cases hm with
  | works pc hw =>
    rcases hw.lands with ⟨hp, -⟩ | ⟨-, hp | ⟨hp, -⟩⟩ <;>
      cases hpc : (s.workers i).pc <;> simp_all [WorkerPc.throwing, WorkerPc.between, WorkerPc.plain]
  | rejects p large e hp =>
    left
    rw [State.moveWorker, setWorker_same]
    rfl
  | shuts f stage hp =>
    rw [hp] at h
    cases stage with
    | record =>
      left
      rw [State.moveWorker, setWorker_same]
      rfl
    | requestStop => exact .inr rfl
    | _ => cases h
  | _ => simp_all [WorkerPc.throwing]

/-- A worker leaves a pop with a job, or because no more come, or it throws. -/
theorem WorkerMove.leaves_pop (hm : WorkerMove c x s i t) (hp : s.condition (.worker i) = some .jobsNotEmpty) :
    (t.workers i).pc.throwing = true ∨ t.stopRequested = true ∨ t.jobs.closed = true ∨
      s.jobs.items.length = t.jobs.items.length + 1 := by
  have hpc : (s.workers i).pc = .popping := by
    unfold State.condition at hp
    dsimp only at hp
    split at hp
    · assumption
    · cases hp
    · cases hp
  cases hm with
  | works pc hw =>
    rw [hpc] at hw
    rcases hw.lands with ⟨he, -⟩ | ⟨-, he | ⟨-, f, rfl⟩⟩
    · cases he
    · cases he
    · left
      rw [State.moveWorker, setWorker_same]
      rfl
  | pops job jobs hp hq =>
    obtain ⟨-, n, hitems, -⟩ := Queue.pop_item hq
    exact .inr (.inr (.inr (by simp [State.setWorker, hitems])))
  | ended hp hq =>
    rcases Queue.pop_ended hq with hstop | ⟨-, hclosed⟩
    · exact .inr (.inl hstop)
    · exact .inr (.inr (.inl hclosed))
  | _ => simp_all

/-- A worker leaves a push with its result in the queue, or because no more are taken, or it
throws. -/
theorem WorkerMove.leaves_push (hm : WorkerMove c x s i t)
    (hp : s.condition (.worker i) = some .processedNotFull) :
    (t.workers i).pc.throwing = true ∨ t.processed.items.length = s.processed.items.length + 1 := by
  have hpc : ∃ p, (s.workers i).pc = .pushing p := by
    unfold State.condition at hp
    dsimp only at hp
    split at hp
    · cases hp
    · exact ⟨_, ‹_›⟩
    · cases hp
  obtain ⟨p, hpc⟩ := hpc
  cases hm with
  | works pc hw =>
    rw [hpc] at hw
    rcases hw.lands with ⟨he, -⟩ | ⟨-, he | ⟨-, f, rfl⟩⟩
    · cases he
    · cases he
    · left
      rw [State.moveWorker, setWorker_same]
      rfl
  | pushes p processed hp hq =>
    obtain ⟨-, -, -, rfl⟩ := Queue.push_accepted hq
    exact .inr (by simp [State.moveWorker, State.setWorker])
  | refused p hp hq =>
    left
    rw [State.moveWorker, setWorker_same]
    rfl
  | oversized p hp hq =>
    left
    rw [State.moveWorker, setWorker_same]
    rfl
  | _ => simp_all

theorem step_throws (hy : Young s) (h : step c x s l = some t) (ht : s.throws c) :
    t.throws c ∨ t.stopRequested = true := by
  obtain ⟨j, hj, hthrow⟩ := ht
  rcases (step_move h).worker_cases hy j with he | hm | ⟨hwaiting, -⟩
  · exact .inl ⟨j, hj, by rw [he]; exact hthrow⟩
  · exact (hm.throwing hthrow).imp_left fun hthrow => ⟨j, hj, hthrow⟩
  · rw [hwaiting] at hthrow
    cases hthrow

/-- The workers on their way through a call that waits on the condition. -/
def Parking.awake (c : Config) (u : Parking) (k : Condition) : Nat :=
  pooled c.workerCount fun i =>
    (u.pipeline.condition (.worker i) == some k && !u.parked (.worker i)).toNat

/-- Who is parked has nothing to wait for the stop, an end or its turn for: the scanner waits for
room, the writer for a result, and a worker for one of those that are on the way. -/
structure Roused (c : Config) (u : Parking) : Prop where
  calls : ∀ thread, u.parked thread = true →
    thread ∈ crew c ∧ ∃ k, u.pipeline.condition thread = some k
  stopped : u.pipeline.stopRequested = true → ∀ thread, u.parked thread = false
  jobs : u.pipeline.jobs.closed = true → ∀ thread, u.parked thread = true →
    u.pipeline.condition thread ≠ some .jobsNotFull ∧
      u.pipeline.condition thread ≠ some .jobsNotEmpty
  processed : u.pipeline.processed.closed = true → ∀ thread, u.parked thread = true →
    u.pipeline.condition thread ≠ some .processedNotFull ∧
      u.pipeline.condition thread ≠ some .processedNotEmpty
  scanner : u.parked .scanner = true →
    u.pipeline.jobs.itemCapacity ≤ u.pipeline.jobs.items.length
  writer : u.parked .writer = true → u.pipeline.processed.items = []
  poppers : ∀ i, u.parked (.worker i) = true →
    u.pipeline.condition (.worker i) = some .jobsNotEmpty →
      u.pipeline.throws c ∨ u.pipeline.jobs.items.length ≤ u.awake c .jobsNotEmpty
  pushers : ∀ i, u.parked (.worker i) = true →
    u.pipeline.condition (.worker i) = some .processedNotFull → u.pipeline.processed.items = [] →
      u.pipeline.throws c ∨ 0 < u.awake c .processedNotFull

theorem mem_crew : thread ∈ crew c ↔ thread = .scanner ∨ thread = .writer ∨
    ∃ i < c.workerCount, thread = .worker i := by
  simp [crew, eq_comm]

section Going

variable {parked : Thread → Bool}

/-- A step of the pipeline, and the threads that its notification leaves parked. -/
structure Goes (c : Config) (x : Externals) (u : Parking) (l : Label) (t : State)
    (parked : Thread → Bool) : Prop where
  step : Snapshot.step c x u.pipeline l = some t
  young : Young u.pipeline
  actor : ∀ thread, l.thread = some thread → u.parked thread = false
  woken : ∃ chosen, (u.pipeline.signal t).wake (crew c) u.pipeline.condition u.parked chosen =
    some parked
  roused : Roused c u

variable (h : Goes c x u l t parked)
include h

theorem Goes.before (hp : parked thread = true) : u.parked thread = true := by
  obtain ⟨chosen, hwake⟩ := h.woken
  exact Signal.wake_parked hwake hp

theorem Goes.condition (hp : u.parked thread = true) :
    t.condition thread = u.pipeline.condition thread := by
  refine step_condition h.young h.step fun hl => ?_
  rw [h.actor thread hl] at hp
  cases hp

/-- What a step closes lets nobody wait. -/
theorem Goes.closes (hk : k ∈ u.pipeline.closings t)
    (hp : parked thread = true) : u.pipeline.condition thread ≠ some k := by
  obtain ⟨chosen, hwake⟩ := h.woken
  have hne : u.pipeline.closings t ≠ [] := List.ne_nil_of_mem hk
  rw [State.signal, if_pos hne] at hwake
  exact ((Signal.wake_all hwake thread).mp hp).2 k hk

/-- A thread that the step notifies goes on. -/
theorem Goes.notifies (hsignal : u.pipeline.signal t = .one k)
    (hp : parked thread = true) (hk : u.pipeline.condition thread = some k) :
    ∃ other, u.parked other = true ∧ u.pipeline.condition other = some k ∧
      parked = Function.update u.parked other false := by
  obtain ⟨chosen, hwake⟩ := h.woken
  rw [hsignal] at hwake
  rcases Signal.wake_one hwake with ⟨-, hnobody⟩ | hother
  · exact absurd hk (hnobody thread (h.roused.calls thread (h.before hp)).1 (h.before hp))
  · exact hother

theorem Goes.shutting : Shutting u.pipeline t := (step_move h.step).shutting

theorem Goes.stopped (hstop : t.stopRequested = true) (thread : Thread) : parked thread = false := by
  by_contra hp
  rw [Bool.not_eq_false] at hp
  cases hbefore : u.pipeline.stopRequested with
  | true =>
    have := h.roused.stopped hbefore thread
    rw [h.before hp] at this
    cases this
  | false =>
    obtain ⟨-, k, hk⟩ := h.roused.calls thread (h.before hp)
    refine h.closes ?_ hp hk
    cases k <;> simp [State.closings, hstop, hbefore]

theorem Goes.jobs (hclosed : t.jobs.closed = true) (hp : parked thread = true) :
    t.condition thread ≠ some .jobsNotFull ∧ t.condition thread ≠ some .jobsNotEmpty := by
  rw [h.condition (h.before hp)]
  cases hbefore : u.pipeline.jobs.closed with
  | true => exact h.roused.jobs hbefore thread (h.before hp)
  | false =>
    constructor
    · exact h.closes (by simp [State.closings, hclosed, hbefore]) hp
    · exact h.closes (by simp [State.closings, hclosed, hbefore]) hp

theorem Goes.processed (hclosed : t.processed.closed = true) (hp : parked thread = true) :
    t.condition thread ≠ some .processedNotFull ∧ t.condition thread ≠ some .processedNotEmpty := by
  rw [h.condition (h.before hp)]
  cases hbefore : u.pipeline.processed.closed with
  | true => exact h.roused.processed hbefore thread (h.before hp)
  | false =>
    constructor
    · exact h.closes (by simp [State.closings, hclosed, hbefore]) hp
    · exact h.closes (by simp [State.closings, hclosed, hbefore]) hp

theorem Goes.scanner (hp : parked .scanner = true) : t.jobs.itemCapacity ≤ t.jobs.items.length := by
  have hfull := h.roused.scanner (h.before hp)
  rw [h.shutting.jobCapacity]
  cases step_handles h.young h.step with
  | nothing hjobs hprocessed => rwa [hjobs]
  | pushesJob hl hjobs hprocessed hsignal => omega
  | popsJob i hl hpc ht hjobs hprocessed hsignal =>
    obtain ⟨-, k, hk⟩ := h.roused.calls .scanner (h.before hp)
    rcases condition_waiter hk with ⟨-, rfl⟩ | ⟨he, -⟩ | ⟨_, he, -⟩
    · obtain ⟨other, -, hwaits, rfl⟩ := h.notifies hsignal hp hk
      obtain rfl := waiter_scanner hwaits
      simp at hp
    · cases he
    · cases he
  | pushesResult i hl hpc hjobs hprocessed hsignal => rwa [hjobs]
  | popsResult hl hjobs hprocessed hsignal => rwa [hjobs]

theorem Goes.writer (hp : parked .writer = true) : t.processed.items = [] := by
  have hempty := h.roused.writer (h.before hp)
  cases step_handles h.young h.step with
  | nothing hjobs hprocessed => rwa [hprocessed]
  | pushesJob hl hjobs hprocessed hsignal => rwa [hprocessed]
  | popsJob i hl hpc ht hjobs hprocessed hsignal => rwa [hprocessed]
  | pushesResult i hl hpc hjobs hprocessed hsignal =>
    obtain ⟨-, k, hk⟩ := h.roused.calls .writer (h.before hp)
    rcases condition_waiter hk with ⟨he, -⟩ | ⟨-, rfl⟩ | ⟨_, he, -⟩
    · cases he
    · obtain ⟨other, -, hwaits, rfl⟩ := h.notifies hsignal hp hk
      obtain rfl := waiter_writer hwaits
      simp at hp
    · cases he
  | popsResult hl hjobs hprocessed hsignal =>
    rw [hempty] at hprocessed
    cases hprocessed

/-- Of the workers that do not move none is parked, so those on their way stay on it. -/
theorem Goes.awake_other (k : Condition) (hl : l.thread ≠ some (.worker i)) :
    (u.pipeline.condition (.worker i) == some k && !u.parked (.worker i)).toNat ≤
      (t.condition (.worker i) == some k && !parked (.worker i)).toNat := by
  rw [step_condition h.young h.step hl]
  cases hp : parked (.worker i) with
  | true => simp [h.before hp]
  | false => cases u.parked (.worker i) <;> simp

theorem Goes.parked_actor (hl : l.thread = some thread) : parked thread = false := by
  by_contra hp
  rw [Bool.not_eq_false] at hp
  have := h.before hp
  rw [h.actor thread hl] at this
  cases this

/-- A step that takes no worker out of its call leaves all on their way. -/
theorem Goes.awake_each (k : Condition)
    (hmover : ∀ i, l.thread = some (.worker i) → u.pipeline.condition (.worker i) ≠ some k) (i : Nat) :
    (u.pipeline.condition (.worker i) == some k && !u.parked (.worker i)).toNat ≤
      (t.condition (.worker i) == some k && !parked (.worker i)).toNat := by
  by_cases hl : l.thread = some (.worker i)
  · rw [beq_eq_false_iff_ne.mpr (hmover i hl)]
    exact Nat.zero_le _
  · exact h.awake_other k hl

theorem Goes.awake_le (k : Condition)
    (hmover : ∀ i, l.thread = some (.worker i) → u.pipeline.condition (.worker i) ≠ some k) :
    u.awake c k ≤ Parking.awake c ⟨t, parked⟩ k :=
  pooled_mono (h.awake_each k hmover)

/-- With a worker that is woken there is one more. -/
theorem Goes.awake_lt (hk : k = .jobsNotEmpty ∨ k = .processedNotFull)
    (hsignal : u.pipeline.signal t = .one k)
    (hmover : ∀ i, l.thread = some (.worker i) → u.pipeline.condition (.worker i) ≠ some k)
    (hp : parked thread = true) (hwaits : u.pipeline.condition thread = some k) :
    u.awake c k < Parking.awake c ⟨t, parked⟩ k := by
  obtain ⟨other, hother, hcondition, hparked⟩ := h.notifies hsignal hp hwaits
  obtain ⟨j, rfl⟩ := waiter_worker hcondition hk
  have hj : j < c.workerCount := by
    rcases mem_crew.mp (h.roused.calls _ hother).1 with he | he | ⟨i, hi, he⟩
    · cases he
    · cases he
    · cases he
      exact hi
  have hchange := pooled_change_le (n := c.workerCount) hj fun i _ => h.awake_each k hmover i
  have hafter : t.condition (.worker j) = some k := by
    rw [h.condition hother]
    exact hcondition
  have hwoken : parked (.worker j) = false := by
    rw [hparked]
    exact Function.update_self _ _ _
  simp only [hcondition, hafter, hother, hwoken, beq_self_eq_true, Bool.not_true, Bool.not_false,
    Bool.and_false, Bool.and_true, Bool.toNat_false, Bool.toNat_true] at hchange
  unfold Parking.awake
  dsimp only
  omega

end Going

theorem step_worker (h : step c x s l = some t) (hl : l.thread = some (.worker i)) :
    i < c.workerCount ∧ WorkerMove c x s i t := by
  cases l with
  | worker j a =>
    cases hl
    simp only [step] at h
    split at h
    · exact ⟨‹_›, stepWorker_move h⟩
    · cases h
  | _ => cases hl

section Going

variable {parked : Thread → Bool} (h : Goes c x u l t parked)
include h

theorem Goes.running (hp : parked thread = true) : t.stopRequested = false := by
  by_contra hstop
  rw [h.stopped (Bool.not_eq_false _ ▸ hstop) thread] at hp
  cases hp

theorem Goes.throws (hp : parked thread = true) (ht : u.pipeline.throws c) : t.throws c := by
  refine (step_throws h.young h.step ht).resolve_right fun hstop => ?_
  rw [h.running hp] at hstop
  cases hstop

theorem Goes.poppers (hp : parked (.worker i) = true)
    (hk : t.condition (.worker i) = some .jobsNotEmpty) :
    t.throws c ∨ t.jobs.items.length ≤ Parking.awake c ⟨t, parked⟩ .jobsNotEmpty := by
  have hwaits : u.pipeline.condition (.worker i) = some .jobsNotEmpty := by
    rw [← h.condition (h.before hp)]
    exact hk
  rcases h.roused.poppers i (h.before hp) hwaits with hthrows | hcount
  · exact .inl (h.throws hp hthrows)
  cases step_handles h.young h.step with
  | nothing hjobs hprocessed =>
    by_cases hmover : ∀ j, l.thread = some (.worker j) →
        u.pipeline.condition (.worker j) ≠ some .jobsNotEmpty
    · exact .inr (hjobs ▸ hcount.trans (h.awake_le _ hmover))
    · push Not at hmover
      obtain ⟨j, hl, hpop⟩ := hmover
      obtain ⟨hj, hm⟩ := step_worker h.step hl
      rcases hm.leaves_pop hpop with hthrow | hstop | hclosed | hless
      · exact .inl ⟨j, hj, hthrow⟩
      · rw [h.running hp] at hstop
        cases hstop
      · exact absurd hk (h.jobs hclosed hp).2
      · rw [hjobs] at hless
        omega
  | pushesJob hl hjobs hprocessed hsignal =>
    have hlt := h.awake_lt (.inl rfl) hsignal (fun j hl' => by simp [hl] at hl') hp hwaits
    exact .inr (by omega)
  | popsJob j hl hpop ht hjobs hprocessed hsignal =>
    have hchange := pooled_change_le (n := c.workerCount) (step_worker h.step hl).1
      fun m hm => h.awake_other .jobsNotEmpty (i := m) (by simpa [hl] using Ne.symm hm)
    simp only [hpop, ht, h.actor _ hl, h.parked_actor hl, beq_self_eq_true, Bool.not_false,
      Bool.and_true, Bool.toNat_true] at hchange
    unfold Parking.awake at hcount ⊢
    dsimp only at hchange ⊢
    exact .inr (by omega)
  | pushesResult j hl hpush hjobs hprocessed hsignal =>
    refine .inr (hjobs ▸ hcount.trans (h.awake_le _ fun m hl' => ?_))
    rw [hl] at hl'
    cases hl'
    simp [hpush]
  | popsResult hl hjobs hprocessed hsignal =>
    exact .inr (hjobs ▸ hcount.trans (h.awake_le _ fun m hl' => by simp [hl] at hl'))

theorem Goes.pushers (hp : parked (.worker i) = true)
    (hk : t.condition (.worker i) = some .processedNotFull) (hempty : t.processed.items = []) :
    t.throws c ∨ 0 < Parking.awake c ⟨t, parked⟩ .processedNotFull := by
  have hwaits : u.pipeline.condition (.worker i) = some .processedNotFull := by
    rw [← h.condition (h.before hp)]
    exact hk
  have hsame : t.processed.items = u.pipeline.processed.items →
      (∀ j, l.thread = some (.worker j) →
        u.pipeline.condition (.worker j) ≠ some .processedNotFull) →
      t.throws c ∨ 0 < Parking.awake c ⟨t, parked⟩ .processedNotFull := by
    intro hprocessed hmover
    rcases h.roused.pushers i (h.before hp) hwaits (hprocessed ▸ hempty) with hthrows | hpos
    · exact .inl (h.throws hp hthrows)
    · exact .inr (hpos.trans_le (h.awake_le _ hmover))
  cases step_handles h.young h.step with
  | nothing hjobs hprocessed =>
    by_cases hmover : ∀ j, l.thread = some (.worker j) →
        u.pipeline.condition (.worker j) ≠ some .processedNotFull
    · exact hsame hprocessed hmover
    · push Not at hmover
      obtain ⟨j, hl, hpush⟩ := hmover
      obtain ⟨hj, hm⟩ := step_worker h.step hl
      rcases hm.leaves_push hpush with hthrow | hmore
      · exact .inl ⟨j, hj, hthrow⟩
      · rw [hempty] at hmore
        cases hmore
  | pushesJob hl hjobs hprocessed hsignal =>
    exact hsame hprocessed fun j hl' => by simp [hl] at hl'
  | popsJob j hl hpop ht hjobs hprocessed hsignal =>
    refine hsame hprocessed fun m hl' => ?_
    rw [hl] at hl'
    cases hl'
    simp [hpop]
  | pushesResult j hl hpush hjobs hprocessed hsignal =>
    rw [hempty] at hprocessed
    cases hprocessed
  | popsResult hl hjobs hprocessed hsignal =>
    have hlt := h.awake_lt (.inr rfl) hsignal (fun j hl' => by simp [hl] at hl') hp hwaits
    exact .inr (Nat.zero_lt_of_lt hlt)

/-- A step of the pipeline strands nobody. -/
theorem Goes.rouses : Roused c ⟨t, parked⟩ where
  calls thread hp := by
    obtain ⟨hmem, k, hk⟩ := h.roused.calls thread (h.before hp)
    exact ⟨hmem, k, (h.condition (h.before hp)).trans hk⟩
  stopped hstop := h.stopped hstop
  jobs hclosed _ hp := h.jobs hclosed hp
  processed hclosed _ hp := h.processed hclosed hp
  scanner hp := h.scanner hp
  writer hp := h.writer hp
  poppers _ hp hk := h.poppers hp hk
  pushers _ hp hk hempty := h.pushers hp hk hempty

end Going

section Waiting

variable {α : Type} {q : Queue α} {stop : Bool} {a : α} {n : Nat}

theorem push_waits (h : (q.push stop a n).isWaits = true) :
    stop = false ∧ q.closed = false ∧ q.tooLarge n = false ∧ q.hasCapacity n = false := by
  unfold Queue.push at h
  split at h
  · cases h
  · rename_i hstop
    split at h
    · cases h
    · rename_i hlarge
      split at h
      · cases h
      · rename_i hclosed
        split at h
        · cases h
        · rename_i hroom
          simp only [Bool.not_eq_true] at hstop hlarge hclosed hroom
          exact ⟨hstop, hclosed, hlarge, hroom⟩

theorem pop_waits (h : (q.pop stop).isWaits = true) :
    stop = false ∧ q.closed = false ∧ q.items = [] := by
  unfold Queue.pop at h
  split at h
  · cases h
  · rename_i hstop
    split at h
    · rename_i hitems
      split at h
      · cases h
      · rename_i hclosed
        simp only [Bool.not_eq_true] at hstop hclosed
        exact ⟨hstop, hclosed, hitems⟩
    · cases h

/-- What is not too large for the queue fits into an empty one. -/
theorem nonempty_of_waits (hpos : 0 < q.itemCapacity) (hlarge : q.tooLarge n = false)
    (hroom : q.hasCapacity n = false) : q.items ≠ [] := by
  intro hitems
  unfold Queue.tooLarge at hlarge
  unfold Queue.hasCapacity Queue.bytesUsed at hroom
  rw [hitems] at hroom
  cases hb : q.byteCapacity with
  | none => simp [hb, hpos] at hroom
  | some capacity =>
    simp only [hb, decide_eq_false_iff_not, Nat.not_lt] at hlarge
    simp only [hb, List.length_nil, hpos, decide_true, Bool.true_and, List.map_nil, List.sum_nil,
      Nat.sub_zero, decide_eq_false_iff_not] at hroom
    exact hroom hlarge

end Waiting

/-- What holds where a thread is parked. -/
theorem mustWait_inv (h : s.mustWait c thread = true) : s.stopRequested = false ∧
    (thread = .scanner ∧ s.condition thread = some .jobsNotFull ∧ s.jobs.closed = false ∧
        s.jobs.hasCapacity 0 = false ∨
      thread = .writer ∧ s.condition thread = some .processedNotEmpty ∧
        s.processed.closed = false ∧ s.processed.items = [] ∨
      (∃ i, thread = .worker i ∧ s.condition thread = some .jobsNotEmpty ∧
        s.jobs.closed = false ∧ s.jobs.items = []) ∨
      ∃ i n, thread = .worker i ∧ s.condition thread = some .processedNotFull ∧
        s.processed.closed = false ∧ s.processed.tooLarge n = false ∧
        s.processed.hasCapacity n = false) := by
  cases thread with
  | main => cases h
  | scanner =>
    unfold State.mustWait at h
    dsimp only at h
    split at h
    · rename_i job rest hp
      obtain ⟨hstop, hclosed, -, hroom⟩ := push_waits h
      exact ⟨hstop, .inl ⟨rfl, by simp [State.condition, hp], hclosed, hroom⟩⟩
    · cases h
  | worker i =>
    unfold State.mustWait at h
    dsimp only at h
    split at h
    · rename_i hp
      obtain ⟨hstop, hclosed, hitems⟩ := pop_waits h
      exact ⟨hstop, .inr (.inr (.inl ⟨i, rfl, by simp [State.condition, hp], hclosed, hitems⟩))⟩
    · rename_i p hp
      obtain ⟨hstop, hclosed, hlarge, hroom⟩ := push_waits h
      exact ⟨hstop, .inr (.inr (.inr ⟨i, _, rfl, by simp [State.condition, hp], hclosed, hlarge,
        hroom⟩))⟩
    · cases h
  | writer =>
    unfold State.mustWait at h
    dsimp only at h
    split at h
    · rename_i hp
      obtain ⟨hstop, hclosed, hitems⟩ := pop_waits h
      exact ⟨hstop, .inr (.inl ⟨rfl, by simp [State.condition, hp], hclosed, hitems⟩)⟩
    · cases h

/-- A thread that is parked finds what it waits for missing. -/
theorem Roused.parks (h : Roused c u) (hs : Sound c u.pipeline)
    (hpos : 0 < u.pipeline.processed.itemCapacity) (hmem : thread ∈ crew c)
    (hw : u.pipeline.mustWait c thread = true) :
    Roused c { u with parked := Function.update u.parked thread true } := by
  obtain ⟨hstop, hcases⟩ := mustWait_inv hw
  have hparked : ∀ {other}, Function.update u.parked thread true other = true →
      other = thread ∨ u.parked other = true := by
    intro other ho
    by_cases he : other = thread
    · exact .inl he
    · exact .inr (by rwa [Function.update_of_ne he] at ho)
  have hcondition : ∃ k, u.pipeline.condition thread = some k := by
    rcases hcases with ⟨-, hk, -⟩ | ⟨-, hk, -⟩ | ⟨_, -, hk, -⟩ | ⟨_, _, -, hk, -⟩ <;> exact ⟨_, hk⟩
  -- the workers on their way through another call stay on it
  have hawake : ∀ k, u.pipeline.condition thread ≠ some k →
      u.awake c k ≤ Parking.awake c { u with parked := Function.update u.parked thread true } k := by
    intro k hk
    refine pooled_mono fun i => ?_
    by_cases he : Thread.worker i = thread
    · rw [he, beq_eq_false_iff_ne.mpr hk]
      exact Nat.zero_le _
    · simp [Function.update_of_ne he]
  refine ⟨fun other ho => ?_, fun hst => ?_, fun hc other ho => ?_, fun hc other ho => ?_, fun ho => ?_,
    fun ho => ?_, fun i ho hk => ?_, fun i ho hk hempty => ?_⟩
  · rcases hparked ho with rfl | ho
    · exact ⟨hmem, hcondition⟩
    · exact h.calls other ho
  · rw [hstop] at hst
    cases hst
  · rcases hparked ho with rfl | ho
    · rcases hcases with ⟨-, -, hopen, -⟩ | ⟨-, hk, -⟩ | ⟨_, -, -, hopen, -⟩ | ⟨_, _, -, hk, -⟩
      · rw [hc] at hopen
        cases hopen
      · simp [hk]
      · rw [hc] at hopen
        cases hopen
      · simp [hk]
    · exact h.jobs hc other ho
  · rcases hparked ho with rfl | ho
    · rcases hcases with ⟨-, hk, -⟩ | ⟨-, -, hopen, -⟩ | ⟨_, -, hk, -⟩ | ⟨_, _, -, -, hopen, -⟩
      · simp [hk]
      · rw [hc] at hopen
        cases hopen
      · simp [hk]
      · rw [hc] at hopen
        cases hopen
    · exact h.processed hc other ho
  · rcases hparked ho with rfl | ho
    · rcases hcases with ⟨-, -, -, hroom⟩ | ⟨he, -⟩ | ⟨_, he, -⟩ | ⟨_, _, he, -⟩
      · unfold Queue.hasCapacity at hroom
        rw [hs.unlimited] at hroom
        simpa using hroom
      all_goals cases he
    · exact h.scanner ho
  · rcases hparked ho with rfl | ho
    · rcases hcases with ⟨he, -⟩ | ⟨-, -, -, hitems⟩ | ⟨_, he, -⟩ | ⟨_, _, he, -⟩
      · cases he
      · exact hitems
      all_goals cases he
    · exact h.writer ho
  · by_cases hsame : u.pipeline.condition thread = some .jobsNotEmpty
    · right
      rcases hcases with ⟨-, hk, -⟩ | ⟨-, hk, -⟩ | ⟨_, -, -, -, hitems⟩ | ⟨_, _, -, hk, -⟩
      · rw [hk] at hsame
        cases hsame
      · rw [hk] at hsame
        cases hsame
      · simp [hitems]
      · rw [hk] at hsame
        cases hsame
    · rcases hparked ho with rfl | ho
      · exact absurd hk hsame
      · exact (h.poppers i ho hk).imp_right (le_trans · (hawake _ hsame))
  · by_cases hsame : u.pipeline.condition thread = some .processedNotFull
    · rcases hcases with ⟨-, hk, -⟩ | ⟨-, hk, -⟩ | ⟨_, -, hk, -⟩ | ⟨_, n, -, -, -, hlarge, hroom⟩
      · rw [hk] at hsame
        cases hsame
      · rw [hk] at hsame
        cases hsame
      · rw [hk] at hsame
        cases hsame
      · exact absurd hempty (nonempty_of_waits hpos hlarge hroom)
    · rcases hparked ho with rfl | ho
      · exact absurd hk hsame
      · exact (h.pushers i ho hk hempty).imp_right (lt_of_lt_of_le · (hawake _ hsame))

/-- A thread that wakes for no reason looks again. -/
theorem Roused.wakes (h : Roused c u) (thread : Thread) :
    Roused c { u with parked := Function.update u.parked thread false } := by
  have hparked : ∀ {other}, Function.update u.parked thread false other = true →
      u.parked other = true := by
    intro other ho
    by_cases he : other = thread
    · subst he
      simp at ho
    · rwa [Function.update_of_ne he] at ho
  have hawake : ∀ k, u.awake c k ≤
      Parking.awake c { u with parked := Function.update u.parked thread false } k := by
    intro k
    refine pooled_mono fun i => ?_
    by_cases he : Thread.worker i = thread
    · simp only [he, Function.update_self]
      cases u.parked thread <;> simp
    · simp [Function.update_of_ne he]
  refine ⟨fun other ho => h.calls other (hparked ho), fun hstop other => ?_,
    fun hc other ho => h.jobs hc other (hparked ho),
    fun hc other ho => h.processed hc other (hparked ho), fun ho => h.scanner (hparked ho),
    fun ho => h.writer (hparked ho),
    fun i ho hk => (h.poppers i (hparked ho) hk).imp_right (le_trans · (hawake _)),
    fun i ho hk hempty => (h.pushers i (hparked ho) hk hempty).imp_right (lt_of_lt_of_le · (hawake _))⟩
  by_contra ho
  have hbefore := h.stopped hstop other
  rw [hparked (by simpa using ho)] at hbefore
  cases hbefore

/-- What holds in every state of the pipeline with its wait sets. -/
structure Parked (c : Config) (u : Parking) : Prop where
  orderly : Orderly c u.pipeline
  closes : Closes c u.pipeline
  jobCapacity : u.pipeline.jobs.itemCapacity = c.jobQueueCapacity
  processedCapacity : u.pipeline.processed.itemCapacity = c.resultQueueCapacity
  roused : Roused c u

theorem roused_start {v : Vault} {e : Bool} : Roused c (.start c v e) where
  calls _ ho := by cases ho
  stopped _ _ := rfl
  jobs _ _ ho := by cases ho
  processed _ _ ho := by cases ho
  scanner ho := by cases ho
  writer ho := by cases ho
  poppers _ ho := by cases ho
  pushers _ ho := by cases ho

theorem parked_start {v : Vault} {e : Bool} (hw : 0 < c.workerCount) :
    Parked c (Parking.start c v e) where
  orderly := orderly_start
  closes := closes_start hw
  jobCapacity := rfl
  processedCapacity := rfl
  roused := roused_start

theorem Parked.step {a : Action} {v : Parking} (hr : 0 < c.resultQueueCapacity) (h : Parked c u)
    (hstep : u.step c x a = some v) : Parked c v := by
  cases a with
  | goes l chosen =>
    simp only [Parking.step] at hstep
    split at hstep
    · cases hstep
    · rename_i hactor
      obtain ⟨t, ht, hstep⟩ := Option.bind_eq_some_iff.mp hstep
      obtain ⟨parked, hwake, hstep⟩ := Option.bind_eq_some_iff.mp hstep
      cases hstep
      have hgoes : Goes c x u l t parked := by
        refine ⟨ht, h.orderly.young, fun thread hl => ?_, ⟨chosen, hwake⟩, h.roused⟩
        simpa [hl] using hactor
      have hm := step_move ht
      exact ⟨hm.orderly h.orderly, hm.closes h.orderly h.closes,
        hm.shutting.jobCapacity.trans h.jobCapacity,
        hm.shutting.processedCapacity.trans h.processedCapacity, hgoes.rouses⟩
  | parks thread =>
    simp only [Parking.step] at hstep
    split at hstep
    · rename_i hpark
      cases hstep
      refine ⟨h.orderly, h.closes, h.jobCapacity, h.processedCapacity,
        h.roused.parks h.orderly.sound ?_ hpark.1 hpark.2.2⟩
      rw [h.processedCapacity]
      exact hr
    · cases hstep
  | wakes thread =>
    simp only [Parking.step] at hstep
    split at hstep
    · cases hstep
      exact ⟨h.orderly, h.closes, h.jobCapacity, h.processedCapacity, h.roused.wakes thread⟩
    · cases hstep

theorem runs_parked {v : Vault} {e : Bool} {actions : List Action} (hw : 0 < c.workerCount)
    (hr : 0 < c.resultQueueCapacity)
    (h : runs (Parking.step c x) (.start c v e) actions = some u) : Parked c u :=
  runs_invariant (P := Parked c) (Q := fun _ => True) (fun _ _ _ _ hs hstep => hs.step hr hstep)
    (parked_start hw) (fun _ _ => trivial) h

theorem condition_worker_over (hk : s.condition (.worker i) = some k) :
    (s.workers i).pc.over = false ∧ (s.workers i).pc.throwing = false := by
  unfold State.condition at hk
  dsimp only at hk
  split at hk
  · rename_i hp
    rw [hp]
    exact ⟨rfl, rfl⟩
  · rename_i hp
    rw [hp]
    exact ⟨rfl, rfl⟩
  · cases hk

theorem throwing_over {pc : WorkerPc} (h : pc.throwing = true) : pc.over = false := by
  cases pc with
  | waiting => cases h
  | done => cases h
  | _ => rfl

/-- Every thread at work is parked, and there is one. -/
structure Strands (c : Config) (u : Parking) : Prop where
  parked : Parked c u
  some : ∃ thread ∈ .main :: crew c, u.pipeline.unfinished thread = true
  all : ∀ thread ∈ .main :: crew c, u.pipeline.unfinished thread = true → u.parked thread = true

namespace Strands

variable (h : Strands c u)
include h

theorem scanner (hover : u.pipeline.scanner.over = false) : u.parked .scanner = true :=
  h.all _ (by simp [crew]) (by simp [State.unfinished, hover])

theorem writer (hover : u.pipeline.writer.over = false) : u.parked .writer = true :=
  h.all _ (by simp [crew]) (by simp [State.unfinished, hover])

theorem worker (hi : i < c.workerCount) (hover : (u.pipeline.workers i).pc.over = false) :
    u.parked (.worker i) = true :=
  h.all _ (by simp [crew, hi]) (by simp [State.unfinished, hover])

theorem running : u.pipeline.stopRequested = false := by
  obtain ⟨thread, hmem, hunfinished⟩ := h.some
  by_contra hstop
  have hfree := h.parked.roused.stopped (by simpa using hstop) thread
  rw [h.all thread hmem hunfinished] at hfree
  cases hfree

theorem quiet : ¬u.pipeline.throws c := by
  rintro ⟨i, hi, hthrow⟩
  obtain ⟨-, k, hk⟩ := h.parked.roused.calls _ (h.worker hi (throwing_over hthrow))
  rw [(condition_worker_over hk).2] at hthrow
  cases hthrow

theorem asleep (k : Condition) : u.awake c k = 0 := by
  refine pooled_eq_zero.mpr fun i hi => ?_
  by_cases hk : u.pipeline.condition (.worker i) = Option.some k
  · simp [h.worker hi (condition_worker_over hk).1]
  · rw [beq_eq_false_iff_ne.mpr hk]
    rfl

/-- The calling thread waits for the others, and has created them all. -/
theorem started : Started c (c.workerCount + 2) u.pipeline.writer u.pipeline.workers ∧
    u.pipeline.scanner ≠ .waiting := by
  obtain ⟨thread, hmem, hunfinished⟩ := h.some
  have hmain : u.pipeline.main.launching = false := by
    by_contra hlaunching
    obtain ⟨-, k, hk⟩ := h.parked.roused.calls .main
      (h.all .main (by simp) (by simpa [State.unfinished] using hlaunching))
    cases hk
  by_cases hjoined : 5 ≤ u.pipeline.main.joined
  · have halone := h.parked.orderly.standing.alone hjoined
    exfalso
    rcases List.mem_cons.mp hmem with rfl | hmem
    · simp [State.unfinished, hmain] at hunfinished
    · rcases mem_crew.mp hmem with rfl | rfl | ⟨i, hi, rfl⟩
      · simp [State.unfinished, halone.scanner] at hunfinished
      · simp [State.unfinished, halone.writer] at hunfinished
      · simp [State.unfinished, halone.workers i hi] at hunfinished
  · have hwaits : u.pipeline.main.waits = true := by
      cases hm : u.pipeline.main <;>
        simp_all [MainPc.launching, MainPc.joined, MainPc.waits]
    refine (h.parked.closes.main.manned hwaits).resolve_left ?_
    simp [h.running]

/-- Jobs are to come as long as a worker waits for one, and then the scanner is at work. -/
theorem pops (hj : 0 < c.jobQueueCapacity) (hi : i < c.workerCount) :
    u.pipeline.condition (.worker i) ≠ Option.some .jobsNotEmpty := by
  intro hk
  have hparked := h.worker hi (condition_worker_over hk).1
  have hopen : u.pipeline.jobs.closed ≠ true := fun hclosed =>
    (h.parked.roused.jobs hclosed _ hparked).2 hk
  have hcount := (h.parked.roused.poppers i hparked hk).resolve_left h.quiet
  rw [h.asleep] at hcount
  cases hover : u.pipeline.scanner.over with
  | false =>
    have hfull := h.parked.roused.scanner (h.scanner hover)
    rw [h.parked.jobCapacity] at hfull
    omega
  | true =>
    have hdone : u.pipeline.scanner = .done := by
      have hcreated := h.started.2
      cases hs : u.pipeline.scanner <;> simp_all [ScannerPc.over]
    rcases h.parked.closes.scanner.done hdone with hstop | hclosed
    · simp [h.running] at hstop
    · exact hopen hclosed

/-- Results are in the queue as long as a worker waits for room, and then the writer is at work. -/
theorem pushes (hi : i < c.workerCount) :
    u.pipeline.condition (.worker i) ≠ Option.some .processedNotFull := by
  intro hk
  have hparked := h.worker hi (condition_worker_over hk).1
  have hitems : u.pipeline.processed.items ≠ [] := by
    intro hempty
    have hpos := (h.parked.roused.pushers i hparked hk hempty).resolve_left h.quiet
    rw [h.asleep] at hpos
    cases hpos
  have hover : u.pipeline.writer.over = true := by
    by_contra hover
    exact hitems (h.parked.roused.writer (h.writer (by simpa using hover)))
  have hout : u.pipeline.writer.out = true := by
    have hcreated := h.started.1.writer (by omega)
    cases hw : u.pipeline.writer <;> simp_all [WriterPc.over, WriterPc.out]
  rcases h.parked.closes.writer.out hout with hstop | hclosed
  · simp [h.running] at hstop
  · exact (h.parked.roused.processed hclosed _ hparked).1 hk

theorem done (hj : 0 < c.jobQueueCapacity) (hi : i < c.workerCount) :
    (u.pipeline.workers i).pc = .done := by
  have hover : (u.pipeline.workers i).pc.over = true := by
    by_contra hover
    obtain ⟨-, k, hk⟩ := h.parked.roused.calls _ (h.worker hi (by simpa using hover))
    rcases condition_waiter hk with ⟨he, -⟩ | ⟨he, -⟩ | ⟨_, -, rfl | rfl⟩
    · cases he
    · cases he
    · exact h.pops hj hi hk
    · exact h.pushes hi hk
  have hcreated := h.started.1.workers i hi (by omega)
  cases hp : (u.pipeline.workers i).pc <;> simp_all [WorkerPc.over]

/-- The last worker has closed the results. -/
theorem closed (hj : 0 < c.jobQueueCapacity) : u.pipeline.processed.closed = true := by
  have hzero : u.pipeline.activeWorkers = 0 := by
    rw [h.parked.orderly.sound.active]
    refine pooled_eq_zero.mpr fun i hi => ?_
    rw [h.done hj hi]
    rfl
  refine (h.parked.closes.last hzero).resolve_right ?_
  rintro ⟨i, hi, hclosing⟩
  rw [h.done hj hi] at hclosing
  cases hclosing

theorem absurd (hj : 0 < c.jobQueueCapacity) (hw : 0 < c.workerCount) : False := by
  obtain ⟨thread, hmem, hunfinished⟩ := h.some
  have hparked := h.all thread hmem hunfinished
  obtain ⟨-, k, hk⟩ := h.parked.roused.calls thread hparked
  rcases condition_waiter hk with ⟨rfl, rfl⟩ | ⟨rfl, rfl⟩ | ⟨i, rfl, -⟩
  · rcases (h.parked.closes.workers 0).out (by rw [h.done hj hw]; rfl) with hstop | hclosed
    · simp [h.running] at hstop
    · exact (h.parked.roused.jobs hclosed _ hparked).1 hk
  · exact (h.parked.roused.processed (h.closed hj) _ hparked).2 hk
  · rcases mem_crew.mp (h.parked.roused.calls _ hparked).1 with he | he | ⟨j, hj', he⟩
    · cases he
    · cases he
    · cases he
      simp [State.unfinished, h.done hj hj', WorkerPc.over] at hunfinished

end Strands

/-- In no state that the pipeline comes to, every thread that is not finished is parked in a call
of a queue and not notified. -/
theorem pipeline_never_strands {v : Vault} {e : Bool} {actions : List Action}
    (hw : 0 < c.workerCount) (hj : 0 < c.jobQueueCapacity) (hr : 0 < c.resultQueueCapacity)
    (h : runs (Parking.step c x) (.start c v e) actions = some u) : ¬u.Stranded c :=
  fun hstranded => Strands.absurd ⟨runs_parked hw hr h, hstranded.1, hstranded.2⟩ hj hw

/-- The writer is parked, as the only worker has not handed over its first result. -/
def sampleActions : List Action :=
  (sampleStart ++ [Label.writer .next]).map (.goes · none) ++ [.parks .writer] ++
    (sampleAttempt ⟨3, 1, 1, 1, 1, 0o100644⟩ ⟨3, 1, 1, 1, 1, 0o100644⟩ 3).map (.goes · none)

theorem pipeline_never_strands_writer : ∃ u,
    runs (Parking.step sampleConfig sampleExternals) (.start sampleConfig sampleVault false)
      sampleActions = some u ∧
    u.parked .writer = true ∧ u.pipeline.unfinished .writer = true ∧ ¬u.Stranded sampleConfig := by
  have hrun : (runs (Parking.step sampleConfig sampleExternals)
      (.start sampleConfig sampleVault false) sampleActions).any
      (fun u => u.parked .writer && u.pipeline.unfinished .writer) = true := by decide +kernel
  obtain ⟨u, hu, hwriter⟩ := (Option.any_eq_true _ _).mp hrun
  rw [Bool.and_eq_true] at hwriter
  exact ⟨u, hu, hwriter.1, hwriter.2,
    pipeline_never_strands (by decide) (by decide) (by decide) hu⟩

end LocalVault.Snapshot
