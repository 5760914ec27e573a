import LocalVault.Proofs.Threads

namespace LocalVault.Snapshot
open Library Repository

variable {c : Config} {x : Externals} {s t : State} {f : Failure} {stage : Stage}

/-- An exception on its way through `shutdown` either comes after the first
error, or it is still to be recorded and no stop has caused it. -/
def Reported (s : State) (f : Failure) (stage : Stage) : Prop :=
  s.failed ∨ stage = .record ∧ f.primary = true

/-- A worker that has not counted itself out. -/
def WorkerPc.active : WorkerPc → Bool
  | .closing | .done => false
  | _ => true

def liveWorkers (c : Config) (workers : Nat → Worker) : Nat :=
  pooled c.workerCount (fun i => if (workers i).pc.active then 1 else 0)

/-- The order inside `shutdown` wins every race: whatever its stop causes comes
after the first error. -/
structure Sound (c : Config) (s : State) : Prop where
  first : s.firstError = s.handed.head?.map Failure.error
  primary : ∀ f, s.handed.head? = some f → f.primary = true
  stop : s.stopRequested = true → s.failed
  cancelled : s.progressCancelled = true → s.failed
  jobs : s.jobs.closed = true → s.failed ∨ s.scanner = .done
  unlimited : s.jobs.byteCapacity = none
  processed : s.processed.closed = true → s.failed ∨ s.activeWorkers = 0
  active : s.activeWorkers = liveWorkers c s.workers
  closing : ∀ i < c.workerCount, (s.workers i).pc = .closing → s.activeWorkers = 0
  scannerReports : ∀ f stage, s.scanner = .shutting f stage → Reported s f stage
  scannerRefused : ∀ job, s.scanner = .refused job → s.failed
  workerReports : ∀ i f stage, (s.workers i).pc = .shutting f stage → Reported s f stage
  workerRefused : ∀ i p, (s.workers i).pc = .refused p false → s.failed
  writerReports : ∀ f stage, s.writer = .shutting f stage → Reported s f stage
  progressReports : ∀ f stage, s.progress = .shutting f stage → Reported s f stage
  cancellerReports : ∀ f stage, s.canceller = .shutting f stage → Reported s f stage
  mainReports : ∀ f stage, s.main = .shutting f stage ∨ s.main = .cancelling f stage →
    Reported s f stage

theorem sound_start {v : Vault} {e : Bool} : Sound c (State.start c v e) := by
  refine ⟨rfl, ?_, ?_, ?_, ?_, rfl, ?_, ?_, ?_, ?_, ?_, ?_, ?_, ?_, ?_, ?_, ?_⟩
  · intro f hf
    cases hf
  · intro h
    cases h
  · intro h
    cases h
  · intro h
    cases h
  · intro h
    cases h
  · simp [State.start, liveWorkers, pooled, WorkerPc.active]
  · intro i _ h
    cases h
  · intro f stage h
    cases h
  · intro job h
    cases h
  · intro i f stage h
    cases h
  · intro i p h
    cases h
  · intro f stage h
    cases h
  · intro f stage h
    cases h
  · intro f stage h
    cases h
  · rintro f stage (h | h) <;> cases h

theorem Reported.shut {f' : Failure} {stage' : Stage} (h : Reported s f' stage') :
    Reported (s.shut f stage) f' stage' := by
  rcases h with h | h
  · exact Or.inl (shut_failed h)
  · exact Or.inr h

/-- After a step of `shutdown` there is a first error. -/
theorem Reported.after (h : Reported s f stage) : (s.shut f stage).failed := by
  rcases h with h | ⟨rfl, _⟩
  · exact shut_failed h
  · exact shut_failed_record

/-- Beyond its first step `shutdown` has a first error behind it. -/
theorem Reported.late (h : Reported s f stage) (hstage : stage ≠ .record) : s.failed := by
  rcases h with h | ⟨he, _⟩
  · exact h
  · exact absurd he hstage

/-- A step of `shutdown`, whoever makes it. -/
theorem Sound.shut (h : Sound c s) (hr : Reported s f stage) : Sound c (s.shut f stage) := by
  have hu : Untouched s (s.shut f stage) := shut_untouched
  have hfailed := hr.after
  refine ⟨?_, ?_, fun _ => hfailed, fun _ => hfailed, fun _ => Or.inl hfailed, ?_,
    fun _ => Or.inl hfailed, ?_, ?_, ?_, fun _ _ => hfailed, ?_, fun _ _ _ => hfailed, ?_, ?_, ?_, ?_⟩
  · cases stage with
    | record =>
      change s.firstError.or (some f.error) = (s.handed ++ [f]).head?.map Failure.error
      rw [h.first]
      cases s.handed <;> rfl
    | _ => exact h.first
  · cases stage with
    | record =>
      intro g hg
      change (s.handed ++ [f]).head? = some g at hg
      cases hh : s.handed with
      | nil =>
        simp only [hh, List.nil_append, List.head?_cons, Option.some.injEq] at hg
        subst hg
        rcases hr with hr | hr
        · simp [State.failed, h.first, hh] at hr
        · exact hr.2
      | cons g' gs =>
        simp only [hh, List.cons_append, List.head?_cons, Option.some.injEq] at hg
        subst hg
        exact h.primary g' (by rw [hh]; rfl)
    | _ => exact h.primary
  · cases stage <;> exact h.unlimited
  · rw [hu.activeWorkers, hu.workers]
    exact h.active
  · rw [hu.activeWorkers, hu.workers]
    exact h.closing
  · rw [hu.scanner]
    exact fun f' stage' he => (h.scannerReports f' stage' he).shut
  · rw [hu.workers]
    exact fun i f' stage' he => (h.workerReports i f' stage' he).shut
  · rw [hu.writer]
    exact fun f' stage' he => (h.writerReports f' stage' he).shut
  · rw [hu.progress]
    exact fun f' stage' he => (h.progressReports f' stage' he).shut
  · rw [hu.canceller]
    exact fun f' stage' he => (h.cancellerReports f' stage' he).shut
  · rw [hu.main]
    exact fun f' stage' he => (h.mainReports f' stage' he).shut

/-- What a failing step may hand to `shutdown`. -/
theorem Sound.reports (h : Sound c s) (hf : f.primary = true ∨ s.stopRequested = true) :
    Reported s f .record := by
  rcases hf with hf | hf
  · exact Or.inr ⟨rfl, hf⟩
  · exact Or.inl (h.stop hf)

theorem afterStage_cases {pc : Type} (shutting : Failure → Stage → pc) (finished : pc) (f : Failure)
    (stage : Stage) :
    afterStage shutting finished f stage = finished ∨
      ∃ stage', afterStage shutting finished f stage = shutting f stage' := by
  cases stage with
  | cancelProgress => exact Or.inl rfl
  | record => exact Or.inr ⟨_, rfl⟩
  | requestStop => exact Or.inr ⟨_, rfl⟩
  | closeJobs => exact Or.inr ⟨_, rfl⟩
  | closeProcessed => exact Or.inr ⟨_, rfl⟩

/-- The scanner moves on. -/
theorem Sound.scannerTo (h : Sound c s) {pc : ScannerPc}
    (hdone : s.scanner = .done → s.failed ∨ pc = .done)
    (hrep : ∀ f stage, pc = .shutting f stage → Reported s f stage)
    (href : ∀ job, pc = .refused job → s.failed) : Sound c { s with scanner := pc } := by
  refine ⟨h.first, h.primary, h.stop, h.cancelled, ?_, h.unlimited, h.processed, h.active, h.closing,
    hrep, href, h.workerReports, h.workerRefused, h.writerReports, h.progressReports,
    h.cancellerReports, h.mainReports⟩
  intro hc
  rcases h.jobs hc with hf | hd
  · exact Or.inl hf
  · exact hdone hd

theorem ScannerMove.errors (hm : ScannerMove c s t) (h : Sound c s) : Sound c t := by
  cases hm with
  | starts hp =>
    exact h.scannerTo (by simp [hp]) (fun _ _ he => by cases he) (fun _ he => by cases he)
  | emits job rest hp =>
    exact h.scannerTo (by simp [hp]) (fun _ _ he => by cases he) (fun _ he => by cases he)
  | finishes hp he =>
    exact h.scannerTo (by simp [hp]) (fun _ _ he => by cases he) (fun _ he => by cases he)
  | fails f hf hp =>
    refine h.scannerTo ?_ ?_ (fun _ he => by cases he)
    · rcases hp with hp | ⟨rest, hp⟩ <;> simp [hp]
    · intro f' stage' he
      cases he
      exact h.reports hf
  | pushes job rest jobs hp hq =>
    obtain ⟨_, hopen, _, rfl⟩ := Queue.push_accepted hq
    have h' : Sound c { s with jobs := { s.jobs with items := s.jobs.items ++ [(job, 0)] } } :=
      ⟨h.first, h.primary, h.stop, h.cancelled, h.jobs, h.unlimited, h.processed, h.active, h.closing,
        h.scannerReports, h.scannerRefused, h.workerReports, h.workerRefused, h.writerReports,
        h.progressReports, h.cancellerReports, h.mainReports⟩
    exact h'.scannerTo (by simp [hp]) (fun _ _ he => by cases he) (fun _ he => by cases he)
  | refused job rest hp hq =>
    have hfailed : s.failed := by
      rcases hq with hq | hq
      · rcases Queue.push_refused hq with hstop | hclosed
        · exact h.stop hstop
        · rcases h.jobs hclosed with hf | hd
          · exact hf
          · simp [hp] at hd
      · have hlarge := (Queue.push_oversized hq).2
        simp [Queue.tooLarge, h.unlimited] at hlarge
    exact h.scannerTo (by simp [hp]) (fun _ _ he => by cases he) (fun _ _ => hfailed)
  | rejects job e hp =>
    have hfailed : s.failed := h.scannerRefused job hp
    exact h.scannerTo (by simp [hp]) (fun _ _ _ => Or.inl hfailed) (fun _ he => by cases he)
  | closes hp =>
    refine ⟨h.first, h.primary, h.stop, h.cancelled, fun _ => Or.inr rfl, h.unlimited, h.processed,
      h.active, h.closing, (fun _ _ he => by cases he), (fun _ he => by cases he), h.workerReports,
      h.workerRefused, h.writerReports, h.progressReports, h.cancellerReports, h.mainReports⟩
  | shuts f stage hp =>
    have hr := h.scannerReports f stage hp
    refine (h.shut hr).scannerTo (fun _ => Or.inl hr.after) (fun _ _ _ => Or.inl hr.after) ?_
    exact fun _ _ => hr.after

theorem liveWorkers_same {workers workers' : Nat → Worker} {i : Nat} (hi : i < c.workerCount)
    (hothers : ∀ j, j ≠ i → workers' j = workers j)
    (hact : (workers' i).pc.active = (workers i).pc.active) :
    liveWorkers c workers' = liveWorkers c workers := by
  apply pooled_same hi
  · intro j hj
    rw [hothers j hj]
  · rw [hact]

/-- A worker less. -/
theorem liveWorkers_out {workers workers' : Nat → Worker} {i : Nat} (hi : i < c.workerCount)
    (hothers : ∀ j, j ≠ i → workers' j = workers j) (hin : (workers i).pc.active = true)
    (hout : (workers' i).pc.active = false) :
    liveWorkers c workers' + 1 = liveWorkers c workers := by
  have hchange := pooled_change (n := c.workerCount) (i := i)
    (f := fun j => if (workers j).pc.active then 1 else 0)
    (g := fun j => if (workers' j).pc.active then 1 else 0) hi (fun j hj => by rw [hothers j hj])
  rw [hin, hout] at hchange
  exact hchange

/-- A worker moves on without being counted out. -/
theorem Sound.workerTo (h : Sound c s) {i : Nat} (hi : i < c.workerCount) {w : Worker}
    (hact : w.pc.active = (s.workers i).pc.active) (hclosing : w.pc = .closing → s.activeWorkers = 0)
    (hrep : ∀ f stage, w.pc = .shutting f stage → Reported s f stage)
    (href : ∀ p, w.pc = .refused p false → s.failed) : Sound c (s.setWorker i w) := by
  have hself : (s.setWorker i w).workers i = w := setWorker_same
  have hothers : ∀ j, j ≠ i → (s.setWorker i w).workers j = s.workers j := fun j => setWorker_other
  refine ⟨h.first, h.primary, h.stop, h.cancelled, h.jobs, h.unlimited, h.processed, ?_, ?_,
    h.scannerReports, h.scannerRefused, ?_, ?_, h.writerReports, h.progressReports,
    h.cancellerReports, h.mainReports⟩
  · rw [liveWorkers_same hi hothers (by rw [hself]; exact hact)]
    exact h.active
  · intro j hj hc
    by_cases hji : j = i
    · subst hji
      rw [hself] at hc
      exact hclosing hc
    · rw [hothers j hji] at hc
      exact h.closing j hj hc
  · intro j f stage hs
    by_cases hji : j = i
    · subst hji
      rw [hself] at hs
      exact hrep f stage hs
    · rw [hothers j hji] at hs
      exact h.workerReports j f stage hs
  · intro j p hs
    by_cases hji : j = i
    · subst hji
      rw [hself] at hs
      exact href p hs
    · rw [hothers j hji] at hs
      exact h.workerRefused j p hs

/-- The vault does not matter for the errors, nor do the items of the queues. -/
theorem Sound.withVault (h : Sound c s) (vault : Vault) : Sound c { s with vault } :=
  ⟨h.first, h.primary, h.stop, h.cancelled, h.jobs, h.unlimited, h.processed, h.active, h.closing,
    h.scannerReports, h.scannerRefused, h.workerReports, h.workerRefused, h.writerReports,
    h.progressReports, h.cancellerReports, h.mainReports⟩

theorem Sound.withJobs (h : Sound c s) (items : List (FileJob × Nat)) :
    Sound c { s with jobs := { s.jobs with items } } :=
  ⟨h.first, h.primary, h.stop, h.cancelled, h.jobs, h.unlimited, h.processed, h.active, h.closing,
    h.scannerReports, h.scannerRefused, h.workerReports, h.workerRefused, h.writerReports,
    h.progressReports, h.cancellerReports, h.mainReports⟩

theorem Sound.withProcessed (h : Sound c s) (items : List (ProcessedEntry × Nat)) :
    Sound c { s with processed := { s.processed with items } } :=
  ⟨h.first, h.primary, h.stop, h.cancelled, h.jobs, h.unlimited, h.processed, h.active, h.closing,
    h.scannerReports, h.scannerRefused, h.workerReports, h.workerRefused, h.writerReports,
    h.progressReports, h.cancellerReports, h.mainReports⟩

/-- Where a worker stands that is neither counted out nor turned away. -/
def WorkerPc.busy : WorkerPc → Bool
  | .closing | .done | .refused _ false => false
  | _ => true

theorem busy_active {pc : WorkerPc} (h : pc.busy = true) : pc.active = true := by
  cases pc <;> first | rfl | cases h

/-- A worker moves on inside of its loop. -/
theorem Sound.workerBusy (h : Sound c s) {i : Nat} (hi : i < c.workerCount) {w : Worker}
    (hold : (s.workers i).pc.active = true) (hbusy : w.pc.busy = true)
    (hrep : ∀ f stage, w.pc = .shutting f stage → Reported s f stage) :
    Sound c (s.setWorker i w) := by
  refine h.workerTo hi ?_ ?_ hrep ?_
  · rw [hold, busy_active hbusy]
  · intro he
    rw [he] at hbusy
    cases hbusy
  · intro p he
    rw [he] at hbusy
    cases hbusy

theorem caught_errors (h : Sound c s) (task : Task) (callback : Bool)
    (spool : List ChunkReferenceRecord) (hf : f.primary = true ∨ s.stopRequested = true) :
    (caught c task callback spool f).busy = true ∧
      ∀ f' stage', caught c task callback spool f = .shutting f' stage' → Reported s f' stage' := by
  unfold caught
  split
  · split
    · refine ⟨rfl, fun f' stage' he => ?_⟩
      cases he
      exact h.reports hf
    · split
      · exact ⟨rfl, fun f' stage' he => by cases he⟩
      · exact ⟨rfl, fun f' stage' he => by cases he⟩
  · refine ⟨rfl, fun f' stage' he => ?_⟩
    cases he
    exact h.reports hf

theorem appended_errors (h : Sound c s) (r : Reading) (raw : Bytes) (object : StoredObject) :
    (appended c r raw object).busy = true ∧
      ∀ f' stage', appended c r raw object = .shutting f' stage' → Reported s f' stage' := by
  unfold appended
  split
  · exact caught_errors h _ _ _ (Or.inl rfl)
  · split
    · exact caught_errors h _ _ _ (Or.inl rfl)
    · split
      · exact caught_errors h _ _ _ (Or.inl rfl)
      · split
        · exact ⟨rfl, fun f' stage' he => by cases he⟩
        · exact ⟨rfl, fun f' stage' he => by cases he⟩

theorem Works.errors {pc : WorkerPc} {known : Known} {old : WorkerPc} (h : Sound c s)
    (hw : Works c x s.vault.objects s.stopRequested known old pc) :
    old.active = true ∧ pc.busy = true ∧
      ∀ f stage, pc = .shutting f stage → Reported s f stage := by
  cases hw with
  | finds r raw object hs hf => exact ⟨rfl, appended_errors h _ _ _⟩
  | fails _ t callback spool f hpc hf =>
    refine ⟨?_, caught_errors h _ _ _ hf⟩
    cases old <;> first | rfl | cases hpc
  | dies _ e hpc =>
    refine ⟨?_, rfl, fun f stage he => ?_⟩
    · cases old <;> first | rfl | cases hpc
    · cases he
      exact Or.inr ⟨rfl, rfl⟩
  | _ => exact ⟨rfl, rfl, fun f stage he => by cases he⟩

theorem accept_errors (job : FileJob) : (accept job).busy = true ∧ (accept job).shuts = false := by
  cases job with
  | warning w => exact ⟨rfl, rfl⟩
  | entry e =>
    unfold accept
    simp only
    split <;> exact ⟨rfl, rfl⟩

theorem shuts_of_shutting {pc : WorkerPc} (h : pc = .shutting f stage) : pc.shuts = true := by
  rw [h]
  rfl

theorem not_shutting {pc : WorkerPc} (h : pc.shuts = false) :
    ∀ f stage, pc = .shutting f stage → Reported s f stage := by
  intro f stage he
  rw [shuts_of_shutting he] at h
  cases h

theorem confirmed_errors (h : Sound c s) (r : Reading) (after : PlatformFileMetadata) :
    (confirmed c x r after).busy = true ∧
      ∀ f' stage', confirmed c x r after = .shutting f' stage' → Reported s f' stage' := by
  unfold confirmed
  split
  · exact caught_errors h _ _ _ (Or.inl rfl)
  · exact ⟨rfl, fun f' stage' he => by cases he⟩

/-- A worker counts itself out, the last one before it closes the queue. -/
theorem Sound.count (h : Sound c s) {i : Nat} (hi : i < c.workerCount)
    (hp : (s.workers i).pc = .leaving) :
    Sound c ({ s with activeWorkers := s.activeWorkers - 1 }.moveWorker i
      (if s.activeWorkers = 1 then .closing else .done)) := by
  have hlive := h.active
  have hpos : 1 ≤ s.activeWorkers := by
    rw [hlive]
    refine Nat.le_trans ?_ (le_pooled hi)
    simp [hp, WorkerPc.active]
  generalize hpc : (if s.activeWorkers = 1 then WorkerPc.closing else .done) = pc
  have hout : pc.active = false ∧ pc.shuts = false ∧ ∀ p, pc ≠ .refused p false := by
    subst hpc
    split <;> exact ⟨rfl, rfl, fun p he => by cases he⟩
  have hself : (State.moveWorker { s with activeWorkers := s.activeWorkers - 1 } i pc).workers i =
      (s.workers i).goto pc := setWorker_same
  have hothers : ∀ j, j ≠ i →
      (State.moveWorker { s with activeWorkers := s.activeWorkers - 1 } i pc).workers j =
        s.workers j := fun j => setWorker_other
  have hactive : s.activeWorkers - 1 = liveWorkers c
      (State.moveWorker { s with activeWorkers := s.activeWorkers - 1 } i pc).workers := by
    have hless := liveWorkers_out hi hothers (by rw [hp]; rfl) (by rw [hself]; exact hout.1)
    omega
  refine ⟨h.first, h.primary, h.stop, h.cancelled, h.jobs, h.unlimited, ?_, hactive, ?_,
    h.scannerReports, h.scannerRefused, ?_, ?_, h.writerReports, h.progressReports,
    h.cancellerReports, h.mainReports⟩
  · intro hc
    rcases h.processed hc with hf | hz
    · exact Or.inl hf
    · exact absurd hz (by omega)
  · intro j hj hc
    by_cases hji : j = i
    · subst hji
      rw [hself, goto_pc, ← hpc] at hc
      split at hc
      · change s.activeWorkers - 1 = 0
        omega
      · cases hc
    · rw [hothers j hji] at hc
      exact absurd (h.closing j hj hc) (by omega)
  · intro j f stage hs
    by_cases hji : j = i
    · subst hji
      rw [hself, goto_pc] at hs
      exact not_shutting hout.2.1 f stage hs
    · rw [hothers j hji] at hs
      exact h.workerReports j f stage hs
  · intro j p hs
    by_cases hji : j = i
    · subst hji
      rw [hself, goto_pc] at hs
      exact absurd hs (hout.2.2 p)
    · rw [hothers j hji] at hs
      exact h.workerRefused j p hs

theorem WorkerMove.errors {i : Nat} (hm : WorkerMove c x s i t) (hi : i < c.workerCount)
    (h : Sound c s) : Sound c t := by
  cases hm with
  | works pc hw =>
    obtain ⟨hold, hbusy, hrep⟩ := hw.errors h
    exact h.workerBusy hi hold hbusy hrep
  | pops job jobs hp hq =>
    obtain ⟨_, _, _, hjobs⟩ := Queue.pop_item hq
    have hrest := h.withJobs jobs.items
    rw [← hjobs] at hrest
    obtain ⟨hbusy, hshuts⟩ := accept_errors job
    exact hrest.workerBusy hi (by simp [hp, WorkerPc.active]) hbusy (not_shutting hshuts)
  | confirms r after hp =>
    obtain ⟨hbusy, hrep⟩ := confirmed_errors (x := x) h r after
    exact h.workerBusy hi (by simp [hp, WorkerPc.active]) hbusy hrep
  | finishes p hp =>
    exact h.workerBusy hi (by simp [hp, WorkerPc.active]) rfl (not_shutting rfl)
  | ended hp hq =>
    exact h.workerBusy hi (by simp [hp, WorkerPc.active]) rfl (not_shutting rfl)
  | stores r raw compressed object known objects hp hs =>
    have hv := h.withVault { s.vault with objects }
    obtain ⟨hbusy, hrep⟩ := appended_errors hv r raw object
    exact hv.workerBusy hi (by simp [hp, WorkerPc.active]) hbusy hrep
  | leaves r raw compressed known e hp hs =>
    have hv := h.withVault { s.vault with
      objects := s.vault.objects.publish (derivedPath (hashRaw x raw)) compressed }
    obtain ⟨hbusy, hrep⟩ := caught_errors (f := ⟨e, true⟩) hv r.task true r.spool
      (Or.inl rfl)
    exact hv.workerBusy hi (by simp [hp, WorkerPc.active]) hbusy hrep
  | pushes p processed hp hq =>
    obtain ⟨_, _, _, rfl⟩ := Queue.push_accepted hq
    exact (h.withProcessed _).workerBusy hi (by simp [hp, WorkerPc.active]) rfl (not_shutting rfl)
  | refused p hp hq =>
    have hfailed : s.failed := by
      rcases Queue.push_refused hq with hstop | hclosed
      · exact h.stop hstop
      · rcases h.processed hclosed with hf | hz
        · exact hf
        · have hone : 1 ≤ s.activeWorkers := by
            rw [h.active]
            refine Nat.le_trans ?_ (le_pooled hi)
            simp [hp, WorkerPc.active]
          omega
    exact h.workerTo hi (by simp [hp, WorkerPc.active]) (fun he => by cases he) (not_shutting rfl)
      (fun _ _ => hfailed)
  | oversized p hp hq =>
    exact h.workerBusy hi (by simp [hp, WorkerPc.active]) rfl (not_shutting rfl)
  | rejects p large e hp =>
    refine h.workerBusy hi (by simp [hp, WorkerPc.active]) rfl ?_
    intro f stage he
    cases he
    cases large with
    | false => exact Or.inl (h.workerRefused i p hp)
    | true =>
      cases hstop : s.stopRequested with
      | true => exact Or.inl (h.stop hstop)
      | false => exact Or.inr ⟨rfl, by simp⟩
  | shuts f stage hp =>
    have hr := h.workerReports i f stage hp
    refine (h.shut hr).workerBusy hi ?_ ?_ (fun _ _ _ => Or.inl hr.after)
    · rw [congrFun shut_untouched.workers i, hp]
      rfl
    · cases stage <;> rfl
  | counts hp => exact h.count hi hp
  | closes hp =>
    have hzero := h.closing i hi hp
    have hclosed : Sound c { s with processed := s.processed.close } :=
      ⟨h.first, h.primary, h.stop, h.cancelled, h.jobs, h.unlimited, fun _ => Or.inr hzero, h.active,
        h.closing, h.scannerReports, h.scannerRefused, h.workerReports, h.workerRefused,
        h.writerReports, h.progressReports, h.cancellerReports, h.mainReports⟩
    exact hclosed.workerTo hi (by simp [hp, WorkerPc.active]) (fun he => by cases he) (not_shutting rfl)
      (fun _ he => by cases he)

/-- The writer moves on. -/
theorem Sound.writerTo (h : Sound c s) {pc : WriterPc} {vault : Vault} {batch : Option Batch}
    {totals : SnapshotTotals} {skippedEntries : List SkippedEntry} {handled : List ProcessedEntry}
    (hrep : ∀ f stage, pc = .shutting f stage → Reported s f stage) :
    Sound c { s with vault, batch, totals, skippedEntries, handled, writer := pc } :=
  ⟨h.first, h.primary, h.stop, h.cancelled, h.jobs, h.unlimited, h.processed, h.active, h.closing,
    h.scannerReports, h.scannerRefused, h.workerReports, h.workerRefused, hrep, h.progressReports,
    h.cancellerReports, h.mainReports⟩

theorem WriterMove.errors (hm : WriterMove c s t) (h : Sound c s) : Sound c t := by
  have hquiet : ∀ {pc : WriterPc}, pc = .popping ∨ pc = .committing false →
      ∀ f stage, pc = .shutting f stage → Reported s f stage := by
    rintro pc (rfl | rfl) f stage he <;> cases he
  cases hm with
  | starts hp => exact h.writerTo (fun _ _ he => by cases he)
  | fails f totals hf hp =>
    refine h.writerTo ?_
    intro f' stage' he
    cases he
    exact h.reports hf
  | pops p processed hp hq =>
    obtain ⟨_, _, _, hrest⟩ := Queue.pop_item hq
    rw [hrest]
    exact (h.withProcessed processed.items).writerTo (fun _ _ he => by cases he)
  | ended hp hq => exact h.writerTo (fun _ _ he => by cases he)
  | warns p w b b' pc hp hb hv hdb hr hpc => exact h.writerTo (hquiet hpc)
  | inserts p e b b' id pc hp hb hv ht hdb hr hpc => exact h.writerTo (hquiet hpc)
  | begins p e b id db references hp hb hv ht hdb hrefs hmax =>
    exact h.writerTo (fun _ _ he => by cases he)
  | refers p id ref rest b db totals now hp hb hdb ht => exact h.writerTo (fun _ _ he => by cases he)
  | hashes p id b b' pc hp hb hdb hr hpc => exact h.writerTo (hquiet hpc)
  | skips last b hp hb hr => exact h.writerTo (by cases last <;> exact fun _ _ he => by cases he)
  | commits last b hp hb hr hs => exact h.writerTo (by cases last <;> exact fun _ _ he => by cases he)
  | breaks b e hb hr last hp =>
    refine h.writerTo ?_
    intro f' stage' he
    cases he
    exact Or.inr ⟨rfl, rfl⟩
  | abandons hp hs => exact h.writerTo (fun _ _ he => by cases he)
  | concludes hp hs => exact h.writerTo (fun _ _ he => by cases he)
  | shuts f stage hp =>
    have hr := h.writerReports f stage hp
    exact (h.shut hr).writerTo (fun _ _ _ => Or.inl hr.after)

/-- The remaining threads move on. -/
theorem Sound.otherTo (h : Sound c s) (progress : ProgressPc) (canceller : CancellerPc)
    (externalStop : Bool)
    (hprogress : ∀ f stage, progress = .shutting f stage → Reported s f stage)
    (hcanceller : ∀ f stage, canceller = .shutting f stage → Reported s f stage) :
    Sound c { s with progress, canceller, externalStop } :=
  ⟨h.first, h.primary, h.stop, h.cancelled, h.jobs, h.unlimited, h.processed, h.active, h.closing,
    h.scannerReports, h.scannerRefused, h.workerReports, h.workerRefused, h.writerReports, hprogress,
    hcanceller, h.mainReports⟩

theorem OtherMove.errors (hm : OtherMove c s t) (h : Sound c s) : Sound c t := by
  cases hm with
  | progressFails e hp =>
    refine h.otherTo _ _ _ ?_ h.cancellerReports
    intro f stage he
    cases he
    exact Or.inr ⟨rfl, rfl⟩
  | progressEnds hp => exact h.otherTo _ _ _ (fun _ _ he => by cases he) h.cancellerReports
  | progressShuts f stage hp =>
    have hr := h.progressReports f stage hp
    exact (h.shut hr).otherTo _ _ _ (fun _ _ _ => Or.inl hr.after) (h.shut hr).cancellerReports
  | cancellerShuts f stage hp =>
    have hr := h.cancellerReports f stage hp
    exact (h.shut hr).otherTo _ _ _ (h.shut hr).progressReports (fun _ _ _ => Or.inl hr.after)
  | requests he hr =>
    refine h.otherTo _ _ _ h.progressReports ?_
    intro f stage he
    cases he
    exact Or.inr ⟨rfl, rfl⟩
  | notes he hr => exact h.otherTo _ _ _ h.progressReports h.cancellerReports

/-- The calling thread moves on. -/
theorem Sound.mainTo (h : Sound c s) {pc : MainPc} {vault : Vault} {registered progressFinished : Bool}
    {totals : SnapshotTotals}
    (hrep : ∀ f stage, pc = .shutting f stage ∨ pc = .cancelling f stage → Reported s f stage) :
    Sound c { s with vault, registered, progressFinished, totals, main := pc } :=
  ⟨h.first, h.primary, h.stop, h.cancelled, h.jobs, h.unlimited, h.processed, h.active, h.closing,
    h.scannerReports, h.scannerRefused, h.workerReports, h.workerRefused, h.writerReports,
    h.progressReports, h.cancellerReports, hrep⟩

theorem Creates.errors {n : Nat} (hc : Creates c s n t) (hu : Uncreated n s) (h : Sound c s) :
    Sound c t := by
  cases hc with
  | progress =>
    have h' := h.otherTo .running s.canceller s.externalStop (fun _ _ he => by cases he)
      h.cancellerReports
    exact h'.mainTo (by rintro f stage (he | he) <;> cases he)
  | writer =>
    have h' : Sound c { s with writer := .starting } := h.writerTo (fun _ _ he => by cases he)
    exact h'.mainTo (by rintro f stage (he | he) <;> cases he)
  | worker i hi =>
    have h' : Sound c { s with main := .creating (i + 3) } :=
      h.mainTo (by rintro f stage (he | he) <;> cases he)
    refine h'.workerBusy hi ?_ rfl (not_shutting rfl)
    change (s.workers i).pc.active = true
    rw [hu.workers i (by omega)]
    rfl
  | scanner n hn =>
    have h' : Sound c { s with scanner := .starting } :=
      h.scannerTo (by simp [hu.scanner]) (fun _ _ he => by cases he) (fun _ he => by cases he)
    exact h'.mainTo (by rintro f stage (he | he) <;> cases he)

theorem MainMove.errors (hm : MainMove c s t) (hy : Young s) (h : Sound c s) : Sound c t := by
  cases hm with
  | advances pc ha =>
    refine h.mainTo ?_
    generalize s.main = m at ha
    rintro f stage (rfl | rfl)
    · cases ha
      exact Or.inr ⟨rfl, rfl⟩
    · cases ha
      exact Or.inr ⟨rfl, rfl⟩
  | registers hp he => exact h.mainTo (by rintro f stage (he | he) <;> cases he)
  | cancels f stage hp =>
    have hr := h.mainReports f stage (Or.inr hp)
    exact (h.shut hr).mainTo (fun _ _ _ => Or.inl hr.after)
  | creates created hp =>
    exact (create_creates created).errors (hy created (by rw [hp]; rfl)) h
  | shuts f stage hp =>
    have hr := h.mainReports f stage (Or.inl hp)
    exact (h.shut hr).mainTo (fun _ _ _ => Or.inl hr.after)
  | joinsWriter hp ho => exact h.mainTo (by rintro f stage (he | he) <;> cases he)
  | unregisters hp ho => exact h.mainTo (by rintro f stage (he | he) <;> cases he)
  | times now hp => exact h.mainTo (by rintro f stage (he | he) <;> cases he)
  | publishes now db hp hdb => exact h.mainTo (by rintro f stage (he | he) <;> cases he)

theorem Move.errors (hm : Move c x s t) (hy : Young s) (h : Sound c s) : Sound c t := by
  cases hm with
  | scanner hm => exact hm.errors h
  | worker i hi hm => exact hm.errors hi h
  | writer hm => exact hm.errors h
  | main hm => exact hm.errors hy h
  | other hm => exact hm.errors h

end LocalVault.Snapshot
