import LocalVault.Proofs.Writing

namespace LocalVault.Snapshot
open Library Repository

variable {c : Config} {x : Externals} {s t : State} {f : Failure} {stage : Stage} {v : Vault}
  {objects objects' : Objects}

/-- A reference that has published the object of a hash. -/
def fresh (hash : Bytes) (ref : ChunkReferenceRecord) : Bool := ref.newlyStored && ref.hashHex == hash

def discarded (failures : List FailedAttempt) : List ChunkReferenceRecord :=
  failures.flatMap FailedAttempt.spool

/-- All references that were spooled for a result, those of the attempts that
failed included. -/
def ProcessedEntry.spools (p : ProcessedEntry) : List ChunkReferenceRecord :=
  p.chunkReferences.getD [] ++ discarded p.failures

def WorkerPc.spools : WorkerPc → List ChunkReferenceRecord
  | .beginning t | .measuring t | .opening t _ => discarded t.failures
  | .reading r | .confirming r => r.spool ++ discarded r.task.failures
  | .storing r _ | .compressing r _ | .publishing r _ _ => r.spool ++ discarded r.task.failures
  | .finished p | .pushing p | .refused p _ => p.spools
  | _ => []

/-- How often the object of a hash was published, as the references tell it. -/
def booked (c : Config) (s : State) (hash : Bytes) : Nat :=
  pooled c.workerCount (fun i => (s.workers i).pc.spools.countP (fresh hash)) +
    (s.processed.values.flatMap ProcessedEntry.spools).countP (fresh hash) +
    (s.writer.item.toList.flatMap ProcessedEntry.spools).countP (fresh hash) +
    (s.handled.flatMap ProcessedEntry.spools).countP (fresh hash)

theorem caught_spools {task : Task} {callback : Bool} {spool : List ChunkReferenceRecord}
    {hash : Bytes} (h : (caught c task callback spool f).shuts = false) :
    (caught c task callback spool f).spools.countP (fresh hash) =
      (spool ++ discarded task.failures).countP (fresh hash) := by
  rcases caught_cases c task callback spool f with he | ⟨e, _, _, ⟨_, he⟩ | ⟨_, he⟩⟩
  · rw [he] at h
    cases h
  · rw [he]
    simp only [WorkerPc.spools, discarded, List.flatMap_append, List.flatMap_cons, List.flatMap_nil,
      List.append_nil, List.countP_append]
    omega
  · rw [he]
    simp only [WorkerPc.spools, ProcessedEntry.spools, unreadable, discarded, List.flatMap_append,
      List.flatMap_cons, List.flatMap_nil, List.append_nil, List.countP_append, Option.getD_none,
      List.nil_append]
    omega

theorem attempt_spools {pc : WorkerPc} {task : Task} {callback : Bool}
    {spool : List ChunkReferenceRecord} (h : pc.attempt = some (task, callback, spool)) :
    pc.spools = spool ++ discarded task.failures := by
  cases pc <;> simp only [WorkerPc.attempt, Option.some.injEq, Prod.mk.injEq, reduceCtorEq] at h
  all_goals
    obtain ⟨rfl, _, rfl⟩ := h
    rfl

theorem appended_spools {r : Reading} {raw : Bytes} {object : StoredObject} {hash : Bytes}
    (h : (appended c r raw object).shuts = false) :
    (appended c r raw object).spools.countP (fresh hash) =
      (r.spool ++ discarded r.task.failures).countP (fresh hash) +
        if object.newlyStored ∧ object.hashHex = hash then 1 else 0 := by
  have happend : ((r.append raw object).spool ++ discarded r.task.failures).countP (fresh hash) =
      (r.spool ++ discarded r.task.failures).countP (fresh hash) +
        if object.newlyStored ∧ object.hashHex = hash then 1 else 0 := by
    have hone : [ChunkReferenceRecord.of object r.rawOffset r.sequence].countP (fresh hash) =
        if object.newlyStored ∧ object.hashHex = hash then 1 else 0 := by
      simp [List.countP_cons, fresh, ChunkReferenceRecord.of]
    simp only [Reading.append, List.countP_append, hone]
    omega
  rcases appended_cases c r raw object with ⟨f, he⟩ | ⟨_, ⟨_, he⟩ | ⟨_, he⟩⟩
  · rw [he] at h
    cases h
  · rw [he]
    exact happend
  · rw [he]
    exact happend

theorem findStored_reused {maximum : Nat} {known : Known} {raw : Bytes} {object : StoredObject}
    (h : findStored x maximum known objects raw = .ok (some object)) : object.newlyStored = false := by
  unfold findStored at h
  split at h
  · cases h
  · split at h
    · cases h
    · unfold findExisting at h
      split at h
      · cases h
      · split at h
        · cases h
        · rename_i hreused
          cases h
          obtain ⟨_, _, rfl, _⟩ := requireReusable_returns hreused
          rfl

/-- On its own a worker publishes nothing and forgets nothing. -/
theorem Works.spools {stop : Bool} {known : Known} {old pc : WorkerPc} {hash : Bytes}
    (hw : Works c x objects stop known old pc) (hshuts : pc.shuts = false) :
    pc.spools.countP (fresh hash) = old.spools.countP (fresh hash) := by
  cases hw with
  | finds r raw object hs hf =>
    rw [appended_spools hshuts, findStored_reused hf]
    simp [WorkerPc.spools]
  | fails _ task callback spool f hpc hf => rw [caught_spools hshuts, attempt_spools hpc]
  | dies _ e hpc => cases hshuts
  | _ => rfl

theorem accept_spools (job : FileJob) : (accept job).spools = [] := by
  cases job with
  | warning w => rfl
  | entry e =>
    unfold accept
    simp only
    split <;> rfl

theorem confirmed_spools {r : Reading} {after : PlatformFileMetadata} {hash : Bytes}
    (h : (confirmed c x r after).shuts = false) :
    (confirmed c x r after).spools.countP (fresh hash) =
      (r.spool ++ discarded r.task.failures).countP (fresh hash) := by
  rcases confirmed_cases (c := c) (x := x) r after with ⟨f, he⟩ | ⟨_, _, he⟩
  · rw [he] at h ⊢
    exact caught_spools h
  · rw [he]
    rfl

/-- The object of a hash is new if this run has published it. -/
def novelty (objects objects' : Objects) (hash : Bytes) : Nat :=
  if objects (derivedPath hash) = none ∧ objects' (derivedPath hash) ≠ none then 1 else 0

theorem derivedPath_injective {hash hash' : Bytes} (h : derivedPath hash = derivedPath hash') :
    hash = hash' := by
  have hlength := congrArg List.length h
  simp only [derivedPath, List.length_append, List.length_cons, List.length_take] at hlength
  have hsame : hash.length = hash'.length := by omega
  unfold derivedPath at h
  have htake : (ascii "objects/" ++ hash.take 2).length = (ascii "objects/" ++ hash'.take 2).length := by
    simp only [List.length_append, List.length_take, hsame]
  have htail := List.append_inj_right h htake
  exact List.append_inj_left (List.cons.inj htail).2 hsame

/-- Publishing the object of one hash. -/
theorem novelty_publish {old : Objects} {hash hash' content : Bytes}
    (hnone : objects (derivedPath hash) = none) (hg : Grows old objects) :
    novelty old (objects.publish (derivedPath hash) content) hash' =
      novelty old objects hash' + if hash = hash' then 1 else 0 := by
  unfold novelty Objects.publish
  by_cases he : hash = hash'
  · subst he
    have hold : old (derivedPath hash) = none := by
      cases ho : old (derivedPath hash) with
      | none => rfl
      | some node =>
        rw [hg _ _ ho] at hnone
        cases hnone
    simp [hnone, hold]
  · have hpath : derivedPath hash' ≠ derivedPath hash := fun hp => he (derivedPath_injective hp).symm
    simp [he, hpath]

/-- What a worker has in its hands and in the queue, and what it has published. -/
theorem WorkerMove.spools {i : Nat} (hm : WorkerMove c x s i t) (hi : i < c.workerCount)
    (ho : Orderly c t) (h : Clean c t) {old : Objects} (hg : Grows old s.vault.objects)
    (hash : Bytes) :
    (t.workers i).pc.spools.countP (fresh hash) +
        (t.processed.values.flatMap ProcessedEntry.spools).countP (fresh hash) +
        novelty old s.vault.objects hash =
      (s.workers i).pc.spools.countP (fresh hash) +
        (s.processed.values.flatMap ProcessedEntry.spools).countP (fresh hash) +
        novelty old t.vault.objects hash := by
  have hshuts := h.workers i hi
  cases hm with
  | works pc hw =>
    rw [State.moveWorker, setWorker_same] at hshuts ⊢
    rw [goto_pc, hw.spools hshuts]
    rfl
  | pops first jobs hp hq =>
    rw [setWorker_same, goto_pc, accept_spools, hp]
    rfl
  | confirms r after hp =>
    rw [setWorker_same] at hshuts ⊢
    rw [goto_pc, confirmed_spools hshuts, hp]
    rfl
  | finishes p hp =>
    rw [setWorker_same, goto_pc, hp]
    rfl
  | ended hp hq =>
    rw [State.moveWorker, setWorker_same, goto_pc, hp]
    rfl
  | stores r raw compressed object known objects hp hs =>
    rw [setWorker_same] at hshuts ⊢
    rw [goto_pc, appended_spools hshuts, hp]
    change _ + (s.processed.values.flatMap _).countP _ + _ = _ + _ + novelty old objects hash
    rcases storeUnderStripe_cases hs with ⟨hold, rfl⟩ | ⟨hnew, hnone, rfl⟩
    · simp [hold, WorkerPc.spools]
    · have hnames := (storeUnderStripe_names hs).1
      rw [novelty_publish hnone hg, hnames]
      simp only [hnew, WorkerPc.spools, true_and]
      omega
  | leaves r raw compressed known e hp hs =>
    rw [State.moveWorker, setWorker_same] at hshuts
    change (caught c r.task true r.spool ⟨e, true⟩).shuts = false at hshuts
    rcases caught_cases c r.task true r.spool ⟨e, true⟩ with he | ⟨_, hcb, _⟩
    · rw [he] at hshuts
      cases hshuts
    · cases hcb
  | pushes p processed hp hq =>
    obtain ⟨_, _, _, rfl⟩ := Queue.push_accepted hq
    rw [State.moveWorker, setWorker_same, goto_pc, hp]
    change _ + ((Queue.values { s.processed with
      items := s.processed.items ++ [(p, processedEntrySize c p)] }).flatMap
        ProcessedEntry.spools).countP (fresh hash) + _ = _ + _ + novelty old s.vault.objects hash
    simp only [WorkerPc.spools, Queue.values, List.map_append, List.map_cons, List.map_nil,
      List.flatMap_append, List.flatMap_cons, List.flatMap_nil, List.append_nil, List.countP_append,
      List.countP_nil]
    omega
  | refused p hp hq =>
    exact absurd (ho.sound.workerRefused i p (by rw [State.moveWorker, setWorker_same]; rfl))
      h.not_failed
  | oversized p hp hq =>
    rw [State.moveWorker, setWorker_same, goto_pc, hp]
    rfl
  | rejects p large e hp =>
    rw [State.moveWorker, setWorker_same] at hshuts
    cases hshuts
  | shuts f stage hp =>
    have hu : Untouched s (s.shut f stage) := shut_untouched
    rw [State.moveWorker, setWorker_same, goto_pc, hp]
    change _ + ((s.shut f stage).processed.values.flatMap _).countP _ + _ =
      _ + _ + novelty old (s.shut f stage).vault.objects hash
    rw [Queue.values, hu.processedItems, hu.vault]
    rcases afterStage_cases WorkerPc.shutting .leaving f stage with he | ⟨stage', he⟩
    · rw [he]
      rfl
    · rw [he]
      rfl
  | counts hp =>
    rw [State.moveWorker, setWorker_same, goto_pc, hp]
    split <;> rfl
  | closes hp =>
    rw [State.moveWorker, setWorker_same, goto_pc, hp]
    rfl

/-- The writer carries the references on. -/
theorem WriterMove.spools (hm : WriterMove c s t) (h : Clean c t) (hash : Bytes) :
    (t.processed.values.flatMap ProcessedEntry.spools).countP (fresh hash) +
        (t.writer.item.toList.flatMap ProcessedEntry.spools).countP (fresh hash) +
        (t.handled.flatMap ProcessedEntry.spools).countP (fresh hash) =
      (s.processed.values.flatMap ProcessedEntry.spools).countP (fresh hash) +
        (s.writer.item.toList.flatMap ProcessedEntry.spools).countP (fresh hash) +
        (s.handled.flatMap ProcessedEntry.spools).countP (fresh hash) := by
  have hshuts := h.writer
  have hquiet : ∀ {pc : WriterPc}, pc = .popping ∨ pc = .committing false → pc.item = none := by
    rintro pc (rfl | rfl) <;> rfl
  have hrecord : ∀ {p : ProcessedEntry} {pc : WriterPc}, s.writer.item = some p →
      pc = .popping ∨ pc = .committing false →
      (pc.item.toList.flatMap ProcessedEntry.spools).countP (fresh hash) +
        ((s.handled ++ [p]).flatMap ProcessedEntry.spools).countP (fresh hash) =
      (s.writer.item.toList.flatMap ProcessedEntry.spools).countP (fresh hash) +
        (s.handled.flatMap ProcessedEntry.spools).countP (fresh hash) := by
    intro p pc hw hpc
    simp only [hquiet hpc, hw, Option.toList_none, Option.toList_some, List.flatMap_append,
      List.flatMap_cons, List.flatMap_nil, List.append_nil, List.countP_append, List.countP_nil]
    omega
  cases hm with
  | starts hp => simp only [hp, WriterPc.item]
  | fails f totals hf hp => cases hshuts
  | pops p processed hp hq =>
    obtain ⟨_, n, hitems, _⟩ := Queue.pop_item hq
    simp only [hp, WriterPc.item, Queue.values, hitems, Option.toList_none, Option.toList_some,
      List.map_cons, List.flatMap_cons, List.flatMap_nil, List.append_nil, List.countP_append,
      List.countP_nil]
    omega
  | ended hp hq => simp only [hp, WriterPc.item]
  | warns p w b b' pc hp hb hv hdb hr hpc =>
    have := hrecord (p := p) (by rw [hp]; rfl) hpc
    simp only
    omega
  | inserts p e b b' id pc hp hb hv ht hdb hr hpc =>
    have := hrecord (p := p) (by rw [hp]; rfl) hpc
    simp only
    omega
  | begins p e b id db references hp hb hv ht hdb hrefs hmax => simp only [hp, WriterPc.item]
  | refers p id ref rest b db totals now hp hb hdb ht => simp only [hp, WriterPc.item]
  | hashes p id b b' pc hp hb hdb hr hpc =>
    have := hrecord (p := p) (by rw [hp]; rfl) hpc
    simp only
    omega
  | skips last b hp hb hr => cases last <;> simp [hp, WriterPc.item]
  | commits last b hp hb hr hs => cases last <;> simp [hp, WriterPc.item]
  | breaks b e hb hr last hp => cases hshuts
  | abandons hp hs => simp only [hp, WriterPc.item]
  | concludes hp hs => simp only [hp, WriterPc.item]
  | shuts f stage hp =>
    have hu : Untouched s (s.shut f stage) := shut_untouched
    simp only [hp, Queue.values, hu.processedItems, hu.handled]
    rcases afterStage_cases WriterPc.shutting .done f stage with he | ⟨stage', he⟩
    · simp [he, WriterPc.item]
    · simp [he, WriterPc.item]

/-- The references account for every object that a run has published, once. -/
structure Booked (c : Config) (v : Vault) (s : State) : Prop where
  grown : Grows v.objects s.vault.objects
  booked : ∀ hash, booked c s hash = novelty v.objects s.vault.objects hash

theorem novelty_same {hash : Bytes} : novelty objects objects hash = 0 := by
  unfold novelty
  split
  · rename_i h
    exact absurd h.1 h.2
  · rfl

theorem booked_start {e : Bool} : Booked c v (State.start c v e) := by
  refine ⟨Grows.refl, fun hash => ?_⟩
  have hpool : pooled c.workerCount (fun _ => 0) = 0 := pooled_eq_zero.mpr (fun _ _ => rfl)
  rw [show (State.start c v e).vault.objects = v.objects from rfl, novelty_same]
  simpa [Snapshot.booked, State.start, WorkerPc.spools, WriterPc.item, Queue.values,
    Queue.empty] using hpool

/-- A step in which no reference goes from hand to hand. -/
theorem Booked.same (h : Booked c v s) (hobjects : t.vault.objects = s.vault.objects)
    (hworkers : ∀ i, (t.workers i).pc.spools = (s.workers i).pc.spools)
    (hqueue : t.processed.items = s.processed.items) (hwriter : t.writer.item = s.writer.item)
    (hhandled : t.handled = s.handled) : Booked c v t := by
  refine ⟨by rw [hobjects]; exact h.grown, fun hash => ?_⟩
  have hold := h.booked hash
  unfold Snapshot.booked at hold ⊢
  simp only [hobjects, hworkers, Queue.values, hqueue, hwriter, hhandled]
  exact hold

theorem WorkerMove.booked {i : Nat} (hm : WorkerMove c x s i t) (hi : i < c.workerCount)
    (ho : Orderly c t) (hc : Clean c t) (h : Booked c v s) : Booked c v t := by
  have hframe := hm.frame
  refine ⟨h.grown.trans hm.grows, fun hash => ?_⟩
  have hold := h.booked hash
  have hmoved := hm.spools hi ho hc h.grown hash
  have hpool := pooled_change (n := c.workerCount) (i := i)
    (f := fun j => (s.workers j).pc.spools.countP (fresh hash))
    (g := fun j => (t.workers j).pc.spools.countP (fresh hash))
    hi (fun j hj => by rw [hframe.others j hj])
  unfold Snapshot.booked at hold ⊢
  rw [hframe.writer, hframe.handled]
  omega

theorem WriterMove.booked (hm : WriterMove c s t) (hc : Clean c t) (h : Booked c v s) :
    Booked c v t := by
  have hframe := hm.frame
  refine ⟨by rw [hframe.objects]; exact h.grown, fun hash => ?_⟩
  have hold := h.booked hash
  have hmoved := hm.spools hc hash
  unfold Snapshot.booked at hold ⊢
  rw [hframe.workers, hframe.objects]
  omega

theorem Creates.booked {n : Nat} (hc : Creates c s n t) (hu : Uncreated n s) (h : Booked c v s) :
    Booked c v t := by
  cases hc with
  | progress => exact h.same rfl (fun _ => rfl) rfl rfl rfl
  | writer => exact h.same rfl (fun _ => rfl) rfl (by rw [hu.writer (Nat.le_refl 1)]; rfl) rfl
  | worker i hi =>
    refine h.same rfl (fun j => ?_) rfl rfl rfl
    by_cases hj : j = i
    · subst hj
      rw [State.moveWorker, setWorker_same, hu.workers j (Nat.le_refl _)]
      rfl
    · rw [State.moveWorker, setWorker_other hj]
  | scanner n hn => exact h.same rfl (fun _ => rfl) rfl rfl rfl

theorem MainMove.booked (hm : MainMove c s t) (hy : Young s) (h : Booked c v s) :
    Booked c v t := by
  have hshut : ∀ {f : Failure} {stage : Stage} {pc : MainPc},
      Booked c v { s.shut f stage with main := pc } := by
    intro f stage pc
    have hu : Untouched s (s.shut f stage) := shut_untouched
    exact h.same (by rw [hu.vault]) (fun i => by rw [hu.workers]) hu.processedItems
      (by rw [hu.writer]) hu.handled
  cases hm with
  | cancels f stage hp => exact hshut
  | shuts f stage hp => exact hshut
  | creates n hp => exact (create_creates n).booked (hy n (by rw [hp]; rfl)) h
  | _ => exact h.same rfl (fun _ => rfl) rfl rfl rfl

theorem Move.booked (hm : Move c x s t) (ho : Orderly c s) (hc : Clean c t) (h : Booked c v s) :
    Booked c v t := by
  have ho' := hm.orderly ho
  cases hm with
  | scanner hm =>
    have hf := hm.frame
    exact h.same (by rw [hf.vault]) (fun i => by rw [hf.workers]) hf.processedItems
      (by rw [hf.writer]) hf.handled
  | worker i hi hm => exact hm.booked hi ho' hc h
  | writer hm => exact hm.booked hc h
  | main hm => exact hm.booked ho.young h
  | other hm =>
    have hf := hm.frame
    exact h.same (by rw [hf.vault]) (fun i => by rw [hf.workers]) hf.processedItems
      (by rw [hf.writer]) hf.handled

theorem run_booked {e : Bool} {ls : List Label} (h : run c x (State.start c v e) ls = some s)
    (hc : Clean c s) : Booked c v s := by
  have hall := run_invariant (P := fun s => Orderly c s ∧ (Clean c s → Booked c v s))
    (fun s t hs hm => ⟨hm.orderly hs.1, fun ht => hm.booked hs.1 ht (hs.2 (hm.clean hs.1 ht))⟩)
    ⟨orderly_start, fun _ => booked_start⟩ h
  exact hall.2 hc

/-- At the end all references are in the records. -/
theorem run_novelty {e : Bool} {ls : List Label} (h : run c x (State.start c v e) ls = some s)
    (hm : s.main.settles = true) (hash : Bytes) :
    (s.handled.flatMap ProcessedEntry.spools).countP (fresh hash) =
      novelty v.objects s.vault.objects hash := by
  have hended := (run_orderly h).ended hm
  have hflow := run_flow h hended.clean
  have hbooked := (run_booked h hended.clean).booked hash
  have hprocessed := (hflow.written (by rw [hended.writer]; rfl)).1
  have hpool : pooled c.workerCount (fun i => (s.workers i).pc.spools.countP (fresh hash)) = 0 :=
    pooled_eq_zero.mpr (fun i hi => by rw [hended.workers i hi]; rfl)
  rw [← hbooked]
  simp [Snapshot.booked, hpool, Queue.values, hprocessed, hended.writer, WriterPc.item]

end LocalVault.Snapshot
