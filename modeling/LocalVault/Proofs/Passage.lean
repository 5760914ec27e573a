import LocalVault.Proofs.Counters

namespace LocalVault.Snapshot
open Library Repository

variable {c : Config} {x : Externals} {s t : State} {f : Failure} {stage : Stage} {v : Vault}
  {e : Bool} {ls : List Label}

/-- The result a worker has given and not got rid of. -/
def WorkerPc.onward : WorkerPc → Option ProcessedEntry
  | .pushing p | .refused p _ => some p
  | _ => none

/-- Where a result that was given may be. -/
def passage (c : Config) (s : State) (p : ProcessedEntry) : Nat :=
  pooled c.workerCount (fun i => (s.workers i).pc.onward.toList.count p) +
    s.processed.values.count p + s.writer.item.toList.count p + s.handled.count p

/-- Every result that was given is on its way to the records, or there. -/
def Passing (c : Config) (s : State) : Prop :=
  ∀ p, pooled c.workerCount (fun i => (s.workers i).given.count p) = passage c s p

theorem passing_start : Passing c (State.start c v e) := fun p => by
  have hpool : pooled c.workerCount (fun _ => 0) = 0 := pooled_eq_zero.mpr fun _ _ => rfl
  change pooled c.workerCount (fun _ => 0) = pooled c.workerCount (fun _ => 0) + 0 + 0 + 0
  omega

/-- Nothing is given between two states, and nothing given is moved. -/
structure Halts (s t : State) : Prop where
  given : ∀ i, (t.workers i).given = (s.workers i).given
  onward : ∀ i, (t.workers i).pc.onward = (s.workers i).pc.onward
  processed : t.processed.items = s.processed.items
  item : t.writer.item = s.writer.item
  handled : t.handled = s.handled

theorem Halts.passing (h : Halts s t) (hp : Passing c s) : Passing c t := fun p => by
  have hold := hp p
  unfold passage Queue.values at hold ⊢
  simp only [h.given, h.onward, h.processed, h.item, h.handled]
  exact hold

theorem halts_shut {pc : MainPc} : Halts s { s.shut f stage with main := pc } := by
  have hu : Untouched s (s.shut f stage) := shut_untouched
  refine ⟨fun i => ?_, fun i => ?_, hu.processedItems, ?_, hu.handled⟩
  · rw [hu.workers]
  · rw [hu.workers]
  · rw [hu.writer]

theorem Creates.halts {n : Nat} (hc : Creates c s n t) (h : Uncreated n s) : Halts s t := by
  cases hc with
  | progress => exact ⟨fun _ => rfl, fun _ => rfl, rfl, rfl, rfl⟩
  | writer =>
    have hw := h.writer (Nat.le_refl 1)
    exact ⟨fun _ => rfl, fun _ => rfl, rfl, by rw [hw]; rfl, rfl⟩
  | worker i hi =>
    have hw := h.workers i (Nat.le_refl _)
    refine ⟨fun j => ?_, fun j => ?_, rfl, rfl, rfl⟩
    · by_cases hj : j = i
      · subst hj
        rw [State.moveWorker, setWorker_same]
        rfl
      · rw [State.moveWorker, setWorker_other hj]
    · by_cases hj : j = i
      · subst hj
        rw [State.moveWorker, setWorker_same, hw]
        rfl
      · rw [State.moveWorker, setWorker_other hj]
  | scanner n hn => exact ⟨fun _ => rfl, fun _ => rfl, rfl, rfl, rfl⟩

theorem MainMove.halts (hm : MainMove c s t) (hy : Young s) : Halts s t := by
  cases hm with
  | cancels f stage hp => exact halts_shut
  | shuts f stage hp => exact halts_shut
  | creates n hp => exact (create_creates n).halts (hy n (by rw [hp]; rfl))
  | _ => exact ⟨fun _ => rfl, fun _ => rfl, rfl, rfl, rfl⟩

theorem open_onward {pc : WorkerPc} {job : FileJob} (h : pc.open = some job) :
    pc.onward = none := by
  cases pc <;> cases h <;> rfl

theorem Works.onward {objects : Objects} {stop : Bool} {known : Known} {old pc : WorkerPc}
    (hw : Works c x objects stop known old pc) (hshuts : pc.shuts = false) :
    pc.onward = none ∧ old.onward = none := by
  cases hold : old.open with
  | some job => exact ⟨open_onward ((hw.open hshuts).trans hold), open_onward hold⟩
  | none =>
    cases hw with
    | starts => exact ⟨rfl, rfl⟩
    | dies _ e hpc => cases hshuts
    | fails _ t callback spool f hpc hf =>
      rw [attempt_open hpc] at hold
      cases hold
    | _ => cases hold

/-- A worker gives a result once, and passes it on once. -/
theorem WorkerMove.passage {i : Nat} (hm : WorkerMove c x s i t) (hi : i < c.workerCount)
    (ho : Orderly c t) (h : Clean c t) (p : ProcessedEntry) :
    (t.workers i).given.count p + (s.workers i).pc.onward.toList.count p +
        s.processed.values.count p =
      (s.workers i).given.count p + (t.workers i).pc.onward.toList.count p +
        t.processed.values.count p := by
  have hshuts := h.workers i hi
  cases hm with
  | works pc hw =>
    rw [State.moveWorker, setWorker_same] at hshuts ⊢
    obtain ⟨hnew, hold⟩ := hw.onward hshuts
    rw [goto_pc, hnew, hold]
    rfl
  | pops first jobs hp hq =>
    rw [setWorker_same, goto_pc, open_onward (accept_open first).1, hp]
    rfl
  | confirms r after hp =>
    rw [setWorker_same] at hshuts ⊢
    rw [goto_pc, open_onward (confirmed_open hshuts), hp]
    rfl
  | finishes q hp =>
    rw [setWorker_same, goto_pc, hp]
    change ((s.workers i).given ++ [q]).count p + 0 + _ = _ + [q].count p + _
    rw [List.count_append]
    rfl
  | ended hp hq =>
    rw [State.moveWorker, setWorker_same, goto_pc, hp]
    rfl
  | stores r raw compressed object known objects hp hs =>
    rw [setWorker_same] at hshuts ⊢
    rw [goto_pc, open_onward (appended_open hshuts), hp]
    rfl
  | leaves r raw compressed known e hp hs =>
    rw [State.moveWorker, setWorker_same] at hshuts ⊢
    rw [goto_pc, open_onward (caught_open hshuts), hp]
    rfl
  | pushes q processed hp hq =>
    obtain ⟨_, _, _, rfl⟩ := Queue.push_accepted hq
    rw [State.moveWorker, setWorker_same, goto_pc, hp]
    change _ + [q].count p + _ = _ + 0 + (Queue.values { s.processed with
      items := s.processed.items ++ [(q, processedEntrySize c q)] }).count p
    unfold Queue.values
    rw [List.map_append, List.count_append]
    exact Nat.add_assoc _ _ _ |>.trans (congrArg _ (Nat.add_comm _ _))
  | refused q hp hq =>
    exact absurd (ho.sound.workerRefused i q (by rw [State.moveWorker, setWorker_same]; rfl))
      h.not_failed
  | oversized q hp hq =>
    rw [State.moveWorker, setWorker_same, goto_pc, hp]
    rfl
  | rejects q large e hp =>
    rw [State.moveWorker, setWorker_same] at hshuts
    cases hshuts
  | shuts f stage hp =>
    have hitems : (s.shut f stage).processed.values = s.processed.values := by
      unfold Queue.values
      rw [shut_untouched.processedItems]
    have hu : Untouched s (s.shut f stage) := shut_untouched
    have hworker := congrFun hu.workers i
    rw [State.moveWorker, setWorker_same, goto_pc, hp]
    change ((s.shut f stage).workers i).given.count p + _ + _ = _ + _ +
      (s.shut f stage).processed.values.count p
    rw [hitems, hworker]
    rcases afterStage_cases WorkerPc.shutting .leaving f stage with he | ⟨stage', he⟩ <;> rw [he] <;>
      rfl
  | counts hp =>
    rw [State.moveWorker, setWorker_same, goto_pc, hp]
    split <;> rfl
  | closes hp =>
    rw [State.moveWorker, setWorker_same, goto_pc, hp]
    rfl

/-- The writer takes a result out of the queue and records it. -/
theorem WriterMove.passage (hm : WriterMove c s t) (h : Clean c t) (p : ProcessedEntry) :
    t.processed.values.count p + t.writer.item.toList.count p + t.handled.count p =
      s.processed.values.count p + s.writer.item.toList.count p + s.handled.count p := by
  have hshuts := h.writer
  have hquiet : ∀ {pc : WriterPc}, pc = .popping ∨ pc = .committing false → pc.item = none := by
    rintro pc (rfl | rfl) <;> rfl
  have hrecord : ∀ {q : ProcessedEntry} {pc : WriterPc}, s.writer.item = some q →
      pc = .popping ∨ pc = .committing false →
      pc.item.toList.count p + (s.handled ++ [q]).count p =
        s.writer.item.toList.count p + s.handled.count p := by
    intro q pc hw hpc
    rw [hquiet hpc, hw, List.count_append]
    change 0 + (s.handled.count p + [q].count p) = [q].count p + s.handled.count p
    omega
  cases hm with
  | starts hp => rw [hp]; rfl
  | fails f totals hf hp => cases hshuts
  | pops q processed hp hq =>
    obtain ⟨_, n, hitems, _⟩ := Queue.pop_item hq
    have hvalues : s.processed.values = q :: processed.values := by
      rw [Queue.values, hitems]
      rfl
    rw [hp, hvalues]
    change processed.values.count p + [q].count p + s.handled.count p =
      (q :: processed.values).count p + 0 + s.handled.count p
    rw [List.count_cons, List.count_cons, List.count_nil]
    omega
  | ended hp hq => rw [hp]; rfl
  | warns q w b b' pc hp hb hv hdb hr hpc =>
    have hmoved := hrecord (q := q) (by rw [hp]; rfl) hpc
    dsimp only
    omega
  | inserts q e b b' id pc hp hb hv ht hdb hr hpc =>
    have hmoved := hrecord (q := q) (by rw [hp]; rfl) hpc
    dsimp only
    omega
  | begins q e b id db references hp hb hv ht hdb hrefs hmax => rw [hp]; rfl
  | refers q id ref rest b db totals now hp hb hdb ht => rw [hp]; rfl
  | hashes q id b b' pc hp hb hdb hr hpc =>
    have hmoved := hrecord (q := q) (by rw [hp]; rfl) hpc
    dsimp only
    omega
  | skips last b hp hb hr => rw [hp]; cases last <;> rfl
  | commits last b hp hb hr hs => rw [hp]; cases last <;> rfl
  | breaks b e hb hr last hp => cases hshuts
  | abandons hp hs => rw [hp]; rfl
  | concludes hp hs => rw [hp]; rfl
  | shuts f stage hp =>
    have hu : Untouched s (s.shut f stage) := shut_untouched
    unfold Queue.values
    dsimp only
    rw [hu.processedItems, hu.handled, hp]
    rcases afterStage_cases WriterPc.shutting .done f stage with he | ⟨stage', he⟩ <;> rw [he] <;>
      rfl

theorem Move.passing (hm : Move c x s t) (ho : Orderly c s) (h : Clean c t) (hp : Passing c s) :
    Passing c t := by
  have ho' := hm.orderly ho
  cases hm with
  | scanner hm =>
    have hf := hm.frame
    exact Halts.passing ⟨fun i => by rw [hf.workers], fun i => by rw [hf.workers],
      hf.processedItems, by rw [hf.writer], hf.handled⟩ hp
  | worker i hi hm =>
    have hf := hm.frame
    intro p
    have hold := hp p
    have hmoved := hm.passage hi ho' h p
    have hgiven := pooled_change (n := c.workerCount) (i := i)
      (f := fun j => (s.workers j).given.count p) (g := fun j => (t.workers j).given.count p) hi
      (fun j hj => by rw [hf.others j hj])
    have honward := pooled_change (n := c.workerCount) (i := i)
      (f := fun j => (s.workers j).pc.onward.toList.count p)
      (g := fun j => (t.workers j).pc.onward.toList.count p) hi
      (fun j hj => by rw [hf.others j hj])
    unfold Snapshot.passage at hold ⊢
    rw [hf.writer, hf.handled]
    omega
  | writer hm =>
    have hf := hm.frame
    intro p
    have hold := hp p
    have hmoved := hm.passage h p
    unfold Snapshot.passage at hold ⊢
    rw [hf.workers]
    omega
  | main hm => exact (hm.halts ho.young).passing hp
  | other hm =>
    have hf := hm.frame
    exact Halts.passing ⟨fun i => by rw [hf.workers], fun i => by rw [hf.workers],
      hf.processedItems, by rw [hf.writer], hf.handled⟩ hp

/-- In a run without failures no result is lost or doubled behind its worker. -/
theorem run_passing (h : run c x (State.start c v e) ls = some s) (hc : Clean c s) :
    Passing c s := by
  have hall := run_invariant (P := fun s => Orderly c s ∧ (Clean c s → Passing c s))
    (fun s t hs hm => ⟨hm.orderly hs.1, fun ht =>
      have hclean := hm.clean hs.1 ht
      hm.passing hs.1 ht (hs.2 hclean)⟩)
    ⟨orderly_start, fun _ => passing_start⟩ h
  exact hall.2 hc

/-- What a run has recorded in the end is what its workers have given. -/
theorem run_given (h : run c x (State.start c v e) ls = some s) (hm : s.main.settles = true)
    (p : ProcessedEntry) :
    s.handled.count p = pooled c.workerCount (fun i => (s.workers i).given.count p) := by
  have hended := (run_orderly h).ended hm
  have hpassing := run_passing h hended.clean p
  have hqueue := ((run_flow h hended.clean).written (by rw [hended.writer]; rfl)).1
  have hpool : pooled c.workerCount (fun i => (s.workers i).pc.onward.toList.count p) = 0 :=
    pooled_eq_zero.mpr fun i hi => by rw [hended.workers i hi]; rfl
  unfold passage Queue.values at hpassing
  rw [hpool, hqueue, hended.writer] at hpassing
  change _ = 0 + 0 + 0 + _ at hpassing
  omega

/-- The chunks that a result calls new are those of its references that are newly stored. -/
def ProcessedEntry.Tallied (p : ProcessedEntry) : Prop :=
  p.newChunkCount =
    ((p.chunkReferences.getD []).filter ChunkReferenceRecord.newlyStored).length

def Reading.Tallied (r : Reading) : Prop :=
  r.newChunkCount = (r.spool.filter ChunkReferenceRecord.newlyStored).length

def WorkerPc.Tallied : WorkerPc → Prop
  | .reading r | .confirming r => r.Tallied
  | .storing r _ | .compressing r _ | .publishing r _ _ => r.Tallied
  | .finished p => p.Tallied
  | _ => True

theorem caught_tallied (t : Task) (callback : Bool) (spool : List ChunkReferenceRecord)
    (f : Failure) : (caught c t callback spool f).Tallied := by
  rcases caught_cases c t callback spool f with he | ⟨error, -, -, ⟨-, he⟩ | ⟨-, he⟩⟩ <;> rw [he]
  · trivial
  · trivial
  · exact rfl

theorem appended_tallied {r : Reading} (h : r.Tallied) (raw : Bytes) (object : StoredObject) :
    (appended c r raw object).Tallied := by
  have happend : (r.append raw object).Tallied := by
    change r.newChunkCount + (if object.newlyStored = true then 1 else 0) =
      ((r.spool ++ [ChunkReferenceRecord.of object r.rawOffset r.sequence]).filter
        ChunkReferenceRecord.newlyStored).length
    rw [List.filter_append, List.length_append, h, List.filter_singleton]
    unfold ChunkReferenceRecord.of
    cases object.newlyStored <;> rfl
  rcases appended_cases c r raw object with ⟨f, he⟩ | ⟨-, ⟨-, he⟩ | ⟨-, he⟩⟩ <;> rw [he]
  · trivial
  · exact happend
  · exact happend

theorem Works.tallied {objects : Objects} {stop : Bool} {known : Known} {old pc : WorkerPc}
    (hw : Works c x objects stop known old pc) (h : old.Tallied) : pc.Tallied := by
  cases hw with
  | starts => trivial
  | begins t => trivial
  | measures t before hs => trivial
  | opens t before hs => exact rfl
  | ends r hs => exact h
  | reads r raw hs hne hsize => exact h
  | finds r raw object hs hf => exact appended_tallied h raw object
  | misses r raw hs hf => exact h
  | compresses r raw compressed hs hc => exact h
  | fails _ t callback spool f hpc hf => exact caught_tallied t callback spool f
  | dies _ e hpc => trivial

theorem accept_tallied (job : FileJob) : (accept job).Tallied := by
  cases job with
  | warning n => exact rfl
  | entry e =>
    unfold accept
    dsimp only
    split
    · trivial
    · exact rfl

theorem confirmed_tallied {r : Reading} (h : r.Tallied) (after : PlatformFileMetadata) :
    (confirmed c x r after).Tallied := by
  rcases confirmed_cases (c := c) (x := x) r after with ⟨f, he⟩ | ⟨-, -, he⟩ <;> rw [he]
  · exact caught_tallied _ _ _ f
  · exact h

/-- What a worker gives, and has in its hands, is tallied. -/
structure Worker.Tallied (w : Worker) : Prop where
  pc : w.pc.Tallied
  given : ∀ p ∈ w.given, p.Tallied

theorem WorkerMove.tallied {i : Nat} (hm : WorkerMove c x s i t) (h : (s.workers i).Tallied) :
    (t.workers i).Tallied := by
  have hpc := h.pc
  have hgiven := h.given
  cases hm with
  | works pc hw =>
    rw [State.moveWorker, setWorker_same]
    exact ⟨hw.tallied hpc, hgiven⟩
  | pops job jobs hp hq =>
    rw [setWorker_same]
    exact ⟨accept_tallied job, hgiven⟩
  | confirms r after hp =>
    rw [hp] at hpc
    rw [setWorker_same]
    exact ⟨confirmed_tallied hpc after, hgiven⟩
  | finishes p hp =>
    rw [hp] at hpc
    rw [setWorker_same]
    refine ⟨trivial, fun q hq => ?_⟩
    rcases List.mem_append.mp hq with hq | hq
    · exact hgiven q hq
    · rw [List.mem_singleton.mp hq]
      exact hpc
  | stores r raw compressed object known objects hp hs =>
    rw [hp] at hpc
    rw [setWorker_same]
    exact ⟨appended_tallied hpc raw object, hgiven⟩
  | leaves r raw compressed known e hp hs =>
    rw [State.moveWorker, setWorker_same]
    exact ⟨caught_tallied _ _ _ _, hgiven⟩
  | shuts f stage hp =>
    rw [State.moveWorker, setWorker_same, congrFun shut_untouched.workers i]
    refine ⟨?_, hgiven⟩
    rw [goto_pc]
    rcases afterStage_cases WorkerPc.shutting .leaving f stage with he | ⟨stage', he⟩ <;> rw [he] <;>
      trivial
  | counts hp =>
    rw [State.moveWorker, setWorker_same]
    refine ⟨?_, hgiven⟩
    rw [goto_pc]
    split <;> trivial
  | _ =>
    rw [State.moveWorker, setWorker_same]
    exact ⟨trivial, hgiven⟩

theorem run_worker_tallied (h : run c x (State.start c v e) ls = some s) (i : Nat) :
    (s.workers i).Tallied := by
  refine run_worker_invariant (P := Worker.Tallied) ?_ ?_ (fun _ _ _ hm hw => hm.tallied hw) h i
  · exact ⟨trivial, fun p hp => absurd hp List.not_mem_nil⟩
  · exact fun w hw _ => ⟨trivial, hw.given⟩

/-- Every record of a run that has come to its end is tallied. -/
theorem run_tallied (h : run c x (State.start c v e) ls = some s) (hm : s.main.settles = true) :
    ∀ p ∈ s.handled, p.Tallied := by
  intro p hp
  have hpos := List.count_pos_iff.mpr hp
  rw [run_given h hm p] at hpos
  have hsome : ∃ i < c.workerCount, (s.workers i).given.count p ≠ 0 := by
    by_contra hnone
    push Not at hnone
    rw [pooled_eq_zero.mpr hnone] at hpos
    cases hpos
  obtain ⟨i, -, hcount⟩ := hsome
  exact (run_worker_tallied h i).given p (List.count_pos_iff.mp (Nat.pos_of_ne_zero hcount))

end LocalVault.Snapshot
