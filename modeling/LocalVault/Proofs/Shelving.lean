import LocalVault.Proofs.Durable
import LocalVault.Proofs.Measures

namespace LocalVault
open Library

variable {x : Externals} {maximum : Nat} {drawn : Bytes → Prop} {objects : Objects}
  {raw content : Bytes}

/-- Every object file is a frame of bytes that were drawn, under the path of their hash. -/
def Shelved (x : Externals) (maximum : Nat) (drawn : Bytes → Prop) (objects : Objects) : Prop :=
  ∀ hash node, objects (derivedPath hash) = some node →
    ∃ raw content, node = .file content ∧ hashRaw x raw = hash ∧
      Framed x maximum drawn raw content

theorem shelved_empty : Shelved x maximum drawn (fun _ => none) := fun _ _ h => nomatch h

theorem Shelved.publish (h : Shelved x maximum drawn objects)
    (hframed : Framed x maximum drawn raw content) :
    Shelved x maximum drawn (objects.publish (derivedPath (hashRaw x raw)) content) := by
  intro hash node hnode
  unfold Objects.publish at hnode
  split at hnode
  · rename_i hpath
    cases hnode
    exact ⟨raw, content, rfl, (Snapshot.derivedPath_injective hpath).symm, hframed⟩
  · exact h hash node hnode

/-- With no collision among the drawn bytes, the object under their path gives them back. -/
theorem Shelved.framed (h : Shelved x maximum drawn objects) (hfree : CollisionFree x drawn)
    (hin : drawn raw) (hfile : objects (derivedPath (hashRaw x raw)) = some (.file content)) :
    Framed x maximum drawn raw content := by
  obtain ⟨raw', content', hnode, hhash, hframed⟩ := h _ _ hfile
  cases hnode
  rwa [hfree raw raw' hin hframed.involved (toHex_injective hhash).symm]

namespace Snapshot
open Repository

variable {c : Config} {s t : State} {v : Vault} {e : Bool} {ls : List Label}

/-- What a worker reads of a file is drawn. -/
def Label.Draws (drawn : Bytes → Prop) : Label → Prop
  | .worker _ (.reads bytes) => drawn bytes
  | _ => True

def ProcessedEntry.Drawn (drawn : Bytes → Prop) (p : ProcessedEntry) : Prop :=
  ∀ a, p.accepted = some a → ∀ raw ∈ a.chunks, drawn raw

def WorkerPc.Drawn (x : Externals) (maximum : Nat) (drawn : Bytes → Prop) : WorkerPc → Prop
  | .reading r | .confirming r => ∀ raw ∈ r.chunks, drawn raw
  | .storing r raw => (∀ raw ∈ r.chunks, drawn raw) ∧ drawn raw
  | .compressing r raw =>
    (∀ raw ∈ r.chunks, drawn raw) ∧ drawn raw ∧ raw ≠ [] ∧ raw.length ≤ maximum
  | .publishing r raw compressed =>
    (∀ raw ∈ r.chunks, drawn raw) ∧ Framed x maximum drawn raw compressed
  | .finished p => p.Drawn drawn
  | _ => True

theorem caught_drawn (t : Task) (callback : Bool) (spool : List ChunkReferenceRecord)
    (f : Failure) : (caught c t callback spool f).Drawn x maximum drawn := by
  rcases caught_cases c t callback spool f with he | ⟨error, -, -, ⟨-, he⟩ | ⟨-, he⟩⟩ <;> rw [he]
  · trivial
  · trivial
  · exact nofun

theorem appended_drawn {r : Reading} (h : ∀ raw ∈ r.chunks, drawn raw) (raw : Bytes)
    (object : StoredObject) : (appended c r raw object).Drawn x maximum drawn := by
  rcases appended_cases c r raw object with ⟨f, he⟩ | ⟨-, ⟨-, he⟩ | ⟨-, he⟩⟩ <;> rw [he]
  · trivial
  · exact h
  · exact h

theorem confirmed_drawn {r : Reading} (h : ∀ raw ∈ r.chunks, drawn raw)
    (after : PlatformFileMetadata) : (confirmed c x r after).Drawn x maximum drawn := by
  rcases confirmed_cases (c := c) (x := x) r after with ⟨f, he⟩ | ⟨-, -, he⟩ <;> rw [he]
  · exact caught_drawn _ _ _ f
  · intro a ha
    cases ha
    exact h

theorem accept_drawn (job : FileJob) : (accept job).Drawn x maximum drawn := by
  cases job with
  | warning w => exact nofun
  | entry e =>
    unfold accept
    dsimp only
    split
    · trivial
    · exact nofun

theorem deliver_drawn {r : Reading} {raw : Bytes} (h : ∀ raw ∈ r.chunks, drawn raw)
    (hraw : drawn raw) : ∀ raw' ∈ (r.deliver raw).chunks, drawn raw' := by
  intro raw' hin
  rcases List.mem_append.mp hin with hin | hin
  · exact h raw' hin
  · rw [List.mem_singleton.mp hin]
    exact hraw

/-- Between two reads a worker handles what it has drawn, and compresses it into a frame. -/
theorem Works.draws {stop : Bool} {known : Known} {old pc : WorkerPc}
    (hx : RoundTrips x) (hmax : c.chunkSize ≤ permanentMaximumChunkSize)
    (hw : Works c x objects stop known old pc)
    (hreads : ∀ r raw, old = .reading r → pc = .storing (r.deliver raw) raw → drawn raw)
    (h : old.Drawn x c.chunkSize drawn) : pc.Drawn x c.chunkSize drawn := by
  cases hw with
  | starts => trivial
  | begins t => trivial
  | measures t before hs => trivial
  | opens t before hs => exact fun raw hin => absurd hin List.not_mem_nil
  | ends r hs => exact h
  | reads r raw hs hne hsize =>
    have hraw := hreads r raw rfl rfl
    exact ⟨deliver_drawn h hraw, hraw⟩
  | finds r raw object hs hf => exact appended_drawn h.1 raw object
  | misses r raw hs hf =>
    obtain ⟨hne, hlong, -⟩ := findStored_none hf
    exact ⟨h.1, h.2, hne, hlong⟩
  | compresses r raw compressed hs hc =>
    obtain ⟨hchunks, hraw, hne, hlong⟩ := h
    exact ⟨hchunks, .of_compress hx hmax hraw hne hlong hc⟩
  | fails _ t callback spool f hpc hf => exact caught_drawn t callback spool f
  | dies _ e hpc => trivial

/-- What a worker gives, and has in its hands, was drawn. -/
structure Worker.Drawn (x : Externals) (maximum : Nat) (drawn : Bytes → Prop) (w : Worker) :
    Prop where
  pc : w.pc.Drawn x maximum drawn
  given : ∀ p ∈ w.given, p.Drawn drawn

theorem Worker.Drawn.step {i : Nat} (hx : RoundTrips x)
    (hmax : c.chunkSize ≤ permanentMaximumChunkSize) (hm : WorkerMove c x s i t)
    (hreads : ∀ r raw, (s.workers i).pc = .reading r →
      (t.workers i).pc = .storing (r.deliver raw) raw → drawn raw)
    (h : (s.workers i).Drawn x c.chunkSize drawn) : (t.workers i).Drawn x c.chunkSize drawn := by
  have hpc := h.pc
  have hgiven := h.given
  cases hm with
  | works pc hw =>
    rw [State.moveWorker, setWorker_same] at hreads ⊢
    exact ⟨hw.draws hx hmax hreads hpc, hgiven⟩
  | pops job jobs hp hq =>
    rw [setWorker_same]
    exact ⟨accept_drawn job, hgiven⟩
  | confirms r after hp =>
    rw [hp] at hpc
    rw [setWorker_same]
    exact ⟨confirmed_drawn hpc after, hgiven⟩
  | finishes p hp =>
    rw [hp] at hpc
    rw [setWorker_same]
    refine ⟨trivial, fun q hq => ?_⟩
    rcases List.mem_append.mp hq with hq | hq
    · exact hgiven q hq
    · rw [List.mem_singleton.mp hq]
      exact hpc
  | stores r raw compressed object known objects hp hs =>
    rw [hp] at hpc
    rw [setWorker_same]
    exact ⟨appended_drawn hpc.1 raw object, hgiven⟩
  | leaves r raw compressed known e hp hs =>
    rw [State.moveWorker, setWorker_same]
    exact ⟨caught_drawn _ _ _ _, hgiven⟩
  | shuts f stage hp =>
    rw [State.moveWorker, setWorker_same, congrFun shut_untouched.workers i]
    refine ⟨?_, hgiven⟩
    rw [goto_pc]
    rcases afterStage_cases WorkerPc.shutting .leaving f stage with he | ⟨stage', he⟩ <;> rw [he] <;>
      trivial
  | counts hp =>
    rw [State.moveWorker, setWorker_same]
    refine ⟨?_, hgiven⟩
    rw [goto_pc]
    split <;> trivial
  | _ =>
    rw [State.moveWorker, setWorker_same]
    exact ⟨trivial, hgiven⟩

/-- A file that is put under its path is the frame a worker had ready. -/
theorem WorkerMove.shelved {i : Nat} (hm : WorkerMove c x s i t)
    (hw : (s.workers i).Drawn x c.chunkSize drawn)
    (h : Shelved x c.chunkSize drawn s.vault.objects) :
    Shelved x c.chunkSize drawn t.vault.objects := by
  have hpc := hw.pc
  cases hm with
  | stores r raw compressed object known objects hp hs =>
    rw [hp] at hpc
    rcases storeUnderStripe_cases hs with ⟨-, hobjects⟩ | ⟨-, -, hobjects⟩
    · change Shelved x c.chunkSize drawn objects
      rw [hobjects]
      exact h
    · change Shelved x c.chunkSize drawn objects
      rw [hobjects]
      exact h.publish hpc.2
  | leaves r raw compressed known e hp hs =>
    rw [hp] at hpc
    exact h.publish hpc.2
  | shuts f stage hp =>
    change Shelved x c.chunkSize drawn (s.shut f stage).vault.objects
    rw [shut_untouched.vault]
    exact h
  | _ => exact h

/-- Bytes come into a worker through its reads. -/
theorem stepWorker_reads {i : Nat} {a : Act} (h : stepWorker c x s i a = some t) (r : Reading)
    (raw : Bytes) (hold : (s.workers i).pc = .reading r)
    (hnew : (t.workers i).pc = .storing (r.deliver raw) raw) : a = .reads raw := by
  have hno : ∀ f, (caught c r.task false r.spool f) ≠ .storing (r.deliver raw) raw := by
    intro f hf
    rcases caught_cases c r.task false r.spool f with he | ⟨error, -, -, ⟨-, he⟩ | ⟨-, he⟩⟩ <;>
      rw [he] at hf <;> cases hf
  have hmoved : ∀ {pc : WorkerPc}, s.moveWorker i pc = t → pc = .storing (r.deliver raw) raw := by
    rintro pc rfl
    rw [State.moveWorker, setWorker_same, goto_pc] at hnew
    exact hnew
  unfold stepWorker at h
  simp only [hold] at h
  cases a with
  | reads bytes =>
    dsimp only at h
    split at h
    · exact absurd (hmoved (Option.some.inj h)) (hno _)
    · split at h
      · cases h
      · split at h
        · cases hmoved (Option.some.inj h)
        · split at h
          · exact absurd (hmoved (Option.some.inj h)) (hno _)
          · rw [(WorkerPc.storing.inj (hmoved (Option.some.inj h))).2]
  | raises e =>
    simp only [raisedIn, Option.map_some, Option.some.injEq] at h
    exact absurd (hmoved h) (hno _)
  | _ => cases h

theorem MainMove.shelves (hm : MainMove c s t) : t.vault.objects = s.vault.objects := by
  cases hm with
  | creates n hp =>
    have hcreates := create_creates (c := c) (s := s) n
    generalize s.create c n = u at hcreates
    cases hcreates <;> rfl
  | cancels f stage hp => exact congrArg Vault.objects shut_untouched.vault
  | shuts f stage hp => exact congrArg Vault.objects shut_untouched.vault
  | _ => rfl

/-- What the workers have drawn, and what stands under `objects/`. -/
structure Stocked (x : Externals) (maximum : Nat) (drawn : Bytes → Prop) (s : State) : Prop where
  young : Young s
  shelved : Shelved x maximum drawn s.vault.objects
  workers : ∀ i, (s.workers i).Drawn x maximum drawn

theorem step_stocked (hx : RoundTrips x) (hmax : c.chunkSize ≤ permanentMaximumChunkSize)
    {l : Label} (hl : l.Draws drawn) (hstep : step c x s l = some t)
    (h : Stocked x c.chunkSize drawn s) : Stocked x c.chunkSize drawn t := by
  have hyoung := (step_move hstep).young h.young
  have hquiet : t.vault.objects = s.vault.objects → t.workers = s.workers →
      Stocked x c.chunkSize drawn t := by
    intro hobjects hworkers
    refine ⟨hyoung, ?_, ?_⟩
    · rw [hobjects]
      exact h.shelved
    · rw [hworkers]
      exact h.workers
  cases l with
  | worker j a =>
    simp only [step] at hstep
    split at hstep
    · have hm := stepWorker_move hstep
      refine ⟨hyoung, hm.shelved (h.workers j) h.shelved, fun i => ?_⟩
      by_cases hij : i = j
      · subst hij
        refine Worker.Drawn.step hx hmax hm (fun r raw hold hnew => ?_) (h.workers i)
        obtain rfl := stepWorker_reads hstep r raw hold hnew
        exact hl
      · rw [hm.frame.others i hij]
        exact h.workers i
    · cases hstep
  | scanner a =>
    have hframe := (stepScanner_move hstep).frame
    exact hquiet (by rw [hframe.vault]) hframe.workers
  | writer a =>
    have hframe := (stepWriter_move hstep).frame
    exact hquiet hframe.objects hframe.workers
  | main a =>
    have hm := stepMain_move hstep
    refine ⟨hyoung, ?_, fun i => ?_⟩
    · rw [hm.shelves]
      exact h.shelved
    · rcases hm.worker_cases h.young i with he | ⟨-, he⟩
      · rw [he]
        exact h.workers i
      · rw [he]
        exact ⟨trivial, (h.workers i).given⟩
  | progress a =>
    have hframe := (stepProgress_move (c := c) hstep).frame
    exact hquiet (by rw [hframe.vault]) hframe.workers
  | canceller =>
    have hframe := (stepCanceller_move (c := c) hstep).frame
    exact hquiet (by rw [hframe.vault]) hframe.workers
  | requestExternalStop =>
    have hframe := (stepRequest_move hstep).frame
    exact hquiet (by rw [hframe.vault]) hframe.workers

/-- However a run is scheduled, all that comes under `objects/` is frames of what was read. -/
theorem run_stocked (hx : RoundTrips x) (hmax : c.chunkSize ≤ permanentMaximumChunkSize)
    (hv : Shelved x c.chunkSize drawn v.objects) (hls : ∀ l ∈ ls, l.Draws drawn)
    (h : run c x (State.start c v e) ls = some s) : Stocked x c.chunkSize drawn s :=
  labelled_invariant (fun _ _ _ hl hs hstep => step_stocked hx hmax hl hstep hs) hls
    ⟨young_start, hv, fun _ => ⟨trivial, fun _ hp => absurd hp List.not_mem_nil⟩⟩ h

/-- What the writer has handled was drawn. -/
theorem run_drawn (h : run c x (State.start c v e) ls = some s) (hm : s.main.settles = true)
    (hs : Stocked x c.chunkSize drawn s) : ∀ p ∈ s.handled, p.Drawn drawn := by
  intro p hp
  have hpos := List.count_pos_iff.mpr hp
  rw [run_given h hm p] at hpos
  obtain ⟨i, -, hcount⟩ : ∃ i < c.workerCount, (s.workers i).given.count p ≠ 0 := by
    by_contra hnone
    push Not at hnone
    rw [pooled_eq_zero.mpr hnone] at hpos
    cases hpos
  exact (hs.workers i).given p (List.count_pos_iff.mp (Nat.pos_of_ne_zero hcount))

end Snapshot
end LocalVault
