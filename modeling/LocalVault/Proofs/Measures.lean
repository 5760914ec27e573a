import LocalVault.Proofs.Accounting
import LocalVault.Proofs.Passage

namespace LocalVault.Snapshot
open Library Repository

variable {c : Config} {x : Externals} {s t : State} {v : Vault} {e : Bool} {ls : List Label}
  {P : PlatformFileMetadata → Prop}

/-- The rule of invariants that need to know the steps of the schedule. -/
theorem labelled_invariant {I : State → Prop} {Q : Label → Prop}
    (hstep : ∀ s l t, Q l → I s → step c x s l = some t → I t) (hls : ∀ l ∈ ls, Q l) (hs : I s)
    (h : run c x s ls = some t) : I t := by
  induction ls generalizing s with
  | nil =>
    cases h
    exact hs
  | cons l ls ih =>
    obtain ⟨u, hu, ht⟩ := Option.bind_eq_some_iff.mp h
    exact ih (fun k hk => hls k (List.mem_cons_of_mem _ hk))
      (hstep s l u (hls l List.mem_cons_self) hs hu) ht

/-- What a worker sees of a file satisfies a property. -/
def Label.Sees (P : PlatformFileMetadata → Prop) : Label → Prop
  | .worker _ (.observes m) => P m
  | _ => True

def ProcessedEntry.Seen (P : PlatformFileMetadata → Prop) (p : ProcessedEntry) : Prop :=
  ∀ a, p.accepted = some a → P a.before

def WorkerPc.Seen (P : PlatformFileMetadata → Prop) : WorkerPc → Prop
  | .opening _ before => P before
  | .reading r | .confirming r => P r.before
  | .storing r _ | .compressing r _ | .publishing r _ _ => P r.before
  | .finished p => p.Seen P
  | _ => True

theorem caught_seen (t : Task) (callback : Bool) (spool : List ChunkReferenceRecord) (f : Failure) :
    (caught c t callback spool f).Seen P := by
  rcases caught_cases c t callback spool f with he | ⟨error, -, -, ⟨-, he⟩ | ⟨-, he⟩⟩ <;> rw [he]
  · trivial
  · trivial
  · exact nofun

theorem appended_seen {r : Reading} (h : P r.before) (raw : Bytes) (object : StoredObject) :
    (appended c r raw object).Seen P := by
  rcases appended_cases c r raw object with ⟨f, he⟩ | ⟨-, ⟨-, he⟩ | ⟨-, he⟩⟩ <;> rw [he]
  · trivial
  · exact h
  · exact h

theorem confirmed_seen {r : Reading} (h : P r.before) (after : PlatformFileMetadata) :
    (confirmed c x r after).Seen P := by
  rcases confirmed_cases (c := c) (x := x) r after with ⟨f, he⟩ | ⟨-, -, he⟩ <;> rw [he]
  · exact caught_seen _ _ _ f
  · intro a ha
    cases ha
    exact h

theorem accept_seen (job : FileJob) : (accept job).Seen P := by
  cases job with
  | warning w => exact nofun
  | entry e =>
    unfold accept
    dsimp only
    split
    · trivial
    · exact nofun

/-- Only the first look at a file brings new metadata in. -/
theorem Works.seen {objects : Objects} {stop : Bool} {known : Known} {old pc : WorkerPc}
    (hw : Works c x objects stop known old pc) (hold : ∀ t, old ≠ .measuring t) (h : old.Seen P) :
    pc.Seen P := by
  cases hw with
  | starts => trivial
  | begins t => trivial
  | measures t before hs => exact absurd rfl (hold t)
  | opens t before hs => exact h
  | ends r hs => exact h
  | reads r raw hs hne hsize => exact h
  | finds r raw object hs hf => exact appended_seen h raw object
  | misses r raw hs hf => exact h
  | compresses r raw compressed hs hc => exact h
  | fails _ t callback spool f hpc hf => exact caught_seen t callback spool f
  | dies _ e hpc => trivial

/-- What a worker gives, and has in its hands, was seen. -/
structure Worker.Seen (P : PlatformFileMetadata → Prop) (w : Worker) : Prop where
  pc : w.pc.Seen P
  given : ∀ p ∈ w.given, p.Seen P

theorem WorkerMove.seen {i : Nat} (hm : WorkerMove c x s i t)
    (hold : ∀ task, (s.workers i).pc ≠ .measuring task) (h : (s.workers i).Seen P) :
    (t.workers i).Seen P := by
  have hpc := h.pc
  have hgiven := h.given
  cases hm with
  | works pc hw =>
    rw [State.moveWorker, setWorker_same]
    exact ⟨hw.seen hold hpc, hgiven⟩
  | pops job jobs hp hq =>
    rw [setWorker_same]
    exact ⟨accept_seen job, hgiven⟩
  | confirms r after hp =>
    rw [hp] at hpc
    rw [setWorker_same]
    exact ⟨confirmed_seen hpc after, hgiven⟩
  | finishes p hp =>
    rw [hp] at hpc
    rw [setWorker_same]
    refine ⟨trivial, fun q hq => ?_⟩
    rcases List.mem_append.mp hq with hq | hq
    · exact hgiven q hq
    · rw [List.mem_singleton.mp hq]
      exact hpc
  | stores r raw compressed object known objects hp hs =>
    rw [hp] at hpc
    rw [setWorker_same]
    exact ⟨appended_seen hpc raw object, hgiven⟩
  | leaves r raw compressed known e hp hs =>
    rw [State.moveWorker, setWorker_same]
    exact ⟨caught_seen _ _ _ _, hgiven⟩
  | shuts f stage hp =>
    rw [State.moveWorker, setWorker_same, congrFun shut_untouched.workers i]
    refine ⟨?_, hgiven⟩
    rw [goto_pc]
    rcases afterStage_cases WorkerPc.shutting .leaving f stage with he | ⟨stage', he⟩ <;> rw [he] <;>
      trivial
  | counts hp =>
    rw [State.moveWorker, setWorker_same]
    refine ⟨?_, hgiven⟩
    rw [goto_pc]
    split <;> trivial
  | _ =>
    rw [State.moveWorker, setWorker_same]
    exact ⟨trivial, hgiven⟩

theorem stepWorker_seen {i : Nat} {a : Act} (h : stepWorker c x s i a = some t)
    (ha : ∀ m, a = .observes m → P m) (hs : (s.workers i).Seen P) : (t.workers i).Seen P := by
  by_cases hold : ∃ task, (s.workers i).pc = .measuring task
  · obtain ⟨task, hpc⟩ := hold
    have hmoved : ∀ {pc : WorkerPc}, pc.Seen P → s.moveWorker i pc = t → (t.workers i).Seen P := by
      rintro pc hseen rfl
      rw [State.moveWorker, setWorker_same]
      exact ⟨hseen, hs.given⟩
    unfold stepWorker at h
    simp only [hpc] at h
    cases a with
    | observes m =>
      dsimp only at h
      split at h
      · exact hmoved (caught_seen _ _ _ _) (Option.some.inj h)
      · have hseen : (WorkerPc.opening task m).Seen P := ha m rfl
        exact hmoved hseen (Option.some.inj h)
    | raises e =>
      simp only [raisedIn, Option.map_some, Option.some.injEq] at h
      exact hmoved (caught_seen _ _ _ _) h
    | _ => cases h
  · exact (stepWorker_move h).seen (fun task hpc => hold ⟨task, hpc⟩) hs

theorem step_seen {l : Label} (hy : Young s) (hl : l.Sees P) (hstep : step c x s l = some t)
    (hs : ∀ i, (s.workers i).Seen P) (i : Nat) : (t.workers i).Seen P := by
  have hsame : t.workers i = s.workers i → (t.workers i).Seen P := by
    intro he
    rw [he]
    exact hs i
  cases l with
  | scanner a => exact hsame (congrFun (stepScanner_move hstep).frame.workers i)
  | worker j a =>
    simp only [step] at hstep
    split at hstep
    · by_cases hij : i = j
      · subst hij
        refine stepWorker_seen hstep (fun m hm => ?_) (hs i)
        subst hm
        exact hl
      · exact hsame ((stepWorker_move hstep).frame.others i hij)
    · cases hstep
  | writer a => exact hsame (congrFun (stepWriter_move hstep).frame.workers i)
  | main a =>
    rcases (stepMain_move hstep).worker_cases hy i with he | ⟨-, he⟩
    · exact hsame he
    · rw [he]
      exact ⟨trivial, (hs i).given⟩
  | progress a => exact hsame (congrFun (stepProgress_move (c := c) hstep).frame.workers i)
  | canceller => exact hsame (congrFun (stepCanceller_move (c := c) hstep).frame.workers i)
  | requestExternalStop => exact hsame (congrFun (stepRequest_move hstep).frame.workers i)

/-- The metadata of an accepted attempt is metadata that the run has shown. -/
theorem run_seen (hls : ∀ l ∈ ls, l.Sees P) (h : run c x (State.start c v e) ls = some s)
    (hm : s.main.settles = true) : ∀ p ∈ s.handled, p.Seen P := by
  have hall := labelled_invariant (I := fun s => Young s ∧ ∀ i, (s.workers i).Seen P)
    (fun s l t hl hs hstep => ⟨(step_move hstep).young hs.1, step_seen hs.1 hl hstep hs.2⟩) hls
    ⟨young_start, fun _ => ⟨trivial, fun p hp => absurd hp List.not_mem_nil⟩⟩ h
  intro p hp
  have hpos := List.count_pos_iff.mpr hp
  rw [run_given h hm p] at hpos
  obtain ⟨i, -, hcount⟩ : ∃ i < c.workerCount, (s.workers i).given.count p ≠ 0 := by
    by_contra hnone
    push Not at hnone
    rw [pooled_eq_zero.mpr hnone] at hpos
    cases hpos
  exact (hall.2 i).given p (List.count_pos_iff.mp (Nat.pos_of_ne_zero hcount))

/-- A scanner that closes its queue without a failure has seen no error of the scan. -/
theorem run_scanned (h : run c x (State.start c v e) ls = some s) (hm : s.main.settles = true) :
    c.scanError = none := by
  have hall := run_invariant (P := fun s => Orderly c s ∧
    (s.scanner = .closing ∨ s.scanner = .done ∧ ¬ s.failed → c.scanError = none)) ?_ ?_ h
  · have hended := hall.1.ended hm
    exact hall.2 (.inr ⟨hended.scanner, hended.clean.not_failed⟩)
  · rintro s t ⟨ho, hs⟩ hmove
    refine ⟨hmove.orderly ho, fun ht => ?_⟩
    rcases hmove.scanner_cases ho.young with he | hscanner | ⟨-, he⟩
    · rw [he] at ht
      exact hs (ht.imp_right fun hdone => ⟨hdone.1, fun hf => hdone.2 (hmove.failed hf)⟩)
    · cases hscanner with
      | finishes hp he => exact he
      | closes hp => exact hs (.inl hp)
      | shuts f stage hp =>
        rcases ht with hclosing | ⟨-, hopen⟩
        · rcases afterStage_cases ScannerPc.shutting .done f stage with ha | ⟨stage', ha⟩ <;>
            rw [ha] at hclosing <;> cases hclosing
        · exact absurd (ho.sound.scannerReports f stage hp).after hopen
      | _ => rcases ht with ht | ⟨ht, -⟩ <;> cases ht
    · rw [he] at ht
      rcases ht with ht | ⟨ht, -⟩ <;> cases ht
  · exact ⟨orderly_start, by rintro (ht | ⟨ht, -⟩) <;> cases ht⟩

end LocalVault.Snapshot
