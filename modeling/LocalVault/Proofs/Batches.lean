import LocalVault.Proofs.Errors

namespace LocalVault.Snapshot
open Library Repository

variable {c : Config} {x : Externals} {s t : State} {v : Vault}

/-- Where the writer may still add a record to its batch. -/
def WriterPc.fills : WriterPc → Bool
  | .committing _ => false
  | _ => true

/-- The counters of the open batch have room. -/
structure BatchRoom (c : Config) (s : State) : Prop where
  bytes : ∀ b, s.batch = some b → b.logicalBytes ≤ maximumByteCount
  records : ∀ b, s.batch = some b → b.recordCount ≤ max 1 c.metadataBatchEntryLimit
  fills : ∀ b, s.batch = some b → s.writer.fills = true →
    b.recordCount < max 1 c.metadataBatchEntryLimit
  item : ∀ p id rest, s.writer = .referring p id rest → ∀ e, p.value = .entry e →
    e.logicalSize ≤ maximumByteCount

namespace BatchRoom

theorem same (h : BatchRoom c s) (hbatch : t.batch = s.batch) (hwriter : t.writer = s.writer) :
    BatchRoom c t := by
  refine ⟨?_, ?_, ?_, ?_⟩
  · rw [hbatch]
    exact h.bytes
  · rw [hbatch]
    exact h.records
  · rw [hbatch, hwriter]
    exact h.fills
  · rw [hwriter]
    exact h.item

/-- The writer goes elsewhere and takes its batch along. -/
theorem moved (h : BatchRoom c s) (hbatch : t.batch = s.batch) (hfills : s.writer.fills = true)
    (hwriter : ∀ p id rest, t.writer ≠ .referring p id rest) : BatchRoom c t := by
  refine ⟨?_, ?_, ?_, fun p id rest hp => absurd hp (hwriter p id rest)⟩
  · rw [hbatch]
    exact h.bytes
  · rw [hbatch]
    exact h.records
  · rw [hbatch]
    exact fun b hb _ => h.fills b hb hfills

/-- Without an open batch there is nothing to count. -/
theorem closed (hbatch : t.batch = none) (hwriter : ∀ p id rest, t.writer ≠ .referring p id rest) :
    BatchRoom c t := by
  refine ⟨?_, ?_, ?_, fun p id rest hp => absurd hp (hwriter p id rest)⟩
  all_goals
    intro b hb
    rw [hbatch] at hb
    cases hb

/-- A batch that has just been opened. -/
theorem opened (hbatch : ∃ db, t.batch = some ⟨db, 0, 0, false⟩)
    (hwriter : ∀ p id rest, t.writer ≠ .referring p id rest) : BatchRoom c t := by
  obtain ⟨db, hbatch⟩ := hbatch
  refine ⟨?_, ?_, ?_, fun p id rest hp => absurd hp (hwriter p id rest)⟩
  all_goals
    intro b hb
    rw [hbatch] at hb
    cases hb
  · exact Nat.zero_le _
  · exact Nat.zero_le _
  · exact fun _ => Nat.lt_of_lt_of_le Nat.zero_lt_one (Nat.le_max_left _ _)

/-- The batch keeps its counters, and the writer goes on filling it. -/
theorem keeps (h : BatchRoom c s) {b : Batch} {db : Database} (hb : s.batch = some b)
    (hfills : s.writer.fills = true) (hbatch : t.batch = some { b with db })
    (hitem : ∀ p id rest, t.writer = .referring p id rest → ∀ e, p.value = .entry e →
      e.logicalSize ≤ maximumByteCount) : BatchRoom c t := by
  refine ⟨?_, ?_, ?_, hitem⟩
  all_goals
    intro b' hb'
    rw [hbatch] at hb'
    cases hb'
  · exact h.bytes b hb
  · exact h.records b hb
  · exact fun _ => h.fills b hb hfills

theorem recorded (h : BatchRoom c s) {b : Batch} {bytes : Nat} (hb : s.batch = some b)
    (hfills : s.writer.fills = true) (hbytes : bytes ≤ maximumByteCount) (u : State)
    (db : Database) (p : ProcessedEntry) : BatchRoom c (u.recorded c b db bytes p) := by
  have hroom := h.fills b hb hfills
  refine ⟨?_, ?_, ?_, ?_⟩
  · intro b' hb'
    cases hb'
    exact hbytes
  · intro b' hb'
    cases hb'
    exact hroom
  · intro b' hb' hfull
    cases hb'
    unfold State.recorded at hfull
    simp only at hfull ⊢
    split at hfull
    · cases hfull
    · omega
  · intro q id rest hq
    unfold State.recorded at hq
    simp only at hq
    split at hq <;> cases hq

theorem fails (u : State) (f : Failure) : BatchRoom c (u.writerFails f) :=
  closed rfl (fun _ _ _ => nofun)

theorem recordedEntry (h : BatchRoom c s) {b : Batch} {size : Nat} (hb : s.batch = some b)
    (hfills : s.writer.fills = true) (hsize : size ≤ maximumByteCount) (u : State) (db : Database)
    (p : ProcessedEntry) : BatchRoom c (u.recordedEntry c b db size p) := by
  unfold State.recordedEntry
  split
  · exact fails _ _
  · rename_i bytes hbytes
    exact h.recorded hb hfills (addBytes_max hsize hbytes) u db p

end BatchRoom

theorem stepWriter_batch {a : Act} (h : stepWriter c s a = some t) (hr : BatchRoom c s) :
    BatchRoom c t := by
  unfold stepWriter at h
  split at h
  · cases h
    exact .opened ⟨_, rfl⟩ (fun _ _ _ => nofun)
  · cases h
    exact .fails _ _
  · rename_i b hpc hb
    split at h
    · cases h
      exact hr.moved rfl (by rw [hpc]; rfl) (fun _ _ _ => nofun)
    · cases h
      exact hr.moved rfl (by rw [hpc]; rfl) (fun _ _ _ => nofun)
    · cases h
  · rename_i p b hpc hb
    have hfills : s.writer.fills = true := by rw [hpc]; rfl
    split at h
    · split at h
      · cases h
        exact .fails _ _
      · cases h
        exact hr.recorded hb hfills (hr.bytes b hb) _ _ _
    · split at h
      · cases h
        exact .fails _ _
      · split at h
        · cases h
          exact .fails _ _
        · rename_i e hv _ _ entryId db hdb
          cases h
          have hsize : e.logicalSize ≤ maximumByteCount :=
            (insertEntry_returns hdb).1.trans (by decide)
          unfold State.inserted
          simp only
          split
          · exact hr.recordedEntry hb hfills hsize _ _ _
          · split
            · exact .fails _ _
            · split
              · exact .fails _ _
              · refine hr.keeps hb hfills rfl ?_
                intro q id rest hq e' he'
                cases hq
                cases hv.symm.trans he'
                exact hsize
  · rename_i p entryId ref rest b now hpc hb
    split at h
    · cases h
      exact .fails _ _
    · split at h
      · cases h
        exact .fails _ _
      · split at h
        · cases h
          exact .fails _ _
        · cases h
          refine hr.keeps hb (by rw [hpc]; rfl) rfl ?_
          intro q id rest hq
          cases hq
          exact hr.item _ _ _ hpc
  · rename_i p entryId b hpc hb
    split at h
    · cases h
      exact .fails _ _
    · cases h
      refine hr.recordedEntry hb (by rw [hpc]; rfl) ?_ _ _ _
      split
      · exact hr.item _ _ _ hpc _ ‹_›
      · exact Nat.zero_le _
  · rename_i last b hpc hb
    cases last with
    | false =>
      simp only [Bool.false_eq_true, ↓reduceIte] at h
      split at h
      · cases h
        exact .opened ⟨_, rfl⟩ (fun _ _ _ => nofun)
      · split at h
        · cases h
          exact .fails _ _
        · cases h
          exact .opened ⟨_, rfl⟩ (fun _ _ _ => nofun)
    | true =>
      simp only [↓reduceIte] at h
      split at h
      · cases h
        exact .closed rfl (fun _ _ _ => nofun)
      · split at h
        · cases h
          exact .fails _ _
        · cases h
          exact .closed rfl (fun _ _ _ => nofun)
  · split at h
    · cases h
    · cases h
      exact .fails _ _
  · rename_i b hpc hb
    split at h
    · cases h
      exact .closed rfl (fun _ _ _ => nofun)
    · cases h
      exact hr.moved rfl (by rw [hpc]; rfl) (fun _ _ _ => nofun)
  · cases h
    exact .fails _ _
  · cases h
    exact .fails _ _
  · cases h
    exact .fails _ _
  · cases h
    exact .fails _ _
  · rename_i f stage hpc
    cases h
    refine hr.moved shut_untouched.batch (by rw [hpc]; rfl) ?_
    intro p id rest hp
    rcases afterStage_cases WriterPc.shutting .done f stage with he | ⟨stage', he⟩ <;>
      · change afterStage WriterPc.shutting .done f stage = _ at hp
        rw [he] at hp
        cases hp
  · cases h

theorem MainMove.batch (hm : MainMove c s t) (hy : Young s) (h : BatchRoom c s) : BatchRoom c t := by
  cases hm with
  | cancels f stage hp => exact h.same shut_untouched.batch shut_untouched.writer
  | shuts f stage hp => exact h.same shut_untouched.batch shut_untouched.writer
  | creates n hp =>
    have hu := hy n (by rw [hp]; rfl)
    have hcreates := create_creates (c := c) (s := s) n
    generalize s.create c n = u at hcreates
    cases hcreates with
    | writer =>
      exact h.moved rfl (by rw [hu.writer (Nat.le_refl 1)]; rfl) (fun _ _ _ => nofun)
    | _ => exact h.same rfl rfl
  | _ => exact h.same rfl rfl

/-- Only the writer counts. -/
theorem step_batch {l : Label} (hy : Young s) (h : step c x s l = some t) (hs : BatchRoom c s) :
    BatchRoom c t := by
  cases l with
  | writer a => exact stepWriter_batch h hs
  | scanner a =>
    have hm := stepScanner_move h
    exact hs.same hm.frame.batch hm.frame.writer
  | worker i a =>
    simp only [step] at h
    split at h
    · have hm := stepWorker_move h
      exact hs.same hm.frame.batch hm.frame.writer
    · cases h
  | main a => exact (stepMain_move h).batch hy hs
  | progress a =>
    simp only [step, stepProgress] at h
    split at h
    · cases h
      exact hs.same rfl rfl
    · split at h
      · cases h
        exact hs.same rfl rfl
      · cases h
    · cases h
      exact hs.same shut_untouched.batch shut_untouched.writer
    · cases h
  | canceller =>
    simp only [step, stepCanceller] at h
    split at h
    · cases h
      exact hs.same shut_untouched.batch shut_untouched.writer
    · cases h
  | requestExternalStop =>
    simp only [step, stepRequest] at h
    split at h
    · cases h
    · split at h
      · cases h
        exact hs.same rfl rfl
      · cases h
        exact hs.same rfl rfl

/-- In no state that a run reaches has a counter of the open batch overflowed. -/
theorem run_batch {e : Bool} {ls : List Label} (h : run c x (State.start c v e) ls = some s) :
    BatchRoom c s := by
  suffices hall : ∀ ls s, Young s → BatchRoom c s → ∀ t, run c x s ls = some t → BatchRoom c t from
    hall ls _ young_start (.closed rfl (fun _ _ _ => nofun)) s h
  intro ls
  induction ls with
  | nil =>
    intro s _ hs t ht
    cases ht
    exact hs
  | cons l ls ih =>
    intro s hy hs t ht
    obtain ⟨u, hu, ht⟩ := Option.bind_eq_some_iff.mp ht
    exact ih u ((step_move hu).young hy) (step_batch hy hu hs) t ht

end LocalVault.Snapshot
