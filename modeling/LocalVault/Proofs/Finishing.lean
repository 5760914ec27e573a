import LocalVault.Proofs.Sequence

namespace LocalVault.Snapshot
open Library Repository

variable {c : Config} {x : Externals} {w u v : Observed} {s t : State} {m m' : Emitter}
  {a b : ProgressAggregator} {r r' : Recorder}

/-- What an observed step does to the pipeline is a step of it, or nothing. -/
def Follows (c : Config) (x : Externals) (w u : Observed) : Prop :=
  u.pipeline = w.pipeline ∨ ∃ l, Snapshot.step c x w.pipeline l = some u.pipeline

theorem moves_follows {l : Label} (h : v.moves c x l = some u) (hv : v.pipeline = w.pipeline) :
    Follows c x w u := by
  obtain ⟨t, ht, rfl⟩ := moves_eq h
  exact .inr ⟨l, by rw [← hv]; exact ht⟩

theorem leave_pipeline (w : Observed) (l : Label) : (w.leave l).pipeline = w.pipeline := by
  cases l <;> rfl

theorem scannerRecords_follows {weak : Bool} (h : w.scannerRecords c x weak = some u) :
    Follows c x w u := by
  unfold Observed.scannerRecords at h
  split at h
  · cases h
    exact .inl rfl
  · split at h
    · cases h
      exact .inl rfl
    · exact moves_follows h rfl
    · cases h
  · cases h

theorem workerRecords_follows {i : Nat} {weak : Bool} (h : w.workerRecords c x i weak = some u) :
    Follows c x w u := by
  unfold Observed.workerRecords at h
  split at h
  · split at h
    · cases h
      exact .inl rfl
    · split at h
      · cases h
        exact .inl rfl
      · exact moves_follows h rfl
      · cases h
    · cases h
  · cases h

theorem callerEmits_follows {throws : Option Raised} (h : w.callerEmits c x throws = some u) :
    Follows c x w u := by
  unfold Observed.callerEmits at h
  split at h
  · cases h
    exact .inl rfl
  · obtain ⟨⟨v, m⟩, hm, rfl⟩ := Option.map_eq_some_iff.mp h
    exact .inl (emit_move hm).kept.1
  · obtain ⟨v, hv, ht⟩ := Option.bind_eq_some_iff.mp h
    obtain ⟨d, -, -, rfl⟩ := delivers_eq hv
    unfold Observed.callerThrows at ht
    split at ht
    · cases ht
      exact .inl rfl
    · cases ht
      exact .inl rfl
    · exact moves_follows ht rfl
    · cases ht
  · cases h

theorem runs_follows {throws : Option Raised} (h : w.runs c x throws = some u) :
    Follows c x w u := by
  unfold Observed.runs at h
  split at h
  · unfold Observed.goesOn at h
    split at h
    · split at h
      · cases h
        exact .inl rfl
      · cases h
    · cases h
      exact .inl rfl
    · cases h
      exact .inl rfl
    · obtain ⟨⟨v, m⟩, hm, rfl⟩ := Option.map_eq_some_iff.mp h
      exact .inl (emit_move hm).kept.1
  · obtain ⟨v, hv, ht⟩ := Option.bind_eq_some_iff.mp h
    obtain ⟨d, -, -, rfl⟩ := delivers_eq hv
    exact moves_follows ht rfl
  · cases h

theorem step_follows {turn : Turn} (h : w.step c x turn = some u) : Follows c x w u := by
  cases turn with
  | pipeline l =>
    simp only [Observed.step] at h
    split at h
    · obtain ⟨v, hv, rfl⟩ := Option.map_eq_some_iff.mp h
      rw [Follows, leave_pipeline]
      exact moves_follows hv rfl
    · cases h
  | scannerRecords weak => exact scannerRecords_follows h
  | workerRecords i weak =>
    simp only [Observed.step] at h
    split at h
    · exact workerRecords_follows h
    · cases h
  | marksScanComplete =>
    simp only [Observed.step, Observed.marksScanComplete] at h
    split at h
    · split at h
      · cases h
      · cases h
        exact .inl rfl
    · cases h
  | callerEmits throws => exact callerEmits_follows h
  | runs throws => exact runs_follows h
  | opens =>
    simp only [Observed.step] at h
    split at h
    · cases h
      exact .inl rfl
    · cases h
  | returns =>
    simp only [Observed.step] at h
    split at h
    · cases h
      exact .inl rfl
    · cases h
  | clock now =>
    simp only [Observed.step] at h
    split at h
    · cases h
      exact .inl rfl
    · cases h

theorem run_append {l : Label} {ls : List Label} {r : State} (h : run c x r ls = some s)
    (hl : Snapshot.step c x s l = some t) : run c x r (ls ++ [l]) = some t := by
  induction ls generalizing r with
  | nil =>
    cases h
    exact Option.bind_eq_some_iff.mpr ⟨t, hl, rfl⟩
  | cons l' ls ih =>
    obtain ⟨mid, hmid, hrest⟩ := Option.bind_eq_some_iff.mp h
    exact Option.bind_eq_some_iff.mpr ⟨mid, hmid, ih hrest⟩

/-- What an observed run does to the pipeline is a run of it. -/
theorem Follows.reached {r : State} (hf : Follows c x w u) (h : ∃ ls, run c x r ls = some w.pipeline) :
    ∃ ls, run c x r ls = some u.pipeline := by
  obtain ⟨ls, hrun⟩ := h
  rcases hf with he | ⟨l, hl⟩
  · exact ⟨ls, by rw [he]; exact hrun⟩
  · exact ⟨ls ++ [l], run_append hrun hl⟩

/-- The end of the progress thread, as the calling thread prepares it. -/
structure Finishes (s : State) : Prop where
  finished : s.progressFinished = true → 3 ≤ s.main.joined
  creating : ∀ n, s.main = .creating (n + 1) → s.progress ≠ .waiting
  created : s.writer ≠ .waiting → s.progress ≠ .waiting

theorem finishes_start {v : Vault} {e : Bool} : Finishes (State.start c v e) where
  finished h := by cases h
  creating n h := by cases h
  created h := absurd rfl h

theorem Advances.joined {pc pc' : MainPc} (h : Advances c s pc pc') : pc.joined ≤ pc'.joined := by
  cases h with
  | throws _ f ht =>
    cases pc <;> first | exact Nat.zero_le _ | exact Nat.le_refl _ | cases ht
  | rethrows e he => exact Nat.le_refl 5
  | cancels he => exact Nat.zero_le _
  | fails n e => exact Nat.zero_le _
  | _ => decide

/-- A step that neither creates a thread nor joins the writer. -/
theorem Finishes.same (h : Finishes s) (hf : t.progressFinished = s.progressFinished)
    (hj : s.main.joined ≤ t.main.joined) (hm : ∀ n, t.main ≠ .creating (n + 1))
    (hw : s.writer = .waiting → t.writer = .waiting)
    (hp : s.progress ≠ .waiting → t.progress ≠ .waiting) : Finishes t where
  finished hfinished := (h.finished (hf ▸ hfinished)).trans hj
  creating n hn := absurd hn (hm n)
  created hn := hp (h.created (fun he => hn (hw he)))

/-- A step of another thread. -/
theorem Finishes.moved (h : Finishes s) (hf : t.progressFinished = s.progressFinished)
    (hm : t.main = s.main) (hw : s.writer = .waiting → t.writer = .waiting)
    (hp : s.progress ≠ .waiting → t.progress ≠ .waiting) : Finishes t where
  finished hfinished := by
    rw [hm]
    exact h.finished (hf ▸ hfinished)
  creating n hn := hp (h.creating n (hm ▸ hn))
  created hn := hp (h.created (fun he => hn (hw he)))

theorem Creates.finishes {n : Nat} (hc : Creates c s n t) (hs : s.main = .creating n)
    (h : Finishes s) : Finishes t := by
  have hjoined : s.progressFinished ≠ true := fun hf => by
    have hle := h.finished hf
    rw [hs] at hle
    exact absurd hle (Nat.not_succ_le_zero 2)
  cases hc with
  | progress => exact ⟨fun hf => absurd hf hjoined, fun _ _ => nofun, fun _ => nofun⟩
  | writer =>
    have hp := h.creating 0 hs
    exact ⟨fun hf => absurd hf hjoined, fun _ _ => hp, fun _ => hp⟩
  | worker i hi =>
    have hp := h.creating (i + 1) hs
    exact ⟨fun hf => absurd hf hjoined, fun _ _ => hp, fun _ => hp⟩
  | scanner k hk => exact ⟨fun hf => absurd hf hjoined, nofun, h.created⟩

theorem MainMove.finishes (hm : MainMove c s t) (h : Finishes s) : Finishes t := by
  cases hm with
  | advances pc ha =>
    refine h.same rfl ha.joined (fun n hn => ?_) id id
    dsimp only at hn
    rw [hn] at ha
    generalize s.main = old at ha
    cases ha
  | registers hp => exact h.same rfl (by rw [hp]; exact Nat.le_refl 0) nofun id id
  | cancels f stage hp =>
    have hu : Untouched s (s.shut f stage) := shut_untouched
    refine h.same hu.progressFinished (by rw [hp]; exact Nat.zero_le _) (fun n hn => ?_)
      (fun he => hu.writer.trans he) (fun he => by rw [show _ = s.progress from hu.progress]; exact he)
    rcases afterStage_cases MainPc.cancelling .deciding f stage with he | ⟨next, he⟩ <;>
      rw [he] at hn <;> cases hn
  | creates n hp => exact (create_creates n).finishes hp h
  | shuts f stage hp =>
    have hu : Untouched s (s.shut f stage) := shut_untouched
    refine h.same hu.progressFinished (by rw [hp]; exact Nat.zero_le _) (fun n hn => ?_)
      (fun he => hu.writer.trans he) (fun he => by rw [show _ = s.progress from hu.progress]; exact he)
    rcases afterStage_cases MainPc.shutting .joiningScanner f stage with he | ⟨next, he⟩ <;>
      rw [he] at hn <;> cases hn
  | joinsWriter hp ho => exact ⟨fun _ => Nat.le_refl 3, nofun, h.created⟩
  | unregisters hp ho => exact h.same rfl (by rw [hp]; exact Nat.le_succ 4) nofun id id
  | times now hp => exact h.same rfl (by rw [hp]; exact Nat.le_refl 5) nofun id id
  | publishes now db hp hdb => exact h.same rfl (by rw [hp]; exact Nat.le_refl 5) nofun id id

theorem ScannerMove.finished (h : ScannerMove c s t) : t.progressFinished = s.progressFinished := by
  cases h with
  | shuts f stage => exact shut_untouched.progressFinished
  | _ => rfl

theorem WorkerMove.finished {i : Nat} (h : WorkerMove c x s i t) :
    t.progressFinished = s.progressFinished := by
  cases h with
  | shuts f stage =>
    have hu : Untouched s (s.shut f stage) := shut_untouched
    exact hu.progressFinished
  | _ => rfl

theorem WriterMove.finished (h : WriterMove c s t) : t.progressFinished = s.progressFinished := by
  cases h with
  | shuts f stage => exact shut_untouched.progressFinished
  | _ => rfl

theorem OtherMove.finished (h : OtherMove c s t) : t.progressFinished = s.progressFinished := by
  cases h with
  | progressShuts f stage => exact shut_untouched.progressFinished
  | cancellerShuts f stage => exact shut_untouched.progressFinished
  | _ => rfl

theorem Move.finishes (hm : Move c x s t) (h : Finishes s) : Finishes t := by
  cases hm with
  | scanner hm =>
    have hf := hm.frame
    exact h.moved hm.finished hf.main (fun he => hf.writer.trans he)
      (fun he => by rw [hf.progress]; exact he)
  | worker i hi hm =>
    have hf := hm.frame
    exact h.moved hm.finished hf.main (fun he => hf.writer.trans he)
      (fun he => by rw [hf.progress]; exact he)
  | writer hm =>
    have hf := hm.frame
    exact h.moved hm.finished hf.main (fun he => absurd he hm.awake)
      (fun he => by rw [hf.progress]; exact he)
  | main hm => exact hm.finishes h
  | other hm =>
    have hf := hm.frame
    refine h.moved hm.finished hf.main (fun he => hf.writer.trans he) (fun he => ?_)
    cases hm with
    | progressFails e hp => exact nofun
    | progressEnds hp => exact nofun
    | progressShuts f stage hp =>
      rcases afterStage_cases ProgressPc.shutting .done f stage with hs | ⟨next, hs⟩ <;>
        dsimp only <;> rw [hs] <;> exact nofun
    | cancellerShuts f stage hp =>
      have hu : Untouched s (s.shut f stage) := shut_untouched
      rw [show _ = s.progress from hu.progress]
      exact he
    | _ => exact he

theorem MainMove.finished (h : MainMove c s t) (hf : s.progressFinished = true) :
    t.progressFinished = true := by
  cases h with
  | cancels f stage => exact shut_untouched.progressFinished.trans hf
  | creates n =>
    have hc := create_creates (c := c) (s := s) n
    generalize s.create c n = t at hc
    cases hc <;> exact hf
  | shuts f stage => exact shut_untouched.progressFinished.trans hf
  | joinsWriter => rfl
  | _ => exact hf

theorem Move.finished (h : Move c x s t) (hf : s.progressFinished = true) :
    t.progressFinished = true := by
  cases h with
  | scanner h => exact h.finished.trans hf
  | worker i hi h => exact h.finished.trans hf
  | writer h => exact h.finished.trans hf
  | main h => exact h.finished hf
  | other h => exact h.finished.trans hf

/-- No change stays unseen: the progress thread ends behind the last one. -/
structure Winding (w : Observed) : Prop where
  scanned : w.pipeline.scanner = .done → w.pipeline.failed ∨ w.aggregator.scanComplete = true
  pending : w.aggregator.scanCompletionPending = true → w.aggregator.dirty = true
  ended : w.pipeline.progress = .done → w.pipeline.failed ∨
    w.aggregator.dirty = false ∧ w.pipeline.progressFinished = true

theorem winding_start {v : Vault} {e : Bool} {now : Int} : Winding (.start c v e now) where
  scanned h := by cases h
  pending h := by cases h
  ended h := by cases h

/-- A step of the pipeline. -/
theorem Winding.moved (h : Winding w) (hm : Move c x w.pipeline t)
    (hs : t.scanner = .done → w.pipeline.scanner = .done ∨ t.failed ∨
      w.aggregator.scanComplete = true)
    (hp : t.progress = .done → w.pipeline.progress = .done ∨ t.failed ∨
      w.aggregator.dirty = false ∧ w.pipeline.progressFinished = true) :
    Winding { w with pipeline := t } where
  scanned hdone := by
    rcases hs hdone with hold | hfailed | hcomplete
    · exact (h.scanned hold).imp_left hm.failed
    · exact .inl hfailed
    · exact .inr hcomplete
  pending := h.pending
  ended hdone := by
    rcases hp hdone with hold | hfailed | ⟨hclean, hfinished⟩
    · exact (h.ended hold).imp hm.failed (fun he => ⟨he.1, hm.finished he.2⟩)
    · exact .inl hfailed
    · exact .inr ⟨hclean, hm.finished hfinished⟩

/-- Nothing of the flags changes. -/
theorem Winding.same (h : Winding w) (hp : u.pipeline = w.pipeline)
    (hflags : SameFlags w.aggregator u.aggregator) (hd : u.aggregator.dirty = w.aggregator.dirty) :
    Winding u where
  scanned := by
    rw [hp, hflags.scanComplete]
    exact h.scanned
  pending := by
    rw [hflags.pending, hd]
    exact h.pending
  ended := by
    rw [hp, hd]
    exact h.ended

/-- A thread that still records keeps the progress thread from its end. -/
theorem Winding.recorded (h : Winding w) (hn : w.pipeline.progressFinished ≠ true)
    (hp : u.pipeline = w.pipeline) (hc : w.aggregator.scanComplete = true →
      u.aggregator.scanComplete = true)
    (hpending : u.aggregator.scanCompletionPending = true → u.aggregator.dirty = true) :
    Winding u where
  scanned hdone := by
    rw [hp] at hdone ⊢
    exact (h.scanned hdone).imp_right hc
  pending := hpending
  ended hdone := by
    rw [hp] at hdone ⊢
    exact (h.ended hdone).imp_right (fun he => absurd he.2 hn)

theorem Records.dirty (h : Records a r r' b) : b.dirty = a.dirty ∨ b.dirty = true := by
  cases h with
  | notifies => exact .inr rfl
  | _ => exact .inl rfl

theorem Winding.records {r r' : Recorder} (h : Winding w) (hr : Records w.aggregator r r' b)
    (hn : w.pipeline.progressFinished ≠ true) (hp : u.pipeline = w.pipeline)
    (hb : u.aggregator = b) : Winding u := by
  refine h.recorded hn hp (fun hc => ?_) (fun hpending => ?_)
  · rw [hb, hr.flags.scanComplete]
    exact hc
  · rw [hb] at hpending ⊢
    rcases hr.dirty with hd | hd
    · rw [hd]
      exact h.pending (hr.flags.pending ▸ hpending)
    · exact hd

theorem EmitMove.dirty (h : EmitMove w m u m') : u.aggregator.dirty = w.aggregator.dirty := by
  cases h <;> rfl

/-- The scanner ends behind its mark, or a failure. -/
theorem ScannerMove.done (hm : ScannerMove c s t) (ho : Orderly c s) (ht : t.scanner = .done) :
    s.scanner = .closing ∨ t.failed := by
  cases hm with
  | closes hp => exact .inl hp
  | shuts f stage hp => exact .inr (ho.sound.scannerReports f stage hp).after
  | _ => cases ht

theorem MainMove.scanner_done (hm : MainMove c s t) (ht : t.scanner = .done) : s.scanner = .done := by
  cases hm with
  | cancels f stage hp => exact shut_untouched.scanner.symm.trans ht
  | creates n hp =>
    have hc := create_creates (c := c) (s := s) n
    generalize s.create c n = u at hc ht
    cases hc with
    | scanner k hk => cases ht
    | _ => exact ht
  | shuts f stage hp => exact shut_untouched.scanner.symm.trans ht
  | _ => exact ht

theorem MainMove.progress_done (hm : MainMove c s t) (ht : t.progress = .done) :
    s.progress = .done := by
  cases hm with
  | cancels f stage hp => exact shut_untouched.progress.symm.trans ht
  | creates n hp =>
    have hc := create_creates (c := c) (s := s) n
    generalize s.create c n = u at hc ht
    cases hc with
    | progress => cases ht
    | _ => exact ht
  | shuts f stage hp => exact shut_untouched.progress.symm.trans ht
  | _ => exact ht

/-- The progress thread ends at its call of the pipeline, or behind a failure. -/
theorem OtherMove.progress_done (hm : OtherMove c s t) (ho : Orderly c s)
    (ht : t.progress = .done) : s.progress = .done ∨ s.progress = .running ∨ t.failed := by
  cases hm with
  | progressFails e hp => cases ht
  | progressEnds hp => exact .inr (.inl hp)
  | progressShuts f stage hp => exact .inr (.inr (ho.sound.progressReports f stage hp).after)
  | cancellerShuts f stage hp => exact .inl (shut_untouched.progress.symm.trans ht)
  | _ => exact .inl ht

theorem Finishes.scanning (h : Finishes s) (ho : Orderly c s) (hs : s.scanner.over = false) :
    s.progressFinished ≠ true := by
  intro hf
  have hover := ho.standing.scanner (le_trans (by decide) (h.finished hf))
  rw [hover] at hs
  cases hs

theorem Finishes.working (h : Finishes s) (ho : Orderly c s) {i : Nat} (hi : i < c.workerCount)
    (hs : (s.workers i).pc.over = false) : s.progressFinished ≠ true := by
  intro hf
  have hover := ho.standing.workers (le_trans (by decide) (h.finished hf)) i hi
  rw [hover] at hs
  cases hs

theorem Happens.winding (hp : Placed c w) (hf : Finishes w.pipeline) (h : Winding w)
    (hm : Happens c x w u) : Winding u := by
  have ho := hp.orderly
  cases hm with
  | @scanner t hm settled recorded closing =>
    have hmoved : Winding { w with pipeline := t } :=
      h.moved (x := x) (.scanner hm) (fun ht => .inr ((hm.done ho ht).symm.imp_right closing))
        (fun ht => .inl (hm.frame.progress.symm.trans ht))
    exact hmoved.same rfl ⟨rfl, rfl, rfl⟩ rfl
  | @worker t i hi hm =>
    have hmoved : Winding { w with pipeline := t } :=
      h.moved (.worker i hi hm) (fun ht => .inl (hm.frame.scanner.symm.trans ht))
        (fun ht => .inl (hm.frame.progress.symm.trans ht))
    exact hmoved.same rfl ⟨rfl, rfl, rfl⟩ rfl
  | @writer t hm =>
    exact h.moved (x := x) (.writer hm) (fun ht => .inl (hm.frame.scanner.symm.trans ht))
      (fun ht => .inl (hm.frame.progress.symm.trans ht))
  | @main t hm hc hover =>
    have hmoved : Winding { w with pipeline := t } :=
      h.moved (x := x) (.main hm) (fun ht => .inl (hm.scanner_done ht))
        (fun ht => .inl (hm.progress_done ht))
    exact hmoved.same rfl ⟨rfl, rfl, rfl⟩ rfl
  | @other t hm ends =>
    refine h.moved (x := x) (.other hm) (fun ht => .inl (hm.frame.scanner.symm.trans ht))
      (fun ht => ?_)
    rcases hm.progress_done ho ht with hdone | hrunning | hfailed
    · exact .inl hdone
    · rcases (ends hrunning (by rw [ht]; exact nofun)).2 with hcancelled | ⟨hfinished, hclean⟩
      · exact .inr (.inl (Move.failed (x := x) (.other hm) (ho.sound.cancelled hcancelled)))
      · exact .inr (.inr ⟨hclean, hfinished⟩)
    · exact .inr (.inl hfailed)
  | discovers e rest r b hpc hr =>
    exact h.records hr (hf.scanning ho (by rw [hpc]; rfl)) rfl rfl
  | @scannerOverflows t e rest f hpc hm hr ht =>
    refine h.moved (x := x) (.scanner hm) (fun hdone => ?_)
      (fun ht => .inl (hm.frame.progress.symm.trans ht))
    rw [ht] at hdone
    cases hdone
  | processes i p e r b hi hpc hv hr =>
    exact h.records hr (hf.working ho hi (by rw [hpc]; rfl)) rfl rfl
  | @workerOverflows t i p e f hi hpc hv hm =>
    exact h.moved (.worker i hi hm) (fun ht => .inl (hm.frame.scanner.symm.trans ht))
      (fun ht => .inl (hm.frame.progress.symm.trans ht))
  | marks hpc hn =>
    exact h.recorded (hf.scanning ho (by rw [hpc]; rfl)) rfl (fun _ => rfl) (fun _ => rfl)
  | callerEmits n m hd hm => exact h.same hm.kept.1 hm.flags.1 hm.dirty
  | @callerThrows t n d hd hc hn hm running ht =>
    have hmoved : Winding { w with pipeline := t } :=
      h.moved (x := x) (.main hm) (fun ht => .inl (hm.scanner_done ht))
        (fun ht => .inl (hm.progress_done ht))
    exact hmoved.same rfl ⟨rfl, rfl, rfl⟩ rfl
  | consumes hpc hr hd hc =>
    refine ⟨h.scanned, nofun, fun hdone => ?_⟩
    rw [hpc] at hdone
    cases hdone
  | resumes sets hpc hr he => exact ⟨h.scanned, h.pending, h.ended⟩
  | runnerEmits sets m hpc hr hm => exact h.same hm.kept.1 hm.flags.1 hm.dirty
  | @runnerThrows t d hpc he hn hm ht =>
    obtain ⟨f, hshutting⟩ := ht
    have hmoved : Winding { w with pipeline := t } :=
      h.moved (x := x) (.other hm) (fun ht => .inl (hm.frame.scanner.symm.trans ht))
        (fun hdone => by rw [hshutting] at hdone; cases hdone)
    exact hmoved.same rfl ⟨rfl, rfl, rfl⟩ rfl
  | _ => exact h.same rfl ⟨rfl, rfl, rfl⟩ rfl

end LocalVault.Snapshot
