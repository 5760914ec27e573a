import LocalVault.Proofs.Accounting
import LocalVault.Proofs.Finishing

namespace LocalVault.Snapshot
open Library Repository

variable {c : Config} {x : Externals} {w u : Observed} {s t : State} {v : Vault} {e : Bool}
  {now : Int} {turns : List Turn}

def Delivery.required (d : Delivery) : Bool := d.occasion.required

/-- The first event is a required one. -/
structure Introduced (w : Observed) : Prop where
  delivered : ∀ first rest, w.delivered = first :: rest → first.required = true
  flight : ∀ n, w.speaker.notice = some n → n.occasion.required = true ∨ w.delivered ≠ []

/-- What a call of `create_snapshot` keeps. -/
structure Observes (c : Config) (x : Externals) (v : Vault) (e : Bool) (w : Observed) : Prop where
  reached : ∃ ls, run c x (State.start c v e) ls = some w.pipeline
  placed : Placed c w
  once : Once w
  throttled : Throttled w
  answered : Answered w
  timed : Timed w
  sequenced : Sequenced w
  winding : Winding w
  opened : Introduced w

theorem Observes.finishes (h : Observes c x v e w) : Finishes w.pipeline := by
  obtain ⟨ls, hrun⟩ := h.reached
  exact run_invariant (P := Finishes) (fun _ _ hs hm => hm.finishes hs) finishes_start hrun

/-- A required call that is through has ended with the callback. -/
theorem Observes.delivers (h : Observes c x v e w) {o : Occasion} (hr : o.required = true)
    (ha : o ∈ w.asked) (hs : w.speaker.occasions.count o = 0) :
    o ∈ w.delivered.map Delivery.occasion := by
  have hcount := h.answered o
  have hnone : (w.suppressed.map Notice.occasion).count o = 0 := by
    refine List.count_eq_zero.mpr fun hmem => ?_
    obtain ⟨n, hn, rfl⟩ := List.mem_map.mp hmem
    rw [h.throttled.suppressed n hn] at hr
    cases hr
  have hpos := List.count_pos_iff.mpr ha
  exact List.count_pos_iff.mp (by omega)

/-- While the progress thread runs, the first event is behind the calling thread. -/
theorem Observes.begun (h : Observes c x v e w) (hp : w.pipeline.progress = .running)
    (hs : w.speaker = .idle) : w.delivered ≠ [] := by
  obtain ⟨hcourse, hstage, hcaller, -⟩ := h.placed.between hp
  have hmain : w.pipeline.main.stage = 3 := by
    unfold Observed.stage at hstage
    rw [hcourse, hcaller] at hstage
    exact hstage
  have hasked : .preparing ∈ w.asked := by
    refine h.once.passed (fun f hf => ?_) (by rw [hcourse]; exact nofun) .preparing 0 rfl
      (by rw [hstage]; decide)
    rw [hf] at hmain
    cases hmain
  have hmem := h.delivers rfl hasked (by rw [hs]; rfl)
  intro hnil
  rw [hnil] at hmem
  cases hmem

theorem Introduced.same (h : Introduced w) (hd : u.delivered = w.delivered)
    (hf : ∀ n, u.speaker.notice = some n → n.occasion.required = true ∨ w.delivered ≠ []) :
    Introduced u where
  delivered := by
    rw [hd]
    exact h.delivered
  flight n hn := by
    rw [hd]
    exact hf n hn

theorem Observes.opens (h : Observes c x v e w) (hm : Happens c x w u) : Introduced u := by
  have hold := h.opened
  cases hm.speaks h.placed with
  | quiet silent speaker =>
    refine hold.same silent.delivered fun n hn => ?_
    rcases speaker with hs | ⟨-, hu⟩
    · exact hold.flight n (hs ▸ hn)
    · rw [hu] at hn
      cases hn
  | asks n may idle silent speaker stage =>
    refine hold.same silent.delivered fun n' hn => ?_
    rw [speaker] at hn
    cases hn
    rcases may with ⟨hd, -⟩ | ⟨hp, -⟩
    · exact .inl (due_stage hd).2.2
    · exact .inr (h.begun hp idle)
  | lets n asked silent speaker =>
    refine hold.same silent.delivered fun n' hn => hold.flight n' ?_
    rw [speaker] at hn
    rwa [asked]
  | suppresses n asked silent speaker =>
    refine hold.same silent.delivered fun n' hn => ?_
    rw [speaker] at hn
    cases hn
  | drafts d d' building next silent speaker =>
    refine hold.same silent.delivered fun n' hn => hold.flight n' ?_
    rw [speaker] at hn
    rw [building, ← hn]
    exact congrArg some (next_kept next).1.symm
  | delivers d building done silent speaker =>
    have hnone : u.speaker.notice = none := by
      rcases speaker with hs | hs <;> rw [hs] <;> rfl
    refine ⟨fun first rest hcons => ?_, fun n hn => ?_⟩
    · rw [silent.delivered] at hcons
      rcases List.append_eq_cons_iff.mp hcons with ⟨hnil, hone⟩ | ⟨rest', hfirst, -⟩
      · obtain ⟨rfl, -⟩ := List.cons.inj hone
        exact (hold.flight d.notice (by rw [building]; rfl)).resolve_right (fun hn => hn hnil)
      · exact hold.delivered first rest' hfirst
    · rw [hnone] at hn
      cases hn

theorem observes_start : Observes c x v e (.start c v e now) :=
  ⟨⟨[], rfl⟩, placed_start, once_start, throttled_start, fun _ => rfl, timed_start,
    sequenced_start, winding_start, ⟨nofun, nofun⟩⟩

theorem Observes.step {turn : Turn} (h : Observes c x v e w) (hstep : w.step c x turn = some u) :
    Observes c x v e u := by
  have hm := step_happens hstep
  exact ⟨(step_follows hstep).reached h.reached, hm.placed h.placed, hm.once h.placed h.once,
    hm.throttled h.placed h.once h.throttled, (hm.speaks h.placed).answered h.answered,
    (hm.speaks h.placed).timed h.timed, hm.sequenced h.placed h.sequenced,
    hm.winding h.placed h.finishes h.winding, h.opens hm⟩

theorem run_observes (h : (Observed.start c v e now).run c x turns = some w) :
    Observes c x v e w :=
  observed_invariant (fun _ _ _ hw hstep => hw.step hstep) observes_start h

/-- What the start of a call has and everything that happens in it keeps holds throughout. -/
theorem observes_invariant {P : Observed → Prop}
    (hstep : ∀ w u, Observes c x v e w → P w → Happens c x w u → P u)
    (hstart : P (.start c v e now)) (h : (Observed.start c v e now).run c x turns = some w) : P w :=
  (observed_invariant (P := fun w => Observes c x v e w ∧ P w)
    (fun _ _ _ hw hs => ⟨hw.1.step hs, hstep _ _ hw.1 hw.2 (step_happens hs)⟩)
    ⟨observes_start, hstart⟩ h).2

/-- The events of any second are few. -/
theorem Observes.few (h : Observes c x v e w) (start : Int) :
    (within Delivery.time second start w.delivered).length ≤ 10 := by
  have hrequired := h.throttled.required
  have hasked := h.once.few
  have hmap : ∀ p : Emission → Bool,
      ((w.delivered.map (fun d => d.draft.emission)).filter p).length ≤ (w.emitted.filter p).length := by
    intro p
    rw [h.timed.emitted, List.filter_append, List.length_append]
    exact Nat.le_add_right _ _
  refine within_kinds Delivery.required (n := 6) (k := 4) h.timed.spaced
    (fun d hd => (h.timed.read d hd).1) h.opened.delivered ?_ ?_
  · have hle := hmap Emission.required
    rw [List.filter_map, List.length_map] at hle
    change (w.delivered.filter (Emission.required ∘ fun d => d.draft.emission)).length ≤ 6
    omega
  · have hordinary : within Emission.time second start
        ((w.delivered.map (fun d => d.draft.emission)).filter Emission.ordinary) =
          (within (fun d => d.draft.time) second start
            (w.delivered.filter (fun d => !d.required))).map (fun d => d.draft.emission) := by
      rw [List.filter_map, within_map]
      rfl
    have hle := h.throttled.ordinaryWindow start
    rw [h.timed.emitted, List.filter_append, within_append, List.length_append, hordinary,
      List.length_map] at hle
    exact (Nat.le_add_right _ _).trans hle

/-- A successful call has reported the end of the scan. -/
theorem Observes.completion (h : Observes c x v e w) (hm : w.pipeline.main.settles = true) :
    .scanCompletion ∈ w.asked := by
  have ho := h.placed.orderly
  have hended := ho.ended hm
  have hf := h.finishes
  have hfailed := hended.clean.not_failed
  have hdone : w.pipeline.progress = .done := by
    have hover := (ho.standing.alone (settles_joined hm)).progress
    have hcreated := hf.created (by simp [hended.writer])
    revert hover hcreated
    cases w.pipeline.progress <;> simp [ProgressPc.over]
  have hcomplete := (h.winding.scanned hended.scanner).resolve_left hfailed
  obtain ⟨hclean, -⟩ := (h.winding.ended hdone).resolve_left hfailed
  rcases h.once.completes hcomplete with hpending | ⟨path, hconsumed⟩ | hasked
  · rw [h.winding.pending hpending] at hclean
    cases hclean
  · have hrunning := h.placed.runner (by simp [hconsumed])
    rw [hdone] at hrunning
    cases hrunning
  · exact hasked

/-- The snapshot is published: its row is complete. -/
structure Published (c : Config) (s : State) : Prop where
  main : s.main = .published
  row : ∃ row ∈ s.vault.db.snapshots, row.id = c.snapshotId ∧ row.status = .complete

theorem completed_row {db db' : Database} {id : SnapshotId} {totals : SnapshotTotals}
    (h : markSnapshotComplete id totals now db = (.ok (), db')) :
    ∃ row ∈ db'.snapshots, row.id = id ∧ row.status = .complete := by
  obtain ⟨hone, rfl, -⟩ := markSnapshotComplete_returns h
  obtain ⟨row, hrow⟩ := List.length_eq_one_iff.mp hone
  obtain ⟨hmem, hselected⟩ := List.mem_filter.mp (hrow ▸ List.mem_singleton.mpr rfl)
  refine ⟨_, List.mem_map.mpr ⟨row, hmem, if_pos hselected⟩, ?_, rfl⟩
  simp only [Bool.and_eq_true, beq_iff_eq] at hselected
  exact hselected.1.1

theorem Observes.published (h : Observes c x v e w) (hm : w.pipeline.main = .published) :
    Published c w.pipeline := by
  obtain ⟨ls, hrun⟩ := h.reached
  obtain ⟨db, now, -, hcomplete⟩ := run_published hrun hm
  exact ⟨hm, completed_row hcomplete⟩

theorem Observes.asked_once (h : Observes c x v e w) {o : Occasion} (hr : o.required = true)
    (ha : o ∈ w.asked) : w.asked.count o = 1 := by
  have hle := List.nodup_iff_count_le_one.mp h.once.nodup o
  rw [List.count_filter hr] at hle
  exact Nat.le_antisymm hle (List.count_pos_iff.mpr ha)

/-- A call that has returned has asked for every event it has to report. -/
theorem Observes.asked_returned (h : Observes c x v e w) (hc : w.course = .returned) {o : Occasion}
    (ho : o ∈ [Occasion.preparing, .scanning, .scanCompletion, .finalizing, .complete]) :
    o ∈ w.asked := by
  have hmain := h.placed.returned hc
  have hpassed : ∀ o k, o.place = some k → o ∈ w.asked := fun o k hk =>
    h.once.passed (fun f => by rw [hmain]; exact nofun) (by rw [hc]; exact nofun) o k hk (by
      have hle := (place_le hk).1
      unfold Observed.stage
      rw [hc]
      dsimp only
      omega)
  simp only [List.mem_cons, List.not_mem_nil, or_false] at ho
  rcases ho with rfl | rfl | rfl | rfl | rfl
  · exact hpassed _ 0 rfl
  · exact hpassed _ 1 rfl
  · exact h.completion (by rw [hmain]; rfl)
  · exact hpassed _ 3 rfl
  · exact hpassed _ 4 rfl

/-- Nobody speaks in a call that has returned. -/
theorem Observes.silent_returned (h : Observes c x v e w) (hc : w.course = .returned) :
    w.speaker.notice = none := by
  have hemitter : w.emitter = .idle := by
    by_contra hbusy
    obtain ⟨sets, hr⟩ := h.placed.emitter hbusy
    have hbetween := h.placed.between (h.placed.runner (by rw [hr]; exact nofun))
    rw [hbetween.running] at hc
    cases hc
  rw [speaker_caller hemitter]
  cases hn : w.caller.notice with
  | none => rfl
  | some n =>
    have hdue := h.placed.notice n hn
    simp [Observed.due, hc] at hdue

/-- What the events of a call are, to whoever is called back. -/
structure Reports (c : Config) (w : Observed) : Prop where
  bounded : ∀ start, (within Delivery.time second start w.delivered).length ≤ 10
  suppressed : ∀ n ∈ w.suppressed, n.occasion.required = false
  answered : ∀ o, o.required = true → w.asked.count o =
    (w.delivered.map Delivery.occasion).count o + w.speaker.occasions.count o
  fits : ∀ d ∈ w.delivered, d.draft.notice.fits
  sorted : w.delivered.Pairwise (fun d e => d.draft.event.phase.rank ≤ e.draft.event.phase.rank)
  complete : ∀ n, w.speaker.notice = some n ∨ (∃ d ∈ w.delivered, d.draft.notice = n) →
    n.phase = .complete → Published c w.pipeline
  failed : w.course = .thrown ∨ (∃ f, w.pipeline.main = .failing f) →
    ∀ d ∈ w.delivered, d.draft.event.phase ≠ .complete
  returned : w.course = .returned →
    ∀ o ∈ [Occasion.preparing, .scanning, .scanCompletion, .finalizing, .complete],
      (w.delivered.map Delivery.occasion).count o = 1

/-- The window holds back ordinary events only, so that a call reports each of its phases, in
their order, and the last one behind the published row. -/
theorem run_reports (h : (Observed.start c v e now).run c x turns = some w) : Reports c w := by
  have ho := run_observes h
  have hcomplete : ∀ n, w.speaker.notice = some n ∨ (∃ d ∈ w.delivered, d.draft.notice = n) →
      n.phase = .complete → Published c w.pipeline := by
    intro n hn hphase
    rcases hn with hn | ⟨d, hd, rfl⟩
    · exact ho.published ((ho.sequenced.flight n hn).1.complete hphase)
    · exact ho.published ((ho.sequenced.delivered d hd).complete hphase)
  have hanswered : ∀ o, o.required = true → w.asked.count o =
      (w.delivered.map Delivery.occasion).count o + w.speaker.occasions.count o := by
    intro o hr
    have hcount := ho.answered o
    have hnone : (w.suppressed.map Notice.occasion).count o = 0 := by
      refine List.count_eq_zero.mpr fun hmem => ?_
      obtain ⟨n, hn, rfl⟩ := List.mem_map.mp hmem
      rw [ho.throttled.suppressed n hn] at hr
      cases hr
    omega
  refine ⟨ho.few, ho.throttled.suppressed, hanswered, fun d hd => (ho.sequenced.delivered d hd).fits,
    ho.sequenced.sorted, hcomplete, fun hfails d hd hphase => ?_, fun hreturned o hmem => ?_⟩
  · have hmain := (hcomplete d.draft.notice (.inr ⟨d, hd, rfl⟩) hphase).main
    rcases hfails with hthrown | ⟨f, hf⟩
    · rw [ho.placed.opening (.inr hthrown)] at hmain
      cases hmain
    · rw [hf] at hmain
      cases hmain
  · have hr : o.required = true := by
      revert hmem
      cases o <;> simp [Occasion.required]
    have hone := ho.asked_once hr (ho.asked_returned hreturned hmem)
    have hcount := hanswered o hr
    rw [hone, Emitter.occasions, ho.silent_returned hreturned] at hcount
    exact hcount.symm

def sampleDirectory : ScannedEntry :=
  { sampleEntry with type := .directory, logicalSize := 0, posixMode := 0o40755 }

def directoryConfig : Config := { sampleConfig with scan := [.entry sampleDirectory] }

def pendingVault : Vault :=
  ⟨{ Database.empty with snapshots := [SnapshotRow.pendingRow 1 (ascii "/s") "" 0] },
    fun _ => none, []⟩

def speaks (n : Nat) : List Turn := List.replicate n (.callerEmits none)

def steps (n : Nat) (l : Label) : List Turn := List.replicate n (.pipeline l)

/-- The turns up to the result of the only entry, in the hands of the worker. -/
def discoveryTurns : List Turn :=
  [speaks 9, [.opens], steps 1 (.main .next), speaks 9, steps 8 (.main .next),
    steps 1 (.scanner .next), List.replicate 6 (.scannerRecords false), steps 2 (.scanner .next),
    steps 2 (.worker 0 .next)].flatten

/-- The turns from there on, with one event of the progress thread. -/
def publicationTurns : List Turn :=
  [List.replicate 10 (.workerRecords 0 false), steps 1 (.scanner .next), [.marksScanComplete],
    steps 1 (.scanner .next), List.replicate 13 (.runs none), steps 5 (.worker 0 .next),
    steps 6 (.writer .next), steps 3 (.main .next), steps 1 (.progress .next),
    steps 3 (.main .next), steps 1 (.main (.ticks 5)), speaks 11, steps 2 (.main .next),
    steps 1 (.main (.ticks 6)), [.clock 7], speaks 11, [.returns]].flatten

/-- A call that records one directory. -/
theorem run_reports_directory : ∃ w,
    (Observed.start directoryConfig pendingVault false 0).run directoryConfig sampleExternals
      (discoveryTurns ++ publicationTurns) = some w ∧
    w.course = .returned ∧ Reports directoryConfig w := by
  have hrun : ((Observed.start directoryConfig pendingVault false 0).run directoryConfig
      sampleExternals (discoveryTurns ++ publicationTurns)).any (fun w => w.course = .returned) =
        true := by
    decide +kernel
  obtain ⟨w, hw, hcourse⟩ := (Option.any_eq_true _ _).mp hrun
  exact ⟨w, hw, of_decide_eq_true hcourse, run_reports hw⟩

end LocalVault.Snapshot
