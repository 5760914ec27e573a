import LocalVault.Proofs.Deliveries

namespace LocalVault.Snapshot
open Library Repository

variable {c : Config} {x : Externals} {w u v : Observed} {s t : State} {m m' : Emitter}
  {a b : ProgressAggregator} {r r' : Recorder}

theorem store_le (a : ProgressAggregator) (k k' : Counter) {value : Nat} (h : a.counters k ≤ value) :
    a.counters k' ≤ (a.store k value).counters k' := by
  unfold ProgressAggregator.store
  by_cases hk : k' = k
  · subst hk
    dsimp only
    rwa [Function.update_self]
  · dsimp only
    rw [Function.update_of_ne hk]

theorem Records.counters (h : Records a r r' b) (k : Counter) : a.counters k ≤ b.counters k := by
  cases h with
  | stores k' value rest path hroom => exact store_le a k' k (Nat.le_add_right _ _)
  | _ => exact Nat.le_refl _

theorem EmitMove.counters (h : EmitMove w m u m') :
    u.aggregator.counters = w.aggregator.counters ∧
      u.aggregator.scanComplete = w.aggregator.scanComplete := by
  cases h <;> exact ⟨rfl, rfl⟩

/-- No counter goes back. -/
theorem Happens.counters (hm : Happens c x w u) (k : Counter) :
    w.aggregator.counters k ≤ u.aggregator.counters k := by
  cases hm with
  | discovers e rest r b hp hr => exact hr.counters k
  | processes i p e r b hi hp hv hr => exact hr.counters k
  | callerEmits n m hd hm => exact (congrFun hm.counters.1 k).ge
  | runnerEmits sets m hp hr hm => exact (congrFun hm.counters.1 k).ge
  | _ => exact Nat.le_refl _

/-- What is published stays published. -/
theorem Happens.published (hm : Happens c x w u) (hp : w.pipeline.main = .published) :
    u.pipeline.main = .published := by
  cases hm with
  | scanner hm => exact hm.frame.main.trans hp
  | worker i hi hm => exact hm.frame.main.trans hp
  | writer hm => exact hm.frame.main.trans hp
  | main hm => exact absurd hp hm.unpublished
  | other hm => exact hm.frame.main.trans hp
  | scannerOverflows e rest f hpc hm => exact hm.frame.main.trans hp
  | workerOverflows i p e f hi hpc hv hm => exact hm.frame.main.trans hp
  | callerEmits n m hd hm =>
    dsimp only
    rw [hm.kept.1]
    exact hp
  | callerThrows n d hd hc hn hm => exact absurd hp hm.unpublished
  | runnerEmits sets m hpc hr hm =>
    dsimp only
    rw [hm.kept.1]
    exact hp
  | runnerThrows d hpc he hn hm => exact hm.frame.main.trans hp
  | _ => exact hp

/-- The phase of a call of `emit` is one that its occasion can have. -/
def Notice.fits (n : Notice) : Prop :=
  match n.occasion with
  | .preparing => n.phase = .preparing
  | .scanning => n.phase = .scanning
  | .scanCompletion | .ordinary => n.phase = .scanning ∨ n.phase = .writingMetadata
  | .firstWriting => n.phase = .writingMetadata
  | .finalizing => n.phase = .finalizing
  | .complete => n.phase = .complete

/-- A call of `emit` in its place: behind the phases of the events so far. -/
structure Timely (w : Observed) (n : Notice) : Prop where
  fits : n.fits
  stage : n.phase.rank < w.stage
  writing : n.phase = .writingMetadata → w.aggregator.counters .processedEntries ≠ 0
  complete : n.phase = .complete → w.pipeline.main = .published

structure Sequenced (w : Observed) : Prop where
  sorted : w.delivered.Pairwise
    (fun d e => d.draft.notice.phase.rank ≤ e.draft.notice.phase.rank)
  delivered : ∀ d ∈ w.delivered, Timely w d.draft.notice
  flight : ∀ n, w.speaker.notice = some n → Timely w n ∧
    ∀ d ∈ w.delivered, d.draft.notice.phase.rank ≤ n.phase.rank

theorem sequenced_start {v : Vault} {e : Bool} {now : Int} : Sequenced (.start c v e now) where
  sorted := List.Pairwise.nil
  delivered d h := by cases h
  flight n h := by cases h

theorem Timely.later {n : Notice} (h : Timely w n) (hp : Placed c w) (hm : Happens c x w u) :
    Timely u n where
  fits := h.fits
  stage := h.stage.trans_le (hm.stage hp)
  writing hn := by
    have hle := hm.counters .processedEntries
    have hsome := h.writing hn
    omega
  complete hn := hm.published (h.complete hn)

theorem due_timely {n : Notice} (hd : w.due c = some n) : n.fits ∧ n.phase ≠ .writingMetadata ∧
    (n.phase = .complete → w.pipeline.main = .published) := by
  unfold Observed.due at hd
  split at hd <;> cases hd
  · exact ⟨rfl, nofun, nofun⟩
  · exact ⟨rfl, nofun, nofun⟩
  · exact ⟨rfl, nofun, nofun⟩
  · exact ⟨rfl, nofun, fun _ => ‹_›⟩

theorem judged_fits (path : Path) (completion : Bool) : (w.judged path completion).1.fits := by
  have hphase : (w.judged path completion).1.phase = .scanning ∨
      (w.judged path completion).1.phase = .writingMetadata :=
    (judged_rank path completion).2.imp And.left And.left
  rcases judged_cases (w := w) path completion with ⟨-, ho⟩ | ⟨-, ho, hsets, -⟩ | ⟨-, ho⟩ <;>
    unfold Notice.fits <;> rw [ho]
  · exact hphase
  · unfold Observed.judged at ho ⊢
    dsimp only at ho ⊢
    split at ho
    · cases ho
    · split at ho
      · rename_i hcompletion hfirst
        rw [if_neg hcompletion, if_pos hfirst]
      · cases ho
  · exact hphase

/-- A call of `emit` begins in its place. -/
theorem Sequenced.asks {n : Notice} (h : Sequenced w) (hp : Placed c w) (hm : Happens c x w u)
    (may : w.mayAsk c n) (stage : n.phase.rank < u.stage) :
    Timely u n ∧ ∀ d ∈ w.delivered, d.draft.notice.phase.rank ≤ n.phase.rank := by
  rcases may with ⟨hd, hi⟩ | ⟨hpc, path, completion, hr, rfl⟩
  · obtain ⟨hfits, hwriting, hcomplete⟩ := due_timely hd
    refine ⟨⟨hfits, stage, fun hn => absurd hn hwriting, fun hn => hm.published (hcomplete hn)⟩,
      fun d hmem => ?_⟩
    have hlt := (h.delivered d hmem).stage
    rw [(due_stage hd).2.1, hi] at hlt
    exact Nat.le_of_lt_succ (Nat.lt_succ_of_lt hlt)
  · have hle := hm.counters .processedEntries
    obtain ⟨hlt, hphase⟩ := judged_rank (w := w) path completion
    refine ⟨⟨judged_fits path completion, stage, fun hn => ?_, fun hn => ?_⟩, fun d hmem => ?_⟩
    · rcases hphase with ⟨hscanning, -⟩ | ⟨-, hsome⟩
      · rw [hn] at hscanning
        cases hscanning
      · omega
    · rw [hn] at hlt
      exact absurd hlt (by decide)
    · have hbefore := (h.delivered d hmem).stage
      rw [(hp.between hpc).stage] at hbefore
      rcases hphase with ⟨hscanning, hnone⟩ | ⟨hwriting, -⟩
      · rw [hscanning]
        have hother : d.draft.notice.phase ≠ .writingMetadata := fun hd =>
          (h.delivered d hmem).writing hd hnone
        revert hbefore hother
        cases d.draft.notice.phase <;> decide
      · rw [hwriting]
        exact Nat.le_of_lt_succ hbefore

theorem Happens.sequenced (hp : Placed c w) (h : Sequenced w) (hm : Happens c x w u) :
    Sequenced u := by
  have hlater : ∀ d ∈ w.delivered, Timely u d.draft.notice := fun d hd =>
    (h.delivered d hd).later hp hm
  have hflight : ∀ n, w.speaker.notice = some n → Timely u n ∧
      ∀ d ∈ w.delivered, d.draft.notice.phase.rank ≤ n.phase.rank := fun n hn =>
    ⟨(h.flight n hn).1.later hp hm, (h.flight n hn).2⟩
  cases hm.speaks hp with
  | quiet silent speaker =>
    refine ⟨silent.delivered ▸ h.sorted, silent.delivered ▸ hlater, fun n hn => ?_⟩
    rw [silent.delivered]
    rcases speaker with hs | ⟨-, hu⟩
    · exact hflight n (hs ▸ hn)
    · rw [hu] at hn
      cases hn
  | asks n may idle silent speaker stage =>
    refine ⟨silent.delivered ▸ h.sorted, silent.delivered ▸ hlater, fun n' hn => ?_⟩
    rw [speaker] at hn
    cases hn
    rw [silent.delivered]
    exact h.asks hp hm may stage
  | lets n asked silent speaker =>
    refine ⟨silent.delivered ▸ h.sorted, silent.delivered ▸ hlater, fun n' hn => ?_⟩
    rw [speaker] at hn
    rw [silent.delivered]
    exact hflight n' (by rw [asked]; exact hn)
  | suppresses n asked silent speaker =>
    refine ⟨silent.delivered ▸ h.sorted, silent.delivered ▸ hlater, fun n' hn => ?_⟩
    rw [speaker] at hn
    cases hn
  | drafts d d' building next silent speaker =>
    refine ⟨silent.delivered ▸ h.sorted, silent.delivered ▸ hlater, fun n' hn => ?_⟩
    rw [speaker] at hn
    rw [silent.delivered]
    refine hflight n' ?_
    rw [building, ← hn]
    exact congrArg some (next_kept next).1.symm
  | delivers d building done silent speaker =>
    obtain ⟨htimely, hbehind⟩ := hflight d.notice (by rw [building]; rfl)
    have hnone : u.speaker.notice = none := by
      rcases speaker with hs | hs <;> rw [hs] <;> rfl
    refine ⟨?_, ?_, fun n' hn => ?_⟩
    · rw [silent.delivered]
      refine List.pairwise_append.mpr ⟨h.sorted, List.pairwise_singleton _ _, fun e he e' he' => ?_⟩
      rw [List.mem_singleton.mp he']
      exact hbehind e he
    · rw [silent.delivered]
      intro e he
      rcases List.mem_append.mp he with he | he
      · exact hlater e he
      · rw [List.mem_singleton.mp he]
        exact htimely
    · rw [hnone] at hn
      cases hn

end LocalVault.Snapshot
