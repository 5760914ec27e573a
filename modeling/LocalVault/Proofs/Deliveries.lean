import LocalVault.Proofs.Throttling

namespace LocalVault.Snapshot
open Library Repository

variable {c : Config} {x : Externals} {w u v : Observed} {s t : State} {m m' : Emitter}

/-- The thread that is in a call of `emit`: no two are. -/
def Observed.speaker (w : Observed) : Emitter :=
  match w.emitter with
  | .idle => w.caller
  | m => m

theorem speaker_caller (h : w.emitter = .idle) : w.speaker = w.caller := by
  unfold Observed.speaker
  rw [h]

theorem speaker_emitter (h : w.caller = .idle) : w.speaker = w.emitter := by
  unfold Observed.speaker
  split
  · rename_i hidle
    rw [h, hidle]
  · rfl

theorem speaker_same (hc : u.caller = w.caller) (he : u.emitter = w.emitter) :
    u.speaker = w.speaker := by
  unfold Observed.speaker
  rw [hc, he]

theorem Placed.emitter_idle (h : Placed c w) (hd : (w.due c).isSome = true) :
    w.emitter = .idle := by
  by_contra hbusy
  obtain ⟨sets, hr⟩ := h.emitter hbusy
  have hbetween := h.between (h.runner (by rw [hr]; exact nofun))
  rw [hbetween.due] at hd
  cases hd

theorem Placed.caller_alone (h : Placed c w) (hc : w.caller ≠ .idle) : w.emitter = .idle := by
  by_contra hbusy
  obtain ⟨sets, hr⟩ := h.emitter hbusy
  exact hc (h.between (h.runner (by rw [hr]; exact nofun))).caller

/-- No call of `emit` begins or ends, and time does not go back. -/
structure Silent (w u : Observed) : Prop where
  asked : u.asked = w.asked
  emitted : u.emitted = w.emitted
  suppressed : u.suppressed = w.suppressed
  delivered : u.delivered = w.delivered
  now : w.now ≤ u.now

theorem Silent.of (ha : u.asked = w.asked) (he : u.emitted = w.emitted)
    (hs : u.suppressed = w.suppressed) (hd : u.delivered = w.delivered) (hn : u.now = w.now) :
    Silent w u :=
  ⟨ha, he, hs, hd, hn.ge⟩

/-- Who asks: the calling thread at its place, or the progress thread. -/
def Observed.mayAsk (c : Config) (w : Observed) (n : Notice) : Prop :=
  w.due c = some n ∧ w.caller = .idle ∨
    w.pipeline.progress = .running ∧ ∃ path completion,
      w.runner = .consumed path completion ∧ n = (w.judged path completion).1

/-- The progress thread speaks of scanning as long as it has seen no entry processed. -/
theorem judged_rank (path : Path) (completion : Bool) :
    (w.judged path completion).1.phase.rank < 3 ∧
      ((w.judged path completion).1.phase = .scanning ∧
          w.aggregator.counters .processedEntries = 0 ∨
        (w.judged path completion).1.phase = .writingMetadata ∧
          w.aggregator.counters .processedEntries ≠ 0) := by
  by_cases hprocessed : w.aggregator.counters .processedEntries = 0
  · have hphase : (w.judged path completion).1.phase = .scanning := by
      simp only [Observed.judged, hprocessed]
      cases completion <;> rfl
    rw [hphase]
    exact ⟨by decide, .inl ⟨rfl, hprocessed⟩⟩
  · have hphase : (w.judged path completion).1.phase = .writingMetadata := by
      simp only [Observed.judged, ne_eq, hprocessed, not_false_eq_true, decide_true, Bool.true_and]
      cases completion with
      | true => rfl
      | false => cases w.aggregator.writingPhaseEmitted <;> rfl
    rw [hphase]
    exact ⟨by decide, .inr ⟨rfl, hprocessed⟩⟩

/-- What a step is to the calls of `emit`. -/
inductive Speaks (c : Config) (w u : Observed) : Prop
  | quiet (silent : Silent w u)
      (speaker : u.speaker = w.speaker ∨ w.speaker = .over ∧ u.speaker = .idle)
  | asks (n : Notice) (may : w.mayAsk c n) (idle : w.speaker = .idle) (silent : Silent (w.ask n) u)
      (speaker : u.speaker = .asked n) (stage : n.phase.rank < u.stage)
  | lets (n : Notice) (asked : w.speaker = .asked n)
      (silent : Silent { w with emitted := w.emitted ++ [⟨w.now, n.occasion.required⟩] } u)
      (speaker : u.speaker = .building ⟨n, w.now, none, []⟩)
  | suppresses (n : Notice) (asked : w.speaker = .asked n)
      (silent : Silent { w with suppressed := w.suppressed ++ [n] } u) (speaker : u.speaker = .over)
  | drafts (d d' : Draft) (building : w.speaker = .building d) (next : d.next w.aggregator = some d')
      (silent : Silent w u) (speaker : u.speaker = .building d')
  | delivers (d : Draft) (building : w.speaker = .building d) (done : d.next w.aggregator = none)
      (silent : Silent { w with delivered := w.delivered ++ [⟨d, w.now⟩] } u)
      (speaker : u.speaker = .over ∨ u.speaker = .idle)

theorem EmitMove.speaks (hm : EmitMove w m v m') (hs : w.speaker = m) (silent : Silent v u)
    (hu : u.speaker = m') : Speaks c w u := by
  obtain ⟨ha, he, hsuppressed, hd, hn⟩ := silent
  cases hm with
  | lets n h => exact .lets n hs ⟨ha, he, hsuppressed, hd, hn⟩ hu
  | suppresses n h => exact .suppresses n hs ⟨ha, he, hsuppressed, hd, hn⟩ hu
  | drafts d d' h => exact .drafts d d' hs h ⟨ha, he, hsuppressed, hd, hn⟩ hu
  | delivers d h => exact .delivers d hs h ⟨ha, he, hsuppressed, hd, hn⟩ (.inl hu)

theorem Happens.speaks (hp : Placed c w) (hm : Happens c x w u) : Speaks c w u := by
  cases hm with
  | main hm hc hover =>
    refine .quiet (.of rfl rfl rfl rfl rfl) ?_
    rcases hp.left hm hc hover with hidle | ⟨hover, -⟩
    · left
      refine speaker_same ?_ rfl
      dsimp only
      rw [hidle]
      rfl
    · right
      have hemitter := hp.caller_alone (by rw [hover]; exact nofun)
      refine ⟨(speaker_caller hemitter).trans hover, (speaker_caller ?_).trans ?_⟩
      · exact hemitter
      · dsimp only
        rw [hover]
        rfl
  | asks n hd hi =>
    have hemitter := hp.emitter_idle (by rw [hd]; rfl)
    have hd' : { w.ask n with caller := .asked n }.due c = some n := hd
    refine .asks n (.inl ⟨hd, hi⟩) ((speaker_caller hemitter).trans hi) (.of rfl rfl rfl rfl rfl)
      (speaker_caller hemitter) ?_
    rw [(due_stage hd').2.1]
    exact Nat.lt_succ_self _
  | @callerEmits v n m hd hm =>
    have hemitter := hp.emitter_idle (by rw [hd]; rfl)
    exact hm.speaks (speaker_caller hemitter) (.of rfl rfl rfl rfl rfl)
      (speaker_caller (hm.kept.2.2.2.2.trans hemitter))
  | callerThrows n d hd hc hn hm running =>
    have hemitter := hp.emitter_idle (by rw [hd]; rfl)
    exact .delivers d ((speaker_caller hemitter).trans hc) hn (.of rfl rfl rfl rfl rfl)
      (.inr (speaker_caller hemitter))
  | abandons d hpc hc hn =>
    have hemitter := hp.caller_alone (by rw [hc]; exact nofun)
    exact .delivers d ((speaker_caller hemitter).trans hc) hn (.of rfl rfl rfl rfl rfl)
      (.inr (speaker_caller hemitter))
  | judges path completion hpc hr =>
    obtain ⟨-, hstage, hcaller, -⟩ := hp.between hpc
    have hemitter : w.emitter = .idle := by
      by_contra hbusy
      obtain ⟨sets, hemitting⟩ := hp.emitter hbusy
      rw [hr] at hemitting
      cases hemitting
    refine .asks _ (.inr ⟨hpc, path, completion, hr, rfl⟩) ((speaker_caller hemitter).trans hcaller)
      (.of rfl rfl rfl rfl rfl) (speaker_emitter hcaller) ?_
    exact (judged_rank path completion).1.trans_eq hstage.symm
  | resumes sets hpc hr he =>
    have hcaller := (hp.between hpc).caller
    exact .quiet (.of rfl rfl rfl rfl rfl)
      (.inr ⟨(speaker_emitter hcaller).trans he, speaker_emitter hcaller⟩)
  | @runnerEmits v sets m hpc hr hm =>
    have hcaller := (hp.between hpc).caller
    exact hm.speaks (speaker_emitter hcaller) (.of rfl rfl rfl rfl rfl)
      (speaker_emitter (hm.kept.2.2.2.1.trans hcaller))
  | runnerThrows d hpc he hn hm ht =>
    have hcaller := (hp.between hpc).caller
    exact .delivers d ((speaker_emitter hcaller).trans he) hn (.of rfl rfl rfl rfl rfl)
      (.inr (speaker_emitter hcaller))
  | opens hpc hc =>
    have hemitter := hp.caller_alone (by rw [hc]; exact nofun)
    exact .quiet (.of rfl rfl rfl rfl rfl) (.inr ⟨(speaker_caller hemitter).trans hc, speaker_caller hemitter⟩)
  | clock now hle => exact .quiet ⟨rfl, rfl, rfl, rfl, hle⟩ (.inl rfl)
  | _ => exact .quiet (.of rfl rfl rfl rfl rfl) (.inl rfl)

theorem next_kept {d d' : Draft} {a : ProgressAggregator} (h : d.next a = some d') :
    d'.notice = d.notice ∧ d'.time = d.time := by
  unfold Draft.next at h
  split at h
  · cases h
    exact ⟨rfl, rfl⟩
  · split at h
    · cases h
    · cases h
      exact ⟨rfl, rfl⟩

def Delivery.occasion (d : Delivery) : Occasion := d.draft.notice.occasion

def Emitter.occasions (m : Emitter) : List Occasion := (m.notice.map Notice.occasion).toList

/-- Every call of `emit` ends with the callback or with nothing. -/
def Answered (w : Observed) : Prop :=
  ∀ o, w.asked.count o = (w.delivered.map Delivery.occasion).count o +
    (w.suppressed.map Notice.occasion).count o + w.speaker.occasions.count o

theorem Speaks.answered (hs : Speaks c w u) (h : Answered w) : Answered u := by
  intro o
  have hcount := h o
  cases hs with
  | quiet silent speaker =>
    have hsame : u.speaker.occasions = w.speaker.occasions := by
      rcases speaker with hs | ⟨hs, hu⟩
      · rw [hs]
      · rw [hs, hu]
        rfl
    rw [silent.asked, silent.delivered, silent.suppressed, hsame]
    exact hcount
  | asks n may idle silent speaker stage =>
    rw [silent.asked, silent.delivered, silent.suppressed, speaker]
    rw [idle] at hcount
    simp only [Observed.ask, List.count_append, hcount]
    simp [Emitter.occasions, Emitter.notice]
  | lets n asked silent speaker =>
    rw [silent.asked, silent.delivered, silent.suppressed, speaker]
    rw [asked] at hcount
    exact hcount
  | suppresses n asked silent speaker =>
    rw [silent.asked, silent.delivered, silent.suppressed, speaker]
    rw [asked] at hcount
    simp only [hcount, List.map_append, List.count_append]
    simp [Emitter.occasions, Emitter.notice]
    omega
  | drafts d d' building next silent speaker =>
    rw [silent.asked, silent.delivered, silent.suppressed, speaker, hcount, building]
    simp only [Emitter.occasions, Emitter.notice, (next_kept next).1]
  | delivers d building done silent speaker =>
    have hnone : u.speaker.occasions = [] := by
      rcases speaker with hs | hs <;> rw [hs] <;> rfl
    rw [silent.asked, silent.delivered, silent.suppressed, hnone]
    rw [building] at hcount
    simp only [hcount, List.map_append, List.count_append, Emitter.occasions, Emitter.notice]
    simp [Delivery.occasion]
    omega

def Draft.emission (d : Draft) : Emission := ⟨d.time, d.notice.occasion.required⟩

def Emitter.emissions : Emitter → List Emission
  | .building d => [d.emission]
  | _ => []

/-- One event after the other: the clock is read for an event behind the call of the event
before it. -/
structure Timed (w : Observed) : Prop where
  emitted : w.emitted = w.delivered.map (fun d => d.draft.emission) ++ w.speaker.emissions
  read : ∀ d ∈ w.delivered, d.draft.time ≤ d.time ∧ d.time ≤ w.now
  spaced : w.delivered.Pairwise (fun a b => a.time ≤ b.draft.time)
  flight : ∀ d, w.speaker = .building d → d.time ≤ w.now ∧ ∀ e ∈ w.delivered, e.time ≤ d.time

theorem timed_start {v : Vault} {e : Bool} {now : Int} : Timed (.start c v e now) where
  emitted := rfl
  read d h := by cases h
  spaced := List.Pairwise.nil
  flight d h := by cases h

theorem Speaks.timed (hs : Speaks c w u) (h : Timed w) : Timed u := by
  have hread : ∀ {now}, w.now ≤ now → ∀ d ∈ w.delivered, d.draft.time ≤ d.time ∧ d.time ≤ now :=
    fun hle d hd => ⟨(h.read d hd).1, (h.read d hd).2.trans hle⟩
  have hidle : ∀ {d}, ∀ m : Emitter, m.emissions = [] → m ≠ .building d := by
    rintro d m hm rfl
    cases hm
  cases hs with
  | quiet silent speaker =>
    have hsame : u.speaker.emissions = w.speaker.emissions := by
      rcases speaker with hs | ⟨hs, hu⟩
      · rw [hs]
      · rw [hs, hu]
        rfl
    refine ⟨?_, ?_, ?_, fun d hd => ?_⟩
    · rw [silent.emitted, silent.delivered, hsame]
      exact h.emitted
    · rw [silent.delivered]
      exact hread silent.now
    · rw [silent.delivered]
      exact h.spaced
    · rcases speaker with hs | ⟨-, hu⟩
      · rw [silent.delivered]
        obtain ⟨hle, hafter⟩ := h.flight d (hs ▸ hd)
        exact ⟨hle.trans silent.now, hafter⟩
      · rw [hu] at hd
        cases hd
  | asks n may idle silent speaker stage =>
    refine ⟨?_, ?_, ?_, fun d hd => ?_⟩
    · rw [silent.emitted, silent.delivered, speaker]
      exact h.emitted.trans (by rw [idle]; rfl)
    · rw [silent.delivered]
      exact hread silent.now
    · rw [silent.delivered]
      exact h.spaced
    · rw [speaker] at hd
      cases hd
  | lets n asked silent speaker =>
    refine ⟨?_, ?_, ?_, fun d hd => ?_⟩
    · rw [silent.emitted, silent.delivered, speaker]
      dsimp only
      rw [h.emitted, asked, List.append_assoc]
      rfl
    · rw [silent.delivered]
      exact hread silent.now
    · rw [silent.delivered]
      exact h.spaced
    · rw [speaker, Emitter.building.injEq] at hd
      subst hd
      rw [silent.delivered]
      exact ⟨silent.now, fun e he => (h.read e he).2⟩
  | suppresses n asked silent speaker =>
    refine ⟨?_, ?_, ?_, fun d hd => ?_⟩
    · rw [silent.emitted, silent.delivered, speaker]
      exact h.emitted.trans (by rw [asked]; rfl)
    · rw [silent.delivered]
      exact hread silent.now
    · rw [silent.delivered]
      exact h.spaced
    · rw [speaker] at hd
      cases hd
  | drafts d d' building next silent speaker =>
    obtain ⟨hnotice, htime⟩ := next_kept next
    refine ⟨?_, ?_, ?_, fun e he => ?_⟩
    · rw [silent.emitted, silent.delivered, speaker, h.emitted, building]
      simp only [Emitter.emissions, Draft.emission, hnotice, htime]
    · rw [silent.delivered]
      exact hread silent.now
    · rw [silent.delivered]
      exact h.spaced
    · rw [speaker, Emitter.building.injEq] at he
      subst he
      rw [silent.delivered, htime]
      obtain ⟨hle, hafter⟩ := h.flight d building
      exact ⟨hle.trans silent.now, hafter⟩
  | delivers d building done silent speaker =>
    obtain ⟨hle, hafter⟩ := h.flight d building
    have hnone : u.speaker.emissions = [] := by
      rcases speaker with hs | hs <;> rw [hs] <;> rfl
    refine ⟨?_, ?_, ?_, fun e he => absurd he (hidle _ hnone)⟩
    · rw [silent.emitted, silent.delivered, hnone]
      dsimp only
      rw [h.emitted, building, List.map_append, List.append_nil]
      rfl
    · rw [silent.delivered]
      intro e he
      rcases List.mem_append.mp he with he | he
      · exact hread silent.now e he
      · rw [List.mem_singleton.mp he]
        exact ⟨hle, silent.now⟩
    · rw [silent.delivered]
      refine List.pairwise_append.mpr ⟨h.spaced, List.pairwise_singleton _ _, fun e he a ha => ?_⟩
      rw [List.mem_singleton.mp ha]
      exact hafter e he

end LocalVault.Snapshot
