import LocalVault.Proofs.Observing

namespace LocalVault.Snapshot
open Library Repository

variable {c : Config} {x : Externals} {w u : Observed} {s t : State} {m m' : Emitter}

/-- How many calls of `emit` lie behind the calling thread, with the progress thread in their
middle. -/
def MainPc.stage : MainPc → Nat
  | .checking | .announcing => 1
  | .checkingLast | .publishing | .published => 4
  | .failing _ => 6
  | _ => 3

namespace Emitter

def notice : Emitter → Option Notice
  | .asked n => some n
  | .building d => some d.notice
  | _ => none

def busy : Emitter → Nat
  | .idle => 0
  | _ => 1

end Emitter

def Observed.stage (w : Observed) : Nat :=
  match w.course with
  | .preparing => w.caller.busy
  | .running => w.pipeline.main.stage + w.caller.busy
  | _ => 6

/-- Where the threads stand to each other. -/
structure Placed (c : Config) (w : Observed) : Prop where
  orderly : Orderly c w.pipeline
  opening : w.course = .preparing ∨ w.course = .thrown → w.pipeline.main = .checking
  returned : w.course = .returned → w.pipeline.main = .published
  caller : w.caller ≠ .idle → w.course = .returned ∨ (w.due c).isSome = true
  notice : ∀ n, w.caller.notice = some n → w.due c = some n
  runner : w.runner ≠ .waiting → w.pipeline.progress = .running
  emitter : w.emitter ≠ .idle → ∃ sets, w.runner = .emitting sets

theorem placed_start {v : Vault} {e : Bool} {now : Int} : Placed c (.start c v e now) where
  orderly := orderly_start
  opening _ := rfl
  returned h := by cases h
  caller h := absurd rfl h
  notice _ h := by cases h
  runner h := absurd rfl h
  emitter h := absurd rfl h

/-- How far a step takes the calling thread. -/
def StageStep (pc pc' : MainPc) : Prop :=
  (∃ f, pc' = .failing f) ∨ (pc = .announcing ∧ pc'.stage = 3) ∨
    (pc = .finalizing ∧ pc'.stage = 4) ∨
      (pc ≠ .announcing ∧ pc ≠ .finalizing ∧ pc'.stage = pc.stage)

theorem Advances.stages {pc pc' : MainPc} (h : Advances c s pc pc') : StageStep pc pc' := by
  cases h with
  | announces => exact .inr (.inl ⟨rfl, rfl⟩)
  | finalizes => exact .inr (.inr (.inl ⟨rfl, rfl⟩))
  | rethrows => exact .inl ⟨_, rfl⟩
  | throws => exact .inl ⟨_, rfl⟩
  | _ => exact .inr (.inr (.inr ⟨nofun, nofun, rfl⟩))

theorem Creates.stage {n : Nat} (h : Creates c s n t) : t.main.stage = 3 := by
  cases h <;> rfl

theorem MainMove.stages (h : MainMove c s t) : StageStep s.main t.main := by
  cases h with
  | advances pc ha => exact ha.stages
  | registers hp => exact .inr (.inr (.inr (by simp [hp, MainPc.stage])))
  | cancels f stage hp =>
    rw [hp]
    rcases afterStage_cases MainPc.cancelling .deciding f stage with he | ⟨next, he⟩ <;> rw [he] <;>
      exact .inr (.inr (.inr ⟨nofun, nofun, rfl⟩))
  | creates n hp =>
    rw [hp]
    exact .inr (.inr (.inr ⟨nofun, nofun, (create_creates n).stage⟩))
  | shuts f stage hp =>
    rw [hp]
    rcases afterStage_cases MainPc.shutting .joiningScanner f stage with he | ⟨next, he⟩ <;>
      rw [he] <;> exact .inr (.inr (.inr ⟨nofun, nofun, rfl⟩))
  | joinsWriter hp => exact .inr (.inr (.inr (by simp [hp, MainPc.stage])))
  | unregisters hp => exact .inr (.inr (.inr (by simp [hp, MainPc.stage])))
  | times now hp => exact .inr (.inr (.inr (by simp [hp, MainPc.stage])))
  | publishes now db hp => exact .inr (.inr (.inr (by simp [hp, MainPc.stage])))

theorem stage_le (pc : MainPc) : pc.stage ≤ 6 := by
  cases pc <;> simp [MainPc.stage]

/-- The calling thread goes forward, and it is behind a call of `emit` when it leaves its
place. -/
theorem MainMove.stage (h : MainMove c s t) : s.main.stage ≤ t.main.stage ∧
    (s.main = .announcing ∨ s.main = .finalizing → s.main.stage < t.main.stage) := by
  rcases h.stages with ⟨f, hf⟩ | ⟨hp, hstage⟩ | ⟨hp, hstage⟩ | ⟨ha, hf, hstage⟩
  · rw [hf]
    refine ⟨stage_le _, fun hp => ?_⟩
    rcases hp with hp | hp <;> simp [hp, MainPc.stage]
  · rw [hp, hstage]
    exact ⟨by decide, fun _ => by decide⟩
  · rw [hp, hstage]
    exact ⟨by decide, fun _ => by decide⟩
  · rw [hstage]
    exact ⟨Nat.le_refl _, fun hp => absurd hp (not_or_intro ha hf)⟩

/-- While the progress thread runs, the calling thread is between its calls of `emit`. -/
structure Between (c : Config) (w : Observed) : Prop where
  running : w.course = .running
  stage : w.stage = 3
  caller : w.caller = .idle
  due : w.due c = none

theorem Placed.between (h : Placed c w) (hp : w.pipeline.progress = .running) : Between c w := by
  have hyoung := h.orderly.young
  have hjoined := h.orderly.standing.progress
  have hmain : w.pipeline.main.stage = 3 ∧ w.pipeline.main ≠ .announcing ∧
      w.pipeline.main ≠ .finalizing ∧ w.pipeline.main ≠ .published := by
    have hcreated : w.pipeline.main.created ≠ some 0 := by
      intro hzero
      have hwaits := (hyoung 0 hzero).progress rfl
      rw [hp] at hwaits
      cases hwaits
    have hover : ¬ 4 ≤ w.pipeline.main.joined := by
      intro hle
      have hdone := hjoined hle
      rw [hp] at hdone
      cases hdone
    cases hm : w.pipeline.main <;> rw [hm] at hcreated hover <;>
      simp_all [MainPc.stage, MainPc.created, MainPc.joined]
  have hcourse : w.course = .running := by
    cases hc : w.course with
    | running => rfl
    | returned => exact absurd (h.returned hc) hmain.2.2.2
    | preparing =>
      rw [h.opening (.inl hc)] at hmain
      cases hmain.1
    | thrown =>
      rw [h.opening (.inr hc)] at hmain
      cases hmain.1
  have hdue : w.due c = none := by
    unfold Observed.due
    rw [hcourse]
    split <;> simp_all
  have hcaller : w.caller = .idle := by
    by_contra hbusy
    rcases h.caller hbusy with hreturned | hsome
    · rw [hcourse] at hreturned
      cases hreturned
    · rw [hdue] at hsome
      cases hsome
  refine ⟨hcourse, ?_, hcaller, hdue⟩
  unfold Observed.stage
  rw [hcourse, hcaller]
  exact hmain.1

theorem EmitMove.kept (h : EmitMove w m u m') : u.pipeline = w.pipeline ∧ u.course = w.course ∧
    u.runner = w.runner ∧ u.caller = w.caller ∧ u.emitter = w.emitter := by
  cases h <;> exact ⟨rfl, rfl, rfl, rfl, rfl⟩

/-- A call of `emit` keeps its arguments. -/
theorem EmitMove.notice (h : EmitMove w m u m') {n : Notice} (hn : m'.notice = some n) :
    m.notice = some n := by
  cases h with
  | lets n' => exact hn
  | suppresses => cases hn
  | drafts d d' hd =>
    rw [← hn]
    unfold Draft.next at hd
    split at hd
    · cases hd
      rfl
    · split at hd
      · cases hd
      · cases hd
        rfl
  | delivers => cases hn

theorem EmitMove.busy (h : EmitMove w m u m') : m ≠ .idle ∧ m' ≠ .idle := by
  cases h <;> exact ⟨nofun, nofun⟩

/-- The other threads do not touch the place of the calling thread. -/
theorem Placed.moved (h : Placed c w) (ho : Orderly c t) (hm : t.main = w.pipeline.main)
    (hp : w.runner ≠ .waiting → t.progress = .running) :
    Placed c { w with pipeline := t } where
  orderly := ho
  opening hc := hm.trans (h.opening hc)
  returned hc := hm.trans (h.returned hc)
  caller hc := by
    unfold Observed.due
    rw [hm]
    exact h.caller hc
  notice n hn := by
    unfold Observed.due
    rw [hm]
    exact h.notice n hn
  runner := hp
  emitter := h.emitter

/-- What the threads do on the aggregator leaves their places as they are. -/
theorem Placed.same (h : Placed c w) (hp : u.pipeline = w.pipeline) (hc : u.course = w.course)
    (hcaller : u.caller = w.caller) (hr : u.runner = w.runner) (he : u.emitter = w.emitter) :
    Placed c u := by
  have hdue : u.due c = w.due c := by
    unfold Observed.due
    rw [hp, hc]
  constructor
  · rw [hp]
    exact h.orderly
  · rw [hp, hc]
    exact h.opening
  · rw [hp, hc]
    exact h.returned
  · rw [hcaller, hc, hdue]
    exact h.caller
  · rw [hcaller, hdue]
    exact h.notice
  · rw [hr, hp]
    exact h.runner
  · rw [hr, he]
    exact h.emitter

theorem Creates.runs {n : Nat} (h : Creates c s n t) (hp : s.progress = .running) :
    t.progress = .running := by
  cases h with
  | progress => rfl
  | _ => exact hp

theorem MainMove.progress (h : MainMove c s t) (hp : s.progress = .running) :
    t.progress = .running := by
  cases h with
  | cancels f stage => exact shut_untouched.progress.trans hp
  | creates n => exact (create_creates n).runs hp
  | shuts f stage => exact shut_untouched.progress.trans hp
  | _ => exact hp

theorem MainMove.unpublished (h : MainMove c s t) : s.main ≠ .published := by
  intro hp
  cases h with
  | advances pc ha =>
    rw [hp] at ha
    cases ha with
    | throws _ f hthrows => cases hthrows
  | registers hm => simp [hp] at hm
  | cancels f stage hm => simp [hp] at hm
  | creates n hm => simp [hp] at hm
  | shuts f stage hm => simp [hp] at hm
  | joinsWriter hm => simp [hp] at hm
  | unregisters hm => simp [hp] at hm
  | times now hm => simp [hp] at hm
  | publishes now db hm => simp [hp] at hm

/-- The calling thread takes a step of the pipeline only with its call of `emit` behind it. -/
theorem Placed.left (h : Placed c w) (hm : MainMove c w.pipeline t) (hc : w.course = .running)
    (hover : w.pipeline.main = .announcing ∨ w.pipeline.main = .finalizing → w.caller = .over) :
    w.caller = .idle ∨
      w.caller = .over ∧ (w.pipeline.main = .announcing ∨ w.pipeline.main = .finalizing) := by
  by_cases hidle : w.caller = .idle
  · exact .inl hidle
  · right
    rcases h.caller hidle with hreturned | hsome
    · rw [hc] at hreturned
      cases hreturned
    · obtain ⟨n, hd⟩ := Option.isSome_iff_exists.mp hsome
      have hplace := due_place hc hd hm.unpublished
      exact ⟨hover hplace, hplace⟩

theorem Happens.placed (h : Placed c w) (hm : Happens c x w u) : Placed c u := by
  have ho := h.orderly
  cases hm with
  | scanner hm =>
    have hmoved := h.moved (Move.orderly (x := x) (.scanner hm) ho) hm.frame.main
      fun hr => hm.frame.progress.trans (h.runner hr)
    exact hmoved.same rfl rfl rfl rfl rfl
  | worker i hi hm =>
    have hmoved := h.moved (Move.orderly (.worker i hi hm) ho) hm.frame.main
      fun hr => hm.frame.progress.trans (h.runner hr)
    exact hmoved.same rfl rfl rfl rfl rfl
  | writer hm =>
    exact h.moved (Move.orderly (x := x) (.writer hm) ho) hm.frame.main
      fun hr => hm.frame.progress.trans (h.runner hr)
  | main hm hc hover =>
    have hidle : w.caller.leave = .idle := by
      rcases h.left hm hc hover with hi | ⟨hi, -⟩ <;> rw [hi] <;> rfl
    refine ⟨Move.orderly (x := x) (.main hm) ho, fun hn => ?_, fun hn => ?_, fun hn => ?_,
      fun n hn => ?_, fun hr => hm.progress (h.runner hr), h.emitter⟩
    · dsimp only at hn
      rcases hn with hn | hn <;> rw [hc] at hn <;> cases hn
    · dsimp only at hn
      rw [hc] at hn
      cases hn
    · exact absurd hidle hn
    · dsimp only at hn
      rw [hidle] at hn
      cases hn
  | other hm ends =>
    refine h.moved (Move.orderly (x := x) (.other hm) ho) hm.frame.main fun hr => ?_
    by_contra hstopped
    exact hr (ends (h.runner hr) hstopped).1
  | scannerOverflows e rest f hp hm =>
    exact h.moved (Move.orderly (x := x) (.scanner hm) ho) hm.frame.main
      fun hr => hm.frame.progress.trans (h.runner hr)
  | workerOverflows i p e f hi hp hv hm =>
    exact h.moved (Move.orderly (.worker i hi hm) ho) hm.frame.main
      fun hr => hm.frame.progress.trans (h.runner hr)
  | asks n hd hi =>
    have hsome : (w.due c).isSome = true := by
      rw [hd]
      rfl
    exact ⟨ho, h.opening, h.returned, fun _ => .inr hsome,
      fun n' hn => by cases hn; exact hd, h.runner, h.emitter⟩
  | callerEmits n m hd hm =>
    obtain ⟨hp, hc, hr, -, he⟩ := hm.kept
    have hsome : (w.due c).isSome = true := by
      rw [hd]
      rfl
    have hsame : Placed c { w with caller := m } :=
      ⟨ho, h.opening, h.returned, fun _ => .inr hsome,
        fun n' hn => h.notice n' (hm.notice hn), h.runner, h.emitter⟩
    exact hsame.same hp hc rfl hr he
  | callerThrows n d hd hc hn hm running =>
    refine ⟨Move.orderly (x := x) (.main hm) ho, fun hn => ?_, fun hn => ?_, fun hn => absurd rfl hn,
      (fun n hn => by cases hn), fun hr => hm.progress (h.runner hr), h.emitter⟩
    · dsimp only at hn
      rcases hn with hn | hn <;> rw [running] at hn <;> cases hn
    · dsimp only at hn
      rw [running] at hn
      cases hn
  | abandons d hp hc hn =>
    exact ⟨ho, fun _ => h.opening (.inl hp), (fun hn => by cases hn), fun hn => absurd rfl hn,
      (fun n hn => by cases hn), h.runner, h.emitter⟩
  | consumes hp hr hd hc =>
    refine ⟨ho, h.opening, h.returned, h.caller, h.notice, fun _ => hp, fun he => ?_⟩
    obtain ⟨sets, hemitting⟩ := h.emitter he
    rw [hr] at hemitting
    cases hemitting
  | judges path completion hp hr =>
    exact ⟨ho, h.opening, h.returned, h.caller, h.notice, fun _ => hp, fun _ => ⟨_, rfl⟩⟩
  | resumes sets hp hr he =>
    exact ⟨ho, h.opening, h.returned, h.caller, h.notice, fun hn => absurd rfl hn,
      fun hn => absurd rfl hn⟩
  | runnerEmits sets m hp hr hm =>
    obtain ⟨hkept, hc, hrunner, hcaller, -⟩ := hm.kept
    have hsame : Placed c { w with emitter := m } :=
      ⟨ho, h.opening, h.returned, h.caller, h.notice, h.runner, fun _ => ⟨sets, hr⟩⟩
    exact hsame.same hkept hc hcaller hrunner rfl
  | runnerThrows d hp he hn hm ht =>
    have hmoved : Placed c { w with runner := .waiting, emitter := .idle } :=
      ⟨ho, h.opening, h.returned, h.caller, h.notice, fun hn => absurd rfl hn,
        fun hn => absurd rfl hn⟩
    exact (hmoved.moved (Move.orderly (x := x) (.other hm) ho) hm.frame.main
      fun hn => absurd rfl hn).same rfl rfl rfl rfl rfl
  | opens hp hc =>
    refine ⟨ho, fun hn => ?_, (fun hn => by cases hn), fun hn => absurd rfl hn,
      (fun n hn => by cases hn), h.runner, h.emitter⟩
    rcases hn with hn | hn <;> cases hn
  | returns hr hp hc =>
    refine ⟨ho, fun hn => ?_, fun _ => hp, fun _ => .inl rfl, fun n hn => ?_, h.runner, h.emitter⟩
    · rcases hn with hn | hn <;> cases hn
    · dsimp only at hn
      rw [hc] at hn
      cases hn
  | _ => exact h.same rfl rfl rfl rfl rfl

theorem stage_same (hc : u.course = w.course) (hm : u.pipeline.main = w.pipeline.main)
    (hcaller : u.caller = w.caller) : w.stage ≤ u.stage := by
  unfold Observed.stage
  rw [hc, hm, hcaller]

theorem Emitter.busy_one (h : m ≠ .idle) : m.busy = 1 := by
  cases m with
  | idle => exact absurd rfl h
  | _ => rfl

/-- No step takes the calling thread back. -/
theorem Happens.stage (h : Placed c w) (hm : Happens c x w u) : w.stage ≤ u.stage := by
  cases hm with
  | scanner hm => exact stage_same rfl hm.frame.main rfl
  | worker i hi hm => exact stage_same rfl hm.frame.main rfl
  | writer hm => exact stage_same rfl hm.frame.main rfl
  | main hm hc hover =>
    obtain ⟨hle, hlt⟩ := hm.stage
    unfold Observed.stage
    dsimp only
    rw [hc]
    rcases h.left hm hc hover with hi | ⟨hi, hplace⟩
    · rw [hi]
      exact hle
    · rw [hi]
      exact hlt hplace
  | other hm => exact stage_same rfl hm.frame.main rfl
  | scannerOverflows e rest f hp hm => exact stage_same rfl hm.frame.main rfl
  | workerOverflows i p e f hi hp hv hm => exact stage_same rfl hm.frame.main rfl
  | asks n hd hi =>
    unfold Observed.stage
    dsimp only [Observed.ask]
    rw [hi]
    split
    · exact Nat.zero_le _
    · exact Nat.le_succ _
    · exact Nat.le_refl _
  | callerEmits n m hd hm =>
    obtain ⟨hp, hc, -, -, -⟩ := hm.kept
    obtain ⟨hold, hnew⟩ := hm.busy
    unfold Observed.stage
    dsimp only
    rw [hc, hp, Emitter.busy_one hold, Emitter.busy_one hnew]
  | callerThrows n d hd hc hn hm running =>
    have hlt := hm.stage.2 (due_place running hd hm.unpublished)
    unfold Observed.stage
    dsimp only
    rw [running, hc]
    exact hlt
  | abandons d hp hc hn =>
    unfold Observed.stage
    dsimp only
    rw [hp, hc]
    exact Nat.le_add_left 1 5
  | runnerEmits sets m hp hr hm =>
    obtain ⟨hkept, hc, -, hcaller, -⟩ := hm.kept
    exact stage_same hc (by rw [hkept]) hcaller
  | runnerThrows d hp he hn hm ht => exact stage_same rfl hm.frame.main rfl
  | opens hp hc =>
    unfold Observed.stage
    dsimp only
    rw [hp, hc, h.opening (.inl hp)]
    exact Nat.le_refl 1
  | returns hr hp hc =>
    unfold Observed.stage
    dsimp only
    rw [hr, hp, hc]
    exact Nat.le_succ 5
  | _ => exact stage_same rfl rfl rfl

end LocalVault.Snapshot
