import LocalVault.Proofs.Stages

namespace LocalVault.Snapshot
open Library Repository

variable {c : Config} {x : Externals} {w u : Observed} {s t : State} {m m' : Emitter}

/-- The stage in which the calling thread asks. -/
def Occasion.place : Occasion → Option Nat
  | .preparing => some 0
  | .scanning => some 1
  | .finalizing => some 3
  | .complete => some 4
  | _ => none

theorem place_injective {o o' : Occasion} {k : Nat} (h : o.place = some k) (h' : o'.place = some k) :
    o = o' := by
  cases o <;> cases h <;> cases o' <;> first | rfl | cases h'

def OperationPhase.rank : OperationPhase → Nat
  | .preparing => 0
  | .scanning => 1
  | .writingMetadata => 2
  | .finalizing => 3
  | .complete => 4

/-- A thread that ran has gone. -/
def ProgressPc.gone : ProgressPc → Bool
  | .waiting | .running => false
  | _ => true

/-- Every occasion but the ordinary one comes at most once. -/
structure Once (w : Observed) : Prop where
  nodup : (w.asked.filter Occasion.required).Nodup
  placed : ∀ o ∈ w.asked, ∀ k, o.place = some k → k < w.stage
  passed : (∀ f, w.pipeline.main ≠ .failing f) → w.course ≠ .thrown →
    ∀ o k, o.place = some k → k < w.stage → o ∈ w.asked
  completion : .scanCompletion ∈ w.asked → w.aggregator.scanComplete = true ∧
    w.aggregator.scanCompletionPending = false ∧ ∀ path, w.runner ≠ .consumed path true
  consumed : ∀ path, w.runner = .consumed path true → w.aggregator.scanComplete = true ∧
    w.aggregator.scanCompletionPending = false
  pending : w.aggregator.scanCompletionPending = true → w.aggregator.scanComplete = true
  completes : w.aggregator.scanComplete = true → w.aggregator.scanCompletionPending = true ∨
    (∃ path, w.runner = .consumed path true) ∨ .scanCompletion ∈ w.asked
  writing : .firstWriting ∈ w.asked → w.aggregator.writingPhaseEmitted = true ∨
    w.runner = .emitting true ∨ w.pipeline.progress.gone = true

theorem once_start {v : Vault} {e : Bool} {now : Int} : Once (.start c v e now) where
  nodup := List.nodup_nil
  placed o h := by cases h
  passed _ _ o k _ h := by cases h
  completion h := by cases h
  consumed path h := by cases h
  pending h := by cases h
  completes h := by cases h
  writing h := by cases h

/-- What the places of the calling thread and the flags are to each other. -/
structure SameFlags (a b : ProgressAggregator) : Prop where
  scanComplete : b.scanComplete = a.scanComplete
  pending : b.scanCompletionPending = a.scanCompletionPending
  writing : b.writingPhaseEmitted = a.writingPhaseEmitted

theorem Records.flags {a b : ProgressAggregator} {r r' : Recorder} (h : Records a r r' b) :
    SameFlags a b := by
  cases h <;> exact ⟨rfl, rfl, rfl⟩

theorem EmitMove.flags (h : EmitMove w m u m') : SameFlags w.aggregator u.aggregator ∧
    u.asked = w.asked := by
  cases h <;> exact ⟨⟨rfl, rfl, rfl⟩, rfl⟩

theorem Once.same (h : Once w) (hasked : u.asked = w.asked)
    (hflags : SameFlags w.aggregator u.aggregator) (hrunner : u.runner = w.runner)
    (hgone : w.pipeline.progress.gone = true → u.pipeline.progress.gone = true)
    (hle : w.stage ≤ u.stage)
    (hpassed : (∀ f, u.pipeline.main ≠ .failing f) → u.course ≠ .thrown →
      ∀ o k, o.place = some k → k < u.stage → o ∈ w.asked) : Once u := by
  constructor
  · rw [hasked]
    exact h.nodup
  · rw [hasked]
    exact fun o ho k hk => (h.placed o ho k hk).trans_le hle
  · rw [hasked]
    exact hpassed
  · rw [hasked, hflags.scanComplete, hflags.pending, hrunner]
    exact h.completion
  · rw [hflags.scanComplete, hflags.pending, hrunner]
    exact h.consumed
  · rw [hflags.scanComplete, hflags.pending]
    exact h.pending
  · rw [hasked, hflags.scanComplete, hflags.pending, hrunner]
    exact h.completes
  · rw [hasked, hflags.writing, hrunner]
    exact fun hw => (h.writing hw).imp_right (Or.imp_right hgone)

/-- A step at which the calling thread stays where it is. -/
theorem Once.still (h : Once w) (hasked : u.asked = w.asked)
    (hflags : SameFlags w.aggregator u.aggregator) (hrunner : u.runner = w.runner)
    (hgone : w.pipeline.progress.gone = true → u.pipeline.progress.gone = true)
    (hc : u.course = w.course) (hm : u.pipeline.main = w.pipeline.main)
    (hcaller : u.caller.busy = w.caller.busy) : Once u := by
  have hstage : u.stage = w.stage := by
    unfold Observed.stage
    rw [hc, hm, hcaller]
  refine h.same hasked hflags hrunner hgone hstage.ge fun hf ht => ?_
  rw [hstage]
  exact h.passed (fun f => hm ▸ hf f) (hc ▸ ht)

theorem Creates.gone {n : Nat} (h : Creates c s n t) (hu : Uncreated n s)
    (hg : s.progress.gone = true) : t.progress.gone = true := by
  cases h with
  | progress =>
    rw [hu.progress rfl] at hg
    cases hg
  | _ => exact hg

/-- The progress thread does not come back. -/
theorem MainMove.gone (h : MainMove c s t) (hy : Young s) (hg : s.progress.gone = true) :
    t.progress.gone = true := by
  cases h with
  | cancels f stage =>
    have hu : Untouched s (s.shut f stage) := shut_untouched
    rwa [← hu.progress] at hg
  | creates n hp => exact (create_creates n).gone (hy n (by rw [hp]; rfl)) hg
  | shuts f stage =>
    have hu : Untouched s (s.shut f stage) := shut_untouched
    rwa [← hu.progress] at hg
  | _ => exact hg

theorem OtherMove.gone (h : OtherMove c s t) (hg : s.progress.gone = true) :
    t.progress.gone = true := by
  cases h with
  | progressFails => rfl
  | progressEnds => rfl
  | progressShuts f stage =>
    rcases afterStage_cases ProgressPc.shutting .done f stage with he | ⟨next, he⟩ <;>
      simp [he, ProgressPc.gone]
  | cancellerShuts f stage =>
    exact (congrArg ProgressPc.gone shut_untouched.progress).trans hg
  | _ => exact hg

/-- The stage of a call of `emit` is the place of its occasion and the rank of its phase. -/
theorem due_stage {n : Notice} (hd : w.due c = some n) :
    n.occasion.place = some n.phase.rank ∧ w.stage = n.phase.rank + w.caller.busy ∧
      n.occasion.required = true := by
  unfold Observed.due at hd
  unfold Observed.stage
  split at hd
  · rename_i hc
    cases hd
    rw [hc]
    exact ⟨rfl, (Nat.zero_add _).symm, rfl⟩
  · rename_i hc hp
    cases hd
    rw [hc, hp]
    exact ⟨rfl, rfl, rfl⟩
  · rename_i hc hp
    cases hd
    rw [hc, hp]
    exact ⟨rfl, rfl, rfl⟩
  · rename_i hc hp
    cases hd
    rw [hc, hp]
    exact ⟨rfl, rfl, rfl⟩
  · cases hd

theorem nodup_required {asked : List Occasion} {o : Occasion}
    (h : (asked.filter Occasion.required).Nodup) (hn : o.required = true → o ∉ asked) :
    ((asked ++ [o]).filter Occasion.required).Nodup := by
  rw [List.filter_append]
  cases ho : o.required with
  | false => simpa [ho] using h
  | true =>
    rw [List.filter_singleton, ho]
    refine List.nodup_append.mpr ⟨h, List.nodup_singleton _, fun a ha b hb => ?_⟩
    rintro rfl
    rw [List.mem_singleton.mp hb] at ha
    exact hn ho (List.mem_filter.mp ha).1

/-- The calling thread asks. -/
theorem Once.asks {n : Notice} (h : Once w) (hd : w.due c = some n) (hi : w.caller = .idle) :
    Once { w.ask n with caller := .asked n } := by
  obtain ⟨hplace, hstage, hrequired⟩ := due_stage hd
  rw [hi] at hstage
  have hnew : { w.ask n with caller := .asked n }.stage = n.phase.rank + 1 := by
    have hd' : { w.ask n with caller := .asked n }.due c = some n := hd
    exact (due_stage hd').2.1
  have hfresh : n.occasion ∉ w.asked := by
    intro hmem
    have hlt := h.placed _ hmem _ hplace
    rw [hstage] at hlt
    exact absurd hlt (Nat.lt_irrefl _)
  have hmember : ∀ {o}, o ∈ w.asked ++ [n.occasion] → o ∈ w.asked ∨ o = n.occasion :=
    fun ho => (List.mem_append.mp ho).imp_right List.mem_singleton.mp
  have hother : ∀ o, o.place = none → o ∈ w.asked ++ [n.occasion] → o ∈ w.asked := by
    intro o hnone ho
    rcases hmember ho with ho | rfl
    · exact ho
    · rw [hplace] at hnone
      cases hnone
  constructor
  · exact nodup_required h.nodup fun _ => hfresh
  · intro o ho k hk
    rw [hnew]
    rcases hmember ho with ho | rfl
    · have hlt := h.placed o ho k hk
      rw [hstage] at hlt
      exact Nat.lt_succ_of_lt hlt
    · rw [hplace] at hk
      cases hk
      exact Nat.lt_succ_self _
  · intro hf ht o k hk hlt
    rw [hnew] at hlt
    refine List.mem_append.mpr ?_
    rcases Nat.lt_succ_iff_lt_or_eq.mp hlt with hlt | rfl
    · exact .inl (h.passed hf ht o k hk (by rw [hstage]; exact hlt))
    · exact .inr (List.mem_singleton.mpr (place_injective hk hplace))
  · exact fun hmem => h.completion (hother _ rfl hmem)
  · exact h.consumed
  · exact h.pending
  · exact fun hcomplete => (h.completes hcomplete).imp_right
      (Or.imp_right (List.mem_append_left _))
  · exact fun hmem => h.writing (hother _ rfl hmem)

/-- What the progress thread asks for. -/
theorem judged_cases (path : Path) (completion : Bool) :
    (completion = true ∧ (w.judged path completion).1.occasion = .scanCompletion) ∨
    (completion = false ∧ (w.judged path completion).1.occasion = .firstWriting ∧
      (w.judged path completion).2 = true ∧ w.aggregator.writingPhaseEmitted = false) ∨
    (completion = false ∧ (w.judged path completion).1.occasion = .ordinary) := by
  unfold Observed.judged
  dsimp only
  cases completion with
  | true => exact .inl ⟨rfl, rfl⟩
  | false =>
    right
    rw [if_neg Bool.false_ne_true]
    split
    · rename_i hfirst
      simp only [Bool.and_eq_true, Bool.not_eq_true'] at hfirst
      exact .inl ⟨rfl, rfl, rfl, hfirst.2⟩
    · exact .inr ⟨rfl, rfl⟩

/-- The progress thread asks. -/
theorem Once.judges {path : Path} {completion : Bool} (h : Once w)
    (hr : w.runner = .consumed path completion) (hp : w.pipeline.progress = .running) :
    Once { w.ask (w.judged path completion).1 with
      runner := .emitting (w.judged path completion).2
      emitter := .asked (w.judged path completion).1 } := by
  have hmember : ∀ {o}, o ∈ w.asked ++ [(w.judged path completion).1.occasion] →
      o ∈ w.asked ∨ o = (w.judged path completion).1.occasion :=
    fun ho => (List.mem_append.mp ho).imp_right List.mem_singleton.mp
  have hgone : w.pipeline.progress.gone = false := by
    rw [hp]
    rfl
  have hflag : .firstWriting ∈ w.asked → w.aggregator.writingPhaseEmitted = true := by
    intro hmem
    rcases h.writing hmem with hwriting | hemitting | hg
    · exact hwriting
    · rw [hr] at hemitting
      cases hemitting
    · rw [hgone] at hg
      cases hg
  have hcases := judged_cases (w := w) path completion
  have hplace : (w.judged path completion).1.occasion.place = none := by
    rcases hcases with ⟨-, ho⟩ | ⟨-, ho, -⟩ | ⟨-, ho⟩ <;> rw [ho] <;> rfl
  constructor
  · refine nodup_required h.nodup fun hrequired hmem => ?_
    rcases hcases with ⟨rfl, ho⟩ | ⟨-, ho, -, hfirst⟩ | ⟨-, ho⟩
    · rw [ho] at hmem
      exact (h.completion hmem).2.2 path hr
    · rw [ho] at hmem
      rw [hflag hmem] at hfirst
      cases hfirst
    · rw [ho] at hrequired
      cases hrequired
  · intro o ho k hk
    rcases hmember ho with ho | rfl
    · exact h.placed o ho k hk
    · rw [hplace] at hk
      cases hk
  · exact fun hf ht o k hk hlt => List.mem_append_left _ (h.passed hf ht o k hk hlt)
  · intro hmem
    rcases hmember hmem with hmem | ho
    · obtain ⟨hcomplete, hpending, -⟩ := h.completion hmem
      exact ⟨hcomplete, hpending, nofun⟩
    · rcases hcases with ⟨rfl, -⟩ | ⟨-, ho', -⟩ | ⟨-, ho'⟩
      · obtain ⟨hcomplete, hpending⟩ := h.consumed path hr
        exact ⟨hcomplete, hpending, nofun⟩
      · rw [ho'] at ho
        cases ho
      · rw [ho'] at ho
        cases ho
  · exact nofun
  · exact h.pending
  · intro hcomplete
    rcases h.completes hcomplete with hpending | ⟨path', hconsumed⟩ | hmem
    · exact .inl hpending
    · rw [hr] at hconsumed
      cases hconsumed
      refine .inr (.inr (List.mem_append_right _ (List.mem_singleton.mpr ?_)))
      rcases hcases with ⟨-, ho⟩ | ⟨hfalse, -⟩ | ⟨hfalse, -⟩
      · exact ho.symm
      · cases hfalse
      · cases hfalse
    · exact .inr (.inr (List.mem_append_left _ hmem))
  · intro hmem
    rcases hmember hmem with hmem | ho
    · exact .inl (hflag hmem)
    · rcases hcases with ⟨-, ho'⟩ | ⟨-, -, hsets, -⟩ | ⟨-, ho'⟩
      · rw [ho'] at ho
        cases ho
      · exact .inr (.inl (congrArg Runner.emitting hsets))
      · rw [ho'] at ho
        cases ho

theorem stage_alive {pc : MainPc} (h : ∀ f, pc ≠ .failing f) : pc.stage ≤ 4 := by
  cases pc with
  | failing f => exact absurd rfl (h f)
  | _ => simp [MainPc.stage]

theorem place_le {o : Occasion} {k : Nat} (h : o.place = some k) : k ≤ 4 ∧ k ≠ 2 := by
  cases o <;> cases h <;> decide

/-- Leaving its place, the calling thread skips no call of `emit`. -/
theorem Once.left (h : Once w) (hp : Placed c w) (hm : MainMove c w.pipeline t)
    (hc : w.course = .running)
    (hover : w.pipeline.main = .announcing ∨ w.pipeline.main = .finalizing → w.caller = .over)
    (hf : ∀ f, t.main ≠ .failing f) {o : Occasion} {k : Nat} (hk : o.place = some k)
    (hlt : k < t.main.stage) : o ∈ w.asked := by
  have hstage : w.stage = w.pipeline.main.stage + w.caller.busy := by
    unfold Observed.stage
    rw [hc]
  have hplaces := place_le hk
  have hthrown : w.course ≠ .thrown := by
    rw [hc]
    exact nofun
  rcases hm.stages with ⟨f, hfails⟩ | ⟨hmain, ht⟩ | ⟨hmain, ht⟩ | ⟨ha, hfinal, ht⟩
  · exact absurd hfails (hf f)
  · rw [hmain, hover (.inl hmain)] at hstage
    refine h.passed (fun f => by rw [hmain]; exact nofun) hthrown o k hk ?_
    rw [hstage]
    change k < 2
    omega
  · rw [hmain, hover (.inr hmain)] at hstage
    refine h.passed (fun f => by rw [hmain]; exact nofun) hthrown o k hk ?_
    rw [hstage]
    change k < 4
    omega
  · have halive : ∀ f, w.pipeline.main ≠ .failing f := by
      intro f hfails
      have hle := stage_alive hf
      rw [ht, hfails] at hle
      exact absurd hle (by simp [MainPc.stage])
    rw [ht] at hlt
    refine h.passed halive hthrown o k hk ?_
    omega

theorem Happens.once (hp : Placed c w) (h : Once w) (hm : Happens c x w u) : Once u := by
  have hstage := hm.stage hp
  cases hm with
  | scanner hm =>
    exact h.still rfl ⟨rfl, rfl, rfl⟩ rfl (by rw [hm.frame.progress]; exact id) rfl hm.frame.main rfl
  | worker i hi hm =>
    exact h.still rfl ⟨rfl, rfl, rfl⟩ rfl (by rw [hm.frame.progress]; exact id) rfl hm.frame.main rfl
  | writer hm =>
    exact h.still rfl ⟨rfl, rfl, rfl⟩ rfl (by rw [hm.frame.progress]; exact id) rfl hm.frame.main rfl
  | main hm hc hover =>
    refine h.same rfl ⟨rfl, rfl, rfl⟩ rfl (hm.gone hp.orderly.young) hstage
      fun hf _ o k hk hlt => h.left hp hm hc hover hf hk ?_
    have hidle : w.caller.leave.busy = 0 := by
      rcases hp.left hm hc hover with hi | ⟨hi, -⟩ <;> rw [hi] <;> rfl
    unfold Observed.stage at hlt
    dsimp only at hlt
    rwa [hc, hidle] at hlt
  | other hm => exact h.still rfl ⟨rfl, rfl, rfl⟩ rfl hm.gone rfl hm.frame.main rfl
  | discovers e rest r b hpc hr => exact h.still rfl hr.flags rfl id rfl rfl rfl
  | processes i p e r b hi hpc hv hr => exact h.still rfl hr.flags rfl id rfl rfl rfl
  | scannerOverflows e rest f hpc hm =>
    exact h.still rfl ⟨rfl, rfl, rfl⟩ rfl (by rw [hm.frame.progress]; exact id) rfl hm.frame.main rfl
  | workerOverflows i p e f hi hpc hv hm =>
    exact h.still rfl ⟨rfl, rfl, rfl⟩ rfl (by rw [hm.frame.progress]; exact id) rfl hm.frame.main rfl
  | marks hpc hn =>
    refine ⟨h.nodup, h.placed, h.passed, fun hmem => ?_, fun path hr => ?_, fun _ => rfl,
      fun _ => .inl rfl, h.writing⟩
    · rw [(h.completion hmem).1] at hn
      cases hn
    · rw [(h.consumed path hr).1] at hn
      cases hn
  | asks n hd hi => exact h.asks hd hi
  | callerEmits n m hd hm =>
    obtain ⟨hkept, hc, hr, -, -⟩ := hm.kept
    obtain ⟨hold, hnew⟩ := hm.busy
    obtain ⟨hflags, hasked⟩ := hm.flags
    refine h.still hasked hflags hr (by dsimp only; rw [hkept]; exact id) hc (by dsimp only; rw [hkept]) ?_
    exact (Emitter.busy_one hnew).trans (Emitter.busy_one hold).symm
  | callerThrows n d hd hc hn hm running ht =>
    refine h.same rfl ⟨rfl, rfl, rfl⟩ rfl (hm.gone hp.orderly.young) hstage fun hf => ?_
    obtain ⟨f, hfails⟩ := ht
    exact absurd hfails (hf f)
  | abandons d hpc hc hn =>
    exact h.same rfl ⟨rfl, rfl, rfl⟩ rfl id hstage fun _ ht => absurd rfl ht
  | consumes hpc hr hd hc =>
    refine ⟨h.nodup, h.placed, h.passed, fun hmem => ?_, fun path hconsumed => ?_,
      (fun hpending => by cases hpending), fun hcomplete => ?_, fun hmem => ?_⟩
    · obtain ⟨hcomplete, hpending, -⟩ := h.completion hmem
      refine ⟨hcomplete, rfl, fun path hconsumed => ?_⟩
      dsimp only at hconsumed
      rw [hpending] at hconsumed
      cases hconsumed
    · refine ⟨h.pending ?_, rfl⟩
      simp only [Runner.consumed.injEq] at hconsumed
      exact hconsumed.2
    · rcases h.completes hcomplete with hpending | ⟨path, hconsumed⟩ | hmem
      · refine .inr (.inl ⟨w.aggregator.currentPath, ?_⟩)
        dsimp only
        rw [hpending]
      · rw [hr] at hconsumed
        cases hconsumed
      · exact .inr (.inr hmem)
    · rcases h.writing hmem with hwriting | hemitting | hg
      · exact .inl hwriting
      · rw [hr] at hemitting
        cases hemitting
      · exact .inr (.inr hg)
  | judges path completion hpc hr => exact h.judges hr hpc
  | resumes sets hpc hr he =>
    refine ⟨h.nodup, h.placed, h.passed, fun hmem => ?_, (fun path hn => by cases hn), h.pending,
      fun hcomplete => ?_, fun hmem => ?_⟩
    · exact ⟨(h.completion hmem).1, (h.completion hmem).2.1, nofun⟩
    · rcases h.completes hcomplete with hpending | ⟨path, hconsumed⟩ | hmem
      · exact .inl hpending
      · rw [hr] at hconsumed
        cases hconsumed
      · exact .inr (.inr hmem)
    · rcases h.writing hmem with hwriting | hemitting | hg
      · left
        dsimp only
        rw [hwriting, Bool.true_or]
      · rw [hr, Runner.emitting.injEq] at hemitting
        left
        dsimp only
        rw [hemitting, Bool.or_true]
      · exact .inr (.inr hg)
  | runnerEmits sets m hpc hr hm =>
    obtain ⟨hkept, hc, hrunner, hcaller, -⟩ := hm.kept
    obtain ⟨hflags, hasked⟩ := hm.flags
    exact h.still hasked hflags hrunner (by dsimp only; rw [hkept]; exact id) hc
      (by dsimp only; rw [hkept]) (congrArg Emitter.busy hcaller)
  | @runnerThrows t d hpc he hn hm ht =>
    obtain ⟨sets, hr⟩ := hp.emitter (by rw [he]; exact nofun)
    obtain ⟨f, hshutting⟩ := ht
    have hsame : Once { w with pipeline := t } :=
      h.still rfl ⟨rfl, rfl, rfl⟩ rfl hm.gone rfl hm.frame.main rfl
    refine ⟨hsame.nodup, hsame.placed, hsame.passed, fun hmem => ?_, (fun path hn => by cases hn),
      hsame.pending, fun hcomplete => ?_, fun hmem => .inr (.inr ?_)⟩
    · exact ⟨(h.completion hmem).1, (h.completion hmem).2.1, nofun⟩
    · rcases h.completes hcomplete with hpending | ⟨path, hconsumed⟩ | hmem
      · exact .inl hpending
      · rw [hr] at hconsumed
        cases hconsumed
      · exact .inr (.inr hmem)
    · dsimp only
      rw [hshutting]
      rfl
  | opens hpc hc =>
    have hmain := hp.opening (.inl hpc)
    refine h.same rfl ⟨rfl, rfl, rfl⟩ rfl id hstage fun hf _ o k hk hlt => ?_
    have hthrown : w.course ≠ .thrown := by
      rw [hpc]
      exact nofun
    refine h.passed hf hthrown o k hk ?_
    unfold Observed.stage at hlt ⊢
    dsimp only at hlt
    rw [hmain] at hlt
    rw [hpc, hc]
    exact hlt
  | returns hr hpc hc =>
    refine h.same rfl ⟨rfl, rfl, rfl⟩ rfl id hstage fun hf _ o k hk _ => ?_
    have hthrown : w.course ≠ .thrown := by
      rw [hr]
      exact nofun
    refine h.passed hf hthrown o k hk ?_
    unfold Observed.stage
    rw [hr, hpc, hc]
    exact Nat.lt_succ_of_le (place_le hk).1
  | _ => exact h.still rfl ⟨rfl, rfl, rfl⟩ rfl id rfl rfl rfl

end LocalVault.Snapshot
