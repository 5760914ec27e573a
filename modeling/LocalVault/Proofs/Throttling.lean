import Mathlib.Data.List.TakeWhile
import LocalVault.Library.Window
import LocalVault.Proofs.Occasions

namespace LocalVault.Snapshot
open Library Repository

variable {c : Config} {x : Externals} {w u : Observed} {s t : State} {m m' : Emitter}

def Emission.ordinary (e : Emission) : Bool := !e.required

/-- A required call of `emit` that has not looked at the clock. -/
def Emitter.waits : Emitter → Nat
  | .asked n => if n.occasion.required then 1 else 0
  | _ => 0

/-- The window of `emit`: what it has forgotten is old, and what it remembers is within its
bounds. -/
structure Throttled (w : Observed) : Prop where
  ordinary : (w.aggregator.emissions.filter Emission.ordinary).length ≤ 4
  required : (w.emitted.filter Emission.required).length + w.caller.waits + w.emitter.waits ≤
    (w.asked.filter Occasion.required).length
  recent : ∃ old, w.emitted = old ++ w.aggregator.emissions ∧
    ∀ e ∈ old, e.time + second ≤ w.now
  window : ∀ start, (within Emission.time second start w.emitted).length ≤ 10
  ordinaryWindow : ∀ start,
    (within Emission.time second start (w.emitted.filter Emission.ordinary)).length ≤ 4
  suppressed : ∀ n ∈ w.suppressed, n.occasion.required = false

theorem throttled_start {v : Vault} {e : Bool} {now : Int} : Throttled (.start c v e now) where
  ordinary := Nat.zero_le _
  required := Nat.le_refl _
  recent := ⟨[], rfl, fun e h => by cases h⟩
  window _ := Nat.zero_le _
  ordinaryWindow _ := Nat.zero_le _
  suppressed n h := by cases h

/-- There are six required occasions. -/
theorem Once.few (h : Once w) : (w.asked.filter Occasion.required).length ≤ 6 := by
  have hsub : w.asked.filter Occasion.required ⊆ [.preparing, .scanning, .scanCompletion,
      .firstWriting, .finalizing, .complete] := by
    intro o ho
    have hrequired := (List.mem_filter.mp ho).2
    cases o with
    | ordinary => cases hrequired
    | _ => simp
  exact (h.nodup.subperm hsub).length_le

/-- `emit` forgets old emissions only. -/
theorem recent_split (a : ProgressAggregator) (now : Int) :
    ∃ old, a.emissions = old ++ a.recent now ∧ ∀ e ∈ old, e.time + second ≤ now := by
  refine ⟨_, (List.takeWhile_append_dropWhile
    (p := fun e : Emission => e.time ≤ now && second ≤ now - e.time)).symm, fun e he => ?_⟩
  have hold := List.mem_takeWhile_imp he
  simp only [Bool.and_eq_true, decide_eq_true_eq] at hold
  omega

theorem length_split (l : List Emission) : l.length =
    (l.filter Emission.required).length + (l.filter Emission.ordinary).length :=
  List.length_eq_length_filter_add Emission.required

/-- The window behind the emissions that `emit` forgets at a call. -/
theorem Throttled.split (h : Throttled w) : ∃ old,
    w.emitted = old ++ w.aggregator.recent w.now ∧ ∀ e ∈ old, e.time + second ≤ w.now := by
  obtain ⟨older, hemitted, holder⟩ := h.recent
  obtain ⟨old, hemissions, hold⟩ := recent_split w.aggregator w.now
  refine ⟨older ++ old, ?_, fun e he => ?_⟩
  · rw [hemitted, hemissions, List.append_assoc, ← hemissions]
  · exact (List.mem_append.mp he).elim (holder e) (hold e)

theorem Throttled.recent_ordinary (h : Throttled w) :
    ((w.aggregator.recent w.now).filter Emission.ordinary).length ≤ 4 := by
  have hsub : (w.aggregator.recent w.now).Sublist w.aggregator.emissions :=
    List.dropWhile_sublist _
  exact (hsub.filter _).length_le.trans h.ordinary

/-- A required call finds room. -/
theorem Throttled.admits (h : Throttled w) (ho : Once w)
    (hwaits : 1 ≤ w.caller.waits + w.emitter.waits) :
    ProgressAggregator.admits (w.aggregator.recent w.now) true = true := by
  obtain ⟨old, hemitted, -⟩ := h.split
  have hordinary := h.recent_ordinary
  have hrequired := h.required
  have hfew := ho.few
  have hlength := length_split (w.aggregator.recent w.now)
  have hpart : ((w.aggregator.recent w.now).filter Emission.required).length ≤
      (w.emitted.filter Emission.required).length := by
    rw [hemitted, List.filter_append, List.length_append]
    exact Nat.le_add_left _ _
  simp only [ProgressAggregator.admits, Bool.true_or, Bool.and_true, decide_eq_true_eq]
  omega

/-- What a step of `emit` leaves of the window, and of the call that waited. -/
structure EmitThrottled (w u : Observed) (m m' : Emitter) : Prop where
  ordinary : (u.aggregator.emissions.filter Emission.ordinary).length ≤ 4
  required : (u.emitted.filter Emission.required).length + m'.waits =
    (w.emitted.filter Emission.required).length + m.waits
  recent : ∃ old, u.emitted = old ++ u.aggregator.emissions ∧
    ∀ e ∈ old, e.time + second ≤ u.now
  window : ∀ start, (within Emission.time second start u.emitted).length ≤ 10
  ordinaryWindow : ∀ start,
    (within Emission.time second start (u.emitted.filter Emission.ordinary)).length ≤ 4
  suppressed : ∀ n ∈ u.suppressed, n.occasion.required = false

theorem Throttled.lets {n : Notice} (h : Throttled w)
    (ha : ProgressAggregator.admits (w.aggregator.recent w.now) n.occasion.required = true) :
    EmitThrottled w { w with
      aggregator := { w.aggregator with
        emissions := w.aggregator.recent w.now ++ [⟨w.now, n.occasion.required⟩] }
      emitted := w.emitted ++ [⟨w.now, n.occasion.required⟩] } (.asked n)
      (.building ⟨n, w.now, none, []⟩) := by
  obtain ⟨old, hemitted, hold⟩ := h.split
  simp only [ProgressAggregator.admits, Bool.and_eq_true, decide_eq_true_eq, Bool.or_eq_true] at ha
  obtain ⟨hroom, hordinary⟩ := ha
  have hrecent := h.recent_ordinary
  have hfew : n.occasion.required = false →
      ((w.aggregator.recent w.now).filter Emission.ordinary).length < 4 := fun hn =>
    hordinary.resolve_left (by rw [hn]; decide)
  refine ⟨?_, ?_, ⟨old, ?_, hold⟩, ?_, ?_, h.suppressed⟩
  · rw [List.filter_append, List.length_append, List.filter_singleton]
    cases hn : n.occasion.required with
    | true => simpa [Emission.ordinary] using hrecent
    | false => exact Nat.succ_le_of_lt (hfew hn)
  · rw [List.filter_append, List.length_append, List.filter_singleton]
    cases hn : n.occasion.required <;> simp [Emitter.waits, hn]
  · dsimp only
    rw [hemitted, List.append_assoc]
  · exact within_push h.window hemitted hold hroom
  · cases hn : n.occasion.required with
    | true =>
      have hsame : (w.emitted ++ [(⟨w.now, true⟩ : Emission)]).filter Emission.ordinary =
          w.emitted.filter Emission.ordinary := by
        rw [List.filter_append, List.filter_singleton]
        exact List.append_nil _
      dsimp only
      rw [hsame]
      exact h.ordinaryWindow
    | false =>
      have hmore : (w.emitted ++ [(⟨w.now, false⟩ : Emission)]).filter Emission.ordinary =
          w.emitted.filter Emission.ordinary ++ [(⟨w.now, false⟩ : Emission)] := by
        rw [List.filter_append, List.filter_singleton]
        rfl
      dsimp only
      rw [hmore]
      have hsplit : w.emitted.filter Emission.ordinary = old.filter Emission.ordinary ++
          (w.aggregator.recent w.now).filter Emission.ordinary := by
        rw [← List.filter_append, ← hemitted]
      exact within_push h.ordinaryWindow hsplit (fun e he => hold e (List.mem_of_mem_filter he))
        (hfew hn)

theorem EmitMove.throttled (hm : EmitMove w m u m') (h : Throttled w) (ho : Once w)
    (hwaits : m.waits ≤ w.caller.waits + w.emitter.waits) : EmitThrottled w u m m' := by
  cases hm with
  | lets n ha => exact h.lets ha
  | suppresses n ha =>
    have hordinary : n.occasion.required = false := by
      cases hn : n.occasion.required with
      | false => rfl
      | true =>
        have hroom := h.admits ho (by simpa [Emitter.waits, hn] using hwaits)
        rw [hn, hroom] at ha
        cases ha
    obtain ⟨old, hemitted, hold⟩ := h.split
    refine ⟨h.recent_ordinary, ?_, ⟨old, hemitted, hold⟩, h.window, h.ordinaryWindow, fun n' hn => ?_⟩
    · simp [Emitter.waits, hordinary]
    · rcases List.mem_append.mp hn with hn | hn
      · exact h.suppressed n' hn
      · rwa [List.mem_singleton.mp hn]
  | drafts d d' hd =>
    exact ⟨h.ordinary, rfl, h.recent, h.window, h.ordinaryWindow, h.suppressed⟩
  | delivers d hd =>
    exact ⟨h.ordinary, rfl, h.recent, h.window, h.ordinaryWindow, h.suppressed⟩

/-- A step that lets nothing through. -/
theorem Throttled.kept (h : Throttled w)
    (he : u.aggregator.emissions = w.aggregator.emissions) (hemitted : u.emitted = w.emitted)
    (hnow : w.now ≤ u.now) (hsuppressed : u.suppressed = w.suppressed)
    (hwaits : u.caller.waits + u.emitter.waits + (w.asked.filter Occasion.required).length ≤
      w.caller.waits + w.emitter.waits + (u.asked.filter Occasion.required).length) :
    Throttled u := by
  constructor
  · rw [he]
    exact h.ordinary
  · have hrequired := h.required
    rw [hemitted]
    omega
  · obtain ⟨old, hsplit, hold⟩ := h.recent
    exact ⟨old, by rw [hemitted, he, hsplit], fun e he => (hold e he).trans hnow⟩
  · rw [hemitted]
    exact h.window
  · rw [hemitted]
    exact h.ordinaryWindow
  · rw [hsuppressed]
    exact h.suppressed

theorem Records.emissions {a b : ProgressAggregator} {r r' : Recorder} (h : Records a r r' b) :
    b.emissions = a.emissions := by
  cases h <;> rfl

theorem leave_waits : m.leave.waits = m.waits := by
  cases m <;> rfl

/-- A call of `emit` waits for the clock if it is a required one. -/
theorem asked_waits (n : Notice) (asked : List Occasion) :
    Emitter.waits (.asked n) + (asked.filter Occasion.required).length =
      ((asked ++ [n.occasion]).filter Occasion.required).length := by
  rw [List.filter_append, List.length_append, List.filter_singleton, Nat.add_comm]
  cases hn : n.occasion.required <;> simp [Emitter.waits, hn]

theorem Happens.throttled (hp : Placed c w) (ho : Once w) (h : Throttled w)
    (hm : Happens c x w u) : Throttled u := by
  cases hm with
  | main hm hc hover => exact h.kept rfl rfl (le_refl _) rfl (by simp [leave_waits])
  | discovers e rest r b hpc hr => exact h.kept hr.emissions rfl (le_refl _) rfl (le_refl _)
  | processes i p e r b hi hpc hv hr => exact h.kept hr.emissions rfl (le_refl _) rfl (le_refl _)
  | asks n hd hi =>
    refine h.kept rfl rfl (le_refl _) rfl ?_
    have hcount := asked_waits n w.asked
    dsimp only [Observed.ask]
    omega
  | callerEmits n m hd hm =>
    obtain ⟨-, -, -, -, hemitter⟩ := hm.kept
    have hemit := hm.throttled h ho (Nat.le_add_right _ _)
    refine ⟨hemit.ordinary, ?_, hemit.recent, hemit.window, hemit.ordinaryWindow,
      hemit.suppressed⟩
    have hrequired := h.required
    have hsame := hemit.required
    dsimp only
    rw [hm.flags.2, hemitter]
    omega
  | callerThrows n d hd hc hn hm running ht =>
    refine h.kept rfl rfl (le_refl _) rfl ?_
    dsimp only
    rw [hc]
    exact le_refl _
  | abandons d hpc hc hn =>
    refine h.kept rfl rfl (le_refl _) rfl ?_
    dsimp only
    rw [hc]
    exact le_refl _
  | judges path completion hpc hr =>
    refine h.kept rfl rfl (le_refl _) rfl ?_
    have hcount := asked_waits (w.judged path completion).1 w.asked
    dsimp only [Observed.ask]
    omega
  | resumes sets hpc hr he =>
    refine h.kept rfl rfl (le_refl _) rfl ?_
    dsimp only
    rw [he]
    exact le_refl _
  | runnerEmits sets m hpc hr hm =>
    obtain ⟨-, -, -, hcaller, -⟩ := hm.kept
    have hemit := hm.throttled h ho (Nat.le_add_left _ _)
    refine ⟨hemit.ordinary, ?_, hemit.recent, hemit.window, hemit.ordinaryWindow,
      hemit.suppressed⟩
    have hrequired := h.required
    have hsame := hemit.required
    dsimp only
    rw [hm.flags.2, hcaller]
    omega
  | runnerThrows d hpc he hn hm ht =>
    refine h.kept rfl rfl (le_refl _) rfl ?_
    dsimp only
    rw [he]
    exact le_refl _
  | opens hpc hc =>
    refine h.kept rfl rfl (le_refl _) rfl ?_
    dsimp only
    rw [hc]
    exact le_refl _
  | clock now hle => exact h.kept rfl rfl hle rfl (le_refl _)
  | _ => exact h.kept rfl rfl (le_refl _) rfl (le_refl _)

end LocalVault.Snapshot
