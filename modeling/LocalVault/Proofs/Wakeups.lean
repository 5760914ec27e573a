import LocalVault.Library.Pool
import LocalVault.Proofs.BoundedQueue

namespace LocalVault.Concurrency
open Library

variable {α : Type} {c : Setup} {s t : State α} {i j : Nat}

/-- A thread has been woken and has not waited again or returned. -/
def Phase.notifiedOn (condition : Condition) : Phase α → Bool
  | .waiting call _ .woken => call.condition = condition
  | .waiting call _ (.testing notified) | .waiting call _ (.passed _ notified) =>
    notified && call.condition = condition
  | _ => false

/-- A parked push whose item fits into the contents. -/
def Phase.fits (c : Setup) (q : Contents α) : Phase α → Bool
  | .waiting (.push _ itemBytes) _ .parked => q.hasCapacity c itemBytes
  | _ => false

/-- How many notified calls have not taken their turn yet. -/
def State.pending (c : Setup) (s : State α) (condition : Condition) : Nat :=
  pooled c.threadCount fun i => ((s.phase i).notifiedOn condition).toNat

/-- A notified thread takes its turn with its next step: it returns, throws or waits again. -/
def State.takesTurn (c : Setup) (s : State α) (i : Nat) : Bool :=
  match s.phase i with
  | .waiting call token (.testing true) => !s.contents.ready c call && !s.stopRequested token
  | .waiting _ _ (.passed _ true) => true
  | _ => false

/-- The contents behind a push that succeeds with the step, else the contents. -/
def State.left (s : State α) : Label α → Contents α
  | .finish i _ =>
    match s.phase i with
    | .waiting (.push a itemBytes) _ _ => s.contents.append a itemBytes
    | _ => s.contents
  | _ => s.contents

/-- A notified pop leaves with the step and takes nothing. -/
def State.leavesEmptyHanded (s : State α) (i : Nat) : Label α → Bool
  | .finish _ _ => false
  | _ =>
    match s.phase i with
    | .waiting .pop _ (.passed _ true) => true
    | _ => false

/-- No wake-up is spent in vain. When the only notified push takes its turn, no parked push fits
into what it leaves; and when a notified pop leaves without an item, the other notified pops
are enough for the items, unless no pop is parked. -/
def Served (c : Setup) (s : State α) (l : Label α) : Prop :=
  ∀ i ∈ l.actor,
    (s.takesTurn c i = true → (s.phase i).notifiedOn .notFull = true →
      s.pending c .notFull = 1 →
      s.contents.closed = true ∨ ∀ j < c.threadCount, (s.phase j).fits c (s.left l) = false) ∧
    (s.leavesEmptyHanded i l = true →
      (∀ j < c.threadCount, (s.phase j).parkedOn ≠ some .notEmpty) ∨
        s.contents.items.length < s.pending c .notEmpty)

instance (c : Setup) (s : State α) (l : Label α) : Decidable (Served c s l) :=
  inferInstanceAs (Decidable (∀ i ∈ l.actor, _))

/-- Every step of a run meets the condition. -/
def AllServed (c : Setup) : State α → List (Label α) → Prop
  | _, [] => True
  | s, l :: ls => Served c s l ∧ ∀ t ∈ step c s l, AllServed c t ls

instance AllServed.decidable (c : Setup) :
    (s : State α) → (ls : List (Label α)) → Decidable (AllServed c s ls)
  | _, [] => .isTrue trivial
  | s, l :: ls =>
    haveI : DecidablePred fun t => AllServed c t ls := fun t => AllServed.decidable c t ls
    inferInstanceAs (Decidable (Served c s l ∧ ∀ t ∈ step c s l, AllServed c t ls))

/-- Outside the queue, or parked in it. -/
def Phase.resting : Phase α → Bool
  | .idle | .waiting _ _ .parked => true
  | _ => false

/-- Nobody is on the way through the queue. -/
def Quiescent (c : Setup) (s : State α) : Prop :=
  ∀ i < c.threadCount, (s.phase i).resting = true

instance (c : Setup) (s : State α) : Decidable (Quiescent c s) :=
  inferInstanceAs (Decidable (∀ i < c.threadCount, _))

/-- A push waits only for space and a pop only for data. -/
def WaitsInNeed (c : Setup) (s : State α) : Prop :=
  (s.contents.closed = false → ∀ i a itemBytes token,
    s.phase i = .waiting (.push a itemBytes) token .parked →
      s.contents.hasCapacity c itemBytes = false) ∧
  ∀ i token, s.phase i = .waiting .pop token .parked → s.contents.items = []

/-- The invariant: as long as a wake-up could be missing, there is a notified call. -/
structure Awake (c : Setup) (s : State α) : Prop where
  full : s.contents.closed = false → ∀ j, (s.phase j).fits c s.contents = true →
    0 < s.pending c .notFull
  empty : ∀ j, (s.phase j).parkedOn = some .notEmpty →
    s.contents.items.length ≤ s.pending c .notEmpty

theorem resting_notified {p : Phase α} {condition : Condition} (h : p.resting = true) :
    p.notifiedOn condition = false := by
  unfold Phase.resting at h
  split at h
  · rfl
  · rfl
  · cases h

theorem Awake.waitsInNeed (h : Awake c s) (hq : Quiescent c s) : WaitsInNeed c s := by
  have hnone : ∀ condition, s.pending c condition = 0 := by
    intro condition
    refine pooled_eq_zero.mpr fun i hi => ?_
    rw [resting_notified (hq i hi)]
    rfl
  refine ⟨fun hopen i a itemBytes token hi => ?_, fun i token hi => ?_⟩
  · by_contra hroom
    have hfull := h.full hopen i (by rw [hi]; simpa [Phase.fits] using hroom)
    rw [hnone] at hfull
    exact absurd hfull (lt_irrefl 0)
  · have hempty := h.empty i (by rw [hi]; rfl)
    rw [hnone] at hempty
    exact List.length_eq_zero_iff.mp (Nat.le_zero.mp hempty)

/-- One thread changes its phase: the notified calls change by it. -/
theorem pending_alone {thread : Thread α} {owner : Option Nat} (condition : Condition)
    (ht : Alone s t i thread owner) (hi : i < c.threadCount) :
    t.pending c condition + ((s.phase i).notifiedOn condition).toNat =
      s.pending c condition + (thread.phase.notifiedOn condition).toNat := by
  have hchange : t.pending c condition + ((s.phase i).notifiedOn condition).toNat =
      s.pending c condition + ((t.phase i).notifiedOn condition).toNat :=
    pooled_change (f := fun j => ((s.phase j).notifiedOn condition).toNat)
      (g := fun j => ((t.phase j).notifiedOn condition).toNat) hi fun j hj => by
        simp only [ht.phase hj]
  rwa [ht.phase_self] at hchange

theorem pending_mono (condition : Condition)
    (h : ∀ j, (s.phase j).notifiedOn condition = true → (t.phase j).notifiedOn condition = true) :
    s.pending c condition ≤ t.pending c condition := by
  unfold State.pending pooled
  refine Finset.sum_le_sum fun j _ => ?_
  cases hj : (s.phase j).notifiedOn condition with
  | false => exact Nat.zero_le _
  | true => rw [h j hj]

theorem pending_pos {condition : Condition} (hi : i < c.threadCount)
    (h : (s.phase i).notifiedOn condition = true) : 0 < s.pending c condition := by
  have hle : ((s.phase i).notifiedOn condition).toNat ≤ s.pending c condition :=
    le_pooled (f := fun i => ((s.phase i).notifiedOn condition).toNat) hi
  rw [h] at hle
  exact hle

/-- Only parked threads are woken, and on the condition they wait for. -/
theorem Woken.notified {condition : Condition} (h : Woken s t)
    (hj : (s.phase j).notifiedOn condition = true) : (t.phase j).notifiedOn condition = true := by
  rcases h.phase j with he | ⟨_, _, hs, _⟩
  · rwa [he]
  · rw [hs] at hj
    cases hj

theorem Woken.parked {condition : Condition} (h : Woken s t)
    (hj : (t.phase j).parkedOn = some condition) : (s.phase j).parkedOn = some condition := by
  rcases h.phase j with he | ⟨_, _, _, ht⟩
  · rwa [← he]
  · rw [ht] at hj
    cases hj

theorem Woken.fits {q : Contents α} (h : Woken s t) (hj : (t.phase j).fits c q = true) :
    (s.phase j).fits c q = true := by
  rcases h.phase j with he | ⟨_, _, _, ht⟩
  · rwa [← he]
  · simp [ht, Phase.fits] at hj

theorem notifyAll_parked (s : State α) (condition : Condition) (j : Nat) :
    ((s.notifyAll condition).phase j).parkedOn ≠ some condition := by
  unfold State.notifyAll State.phase
  dsimp only
  split
  · obtain ⟨call, token, hs, -⟩ := parkedOn_eq ‹_›
    have hphase : (s.threads j).phase = .waiting call token .parked := hs
    simp [hphase, Phase.wake, Phase.parkedOn]
  · assumption

theorem fits_parked {p : Phase α} {q : Contents α} (h : p.fits c q = true) :
    p.parkedOn = some .notFull := by
  unfold Phase.fits at h
  split at h
  · rfl
  · cases h

theorem Woken.awake (h : Awake c s) (hw : Woken s t) : Awake c t where
  full hopen j hj := by
    rw [hw.contents] at hopen hj
    exact (h.full hopen j (hw.fits hj)).trans_le (pending_mono _ fun _ => hw.notified)
  empty j hj := by
    rw [hw.contents]
    exact (h.empty j (hw.parked hj)).trans (pending_mono _ fun _ => hw.notified)

/-- A step that parks nobody and keeps the notification of its thread. -/
theorem Alone.awake_same {thread : Thread α} {owner : Option Nat} (h : Awake c s)
    (ht : Alone s t i thread owner) (hi : i < c.threadCount)
    (hsame : ∀ condition, thread.phase.notifiedOn condition = (s.phase i).notifiedOn condition)
    (hparked : thread.phase.parkedOn = none) : Awake c t := by
  have hpending : ∀ condition, t.pending c condition = s.pending c condition := by
    intro condition
    have hchange := pending_alone condition ht hi
    rw [hsame condition] at hchange
    omega
  have hother : ∀ j condition, (t.phase j).parkedOn = some condition → j ≠ i := by
    intro j condition hj he
    rw [he, ht.phase_self, hparked] at hj
    cases hj
  refine ⟨fun hopen j hj => ?_, fun j hj => ?_⟩
  · rw [hpending]
    rw [ht.contents] at hopen hj
    rw [ht.phase (hother j _ (fits_parked hj))] at hj
    exact h.full hopen j hj
  · rw [hpending, ht.contents]
    rw [ht.phase (hother j _ hj)] at hj
    exact h.empty j hj

/-- A step behind which its thread is not notified: a push that parks does not fit, a pop that
parks has nothing to take, and a notification that is spent is not missing. -/
theorem Alone.awake_turn {thread : Thread α} {owner : Option Nat} (h : Awake c s)
    (hs : Sound c s) (ht : Alone s t i thread owner) (hi : i < c.threadCount)
    (hspent : ∀ condition, thread.phase.notifiedOn condition = false)
    (hfull : thread.phase.fits c s.contents = false)
    (hempty : thread.phase.parkedOn = some .notEmpty → s.contents.items = [])
    (hpush : (s.phase i).notifiedOn .notFull = true → s.pending c .notFull = 1 →
      s.contents.closed = true ∨ ∀ j < c.threadCount, (s.phase j).fits c s.contents = false)
    (hpop : (s.phase i).notifiedOn .notEmpty = true → s.contents.items = [] ∨
      (∀ j < c.threadCount, (s.phase j).parkedOn ≠ some .notEmpty) ∨
        s.contents.items.length < s.pending c .notEmpty) : Awake c t := by
  have hpending : ∀ condition, t.pending c condition +
      ((s.phase i).notifiedOn condition).toNat = s.pending c condition := by
    intro condition
    have hchange := pending_alone condition ht hi
    rw [hspent condition] at hchange
    exact hchange
  have hmember : ∀ j condition, (s.phase j).parkedOn = some condition → j < c.threadCount := by
    intro j condition hj
    by_contra hout
    rw [hs.absent j (by omega)] at hj
    cases hj
  refine ⟨fun hopen j hj => ?_, fun j hj => ?_⟩
  · rw [ht.contents] at hopen hj
    by_cases he : j = i
    · rw [he, ht.phase_self, hfull] at hj
      cases hj
    · rw [ht.phase he] at hj
      have hlast := h.full hopen j hj
      have hchange := hpending .notFull
      cases hn : (s.phase i).notifiedOn .notFull with
      | false =>
        rw [hn, Bool.toNat_false] at hchange
        omega
      | true =>
        rw [hn, Bool.toNat_true] at hchange
        by_contra hnone
        rcases hpush hn (by omega) with hclosed | hfits
        · rw [hopen] at hclosed
          cases hclosed
        · rw [hfits j (hmember j _ (fits_parked hj))] at hj
          cases hj
  · rw [ht.contents]
    by_cases he : j = i
    · rw [he, ht.phase_self] at hj
      rw [hempty hj]
      exact Nat.zero_le _
    · rw [ht.phase he] at hj
      have hlast := h.empty j hj
      have hchange := hpending .notEmpty
      cases hn : (s.phase i).notifiedOn .notEmpty with
      | false =>
        rw [hn, Bool.toNat_false] at hchange
        omega
      | true =>
        rw [hn, Bool.toNat_true] at hchange
        rcases hpop hn with hitems | hnobody | hothers
        · rw [hitems]
          exact Nat.zero_le _
        · exact absurd hj (hnobody j (hmember j _ hj))
        · omega

/-- A pop is not ready only when nothing is there. -/
theorem empty_of_waits (h : s.contents.ready c (.pop : Call α) = false) :
    s.contents.items = [] := by
  simp only [Contents.ready, Bool.or_eq_false_iff, Bool.not_eq_false', List.isEmpty_iff] at h
  exact h.2

theorem full_of_waits {a : α} {itemBytes : UInt64}
    (h : s.contents.ready c (.push a itemBytes) = false) :
    s.contents.hasCapacity c itemBytes = false := by
  simp only [Contents.ready, Bool.or_eq_false_iff] at h
  exact h.2

theorem left_mover {l : Label α} (h : l.mover = some i) : s.left l = s.contents := by
  cases l with
  | finish => cases h
  | _ => rfl

theorem leavesEmptyHanded_mover {l : Label α} {token : Token} {ready : Bool}
    (h : l.mover = some i) (hp : s.phase i = .waiting .pop token (.passed ready true)) :
    s.leavesEmptyHanded i l = true := by
  cases l with
  | finish => cases h
  | _ => simp [State.leavesEmptyHanded, hp]

/-- What is left when a call returns and has not succeeded. -/
theorem Served.leaves {l : Label α} {call : Call α} {token : Token} {ready notified : Bool}
    (h : Served c s l) (hl : l.mover = some i)
    (hp : s.phase i = .waiting call token (.passed ready notified)) :
    ((s.phase i).notifiedOn .notFull = true → s.pending c .notFull = 1 →
      s.contents.closed = true ∨ ∀ j < c.threadCount, (s.phase j).fits c s.contents = false) ∧
    ((s.phase i).notifiedOn .notEmpty = true →
      (∀ j < c.threadCount, (s.phase j).parkedOn ≠ some .notEmpty) ∨
        s.contents.items.length < s.pending c .notEmpty) := by
  obtain ⟨hturn, hleave⟩ := h i (Label.mover_actor hl)
  rw [left_mover hl] at hturn
  refine ⟨fun hn => hturn ?_ hn, fun hn => hleave ?_⟩ <;> rw [hp] at hn <;> cases notified with
  | false => cases hn
  | true => ?_
  · simp [State.takesTurn, hp]
  · cases call with
    | push a itemBytes => simp [Phase.notifiedOn, Call.condition] at hn
    | pop => exact leavesEmptyHanded_mover hl hp

/-- What is left when a call waits again. -/
theorem Served.parks {l : Label α} {call : Call α} {token : Token} {notified : Bool}
    (h : Served c s l) (hl : l.mover = some i)
    (hp : s.phase i = .waiting call token (.testing notified))
    (hwaits : s.contents.ready c call = false) (hgoes : s.stopRequested token = false)
    (hn : (s.phase i).notifiedOn .notFull = true) (honly : s.pending c .notFull = 1) :
    s.contents.closed = true ∨ ∀ j < c.threadCount, (s.phase j).fits c s.contents = false := by
  obtain ⟨hturn, -⟩ := h i (Label.mover_actor hl)
  rw [left_mover hl] at hturn
  refine hturn ?_ hn honly
  rw [hp] at hn
  cases notified with
  | false => cases hn
  | true => simp [State.takesTurn, hp, hwaits, hgoes]

/-- A step with which no call succeeds. -/
theorem Alone.awake {l : Label α} {q : Phase α} {ended : Option (Outcome α)}
    {owner : Option Nat} (h : Awake c s) (hs : Sound c s) (hserved : Served c s l)
    (hl : l.mover = some i) (ha : Advance c s i (s.phase i) q ended owner)
    (ht : Alone s t i ⟨q, ended.or (s.threads i).outcome⟩ owner) : Awake c t := by
  have hi := hs.inside ha
  have hsame := ht.awake_same h hi
  have hlast := ht.awake_turn h hs hi
  generalize hp : s.phase i = p at ha
  cases ha with
  | calls _ hq =>
    refine hsame (fun _ => ?_) ?_ <;> rcases hq with rfl | ⟨_, _, rfl⟩ | ⟨_, rfl⟩ <;>
      simp [hp, Phase.notifiedOn, Phase.parkedOn]
  | locksPush =>
    refine hsame (fun _ => ?_) ?_ <;> dsimp only <;> split <;>
      simp [hp, Phase.notifiedOn, Phase.parkedOn]
  | @parks call token notified hwaits hgoes =>
    have hturn := hserved.parks hl hp hwaits hgoes
    cases call with
    | push a itemBytes =>
      refine hlast (fun _ => rfl) (full_of_waits hwaits) (fun hpop => by cases hpop) hturn
        fun hn => ?_
      simp [hp, Phase.notifiedOn, Call.condition] at hn
    | pop =>
      exact hlast (fun _ => rfl) rfl (fun _ => empty_of_waits hwaits) hturn
        fun _ => .inl (empty_of_waits hwaits)
  | fails =>
    obtain ⟨hpush, hpop⟩ := hserved.leaves hl hp
    exact hlast (fun _ => rfl) rfl (fun hq => by cases hq) hpush fun hn => .inr (hpop hn)
  | throws =>
    obtain ⟨hpush, hpop⟩ := hserved.leaves hl hp
    exact hlast (fun _ => rfl) rfl (fun hq => by cases hq) hpush fun hn => .inr (hpop hn)
  | _ =>
    refine hsame (fun condition => ?_) rfl
    rw [hp]
    rfl

/-- What fits behind another item also fits without it. -/
theorem Sound.fits_before (h : Sound c s) {a : α} {itemBytes otherBytes : UInt64}
    (hfits : Admitted c (.push a itemBytes)) (hroom : s.contents.hasCapacity c itemBytes = true)
    (hlater : (s.contents.append a itemBytes).hasCapacity c otherBytes = true) :
    s.contents.hasCapacity c otherBytes = true := by
  obtain ⟨hitems, hword, hbudget⟩ := h.room hfits hroom
  have hsum : (s.contents.bytesUsed + itemBytes).toNat =
      s.contents.bytesUsed.toNat + itemBytes.toNat := by
    rw [UInt64.toNat_add, Nat.mod_eq_of_lt hword]
  refine hasCapacity_iff.mpr ⟨hitems, fun capacity hc => ?_⟩
  have hafter : otherBytes ≤ capacity - (s.contents.bytesUsed + itemBytes) :=
    (hasCapacity_iff.mp hlater).2 capacity hc
  have hle := hbudget capacity hc
  have hused : s.contents.bytesUsed ≤ capacity := h.budget capacity hc
  have hfull : s.contents.bytesUsed + itemBytes ≤ capacity := by
    rw [UInt64.le_iff_toNat_le]
    omega
  rw [UInt64.le_iff_toNat_le, UInt64.toNat_sub_of_le _ _ hfull] at hafter
  rw [UInt64.le_iff_toNat_le, UInt64.toNat_sub_of_le _ _ hused]
  omega

/-- A thread leaves: its notification is gone. -/
theorem pending_leave {u : State α} {o : Outcome α} (condition : Condition)
    (hu : u.threads = s.threads) (hi : i < c.threadCount) :
    (u.leave i o).pending c condition + ((s.phase i).notifiedOn condition).toNat =
      s.pending c condition := by
  have hphase : ∀ j, u.phase j = s.phase j := fun j => by rw [State.phase, hu, State.phase]
  have hchange := pooled_change (f := fun j => ((s.phase j).notifiedOn condition).toNat)
    (g := fun j => (((u.leave i o).phase j).notifiedOn condition).toNat) hi fun j hj => by
      simp only [leave_phase _ _ hj, hphase]
  simp only [leave_idle] at hchange
  exact hchange

/-- A notification is heard when a thread is parked on the condition. -/
theorem notifyOne_pending {condition : Condition} {chosen : Option Nat}
    (h : s.notifyOne c condition chosen = some t) (hj : (t.phase j).parkedOn = some condition)
    (hin : j < c.threadCount) : t.pending c condition = s.pending c condition + 1 := by
  obtain ⟨hw, hchoice⟩ := notifyOne_woken h
  rcases hchoice with ⟨rfl, hnobody⟩ | ⟨k, hk, hparked, rfl⟩
  · exact absurd (hw.parked hj) (hnobody j hin)
  · obtain ⟨call, token, hphase, hcondition⟩ := parkedOn_eq hparked
    have hchange := pending_alone condition (alone_goto s k (s.phase k).wake) hk
    rw [hphase] at hchange
    simp only [Phase.notifiedOn, Phase.wake, hcondition, decide_true, Bool.toNat_true,
      Bool.toNat_false, add_zero] at hchange
    rw [hphase]
    exact hchange

/-- Who is parked behind the end of a call was parked in front of it. -/
theorem Woken.parked_leave {u : State α} {outcome : Outcome α} {condition : Condition}
    (hw : Woken (u.leave i outcome) t) (hu : u.threads = s.threads)
    (hj : (t.phase j).parkedOn = some condition) : t.phase j = s.phase j := by
  have hbefore := hw.parked hj
  have hne : j ≠ i := by
    intro he
    rw [he, leave_idle] at hbefore
    cases hbefore
  rcases hw.phase j with he | ⟨_, _, _, hwoken⟩
  · rw [he, leave_phase _ _ hne, State.phase, hu, State.phase]
  · rw [hwoken] at hj
    cases hj

theorem fits_mono {p : Phase α} {q r : Contents α}
    (hle : ∀ n, q.hasCapacity c n = true → r.hasCapacity c n = true)
    (h : p.fits c q = true) : p.fits c r = true := by
  unfold Phase.fits at h ⊢
  split at h
  · exact hle _ h
  · cases h

theorem Sound.member (h : Sound c s) {condition : Condition}
    (hj : (s.phase j).parkedOn = some condition) : j < c.threadCount := by
  by_contra hout
  rw [h.absent j (by omega)] at hj
  cases hj

theorem Sound.caller (h : Sound c s) {call : Call α} {token : Token} {place : Place}
    (hp : s.phase i = .waiting call token place) : i < c.threadCount := by
  by_contra hout
  rw [h.absent i (by omega)] at hp
  cases hp

/-- A push that succeeds notifies a pop for its item. -/
theorem Awake.accepts {a : α} {itemBytes : UInt64} {token : Token} {notified : Bool}
    {chosen : Option Nat} (h : Awake c s) (hs : Sound c s) (hserved : Served c s (.finish i chosen))
    (hp : s.phase i = .waiting (.push a itemBytes) token (.passed true notified))
    (hclosed : s.contents.closed = false)
    (hn : ({ s with
      contents := s.contents.append a itemBytes
      pushed := s.pushed ++ [a] }.leave i (.accepted a)).notifyOne c .notEmpty chosen = some t) :
    Awake c t := by
  have hw := (notifyOne_woken hn).1
  have hspent := fun condition => pending_leave (s := s) (c := c) (u := { s with
      contents := s.contents.append a itemBytes
      pushed := s.pushed ++ [a] }) (o := .accepted a) condition rfl (hs.caller hp)
  constructor
  · intro _ j hj
    have hsame := hw.parked_leave (s := s) rfl (fits_parked hj)
    have hcontents : t.contents = s.contents.append a itemBytes := hw.contents
    rw [hsame, hcontents] at hj
    have hadmitted : Admitted c (.push a itemBytes) ∧ s.contents.ready c (.push a itemBytes) := by
      have hfits := hs.phases i
      rw [hp] at hfits
      exact hfits
    have hroom : s.contents.hasCapacity c itemBytes = true := by
      simpa [Contents.ready, hclosed] using hadmitted.2
    have hlast := h.full hclosed j
      (fits_mono (fun n => hs.fits_before hadmitted.1 hroom) hj)
    have hchange := hspent .notFull
    have hkept := pending_mono (c := c) .notFull fun _ => hw.notified
    cases hnotified : (s.phase i).notifiedOn .notFull with
    | false =>
      rw [hnotified, Bool.toNat_false] at hchange
      omega
    | true =>
      rw [hnotified, Bool.toNat_true] at hchange
      by_contra hnone
      obtain ⟨hturn, -⟩ := hserved i rfl
      have htakes : s.takesTurn c i = true := by
        rw [hp] at hnotified
        cases notified with
        | false => cases hnotified
        | true => simp [State.takesTurn, hp]
      have hleft : s.left (.finish i chosen) = s.contents.append a itemBytes := by
        simp [State.left, hp]
      rw [hleft] at hturn
      rcases hturn htakes hnotified (by omega) with hshut | hfits
      · rw [hclosed] at hshut
        cases hshut
      · rw [hfits j (hs.member (fits_parked hj))] at hj
        cases hj
  · intro j hj
    have hsame := hw.parked_leave (s := s) rfl hj
    have hcontents : t.contents = s.contents.append a itemBytes := hw.contents
    have hbefore : (s.phase j).parkedOn = some .notEmpty := hsame ▸ hj
    have hlast := h.empty j hbefore
    have hchange := hspent .notEmpty
    have hpush : (s.phase i).notifiedOn .notEmpty = false := by
      rw [hp]
      simp [Phase.notifiedOn, Call.condition]
    rw [hpush, Bool.toNat_false] at hchange
    have hlength : (s.contents.append a itemBytes).items.length =
        s.contents.items.length + 1 := by simp [Contents.append]
    rw [notifyOne_pending hn hj (hs.member hbefore), hcontents, hlength]
    omega

/-- A pop that takes an item notifies a push. -/
theorem Awake.takes {a : α} {itemBytes : UInt64} {rest : List (α × UInt64)} {token : Token}
    {notified : Bool} {chosen : Option Nat} (h : Awake c s) (hs : Sound c s)
    (hp : s.phase i = .waiting .pop token (.passed true notified))
    (hitems : s.contents.items = (a, itemBytes) :: rest)
    (hn : ({ s with
      contents := { s.contents with
        items := rest
        bytesUsed := s.contents.bytesUsed - itemBytes }
      popped := s.popped ++ [a] }.leave i (.item a)).notifyOne c .notFull chosen = some t) :
    Awake c t := by
  have hw := (notifyOne_woken hn).1
  have hspent := fun condition => pending_leave (s := s) (c := c) (u := { s with
      contents := { s.contents with
        items := rest
        bytesUsed := s.contents.bytesUsed - itemBytes }
      popped := s.popped ++ [a] }) (o := .item a) condition rfl (hs.caller hp)
  constructor
  · intro _ j hj
    have hparked := fits_parked hj
    have hsame := hw.parked_leave (s := s) rfl hparked
    rw [notifyOne_pending hn hparked (hs.member (hsame ▸ hparked))]
    exact Nat.succ_pos _
  · intro j hj
    have hsame := hw.parked_leave (s := s) rfl hj
    have hcontents : t.contents.items = rest := by rw [hw.contents]; rfl
    have hlast := h.empty j (hsame ▸ hj)
    have hchange := hspent .notEmpty
    have hkept := pending_mono (c := c) .notEmpty fun _ => hw.notified
    have hone := Bool.toNat_le ((s.phase i).notifiedOn .notEmpty)
    rw [hitems, List.length_cons] at hlast
    rw [hcontents]
    omega

/-- Closing wakes every pop. -/
theorem Awake.closes : Awake c (({ s with contents := { s.contents with
    closed := true } }.setThread i ⟨.idle, some .closed⟩).notifyAll .notEmpty
      |>.notifyAll .notFull) where
  full hopen := by cases hopen
  empty j hj := by
    have hbefore := (Woken.notifyAll _ .notFull).parked hj
    exact absurd hbefore (notifyAll_parked _ _ _)

theorem Effect.awake {l : Label α} (h : Awake c s) (hs : Sound c s) (hserved : Served c s l)
    (he : Effect c s l t) : Awake c t := by
  cases he with
  | advances hl ha ht => exact ht.awake h hs hserved hl ha
  | finishes hf hn =>
    cases hf with
    | accepts hp _ hclosed => exact h.accepts hs hserved hp hclosed hn
    | takes hp _ hitems => exact h.takes hs hp hitems hn
  | closes => exact .closes
  | wakes hw => exact hw.awake h
  | stops => exact (Woken.stop s _).awake h

theorem Awake.start : Awake c (.start : State α) where
  full _ _ h := by cases h
  empty _ h := by cases h

theorem run_awake {ls : List (Label α)} (h : Awake c s) (hs : Sound c s)
    (hserved : AllServed c s ls) (hr : run c s ls = some t) : Awake c t := by
  induction ls generalizing s with
  | nil =>
    cases hr
    exact h
  | cons l ls ih =>
    obtain ⟨mid, hstep, hrest⟩ := Option.bind_eq_some_iff.mp hr
    have heffect := step_effect hstep
    exact ih (heffect.awake h hs hserved.1) (heffect.sound hs) (hserved.2 mid hstep) hrest

/-- When no wake-up of a run is spent in vain, a push waits only for space and a pop only for
data. -/
theorem boundedQueue_waits (c : Setup) (ls : List (Label α)) (s : State α)
    (h : run c .start ls = some s) (hserved : AllServed c .start ls) (hq : Quiescent c s) :
    WaitsInNeed c s :=
  (run_awake .start .start hserved h).waitsInNeed hq

/-- Ten bytes are inside, and two pushes wait; a pop takes the ten bytes and wakes the first. -/
def wakeFirst (first second : UInt64) : List (Label Nat) :=
  pushUpToWait 0 10 10 ++ [.next 0, .finish 0 none] ++
    pushUpToWait 1 11 first ++ [.next 1] ++ pushUpToWait 2 12 second ++ [.next 2] ++
    popUpToWait 3 ++ [.next 3, .finish 3 (some 1)] ++ [.next 1, .next 1, .finish 1 none]

/-- The first one leaves no room for the second. -/
theorem boundedQueue_waits_full : ∃ s, run tenBytes .start (wakeFirst 5 6) = some s ∧
    WaitsInNeed tenBytes s := by
  obtain ⟨s, hs⟩ := Option.isSome_iff_exists.mp
    (show (run tenBytes .start (wakeFirst 5 6)).isSome = true by decide +kernel)
  have hquiet : ∀ t ∈ run tenBytes .start (wakeFirst 5 6), Quiescent tenBytes t := by
    decide +kernel
  exact ⟨s, hs, boundedQueue_waits tenBytes _ s hs (by decide +kernel) (hquiet s hs)⟩

/-- The first one leaves room for the second, which is not woken. -/
theorem boundedQueue_wakeup_lost : ∃ (ls : List (Label Nat)) (s : State Nat),
    run tenBytes .start ls = some s ∧ (∀ l ∈ ls, ∀ i, l ≠ .spurious i) ∧
      Quiescent tenBytes s ∧ ¬ WaitsInNeed tenBytes s := by
  obtain ⟨s, hs⟩ := Option.isSome_iff_exists.mp
    (show (run tenBytes .start (wakeFirst 5 5)).isSome = true by decide +kernel)
  have hquiet : ∀ t ∈ run tenBytes .start (wakeFirst 5 5), Quiescent tenBytes t := by
    decide +kernel
  have hlost : ∀ t ∈ run tenBytes .start (wakeFirst 5 5), t.contents.closed = false ∧
      t.phase 2 = .waiting (.push 12 5) none .parked ∧
        t.contents.hasCapacity tenBytes 5 = true := by
    decide +kernel
  refine ⟨_, s, hs, ?_, hquiet s hs, fun hneed => ?_⟩
  · simp [wakeFirst, pushUpToWait, popUpToWait]
  · obtain ⟨hopen, hparked, hroom⟩ := hlost s hs
    have hfull := hneed.1 hopen 2 12 5 none hparked
    rw [hroom] at hfull
    cases hfull

end LocalVault.Concurrency
