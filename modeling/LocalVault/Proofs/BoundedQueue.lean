import LocalVault.Proofs.Waiting

namespace LocalVault.Concurrency

variable {α : Type} {c : Setup} {s t : State α} {i j : Nat}

/-- The phases in which a thread holds the mutex. -/
def Phase.holds : Phase α → Bool
  | .sizing _ _ | .sized _ _ _ | .waiting _ _ (.testing _) | .waiting _ _ (.passed _ _) => true
  | _ => false

/-- A size that the queue may ever hold: not above the byte capacity, and zero without one. -/
def Admitted (c : Setup) : Call α → Prop
  | .push _ itemBytes => oversized c itemBytes = false ∧ (c.byteCapacity = none → itemBytes = 0)
  | .pop => True

/-- What a thread that is through its wait has seen. -/
def Seen (c : Setup) (s : State α) (call : Call α) (token : Token) : Place → Prop
  | .passed true _ => s.contents.ready c call = true
  | .passed false _ => s.stopRequested token = true
  | _ => True

/-- What the phase of a thread tells. -/
def Fits (c : Setup) (s : State α) : Phase α → Prop
  | .sizing _ _ => c.byteCapacity ≠ none
  | .sized _ itemBytes _ => c.byteCapacity = none → itemBytes = 0
  | .waiting call token place => Admitted c call ∧ Seen c s call token place
  | _ => True

/-- The representation invariant. -/
structure Sound (c : Setup) (s : State α) : Prop where
  capacity : s.contents.items.length ≤ c.itemCapacity
  bytes : (s.contents.items.map fun item => item.2.toNat).sum = s.contents.bytesUsed.toNat
  budget : ∀ capacity ∈ c.byteCapacity, s.contents.bytesUsed ≤ capacity
  order : s.popped ++ s.contents.items.map Prod.fst = s.pushed
  owner : ∀ i, (s.phase i).holds = true → s.owner = some i
  phases : ∀ i, Fits c s (s.phase i)
  absent : ∀ i, c.threadCount ≤ i → s.phase i = .idle

theorem stopRequested_mono {token : Token}
    (hs : ∀ source, s.stopped source = true → t.stopped source = true)
    (h : s.stopRequested token = true) : t.stopRequested token = true := by
  cases token with
  | none => cases h
  | some source => exact hs source h

/-- What a phase tells stays true as long as the contents do not change under it. -/
theorem Fits.mono {p : Phase α} (hc : p.holds = true → t.contents = s.contents)
    (hs : ∀ source, s.stopped source = true → t.stopped source = true) (h : Fits c s p) :
    Fits c t p := by
  cases p with
  | waiting call token place =>
    refine ⟨h.1, ?_⟩
    have hseen := h.2
    cases place with
    | passed ready notified =>
      cases ready with
      | true =>
        change t.contents.ready c call = true
        rw [hc rfl]
        exact hseen
      | false => exact stopRequested_mono hs hseen
    | _ => trivial
  | _ => exact h

/-- Two states with equal contents and history are equally sound. -/
theorem Sound.moved (h : Sound c s) (hc : t.contents = s.contents) (hp : t.pushed = s.pushed)
    (hq : t.popped = s.popped) (ho : ∀ i, (t.phase i).holds = true → t.owner = some i)
    (hf : ∀ i, Fits c t (t.phase i)) (ha : ∀ i, c.threadCount ≤ i → t.phase i = .idle) :
    Sound c t where
  capacity := hc ▸ h.capacity
  bytes := by rw [hc, h.bytes]
  budget := by rw [hc]; exact h.budget
  order := by rw [hc, hp, hq, h.order]
  owner := ho
  phases := hf
  absent := ha

theorem Woken.idle (h : Woken s t) : t.phase i = .idle ↔ s.phase i = .idle := by
  rcases h.phase i with he | ⟨_, _, hs, ht⟩
  · rw [he]
  · rw [hs, ht]
    simp

theorem Woken.sound (h : Sound c s) (hw : Woken s t) : Sound c t := by
  refine h.moved hw.contents hw.pushed hw.popped (fun i hi => ?_) (fun i => ?_) fun i hi =>
    hw.idle.mpr (h.absent i hi)
  · rw [hw.owner]
    rcases hw.phase i with he | ⟨_, _, _, ht⟩
    · exact h.owner i (he ▸ hi)
    · rw [ht] at hi
      cases hi
  · rcases hw.phase i with he | ⟨call, token, hs, ht⟩
    · rw [he]
      exact (h.phases i).mono (fun _ => hw.contents) hw.stopped
    · have hfits := h.phases i
      rw [hs] at hfits
      rw [ht]
      exact ⟨hfits.1, trivial⟩

/-- How an advance treats the mutex. -/
theorem Advance.mutex {p q : Phase α} {ended : Option (Outcome α)}
    {owner : Option Nat} (h : Advance c s i p q ended owner)
    (hp : p.holds = true → s.owner = some i) :
    (owner = s.owner ∧ (q.holds = true → s.owner = some i)) ∨
      (s.owner = none ∧ owner = some i) ∨
      (s.owner = some i ∧ owner = none ∧ q.holds = false) := by
  cases h with
  | calls _ hq =>
    refine .inl ⟨rfl, fun hh => ?_⟩
    rcases hq with rfl | ⟨_, _, rfl⟩ | ⟨_, rfl⟩ <;> cases hh
  | refusedOutside => exact .inl ⟨rfl, fun hh => by cases hh⟩
  | enters => exact .inl ⟨rfl, fun hh => by cases hh⟩
  | locksPush ho => exact .inr (.inl ⟨ho, rfl⟩)
  | locksPop ho => exact .inr (.inl ⟨ho, rfl⟩)
  | sizes => exact .inl ⟨rfl, fun _ => hp rfl⟩
  | throwsSizing => exact .inr (.inr ⟨hp rfl, rfl, rfl⟩)
  | refusedInside => exact .inr (.inr ⟨hp rfl, rfl, rfl⟩)
  | waits => exact .inl ⟨rfl, fun _ => hp rfl⟩
  | passes => exact .inl ⟨rfl, fun _ => hp rfl⟩
  | stops => exact .inl ⟨rfl, fun _ => hp rfl⟩
  | parks => exact .inr (.inr ⟨hp rfl, rfl, rfl⟩)
  | wakes ho => exact .inr (.inl ⟨ho, rfl⟩)
  | fails => exact .inr (.inr ⟨hp rfl, rfl, rfl⟩)
  | throws => exact .inr (.inr ⟨hp rfl, rfl, rfl⟩)

theorem Advance.fits {p q : Phase α} {ended : Option (Outcome α)}
    {owner : Option Nat} (h : Advance c s i p q ended owner)
    (hp : Fits c s p) : Fits c s q := by
  cases h with
  | calls _ hq => rcases hq with rfl | ⟨_, _, rfl⟩ | ⟨_, rfl⟩ <;> trivial
  | locksPush =>
    split
    · exact fun _ => rfl
    · assumption
  | locksPop => exact ⟨trivial, trivial⟩
  | sizes => exact fun hnone => absurd hnone hp
  | waits _ hsize => exact ⟨⟨hsize, hp⟩, trivial⟩
  | passes hready => exact ⟨hp.1, hready⟩
  | stops _ hstop => exact ⟨hp.1, hstop⟩
  | parks => exact ⟨hp.1, trivial⟩
  | wakes => exact ⟨hp.1, trivial⟩
  | _ => trivial

/-- A thread that takes a step is one of the queue's. -/
theorem Sound.inside {q : Phase α} {ended : Option (Outcome α)} {owner : Option Nat}
    (h : Sound c s) (ha : Advance c s i (s.phase i) q ended owner) : i < c.threadCount := by
  by_contra hi
  have hidle := h.absent i (by omega)
  rw [hidle] at ha
  cases ha with
  | calls hlt => exact hi hlt

theorem Alone.sound {q : Phase α} {ended outcome : Option (Outcome α)} {owner : Option Nat}
    (h : Sound c s) (ha : Advance c s i (s.phase i) q ended owner)
    (ht : Alone s t i ⟨q, outcome⟩ owner) : Sound c t := by
  have hmutex := ha.mutex (h.owner i)
  have hstopped : ∀ source, s.stopped source = true → t.stopped source = true :=
    fun source hs => by rwa [ht.stopped]
  refine h.moved ht.contents ht.pushed ht.popped (fun j hj => ?_) (fun j => ?_) fun j hj => ?_
  · rw [ht.owner]
    by_cases he : j = i
    · subst he
      rw [ht.phase_self] at hj
      rcases hmutex with ⟨ho, hq⟩ | ⟨-, ho⟩ | ⟨-, -, hq⟩
      · rw [ho, hq hj]
      · exact ho
      · rw [hq] at hj
        cases hj
    · rw [ht.phase he] at hj
      have hown := h.owner j hj
      rcases hmutex with ⟨ho, -⟩ | ⟨ho, -⟩ | ⟨ho, -⟩
      · rw [ho, hown]
      · rw [hown] at ho
        cases ho
      · rw [hown, Option.some.injEq] at ho
        exact absurd ho he
  · by_cases he : j = i
    · subst he
      rw [ht.phase_self]
      exact (ha.fits (h.phases j)).mono (fun _ => ht.contents) hstopped
    · rw [ht.phase he]
      exact (h.phases j).mono (fun _ => ht.contents) hstopped
  · have hi := h.inside ha
    rw [ht.phase (by omega)]
    exact h.absent j hj

theorem leave_idle (s : State α) (i : Nat) (outcome : Outcome α) :
    (s.leave i outcome).phase i = .idle := by
  simp [State.leave, State.release, State.phase]

theorem leave_outcome (s : State α) (i : Nat) (outcome : Outcome α) :
    ((s.leave i outcome).threads i).outcome = some outcome := by
  simp [State.leave, State.release]

theorem leave_phase (s : State α) (outcome : Outcome α) (h : j ≠ i) :
    (s.leave i outcome).phase j = s.phase j := by
  simp [State.leave, State.release, State.phase, h]

/-- When the thread that holds the mutex changes the contents and leaves, no other phase tells
anything about them. -/
theorem Sound.left (h : Sound c s) {contents : Contents α} {pushed popped : List α}
    {outcome : Outcome α} (hi : (s.phase i).holds = true)
    (hcapacity : contents.items.length ≤ c.itemCapacity)
    (hbytes : (contents.items.map fun item => item.2.toNat).sum = contents.bytesUsed.toNat)
    (hbudget : ∀ capacity ∈ c.byteCapacity, contents.bytesUsed ≤ capacity)
    (horder : popped ++ contents.items.map Prod.fst = pushed) :
    Sound c ({ s with contents, pushed, popped }.leave i outcome) := by
  have hother : ∀ j, j ≠ i → (s.phase j).holds = false := by
    intro j hj
    by_contra hh
    have howner := (h.owner j (by simpa using hh)).symm.trans (h.owner i hi)
    exact hj (Option.some.inj howner)
  refine ⟨hcapacity, hbytes, hbudget, horder, fun j hj => ?_, fun j => ?_, fun j hj => ?_⟩
  · by_cases he : j = i
    · subst he
      rw [leave_idle] at hj
      cases hj
    · rw [leave_phase _ _ he] at hj
      exact absurd ((hother j he).symm.trans hj) (by decide)
  · by_cases he : j = i
    · subst he
      rw [leave_idle]
      trivial
    · rw [leave_phase _ _ he]
      have hfits : Fits c s (s.phase j) := h.phases j
      refine Fits.mono (s := s) (fun hh => ?_) (fun _ hs => hs) hfits
      exact absurd ((hother j he).symm.trans hh) (by decide)
  · by_cases he : j = i
    · subst he
      exact leave_idle _ _ _
    · rw [leave_phase _ _ he]
      exact h.absent j hj

theorem hasCapacity_iff {q : Contents α} {itemBytes : UInt64} :
    q.hasCapacity c itemBytes = true ↔ q.items.length < c.itemCapacity ∧
      ∀ capacity ∈ c.byteCapacity, itemBytes ≤ capacity - q.bytesUsed := by
  unfold Contents.hasCapacity
  cases c.byteCapacity <;> simp

/-- The room that the capacity test sees is the room there is. -/
theorem Sound.room (h : Sound c s) {a : α} {itemBytes : UInt64}
    (hfits : Admitted c (.push a itemBytes)) (hroom : s.contents.hasCapacity c itemBytes = true) :
    s.contents.items.length < c.itemCapacity ∧
      s.contents.bytesUsed.toNat + itemBytes.toNat < 2 ^ 64 ∧
      ∀ capacity ∈ c.byteCapacity,
        s.contents.bytesUsed.toNat + itemBytes.toNat ≤ capacity.toNat := by
  obtain ⟨hitems, hroom⟩ := hasCapacity_iff.mp hroom
  refine ⟨hitems, ?_⟩
  cases hc : c.byteCapacity with
  | none =>
    have hzero : itemBytes = 0 := hfits.2 hc
    have hused := s.contents.bytesUsed.toNat_lt
    subst hzero
    exact ⟨by simpa using hused, fun _ hm => by cases hm⟩
  | some capacity =>
    have hroom := hroom capacity hc
    have hle := h.budget capacity hc
    have hword := capacity.toNat_lt
    rw [UInt64.le_iff_toNat_le] at hroom hle
    rw [UInt64.toNat_sub_of_le _ _ (UInt64.le_iff_toNat_le.mpr hle)] at hroom
    refine ⟨by omega, fun capacity' hm => ?_⟩
    cases hm
    omega

theorem Finish.sound {mid : State α} {condition : Condition} (h : Sound c s)
    (hf : Finish s i mid condition) : Sound c mid := by
  cases hf with
  | @accepts a itemBytes token notified hp hstop hclosed =>
    have hfits := h.phases i
    rw [hp] at hfits
    have hready : s.contents.hasCapacity c itemBytes = true := by
      have hr : s.contents.ready c (.push a itemBytes) = true := hfits.2
      simpa [Contents.ready, hclosed] using hr
    obtain ⟨hitems, hword, hbudget⟩ := h.room hfits.1 hready
    have hsum : (s.contents.bytesUsed + itemBytes).toNat =
        s.contents.bytesUsed.toNat + itemBytes.toNat := by
      rw [UInt64.toNat_add, Nat.mod_eq_of_lt hword]
    refine h.left (by rw [hp]; rfl) ?_ ?_ (fun capacity hm => ?_) ?_
    · simpa [Contents.append] using Nat.succ_le_of_lt hitems
    · simp [Contents.append, h.bytes, hsum]
    · rw [UInt64.le_iff_toNat_le]
      change (s.contents.bytesUsed + itemBytes).toNat ≤ _
      rw [hsum]
      exact hbudget capacity hm
    · simp [Contents.append, ← h.order]
  | @takes a itemBytes rest token notified hp hstop hitems =>
    have hcapacity := h.capacity
    have hbytes := h.bytes
    have horder := h.order
    simp only [hitems, List.length_cons, List.map_cons, List.sum_cons] at hcapacity hbytes horder
    have hle : itemBytes ≤ s.contents.bytesUsed := by
      rw [UInt64.le_iff_toNat_le]
      omega
    have hsub := UInt64.toNat_sub_of_le _ _ hle
    refine h.left (by rw [hp]; rfl) ?_ ?_ (fun capacity hm => ?_) ?_
    · exact Nat.le_of_succ_le hcapacity
    · dsimp only
      omega
    · have := UInt64.le_iff_toNat_le.mp (h.budget capacity hm)
      rw [UInt64.le_iff_toNat_le]
      dsimp only
      omega
    · simpa using horder

theorem notifyOne_woken {condition : Condition} {chosen : Option Nat}
    (h : s.notifyOne c condition chosen = some t) :
    Woken s t ∧ ((t = s ∧ ∀ j < c.threadCount, (s.phase j).parkedOn ≠ some condition) ∨
      ∃ j < c.threadCount, (s.phase j).parkedOn = some condition ∧
        t = s.goto j (s.phase j).wake) := by
  unfold State.notifyOne at h
  split at h
  · split at h
    · rename_i hj
      cases h
      exact ⟨.goto rfl (by rw [hj.2]; rfl), .inr ⟨_, hj.1, hj.2, rfl⟩⟩
    · cases h
  · split at h
    · rename_i hnone
      cases h
      refine ⟨.refl _, .inl ⟨rfl, fun j hj => ?_⟩⟩
      simpa using (List.all_eq_true.mp hnone) j (List.mem_range.mpr hj)
    · cases h

theorem close_sound (h : Sound c s) (hp : s.phase i = .closing) (ho : s.owner = none) :
    Sound c ({ s with contents := { s.contents with closed := true } }.setThread i
      ⟨.idle, some .closed⟩) := by
  have hfree : ∀ j, (s.phase j).holds = false := by
    intro j
    by_contra hh
    have howner := h.owner j (by simpa using hh)
    rw [ho] at howner
    cases howner
  refine ⟨h.capacity, h.bytes, h.budget, h.order, fun j hj => ?_, fun j => ?_, fun j hj => ?_⟩
  · by_cases he : j = i
    · subst he
      simp [State.phase, Phase.holds] at hj
    · simp only [State.phase, State.setThread_other _ _ he] at hj
      exact absurd ((hfree j).symm.trans hj) (by decide)
  · by_cases he : j = i
    · subst he
      simp [State.phase, Fits]
    · simp only [State.phase, State.setThread_other _ _ he]
      have hfits : Fits c s (s.phase j) := h.phases j
      refine Fits.mono (s := s) (fun hh => ?_) (fun _ hs => hs) hfits
      exact absurd ((hfree j).symm.trans hh) (by decide)
  · by_cases he : j = i
    · subst he
      simp [State.phase]
    · simp only [State.phase, State.setThread_other _ _ he]
      exact h.absent j hj

theorem Effect.sound {l : Label α} (h : Sound c s) (he : Effect c s l t) : Sound c t := by
  cases he with
  | advances _ ha ht => exact ht.sound h ha
  | finishes hf hn => exact (notifyOne_woken hn).1.sound (hf.sound h)
  | closes hp ho =>
    exact (Woken.notifyAll _ _).sound ((Woken.notifyAll _ _).sound (close_sound h hp ho))
  | wakes hw => exact hw.sound h
  | stops => exact (Woken.stop s _).sound h

theorem Sound.start : Sound c (.start : State α) where
  capacity := Nat.zero_le _
  bytes := rfl
  budget _ _ := by
    rw [UInt64.le_iff_toNat_le]
    exact Nat.zero_le _
  order := rfl
  owner _ h := by cases h
  phases _ := trivial
  absent _ _ := rfl

/-- The invariant holds in every state of every run. -/
theorem run_sound {ls : List (Label α)} (h : Sound c s) (hr : run c s ls = some t) :
    Sound c t := by
  induction ls generalizing s with
  | nil =>
    cases hr
    exact h
  | cons l ls ih =>
    obtain ⟨mid, hstep, hrest⟩ := Option.bind_eq_some_iff.mp hr
    exact ih ((step_effect hstep).sound h) hrest

/-- A call of a thread ends with a step. -/
structure Ends (s t : State α) (i : Nat) (outcome : Outcome α) : Prop where
  called : s.phase i ≠ .idle
  returned : t.phase i = .idle
  outcome : (t.threads i).outcome = some outcome

def Outcome.failed : Outcome α → Bool
  | .refused _ | .nothing | .threw => true
  | _ => false

/-- Waking does not touch what a thread remembers of its last call. -/
theorem notifyAll_outcome (s : State α) (condition : Condition) (i : Nat) :
    ((s.notifyAll condition).threads i).outcome = (s.threads i).outcome := by
  unfold State.notifyAll
  dsimp only
  split <;> rfl

theorem notifyOne_outcome {condition : Condition} {chosen : Option Nat}
    (h : s.notifyOne c condition chosen = some t) :
    (t.threads i).outcome = (s.threads i).outcome := by
  rcases (notifyOne_woken h).2 with ⟨rfl, -⟩ | ⟨j, -, -, rfl⟩
  · rfl
  · by_cases hi : i = j
    · subst hi
      simp [State.goto]
    · simp [State.goto, hi]

/-- How a step that ends a call ends it. -/
inductive Ending (c : Setup) (s t : State α) (i : Nat) : Outcome α → Prop
  | advances {outcome : Outcome α} {owner : Option Nat} :
      Advance c s i (s.phase i) .idle (some outcome) owner → t.contents = s.contents →
      t.pushed = s.pushed → t.popped = s.popped → Ending c s t i outcome
  | accepts {a : α} {itemBytes : UInt64} {token : Token} {notified : Bool} :
      s.phase i = .waiting (.push a itemBytes) token (.passed true notified) →
      s.contents.closed = false → t.contents = s.contents.append a itemBytes →
      t.pushed = s.pushed ++ [a] → t.popped = s.popped → Ending c s t i (.accepted a)
  | takes {a : α} {itemBytes : UInt64} {rest : List (α × UInt64)} {token : Token}
      {notified : Bool} :
      s.phase i = .waiting .pop token (.passed true notified) →
      s.contents.items = (a, itemBytes) :: rest →
      t.contents = { s.contents with
        items := rest
        bytesUsed := s.contents.bytesUsed - itemBytes } →
      t.pushed = s.pushed → t.popped = s.popped ++ [a] → Ending c s t i (.item a)
  | closes : t.contents = { s.contents with closed := true } → t.pushed = s.pushed →
      t.popped = s.popped → Ending c s t i .closed

/-- An advance ends a call exactly when it says how. -/
theorem Advance.ended {p q : Phase α} {ended : Option (Outcome α)} {owner : Option Nat}
    (h : Advance c s i p q ended owner) (hp : p ≠ .idle) (hq : q = .idle) :
    ∃ outcome, ended = some outcome := by
  cases h with
  | calls => exact absurd rfl hp
  | locksPush =>
    split at hq <;> cases hq
  | refusedOutside => exact ⟨_, rfl⟩
  | throwsSizing => exact ⟨_, rfl⟩
  | refusedInside => exact ⟨_, rfl⟩
  | fails => exact ⟨_, rfl⟩
  | throws => exact ⟨_, rfl⟩
  | _ => cases hq

theorem Finish.ending {mid : State α} {condition : Condition} {outcome : Outcome α}
    (h : Finish s i mid condition) (hw : Woken mid t)
    (ho : ∀ j, (t.threads j).outcome = (mid.threads j).outcome) (he : Ends s t j outcome) :
    j = i ∧ Ending c s t i outcome := by
  have hmid := (hw.idle).mp he.returned
  have hsaid := he.outcome
  rw [ho j] at hsaid
  cases h with
  | @accepts a itemBytes token notified hp hstop hclosed =>
    by_cases hj : j = i
    · subst hj
      have ha : (Outcome.accepted a) = outcome := by
        simpa [State.leave, State.release] using hsaid
      subst ha
      exact ⟨rfl, .accepts hp hclosed hw.contents hw.pushed hw.popped⟩
    · rw [leave_phase _ _ hj] at hmid
      exact absurd hmid he.called
  | @takes a itemBytes rest token notified hp hstop hitems =>
    by_cases hj : j = i
    · subst hj
      have ha : (Outcome.item a) = outcome := by
        simpa [State.leave, State.release] using hsaid
      subst ha
      exact ⟨rfl, .takes hp hitems hw.contents hw.pushed hw.popped⟩
    · rw [leave_phase _ _ hj] at hmid
      exact absurd hmid he.called

/-- Only the thread that takes the step can end its call with it. -/
theorem Effect.ends {l : Label α} {outcome : Outcome α} (h : Effect c s l t)
    (he : Ends s t j outcome) : l.actor = some j ∧ Ending c s t j outcome := by
  cases h with
  | @advances _ _ i q ended owner hl ha ht =>
    by_cases hj : j = i
    · subst hj
      have hq : q = .idle := by
        rw [← he.returned, ht.phase_self]
      obtain ⟨outcome', rfl⟩ := ha.ended he.called hq
      have ho : outcome' = outcome := by
        have := he.outcome
        rw [ht.self] at this
        simpa using this
      subst hq ho
      exact ⟨Label.mover_actor hl, .advances ha ht.contents ht.pushed ht.popped⟩
    · have := he.returned
      rw [ht.phase hj] at this
      exact absurd this he.called
  | finishes hf hn =>
    obtain ⟨rfl, hend⟩ := hf.ending (c := c) (notifyOne_woken hn).1
      (fun _ => notifyOne_outcome hn) he
    exact ⟨rfl, hend⟩
  | @closes i hp ho =>
    have hw := (Woken.notifyAll ({ s with contents := { s.contents with
      closed := true } }.setThread i ⟨.idle, some .closed⟩) .notEmpty).trans
        (Woken.notifyAll _ .notFull)
    have hmid := hw.idle.mp he.returned
    have hsaid := he.outcome
    rw [notifyAll_outcome, notifyAll_outcome] at hsaid
    by_cases hj : j = i
    · subst hj
      have hc : Outcome.closed = outcome := by simpa using hsaid
      subst hc
      exact ⟨rfl, .closes rfl rfl rfl⟩
    · simp only [State.phase, State.setThread_other _ _ hj] at hmid
      exact absurd hmid he.called
  | wakes hw => exact absurd (hw.idle.mp he.returned) he.called
  | stops => exact absurd ((Woken.stop s _).idle.mp he.returned) he.called

/-- What a step may do. Only a call that succeeds changes anything, and with its last step: it
puts its item behind the others, takes the first one, or closes the queue. -/
structure Contract (s t : State α) (l : Label α) : Prop where
  changes : (t.contents = s.contents ∧ t.pushed = s.pushed ∧ t.popped = s.popped) ∨
    ∃ i outcome, l.actor = some i ∧ Ends s t i outcome ∧ outcome.failed = false
  accepted : ∀ i a, Ends s t i (.accepted a) → s.contents.closed = false ∧
    (∃ itemBytes, t.contents = s.contents.append a itemBytes) ∧
      t.pushed = s.pushed ++ [a] ∧ t.popped = s.popped
  item : ∀ i a, Ends s t i (.item a) → ∃ itemBytes rest,
    s.contents.items = (a, itemBytes) :: rest ∧ t.contents.items = rest ∧
      t.contents.closed = s.contents.closed ∧ t.pushed = s.pushed ∧ t.popped = s.popped ++ [a]
  failed : ∀ i outcome, Ends s t i outcome → outcome.failed = true →
    t.contents = s.contents ∧ t.pushed = s.pushed ∧ t.popped = s.popped
  nothing : ∀ i, Ends s t i .nothing → ∃ token place, s.phase i = .waiting .pop token place ∧
    (s.stopRequested token = true ∨ s.contents.closed = true ∧ s.contents.items = [])

/-- What is answered without waiting: an item that is too large is refused, and on a queue that
is closed or has items a pop goes through its wait and takes the first item, unless it is
stopped or the item throws. -/
structure Prompt (c : Setup) (s : State α) : Prop where
  oversized : ∀ i a itemBytes token, s.phase i = .sized a itemBytes token →
    oversized c itemBytes = true → (∃ t, step c s (.next i) = some t) ∧
      ∀ l t, l.actor = some i → step c s l = some t → Ends s t i (.refused a)
  waiting : ∀ i a itemBytes token place, s.phase i = .waiting (.push a itemBytes) token place →
    Concurrency.oversized c itemBytes = false
  drains : ∀ i token notified, s.phase i = .waiting .pop token (.testing notified) →
    s.contents.closed = true ∨ s.contents.items ≠ [] → ∀ l t, l.actor = some i →
      step c s l = some t → t.phase i = .waiting .pop token (.passed true notified)
  delivers : ∀ i token notified a itemBytes rest,
    s.phase i = .waiting .pop token (.passed true notified) →
    s.contents.items = (a, itemBytes) :: rest → s.stopRequested token = false →
      ∀ l t, l.actor = some i → step c s l = some t → Ends s t i (.item a) ∨ Ends s t i .threw

theorem Advance.never_succeeds {p q : Phase α} {outcome : Outcome α} {owner : Option Nat}
    (h : Advance c s i p q (some outcome) owner) : outcome.failed = true := by
  cases h with
  | @fails call => cases call <;> rfl
  | _ => rfl

/-- A pop comes back with nothing when it was stopped, or when nothing is left and nothing will
come. -/
theorem Sound.nothing (h : Sound c s) {q : Phase α} {owner : Option Nat}
    (ha : Advance c s i (s.phase i) q (some .nothing) owner) :
    ∃ token place, s.phase i = .waiting .pop token place ∧
      (s.stopRequested token = true ∨ s.contents.closed = true ∧ s.contents.items = []) := by
  have hfits := h.phases i
  generalize hp : s.phase i = p at ha hfits
  generalize ho : some (Outcome.nothing (α := α)) = ended at ha
  cases ha with
  | @fails call token ready notified hs =>
    cases call with
    | push a itemBytes => cases ho
    | pop =>
      refine ⟨token, _, rfl, ?_⟩
      cases ready with
      | false => exact .inl hfits.2
      | true =>
        have hready : s.contents.ready c .pop = true := hfits.2
        simp only [State.succeeds, Bool.true_and, Bool.and_eq_false_iff, Bool.not_eq_false',
          List.isEmpty_iff] at hs
        rcases hs with hs | hs
        · exact .inl hs
        · refine .inr ⟨?_, hs⟩
          simpa [Contents.ready, hs] using hready
  | _ => cases ho

theorem step_contract {l : Label α} (h : Sound c s) (hs : step c s l = some t) :
    Contract s t l := by
  have heffect := step_effect hs
  constructor
  · cases heffect with
    | advances _ _ ht => exact .inl ⟨ht.contents, ht.pushed, ht.popped⟩
    | wakes hw => exact .inl ⟨hw.contents, hw.pushed, hw.popped⟩
    | stops =>
      have hw := Woken.stop (c := c) s
      exact .inl ⟨(hw _).contents, (hw _).pushed, (hw _).popped⟩
    | @closes i hp ho =>
      refine .inr ⟨i, .closed, rfl, ⟨by rw [hp]; simp, ?_, ?_⟩, rfl⟩
      · exact ((Woken.notifyAll _ _).trans (Woken.notifyAll _ _)).idle.mpr (by simp [State.phase])
      · rw [notifyAll_outcome, notifyAll_outcome]
        simp
    | @finishes _ mid i chosen condition hf hn =>
      have hidle : ∀ o, mid.phase i = .idle → (mid.threads i).outcome = some o →
          s.phase i ≠ .idle → Ends s t i o := fun o h1 h2 h3 =>
        ⟨h3, (notifyOne_woken hn).1.idle.mpr h1, (notifyOne_outcome hn).trans h2⟩
      right
      cases hf with
      | accepts hp =>
        exact ⟨i, _, rfl, hidle _ (leave_idle _ _ _) (leave_outcome _ _ _) (by rw [hp]; simp), rfl⟩
      | takes hp =>
        exact ⟨i, _, rfl, hidle _ (leave_idle _ _ _) (leave_outcome _ _ _) (by rw [hp]; simp), rfl⟩
  · intro i a he
    cases (heffect.ends he).2 with
    | advances ha => exact absurd ha.never_succeeds (by simp [Outcome.failed])
    | accepts _ hc ht hpushed hpopped => exact ⟨hc, ⟨_, ht⟩, hpushed, hpopped⟩
  · intro i a he
    cases (heffect.ends he).2 with
    | advances ha => exact absurd ha.never_succeeds (by simp [Outcome.failed])
    | takes _ hitems ht hpushed hpopped =>
      exact ⟨_, _, hitems, by rw [ht], by rw [ht], hpushed, hpopped⟩
  · intro i outcome he hfailed
    cases (heffect.ends he).2 with
    | advances _ hc hpushed hpopped => exact ⟨hc, hpushed, hpopped⟩
    | _ => cases hfailed
  · intro i he
    cases (heffect.ends he).2 with
    | advances ha => exact h.nothing ha

/-- The steps of one thread. -/
theorem Effect.acts {l : Label α} (h : Effect c s l t) (hl : l.actor = some i) :
    (∃ q ended owner, Advance c s i (s.phase i) q ended owner ∧
      Alone s t i ⟨q, ended.or (s.threads i).outcome⟩ owner) ∨
    (∃ mid condition chosen, Finish s i mid condition ∧
      mid.notifyOne c condition chosen = some t) ∨ s.phase i = .closing := by
  cases h with
  | advances hl' ha ht =>
    have hactor := Label.mover_actor hl'
    rw [hl, Option.some.injEq] at hactor
    subst hactor
    exact .inl ⟨_, _, _, ha, ht⟩
  | finishes hf hn =>
    cases hl
    exact .inr (.inl ⟨_, _, _, hf, hn⟩)
  | closes hp =>
    cases hl
    exact .inr (.inr hp)
  | wakes => cases hl
  | stops => cases hl

theorem Alone.ends {outcome : Outcome α} {owner : Option Nat} (hp : s.phase i ≠ .idle)
    (ht : Alone s t i ⟨.idle, some outcome⟩ owner) : Ends s t i outcome :=
  ⟨hp, ht.phase_self, by rw [ht.self]⟩

theorem Finish.phase {mid : State α} {condition : Condition} (h : Finish s i mid condition) :
    ∃ call token notified, s.phase i = .waiting call token (.passed true notified) := by
  cases h with
  | accepts hp => exact ⟨_, _, _, hp⟩
  | takes hp => exact ⟨_, _, _, hp⟩

theorem Sound.prompt (h : Sound c s) : Prompt c s := by
  constructor
  · intro i a itemBytes token hp hsize
    refine ⟨⟨s.leave i (.refused a), by simp [step, State.next, hp, hsize]⟩, fun l t hl hs => ?_⟩
    rcases (step_effect hs).acts hl with ⟨q, ended, owner, ha, ht⟩ | ⟨_, _, _, hf, -⟩ | hc
    · have hcalled : s.phase i ≠ .idle := by simp [hp]
      rw [hp] at ha
      cases ha with
      | refusedInside => exact ht.ends hcalled
      | waits _ hfree => exact absurd (hsize.symm.trans hfree) (by decide)
    · obtain ⟨_, _, _, hf⟩ := hf.phase
      simp [hp] at hf
    · simp [hp] at hc
  · intro i a itemBytes token place hp
    have hfits := h.phases i
    rw [hp] at hfits
    exact hfits.1.1
  · intro i token notified hp hready l t hl hs
    have hpass : s.contents.ready c (.pop : Call α) = true := by
      simpa [Contents.ready] using hready
    rcases (step_effect hs).acts hl with ⟨q, ended, owner, ha, ht⟩ | ⟨_, _, _, hf, -⟩ | hc
    · rw [hp] at ha
      cases ha with
      | passes => exact ht.phase_self
      | stops hno => exact absurd (hpass.symm.trans hno) (by decide)
      | parks hno => exact absurd (hpass.symm.trans hno) (by decide)
    · obtain ⟨_, _, _, hf⟩ := hf.phase
      simp [hp] at hf
    · simp [hp] at hc
  · intro i token notified a itemBytes rest hp hitems hstop l t hl hs
    have hcalled : s.phase i ≠ .idle := by simp [hp]
    rcases (step_effect hs).acts hl with ⟨q, ended, owner, ha, ht⟩ | ⟨_, _, _, hf, hn⟩ | hc
    · rw [hp] at ha
      cases ha with
      | fails hno => simp [State.succeeds, hstop, hitems] at hno
      | throws => exact .inr (ht.ends hcalled)
    · left
      have hwoken := (notifyOne_woken hn).1
      have hsaid := notifyOne_outcome (i := i) hn
      cases hf with
      | accepts hp' => simp [hp] at hp'
      | takes _ _ hitems' =>
        rw [hitems] at hitems'
        cases hitems'
        exact ⟨hcalled, hwoken.idle.mpr (leave_idle _ _ _), hsaid.trans (leave_outcome _ _ _)⟩
    · simp [hp] at hc

/-- Once the queue is closed it stays closed, and nothing more is put into it. -/
theorem closed_stays {l : Label α} (h : Sound c s) (hclosed : s.contents.closed = true)
    (hs : step c s l = some t) : t.contents.closed = true ∧ t.pushed = s.pushed := by
  have hc := step_contract h hs
  rcases hc.changes with ⟨hsame, hpushed, -⟩ | ⟨i, outcome, -, he, hsucceeds⟩
  · rw [hsame, hpushed]
    exact ⟨hclosed, rfl⟩
  · cases outcome with
    | accepted a =>
      rw [(hc.accepted i a he).1] at hclosed
      cases hclosed
    | item a =>
      obtain ⟨_, _, -, -, hkept, hpushed, -⟩ := hc.item i a he
      exact ⟨hkept.trans hclosed, hpushed⟩
    | closed =>
      cases ((step_effect hs).ends he).2 with
      | advances ha => exact absurd ha.never_succeeds (by simp [Outcome.failed])
      | closes ht hpushed => exact ⟨by rw [ht], hpushed⟩
    | _ => cases hsucceeds

theorem run_closed {ls : List (Label α)} (h : Sound c s) (hclosed : s.contents.closed = true)
    (hr : run c s ls = some t) : t.contents.closed = true ∧ t.pushed = s.pushed := by
  induction ls generalizing s with
  | nil =>
    cases hr
    exact ⟨hclosed, rfl⟩
  | cons l ls ih =>
    obtain ⟨mid, hstep, hrest⟩ := Option.bind_eq_some_iff.mp hr
    obtain ⟨hc, hp⟩ := closed_stays h hclosed hstep
    obtain ⟨hc', hp'⟩ := ih ((step_effect hstep).sound h) hc hrest
    exact ⟨hc', hp'.trans hp⟩

/-- A queue of ten bytes. -/
def tenBytes : Setup where
  itemCapacity := 4
  byteCapacity := some 10
  threadCount := 4
  itemsPositive := by decide
  bytesPositive capacity h := by
    cases h
    decide

/-- A thread calls push and gets as far as its wait. -/
def pushUpToWait (i a : Nat) (itemBytes : UInt64) : List (Label Nat) :=
  [.callPush i a none, .next i, .next i, .sizes i itemBytes, .next i]

def popUpToWait (i : Nat) : List (Label Nat) := [.callPop i none, .next i]

/-- Two items go in, one is refused, one throws, one comes out, and the queue is closed. -/
def mixedRun : List (Label Nat) :=
  pushUpToWait 0 7 4 ++ [.next 0, .finish 0 none] ++ pushUpToWait 1 8 11 ++
    pushUpToWait 0 9 6 ++ [.next 0, .finish 0 none] ++ popUpToWait 2 ++ [.next 2, .finish 2 none] ++
    [.callPush 3 5 none, .next 3, .next 3, .throws 3, .callClose 1, .next 1]

end LocalVault.Concurrency
