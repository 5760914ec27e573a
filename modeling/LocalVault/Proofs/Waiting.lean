import LocalVault.Concurrency.BoundedQueue

namespace LocalVault.Concurrency

variable {α : Type} {c : Setup} {s t : State α} {i j : Nat}

namespace State

@[simp] theorem setThread_self (s : State α) (i : Nat) (thread : Thread α) :
    (s.setThread i thread).threads i = thread := by
  simp [setThread]

@[simp] theorem setThread_other (s : State α) (thread : Thread α) (h : j ≠ i) :
    (s.setThread i thread).threads j = s.threads j := by
  simp [setThread, h]

@[simp] theorem goto_phase (s : State α) (i : Nat) (q : Phase α) : (s.goto i q).phase i = q := by
  simp [phase, goto]

end State

/-- A step of one thread that leaves the contents and the other threads alone. -/
structure Alone (s t : State α) (i : Nat) (thread : Thread α) (owner : Option Nat) : Prop where
  contents : t.contents = s.contents
  stopped : t.stopped = s.stopped
  pushed : t.pushed = s.pushed
  popped : t.popped = s.popped
  owner : t.owner = owner
  self : t.threads i = thread
  others : ∀ j, j ≠ i → t.threads j = s.threads j

theorem Alone.phase {thread : Thread α} {owner : Option Nat} (h : Alone s t i thread owner)
    (hj : j ≠ i) : t.phase j = s.phase j := by
  unfold State.phase
  rw [h.others j hj]

theorem Alone.phase_self {thread : Thread α} {owner : Option Nat}
    (h : Alone s t i thread owner) : t.phase i = thread.phase := by
  unfold State.phase
  rw [h.self]

/-- What such a step does: the phases it leads from and to, how a call ends that ends with it,
and the owner of the mutex behind it. -/
inductive Advance (c : Setup) (s : State α) (i : Nat) :
    Phase α → Phase α → Option (Outcome α) → Option Nat → Prop
  | calls {q : Phase α} : i < c.threadCount → (q = .closing ∨ (∃ a token, q = .entering a token) ∨
      ∃ token, q = .locking none token) → Advance c s i .idle q none s.owner
  | refusedOutside {a : α} {token : Token} : s.stopRequested token = true →
      Advance c s i (.entering a token) .idle (some (.refused a)) s.owner
  | enters {a : α} {token : Token} : s.stopRequested token = false →
      Advance c s i (.entering a token) (.locking (some a) token) none s.owner
  | locksPush {a : α} {token : Token} : s.owner = none →
      Advance c s i (.locking (some a) token)
        (if c.byteCapacity = none then .sized a 0 token else .sizing a token) none (some i)
  | locksPop {token : Token} : s.owner = none →
      Advance c s i (.locking none token) (.waiting .pop token (.testing false)) none (some i)
  | sizes {a : α} {itemBytes : UInt64} {token : Token} :
      Advance c s i (.sizing a token) (.sized a itemBytes token) none s.owner
  | throwsSizing {a : α} {token : Token} : Advance c s i (.sizing a token) .idle (some .threw) none
  | refusedInside {a : α} {itemBytes : UInt64} {token : Token} :
      s.stopRequested token = true ∨ oversized c itemBytes = true →
      Advance c s i (.sized a itemBytes token) .idle (some (.refused a)) none
  | waits {a : α} {itemBytes : UInt64} {token : Token} : s.stopRequested token = false →
      oversized c itemBytes = false →
      Advance c s i (.sized a itemBytes token)
        (.waiting (.push a itemBytes) token (.testing false)) none s.owner
  | passes {call : Call α} {token : Token} {notified : Bool} : s.contents.ready c call = true →
      Advance c s i (.waiting call token (.testing notified))
        (.waiting call token (.passed true notified)) none s.owner
  | stops {call : Call α} {token : Token} {notified : Bool} : s.contents.ready c call = false →
      s.stopRequested token = true →
      Advance c s i (.waiting call token (.testing notified))
        (.waiting call token (.passed false notified)) none s.owner
  | parks {call : Call α} {token : Token} {notified : Bool} : s.contents.ready c call = false →
      s.stopRequested token = false →
      Advance c s i (.waiting call token (.testing notified)) (.waiting call token .parked)
        none none
  | wakes {call : Call α} {token : Token} : s.owner = none →
      Advance c s i (.waiting call token .woken) (.waiting call token (.testing true)) none (some i)
  | fails {call : Call α} {token : Token} {ready notified : Bool} :
      s.succeeds ready token call = false →
      Advance c s i (.waiting call token (.passed ready notified)) .idle
        (some (State.failure call)) none
  | throws {call : Call α} {token : Token} {ready notified : Bool} :
      s.succeeds ready token call = true →
      Advance c s i (.waiting call token (.passed ready notified)) .idle (some .threw) none

/-- Some parked threads are woken, and stops are requested. -/
structure Woken (s t : State α) : Prop where
  contents : t.contents = s.contents
  owner : t.owner = s.owner
  pushed : t.pushed = s.pushed
  popped : t.popped = s.popped
  stopped : ∀ source, s.stopped source = true → t.stopped source = true
  phase : ∀ j, t.phase j = s.phase j ∨ ∃ call token,
    s.phase j = .waiting call token .parked ∧ t.phase j = .waiting call token .woken

theorem Woken.refl (s : State α) : Woken s s :=
  ⟨rfl, rfl, rfl, rfl, fun _ h => h, fun _ => .inl rfl⟩

theorem Woken.trans {u : State α} (h : Woken s t) (k : Woken t u) : Woken s u where
  contents := k.contents.trans h.contents
  owner := k.owner.trans h.owner
  pushed := k.pushed.trans h.pushed
  popped := k.popped.trans h.popped
  stopped source hs := k.stopped source (h.stopped source hs)
  phase j := by
    rcases h.phase j with he | ⟨call, token, hs, ht⟩
    · rw [← he]
      exact k.phase j
    · rcases k.phase j with he | ⟨_, _, hp, _⟩
      · exact .inr ⟨call, token, hs, he.trans ht⟩
      · rw [ht] at hp
        cases hp

theorem parkedOn_eq {p : Phase α} {condition : Condition} (h : p.parkedOn = some condition) :
    ∃ call token, p = .waiting call token .parked ∧ call.condition = condition := by
  unfold Phase.parkedOn at h
  split at h
  · exact ⟨_, _, rfl, Option.some.inj h⟩
  · cases h

theorem Woken.goto {q : Phase α} (hq : (s.phase i).wake = q) (hp : (s.phase i).parkedOn.isSome) :
    Woken s (s.goto i q) where
  contents := rfl
  owner := rfl
  pushed := rfl
  popped := rfl
  stopped _ h := h
  phase j := by
    by_cases hj : j = i
    · subst hj
      obtain ⟨condition, hc⟩ := Option.isSome_iff_exists.mp hp
      obtain ⟨call, token, hs, -⟩ := parkedOn_eq hc
      rw [hs] at hq
      exact .inr ⟨call, token, hs, by rw [State.goto_phase, ← hq]; rfl⟩
    · left
      unfold State.phase State.goto
      rw [State.setThread_other s _ hj]

theorem Woken.notifyAll (s : State α) (condition : Condition) :
    Woken s (s.notifyAll condition) where
  contents := rfl
  owner := rfl
  pushed := rfl
  popped := rfl
  stopped _ h := h
  phase j := by
    have hphase : (s.notifyAll condition).phase j =
        if (s.phase j).parkedOn = some condition then (s.phase j).wake else s.phase j := by
      unfold State.notifyAll State.phase
      dsimp only
      split <;> rfl
    rw [hphase]
    split
    · obtain ⟨call, token, hs, -⟩ := parkedOn_eq ‹_›
      rw [hs]
      exact .inr ⟨call, token, rfl, rfl⟩
    · exact .inl rfl

theorem Woken.stop (s : State α) (source : Nat) : Woken s (s.stop c source) := by
  unfold State.stop
  split
  · exact .refl s
  · have hstopping : Woken s { s with stopped := Function.update s.stopped source true } := by
      refine ⟨rfl, rfl, rfl, rfl, fun n hn => ?_, fun _ => .inl rfl⟩
      by_cases h : n = source <;> simp [Function.update, h, hn]
    dsimp only
    have hfull : ∀ u, Woken s u → Woken s (if s.heard c source .notFull then
        u.notifyAll .notFull else u) := by
      intro u hu
      split
      · exact hu.trans (.notifyAll u _)
      · exact hu
    split
    · exact (hfull _ hstopping).trans (.notifyAll _ _)
    · exact hfull _ hstopping

/-- The end of a call that succeeds, in front of its notification: the state and the condition
that is notified. -/
inductive Finish (s : State α) (i : Nat) : State α → Condition → Prop
  | accepts {a : α} {itemBytes : UInt64} {token : Token} {notified : Bool} :
      s.phase i = .waiting (.push a itemBytes) token (.passed true notified) →
      s.stopRequested token = false → s.contents.closed = false →
      Finish s i ({ s with
        contents := s.contents.append a itemBytes
        pushed := s.pushed ++ [a] }.leave i (.accepted a)) .notEmpty
  | takes {a : α} {itemBytes : UInt64} {rest : List (α × UInt64)} {token : Token}
      {notified : Bool} :
      s.phase i = .waiting .pop token (.passed true notified) →
      s.stopRequested token = false → s.contents.items = (a, itemBytes) :: rest →
      Finish s i ({ s with
        contents := { s.contents with
          items := rest
          bytesUsed := s.contents.bytesUsed - itemBytes }
        popped := s.popped ++ [a] }.leave i (.item a)) .notFull

/-- The thread that takes a step with which no call succeeds. -/
def Label.mover : Label α → Option Nat
  | .finish _ _ => none
  | l => l.actor

theorem Label.mover_actor {l : Label α} (h : l.mover = some i) : l.actor = some i := by
  cases l with
  | finish => cases h
  | _ => exact h

/-- What a step can be. -/
inductive Effect (c : Setup) (s : State α) : Label α → State α → Prop
  | advances {l : Label α} {t : State α} {i : Nat} {q : Phase α} {ended : Option (Outcome α)}
      {owner : Option Nat} : l.mover = some i → Advance c s i (s.phase i) q ended owner →
      Alone s t i ⟨q, ended.or (s.threads i).outcome⟩ owner → Effect c s l t
  | finishes {t mid : State α} {i : Nat} {chosen : Option Nat} {condition : Condition} :
      Finish s i mid condition → mid.notifyOne c condition chosen = some t →
      Effect c s (.finish i chosen) t
  | closes {i : Nat} : s.phase i = .closing → s.owner = none →
      Effect c s (.next i) (({ s with contents := { s.contents with closed := true } }.setThread i
        ⟨.idle, some .closed⟩).notifyAll .notEmpty |>.notifyAll .notFull)
  | wakes {i : Nat} {t : State α} : Woken s t → Effect c s (.spurious i) t
  | stops {source : Nat} : Effect c s (.requestStop source) (s.stop c source)

theorem alone_goto (s : State α) (i : Nat) (q : Phase α) :
    Alone s (s.goto i q) i ⟨q, (s.threads i).outcome⟩ s.owner :=
  ⟨rfl, rfl, rfl, rfl, rfl, by simp [State.goto], fun j hj => by simp [State.goto, hj]⟩

theorem alone_leave (s : State α) (i : Nat) (outcome : Outcome α) :
    Alone s (s.leave i outcome) i ⟨.idle, some outcome⟩ none :=
  ⟨rfl, rfl, rfl, rfl, rfl, by simp [State.leave, State.release],
    fun j hj => by simp [State.leave, State.release, hj]⟩

theorem Alone.owned {thread : Thread α} {owner : Option Nat} (h : Alone s t i thread owner)
    (owner' : Option Nat) : Alone s { t with owner := owner' } i thread owner' :=
  ⟨h.contents, h.stopped, h.pushed, h.popped, rfl, h.self, h.others⟩

theorem Effect.advancing {l : Label α} {p q : Phase α} {ended : Option (Outcome α)}
    {owner : Option Nat} (hl : l.mover = some i) (hp : s.phase i = p)
    (ha : Advance c s i p q ended owner)
    (ht : Alone s t i ⟨q, ended.or (s.threads i).outcome⟩ owner) : Effect c s l t := by
  subst hp
  exact .advances hl ha ht

theorem next_effect (h : s.next c i = some t) : Effect c s (.next i) t := by
  unfold State.next at h
  split at h
  · rename_i a token hp
    split at h
    · cases h
      refine .advancing rfl hp (.refusedOutside ‹_›) ?_
      exact ⟨rfl, rfl, rfl, rfl, rfl, by simp, fun j hj => by simp [hj]⟩
    · rename_i hs
      cases h
      exact .advancing rfl hp (.enters (by simpa using hs)) (alone_goto s i _)
  · rename_i a token hp
    split at h
    · cases h
      exact .advancing rfl hp (.locksPush ‹_›) ((alone_goto s i _).owned _)
    · cases h
  · rename_i token hp
    split at h
    · cases h
      exact .advancing rfl hp (.locksPop ‹_›) ((alone_goto s i _).owned _)
    · cases h
  · rename_i a itemBytes token hp
    split at h
    · rename_i hr
      cases h
      exact .advancing rfl hp (.refusedInside (by simpa using hr)) (alone_leave s i _)
    · rename_i hr
      cases h
      simp only [Bool.or_eq_true, not_or, Bool.not_eq_true] at hr
      exact .advancing rfl hp (.waits hr.1 hr.2) (alone_goto s i _)
  · rename_i call token notified hp
    split at h
    · cases h
      exact .advancing rfl hp (.passes ‹_›) (alone_goto s i _)
    · rename_i hr
      simp only [Bool.not_eq_true] at hr
      split at h
      · cases h
        exact .advancing rfl hp (.stops hr ‹_›) (alone_goto s i _)
      · rename_i hs
        cases h
        exact .advancing rfl hp (.parks hr (by simpa using hs)) ((alone_goto s i _).owned _)
  · rename_i call token hp
    split at h
    · cases h
      exact .advancing rfl hp (.wakes ‹_›) ((alone_goto s i _).owned _)
    · cases h
  · rename_i call token ready notified hp
    split at h
    · cases h
    · rename_i hs
      cases h
      exact .advancing rfl hp (.fails (by simpa using hs)) (alone_leave s i _)
  · rename_i hp
    split at h
    · cases h
      exact .closes hp ‹_›
    · cases h
  · cases h

theorem finish_effect {chosen : Option Nat} (h : s.finish c i chosen = some t) :
    Effect c s (.finish i chosen) t := by
  unfold State.finish at h
  split at h
  · rename_i a itemBytes token ready notified hp
    split at h
    · rename_i hs
      simp only [State.succeeds, Bool.and_eq_true, Bool.not_eq_true'] at hs
      obtain ⟨⟨rfl, hstop⟩, hclosed⟩ := hs
      exact .finishes (.accepts hp hstop hclosed) h
    · cases h
  · rename_i token ready notified hp
    split at h
    · rename_i a itemBytes rest hitems
      split at h
      · rename_i hs
        simp only [State.succeeds, Bool.and_eq_true, Bool.not_eq_true'] at hs
        obtain ⟨⟨rfl, hstop⟩, -⟩ := hs
        exact .finishes (.takes hp hstop hitems) h
      · cases h
    · cases h
  · cases h

/-- Every step is one of these. -/
theorem step_effect {l : Label α} (h : step c s l = some t) : Effect c s l t := by
  cases l with
  | callPush i a token =>
    simp only [step] at h
    split at h
    · rename_i hp
      split at h
      · cases h
        exact .advancing rfl hp (.calls ‹_› (.inr (.inl ⟨a, token, rfl⟩))) (alone_goto s i _)
      · cases h
    · cases h
  | callPop i token =>
    simp only [step] at h
    split at h
    · rename_i hp
      split at h
      · cases h
        exact .advancing rfl hp (.calls ‹_› (.inr (.inr ⟨token, rfl⟩))) (alone_goto s i _)
      · cases h
    · cases h
  | callClose i =>
    simp only [step] at h
    split at h
    · rename_i hp
      split at h
      · cases h
        exact .advancing rfl hp (.calls ‹_› (.inl rfl)) (alone_goto s i _)
      · cases h
    · cases h
  | next i => exact next_effect h
  | sizes i itemBytes =>
    simp only [step] at h
    split at h
    · rename_i hp
      cases h
      exact .advancing rfl hp .sizes (alone_goto s i _)
    · cases h
  | throws i =>
    simp only [step, State.throws] at h
    split at h
    · rename_i hp
      cases h
      exact .advancing rfl hp .throwsSizing (alone_leave s i _)
    · rename_i hp
      split at h
      · cases h
        exact .advancing rfl hp (.throws ‹_›) (alone_leave s i _)
      · cases h
    · cases h
  | finish i chosen => exact finish_effect h
  | spurious i =>
    simp only [step] at h
    split at h
    · cases h
      exact .wakes (.goto rfl ‹_›)
    · cases h
  | requestStop source =>
    cases h
    exact .stops

end LocalVault.Concurrency
