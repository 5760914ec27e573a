import LocalVault.Library.Pool
import LocalVault.Proofs.Caching
import LocalVault.Proofs.Ledger
import LocalVault.Storage.Sharing

namespace LocalVault
open Library
open Snapshot (Grows publish_grows)

section Answers

variable {x : Externals} {maximum rawSize : Nat} {known known' : Known} {objects objects' : Objects}
  {hash raw : Bytes} {object : StoredObject}

/-- A result that names the chunk and the file of its hash. -/
structure Answer (x : Externals) (objects : Objects) (raw : Bytes) (object : StoredObject) :
    Prop where
  hash : object.hashHex = hashRaw x raw
  path : object.relativePath = derivedPath (hashRaw x raw)
  rawSize : object.rawSize = raw.length
  file : ∃ content, objects (derivedPath (hashRaw x raw)) = some (.file content) ∧
    content.length = object.storedSize

theorem Answer.grows (h : Answer x objects raw object) (hg : Grows objects objects') :
    Answer x objects' raw object := by
  obtain ⟨content, hfile, hsize⟩ := h.file
  exact ⟨h.hash, h.path, h.rawSize, content, hg _ _ hfile, hsize⟩

/-- Records that name the derived path of their hash. -/
def Placed (known : Known) : Prop := ∀ e ∈ known, e.2.relativePath = derivedPath e.1

theorem Placed.remember (h : Placed known) (hp : object.relativePath = derivedPath object.hashHex) :
    Placed (remember known object) := by
  intro e he
  rcases mem_remember he with rfl | he
  · exact hp
  · exact h e he

/-- A record that is reused answers with the file it was checked against. -/
theorem requireReusable_answer (hk : Placed known) {cached : StoredObject}
    (hfind : known.find (hashRaw x raw) = some cached)
    (h : requireReusable maximum objects cached (hashRaw x raw) (derivedPath (hashRaw x raw))
      raw.length = .ok object) : object.newlyStored = false ∧ Answer x objects raw object := by
  obtain ⟨hhash, hraw, rfl, hfile⟩ := requireReusable_returns h
  exact ⟨rfl, hhash, hk _ (Known.find_mem hfind), hraw, hfile⟩

theorem findStored_answer (hk : Placed known)
    (h : findStored x maximum known objects raw = .ok (some object)) :
    object.newlyStored = false ∧ Answer x objects raw object := by
  unfold findStored at h
  split at h
  · cases h
  · split at h
    · cases h
    · unfold findExisting at h
      split at h
      · cases h
      · split at h
        · cases h
        · cases h
          exact requireReusable_answer hk ‹_› ‹_›

theorem findExistingFile_answer (hk : Placed known)
    (h : findExistingFile x maximum known objects (hashRaw x raw) (derivedPath (hashRaw x raw))
      raw.length = .ok (some object, known')) :
    object.newlyStored = false ∧ Answer x objects raw object ∧ Placed known' := by
  unfold findExistingFile at h
  split at h
  · obtain ⟨reused, hreused, h⟩ := bind_ok.mp h
    cases h
    obtain ⟨hnew, hanswer⟩ := requireReusable_answer hk ‹_› hreused
    exact ⟨hnew, hanswer, hk⟩
  · obtain ⟨size, hsize, h⟩ := bind_ok.mp h
    cases size with
    | none => cases h
    | some size =>
      obtain ⟨_, _, h⟩ := bind_ok.mp h
      cases h
      obtain ⟨content, hfile, hlength⟩ := regularFileSize_some hsize
      exact ⟨rfl, ⟨rfl, rfl, rfl, content, hfile, hlength⟩, hk.remember rfl⟩

end Answers

section Moves

variable {x : Externals} {maximum count : Nat} {s t : SharedStores} {i : Nat} {label : StoreLabel}

/-- What a step of a call can do. -/
inductive StoreMove (x : Externals) (maximum : Nat) (s : SharedStores) (i : Nat) :
    SharedStores → Prop
  | begins (raw : Bytes) (hp : (s.instances i).phase = .idle) :
      StoreMove x maximum s i (s.enter i (.looking raw))
  | advances (raw : Bytes) (phase : StorePhase) (hp : (s.instances i).phase.ahead = some raw)
      (hn : phase.ahead = some raw) : StoreMove x maximum s i (s.enter i phase)
  | hits (raw : Bytes) (object : StoredObject) (hp : (s.instances i).phase = .looking raw)
      (hf : findStored x maximum (s.instances i).known s.objects raw = .ok (some object)) :
      StoreMove x maximum s i (s.enter i (.returning raw (.ok object)))
  | throwsAhead (raw : Bytes) (e : LocalVaultError) (hp : (s.instances i).phase.ahead = some raw) :
      StoreMove x maximum s i (s.enter i (.returning raw (.error e)))
  | locks (raw compressed : Bytes) (hp : (s.instances i).phase = .waiting raw compressed)
      (hfree : s.stripes (stripeIndex (hashRaw x raw)) = none) :
      StoreMove x maximum s i
        ((s.setStripe raw x (some i)).enter i (.holding raw compressed))
  | misses (raw compressed : Bytes) (hp : (s.instances i).phase = .holding raw compressed) :
      StoreMove x maximum s i (s.enter i (.publishing raw compressed))
  | collides (raw compressed : Bytes) (hp : (s.instances i).phase = .publishing raw compressed) :
      StoreMove x maximum s i (s.enter i (.colliding raw compressed))
  | finds (raw compressed : Bytes) (object : StoredObject) (known : Known)
      (hp : (s.instances i).phase = .holding raw compressed ∨
        (s.instances i).phase = .colliding raw compressed)
      (hf : findExistingFile x maximum (s.instances i).known s.objects (hashRaw x raw)
        (derivedPath (hashRaw x raw)) raw.length = .ok (some object, known)) :
      StoreMove x maximum s i (s.leave x i raw known (.ok object))
  | throwsUnder (raw : Bytes) (e : LocalVaultError) (hp : (s.instances i).phase.held = some raw) :
      StoreMove x maximum s i (s.leave x i raw (s.instances i).known (.error e))
  | publishes (raw compressed : Bytes) (hp : (s.instances i).phase = .publishing raw compressed)
      (hfree : s.objects (derivedPath (hashRaw x raw)) = none) :
      StoreMove x maximum s i
        (SharedStores.enter { s with
          objects := s.objects.publish (derivedPath (hashRaw x raw)) compressed
          renamed := s.renamed ++ [derivedPath (hashRaw x raw)] } i (.published raw compressed))
  | completes (raw compressed : Bytes) (hp : (s.instances i).phase = .published raw compressed) :
      StoreMove x maximum s i (s.leave x i raw
        (remember (s.instances i).known
          ⟨hashRaw x raw, derivedPath (hashRaw x raw), raw.length, compressed.length, false⟩)
        (.ok ⟨hashRaw x raw, derivedPath (hashRaw x raw), raw.length, compressed.length, true⟩))
  | returns (raw : Bytes) (outcome : Except LocalVaultError StoredObject)
      (hp : (s.instances i).phase = .returning raw outcome) :
      StoreMove x maximum s i
        (SharedStores.enter { s with returned := s.returned ++ [(raw, outcome)] } i .idle)

/-- The look under the stripe ends the call, or finds no file. -/
theorem lookUnderStripe_moves {raw compressed : Bytes} {absent : SharedStores}
    (hp : (s.instances i).phase = .holding raw compressed ∨
      (s.instances i).phase = .colliding raw compressed)
    (habsent : StoreMove x maximum s i absent) :
    StoreMove x maximum s i (s.lookUnderStripe x maximum i raw absent) := by
  have hheld : (s.instances i).phase.held = some raw := by
    rcases hp with hp | hp <;> rw [hp] <;> rfl
  unfold SharedStores.lookUnderStripe
  dsimp only
  split
  · exact .throwsUnder raw _ hheld
  · exact .finds raw compressed _ _ hp ‹_›
  · exact habsent

theorem step_moves (h : s.step x maximum count i label = some t) :
    i < count ∧ StoreMove x maximum s i t := by
  unfold SharedStores.step at h
  dsimp only at h
  split at h
  · cases h
  · refine ⟨Nat.lt_of_not_le ‹_›, ?_⟩
    split at h
    · rename_i raw hp
      cases h
      exact .begins raw hp
    · rename_i raw _ hp
      have hahead : (s.instances i).phase.ahead = some raw := by rw [hp]; rfl
      split at h
      · cases h
        exact .throwsAhead raw _ hahead
      · cases h
        exact .hits raw _ hp ‹_›
      · cases h
        exact .advances raw _ hahead rfl
    · rename_i raw _ hp
      have hahead : (s.instances i).phase.ahead = some raw := by rw [hp]; rfl
      split at h
      · cases h
        exact .throwsAhead raw _ hahead
      · cases h
        exact .advances raw _ hahead rfl
    · rename_i raw compressed _ hp
      split at h
      · cases h
      · cases h
        exact .locks raw compressed hp ‹_›
    · rename_i raw compressed _ hp
      cases h
      exact lookUnderStripe_moves (Or.inl hp) (.misses raw compressed hp)
    · rename_i raw compressed _ hp
      split at h
      · cases h
        exact .collides raw compressed hp
      · rename_i hfree
        cases h
        exact .publishes raw compressed hp (Option.not_isSome_iff_eq_none.mp hfree)
    · rename_i raw compressed _ hp
      cases h
      refine lookUnderStripe_moves (Or.inr hp) (.throwsUnder raw _ ?_)
      rw [hp]
      rfl
    · rename_i raw compressed _ hp
      cases h
      exact .completes raw compressed hp
    · rename_i raw outcome _ hp
      cases h
      exact .returns raw outcome hp
    · rename_i e
      split at h
      · cases h
        exact .throwsUnder _ e ‹_›
      · cases h
        exact .throwsAhead _ e ‹_›
      · cases h
    · cases h

end Moves

section Runs

variable {x : Externals} {maximum count : Nat} {s t : SharedStores} {i j : Nat} {old : Objects}
  {raw hash : Bytes} {known : Known} {phase : StorePhase}
  {outcome : Except LocalVaultError StoredObject}

@[simp] theorem enter_same : (s.enter i phase).instances i = ⟨(s.instances i).known, phase⟩ := by
  simp [SharedStores.enter, SharedStores.setInstance]

@[simp] theorem leave_same : (s.leave x i raw known outcome).instances i =
    ⟨known, .returning raw outcome⟩ := by
  simp [SharedStores.leave, SharedStores.setInstance]

@[simp] theorem leave_returned : (s.leave x i raw known outcome).returned = s.returned := rfl

@[simp] theorem leave_renamed : (s.leave x i raw known outcome).renamed = s.renamed := rfl

theorem enter_other (h : j ≠ i) : (s.enter i phase).instances j = s.instances j := by
  simp [SharedStores.enter, SharedStores.setInstance, h]

theorem leave_other (h : j ≠ i) : (s.leave x i raw known outcome).instances j = s.instances j := by
  simp [SharedStores.leave, SharedStores.setInstance, SharedStores.setStripe, h]

theorem StoreMove.others (hm : StoreMove x maximum s i t) (h : j ≠ i) :
    t.instances j = s.instances j := by
  cases hm with
  | finds | throwsUnder | completes => exact leave_other h
  | locks => exact enter_other h
  | _ => exact enter_other h

theorem StoreMove.grows (hm : StoreMove x maximum s i t) : Grows s.objects t.objects := by
  cases hm with
  | publishes raw compressed hp hfree => exact publish_grows hfree
  | _ => exact Grows.refl

/-- The object of a hash that was published and not yet reported, or is being
reported as new. -/
def pending (x : Externals) (hash : Bytes) : StorePhase → Nat
  | .published raw _ => if hashRaw x raw = hash then 1 else 0
  | .returning _ (.ok object) => if object.newlyStored ∧ object.hashHex = hash then 1 else 0
  | _ => 0

/-- A call about the hash that is throwing. -/
def failing (x : Externals) (hash : Bytes) : StorePhase → Nat
  | .returning raw (.error _) => if hashRaw x raw = hash then 1 else 0
  | _ => 0

/-- A call that returned a new object of the hash. -/
def reportsNew (hash : Bytes) (r : Bytes × Except LocalVaultError StoredObject) : Bool :=
  match r.2 with
  | .ok object => object.newlyStored && object.hashHex == hash
  | .error _ => false

/-- A call about the hash that threw. -/
def reportsFailure (x : Externals) (hash : Bytes)
    (r : Bytes × Except LocalVaultError StoredObject) : Bool :=
  match r.2 with
  | .ok _ => false
  | .error _ => hashRaw x r.1 == hash

/-- What is true of the directory, the records and the results at any time. -/
structure Coherent (x : Externals) (old : Objects) (s : SharedStores) : Prop where
  grows : Grows old s.objects
  placed : ∀ i, Placed (s.instances i).known
  written : ∀ i raw compressed, (s.instances i).phase = .published raw compressed →
    s.objects (derivedPath (hashRaw x raw)) = some (.file compressed)
  answers : ∀ i raw object, (s.instances i).phase = .returning raw (.ok object) →
    Answer x s.objects raw object
  returned : ∀ raw object, (raw, .ok object) ∈ s.returned → Answer x s.objects raw object
  renamed : ∀ path, s.renamed.count path =
    if old path = none ∧ s.objects path ≠ none then 1 else 0

theorem Coherent.start : Coherent x old (.start old) where
  grows := Grows.refl
  placed := fun _ e he => absurd he List.not_mem_nil
  written := fun _ _ _ hp => by cases hp
  answers := fun _ _ _ hp => by cases hp
  returned := fun _ _ hr => absurd hr List.not_mem_nil
  renamed := fun path => by
    have : ¬ (old path = none ∧ old path ≠ none) := fun h => h.2 h.1
    simp only [SharedStores.start, List.count_nil, this, ↓reduceIte]

/-- The instance that moved, what it knows and what it answers. -/
structure Moved (x : Externals) (objects : Objects) (store : StoreInstance) : Prop where
  placed : Placed store.known
  written : ∀ raw compressed, store.phase = .published raw compressed →
    objects (derivedPath (hashRaw x raw)) = some (.file compressed)
  answers : ∀ raw object, store.phase = .returning raw (.ok object) → Answer x objects raw object

theorem Moved.quiet {objects : Objects} (hk : Placed known)
    (hw : ∀ raw compressed, phase ≠ .published raw compressed)
    (ha : ∀ raw object, phase ≠ .returning raw (.ok object)) : Moved x objects ⟨known, phase⟩ :=
  ⟨hk, fun raw compressed hp => absurd hp (hw raw compressed),
    fun raw object hp => absurd hp (ha raw object)⟩

theorem StoreMove.moved (hm : StoreMove x maximum s i t) (h : Coherent x old s) :
    Moved x t.objects (t.instances i) := by
  have hplaced := h.placed i
  cases hm with
  | begins raw hp =>
    rw [enter_same]
    exact .quiet hplaced (fun _ _ => nofun) (fun _ _ => nofun)
  | advances raw phase hp hn =>
    rw [enter_same]
    refine .quiet hplaced (fun _ _ hq => ?_) (fun _ _ hq => ?_)
    · rw [hq] at hn
      cases hn
    · rw [hq] at hn
      cases hn
  | hits raw object hp hf =>
    rw [enter_same]
    refine ⟨hplaced, fun _ _ => nofun, fun _ _ hq => ?_⟩
    cases hq
    exact (findStored_answer hplaced hf).2
  | throwsAhead raw e hp =>
    rw [enter_same]
    exact .quiet hplaced (fun _ _ => nofun) (fun _ _ => nofun)
  | locks raw compressed hp hfree =>
    rw [enter_same]
    exact .quiet hplaced (fun _ _ => nofun) (fun _ _ => nofun)
  | misses raw compressed hp =>
    rw [enter_same]
    exact .quiet hplaced (fun _ _ => nofun) (fun _ _ => nofun)
  | collides raw compressed hp =>
    rw [enter_same]
    exact .quiet hplaced (fun _ _ => nofun) (fun _ _ => nofun)
  | finds raw compressed object known hp hf =>
    rw [leave_same]
    obtain ⟨_, hanswer, hplaced'⟩ := findExistingFile_answer hplaced hf
    refine ⟨hplaced', fun _ _ => nofun, fun _ _ hq => ?_⟩
    cases hq
    exact hanswer
  | throwsUnder raw e hp =>
    rw [leave_same]
    exact .quiet hplaced (fun _ _ => nofun) (fun _ _ => nofun)
  | publishes raw compressed hp hfree =>
    rw [enter_same]
    refine ⟨hplaced, fun _ _ hq => ?_, fun _ _ => nofun⟩
    cases hq
    exact if_pos rfl
  | completes raw compressed hp =>
    rw [leave_same]
    refine ⟨hplaced.remember rfl, fun _ _ => nofun, fun _ _ hq => ?_⟩
    cases hq
    exact ⟨rfl, rfl, rfl, compressed, h.written i raw compressed hp, rfl⟩
  | returns raw outcome hp =>
    rw [enter_same]
    exact .quiet hplaced (fun _ _ => nofun) (fun _ _ => nofun)

/-- What a step adds to the results was the answer of its instance. -/
theorem StoreMove.returned (hm : StoreMove x maximum s i t) (h : Coherent x old s) :
    ∀ raw object, (raw, .ok object) ∈ t.returned → Answer x s.objects raw object := by
  intro raw object hr
  cases hm with
  | returns raw' outcome hp =>
    rcases List.mem_append.mp hr with hr | hr
    · exact h.returned raw object hr
    · obtain ⟨rfl, rfl⟩ := Prod.mk.inj (List.mem_singleton.mp hr)
      exact h.answers i raw object hp
  | _ => exact h.returned raw object hr

theorem StoreMove.renamed (hm : StoreMove x maximum s i t) (h : Coherent x old s) (path : Bytes) :
    t.renamed.count path = if old path = none ∧ t.objects path ≠ none then 1 else 0 := by
  cases hm with
  | publishes raw compressed hp hfree =>
    have hcount := h.renamed path
    change (s.renamed ++ [derivedPath (hashRaw x raw)]).count path =
      if old path = none ∧
        s.objects.publish (derivedPath (hashRaw x raw)) compressed path ≠ none then 1 else 0
    rw [List.count_append, hcount]
    by_cases he : path = derivedPath (hashRaw x raw)
    · subst he
      have hold : old (derivedPath (hashRaw x raw)) = none := by
        cases ho : old (derivedPath (hashRaw x raw)) with
        | none => rfl
        | some node =>
          rw [h.grows _ _ ho] at hfree
          cases hfree
      simp [hold, hfree, Objects.publish]
    · have hne : derivedPath (hashRaw x raw) ≠ path := fun hq => he hq.symm
      simp [Objects.publish, he, hne]
  | _ => exact h.renamed path

theorem Coherent.step (h : Coherent x old s) (hm : StoreMove x maximum s i t) :
    Coherent x old t := by
  have hg := hm.grows
  have hmoved := hm.moved h
  refine ⟨h.grows.trans hg, fun j => ?_, fun j raw compressed hp => ?_, fun j raw object hp => ?_,
    fun raw object hr => (hm.returned h raw object hr).grows hg, hm.renamed h⟩
  · by_cases hj : j = i
    · rw [hj]
      exact hmoved.placed
    · rw [hm.others hj]
      exact h.placed j
  · by_cases hj : j = i
    · rw [hj] at hp
      exact hmoved.written raw compressed hp
    · rw [hm.others hj] at hp
      exact hg _ _ (h.written j raw compressed hp)
  · by_cases hj : j = i
    · rw [hj] at hp
      exact hmoved.answers raw object hp
    · rw [hm.others hj] at hp
      exact (h.answers j raw object hp).grows hg

theorem ahead_quiet (h : phase.ahead = some raw) (hash : Bytes) :
    pending x hash phase = 0 ∧ failing x hash phase = 0 := by
  cases phase <;> first | exact ⟨rfl, rfl⟩ | cases h

theorem held_quiet (h : phase.held = some raw) (hash : Bytes) :
    pending x hash phase ≤ (if hashRaw x raw = hash then 1 else 0) ∧ failing x hash phase = 0 := by
  cases phase <;> first | cases h
  · exact ⟨Nat.zero_le _, rfl⟩
  · exact ⟨Nat.zero_le _, rfl⟩
  · exact ⟨Nat.zero_le _, rfl⟩
  · exact ⟨Nat.le_refl _, rfl⟩

/-- Every publication is reported once, or its call throws: what a step does to
the two sides, seen from the instance that moves. -/
theorem StoreMove.ledger (hm : StoreMove x maximum s i t) (h : Coherent x old s) (hash : Bytes) :
    t.returned.countP (reportsNew hash) + pending x hash (t.instances i).phase +
          s.renamed.count (derivedPath hash) ≤
        s.returned.countP (reportsNew hash) + pending x hash (s.instances i).phase +
          t.renamed.count (derivedPath hash) ∧
      t.renamed.count (derivedPath hash) + s.returned.countP (reportsNew hash) +
          pending x hash (s.instances i).phase + s.returned.countP (reportsFailure x hash) +
          failing x hash (s.instances i).phase ≤
        s.renamed.count (derivedPath hash) + t.returned.countP (reportsNew hash) +
          pending x hash (t.instances i).phase + t.returned.countP (reportsFailure x hash) +
          failing x hash (t.instances i).phase := by
  cases hm with
  | begins raw hp =>
    rw [enter_same, hp]
    exact ⟨Nat.le_refl _, Nat.le_refl _⟩
  | advances raw phase hp hn =>
    obtain ⟨hp0, hf0⟩ := ahead_quiet (x := x) hp hash
    obtain ⟨hp1, hf1⟩ := ahead_quiet (x := x) hn hash
    rw [enter_same, hp0, hf0, hp1, hf1]
    exact ⟨Nat.le_refl _, Nat.le_refl _⟩
  | hits raw object hp hf =>
    have hold := (findStored_answer (h.placed i) hf).1
    rw [enter_same, hp]
    simp only [pending, failing, hold, Bool.false_eq_true, false_and, ↓reduceIte]
    exact ⟨Nat.le_refl _, Nat.le_refl _⟩
  | throwsAhead raw e hp =>
    obtain ⟨hp0, hf0⟩ := ahead_quiet (x := x) hp hash
    rw [enter_same, hp0, hf0]
    exact ⟨Nat.le_refl _, Nat.le_add_right _ _⟩
  | locks raw compressed hp hfree =>
    rw [enter_same, hp]
    exact ⟨Nat.le_refl _, Nat.le_refl _⟩
  | misses raw compressed hp =>
    rw [enter_same, hp]
    exact ⟨Nat.le_refl _, Nat.le_refl _⟩
  | collides raw compressed hp =>
    rw [enter_same, hp]
    exact ⟨Nat.le_refl _, Nat.le_refl _⟩
  | finds raw compressed object known hp hf =>
    have hold := (findExistingFile_answer (h.placed i) hf).1
    have hquiet : pending x hash (s.instances i).phase = 0 ∧
        failing x hash (s.instances i).phase = 0 := by
      rcases hp with hp | hp <;> rw [hp] <;> exact ⟨rfl, rfl⟩
    rw [leave_same, hquiet.1, hquiet.2]
    simp only [pending, failing, hold, Bool.false_eq_true, false_and, ↓reduceIte]
    exact ⟨Nat.le_refl _, Nat.le_refl _⟩
  | throwsUnder raw e hp =>
    obtain ⟨hp0, hf0⟩ := held_quiet (x := x) hp hash
    have hthrown : pending x hash (.returning raw (.error e)) = 0 ∧
        failing x hash (.returning raw (.error e)) = if hashRaw x raw = hash then 1 else 0 :=
      ⟨rfl, rfl⟩
    simp only [leave_same, leave_returned, leave_renamed, hf0, hthrown.1, hthrown.2]
    omega
  | publishes raw compressed hp hfree =>
    rw [enter_same, hp]
    simp only [pending, failing, SharedStores.enter, SharedStores.setInstance, List.count_append,
      List.count_singleton]
    by_cases he : hashRaw x raw = hash
    · simp only [he, ↓reduceIte, beq_self_eq_true]
      omega
    · have hne : derivedPath (hashRaw x raw) ≠ derivedPath hash :=
        fun hq => he (Snapshot.derivedPath_injective hq)
      simp [he, hne]
  | completes raw compressed hp =>
    rw [leave_same, hp]
    simp only [pending, failing, leave_returned, leave_renamed, true_and]
    omega
  | returns raw outcome hp =>
    rw [enter_same, hp]
    simp only [SharedStores.enter, SharedStores.setInstance, List.countP_append,
      List.countP_singleton]
    cases outcome with
    | ok object =>
      simp only [pending, failing, reportsNew, reportsFailure, Bool.and_eq_true, beq_iff_eq,
        Bool.false_eq_true, ↓reduceIte]
      omega
    | error e =>
      simp only [pending, failing, reportsNew, reportsFailure, beq_iff_eq, Bool.false_eq_true,
        ↓reduceIte]
      omega

/-- The results of the calls against the publications. -/
structure Balanced (x : Externals) (count : Nat) (s : SharedStores) : Prop where
  low : ∀ hash, s.returned.countP (reportsNew hash) +
      pooled count (fun i => pending x hash (s.instances i).phase) ≤
    s.renamed.count (derivedPath hash)
  high : ∀ hash, s.renamed.count (derivedPath hash) ≤
    s.returned.countP (reportsNew hash) +
        pooled count (fun i => pending x hash (s.instances i).phase) +
      (s.returned.countP (reportsFailure x hash) +
        pooled count (fun i => failing x hash (s.instances i).phase))

theorem Balanced.start : Balanced x count (.start old) := by
  have hzero : pooled count (fun _ => 0) = 0 := pooled_eq_zero.mpr (fun _ _ => rfl)
  constructor
  · intro hash
    exact Nat.le_of_eq ((Nat.zero_add _).trans hzero)
  · intro hash
    exact Nat.zero_le _

theorem Balanced.step (h : Balanced x count s) (hc : Coherent x old s) (hi : i < count)
    (hm : StoreMove x maximum s i t) : Balanced x count t := by
  have hpending : ∀ hash, pooled count (fun j => pending x hash (t.instances j).phase) +
      pending x hash (s.instances i).phase =
      pooled count (fun j => pending x hash (s.instances j).phase) +
        pending x hash (t.instances i).phase := fun hash =>
    pooled_change (f := fun j => pending x hash (s.instances j).phase)
      (g := fun j => pending x hash (t.instances j).phase) hi
      (fun j hj => by rw [hm.others hj])
  have hfailing : ∀ hash, pooled count (fun j => failing x hash (t.instances j).phase) +
      failing x hash (s.instances i).phase =
      pooled count (fun j => failing x hash (s.instances j).phase) +
        failing x hash (t.instances i).phase := fun hash =>
    pooled_change (f := fun j => failing x hash (s.instances j).phase)
      (g := fun j => failing x hash (t.instances j).phase) hi
      (fun j hj => by rw [hm.others hj])
  constructor
  · intro hash
    have hledger := (hm.ledger hc hash).1
    have hbefore := h.low hash
    have hp := hpending hash
    omega
  · intro hash
    have hledger := (hm.ledger hc hash).2
    have hbefore := h.high hash
    have hp := hpending hash
    have hf := hfailing hash
    omega

theorem run_published {labels : List (Nat × StoreLabel)} (hc : Coherent x old s)
    (hb : Balanced x count s) (h : s.run x maximum count labels = some t) :
    Coherent x old t ∧ Balanced x count t := by
  induction labels generalizing s with
  | nil =>
    cases h
    exact ⟨hc, hb⟩
  | cons label labels ih =>
    obtain ⟨mid, hstep, hrest⟩ := Option.bind_eq_some_iff.mp h
    obtain ⟨hi, hm⟩ := step_moves hstep
    exact ih (hc.step hm) (hb.step hc hi hm) hrest

end Runs

/-- However many stores share their stripes, and however their calls are
scheduled and fail, the object of a hash is published once: at most one call
reports it as new, at most one rename succeeds, and an object that was there is
never reported as new. Where every call has ended and none has thrown, exactly one
reports each object that was missing. Calls for the same bytes answer alike. -/
theorem chunk_published_once {x : Externals} {maximum count : Nat} {objects : Objects}
    {labels : List (Nat × StoreLabel)} {s : SharedStores}
    (h : (SharedStores.start objects).run x maximum count labels = some s) :
    (∀ hash,
      s.returned.countP (reportsNew hash) ≤ 1 ∧
      s.renamed.count (derivedPath hash) ≤ 1 ∧
      (0 < s.returned.countP (reportsNew hash) → objects (derivedPath hash) = none) ∧
      ((∀ i < count, (s.instances i).phase = .idle) →
        (∀ r ∈ s.returned, ∃ object, r.2 = .ok object) →
        (∃ r ∈ s.returned, hashRaw x r.1 = hash) → objects (derivedPath hash) = none →
        s.returned.countP (reportsNew hash) = 1)) ∧
    ∀ raw object object', (raw, .ok object) ∈ s.returned → (raw, .ok object') ∈ s.returned →
      object.hashHex = object'.hashHex ∧ object.relativePath = object'.relativePath ∧
      object.rawSize = object'.rawSize ∧ object.storedSize = object'.storedSize := by
  obtain ⟨hc, hb⟩ := run_published Coherent.start Balanced.start h
  constructor
  · intro hash
    have hrenamed := hc.renamed (derivedPath hash)
    have hlow := hb.low hash
    have honce : s.renamed.count (derivedPath hash) ≤ 1 := by
      rw [hrenamed]
      split <;> omega
    refine ⟨by omega, honce, fun hnew => ?_, fun hidle hreturned hsome hmissing => ?_⟩
    · by_contra hthere
      rw [if_neg (fun hboth => hthere hboth.1)] at hrenamed
      omega
    · have hpending : pooled count (fun i => pending x hash (s.instances i).phase) = 0 :=
        pooled_eq_zero.mpr (fun i hi => by rw [hidle i hi]; rfl)
      have hfailing : pooled count (fun i => failing x hash (s.instances i).phase) = 0 :=
        pooled_eq_zero.mpr (fun i hi => by rw [hidle i hi]; rfl)
      have hthrown : s.returned.countP (reportsFailure x hash) = 0 := by
        refine List.countP_eq_zero.mpr (fun r hr => ?_)
        obtain ⟨object, hok⟩ := hreturned r hr
        simp [reportsFailure, hok]
      -- the call about this hash has answered with a file that was not there
      have hpublished : s.objects (derivedPath hash) ≠ none := by
        obtain ⟨⟨raw, outcome⟩, hr, rfl⟩ := hsome
        obtain ⟨object, rfl⟩ := hreturned _ hr
        obtain ⟨content, hfile, _⟩ := (hc.returned raw object hr).file
        rw [hfile]
        exact Option.some_ne_none _
      rw [if_pos ⟨hmissing, hpublished⟩] at hrenamed
      have hhigh := hb.high hash
      omega
  · intro raw object object' ho ho'
    have ha := hc.returned raw object ho
    have ha' := hc.returned raw object' ho'
    obtain ⟨content, hfile, hsize⟩ := ha.file
    obtain ⟨content', hfile', hsize'⟩ := ha'.file
    rw [hfile] at hfile'
    cases hfile'
    exact ⟨ha.hash.trans ha'.hash.symm, ha.path.trans ha'.path.symm,
      ha.rawSize.trans ha'.rawSize.symm, hsize.symm.trans hsize'⟩

/-- Two stores race for one chunk: both compress it before the first of them has
its stripe. -/
def raceForChunk : List (Nat × StoreLabel) :=
  [(0, .calls (ascii "abc")), (1, .calls (ascii "abc")), (0, .next false), (1, .next false),
    (0, .next false), (1, .next false)] ++ List.replicate 5 (1, .next false) ++
    List.replicate 3 (0, .next false)

theorem chunk_published_once_race : ∃ s,
    (SharedStores.start (fun _ => none)).run Snapshot.sampleExternals 4 2 raceForChunk = some s ∧
    s.returned.countP (reportsNew (toHex Snapshot.sampleDigest)) = 1 := by
  have hrun : ((SharedStores.start (fun _ => none)).run Snapshot.sampleExternals 4 2
      raceForChunk).isSome = true := by decide +kernel
  have hended : ((SharedStores.start (fun _ => none)).run Snapshot.sampleExternals 4 2
      raceForChunk).all (fun s => (List.range 2).all (fun i => (s.instances i).phase == .idle) &&
        s.returned.all (fun r => r.2.isOk) &&
        s.returned.any (fun r => hashRaw Snapshot.sampleExternals r.1 ==
          toHex Snapshot.sampleDigest)) = true := by decide +kernel
  obtain ⟨s, hs⟩ := Option.isSome_iff_exists.mp hrun
  rw [hs] at hended
  simp only [Option.all_some, Bool.and_eq_true, List.all_eq_true, List.any_eq_true, List.mem_range,
    beq_iff_eq] at hended
  obtain ⟨⟨hidle, hok⟩, hsome⟩ := hended
  refine ⟨s, hs, ((chunk_published_once hs).1 (toHex Snapshot.sampleDigest)).2.2.2 hidle
    (fun r hr => ?_) hsome rfl⟩
  have hr := hok r hr
  cases ho : r.2 with
  | ok object => exact ⟨object, rfl⟩
  | error e =>
    rw [ho] at hr
    cases hr

end LocalVault
