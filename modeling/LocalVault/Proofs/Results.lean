import LocalVault.Proofs.Threads

namespace LocalVault.Snapshot
open Library Repository

variable {c : Config} {x : Externals} {s t : State}

/-- References of consecutive chunks, from a number and an offset on. -/
def Spooled (x : Externals) : Nat → Nat → List ChunkReferenceRecord → List Bytes → Prop
  | _, _, [], [] => True
  | number, offset, ref :: refs, raw :: raws =>
    ref.sequenceNumber = number ∧ ref.rawOffset = offset ∧ ref.rawSize = raw.length ∧
      ref.hashHex = hashRaw x raw ∧ Spooled x (number + 1) (offset + raw.length) refs raws
  | _, _, _, _ => False

theorem Spooled.length {refs : List ChunkReferenceRecord} {raws : List Bytes} {number offset : Nat}
    (h : Spooled x number offset refs raws) : refs.length = raws.length := by
  induction refs generalizing raws number offset with
  | nil =>
    cases raws with
    | nil => rfl
    | cons raw raws => cases h
  | cons ref refs ih =>
    cases raws with
    | nil => cases h
    | cons raw raws => simp [ih h.2.2.2.2]

theorem Spooled.append {refs : List ChunkReferenceRecord} {raws : List Bytes} {number offset : Nat}
    {ref : ChunkReferenceRecord} {raw : Bytes} (h : Spooled x number offset refs raws)
    (hnumber : ref.sequenceNumber = (number + raws.length : Nat))
    (hoffset : ref.rawOffset = offset + raws.flatten.length)
    (hsize : ref.rawSize = raw.length) (hhash : ref.hashHex = hashRaw x raw) :
    Spooled x number offset (refs ++ [ref]) (raws ++ [raw]) := by
  induction refs generalizing raws number offset with
  | nil =>
    cases raws with
    | nil => exact ⟨hnumber, hoffset, hsize, hhash, trivial⟩
    | cons raw raws => cases h
  | cons first refs ih =>
    cases raws with
    | nil => cases h
    | cons part raws =>
      obtain ⟨hn, ho, hs, hh, hrest⟩ := h
      refine ⟨hn, ho, hs, hh, ih hrest ?_ ?_⟩
      · rw [hnumber, List.length_cons]
        congr 1
        omega
      · rw [hoffset, List.flatten_cons, List.length_append]
        omega

/-- An exception that the source file, and not the object store or a stop,
has caused. -/
def FailedAttempt.Source (f : FailedAttempt) : Prop :=
  f.callback = false ∧ (f.error.code = .filesystemError ∨ f.error.code = .sourceChanged)

def FileJob.regular : FileJob → Bool
  | .entry e => e.type == .regularFile
  | .warning _ => false

/-- What a worker may make of a job. -/
inductive Result (c : Config) (x : Externals) (p : ProcessedEntry) : Prop
  | passed (hj : p.origin.regular = false) (hp : p = passed p.origin)
  | stored (e : ScannedEntry) (a : ReadAttempt) (refs : List ChunkReferenceRecord)
      (ho : p.origin = .entry e) (ht : e.type = .regularFile) (ha : p.accepted = some a)
      (hv : p.value = .entry { e with
        logicalSize := a.before.logicalSize
        modifiedTimeNs := a.before.modifiedTimeNs
        posixMode := a.before.posixMode })
      (hsame : a.before.sameStableIdentity a.after = true)
      (hrefs : p.chunkReferences = some refs) (hspool : Spooled x 0 0 refs a.chunks)
      (hsize : a.chunks.flatten.length = a.before.logicalSize)
      (hhash : p.fileHashHex = hashRaw x a.chunks.flatten) (hcount : p.chunkCount = refs.length)
      (htries : p.failures.length + 1 ≤ attemptCount c) (hsource : ∀ f ∈ p.failures, f.Source)
  | unread (e : ScannedEntry) (w : ScanWarning) (ho : p.origin = .entry e)
      (ht : e.type = .regularFile) (hv : p.value = .warning w)
      (hpath : w.relativePath = e.relativePath) (hrefs : p.chunkReferences = none)
      (ha : p.accepted = none) (htries : p.failures.length = attemptCount c)
      (hsource : ∀ f ∈ p.failures, f.Source)

/-- A file whose earlier attempts failed because of the source. -/
structure TaskSound (c : Config) (t : Task) : Prop where
  regular : t.original.type = .regularFile
  counted : t.failures.length = t.attempt
  allowed : t.attempt < attemptCount c
  source : ∀ f ∈ t.failures, f.Source

/-- A read attempt between two chunks. -/
structure ReadingSound (c : Config) (x : Externals) (r : Reading) : Prop where
  task : TaskSound c r.task
  spooled : Spooled x 0 0 r.spool r.chunks
  offset : r.rawOffset = r.chunks.flatten.length
  bytes : r.bytesRead = r.chunks.flatten.length
  sequence : r.sequence = r.chunks.length
  hashed : r.hashed = r.chunks.flatten

/-- A read attempt that has a chunk in its hands. -/
def Delivering (c : Config) (x : Externals) (r : Reading) (raw : Bytes) : Prop :=
  ∃ before, ReadingSound c x before ∧ r = before.deliver raw

/-- What a worker knows at each place. -/
def PcSound (c : Config) (x : Externals) : WorkerPc → Prop
  | .beginning t | .measuring t | .opening t _ => TaskSound c t
  | .reading r | .confirming r => ReadingSound c x r
  | .storing r raw | .compressing r raw | .publishing r raw _ => Delivering c x r raw
  | .finished p | .pushing p | .refused p _ => Result c x p
  | _ => True

/-- The job a worker has not answered yet. -/
def WorkerPc.open : WorkerPc → Option FileJob
  | .beginning t | .measuring t | .opening t _ => some (.entry t.original)
  | .reading r | .confirming r => some (.entry r.task.original)
  | .storing r _ | .compressing r _ | .publishing r _ _ => some (.entry r.task.original)
  | .finished p => some p.origin
  | _ => none

/-- What an exception makes of an attempt. -/
theorem caught_cases (c : Config) (t : Task) (callback : Bool) (spool : List ChunkReferenceRecord)
    (f : Failure) :
    caught c t callback spool f = .shutting f .record ∨
      ∃ e, callback = false ∧ (e.code = .filesystemError ∨ e.code = .sourceChanged) ∧
        (t.attempt + 1 < attemptCount c ∧ caught c t callback spool f = .beginning { t with
            attempt := t.attempt + 1, failures := t.failures ++ [⟨e, callback, spool⟩] } ∨
          attemptCount c ≤ t.attempt + 1 ∧
            caught c t callback spool f = .finished (unreadable t ⟨e, callback, spool⟩)) := by
  unfold caught
  split
  · rename_i e _
    split
    · exact Or.inl rfl
    · rename_i hcode
      have hcodes : callback = false ∧ (e.code = .filesystemError ∨ e.code = .sourceChanged) := by
        simp only [not_or, not_and, Bool.not_eq_true] at hcode
        refine ⟨hcode.1, ?_⟩
        by_cases hfs : e.code = .filesystemError
        · exact Or.inl hfs
        · exact Or.inr (by simpa using hcode.2.2 hfs)
      split
      · exact Or.inr ⟨e, hcodes.1, hcodes.2, Or.inl ⟨‹_›, rfl⟩⟩
      · exact Or.inr ⟨e, hcodes.1, hcodes.2, Or.inr ⟨Nat.not_lt.mp ‹_›, rfl⟩⟩
  · exact Or.inl rfl

theorem caught_sound {t : Task} (h : TaskSound c t) (callback : Bool)
    (spool : List ChunkReferenceRecord) (f : Failure) :
    PcSound c x (caught c t callback spool f) := by
  rcases caught_cases c t callback spool f with he | ⟨e, hcb, hcode, ⟨hlt, he⟩ | ⟨hle, he⟩⟩
  · rw [he]
    trivial
  · rw [he]
    refine ⟨h.regular, by simp [h.counted], hlt, ?_⟩
    intro f hf
    rcases List.mem_append.mp hf with hf | hf
    · exact h.source f hf
    · cases List.mem_singleton.mp hf
      exact ⟨hcb, hcode⟩
  · rw [he]
    have hlast := h.allowed
    refine .unread t.original _ rfl h.regular rfl rfl rfl rfl ?_ ?_
    · simp only [unreadable, List.length_append, h.counted, List.length_singleton]
      omega
    · intro f hf
      rcases List.mem_append.mp hf with hf | hf
      · exact h.source f hf
      · cases List.mem_singleton.mp hf
        exact ⟨hcb, hcode⟩

/-- An attempt that fails leaves the worker with the same job. -/
theorem caught_open {t : Task} {callback : Bool} {spool : List ChunkReferenceRecord} {f : Failure}
    (h : (caught c t callback spool f).shuts = false) :
    (caught c t callback spool f).open = some (.entry t.original) := by
  rcases caught_cases c t callback spool f with he | ⟨e, hcb, hcode, ⟨hlt, he⟩ | ⟨hle, he⟩⟩
  · simp [he, WorkerPc.shuts] at h
  · rw [he]
    rfl
  · rw [he]
    rfl

/-- A record is reused only for the hash and the size it was asked for. -/
theorem requireReusable_names {maximum rawSize : Nat} {objects : Objects} {known object : StoredObject}
    {hash path : Bytes}
    (h : requireReusable maximum objects known hash path rawSize = .ok object) :
    object.hashHex = hash ∧ object.rawSize = rawSize := by
  unfold requireReusable at h
  split at h
  · cases h
  · rename_i hhash
    split at h
    · cases h
    · rename_i hraw
      split at h
      · cases h
      · obtain ⟨size, hsize, h⟩ := bind_ok.mp h
        cases size with
        | none => cases h
        | some actual =>
          simp only at h
          split at h
          · cases h
          · cases h
            simp only [not_or, ne_eq, Decidable.not_not] at hhash hraw
            exact ⟨hhash.1, hraw⟩

theorem findStored_names {maximum : Nat} {known : Known} {objects : Objects} {raw : Bytes}
    {object : StoredObject} (h : findStored x maximum known objects raw = .ok (some object)) :
    object.hashHex = hashRaw x raw ∧ object.rawSize = raw.length := by
  unfold findStored at h
  split at h
  · cases h
  · split at h
    · cases h
    · unfold findExisting at h
      split at h
      · cases h
      · split at h
        · cases h
        · cases h
          exact requireReusable_names ‹_›

theorem findExistingFile_names {maximum rawSize : Nat} {known known' : Known} {objects : Objects}
    {hash path : Bytes} {object : StoredObject}
    (h : findExistingFile x maximum known objects hash path rawSize = .ok (some object, known')) :
    object.hashHex = hash ∧ object.rawSize = rawSize := by
  unfold findExistingFile at h
  split at h
  · obtain ⟨reused, hr, h⟩ := bind_ok.mp h
    cases h
    exact requireReusable_names hr
  · obtain ⟨size, hsize, h⟩ := bind_ok.mp h
    cases size with
    | none => cases h
    | some orphan =>
      obtain ⟨_, _, h⟩ := bind_ok.mp h
      cases h
      exact ⟨rfl, rfl⟩

theorem storeUnderStripe_names {maximum : Nat} {known known' : Known} {objects objects' : Objects}
    {raw compressed : Bytes} {object : StoredObject}
    (h : storeUnderStripe x maximum known objects raw compressed = .ok (object, known', objects')) :
    object.hashHex = hashRaw x raw ∧ object.rawSize = raw.length := by
  unfold storeUnderStripe at h
  simp only at h
  split at h
  · cases h
  · cases h
    exact findExistingFile_names ‹_›
  · cases h
    exact ⟨rfl, rfl⟩

/-- A chunk that was stored is appended to the attempt, or the worker fails. -/
theorem appended_cases (c : Config) (r : Reading) (raw : Bytes) (object : StoredObject) :
    (∃ f, appended c r raw object = .shutting f .record) ∨
      object.hashHex.length = 64 ∧
        (raw.length < c.chunkSize ∧ appended c r raw object = .confirming (r.append raw object) ∨
          c.chunkSize ≤ raw.length ∧ appended c r raw object = .reading (r.append raw object)) := by
  have hfatal : ∀ f, ∃ f', caught c r.task true r.spool f = .shutting f' .record := by
    intro f
    rcases caught_cases c r.task true r.spool f with he | ⟨e, hcb, _⟩
    · exact ⟨f, he⟩
    · cases hcb
  unfold appended
  split
  · exact Or.inl (hfatal _)
  · split
    · exact Or.inl (hfatal _)
    · split
      · exact Or.inl (hfatal _)
      · rename_i hlength
        have hlength : object.hashHex.length = 64 := by simpa using hlength
        split
        · exact Or.inr ⟨hlength, Or.inl ⟨‹_›, rfl⟩⟩
        · exact Or.inr ⟨hlength, Or.inr ⟨Nat.not_lt.mp ‹_›, rfl⟩⟩

theorem append_sound {r : Reading} {raw : Bytes} {object : StoredObject}
    (h : Delivering c x r raw)
    (ho : object.hashHex = hashRaw x raw ∧ object.rawSize = raw.length) :
    ReadingSound c x (r.append raw object) := by
  obtain ⟨before, hb, rfl⟩ := h
  refine ⟨hb.task, hb.spooled.append ?_ ?_ ho.2 ho.1, ?_, ?_, ?_, ?_⟩
  · change (before.sequence : Int) = _
    rw [hb.sequence, Nat.zero_add]
  · change before.rawOffset = _
    rw [hb.offset, Nat.zero_add]
  · change before.rawOffset + raw.length = (before.chunks ++ [raw]).flatten.length
    rw [hb.offset]
    simp
  · change before.bytesRead + object.rawSize = (before.chunks ++ [raw]).flatten.length
    rw [hb.bytes, ho.2]
    simp
  · change before.sequence + 1 = (before.chunks ++ [raw]).length
    rw [hb.sequence]
    simp
  · change before.hashed ++ raw = (before.chunks ++ [raw]).flatten
    rw [hb.hashed]
    simp

theorem appended_sound {r : Reading} {raw : Bytes} {object : StoredObject}
    (h : Delivering c x r raw)
    (ho : object.hashHex = hashRaw x raw ∧ object.rawSize = raw.length) :
    PcSound c x (appended c r raw object) := by
  rcases appended_cases c r raw object with ⟨f, he⟩ | ⟨_, ⟨_, he⟩ | ⟨_, he⟩⟩
  · rw [he]
    trivial
  · rw [he]
    exact append_sound h ho
  · rw [he]
    exact append_sound h ho

theorem appended_open {r : Reading} {raw : Bytes} {object : StoredObject}
    (h : (appended c r raw object).shuts = false) :
    (appended c r raw object).open = some (.entry r.task.original) := by
  rcases appended_cases c r raw object with ⟨f, he⟩ | ⟨_, ⟨_, he⟩ | ⟨_, he⟩⟩
  · simp [he, WorkerPc.shuts] at h
  · rw [he]
    rfl
  · rw [he]
    rfl

theorem Delivering.task {r : Reading} {raw : Bytes} (h : Delivering c x r raw) :
    TaskSound c r.task := by
  obtain ⟨before, hb, rfl⟩ := h
  exact hb.task

theorem attempt_task {pc : WorkerPc} {t : Task} {callback : Bool}
    {spool : List ChunkReferenceRecord} (h : PcSound c x pc)
    (hpc : pc.attempt = some (t, callback, spool)) : TaskSound c t := by
  cases pc <;> simp only [WorkerPc.attempt, Option.some.injEq, Prod.mk.injEq, reduceCtorEq] at hpc
  · exact hpc.1 ▸ h
  · exact hpc.1 ▸ h
  · exact hpc.1 ▸ ReadingSound.task h
  · exact hpc.1 ▸ Delivering.task h
  · exact hpc.1 ▸ Delivering.task h
  · exact hpc.1 ▸ Delivering.task h
  · exact hpc.1 ▸ ReadingSound.task h

theorem attempt_open {pc : WorkerPc} {t : Task} {callback : Bool}
    {spool : List ChunkReferenceRecord} (hpc : pc.attempt = some (t, callback, spool)) :
    pc.open = some (.entry t.original) := by
  cases pc <;> simp only [WorkerPc.attempt, Option.some.injEq, Prod.mk.injEq, reduceCtorEq] at hpc
  all_goals
    rw [← hpc.1]
    rfl

/-- The second look at the metadata decides an attempt. -/
theorem confirmed_cases (r : Reading) (after : PlatformFileMetadata) :
    (∃ f, confirmed c x r after = caught c r.task false r.spool f) ∨
      r.bytesRead = r.before.logicalSize ∧ r.before.sameStableIdentity after = true ∧
        confirmed c x r after = .finished (stable x r after) := by
  unfold confirmed
  split
  · exact Or.inl ⟨_, rfl⟩
  · rename_i hok
    simp only [ne_eq, Bool.not_eq_eq_eq_not, Bool.not_true, not_or, Decidable.not_not,
      Bool.not_eq_false] at hok
    exact Or.inr ⟨hok.1, hok.2, rfl⟩

theorem confirmed_sound {r : Reading} (h : ReadingSound c x r) (after : PlatformFileMetadata) :
    PcSound c x (confirmed c x r after) := by
  rcases confirmed_cases (c := c) (x := x) r after with ⟨f, he⟩ | ⟨hsize, hsame, he⟩
  · rw [he]
    exact caught_sound h.task _ _ f
  · rw [he]
    have htries := h.task.allowed
    refine .stored r.task.original ⟨r.before, r.chunks, after⟩ r.spool rfl h.task.regular rfl rfl
      hsame rfl h.spooled (h.bytes.symm.trans hsize) ?_ ?_ ?_ h.task.source
    · change toHex (x.blake3 r.hashed) = toHex (x.blake3 r.chunks.flatten)
      rw [h.hashed]
    · change r.sequence = r.spool.length
      rw [h.spooled.length, h.sequence]
    · change r.task.failures.length + 1 ≤ _
      rw [h.task.counted]
      omega

theorem confirmed_open {r : Reading} {after : PlatformFileMetadata}
    (h : (confirmed c x r after).shuts = false) :
    (confirmed c x r after).open = some (.entry r.task.original) := by
  rcases confirmed_cases (c := c) (x := x) r after with ⟨f, he⟩ | ⟨_, _, he⟩
  · rw [he] at h ⊢
    exact caught_open h
  · rw [he]
    rfl

theorem accept_sound (job : FileJob) : PcSound c x (accept job) := by
  cases job with
  | warning w => exact .passed rfl rfl
  | entry e =>
    unfold accept
    simp only
    split
    · rename_i ht
      have hcount : 0 < attemptCount c := by
        unfold attemptCount
        split <;> omega
      exact ⟨ht, rfl, hcount, nofun⟩
    · rename_i ht
      exact .passed (by simpa [passed, FileJob.regular] using ht) rfl

theorem accept_open (job : FileJob) : (accept job).open = some job ∧ (accept job).shuts = false := by
  cases job with
  | warning w => exact ⟨rfl, rfl⟩
  | entry e =>
    unfold accept
    simp only
    split <;> exact ⟨rfl, rfl⟩

/-- The result a worker is about to give. -/
def WorkerPc.result : WorkerPc → Option ProcessedEntry
  | .finished p => some p
  | _ => none

/-- What a worker has done so far: every result is one of those it may give, a
worker that does not fail answers its jobs one by one, and the attempts it
accepted are among those it finished. -/
structure WorkerSound (c : Config) (x : Externals) (w : Worker) : Prop where
  pc : PcSound c x w.pc
  given : ∀ p ∈ w.given, Result c x p
  answered : w.fatal = false → w.taken = w.given.map ProcessedEntry.origin ++ w.pc.open.toList
  observed : ∀ p, p ∈ w.given ∨ w.pc.result = some p → ∀ a, p.accepted = some a → a ∈ w.attempts

/-- A step that keeps the job and accepts nothing. -/
theorem WorkerSound.advance {w : Worker} {pc : WorkerPc} (h : WorkerSound c x w)
    (hpc : PcSound c x pc) (hopen : pc.shuts = false → pc.open = w.pc.open)
    (hres : ∀ p, pc.result = some p → p.accepted = none) : WorkerSound c x (w.goto pc) := by
  refine ⟨hpc, h.given, ?_, ?_⟩
  · intro hf
    have hf : w.fatal = false ∧ pc.shuts = false := by simpa [Worker.goto] using hf
    change w.taken = w.given.map ProcessedEntry.origin ++ pc.open.toList
    rw [hopen hf.2]
    exact h.answered hf.1
  · rintro p (hp | hp) a ha
    · exact h.observed p (Or.inl hp) a ha
    · rw [hres p hp] at ha
      cases ha

theorem caught_result {t : Task} {callback : Bool} {spool : List ChunkReferenceRecord} {f : Failure}
    {p : ProcessedEntry} (h : (caught c t callback spool f).result = some p) : p.accepted = none := by
  rcases caught_cases c t callback spool f with he | ⟨e, _, _, ⟨_, he⟩ | ⟨_, he⟩⟩
  · rw [he] at h
    cases h
  · rw [he] at h
    cases h
  · rw [he] at h
    cases h
    rfl

theorem appended_result {r : Reading} {raw : Bytes} {object : StoredObject} :
    (appended c r raw object).result = none := by
  rcases appended_cases c r raw object with ⟨f, he⟩ | ⟨_, ⟨_, he⟩ | ⟨_, he⟩⟩
  · rw [he]
    rfl
  · rw [he]
    rfl
  · rw [he]
    rfl

/-- A worker keeps its job as long as it does not fail. -/
theorem Works.open {objects : Objects} {stop : Bool} {known : Known} {old pc : WorkerPc}
    (hw : Works c x objects stop known old pc) (hshuts : pc.shuts = false) : pc.open = old.open := by
  cases hw with
  | finds r raw object hs hf => exact appended_open hshuts
  | fails _ t callback spool f hpc hf => exact (caught_open hshuts).trans (attempt_open hpc).symm
  | dies _ e hpc => cases hshuts
  | _ => rfl

theorem Works.sound {objects : Objects} {stop : Bool} {w : Worker} {pc : WorkerPc}
    (hw : Works c x objects stop w.known w.pc pc) (h : WorkerSound c x w) :
    WorkerSound c x (w.goto pc) := by
  have hsound := h.pc
  refine h.advance ?_ ?_ ?_ <;> generalize w.pc = old at hw hsound
  · cases hw with
    | starts => trivial
    | begins t => exact hsound
    | measures t before hs => exact hsound
    | opens t before hs => exact ⟨hsound, trivial, rfl, rfl, rfl, rfl⟩
    | ends r hs => exact hsound
    | reads r raw hs hne hsize => exact ⟨r, hsound, rfl⟩
    | finds r raw object hs hf => exact appended_sound hsound (findStored_names hf)
    | misses r raw hs hf => exact hsound
    | compresses r raw compressed hs hc => exact hsound
    | fails _ t callback spool f hpc hf => exact caught_sound (attempt_task hsound hpc) _ _ f
    | dies _ e hpc => trivial
  · exact hw.open
  · intro p hp
    cases hw with
    | finds r raw object hs hf =>
      rw [appended_result] at hp
      cases hp
    | fails _ t callback spool f hpc hf => exact caught_result hp
    | _ => cases hp

/-- A step that keeps the job and gives no result. -/
theorem WorkerSound.pass {w : Worker} {pc : WorkerPc} (h : WorkerSound c x w) (hpc : PcSound c x pc)
    (hopen : pc.shuts = false → pc.open = w.pc.open) (hres : pc.result = none) :
    WorkerSound c x (w.goto pc) := by
  refine h.advance hpc hopen ?_
  intro p hp
  rw [hres] at hp
  cases hp

theorem accept_result {job : FileJob} {p : ProcessedEntry} (h : (accept job).result = some p) :
    p.accepted = none := by
  cases job with
  | warning w =>
    cases h
    rfl
  | entry e =>
    unfold accept at h
    simp only at h
    split at h
    · cases h
    · cases h
      rfl

/-- A worker takes the next job. -/
theorem WorkerSound.take {w : Worker} (h : WorkerSound c x w) (hp : w.pc = .popping) (job : FileJob) :
    WorkerSound c x ({ w with taken := w.taken ++ [job] }.goto (accept job)) := by
  have hopen := accept_open job
  refine ⟨accept_sound job, h.given, ?_, ?_⟩
  · intro hf
    have hf : w.fatal = false := by simpa [Worker.goto, hopen.2] using hf
    have hanswered := h.answered hf
    simp only [hp, WorkerPc.open, Option.toList_none, List.append_nil] at hanswered
    simp [Worker.goto, hanswered, hopen.1]
  · rintro p (hmem | hres) a ha
    · exact h.observed p (Or.inl hmem) a ha
    · rw [accept_result hres] at ha
      cases ha

/-- A worker looks at the metadata for the second time. -/
theorem WorkerSound.confirm {w : Worker} (h : WorkerSound c x w) {r : Reading}
    (hp : w.pc = .confirming r) (after : PlatformFileMetadata) :
    WorkerSound c x ((w.observed r after).goto (confirmed c x r after)) := by
  have hpc : ReadingSound c x r := by
    have := h.pc
    rwa [hp] at this
  refine ⟨confirmed_sound hpc after, h.given, ?_, ?_⟩
  · intro hf
    have hf : w.fatal = false ∧ (confirmed c x r after).shuts = false := by
      simpa [Worker.goto, Worker.observed] using hf
    have hanswered := h.answered hf.1
    simp only [hp, WorkerPc.open] at hanswered
    simpa [Worker.goto, Worker.observed, confirmed_open hf.2] using hanswered
  · rintro p (hmem | hres) a ha
    · exact List.mem_append_left _ (h.observed p (Or.inl hmem) a ha)
    · change (confirmed c x r after).result = some p at hres
      rcases confirmed_cases (c := c) (x := x) r after with ⟨f, he⟩ | ⟨_, _, he⟩
      · rw [he] at hres
        rw [caught_result hres] at ha
        cases ha
      · rw [he] at hres
        cases hres
        cases ha
        exact List.mem_append_right _ (List.mem_singleton.mpr rfl)

/-- A worker gives the result of a job. -/
theorem WorkerSound.give {w : Worker} (h : WorkerSound c x w) {p : ProcessedEntry}
    (hp : w.pc = .finished p) :
    WorkerSound c x ({ w with given := w.given ++ [p] }.goto (.pushing p)) := by
  have hpc : Result c x p := by
    have := h.pc
    rwa [hp] at this
  refine ⟨hpc, ?_, ?_, ?_⟩
  · intro q hq
    rcases List.mem_append.mp hq with hq | hq
    · exact h.given q hq
    · cases List.mem_singleton.mp hq
      exact hpc
  · intro hf
    have hf : w.fatal = false := by simpa [Worker.goto, WorkerPc.shuts] using hf
    have hanswered := h.answered hf
    simp only [hp, WorkerPc.open, Option.toList_some] at hanswered
    simp [Worker.goto, hanswered, WorkerPc.open]
  · rintro q (hq | hq) a ha
    · rcases List.mem_append.mp hq with hq | hq
      · exact h.observed q (Or.inl hq) a ha
      · cases List.mem_singleton.mp hq
        exact h.observed p (Or.inr (by rw [hp]; rfl)) a ha
    · cases hq

theorem afterStage_worker (stage : Stage) (f : Failure) :
    PcSound c x (afterStage .shutting .leaving f stage) ∧
      ((afterStage WorkerPc.shutting .leaving f stage).shuts = false →
        (afterStage WorkerPc.shutting .leaving f stage).open = none) ∧
      (afterStage WorkerPc.shutting .leaving f stage).result = none := by
  cases stage <;> exact ⟨trivial, fun _ => rfl, rfl⟩

/-- What one move of a worker makes of it. -/
theorem WorkerMove.sound {i : Nat} (hm : WorkerMove c x s i t) (h : WorkerSound c x (s.workers i)) :
    WorkerSound c x (t.workers i) := by
  have hpc := h.pc
  cases hm with
  | works pc hw =>
    rw [State.moveWorker, setWorker_same]
    exact hw.sound h
  | pops job jobs hp hq =>
    rw [setWorker_same]
    exact h.take hp job
  | confirms r after hp =>
    rw [setWorker_same]
    exact h.confirm hp after
  | finishes p hp =>
    rw [setWorker_same]
    exact h.give hp
  | stores r raw compressed object known objects hp hs =>
    rw [setWorker_same]
    rw [hp] at hpc
    have hw : WorkerSound c x { s.workers i with known } := ⟨h.pc, h.given, h.answered, h.observed⟩
    refine hw.pass (appended_sound hpc (storeUnderStripe_names hs)) ?_ appended_result
    intro hshuts
    rw [appended_open hshuts]
    change _ = (s.workers i).pc.open
    rw [hp]
    rfl
  | leaves r raw compressed known e hp hs =>
    rw [State.moveWorker, setWorker_same]
    rw [hp] at hpc
    refine h.advance (caught_sound (Delivering.task hpc) _ _ _) ?_ (fun p hres => caught_result hres)
    intro hshuts
    rw [caught_open hshuts, hp]
    rfl
  | ended hp hq =>
    rw [State.moveWorker, setWorker_same]
    exact h.pass trivial (fun _ => by rw [hp]; rfl) rfl
  | pushes p processed hp hq =>
    rw [State.moveWorker, setWorker_same]
    exact h.pass trivial (fun _ => by rw [hp]; rfl) rfl
  | refused p hp hq =>
    rw [State.moveWorker, setWorker_same]
    rw [hp] at hpc
    exact h.pass hpc (fun _ => by rw [hp]; rfl) rfl
  | oversized p hp hq =>
    rw [State.moveWorker, setWorker_same]
    rw [hp] at hpc
    exact h.pass hpc (fun _ => by rw [hp]; rfl) rfl
  | rejects p large e hp =>
    rw [State.moveWorker, setWorker_same]
    exact h.pass trivial (fun hs => by cases hs) rfl
  | shuts f stage hp =>
    rw [State.moveWorker, setWorker_same, congrFun shut_untouched.workers i]
    obtain ⟨hsound, hopen, hres⟩ := afterStage_worker (c := c) (x := x) stage f
    exact h.pass hsound (fun hs => by rw [hopen hs, hp]; rfl) hres
  | counts hp =>
    rw [State.moveWorker, setWorker_same]
    split
    · exact h.pass trivial (fun _ => by rw [hp]; rfl) rfl
    · exact h.pass trivial (fun _ => by rw [hp]; rfl) rfl
  | closes hp =>
    rw [State.moveWorker, setWorker_same]
    exact h.pass trivial (fun _ => by rw [hp]; rfl) rfl

/-- In every schedule every worker is sound. -/
theorem run_worker_sound {v : Vault} {e : Bool} {ls : List Label}
    (h : run c x (State.start c v e) ls = some s) (i : Nat) : WorkerSound c x (s.workers i) := by
  refine run_worker_invariant (P := WorkerSound c x) ?_ ?_ (fun s t i hm hw => hm.sound hw) h i
  · refine ⟨trivial, fun p hp => absurd hp (List.not_mem_nil), fun _ => rfl, ?_⟩
    rintro p (hp | hp) <;> cases hp
  · intro w hw hpc
    exact hw.pass trivial (fun _ => by rw [hpc]; rfl) rfl

/-- A worker that does not fail answers every job it takes, in the order in
which it takes them, with one result; and a result is the job itself, the file
as one single attempt has seen it, or a warning after the last attempt. -/
theorem worker_results {v : Vault} {e : Bool} {ls : List Label}
    (h : run c x (State.start c v e) ls = some s) (i : Nat) :
    ((s.workers i).fatal = false →
      (s.workers i).taken =
        (s.workers i).given.map ProcessedEntry.origin ++ (s.workers i).pc.open.toList) ∧
      ∀ p ∈ (s.workers i).given, Result c x p ∧
        ∀ a, p.accepted = some a → a ∈ (s.workers i).attempts := by
  have hw := run_worker_sound h i
  exact ⟨hw.answered, fun p hp => ⟨hw.given p hp, hw.observed p (Or.inl hp)⟩⟩

/-- The bytes `abc` as BLAKE3 and zstd treat them. -/
def sampleDigest : Vector UInt8 32 :=
  #v[0x64, 0x37, 0xb3, 0xac, 0x38, 0x46, 0x51, 0x33, 0xff, 0xb6, 0x3b, 0x75, 0x27, 0x3a, 0x8d, 0xb5,
     0x48, 0xc5, 0x58, 0x46, 0x5d, 0x79, 0xdb, 0x03, 0xfd, 0x35, 0x9c, 0x6c, 0xd5, 0xbd, 0x9d, 0x85]

def sampleFrame : Bytes :=
  [0x28, 0xb5, 0x2f, 0xfd, 0x20, 0x03, 0x19, 0x00, 0x00, 0x61, 0x62, 0x63]

def sampleExternals : Externals where
  blake3 := fun _ => sampleDigest
  zstdCompress := fun raw => if raw = ascii "abc" then .ok sampleFrame else .error "not sampled"
  zstdFindFrameCompressedSize := fun c =>
    if c = sampleFrame then .ok sampleFrame.length else .error "not sampled"
  zstdDecompress := fun c size =>
    if c = sampleFrame ∧ size = 3 then .ok (ascii "abc") else .error "not sampled"

def sampleEntry : ScannedEntry :=
  { sourcePath := [ascii "s", ascii "f"], relativePath := ascii "f", parentPath := []
    name := ascii "f", type := .regularFile, logicalSize := 3, modifiedTimeNs := 1
    posixMode := 0o100644, symlinkTarget := none }

def sampleConfig : Config :=
  { source := [ascii "s"], snapshotId := 1, startedAtNs := 0, chunkSize := 4, workerCount := 1
    jobQueueCapacity := 1, resultQueueCapacity := 1, resultQueueByteCapacity := 1024
    metadataBatchEntryLimit := 500, metadataBatchLogicalByteLimit := 1024
    retryUnstableFiles := true, processedEntryOverhead := 0
    scan := [.entry sampleEntry], scanError := none }

def sampleVault : Vault := ⟨.empty, fun _ => none, []⟩

/-- The calling thread up to the joins, the scanner up to its only job, and the
worker with that job in its hands. -/
def sampleStart : List Label :=
  List.replicate 9 (.main .next) ++ List.replicate 3 (.scanner .next) ++
    List.replicate 3 (.worker 0 .next)

/-- One attempt at a file of one chunk; `calls` is the number of steps inside
`ObjectStore::store`. -/
def sampleAttempt (before after : PlatformFileMetadata) (calls : Nat) : List Label :=
  [.worker 0 (.observes before), .worker 0 .next, .worker 0 (.reads (ascii "abc"))] ++
    List.replicate calls (.worker 0 .next) ++ [.worker 0 (.observes after), .worker 0 .next]

/-- A file that changes during the first attempt. -/
theorem worker_results_retried : ∃ s,
    run sampleConfig sampleExternals (State.start sampleConfig sampleVault false)
      (sampleStart ++ sampleAttempt ⟨3, 1, 1, 1, 1, 0o100644⟩ ⟨3, 2, 2, 1, 1, 0o100644⟩ 3 ++
        sampleAttempt ⟨3, 2, 2, 1, 1, 0o100644⟩ ⟨3, 2, 2, 1, 1, 0o100644⟩ 1) = some s ∧
    (s.workers 0).given.map (fun p => p.failures.length) = [1] ∧
    ∀ p ∈ (s.workers 0).given, Result sampleConfig sampleExternals p ∧
      ∀ a, p.accepted = some a → a ∈ (s.workers 0).attempts := by
  have hrun : ((run sampleConfig sampleExternals (State.start sampleConfig sampleVault false)
      (sampleStart ++ sampleAttempt ⟨3, 1, 1, 1, 1, 0o100644⟩ ⟨3, 2, 2, 1, 1, 0o100644⟩ 3 ++
        sampleAttempt ⟨3, 2, 2, 1, 1, 0o100644⟩ ⟨3, 2, 2, 1, 1, 0o100644⟩ 1)).map
      (fun s => (s.workers 0).given.map (fun p => p.failures.length))) = some [1] := by
    decide +kernel
  obtain ⟨s, hs, hgiven⟩ := Option.map_eq_some_iff.mp hrun
  exact ⟨s, hs, hgiven, (worker_results hs 0).2⟩

/-- `S_ISREG` of the mode that `lstat` has returned. -/
def PlatformFileMetadata.regular (m : PlatformFileMetadata) : Bool :=
  m.posixMode &&& 0o170000 == 0o100000

/-- What the worker compares lets an object through that is no regular file: it
reports as its own size the number of bytes that opening the path delivers, and
nothing of its identity changes up to the second look. -/
def ReadAttempt.disguised (a : ReadAttempt) : Bool :=
  !(a.before.regular && a.after.regular) && a.chunks.flatten.length == a.before.logicalSize &&
    a.before.sameStableIdentity a.after

end LocalVault.Snapshot
