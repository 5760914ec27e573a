import LocalVault.Proofs.Caching
import LocalVault.Proofs.Publishing
import LocalVault.Storage.Durability

namespace LocalVault
open Library

section Disk

variable {x : Externals} {maximum : Nat} {involved : Bytes → Prop} {disk disk' : ObjectDisk}
  {raw hash content : Bytes} {object : StoredObject} {size : Nat}

/-- A chunk with a frame that a verified read accepts for it. -/
structure Framed (x : Externals) (maximum : Nat) (involved : Bytes → Prop) (raw content : Bytes) :
    Prop where
  involved : involved raw
  nonempty : raw ≠ []
  limit : raw.length ≤ maximum
  compressed : content ≠ []
  bound : content.length ≤ maximum + compressedSizeAllowance
  inverse : decompress x content raw.length maximum = .ok raw

theorem Framed.of_compress (hx : RoundTrips x) (hmax : maximum ≤ permanentMaximumChunkSize)
    (hin : involved raw) (hraw : raw ≠ []) (hlong : raw.length ≤ maximum)
    (hc : compressChunk x maximum raw = .ok content) : Framed x maximum involved raw content := by
  unfold compressChunk at hc
  obtain ⟨frame, hframe, hc⟩ := bind_ok.mp hc
  split at hc
  · cases hc
  · rename_i hbound
    cases hc
    exact ⟨hin, hraw, hlong, fun he => hbound (Or.inl (by rw [he]; rfl)), by omega,
      decompress_compress hx hframe hlong hmax⟩

/-- A framed chunk under its path reads back. -/
theorem Framed.reads (h : Framed x maximum involved raw content)
    (hmax : maximum ≤ permanentMaximumChunkSize) {objects : Objects}
    (hfile : objects (derivedPath (hashRaw x raw)) = some (.file content)) :
    readVerified x maximum objects (hashRaw x raw) (derivedPath (hashRaw x raw)) raw.length
      content.length = .ok raw := by
  have hintact : ObjectIntact x maximum objects
      ⟨hashRaw x raw, raw.length, content.length, derivedPath (hashRaw x raw), 0⟩ raw :=
    ⟨rfl, rfl, rfl, h.nonempty, h.limit, content, hfile, rfl, h.compressed, h.bound, h.inverse⟩
  simpa using readVerified_intact hintact hmax

/-- Every object of the disk was synced before it got its name, under a shard
whose own entry is durable, and decompresses to bytes of its hash. -/
def Firm (x : Externals) (maximum : Nat) (involved : Bytes → Prop) (disk : ObjectDisk) : Prop :=
  ∀ hash file, disk.files (derivedPath hash) = some file →
    file.synced = true ∧ disk.flushed (parentComponents (derivedPath hash)) = true ∧
      ∃ raw, hashRaw x raw = hash ∧ Framed x maximum involved raw file.content

/-- The object of a chunk stands in the directory. -/
def Stands (x : Externals) (maximum : Nat) (involved : Bytes → Prop) (disk : ObjectDisk)
    (raw : Bytes) (size : Nat) : Prop :=
  ∃ file, disk.files (derivedPath (hashRaw x raw)) = some file ∧ file.content.length = size ∧
    Framed x maximum involved raw file.content

/-- The object and every entry on the way to it are durable. -/
def Durable (x : Externals) (maximum : Nat) (involved : Bytes → Prop) (disk : ObjectDisk)
    (raw : Bytes) (size : Nat) : Prop :=
  disk.flushed (parentComponents (derivedPath (hashRaw x raw))) = true ∧
    ∃ file, disk.files (derivedPath (hashRaw x raw)) = some file ∧ file.synced = true ∧
      file.listed = true ∧ file.content.length = size ∧
      Framed x maximum involved raw file.content

/-- A result that names a durable object of the chunk. -/
structure Kept (x : Externals) (maximum : Nat) (involved : Bytes → Prop) (disk : ObjectDisk)
    (raw : Bytes) (object : StoredObject) : Prop where
  hash : object.hashHex = hashRaw x raw
  path : object.relativePath = derivedPath (hashRaw x raw)
  rawSize : object.rawSize = raw.length
  durable : Durable x maximum involved disk raw object.storedSize

/-- What a running system does to the disk: nothing is lost. -/
structure Follows (disk disk' : ObjectDisk) : Prop where
  files : ∀ p file, disk.files p = some file → ∃ file', disk'.files p = some file' ∧
    file'.content = file.content ∧ (file.synced = true → file'.synced = true) ∧
    (file.listed = true → file'.listed = true)
  shards : ∀ d, disk.shards d = true → disk'.shards d = true
  flushed : ∀ d, disk.flushed d = true → disk'.flushed d = true

theorem Follows.refl : Follows disk disk :=
  ⟨fun _ file h => ⟨file, h, rfl, id, id⟩, fun _ h => h, fun _ h => h⟩

theorem Stands.follows (h : Stands x maximum involved disk raw size) (hf : Follows disk disk') :
    Stands x maximum involved disk' raw size := by
  obtain ⟨file, hfile, hsize, hframed⟩ := h
  obtain ⟨file', hfile', hcontent, _, _⟩ := hf.files _ _ hfile
  exact ⟨file', hfile', by rw [hcontent, hsize], by rw [hcontent]; exact hframed⟩

theorem Durable.follows (h : Durable x maximum involved disk raw size) (hf : Follows disk disk') :
    Durable x maximum involved disk' raw size := by
  obtain ⟨hflushed, file, hfile, hsynced, hlisted, hsize, hframed⟩ := h
  obtain ⟨file', hfile', hcontent, hsync, hlist⟩ := hf.files _ _ hfile
  exact ⟨hf.flushed _ hflushed, file', hfile', hsync hsynced, hlist hlisted, by rw [hcontent, hsize],
    by rw [hcontent]; exact hframed⟩

theorem Kept.follows (h : Kept x maximum involved disk raw object) (hf : Follows disk disk') :
    Kept x maximum involved disk' raw object :=
  ⟨h.hash, h.path, h.rawSize, h.durable.follows hf⟩

/-- A durable object survives a crash, whatever else does. -/
theorem Durable.crash (h : Durable x maximum involved disk raw size) (shards : List Name → Bool)
    (entries : Bytes → Bool) (remains : Bytes → Bytes) :
    Durable x maximum involved (disk.crash shards entries remains) raw size := by
  obtain ⟨hflushed, file, hfile, hsynced, hlisted, hsize, hframed⟩ := h
  refine ⟨by simp [ObjectDisk.crash, hflushed], ⟨file.content, true, true⟩, ?_, rfl, rfl, hsize,
    hframed⟩
  simp [ObjectDisk.crash, hfile, hflushed, hsynced, hlisted]

theorem Kept.crash (h : Kept x maximum involved disk raw object) (shards : List Name → Bool)
    (entries : Bytes → Bool) (remains : Bytes → Bytes) :
    Kept x maximum involved (disk.crash shards entries remains) raw object :=
  ⟨h.hash, h.path, h.rawSize, h.durable.crash shards entries remains⟩

theorem Kept.reads (h : Kept x maximum involved disk raw object)
    (hmax : maximum ≤ permanentMaximumChunkSize) :
    readVerified x maximum disk.view object.hashHex object.relativePath object.rawSize
      object.storedSize = .ok raw := by
  obtain ⟨_, file, hfile, _, _, hsize, hframed⟩ := h.durable
  rw [h.hash, h.path, h.rawSize, ← hsize]
  exact hframed.reads hmax (by simp [ObjectDisk.view, hfile])

/-- What survives a crash was synced, so it is still intact. -/
theorem Firm.crash (h : Firm x maximum involved disk) (shards : List Name → Bool)
    (entries : Bytes → Bool) (remains : Bytes → Bytes) :
    Firm x maximum involved (disk.crash shards entries remains) := by
  intro hash file hfile
  simp only [ObjectDisk.crash, Option.bind_eq_some_iff, Option.ite_none_right_eq_some,
    Bool.and_eq_true, Option.some.injEq] at hfile
  obtain ⟨old, hold, ⟨hkept, _⟩, rfl⟩ := hfile
  obtain ⟨hsynced, hflushed, raw, hhash, hframed⟩ := h hash old hold
  refine ⟨rfl, by simp [ObjectDisk.crash, hflushed], raw, hhash, ?_⟩
  simp only [hsynced, ↓reduceIte]
  exact hframed

/-- fsyncs keep what the files say and only add to what is durable. -/
theorem syncFile_follows (path : Bytes) : Follows disk (disk.syncFile path) := by
  refine ⟨fun p file h => ?_, fun _ h => h, fun _ h => h⟩
  by_cases hp : p = path
  · subst hp
    exact ⟨{ file with synced := true }, by simp [ObjectDisk.syncFile, h], rfl, fun _ => rfl, id⟩
  · exact ⟨file, by simp [ObjectDisk.syncFile, hp, h], rfl, id, id⟩

theorem flushShard_follows (shard : List Name) : Follows disk (disk.flushShard shard) := by
  refine ⟨fun p file h => ?_, fun _ h => h, fun _ h => h⟩
  by_cases hp : parentComponents p = shard
  · exact ⟨{ file with listed := true }, by simp [ObjectDisk.flushShard, hp, h], rfl, id,
      fun _ => rfl⟩
  · exact ⟨file, by simp [ObjectDisk.flushShard, hp, h], rfl, id, id⟩

theorem makeShard_follows (shard : List Name) : Follows disk (disk.makeShard shard) :=
  ⟨fun _ file h => ⟨file, h, rfl, id, id⟩, fun d h => by simp [ObjectDisk.makeShard, h],
    fun _ h => h⟩

theorem flushShards_follows : Follows disk disk.flushShards :=
  ⟨fun _ file h => ⟨file, h, rfl, id, id⟩, fun _ h => h,
    fun d h => by simp [ObjectDisk.flushShards, h]⟩

theorem place_follows {path : Bytes} {file : ObjectFile} (hfree : disk.files path = none) :
    Follows disk (disk.place path file) := by
  refine ⟨fun p old h => ?_, fun _ h => h, fun _ h => h⟩
  have hp : p ≠ path := by
    intro he
    rw [he, hfree] at h
    cases h
  exact ⟨old, by simp [ObjectDisk.place, hp, h], rfl, id, id⟩

theorem Firm.syncFile (h : Firm x maximum involved disk) (path : Bytes) :
    Firm x maximum involved (disk.syncFile path) := by
  intro hash file hfile
  simp only [ObjectDisk.syncFile] at hfile
  split at hfile
  · obtain ⟨old, hold, rfl⟩ := Option.map_eq_some_iff.mp hfile
    exact ⟨rfl, (h hash old hold).2⟩
  · exact h hash file hfile

theorem Firm.flushShard (h : Firm x maximum involved disk) (shard : List Name) :
    Firm x maximum involved (disk.flushShard shard) := by
  intro hash file hfile
  simp only [ObjectDisk.flushShard] at hfile
  split at hfile
  · obtain ⟨old, hold, rfl⟩ := Option.map_eq_some_iff.mp hfile
    exact h hash old hold
  · exact h hash file hfile

theorem Firm.flushShards (h : Firm x maximum involved disk) :
    Firm x maximum involved disk.flushShards := by
  intro hash file hfile
  obtain ⟨hsynced, hflushed, hcontent⟩ := h hash file hfile
  exact ⟨hsynced, by simp [ObjectDisk.flushShards, hflushed], hcontent⟩

theorem Firm.place (h : Firm x maximum involved disk) {file : ObjectFile}
    (hsynced : file.synced = true) (hframed : Framed x maximum involved raw file.content)
    (hflushed : disk.flushed (parentComponents (derivedPath (hashRaw x raw))) = true) :
    Firm x maximum involved (disk.place (derivedPath (hashRaw x raw)) file) := by
  intro hash file' hfile
  simp only [ObjectDisk.place] at hfile
  split at hfile
  · rename_i hpath
    cases hfile
    have hhash := Snapshot.derivedPath_injective hpath
    exact ⟨hsynced, by rw [hhash]; exact hflushed, raw, hhash.symm, hframed⟩
  · exact h hash file' hfile

/-- The flush of the shard covers an object that stands in it. -/
theorem Stands.flushed (h : Stands x maximum involved disk raw size)
    (hfirm : Firm x maximum involved disk) :
    Durable x maximum involved
      (disk.flushShard (parentComponents (derivedPath (hashRaw x raw)))) raw size := by
  obtain ⟨file, hfile, hsize, hframed⟩ := h
  obtain ⟨hsynced, hflushed, _⟩ := hfirm _ file hfile
  exact ⟨hflushed, { file with listed := true }, by simp [ObjectDisk.flushShard, hfile], hsynced, rfl,
    hsize, hframed⟩

end Disk

section Machine

variable {x : Externals} {maximum count : Nat} {involved : Bytes → Prop} {s t : DurableStores}
  {disk disk' : ObjectDisk} {i : Nat} {raw compressed : Bytes} {known : Known}
  {phase : DurablePhase} {object : StoredObject} {outcome : Except LocalVaultError StoredObject}
  {label : StoreLabel}

/-- What is true of a call by where it stands. -/
def Sound (x : Externals) (maximum : Nat) (involved : Bytes → Prop) (disk : ObjectDisk) :
    DurablePhase → Prop
  | .idle => True
  | .looking raw | .colliding raw => involved raw
  | .preparing raw => involved raw ∧ raw ≠ [] ∧ raw.length ≤ maximum
  | .waiting raw compressed | .holding raw compressed | .absent raw compressed =>
    Framed x maximum involved raw compressed
  | .shardMade raw compressed => Framed x maximum involved raw compressed ∧
      disk.shards (parentComponents (derivedPath (hashRaw x raw))) = true
  | .shardFlushed raw compressed => Framed x maximum involved raw compressed ∧
      disk.flushed (parentComponents (derivedPath (hashRaw x raw))) = true
  | .written raw file => Framed x maximum involved raw file.content ∧
      disk.flushed (parentComponents (derivedPath (hashRaw x raw))) = true
  | .synced raw file => Framed x maximum involved raw file.content ∧
      disk.flushed (parentComponents (derivedPath (hashRaw x raw))) = true ∧ file.synced = true
  | .adopting raw object | .adoptingSynced raw object =>
    Stands x maximum involved disk raw object.storedSize ∧
      object = ⟨hashRaw x raw, derivedPath (hashRaw x raw), raw.length, object.storedSize, false⟩
  | .renamed raw size => Stands x maximum involved disk raw size
  | .returning raw outcome => ∀ object, outcome = .ok object → Kept x maximum involved disk raw object

theorem Sound.follows (h : Sound x maximum involved disk phase) (hf : Follows disk disk') :
    Sound x maximum involved disk' phase := by
  cases phase with
  | shardMade => exact ⟨h.1, hf.shards _ h.2⟩
  | shardFlushed | written => exact ⟨h.1, hf.flushed _ h.2⟩
  | synced => exact ⟨h.1, hf.flushed _ h.2.1, h.2.2⟩
  | adopting | adoptingSynced => exact ⟨h.1.follows hf, h.2⟩
  | renamed => exact Stands.follows h hf
  | returning => exact fun object ho => (h object ho).follows hf
  | _ => exact h

/-- Records of durable objects. -/
def Lasting (x : Externals) (maximum : Nat) (involved : Bytes → Prop) (disk : ObjectDisk)
    (known : Known) : Prop :=
  ∀ e ∈ known, ∃ raw, hashRaw x raw = e.1 ∧ Kept x maximum involved disk raw e.2

theorem Lasting.follows (h : Lasting x maximum involved disk known) (hf : Follows disk disk') :
    Lasting x maximum involved disk' known := by
  intro e he
  obtain ⟨raw, hhash, hkept⟩ := h e he
  exact ⟨raw, hhash, hkept.follows hf⟩

theorem Lasting.remember (h : Lasting x maximum involved disk known)
    (hk : Kept x maximum involved disk raw object) :
    Lasting x maximum involved disk (remember known object) := by
  intro e he
  rcases mem_remember he with rfl | he
  · exact ⟨raw, hk.hash.symm, hk⟩
  · exact h e he

/-- The invariant of the stores and their disk. -/
structure Upheld (x : Externals) (maximum : Nat) (involved : Bytes → Prop) (s : DurableStores) :
    Prop where
  firm : Firm x maximum involved s.disk
  known : ∀ i, Lasting x maximum involved s.disk (s.instances i).known
  phases : ∀ i, Sound x maximum involved s.disk (s.instances i).phase
  returned : ∀ raw object, (raw, .ok object) ∈ s.returned →
    Kept x maximum involved s.disk raw object

theorem Upheld.start (h : Firm x maximum involved disk) :
    Upheld x maximum involved (.start disk) :=
  ⟨h, fun _ _ he => absurd he List.not_mem_nil, fun _ => trivial,
    fun _ _ hr => absurd hr List.not_mem_nil⟩

theorem Upheld.onDisk (h : Upheld x maximum involved s) (hf : Follows s.disk disk')
    (hfirm : Firm x maximum involved disk') :
    Upheld x maximum involved { s with disk := disk' } :=
  ⟨hfirm, fun i => (h.known i).follows hf, fun i => (h.phases i).follows hf,
    fun raw object hr => (h.returned raw object hr).follows hf⟩

theorem Upheld.setInstance (h : Upheld x maximum involved s)
    (hk : Lasting x maximum involved s.disk known) (hp : Sound x maximum involved s.disk phase) :
    Upheld x maximum involved (s.setInstance i ⟨known, phase⟩) := by
  refine ⟨h.firm, fun j => ?_, fun j => ?_, h.returned⟩
  · by_cases hj : j = i
    · simpa [DurableStores.setInstance, hj] using hk
    · simpa [DurableStores.setInstance, hj] using h.known j
  · by_cases hj : j = i
    · simpa [DurableStores.setInstance, hj] using hp
    · simpa [DurableStores.setInstance, hj] using h.phases j

theorem Upheld.enter (h : Upheld x maximum involved s)
    (hp : Sound x maximum involved s.disk phase) : Upheld x maximum involved (s.enter i phase) :=
  h.setInstance (h.known i) hp

theorem Upheld.setStripe (h : Upheld x maximum involved s) {holder : Option Nat} :
    Upheld x maximum involved (s.setStripe raw x holder) :=
  ⟨h.firm, h.known, h.phases, h.returned⟩

theorem Upheld.leave (h : Upheld x maximum involved s)
    (hk : Lasting x maximum involved s.disk known)
    (ho : ∀ object, outcome = .ok object → Kept x maximum involved s.disk raw object) :
    Upheld x maximum involved (s.leave x i raw known outcome) :=
  Upheld.setInstance (s := s.setStripe raw x none) h.setStripe hk ho

/-- A record that passes its check is about this chunk. -/
theorem Lasting.reused (h : Lasting x maximum involved disk known)
    (hfree : CollisionFree x involved) (hin : involved raw) {cached : StoredObject}
    (hfind : known.find (hashRaw x raw) = some cached)
    (hreuse : requireReusable maximum disk.view cached (hashRaw x raw)
      (derivedPath (hashRaw x raw)) raw.length = .ok object) :
    Kept x maximum involved disk raw object := by
  obtain ⟨raw', hhash, hkept⟩ := h _ (Known.find_mem hfind)
  have hinvolved : involved raw' := by
    obtain ⟨_, _, _, _, _, _, hframed⟩ := hkept.durable
    exact hframed.involved
  obtain rfl := hfree raw' raw hinvolved hin (toHex_injective hhash)
  obtain ⟨_, _, rfl, _⟩ := requireReusable_returns hreuse
  exact ⟨hkept.hash, hkept.path, hkept.rawSize, hkept.durable⟩

theorem Lasting.found (h : Lasting x maximum involved disk known)
    (hfree : CollisionFree x involved) (hin : involved raw)
    (hfound : findStored x maximum known disk.view raw = .ok (some object)) :
    Kept x maximum involved disk raw object := by
  unfold findStored at hfound
  split at hfound
  · cases hfound
  · split at hfound
    · cases hfound
    · unfold findExisting at hfound
      split at hfound
      · cases hfound
      · split at hfound
        · cases hfound
        · cases hfound
          exact h.reused hfree hin ‹_› ‹_›

/-- An object that was verified stands, and it is the object of this chunk. -/
theorem Firm.adopts (h : Firm x maximum involved disk) (hfree : CollisionFree x involved)
    (hin : involved raw) {faults : Faults}
    (hadopt : adoptOrphan x maximum disk.view faults (hashRaw x raw) (derivedPath (hashRaw x raw))
      raw.length = .ok (some object)) : Sound x maximum involved disk (.adopting raw object) := by
  obtain ⟨⟨raw', content, hfile, _, hobject⟩, hsize⟩ := adoptOrphan_some hadopt
  obtain ⟨file, hdisk, hcontent⟩ := Option.map_eq_some_iff.mp hfile
  cases hcontent
  obtain ⟨_, _, raw'', hhash, hframed⟩ := h _ file hdisk
  obtain rfl := hfree raw'' raw hframed.involved hin (toHex_injective hhash)
  rw [hobject] at hsize ⊢
  exact ⟨⟨file, hdisk, rfl, hframed⟩, by rw [← hsize]⟩

theorem Upheld.look (h : Upheld x maximum involved s) (hfree : CollisionFree x involved)
    (hin : involved raw) {absent : DurableStores} (habsent : Upheld x maximum involved absent) :
    Upheld x maximum involved (s.lookUnderStripe x maximum i raw absent) := by
  have hknown := h.known i
  unfold DurableStores.lookUnderStripe
  dsimp only
  split
  · exact h.leave hknown (fun object ho => hknown.reused hfree hin ‹_› ho)
  · split
    · exact h.leave hknown (fun object ho => by cases ho)
    · exact h.enter (h.firm.adopts hfree hin ‹_›)
    · exact habsent

/-- One step of one call, phase by phase. -/
theorem Upheld.step (h : Upheld x maximum involved s) (hx : RoundTrips x)
    (hmax : maximum ≤ permanentMaximumChunkSize) (hfree : CollisionFree x involved)
    (hin : ∀ raw, label = .calls raw → involved raw)
    (hstep : s.step x maximum count i label = some t) : Upheld x maximum involved t := by
  have hknown := h.known i
  have hphase := h.phases i
  unfold DurableStores.step at hstep
  dsimp only at hstep
  split at hstep
  · cases hstep
  · split at hstep
    · -- idle
      cases hstep
      exact h.enter (hin _ rfl)
    · -- looking
      rename_i raw _ hp
      rw [hp] at hphase
      split at hstep
      · cases hstep
        exact h.enter (fun object ho => by cases ho)
      · rename_i existing hfound
        cases hstep
        refine h.enter (fun object ho => ?_)
        cases ho
        exact hknown.found hfree hphase hfound
      · rename_i hnone
        cases hstep
        obtain ⟨hraw, hlong, _⟩ := findStored_none hnone
        exact h.enter ⟨hphase, hraw, hlong⟩
    · -- preparing
      rename_i raw _ hp
      rw [hp] at hphase
      split at hstep
      · cases hstep
        exact h.enter (fun object ho => by cases ho)
      · rename_i compressed hprepared
        cases hstep
        exact h.enter (Framed.of_compress hx hmax hphase.1 hphase.2.1 hphase.2.2
          (prepare_ok hprepared))
    · -- waiting
      rename_i raw compressed _ hp
      rw [hp] at hphase
      split at hstep
      · cases hstep
      · cases hstep
        exact h.setStripe.enter hphase
    · -- holding
      rename_i raw compressed _ hp
      rw [hp] at hphase
      cases hstep
      exact h.look hfree hphase.involved (h.enter hphase)
    · -- adopting
      rename_i raw adopted _ hp
      rw [hp] at hphase
      cases hstep
      have hf : Follows s.disk (s.disk.syncFile adopted.relativePath) := syncFile_follows _
      exact (h.onDisk hf (h.firm.syncFile _)).enter ⟨hphase.1.follows hf, hphase.2⟩
    · -- adoptingSynced
      rename_i raw adopted _ hp
      rw [hp] at hphase
      cases hstep
      obtain ⟨hstands, hadopted⟩ := hphase
      have hpath : adopted.relativePath = derivedPath (hashRaw x raw) := by rw [hadopted]
      have hf : Follows s.disk (s.disk.flushShard (parentComponents adopted.relativePath)) :=
        flushShard_follows _
      have hkept : Kept x maximum involved
          (s.disk.flushShard (parentComponents adopted.relativePath)) raw adopted := by
        refine ⟨by rw [hadopted], hpath, by rw [hadopted], ?_⟩
        rw [hpath]
        exact hstands.flushed h.firm
      refine (h.onDisk hf (h.firm.flushShard _)).leave ((hknown.follows hf).remember hkept)
        (fun object ho => ?_)
      cases ho
      exact hkept
    · -- absent
      rename_i raw compressed _ hp
      rw [hp] at hphase
      cases hstep
      refine (h.onDisk (makeShard_follows _) h.firm).enter ⟨hphase, ?_⟩
      simp [ObjectDisk.makeShard]
    · -- shardMade
      rename_i raw compressed _ hp
      rw [hp] at hphase
      cases hstep
      refine (h.onDisk flushShards_follows h.firm.flushShards).enter ⟨hphase.1, ?_⟩
      simp [ObjectDisk.flushShards, hphase.2]
    · -- shardFlushed
      rename_i raw compressed _ hp
      rw [hp] at hphase
      cases hstep
      exact h.enter hphase
    · -- written
      rename_i raw file _ hp
      rw [hp] at hphase
      cases hstep
      exact h.enter ⟨hphase.1, hphase.2, rfl⟩
    · -- synced
      rename_i raw file _ hp
      rw [hp] at hphase
      obtain ⟨hframed, hflushed, hsynced⟩ := hphase
      split at hstep
      · cases hstep
        exact h.enter hframed.involved
      · rename_i hnone
        split at hstep
        · cases hstep
        · cases hstep
          have hf : Follows s.disk (s.disk.place (derivedPath (hashRaw x raw)) file) :=
            place_follows (Option.not_isSome_iff_eq_none.mp hnone)
          refine (h.onDisk hf (h.firm.place hsynced hframed hflushed)).enter ?_
          exact ⟨{ file with listed := false }, by simp [ObjectDisk.place], rfl, hframed⟩
    · -- colliding
      rename_i raw _ hp
      rw [hp] at hphase
      cases hstep
      exact h.look hfree hphase (h.leave hknown (fun object ho => by cases ho))
    · -- renamed
      rename_i raw size _ hp
      rw [hp] at hphase
      cases hstep
      have hf : Follows s.disk
          (s.disk.flushShard (parentComponents (derivedPath (hashRaw x raw)))) :=
        flushShard_follows _
      have hdurable := Stands.flushed hphase h.firm
      refine (h.onDisk hf (h.firm.flushShard _)).leave
        ((hknown.follows hf).remember ⟨rfl, rfl, rfl, hdurable⟩) (fun object ho => ?_)
      cases ho
      exact ⟨rfl, rfl, rfl, hdurable⟩
    · -- returning
      rename_i raw outcome _ hp
      rw [hp] at hphase
      cases hstep
      refine Upheld.enter ⟨h.firm, h.known, h.phases, fun raw' object hr => ?_⟩ trivial
      rcases List.mem_append.mp hr with hr | hr
      · exact h.returned raw' object hr
      · obtain ⟨rfl, rfl⟩ := Prod.mk.inj (List.mem_singleton.mp hr)
        exact hphase object rfl
    · -- a step that throws
      split at hstep
      · cases hstep
        exact h.leave hknown (fun object ho => by cases ho)
      · cases hstep
        exact h.enter (fun object ho => by cases ho)
      · cases hstep
    · cases hstep

theorem look_follows {absent : DurableStores} (habsent : Follows s.disk absent.disk) :
    Follows s.disk (s.lookUnderStripe x maximum i raw absent).disk := by
  unfold DurableStores.lookUnderStripe
  dsimp only
  split
  · exact Follows.refl
  · split
    · exact Follows.refl
    · exact Follows.refl
    · exact habsent

/-- While the system runs, objects come and stay as they are. -/
theorem step_follows (hstep : s.step x maximum count i label = some t) :
    Follows s.disk t.disk := by
  unfold DurableStores.step at hstep
  dsimp only at hstep
  split at hstep
  · cases hstep
  · split at hstep
    · cases hstep
      exact Follows.refl
    · split at hstep <;> cases hstep <;> exact Follows.refl
    · split at hstep <;> cases hstep <;> exact Follows.refl
    · split at hstep <;> cases hstep
      exact Follows.refl
    · cases hstep
      exact look_follows Follows.refl
    · cases hstep
      exact syncFile_follows _
    · cases hstep
      exact flushShard_follows _
    · cases hstep
      exact makeShard_follows _
    · cases hstep
      exact flushShards_follows
    · cases hstep
      exact Follows.refl
    · cases hstep
      exact Follows.refl
    · split at hstep
      · cases hstep
        exact Follows.refl
      · rename_i hnone
        split at hstep
        · cases hstep
        · cases hstep
          exact place_follows (Option.not_isSome_iff_eq_none.mp hnone)
    · cases hstep
      exact look_follows Follows.refl
    · cases hstep
      exact flushShard_follows _
    · cases hstep
      exact Follows.refl
    · split at hstep <;> cases hstep <;> exact Follows.refl
    · cases hstep

theorem Upheld.act (h : Upheld x maximum involved s) (hx : RoundTrips x)
    (hmax : maximum ≤ permanentMaximumChunkSize) (hfree : CollisionFree x involved)
    {label : DurableLabel} (hin : ∀ i raw, label = .moves i (.calls raw) → involved raw)
    (hact : s.act x maximum count label = some t) : Upheld x maximum involved t := by
  cases label with
  | moves i label => exact h.step hx hmax hfree (fun raw he => hin i raw (by rw [he])) hact
  | crashes shards entries remains =>
    cases hact
    exact ⟨h.firm.crash _ _ _, fun _ _ he => absurd he List.not_mem_nil, fun _ => trivial,
      fun raw object hr => (h.returned raw object hr).crash _ _ _⟩

theorem run_upheld (hx : RoundTrips x) (hmax : maximum ≤ permanentMaximumChunkSize)
    (hfree : CollisionFree x involved) {labels : List DurableLabel}
    (h : Upheld x maximum involved s)
    (hin : ∀ i raw, .moves i (.calls raw) ∈ labels → involved raw)
    (hrun : s.run x maximum count labels = some t) : Upheld x maximum involved t := by
  induction labels generalizing s with
  | nil =>
    cases hrun
    exact h
  | cons label labels ih =>
    obtain ⟨mid, hact, hrest⟩ := Option.bind_eq_some_iff.mp hrun
    have hmid := h.act hx hmax hfree (fun i raw he => hin i raw (by simp [he])) hact
    exact ih hmid (fun i raw hl => hin i raw (List.mem_cons_of_mem _ hl)) hrest

end Machine

/-- A store dies between the rename and the flush of the shard, the sibling adopts
the object, and the machine crashes after that. -/
def adoptedThenCrash : List DurableLabel :=
  [.moves 0 (.calls (ascii "abc"))] ++ List.replicate 9 (.moves 0 (.next false)) ++
    [.moves 0 (.throws (disappeared [])), .moves 1 (.calls (ascii "abc"))] ++
    List.replicate 7 (.moves 1 (.next false)) ++
    [.crashes (fun _ => false) (fun _ => false) (fun _ => [])]

end LocalVault
