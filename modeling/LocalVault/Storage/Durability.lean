import LocalVault.Storage.Sharing

namespace LocalVault

/-- A file with what an fsync has made durable: its content, and its entry in
the directory. -/
structure ObjectFile where
  content : Bytes
  synced : Bool
  listed : Bool
  deriving DecidableEq, Repr

/-- The shard directories below `objects/` that are there, those whose entry is
durable, and the files in them. -/
structure ObjectDisk where
  shards : List Name → Bool
  flushed : List Name → Bool
  files : Bytes → Option ObjectFile

namespace ObjectDisk

/-- What a process sees. -/
def view (disk : ObjectDisk) : Objects := fun p => (disk.files p).map (fun f => .file f.content)

/-- `ensure_directory` of a shard. -/
def makeShard (disk : ObjectDisk) (shard : List Name) : ObjectDisk :=
  { disk with shards := fun d => d == shard || disk.shards d }

/-- fsync of `objects/`. -/
def flushShards (disk : ObjectDisk) : ObjectDisk :=
  { disk with flushed := fun d => disk.shards d || disk.flushed d }

/-- fsync of a file. -/
def syncFile (disk : ObjectDisk) (path : Bytes) : ObjectDisk :=
  { disk with files := fun p =>
      if p = path then (disk.files p).map (fun f => { f with synced := true }) else disk.files p }

/-- fsync of a shard directory. -/
def flushShard (disk : ObjectDisk) (shard : List Name) : ObjectDisk :=
  { disk with files := fun p =>
      if parentComponents p = shard then (disk.files p).map (fun f => { f with listed := true })
      else disk.files p }

/-- A rename into a shard. -/
def place (disk : ObjectDisk) (path : Bytes) (file : ObjectFile) : ObjectDisk :=
  { disk with files := fun p => if p = path then some { file with listed := false }
                                else disk.files p }

/-- A crash. What no fsync has covered is lost, unless the disk got to it: the
shards of `shards` and the entries of `entries` survive without, and content that
was not synced is what `remains` says. -/
def crash (disk : ObjectDisk) (shards : List Name → Bool) (entries : Bytes → Bool)
    (remains : Bytes → Bytes) : ObjectDisk :=
  let kept := fun d => disk.flushed d || (disk.shards d && shards d)
  { shards := kept
    flushed := kept
    files := fun p => (disk.files p).bind (fun f =>
      if kept (parentComponents p) && (f.listed || entries p) then
        some ⟨if f.synced then f.content else remains p, true, true⟩
      else none) }

end ObjectDisk

/-- Where a call of `ObjectStore::store` stands, one fsync at a time. -/
inductive DurablePhase where
  | idle
  | looking (raw : Bytes)
  | preparing (raw : Bytes)
  | waiting (raw compressed : Bytes)
  | holding (raw compressed : Bytes)
  | adopting (raw : Bytes) (adopted : StoredObject)
  | adoptingSynced (raw : Bytes) (adopted : StoredObject)
  | absent (raw compressed : Bytes)
  | shardMade (raw compressed : Bytes)
  | shardFlushed (raw compressed : Bytes)
  | written (raw : Bytes) (file : ObjectFile)
  | synced (raw : Bytes) (file : ObjectFile)
  | colliding (raw : Bytes)
  | renamed (raw : Bytes) (storedSize : Nat)
  | returning (raw : Bytes) (outcome : Except LocalVaultError StoredObject)

def DurablePhase.held : DurablePhase → Option Bytes
  | .holding raw _ | .adopting raw _ | .adoptingSynced raw _ | .absent raw _ | .shardMade raw _
  | .shardFlushed raw _ | .written raw _ | .synced raw _ | .colliding raw | .renamed raw _ =>
    some raw
  | _ => none

def DurablePhase.ahead : DurablePhase → Option Bytes
  | .looking raw | .preparing raw | .waiting raw _ => some raw
  | _ => none

structure DurableInstance where
  known : Known
  phase : DurablePhase

/-- `ObjectStore` instances over a disk that may crash. -/
structure DurableStores where
  disk : ObjectDisk
  stripes : Nat → Option Nat
  instances : Nat → DurableInstance
  returned : List (Bytes × Except LocalVaultError StoredObject)

def DurableStores.start (disk : ObjectDisk) : DurableStores :=
  ⟨disk, fun _ => none, fun _ => ⟨[], .idle⟩, []⟩

namespace DurableStores

def setInstance (s : DurableStores) (index : Nat) (store : DurableInstance) : DurableStores :=
  { s with instances := fun i => if i = index then store else s.instances i }

def enter (s : DurableStores) (index : Nat) (phase : DurablePhase) : DurableStores :=
  s.setInstance index { s.instances index with phase }

def setStripe (s : DurableStores) (raw : Bytes) (x : Externals) (holder : Option Nat) :
    DurableStores :=
  { s with stripes := fun i => if i = stripeIndex (hashRaw x raw) then holder else s.stripes i }

/-- The end of the scope that holds the stripe. -/
def leave (x : Externals) (s : DurableStores) (index : Nat) (raw : Bytes) (known : Known)
    (outcome : Except LocalVaultError StoredObject) : DurableStores :=
  (s.setStripe raw x none).setInstance index ⟨known, .returning raw outcome⟩

/-- The look at the file of a hash under the stripe, up to the syncs of an
adoption. -/
def lookUnderStripe (x : Externals) (maximum : Nat) (s : DurableStores) (index : Nat) (raw : Bytes)
    (absent : DurableStores) : DurableStores :=
  let known := (s.instances index).known
  let hashHex := hashRaw x raw
  let relativePath := derivedPath hashHex
  match known.find hashHex with
  | some cached =>
    s.leave x index raw known
      (requireReusable maximum s.disk.view cached hashHex relativePath raw.length)
  | none =>
    match adoptOrphan x maximum s.disk.view (fun _ => none) hashHex relativePath raw.length with
    | .error e => s.leave x index raw known (.error e)
    | .ok (some adopted) => s.enter index (.adopting raw adopted)
    | .ok none => absent

/-- A step of the instance `index` of `count`. -/
def step (x : Externals) (maximum count : Nat) (s : DurableStores) (index : Nat)
    (label : StoreLabel) : Option DurableStores :=
  let known := (s.instances index).known
  if count ≤ index then none
  else match (s.instances index).phase, label with
  | .idle, .calls raw => some (s.enter index (.looking raw))
  | .looking raw, .next _ =>
    match findStored x maximum known s.disk.view raw with
    | .error e => some (s.enter index (.returning raw (.error e)))
    | .ok (some existing) => some (s.enter index (.returning raw (.ok existing)))
    | .ok none => some (s.enter index (.preparing raw))
  | .preparing raw, .next stopRequested =>
    match prepare x maximum stopRequested raw with
    | .error e => some (s.enter index (.returning raw (.error e)))
    | .ok compressed => some (s.enter index (.waiting raw compressed))
  | .waiting raw compressed, .next _ =>
    match s.stripes (stripeIndex (hashRaw x raw)) with
    | some _ => none
    | none => some ((s.setStripe raw x (some index)).enter index (.holding raw compressed))
  | .holding raw compressed, .next _ =>
    some (s.lookUnderStripe x maximum index raw (s.enter index (.absent raw compressed)))
  | .adopting raw adopted, .next _ =>
    some ({ s with disk := s.disk.syncFile adopted.relativePath }.enter index
      (.adoptingSynced raw adopted))
  | .adoptingSynced raw adopted, .next _ =>
    some ({ s with disk := s.disk.flushShard (parentComponents adopted.relativePath) }.leave x index
      raw (remember known adopted) (.ok adopted))
  | .absent raw compressed, .next _ =>
    some ({ s with disk := s.disk.makeShard (parentComponents (derivedPath (hashRaw x raw))) }.enter
      index (.shardMade raw compressed))
  | .shardMade raw compressed, .next _ =>
    some ({ s with disk := s.disk.flushShards }.enter index (.shardFlushed raw compressed))
  | .shardFlushed raw compressed, .next _ =>
    some (s.enter index (.written raw ⟨compressed, false, false⟩))
  | .written raw file, .next _ => some (s.enter index (.synced raw { file with synced := true }))
  | .synced raw file, .next _ =>
    let path := derivedPath (hashRaw x raw)
    if (s.disk.files path).isSome then some (s.enter index (.colliding raw))
    -- without its directory the rename fails
    else if s.disk.shards (parentComponents path) = false then none
    else some ({ s with disk := s.disk.place path file }.enter index
      (.renamed raw file.content.length))
  | .colliding raw, .next _ =>
    some (s.lookUnderStripe x maximum index raw
      (s.leave x index raw known (.error (disappeared (derivedPath (hashRaw x raw))))))
  | .renamed raw storedSize, .next _ =>
    let path := derivedPath (hashRaw x raw)
    let stored : StoredObject := ⟨hashRaw x raw, path, raw.length, storedSize, true⟩
    some ({ s with disk := s.disk.flushShard (parentComponents path) }.leave x index raw
      (remember known { stored with newlyStored := false }) (.ok stored))
  | .returning raw outcome, .next _ =>
    some ({ s with returned := s.returned ++ [(raw, outcome)] }.enter index .idle)
  | phase, .throws e =>
    match phase.held, phase.ahead with
    | some raw, _ => some (s.leave x index raw known (.error e))
    | none, some raw => some (s.enter index (.returning raw (.error e)))
    | none, none => none
  | _, _ => none

end DurableStores

inductive DurableLabel where
  | moves (index : Nat) (label : StoreLabel)
  /-- A crash, after which every instance is a new one. -/
  | crashes (shards : List Name → Bool) (entries : Bytes → Bool) (remains : Bytes → Bytes)

namespace DurableStores

def act (x : Externals) (maximum count : Nat) (s : DurableStores) :
    DurableLabel → Option DurableStores
  | .moves index label => s.step x maximum count index label
  | .crashes shards entries remains =>
    some { start (s.disk.crash shards entries remains) with returned := s.returned }

def run (x : Externals) (maximum count : Nat) (s : DurableStores) :
    List DurableLabel → Option DurableStores
  | [] => some s
  | label :: labels => (s.act x maximum count label).bind (fun t => t.run x maximum count labels)

end DurableStores

end LocalVault
