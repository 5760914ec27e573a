import LocalVault.Storage.Calls

namespace LocalVault

/-- Where a call of `ObjectStore::store` stands. -/
inductive StorePhase where
  | idle
  | looking (raw : Bytes)
  | preparing (raw : Bytes)
  | waiting (raw compressed : Bytes)
  | holding (raw compressed : Bytes)
  | publishing (raw compressed : Bytes)
  | colliding (raw compressed : Bytes)
  | published (raw compressed : Bytes)
  | returning (raw : Bytes) (outcome : Except LocalVaultError StoredObject)
  deriving DecidableEq

/-- The chunk of the call that holds its stripe. -/
def StorePhase.held : StorePhase → Option Bytes
  | .holding raw _ | .publishing raw _ | .colliding raw _ | .published raw _ => some raw
  | _ => none

/-- The chunk of the call that is under way in front of its stripe. -/
def StorePhase.ahead : StorePhase → Option Bytes
  | .looking raw | .preparing raw | .waiting raw _ => some raw
  | _ => none

/-- An `ObjectStore` with a call in progress. -/
structure StoreInstance where
  known : Known
  phase : StorePhase

def hexDigitValue (c : UInt8) : Nat := if c < 97 then c.toNat - 48 else c.toNat - 87

/-- `std::stoul(hash_hex.substr(0, 2), nullptr, 16)`. -/
def stripeIndex (hashHex : Bytes) : Nat :=
  (hashHex.take 2).foldl (fun value c => 16 * value + hexDigitValue c) 0

/-- `ObjectStore` instances that share one `ObjectStoreSynchronization`, with
what was renamed into `objects/` and what the calls have returned or thrown. -/
structure SharedStores where
  objects : Objects
  stripes : Nat → Option Nat
  instances : Nat → StoreInstance
  renamed : List Bytes
  returned : List (Bytes × Except LocalVaultError StoredObject)

def SharedStores.start (objects : Objects) : SharedStores :=
  ⟨objects, fun _ => none, fun _ => ⟨[], .idle⟩, [], []⟩

inductive StoreLabel where
  | calls (raw : Bytes)
  /-- The next step of the call; a stop may have been requested by now. -/
  | next (stopRequested : Bool)
  /-- The next step of the call throws. -/
  | throws (e : LocalVaultError)

namespace SharedStores

def setInstance (s : SharedStores) (index : Nat) (store : StoreInstance) : SharedStores :=
  { s with instances := fun i => if i = index then store else s.instances i }

def enter (s : SharedStores) (index : Nat) (phase : StorePhase) : SharedStores :=
  s.setInstance index { s.instances index with phase }

def setStripe (s : SharedStores) (raw : Bytes) (x : Externals) (holder : Option Nat) :
    SharedStores :=
  { s with stripes := fun i => if i = stripeIndex (hashRaw x raw) then holder else s.stripes i }

/-- The end of the scope that holds the stripe. -/
def leave (x : Externals) (s : SharedStores) (index : Nat) (raw : Bytes) (known : Known)
    (outcome : Except LocalVaultError StoredObject) : SharedStores :=
  (s.setStripe raw x none).setInstance index ⟨known, .returning raw outcome⟩

/-- The look at the file of a hash under the stripe; `absent` is where the call
goes when there is none. -/
def lookUnderStripe (x : Externals) (maximum : Nat) (s : SharedStores) (index : Nat) (raw : Bytes)
    (absent : SharedStores) : SharedStores :=
  let known := (s.instances index).known
  match findExistingFile x maximum known s.objects (hashRaw x raw) (derivedPath (hashRaw x raw))
      raw.length with
  | .error e => s.leave x index raw known (.error e)
  | .ok (some rechecked, known') => s.leave x index raw known' (.ok rechecked)
  | .ok (none, _) => absent

/-- A step of the instance `index` of `count`. -/
def step (x : Externals) (maximum count : Nat) (s : SharedStores) (index : Nat)
    (label : StoreLabel) : Option SharedStores :=
  let known := (s.instances index).known
  if count ≤ index then none
  else match (s.instances index).phase, label with
  | .idle, .calls raw => some (s.enter index (.looking raw))
  | .looking raw, .next _ =>
    match findStored x maximum known s.objects raw with
    | .error e => some (s.enter index (.returning raw (.error e)))
    | .ok (some existing) => some (s.enter index (.returning raw (.ok existing)))
    | .ok none => some (s.enter index (.preparing raw))
  | .preparing raw, .next stopRequested =>
    match prepare x maximum stopRequested raw with
    | .error e => some (s.enter index (.returning raw (.error e)))
    | .ok compressed => some (s.enter index (.waiting raw compressed))
  | .waiting raw compressed, .next _ =>
    match s.stripes (stripeIndex (hashRaw x raw)) with
    | some _ => none
    | none => some ((s.setStripe raw x (some index)).enter index (.holding raw compressed))
  | .holding raw compressed, .next _ =>
    some (s.lookUnderStripe x maximum index raw (s.enter index (.publishing raw compressed)))
  | .publishing raw compressed, .next _ =>
    let path := derivedPath (hashRaw x raw)
    if (s.objects path).isSome then some (s.enter index (.colliding raw compressed))
    else some ({ s with objects := s.objects.publish path compressed
                        renamed := s.renamed ++ [path] }.enter index (.published raw compressed))
  | .colliding raw _, .next _ =>
    some (s.lookUnderStripe x maximum index raw
      (s.leave x index raw known (.error (disappeared (derivedPath (hashRaw x raw))))))
  | .published raw compressed, .next _ =>
    let stored : StoredObject :=
      ⟨hashRaw x raw, derivedPath (hashRaw x raw), raw.length, compressed.length, true⟩
    some (s.leave x index raw (remember known { stored with newlyStored := false }) (.ok stored))
  | .returning raw outcome, .next _ =>
    some ({ s with returned := s.returned ++ [(raw, outcome)] }.enter index .idle)
  | phase, .throws e =>
    match phase.held, phase.ahead with
    | some raw, _ => some (s.leave x index raw known (.error e))
    | none, some raw => some (s.enter index (.returning raw (.error e)))
    | none, none => none
  | _, _ => none

def run (x : Externals) (maximum count : Nat) (s : SharedStores) :
    List (Nat × StoreLabel) → Option SharedStores
  | [] => some s
  | (index, label) :: labels =>
    (s.step x maximum count index label).bind (fun t => t.run x maximum count labels)

end SharedStores

end LocalVault
