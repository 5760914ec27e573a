import LocalVault.Proofs.Reading
import LocalVault.Proofs.Results
import LocalVault.Proofs.Writing
import LocalVault.Storage.Calls

namespace LocalVault
open Library
open Snapshot (Grows publish_grows)

section Records

variable {x : Externals} {maximum : Nat} {known : Known} {objects objects' : Objects}
  {hash path : Bytes} {record object : StoredObject}

/-- A record that says of an object in the directory what a verified read of it
finds. -/
def Describes (x : Externals) (maximum : Nat) (objects : Objects) (hash : Bytes)
    (record : StoredObject) : Prop :=
  ∃ raw content, objects (derivedPath hash) = some (.file content) ∧
    readVerified x maximum objects hash (derivedPath hash) raw.length content.length = .ok raw ∧
    record = ⟨hash, derivedPath hash, raw.length, content.length, false⟩

/-- A read depends on the one file it reads. -/
theorem readVerified_local {rawSize storedSize : Nat}
    (h : objects' (derivedPath hash) = objects (derivedPath hash)) :
    readVerified x maximum objects' hash path rawSize storedSize =
      readVerified x maximum objects hash path rawSize storedSize := by
  simp only [readVerified, regularFileSize, readExact, h]

theorem Describes.grows (h : Describes x maximum objects hash record)
    (hg : Grows objects objects') : Describes x maximum objects' hash record := by
  obtain ⟨raw, content, hfile, hread, hrecord⟩ := h
  have hfile' := hg _ _ hfile
  refine ⟨raw, content, hfile', ?_, hrecord⟩
  exact (readVerified_local (hfile'.trans hfile.symm)).trans hread

/-- The checks a read makes before it opens the file. -/
theorem readVerified_checked {rawSize storedSize : Nat} {raw : Bytes}
    (h : readVerified x maximum objects hash path rawSize storedSize = .ok raw) :
    0 < storedSize ∧ storedSize ≤ maximum + compressedSizeAllowance ∧
      regularFileSize objects (derivedPath hash) = .ok (some storedSize) := by
  unfold readVerified at h
  obtain ⟨_, _, h⟩ := bind_ok.mp h
  dsimp only at h
  split at h
  · cases h
  · split at h
    · cases h
    · split at h
      · cases h
      · rename_i hbound
        obtain ⟨size, hsize, h⟩ := bind_ok.mp h
        cases size with
        | none => cases h
        | some actual =>
          dsimp only at h
          split at h
          · cases h
          · rename_i hactual
            have he : actual = storedSize := by simpa using hactual
            rw [hsize, he]
            exact ⟨by omega, by omega, rfl⟩

theorem Known.find_mem (h : known.find hash = some record) : (hash, record) ∈ known := by
  unfold Known.find at h
  obtain ⟨entry, hentry, rfl⟩ := Option.map_eq_some_iff.mp h
  have hkey : entry.1 = hash := by simpa using List.find?_some hentry
  rw [← hkey]
  exact List.mem_of_find?_eq_some hentry

theorem mem_remember {e : Bytes × StoredObject} (h : e ∈ remember known object) :
    e = (object.hashHex, object) ∨ e ∈ known := by
  unfold remember at h
  rcases List.mem_cons.mp h with he | h
  · exact Or.inl he
  · have hkept := (List.mem_filter.mp h).1
    split at hkept
    · cases hkept
    · exact Or.inr hkept

/-- The records are cleared before there are too many of them; a hash that has
one keeps its place. -/
theorem remember_length (h : known.length ≤ maximumKnownObjects) :
    (remember known object).length ≤ maximumKnownObjects := by
  unfold remember
  rw [List.length_cons]
  split
  · simp [maximumKnownObjects]
  · rename_i hkept
    rcases Nat.lt_or_ge known.length maximumKnownObjects with hlt | hge
    · exact Nat.lt_of_le_of_lt (List.length_filter_le _ _) hlt
    · obtain ⟨held, hheld⟩ := Option.ne_none_iff_exists'.mp (fun hn => hkept ⟨hge, hn⟩)
      refine Nat.lt_of_lt_of_le (List.length_filter_lt_length_iff_exists.mpr ?_) h
      exact ⟨_, Known.find_mem hheld, by simp⟩

/-- A described object passes the check of a reused record. -/
theorem Describes.reusable (h : Describes x maximum objects hash record) :
    requireReusable maximum objects record hash (derivedPath hash) record.rawSize =
      .ok record := by
  obtain ⟨raw, content, _, hread, rfl⟩ := h
  obtain ⟨hpos, hbound, hsize⟩ := readVerified_checked hread
  simp only [requireReusable, ne_eq, not_true_eq_false, or_self, ↓reduceIte, hsize]
  rw [if_neg (by omega)]
  simp [bind, Except.bind]

end Records

section Adoption

variable {x : Externals} {maximum rawSize : Nat} {objects objects' : Objects} {hash : Bytes}
  {record object : StoredObject} {faults : Faults}

/-- An adopted object is the one that stands under the hash. -/
theorem adoptOrphan_some (h : adoptOrphan x maximum objects faults hash (derivedPath hash) rawSize =
    .ok (some object)) : Describes x maximum objects hash object ∧ object.rawSize = rawSize := by
  unfold adoptOrphan at h
  obtain ⟨size, hsize, h⟩ := bind_ok.mp h
  cases size with
  | none => cases h
  | some size =>
    obtain ⟨raw, hread, h⟩ := bind_ok.mp h
    obtain ⟨_, _, h⟩ := bind_ok.mp h
    cases h
    obtain ⟨_, hlength⟩ := Restore.readVerified_spec hread
    obtain ⟨content, hfile, rfl⟩ := regularFileSize_some hsize
    rw [← hlength] at hread ⊢
    exact ⟨⟨raw, content, hfile, hread, rfl⟩, rfl⟩

/-- A described object is adopted, unless it cannot be made durable. -/
theorem Describes.adopted (h : Describes x maximum objects hash record) :
    adoptOrphan x maximum objects faults hash (derivedPath hash) record.rawSize =
      match attempt faults adoptionSteps with
      | .error e => .error e
      | .ok () => .ok (some record) := by
  obtain ⟨raw, content, _, hread, rfl⟩ := h
  obtain ⟨_, _, hsize⟩ := readVerified_checked hread
  simp only [adoptOrphan, hsize, bind, Except.bind, hread]
  cases attempt faults adoptionSteps <;> rfl

/-- A chunk that was compressed and published reads back. -/
theorem Describes.published (hx : RoundTrips x) (hmax : maximum ≤ permanentMaximumChunkSize)
    {raw compressed : Bytes} (hraw : raw ≠ []) (hlong : raw.length ≤ maximum)
    (hc : compressChunk x maximum raw = .ok compressed) :
    Describes x maximum (objects.publish (derivedPath (hashRaw x raw)) compressed) (hashRaw x raw)
      ⟨hashRaw x raw, derivedPath (hashRaw x raw), raw.length, compressed.length, false⟩ := by
  unfold compressChunk at hc
  obtain ⟨frame, hframe, hc⟩ := bind_ok.mp hc
  split at hc
  · cases hc
  · rename_i hbound
    cases hc
    have hfile : objects.publish (derivedPath (hashRaw x raw)) compressed
        (derivedPath (hashRaw x raw)) = some (.file compressed) := by simp [Objects.publish]
    have hne : compressed ≠ [] := fun he => hbound (Or.inl (by rw [he]; rfl))
    have hintact : ObjectIntact x maximum
        (objects.publish (derivedPath (hashRaw x raw)) compressed)
        ⟨hashRaw x raw, raw.length, compressed.length, derivedPath (hashRaw x raw), 0⟩ raw :=
      ⟨rfl, rfl, rfl, hraw, hlong, compressed, hfile, rfl, hne, by omega,
        decompress_compress hx hframe hlong hmax⟩
    exact ⟨raw, compressed, hfile, by simpa using readVerified_intact hintact hmax, rfl⟩

end Adoption

theorem arrive_grows (objects : Objects) (arrivals : List (Bytes × Bytes)) :
    Grows objects (objects.arrive arrivals) := by
  induction arrivals generalizing objects with
  | nil => exact Grows.refl
  | cons a arrivals ih =>
    refine Grows.trans ?_ (ih _)
    by_cases hfree : objects a.1 = none
    · simp only [hfree, Option.isNone_none, ↓reduceIte]
      exact publish_grows hfree
    · simp only [Option.isNone_iff_eq_none, hfree, ↓reduceIte]
      exact Grows.refl

section Call

variable {x : Externals} {maximum rawSize : Nat} {known known' : Known} {objects : Objects}
  {hash : Bytes} {record object : StoredObject} {faults : Faults} {call : StoreCall}

theorem prepare_ok {stopRequested : Bool} {raw compressed : Bytes}
    (h : prepare x maximum stopRequested raw = .ok compressed) :
    compressChunk x maximum raw = .ok compressed := by
  unfold prepare at h
  split at h
  · cases h
  · exact h

theorem findStored_none {raw : Bytes} (h : findStored x maximum known objects raw = .ok none) :
    raw ≠ [] ∧ raw.length ≤ maximum ∧ known.find (hashRaw x raw) = none := by
  unfold findStored at h
  split at h
  · cases h
  · rename_i hraw
    split at h
    · cases h
    · rename_i hlong
      unfold findExisting at h
      split at h
      · exact ⟨hraw, Nat.le_of_not_lt hlong, ‹_›⟩
      · split at h <;> cases h

/-- The second look adopts an object, or falls back on the record of it. -/
theorem lookAgain_some (h : lookAgain x maximum known objects faults hash (derivedPath hash) rawSize =
    .ok (some object, known')) :
    known' = known ∨ known' = remember known object ∧
      Describes x maximum objects hash object ∧ object.rawSize = rawSize := by
  unfold lookAgain at h
  split at h
  · obtain ⟨reused, _, h⟩ := bind_ok.mp h
    cases h
    exact Or.inl rfl
  · obtain ⟨found, hfound, h⟩ := bind_ok.mp h
    cases found with
    | none => cases h
    | some adopted =>
      cases h
      exact Or.inr ⟨rfl, adoptOrphan_some hfound⟩

/-- What a call leaves behind: a directory that has only grown, and at most one
new record, of an object that stands there. -/
theorem storeCall_leaves (hx : RoundTrips x) (hmax : maximum ≤ permanentMaximumChunkSize)
    {objects' : Objects} {outcome : Except LocalVaultError StoredObject}
    (h : storeCall x maximum known objects call = (outcome, known', objects')) :
    Grows objects objects' ∧
      (known' = known ∨ ∃ record, known' = remember known record ∧
        Describes x maximum objects' (hashRaw x call.raw) record ∧
        record.rawSize = call.raw.length ∧
        ∃ compressed, compressChunk x maximum call.raw = .ok compressed) := by
  have hfirst := arrive_grows objects call.before
  have hsecond := hfirst.trans (arrive_grows _ call.meanwhile)
  have hlast := arrive_grows ((objects.arrive call.before).arrive call.meanwhile) call.racing
  have hthird := hsecond.trans hlast
  unfold storeCall at h
  dsimp only at h
  split at h
  · cases h
    exact ⟨hthird, Or.inl rfl⟩
  · cases h
    exact ⟨hthird, Or.inl rfl⟩
  · rename_i hnone
    obtain ⟨hraw, hlong, _⟩ := findStored_none hnone
    split at h
    · cases h
      exact ⟨hthird, Or.inl rfl⟩
    · rename_i compressed hprepared
      have hcompressed := prepare_ok hprepared
      split at h
      · cases h
        exact ⟨hthird, Or.inl rfl⟩
      · rename_i hlook
        cases h
        refine ⟨hthird, (lookAgain_some hlook).imp id ?_⟩
        rintro ⟨hk, hdescribes, hsize⟩
        exact ⟨_, hk, hdescribes.grows hlast, hsize, _, hcompressed⟩
      · split at h
        · cases h
          exact ⟨hthird, Or.inl rfl⟩
        · split at h
          · split at h
            · cases h
              exact ⟨hthird, Or.inl rfl⟩
            · cases h
              exact ⟨hthird, Or.inl rfl⟩
            · rename_i hlook
              cases h
              refine ⟨hthird, (lookAgain_some hlook).imp id ?_⟩
              rintro ⟨hk, hdescribes, hsize⟩
              exact ⟨_, hk, hdescribes, hsize, _, hcompressed⟩
          · rename_i hfree
            have hpublishes : Grows _ (Objects.publish _ _ compressed) :=
              publish_grows (Option.not_isSome_iff_eq_none.mp hfree)
            have hpublished := hthird.trans hpublishes
            split at h
            · cases h
              exact ⟨hpublished, Or.inl rfl⟩
            · cases h
              exact ⟨hpublished, Or.inr ⟨_, rfl, Describes.published hx hmax hraw hlong hcompressed,
                rfl, _, hcompressed⟩⟩

/-- Where nothing is known of a hash, the second look depends on the file. -/
theorem lookAgain_unknown (h : known.find hash = none) {path : Bytes} :
    lookAgain x maximum known objects faults hash path rawSize =
      match adoptOrphan x maximum objects faults hash path rawSize with
      | .error e => .error e
      | .ok none => .ok (none, known)
      | .ok (some adopted) => .ok (some adopted, remember known adopted) := by
  simp only [lookAgain, h]
  cases adoptOrphan x maximum objects faults hash path rawSize with
  | error e => rfl
  | ok found => cases found <;> rfl

/-- There a store with records does what a store without them does. -/
theorem storeCall_unknown (h : known.find (hashRaw x call.raw) = none) :
    (storeCall x maximum known objects call).1 = (storeCall x maximum [] objects call).1 ∧
      (storeCall x maximum known objects call).2.2 =
        (storeCall x maximum [] objects call).2.2 := by
  have hempty : Known.find [] (hashRaw x call.raw) = none := rfl
  have hfirst : ∀ seen, findStored x maximum known seen call.raw =
      findStored x maximum [] seen call.raw := by
    intro seen
    simp only [findStored, findExisting, h, hempty]
  simp only [storeCall, hfirst, lookAgain_unknown h, lookAgain_unknown hempty]
  cases findStored x maximum [] (objects.arrive call.before) call.raw with
  | error e => exact ⟨rfl, rfl⟩
  | ok existing =>
    cases existing with
    | some existing => exact ⟨rfl, rfl⟩
    | none =>
      cases prepare x maximum call.stopRequested call.raw with
      | error e => exact ⟨rfl, rfl⟩
      | ok compressed =>
        dsimp only
        generalize adoptOrphan x maximum ((objects.arrive call.before).arrive call.meanwhile)
          call.faults (hashRaw x call.raw) (derivedPath (hashRaw x call.raw)) call.raw.length = look
        generalize adoptOrphan x maximum
          (((objects.arrive call.before).arrive call.meanwhile).arrive call.racing)
          call.faults (hashRaw x call.raw) (derivedPath (hashRaw x call.raw)) call.raw.length = last
        rcases look with e | _ | adopted
        · exact ⟨rfl, rfl⟩
        · dsimp only
          cases attempt call.faults publicationSteps with
          | error e => exact ⟨rfl, rfl⟩
          | ok _ =>
            dsimp only
            split
            · rcases last with e | _ | published <;> exact ⟨rfl, rfl⟩
            · cases attempt call.faults completionSteps <;> exact ⟨rfl, rfl⟩
        · exact ⟨rfl, rfl⟩

/-- A host on which no step fails. -/
theorem attempt_faultless (steps : List StoreStep) : attempt (fun _ => none) steps = .ok () := by
  induction steps with
  | nil => rfl
  | cons step steps ih => exact ih

theorem lookAgain_faultless {path : Bytes} :
    lookAgain x maximum known objects (fun _ => none) hash path rawSize =
      findExistingFile x maximum known objects hash path rawSize := by
  unfold lookAgain findExistingFile
  cases known.find hash with
  | some cached => rfl
  | none =>
    simp only [adoptOrphan, attempt_faultless]
    cases regularFileSize objects path with
    | error e => rfl
    | ok size =>
      cases size with
      | none => rfl
      | some size =>
        simp only [bind, Except.bind]
        cases readVerified x maximum objects hash path rawSize size <;> rfl

/-- A look that finds nothing leaves the records alone. -/
theorem findExistingFile_keeps {path : Bytes}
    (h : findExistingFile x maximum known objects hash path rawSize = .ok (none, known')) :
    known' = known := by
  unfold findExistingFile at h
  split at h
  · obtain ⟨reused, _, h⟩ := bind_ok.mp h
    cases h
  · obtain ⟨size, _, h⟩ := bind_ok.mp h
    cases size with
    | none =>
      cases h
      rfl
    | some orphan =>
      obtain ⟨_, _, h⟩ := bind_ok.mp h
      cases h

/-- Alone on such a host, a call is `store`. -/
theorem storeCall_alone {raw : Bytes} {stopRequested : Bool} :
    storeCall x maximum known objects { raw, stopRequested } =
      match store x maximum known objects raw stopRequested with
      | .error e => (.error e, known, objects)
      | .ok (stored, known', objects') => (.ok stored, known', objects') := by
  simp only [storeCall, store, storeUnderStripe, prepare, Objects.arrive, List.foldl_nil,
    lookAgain_faultless, attempt_faultless]
  cases findStored x maximum known objects raw with
  | error e => rfl
  | ok existing =>
    cases existing with
    | some existing => rfl
    | none =>
      cases stopRequested with
      | true => rfl
      | false =>
        simp only [bind, Except.bind, Bool.false_eq_true, ↓reduceIte]
        cases compressChunk x maximum raw with
        | error e => rfl
        | ok compressed =>
          dsimp only
          cases hfind : findExistingFile x maximum known objects (hashRaw x raw)
              (derivedPath (hashRaw x raw)) raw.length with
          | error e => rfl
          | ok found =>
            obtain ⟨_ | rechecked, known'⟩ := found
            · obtain rfl := findExistingFile_keeps hfind
              simp [Snapshot.findExistingFile_none hfind]
            · rfl

end Call

/-- What a call that hits the records does not meet: the stop check, and the
syncs of an object that is adopted. -/
def StoreCall.unseen (x : Externals) (call : StoreCall) : Except LocalVaultError Unit :=
  if call.stopRequested then .error (objectStorageCancelled (derivedPath (hashRaw x call.raw)))
  else attempt call.faults adoptionSteps

/-- Two outcomes of one call: the same, or the record of an object where the
store without records meets a stop or a sync that fails. -/
inductive SameOutcome (x : Externals) (call : StoreCall) :
    Except LocalVaultError StoredObject → Except LocalVaultError StoredObject → Prop
  | same (outcome : Except LocalVaultError StoredObject) : SameOutcome x call outcome outcome
  | unseen (record : StoredObject) (e : LocalVaultError) (h : call.unseen x = .error e)
      (hash : record.hashHex = hashRaw x call.raw) (reused : record.newlyStored = false) :
      SameOutcome x call (.ok record) (.error e)

/-- A call that is neither stopped nor failed at a sync is answered alike. -/
theorem SameOutcome.eq {x : Externals} {call : StoreCall}
    {outcome outcome' : Except LocalVaultError StoredObject}
    (h : SameOutcome x call outcome outcome') (hseen : call.unseen x = .ok ()) :
    outcome = outcome' := by
  cases h with
  | same => rfl
  | unseen record e he =>
    rw [hseen] at he
    cases he

/-- The records of a store whose calls were all about `involved` chunks. -/
structure Backed (x : Externals) (maximum : Nat) (involved : Bytes → Prop) (known : Known)
    (objects : Objects) : Prop where
  bounded : known.length ≤ maximumKnownObjects
  described : ∀ e ∈ known, Describes x maximum objects e.1 e.2
  stored : ∀ e ∈ known, ∃ raw, involved raw ∧ hashRaw x raw = e.1 ∧ raw.length = e.2.rawSize ∧
    ∃ compressed, compressChunk x maximum raw = .ok compressed

section Lockstep

variable {x : Externals} {maximum : Nat} {involved : Bytes → Prop} {known : Known}
  {objects objects' : Objects} {call : StoreCall} {record : StoredObject}

theorem Backed.nil : Backed x maximum involved [] objects :=
  ⟨Nat.zero_le _, fun _ h => absurd h List.not_mem_nil, fun _ h => absurd h List.not_mem_nil⟩

theorem Backed.grows (h : Backed x maximum involved known objects) (hg : Grows objects objects') :
    Backed x maximum involved known objects' :=
  ⟨h.bounded, fun e he => (h.described e he).grows hg, h.stored⟩

theorem Backed.remember (h : Backed x maximum involved known objects) {raw : Bytes}
    (hin : involved raw) (hd : Describes x maximum objects (hashRaw x raw) record)
    (hsize : record.rawSize = raw.length)
    (hc : ∃ compressed, compressChunk x maximum raw = .ok compressed) :
    Backed x maximum involved (remember known record) objects := by
  have hhash : record.hashHex = hashRaw x raw := by
    obtain ⟨_, _, _, _, rfl⟩ := hd
    rfl
  refine ⟨remember_length h.bounded, fun e he => ?_, fun e he => ?_⟩
  · rcases mem_remember he with rfl | he
    · rw [hhash]
      exact hd
    · exact h.described e he
  · rcases mem_remember he with rfl | he
    · exact ⟨raw, hin, hhash.symm, hsize.symm, hc⟩
    · exact h.stored e he

/-- A step of the store keeps its records true. -/
theorem Backed.step (hx : RoundTrips x) (hmax : maximum ≤ permanentMaximumChunkSize)
    (hin : involved call.raw) (h : Backed x maximum involved known objects) :
    Backed x maximum involved (storeCall x maximum known objects call).2.1
      (storeCall x maximum known objects call).2.2 := by
  obtain ⟨⟨outcome, known', objects'⟩, hcall⟩ :
    ∃ after, storeCall x maximum known objects call = after := ⟨_, rfl⟩
  rw [hcall]
  obtain ⟨hgrows, rfl | ⟨record, rfl, hd, hsize, hc⟩⟩ := storeCall_leaves hx hmax hcall
  · exact h.grows hgrows
  · exact (h.grows hgrows).remember hin hd hsize hc

/-- A hit answers what the verifying path answers, where that is not stopped. -/
theorem storeCall_hit (hfree : CollisionFree x involved) (hin : involved call.raw)
    (h : Backed x maximum involved known objects)
    (hknown : known.find (hashRaw x call.raw) = some record) :
    SameOutcome x call (storeCall x maximum known objects call).1
        (storeCall x maximum [] objects call).1 ∧
      (storeCall x maximum known objects call).2.2 =
        (storeCall x maximum [] objects call).2.2 := by
  have hempty : Known.find [] (hashRaw x call.raw) = none := rfl
  by_cases hraw : call.raw = []
  · simp only [storeCall, findStored, hraw, ↓reduceIte, and_true]
    exact .same _
  · by_cases hlong : maximum < call.raw.length
    · simp only [storeCall, findStored, hraw, hlong, ↓reduceIte, and_true]
      exact .same _
    · have hmem := Known.find_mem hknown
      obtain ⟨raw, hraws, hhash, hsize, compressed, hcompressed⟩ := h.stored _ hmem
      dsimp only at hhash hsize
      -- no other chunk of a call has this hash, so the record is about this one
      obtain rfl := hfree raw call.raw hraws hin (toHex_injective hhash)
      have hdescribed : Describes x maximum objects (hashRaw x call.raw) record :=
        h.described _ hmem
      have hfirst := hdescribed.grows (arrive_grows _ call.before)
      have hsecond := hfirst.grows (arrive_grows _ call.meanwhile)
      have hfound : findStored x maximum known (objects.arrive call.before) call.raw =
          .ok (some record) := by
        simp only [findStored, findExisting, hraw, hlong, ↓reduceIte, hknown]
        rw [hsize, hfirst.reusable]
      have hmissed : findStored x maximum [] (objects.arrive call.before) call.raw = .ok none := by
        simp only [findStored, findExisting, hraw, hlong, ↓reduceIte, hempty]
      simp only [storeCall, hfound, hmissed, lookAgain_unknown hempty, hsize, hsecond.adopted]
      have hnames : record.hashHex = hashRaw x call.raw ∧ record.newlyStored = false := by
        obtain ⟨_, _, _, _, he⟩ := hdescribed
        exact ⟨by rw [he], by rw [he]⟩
      by_cases hstop : call.stopRequested
      · simp only [prepare, hstop, ↓reduceIte, and_true]
        exact .unseen record _ (by simp [StoreCall.unseen, hstop]) hnames.1 hnames.2
      · simp only [prepare, hstop, Bool.false_eq_true, ↓reduceIte, hcompressed]
        cases hsync : attempt call.faults adoptionSteps with
        | error e =>
          exact ⟨.unseen record e (by simp [StoreCall.unseen, hstop, hsync]) hnames.1 hnames.2, rfl⟩
        | ok _ => exact ⟨.same _, rfl⟩

/-- What a store with records and one without them have in common. -/
def Alongside (x : Externals) (maximum : Nat) (involved : Bytes → Prop) (s : Known × Objects)
    (objects : Objects) : Prop :=
  s.2 = objects ∧ Backed x maximum involved s.1 s.2

theorem Alongside.step (hx : RoundTrips x) (hmax : maximum ≤ permanentMaximumChunkSize)
    (hfree : CollisionFree x involved) (hin : involved call.raw) {s : Known × Objects}
    (h : Alongside x maximum involved s objects) :
    SameOutcome x call (callCaching x maximum s call).1 (callUncached x maximum objects call).1 ∧
      Alongside x maximum involved (callCaching x maximum s call).2
        (callUncached x maximum objects call).2 := by
  obtain ⟨rfl, hb⟩ := h
  have hkeeps := hb.step hx hmax hin
  cases hknown : s.1.find (hashRaw x call.raw) with
  | none =>
    have hsame : (callCaching x maximum s call).1 = (callUncached x maximum s.2 call).1 :=
      (storeCall_unknown hknown).1
    refine ⟨?_, (storeCall_unknown hknown).2, hkeeps⟩
    rw [hsame]
    exact .same _
  | some record =>
    obtain ⟨hsame, hobjects⟩ := storeCall_hit hfree hin hb hknown
    exact ⟨hsame, hobjects, hkeeps⟩

end Lockstep

theorem sampleExternals_roundTrips : RoundTrips Snapshot.sampleExternals := by
  have hsample : ∀ raw c, Snapshot.sampleExternals.zstdCompress raw = .ok c →
      raw = ascii "abc" ∧ c = Snapshot.sampleFrame := by
    intro raw c h
    simp only [Snapshot.sampleExternals] at h
    split at h
    · rename_i hraw
      cases h
      exact ⟨hraw, rfl⟩
    · cases h
  refine ⟨fun raw c h => ?_, fun raw c h => ?_, fun raw c h => ?_, fun raw c h => ?_⟩
  all_goals
    obtain ⟨rfl, rfl⟩ := hsample raw c h
    decide

/-- Another worker publishes the chunk first, and then it is called for twice. -/
def sharedChunk : List StoreCall :=
  [{ raw := ascii "abc"
     before := [(derivedPath (toHex Snapshot.sampleDigest), Snapshot.sampleFrame)] },
    { raw := ascii "abc" }]

/-- `abc`, stored and called for again when the caller wants to stop. -/
def stoppedHit : List StoreCall :=
  [{ raw := ascii "abc" }, { raw := ascii "abc", stopRequested := true }]

end LocalVault
