import LocalVault.Proofs.Records
import LocalVault.Proofs.Rows

namespace LocalVault.Snapshot
open Library Repository

variable {c : Config} {x : Externals} {s t : State} {f : Failure} {stage : Stage} {v : Vault}
  {objects objects' : Objects}

/-- No object is changed or removed. -/
def Grows (objects objects' : Objects) : Prop :=
  ∀ path node, objects path = some node → objects' path = some node

theorem Grows.refl : Grows objects objects := fun _ _ h => h

theorem Grows.trans {objects'' : Objects} (h : Grows objects objects')
    (h' : Grows objects' objects'') : Grows objects objects'' :=
  fun path node hp => h' path node (h path node hp)

theorem publish_grows {path content : Bytes} (h : objects path = none) :
    Grows objects (objects.publish path content) := by
  intro p node hp
  unfold Objects.publish
  split
  · rename_i he
    rw [he, h] at hp
    cases hp
  · exact hp

/-- Where no file is found there is none. -/
theorem findExistingFile_none {maximum rawSize : Nat} {known known' : Known} {hash path : Bytes}
    (h : findExistingFile x maximum known objects hash path rawSize = .ok (none, known')) :
    objects path = none := by
  unfold findExistingFile at h
  split at h
  · obtain ⟨reused, _, h⟩ := bind_ok.mp h
    cases h
  · obtain ⟨size, hsize, h⟩ := bind_ok.mp h
    cases size with
    | some orphan =>
      obtain ⟨_, _, h⟩ := bind_ok.mp h
      cases h
    | none =>
      unfold regularFileSize at hsize
      split at hsize
      · assumption
      · cases hsize
      · split at hsize <;> cases hsize

/-- What is done under the stripe publishes a new object or finds an old one. -/
theorem storeUnderStripe_cases {maximum : Nat} {known known' : Known} {raw compressed : Bytes}
    {object : StoredObject}
    (h : storeUnderStripe x maximum known objects raw compressed = .ok (object, known', objects')) :
    object.newlyStored = false ∧ objects' = objects ∨
      object.newlyStored = true ∧ objects (derivedPath (hashRaw x raw)) = none ∧
        objects' = objects.publish (derivedPath (hashRaw x raw)) compressed := by
  unfold storeUnderStripe at h
  simp only at h
  split at h
  · cases h
  · rename_i stored known'' hfound
    cases h
    refine Or.inl ⟨?_, rfl⟩
    unfold findExistingFile at hfound
    split at hfound
    · obtain ⟨reused, hreused, hfound⟩ := bind_ok.mp hfound
      cases hfound
      obtain ⟨_, _, rfl, _⟩ := requireReusable_returns hreused
      rfl
    · obtain ⟨size, _, hfound⟩ := bind_ok.mp hfound
      cases size with
      | none => cases hfound
      | some orphan =>
        obtain ⟨_, _, hfound⟩ := bind_ok.mp hfound
        cases hfound
        rfl
  · cases h
    exact Or.inr ⟨rfl, findExistingFile_none ‹_›, rfl⟩

theorem WorkerMove.grows {i : Nat} (hm : WorkerMove c x s i t) :
    Grows s.vault.objects t.vault.objects := by
  cases hm with
  | stores r raw compressed object known objects hp hs =>
    rcases storeUnderStripe_cases hs with ⟨_, rfl⟩ | ⟨_, hnone, rfl⟩
    · exact Grows.refl
    · exact publish_grows hnone
  | leaves r raw compressed known e hp hs => exact publish_grows (findExistingFile_none hs)
  | shuts f stage hp =>
    change Grows s.vault.objects (s.shut f stage).vault.objects
    rw [shut_untouched.vault]
    exact Grows.refl
  | _ => exact Grows.refl

/-- The references of a file, recorded one after the other. -/
inductive Referred (objects : Objects) (id : Int) (db : Database) (totals : SnapshotTotals) :
    List ChunkReferenceRecord → Database → SnapshotTotals → Prop
  | nil : Referred objects id db totals [] db totals
  | snoc {refs : List ChunkReferenceRecord} {mid db' : Database} {sum totals' : SnapshotTotals}
      (ref : ChunkReferenceRecord) (now : Int) (h : Referred objects id db totals refs mid sum)
      (hr : ChunkRecorded objects id ref now mid db') (ht : countChunk sum ref = .ok totals') :
      Referred objects id db totals (refs ++ [ref]) db' totals'

def noTotals : SnapshotTotals := ⟨0, 0, 0, 0, 0, 0, 0, 0⟩

/-- The totals without the time that main adds to them. -/
def State.counts (s : State) : SnapshotTotals := { s.totals with durationMs := 0 }

/-- The totals of a file before its references are counted. -/
def countFile (totals : SnapshotTotals) (logicalSize : Nat) : SnapshotTotals :=
  { countEntry totals .regularFile with logicalSize := totals.logicalSize + logicalSize }

/-- The results that were recorded, what the tables hold after them, and the
totals. -/
inductive Recorded (c : Config) (objects : Objects) (db : Database) :
    List ProcessedEntry → Database → SnapshotTotals → Prop
  | nil : Recorded c objects db [] db noTotals
  | warning {ps : List ProcessedEntry} {mid db' : Database} {totals : SnapshotTotals}
      (p : ProcessedEntry) (w : ScanWarning) (h : Recorded c objects db ps mid totals)
      (hv : p.value = .warning w) (hdb : insertWarning c.snapshotId w mid = (.ok (), db')) :
      Recorded c objects db (ps ++ [p]) db' totals
  | entry {ps : List ProcessedEntry} {mid db' : Database} {totals : SnapshotTotals}
      (p : ProcessedEntry) (e : ScannedEntry) (id : Int) (h : Recorded c objects db ps mid totals)
      (hv : p.value = .entry e) (ht : e.type ≠ .regularFile)
      (hdb : insertEntry c.snapshotId e mid = (.ok id, db')) :
      Recorded c objects db (ps ++ [p]) db' (countEntry totals e.type)
  | file {ps : List ProcessedEntry} {mid begun referred db' : Database}
      {totals totals' : SnapshotTotals} (p : ProcessedEntry) (e : ScannedEntry) (id : Int)
      (refs : List ChunkReferenceRecord) (h : Recorded c objects db ps mid totals)
      (hv : p.value = .entry e) (ht : e.type = .regularFile) (hrefs : p.chunkReferences = some refs)
      (hdb : insertEntry c.snapshotId e mid = (.ok id, begun))
      (hr : Referred objects id begun (countFile totals e.logicalSize) refs referred totals')
      (hh : setRegularFileHash id p.fileHashHex referred = (.ok (), db'))
      (hmax : totals.logicalSize + e.logicalSize ≤ maximumByteCount) :
      Recorded c objects db (ps ++ [p]) db' totals'

theorem ChunkRecorded.grows {id : Int} {ref : ChunkReferenceRecord} {now : Int} {db db' : Database}
    (h : ChunkRecorded objects id ref now db db') (hg : Grows objects objects') :
    ChunkRecorded objects' id ref now db db' := by
  obtain ⟨content, hfile, hsize⟩ := h.object
  exact ⟨⟨content, hg _ _ hfile, hsize⟩, h.long, h.entry, h.fresh, h.ensured⟩

theorem Referred.grows {id : Int} {db db' : Database} {totals totals' : SnapshotTotals}
    {refs : List ChunkReferenceRecord} (h : Referred objects id db totals refs db' totals')
    (hg : Grows objects objects') : Referred objects' id db totals refs db' totals' := by
  induction h with
  | nil => exact .nil
  | snoc ref now h hr ht ih => exact .snoc ref now ih (hr.grows hg) ht

theorem Recorded.grows {db db' : Database} {ps : List ProcessedEntry} {totals : SnapshotTotals}
    (h : Recorded c objects db ps db' totals) (hg : Grows objects objects') :
    Recorded c objects' db ps db' totals := by
  induction h with
  | nil => exact .nil
  | warning p w h hv hdb ih => exact .warning p w ih hv hdb
  | entry p e id h hv ht hdb ih => exact .entry p e id ih hv ht hdb
  | file p e id refs h hv ht hrefs hdb hr hh hmax ih =>
    exact .file p e id refs ih hv ht hrefs hdb (hr.grows hg) hh hmax

/-- The writer has an open batch and no file in its hands. -/
def WriterPc.between : WriterPc → Bool
  | .popping | .inserting _ | .committing _ | .ending => true
  | _ => false

/-- What the writer has made of the tables, those on disk and those of its open
batch. -/
inductive Writes (c : Config) (v : Vault) (s : State) (db : Database) : Prop
  | idle (hw : s.writer = .waiting ∨ s.writer = .starting) (hh : s.handled = [])
      (ht : s.counts = noTotals) (hdb : db = v.db)
  | between (b : Batch) (hw : s.writer.between = true) (hb : s.batch = some b)
      (hr : Recorded c s.vault.objects v.db s.handled b.db s.counts)
      (hsame : b.hasRecords = false → b.db = db)
  | within (mid begun : Database) (b : Batch) (p : ProcessedEntry) (e : ScannedEntry) (id : Int)
      (totals : SnapshotTotals) (before rest : List ChunkReferenceRecord)
      (hw : s.writer = .referring p id rest) (hb : s.batch = some b)
      (hr : Recorded c s.vault.objects v.db s.handled mid totals)
      (hv : p.value = .entry e) (ht : e.type = .regularFile)
      (hrefs : p.chunkReferences = some (before ++ rest))
      (hdb : insertEntry c.snapshotId e mid = (.ok id, begun))
      (hreferred : Referred s.vault.objects id begun (countFile totals e.logicalSize) before b.db
        s.counts)
      (hmax : totals.logicalSize + e.logicalSize ≤ maximumByteCount)
  | done (hw : s.writer = .done)
      (hr : Recorded c s.vault.objects v.db s.handled db s.counts)

/-- A step that leaves the writer and its tables alone. -/
theorem Writes.same {db : Database} (h : Writes c v s db) (hwriter : t.writer = s.writer)
    (hbatch : t.batch = s.batch) (hhandled : t.handled = s.handled)
    (hcounts : t.counts = s.counts)
    (hg : Grows s.vault.objects t.vault.objects) : Writes c v t db := by
  cases h with
  | idle hw hh ht hdb => exact .idle (by rwa [hwriter]) (by rwa [hhandled]) (by rwa [hcounts]) hdb
  | between b hw hb hr hsame =>
    refine .between b (by rwa [hwriter]) (by rwa [hbatch]) ?_ hsame
    rw [hhandled, hcounts]
    exact hr.grows hg
  | within mid begun b p e id totals before rest hw hb hr hv ht hrefs hdb hreferred hmax =>
    refine .within mid begun b p e id totals before rest (by rwa [hwriter]) (by rwa [hbatch]) ?_ hv
      ht hrefs hdb ?_ hmax
    · rw [hhandled]
      exact hr.grows hg
    · rw [hcounts]
      exact hreferred.grows hg
  | done hw hr =>
    refine .done (by rwa [hwriter]) ?_
    rw [hhandled, hcounts]
    exact hr.grows hg

theorem countChunk_untimed {totals totals' : SnapshotTotals} {ref : ChunkReferenceRecord}
    (h : countChunk totals ref = .ok totals') :
    countChunk { totals with durationMs := 0 } ref = .ok { totals' with durationMs := 0 } := by
  unfold countChunk at h ⊢
  split at h
  · rename_i hnew
    obtain ⟨size, hsize, h⟩ := bind_ok.mp h
    cases h
    rw [if_pos hnew]
    exact bind_ok.mpr ⟨size, hsize, rfl⟩
  · rename_i hold
    cases h
    rw [if_neg hold]

theorem countEntry_untimed (totals : SnapshotTotals) (type : EntryType) :
    { countEntry totals type with durationMs := 0 } =
      countEntry { totals with durationMs := 0 } type := by
  cases type <;> rfl

/-- What the writer does to its tables. The committed ones change with a commit
only. -/
theorem WriterMove.writes (hm : WriterMove c s t) (ho : Orderly c s) (hs : Clean c s)
    (h : Clean c t) (hw : Writes c v s s.vault.db) : Writes c v t t.vault.db := by
  have hshuts := h.writer
  have hquiet : ∀ {pc : WriterPc}, pc = .popping ∨ pc = .committing false → pc.between = true := by
    rintro pc (rfl | rfl) <;> rfl
  have hopen : ∀ {pc : WriterPc}, s.writer = pc → pc.between = true → ∃ b, s.batch = some b ∧
      Recorded c s.vault.objects v.db s.handled b.db s.counts ∧
      (b.hasRecords = false → b.db = s.vault.db) := by
    intro pc hpc hbetween
    cases hw with
    | idle hw hh ht hdb => rcases hw with hw | hw <;> rw [← hpc, hw] at hbetween <;> cases hbetween
    | between b hw hb hr hsame => exact ⟨b, hb, hr, hsame⟩
    | within mid begun b p e id totals before rest hw hb hr hv ht hrefs hdb hreferred hmax =>
      rw [← hpc, hw] at hbetween
      cases hbetween
    | done hw hr =>
      rw [← hpc, hw] at hbetween
      cases hbetween
  cases hm with
  | starts hp =>
    cases hw with
    | idle hw hh ht hdb =>
      refine .between _ rfl rfl ?_ (fun _ => rfl)
      change Recorded c s.vault.objects v.db s.handled s.vault.db s.counts
      rw [hh, ht, hdb]
      exact .nil
    | between b hw hb hr hsame =>
      rw [hp] at hw
      cases hw
    | within mid begun b p e id totals before rest hw hb hr hv ht hrefs hdb hreferred hmax =>
      rw [hp] at hw
      cases hw
    | done hw hr =>
      rw [hp] at hw
      cases hw
  | fails f totals hf hp => cases hshuts
  | pops p processed hp hq =>
    obtain ⟨b, hb, hr, hsame⟩ := hopen hp rfl
    exact .between b rfl hb hr hsame
  | ended hp hq =>
    obtain ⟨b, hb, hr, hsame⟩ := hopen hp rfl
    exact .between b rfl hb hr hsame
  | warns p w b b' pc hp hb hv hdb hr hpc =>
    obtain ⟨b₀, hb₀, hr₀, _⟩ := hopen hp rfl
    cases hb.symm.trans hb₀
    refine .between b' (hquiet hpc) rfl (.warning p w hr₀ hv hdb) ?_
    intro hno
    rw [hr] at hno
    cases hno
  | inserts p e b b' id pc hp hb hv ht hdb hr hpc =>
    obtain ⟨b₀, hb₀, hr₀, _⟩ := hopen hp rfl
    cases hb.symm.trans hb₀
    refine .between b' (hquiet hpc) rfl ?_ (fun hno => ?_)
    · change Recorded c s.vault.objects v.db (s.handled ++ [p]) b'.db
        { countEntry s.totals e.type with durationMs := 0 }
      rw [countEntry_untimed]
      exact .entry p e id hr₀ hv ht hdb
    · rw [hr] at hno
      cases hno
  | begins p e b id db references hp hb hv ht hdb hrefs hmax =>
    obtain ⟨b₀, hb₀, hr₀, _⟩ := hopen hp rfl
    cases hb.symm.trans hb₀
    exact .within b.db db _ p e id s.counts [] references rfl rfl hr₀ hv ht hrefs hdb .nil hmax
  | refers p id ref rest b db totals now hp hb hdb ht =>
    cases hw with
    | idle hw hh ht hdb => rcases hw with hw | hw <;> rw [hp] at hw <;> cases hw
    | between b hw hb hr hsame =>
      rw [hp] at hw
      cases hw
    | within mid begun b₀ p₀ e id₀ before₀ before rest₀ hw hb₀ hr hv htype hrefs hdb₀ hreferred hmax =>
      rw [hp] at hw
      cases hw
      cases hb.symm.trans hb₀
      refine .within mid begun _ p e id before₀ (before ++ [ref]) rest rfl rfl hr hv htype
        (by rw [hrefs]; simp) hdb₀ ?_ hmax
      exact .snoc ref now hreferred (recordChunk_returns hdb) (countChunk_untimed ht)
    | done hw hr =>
      rw [hp] at hw
      cases hw
  | hashes p id b b' pc hp hb hdb hr hpc =>
    cases hw with
    | idle hw hh ht hdb => rcases hw with hw | hw <;> rw [hp] at hw <;> cases hw
    | between b hw hb hr hsame =>
      rw [hp] at hw
      cases hw
    | within mid begun b₀ p₀ e id₀ before₀ before rest₀ hw hb₀ hr₀ hv htype hrefs hdb₀ hreferred hmax =>
      rw [hp] at hw
      cases hw
      cases hb.symm.trans hb₀
      rw [List.append_nil] at hrefs
      refine .between b' (hquiet hpc) rfl
        (.file p e id before hr₀ hv htype hrefs hdb₀ hreferred hdb hmax) ?_
      intro hno
      rw [hr] at hno
      cases hno
    | done hw hr =>
      rw [hp] at hw
      cases hw
  | skips last b hp hb hr =>
    obtain ⟨b₀, hb₀, hr₀, hsame⟩ := hopen hp rfl
    cases hb.symm.trans hb₀
    cases last with
    | false => exact .between _ rfl rfl hr₀ (fun _ => hsame hr)
    | true =>
      rw [hsame hr] at hr₀
      exact .done rfl hr₀
  | commits last b hp hb hr hstop =>
    obtain ⟨b₀, hb₀, hr₀, _⟩ := hopen hp rfl
    cases hb.symm.trans hb₀
    cases last with
    | false => exact .between _ rfl rfl hr₀ (fun _ => rfl)
    | true => exact .done rfl hr₀
  | breaks b e hb hr last hp => cases hshuts
  | abandons hp hstop =>
    rw [hs.no_stop ho] at hstop
    cases hstop
  | concludes hp hstop =>
    obtain ⟨b, hb, hr, hsame⟩ := hopen hp rfl
    exact .between b rfl hb hr hsame
  | shuts f stage hp => exact absurd hs.writer (by rw [hp]; exact nofun)

/-- The tables on disk are those of the last commit, until the snapshot is
published. -/
inductive Kept (c : Config) (v : Vault) (s : State) : Prop
  | open (hm : s.main ≠ .published) (h : Writes c v s s.vault.db)
  | published (hm : s.main = .published) (db : Database) (now : Int) (h : Writes c v s db)
      (hdb : markSnapshotComplete c.snapshotId s.totals now db = (.ok (), s.vault.db))

/-- A step of another thread. -/
theorem Kept.same (h : Kept c v s) (hmain : t.main = s.main) (hwriter : t.writer = s.writer)
    (hbatch : t.batch = s.batch) (hhandled : t.handled = s.handled) (htotals : t.totals = s.totals)
    (hdb : t.vault.db = s.vault.db) (hg : Grows s.vault.objects t.vault.objects) : Kept c v t := by
  have hcounts : t.counts = s.counts := by rw [State.counts, htotals, State.counts]
  cases h with
  | «open» hm hw =>
    refine .open (by rwa [hmain]) ?_
    rw [hdb]
    exact hw.same hwriter hbatch hhandled hcounts hg
  | published hm db now hw hdb' =>
    refine .published (by rwa [hmain]) db now (hw.same hwriter hbatch hhandled hcounts hg) ?_
    rw [htotals, hdb]
    exact hdb'

theorem WriterMove.kept (hm : WriterMove c s t) (ho : Orderly c s) (hs : Clean c s)
    (h : Clean c t) (hk : Kept c v s) : Kept c v t := by
  cases hk with
  | «open» hmain hw => exact .open (by rwa [hm.frame.main]) (hm.writes ho hs h hw)
  | published hmain db now hw hdb =>
    have hover := hm.running.1
    rw [(ho.ended (by rw [hmain]; rfl)).writer] at hover
    cases hover

theorem Creates.kept {n : Nat} (hc : Creates c s n t) (hu : Uncreated n s) (hw : Writes c v s s.vault.db) : Kept c v t := by
  cases hc with
  | progress => exact .open (fun he => by cases he) (hw.same rfl rfl rfl rfl Grows.refl)
  | writer =>
    refine .open (fun he => by cases he) ?_
    have hwait := hu.writer (Nat.le_refl 1)
    cases hw with
    | idle hw hh ht hdb => exact .idle (Or.inr rfl) hh ht hdb
    | between b hw hb hr hsame =>
      rw [hwait] at hw
      cases hw
    | within mid begun b p e id totals before rest hw hb hr hv ht hrefs hdb hreferred hmax =>
      rw [hwait] at hw
      cases hw
    | done hw hr =>
      rw [hwait] at hw
      cases hw
  | worker i hi => exact .open (fun he => by cases he) (hw.same rfl rfl rfl rfl Grows.refl)
  | scanner n hn => exact .open (fun he => by cases he) (hw.same rfl rfl rfl rfl Grows.refl)

theorem Advances.published {pc : MainPc} (ha : Advances c s s.main pc) :
    pc ≠ .published ∧ s.main ≠ .published := by
  generalize s.main = m at ha
  cases ha with
  | throws _ f h =>
    refine ⟨nofun, ?_⟩
    rintro rfl
    cases h
  | _ => exact ⟨nofun, nofun⟩

theorem MainMove.kept (hm : MainMove c s t) (hy : Young s) (hk : Kept c v s) : Kept c v t := by
  have hopen : s.main ≠ .published → Writes c v s s.vault.db := by
    intro hmain
    cases hk with
    | «open» _ hw => exact hw
    | published hmain' db now hw hdb => exact absurd hmain' hmain
  have hmoved : ∀ {pc : MainPc}, s.main = pc → pc ≠ .published → s.main ≠ .published := by
    rintro pc rfl hne
    exact hne
  have hshut : ∀ {f : Failure} {stage : Stage} {pc : MainPc}, s.main ≠ .published →
      pc ≠ .published → Kept c v { s.shut f stage with main := pc } := by
    intro f stage pc hmain hpc
    have hu : Untouched s (s.shut f stage) := shut_untouched
    refine .open hpc ?_
    change Writes c v _ (s.shut f stage).vault.db
    rw [hu.vault]
    refine (hopen hmain).same hu.writer hu.batch hu.handled ?_ ?_
    · change { (s.shut f stage).totals with durationMs := 0 } = _
      rw [hu.totals]
      rfl
    · change Grows s.vault.objects (s.shut f stage).vault.objects
      rw [hu.vault]
      exact Grows.refl
  have hafter : ∀ {f : Failure} {stage : Stage} {shutting : Failure → Stage → MainPc}
      {finished : MainPc}, (∀ f stage, shutting f stage ≠ .published) → finished ≠ .published →
      afterStage shutting finished f stage ≠ .published := by
    intro f stage shutting finished hshutting hfinished
    rcases afterStage_cases shutting finished f stage with
      he | ⟨stage', he⟩
    · rw [he]
      exact hfinished
    · rw [he]
      exact hshutting f stage'
  cases hm with
  | advances pc ha =>
    exact .open ha.published.1 ((hopen ha.published.2).same rfl rfl rfl rfl Grows.refl)
  | registers hp he =>
    exact .open (fun he => by cases he)
      ((hopen (hmoved hp (fun he => by cases he))).same rfl rfl rfl rfl Grows.refl)
  | cancels f stage hp =>
    exact hshut (hmoved hp (fun he => by cases he))
      (hafter (fun _ _ he => by cases he) (fun he => by cases he))
  | creates n hp =>
    have hmain := hmoved hp (fun he => by cases he)
    exact (create_creates n).kept (hy n (by rw [hp]; rfl)) (hopen hmain)
  | shuts f stage hp =>
    exact hshut (hmoved hp (fun he => by cases he))
      (hafter (fun _ _ he => by cases he) (fun he => by cases he))
  | joinsWriter hp ho =>
    exact .open (fun he => by cases he)
      ((hopen (hmoved hp (fun he => by cases he))).same rfl rfl rfl rfl Grows.refl)
  | unregisters hp ho =>
    exact .open (fun he => by cases he)
      ((hopen (hmoved hp (fun he => by cases he))).same rfl rfl rfl rfl Grows.refl)
  | times now hp =>
    exact .open (fun he => by cases he)
      ((hopen (hmoved hp (fun he => by cases he))).same rfl rfl rfl rfl Grows.refl)
  | publishes now db hp hdb =>
    exact .published rfl s.vault.db now
      ((hopen (hmoved hp (fun he => by cases he))).same rfl rfl rfl rfl Grows.refl) hdb

theorem Move.kept (hm : Move c x s t) (ho : Orderly c s) (hs : Clean c s) (h : Clean c t)
    (hk : Kept c v s) : Kept c v t := by
  cases hm with
  | scanner hm =>
    have hf := hm.frame
    exact hk.same hf.main hf.writer hf.batch hf.handled hf.totals (by rw [hf.vault])
      (by rw [hf.vault]; exact Grows.refl)
  | worker i hi hm =>
    have hf := hm.frame
    exact hk.same hf.main hf.writer hf.batch hf.handled hf.totals hf.db hm.grows
  | writer hm => exact hm.kept ho hs h hk
  | main hm => exact hm.kept ho.young hk
  | other hm =>
    have hf := hm.frame
    exact hk.same hf.main hf.writer hf.batch hf.handled hf.totals (by rw [hf.vault])
      (by rw [hf.vault]; exact Grows.refl)

/-- In a run without failures the tables hold what was recorded. -/
theorem run_kept {e : Bool} {ls : List Label} (h : run c x (State.start c v e) ls = some s)
    (hc : Clean c s) : Kept c v s := by
  have hall := run_invariant (P := fun s => Orderly c s ∧ (Clean c s → Kept c v s))
    (fun s t hs hm => ⟨hm.orderly hs.1, fun ht =>
      have hclean := hm.clean hs.1 ht
      hm.kept hs.1 hclean ht (hs.2 hclean)⟩)
    ⟨orderly_start, fun _ => .open (fun he => by cases he) (.idle (Or.inl rfl) rfl rfl rfl)⟩ h
  exact hall.2 hc

/-- What a published snapshot was made of. -/
theorem run_published {e : Bool} {ls : List Label} (h : run c x (State.start c v e) ls = some s)
    (hm : s.main = .published) : ∃ db now,
      Recorded c s.vault.objects v.db s.handled db s.counts ∧
      markSnapshotComplete c.snapshotId s.totals now db = (.ok (), s.vault.db) := by
  have hended := (run_orderly h).ended (by rw [hm]; rfl)
  cases run_kept h hended.clean with
  | «open» hopen _ => exact absurd hm hopen
  | published _ db now hw hdb =>
    refine ⟨db, now, ?_, hdb⟩
    have hdone := hended.writer
    cases hw with
    | idle hw hh ht hdb => rcases hw with hw | hw <;> rw [hdone] at hw <;> cases hw
    | between b hw hb hr hsame =>
      rw [hdone] at hw
      cases hw
    | within mid begun b p e id totals before rest hw hb hr hv ht hrefs hdb hreferred hmax =>
      rw [hdone] at hw
      cases hw
    | done hw hr => exact hr

end LocalVault.Snapshot
