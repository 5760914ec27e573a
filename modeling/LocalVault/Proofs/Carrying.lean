import LocalVault.Proofs.Joins
import LocalVault.Proofs.Settling

namespace LocalVault.Snapshot
open Library Repository

variable {c : Config} {x : Externals} {s t : State} {v : Vault} {J K : Database → Prop}
  {db db' : Database}

/-- A property of the tables that the statements of the writer keep. -/
structure Carries (c : Config) (J : Database → Prop) : Prop where
  entry : ∀ {db db' : Database} {e : ScannedEntry} {id : Int}, J db →
    insertEntry c.snapshotId e db = (.ok id, db') → J db'
  warning : ∀ {db db' : Database} {w : ScanWarning}, J db →
    insertWarning c.snapshotId w db = (.ok (), db') → J db'
  chunk : ∀ {db db' : Database} {objects : Objects} {entryId now : Int} {ref : ChunkReferenceRecord},
    J db → recordChunk c objects entryId ref now db = (.ok (), db') → J db'
  hash : ∀ {db db' : Database} {entryId : Int} {hash : Bytes}, J db →
    setRegularFileHash entryId hash db = (.ok (), db') → J db'

/-- Until it is published, a snapshot is made by the statements of the writer only. -/
structure Carried (c : Config) (J : Database → Prop) (s : State) : Prop where
  vault : s.main ≠ .published → J s.vault.db
  published : s.main = .published → ∃ totals db now, J db ∧
    markSnapshotComplete c.snapshotId totals now db = (.ok (), s.vault.db)
  batch : ∀ b, s.batch = some b → J b.db

theorem Carried.same (h : Carried c J s) (hdb : t.vault.db = s.vault.db) (hb : t.batch = s.batch)
    (hm : t.main = .published ↔ s.main = .published) : Carried c J t where
  vault hp := by
    rw [hdb]
    exact h.vault fun hs => hp (hm.mpr hs)
  published hp := by
    rw [hdb]
    exact h.published (hm.mp hp)
  batch b := by
    rw [hb]
    exact h.batch b

/-- The writer works on its batch. -/
theorem Carried.batched (h : Carried c J s) {b : Option Batch} (hdb : t.vault.db = s.vault.db)
    (hm : t.main = s.main) (hb : t.batch = b) (hj : ∀ b', b = some b' → J b'.db) : Carried c J t where
  vault hp := by
    rw [hdb]
    exact h.vault (hm ▸ hp)
  published hp := by
    rw [hdb]
    exact h.published (hm ▸ hp)
  batch b' hb' := hj b' (hb.symm.trans hb')

theorem WriterMove.carried (hJ : Carries c J) (hm : WriterMove c s t) (hp : s.main ≠ .published)
    (h : Carried c J s) : Carried c J t := by
  have hone : ∀ {u : State} {b : Batch}, u.vault.db = s.vault.db → u.main = s.main →
      u.batch = some b → J b.db → Carried c J u := by
    intro u b hdb hm hb hj
    exact h.batched hdb hm hb fun b' hb' => Option.some.inj hb' ▸ hj
  have hnone : ∀ {u : State}, u.vault.db = s.vault.db → u.main = s.main → u.batch = none →
      Carried c J u := fun hdb hm hb => h.batched hdb hm hb nofun
  cases hm with
  | starts hw => exact hone rfl rfl rfl (h.vault hp)
  | fails f totals hf hw => exact hnone rfl rfl rfl
  | pops p processed hw hq => exact h.same rfl rfl Iff.rfl
  | ended hw hq => exact h.same rfl rfl Iff.rfl
  | warns p w b b' pc hw hb hv hdb hr hpc => exact hone rfl rfl rfl (hJ.warning (h.batch b hb) hdb)
  | inserts p e b b' id pc hw hb hv ht hdb hr hpc =>
    exact hone rfl rfl rfl (hJ.entry (h.batch b hb) hdb)
  | begins p e b id db references hw hb hv ht hdb hrefs hmax =>
    exact hone rfl rfl rfl (hJ.entry (h.batch b hb) hdb)
  | refers p id ref rest b db totals now hw hb hdb ht =>
    exact hone rfl rfl rfl (hJ.chunk (h.batch b hb) hdb)
  | hashes p id b b' pc hw hb hdb hr hpc => exact hone rfl rfl rfl (hJ.hash (h.batch b hb) hdb)
  | skips last b hw hb hr =>
    cases last with
    | true => exact hnone rfl rfl rfl
    | false => exact hone rfl rfl rfl (h.batch b hb)
  | commits last b hw hb hr hs =>
    refine ⟨fun _ => h.batch b hb, fun hpub => absurd hpub hp, ?_⟩
    cases last with
    | true => exact nofun
    | false => exact fun b' hb' => Option.some.inj hb' ▸ h.batch b hb
  | breaks b e hb hr last hw => exact ⟨fun _ => h.batch b hb, fun hpub => absurd hpub hp, nofun⟩
  | abandons hw hs => exact hnone rfl rfl rfl
  | concludes hw hs => exact h.same rfl rfl Iff.rfl
  | shuts f stage hw =>
    have hu : Untouched s (s.shut f stage) := shut_untouched
    exact h.same (congrArg Vault.db hu.vault) hu.batch (by rw [← hu.main])

theorem MainMove.carried (hm : MainMove c s t) (h : Carried c J s) : Carried c J t := by
  have hother : ∀ {u : State}, u.vault.db = s.vault.db → u.batch = s.batch → s.main ≠ .published →
      u.main ≠ .published → Carried c J u :=
    fun hdb hb hs hu => h.same hdb hb ⟨fun he => absurd he hu, fun he => absurd he hs⟩
  cases hm with
  | advances pc ha =>
    refine hother rfl rfl ?_ ?_
    · intro hs
      generalize s.main = old at ha hs
      cases ha with
      | throws old f ht =>
        rw [hs] at ht
        cases ht
      | _ => cases hs
    · intro (he : pc = .published)
      generalize s.main = old at ha
      cases ha <;> cases he
  | registers hp he => exact hother rfl rfl (by rw [hp]; exact nofun) nofun
  | cancels f stage hp =>
    refine hother (congrArg Vault.db shut_untouched.vault) shut_untouched.batch
      (by rw [hp]; exact nofun) ?_
    cases stage <;> exact nofun
  | creates n hp =>
    have hcreates := create_creates (c := c) (s := s) n
    generalize s.create c n = u at hcreates
    have hs : s.main ≠ .published := by
      rw [hp]
      exact nofun
    cases hcreates <;> exact hother rfl rfl hs nofun
  | shuts f stage hp =>
    refine hother (congrArg Vault.db shut_untouched.vault) shut_untouched.batch
      (by rw [hp]; exact nofun) ?_
    cases stage <;> exact nofun
  | joinsWriter hp ho => exact hother rfl rfl (by rw [hp]; exact nofun) nofun
  | unregisters hp ho => exact hother rfl rfl (by rw [hp]; exact nofun) nofun
  | times now hp => exact hother rfl rfl (by rw [hp]; exact nofun) nofun
  | publishes now db hp hdb =>
    have hopen := h.vault (by rw [hp]; exact nofun)
    exact ⟨fun hne => absurd rfl hne, fun _ => ⟨s.totals, s.vault.db, now, hopen, hdb⟩, h.batch⟩

theorem Move.carried (hJ : Carries c J) (hm : Move c x s t) (ho : Orderly c s) (h : Carried c J s) :
    Carried c J t := by
  cases hm with
  | scanner hm =>
    exact h.same (by rw [hm.frame.vault]) hm.frame.batch (by rw [hm.frame.main])
  | worker i hi hm => exact h.same hm.frame.db hm.frame.batch (by rw [hm.frame.main])
  | writer hm =>
    refine hm.carried hJ (fun hp => ?_) h
    -- nobody writes behind the publication
    have hover := (ho.standing.alone (settles_joined (by rw [hp]; rfl))).writer
    rw [hm.running.1] at hover
    cases hover
  | main hm => exact hm.carried h
  | other hm => exact h.same (by rw [hm.frame.vault]) hm.frame.batch (by rw [hm.frame.main])

theorem run_carried (hJ : Carries c J) (hstart : J v.db) {e : Bool} {ls : List Label}
    (h : run c x (State.start c v e) ls = some s) : Carried c J s := by
  refine (run_invariant (P := fun s => Orderly c s ∧ Carried c J s)
    (fun s t hs hm => ⟨hm.orderly hs.1, hm.carried hJ hs.1 hs.2⟩) ⟨orderly_start, ?_⟩ h).2
  exact ⟨fun _ => hstart, nofun, nofun⟩

theorem Carries.and (hJ : Carries c J) (hK : Carries c K) : Carries c (fun db => J db ∧ K db) where
  entry h hdb := ⟨hJ.entry h.1 hdb, hK.entry h.2 hdb⟩
  warning h hdb := ⟨hJ.warning h.1 hdb, hK.warning h.2 hdb⟩
  chunk h hdb := ⟨hJ.chunk h.1 hdb, hK.chunk h.2 hdb⟩
  hash h hdb := ⟨hJ.hash h.1 hdb, hK.hash h.2 hdb⟩

/-- The writer never touches a snapshot row. -/
theorem carries_snapshots {rows : List SnapshotRow} : Carries c (fun db => db.snapshots = rows) where
  entry h hdb := by
    obtain ⟨_, _, _, _, rfl⟩ := insertEntry_returns hdb
    exact h
  warning h hdb := by
    obtain rfl := insertWarning_returns hdb
    exact h
  chunk h hdb := by
    obtain ⟨mid, hensured, rfl⟩ := (recordChunk_returns hdb).ensured
    rcases hensured.rows with rfl | ⟨_, rfl⟩ <;> exact h
  hash h hdb := by
    obtain ⟨_, _, rfl⟩ := setRegularFileHash_returns hdb
    exact h

/-- A snapshot that is not published has nothing to promise yet. -/
structure Drafted (id : SnapshotId) (db : Database) : Prop where
  consistent : db.Consistent
  unpublished : db.ofStatus id [.complete] = false

theorem nodup_snoc {α : Type} {l : List α} {a : α} (h : l.Nodup) (ha : a ∉ l) : (l ++ [a]).Nodup := by
  rw [List.nodup_append]
  refine ⟨h, List.nodup_singleton a, ?_⟩
  rintro b hb c hc rfl
  exact ha (List.mem_singleton.mp hc ▸ hb)

theorem Drafted.entry {e : ScannedEntry} {id : Int} (h : Drafted c.snapshotId db)
    (hdb : insertEntry c.snapshotId e db = (.ok id, db')) : Drafted c.snapshotId db' := by
  obtain ⟨_, _, hsnapshot, rfl, rfl⟩ := insertEntry_returns hdb
  refine ⟨?_, h.unpublished⟩
  have hconsistent := h.consistent
  exact { hconsistent with
    entries := by
      rw [List.map_append]
      refine nodup_snoc hconsistent.entries fun hmem => ?_
      obtain ⟨d, hd, hid⟩ := List.mem_map.mp hmem
      have hle := hconsistent.entryIds d hd
      change d.id = (db.lastEntryId : Int) + 1 at hid
      omega
    entrySnapshot := by
      intro d hd
      rcases List.mem_append.mp hd with hd | hd
      · exact hconsistent.entrySnapshot d hd
      · obtain rfl := List.mem_singleton.mp hd
        exact hsnapshot
    referenceEntry := fun r hr =>
      (hconsistent.referenceEntry r hr).imp fun d hd => ⟨List.mem_append_left _ hd.1, hd.2⟩
    entryIds := by
      intro d hd
      change d.id ≤ ((db.lastEntryId + 1 : Nat) : Int)
      rcases List.mem_append.mp hd with hd | hd
      · have hle := hconsistent.entryIds d hd
        omega
      · obtain rfl := List.mem_singleton.mp hd
        exact Int.le_refl _
    hashed := by
      intro d hd hcomplete htype
      rcases List.mem_append.mp hd with hd | hd
      · exact hconsistent.hashed d hd hcomplete htype
      · obtain rfl := List.mem_singleton.mp hd
        exact absurd (h.unpublished.symm.trans hcomplete) nofun }

theorem insertWarning_snapshot {id : SnapshotId} {w : ScanWarning}
    (h : insertWarning id w db = (.ok (), db')) : ∃ s ∈ db.snapshots, s.id = id := by
  obtain ⟨_, u, hbind, h⟩ := Program.bind_returns.mp h
  obtain rfl := bindTexts_returns hbind
  unfold addWarning at h
  split at h
  · cases h
  · rename_i hsnapshot
    simpa using hsnapshot

theorem Drafted.warning {w : ScanWarning} (h : Drafted c.snapshotId db)
    (hdb : insertWarning c.snapshotId w db = (.ok (), db')) : Drafted c.snapshotId db' := by
  have hsnapshot := insertWarning_snapshot hdb
  obtain rfl := insertWarning_returns hdb
  refine ⟨?_, h.unpublished⟩
  have hconsistent := h.consistent
  exact { hconsistent with
    warnings := by
      rw [List.map_append]
      refine nodup_snoc hconsistent.warnings fun hmem => ?_
      obtain ⟨w, hw, hid⟩ := List.mem_map.mp hmem
      have hle := hconsistent.warningIds w hw
      change w.id = (db.lastWarningId : Int) + 1 at hid
      omega
    warningSnapshot := by
      intro n hn
      rcases List.mem_append.mp hn with hn | hn
      · exact hconsistent.warningSnapshot n hn
      · obtain rfl := List.mem_singleton.mp hn
        exact hsnapshot
    warningIds := by
      intro n hn
      change n.id ≤ ((db.lastWarningId + 1 : Nat) : Int)
      rcases List.mem_append.mp hn with hn | hn
      · have hle := hconsistent.warningIds n hn
        omega
      · obtain rfl := List.mem_singleton.mp hn
        exact Int.le_refl _ }

/-- A chunk row that is new does not break the keys. -/
theorem ensured_consistent {chunk : StoredChunkInfo} (h : ChunkEnsured chunk db db')
    (hdb : db.Consistent) : db'.Consistent := by
  rcases h.rows with rfl | ⟨hnew, rfl⟩
  · exact hdb
  · exact { hdb with
      chunks := by
        rw [List.map_append]
        refine nodup_snoc hdb.chunks fun hmem => ?_
        obtain ⟨k, hk, hhash⟩ := List.mem_map.mp hmem
        exact hnew k hk hhash
      referenceChunk := fun r hr =>
        (hdb.referenceChunk r hr).imp fun k hk => ⟨List.mem_append_left _ hk.1, hk.2⟩ }

theorem Drafted.chunk {objects : Objects} {entryId now : Int} {ref : ChunkReferenceRecord}
    (h : Drafted c.snapshotId db) (hdb : recordChunk c objects entryId ref now db = (.ok (), db')) :
    Drafted c.snapshotId db' := by
  have hrecorded := recordChunk_returns hdb
  obtain ⟨mid, hensured, rfl⟩ := hrecorded.ensured
  have hmid := ensured_consistent hensured h.consistent
  have hsame : mid.entries = db.entries ∧ mid.snapshots = db.snapshots := by
    rcases hensured.rows with rfl | ⟨_, rfl⟩ <;> exact ⟨rfl, rfl⟩
  obtain ⟨row, hrow, -⟩ := hensured.row
  have hchunk : row ∈ mid.chunks ∧ row.hash = ref.hashHex := by
    have hmem : row ∈ mid.chunks.filter (fun k => k.hash == ref.hashHex) := by
      rw [hrow]
      exact List.mem_singleton.mpr rfl
    obtain ⟨hk, hhash⟩ := List.mem_filter.mp hmem
    exact ⟨hk, beq_iff_eq.mp hhash⟩
  refine ⟨?_, ?_⟩
  · exact { hmid with
      referenceEntry := by
        intro r hr
        rcases List.mem_append.mp hr with hr | hr
        · exact hmid.referenceEntry r hr
        · obtain rfl := List.mem_singleton.mp hr
          change ∃ e ∈ mid.entries, e.id = entryId
          rw [hsame.1]
          exact hrecorded.entry
      referenceChunk := by
        intro r hr
        rcases List.mem_append.mp hr with hr | hr
        · exact hmid.referenceChunk r hr
        · obtain rfl := List.mem_singleton.mp hr
          exact ⟨row, hchunk⟩ }
  · have hunpublished := h.unpublished
    unfold Database.ofStatus at hunpublished ⊢
    dsimp only
    rw [hsame.2]
    exact hunpublished

theorem Drafted.hash {entryId : Int} {hash : Bytes} (h : Drafted c.snapshotId db)
    (hdb : setRegularFileHash entryId hash db = (.ok (), db')) : Drafted c.snapshotId db' := by
  obtain ⟨hvalid, -, rfl⟩ := setRegularFileHash_returns hdb
  refine ⟨?_, h.unpublished⟩
  have hconsistent := h.consistent
  have hsame : ∀ e : EntryRow, (if db.hashable entryId e then { e with fileHash := some hash }
      else e).id = e.id ∧ (if db.hashable entryId e then { e with fileHash := some hash }
      else e).snapshotId = e.snapshotId := by
    intro e
    cases db.hashable entryId e <;> exact ⟨rfl, rfl⟩
  have hrows : ∀ {P : EntryRow → Prop}, (∀ e ∈ db.entries, P (if db.hashable entryId e then
      { e with fileHash := some hash } else e)) → ∀ e ∈ db.entries.map (fun e =>
      if db.hashable entryId e then { e with fileHash := some hash } else e), P e := by
    intro P hP e he
    obtain ⟨d, hd, rfl⟩ := List.mem_map.mp he
    exact hP d hd
  exact { hconsistent with
    entries := nodup_key_map hconsistent.entries fun e => (hsame e).1
    entrySnapshot := hrows fun e he => by
      rw [(hsame e).2]
      exact hconsistent.entrySnapshot e he
    referenceEntry := by
      intro r hr
      obtain ⟨e, he, hid⟩ := hconsistent.referenceEntry r hr
      exact ⟨_, List.mem_map_of_mem he, (hsame e).1.trans hid⟩
    entryIds := hrows fun e he => by
      rw [(hsame e).1]
      exact hconsistent.entryIds e he
    hashed := hrows fun e he => by
      cases hhash : db.hashable entryId e with
      | true => exact fun _ _ => hvalid
      | false => exact hconsistent.hashed e he }

theorem carries_drafted : Carries c (Drafted c.snapshotId) where
  entry h hdb := h.entry hdb
  warning h hdb := h.warning hdb
  chunk h hdb := h.chunk hdb
  hash h hdb := h.hash hdb

end LocalVault.Snapshot
