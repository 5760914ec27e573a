import LocalVault.Proofs.Carrying
import LocalVault.Proofs.Shown
import LocalVault.Proofs.Writing

namespace LocalVault
open Library

variable {db db' mid : Database} {id j : SnapshotId}

theorem entriesOf_other {rows : List EntryRow} (hrows : ∀ e ∈ rows, e.snapshotId = id) (hj : j ≠ id) :
    (db.entries ++ rows).filter (fun e => e.snapshotId == j) = db.entriesOf j := by
  have hnone : rows.filter (fun e => e.snapshotId == j) = [] := by
    rw [List.filter_eq_nil_iff]
    intro e he
    simp [hrows e he, hj.symm]
  rw [List.filter_append, hnone, List.append_nil]
  rfl

/-- A reference to an entry of one snapshot is none of another. -/
theorem referencesOf_other (hkeys : (db.entries.map EntryRow.id).Nodup) {entry : EntryRow}
    (hentry : entry ∈ db.entries) (hj : j ≠ entry.snapshotId) {row : EntryChunkRow}
    (hrow : row.entryId = entry.id) :
    (db.entryChunks ++ [row]).filter (fun c => (db.entriesOf j).any (fun e => e.id == c.entryId)) =
      db.referencesOf j := by
  have hnone : (db.entriesOf j).any (fun e => e.id == row.entryId) = false := by
    rw [List.any_eq_false]
    intro e he heq
    obtain ⟨he, hid⟩ := List.mem_filter.mp he
    obtain rfl := List.inj_on_of_nodup_map hkeys he hentry ((beq_iff_eq.mp heq).trans hrow)
    exact hj (beq_iff_eq.mp hid).symm
  rw [List.filter_append, List.filter_singleton, hnone]
  exact List.append_nil _

namespace Snapshot
open Repository

variable {c : Config} {x : Externals} {s t : State} {v : Vault} {J : Database → Prop}

/-- An entry of the snapshot that is being made. -/
def Own (c : Config) (db : Database) (entryId : Int) : Prop :=
  ∃ e ∈ db.entries, e.id = entryId ∧ e.snapshotId = c.snapshotId

theorem leaves_entry {e : ScannedEntry} {entryId : Int}
    (h : insertEntry c.snapshotId e db = (.ok entryId, db')) : Leaves c.snapshotId db db' := by
  obtain ⟨_, _, _, rfl, rfl⟩ := insertEntry_returns h
  have hentries : ∀ j, j ≠ c.snapshotId → Database.entriesOf { db with
      entries := db.entries ++ [EntryRow.ofScanned (db.lastEntryId + 1) c.snapshotId e e.logicalSize]
      lastEntryId := db.lastEntryId + 1 } j = db.entriesOf j := by
    intro j hj
    have hown : ∀ d ∈ [EntryRow.ofScanned (db.lastEntryId + 1) c.snapshotId e e.logicalSize],
        d.snapshotId = c.snapshotId := fun d hd => by rw [List.mem_singleton.mp hd]; rfl
    exact entriesOf_other hown hj
  refine ⟨fun _ _ => rfl, hentries, fun j hj => ?_, fun _ _ => rfl⟩
  unfold Database.referencesOf
  rw [hentries j hj]

theorem leaves_warning {w : ScanWarning} (h : insertWarning c.snapshotId w db = (.ok (), db')) :
    Leaves c.snapshotId db db' := by
  obtain rfl := insertWarning_returns h
  refine ⟨fun _ _ => rfl, fun _ _ => rfl, fun _ _ => rfl, fun j hj => ?_⟩
  unfold Database.warningsOf
  dsimp only
  rw [List.filter_append, List.filter_singleton, beq_eq_false_iff_ne.mpr hj.symm]
  exact List.append_nil _

theorem leaves_chunk {objects : Objects} {entryId now : Int} {ref : ChunkReferenceRecord}
    (hkeys : db.Keyed) (hown : Own c db entryId)
    (h : recordChunk c objects entryId ref now db = (.ok (), db')) : Leaves c.snapshotId db db' := by
  obtain ⟨mid, hensured, rfl⟩ := (recordChunk_returns h).ensured
  obtain ⟨e, he, hid, hsnapshot⟩ := hown
  have hmid : mid.snapshots = db.snapshots ∧ mid.entries = db.entries ∧
      mid.entryChunks = db.entryChunks ∧ mid.warnings = db.warnings := by
    rcases hensured.rows with rfl | ⟨-, rfl⟩ <;> exact ⟨rfl, rfl, rfl, rfl⟩
  obtain ⟨hrows, hentries, hchunks, hwarnings⟩ := hmid
  refine ⟨fun j _ => ?_, fun j _ => ?_, fun j hj => ?_, fun j _ => ?_⟩
  · unfold Database.completeRow
    rw [← hrows]
  · unfold Database.entriesOf
    rw [← hentries]
  · unfold Database.referencesOf Database.entriesOf
    dsimp only
    rw [hentries, hchunks]
    exact referencesOf_other hkeys.entries he (hsnapshot ▸ hj) hid.symm
  · unfold Database.warningsOf
    rw [← hwarnings]

theorem leaves_hash {entryId : Int} {hash : Bytes} (hkeys : db.Keyed) (hown : Own c db entryId)
    (h : setRegularFileHash entryId hash db = (.ok (), db')) : Leaves c.snapshotId db db' := by
  obtain ⟨-, -, rfl⟩ := setRegularFileHash_returns h
  obtain ⟨own, howns, hid, hsnapshot⟩ := hown
  have hentries : ∀ j, j ≠ c.snapshotId → Database.entriesOf { db with
      entries := db.entries.map (fun e =>
        if db.hashable entryId e then { e with fileHash := some hash } else e) } j =
      db.entriesOf j := by
    intro j hj
    unfold Database.entriesOf
    dsimp only
    rw [List.filter_map]
    have hsame : ((fun e : EntryRow => e.snapshotId == j) ∘ fun e =>
        if db.hashable entryId e then { e with fileHash := some hash } else e) =
        fun e => e.snapshotId == j := by
      funext e
      dsimp only [Function.comp_apply]
      split <;> rfl
    rw [hsame]
    refine (List.map_congr_left fun e he => ?_).trans (List.map_id _)
    obtain ⟨he, hej⟩ := List.mem_filter.mp he
    refine if_neg fun hhash => hj ?_
    have heid : e.id = entryId := by
      simp only [Database.hashable, Bool.and_eq_true, beq_iff_eq] at hhash
      exact hhash.1.1.1
    obtain rfl := List.inj_on_of_nodup_map hkeys.entries he howns (heid.trans hid.symm)
    exact (beq_iff_eq.mp hej).symm.trans hsnapshot
  refine ⟨fun _ _ => rfl, hentries, fun j hj => ?_, fun _ _ => rfl⟩
  unfold Database.referencesOf
  rw [hentries j hj]

/-- A property of the tables that the writer keeps, as long as it refers to its own entries. -/
structure Minds (c : Config) (J : Database → Prop) : Prop where
  entry : ∀ {db db' : Database} {e : ScannedEntry} {id : Int}, J db →
    insertEntry c.snapshotId e db = (.ok id, db') → J db'
  warning : ∀ {db db' : Database} {w : ScanWarning}, J db →
    insertWarning c.snapshotId w db = (.ok (), db') → J db'
  chunk : ∀ {db db' : Database} {objects : Objects} {entryId now : Int} {ref : ChunkReferenceRecord},
    J db → Own c db entryId → recordChunk c objects entryId ref now db = (.ok (), db') → J db'
  hash : ∀ {db db' : Database} {entryId : Int} {hash : Bytes}, J db → Own c db entryId →
    setRegularFileHash entryId hash db = (.ok (), db') → J db'

theorem Carries.minds (h : Carries c J) : Minds c J :=
  ⟨h.entry, h.warning, fun hj _ hdb => h.chunk hj hdb, fun hj _ hdb => h.hash hj hdb⟩

theorem Minds.and {K : Database → Prop} (hJ : Minds c J) (hK : Minds c K) :
    Minds c (fun db => J db ∧ K db) where
  entry h hdb := ⟨hJ.entry h.1 hdb, hK.entry h.2 hdb⟩
  warning h hdb := ⟨hJ.warning h.1 hdb, hK.warning h.2 hdb⟩
  chunk h hown hdb := ⟨hJ.chunk h.1 hown hdb, hK.chunk h.2 hown hdb⟩
  hash h hown hdb := ⟨hJ.hash h.1 hown hdb, hK.hash h.2 hown hdb⟩

/-- Everything the writer does is about its own snapshot. -/
theorem minds_neighbours {old : Database} :
    Minds c (fun db => Drafted c.snapshotId db ∧ Leaves c.snapshotId old db) where
  entry h hdb := ⟨h.1.entry hdb, h.2.trans (leaves_entry hdb)⟩
  warning h hdb := ⟨h.1.warning hdb, h.2.trans (leaves_warning hdb)⟩
  chunk h hown hdb := ⟨h.1.chunk hdb, h.2.trans (leaves_chunk h.1.consistent.toKeyed hown hdb)⟩
  hash h hown hdb := ⟨h.1.hash hdb, h.2.trans (leaves_hash h.1.consistent.toKeyed hown hdb)⟩

/-- The chunks table grows at its end only. -/
theorem carries_chunks {rows : List ChunkRow} : Carries c (fun db => rows <+: db.chunks) where
  entry h hdb := by
    obtain ⟨_, _, _, _, rfl⟩ := insertEntry_returns hdb
    exact h
  warning h hdb := by
    obtain rfl := insertWarning_returns hdb
    exact h
  chunk h hdb := by
    obtain ⟨mid, hensured, rfl⟩ := (recordChunk_returns hdb).ensured
    rcases hensured.rows with rfl | ⟨_, rfl⟩
    · exact h
    · exact h.trans (List.prefix_append _ _)
  hash h hdb := by
    obtain ⟨_, _, rfl⟩ := setRegularFileHash_returns hdb
    exact h

/-- The writer hands out no snapshot identifier. -/
theorem carries_lastSnapshotId {last : Nat} : Carries c (fun db => db.lastSnapshotId = last) where
  entry h hdb := by
    obtain ⟨_, _, _, _, rfl⟩ := insertEntry_returns hdb
    exact h
  warning h hdb := by
    obtain rfl := insertWarning_returns hdb
    exact h
  chunk h hdb := by
    obtain ⟨mid, hensured, rfl⟩ := (recordChunk_returns hdb).ensured
    rcases hensured.rows with rfl | ⟨_, rfl⟩ <;> exact h
  hash h hdb := by
    obtain ⟨_, _, rfl⟩ := setRegularFileHash_returns hdb
    exact h

/-- The writer refers to the entry it has inserted. -/
def Aimed (c : Config) (s : State) : Prop :=
  ∀ p id rest b, s.writer = .referring p id rest → s.batch = some b → Own c b.db id

theorem Aimed.quiet (h : ∀ p id rest, t.writer ≠ .referring p id rest) : Aimed c t :=
  fun p id rest _ hw => absurd hw (h p id rest)

theorem Aimed.same (h : Aimed c s) (hw : t.writer = s.writer) (hb : t.batch = s.batch) :
    Aimed c t := by
  intro p id rest b hp hbatch
  exact h p id rest b (hw ▸ hp) (hb ▸ hbatch)

theorem WriterMove.aimed (hm : WriterMove c s t) (h : Aimed c s) : Aimed c t := by
  cases hm with
  | begins p e b id db references hw hb hv ht hdb hrefs hmax =>
    rintro _ _ _ _ hnow hbatch
    cases hnow
    cases hbatch
    obtain ⟨_, _, _, rfl, rfl⟩ := insertEntry_returns hdb
    exact ⟨_, List.mem_append_right _ (List.mem_singleton.mpr rfl), rfl, rfl⟩
  | refers p id ref rest b db totals now hw hb hdb ht =>
    rintro _ _ _ _ hnow hbatch
    cases hnow
    cases hbatch
    obtain ⟨mid, hensured, rfl⟩ := (recordChunk_returns hdb).ensured
    have hown := h p id _ b hw hb
    rcases hensured.rows with rfl | ⟨_, rfl⟩ <;> exact hown
  | shuts f stage hw =>
    refine .quiet fun p id rest => ?_
    cases stage <;> exact nofun
  | warns p w b b' pc hw hb hv hdb hr hpc =>
    refine .quiet fun p id rest => ?_
    rcases hpc with rfl | rfl <;> exact nofun
  | inserts p e b b' id pc hw hb hv ht hdb hr hpc =>
    refine .quiet fun p id rest => ?_
    rcases hpc with rfl | rfl <;> exact nofun
  | hashes p id b b' pc hw hb hdb hr hpc =>
    refine .quiet fun p id rest => ?_
    rcases hpc with rfl | rfl <;> exact nofun
  | skips last b hw hb hr =>
    refine .quiet fun p id rest => ?_
    cases last <;> exact nofun
  | commits last b hw hb hr hs =>
    refine .quiet fun p id rest => ?_
    cases last <;> exact nofun
  | _ => exact .quiet fun p id rest => nofun

theorem MainMove.aimed (hm : MainMove c s t) (h : Aimed c s) : Aimed c t := by
  have hshut : ∀ {f stage} {pc : MainPc}, Aimed c { s.shut f stage with main := pc } := by
    intro f stage pc
    have hu : Untouched s (s.shut f stage) := shut_untouched
    exact h.same hu.writer hu.batch
  cases hm with
  | creates n hp =>
    have hcreates := create_creates (c := c) (s := s) n
    generalize s.create c n = u at hcreates
    cases hcreates with
    | writer => exact .quiet fun p id rest => nofun
    | _ => exact h
  | cancels f stage hp => exact hshut
  | shuts f stage hp => exact hshut
  | _ => exact h

theorem Move.aimed (hm : Move c x s t) (h : Aimed c s) : Aimed c t := by
  cases hm with
  | scanner hm => exact h.same hm.frame.writer hm.frame.batch
  | worker i hi hm => exact h.same hm.frame.writer hm.frame.batch
  | writer hm => exact hm.aimed h
  | main hm => exact hm.aimed h
  | other hm => exact h.same hm.frame.writer hm.frame.batch

theorem WriterMove.minded (hJ : Minds c J) (hm : WriterMove c s t) (hp : s.main ≠ .published)
    (ha : Aimed c s) (h : Carried c J s) : Carried c J t := by
  have hone : ∀ {u : State} {b : Batch}, u.vault.db = s.vault.db → u.main = s.main →
      u.batch = some b → J b.db → Carried c J u := by
    intro u b hdb hm hb hj
    exact h.batched hdb hm hb fun b' hb' => Option.some.inj hb' ▸ hj
  have hnone : ∀ {u : State}, u.vault.db = s.vault.db → u.main = s.main → u.batch = none →
      Carried c J u := fun hdb hm hb => h.batched hdb hm hb nofun
  cases hm with
  | starts hw => exact hone rfl rfl rfl (h.vault hp)
  | fails f totals hf hw => exact hnone rfl rfl rfl
  | pops p processed hw hq => exact h.same rfl rfl Iff.rfl
  | ended hw hq => exact h.same rfl rfl Iff.rfl
  | warns p w b b' pc hw hb hv hdb hr hpc => exact hone rfl rfl rfl (hJ.warning (h.batch b hb) hdb)
  | inserts p e b b' id pc hw hb hv ht hdb hr hpc =>
    exact hone rfl rfl rfl (hJ.entry (h.batch b hb) hdb)
  | begins p e b id db references hw hb hv ht hdb hrefs hmax =>
    exact hone rfl rfl rfl (hJ.entry (h.batch b hb) hdb)
  | refers p id ref rest b db totals now hw hb hdb ht =>
    exact hone rfl rfl rfl (hJ.chunk (h.batch b hb) (ha p id _ b hw hb) hdb)
  | hashes p id b b' pc hw hb hdb hr hpc =>
    exact hone rfl rfl rfl (hJ.hash (h.batch b hb) (ha p id _ b hw hb) hdb)
  | skips last b hw hb hr =>
    cases last with
    | true => exact hnone rfl rfl rfl
    | false => exact hone rfl rfl rfl (h.batch b hb)
  | commits last b hw hb hr hs =>
    refine ⟨fun _ => h.batch b hb, fun hpub => absurd hpub hp, ?_⟩
    cases last with
    | true => exact nofun
    | false => exact fun b' hb' => Option.some.inj hb' ▸ h.batch b hb
  | breaks b e hb hr last hw => exact ⟨fun _ => h.batch b hb, fun hpub => absurd hpub hp, nofun⟩
  | abandons hw hs => exact hnone rfl rfl rfl
  | concludes hw hs => exact h.same rfl rfl Iff.rfl
  | shuts f stage hw =>
    have hu : Untouched s (s.shut f stage) := shut_untouched
    exact h.same (congrArg Vault.db hu.vault) hu.batch (by rw [← hu.main])

theorem Move.minded (hJ : Minds c J) (hm : Move c x s t) (ho : Orderly c s) (ha : Aimed c s)
    (h : Carried c J s) : Carried c J t := by
  cases hm with
  | scanner hm => exact h.same (by rw [hm.frame.vault]) hm.frame.batch (by rw [hm.frame.main])
  | worker i hi hm => exact h.same hm.frame.db hm.frame.batch (by rw [hm.frame.main])
  | writer hm =>
    refine hm.minded hJ (fun hp => ?_) ha h
    -- nobody writes behind the publication
    have hover := (ho.standing.alone (settles_joined (by rw [hp]; rfl))).writer
    rw [hm.running.1] at hover
    cases hover
  | main hm => exact hm.carried h
  | other hm => exact h.same (by rw [hm.frame.vault]) hm.frame.batch (by rw [hm.frame.main])

/-- What a run keeps whose writer minds its own snapshot. -/
theorem run_minded (hJ : Minds c J) (hstart : J v.db) {e : Bool} {ls : List Label}
    (h : run c x (State.start c v e) ls = some s) : Carried c J s := by
  refine (run_invariant (P := fun s => Orderly c s ∧ Aimed c s ∧ Carried c J s)
    (fun s t hs hm => ⟨hm.orderly hs.1, hm.aimed hs.2.1, hm.minded hJ hs.1 hs.2.1 hs.2.2⟩)
    ⟨orderly_start, .quiet fun _ _ _ => nofun, ?_⟩ h).2.2
  exact ⟨fun _ => hstart, nofun, nofun⟩

/-- The files of a repository while a snapshot is made. -/
structure Meanwhile (v w : Vault) : Prop where
  objects : Grows v.objects w.objects
  temporary : w.temporary = v.temporary

theorem Move.meanwhile (hm : Move c x s t) : Meanwhile s.vault t.vault := by
  have hsame : ∀ {w : Vault}, w = s.vault → Meanwhile s.vault w := by
    rintro w rfl
    exact ⟨Grows.refl, rfl⟩
  cases hm with
  | scanner hm => exact hsame hm.frame.vault
  | worker i hi hm => exact ⟨hm.grows, hm.frame.temporary⟩
  | writer hm =>
    cases hm with
    | commits => exact ⟨Grows.refl, rfl⟩
    | breaks => exact ⟨Grows.refl, rfl⟩
    | shuts f stage hw => exact hsame shut_untouched.vault
    | _ => exact hsame rfl
  | main hm =>
    cases hm with
    | creates n hp =>
      have hcreates := create_creates (c := c) (s := s) n
      generalize s.create c n = u at hcreates
      cases hcreates <;> exact hsame rfl
    | cancels f stage hp => exact hsame shut_untouched.vault
    | shuts f stage hp => exact hsame shut_untouched.vault
    | publishes => exact ⟨Grows.refl, rfl⟩
    | _ => exact hsame rfl
  | other hm => exact hsame hm.frame.vault

theorem run_meanwhile {e : Bool} {ls : List Label} (h : run c x (State.start c v e) ls = some s) :
    Meanwhile v s.vault :=
  run_invariant (P := fun s => Meanwhile v s.vault)
    (fun _ _ hs hm => ⟨hs.objects.trans hm.meanwhile.objects,
      hm.meanwhile.temporary.trans hs.temporary⟩) ⟨Grows.refl, rfl⟩ h

end Snapshot
end LocalVault
