import LocalVault.Proofs.Filing
import LocalVault.Proofs.Loading
import LocalVault.Proofs.Measures
import LocalVault.Proofs.Outcomes
import LocalVault.Proofs.Shape

namespace LocalVault
open Library Snapshot

namespace WellFormedTree

variable {places : List Place} {p : Place}

/-- Each name is one element of the path behind those of the parent. -/
theorem continues (h : WellFormedTree places) (hp : p ∈ places) (hne : p.relativePath ≠ [])
    (hparent : (∀ n ∈ components p.parentPath, FileName n) ∧
      joined (components p.parentPath) = p.parentPath) :
    p.relativePath = joined (components p.parentPath ++ [p.name]) ∧
      ∀ n ∈ components p.parentPath ++ [p.name], FileName n := by
  constructor
  · rw [h.spelled p hp hne]
    split
    · rename_i hroot
      rw [hroot]
      rfl
    · rename_i hbelow
      rw [joined_concat, hparent.2]
      intro hnil
      rw [hnil] at hparent
      exact hbelow hparent.2.symm
  · intro n hn
    rcases List.mem_append.mp hn with hn | hn
    · exact hparent.1 n hn
    · rw [List.mem_singleton.mp hn]
      exact h.named p hp hne

theorem spelling (h : WellFormedTree places) (hp : p ∈ places) :
    (∀ n ∈ components p.relativePath, FileName n) ∧
      joined (components p.relativePath) = p.relativePath := by
  -- along the parents, whose paths are shorter
  induction hlength : p.relativePath.length using Nat.strongRecOn generalizing p with
  | ind length ih =>
    by_cases hroot : p.relativePath = []
    · rw [hroot]
      exact ⟨fun n hn => absurd hn List.not_mem_nil, rfl⟩
    · obtain ⟨d, hd, -, hpath⟩ := h.parent p hp hroot
      have hshorter : d.relativePath.length < length := by
        have hname := List.length_pos_of_ne_nil (h.named p hp hroot).1
        rw [← hlength, hpath, h.spelled p hp hroot]
        split
        · rename_i hnil
          rw [hnil]
          exact hname
        · rw [List.length_append, List.length_cons]
          omega
      have habove := ih _ hshorter hd rfl
      rw [hpath] at habove
      obtain ⟨hjoined, hnames⟩ := h.continues hp hroot habove
      rw [hjoined, components_names hnames]
      exact ⟨hnames, rfl⟩

theorem below (h : WellFormedTree places) (hp : p ∈ places) (hne : p.relativePath ≠ []) :
    components p.relativePath = components p.parentPath ++ [p.name] ∧
      joined (components p.parentPath) = p.parentPath := by
  obtain ⟨d, hd, -, hpath⟩ := h.parent p hp hne
  have habove := h.spelling hd
  rw [hpath] at habove
  obtain ⟨hjoined, hnames⟩ := h.continues hp hne habove
  refine ⟨?_, habove.2⟩
  conv_lhs => rw [hjoined]
  rw [components_names hnames]

theorem components_injective (h : WellFormedTree places) {q : Place} (hp : p ∈ places)
    (hq : q ∈ places) (he : components p.relativePath = components q.relativePath) :
    p.relativePath = q.relativePath := by
  rw [← (h.spelling hp).2, he, (h.spelling hq).2]

/-- The entries below the root, by the names on their paths. -/
theorem branching (h : WellFormedTree places) :
    Branching (fun p : Place => components p.relativePath) (fun p => p.type == .directory)
      (places.filter (fun p => p.relativePath != [])) where
  distinct := by
    have hsub : (places.filter (fun p => p.relativePath != [])).Sublist places :=
      List.filter_sublist
    refine List.Nodup.map_on (fun p hp q hq he => ?_) ((List.Nodup.of_map _ h.distinct).sublist hsub)
    exact List.inj_on_of_nodup_map h.distinct (hsub.subset hp) (hsub.subset hq)
      (h.components_injective (hsub.subset hp) (hsub.subset hq) he)
  below p hp hnil := by
    obtain ⟨hp, hne⟩ := List.mem_filter.mp hp
    rw [(h.below hp (by simpa using hne)).1] at hnil
    exact absurd hnil (by simp)
  parent p hp hne := by
    obtain ⟨hp, hroot⟩ := List.mem_filter.mp hp
    have hroot : p.relativePath ≠ [] := by simpa using hroot
    obtain ⟨d, hd, htype, hpath⟩ := h.parent p hp hroot
    rw [(h.below hp hroot).1, List.dropLast_concat] at hne ⊢
    refine ⟨d, List.mem_filter.mpr ⟨hd, ?_⟩, by simpa using htype, congrArg components hpath⟩
    rw [bne_iff_ne, hpath]
    rintro hnil
    rw [hnil] at hne
    exact hne rfl

end WellFormedTree

/-- `list_children` from a path on, through the directories, down to a depth. -/
def walkChildren (db : Database) (id : SnapshotId) : Nat → Bytes →
    Except LocalVaultError (List EntryInfo)
  | 0, _ => .ok []
  | depth + 1, parentPath => do
    let children ← listChildren db id parentPath
    let below ← readRows (fun d => walkChildren db id depth d.relativePath)
      (children.filter (fun d => d.type == .directory))
    .ok (children ++ below.flatten)

namespace Restore

variable {db : Database} {id : SnapshotId}

/-- A complete snapshot whose rows form a tree and can be read. -/
structure TreeShaped (db : Database) (id : SnapshotId) : Prop where
  complete : ∃ s ∈ db.snapshots, s.id = id ∧ s.status = .complete
  tree : WellFormedTree ((db.entriesOf id).map EntryRow.place)
  ranges : ∀ e ∈ db.entriesOf id, InRange e

/-- The entries of a snapshot below its root. -/
def inside (db : Database) (id : SnapshotId) : List EntryInfo :=
  (listed db id).filter (fun e => e.relativePath != [])

/-- The children of a path, in the order of the query. -/
def childrenAt (db : Database) (id : SnapshotId) (p : Path) : List EntryInfo :=
  (byName ((db.entriesOf id).filter (fun e => e.parentPath == joined p && e.relativePath != []))).map
    entryInfo

theorem mem_place {row : EntryRow} (h : row ∈ db.entriesOf id) :
    row.place ∈ (db.entriesOf id).map EntryRow.place := List.mem_map_of_mem h

namespace TreeShaped

theorem listChildren (h : TreeShaped db id) (p : Path) :
    LocalVault.listChildren db id (joined p) = .ok (childrenAt db id p) := by
  have hrows : db.entries.filter (fun e => e.snapshotId == id && e.parentPath == joined p &&
      e.relativePath != [] && db.snapshots.any (fun s => s.id == e.snapshotId && s.status == .complete)) =
      (db.entriesOf id).filter (fun e => e.parentPath == joined p && e.relativePath != []) := by
    unfold Database.entriesOf
    rw [List.filter_filter]
    apply List.filter_congr
    intro e _
    obtain ⟨s, hs, hid, hc⟩ := h.complete
    by_cases he : e.snapshotId = id
    · subst he
      simp only [beq_self_eq_true, Bool.true_and, Bool.and_true]
      have hany : db.snapshots.any (fun s => s.id == e.snapshotId && s.status == .complete) =
          true := List.any_eq_true.mpr ⟨s, hs, by simp [hid, hc]⟩
      rw [hany, Bool.and_true]
    · rw [beq_eq_false_iff_ne.mpr he]
      simp
  unfold LocalVault.listChildren childrenAt
  rw [hrows]
  apply readRows_map
  intro row hm
  exact readEntry_inRange (h.ranges row (List.mem_of_mem_filter ((List.mem_insertionSort _).mp hm)))

theorem branching (h : TreeShaped db id) :
    Branching (fun e : EntryInfo => components e.relativePath) (fun e => e.type == .directory)
      (inside db id) := by
  have hplaces := h.tree.branching
  rw [List.filter_map, Branching.map_iff] at hplaces
  have hperm : ((db.entriesOf id).filter (fun e => e.relativePath != [])).Perm
      ((byRelativePath (db.entriesOf id)).filter (fun e => e.relativePath != [])) :=
    (List.perm_insertionSort _ _).symm.filter _
  unfold inside listed
  rw [List.filter_map, Branching.map_iff]
  exact hplaces.perm hperm

theorem inside_place (h : TreeShaped db id) {e : EntryInfo} (he : e ∈ inside db id) :
    ∃ row ∈ db.entriesOf id, entryInfo row = e ∧ row.relativePath ≠ [] := by
  obtain ⟨he, hne⟩ := List.mem_filter.mp he
  obtain ⟨row, hrow, rfl⟩ := mem_listed.mp he
  exact ⟨row, hrow, rfl, by simpa [entryInfo] using hne⟩

/-- A path that a walk comes to is one of names. -/
theorem met_names (h : TreeShaped db id) {p : Path}
    (hp : Met (fun e : EntryInfo => components e.relativePath) (inside db id) p) :
    components (joined p) = p := by
  rcases hp with rfl | ⟨e, he, rfl⟩
  · rfl
  · obtain ⟨row, hrow, rfl, -⟩ := h.inside_place he
    exact components_names (h.tree.spelling (mem_place hrow)).1

theorem children_perm (h : TreeShaped db id) {p : Path}
    (hp : Met (fun e : EntryInfo => components e.relativePath) (inside db id) p) :
    (childrenAt db id p).Perm
      ((inside db id).filter (fun e => (components e.relativePath).dropLast = p)) := by
  have hrows : (db.entriesOf id).filter (fun e => e.parentPath == joined p && e.relativePath != []) =
      (db.entriesOf id).filter (fun e =>
        decide ((components e.relativePath).dropLast = p) && e.relativePath != []) := by
    apply List.filter_congr
    intro row hrow
    by_cases hne : row.relativePath = []
    · simp [hne]
    · obtain ⟨hcomponents, hparent⟩ := h.tree.below (mem_place hrow) hne
      change components row.relativePath = components row.parentPath ++ [row.name] at hcomponents
      change joined (components row.parentPath) = row.parentPath at hparent
      rw [hcomponents, List.dropLast_concat]
      congr 1
      rw [Bool.eq_iff_iff, beq_iff_eq, decide_eq_true_eq]
      constructor
      · intro he
        rw [he, h.met_names hp]
      · intro he
        rw [← he, hparent]
  have hlisted : (inside db id).filter (fun e => (components e.relativePath).dropLast = p) =
      ((byRelativePath (db.entriesOf id)).filter (fun e =>
        decide ((components e.relativePath).dropLast = p) && e.relativePath != [])).map entryInfo := by
    unfold inside listed
    rw [List.filter_filter, List.filter_map]
    rfl
  rw [hlisted]
  unfold childrenAt byName byRelativePath
  rw [hrows]
  exact ((List.perm_insertionSort _ _).trans ((List.perm_insertionSort _ _).filter _).symm).map _

/-- A walk over the tables is one over the tree. -/
theorem walkChildren_ok (h : TreeShaped db id) (depth : Nat) {p : Path}
    (hp : Met (fun e : EntryInfo => components e.relativePath) (inside db id) p) :
    walkChildren db id depth (joined p) = .ok (Library.walk (childrenAt db id)
      (fun e => components e.relativePath) (fun e => e.type == .directory) depth p) := by
  induction depth generalizing p with
  | zero => rfl
  | succ depth ih =>
    unfold walkChildren
    have hbelow : readRows (fun d => walkChildren db id depth d.relativePath)
        ((childrenAt db id p).filter (fun d => d.type == .directory)) =
        .ok (((childrenAt db id p).filter (fun d => d.type == .directory)).map fun d =>
          Library.walk (childrenAt db id) (fun e => components e.relativePath)
            (fun e => e.type == .directory) depth (components d.relativePath)) := by
      apply readRows_map
      intro d hd
      have hinside := ((mem_children h.branching (fun _ => h.children_perm) hp).mp
        (List.mem_of_mem_filter hd)).1
      obtain ⟨row, hrow, rfl, -⟩ := h.inside_place hinside
      have hdeeper := ih (p := components row.relativePath) (.inr ⟨_, hinside, rfl⟩)
      have hjoined := (h.tree.spelling (mem_place hrow)).2
      change joined (components row.relativePath) = row.relativePath at hjoined
      rw [hjoined] at hdeeper
      exact hdeeper
    exact bind_ok.mpr ⟨_, h.listChildren p, bind_ok.mpr ⟨_, hbelow, rfl⟩⟩

/-- A walk from the root meets every other entry once. -/
theorem walk_inside (h : TreeShaped db id) : ∃ bound, ∀ depth ≥ bound, ∃ met,
    walkChildren db id depth [] = .ok met ∧ met.Perm (inside db id) := by
  refine ⟨((inside db id).map (fun e => (components e.relativePath).length)).sum, fun depth hle => ?_⟩
  refine ⟨_, h.walkChildren_ok depth (.inl rfl), walk_perm h.branching (fun _ => h.children_perm) ?_⟩
  intro e he
  exact (List.single_le_sum (fun _ _ => Nat.zero_le _) _ (List.mem_map_of_mem he)).trans hle

theorem valid (h : TreeShaped db id) : validateEntries (listed db id) = .ok () := by
  obtain ⟨root, hroot, hpath, htype⟩ := h.tree.root
  obtain ⟨row, hrow, rfl⟩ := List.mem_map.mp hroot
  have hpaths : ((listed db id).map EntryInfo.relativePath).Perm
      (((db.entriesOf id).map EntryRow.place).map Place.relativePath) := by
    unfold listed
    rw [List.map_map, List.map_map]
    exact (List.perm_insertionSort _ _).map _
  apply validateEntriesFrom_ok
  · intro e he hne
    obtain ⟨d, hd, rfl⟩ := mem_listed.mp he
    have hsame := List.inj_on_of_nodup_map h.tree.distinct (mem_place hd) hroot
      (Eq.trans hne hpath.symm)
    exact (congrArg Place.type hsame).trans htype
  · intro e he hne
    obtain ⟨d, hd, rfl⟩ := mem_listed.mp he
    exact h.tree.safe d.place (mem_place hd) hne
  · have hcount : ((listed db id).map EntryInfo.relativePath).count [] = 1 := by
      rw [hpaths.count_eq]
      exact List.count_eq_one_of_mem h.tree.distinct (List.mem_map.mpr ⟨_, hroot, hpath⟩)
    rw [List.count, List.countP_map, List.countP_eq_length_filter] at hcount
    rw [Nat.zero_add]
    exact hcount

theorem distinctPaths (h : TreeShaped db id) : DistinctPaths (listed db id) := by
  have hplaces : ((db.entriesOf id).map (fun e => components e.relativePath)).Nodup := by
    have hpaths := h.tree.distinct
    rw [List.map_map] at hpaths
    refine List.Nodup.map_on (fun d hd e he hsame => ?_) (List.Nodup.of_map _ hpaths)
    exact List.inj_on_of_nodup_map hpaths hd he
      (h.tree.components_injective (mem_place hd) (mem_place he) hsame)
  unfold DistinctPaths listed
  rw [List.map_map]
  exact ((List.perm_insertionSort _ _).map _).nodup_iff.mpr hplaces

theorem ancestorClosed (h : TreeShaped db id) : AncestorClosed (listed db id) := by
  intro e he q r hsplit hq hr
  have hinside : e ∈ inside db id := by
    refine List.mem_filter.mpr ⟨he, bne_iff_ne.mpr fun hnil => hq ?_⟩
    rw [hnil] at hsplit
    exact (List.append_eq_nil_iff.mp hsplit.symm).1
  obtain ⟨d, hd, htype, hpath⟩ := h.branching.above hinside hsplit hq hr
  exact ⟨d, List.mem_of_mem_filter hd, beq_iff_eq.mp htype, hpath⟩

/-- A selection of existing safe paths succeeds. -/
theorem selects (h : TreeShaped db id) {requested : List Bytes}
    (hr : ∀ r ∈ requested, isSafeStoredPath r = true ∧ ∃ e ∈ listed db id, e.relativePath = r) :
    ∃ selected, selectEntries (listed db id) requested = .ok selected := by
  have hvalid : ∀ e ∈ listed db id, ValidEntry e := validateEntriesFrom_valid h.valid
  obtain ⟨selected, hselected, -⟩ := selectEntries_ok hvalid h.distinctPaths h.ancestorClosed
    (fun r hm => (hr r hm).imp_right fun ⟨e, he, hpath⟩ => ⟨e, he, congrArg components hpath⟩)
  exact ⟨selected, hselected⟩

end TreeShaped

end Restore

namespace Snapshot
open Repository Restore

variable {c : Config} {x : Externals} {db db' : Database} {ps : List ProcessedEntry}
  {p : ProcessedEntry} {totals : SnapshotTotals} {objects : Objects}

/-- Where an entry that is filed stands. -/
def ProcessedEntry.place? (p : ProcessedEntry) : Option Place :=
  match p.value with
  | .entry e => some e.place
  | .warning _ => none

/-- Reading a file does not move it; only files are lost. -/
theorem Result.place (h : Result c x p) :
    p.place? = p.origin.scanned?.map ScannedEntry.place ∨
      p.place? = none ∧ ∃ e, p.origin = .entry e ∧ e.type = .regularFile := by
  unfold ProcessedEntry.place?
  cases h with
  | passed hj hp =>
    left
    have hv : p.value = p.origin := by
      conv_lhs => rw [hp]
      rfl
    rw [hv]
    cases p.origin <;> rfl
  | stored e a refs ho ht ha hv hsame hrefs hspool hsize hhash hcount htries hsource =>
    left
    rw [hv, ho]
    rfl
  | unread e w ho ht hv hpath hrefs ha htries hsource =>
    right
    rw [hv]
    exact ⟨rfl, e, ho, ht⟩

theorem MadeOf.places (h : MadeOf x c db ps) :
    (db.entriesOf c.snapshotId).map EntryRow.place = ps.filterMap ProcessedEntry.place? := by
  have hfiled := congrArg (List.map (fun filed => filed.1.place)) h.filed.entries
  unfold Database.filed at hfiled
  rw [List.map_map, List.map_filterMap] at hfiled
  refine Eq.trans ?_ (hfiled.trans (List.filterMap_congr fun p _ => ?_))
  · exact List.map_congr_left fun _ _ => rfl
  · unfold ProcessedEntry.filed? ProcessedEntry.place?
    cases p.value <;> rfl

theorem filterMap_sublist {α β : Type} {f g : α → Option β} {l : List α}
    (h : ∀ a ∈ l, f a = none ∨ f a = g a) : (l.filterMap f).Sublist (l.filterMap g) := by
  induction l with
  | nil => exact .slnil
  | cons a l ih =>
    have hrest := ih fun b hb => h b (List.mem_cons_of_mem _ hb)
    rcases h a List.mem_cons_self with hnone | hsame
    · rw [List.filterMap_cons_none hnone]
      cases hg : g a with
      | none => rwa [List.filterMap_cons_none hg]
      | some b =>
        rw [List.filterMap_cons_some hg]
        exact hrest.cons b
    · cases hg : g a with
      | none => rwa [List.filterMap_cons_none hg, List.filterMap_cons_none (hsame.trans hg)]
      | some b =>
        rw [List.filterMap_cons_some hg, List.filterMap_cons_some (hsame.trans hg)]
        exact hrest.cons₂ b

/-- Whatever is lost on the way of a tree to its rows, they form a tree. -/
theorem MadeOf.tree (h : MadeOf x c db ps)
    (ht : WellFormedTree ((c.scan.filterMap FileJob.scanned?).map ScannedEntry.place)) :
    WellFormedTree ((db.entriesOf c.snapshotId).map EntryRow.place) := by
  have hscanned : ((c.scan.filterMap FileJob.scanned?).map ScannedEntry.place).Perm
      (ps.filterMap (fun p => p.origin.scanned?.map ScannedEntry.place)) := by
    rw [List.map_filterMap]
    refine (h.items.symm.filterMap _).trans (List.Perm.of_eq ?_)
    rw [List.filterMap_map]
    rfl
  have hsub := filterMap_sublist (l := ps) fun p hp =>
    ((h.results p hp).place.imp_right And.left).symm
  rw [h.places]
  refine ht.thinned (hsub.subperm.trans hscanned.symm.subperm) fun place hplace hdirectory => ?_
  obtain ⟨p, hp, hsome⟩ := List.mem_filterMap.mp (hscanned.mem_iff.mp hplace)
  refine List.mem_filterMap.mpr ⟨p, hp, ?_⟩
  rcases (h.results p hp).place with hkept | ⟨-, e, ho, hfile⟩
  · exact hkept.trans hsome
  · rw [ho] at hsome
    cases hsome
    rw [show e.place.type = e.type from rfl, hfile] at hdirectory
    cases hdirectory

theorem Recorded.bounded (h : Recorded c objects db ps db' totals) :
    ∀ p ∈ ps, ∀ e, p.value = .entry e → e.logicalSize ≤ maximumInt64 := by
  have hsnoc : ∀ {ps : List ProcessedEntry} {p : ProcessedEntry},
      (∀ q ∈ ps, ∀ e, q.value = .entry e → e.logicalSize ≤ maximumInt64) →
      (∀ e, p.value = .entry e → e.logicalSize ≤ maximumInt64) →
      ∀ q ∈ ps ++ [p], ∀ e, q.value = .entry e → e.logicalSize ≤ maximumInt64 := by
    intro ps p hps hp q hq
    rcases List.mem_append.mp hq with hq | hq
    · exact hps q hq
    · rw [List.mem_singleton.mp hq]
      exact hp
  induction h with
  | nil => exact fun p hp => absurd hp List.not_mem_nil
  | warning p w h hv hdb ih =>
    refine hsnoc ih fun e he => ?_
    rw [hv] at he
    cases he
  | entry p e entryId h hv ht hdb ih =>
    refine hsnoc ih fun e' he => ?_
    rw [hv] at he
    cases he
    exact (insertEntry_returns hdb).1
  | file p e entryId refs h hv ht hrefs hdb hr hh hmax ih =>
    refine hsnoc ih fun e' he => ?_
    rw [hv] at he
    cases he
    exact (insertEntry_returns hdb).1

/-- The modes of files are numbers of 32 bits. -/
def FileJob.Narrow : FileJob → Prop
  | .entry e => e.posixMode ≤ maximumUint32
  | .warning _ => True

instance : DecidablePred FileJob.Narrow
  | .entry _ => inferInstanceAs (Decidable (_ ≤ _))
  | .warning _ => inferInstanceAs (Decidable True)

theorem MadeOf.ranges (h : MadeOf x c db ps)
    (hsizes : ∀ p ∈ ps, ∀ e, p.value = .entry e → e.logicalSize ≤ maximumInt64)
    (hmodes : ∀ p ∈ ps, p.value.Narrow) : ∀ row ∈ db.entriesOf c.snapshotId, InRange row := by
  intro row hrow
  have hfiled : (row.unnumbered, (db.entryChunksOf row.id).map EntryChunkRow.unnumbered) ∈
      db.filed c.snapshotId := List.mem_map_of_mem hrow
  rw [h.filed.entries] at hfiled
  obtain ⟨p, hp, hsome⟩ := List.mem_filterMap.mp hfiled
  have hsize := hsizes p hp
  have hmode := hmodes p hp
  unfold ProcessedEntry.filed? at hsome
  cases hv : p.value with
  | warning w =>
    rw [hv] at hsome
    cases hsome
  | entry e =>
    rw [hv] at hsome hmode
    have hlimit := hsize e hv
    have hnarrow : e.posixMode ≤ maximumUint32 := hmode
    have hunnumbered := congrArg Prod.fst (Option.some.inj hsome)
    have hlogical : row.logicalSize = e.logicalSize :=
      (congrArg EntryRow.logicalSize hunnumbered).symm
    have hposix : row.posixMode = e.posixMode := (congrArg EntryRow.posixMode hunnumbered).symm
    have hwindows : row.windowsAttributes = none :=
      (congrArg EntryRow.windowsAttributes hunnumbered).symm
    refine ⟨by omega, by omega, fun a ha => ?_⟩
    rw [hwindows] at ha
    cases ha

/-- A result is as narrow as the scan and the attempts it comes from. -/
theorem Result.narrow (h : Result c x p) (ho : p.origin.Narrow)
    (ha : p.Seen (fun m => m.posixMode ≤ maximumUint32)) : p.value.Narrow := by
  cases h with
  | passed hj hp =>
    rw [hp]
    exact ho
  | stored e a refs _ ht hacc hv hsame hrefs hspool hsize hhash hcount htries hsource =>
    rw [hv]
    exact ha a hacc
  | unread e w _ ht hv hpath hrefs hacc htries hsource =>
    rw [hv]
    trivial

/-- The scan that a call meets is one of `scan_streaming`. -/
structure Call.Scans (call : Call) (host : ScanHost) (source : Source) (options : FileScannerOptions) :
    Prop where
  jobs : call.scan = (scanStreaming host source options .start).2.jobs
  ended : call.scanError =
    match (scanStreaming host source options .start).1 with
    | .ok () => none
    | .error e => some e

/-- What a complete snapshot shows of its tree. -/
structure ShowsTree (db : Database) (id : SnapshotId) : Prop where
  tree : WellFormedTree ((db.entriesOf id).map EntryRow.place)
  listing : ∃ entries, listEntries db id = .ok entries ∧ validateEntries entries = .ok () ∧
    (∀ requested, (∀ r ∈ requested, isSafeStoredPath r = true ∧ ∃ e ∈ entries, e.relativePath = r) →
      ∃ selected, selectEntries entries requested = .ok selected) ∧
    ∃ bound, ∀ depth ≥ bound, ∃ met, walkChildren db id depth [] = .ok met ∧
      met.Perm (entries.filter (fun e => e.relativePath != []))

/-- Whatever a call leaves out, its snapshot is a tree once it is complete: its paths are what
`validate_entries` asks for, no selection of them misses a directory, and a walk over the children
meets each entry below the root once. -/
theorem snapshot_tree {o : Outside} {r : Opened} {engine : Engine} {call : Call}
    {before begun after : Session} {out : Except Stop SnapshotResult} {host : ScanHost}
    {source : Source} {options : FileScannerOptions} (hdb : before.vault.db.Consistent)
    (hopen : openSnapshot o r engine call before = (.ok c, begun))
    (h : createSnapshot o r x engine call before = (out, after))
    (hcomplete : after.vault.db.ofStatus c.snapshotId [.complete] = true)
    (hscan : call.Scans host source options) (hnarrow : ∀ job ∈ call.scan, job.Narrow)
    (hsees : ∀ l ∈ call.schedule, l.Sees (fun m => m.posixMode ≤ maximumUint32)) :
    ShowsTree after.vault.db c.snapshotId := by
  obtain ⟨result, rfl⟩ := createSnapshot_complete hdb hopen h hcomplete
  have hmade := createSnapshot_made hdb hopen h
  obtain ⟨hpublished, -, hafter⟩ := createSnapshot_returns hopen h
  obtain ⟨old, hentered⟩ := openSnapshot_entered hdb hopen
  obtain ⟨startedAtNs, hconfig⟩ := hentered.config
  have hjobs : c.scan = call.scan := by rw [hconfig]; rfl
  have herror : c.scanError = call.scanError := by rw [hconfig]; rfl
  obtain ⟨ls, hsub, hrun⟩ := follow_sublist (c := c) (x := x) call.schedule
    (State.start c begun.vault call.externalStop)
  change run c x _ ls = some (call.final x c begun.vault) at hrun
  generalize call.final x c begun.vault = t at *
  have hsettles : t.main.settles = true := by rw [hpublished]; rfl
  obtain ⟨committed, now, hrecorded, -⟩ := run_published hrun hpublished
  have hseen := run_seen (fun l hl => hsees l (hsub.subset hl)) hrun hsettles
  have hmodes : ∀ p ∈ t.handled, p.value.Narrow := by
    intro p hp
    refine (hmade.results p hp).narrow (hnarrow p.origin ?_) (hseen p hp)
    rw [← hjobs]
    exact hmade.items.mem_iff.mp (List.mem_map_of_mem hp)
  have hscanned : WellFormedTree ((c.scan.filterMap FileJob.scanned?).map ScannedEntry.place) := by
    have hnone := hscan.ended
    rw [← herror, run_scanned hrun hsettles] at hnone
    rw [hjobs, hscan.jobs]
    rcases hstream : scanStreaming host source options .start with ⟨ended, scanned⟩
    rw [hstream] at hnone
    cases ended with
    | error e => cases hnone
    | ok =>
      obtain ⟨context, root, hbegun, hscanned, -⟩ := scanStreaming_returns hstream
      rw [hscanned]
      exact jobsOf_tree hbegun
  have hshaped : TreeShaped after.vault.db c.snapshotId := by
    obtain ⟨row, hrow, hid, hstatus⟩ := Database.ofStatus_iff.mp hcomplete
    exact ⟨⟨row, hrow, hid, List.mem_singleton.mp hstatus⟩, hmade.tree hscanned,
      hmade.ranges hrecorded.bounded hmodes⟩
  exact ⟨hshaped.tree, _, listEntries_listed hshaped.complete hshaped.ranges, hshaped.valid,
    fun _ hr => hshaped.selects hr, hshaped.walk_inside⟩

/-- A directory with a file in it. -/
def folderTree : SourceTree :=
  ⟨.cons (ascii "a") (plain .regular) .nil .nil, by decide, by decide⟩

def folderSource : Source := ⟨ascii "/s", .ok [], plain .directory, true, .absent, folderTree⟩

/-- Every thread goes on where it can, one after the other. -/
def folderRound : List Label :=
  [.main .next, .main (.ticks 5), .scanner .next, .worker 0 .next,
    .worker 0 (.observes ⟨3, 0, 0, 1, 2, 0⟩), .worker 0 (.reads (ascii "abc")), .writer .next,
    .writer (.ticks 1), .progress .next]

def folderCall : Call :=
  { steadyCall with
    scan := (scanStreaming collecting folderSource everything .start).2.jobs
    schedule := (List.replicate 40 folderRound).flatten }

theorem snapshot_tree_folder : ∃ c begun out after,
    openSnapshot sampleOutside sampleOpened sampleEngine folderCall sampleSession = (.ok c, begun) ∧
    createSnapshot sampleOutside sampleOpened sampleExternals sampleEngine folderCall sampleSession =
      (out, after) ∧
    after.vault.db.ofStatus c.snapshotId [.complete] = true ∧
    ShowsTree after.vault.db c.snapshotId := by
  have hrun : gives (fun c _ => (createSnapshot sampleOutside sampleOpened sampleExternals sampleEngine
        folderCall sampleSession).2.vault.db.ofStatus c.snapshotId [.complete])
      (openSnapshot sampleOutside sampleOpened sampleEngine folderCall sampleSession) = true := by
    decide +kernel
  have hscan : folderCall.Scans collecting folderSource everything := ⟨rfl, by decide +kernel⟩
  have hnarrow : ∀ job ∈ folderCall.scan, job.Narrow := by decide +kernel
  have hsees : ∀ l ∈ folderCall.schedule, l.Sees (fun m => m.posixMode ≤ maximumUint32) := by
    have hround : ∀ l ∈ folderRound, l.Sees (fun m => m.posixMode ≤ maximumUint32) := by
      simp [folderRound, List.forall_mem_cons, Label.Sees]
    intro l hl
    obtain ⟨labels, hlabels, hl⟩ := List.mem_flatten.mp hl
    rw [List.eq_of_mem_replicate hlabels] at hl
    exact hround l hl
  obtain ⟨c, begun, hopen, hcomplete⟩ := gives_iff.mp hrun
  obtain ⟨out, after, hcreate⟩ : ∃ out after, createSnapshot sampleOutside sampleOpened
      sampleExternals sampleEngine folderCall sampleSession = (out, after) :=
    ⟨_, _, Prod.mk.eta.symm⟩
  rw [hcreate] at hcomplete
  exact ⟨c, begun, out, after, hopen, hcreate, hcomplete,
    snapshot_tree empty_consistent hopen hcreate hcomplete hscan hnarrow hsees⟩

end Snapshot

end LocalVault
