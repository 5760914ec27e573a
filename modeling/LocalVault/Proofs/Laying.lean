import LocalVault.Proofs.Layout

namespace LocalVault.Repository
open Library Library.FileTree Library.Program

theorem wp_any {σ ε α : Type} {m : Program σ ε α} {s : σ} :
    m.wp (fun _ _ => True) (fun _ _ => True) s := by
  unfold wp
  split <;> trivial

section Maintained

variable {I : Making → Prop} {h : Surroundings} {root : Path}
  (tick : ∀ s, I s → I s.tick)
  (touch : ∀ s files now db, I s → I { s.onDisk (sqliteTouch root files now s.disk) with db })

section Look
include tick

theorem maintains_look {α : Type} (f : Disk → Except Errno α) : Maintains I (look h f) :=
  fun s hs => wp_look (tick s hs) (fun _ => tick s hs)

theorem maintains_attempt : Maintains I (attempt h) :=
  fun s hs => wp_attempt (tick s hs) (fun _ => tick s hs)

theorem maintains_looked {α β : Type} {f : Disk → Except Errno α} {g : Except Errno α → MakingM β}
    (hg : ∀ r, Maintains I (g r)) : Maintains I (look h f >>= g) :=
  Maintains.bind (maintains_look tick f) hg

theorem maintains_requireDirectory (path : Path) (description : String) :
    Maintains I (requireDirectory h path description) := by
  apply maintains_looked tick
  intro r
  split
  · exact Maintains.pure _
  · exact Maintains.raise _
  · exact Maintains.raise _

theorem maintains_requireRegularFile (path : Path) (description : String) :
    Maintains I (requireRegularFile h path description) := by
  apply maintains_looked tick
  intro r
  split
  · exact Maintains.pure _
  · exact Maintains.raise _
  · exact Maintains.raise _

theorem maintains_regularFileExistsNoFollow (path : Path) :
    Maintains I (regularFileExistsNoFollow h path) := by
  apply maintains_looked tick
  intro r
  split
  · exact Maintains.pure _
  · exact Maintains.raise _
  · exact Maintains.pure _
  · exact Maintains.pure _
  · exact Maintains.raise _

theorem maintains_validateLayout : Maintains I (validateLayout h root) := by
  unfold validateLayout
  repeat refine Maintains.bind (maintains_requireDirectory tick _ _) (fun _ => ?_)
  refine Maintains.bind (maintains_requireRegularFile tick _ _) (fun _ => ?_)
  exact maintains_requireRegularFile tick _ _

theorem maintains_databaseAccessForOpen (mode : OpenMode) :
    Maintains I (databaseAccessForOpen h root mode) := by
  unfold databaseAccessForOpen
  refine Maintains.bind (maintains_regularFileExistsNoFollow tick _) (fun _ => ?_)
  refine Maintains.bind (maintains_regularFileExistsNoFollow tick _) (fun _ => ?_)
  refine Maintains.ite (fun _ => Maintains.pure _) (fun _ => ?_)
  refine Maintains.ite (fun _ => Maintains.pure _) (fun _ => ?_)
  refine Maintains.ite (fun _ => Maintains.raise _) (fun _ => ?_)
  exact Maintains.ite (fun _ => Maintains.raise _) (fun _ => Maintains.pure _)

end Look

section Touch
include touch

theorem maintains_sqlite {α : Type} (f : Schema → Except Raised (α × Schema)) :
    Maintains I (sqlite h root f) := by
  intro s hs
  have hkept := touch s (h.sqliteFiles s.calls) (h.clock s.calls)
  unfold wp sqlite
  cases h.raises s.calls with
  | some e => exact hkept s.db hs
  | none =>
    cases f s.db with
    | error e => exact hkept s.db hs
    | ok r => exact hkept r.2 hs

theorem closeDatabase_kept {s : Making} (hs : I s) : I (closeDatabase h root s) :=
  touch s (h.closedFiles s.calls) (h.clock s.calls) s.db hs

end Touch

include tick touch

theorem maintains_openAt (mode : OpenMode) : Maintains I (openAt h root mode) := by
  apply maintains_looked tick
  intro r
  split
  · exact Maintains.raise _
  · exact Maintains.raise _
  · exact Maintains.raise _
  · split
    · refine Maintains.bind (maintains_validateLayout tick) (fun _ => ?_)
      refine Maintains.bind (maintains_databaseAccessForOpen tick _) (fun _ => ?_)
      refine Maintains.bind (maintains_sqlite touch _) (fun _ => ?_)
      refine Maintains.rescue (maintains_sqlite touch _) (fun _ => ?_)
      exact Maintains.bind (Maintains.update (fun _ => closeDatabase_kept touch))
        (fun _ => Maintains.raise _)
    · exact Maintains.raise _

theorem maintains_selfCheck : Maintains I (selfCheck h root) :=
  Maintains.bind (maintains_openAt tick touch .readOnly)
    (fun _ => Maintains.update (fun _ => closeDatabase_kept touch))

theorem maintains_writeDatabase (options : RepositoryCreateOptions) :
    Maintains I (writeDatabase h root options) := by
  refine Maintains.bind (maintains_sqlite touch _) (fun _ => ?_)
  intro s hs
  rw [wp_ensure]
  refine wp_mono (Maintains.bind (I := I) (maintains_sqlite touch _) (fun _ => ?_) s hs)
    (fun _ _ hk => closeDatabase_kept touch hk) (fun _ _ hk => closeDatabase_kept touch hk)
  refine Maintains.bind (maintains_sqlite touch _) (fun _ => ?_)
  refine Maintains.bind (maintains_attempt tick) (fun _ => ?_)
  refine Maintains.bind (Maintains.read _) (fun _ => ?_)
  refine Maintains.bind (Maintains.read _) (fun _ => ?_)
  refine Maintains.bind (maintains_sqlite touch _) (fun _ => ?_)
  refine Maintains.bind (maintains_sqlite touch _) (fun _ => ?_)
  refine Maintains.bind (maintains_sqlite touch _) (fun _ => ?_)
  apply maintains_looked tick
  intro r
  split
  · exact Maintains.pure _
  · exact Maintains.raise _

end Maintained

section Lock

variable {c : Site} {n : Nat} {standing files : Path → Prop} {changed : Bool} {s : Making}
  {h : Surroundings} {k : Path}

/-- A file that was made gets another content. -/
theorem Stage.overwritten (hs : Stage c n standing files changed s)
    (hown : Owned c.anchor s.ledger k) (hk : files k) (hplain : Plain k) {content : Bytes}
    {now : Int} {d : Disk} (hd : overwrite s.disk (c.anchor ++ k) content now = .ok d) :
    Stage c n standing files changed (s.onDisk d) := by
  obtain ⟨old, st, hfile⟩ := hs.files k hk
  have htree : d.tree =
      s.disk.tree.set (c.base ++ k) (some (.file content { st with mtime := now })) := by
    unfold overwrite at hd
    simp only [hs.accounted.added.file_path hown hplain hfile, hfile] at hd
    cases hd
    exact Disk.tree_put _ _ _
  refine ⟨hs.ledger, hs.accounted.edit (l := [c.base ++ k]) ?_ ?_, ?_, hs.changed, hs.published⟩
  · change Edit _ s.disk.tree d.tree
    rw [htree]
    exact Edit.set_file hfile
  · intro p hp
    exact ⟨k, hown, List.mem_singleton.mp hp⟩
  · intro j hj
    change ∃ content st, d.tree (c.base ++ j) = _
    rw [htree]
    by_cases he : c.base ++ j = c.base ++ k
    · exact ⟨_, _, by rw [he, set_same]⟩
    · rw [set_other _ _ he]
      exact hs.files j hj

theorem writeDiagnosticsFrom_stage (hown : Owned c.anchor (marked c.records n) k) (hk : files k)
    (hplain : Plain k) (diagnostics : Bytes) (rounds written : Nat)
    (hs : Stage c n standing files changed s) :
    (writeDiagnosticsFrom h (c.anchor ++ k) diagnostics rounds written).wp
      (fun _ => Stage c n standing files changed) (fun _ => Staged c changed) s := by
  induction rounds generalizing written s with
  | zero => exact hs
  | succ rounds ih =>
    unfold writeDiagnosticsFrom
    rw [wp_ite]
    split
    · exact hs
    rw [wp_bind, wp_read, wp_bind]
    apply wp_change
    · intro d hd
      have hs' := hs.overwritten (hs.ledger ▸ hown) hk hplain hd
      dsimp only
      rw [wp_ite]
      split
      · exact hs'.staged
      · exact ih _ hs'
    · exact fun _ => (hs.ticked (Ticked.tick s)).staged

theorem acquireExclusive_stage (hown : Owned c.anchor (marked c.records n) k) (hk : files k)
    (hplain : Plain k) (hs : Stage c n standing files changed s) :
    (acquireExclusive h (c.anchor ++ k)).wp (fun _ => Stage c n standing files changed)
      (fun _ => Staged c changed) s := by
  have ticked : ∀ {s}, Stage c n standing files changed s → Stage c n standing files changed s.tick :=
    fun hs => hs.ticked (Ticked.tick _)
  unfold acquireExclusive
  rw [wp_bind]
  refine wp_mono (wp_look (Q := fun _ => Stage c n standing files changed)
    (E := fun _ => Staged c changed) (ticked hs) (fun _ => ticked hs)) ?_ (fun _ _ h => h)
  intro found s₁ hs₁
  cases found with
  | error e => exact hs₁.staged
  | ok node =>
    rw [wp_bind]
    apply wp_attempt
    · rw [wp_bind, wp_read, wp_bind]
      apply wp_change
      · intro d hd
        exact writeDiagnosticsFrom_stage hown hk hplain _ _ _
          ((ticked hs₁).overwritten ((ticked hs₁).ledger ▸ hown) hk hplain hd)
      · exact fun _ => (ticked (ticked hs₁)).staged
    · exact fun _ => (ticked hs₁).staged

end Lock

/-- Everything of the layout is made, with the files of SQLite in whatever form. -/
structure Laid (c : Site) (rel : Path) (changed : Bool) (s : Making) : Prop where
  accounted : ∃ standing, Accounted c.anchor c.base c.before standing s.ledger s.disk.tree ∧
    standing rel ∧ ∀ d ∈ layoutDirectories, standing (rel ++ d)
  lock : ∃ content st, s.disk.tree (c.base ++ (rel ++ [lockName])) = some (.file content st)
  sqlite : ∀ name ∈ sqliteNames, Owned c.anchor s.ledger (rel ++ [name]) ∧
    ¬ IsDirectory s.disk.tree (c.base ++ (rel ++ [name]))
  changed : s.permissionsChanged = changed

section Laid

variable {c : Site} {root rel : Path} {missing : List Path} {changed : Bool} {s : Making}
  {h : Surroundings}

theorem Laid.tick (hs : Laid c rel changed s) : Laid c rel changed s.tick :=
  ⟨hs.accounted, hs.lock, hs.sqlite, hs.changed⟩

theorem lock_not_sqlite : lockName ∉ sqliteNames := by decide

theorem sqliteFile_not_directory {files : Name → Option (Bytes × Stamp)} {name : Name} {t : Tree}
    {p : Path} (hp : t p = sqliteFile files name) : ¬ IsDirectory t p := by
  rintro ⟨st, hst⟩
  rw [hp] at hst
  exact sqliteFile_plain name st hst

/-- SQLite keeps the layout, and its files are as it left them. -/
theorem Laid.touched (hs : Laid c rel changed s) (hroot : bare root = c.anchor ++ rel)
    (files : Name → Option (Bytes × Stamp)) (now : Int) (db : Schema) :
    Laid c rel changed { s.onDisk (sqliteTouch root files now s.disk) with db } ∧
      ∀ name ∈ sqliteNames, (sqliteTouch root files now s.disk).tree (c.base ++ (rel ++ [name])) =
        sqliteFile files name := by
  obtain ⟨standing, hacc, hrel, hdirs⟩ := hs.accounted
  have hreal : realPath s.disk.tree (bare root) = .ok (c.base ++ rel) := by
    rw [hroot]
    exact hacc.added.path hrel
  have hfree : ∀ name ∈ sqliteNames, ¬ IsDirectory s.disk.tree (c.base ++ rel ++ [name]) := by
    intro name hm
    rw [List.append_assoc]
    exact (hs.sqlite name hm).2
  obtain ⟨hedit, hfiles⟩ := sqliteTouch_edit files now hreal
    (hacc.added.directory hrel) hfree
  simp only [List.append_assoc] at hedit hfiles
  refine ⟨⟨⟨standing, hacc.edit hedit ?_, hrel, hdirs⟩, ?_, ?_, hs.changed⟩, hfiles⟩
  · intro p hp
    obtain ⟨name, hm, rfl⟩ := List.mem_map.mp hp
    exact ⟨rel ++ [name], (hs.sqlite name hm).1, rfl⟩
  · obtain ⟨content, st, hl⟩ := hs.lock
    refine ⟨content, st, (hedit.elsewhere _ ?_).plain hl (by simp)⟩
    intro hm
    obtain ⟨name, hn, he⟩ := List.mem_map.mp hm
    have : name = lockName := by simpa using he
    exact lock_not_sqlite (this ▸ hn)
  · intro name hm
    exact ⟨(hs.sqlite name hm).1, sqliteFile_not_directory (hfiles name hm)⟩

theorem Stage.laid {n : Nat} {standing files : Path → Prop}
    (hs : Stage c n standing files changed s) (hrel : standing rel)
    (hdirs : ∀ d ∈ layoutDirectories, standing (rel ++ d)) (hlock : files (rel ++ [lockName]))
    (hfiles : ∀ name ∈ sqliteNames, files (rel ++ [name]))
    (hown : ∀ name ∈ sqliteNames, Owned c.anchor s.ledger (rel ++ [name])) :
    Laid c rel changed s := by
  refine ⟨⟨standing, hs.accounted, hrel, hdirs⟩, hs.files _ hlock, ?_, hs.changed⟩
  intro name hm
  refine ⟨hown name hm, ?_⟩
  obtain ⟨content, st, hf⟩ := hs.files _ (hfiles name hm)
  exact not_directory_file hf

/-- A repository that opens has been read as one. -/
theorem openAt_loads (mode : OpenMode) :
    (openAt h root mode).wp (fun info t => loadRepositoryInfo t.db = .ok info)
      (fun _ _ => True) s := by
  unfold openAt
  rw [wp_bind]
  refine wp_mono wp_any (fun found s₁ _ => ?_) (fun _ _ _ => trivial)
  split
  · trivial
  · trivial
  · trivial
  · split
    · rw [wp_bind]
      refine wp_mono wp_any (fun _ s₂ _ => ?_) (fun _ _ _ => trivial)
      rw [wp_bind]
      refine wp_mono wp_any (fun _ s₃ _ => ?_) (fun _ _ _ => trivial)
      rw [wp_bind]
      refine wp_mono wp_any (fun _ s₄ _ => ?_) (fun _ _ _ => trivial)
      rw [wp_rescue]
      unfold wp sqlite
      cases h.raises s₄.calls with
      | some e => trivial
      | none =>
        dsimp only
        cases hl : loadRepositoryInfo s₄.db with
        | error e => trivial
        | ok info => exact hl
    · trivial

end Laid

/-- A failure from here on can be undone, unless the repository is published. -/
def Recoverable (c : Site) (changed : Bool) (s : Making) : Prop :=
  s.published = false → s.permissionsChanged = changed ∧
    ∃ standing, Accounted c.anchor c.base c.before standing s.ledger s.disk.tree

section Contents

variable {c : Site} {root rel : Path} {missing : List Path} {changed : Bool} {s : Making}
  {h : Surroundings} {options : RepositoryCreateOptions}

theorem Staged.recoverable (hs : Staged c changed s) : Recoverable c changed s := by
  obtain ⟨n, standing, files, hstage⟩ := hs
  exact fun _ => ⟨hstage.changed, standing, hstage.accounted⟩

theorem Laid.recoverable (hs : Laid c rel changed s) : Recoverable c changed s := by
  obtain ⟨standing, hacc, _⟩ := hs.accounted
  exact fun _ => ⟨hs.changed, standing, hacc⟩

theorem Rooted.plain (hc : Rooted c root missing rel) : Plain rel := by
  intro x hx
  exact (hc.ordinary x (by rw [hc.path]; exact List.mem_append_right _ hx)).2

theorem Rooted.plain_entry (hc : Rooted c root missing rel) {i : Nat} {x : Name} {held : Bool}
    (hi : layoutRecords[i]? = some ([x], held)) : Plain (rel ++ [x]) := by
  have hx := (layout_ordinary _ (List.mem_of_getElem? hi) x (by simp)).2
  exact hc.plain.append (by simpa [Plain] using hx)

/-- A part of the layout is owned once its record is passed. -/
theorem Rooted.owned (hc : Rooted c root missing rel) {i n : Nat} {tail : Path} {held : Bool}
    (hi : layoutRecords[i]? = some (tail, held)) {standing files : Path → Prop}
    (hs : Stage c n standing files changed s) (hn : missing.length + i < n) :
    Owned c.anchor s.ledger (rel ++ tail) := by
  obtain ⟨r, hr, hb, hp⟩ := hc.record hi
  exact hs.owned hr hn (hb.trans hp)

theorem sqlite_record : ∀ name ∈ sqliteNames, ∃ i, i < 10 ∧ layoutRecords[i]? = some ([name], false) := by
  intro name hm
  simp only [sqliteNames, List.mem_cons, List.not_mem_nil, or_false] at hm
  rcases hm with rfl | rfl | rfl | rfl
  · exact ⟨6, by omega, rfl⟩
  · exact ⟨7, by omega, rfl⟩
  · exact ⟨8, by omega, rfl⟩
  · exact ⟨9, by omega, rfl⟩

theorem maintains_laid_selfCheck (hroot : bare root = c.anchor ++ rel) :
    Maintains (Laid c rel changed) (selfCheck h root) :=
  maintains_selfCheck (fun _ hs => hs.tick) (fun _ files now db hs => (hs.touched hroot files now db).1)

/-- The last self-check leaves a repository that was just read and closed. -/
theorem selfCheck_closed (hroot : bare root = c.anchor ++ rel) (hs : Laid c rel changed s) :
    (selfCheck h root).wp
      (fun _ s' => ∃ s₀ info, Laid c rel changed s₀ ∧ loadRepositoryInfo s₀.db = .ok info ∧
        s' = closeDatabase h root s₀)
      (fun _ _ => True) s := by
  unfold selfCheck
  rw [wp_bind]
  have hlaid : Maintains (Laid c rel changed) (openAt h root .readOnly) :=
    maintains_openAt (fun _ hs => hs.tick)
      (fun _ files now db hs => (hs.touched hroot files now db).1) .readOnly
  refine wp_mono (wp_and (hlaid s hs) (openAt_loads .readOnly)) ?_ (fun _ _ _ => trivial)
  rintro info s₀ ⟨hs₀, hload⟩
  rw [wp_update]
  exact ⟨s₀, info, hs₀, hload, rfl⟩

theorem createContents_laid (hc : Rooted c root missing rel) {standing : Path → Prop}
    (hs : Stage c missing.length standing (fun _ => False) changed s) (hd : standing rel) :
    (createContents h root missing.length options).wp
      (fun _ s' => ∃ s₀ info, Laid c rel changed s₀ ∧ loadRepositoryInfo s₀.db = .ok info ∧
        s' = closeDatabase h root s₀)
      (fun _ s' => Recoverable c changed s') s := by
  have staged : ∀ (e : Raised) s', Staged c changed s' → Recoverable c changed s' :=
    fun _ _ hs => hs.recoverable
  have hlock : layoutRecords[5]? = some ([lockName], true) := rfl
  unfold createContents
  rw [wp_bind]
  refine wp_mono (layoutDirectories_stage hc hs hd) ?_ staged
  rintro _ s₁ ⟨standing₁, hs₁, hrel, hdirs⟩
  rw [wp_bind]
  refine wp_mono (layoutFile_stage hc hs₁ hlock hrel) ?_ staged
  intro _ s₂ hs₂
  rw [wp_bind, hc.path, List.append_assoc]
  have hown : Owned c.anchor (marked c.records (missing.length + 6)) (rel ++ [lockName]) :=
    hs₂.ledger ▸ hc.owned hlock hs₂ (by omega)
  refine wp_mono (acquireExclusive_stage hown (Or.inr rfl) (hc.plain_entry hlock) hs₂) ?_ staged
  intro _ s₃ hs₃
  rw [wp_bind, wp_update, wp_bind]
  have hs₃' : Stage c (missing.length + 6) standing₁ (fun k => False ∨ k = rel ++ [lockName])
      changed { s₃ with writerLock := true } :=
    ⟨hs₃.ledger, hs₃.accounted, hs₃.files, hs₃.changed, hs₃.published⟩
  refine wp_mono (layoutFiles_stage hc hs₃' hrel) ?_ staged
  rintro _ s₄ ⟨files, hs₄, hkept, hfiles⟩
  have hlaid : Laid c rel changed s₄ := by
    refine hs₄.laid hrel hdirs (hkept _ (Or.inr rfl)) hfiles ?_
    intro name hm
    obtain ⟨i, hi, hrec⟩ := sqlite_record name hm
    exact hc.owned hrec hs₄ (by omega)
  have laid : ∀ (e : Raised) s', Laid c rel changed s' → Recoverable c changed s' :=
    fun _ _ hs => hs.recoverable
  rw [wp_bind]
  refine wp_mono (maintains_writeDatabase (fun _ hs => hs.tick)
    (fun _ files now db hs => (hs.touched hc.path files now db).1) options s₄ hlaid) ?_ laid
  intro _ s₅ hs₅
  rw [wp_bind]
  refine wp_mono (maintains_laid_selfCheck hc.path s₅ hs₅) ?_ laid
  intro _ s₆ hs₆
  rw [wp_bind, wp_update]
  have hs₆' : Laid c rel changed { s₆ with published := true, writerLock := false } :=
    ⟨hs₆.accounted, hs₆.lock, hs₆.sqlite, hs₆.changed⟩
  -- a published repository is not cleaned up
  have hpublished : Maintains (fun s => s.published = true) (selfCheck h root) :=
    maintains_selfCheck (fun _ h => h) (fun _ _ _ _ h => h)
  refine wp_mono (wp_and (selfCheck_closed hc.path hs₆') (hpublished _ rfl)) ?_ ?_
  · exact fun _ _ h => h.1
  · rintro _ s₇ ⟨_, hp⟩ hno
    rw [hp] at hno
    cases hno

end Contents

end LocalVault.Repository
