import LocalVault.Proofs.Lossless
import LocalVault.Proofs.Roots
import LocalVault.Snapshot.Source

namespace LocalVault.Repository
open Library Library.FileTree Library.Program

/-- No exception about an argument. -/
def NotArgument (e : Raised) : Prop := ∀ e', e = .localVault e' → e'.code ≠ .invalidArgument

section Calls

variable {h : Surroundings} {P : Raised → Prop}

theorem raises_look {α : Type} (f : Disk → Except Errno α) : Raises P (look h f) := by
  intro s
  unfold wp look
  cases h.fault s.calls <;> trivial

theorem raises_change (f : Disk → Int → Except Errno Disk) : Raises P (change h f) := by
  intro s
  unfold wp change
  cases h.fault s.calls with
  | some text => trivial
  | none => cases f s.disk (h.clock s.calls) <;> trivial

theorem raises_attempt (calm : Calm h) : Raises P (attempt h) := by
  intro s
  unfold wp attempt
  rw [calm.raises]
  trivial

theorem raises_sqlite (calm : Calm h) {root : Path} {α : Type} {f : Schema → Except Raised (α × Schema)}
    (hf : ∀ db e, f db = .error e → P e) : Raises P (sqlite h root f) := by
  intro s
  unfold wp sqlite
  rw [calm.raises]
  dsimp only
  cases hr : f s.db with
  | error e => exact hf _ e hr
  | ok r => trivial

theorem raises_failing {α : Type} {code : ErrorCode} {message : String} {path : Path}
    (hp : P (.localVault { code, message, path })) :
    Raises P (failing code message path : MakingM α) := Raises.raise hp

end Calls

section Opening

variable {h : Surroundings} {root path : Path} {P : Raised → Prop}

/-- An exception of `Repository::open` behind its check of the root names a path below it. -/
def BelowRoot (root : Path) (e : Raised) : Prop :=
  ∃ e' tail, e = .localVault e' ∧ e'.code ≠ .invalidArgument ∧ e'.path = bare root ++ tail ∧
    tail ≠ [] ∧ [] ∉ tail

theorem belowRoot_at {code : ErrorCode} {message : String} {tail : Path}
    (hc : code ≠ .invalidArgument) (hne : tail ≠ []) (hnames : [] ∉ tail) :
    BelowRoot root (.localVault { code, message, path := bare root ++ tail }) :=
  ⟨_, tail, rfl, hc, rfl, hne, hnames⟩

theorem requireDirectory_raises {description : String}
    (hp : ∀ message, P (.localVault { code := .invalidRepository, message, path })) :
    Raises P (requireDirectory h path description) := by
  unfold requireDirectory
  refine (raises_look _).bind (fun r => ?_)
  split
  · exact Raises.pure ()
  · exact raises_failing (hp _)
  · exact raises_failing (hp _)

theorem requireRegularFile_raises {description : String}
    (hp : ∀ message, P (.localVault { code := .invalidRepository, message, path })) :
    Raises P (requireRegularFile h path description) := by
  unfold requireRegularFile
  refine (raises_look _).bind (fun r => ?_)
  split
  · exact Raises.pure ()
  · exact raises_failing (hp _)
  · exact raises_failing (hp _)

theorem regularFileExistsNoFollow_raises
    (hp : ∀ code message, code ≠ .invalidArgument → P (.localVault { code, message, path })) :
    Raises P (regularFileExistsNoFollow h path) := by
  unfold regularFileExistsNoFollow
  refine (raises_look _).bind (fun r => ?_)
  split
  · exact Raises.pure _
  · exact raises_failing (hp _ _ (by decide))
  · exact Raises.pure _
  · exact Raises.pure _
  · exact raises_failing (hp _ _ (by decide))

theorem validateLayout_raises : Raises (BelowRoot root) (validateLayout h root) := by
  have hat : ∀ tail : Path, tail ≠ [] → [] ∉ tail → ∀ message, BelowRoot root
      (.localVault { code := .invalidRepository, message, path := bare root ++ tail }) :=
    fun tail hne hnames message => belowRoot_at (by decide) hne hnames
  unfold validateLayout
  refine (requireDirectory_raises (hat _ (by decide) (by decide))).bind (fun _ => ?_)
  refine (requireDirectory_raises (hat _ (by decide) (by decide))).bind (fun _ => ?_)
  refine (requireDirectory_raises (hat _ (by decide) (by decide))).bind (fun _ => ?_)
  refine (requireDirectory_raises (hat _ (by decide) (by decide))).bind (fun _ => ?_)
  refine (requireDirectory_raises (hat _ (by decide) (by decide))).bind (fun _ => ?_)
  refine (requireRegularFile_raises (hat _ (by decide) (by decide))).bind (fun _ => ?_)
  exact requireRegularFile_raises (hat _ (by decide) (by decide))

theorem databaseAccessForOpen_raises {mode : OpenMode} :
    Raises (BelowRoot root) (databaseAccessForOpen h root mode) := by
  unfold databaseAccessForOpen
  refine (regularFileExistsNoFollow_raises
    (fun _ _ hc => belowRoot_at hc (by decide) (by decide))).bind (fun _ => ?_)
  refine (regularFileExistsNoFollow_raises
    (fun _ _ hc => belowRoot_at hc (by decide) (by decide))).bind (fun _ => ?_)
  refine Raises.ite (fun _ => Raises.pure _) (fun _ => ?_)
  refine Raises.ite (fun _ => Raises.pure _) (fun _ => ?_)
  refine Raises.ite (fun _ => raises_failing (belowRoot_at (by decide) (by decide) (by decide)))
    (fun _ => ?_)
  exact Raises.ite (fun _ => raises_failing (belowRoot_at (by decide) (by decide) (by decide)))
    (fun _ => Raises.pure _)

theorem loadRepositoryInfo_code {db : Schema} {code : ErrorCode} {message : String}
    (h : loadRepositoryInfo db = .error (code, message)) : code ≠ .invalidArgument := by
  unfold loadRepositoryInfo outOfRange at h
  repeat' split at h
  all_goals
    cases h
    try decide

/-- Behind its check of the root, `Repository::open` complains about paths below it. -/
theorem openAt_below (calm : Calm h) {mode : OpenMode} {s : Making} {st : Stamp}
    (hs : symlinkStatus s.disk.tree root = .ok (.directory st)) :
    (openAt h root mode).wp (fun _ _ => True) (fun e _ => BelowRoot root e) s := by
  unfold openAt
  rw [wp_bind]
  apply wp_look_calm calm
  rw [hs]
  refine Raises.bind validateLayout_raises (fun _ => ?_) s.tick
  refine databaseAccessForOpen_raises.bind (fun _ => ?_)
  refine (raises_sqlite calm (fun _ _ h => by cases h)).bind (fun _ => ?_)
  refine (raises_sqlite (P := BelowRoot root) calm ?_).rescue ?_
  · intro db e he
    cases hload : loadRepositoryInfo db with
    | error r =>
      rw [hload] at he
      cases he
      exact belowRoot_at (loadRepositoryInfo_code hload) (by decide) (by decide)
    | ok info =>
      rw [hload] at he
      cases he
  · intro e he
    refine (Raises.update _).bind (fun _ => Raises.raise ?_)
    obtain ⟨e', tail, rfl, hc, hp, hne, hnames⟩ := he
    unfold asInvalidRepository
    dsimp only
    split
    · exact ⟨e', tail, rfl, hc, hp, hne, hnames⟩
    · exact belowRoot_at (by decide) (by decide) (by decide)

theorem belowRoot_notArgument {e : Raised} (he : BelowRoot root e) : NotArgument e := by
  obtain ⟨e', _, rfl, hc, _⟩ := he
  intro e'' h
  cases h
  exact hc

theorem notArgument {code : ErrorCode} {message : String} {path : Path}
    (hc : code ≠ .invalidArgument) : NotArgument (.localVault { code, message, path }) := by
  intro e' h
  cases h
  exact hc

theorem openAt_raises (calm : Calm h) {mode : OpenMode} : Raises NotArgument (openAt h root mode) := by
  intro s
  cases hs : symlinkStatus s.disk.tree root with
  | ok node =>
    cases node with
    | directory st =>
      exact wp_mono (openAt_below calm hs) (fun _ _ h => h) (fun _ _ he => belowRoot_notArgument he)
    | _ =>
      unfold openAt
      rw [wp_bind]
      apply wp_look_calm calm
      rw [hs]
      exact notArgument (by decide)
  | error e =>
    unfold openAt
    rw [wp_bind]
    apply wp_look_calm calm
    rw [hs]
    cases e <;> exact notArgument (by decide)

end Opening

section Creating

variable {h : Surroundings} {root path : Path}

theorem pathExists_raises : Raises NotArgument (pathExists h path) := by
  unfold pathExists
  refine (raises_look _).bind (fun r => ?_)
  split
  · exact Raises.pure _
  · exact Raises.pure _
  · exact raises_failing (notArgument (by decide))

theorem createDirectory_raises (index : Nat) : Raises NotArgument (createDirectory h index) := by
  unfold createDirectory
  refine (Raises.read _).bind (fun path => ?_)
  refine (raises_change _).bind (fun r => ?_)
  split
  · exact Raises.update _
  · refine (raises_look _).bind (fun r => ?_)
    split <;> exact raises_failing (notArgument (by decide))
  · exact raises_failing (notArgument (by decide))

theorem createEmptyFile_raises (index : Nat) : Raises NotArgument (createEmptyFile h index) := by
  unfold createEmptyFile createExclusiveFile applyRestrictiveFilePermissions
  refine (Raises.read _).bind (fun path => ?_)
  refine Raises.bind ?_ (fun _ => (Raises.update _).bind (fun _ => ?_))
  · refine (raises_change _).bind (fun r => ?_)
    split
    · exact Raises.pure _
    · exact raises_failing (notArgument (by decide))
  · refine (raises_change _).bind (fun r => ?_)
    split
    · exact Raises.pure _
    · exact raises_failing (notArgument (by decide))

theorem writeDiagnosticsFrom_raises (diagnostics : Bytes) (rounds written : Nat) :
    Raises NotArgument (writeDiagnosticsFrom h path diagnostics rounds written) := by
  induction rounds generalizing written with
  | zero => exact Raises.pure _
  | succ rounds ih =>
    unfold writeDiagnosticsFrom
    refine Raises.ite (fun _ => Raises.pure _) (fun _ => (Raises.read _).bind (fun count => ?_))
    refine (raises_change _).bind (fun r => ?_)
    split
    · exact raises_failing (notArgument (by decide))
    · exact Raises.ite (fun _ => raises_failing (notArgument (by decide))) (fun _ => ih _)

theorem acquireExclusive_raises (calm : Calm h) : Raises NotArgument (acquireExclusive h path) := by
  unfold acquireExclusive
  refine (raises_look _).bind (fun r => ?_)
  split
  · exact raises_failing (notArgument (by decide))
  · refine (raises_attempt calm).bind (fun _ => (Raises.read _).bind (fun diagnostics => ?_))
    refine (raises_change _).bind (fun r => ?_)
    split
    · exact raises_failing (notArgument (by decide))
    · exact writeDiagnosticsFrom_raises _ _ _

theorem writeDatabase_raises (calm : Calm h) {options : RepositoryCreateOptions} :
    Raises NotArgument (writeDatabase h root options) := by
  have hstep : ∀ f : Schema → Schema, Raises NotArgument (sqlite h root (fun db => .ok ((), f db))) :=
    fun f => raises_sqlite calm (fun _ _ he => by cases he)
  unfold writeDatabase
  refine (hstep id).bind (fun _ => Raises.ensure ?_)
  refine (hstep _).bind (fun _ => (hstep id).bind (fun _ => ?_))
  refine (raises_attempt calm).bind (fun _ => (Raises.read _).bind (fun uuid => ?_))
  refine (Raises.read _).bind (fun createdAtNs => Raises.bind ?_ (fun _ => ?_))
  · refine raises_sqlite calm (fun db e he => ?_)
    unfold insertInfo at he
    split at he
    · cases he
    · cases he
      exact notArgument (by decide)
  · refine (hstep id).bind (fun _ => (hstep id).bind (fun _ => ?_))
    unfold flushDirectory
    refine (raises_look _).bind (fun r => ?_)
    split
    · exact Raises.pure _
    · exact raises_failing (notArgument (by decide))

theorem selfCheck_raises (calm : Calm h) : Raises NotArgument (selfCheck h root) :=
  (openAt_raises calm).bind (fun _ => Raises.update _)

theorem createLayout_raises (calm : Calm h) {rootExisted : Bool} {missing : Nat}
    {options : RepositoryCreateOptions} :
    Raises NotArgument (createLayout h root rootExisted missing options) := by
  unfold createLayout validateCreationRoot applyRestrictiveRepositoryPermissions createContents
  refine (Raises.each (fun index _ => createDirectory_raises index)).bind (fun _ => ?_)
  refine Raises.bind ((raises_look _).bind (fun r => ?_)) (fun _ => ?_)
  · split
    · exact Raises.pure _
    · exact raises_failing (notArgument (by decide))
    · exact raises_failing (notArgument (by decide))
  refine Raises.bind ((raises_change _).bind (fun r => ?_)) (fun _ => ?_)
  · split
    · exact Raises.pure _
    · exact raises_failing (notArgument (by decide))
  refine (Raises.update _).bind (fun _ => ?_)
  refine (Raises.each (fun index _ => createDirectory_raises index)).bind (fun _ => ?_)
  refine (createEmptyFile_raises _).bind (fun _ => (acquireExclusive_raises calm).bind (fun _ => ?_))
  refine (Raises.update _).bind (fun _ => ?_)
  refine (Raises.each (fun index _ => createEmptyFile_raises index)).bind (fun _ => ?_)
  refine (writeDatabase_raises calm).bind (fun _ => (selfCheck_raises calm).bind (fun _ => ?_))
  exact (Raises.update _).bind (fun _ => selfCheck_raises calm)

end Creating

/-- What `Repository::create` throws for a root that is no directory. -/
def createRefusal (root : Path) : Raised :=
  .localVault { code := .invalidArgument, path := root
                message := "repository root already exists and is not a non-symlink directory" }

/-- What `Repository::open` throws for it. -/
def openRefusal (root : Path) : Raised :=
  .localVault { code := .invalidRepository, path := root
                message := "repository root is not a non-symlink directory" }

section Refusals

variable {h : Surroundings} {root : Path} {requested : Bytes} {options : RepositoryCreateOptions}
  {d : Disk}

theorem not_createRefusal {e : Raised} (he : NotArgument e) : e ≠ createRefusal root := by
  rintro rfl
  exact he _ rfl rfl

theorem create_refuses (calm : Calm h) (hroot : normalizedRoot h.currentDirectory requested = .ok root)
    (hchunk : ¬ (options.chunkSizeBytes = 0 ∨ permanentMaximumChunkSize < options.chunkSizeBytes))
    {target : Bytes} (hs : symlinkStatus d.tree root = .ok (.link target)) :
    (create h requested options (.start d)).1 = .error (createRefusal root) := by
  have hspec : (create h requested options).wp (fun _ _ => False)
      (fun e _ => e = createRefusal root) (.start d) := by
    unfold create
    rw [hroot]
    dsimp only
    rw [wp_ite, if_neg hchunk, wp_bind]
    apply pathExists_calm calm
    · intro _ _
      simp only [↓reduceIte, inspectRoot, wp_bind]
      apply wp_look_calm calm
      rw [show (Making.start d).tick.disk.tree = d.tree from rfl, hs]
      rfl
    · intro hno
      rw [show (Making.start d).disk.tree = d.tree from rfl, hs] at hno
      cases hno
    · exact Or.inl ⟨_, hs⟩
  unfold wp at hspec
  rcases hrun : create h requested options (.start d) with ⟨r, s⟩
  rw [hrun] at hspec
  cases r with
  | ok _ => exact hspec.elim
  | error e => rw [hspec]

theorem requireFree_raises (path : Path) : Raises (· ≠ createRefusal root) (requireFree h path) := by
  unfold requireFree
  refine (pathExists_raises.mono (fun _ => not_createRefusal)).bind (fun _ => ?_)
  refine Raises.ite (fun _ => raises_failing ?_) (fun _ => Raises.pure _)
  simp [createRefusal]

theorem rethrown_raises {e : Raised} (he : NotArgument e) : NotArgument (rethrown root e) := by
  cases e with
  | localVault e =>
    have := he e rfl
    unfold rethrown
    dsimp only
    split <;> exact notArgument this
  | standard what => exact notArgument (by decide)
  | unknown => exact fun _ h => by cases h

/-- A root that the check finds to be a directory is not refused later on as none. -/
theorem create_accepts (calm : Calm h) (hroot : normalizedRoot h.currentDirectory requested = .ok root)
    {st : Stamp} (hs : symlinkStatus d.tree root = .ok (.directory st)) :
    (create h requested options (.start d)).1 ≠ .error (createRefusal root) := by
  have hspec : (create h requested options).wp (fun _ _ => True)
      (fun e _ => e ≠ createRefusal root) (.start d) := by
    unfold create
    rw [hroot]
    dsimp only
    rw [wp_ite]
    split
    · change Raised.localVault _ ≠ createRefusal root
      simp [createRefusal]
    rw [wp_bind]
    apply pathExists_calm calm
    · intro _ _
      simp only [↓reduceIte]
      rw [wp_bind]
      refine wp_mono (?_ : (inspectRoot h options root).wp (fun _ _ => True) _ _)
        (fun original s _ => ?_) (fun _ _ h => h)
      · unfold inspectRoot
        rw [wp_bind]
        apply wp_look_calm calm
        rw [show (Making.start d).tick.disk.tree = d.tree from rfl, hs]
        dsimp only
        refine Raises.bind (raises_look _) (fun r => ?_) _
        split
        · exact raises_failing (not_createRefusal (notArgument (by decide)))
        · refine Raises.ite (fun _ => raises_failing ?_) (fun _ => Raises.pure _)
          simp [createRefusal]
      · refine Raises.bind (raises_attempt calm) (fun _ => ?_) s
        refine Raises.ite (fun _ => raises_failing (not_createRefusal (notArgument (by decide))))
          (fun _ => ?_)
        refine (Raises.each (fun path _ => requireFree_raises path)).bind (fun _ => ?_)
        refine (Raises.pure _).bind (fun _ => (Raises.update _).bind (fun _ => ?_))
        refine (createLayout_raises calm).rescue (fun e he => (Raises.read _).bind (fun published => ?_))
        have hraise : Raises (· ≠ createRefusal root)
            (Program.raise (rethrown root e) : MakingM Unit) :=
          Raises.raise (not_createRefusal (rethrown_raises he))
        exact Raises.ite (fun _ => (Raises.update _).bind (fun _ => hraise)) (fun _ => hraise)
    · intro hno
      rw [show (Making.start d).disk.tree = d.tree from rfl, hs] at hno
      cases hno
    · exact Or.inl ⟨_, hs⟩
  unfold wp at hspec
  rcases hrun : create h requested options (.start d) with ⟨r, s⟩
  rw [hrun] at hspec
  cases r with
  | ok _ => simp
  | error e => simpa using hspec

theorem below_root_ne {tail : Path} (hne : tail ≠ []) (hnames : [] ∉ tail) : bare root ++ tail ≠ root := by
  intro he
  unfold bare at he
  split at he
  · rename_i htrail
    have hroot : root = root.dropLast ++ [[]] :=
      (List.dropLast_append_getLast? [] (by simpa [trailing] using htrail)).symm
    have htail : tail = [[]] := List.append_cancel_left (he.trans hroot)
    exact hnames (by simp [htail])
  · exact hne (by simpa using he)

theorem open_refuses (calm : Calm h) (hroot : normalizedRoot h.currentDirectory requested = .ok root)
    {target : Bytes} (hs : symlinkStatus d.tree root = .ok (.link target)) (mode : OpenMode) :
    (openRepository h requested mode (.start d)).1 = .error (openRefusal root) := by
  unfold openRepository
  rw [hroot]
  change (andThen (look h _) _ (.start d)).1 = _
  unfold andThen look
  rw [calm.fault]
  simp only [show (Making.start d).disk.tree = d.tree from rfl, hs]
  rfl

theorem open_accepts (calm : Calm h) (hroot : normalizedRoot h.currentDirectory requested = .ok root)
    {st : Stamp} (hs : symlinkStatus d.tree root = .ok (.directory st)) (mode : OpenMode) :
    (openRepository h requested mode (.start d)).1 ≠ .error (openRefusal root) := by
  have hspec : (openAt h root mode).wp _ _ (.start d) := openAt_below calm hs
  unfold openRepository
  rw [hroot]
  dsimp only
  unfold wp at hspec
  rcases hrun : openAt h root mode (.start d) with ⟨r, s⟩
  rw [hrun] at hspec
  cases r with
  | ok _ => simp
  | error e =>
    obtain ⟨e', tail, rfl, _, hp, hne, hnames⟩ := hspec
    intro he
    have : e' = _ := Raised.localVault.inj (Except.error.inj he)
    rw [this] at hp
    exact below_root_ne hne hnames hp.symm

end Refusals

end LocalVault.Repository

namespace LocalVault.Snapshot
open Library Library.FileTree Repository

/-- What `normalized_source` and `scan_streaming` throw for a root that is no directory. -/
def sourceRefusal (root : Path) : LocalVaultError :=
  { code := .invalidArgument, path := root
    message := "source root must be a directory and not a symbolic link" }

section Sources

variable {t : Tree} {currentDirectory root : Path} {requested : Bytes}

/-- The normal form that the source root is inspected under. -/
def NormalSource (currentDirectory : Path) (requested : Bytes) (root : Path) : Prop :=
  requested ≠ [] ∧ (lexicallyNormal (if requested.head? = some slash then components requested
    else [slash] :: (currentDirectory ++ components requested))).tail = root

theorem normalizedSource_link (hn : NormalSource currentDirectory requested root) {target : Bytes}
    (hs : symlinkStatus t root = .ok (.link target)) :
    normalizedSource t (.ok currentDirectory) requested = .error (sourceRefusal root) := by
  simp only [normalizedSource, hn.1, ↓reduceIte, hn.2, hs]
  rfl

theorem normalizedSource_directory (hn : NormalSource currentDirectory requested root) {st : Stamp}
    (hs : symlinkStatus t root = .ok (.directory st)) :
    normalizedSource t (.ok currentDirectory) requested = .ok root := by
  simp only [normalizedSource, hn.1, ↓reduceIte, hn.2, hs]

variable {source : Source} {options : FileScannerOptions}

theorem scan_refuses (hn : NormalSource currentDirectory source.requested root)
    (hr : source.Reads t currentDirectory) {target : Bytes}
    (hs : symlinkStatus t root = .ok (.link target)) :
    (scanStreaming collecting source options .start).1 = .error (.localVault (sourceRefusal root)) := by
  have hstatus := hr.status
  rw [show source.normalized currentDirectory = root from hn.2, hs] at hstatus
  have hrefuses := (emits_checkCancelled (components source.requested)).refuses
    (f := fun _ _ => (throwing .invalidArgument
      "source root must be a directory and not a symbolic link" root : ScanM Unit)) (refuses_raise _)
  have := hrefuses.raised .start
  unfold scanStreaming
  simp only [hn.1, ↓reduceIte, hr.directory, hstatus,
    show source.normalized currentDirectory = root from hn.2]
  exact this

theorem load_code {path : Path} {replaced : Bool} {sensitivity : IgnoreCaseSensitivity}
    {file : IgnoreFile} {e : LocalVaultError} (h : IgnoreRules.load path replaced sensitivity file = .error e) :
    e.code = .filesystemError := by
  unfold IgnoreRules.load at h
  split at h
  · split at h <;> cases h
    rfl
  · split at h <;> cases h
    rfl
  all_goals
    cases h
    try rfl

/-- A source that the check finds to be a directory is scanned, or refused for something else. -/
theorem scanStreaming_directory (options : FileScannerOptions)
    (hn : NormalSource currentDirectory source.requested root)
    (hr : source.Reads t currentDirectory) {st : Stamp}
    (hs : symlinkStatus t root = .ok (.directory st)) :
    (∃ e, Refuses (scanStreaming · source options) e ∧ e ≠ .localVault (sourceRefusal root)) ∨
      ∃ jobs visited, Emits (scanStreaming · source options) () jobs visited := by
  have hstatus := hr.status
  have hnormal : source.normalized currentDirectory = root := hn.2
  rw [hnormal, hs] at hstatus
  have hcheck := emits_checkCancelled (components source.requested)
  have other : ∀ e : LocalVaultError, e.code = .filesystemError →
      Raised.localVault e ≠ .localVault (sourceRefusal root) := by
    intro e hcode he
    rw [Raised.localVault.inj he] at hcode
    cases hcode
  unfold scanStreaming
  simp only [hn.1, ↓reduceIte, hr.directory, hstatus, hnormal, fileType, ne_eq, not_true_eq_false]
  cases hp : source.facts.platform with
  | error e => exact Or.inl ⟨_, hcheck.refuses (refuses_raise _), other e (hr.platform e hp)⟩
  | ok platform =>
    by_cases hplain : platform.reparseKind ≠ .none ∨ platform.cloudPlaceholder = true
    · simp only [← ne_eq, hplain, ↓reduceIte]
      exact Or.inl ⟨_, hcheck.refuses (refuses_raise _), by simp [sourceRefusal]⟩
    simp only [← ne_eq, hplain, ↓reduceIte]
    cases hload : IgnoreRules.load (options.ignoreFile.getD (bare root ++ [ignoreFileName]))
        options.ignoreFile.isSome (if source.caseSensitive then .sensitive else .insensitive)
        source.ignoreFile with
    | error e => exact Or.inl ⟨_, hcheck.refuses (refuses_raise _), other e (load_code hload)⟩
    | ok ignoreRules =>
      generalize hj : judgeEntry source.facts root [] .directory false = r
      have hentry := emits_scanEntry _ _ _ _ hj
      cases r with
      | error w =>
        exact Or.inl ⟨_, hcheck.refuses (hentry.refuses (refuses_raise _)), by simp [sourceRefusal]⟩
      | ok entry =>
        exact Or.inr ⟨_, _, hcheck.bind (hentry.bind ((emits_callBack _).bind
          (emits_scanDirectory (emits_scanEntries _ _ _))))⟩

/-- A source that the check finds to be a directory is not refused later on as none. -/
theorem scan_accepts (hn : NormalSource currentDirectory source.requested root)
    (hr : source.Reads t currentDirectory) {st : Stamp}
    (hs : symlinkStatus t root = .ok (.directory st)) :
    (scanStreaming collecting source options .start).1 ≠ .error (.localVault (sourceRefusal root)) := by
  intro he
  rcases scanStreaming_directory options hn hr hs with ⟨e, hrefuses, hne⟩ | ⟨_, _, hemits⟩
  · rw [hrefuses.raised] at he
    exact hne (Except.error.inj he)
  · obtain ⟨n, hrun⟩ := hemits.collects .start
    rw [hrun] at he
    cases he

end Sources

section Spellings

variable {h : Surroundings} {d : Disk} {p spelling : Bytes} {root : Path} {target : Bytes} {st : Stamp}

/-- A path that names a link to a directory shows the link or the directory, as its spelling goes. -/
theorem symlinkStatus_spelling (spelling : Bytes)
    (hlink : lstat d.tree (keptNames p) = .ok (.link target))
    (hdir : stat d.tree (keptNames p) = .ok (.directory st)) :
    symlinkStatus d.tree (keptNames p ++ if spelling = p ∧ plainEnd p = true then [] else [[]]) =
      if spelling = p ∧ plainEnd p = true then .ok (.link target) else .ok (.directory st) := by
  split
  · rw [List.append_nil, symlinkStatus, trailing_ordinary (keptNames_ordinary p)]
    exact hlink
  · unfold symlinkStatus
    rw [bare_trailing, hdir]
    simp [trailing]

/-- A link to a directory is refused as a root exactly under its plain spelling. -/
theorem root_links_refused (calm : Repository.Calm h) (habs : p.head? = some slash)
    (hlast : p.getLast? ≠ some slash) (hroot : normalizedRoot h.currentDirectory p = .ok root)
    (hlink : lstat d.tree (bare root) = .ok (.link target))
    (hdir : stat d.tree (bare root) = .ok (.directory st)) (hs : spelling ∈ spellings p) :
    ∃ root', normalizedRoot h.currentDirectory spelling = .ok root' ∧
      (∀ options : RepositoryCreateOptions,
        ¬ (options.chunkSizeBytes = 0 ∨ permanentMaximumChunkSize < options.chunkSizeBytes) →
        ((create h spelling options (.start d)).1 = .error (createRefusal root') ↔
          spelling = p ∧ plainEnd p = true)) ∧
      (∀ mode, (openRepository h spelling mode (.start d)).1 = .error (openRefusal root') ↔
        spelling = p ∧ plainEnd p = true) ∧
      (∀ r : Opened, r.mode = .readWrite →
        (sourceOf r false d.tree (.ok h.currentDirectory) spelling = .error (sourceRefusal root') ↔
          spelling = p ∧ plainEnd p = true)) ∧
      ∀ (source : Source) (options : FileScannerOptions), source.requested = spelling →
        source.Reads d.tree h.currentDirectory →
        ((scanStreaming collecting source options .start).1 =
          .error (.localVault (sourceRefusal root')) ↔ spelling = p ∧ plainEnd p = true) := by
  have hkept : keptNames p ≠ [] := normalizedRoot_kept habs hlast hroot
  have hnorm := normalizedRoot_spelling h.currentDirectory habs hlast hs hkept
  rw [normalizedRoot_bare_kept habs hlast hroot] at hlink hdir
  have hstatus := symlinkStatus_spelling spelling hlink hdir
  generalize hroot' : (keptNames p ++ if spelling = p ∧ plainEnd p = true then [] else [[]]) = root'
    at hnorm hstatus
  have hhead := spelling_absolute habs hs
  have hsource : NormalSource h.currentDirectory spelling root' := by
    constructor
    · rintro rfl
      cases hhead
    · rw [if_pos hhead, normal_spelling habs hlast hs, if_neg hkept, hroot']
  refine ⟨root', hnorm, ?_⟩
  by_cases hplain : spelling = p ∧ plainEnd p = true
  · rw [if_pos hplain] at hstatus
    refine ⟨fun options hchunk => iff_of_true (create_refuses calm hnorm hchunk hstatus) hplain,
      fun mode => iff_of_true (open_refuses calm hnorm hstatus mode) hplain,
      fun r hr => iff_of_true ?_ hplain, ?_⟩
    · simp [sourceOf, hr, normalizedSource_link hsource hstatus]
    · intro source options hreq hreads
      exact iff_of_true (scan_refuses (hreq ▸ hsource) hreads hstatus) hplain
  · rw [if_neg hplain] at hstatus
    refine ⟨fun options hchunk => iff_of_false (create_accepts calm hnorm hstatus) hplain,
      fun mode => iff_of_false (open_accepts calm hnorm hstatus mode) hplain,
      fun r hr => iff_of_false ?_ hplain, ?_⟩
    · simp [sourceOf, hr, normalizedSource_directory hsource hstatus]
    · intro source options hreq hreads
      exact iff_of_false (scan_accepts (hreq ▸ hsource) hreads hstatus) hplain

end Spellings

/-- A directory and a link to it. -/
def linkDisk : Disk :=
  ⟨[([], .directory ⟨0o755, 0⟩), ([ascii "d"], .directory ⟨0o755, 0⟩), ([ascii "l"], .link (ascii "d"))]⟩

theorem emptyTree_distinct : (Forest.nil : Forest Name ObjectFacts).Distinct := by decide

theorem emptyTree_named : (Forest.nil : Forest Name ObjectFacts).All (fun name _ => FileName name) := by
  decide

/-- The source `/l/` over that tree. -/
def linkedSource : Source :=
  ⟨ascii "/l/", .ok [], plain .directory, true, .absent,
    ⟨.nil, emptyTree_distinct, emptyTree_named⟩⟩

theorem root_links_refused_linked :
    (create quiet (ascii "/l") ⟨1024, 3, false, false⟩ (.start linkDisk)).1 =
      .error (createRefusal [ascii "l"]) ∧
    (openRepository quiet (ascii "/l/.") .readOnly (.start linkDisk)).1 ≠
      .error (openRefusal [ascii "l", []]) ∧
    (scanStreaming collecting linkedSource everything .start).1 ≠
      .error (.localVault (sourceRefusal [ascii "l", []])) := by
  have hcalm : Repository.Calm quiet := ⟨fun _ => rfl, fun _ => rfl⟩
  have hroot : normalizedRoot quiet.currentDirectory (ascii "/l") = .ok [ascii "l"] := by
    decide +kernel
  have hlink : lstat linkDisk.tree (bare [ascii "l"]) = .ok (.link (ascii "d")) := by decide +kernel
  have hdir : stat linkDisk.tree (bare [ascii "l"]) = .ok (.directory ⟨0o755, 0⟩) := by
    decide +kernel
  have hrefused : ∀ spelling ∈ spellings (ascii "/l"), _ := fun spelling hs =>
    root_links_refused hcalm (by decide) (by decide) hroot hlink hdir hs
  refine ⟨?_, ?_, ?_⟩
  · obtain ⟨root, hroot, hcreate, _⟩ := hrefused (ascii "/l") (by decide)
    cases hroot.symm.trans (by decide +kernel : _ = Except.ok [ascii "l"])
    exact (hcreate _ (by decide)).mpr ⟨rfl, by decide⟩
  · obtain ⟨root, hroot, _, hopen, _⟩ := hrefused (ascii "/l/.") (by decide)
    cases hroot.symm.trans (by decide +kernel : _ = Except.ok [ascii "l", []])
    exact fun he => absurd ((hopen .readOnly).mp he) (by decide)
  · obtain ⟨root, hroot, _, _, _, hscan⟩ := hrefused (ascii "/l/") (by decide)
    cases hroot.symm.trans (by decide +kernel : _ = Except.ok [ascii "l", []])
    exact fun he => absurd ((hscan linkedSource everything rfl ⟨rfl, rfl, fun _ h => by cases h⟩).mp he)
      (by decide)

/-- A separator behind the link is enough for all four to take it. -/
theorem link_accepted :
    lstat linkDisk.tree [ascii "l"] = .ok (.link (ascii "d")) ∧
    (match create quiet (ascii "/l/") ⟨1024, 3, false, false⟩ (.start linkDisk) with
      | (.ok (), s) =>
        match openRepository quiet (ascii "/l/") .readOnly s with
        | (.ok _, _) => true
        | _ => false
      | _ => false) = true ∧
    sourceOf ⟨[ascii "r"], .readWrite, 1⟩ false linkDisk.tree (.ok []) (ascii "/l/") =
      .ok [ascii "l", []] ∧
    (match scanStreaming collecting linkedSource everything .start with
      | (.ok (), _) => true
      | _ => false) = true := by
  refine ⟨?_, ?_, ?_, ?_⟩ <;> decide +kernel

end LocalVault.Snapshot
