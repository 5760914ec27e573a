import LocalVault.Snapshot.Scanner

namespace LocalVault.Snapshot
open Library

/-- What becomes of one object that the enumeration has come to. -/
inductive Verdict where
  | passed
  | warned (w : ScanWarning)
  | captured (e : ScannedEntry)

def Verdict.jobs : Verdict → List FileJob
  | .passed => []
  | .warned w => [.warning w]
  | .captured e => [.entry e]

def Verdict.descends : Verdict → Bool
  | .captured e => e.type = .directory
  | _ => false

def Verdict.captured? : Verdict → Option ScannedEntry
  | .captured e => some e
  | _ => none

def Verdict.ofExcept : Except ScanWarning ScannedEntry → Verdict
  | .error w => .warned w
  | .ok e => .captured e

/-- The calls that `scan_entry` makes itself. -/
def refusals : Except ScanWarning ScannedEntry → List FileJob
  | .error w => [.warning w]
  | .ok _ => []

/-- The warning of `scan_entry`, or its entry. -/
def judgeEntry (facts : ObjectFacts) (sourcePath : Path) (relativePath : Bytes) (status : FileType)
    (captureAsSymbolicLink : Bool) : Except ScanWarning ScannedEntry :=
  let type : Option EntryType :=
    if captureAsSymbolicLink ∨ status = .symlink then some .symbolicLink
    else if status = .regular then some .regularFile
    else if status = .directory then some .directory
    else none
  match type with
  | none => .error ⟨relativePath, "unsupported_file_type",
      "special or unknown filesystem entry was skipped"⟩
  | some type =>
    match facts.metadata with
    | .error e => .error ⟨relativePath, "metadata_unavailable", e.message⟩
    | .ok metadata =>
      let entry (symlinkTarget : Option Bytes) : ScannedEntry :=
        { sourcePath, relativePath, parentPath := parentPath relativePath,
          name := entryName relativePath, type,
          logicalSize := if type = .regularFile then metadata.logicalSize else 0,
          modifiedTimeNs := metadata.modifiedTimeNs, posixMode := metadata.posixMode, symlinkTarget }
      if type = .symbolicLink then
        match facts.target with
        | .error text => .error ⟨relativePath, "symlink_target_unavailable",
            "failed to read symbolic-link target: " ++ text⟩
        | .ok target =>
          if isValidUtf8 target then .ok (entry (some target))
          else .error ⟨relativePath, "unsupported_path_encoding",
            "symbolic-link target is not valid UTF-8 and was skipped"⟩
      else .ok (entry none)

def judge (c : ScanContext) (path : Path) (facts : ObjectFacts) : Verdict :=
  match pathToUtf8 path with
  | none => .warned ⟨[], "unsupported_path_encoding",
      "filesystem entry path is not valid UTF-8 and was skipped"⟩
  | some relative =>
    match facts.status with
    | .error text => .warned ⟨relative, "filesystem_inspection_failed",
        "failed to inspect filesystem entry: " ++ text⟩
    | .ok status =>
      match facts.platform with
      | .error e => .warned ⟨relative, "metadata_unavailable", e.message⟩
      | .ok platform =>
        let kind := scanEntryKind status platform
        if (c.ignoreRules.matches relative (directoryLike status kind)).ignored then .passed
        else
          let decision := decideScanEntry
            ⟨kind, platform.hidden, platform.cloudPlaceholder,
              platform.filesystemIdentity ≠ c.rootFilesystemIdentity⟩ c.options
          if decision.action = .warnAndSkip then
            .warned ⟨relative, decision.warningCode, warningMessage decision.warningCode⟩
          else if decision.action = .skip then .passed
          else .ofExcept (judgeEntry facts (c.sourcePath path) relative status
            (decision.action = .captureAsSymbolicLink))

/-- A scanning program gives this result and makes these calls whenever it returns, and it
returns when nobody stops it. -/
structure Emits {α : Type} (m : ScanHost → ScanM α) (a : α) (jobs : List FileJob)
    (visited : List Path) : Prop where
  collects : ∀ s, ∃ n, m collecting s = (.ok a, ⟨s.jobs ++ jobs, n, s.visited ++ visited⟩)
  returned : ∀ x s b t, m x s = (.ok b, t) →
    b = a ∧ t.jobs = s.jobs ++ jobs ∧ t.visited = s.visited ++ visited

section Emits

variable {α β : Type} {a : α}

theorem Emits.pure (a : α) : Emits (fun _ => (Pure.pure a : ScanM α)) a [] [] := by
  constructor
  · exact fun s => ⟨s.checks, by simp; rfl⟩
  · intro x s b t h
    cases h
    simp

theorem Emits.bind {m : ScanHost → ScanM α} {f : ScanHost → α → ScanM β} {b : β}
    {js ks : List FileJob} {us vs : List Path} (hm : Emits m a js us)
    (hf : Emits (fun x => f x a) b ks vs) :
    Emits (fun x => m x >>= f x) b (js ++ ks) (us ++ vs) := by
  constructor
  · intro s
    obtain ⟨n, hn⟩ := hm.collects s
    obtain ⟨k, hk⟩ := hf.collects ⟨s.jobs ++ js, n, s.visited ++ us⟩
    refine ⟨k, Program.bind_returns.mpr ⟨a, _, hn, ?_⟩⟩
    simpa using hk
  · intro x s r t h
    obtain ⟨a', u, hu, ht⟩ := Program.bind_returns.mp h
    obtain ⟨rfl, hjobs, hvisited⟩ := hm.returned x s a' u hu
    obtain ⟨rfl, hjobs', hvisited'⟩ := hf.returned x u r t ht
    exact ⟨rfl, by simp [hjobs', hjobs], by simp [hvisited', hvisited]⟩

theorem emits_checkCancelled (path : Path) : Emits (checkCancelled · path) () [] [] := by
  constructor
  · exact fun s => ⟨s.checks + 1, by simp [checkCancelled, collecting]⟩
  · intro x s b t h
    unfold checkCancelled at h
    split at h
    · cases h
    · cases h
      simp

theorem emits_callBack (job : FileJob) : Emits (callBack · job) () [job] [] := by
  constructor
  · exact fun s => ⟨s.checks, by simp [callBack, collecting]⟩
  · intro x s b t h
    unfold callBack at h
    split at h
    · cases h
    · cases h
      simp

theorem emits_warned {relativePath : Bytes} {code message : String} (a : α) : Emits (fun x => do
    addWarning x relativePath code message
    Pure.pure a) a [.warning ⟨relativePath, code, message⟩] [] :=
  (emits_callBack _).bind (Emits.pure a)

theorem emits_visit (path : Path) :
    Emits (fun _ => Program.update (fun s => { s with visited := s.visited ++ [path] })) ()
      [] [path] := by
  constructor
  · exact fun s => ⟨s.checks, by simp [Program.update]⟩
  · intro x s b t h
    cases h
    simp

end Emits

section Objects

variable {c : ScanContext} {facts : ObjectFacts}

theorem emits_scanEntry (sourcePath : Path) (relative : Bytes) (status : FileType)
    (captureAsSymbolicLink : Bool) {r : Except ScanWarning ScannedEntry}
    (hr : judgeEntry facts sourcePath relative status captureAsSymbolicLink = r) :
    Emits (scanEntry · facts sourcePath relative status captureAsSymbolicLink) r.toOption
      (refusals r) [] := by
  subst hr
  unfold scanEntry judgeEntry
  dsimp only
  generalize (if captureAsSymbolicLink = true ∨ status = FileType.symlink then some EntryType.symbolicLink
    else if status = FileType.regular then some EntryType.regularFile
    else if status = FileType.directory then some EntryType.directory else none) = type
  cases type with
  | none => exact emits_warned none
  | some type =>
    cases facts.metadata with
    | error e => exact emits_warned none
    | ok metadata =>
      dsimp only
      by_cases hlink : type = .symbolicLink
      · simp only [hlink, ↓reduceIte]
        cases facts.target with
        | error text => exact emits_warned none
        | ok target =>
          dsimp only
          by_cases hv : isValidUtf8 target = true
          · simp only [hv, ↓reduceIte]
            exact Emits.pure _
          · simp only [hv]
            exact emits_warned none
      · simp only [hlink, ↓reduceIte]
        exact Emits.pure _

theorem emits_scanObject (path : Path) :
    Emits (scanObject · c path facts) (judge c path facts).descends (judge c path facts).jobs
      [path] := by
  have hrest : ∀ {rest : ScanHost → ScanM Bool},
      Emits rest (judge c path facts).descends (judge c path facts).jobs [] →
      Emits (fun x => do
        Program.update (fun s => { s with visited := s.visited ++ [path] })
        rest x) (judge c path facts).descends (judge c path facts).jobs [path] :=
    fun h => (emits_visit path).bind h
  unfold scanObject
  refine hrest ?_
  unfold judge
  cases pathToUtf8 path with
  | none => exact emits_warned false
  | some relative =>
    cases facts.status with
    | error text => exact emits_warned false
    | ok status =>
      cases facts.platform with
      | error e => exact emits_warned false
      | ok platform =>
        dsimp only
        by_cases hign : (c.ignoreRules.matches relative
            (directoryLike status (scanEntryKind status platform))).ignored = true
        · simp only [hign, ↓reduceIte]
          exact Emits.pure _
        simp only [hign, Bool.false_eq_true, ↓reduceIte]
        generalize decideScanEntry _ _ = decision
        by_cases hwarn : decision.action = .warnAndSkip
        · simp only [hwarn, ↓reduceIte]
          exact emits_warned false
        simp only [hwarn, ↓reduceIte]
        by_cases hskip : decision.action = .skip
        · simp only [hskip, ↓reduceIte]
          exact Emits.pure _
        simp only [hskip, ↓reduceIte]
        generalize hr : judgeEntry facts (c.sourcePath path) relative status
          (decide (decision.action = .captureAsSymbolicLink)) = r
        have hentry := emits_scanEntry _ _ _ _ hr
        cases r with
        | error w => exact hentry.bind (Emits.pure _)
        | ok e => exact hentry.bind ((emits_callBack _).bind (Emits.pure _))

end Objects

/-- What the warning of an enumeration that fails says. -/
def enumerationWarning (directory : Path) (message : String) : ScanWarning :=
  ⟨(pathToUtf8 directory).getD [], "directory_enumeration_failed", message⟩

/-- The calls for a directory around those of its loop. -/
def listed (directory : Path) (enumeration : Enumeration) (jobs : List FileJob) : List FileJob :=
  match enumeration.refused with
  | some text => [.warning (enumerationWarning directory ("failed to enumerate directory: " ++ text))]
  | none => jobs

/-- How the loop goes on behind an entry: it breaks off, or it takes the next one. -/
def after {γ : Type} (broken : String → γ) (loop : Option (Nat × String) → γ) :
    Option (Nat × String) → γ
  | some (0, text) => broken text
  | some (n + 1, text) => loop (some (n, text))
  | none => loop none

theorem after_cases {γ : Type} {broken : String → γ} {loop : Option (Nat × String) → γ}
    {P : γ → Prop} (interrupted : Option (Nat × String)) (hb : ∀ text, P (broken text))
    (hl : ∀ i, P (loop i)) : P (after broken loop interrupted) :=
  match interrupted with
  | some (0, text) => hb text
  | some (_ + 1, _) => hl _
  | none => hl none

/-- The calls when an enumeration breaks off. -/
def brokenOff (directory : Path) (text : String) : List FileJob :=
  [.warning (enumerationWarning directory ("failed while enumerating directory: " ++ text))]

/-- All calls of the loop of `scan_directory`. -/
def scanned (c : ScanContext) (directory : Path) (interrupted : Option (Nat × String)) :
    Forest Name ObjectFacts → List FileJob
  | .nil => []
  | .cons name facts below rest =>
    (judge c (directory ++ [name]) facts).jobs ++
    ((if (judge c (directory ++ [name]) facts).descends then
      listed (directory ++ [name]) facts.enumeration
        (scanned c (directory ++ [name]) facts.enumeration.interrupted below) else []) ++
    after (brokenOff directory) (fun i => scanned c directory i rest) interrupted)

/-- The objects that the loop comes to. -/
def reached (c : ScanContext) (directory : Path) (interrupted : Option (Nat × String)) :
    Forest Name ObjectFacts → List (Path × ObjectFacts)
  | .nil => []
  | .cons name facts below rest =>
    (directory ++ [name], facts) ::
    ((if (judge c (directory ++ [name]) facts).descends ∧ facts.enumeration.refused = none then
      reached c (directory ++ [name]) facts.enumeration.interrupted below else []) ++
    after (fun _ => []) (fun i => reached c directory i rest) interrupted)

section Loop

variable {c : ScanContext}

theorem emits_scanDirectory {directory : Path} {enumeration : Enumeration}
    {loop : ScanHost → ScanM Unit} {jobs : List FileJob} {visited : List Path}
    (hloop : Emits loop () jobs visited) :
    Emits (fun x => scanDirectory x c directory enumeration (loop x)) ()
      (listed directory enumeration jobs)
      (if enumeration.refused = none then visited else []) := by
  obtain ⟨refused, interrupted⟩ := enumeration
  cases refused with
  | some text => exact (emits_checkCancelled _).bind (emits_callBack _)
  | none => exact (emits_checkCancelled _).bind hloop

theorem emits_scanEntries (f : Forest Name ObjectFacts) (directory : Path)
    (interrupted : Option (Nat × String)) :
    Emits (scanEntries · c directory interrupted f) () (scanned c directory interrupted f)
      ((reached c directory interrupted f).map Prod.fst) := by
  induction f generalizing directory interrupted with
  | nil => exact Emits.pure ()
  | cons name facts below rest ihb ihr =>
    have hobject : Emits (scanObject · c (directory ++ [name]) facts) _ _ _ := emits_scanObject _
    have hbelow : Emits (fun x => (if (judge c (directory ++ [name]) facts).descends then
        scanDirectory x c (directory ++ [name]) facts.enumeration
          (scanEntries x c (directory ++ [name]) facts.enumeration.interrupted below)
        else pure () : ScanM Unit)) ()
        (if (judge c (directory ++ [name]) facts).descends then
          listed (directory ++ [name]) facts.enumeration
            (scanned c (directory ++ [name]) facts.enumeration.interrupted below) else [])
        ((if (judge c (directory ++ [name]) facts).descends ∧ facts.enumeration.refused = none then
          reached c (directory ++ [name]) facts.enumeration.interrupted below else []).map
            Prod.fst) := by
      cases (judge c (directory ++ [name]) facts).descends with
      | false => exact Emits.pure ()
      | true =>
        have h : Emits (fun x => scanDirectory x c (directory ++ [name]) facts.enumeration
            (scanEntries x c (directory ++ [name]) facts.enumeration.interrupted below)) () _ _ :=
          emits_scanDirectory (ihb (directory ++ [name]) facts.enumeration.interrupted)
        simpa [apply_ite (List.map Prod.fst)] using h
    have hall : ∀ {js : List FileJob} {vs : List Path},
        Emits (fun x => incremented x directory (fun i => scanEntries x c directory i rest)
          interrupted) () js vs → Emits (scanEntries · c directory interrupted
            (.cons name facts below rest)) () _ _ :=
      fun hrest => (emits_checkCancelled (c.sourcePath directory)).bind
        (hobject.bind (hbelow.bind hrest))
    match interrupted with
    | none => simpa [scanned, reached, after] using hall (ihr directory none)
    | some (0, text) =>
      simpa [scanned, reached, after, brokenOff, enumerationWarning] using hall (emits_callBack _)
    | some (n + 1, text) => simpa [scanned, reached, after] using hall (ihr directory (some (n, text)))

end Loop

/-- A symbolic link or a junction. -/
def IsLink (facts : ObjectFacts) : Prop :=
  facts.status = .ok .symlink ∨ ∃ platform, facts.platform = .ok platform ∧
    (platform.reparseKind = .symbolicLink ∨ platform.reparseKind = .junction)

/-- Matched by an ignore rule. -/
def Ignored (c : ScanContext) (path : Path) (facts : ObjectFacts) : Prop :=
  ∃ status platform, facts.status = .ok status ∧ facts.platform = .ok platform ∧
    (c.ignoreRules.matches (joined path)
      (directoryLike status (scanEntryKind status platform))).ignored = true

/-- Hidden, while hidden objects are left out. -/
def Hidden (c : ScanContext) (facts : ObjectFacts) : Prop :=
  c.options.includeHidden = false ∧ ∃ platform, facts.platform = .ok platform ∧ platform.hidden = true

/-- A warning about an object that was skipped. -/
def IsSkip (w : ScanWarning) : Prop := w.code ≠ "directory_enumeration_failed"

section Verdicts

variable {c : ScanContext} {path : Path} {facts : ObjectFacts}

theorem pathToUtf8_some {relative : Bytes} (h : pathToUtf8 path = some relative) :
    relative = joined path ∧ isValidUtf8 (joined path) = true := by
  unfold pathToUtf8 at h
  split at h
  · exact ⟨(Option.some.inj h).symm, ‹_›⟩
  · cases h

/-- An entry that `scan_entry` returns. -/
structure EntryOf (facts : ObjectFacts) (sourcePath : Path) (relative : Bytes) (status : FileType)
    (captureAsSymbolicLink : Bool) (e : ScannedEntry) : Prop where
  sourcePath : e.sourcePath = sourcePath
  relativePath : e.relativePath = relative
  parentPath : e.parentPath = Snapshot.parentPath relative
  name : e.name = entryName relative
  directory : e.type = .directory → captureAsSymbolicLink = false ∧ status = .directory
  others : e.type ≠ .directory →
    captureAsSymbolicLink = true ∨ status = .symlink ∨ status = .regular

theorem judgeEntry_ok {sourcePath : Path} {relative : Bytes} {status : FileType}
    {captureAsSymbolicLink : Bool} {e : ScannedEntry}
    (h : judgeEntry facts sourcePath relative status captureAsSymbolicLink = .ok e) :
    EntryOf facts sourcePath relative status captureAsSymbolicLink e := by
  unfold judgeEntry at h
  dsimp only at h
  generalize htype : (if captureAsSymbolicLink = true ∨ status = FileType.symlink then
    some EntryType.symbolicLink
    else if status = FileType.regular then some EntryType.regularFile
    else if status = FileType.directory then some EntryType.directory else none) = type at h
  cases type with
  | none => cases h
  | some type =>
    have hdir : type = .directory → captureAsSymbolicLink = false ∧ status = .directory := by
      rintro rfl
      grind
    have hother : type ≠ .directory →
        captureAsSymbolicLink = true ∨ status = .symlink ∨ status = .regular := by
      grind
    cases hm : facts.metadata with
    | error e => simp [hm] at h
    | ok metadata =>
      simp only [hm] at h
      split at h
      · split at h
        · cases h
        · split at h
          · cases h
            exact ⟨rfl, rfl, rfl, rfl, hdir, hother⟩
          · cases h
      · cases h
        exact ⟨rfl, rfl, rfl, rfl, hdir, hother⟩

theorem judgeEntry_error {sourcePath : Path} {relative : Bytes} {status : FileType}
    {captureAsSymbolicLink : Bool} {w : ScanWarning}
    (h : judgeEntry facts sourcePath relative status captureAsSymbolicLink = .error w) :
    w.relativePath = relative ∧ IsSkip w := by
  unfold judgeEntry at h
  dsimp only at h
  split at h
  · cases h
    exact ⟨rfl, by simp [IsSkip]⟩
  · split at h
    · cases h
      exact ⟨rfl, by simp [IsSkip]⟩
    · split at h
      · split at h
        · cases h
          exact ⟨rfl, by simp [IsSkip]⟩
        · split at h
          · cases h
          · cases h
            exact ⟨rfl, by simp [IsSkip]⟩
      · cases h

theorem decideScanEntry_cases (f : ScanEntryFacts) (options : FileScannerOptions) :
    ((decideScanEntry f options).action = .skip ∧ options.includeHidden = false ∧ f.hidden = true) ∨
    ((decideScanEntry f options).action = .warnAndSkip ∧
      (decideScanEntry f options).warningCode ≠ "directory_enumeration_failed") ∨
    ((decideScanEntry f options).action ≠ .warnAndSkip ∧ (decideScanEntry f options).action ≠ .skip ∧
      ¬ (options.includeHidden = false ∧ f.hidden = true) ∧
      ((decideScanEntry f options).action = .captureAsSymbolicLink ↔
        f.kind = .symbolicLink ∨ f.kind = .junction)) := by
  unfold decideScanEntry
  split
  · exact Or.inl ⟨rfl, ‹_›⟩
  split
  · exact Or.inr (Or.inl ⟨rfl, by simp⟩)
  split
  · exact Or.inr (Or.inl ⟨rfl, by simp⟩)
  split
  · exact Or.inr (Or.inl ⟨rfl, by simp⟩)
  split
  · exact Or.inr (Or.inl ⟨rfl, by simp⟩)
  split
  · rename_i hkind
    exact Or.inr (Or.inr ⟨by simp, by simp, ‹_›, by simpa using hkind⟩)
  · rename_i hkind
    exact Or.inr (Or.inr ⟨by simp, by simp, ‹_›, by simpa using hkind⟩)

theorem isLink_iff {status : FileType} {platform : ScannerPlatformMetadata}
    (hs : facts.status = .ok status) (hp : facts.platform = .ok platform) :
    IsLink facts ↔ status = .symlink ∨ scanEntryKind status platform = .symbolicLink ∨
      scanEntryKind status platform = .junction := by
  have hreduce : IsLink facts ↔ status = .symlink ∨ platform.reparseKind = .symbolicLink ∨
      platform.reparseKind = .junction := by
    simp [IsLink, hs, hp]
  rw [hreduce]
  unfold scanEntryKind
  by_cases hlink : status = .symlink <;> cases platform.reparseKind <;> simp [hlink]

/-- Everything about an object that was looked at in full. -/
theorem judge_cases (c : ScanContext) (path : Path) (facts : ObjectFacts) :
    (judge c path facts = .passed ∧ isValidUtf8 (joined path) = true ∧
      (Ignored c path facts ∨ Hidden c facts)) ∨
    (∃ w, judge c path facts = .warned w ∧ w.relativePath = (pathToUtf8 path).getD [] ∧ IsSkip w) ∨
    ∃ e status captureAsSymbolicLink, judge c path facts = .captured e ∧
      isValidUtf8 (joined path) = true ∧ facts.status = .ok status ∧
      EntryOf facts (c.sourcePath path) (joined path) status captureAsSymbolicLink e ∧
      ¬ Ignored c path facts ∧ ¬ Hidden c facts ∧
      (IsLink facts ↔ captureAsSymbolicLink = true ∨ status = .symlink) := by
  unfold judge
  cases hpath : pathToUtf8 path with
  | none => exact Or.inr (Or.inl ⟨_, rfl, rfl, by simp [IsSkip]⟩)
  | some relative =>
    obtain ⟨rfl, hvalid⟩ := pathToUtf8_some hpath
    cases hs : facts.status with
    | error text => exact Or.inr (Or.inl ⟨_, rfl, rfl, by simp [IsSkip]⟩)
    | ok status =>
      cases hp : facts.platform with
      | error e => exact Or.inr (Or.inl ⟨_, rfl, rfl, by simp [IsSkip]⟩)
      | ok platform =>
        dsimp only
        split
        · exact Or.inl ⟨rfl, hvalid, Or.inl ⟨status, platform, hs, hp, ‹_›⟩⟩
        rename_i hign
        have hnotIgnored : ¬ Ignored c path facts := by
          rintro ⟨status', platform', hs', hp', hm⟩
          cases hs.symm.trans hs'
          cases hp.symm.trans hp'
          exact hign hm
        have hhidden : Hidden c facts ↔ c.options.includeHidden = false ∧ platform.hidden = true := by
          simp [Hidden, hp]
        rcases decideScanEntry_cases ⟨scanEntryKind status platform, platform.hidden,
          platform.cloudPlaceholder, platform.filesystemIdentity ≠ c.rootFilesystemIdentity⟩
          c.options with ⟨ha, hh⟩ | ⟨ha, hcode⟩ | ⟨hwarn, hskip, hh, hlink⟩
        · simp only [ha, reduceCtorEq, ↓reduceIte]
          exact Or.inl ⟨trivial, hvalid, Or.inr (hhidden.mpr hh)⟩
        · simp only [ha, ↓reduceIte]
          exact Or.inr (Or.inl ⟨_, rfl, rfl, hcode⟩)
        · simp only [hwarn, hskip, ↓reduceIte]
          generalize hr : judgeEntry facts _ _ _ _ = r
          cases r with
          | error w =>
            obtain ⟨hpath', hw⟩ := judgeEntry_error hr
            exact Or.inr (Or.inl ⟨w, rfl, hpath', hw⟩)
          | ok e =>
            refine Or.inr (Or.inr ⟨e, status, _, rfl, hvalid, rfl, judgeEntry_ok hr, hnotIgnored,
              fun h => hh (hhidden.mp h), ?_⟩)
            rw [isLink_iff hs hp, decide_eq_true_eq, hlink]
            exact or_comm

end Verdicts

end LocalVault.Snapshot
