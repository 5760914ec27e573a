import Mathlib.Data.String.Basic
import LocalVault.Proofs.Reached
import LocalVault.Proofs.Selection

namespace LocalVault.Snapshot
open Library

/-- A scanning program ends with this error when nobody stops it, and never returns. -/
structure Refuses {α : Type} (m : ScanHost → ScanM α) (e : Raised) : Prop where
  raised : ∀ s, (m collecting s).1 = .error e
  never : ∀ x s b t, m x s ≠ (.ok b, t)

theorem refuses_raise {α : Type} (e : Raised) : Refuses (fun _ => (Program.raise e : ScanM α)) e :=
  ⟨fun _ => rfl, fun _ _ _ _ h => by cases h⟩

theorem Emits.refuses {α β : Type} {m : ScanHost → ScanM α} {f : ScanHost → α → ScanM β} {a : α}
    {e : Raised} {js : List FileJob} {us : List Path} (hm : Emits m a js us)
    (hf : Refuses (fun x => f x a) e) : Refuses (fun x => m x >>= f x) e := by
  constructor
  · intro s
    obtain ⟨n, hn⟩ := hm.collects s
    have := hf.raised ⟨s.jobs ++ js, n, s.visited ++ us⟩
    simpa [Bind.bind, Program.andThen, hn] using this
  · intro x s b t h
    obtain ⟨a', u, hu, ht⟩ := Program.bind_returns.mp h
    obtain ⟨rfl, _, _⟩ := hm.returned x s a' u hu
    exact hf.never x u b t ht

/-- What `scan_directory` is first called with, and the entry of the root. -/
structure Begun (source : Source) (options : FileScannerOptions) (c : ScanContext)
    (root : ScannedEntry) : Prop where
  status : source.facts.status = .ok .directory
  sourcePath : ∃ directory, source.currentDirectory = .ok directory ∧
    c.root = source.normalized directory
  identity : ∃ platform, source.facts.platform = .ok platform ∧
    c.rootFilesystemIdentity = platform.filesystemIdentity
  rules : IgnoreRules.load (options.ignoreFile.getD (bare c.root ++ [ignoreFileName]))
    options.ignoreFile.isSome (if source.caseSensitive then .sensitive else .insensitive)
    source.ignoreFile = .ok c.ignoreRules
  options : c.options = options
  root : judgeEntry source.facts c.root [] .directory false = .ok root

/-- A scan is refused before it enumerates anything, whatever the tree is, or it emits the root
and what the loop of `scan_directory` emits. -/
theorem scanStreaming_cases (source : Source) (options : FileScannerOptions) :
    (∃ e, ∀ tree, Refuses (scanStreaming · { source with tree } options) e) ∨
    ∃ c root, Begun source options c root ∧ ∀ tree,
      Emits (scanStreaming · { source with tree } options) ()
        (.entry root :: listed [] source.facts.enumeration
          (scanned c [] source.facts.enumeration.interrupted tree.objects))
        (if source.facts.enumeration.refused = none then
          (reached c [] source.facts.enumeration.interrupted tree.objects).map Prod.fst else []) := by
  have hnormalized : ∀ tree directory, Source.normalized { source with tree } directory =
      source.normalized directory := fun _ _ => rfl
  have hsensitivity : ∀ tree : SourceTree, (if ({ source with tree } : Source).caseSensitive then
      IgnoreCaseSensitivity.sensitive else .insensitive) =
      if source.caseSensitive then .sensitive else .insensitive := fun _ => rfl
  unfold scanStreaming
  simp only [↓hsensitivity, hnormalized]
  by_cases hempty : source.requested = []
  · simp only [hempty, ↓reduceIte]
    exact Or.inl ⟨_, fun _ => refuses_raise _⟩
  simp only [hempty, ↓reduceIte]
  have hcheck := emits_checkCancelled (components source.requested)
  cases hdirectory : source.currentDirectory with
  | error text => exact Or.inl ⟨_, fun _ => hcheck.refuses (refuses_raise _)⟩
  | ok directory =>
    cases hs : source.facts.status with
    | error text => exact Or.inl ⟨_, fun _ => hcheck.refuses (refuses_raise _)⟩
    | ok status =>
      by_cases hstatus : status = .directory
      swap
      · simp only [ne_eq, hstatus, not_false_eq_true, ↓reduceIte]
        exact Or.inl ⟨_, fun _ => hcheck.refuses (refuses_raise _)⟩
      subst hstatus
      cases hp : source.facts.platform with
      | error e => exact Or.inl ⟨_, fun _ => hcheck.refuses (refuses_raise _)⟩
      | ok platform =>
        by_cases hplain : platform.reparseKind ≠ .none ∨ platform.cloudPlaceholder = true
        · simp only [ne_eq, not_true_eq_false, hplain, ↓reduceIte]
          exact Or.inl ⟨_, fun _ => hcheck.refuses (refuses_raise _)⟩
        simp only [ne_eq, not_true_eq_false, hplain, ↓reduceIte]
        cases hload : IgnoreRules.load
          (options.ignoreFile.getD (bare (source.normalized directory) ++ [ignoreFileName]))
          options.ignoreFile.isSome (if source.caseSensitive then .sensitive else .insensitive)
          source.ignoreFile with
        | error e => exact Or.inl ⟨_, fun _ => hcheck.refuses (refuses_raise _)⟩
        | ok ignoreRules =>
          generalize hr : judgeEntry source.facts (source.normalized directory) [] .directory
            false = r
          have hentry := emits_scanEntry _ _ _ _ hr
          cases r with
          | error w =>
            exact Or.inl ⟨_, fun _ => hcheck.refuses (hentry.refuses (refuses_raise _))⟩
          | ok root =>
            refine Or.inr ⟨⟨source.normalized directory, platform.filesystemIdentity, ignoreRules,
              options⟩, root, ⟨hs, ⟨_, hdirectory, rfl⟩, ⟨_, hp, rfl⟩, hload, rfl, hr⟩, fun tree => ?_⟩
            exact hcheck.bind (hentry.bind ((emits_callBack _).bind
              (emits_scanDirectory (emits_scanEntries _ _ _))))

theorem filterMap_map {α β γ : Type} {f : α → Option β} {g : β → γ} {h : α → γ} (l : List α)
    (hf : ∀ a b, f a = some b → g b = h a) :
    (l.filterMap f).map g = (l.filter (fun a => (f a).isSome)).map h := by
  induction l with
  | nil => rfl
  | cons a l ih =>
    cases ha : f a with
    | none => simp [ha, ih]
    | some b => simp [ha, ih, hf a b ha]

theorem bare_append {p q : Path} (h : p = bare p ++ q) : q = [] ∨ q = [[]] := by
  unfold bare at h
  split at h
  · rename_i htrailing
    have hlast : p.getLast? = some [] := by simpa [trailing] using htrailing
    have hsplit : p = p.dropLast ++ [[]] := (List.dropLast_append_getLast? [] hlast).symm
    right
    rw [hsplit, List.dropLast_concat] at h
    exact (List.append_cancel_left h).symm
  · exact Or.inl (by simpa using h)

theorem joined_injective {p q : Path} (hp : ∀ n ∈ p, FileName n) (hq : ∀ n ∈ q, FileName n)
    (h : joined p = joined q) : p = q := by
  rw [← names_joined (fun n hn => (hp n hn).1) (fun n hn => (hp n hn).2.2.2), h,
    names_joined (fun n hn => (hq n hn).1) (fun n hn => (hq n hn).2.2.2)]

theorem joined_ne_nil {n : Name} {p : Path} (hn : n ≠ []) : joined (n :: p) ≠ [] := by
  cases p <;> simp [joined, hn]

/-- The objects that a scan comes to. -/
def visitedObjects (source : Source) (c : ScanContext) : List (Path × ObjectFacts) :=
  if source.facts.enumeration.refused = none then
    reached c [] source.facts.enumeration.interrupted source.tree.objects
  else []

/-- The objects that were warned about and skipped. -/
def warnedObjects (source : Source) (c : ScanContext) : List Path :=
  ((visitedObjects source c).filter (fun r => (judge c r.1 r.2).warning?.isSome)).map Prod.fst

def capturedObjects (source : Source) (c : ScanContext) : List Path :=
  ((visitedObjects source c).filter (fun r => (judge c r.1 r.2).captured?.isSome)).map Prod.fst

/-- All calls of a scan. -/
def jobsOf (source : Source) (c : ScanContext) (root : ScannedEntry) : List FileJob :=
  .entry root :: listed [] source.facts.enumeration
    (scanned c [] source.facts.enumeration.interrupted source.tree.objects)

section Scans

variable {source : Source} {options : FileScannerOptions} {c : ScanContext} {root : ScannedEntry}
  {p : Path} {o : ObjectFacts}

/-- What a scan that returns has done. -/
theorem scanStreaming_returns {x : ScanHost} {s : Scanning}
    (h : scanStreaming x source options .start = (.ok (), s)) :
    ∃ c root, Begun source options c root ∧ s.jobs = jobsOf source c root ∧
      s.visited = (visitedObjects source c).map Prod.fst := by
  rcases scanStreaming_cases source options with ⟨e, hrefuses⟩ | ⟨c, root, begun, hemits⟩
  · exact absurd h ((hrefuses source.tree).never x _ _ _)
  · obtain ⟨_, hjobs, hvisited⟩ := (hemits source.tree).returned x _ _ _ h
    refine ⟨c, root, begun, hjobs, ?_⟩
    rw [hvisited, visitedObjects, apply_ite (List.map Prod.fst)]
    rfl

theorem visited_reached (h : (p, o) ∈ visitedObjects source c) :
    source.facts.enumeration.refused = none ∧
      (p, o) ∈ reached c [] source.facts.enumeration.interrupted source.tree.objects := by
  unfold visitedObjects at h
  split at h
  · exact ⟨‹_›, h⟩
  · cases h

/-- An object that the scan comes to is in the tree, and all directories above it were captured. -/
theorem visited_inv (h : (p, o) ∈ visitedObjects source c) :
    p ≠ [] ∧ source.tree.objects.find p = some o ∧
      ∀ q, q ≠ [] → q <+: p → q ≠ p → ∃ facts, source.tree.objects.find q = some facts ∧
        (judge c q facts).descends = true := by
  obtain ⟨n, r, rfl, hfind, habove⟩ := reached_inv source.tree.distinct (visited_reached h).2
  exact ⟨by simp, hfind, habove⟩

theorem visited_names (h : (p, o) ∈ visitedObjects source c) : ∀ n ∈ p, FileName n :=
  Forest.find_names source.tree.named (visited_inv h).2.1

theorem visited_nodup : ((visitedObjects source c).map Prod.fst).Nodup := by
  unfold visitedObjects
  split
  · exact reached_nodup source.tree.distinct
  · exact List.nodup_nil

theorem warned_nodup : (warnedObjects source c).Nodup :=
  visited_nodup.sublist (List.filter_sublist.map _)

theorem captured_nodup : (capturedObjects source c).Nodup :=
  visited_nodup.sublist (List.filter_sublist.map _)

theorem mem_warnedObjects : p ∈ warnedObjects source c ↔
    ∃ o, (p, o) ∈ visitedObjects source c ∧ ∃ w, judge c p o = .warned w := by
  simp only [warnedObjects, List.mem_map, List.mem_filter, Prod.exists, exists_and_right,
    exists_eq_right]
  refine exists_congr fun o => and_congr_right fun _ => ?_
  cases judge c p o <;> simp [Verdict.warning?]

theorem mem_capturedObjects : p ∈ capturedObjects source c ↔
    ∃ o, (p, o) ∈ visitedObjects source c ∧ ∃ e, judge c p o = .captured e := by
  simp only [capturedObjects, List.mem_map, List.mem_filter, Prod.exists, exists_and_right,
    exists_eq_right]
  refine exists_congr fun o => and_congr_right fun _ => ?_
  cases judge c p o <;> simp [Verdict.captured?]

theorem captured_names (h : p ∈ capturedObjects source c) : p ≠ [] ∧ ∀ n ∈ p, FileName n := by
  obtain ⟨o, ho, _⟩ := mem_capturedObjects.mp h
  exact ⟨(visited_inv ho).1, visited_names ho⟩

theorem jobsOf_entries : (jobsOf source c root).filterMap FileJob.scanned? = root ::
    (visitedObjects source c).filterMap (fun r => (judge c r.1 r.2).captured?) := by
  unfold jobsOf visitedObjects listed
  cases source.facts.enumeration.refused with
  | none => simpa [FileJob.scanned?] using scanned_entries
  | some text => rfl

theorem jobsOf_skips : (jobsOf source c root).filterMap FileJob.skip? =
    (visitedObjects source c).filterMap (fun r => (judge c r.1 r.2).warning?) := by
  unfold jobsOf visitedObjects listed
  cases source.facts.enumeration.refused with
  | none => exact (List.filterMap_cons_none rfl).trans scanned_skips
  | some text => rfl

/-- What holds of each captured object by its path holds of the entries. -/
theorem jobsOf_map {γ : Type} {g : ScannedEntry → γ} {h : Path → γ}
    (hg : ∀ p o e, judge c p o = .captured e → g e = h p) :
    ((jobsOf source c root).filterMap FileJob.scanned?).map g =
      g root :: (capturedObjects source c).map h := by
  rw [jobsOf_entries, List.map_cons, filterMap_map (h := fun r => h r.1), capturedObjects,
    List.map_map]
  · rfl
  · intro r e he
    refine hg r.1 r.2 e ?_
    cases hj : judge c r.1 r.2 with
    | captured e' =>
      rw [hj] at he
      rw [Option.some.inj he]
    | passed => simp [hj, Verdict.captured?] at he
    | warned w => simp [hj, Verdict.captured?] at he

/-- An entry that is captured has the paths of its object. -/
theorem judge_captured {e : ScannedEntry} (h : judge c p o = .captured e) :
    e.sourcePath = c.sourcePath p ∧ e.relativePath = joined p := by
  rcases judge_cases c p o with ⟨hj, _⟩ | ⟨_, hj, _⟩ | ⟨e', _, _, hj, _, _, hentry, _⟩
  · rw [h] at hj
    cases hj
  · rw [h] at hj
    cases hj
  · rw [h] at hj
    cases hj
    exact ⟨hentry.sourcePath, hentry.relativePath⟩

theorem sourcePaths_nodup (begun : Begun source options c root) :
    (((jobsOf source c root).filterMap FileJob.scanned?).map (·.sourcePath)).Nodup := by
  rw [jobsOf_map (fun _ _ _ h => (judge_captured h).1), List.nodup_cons]
  constructor
  · intro hm
    obtain ⟨p, hp, he⟩ := List.mem_map.mp hm
    rw [(judgeEntry_ok begun.root).sourcePath] at he
    obtain ⟨hne, hnames⟩ := captured_names hp
    rcases bare_append he.symm with h | h
    · exact hne h
    · exact (hnames [] (by simp [h])).1 rfl
  · refine captured_nodup.map ?_
    intro p q h
    exact List.append_cancel_left h

theorem relativePaths_nodup (begun : Begun source options c root) :
    (((jobsOf source c root).filterMap FileJob.scanned?).map (·.relativePath)).Nodup := by
  rw [jobsOf_map (fun _ _ _ h => (judge_captured h).2), List.nodup_cons]
  constructor
  · intro hm
    obtain ⟨p, hp, he⟩ := List.mem_map.mp hm
    rw [(judgeEntry_ok begun.root).relativePath] at he
    obtain ⟨hne, hnames⟩ := captured_names hp
    cases p with
    | nil => exact hne rfl
    | cons n r => exact joined_ne_nil (hnames n (by simp)).1 he
  · refine captured_nodup.map_on ?_
    intro p hp q hq h
    exact joined_injective (captured_names hp).2 (captured_names hq).2 h

/-- An entry was emitted for the object at this path. -/
def Emitted (c : ScanContext) (jobs : List FileJob) (p : Path) : Prop :=
  ∃ e, .entry e ∈ jobs ∧ e.sourcePath = c.sourcePath p

/-- Skipped with a warning, or left out on purpose. -/
def Skipped (c : ScanContext) (warned : List Path) (p : Path) (o : ObjectFacts) : Prop :=
  p ∈ warned ∨ Ignored c p o ∨ Hidden c o

/-- An object of the tree: nothing above it is a link or a file. -/
def Below (f : Forest Name ObjectFacts) (p : Path) : Prop :=
  ∀ q o, q <+: p → q ≠ p → f.find q = some o → ¬ IsLink o ∧ o.status ≠ .ok .regular

/-- Nothing is lost in silence. `warned` are the objects that have a skip warning each. -/
structure NothingLost (source : Source) (c : ScanContext) (s : Scanning) (warned : List Path) :
    Prop where
  once : ((s.jobs.filterMap FileJob.scanned?).map (·.sourcePath)).Nodup
  warnedOnce : warned.Nodup
  warnings : (s.jobs.filterMap FileJob.skip?).map (·.relativePath) =
    warned.map (fun p => (pathToUtf8 p).getD [])
  explained : ∀ p o, source.tree.objects.find p = some o → Below source.tree.objects p →
    Emitted c s.jobs p ∨ Skipped c warned p o ∨
    (∃ q facts, q <+: p ∧ q ≠ p ∧ source.tree.objects.find q = some facts ∧
      Skipped c warned q facts) ∨
    ∃ q, q <+: p ∧ q ≠ p ∧ EnumerationWarned s.jobs q
  barred : ∀ q facts, source.tree.objects.find q = some facts →
    IsLink facts ∨ Skipped c warned q facts →
    ∀ p, q <+: p → q ≠ p → p ∉ s.visited ∧ ¬ Emitted c s.jobs p

theorem emitted_iff (begun : Begun source options c root) (hp : p ≠ []) (hroot : p ≠ [[]]) :
    Emitted c (jobsOf source c root) p ↔ p ∈ capturedObjects source c := by
  have hmem : ∀ e, .entry e ∈ jobsOf source c root ↔
      e ∈ (jobsOf source c root).filterMap FileJob.scanned? := by
    intro e
    rw [List.mem_filterMap]
    constructor
    · exact fun h => ⟨_, h, rfl⟩
    · rintro ⟨job, hj, he⟩
      cases job with
      | entry e' => rwa [← Option.some.inj he]
      | warning w => cases he
  have hpaths : Emitted c (jobsOf source c root) p ↔ c.sourcePath p ∈
      ((jobsOf source c root).filterMap FileJob.scanned?).map (·.sourcePath) := by
    simp only [Emitted, hmem, List.mem_map]
  rw [hpaths, jobsOf_map (fun _ _ _ h => (judge_captured h).1), List.mem_cons, List.mem_map]
  constructor
  · rintro (h | ⟨q, hq, h⟩)
    · rw [(judgeEntry_ok begun.root).sourcePath] at h
      rcases bare_append h.symm with h | h
      · exact absurd h hp
      · exact absurd h hroot
    · rwa [← List.append_cancel_left h]
  · exact fun h => Or.inr ⟨p, h, rfl⟩

/-- Of an object that is not gone below, one is skipped, or it is a link or a file. -/
theorem judge_stops (c : ScanContext) (p : Path) (o : ObjectFacts)
    (h : (judge c p o).descends = false) :
    (∃ w, judge c p o = .warned w) ∨ Ignored c p o ∨ Hidden c o ∨ IsLink o ∨
      o.status = .ok .regular := by
  rcases judge_cases c p o with ⟨_, _, hb⟩ | ⟨w, hj, _⟩ |
    ⟨e, status, link, hj, _, hs, hentry, _, _, hlink⟩
  · exact Or.inr (hb.imp_right Or.inl)
  · exact Or.inl ⟨w, hj⟩
  · have hne : e.type ≠ .directory := by simpa [hj, Verdict.descends] using h
    rcases hentry.others hne with hl | hl | hl
    · exact Or.inr (Or.inr (Or.inr (Or.inl (hlink.mpr (Or.inl hl)))))
    · exact Or.inr (Or.inr (Or.inr (Or.inl (hlink.mpr (Or.inr hl)))))
    · exact Or.inr (Or.inr (Or.inr (Or.inr (by rw [hs, hl]))))

/-- An object that is gone below is neither a link nor skipped. -/
theorem judge_descends (h : (judge c p o).descends = true) :
    ¬ IsLink o ∧ ¬ Ignored c p o ∧ ¬ Hidden c o ∧ ∀ w, judge c p o ≠ .warned w := by
  rcases judge_cases c p o with ⟨hj, _⟩ | ⟨w, hj, _⟩ |
    ⟨e, status, link, hj, _, hs, hentry, hignored, hhidden, hlink⟩
  · simp [hj, Verdict.descends] at h
  · simp [hj, Verdict.descends] at h
  · have he : e.type = .directory := by simpa [hj, Verdict.descends] using h
    obtain ⟨hl, hd⟩ := hentry.directory he
    refine ⟨?_, hignored, hhidden, by simp [hj]⟩
    intro hlinked
    rcases hlink.mp hlinked with h | h
    · simp [hl] at h
    · simp [hd] at h

theorem nothingLost (begun : Begun source options c root) {s : Scanning}
    (hjobs : s.jobs = jobsOf source c root)
    (hvisited : s.visited = (visitedObjects source c).map Prod.fst) :
    NothingLost source c s (warnedObjects source c) := by
  have hnames : ∀ {p o}, source.tree.objects.find p = some o → p ≠ [] ∧ p ≠ [[]] := by
    intro p o h
    constructor
    · rintro rfl
      rw [Forest.find_nil_path] at h
      cases h
    · rintro rfl
      exact (Forest.find_names source.tree.named h [] (by simp)).1 rfl
  refine ⟨hjobs ▸ sourcePaths_nodup begun, warned_nodup, ?_, ?_, ?_⟩
  · rw [hjobs, jobsOf_skips, filterMap_map (h := fun r => (pathToUtf8 r.1).getD []), warnedObjects,
      List.map_map]
    · rfl
    · intro r w hw
      rcases judge_cases c r.1 r.2 with ⟨hj, _⟩ | ⟨w', hj, hpath, _⟩ | ⟨e, _, _, hj, _⟩
      · simp [hj, Verdict.warning?] at hw
      · rw [hj] at hw
        rw [← Option.some.inj hw]
        exact hpath
      · simp [hj, Verdict.warning?] at hw
  · intro p o hfind hbelow
    rw [hjobs]
    obtain ⟨hne, hnn⟩ := hnames hfind
    rw [emitted_iff begun hne hnn]
    cases hrefused : source.facts.enumeration.refused with
    | some text =>
      refine Or.inr (Or.inr (Or.inr ⟨[], by simp, Ne.symm hne,
        enumerationWarned ("failed to enumerate directory: " ++ text) ?_⟩))
      simp [jobsOf, listed, hrefused]
    | none =>
      have hvis : ∀ {q facts}, (([] : Path) ++ q, facts) ∈
          reached c [] source.facts.enumeration.interrupted source.tree.objects →
          (q, facts) ∈ visitedObjects source c := by
        intro q facts h
        rw [visitedObjects, if_pos hrefused]
        exact h
      have hcov : Covered c [] source.facts.enumeration.interrupted source.tree.objects p o :=
        covered hfind
      cases hcov with
      | comes h =>
        rcases judge_cases c p o with ⟨_, _, hb⟩ | ⟨w, hj, _⟩ | ⟨e, _, _, hj, _⟩
        · exact Or.inr (Or.inl (Or.inr hb))
        · exact Or.inr (Or.inl (Or.inl (mem_warnedObjects.mpr ⟨o, hvis h, w, hj⟩)))
        · exact Or.inl (mem_capturedObjects.mpr ⟨o, hvis h, e, hj⟩)
      | stopped q facts hq hpre hpne hqfind h hno =>
        refine Or.inr (Or.inr (Or.inl ⟨q, facts, hpre, hpne, hqfind, ?_⟩))
        rcases judge_stops c q facts hno with ⟨w, hj⟩ | hi | hh | hlink | hfile
        · exact Or.inl (mem_warnedObjects.mpr ⟨facts, hvis h, w, hj⟩)
        · exact Or.inr (Or.inl hi)
        · exact Or.inr (Or.inr hh)
        · exact absurd hlink (hbelow q facts hpre hpne hqfind).1
        · exact absurd hfile (hbelow q facts hpre hpne hqfind).2
      | failed q hpre hpne h =>
        refine Or.inr (Or.inr (Or.inr ⟨q, hpre, hpne, h.mono ?_⟩))
        intro job hj
        simp [jobsOf, listed, hrefused, hj]
  · intro q facts hqfind hwhy p hpre hqp
    obtain ⟨hq, hqn⟩ := hnames hqfind
    have hnot : ∀ o, (p, o) ∉ visitedObjects source c := by
      intro o ho
      obtain ⟨facts', hqfind', hd⟩ := (visited_inv ho).2.2 q hq hpre hqp
      cases hqfind.symm.trans hqfind'
      obtain ⟨hlink, hignored, hhidden, hwarned⟩ := judge_descends hd
      rcases hwhy with h | h | h | h
      · exact hlink h
      · obtain ⟨o', ho', w, hw⟩ := mem_warnedObjects.mp h
        cases hqfind.symm.trans (visited_inv ho').2.1
        exact hwarned w hw
      · exact hignored h
      · exact hhidden h
    constructor
    · rw [hvisited]
      intro hm
      obtain ⟨⟨_, o⟩, ho, rfl⟩ := List.mem_map.mp hm
      exact hnot o ho
    · obtain ⟨r, rfl⟩ := hpre
      have hr : r ≠ [] := by
        rintro rfl
        simp at hqp
      rw [hjobs, emitted_iff begun (by simp [hq]) ?_]
      · intro hm
        obtain ⟨o, ho, _⟩ := mem_capturedObjects.mp hm
        exact hnot o ho
      · intro h
        have hlength := congrArg List.length h
        rw [List.length_append, List.length_singleton] at hlength
        have := List.length_pos_of_ne_nil hq
        have := List.length_pos_of_ne_nil hr
        omega

end Scans

section Sorting

variable {α : Type} {r : α → α → Prop} [DecidableRel r] [Std.Total r] [IsTrans α r]

/-- Lists of the same members are sorted to one list, when the order tells members apart. -/
theorem insertionSort_perm {l k : List α} (h : l.Perm k)
    (hr : ∀ a ∈ l, ∀ b ∈ l, r a b → r b a → a = b) : l.insertionSort r = k.insertionSort r := by
  have hl := List.perm_insertionSort r l
  have hk := List.perm_insertionSort r k
  refine List.Perm.eq_of_pairwise ?_ (List.pairwise_insertionSort r l)
    (List.pairwise_insertionSort r k) (hl.trans (h.trans hk.symm))
  intro a b ha hb
  exact hr a (hl.subset ha) b (h.symm.subset (hk.subset hb))

end Sorting

instance : Std.Total (fun a b : ScannedEntry => ¬ b.relativePath < a.relativePath) :=
  ⟨fun a b => by grind⟩

instance : IsTrans ScannedEntry (fun a b => ¬ b.relativePath < a.relativePath) :=
  ⟨fun a b c => by grind⟩

instance : Std.Total (fun a b : ScanWarning => ¬ warningPrecedes b a) :=
  ⟨fun a b => by grind [warningPrecedes]⟩

instance : IsTrans ScanWarning (fun a b => ¬ warningPrecedes b a) :=
  ⟨fun a b c => by grind [warningPrecedes]⟩

theorem warning_ext {a b : ScanWarning} (hab : ¬ warningPrecedes b a) (hba : ¬ warningPrecedes a b) :
    a = b := by
  obtain ⟨x, y, z⟩ := a
  obtain ⟨u, v, w⟩ := b
  unfold warningPrecedes at hab hba
  grind

/-- No enumeration that the scan makes breaks off. -/
def Unbroken (source : Source) (options : FileScannerOptions) : Prop :=
  ¬ Breaks source.facts.enumeration ∧ ∀ c root, Begun source options c root →
    ∀ r ∈ visitedObjects source c, (judge c r.1 r.2).descends = true → ¬ Breaks r.2.enumeration

theorem scan_reordered {source : Source} {options : FileScannerOptions} {tree : SourceTree}
    (hnone : Unbroken source options) (h : source.tree.objects.Reordered tree.objects) :
    scan { source with tree } options = scan source options := by
  unfold scan
  rcases scanStreaming_cases source options with ⟨e, hrefuses⟩ | ⟨c, root, begun, hemits⟩
  · have hold := (hrefuses source.tree).raised .start
    have hnew := (hrefuses tree).raised .start
    rw [show scanStreaming collecting { source with tree } options .start = (.error e, _) from
        Prod.ext hnew rfl,
      show scanStreaming collecting source options .start = (.error e, _) from Prod.ext hold rfl]
  · obtain ⟨n, hold⟩ := (hemits source.tree).collects .start
    obtain ⟨m, hnew⟩ := (hemits tree).collects .start
    have hperm : (jobsOf { source with tree } c root).Perm (jobsOf source c root) := by
      refine List.Perm.cons _ (listed_perm fun hrefused => ?_)
      have hi : source.facts.enumeration.interrupted = none := by
        by_contra hsome
        exact hnone.1 ⟨hrefused, hsome⟩
      have hvisited := hnone.2 c root begun
      rw [visitedObjects, if_pos hrefused, hi] at hvisited
      rw [hi]
      exact (scanned_reordered h hvisited).1.symm
    have hentries := hperm.filterMap FileJob.scanned?
    have hnodup := relativePaths_nodup begun
    rw [hold, hnew]
    dsimp only
    congr 2
    · refine insertionSort_perm hentries ?_
      intro a ha b hb hab hba
      exact List.inj_on_of_nodup_map hnodup (hentries.subset ha) (hentries.subset hb)
        (by grind)
    · exact insertionSort_perm (hperm.filterMap FileJob.warning?) (fun _ _ _ _ => warning_ext)

/-- Whoever scans, a scan that returns has lost nothing in silence; and the result of a
collecting scan does not show in which order directories are listed, while no enumeration that
it makes breaks off. -/
theorem scan_loses_nothing (source : Source) (options : FileScannerOptions) :
    (∀ x s, scanStreaming x source options .start = (.ok (), s) →
      ∃ c root warned, Begun source options c root ∧ NothingLost source c s warned) ∧
    (Unbroken source options → ∀ tree : SourceTree, source.tree.objects.Reordered tree.objects →
      scan { source with tree } options = scan source options) := by
  constructor
  · intro x s h
    obtain ⟨c, root, begun, hjobs, hvisited⟩ := scanStreaming_returns h
    exact ⟨c, root, _, begun, nothingLost begun hjobs hvisited⟩
  · exact fun hnone tree h => scan_reordered hnone h

/-- An object without any peculiarity. -/
def plain (type : FileType) : ObjectFacts :=
  ⟨.ok type, .ok ⟨1, .none, false, false⟩, .ok ⟨3, 0, 0, 1, 2, 0⟩, .error "no link", ⟨none, none⟩⟩

/-- A directory with a file in it, and a device. -/
def deviceTree : SourceTree :=
  ⟨.cons (ascii "a") (plain .directory) (.cons (ascii "c") (plain .regular) .nil .nil)
    (.cons (ascii "b") (plain .other) .nil .nil), by decide, by decide⟩

def deviceTreeReordered : SourceTree :=
  ⟨.cons (ascii "b") (plain .other) .nil
    (.cons (ascii "a") (plain .directory) (.cons (ascii "c") (plain .regular) .nil .nil) .nil),
    by decide, by decide⟩

def deviceSource : Source := ⟨ascii "/s", .ok [], plain .directory, true, .absent, deviceTree⟩

def everything : FileScannerOptions := ⟨true, false, none⟩

theorem scan_loses_nothing_device :
    (∃ s, scanStreaming collecting deviceSource everything .start = (.ok (), s) ∧
      ∃ c root warned, Begun deviceSource everything c root ∧
        NothingLost deviceSource c s warned) ∧
    scan { deviceSource with tree := deviceTreeReordered } everything =
      scan deviceSource everything := by
  constructor
  · have hok : gives (fun _ _ => true) (scanStreaming collecting deviceSource everything .start) =
        true := by
      decide +kernel
    obtain ⟨_, s, hrun, -⟩ := gives_iff.mp hok
    exact ⟨s, hrun, (scan_loses_nothing deviceSource everything).1 collecting s hrun⟩
  · have hroot : deviceSource.facts.enumeration.interrupted = none := rfl
    have hall : deviceSource.tree.objects.All (fun _ o => o.enumeration.interrupted = none) :=
      ⟨rfl, ⟨rfl, trivial, trivial⟩, rfl, trivial, trivial⟩
    refine (scan_loses_nothing deviceSource everything).2 ⟨fun h => h.2 hroot, ?_⟩
      deviceTreeReordered (.swap _ _ _ _ _ _ _)
    intro c root _ r hr _ hbreaks
    exact hbreaks.2 (Forest.find_label hall (visited_inv hr).2.1)

/-- A directory with two files whose enumeration breaks off behind the first. -/
def brokenTree : SourceTree :=
  ⟨.cons (ascii "a") (plain .regular) .nil (.cons (ascii "b") (plain .regular) .nil .nil),
    by decide, by decide⟩

def brokenTreeReordered : SourceTree :=
  ⟨.cons (ascii "b") (plain .regular) .nil (.cons (ascii "a") (plain .regular) .nil .nil),
    by decide, by decide⟩

def brokenSource : Source :=
  ⟨ascii "/s", .ok [], { plain .directory with enumeration := ⟨none, some (0, "Input/output error")⟩ },
    true, .absent, brokenTree⟩

/-- The scan takes whichever file is listed first. -/
theorem scan_order_shows :
    brokenSource.tree.objects.Reordered brokenTreeReordered.objects ∧
    scan { brokenSource with tree := brokenTreeReordered } everything ≠
      scan brokenSource everything := by
  refine ⟨.swap _ _ _ _ _ _ _, ?_⟩
  intro h
  have hnames : ((scan { brokenSource with tree := brokenTreeReordered } everything).toOption.map
        (fun r => r.entries.map (·.relativePath))) = some [[], ascii "b"] := by decide +kernel
  rw [h] at hnames
  revert hnames
  decide +kernel

end LocalVault.Snapshot
