import LocalVault.Library.Walk
import LocalVault.Proofs.Ignoring
import LocalVault.Proofs.Lossless

namespace LocalVault

/-- Where an entry stands in its tree. -/
structure Place where
  relativePath : Bytes
  parentPath : Bytes
  name : Bytes
  type : EntryType

def ScannedEntry.place (e : ScannedEntry) : Place := ⟨e.relativePath, e.parentPath, e.name, e.type⟩

def EntryRow.place (row : EntryRow) : Place :=
  ⟨row.relativePath, row.parentPath, row.name, row.entryType⟩

/-- The entries of a directory tree, as their paths say it. -/
structure WellFormedTree (places : List Place) : Prop where
  distinct : (places.map Place.relativePath).Nodup
  root : ∃ r ∈ places, r.relativePath = [] ∧ r.type = .directory
  safe : ∀ p ∈ places, p.relativePath ≠ [] → isSafeStoredPath p.relativePath = true
  named : ∀ p ∈ places, p.relativePath ≠ [] → Snapshot.FileName p.name
  spelled : ∀ p ∈ places, p.relativePath ≠ [] →
    p.relativePath = if p.parentPath = [] then p.name else p.parentPath ++ slash :: p.name
  parent : ∀ p ∈ places, p.relativePath ≠ [] →
    ∃ d ∈ places, d.type = .directory ∧ d.relativePath = p.parentPath

/-- A tree stays one when it loses files only, in whatever order it is listed. -/
theorem WellFormedTree.thinned {places kept : List Place} (h : WellFormedTree places)
    (hsub : kept.Subperm places) (hkept : ∀ p ∈ places, p.type = .directory → p ∈ kept) :
    WellFormedTree kept where
  distinct := by
    obtain ⟨l, hperm, hsublist⟩ := hsub
    exact ((hperm.map _).nodup_iff).mp (h.distinct.sublist (hsublist.map _))
  root := by
    obtain ⟨r, hr, hpath, htype⟩ := h.root
    exact ⟨r, hkept r hr htype, hpath, htype⟩
  safe p hp := h.safe p (hsub.subset hp)
  named p hp := h.named p (hsub.subset hp)
  spelled p hp := h.spelled p (hsub.subset hp)
  parent p hp hne := by
    obtain ⟨d, hd, htype, hpath⟩ := h.parent p (hsub.subset hp) hne
    exact ⟨d, hkept d hd htype, htype, hpath⟩

namespace Snapshot
open Library

section Spelling

variable {p q : Path} {n : Name} {c : UInt8}

theorem idxOf?_behind {xs rest : Bytes} (h : c ∉ xs) : (xs ++ c :: rest).idxOf? c = some xs.length := by
  induction xs with
  | nil => simp [List.idxOf?_cons]
  | cons x xs ih =>
    obtain ⟨hx, hxs⟩ := List.ne_and_not_mem_of_not_mem_cons h
    rw [List.cons_append, List.idxOf?_cons, if_neg (by simpa using Ne.symm hx), ih hxs]
    rfl

theorem lastSeparator_name (hn : slash ∉ n) : lastSeparator n = none := by
  unfold lastSeparator
  rw [Option.map_eq_none_iff, List.idxOf?_eq_none_iff, List.mem_reverse]
  exact hn

theorem lastSeparator_split {above : Bytes} (hn : slash ∉ n) :
    lastSeparator (above ++ slash :: n) = some above.length := by
  unfold lastSeparator
  rw [List.reverse_append, List.reverse_cons, List.append_assoc, List.singleton_append,
    idxOf?_behind (by simpa using hn), Option.map_some, List.length_append, List.length_cons,
    List.length_reverse]
  congr 1
  omega

theorem joined_concat (hp : p ≠ []) : joined (p ++ [n]) = joined p ++ slash :: n := by
  induction p with
  | nil => exact absurd rfl hp
  | cons m p ih =>
    cases p with
    | nil => rfl
    | cons k p =>
      change m ++ slash :: joined (k :: p ++ [n]) = (m ++ slash :: joined (k :: p)) ++ slash :: n
      rw [ih (by simp), List.append_assoc]
      rfl

/-- `parent_path` and `entry_name` take a stored path apart at its last name. -/
theorem parentPath_joined (hn : FileName n) : parentPath (joined (p ++ [n])) = joined p := by
  unfold parentPath
  by_cases hp : p = []
  · have hjoined : joined (p ++ [n]) = n := by rw [hp]; rfl
    rw [hjoined, lastSeparator_name hn.2.2.2, hp]
    rfl
  · rw [joined_concat hp, lastSeparator_split hn.2.2.2]
    exact List.take_left

theorem entryName_joined (hn : FileName n) : entryName (joined (p ++ [n])) = n := by
  unfold entryName
  by_cases hp : p = []
  · have hjoined : joined (p ++ [n]) = n := by rw [hp]; rfl
    rw [hjoined, lastSeparator_name hn.2.2.2]
  · rw [joined_concat hp, lastSeparator_split hn.2.2.2]
    dsimp only
    rw [← List.drop_drop, List.drop_left]
    rfl

theorem joined_head (hp : ∀ m ∈ p, FileName m) : (joined p).head? ≠ some slash := by
  cases p with
  | nil => exact nofun
  | cons m p =>
    obtain ⟨hne, -, -, hslash⟩ := hp m List.mem_cons_self
    cases m with
    | nil => exact absurd rfl hne
    | cons b m =>
      have hb : b ≠ slash := fun he => hslash (he ▸ List.mem_cons_self)
      cases p <;> simpa [joined] using hb

theorem joined_last (hp : ∀ m ∈ p, FileName m) : (joined p).getLast? ≠ some slash := by
  rcases List.eq_nil_or_concat p with rfl | ⟨p, n, rfl⟩
  · exact nofun
  · rw [List.concat_eq_append] at hp ⊢
    obtain ⟨hne, -, -, hslash⟩ := hp n (by simp)
    have hn : n.getLast? ≠ some slash := fun h => hslash (List.mem_of_getLast? h)
    by_cases hp : p = []
    · rw [hp, List.nil_append, joined]
      exact hn
    · rw [joined_concat hp, List.getLast?_append_of_ne_nil _ (by simp),
        List.getLast?_cons_of_ne_nil hne]
      exact hn

theorem components_names (hp : ∀ m ∈ p, FileName m) : components (joined p) = p := by
  unfold components
  rw [names_joined (fun m hm => (hp m hm).1) (fun m hm => (hp m hm).2.2.2), if_neg (joined_head hp),
    if_neg fun h => joined_last hp h.2, List.nil_append, List.append_nil]

theorem normalSteps_names (hp : ∀ m ∈ p, FileName m) (kept : List Name) :
    p.foldl (normalStep false) (kept, false) = (p.reverse ++ kept, false) := by
  induction p generalizing kept with
  | nil => rfl
  | cons m p ih =>
    obtain ⟨hne, hdot, hdotDot, -⟩ := hp m List.mem_cons_self
    have hstep : normalStep false (kept, false) m = (m :: kept, false) := by
      unfold normalStep
      dsimp only
      rw [if_neg (by simp [hne, hdot]), if_neg hdotDot]
    rw [List.foldl_cons, hstep, ih (fun k hk => hp k (List.mem_cons_of_mem _ hk)), List.reverse_cons,
      List.append_assoc]
    rfl

theorem lexicallyNormal_names (hne : p ≠ []) (hp : ∀ m ∈ p, FileName m) : lexicallyNormal p = p := by
  have hroot : p.head? ≠ some [slash] := fun h =>
    (hp [slash] (List.mem_of_mem_head? h)).2.2.2 List.mem_cons_self
  unfold lexicallyNormal
  simp only [hroot, decide_false, Bool.false_eq_true, ↓reduceIte, normalSteps_names hp,
    List.append_nil, hne, List.reverse_eq_nil_iff, List.reverse_reverse, false_and, List.nil_append]

/-- The path of a captured object is safe. -/
theorem isSafeStoredPath_names (hne : p ≠ []) (hp : ∀ m ∈ p, FileName m)
    (hvalid : isValidUtf8 (joined p) = true) : isSafeStoredPath (joined p) = true := by
  have hcomponents := components_names hp
  have hnil : joined p ≠ [] := by
    cases p with
    | nil => exact absurd rfl hne
    | cons m p => exact joined_ne_nil (hp m List.mem_cons_self).1
  have hkey : pathKey (joined p) = joined p := by
    unfold pathKey
    rw [hcomponents]
    cases p with
    | nil => exact absurd rfl hne
    | cons m p =>
      have hm : m ≠ [slash] := fun he =>
        (hp m List.mem_cons_self).2.2.2 (he ▸ List.mem_cons_self)
      dsimp only
      rw [if_neg hm]
  unfold isSafeStoredPath
  rw [if_neg (by simp [hnil, joined_head hp, hcomponents, lexicallyNormal_names hne hp]), if_neg, hkey]
  · exact hvalid
  · rw [hcomponents, List.any_eq_true]
    rintro ⟨m, hm, hbad⟩
    obtain ⟨hne, hdot, hdotDot, -⟩ := hp m hm
    simp [hne, hdot, hdotDot] at hbad

end Spelling

/-- An object below a directory is come to behind that directory. -/
theorem reached_parent {c : ScanContext} {directory : Path} {interrupted : Option (Nat × String)}
    {f : Forest Name ObjectFacts} {p : Path} {o : ObjectFacts}
    (h : (p, o) ∈ reached c directory interrupted f) :
    p.dropLast = directory ∨ ∃ o', (p.dropLast, o') ∈ reached c directory interrupted f ∧
      (judge c p.dropLast o').descends = true := by
  induction f generalizing directory interrupted with
  | nil => cases h
  | cons name facts below rest ihb ihr =>
    unfold reached at h ⊢
    simp only [List.mem_cons, List.mem_append] at h ⊢
    rcases h with hfirst | hbelow | hrest
    · cases hfirst
      exact Or.inl List.dropLast_concat
    · split at hbelow
      · rename_i hd
        right
        rcases ihb hbelow with hparent | ⟨o', ho', hdescends⟩
        · exact ⟨facts, Or.inl (by rw [hparent]), by rw [hparent]; exact hd.1⟩
        · exact ⟨o', Or.inr (Or.inl (by rw [if_pos hd]; exact ho')), hdescends⟩
      · cases hbelow
    · have hnext : ∀ i, (p, o) ∈ reached c directory i rest → p.dropLast = directory ∨
          ∃ o', (p.dropLast, o') ∈ reached c directory i rest ∧
            (judge c p.dropLast o').descends = true := fun i => ihr
      unfold after at hrest ⊢
      split at hrest
      · cases hrest
      all_goals
        rcases hnext _ hrest with hparent | ⟨o', ho', hdescends⟩
        · exact Or.inl hparent
        · exact Or.inr ⟨o', Or.inr (Or.inr ho'), hdescends⟩

theorem visited_parent {source : Source} {c : ScanContext} {p : Path} {o : ObjectFacts}
    (h : (p, o) ∈ visitedObjects source c) :
    p.dropLast = [] ∨ ∃ o', (p.dropLast, o') ∈ visitedObjects source c ∧
      (judge c p.dropLast o').descends = true := by
  obtain ⟨hopen, hreached⟩ := visited_reached h
  unfold visitedObjects
  rw [if_pos hopen]
  exact reached_parent hreached

section Scans

variable {source : Source} {options : FileScannerOptions} {c : ScanContext} {root e : ScannedEntry}
  {p : Path} {o : ObjectFacts}

/-- A captured object below a directory, as its entry names it. -/
structure CapturedAt (c : ScanContext) (p : Path) (o : ObjectFacts) (e : ScannedEntry) : Prop where
  relativePath : e.relativePath = joined p
  parentPath : e.parentPath = joined p.dropLast
  name : p.dropLast ++ [e.name] = p
  valid : isValidUtf8 (joined p) = true

theorem judge_captured_at (hne : p ≠ []) (hnames : ∀ n ∈ p, FileName n)
    (h : judge c p o = .captured e) : CapturedAt c p o e := by
  rcases judge_cases c p o with ⟨hj, _⟩ | ⟨_, hj, _⟩ | ⟨e', _, _, hj, hvalid, _, hentry, _⟩
  · rw [h] at hj
    cases hj
  · rw [h] at hj
    cases hj
  · rw [h] at hj
    cases hj
    have hlast := hnames _ (List.getLast_mem hne)
    have hsplit := List.dropLast_append_getLast hne
    refine ⟨hentry.relativePath, ?_, ?_, hvalid⟩
    · rw [hentry.parentPath, ← hsplit, parentPath_joined hlast, List.dropLast_concat]
    · rw [hentry.name, ← hsplit, entryName_joined hlast, List.dropLast_concat]

/-- What a scan calls back with: its root, and the objects that it has captured. -/
theorem mem_jobsOf : .entry e ∈ jobsOf source c root ↔
    e = root ∨ ∃ p o, (p, o) ∈ visitedObjects source c ∧ judge c p o = .captured e := by
  have hscanned : .entry e ∈ jobsOf source c root ↔
      e ∈ (jobsOf source c root).filterMap FileJob.scanned? := by
    rw [List.mem_filterMap]
    constructor
    · exact fun h => ⟨_, h, rfl⟩
    · rintro ⟨job, hj, he⟩
      cases job with
      | entry e' => rwa [← Option.some.inj he]
      | warning w => cases he
  rw [hscanned, jobsOf_entries, List.mem_cons, List.mem_filterMap, Prod.exists]
  refine or_congr_right (exists_congr fun p => exists_congr fun o => and_congr_right fun _ => ?_)
  cases judge c p o <;> simp [Verdict.captured?]

/-- What a scan that returns has called back with is a tree. -/
theorem jobsOf_tree (begun : Begun source options c root) :
    WellFormedTree (((jobsOf source c root).filterMap FileJob.scanned?).map ScannedEntry.place) := by
  have hroot := judgeEntry_ok begun.root
  have hrootDirectory : root.type = .directory := by
    by_contra hother
    rcases hroot.others hother with h | h | h <;> cases h
  have hmem : ∀ place, place ∈ ((jobsOf source c root).filterMap FileJob.scanned?).map
      ScannedEntry.place → ∃ e, .entry e ∈ jobsOf source c root ∧ e.place = place := by
    intro place hplace
    obtain ⟨e, he, rfl⟩ := List.mem_map.mp hplace
    obtain ⟨job, hjob, hscanned⟩ := List.mem_filterMap.mp he
    cases job with
    | entry e' => exact ⟨e, by rwa [← Option.some.inj hscanned], rfl⟩
    | warning w => cases hscanned
  have hintro : ∀ e, .entry e ∈ jobsOf source c root →
      e.place ∈ ((jobsOf source c root).filterMap FileJob.scanned?).map ScannedEntry.place :=
    fun e he => List.mem_map.mpr ⟨e, List.mem_filterMap.mpr ⟨_, he, rfl⟩, rfl⟩
  have hbelow : ∀ e, .entry e ∈ jobsOf source c root → e.relativePath ≠ [] →
      ∃ p o, (p, o) ∈ visitedObjects source c ∧ CapturedAt c p o e := by
    intro e he hne
    rcases mem_jobsOf.mp he with rfl | ⟨p, o, hvisited, hcaptured⟩
    · exact absurd hroot.relativePath hne
    · exact ⟨p, o, hvisited, judge_captured_at (visited_inv hvisited).1 (visited_names hvisited)
        hcaptured⟩
  have hin : ∀ {p o}, (p, o) ∈ visitedObjects source c → ∀ n ∈ p.dropLast, FileName n :=
    fun hvisited n hn => visited_names hvisited n (List.dropLast_subset _ hn)
  refine ⟨?_, ?_, ?_, ?_, ?_, ?_⟩
  · rw [List.map_map]
    exact relativePaths_nodup begun
  · exact ⟨root.place, hintro root (mem_jobsOf.mpr (Or.inl rfl)), hroot.relativePath, hrootDirectory⟩
  · intro place hplace hne
    obtain ⟨e, he, rfl⟩ := hmem place hplace
    obtain ⟨p, o, hvisited, hcaptured⟩ := hbelow e he hne
    change isSafeStoredPath e.relativePath = true
    rw [hcaptured.relativePath]
    exact isSafeStoredPath_names (visited_inv hvisited).1 (visited_names hvisited) hcaptured.valid
  · intro place hplace hne
    obtain ⟨e, he, rfl⟩ := hmem place hplace
    obtain ⟨p, o, hvisited, hcaptured⟩ := hbelow e he hne
    refine visited_names hvisited e.name ?_
    rw [← hcaptured.name]
    exact List.mem_append_right _ (List.mem_singleton.mpr rfl)
  · intro place hplace hne
    obtain ⟨e, he, rfl⟩ := hmem place hplace
    obtain ⟨p, o, hvisited, hcaptured⟩ := hbelow e he hne
    change e.relativePath = if e.parentPath = [] then e.name else e.parentPath ++ slash :: e.name
    rw [hcaptured.relativePath, hcaptured.parentPath]
    by_cases hp : p.dropLast = []
    · rw [if_pos (by rw [hp]; rfl), ← hcaptured.name, hp]
      rfl
    · have hparent : joined p.dropLast ≠ [] := by
        obtain ⟨n, r, hr⟩ := List.exists_cons_of_ne_nil hp
        rw [hr]
        exact joined_ne_nil (hin hvisited n (by rw [hr]; exact List.mem_cons_self)).1
      rw [if_neg hparent, ← joined_concat hp, hcaptured.name]
  · intro place hplace hne
    obtain ⟨e, he, rfl⟩ := hmem place hplace
    obtain ⟨p, o, hvisited, hcaptured⟩ := hbelow e he hne
    have hparent : e.place.parentPath = joined p.dropLast := hcaptured.parentPath
    rw [hparent]
    rcases visited_parent hvisited with htop | ⟨o', hparent, hdescends⟩
    · rw [htop]
      exact ⟨root.place, hintro root (mem_jobsOf.mpr (Or.inl rfl)), hrootDirectory,
        hroot.relativePath⟩
    · cases hj : judge c p.dropLast o' with
      | passed => rw [hj] at hdescends; cases hdescends
      | warned w => rw [hj] at hdescends; cases hdescends
      | captured d =>
        rw [hj] at hdescends
        exact ⟨d.place, hintro d (mem_jobsOf.mpr (Or.inr ⟨_, o', hparent, hj⟩)),
          of_decide_eq_true hdescends, (judge_captured hj).2⟩

end Scans

end Snapshot
end LocalVault
