import Mathlib.Data.List.Forall2
import LocalVault.Proofs.Globbing
import LocalVault.Proofs.Scanning

namespace LocalVault.Snapshot
open Library Library.Glob

section Splitting

variable {c : UInt8} {text xs rest : Bytes} {i : Nat}

theorem splitOn_single (h : c ∉ xs) : xs.splitOn c = [xs] := by
  rw [List.splitOn_eq_splitOnP]
  refine List.splitOnP_eq_singleton (fun x hx => ?_)
  have hne : x ≠ c := fun he => h (he ▸ hx)
  simpa using hne

theorem splitOn_separated (h : c ∉ xs) : (xs ++ c :: rest).splitOn c = xs :: rest.splitOn c := by
  rw [List.splitOn_eq_splitOnP, List.splitOnP_append_cons _ _ (by simp),
    ← List.splitOn_eq_splitOnP, ← List.splitOn_eq_splitOnP, splitOn_single h, List.singleton_append]

theorem splitOn_last (h : c ∉ rest) : (xs ++ c :: rest).splitOn c = xs.splitOn c ++ [rest] := by
  rw [List.splitOn_eq_splitOnP, List.splitOnP_append_cons _ _ (by simp),
    ← List.splitOn_eq_splitOnP, ← List.splitOn_eq_splitOnP, splitOn_single h]

theorem idxOf?_split (h : text.idxOf? c = some i) :
    text = text.take i ++ c :: text.drop (i + 1) ∧ c ∉ text.take i := by
  obtain ⟨hi, hc, hbefore⟩ := List.idxOf?_eq_some_iff.mp h
  constructor
  · rw [← hc, List.getElem_cons_drop, List.take_append_drop]
  · intro hm
    obtain ⟨j, hj, he⟩ := List.mem_take_iff_getElem.mp hm
    exact hbefore j (by omega) he

/-- Up to the first separator, and behind it. -/
theorem splitOn_upTo (c : UInt8) (text : Bytes) : text.splitOn c = upTo text (text.idxOf? c) ::
    ((text.idxOf? c).elim [] (fun i => (text.drop (i + 1)).splitOn c)) := by
  cases hi : text.idxOf? c with
  | none =>
    rw [upTo, Option.elim_none, splitOn_single (List.idxOf?_eq_none_iff.mp hi)]
  | some i =>
    obtain ⟨hsplit, hbefore⟩ := idxOf?_split hi
    have h : (text.take i ++ c :: text.drop (i + 1)).splitOn c = _ := splitOn_separated hbefore
    rw [← hsplit] at h
    exact h

theorem lastSeparator_none (h : lastSeparator text = none) : slash ∉ text := by
  unfold lastSeparator at h
  rw [Option.map_eq_none_iff, List.idxOf?_eq_none_iff] at h
  simpa using h

theorem lastSeparator_some (h : lastSeparator text = some i) :
    text = text.take i ++ slash :: text.drop (i + 1) ∧ slash ∉ text.drop (i + 1) := by
  obtain ⟨j, hj, rfl⟩ := Option.map_eq_some_iff.mp h
  have hlt := idxOf?_length hj
  obtain ⟨hsplit, hbefore⟩ := idxOf?_split hj
  rw [List.length_reverse] at hlt
  have hreverse := congrArg List.reverse hsplit
  rw [List.reverse_reverse, List.reverse_append, List.reverse_cons, List.append_assoc,
    List.singleton_append] at hreverse
  have htake : text.reverse.drop (j + 1) = (text.take (text.length - 1 - j)).reverse := by
    rw [List.drop_reverse]
    congr 2
    omega
  have hdrop : text.reverse.take j = (text.drop (text.length - 1 - j + 1)).reverse := by
    rw [List.take_reverse]
    congr 2
    omega
  rw [htake, hdrop, List.reverse_reverse, List.reverse_reverse] at hreverse
  rw [hdrop, List.mem_reverse] at hbefore
  exact ⟨hreverse, hbefore⟩

/-- The name is the last component. -/
theorem nameOf_split (path : Bytes) :
    ∃ above, path.splitOn slash = above ++ [nameOf path] ∧ slash ∉ nameOf path := by
  unfold nameOf
  cases h : lastSeparator path with
  | none => exact ⟨[], splitOn_single (lastSeparator_none h), lastSeparator_none h⟩
  | some i =>
    obtain ⟨hsplit, hlast⟩ := lastSeparator_some h
    refine ⟨(path.take i).splitOn slash, ?_, hlast⟩
    have h : (path.take i ++ slash :: path.drop (i + 1)).splitOn slash = _ := splitOn_last hlast
    rwa [← hsplit] at h

end Splitting

/-- The walk over two paths compares their components one by one. -/
theorem matchPath_iff (pattern path : Bytes) (cs : IgnoreCaseSensitivity) :
    matchPath pattern path cs = true ↔
      List.Forall₂ (fun p n => matchComponent p n cs = true) (pattern.splitOn slash)
        (path.splitOn slash) := by
  induction hk : pattern.length using Nat.strong_induction_on generalizing pattern path with
  | _ k ih =>
  rw [matchPath, splitOn_upTo slash pattern, splitOn_upTo slash path, List.forall₂_cons]
  by_cases hm : matchComponent (upTo pattern (pattern.idxOf? slash)) (upTo path (path.idxOf? slash))
      cs = true
  swap
  · simp [hm]
  simp only [hm, Bool.true_eq_false, ↓reduceIte, true_and]
  split
  · rename_i i j hi hj
    have hlt := idxOf?_length hi
    rw [ih _ (by simp only [List.length_drop]; omega) _ _ rfl, hi, hj]
    rfl
  · rename_i hother
    cases hi : pattern.idxOf? slash with
    | none => cases hj : path.idxOf? slash <;> simp
    | some i =>
      cases hj : path.idxOf? slash with
      | none => simp
      | some j => exact absurd hj (hother i j hi)

/-- A line without the carriage return at its end. -/
def chopped (line : Bytes) : Bytes :=
  if line.getLast? = some carriageReturn then line.dropLast else line

/-- A line that is neither blank nor a comment. -/
def IsRule (line : Bytes) : Prop := line ≠ [] ∧ line.head? ≠ some numberSign

instance : DecidablePred IsRule := fun _ => inferInstanceAs (Decidable (_ ∧ _))

theorem readLines_none {input : Bytes} (h : getline input = none) : readLines input = [] := by
  rw [readLines.eq_def]
  split
  · rfl
  · rename_i hsome
    rw [h] at hsome
    cases hsome

theorem readLines_some {input line rest : Bytes} (h : getline input = some (line, rest)) :
    readLines input = [chopped line].filter IsRule ++ readLines rest := by
  rw [readLines.eq_def]
  split
  · rename_i hnone
    rw [h] at hnone
    cases hnone
  · rename_i line' rest' hsome
    rw [h] at hsome
    cases hsome
    change (if chopped line = [] ∨ (chopped line).head? = some numberSign then readLines rest
      else chopped line :: readLines rest) = _
    by_cases hrule : IsRule (chopped line)
    · have hno : ¬ (chopped line = [] ∨ (chopped line).head? = some numberSign) := by
        rintro (h | h)
        · exact hrule.1 h
        · exact hrule.2 h
      simp [hrule, hno]
    · have hyes : chopped line = [] ∨ (chopped line).head? = some numberSign := by
        by_contra hno
        exact hrule ⟨fun h => hno (Or.inl h), fun h => hno (Or.inr h)⟩
      simp [hrule, hyes]

/-- The lines of the file that are rules. -/
theorem readLines_eq (input : Bytes) :
    readLines input = ((input.splitOn lineFeed).map chopped).filter IsRule := by
  induction hk : input.length using Nat.strong_induction_on generalizing input with
  | _ k ih =>
  by_cases hempty : input = []
  · subst hempty
    rw [readLines_none rfl]
    decide
  rw [splitOn_upTo lineFeed input]
  cases hi : input.idxOf? lineFeed with
  | none =>
    have hline : getline input = some (input, []) := by
      simp only [getline, hempty, ↓reduceIte, hi]
    rw [readLines_some hline, readLines_none rfl, List.append_nil]
    rfl
  | some i =>
    have hline : getline input = some (input.take i, input.drop (i + 1)) := by
      simp only [getline, hempty, ↓reduceIte, hi]
    rw [readLines_some hline, ih _ (hk ▸ getline_length hline) _ rfl]
    simp only [upTo, Option.elim_some, List.map_cons]
    rw [← List.filter_append]
    rfl

/-- A rule as the format has it. -/
structure Rule where
  text : Bytes
  directoriesOnly : Bool

/-- The rules of an ignore file. -/
def RuleOf (content : Bytes) (r : Rule) : Prop :=
  r.text ≠ [] ∧ ∃ line ∈ content.splitOn lineFeed, IsRule (chopped line) ∧
    (if r.directoriesOnly then normalizeSeparators (chopped line) = r.text ++ [slash]
      else normalizeSeparators (chopped line) = r.text ∧ r.text.getLast? ≠ some slash)

/-- A rule without a separator is about the name, any other about the whole path. -/
def Rule.Ignores (cs : IgnoreCaseSensitivity) (r : Rule) (path : Bytes) (isDirectory : Bool) : Prop :=
  (r.directoriesOnly = true → isDirectory = true) ∧
    if slash ∈ r.text then
      List.Forall₂ (fun p n => matchComponent p n cs = true) (r.text.splitOn slash)
        (path.splitOn slash)
    else ∃ name, (path.splitOn slash).getLast? = some name ∧ matchComponent r.text name cs = true

def Rule.pattern (r : Rule) : IgnorePattern := ⟨r.text, slash ∉ r.text, r.directoriesOnly⟩

theorem parsePattern_iff {line : Bytes} {pattern : IgnorePattern} :
    parsePattern line = some pattern ↔ ∃ r : Rule, r.text ≠ [] ∧ pattern = r.pattern ∧
      if r.directoriesOnly then normalizeSeparators line = r.text ++ [slash]
        else normalizeSeparators line = r.text ∧ r.text.getLast? ≠ some slash := by
  unfold parsePattern
  generalize normalizeSeparators line = text
  by_cases hlast : text.getLast? = some slash
  · have hsplit : text.dropLast ++ [slash] = text := List.dropLast_append_getLast? slash hlast
    simp only [hlast, decide_true, ↓reduceIte]
    constructor
    · intro h
      split at h
      · cases h
      · refine ⟨⟨text.dropLast, true⟩, ‹_›, (Option.some.inj h).symm, ?_⟩
        simpa using hsplit.symm
    · rintro ⟨r, hne, rfl, hr⟩
      split at hr
      · rename_i hd
        subst hr
        rw [List.dropLast_concat, if_neg hne, Rule.pattern, hd]
      · rw [hr.1] at hlast
        exact absurd hlast hr.2
  · simp only [hlast, decide_false, Bool.false_eq_true, ↓reduceIte]
    constructor
    · intro h
      split at h
      · cases h
      · exact ⟨⟨text, false⟩, ‹_›, (Option.some.inj h).symm, rfl, hlast⟩
    · rintro ⟨r, hne, rfl, hr⟩
      split at hr
      · rw [hr] at hlast
        simp at hlast
      · rename_i hd
        rw [hr.1, if_neg hne, Rule.pattern, Bool.eq_false_iff.mpr hd]

theorem applies_iff (cs : IgnoreCaseSensitivity) (r : Rule) (path : Bytes) (isDirectory : Bool) :
    r.pattern.applies cs path isDirectory = true ↔ r.Ignores cs path isDirectory := by
  unfold IgnorePattern.applies Rule.Ignores Rule.pattern
  dsimp only
  by_cases hd : r.directoriesOnly = true ∧ isDirectory = false
  · rw [if_pos hd]
    simp [hd.1, hd.2]
  · have hd' : r.directoriesOnly = true → isDirectory = true := by
      intro h
      by_contra hno
      exact hd ⟨h, by simpa using hno⟩
    rw [if_neg hd, and_iff_right hd', matchPath_iff]
    by_cases hslash : slash ∈ r.text
    · simp [hslash]
    · obtain ⟨above, hcomponents, hname⟩ := nameOf_split path
      have hlast : (path.splitOn slash).getLast? = some (nameOf path) := by
        rw [hcomponents, List.getLast?_concat]
      simp only [hslash, not_false_eq_true, decide_true, ↓reduceIte, hlast]
      rw [splitOn_single hslash, splitOn_single hname]
      simp

theorem mem_patterns {content : Bytes} {pattern : IgnorePattern} :
    pattern ∈ (readLines content).filterMap parsePattern ↔
      ∃ r, RuleOf content r ∧ pattern = r.pattern := by
  simp only [List.mem_filterMap, readLines_eq, List.mem_filter, List.mem_map, parsePattern_iff,
    decide_eq_true_eq, RuleOf]
  constructor
  · rintro ⟨_, ⟨⟨line, hline, rfl⟩, hrule⟩, r, hne, he, hr⟩
    exact ⟨r, ⟨hne, line, hline, hrule, hr⟩, he⟩
  · rintro ⟨r, ⟨hne, line, hline, hrule, hr⟩, he⟩
    exact ⟨chopped line, ⟨⟨line, hline, rfl⟩, hrule⟩, r, hne, he, hr⟩

theorem matches_ignored {rules : IgnoreRules} {path : Bytes} {isDirectory : Bool} :
    (rules.matches path isDirectory).ignored = true ↔ ∃ pattern ∈ rules.patterns,
      pattern.applies rules.caseSensitivity (normalizeSeparators path) isDirectory = true := by
  unfold IgnoreRules.matches
  rw [← List.any_eq_true]
  split
  · simp [*]
  · simp [*]

/-- What the rules of an ignore file ignore is what the format says. -/
theorem loaded_ignored (cs : IgnoreCaseSensitivity) (content : Bytes) (path : Bytes)
    (isDirectory : Bool) :
    ((IgnoreRules.mk ((readLines content).filterMap parsePattern) cs).matches path
        isDirectory).ignored = true ↔
      ∃ r, RuleOf content r ∧ r.Ignores cs (normalizeSeparators path) isDirectory := by
  rw [matches_ignored]
  simp only [mem_patterns]
  constructor
  · rintro ⟨_, ⟨r, hr, rfl⟩, happlies⟩
    exact ⟨r, hr, (applies_iff cs r _ _).mp happlies⟩
  · rintro ⟨r, hr, hignores⟩
    exact ⟨r.pattern, ⟨r, hr, rfl⟩, (applies_iff cs r _ _).mpr hignores⟩

/-- Whatever is in an ignore file, its rules are what the format says, and `match_component`
decides what a wildcard stands for. -/
theorem load_matches (place : Path) (replaced : Bool) (cs : IgnoreCaseSensitivity) (content : Bytes) :
    ∃ rules, IgnoreRules.load place replaced cs (.text content) = .ok rules ∧
      (∀ path isDirectory,
        ((rules.matches path isDirectory).ignored = true ↔
          ∃ r, RuleOf content r ∧ r.Ignores cs (normalizeSeparators path) isDirectory) ∧
        ((rules.matches path isDirectory).pruneDirectory = true ↔
          (rules.matches path isDirectory).ignored = true ∧ isDirectory = true)) ∧
      ∀ pattern name : List Char, matchComponent (encode pattern) (encode name) cs = true ↔
        Matches (sameCharacter cs) (pattern.map element) name := by
  refine ⟨_, rfl, ?_, fun pattern name => matchComponent_iff pattern name cs⟩
  intro path isDirectory
  refine ⟨loaded_ignored cs content path isDirectory, ?_⟩
  unfold IgnoreRules.matches
  split <;> simp

/-- The components of a name when a backslash separates as well. -/
def readName (name : Name) : List Name := name.splitOn backslash

/-- What a rule says about an object, by its names. -/
def Rule.IgnoresObject (cs : IgnoreCaseSensitivity) (r : Rule) (names : Path) (isDirectory : Bool) :
    Prop :=
  (r.directoriesOnly = true → isDirectory = true) ∧
    if slash ∈ r.text then
      List.Forall₂ (fun p n => matchComponent p n cs = true) (r.text.splitOn slash) names
    else ∃ name, names.getLast? = some name ∧ matchComponent r.text name cs = true

theorem normalized_single {name : Name} (h : slash ∉ name) :
    (normalizeSeparators name).splitOn slash = readName name := by
  unfold normalizeSeparators readName
  induction name with
  | nil => rfl
  | cons c name ih =>
    have hc : c ≠ slash := fun he => h (by simp [he])
    have hrest := ih (fun hm => h (List.mem_cons_of_mem _ hm))
    rw [List.map_cons, List.splitOn_cons_eq_if_modifyHead, List.splitOn_cons_eq_if_modifyHead, hrest]
    by_cases hb : c = backslash
    · simp [hb]
    · simp [hb, hc]

/-- The matcher sees the names of an object, each split at its backslashes. -/
theorem normalized_joined {path : Path} (hne : path ≠ []) (h : ∀ n ∈ path, slash ∉ n) :
    (normalizeSeparators (joined path)).splitOn slash = path.flatMap readName := by
  induction path with
  | nil => exact absurd rfl hne
  | cons n path ih =>
    cases path with
    | nil => simpa [joined] using normalized_single (h n (by simp))
    | cons m path =>
      have hrest := ih (by simp) (fun n hn => h n (List.mem_cons_of_mem _ hn))
      have hjoined : normalizeSeparators (joined (n :: m :: path)) =
          normalizeSeparators n ++ slash :: normalizeSeparators (joined (m :: path)) := by
        simp [normalizeSeparators, joined, slash, backslash]
      rw [hjoined, List.splitOn_eq_splitOnP, List.splitOnP_append_cons _ _ (by simp),
        ← List.splitOn_eq_splitOnP, ← List.splitOn_eq_splitOnP, hrest,
        normalized_single (h n (by simp))]
      simp only [List.flatMap_cons]

theorem readName_plain {name : Name} (h : backslash ∉ name) : readName name = [name] :=
  splitOn_single h

theorem ignores_joined {cs : IgnoreCaseSensitivity} {r : Rule} {path : Path} {isDirectory : Bool}
    (hne : path ≠ []) (h : ∀ n ∈ path, slash ∉ n) :
    r.Ignores cs (normalizeSeparators (joined path)) isDirectory ↔
      r.IgnoresObject cs (path.flatMap readName) isDirectory := by
  unfold Rule.Ignores Rule.IgnoresObject
  rw [normalized_joined hne h]

section Dropping

variable {c : ScanContext} {path : Path} {facts : ObjectFacts}

/-- The scan leaves the object out because of a rule. -/
def Dropped (c : ScanContext) (path : Path) (facts : ObjectFacts) : Prop :=
  isValidUtf8 (joined path) = true ∧ Ignored c path facts

/-- Nothing is called for it, and it is not gone below. -/
theorem dropped_passes (h : Dropped c path facts) (x : ScanHost) (s : Scanning) :
    scanObject x c path facts s = (.ok false, { s with visited := s.visited ++ [path] }) := by
  obtain ⟨hvalid, status, platform, hs, hp, hignored⟩ := h
  have hpath : pathToUtf8 path = some (joined path) := if_pos hvalid
  unfold scanObject
  simp only [hpath, hs, hp, hignored, ↓reduceIte]
  rfl

/-- An object that no rule drops is treated as if there were no rules. -/
theorem kept_unruled (h : ¬ Dropped c path facts) (x : ScanHost) (s : Scanning)
    (cs : IgnoreCaseSensitivity) :
    scanObject x c path facts s = scanObject x { c with ignoreRules := ⟨[], cs⟩ } path facts s := by
  unfold scanObject
  cases hpath : pathToUtf8 path with
  | none => rfl
  | some relative =>
    obtain ⟨rfl, hvalid⟩ := pathToUtf8_some hpath
    cases hs : facts.status with
    | error text => rfl
    | ok status =>
      cases hp : facts.platform with
      | error e => rfl
      | ok platform =>
        have hno : (c.ignoreRules.matches (joined path)
            (directoryLike status (scanEntryKind status platform))).ignored = false := by
          rw [← Bool.not_eq_true]
          exact fun hm => h ⟨hvalid, status, platform, hs, hp, hm⟩
        have hnone : ((IgnoreRules.mk [] cs).matches (joined path)
            (directoryLike status (scanEntryKind status platform))).ignored = false := rfl
        simp only [hno, hnone]
        rfl

end Dropping

/-- An object is dropped by a rule when the rule is met by its names, where a backslash in a name
separates as a slash does. -/
theorem scan_ignores (place : Path) (replaced : Bool) (cs : IgnoreCaseSensitivity) (content : Bytes)
    (c : ScanContext) (hrules : IgnoreRules.load place replaced cs (.text content) = .ok c.ignoreRules)
    (path : Path) (hne : path ≠ []) (hnames : ∀ n ∈ path, FileName n) (facts : ObjectFacts) :
    (Dropped c path facts → ∀ x s,
      scanObject x c path facts s = (.ok false, { s with visited := s.visited ++ [path] })) ∧
    (¬ Dropped c path facts → ∀ x s, scanObject x c path facts s =
      scanObject x { c with ignoreRules := ⟨[], cs⟩ } path facts s) ∧
    (∀ status platform, isValidUtf8 (joined path) = true → facts.status = .ok status →
      facts.platform = .ok platform →
      (Dropped c path facts ↔ ∃ r, RuleOf content r ∧ r.IgnoresObject cs (path.flatMap readName)
        (directoryLike status (scanEntryKind status platform)))) ∧
    ((∀ n ∈ path, backslash ∉ n) → path.flatMap readName = path) := by
  refine ⟨dropped_passes, fun h x s => kept_unruled h x s cs, ?_, ?_⟩
  · intro status platform hvalid hs hp
    have hslash : ∀ n ∈ path, slash ∉ n := fun n hn => (hnames n hn).2.2.2
    have hc : c.ignoreRules = ⟨(readLines content).filterMap parsePattern, cs⟩ :=
      (Except.ok.inj hrules).symm
    have hdropped : Dropped c path facts ↔ (c.ignoreRules.matches (joined path)
        (directoryLike status (scanEntryKind status platform))).ignored = true := by
      constructor
      · rintro ⟨_, status', platform', hs', hp', hignored⟩
        cases hs.symm.trans hs'
        cases hp.symm.trans hp'
        exact hignored
      · exact fun h => ⟨hvalid, status, platform, hs, hp, h⟩
    rw [hdropped, hc, loaded_ignored]
    simp only [ignores_joined hne hslash]
  · intro hplain
    clear hne hnames
    induction path with
    | nil => rfl
    | cons n path ih =>
      rw [List.flatMap_cons, readName_plain (hplain n (by simp)),
        ih (fun n hn => hplain n (List.mem_cons_of_mem _ hn))]
      rfl

/-- A scan with the rules of this file. -/
def ruled (content : Bytes) : ScanContext :=
  ⟨[], 1, ⟨(readLines content).filterMap parsePattern, .sensitive⟩, ⟨true, false, none⟩⟩

def aFile : ObjectFacts :=
  ⟨.ok .regular, .ok ⟨1, .none, false, false⟩, .ok ⟨3, 0, 0, 1, 2, 0⟩, .error "no link", ⟨none, none⟩⟩

theorem scan_ignores_b :
    Dropped (ruled (ascii "b")) [ascii "b"] aFile ↔ ∃ r, RuleOf (ascii "b") r ∧
      r.IgnoresObject .sensitive [ascii "b"] (directoryLike .regular .ordinary) := by
  have h := scan_ignores [] false .sensitive (ascii "b") (ruled (ascii "b")) rfl [ascii "b"]
    (by simp) (by decide) aFile
  have hplain := h.2.2.2 (by decide)
  have hrules := h.2.2.1 .regular ⟨1, .none, false, false⟩ (by decide) rfl rfl
  rwa [hplain] at hrules

theorem rule_of_b (r : Rule) : RuleOf (ascii "b") r ↔ r = ⟨ascii "b", false⟩ := by
  have hlines : (ascii "b").splitOn lineFeed = [ascii "b"] := by decide
  have hline : normalizeSeparators (chopped (ascii "b")) = ascii "b" := by decide
  obtain ⟨text, directoriesOnly⟩ := r
  constructor
  · rintro ⟨_, line, hmem, _, hr⟩
    rw [hlines, List.mem_singleton] at hmem
    subst hmem
    rw [hline] at hr
    cases directoriesOnly with
    | false => rw [hr.1]
    | true =>
      have hlast := congrArg List.getLast? hr
      rw [List.getLast?_concat] at hlast
      exact absurd hlast (by decide)
  · intro hr
    cases hr
    exact ⟨by decide, ascii "b", by decide, by decide, by decide⟩

theorem b_matches (name : List Char) :
    matchComponent (ascii "b") (encode name) .sensitive = true ↔ name = ['b'] := by
  have h := matchComponent_iff ['b'] name .sensitive
  refine Iff.trans h ?_
  rw [show ['b'].map element = [.literal 'b'] by simp [element]]
  constructor
  · intro hm
    cases hm with
    | literal hsame hrest =>
      rw [matches_nil.mp hrest]
      have : 'b' = _ := of_decide_eq_true hsame
      rw [← this]
  · rintro rfl
    exact .literal (by decide) .nil

/-- The last part of a name is taken for a name. -/
theorem backslash_separates :
    Dropped (ruled (ascii "b")) [ascii "a\\b"] aFile ∧
      ¬ ∃ r, RuleOf (ascii "b") r ∧
        r.IgnoresObject .sensitive [ascii "a\\b"] (directoryLike .regular .ordinary) := by
  constructor
  · refine ⟨by decide, .regular, ⟨1, .none, false, false⟩, rfl, rfl, ?_⟩
    refine (loaded_ignored _ _ _ _).mpr ⟨⟨ascii "b", false⟩, (rule_of_b _).mpr rfl, by simp, ?_⟩
    exact ⟨ascii "b", by decide, (b_matches ['b']).mpr rfl⟩
  · rintro ⟨r, hr, _, hignores⟩
    rw [(rule_of_b r).mp hr] at hignores
    obtain ⟨name, hname, hm⟩ := hignores
    cases hname
    have := (b_matches ['a', '\\', 'b']).mp hm
    simp at this

end LocalVault.Snapshot
