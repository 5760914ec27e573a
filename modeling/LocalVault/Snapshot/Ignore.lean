import LocalVault.Text

namespace LocalVault.Snapshot
open Library

inductive IgnoreCaseSensitivity where
  | sensitive
  | insensitive
  deriving DecidableEq, Repr

structure IgnorePattern where
  text : Bytes
  nameOnly : Bool
  directoryOnly : Bool
  deriving DecidableEq, Repr

structure IgnoreRules where
  patterns : List IgnorePattern
  caseSensitivity : IgnoreCaseSensitivity
  deriving DecidableEq, Repr

structure IgnoreMatchResult where
  ignored : Bool
  pruneDirectory : Bool
  deriving DecidableEq, Repr

def backslash : UInt8 := 92

def star : UInt8 := 42

def questionMark : UInt8 := 63

def lineFeed : UInt8 := 10

def carriageReturn : UInt8 := 13

def numberSign : UInt8 := 35

def normalizeSeparators (path : Bytes) : Bytes := path.map (fun c => if c = backslash then slash else c)

def foldAscii (c : UInt8) : UInt8 := if 65 ≤ c ∧ c ≤ 90 then c + 32 else c

def equalLiteral (left right : UInt8) (caseSensitivity : IgnoreCaseSensitivity) : Bool :=
  if left = right ∨ caseSensitivity = .sensitive then left = right
  else foldAscii left = foldAscii right

/-- The text behind its first character. -/
def nextCharacter : Bytes → Bytes
  | [] => []
  | first :: rest =>
    if first &&& 0xE0 = 0xC0 then rest.drop 1
    else if first &&& 0xF0 = 0xE0 then rest.drop 2
    else if first &&& 0xF8 = 0xF0 then rest.drop 3
    else rest

theorem nextCharacter_length (c : UInt8) (text : Bytes) :
    (nextCharacter (c :: text)).length ≤ text.length := by
  simp only [nextCharacter]
  repeat' split
  all_goals simp

/-- Behind the last `*`: the rest of the pattern, and the part of the name at which the next
attempt starts. -/
structure StarOffset where
  pattern : Bytes
  name : Bytes
  deriving DecidableEq, Repr

/-- The loop of `match_component`. An attempt never stands in front of the place where it
started. -/
def matchFrom (caseSensitivity : IgnoreCaseSensitivity) (pattern name : Bytes)
    (last : Option StarOffset) (h : ∀ s ∈ last, name.length ≤ s.name.length) : Bool :=
  match name with
  | [] => pattern.all (· = star)
  | c :: rest =>
    let again : Bool :=
      match last, h with
      | none, _ => false
      | some ⟨after, start⟩, h =>
        matchFrom caseSensitivity after (nextCharacter start) (some ⟨after, nextCharacter start⟩)
          (by simp)
    match pattern with
    | [] => again
    | q :: pattern =>
      if q = questionMark then
        matchFrom caseSensitivity pattern (nextCharacter (c :: rest)) last
          (fun s hs => Nat.le_trans (Nat.le_succ_of_le (nextCharacter_length c rest)) (h s hs))
      else if q = star then
        matchFrom caseSensitivity pattern (c :: rest) (some ⟨pattern, c :: rest⟩) (by simp)
      else if equalLiteral q c caseSensitivity then
        matchFrom caseSensitivity pattern rest last (fun s hs => Nat.le_of_succ_le (h s hs))
      else again
termination_by ((last.map (fun s => s.name.length)).getD (name.length + 1), pattern.length)
decreasing_by
  · have hs := h _ rfl
    cases start with
    | nil => simp at hs
    | cons d text =>
      have := nextCharacter_length d text
      simp only [Option.map_some, Option.getD_some, Prod.lex_def, List.length_cons]
      omega
  · have := nextCharacter_length c rest
    cases last with
    | none =>
      simp only [Option.map_none, Option.getD_none, Prod.lex_def, List.length_cons]
      omega
    | some s => simp [Prod.lex_def]
  · cases last with
    | none => simp [Prod.lex_def]
    | some s =>
      have := h s rfl
      simp [Prod.lex_def] at this ⊢
      omega
  · cases last <;> simp [Prod.lex_def]

def matchComponent (pattern name : Bytes) (caseSensitivity : IgnoreCaseSensitivity) : Bool :=
  matchFrom caseSensitivity pattern name none (by simp)

/-- `substr` up to a separator, or to the end where there is none. -/
def upTo (text : Bytes) : Option Nat → Bytes
  | none => text
  | some separator => text.take separator

theorem idxOf?_length {c : UInt8} {text : Bytes} {i : Nat} (h : text.idxOf? c = some i) :
    i < text.length := by
  rw [List.idxOf?_eq_some_iff] at h
  exact h.1

/-- `match_path`. What is left of the two texts stands for the two offsets. -/
def matchPath (pattern path : Bytes) (caseSensitivity : IgnoreCaseSensitivity) : Bool :=
  if matchComponent (upTo pattern (pattern.idxOf? slash)) (upTo path (path.idxOf? slash))
      caseSensitivity = false then false
  else
    match _h : pattern.idxOf? slash, path.idxOf? slash with
    | some patternSeparator, some pathSeparator =>
      matchPath (pattern.drop (patternSeparator + 1)) (path.drop (pathSeparator + 1)) caseSensitivity
    | patternSeparator, pathSeparator => patternSeparator = pathSeparator
termination_by pattern.length
decreasing_by
  have := idxOf?_length _h
  simp only [List.length_drop]
  omega

/-- `rfind('/')`. -/
def lastSeparator (text : Bytes) : Option Nat :=
  (text.reverse.idxOf? slash).map (fun i => text.length - 1 - i)

def nameOf (path : Bytes) : Bytes :=
  match lastSeparator path with
  | none => path
  | some separator => path.drop (separator + 1)

/-- `std::getline`: the next line and what is left of the file. -/
def getline (input : Bytes) : Option (Bytes × Bytes) :=
  if input = [] then none
  else
    match input.idxOf? lineFeed with
    | none => some (input, [])
    | some i => some (input.take i, input.drop (i + 1))

theorem getline_length {input line rest : Bytes} (h : getline input = some (line, rest)) :
    rest.length < input.length := by
  unfold getline at h
  split at h
  · cases h
  · have := List.length_pos_of_ne_nil ‹¬input = []›
    split at h
    · cases h
      simpa using this
    · cases h
      simp only [List.length_drop]
      omega

def readLines (input : Bytes) : List Bytes :=
  match _h : getline input with
  | none => []
  | some (line, rest) =>
    let line := if line.getLast? = some carriageReturn then line.dropLast else line
    if line = [] ∨ line.head? = some numberSign then readLines rest else line :: readLines rest
termination_by input.length
decreasing_by
  all_goals exact getline_length _h

def parsePattern (line : Bytes) : Option IgnorePattern :=
  let line := normalizeSeparators line
  let directoryOnly : Bool := line.getLast? = some slash
  let line := if directoryOnly then line.dropLast else line
  if line = [] then none else some ⟨line, slash ∉ line, directoryOnly⟩

/-- What the ignore file turns out to be. -/
inductive IgnoreFile where
  | refused (noEntry : Bool) (text : String)
  | absent
  | notRegular
  | unopenable
  | unreadable
  | text (content : Bytes)
  deriving DecidableEq, Repr

def ignoreFileName : Name := ascii ".localvaultignore"

def IgnoreRules.load (path : Path) (replaced : Bool) (caseSensitivity : IgnoreCaseSensitivity) :
    IgnoreFile → Except LocalVaultError IgnoreRules
  | .refused noEntry text =>
    if replaced = false ∧ noEntry = true then .ok ⟨[], caseSensitivity⟩
    else .error { code := .filesystemError, path,
                  message := "failed to inspect ignore file: " ++ text }
  | .absent =>
    if replaced = false then .ok ⟨[], caseSensitivity⟩
    else .error { code := .filesystemError, message := "ignore file does not exist", path }
  | .notRegular =>
    .error { code := .filesystemError, message := "ignore file is not a regular file", path }
  | .unopenable => .error { code := .filesystemError, message := "failed to open ignore file", path }
  | .unreadable => .error { code := .filesystemError, message := "failed to read ignore file", path }
  | .text content => .ok ⟨(readLines content).filterMap parsePattern, caseSensitivity⟩

def IgnorePattern.applies (caseSensitivity : IgnoreCaseSensitivity) (path : Bytes) (isDirectory : Bool)
    (pattern : IgnorePattern) : Bool :=
  if pattern.directoryOnly ∧ isDirectory = false then false
  else matchPath pattern.text (if pattern.nameOnly then nameOf path else path) caseSensitivity

/-- `IgnoreRules::match`. -/
def IgnoreRules.matches (rules : IgnoreRules) (repositoryRelativePath : Bytes) (isDirectory : Bool) :
    IgnoreMatchResult :=
  if rules.patterns.any
      (·.applies rules.caseSensitivity (normalizeSeparators repositoryRelativePath) isDirectory) then
    ⟨true, isDirectory⟩
  else ⟨false, false⟩

end LocalVault.Snapshot
