import Mathlib.Algebra.BigOperators.Ring.Finset
import Mathlib.Algebra.Order.BigOperators.Group.List
import Mathlib.Algebra.Order.Ring.Int
import Mathlib.Data.List.Sort

namespace LocalVault.Library.FileTree

/-- A file name or a text, as the operating system sees it. -/
abbrev Bytes := List UInt8

abbrev Name := Bytes

/-- An absolute path without separators: the empty list is `/`. -/
abbrev Path := List Name

structure Stamp where
  mode : Nat
  mtime : Int
  deriving DecidableEq, Repr

inductive Node where
  | directory (stamp : Stamp)
  | file (content : Bytes) (stamp : Stamp)
  | link (target : Bytes)
  | special
  deriving DecidableEq, Repr

/-- A mounted tree, indexed by physical paths. -/
abbrev Tree := Path → Option Node

/-- The failures of a system call that the tree itself explains, and those it
does not. -/
inductive Errno where
  | noEntry
  | notDirectory
  | tooManyLinks
  | alreadyExists
  | isDirectory
  | other (text : String)
  deriving DecidableEq, Repr

def slash : UInt8 := 47

def dot : Name := [46]

def dotDot : Name := [46, 46]

/-- The pieces of a text between separators, empty ones included. -/
def pieces : Bytes → List Bytes
  | [] => [[]]
  | c :: cs =>
    if c = slash then [] :: pieces cs
    else match pieces cs with
      | [] => [[c]]
      | p :: ps => (c :: p) :: ps

/-- The names a link target walks through; repeated separators count once. -/
def names (text : Bytes) : List Name := (pieces text).filter (· ≠ [])

def Tree.set (t : Tree) (p : Path) (n : Option Node) : Tree :=
  fun q => if q = p then n else t q

def Node.retime (now : Int) : Node → Node
  | .directory st => .directory { st with mtime := now }
  | n => n

/-- A change of a directory's contents moves its modification time. -/
def Tree.touch (t : Tree) (d : Path) (now : Int) : Tree :=
  fun q => if q = d then (t q).map (Node.retime now) else t q

/-- One walk along `todo` from the directory `here`; a link is handed to
`onLink` with the names that remain. -/
def walk (t : Tree) (onLink : Path → List Name → Except Errno Path) :
    Path → List Name → Except Errno Path
  | here, [] => .ok here
  | here, c :: rest =>
    if c = dot then walk t onLink here rest
    else if c = dotDot then walk t onLink here.dropLast rest
    else match t (here ++ [c]) with
      | none => .error .noEntry
      | some (.directory _) => walk t onLink (here ++ [c]) rest
      | some (.link target) =>
        onLink (if target.head? = some slash then [] else here) (names target ++ rest)
      | some _ => if rest = [] then .ok (here ++ [c]) else .error .notDirectory

/-- Path resolution through at most so many symbolic links. -/
def follow (t : Tree) : Nat → Path → List Name → Except Errno Path
  | 0 => walk t (fun _ _ => .error .tooManyLinks)
  | n + 1 => walk t (follow t n)

def maximumLinks : Nat := 40

/-- The physical path of a path, every link in it followed. -/
def realPath (t : Tree) (p : Path) : Except Errno Path := follow t maximumLinks [] p

/-- The physical path of a directory entry: links are followed in front of the
last name and not at it. -/
def entryPath (t : Tree) (p : Path) : Except Errno Path :=
  match p.getLast? with
  | none => .ok []
  | some n =>
    match realPath t p.dropLast with
    | .error e => .error e
    | .ok d =>
      match t d with
      | some (.directory _) => .ok (d ++ [n])
      | _ => .error .notDirectory

def lstat (t : Tree) (p : Path) : Except Errno Node :=
  match entryPath t p with
  | .error e => .error e
  | .ok q =>
    match t q with
    | none => .error .noEntry
    | some n => .ok n

/-- `stat`: a link at the end of the path is followed too. -/
def stat (t : Tree) (p : Path) : Except Errno Node :=
  match realPath t p with
  | .error e => .error e
  | .ok q =>
    match t q with
    | none => .error .noEntry
    | some n => .ok n

/-- `mkdir`, `open` with `O_EXCL` and `symlink`: a new entry at a free name. -/
def create (t : Tree) (p : Path) (n : Node) (now : Int) : Except Errno Tree :=
  match entryPath t p with
  | .error e => .error e
  | .ok q =>
    match t q with
    | some _ => .error .alreadyExists
    | none => .ok ((t.set q (some n)).touch q.dropLast now)

/-- `unlink`; directories are left to `rmdir`, which is not used here. -/
def unlink (t : Tree) (p : Path) (now : Int) : Except Errno Tree :=
  match entryPath t p with
  | .error e => .error e
  | .ok q =>
    match t q with
    | none => .error .noEntry
    | some (.directory _) => .error .isDirectory
    | some _ => .ok ((t.set q none).touch q.dropLast now)

/-- `rename` of a file or a link. Without `replace` an existing target is
refused, also when it is the source itself; with it, a rename onto itself does
nothing. -/
def rename (t : Tree) (source target : Path) (replace : Bool) (now : Int) :
    Except Errno Tree :=
  match entryPath t source, entryPath t target with
  | .error e, _ => .error e
  | _, .error e => .error e
  | .ok p, .ok q =>
    match t p with
    | none => .error .noEntry
    | some (.directory _) => .error .isDirectory
    | some n =>
      match t q with
      | some (.directory _) => if replace then .error .isDirectory else .error .alreadyExists
      | some _ =>
        if !replace then .error .alreadyExists
        else if p = q then .ok t
        else .ok ((((t.set p none).set q (some n)).touch p.dropLast now).touch q.dropLast now)
      | none =>
        .ok ((((t.set p none).set q (some n)).touch p.dropLast now).touch q.dropLast now)

/-- A write at the end of an open file. -/
def append (t : Tree) (p : Path) (bytes : Bytes) (now : Int) : Except Errno Tree :=
  match t p with
  | some (.file content st) =>
    .ok (t.set p (some (.file (content ++ bytes) { st with mtime := now })))
  | _ => .error .noEntry

/-- A change of mode or time of the object at a physical path. -/
def restamp (t : Tree) (p : Path) (f : Stamp → Stamp) : Except Errno Tree :=
  match t p with
  | some (.directory st) => .ok (t.set p (some (.directory (f st))))
  | some (.file content st) => .ok (t.set p (some (.file content (f st))))
  | some _ => .ok t
  | none => .error .noEntry

/-- `chmod` and `utimensat` follow a link at the end of the path. -/
def restampFollowing (t : Tree) (p : Path) (f : Stamp → Stamp) : Except Errno Tree :=
  match realPath t p with
  | .error e => .error e
  | .ok q => restamp t q f

@[simp] theorem set_same (t : Tree) (p : Path) (n : Option Node) : t.set p n p = n := by
  simp [Tree.set]

theorem set_other (t : Tree) {p q : Path} (n : Option Node) (h : q ≠ p) :
    t.set p n q = t q := by
  simp [Tree.set, h]

theorem touch_other (t : Tree) {d q : Path} (now : Int) (h : q ≠ d) :
    t.touch d now q = t q := by
  simp [Tree.touch, h]

theorem touch_same {t : Tree} {d : Path} {st : Stamp} (now : Int)
    (h : t d = some (.directory st)) :
    t.touch d now d = some (.directory { st with mtime := now }) := by
  simp [Tree.touch, h, Node.retime]

/-- A touched object that is not a directory stays as it is. -/
theorem touch_plain {t : Tree} {d q : Path} (now : Int) {n : Node} (h : t q = some n)
    (hn : ∀ st, n ≠ .directory st) : t.touch d now q = some n := by
  unfold Tree.touch
  split
  · cases n with
    | directory st => exact absurd rfl (hn st)
    | _ => simp [h, Node.retime]
  · exact h

def IsDirectory (t : Tree) (p : Path) : Prop := ∃ st, t p = some (.directory st)

/-- Every object hangs below a directory. -/
structure WellFormed (t : Tree) : Prop where
  root : IsDirectory t []
  parent : ∀ p n, t (p ++ [n]) ≠ none → IsDirectory t p

/-- No name of the path is resolved specially. -/
def Plain (p : Path) : Prop := ∀ c ∈ p, c ≠ dot ∧ c ≠ dotDot

theorem Plain.left {p q : Path} (h : Plain (p ++ q)) : Plain p :=
  fun c hc => h c (List.mem_append_left _ hc)

theorem Plain.right {p q : Path} (h : Plain (p ++ q)) : Plain q :=
  fun c hc => h c (List.mem_append_right _ hc)

theorem Plain.append {p q : Path} (hp : Plain p) (hq : Plain q) : Plain (p ++ q) := by
  intro c hc
  rcases List.mem_append.mp hc with hc | hc
  · exact hp c hc
  · exact hq c hc

theorem touch_directory {t : Tree} {d p : Path} (now : Int) :
    IsDirectory (t.touch d now) p ↔ IsDirectory t p := by
  by_cases h : p = d
  · subst h
    simp only [IsDirectory, Tree.touch, ↓reduceIte]
    cases hn : t p with
    | none => simp
    | some n => cases n <;> simp [Node.retime]
  · simp only [IsDirectory, touch_other t now h]

theorem touch_none {t : Tree} {d p : Path} (now : Int) :
    t.touch d now p = none ↔ t p = none := by
  unfold Tree.touch
  split <;> simp

/-- A change that keeps every directory and puts new objects below
directories keeps the tree well formed. -/
theorem WellFormed.change {t t' : Tree} (h : WellFormed t)
    (keep : ∀ p, IsDirectory t p → IsDirectory t' p)
    (fresh : ∀ p n, t' (p ++ [n]) ≠ none → t (p ++ [n]) ≠ none ∨ IsDirectory t' p) :
    WellFormed t' := by
  refine ⟨keep [] h.root, ?_⟩
  intro p n hn
  rcases fresh p n hn with ho | hd
  · exact keep p (h.parent p n ho)
  · exact hd

theorem WellFormed.touch {t : Tree} (h : WellFormed t) (d : Path) (now : Int) :
    WellFormed (t.touch d now) := by
  apply h.change
  · intro p hp
    exact (touch_directory now).mpr hp
  · intro p n hn
    exact Or.inl (fun he => hn ((touch_none now).mpr he))

/-- Everything in front of an object is a directory. -/
theorem WellFormed.ancestors {t : Tree} (h : WellFormed t) {p q : Path}
    (hd : IsDirectory t (p ++ q)) : IsDirectory t p := by
  induction q using List.reverseRecOn with
  | nil => simpa using hd
  | append_singleton q n ih =>
    apply ih
    obtain ⟨st, hst⟩ := hd
    apply h.parent (p ++ q) n
    rw [List.append_assoc, hst]
    simp

theorem WellFormed.below_missing {t : Tree} (h : WellFormed t) {p : Path} {q : Path}
    (hp : t p = none) : t (p ++ q) = none := by
  induction q using List.reverseRecOn with
  | nil => simpa using hp
  | append_singleton q n ih =>
    by_contra hn
    rw [← List.append_assoc] at hn
    obtain ⟨st, hst⟩ := h.parent (p ++ q) n hn
    rw [ih] at hst
    cases hst

theorem walk_directories (t : Tree) (f : Path → List Name → Except Errno Path)
    (here todo rest : Path) (hp : Plain todo)
    (hd : ∀ q, q <+: todo → q ≠ [] → IsDirectory t (here ++ q)) :
    walk t f here (todo ++ rest) = walk t f (here ++ todo) rest := by
  induction todo generalizing here with
  | nil => simp
  | cons c todo ih =>
    obtain ⟨st, hst⟩ := hd [c] (by simp) (by simp)
    have hc := hp c (by simp)
    simp only [List.cons_append, walk, hc.1, hc.2, ↓reduceIte, hst]
    rw [ih (here ++ [c]) (fun d hm => hp d (List.mem_cons_of_mem _ hm))]
    · simp
    · intro q hq hne
      have := hd (c :: q) (by simpa using hq) (by simp)
      simpa using this

theorem follow_directories (t : Tree) (n : Nat) (todo rest : Path) (hp : Plain todo)
    (hd : ∀ q, q <+: todo → q ≠ [] → IsDirectory t q) :
    follow t n [] (todo ++ rest) = follow t n todo rest := by
  cases n <;> exact walk_directories t _ [] todo rest hp (by simpa using hd)

section Resolution

variable {t : Tree} {d : Path}

theorem directory_prefixes (hw : WellFormed t) (hd : IsDirectory t d) :
    ∀ q, q <+: d → q ≠ [] → IsDirectory t q := by
  rintro q ⟨r, rfl⟩ _
  exact hw.ancestors hd

/-- A directory of the tree is reached by its own path. -/
theorem realPath_directory (hw : WellFormed t) (hp : Plain d) (hd : IsDirectory t d) :
    realPath t d = .ok d := by
  have h := follow_directories t maximumLinks d [] hp (directory_prefixes hw hd)
  simp only [List.append_nil] at h
  unfold realPath
  rw [h]
  rfl

theorem entryPath_directory (hw : WellFormed t) (hp : Plain d) (hd : IsDirectory t d) (n : Name) :
    entryPath t (d ++ [n]) = .ok (d ++ [n]) := by
  obtain ⟨st, hst⟩ := hd
  simp [entryPath, realPath_directory hw hp ⟨st, hst⟩, hst]

theorem lstat_entry (hw : WellFormed t) (hp : Plain d) (hd : IsDirectory t d) (n : Name) :
    lstat t (d ++ [n]) = match t (d ++ [n]) with
      | none => .error .noEntry
      | some node => .ok node := by
  simp [lstat, entryPath_directory hw hp hd n]

/-- Nothing can be reached through a name that is not there. -/
theorem entryPath_missing (hw : WellFormed t) {c : Name} {rest : Path} {n : Name}
    (hp : Plain (d ++ c :: rest)) (hd : IsDirectory t d) (hc : t (d ++ [c]) = none) :
    entryPath t (d ++ c :: rest ++ [n]) = .error .noEntry := by
  have hf := follow_directories t maximumLinks d (c :: rest) hp.left (directory_prefixes hw hd)
  have hcs := hp.right c (by simp)
  have hr : realPath t (d ++ c :: rest) = .error .noEntry := by
    unfold realPath
    rw [hf]
    simp [maximumLinks, follow, walk, hcs.1, hcs.2, hc]
  unfold entryPath
  rw [List.getLast?_concat, List.dropLast_concat]
  simp only [hr]

theorem lstat_missing (hw : WellFormed t) {c : Name} {rest : Path}
    (hp : Plain (d ++ c :: rest)) (hd : IsDirectory t d) (hc : t (d ++ [c]) = none) :
    lstat t (d ++ c :: rest) = .error .noEntry := by
  rcases List.eq_nil_or_concat rest with rfl | ⟨r, n, rfl⟩
  · rw [lstat_entry hw hp.left hd c, hc]
  · have hp' : Plain (d ++ c :: r) := by
      apply Plain.left (q := [n])
      simpa using hp
    have := entryPath_missing (n := n) hw hp' hd hc
    unfold lstat
    rw [show d ++ c :: r.concat n = d ++ c :: r ++ [n] by simp, this]

/-- A `stat` of an entry that is no link sees what stands there. -/
theorem stat_entry (hw : WellFormed t) (hp : Plain d) (hd : IsDirectory t d) {n : Name}
    (hn : n ≠ dot ∧ n ≠ dotDot) (hl : ∀ target, t (d ++ [n]) ≠ some (.link target)) :
    stat t (d ++ [n]) = match t (d ++ [n]) with
      | none => .error .noEntry
      | some node => .ok node := by
  have hf := follow_directories t maximumLinks d [n] hp (directory_prefixes hw hd)
  unfold stat realPath
  rw [hf]
  simp only [maximumLinks, follow, walk, hn.1, hn.2, ↓reduceIte]
  cases h : t (d ++ [n]) with
  | none => rfl
  | some node =>
    cases node with
    | link target => exact absurd h (hl target)
    | _ => simp [h]

theorem create_entry (hw : WellFormed t) (hp : Plain d) (hd : IsDirectory t d) (n : Name)
    (node : Node) (now : Int) :
    create t (d ++ [n]) node now = match t (d ++ [n]) with
      | some _ => .error .alreadyExists
      | none => .ok ((t.set (d ++ [n]) (some node)).touch d now) := by
  simp [create, entryPath_directory hw hp hd n]

end Resolution

theorem WellFormed.insert {t : Tree} (h : WellFormed t) {d : Path} {n : Name}
    (hd : IsDirectory t d) (hf : ¬ IsDirectory t (d ++ [n])) (node : Node) :
    WellFormed (t.set (d ++ [n]) (some node)) := by
  have keep : ∀ p, IsDirectory t p → IsDirectory (t.set (d ++ [n]) (some node)) p := by
    rintro p ⟨st, hst⟩
    have hne : p ≠ d ++ [n] := by
      rintro rfl
      exact hf ⟨st, hst⟩
    exact ⟨st, by rw [set_other t _ hne, hst]⟩
  apply h.change keep
  intro p m hm
  by_cases he : p ++ [m] = d ++ [n]
  · obtain ⟨rfl, _⟩ := List.append_inj' he rfl
    exact Or.inr (keep p hd)
  · rw [set_other t _ he] at hm
    exact Or.inl hm

theorem WellFormed.erase {t : Tree} (h : WellFormed t) {q : Path}
    (hf : ¬ IsDirectory t q) : WellFormed (t.set q none) := by
  apply h.change
  · rintro p ⟨st, hst⟩
    have hne : p ≠ q := by
      rintro rfl
      exact hf ⟨st, hst⟩
    exact ⟨st, by rw [set_other t _ hne, hst]⟩
  · intro p m hm
    by_cases he : p ++ [m] = q
    · rw [he, set_same] at hm
      exact absurd rfl hm
    · rw [set_other t _ he] at hm
      exact Or.inl hm

end LocalVault.Library.FileTree
