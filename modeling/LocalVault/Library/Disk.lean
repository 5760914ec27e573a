import LocalVault.Library.FileEdit

namespace LocalVault.Library.FileTree

/-- A finite tree: the first record of a path counts. -/
structure Disk where
  nodes : List (Path × Node)

namespace Disk

def tree (d : Disk) : Tree := fun p => (d.nodes.find? (fun r => r.1 = p)).map Prod.snd

def put (d : Disk) (p : Path) (n : Option Node) : Disk :=
  ⟨(n.map (Prod.mk p)).toList ++ d.nodes.filter (fun r => r.1 ≠ p)⟩

def touch (d : Disk) (p : Path) (now : Int) : Disk :=
  ⟨d.nodes.map (fun r => if r.1 = p then (r.1, r.2.retime now) else r)⟩

/-- No entry stands in the directory. -/
def isEmpty (d : Disk) (p : Path) : Bool :=
  d.nodes.all (fun r => r.1 = [] ∨ r.1.dropLast ≠ p)

/-- `mkdir` and `open` with `O_EXCL`: a new entry at a free name. -/
def create (d : Disk) (p : Path) (n : Node) (now : Int) : Except Errno Disk :=
  match entryPath d.tree p with
  | .error e => .error e
  | .ok q =>
    match d.tree q with
    | some _ => .error .alreadyExists
    | none => .ok ((d.put q (some n)).touch q.dropLast now)

/-- `remove`: `unlink`, or `rmdir` of an empty directory. -/
def remove (d : Disk) (p : Path) (now : Int) : Except Errno Disk :=
  match entryPath d.tree p with
  | .error e => .error e
  | .ok q =>
    match d.tree q with
    | none => .error .noEntry
    | some (.directory _) =>
      if q = [] then .error (.other "Device or resource busy")
      else if d.isEmpty q then .ok ((d.put q none).touch q.dropLast now)
      else .error (.other "Directory not empty")
    | some _ => .ok ((d.put q none).touch q.dropLast now)

/-- `chmod`, which follows a link at the end of the path. -/
def restamp (d : Disk) (p : Path) (f : Stamp → Stamp) : Except Errno Disk :=
  match realPath d.tree p with
  | .error e => .error e
  | .ok q =>
    match d.tree q with
    | some (.directory st) => .ok (d.put q (some (.directory (f st))))
    | some (.file content st) => .ok (d.put q (some (.file content (f st))))
    | some _ => .ok d
    | none => .error .noEntry

theorem tree_put (d : Disk) (p : Path) (n : Option Node) : (d.put p n).tree = d.tree.set p n := by
  funext q
  unfold tree put Tree.set
  by_cases h : q = p
  · subst h
    cases n with
    | none => simp
    | some m => simp
  · have hp : p ≠ q := fun e => h e.symm
    have hrest : (d.nodes.filter (fun r => r.1 ≠ p)).find? (fun r => r.1 = q) =
        d.nodes.find? (fun r => r.1 = q) := by
      rw [List.find?_filter]
      congr 1
      funext r
      by_cases hr : r.1 = q
      · simp [hr, h]
      · simp [hr]
    rw [List.find?_append, hrest]
    cases n with
    | none => simp [h]
    | some m => simp [h, hp]

theorem tree_touch (d : Disk) (p : Path) (now : Int) : (d.touch p now).tree = d.tree.touch p now := by
  funext q
  unfold tree touch Tree.touch
  induction d.nodes with
  | nil => simp
  | cons r rs ih =>
    simp only [List.map_cons, List.find?_cons]
    by_cases hq : r.1 = q
    · by_cases hp : r.1 = p
      · simp [hp, hp ▸ hq]
      · have : ¬ q = p := fun e => hp (hq.trans e)
        simp [hq, this]
    · have hkey : (if r.1 = p then (r.1, r.2.retime now) else r).1 = r.1 := by
        split <;> rfl
      simp only [hkey, hq, decide_false]
      exact ih

theorem isEmpty_iff (d : Disk) (p : Path) : d.isEmpty p = true ↔ ∀ n, d.tree (p ++ [n]) = none := by
  unfold isEmpty tree
  simp only [List.all_eq_true, decide_eq_true_eq, Option.map_eq_none_iff, List.find?_eq_none]
  constructor
  · intro h n r hr he
    rcases h r hr with h | h
    · simp [h] at he
    · exact h (by rw [he, List.dropLast_concat])
  · intro h r hr
    by_cases hn : r.1 = []
    · exact Or.inl hn
    · refine Or.inr (fun he => ?_)
      obtain ⟨front, last, hsplit⟩ := split_last hn
      rw [hsplit, List.dropLast_concat] at he
      subst he
      exact h last r hr hsplit

theorem create_tree {d d' : Disk} {p : Path} {n : Node} {now : Int}
    (h : d.create p n now = .ok d') :
    ∃ q, entryPath d.tree p = .ok q ∧ d.tree q = none ∧
      d'.tree = (d.tree.set q (some n)).touch q.dropLast now := by
  unfold create at h
  split at h
  · cases h
  · rename_i q hq
    split at h
    · cases h
    · rename_i hn
      cases h
      exact ⟨q, hq, hn, by rw [tree_touch, tree_put]⟩

theorem restamp_tree {d d' : Disk} {p : Path} {f : Stamp → Stamp} (h : d.restamp p f = .ok d') :
    restampFollowing d.tree p f = .ok d'.tree := by
  unfold restamp at h
  unfold restampFollowing FileTree.restamp
  cases hq : realPath d.tree p with
  | error e =>
    rw [hq] at h
    cases h
  | ok q =>
    rw [hq] at h
    dsimp only at h ⊢
    cases hn : d.tree q with
    | none => simp [hn] at h
    | some m =>
      rw [hn] at h
      cases m <;> cases h <;> simp only [tree_put]

/-- What a removal does to an entry that nothing stands below. -/
theorem remove_leaf {d : Disk} {p q : Path} (now : Int) (he : entryPath d.tree p = .ok q)
    (hne : q ≠ []) (hleaf : ∀ n, d.tree (q ++ [n]) = none) :
    (d.tree q = none ∧ d.remove p now = .error .noEntry) ∨
      ∃ d', d.remove p now = .ok d' ∧ d'.tree = (d.tree.set q none).touch q.dropLast now := by
  unfold remove
  rw [he]
  dsimp only
  cases hn : d.tree q with
  | none => exact Or.inl ⟨rfl, rfl⟩
  | some m =>
    refine Or.inr ⟨(d.put q none).touch q.dropLast now, ?_, by rw [tree_touch, tree_put]⟩
    cases m with
    | directory st => simp [hne, (isEmpty_iff d q).mpr hleaf]
    | _ => rfl

end Disk

section Resolution

variable {t u : Tree} {b : Path} {onLink onLink' : Path → List Name → Except Errno Path}

/-- A walk can be continued from the directory where it ended. -/
theorem walk_append {ys : List Name} {r : Except Errno Path} (hb : IsDirectory t b)
    (links : ∀ here xs, onLink here xs = .ok b → onLink here (xs ++ ys) = r)
    (stop : walk t onLink b ys = r) {here : Path} {xs : List Name}
    (h : walk t onLink here xs = .ok b) : walk t onLink here (xs ++ ys) = r := by
  induction xs generalizing here with
  | nil =>
    cases h
    exact stop
  | cons x xs ih =>
    rw [List.cons_append]
    unfold walk at h ⊢
    split
    · rw [if_pos ‹_›] at h
      exact ih h
    rename_i hd
    rw [if_neg hd] at h
    split
    · rw [if_pos ‹_›] at h
      exact ih h
    rename_i hdd
    rw [if_neg hdd] at h
    cases hn : t (here ++ [x]) with
    | none => simp [hn] at h
    | some m =>
      rw [hn] at h
      cases m with
      | directory st => exact ih h
      | link target =>
        dsimp only at h ⊢
        rw [← List.append_assoc]
        exact links _ _ h
      | _ =>
        -- an object that is no directory ends the walk, and `b` is a directory
        dsimp only at h
        split at h
        · cases h
          obtain ⟨st, hst⟩ := hb
          rw [hst] at hn
          cases hn
        · cases h

theorem follow_append {n : Nat} {here : Path} {xs ys : List Name} {r : Except Errno Path}
    (hb : IsDirectory t b) (hr : ∀ m, follow t m b ys = r) (h : follow t n here xs = .ok b) :
    follow t n here (xs ++ ys) = r := by
  induction n generalizing here xs with
  | zero => exact walk_append hb (fun _ _ h => by cases h) (hr 0) h
  | succ n ih => exact walk_append hb (fun _ _ h => ih h) (hr (n + 1)) h

theorem walk_prefix {ys : List Name} {c : Path}
    (whole : ∀ b', walk t onLink b' ys = .ok c → ∃ m, follow t m b' ys = .ok c)
    (links : ∀ here xs, onLink here (xs ++ ys) = .ok c →
      ∃ b' m, onLink here xs = .ok b' ∧ follow t m b' ys = .ok c) {here : Path} {xs : List Name}
    (h : walk t onLink here (xs ++ ys) = .ok c) :
    ∃ b' m, walk t onLink here xs = .ok b' ∧ follow t m b' ys = .ok c := by
  induction xs generalizing here with
  | nil =>
    obtain ⟨m, hm⟩ := whole here h
    exact ⟨here, m, rfl, hm⟩
  | cons x xs ih =>
    rw [List.cons_append] at h
    unfold walk at h ⊢
    split
    · rw [if_pos ‹_›] at h
      exact ih h
    rename_i hd
    rw [if_neg hd] at h
    split
    · rw [if_pos ‹_›] at h
      exact ih h
    rename_i hdd
    rw [if_neg hdd] at h
    cases hn : t (here ++ [x]) with
    | none => simp [hn] at h
    | some m =>
      rw [hn] at h
      cases m with
      | directory st => exact ih h
      | link target =>
        dsimp only at h ⊢
        rw [← List.append_assoc] at h
        exact links _ _ h
      | _ =>
        -- nothing follows an object that is no directory
        dsimp only at h ⊢
        split at h
        · rename_i hnil
          obtain ⟨rfl, rfl⟩ := List.append_eq_nil_iff.mp hnil
          cases h
          exact ⟨_, 0, rfl, rfl⟩
        · cases h

/-- What resolves has resolved up to each of its names. -/
theorem follow_prefix {n : Nat} {here c : Path} {xs ys : List Name}
    (h : follow t n here (xs ++ ys) = .ok c) :
    ∃ b' m, follow t n here xs = .ok b' ∧ follow t m b' ys = .ok c := by
  induction n generalizing here xs with
  | zero => exact walk_prefix (fun _ h => ⟨0, h⟩) (fun _ _ h => by cases h) h
  | succ n ih => exact walk_prefix (fun _ h => ⟨n + 1, h⟩) (fun _ _ h => ih h) h

/-- What stands in the one tree stands in the other, up to the stamps of
directories. -/
structure Extends (t u : Tree) : Prop where
  directory : ∀ p, IsDirectory t p → IsDirectory u p
  plain : ∀ p n, t p = some n → (∀ st, n ≠ .directory st) → u p = some n

theorem Extends.of_same (h : ∀ p, t p ≠ none → SameAt t u p) : Extends t u where
  directory p hd := by
    refine (h p ?_).directory hd
    obtain ⟨st, hst⟩ := hd
    simp [hst]
  plain p n hn hp := (h p (by simp [hn])).plain hn hp

theorem Extends.trans {v : Tree} (h : Extends t u) (k : Extends u v) : Extends t v where
  directory p hd := k.directory p (h.directory p hd)
  plain p n hn hp := k.plain p n (h.plain p n hn hp) hp

theorem walk_extends (h : Extends t u)
    (links : ∀ here xs, onLink here xs = .ok b → onLink' here xs = .ok b) {here : Path}
    {xs : List Name} (hw : walk t onLink here xs = .ok b) : walk u onLink' here xs = .ok b := by
  induction xs generalizing here with
  | nil => exact hw
  | cons x xs ih =>
    unfold walk at hw ⊢
    split
    · rw [if_pos ‹_›] at hw
      exact ih hw
    rename_i hd
    rw [if_neg hd] at hw
    split
    · rw [if_pos ‹_›] at hw
      exact ih hw
    rename_i hdd
    rw [if_neg hdd] at hw
    cases hn : t (here ++ [x]) with
    | none => simp [hn] at hw
    | some m =>
      rw [hn] at hw
      cases m with
      | directory st =>
        obtain ⟨st', hst⟩ := h.directory _ ⟨st, hn⟩
        rw [hst]
        exact ih hw
      | link target =>
        rw [h.plain _ _ hn (by simp)]
        exact links _ _ hw
      | _ =>
        rw [h.plain _ _ hn (by simp)]
        exact hw

/-- What resolves goes on to resolve while nothing is taken away. -/
theorem follow_extends (h : Extends t u) {n : Nat} {here : Path} {xs : List Name}
    (hf : follow t n here xs = .ok b) : follow u n here xs = .ok b := by
  induction n generalizing here xs with
  | zero => exact walk_extends h (fun _ _ h => h) hf
  | succ n ih => exact walk_extends h (fun _ _ h => ih h) hf

theorem realPath_extends (h : Extends t u) {p : Path} (hr : realPath t p = .ok b) :
    realPath u p = .ok b := follow_extends h hr

theorem entryPath_split {d : Path} {x : Name} {q : Path} (h : entryPath t (d ++ [x]) = .ok q) :
    ∃ r, realPath t d = .ok r ∧ IsDirectory t r ∧ q = r ++ [x] := by
  unfold entryPath at h
  rw [List.getLast?_concat, List.dropLast_concat] at h
  dsimp only at h
  split at h
  · cases h
  · rename_i r hr
    split at h
    · rename_i st hst
      cases h
      exact ⟨r, hr, ⟨st, hst⟩, rfl⟩
    · cases h

/-- The parents of an object that is there are there. -/
theorem lstat_prefix (hw : WellFormed t) {p q : Path} {node : Node} (hq : Plain q) (hp : p <+: q)
    (h : lstat t q = .ok node) : ∃ node', lstat t p = .ok node' := by
  obtain ⟨z, rfl⟩ := hp
  rcases List.eq_nil_or_concat z with rfl | ⟨z, y, rfl⟩
  · exact ⟨node, by simpa using h⟩
  rcases List.eq_nil_or_concat p with rfl | ⟨d, x, rfl⟩
  · obtain ⟨st, hst⟩ := hw.root
    exact ⟨_, by simp [lstat, entryPath, hst]; rfl⟩
  rw [List.concat_eq_append] at hq h ⊢
  rw [List.concat_eq_append, ← List.append_assoc] at h
  unfold lstat at h
  cases he : entryPath t (d ++ [x] ++ z ++ [y]) with
  | error e =>
    rw [he] at h
    cases h
  | ok r =>
    obtain ⟨s, hs, _, _⟩ := entryPath_split he
    rw [List.append_assoc] at hs
    obtain ⟨b', m, hb, hrest⟩ := follow_prefix hs
    have hx := hq x (by simp)
    have hthere : t (b' ++ [x]) ≠ none := by
      intro hn
      cases m <;> simp [follow, walk, hx.1, hx.2, hn] at hrest
    obtain ⟨st, hst⟩ := hw.parent b' x hthere
    obtain ⟨node', hnode⟩ := Option.ne_none_iff_exists'.mp hthere
    refine ⟨node', ?_⟩
    have hentry : entryPath t (d ++ [x]) = .ok (b' ++ [x]) := by
      unfold entryPath realPath
      rw [List.getLast?_concat, List.dropLast_concat]
      simp [hb, hst]
    simp [lstat, hentry, hnode]

theorem entryPath_extends (h : Extends t u) {p q : Path} (he : entryPath t p = .ok q) :
    entryPath u p = .ok q := by
  rcases List.eq_nil_or_concat p with rfl | ⟨d, x, rfl⟩
  · exact he
  · rw [List.concat_eq_append] at he ⊢
    obtain ⟨r, hr, hd, rfl⟩ := entryPath_split he
    obtain ⟨st, hst⟩ := h.directory r hd
    unfold entryPath
    rw [List.getLast?_concat, List.dropLast_concat]
    simp [realPath_extends h hr, hst]

/-- Below a resolved directory, real directories lead straight on. -/
theorem follow_below {n : Nat} {q : Path} (hq : Plain q)
    (hd : ∀ pre, pre <+: q → IsDirectory t (b ++ pre)) : follow t n b q = .ok (b ++ q) := by
  have hdirs : ∀ pre, pre <+: q → pre ≠ [] → IsDirectory t (b ++ pre) := fun pre h _ => hd pre h
  cases n with
  | zero =>
    have h := walk_directories t (fun _ _ => .error .tooManyLinks) b q [] hq hdirs
    rwa [List.append_nil] at h
  | succ n =>
    have h := walk_directories t (follow t n) b q [] hq hdirs
    rwa [List.append_nil] at h

theorem realPath_append {p q : Path} (hr : realPath t p = .ok b) (hq : Plain q)
    (hd : ∀ pre, pre <+: q → IsDirectory t (b ++ pre)) : realPath t (p ++ q) = .ok (b ++ q) := by
  refine follow_append ?_ (fun m => follow_below hq hd) hr
  simpa using hd [] (by simp)

/-- Nothing can be reached behind a name that is not there. -/
theorem realPath_gone {p rest : Path} {x : Name} (hr : realPath t p = .ok b) (hd : IsDirectory t b)
    (hx : x ≠ dot ∧ x ≠ dotDot) (hn : t (b ++ [x]) = none) :
    realPath t (p ++ x :: rest) = .error .noEntry := by
  refine follow_append hd (fun m => ?_) hr
  cases m <;> simp [follow, walk, hx.1, hx.2, hn]

theorem lstat_gone {p rest : Path} {x : Name} (hr : realPath t p = .ok b) (hd : IsDirectory t b)
    (hx : x ≠ dot ∧ x ≠ dotDot) (hn : t (b ++ [x]) = none) :
    lstat t (p ++ x :: rest) = .error .noEntry := by
  obtain ⟨st, hst⟩ := hd
  rcases List.eq_nil_or_concat rest with rfl | ⟨rest, y, rfl⟩
  · simp [lstat, entryPath, hr, hst, hn]
  · unfold lstat entryPath
    rw [List.concat_eq_append, ← List.cons_append, ← List.append_assoc, List.getLast?_concat,
      List.dropLast_concat]
    simp only [realPath_gone hr ⟨st, hst⟩ hx hn]

/-- A file below a resolved directory is where its path says. -/
theorem realPath_file {p q : Path} {x : Name} {content : Bytes} {st : Stamp}
    (hr : realPath t p = .ok b) (hq : Plain (q ++ [x]))
    (hd : ∀ pre, pre <+: q → IsDirectory t (b ++ pre))
    (hf : t (b ++ (q ++ [x])) = some (.file content st)) :
    realPath t (p ++ (q ++ [x])) = .ok (b ++ (q ++ [x])) := by
  have hdir := realPath_append hr hq.left hd
  rw [← List.append_assoc, ← List.append_assoc]
  rw [← List.append_assoc] at hf
  refine follow_append (hd q List.prefix_rfl) (fun m => ?_) hdir
  obtain ⟨hdot, hdotDot⟩ := hq x (by simp)
  cases m <;> (unfold follow walk; rw [if_neg hdot, if_neg hdotDot, hf]; rfl)

/-- An entry below a resolved directory. -/
theorem entryPath_append {p q : Path} {x : Name} (hr : realPath t p = .ok b) (hq : Plain q)
    (hd : ∀ pre, pre <+: q → IsDirectory t (b ++ pre)) :
    entryPath t (p ++ (q ++ [x])) = .ok (b ++ (q ++ [x])) := by
  unfold entryPath
  rw [← List.append_assoc, List.getLast?_concat, List.dropLast_concat]
  dsimp only
  rw [realPath_append hr hq hd]
  obtain ⟨st, hst⟩ := hd q List.prefix_rfl
  simp [hst]

end Resolution

end LocalVault.Library.FileTree
