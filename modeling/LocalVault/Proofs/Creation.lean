import LocalVault.Proofs.Undoing

namespace LocalVault.Repository
open Library Library.FileTree Library.Program

/-- Only calls were made. -/
def Ticked (s s' : Making) : Prop := ∃ n, s' = { s with calls := n }

theorem Ticked.refl (s : Making) : Ticked s s := ⟨s.calls, rfl⟩

theorem Ticked.tick (s : Making) : Ticked s s.tick := ⟨s.calls + 1, rfl⟩

theorem Ticked.trans {s t u : Making} (h : Ticked s t) (k : Ticked t u) : Ticked s u := by
  obtain ⟨n, rfl⟩ := h
  obtain ⟨m, rfl⟩ := k
  exact ⟨m, rfl⟩

theorem Ticked.disk {s t : Making} (h : Ticked s t) : t.disk = s.disk := by
  obtain ⟨n, rfl⟩ := h
  rfl

section Calls

variable {h : Surroundings} {s : Making} {E : Raised → Making → Prop}

theorem wp_look {α : Type} {f : Disk → Except Errno α} {Q : Except Errno α → Making → Prop}
    (seen : Q (f s.disk) s.tick) (refused : ∀ text, Q (.error (.other text)) s.tick) :
    (look h f).wp Q E s := by
  unfold wp look
  cases h.fault s.calls with
  | none => exact seen
  | some text => exact refused text

theorem wp_change {f : Disk → Int → Except Errno Disk} {Q : Except Errno Unit → Making → Prop}
    (done : ∀ d, f s.disk (h.clock s.calls) = .ok d → Q (.ok ()) (s.onDisk d))
    (refused : ∀ e, Q (.error e) s.tick) : (change h f).wp Q E s := by
  unfold wp change
  cases h.fault s.calls with
  | some text => exact refused _
  | none =>
    dsimp only
    cases hf : f s.disk (h.clock s.calls) with
    | error e => exact refused e
    | ok d => exact done d hf

theorem wp_attempt {Q : Unit → Making → Prop} (done : Q () s.tick) (raised : ∀ e, E e s.tick) :
    (attempt h).wp Q E s := by
  unfold wp attempt
  cases h.raises s.calls with
  | none => exact done
  | some e => exact raised e

theorem wp_failing {α : Type} {code : ErrorCode} {message : String} {path : Path}
    {Q : α → Making → Prop} (raised : ∀ e, E e s) : (failing code message path).wp Q E s :=
  raised _

theorem wp_pathExists {path : Path} {Q : Bool → Making → Prop}
    (there : ∀ node, symlinkStatus s.disk.tree path = .ok node → Q true s.tick)
    (missing : symlinkStatus s.disk.tree path = .error .noEntry → Q false s.tick)
    (raised : ∀ e, E e s.tick) : (pathExists h path).wp Q E s := by
  unfold pathExists
  rw [wp_bind]
  apply wp_look
  · cases he : symlinkStatus s.disk.tree path with
    | ok node => exact there node he
    | error e =>
      cases e with
      | noEntry => exact missing he
      | _ => exact raised _
  · exact fun _ => raised _

/-- A directory of the ledger is made, or nothing has happened. -/
theorem wp_createDirectory {index : Nat} {r : CreationRecord} (hr : s.ledger[index]? = some r)
    {Q : Unit → Making → Prop}
    (made : ∀ d q st, entryPath s.disk.tree (bare r.path) = .ok q → s.disk.tree q = none →
      d.tree = (s.disk.tree.set q (some (.directory st))).touch q.dropLast (h.clock s.calls) →
      Q () { s.onDisk d with ledger := markCreated s.ledger index })
    (failed : ∀ e s', Ticked s s' → E e s') : (createDirectory h index).wp Q E s := by
  unfold createDirectory recordPath
  simp only [wp_bind, wp_read, hr, Option.map_some, Option.getD_some]
  apply wp_change
  · intro d hd
    obtain ⟨q, hq, hn, ht⟩ := Disk.create_tree hd
    exact made d q _ hq hn ht
  · intro e
    cases e with
    | alreadyExists =>
      dsimp only
      rw [wp_bind]
      apply wp_look
      · split <;> exact failed _ _ ((Ticked.tick s).trans (Ticked.tick _))
      · intro _
        exact failed _ _ ((Ticked.tick s).trans (Ticked.tick _))
    | _ => exact failed _ _ (Ticked.tick s)

/-- A file of the ledger is made and its permissions are set. -/
theorem wp_createEmptyFile {index : Nat} {r : CreationRecord} (hr : s.ledger[index]? = some r)
    {Q : Unit → Making → Prop}
    (made : ∀ d q st, entryPath s.disk.tree r.path = .ok q → s.disk.tree q = none →
      d.tree = (s.disk.tree.set q (some (.file [] st))).touch q.dropLast (h.clock s.calls) →
      (∀ e s', Ticked { s.onDisk d with ledger := markCreated s.ledger index } s' → E e s') ∧
      ∀ d', d.restamp r.path (setMode 0o600) = .ok d' →
        Q () ({ s.onDisk d with ledger := markCreated s.ledger index }.onDisk d'))
    (failed : ∀ e s', Ticked s s' → E e s') : (createEmptyFile h index).wp Q E s := by
  unfold createEmptyFile recordPath createExclusiveFile applyRestrictiveFilePermissions
  simp only [wp_bind, wp_read, hr, Option.map_some, Option.getD_some, wp_update]
  apply wp_change
  · intro d hd
    obtain ⟨q, hq, hn, ht⟩ := Disk.create_tree hd
    obtain ⟨hfail, hdone⟩ := made d q _ hq hn ht
    dsimp only
    simp only [wp_pure]
    apply wp_change
    · exact hdone
    · exact fun _ => hfail _ _ (Ticked.tick _)
  · exact fun _ => failed _ _ (Ticked.tick s)

end Calls

section Ledger

variable {anchor base : Path} {before t : Tree} {standing : Path → Prop}

/-- The ledger after so many steps. -/
def marked (records : List CreationRecord) (n : Nat) : List CreationRecord :=
  (records.take n).map (fun r => { r with created := true }) ++ records.drop n

theorem marked_split {records : List CreationRecord} {n : Nat} {r : CreationRecord}
    (hr : records[n]? = some r) :
    ∃ front, front.length = n ∧ marked records n = front ++ r :: records.drop (n + 1) ∧
      marked records (n + 1) = front ++ { r with created := true } :: records.drop (n + 1) := by
  obtain ⟨hlt, hget⟩ := List.getElem?_eq_some_iff.mp hr
  refine ⟨(records.take n).map (fun r => { r with created := true }), ?_, ?_, ?_⟩
  · rw [List.length_map, List.length_take]
    omega
  · rw [marked, List.drop_eq_getElem_cons hlt, hget]
  · rw [marked, List.take_succ_eq_append_getElem hlt, hget]
    simp

theorem marked_place (records : List CreationRecord) (n : Nat) :
    (marked records n).map CreationRecord.place = records.map CreationRecord.place := by
  unfold marked
  rw [List.map_append, List.map_map]
  conv_rhs => rw [← List.take_append_drop n records, List.map_append]
  rfl

/-- One more record of the ledger is made. -/
theorem Accounted.mark {front back : List CreationRecord} {r : CreationRecord} {d : Path} {x : Name}
    {node : Node} {time : Int}
    (ha : Accounted anchor base before standing (front ++ r :: back) t)
    (hr : bare r.path = anchor ++ (d ++ [x])) (hd : standing d)
    (hn : t (base ++ (d ++ [x])) = none) {t' : Tree}
    (ht : t' = (t.set (base ++ (d ++ [x])) (some node)).touch (base ++ d) time) :
    Accounted anchor base before standing (front ++ { r with created := true } :: back) t' ∧
      Owned anchor (front ++ { r with created := true } :: back) (d ++ [x]) := by
  have hinsert := ha.added.insert hd hn ht
  have howned : Owned anchor (front ++ { r with created := true } :: back) (d ++ [x]) :=
    ⟨{ r with created := true }, by simp, rfl, hr⟩
  refine ⟨⟨hinsert.own_mono ?_ ?_, ?_, ?_⟩, howned⟩
  · rintro k (⟨a, hm, hc, hk⟩ | rfl)
    · simp only [List.mem_append, List.mem_cons] at hm
      rcases hm with hm | rfl | hm
      · exact ⟨a, by simp [hm], hc, hk⟩
      · exact ⟨{ a with created := true }, by simp, rfl, hk⟩
      · exact ⟨a, by simp [hm], hc, hk⟩
    · exact howned
  · rintro k ⟨a, hm, hc, hk⟩
    simp only [List.mem_append, List.mem_cons] at hm
    rcases hm with hm | rfl | hm
    · exact Or.inl (Or.inl ⟨a, by simp [hm], hc, hk⟩)
    · exact Or.inl (Or.inr (List.append_cancel_left (hk.symm.trans hr)))
    · exact Or.inl (Or.inl ⟨a, by simp [hm], hc, hk⟩)
  · intro a hm hc
    simp only [List.mem_append, List.mem_cons] at hm
    rcases hm with hm | rfl | hm
    · exact ha.bound a (by simp [hm]) hc
    · exact ⟨_, hr⟩
    · exact ha.bound a (by simp [hm]) hc
  · simpa [CreationRecord.place] using ha.layered

theorem Accounted.learn (ha : Accounted anchor base before standing ledger t) {d : Path} {x : Name}
    (hd : standing d) (hx : x ≠ dot ∧ x ≠ dotDot) (hk : Owned anchor ledger (d ++ [x]))
    (hdir : IsDirectory t (base ++ (d ++ [x]))) :
    Accounted anchor base before (fun k => standing k ∨ k = d ++ [x]) ledger t :=
  ⟨ha.added.learn hd hx hk hdir, ha.bound, ha.layered⟩

theorem Accounted.edit (ha : Accounted anchor base before standing ledger t) {l : List Path}
    {t' : Tree} (he : Edit l t t') (hp : ∀ p ∈ l, ∃ k, Owned anchor ledger k ∧ p = base ++ k) :
    Accounted anchor base before standing ledger t' :=
  ⟨ha.added.edit he hp, ha.bound, ha.layered⟩

end Ledger

/-- Where a repository is being made: the directory found above it and the tree
in front of the run. -/
structure Site where
  anchor : Path
  base : Path
  before : Tree
  records : List CreationRecord

/-- After the first `n` records were made. -/
structure Stage (c : Site) (n : Nat) (standing files : Path → Prop) (changed : Bool) (s : Making) :
    Prop where
  ledger : s.ledger = marked c.records n
  accounted : Accounted c.anchor c.base c.before standing s.ledger s.disk.tree
  files : ∀ k, files k → ∃ content st, s.disk.tree (c.base ++ k) = some (.file content st)
  changed : s.permissionsChanged = changed
  published : s.published = false

/-- After some records were made. -/
def Staged (c : Site) (changed : Bool) (s : Making) : Prop :=
  ∃ n standing files, Stage c n standing files changed s

section Stage

variable {c : Site} {n : Nat} {standing files : Path → Prop} {changed : Bool} {s s' : Making}
  {h : Surroundings}

theorem Stage.ticked (hs : Stage c n standing files changed s) (ht : Ticked s s') :
    Stage c n standing files changed s' := by
  obtain ⟨m, rfl⟩ := ht
  exact ⟨hs.ledger, hs.accounted, hs.files, hs.changed, hs.published⟩

theorem Stage.staged (hs : Stage c n standing files changed s) : Staged c changed s :=
  ⟨n, standing, files, hs⟩

theorem Stage.weaken (hs : Stage c n standing files changed s) {files' : Path → Prop}
    (hf : ∀ k, files' k → files k) : Stage c n standing files' changed s :=
  ⟨hs.ledger, hs.accounted, fun k hk => hs.files k (hf k hk), hs.changed, hs.published⟩

theorem Stage.owned (hs : Stage c n standing files changed s) {r : CreationRecord} {i : Nat}
    (hr : c.records[i]? = some r) (hi : i < n) {k : Path} (hk : bare r.path = c.anchor ++ k) :
    Owned c.anchor s.ledger k := by
  rw [hs.ledger]
  refine ⟨{ r with created := true }, ?_, rfl, hk⟩
  obtain ⟨hlt, hget⟩ := List.getElem?_eq_some_iff.mp hr
  refine List.mem_append_left _ (List.mem_map.mpr ⟨r, ?_, rfl⟩)
  rw [List.mem_take_iff_getElem]
  exact ⟨i, by omega, hget⟩

theorem Stage.record (hs : Stage c n standing files changed s) {r : CreationRecord}
    (hr : c.records[n]? = some r) : s.ledger[n]? = some r := by
  obtain ⟨front, hlen, hmarked, _⟩ := marked_split hr
  rw [hs.ledger, hmarked, ← hlen]
  simp

theorem Stage.marked (hs : Stage c n standing files changed s) {r : CreationRecord}
    (hr : c.records[n]? = some r) : ∃ front back, s.ledger = front ++ r :: back ∧
      markCreated s.ledger n = front ++ { r with created := true } :: back ∧
      markCreated s.ledger n = Repository.marked c.records (n + 1) := by
  obtain ⟨front, hlen, hnow, hnext⟩ := marked_split hr
  have hmark : markCreated s.ledger n = front ++ { r with created := true } :: c.records.drop (n + 1) := by
    rw [hs.ledger, hnow, ← hlen, markCreated, List.modify_eq_take_drop]
    simp
  exact ⟨front, c.records.drop (n + 1), by rw [hs.ledger, hnow], hmark, by rw [hmark, hnext]⟩

/-- The next record is made. -/
theorem Stage.made (hs : Stage c n standing files changed s) {r : CreationRecord} {d : Path}
    {x : Name} (hr : c.records[n]? = some r) (hp : bare r.path = c.anchor ++ (d ++ [x]))
    (hd : standing d) {q : Path} {disk : Disk} {node : Node} {time : Int}
    (hq : entryPath s.disk.tree (bare r.path) = .ok q) (hn : s.disk.tree q = none)
    (ht : disk.tree = (s.disk.tree.set q (some node)).touch q.dropLast time) :
    q = c.base ++ (d ++ [x]) ∧
      Stage c (n + 1) standing files changed
        { s.onDisk disk with ledger := markCreated s.ledger n } ∧
      Owned c.anchor (markCreated s.ledger n) (d ++ [x]) := by
  rw [hp, hs.accounted.added.entry hd x] at hq
  cases hq
  obtain ⟨front, back, hsplit, hmark, hnext⟩ := hs.marked hr
  have hacc := hs.accounted
  rw [hsplit] at hacc
  have ht' : disk.tree = (s.disk.tree.set (c.base ++ (d ++ [x])) (some node)).touch (c.base ++ d) time := by
    rw [ht, ← List.append_assoc, List.dropLast_concat]
  obtain ⟨hacc', hown⟩ := hacc.mark hp hd hn ht'
  rw [← hmark] at hacc' hown
  refine ⟨rfl, ⟨hnext, hacc', ?_, hs.changed, hs.published⟩, hown⟩
  intro k hk
  obtain ⟨content, st, hf⟩ := hs.files k hk
  refine ⟨content, st, ?_⟩
  change disk.tree (c.base ++ k) = _
  rw [ht]
  refine touch_plain _ ?_ (by simp)
  rw [set_other]
  · exact hf
  · intro he
    rw [he, hn] at hf
    cases hf

theorem createDirectory_stage (hs : Stage c n standing files changed s) {r : CreationRecord}
    {d : Path} {x : Name} (hr : c.records[n]? = some r)
    (hp : bare r.path = c.anchor ++ (d ++ [x])) (hd : standing d) (hx : x ≠ dot ∧ x ≠ dotDot) :
    (createDirectory h n).wp
      (fun _ => Stage c (n + 1) (fun k => standing k ∨ k = d ++ [x]) files changed)
      (fun _ => Staged c changed) s := by
  apply wp_createDirectory (hs.record hr)
  · intro disk q st hq hn ht
    obtain ⟨rfl, hs', hown⟩ := hs.made hr hp hd hq hn ht
    refine ⟨hs'.ledger, hs'.accounted.learn hd hx hown ?_, hs'.files, hs'.changed, hs'.published⟩
    change IsDirectory disk.tree _
    rw [ht, touch_directory]
    exact ⟨st, set_same _ _ _⟩
  · exact fun _ s' ht => (hs.ticked ht).staged

theorem createEmptyFile_stage (hs : Stage c n standing files changed s) {r : CreationRecord}
    {d : Path} {x : Name} (hr : c.records[n]? = some r) (hb : bare r.path = r.path)
    (hp : r.path = c.anchor ++ (d ++ [x])) (hd : standing d) (hx : x ≠ dot ∧ x ≠ dotDot) :
    (createEmptyFile h n).wp
      (fun _ => Stage c (n + 1) standing (fun k => files k ∨ k = d ++ [x]) changed)
      (fun _ => Staged c changed) s := by
  apply wp_createEmptyFile (hs.record hr)
  · intro disk q st hq hn ht
    obtain ⟨rfl, hs', hown⟩ := hs.made hr (hb.trans hp) hd (hb.symm ▸ hq) hn ht
    refine ⟨fun _ s' htick => (hs'.ticked htick).staged, ?_⟩
    intro disk' hstamp
    have hfile : disk.tree (c.base ++ (d ++ [x])) = some (.file [] st) := by
      rw [ht]
      exact touch_plain _ (set_same _ _ _) (by simp)
    have hreal : realPath disk.tree r.path = .ok (c.base ++ (d ++ [x])) := by
      rw [hp]
      exact hs'.accounted.added.file_path hown
        ((hs.accounted.added.resolved d hd).2.1.append (by simpa [Plain] using hx)) hfile
    have hset : disk'.tree =
        disk.tree.set (c.base ++ (d ++ [x])) (some (.file [] (setMode 0o600 st))) := by
      have h := Disk.restamp_tree hstamp
      rw [restampFollowing, hreal] at h
      dsimp only at h
      rw [restamp_file hfile] at h
      exact (Except.ok.inj h).symm
    refine ⟨hs'.ledger, hs'.accounted.edit (l := [c.base ++ (d ++ [x])]) ?_ ?_, ?_, hs'.changed,
      hs'.published⟩
    · change Edit _ disk.tree disk'.tree
      rw [hset]
      exact Edit.set_file hfile
    · intro p hm
      exact ⟨d ++ [x], hown, List.mem_singleton.mp hm⟩
    · intro k hk
      change ∃ content st, disk'.tree (c.base ++ k) = _
      rw [hset]
      by_cases he : c.base ++ k = c.base ++ (d ++ [x])
      · exact ⟨_, _, by rw [he, set_same]⟩
      · rw [set_other _ _ he]
        rcases hk with hk | hk
        · exact hs'.files k hk
        · exact absurd (congrArg (c.base ++ ·) hk) he
  · exact fun _ s' ht => (hs.ticked ht).staged

end Stage

theorem bare_ordinary {p : Path} (h : ∀ x ∈ p, Ordinary x) : bare p = p := by
  unfold bare trailing
  rw [if_neg]
  intro ht
  simp only [decide_eq_true_eq] at ht
  exact (h [] (List.mem_of_getLast? ht)).1 rfl

theorem bare_trailing (p : Path) : bare (p ++ [[]]) = p := by
  simp [bare, trailing]

theorem inits_concat (p : Path) (x : Name) : (p ++ [x]).inits = p.inits ++ [p ++ [x]] := by
  simp [List.inits_append]

theorem symlinkStatus_root {t : Tree} (hw : WellFormed t) :
    ∃ node, symlinkStatus t [] = .ok node := by
  obtain ⟨st, hst⟩ := hw.root
  refine ⟨.directory st, ?_⟩
  simp [symlinkStatus, trailing, lstat, entryPath, hst]

/-- The paths found missing are those between the root and the first candidate
that is there. -/
theorem wp_missingRootPaths {h : Surroundings} {s : Making} (hw : WellFormed s.disk.tree) (p : Path) :
    (missingRootPaths h p.inits.reverse).wp
      (fun missing s' => Ticked s s' ∧ ∃ a r, p = a ++ r ∧ missing = r.inits.tail.map (a ++ ·) ∧
        ∃ node, symlinkStatus s.disk.tree a = .ok node)
      (fun _ s' => Ticked s s') s := by
  suffices hgo : ∀ v, Ticked s v → (missingRootPaths h p.inits.reverse).wp
      (fun missing s' => Ticked s s' ∧ ∃ a r, p = a ++ r ∧ missing = r.inits.tail.map (a ++ ·) ∧
        ∃ node, symlinkStatus s.disk.tree a = .ok node)
      (fun _ s' => Ticked s s') v from hgo s (Ticked.refl s)
  induction p using List.reverseRecOn with
  | nil =>
    intro v hv
    obtain ⟨node, hnode⟩ := symlinkStatus_root hw
    change (missingRootPaths h [[]]).wp _ _ v
    unfold missingRootPaths
    rw [wp_bind]
    apply wp_pathExists
    · intro _ _
      exact ⟨hv.trans (Ticked.tick v), [], [], rfl, rfl, node, hnode⟩
    · intro hn
      rw [hv.disk, hnode] at hn
      cases hn
    · exact fun _ => hv.trans (Ticked.tick v)
  | append_singleton d x ih =>
    intro v hv
    rw [inits_concat, List.reverse_append, List.reverse_singleton, List.singleton_append]
    unfold missingRootPaths
    rw [wp_bind]
    apply wp_pathExists
    · intro node hn
      rw [hv.disk] at hn
      exact ⟨hv.trans (Ticked.tick v), d ++ [x], [], by simp, rfl, node, hn⟩
    · intro _
      simp only [Bool.false_eq_true, ↓reduceIte, wp_bind, wp_pure]
      refine wp_mono (ih v.tick (hv.trans (Ticked.tick v))) ?_ (fun _ _ h => h)
      rintro missing v' ⟨hv', a, r, rfl, rfl, hthere⟩
      refine ⟨hv', a, r ++ [x], by simp, ?_, hthere⟩
      have hne : r.inits ≠ [] := List.ne_nil_of_length_eq_add_one (List.length_inits r)
      rw [inits_concat, List.tail_append_of_ne_nil hne, List.map_append]
      simp
    · exact fun _ => hv.trans (Ticked.tick v)

section Roots

variable {c : Site} {changed : Bool} {s : Making} {h : Surroundings} {rel : Path}

theorem Stage.settle (hs : Stage c 0 (fun _ => False) (fun _ => False) changed s)
    (hfresh : ∀ r ∈ c.records, r.created = false) {b : Path}
    (hr : realPath s.disk.tree c.anchor = .ok b) (hd : IsDirectory s.disk.tree b) :
    Stage { c with base := b } 0 (fun k => k = []) (fun _ => False) changed s := by
  have hledger : s.ledger = c.records := by simpa [Repository.marked] using hs.ledger
  have hnone : Owned c.anchor s.ledger = fun _ => False := by
    funext k
    apply propext
    rw [hledger]
    simp only [iff_false]
    rintro ⟨r, hm, hc, _⟩
    rw [hfresh r hm] at hc
    cases hc
  have hadded := hs.accounted.added
  rw [hnone] at hadded
  refine ⟨hs.ledger, ⟨?_, hs.accounted.bound, hs.accounted.layered⟩, fun _ hk => hk.elim,
    hs.changed, hs.published⟩
  change Added c.anchor b c.before s.disk.tree (Owned c.anchor s.ledger) _
  rw [hnone]
  exact hadded.settle hr hd

theorem createDirectory_refused {n : Nat} {r : CreationRecord} (hr : s.ledger[n]? = some r)
    {E : Raised → Making → Prop}
    (hno : ∀ q, entryPath s.disk.tree (bare r.path) = .ok q → s.disk.tree q ≠ none)
    (failed : ∀ e s', Ticked s s' → E e s') {Q : Unit → Making → Prop} :
    (createDirectory h n).wp Q E s := by
  apply wp_createDirectory hr
  · exact fun _ q _ hq hn _ => absurd hn (hno q hq)
  · exact failed

/-- The directories down to the root. The last path may be the root with a
final separator: then its directory is there already, and the run fails. -/
theorem createRoots_stage (hs : Stage c 0 (fun _ => False) (fun _ => False) changed s)
    (hfresh : ∀ r ∈ c.records, r.created = false) (hrel : ∀ x ∈ rel, Ordinary x) {total : Nat}
    (htotal : total ≤ rel.length + 1)
    (hrec : ∀ i, i < total → ∃ r, c.records[i]? = some r ∧
      bare r.path = c.anchor ++ rel.take (i + 1))
    (hthere : rel = [] → ∃ node, lstat s.disk.tree c.anchor = .ok node) :
    (each (createDirectory h) (List.range total)).wp
      (fun _ s' => total ≤ rel.length ∧ (total = 0 ∧ s' = s ∨
        ∃ b, Stage { c with base := b } total (fun k => k <+: rel.take total) (fun _ => False)
          changed s'))
      (fun _ s' => ∃ b, Staged { c with base := b } changed s') s := by
  have hloop := wp_each (f := createDirectory h) (E := fun _ s' => ∃ b, Staged { c with base := b } changed s')
    (fun done _ v => done.length ≤ rel.length ∧ (done = [] ∧ v = s ∨ done ≠ [] ∧
      ∃ b, Stage { c with base := b } done.length (fun k => k <+: rel.take done.length)
        (fun _ => False) changed v)) (List.range total) (s := s) ⟨by simp, Or.inl ⟨rfl, rfl⟩⟩ ?_
  · refine wp_mono hloop ?_ (fun _ _ h => h)
    rintro _ v ⟨hle, hv⟩
    rw [List.length_range] at hle hv
    refine ⟨hle, ?_⟩
    rcases hv with ⟨he, rfl⟩ | ⟨_, hv⟩
    · exact Or.inl ⟨by simpa using congrArg List.length he, rfl⟩
    · exact Or.inr hv
  rintro done i rest hsplit v ⟨hle, hv⟩
  have hlen : done.length < total := by
    have := congrArg List.length hsplit
    simp only [List.length_range, List.length_append, List.length_cons] at this
    omega
  have hi : i = done.length := by
    have hget := congrArg (fun l => l[done.length]?) hsplit
    simpa [List.getElem?_range hlen] using hget.symm
  subst hi
  obtain ⟨r, hr, hp⟩ := hrec done.length hlen
  -- what is settled for the rest of the loop
  have hgo : ∀ b standing, Stage { c with base := b } done.length standing (fun _ => False) changed v →
      (∀ k, standing k ↔ k <+: rel.take done.length) → done.length < rel.length →
      (createDirectory h done.length).wp (fun _ u => (done ++ [done.length]).length ≤ rel.length ∧
        ((done ++ [done.length]) = [] ∧ u = s ∨ done ++ [done.length] ≠ [] ∧
          ∃ b, Stage { c with base := b } (done ++ [done.length]).length
            (fun k => k <+: rel.take (done ++ [done.length]).length) (fun _ => False) changed u))
        (fun _ s' => ∃ b, Staged { c with base := b } changed s') v := by
    intro b standing hstage hstanding hlt
    have htake : rel.take (done.length + 1) = rel.take done.length ++ [rel[done.length]] :=
      List.take_succ_eq_append_getElem hlt
    rw [htake] at hp
    have hord := hrel rel[done.length] (List.getElem_mem hlt)
    refine wp_mono (createDirectory_stage hstage hr hp ((hstanding _).mpr List.prefix_rfl) hord.2)
      ?_ (fun _ _ h => ⟨b, h⟩)
    intro _ u hu
    rw [List.length_append, List.length_singleton]
    refine ⟨hlt, Or.inr ⟨by simp, b, ?_⟩⟩
    have hsame : (fun k => standing k ∨ k = rel.take done.length ++ [rel[done.length]]) =
        fun k => k <+: rel.take (done.length + 1) := by
      funext k
      rw [htake, List.prefix_concat_iff, hstanding]
      exact propext or_comm
    rwa [hsame] at hu
  rcases hv with ⟨rfl, rfl⟩ | ⟨hdone, b, hstage⟩
  · by_cases hroot : rel = []
    · -- the parent of the root with a final separator is there
      obtain ⟨node, hnode⟩ := hthere hroot
      apply createDirectory_refused (hs.record hr)
      · intro q hq hn
        rw [hp, hroot] at hq
        simp only [List.take_nil, List.append_nil] at hq
        simp [lstat, hq, hn] at hnode
      · exact fun _ s' ht => ⟨c.base, (hs.ticked ht).staged⟩
    · cases hreal : realPath v.disk.tree c.anchor with
      | ok b =>
        by_cases hd : IsDirectory v.disk.tree b
        · exact hgo b _ (hs.settle hfresh hreal hd) (by simp [List.prefix_nil])
            (List.length_pos_iff.mpr hroot)
        · apply createDirectory_refused (hs.record hr)
          · intro q hq _
            obtain ⟨y, ys, rfl⟩ := List.exists_cons_of_ne_nil hroot
            rw [hp] at hq
            obtain ⟨b', hb', hd', _⟩ := entryPath_split (x := y) (by simpa using hq)
            rw [hreal] at hb'
            cases hb'
            exact hd hd'
          · exact fun _ s' ht => ⟨c.base, (hs.ticked ht).staged⟩
      | error e =>
        apply createDirectory_refused (hs.record hr)
        · intro q hq _
          obtain ⟨y, ys, rfl⟩ := List.exists_cons_of_ne_nil hroot
          rw [hp] at hq
          obtain ⟨b', hb', _⟩ := entryPath_split (x := y) (by simpa using hq)
          rw [hreal] at hb'
          cases hb'
        · exact fun _ s' ht => ⟨c.base, (hs.ticked ht).staged⟩
  · by_cases hlt : done.length < rel.length
    · exact hgo b _ hstage (fun _ => Iff.rfl) hlt
    · have hall : rel.take done.length = rel := List.take_of_length_le (by omega)
      rw [hall] at hstage
      rw [List.take_of_length_le (by omega)] at hp
      apply createDirectory_refused (hstage.record hr)
      · intro q hq hn
        obtain ⟨st, hst⟩ := hstage.accounted.added.directory (k := rel) List.prefix_rfl
        have hne : rel ≠ [] := by
          rintro rfl
          exact hdone (List.length_eq_zero_iff.mp (by simpa using hle))
        obtain ⟨d, x, hconcat⟩ := split_last hne
        rw [hp, hconcat, hstage.accounted.added.entry (k := d) (by simp [hconcat]) x] at hq
        cases hq
        rw [hconcat] at hst
        rw [hst] at hn
        cases hn
      · exact fun _ s' ht => ⟨b, (hstage.ticked ht).staged⟩

end Roots

end LocalVault.Repository
