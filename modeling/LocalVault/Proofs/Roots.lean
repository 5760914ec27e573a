import LocalVault.Proofs.AllOrNothing
import LocalVault.Proofs.Spelling

namespace LocalVault.Repository
open Library Library.FileTree Library.Program

/-- The nearest ancestor of a path that is there is a directory, or a link to one. -/
structure NearestAncestor (t : Tree) (a p : Path) : Prop where
  there : ∃ node, lstat t a = .ok node
  directory : ∃ st, stat t a = .ok (.directory st)
  below : ∃ x rest, p = a ++ x :: rest ∧ ∀ node, lstat t (a ++ [x]) ≠ .ok node

/-- Each missing directory down to the root is named once, behind its parents. -/
def NamesMissing (t : Tree) (root : Path) (missing : List Path) : Prop :=
  (missing.map bare).Pairwise (fun p q => p <+: q ∧ p ≠ q) ∧
    ∀ q, q ∈ missing.map bare ↔ q <+: bare root ∧ lstat t q = .error .noEntry

/-- The ledger and the loop of `Repository::create` over the missing directories of a root. -/
def MakesRoot (h : Surroundings) (s : Making) (root : Path) : Prop :=
  ∃ missing s₁ s₂, missingRootPaths h root.inits.reverse s = (.ok missing, s₁) ∧
    NamesMissing s.disk.tree root missing ∧
    Program.each (createDirectory h) (List.range missing.length)
      { s₁ with ledger := creationRecords root missing } = (.ok (), s₂) ∧
    ∃ st, symlinkStatus s₂.disk.tree root = .ok (.directory st)

section Walk

variable {h : Surroundings} {s : Making} {t : Tree} {a b rest : Path} {x : Name}

theorem NearestAncestor.gone {p : Path} (hn : NearestAncestor t a p) :
    ∃ b x rest, p = a ++ x :: rest ∧ realPath t a = .ok b ∧ IsDirectory t b ∧ t (b ++ [x]) = none := by
  obtain ⟨st, hst⟩ := hn.directory
  obtain ⟨x, rest, hp, hx⟩ := hn.below
  unfold stat at hst
  cases hr : realPath t a with
  | error e => simp [hr] at hst
  | ok b =>
    have hb : t b = some (.directory st) := by
      cases hm : t b with
      | none => simp [hr, hm] at hst
      | some m => simpa [hr, hm] using hst
    refine ⟨b, x, rest, hp, rfl, ⟨st, hb⟩, ?_⟩
    by_contra hsome
    obtain ⟨m, hm⟩ := Option.ne_none_iff_exists'.mp hsome
    exact hx m (by simp [lstat, entryPath, hr, hb, hm])

theorem bare_below (a : Path) {x : Name} (hx : x ≠ []) (rest : Path) :
    ∃ front, bare (a ++ x :: rest) = a ++ x :: front := by
  unfold bare
  split
  · rename_i htrail
    have hrest : rest ≠ [] := by
      rintro rfl
      rw [trailing_concat hx] at htrail
      cases htrail
    refine ⟨rest.dropLast, ?_⟩
    rw [List.dropLast_append_of_ne_nil (by simp), List.dropLast_cons_of_ne_nil hrest]
  · exact ⟨rest, rfl⟩

/-- No path behind a missing name is there, with or without a final separator. -/
theorem symlinkStatus_gone (hr : realPath t a = .ok b) (hd : IsDirectory t b) (hn : t (b ++ [x]) = none)
    (hx : Ordinary x) : symlinkStatus t (a ++ x :: rest) = .error .noEntry := by
  unfold symlinkStatus
  split
  · obtain ⟨front, hfront⟩ := bare_below a hx.1 rest
    rw [hfront]
    simp [stat, realPath_gone hr hd hx.2 hn]
  · exact lstat_gone hr hd hx.2 hn

variable {r : Path}

theorem pathExists_calm (calm : Calm h) {path : Path} {Q : Bool → Making → Prop}
    {E : Raised → Making → Prop}
    (there : ∀ node, symlinkStatus s.disk.tree path = .ok node → Q true s.tick)
    (missing : symlinkStatus s.disk.tree path = .error .noEntry → Q false s.tick)
    (known : (∃ node, symlinkStatus s.disk.tree path = .ok node) ∨
      symlinkStatus s.disk.tree path = .error .noEntry) : (pathExists h path).wp Q E s := by
  unfold pathExists
  rw [wp_bind]
  apply wp_look_calm calm
  rcases known with ⟨node, hn⟩ | hn
  · rw [hn]
    exact there node hn
  · rw [hn]
    exact missing hn

/-- The walk up from the root stops at the ancestor that is there. -/
theorem missingRootPaths_runs (calm : Calm h) {t : Tree} (hthere : ∃ node, symlinkStatus t a = .ok node)
    (hgone : ∀ y, y <+: r → y ≠ [] → symlinkStatus t (a ++ y) = .error .noEntry) (hs : s.disk.tree = t) :
    (missingRootPaths h (a ++ r).inits.reverse).wp
      (fun missing s' => Ticked s s' ∧ missing = r.inits.tail.map (a ++ ·)) (fun _ _ => False) s := by
  induction r using List.reverseRecOn generalizing s with
  | nil =>
    obtain ⟨candidates, hcand⟩ : ∃ candidates, (a ++ []).inits.reverse = a :: candidates := by
      rw [List.append_nil]
      rcases List.eq_nil_or_concat a with rfl | ⟨d, x, rfl⟩
      · exact ⟨[], rfl⟩
      · rw [List.concat_eq_append, inits_concat]
        exact ⟨d.inits.reverse, by simp⟩
    rw [hcand]
    unfold missingRootPaths
    rw [wp_bind]
    apply pathExists_calm calm
    · exact fun _ _ => ⟨Ticked.tick s, rfl⟩
    · intro hno
      obtain ⟨node, hnode⟩ := hthere
      rw [hs, hnode] at hno
      cases hno
    · exact Or.inl (hs ▸ hthere)
  | append_singleton r y ih =>
    have hlast := hgone (r ++ [y]) List.prefix_rfl (by simp)
    rw [← List.append_assoc, inits_concat, List.reverse_append, List.reverse_singleton,
      List.singleton_append]
    rw [← List.append_assoc] at hlast
    unfold missingRootPaths
    rw [wp_bind]
    apply pathExists_calm calm
    · intro node hnode
      rw [hs, hlast] at hnode
      cases hnode
    · intro _
      simp only [Bool.false_eq_true, ↓reduceIte, wp_bind, wp_pure]
      refine wp_mono (ih (s := s.tick)
        (fun z hz hne => hgone z (hz.trans (List.prefix_append _ _)) hne) hs) ?_ (fun _ _ h => h)
      rintro missing s' ⟨ht, rfl⟩
      refine ⟨(Ticked.tick s).trans ht, ?_⟩
      have hne : r.inits ≠ [] := List.ne_nil_of_length_eq_add_one (List.length_inits r)
      rw [inits_concat, List.tail_append_of_ne_nil hne, List.map_append]
      simp
    · exact Or.inr (hs ▸ hlast)

end Walk

section Names

variable {t : Tree} {a dir r : Path}

theorem inits_pairwise (r : Path) : r.inits.Pairwise (fun p q => p <+: q ∧ p ≠ q) := by
  induction r using List.reverseRecOn with
  | nil => simp
  | append_singleton r x ih =>
    rw [inits_concat, List.pairwise_append]
    refine ⟨ih, List.pairwise_singleton _ _, ?_⟩
    intro p hp q hq
    rw [List.mem_inits] at hp
    rw [List.mem_singleton.mp hq]
    refine ⟨hp.trans (List.prefix_append _ _), ?_⟩
    rintro rfl
    have := hp.length_le
    rw [List.length_append, List.length_singleton] at this
    omega

theorem mem_inits_tail {y : Path} : y ∈ r.inits.tail ↔ y <+: r ∧ y ≠ [] := by
  cases r with
  | nil => simp
  | cons c cs =>
    simp only [List.inits, List.tail_cons, List.mem_map, List.mem_inits]
    constructor
    · rintro ⟨z, hz, rfl⟩
      exact ⟨(List.prefix_cons_inj c).mpr hz, by simp⟩
    · rintro ⟨hy, hne⟩
      obtain ⟨d, z, rfl⟩ := List.exists_cons_of_ne_nil hne
      obtain ⟨rfl, hz⟩ := List.cons_prefix_cons.mp hy
      exact ⟨z, hz, rfl⟩

/-- Without a final separator every missing directory has its own place in the list. -/
theorem namesMissing_plain (hw : WellFormed t) (hord : ∀ x ∈ dir, Ordinary x)
    (hn : NearestAncestor t a dir) (hsplit : dir = a ++ r) :
    NamesMissing t dir (r.inits.tail.map (a ++ ·)) := by
  have hbare : ∀ q, q <+: dir → bare q = q :=
    fun q hq => bare_ordinary (fun x hx => hord x (hq.subset hx))
  have hmap : (r.inits.tail.map (a ++ ·)).map bare = r.inits.tail.map (a ++ ·) := by
    rw [List.map_map]
    apply List.map_congr_left
    intro y hy
    rw [mem_inits_tail] at hy
    exact hbare _ (hsplit ▸ (List.prefix_append_right_inj a).mpr hy.1)
  rw [NamesMissing, hmap, hbare dir List.prefix_rfl]
  constructor
  · rw [List.pairwise_map]
    refine (inits_pairwise r).tail.imp ?_
    intro p q hpq
    exact ⟨(List.prefix_append_right_inj a).mpr hpq.1, fun he => hpq.2 (List.append_cancel_left he)⟩
  · obtain ⟨b, x, rest, hdir, hr, hd, hgone⟩ := hn.gone
    have hxr : r = x :: rest := List.append_cancel_left (hsplit.symm.trans hdir)
    intro q
    constructor
    · intro hq
      obtain ⟨y, hy, rfl⟩ := List.mem_map.mp hq
      obtain ⟨hy, hne⟩ := mem_inits_tail.mp hy
      refine ⟨hsplit ▸ (List.prefix_append_right_inj a).mpr hy, ?_⟩
      obtain ⟨z, ys, rfl⟩ := List.exists_cons_of_ne_nil hne
      rw [hxr] at hy
      obtain ⟨rfl, _⟩ := List.cons_prefix_cons.mp hy
      exact lstat_gone hr hd (hord z (by simp [hdir])).2 hgone
    · rintro ⟨hq, hmissing⟩
      have hplain : Plain a := fun c hc => (hord c (hsplit ▸ List.mem_append_left r hc)).2
      rw [hsplit] at hq
      rcases List.prefix_or_prefix_of_prefix hq (List.prefix_append a r) with hq | ⟨y, rfl⟩
      · -- what stands above the ancestor is there
        obtain ⟨node, hnode⟩ := hn.there
        obtain ⟨node', hnode'⟩ := lstat_prefix hw hplain hq hnode
        rw [hnode'] at hmissing
        cases hmissing
      · have hy := (List.prefix_append_right_inj a).mp hq
        refine List.mem_map.mpr ⟨y, mem_inits_tail.mpr ⟨hy, ?_⟩, rfl⟩
        rintro rfl
        obtain ⟨node, hnode⟩ := hn.there
        rw [List.append_nil, hnode] at hmissing
        cases hmissing

/-- With one, the last directory is in it twice. -/
theorem namesMissing_trailing (hord : ∀ x ∈ dir, Ordinary x) (hr : r ≠ []) (hsplit : dir = a ++ r) :
    ¬ NamesMissing t (dir ++ [[]]) ((r ++ [[]]).inits.tail.map (a ++ ·)) := by
  intro hnames
  obtain ⟨hpairs, _⟩ := hnames
  have hne : r.inits ≠ [] := List.ne_nil_of_length_eq_add_one (List.length_inits r)
  have hm : r ∈ r.inits.tail := mem_inits_tail.mpr ⟨List.prefix_rfl, hr⟩
  rw [inits_concat, List.tail_append_of_ne_nil hne, List.map_append, List.map_append,
    List.pairwise_append] at hpairs
  have hlast := hpairs.2.2 (bare (a ++ r)) (List.mem_map.mpr ⟨_, List.mem_map.mpr ⟨r, hm, rfl⟩, rfl⟩)
    (bare (a ++ (r ++ [[]]))) (by simp)
  apply hlast.2
  rw [← List.append_assoc, bare_trailing, ← hsplit, bare_ordinary hord]

end Names

section Loop

variable {h : Surroundings} {s : Making} {c : Site} {rel : Path}

theorem wp_change_calm (calm : Calm h) {f : Disk → Int → Except Errno Disk} {d : Disk}
    (hf : f s.disk (h.clock s.calls) = .ok d) {Q : Except Errno Unit → Making → Prop}
    {E : Raised → Making → Prop} (done : Q (.ok ()) (s.onDisk d)) : (change h f).wp Q E s := by
  unfold wp change
  rw [calm.fault]
  dsimp only
  rw [hf]
  exact done

/-- A directory that is not there is made. -/
theorem createDirectory_runs (calm : Calm h) {n : Nat} {r : CreationRecord}
    (hr : s.ledger[n]? = some r) {q : Path} (hq : entryPath s.disk.tree (bare r.path) = .ok q)
    (hn : s.disk.tree q = none) :
    (createDirectory h n).wp
      (fun _ s' => ∃ st now, s'.disk.tree = (s.disk.tree.set q (some (.directory st))).touch q.dropLast now)
      (fun _ _ => False) s := by
  unfold createDirectory recordPath
  simp only [wp_bind, wp_read, hr, Option.map_some, Option.getD_some]
  apply wp_change_calm calm
  · simp only [Disk.create, hq, hn]
    rfl
  · refine ⟨⟨h.directoryMode, h.clock s.calls⟩, h.clock s.calls, ?_⟩
    change ((s.disk.put q _).touch q.dropLast _).tree = _
    rw [Disk.tree_touch, Disk.tree_put]

/-- Below a directory of the tree, the directories of a path that is not there are made one after
the other. -/
theorem createRoots_runs (calm : Calm h) (hrel : ∀ x ∈ rel, Ordinary x)
    (hs : Stage c 0 (fun k => k = []) (fun _ => False) false s)
    (hrec : ∀ i, i < rel.length → ∃ r, c.records[i]? = some r ∧
      bare r.path = c.anchor ++ rel.take (i + 1))
    (hgone : ∀ i, i < rel.length → s.disk.tree (c.base ++ rel.take (i + 1)) = none) :
    (each (createDirectory h) (List.range rel.length)).wp
      (fun _ s' => Stage c rel.length (fun k => k <+: rel) (fun _ => False) false s')
      (fun _ _ => False) s := by
  have hloop := wp_each (f := createDirectory h) (E := fun _ _ => False)
    (fun done _ v =>
      Stage c done.length (fun k => k <+: rel.take done.length) (fun _ => False) false v ∧
        ∀ i, done.length ≤ i → i < rel.length → v.disk.tree (c.base ++ rel.take (i + 1)) = none)
    (List.range rel.length) (s := s) ⟨by simpa [List.prefix_nil] using hs, fun i _ => hgone i⟩ ?_
  · refine wp_mono hloop ?_ (fun _ _ h => h)
    intro _ v hv
    simpa using hv.1
  intro done i rest hsplit v hv
  obtain ⟨hstage, hfree⟩ := hv
  have hlt : done.length < rel.length := by
    have := congrArg List.length hsplit
    simp only [List.length_range, List.length_append, List.length_cons] at this
    omega
  have hi : i = done.length := by
    have hget := congrArg (fun l => l[done.length]?) hsplit
    simpa [List.getElem?_range hlt] using hget.symm
  subst hi
  obtain ⟨r, hr, hp⟩ := hrec done.length hlt
  have htake : rel.take (done.length + 1) = rel.take done.length ++ [rel[done.length]] :=
    List.take_succ_eq_append_getElem hlt
  have hnone := hfree done.length le_rfl hlt
  rw [htake] at hp hnone
  have hord := hrel rel[done.length] (List.getElem_mem hlt)
  have hentry := hstage.accounted.added.entry (k := rel.take done.length) List.prefix_rfl
    rel[done.length]
  rw [← hp] at hentry
  refine wp_mono (wp_and (createDirectory_stage hstage hr hp List.prefix_rfl hord.2)
    (createDirectory_runs calm (hstage.record hr) hentry hnone)) ?_ (fun _ _ h => h.2)
  rintro _ u ⟨hu, st, now, htree⟩
  rw [List.length_append, List.length_singleton]
  constructor
  · have hsame : (fun k => k <+: rel.take done.length ∨ k = rel.take done.length ++ [rel[done.length]]) =
        fun k => k <+: rel.take (done.length + 1) := by
      funext k
      rw [htake, List.prefix_concat_iff]
      exact propext or_comm
    rwa [hsame] at hu
  · intro j hj hjlt
    rw [htree, touch_none, set_other _ _ ?_]
    · exact hfree j (by omega) hjlt
    · intro he
      have := congrArg List.length (List.append_cancel_left he)
      rw [← htake, List.length_take, List.length_take] at this
      omega

end Loop

section Spelling

variable {h : Surroundings} {d : Disk} {a dir : Path}

theorem trailing_ordinary (hord : ∀ x ∈ dir, Ordinary x) : trailing dir = false := by
  have hbare := bare_ordinary hord
  rw [← hbare]
  exact trailing_bare (hbare.symm ▸ hord)

theorem NearestAncestor.standing (hn : NearestAncestor d.tree a dir) (hord : ∀ x ∈ dir, Ordinary x) :
    ∃ node, symlinkStatus d.tree a = .ok node := by
  obtain ⟨node, hnode⟩ := hn.there
  obtain ⟨x, rest, hsplit, _⟩ := hn.below
  have hplain := trailing_ordinary (fun y hy => hord y (hsplit ▸ List.mem_append_left (x :: rest) hy))
  refine ⟨node, ?_⟩
  rw [symlinkStatus, hplain]
  exact hnode

/-- What the walk up from the root returns, with a final separator or without. -/
theorem missing_listed (calm : Calm h) (hord : ∀ x ∈ dir, Ordinary x)
    (hn : NearestAncestor d.tree a dir) (tail : Path) :
    ∃ r s, dir = a ++ r ∧ r ≠ [] ∧ Ticked (.start d) s ∧
      missingRootPaths h (dir ++ tail).inits.reverse (.start d) =
        (.ok ((r ++ tail).inits.tail.map (a ++ ·)), s) := by
  obtain ⟨b, x, rest, hsplit, hr, hd, hgone⟩ := hn.gone
  have hx := hord x (by simp [hsplit])
  have hwalk := missingRootPaths_runs (s := .start d) (r := x :: rest ++ tail) calm (hn.standing hord)
    ?_ rfl
  · obtain ⟨missing, s, hrun, ht, rfl⟩ := returns hwalk
    rw [← List.append_assoc, ← hsplit] at hrun
    exact ⟨x :: rest, s, hsplit, by simp, ht, hrun⟩
  · intro y hy hne
    obtain ⟨z, ys, rfl⟩ := List.exists_cons_of_ne_nil hne
    rw [List.cons_append] at hy
    obtain ⟨rfl, _⟩ := List.cons_prefix_cons.mp hy
    exact symlinkStatus_gone hr hd hgone hx

theorem makesRoot_plain (calm : Calm h) (hw : WellFormed d.tree) (hord : ∀ x ∈ dir, Ordinary x)
    (hn : NearestAncestor d.tree a dir) : MakesRoot h (.start d) dir := by
  obtain ⟨r, s, hsplit, hr, ht, hrun⟩ := missing_listed calm hord hn []
  rw [List.append_nil, List.append_nil] at hrun
  obtain ⟨b, x, rest, hdir, hreal, hb, hgone⟩ := hn.gone
  obtain rfl : r = x :: rest := List.append_cancel_left (hsplit.symm.trans hdir)
  have hrel : ∀ y ∈ x :: rest, Ordinary y := fun y hy => hord y (hsplit ▸ List.mem_append_right a hy)
  have hbare := bare_ordinary hord
  have hm : Missing dir ((x :: rest).inits.tail.map (a ++ ·)) a (x :: rest) :=
    ⟨hsplit, rfl, hbare.symm ▸ hord⟩
  obtain ⟨n, rfl⟩ := ht
  have hstage : Stage ⟨a, [], d.tree, creationRecords dir ((x :: rest).inits.tail.map (a ++ ·))⟩ 0
      (fun _ => False) (fun _ => False) false
      { Making.start d with
        calls := n, ledger := creationRecords dir ((x :: rest).inits.tail.map (a ++ ·)) } :=
    Stage.start hw rfl rfl creationRecords_fresh hm.layered rfl rfl
  have hrec : ∀ i, i < (x :: rest).length → ∃ r,
      (creationRecords dir ((x :: rest).inits.tail.map (a ++ ·)))[i]? = some r ∧
        LocalVault.bare r.path = a ++ (x :: rest).take (i + 1) := by
    intro i hi
    refine ⟨_, missing_record (hm.get hi), bare_ordinary ?_⟩
    intro y hy
    apply hord y
    rw [hsplit]
    exact ((List.prefix_append_right_inj a).mpr (List.take_prefix _ _)).subset hy
  have hfree : ∀ i, i < (x :: rest).length → d.tree (b ++ (x :: rest).take (i + 1)) = none := by
    intro i _
    have := hw.below_missing (q := rest.take i) hgone
    simpa using this
  have hloop := createRoots_runs calm hrel (hstage.settle creationRecords_fresh hreal hb) hrec hfree
  obtain ⟨_, s₂, hmade, hs₂⟩ := returns hloop
  refine ⟨_, _, s₂, hrun, namesMissing_plain hw hord hn hsplit, ?_, ?_⟩
  · rw [hm.length]
    exact hmade
  · obtain ⟨st, hst⟩ := hs₂.accounted.added.directory (k := x :: rest) List.prefix_rfl
    obtain ⟨front, y, hlast⟩ := split_last hr
    refine ⟨st, symlinkStatus_untrailed (trailing_ordinary hord) (q := b ++ (x :: rest)) ?_ hst⟩
    rw [hsplit, hlast]
    exact hs₂.accounted.added.entry (k := front) (by simp [hlast]) y

theorem makesRoot_trailing (calm : Calm h) (hord : ∀ x ∈ dir, Ordinary x)
    (hn : NearestAncestor d.tree a dir) : ¬ MakesRoot h (.start d) (dir ++ [[]]) := by
  rintro ⟨missing, s₁, s₂, hrun, hnames, _⟩
  obtain ⟨r, s, hsplit, hr, _, hlisted⟩ := missing_listed calm hord hn [[]]
  rw [hlisted] at hrun
  cases hrun
  exact namesMissing_trailing hord hr hsplit hnames

/-- A root that is missing is never made under a spelling with a final separator. -/
theorem create_trailing {requested : Bytes} {options : RepositoryCreateOptions}
    (hw : WellFormed d.tree) (hord : ∀ x ∈ dir, Ordinary x) (hn : NearestAncestor d.tree a dir)
    (hroot : normalizedRoot h.currentDirectory requested = .ok (dir ++ [[]])) :
    ¬ ∃ s, create h requested options (.start d) = (.ok (), s) := by
  rintro ⟨s, hrun⟩
  have hspec : (create h requested options).wp _ _ (.start d) := create_spec d hw requested
  unfold wp at hspec
  rw [hrun] at hspec
  obtain ⟨root, hnorm, _, c, rel, changed, s₀, info, _, _, _, _, hknown, hsame⟩ := hspec
  cases hroot.symm.trans hnorm
  obtain ⟨b, x, rest, hsplit, hreal, hd, hgone⟩ := hn.gone
  have hx := hord x (by simp [hsplit])
  rcases hknown with ⟨_, hbare⟩ | ⟨st, hst⟩
  · rw [bare_trailing] at hbare
    simpa using congrArg List.length hbare
  · -- the tree in front of the run has no such directory
    have hsame' : Extends c.before d.tree := by
      apply Extends.of_same
      intro p _
      refine (hsame p ?_).symm
      rw [bare_trailing, hsplit, realPath_gone hreal hd hx.2 hgone]
      simp
    obtain ⟨st', hst'⟩ := symlinkStatus_extends hsame' hst
    rw [hsplit, List.append_assoc, List.cons_append, symlinkStatus_gone hreal hd hgone hx] at hst'
    cases hst'

theorem normalizedRoot_spelling (currentDirectory : Path) {p spelling : Bytes}
    (habs : p.head? = some slash) (hlast : p.getLast? ≠ some slash) (hs : spelling ∈ spellings p) (hkept : keptNames p ≠ []) :
    normalizedRoot currentDirectory spelling =
      .ok (keptNames p ++ if spelling = p ∧ plainEnd p = true then [] else [[]]) := by
  have hhead := spelling_absolute habs hs
  have hne : spelling ≠ [] := by
    rintro rfl
    cases hhead
  simp [normalizedRoot, hne, hhead, normal_spelling habs hlast hs, hkept]

theorem normalizedRoot_kept {p : Bytes} {currentDirectory root : Path} (habs : p.head? = some slash)
    (hlast : p.getLast? ≠ some slash) (hroot : normalizedRoot currentDirectory p = .ok root) :
    keptNames p ≠ [] := by
  intro hnil
  have hne : p ≠ [] := by
    rintro rfl
    cases habs
  have hself : p ∈ spellings p := by simp [spellings]
  simp [normalizedRoot, hne, habs, normal_spelling habs hlast hself, hnil] at hroot

theorem normalizedRoot_bare_kept {p : Bytes} {currentDirectory root : Path}
    (habs : p.head? = some slash) (hlast : p.getLast? ≠ some slash)
    (hroot : normalizedRoot currentDirectory p = .ok root) : bare root = keptNames p := by
  rw [normalizedRoot_spelling _ habs hlast (by simp [spellings])
    (normalizedRoot_kept habs hlast hroot)] at hroot
  cases hroot
  split
  · rw [List.append_nil, bare_ordinary (keptNames_ordinary p)]
  · exact bare_trailing _

/-- A missing root is made under its plain spelling, and under no spelling that keeps a separator
at its end. -/
theorem create_spelling (calm : Calm h) (hw : WellFormed d.tree) {p : Bytes}
    (habs : p.head? = some slash) (hlast : p.getLast? ≠ some slash) {root : Path}
    (hroot : normalizedRoot h.currentDirectory p = .ok root) (hn : NearestAncestor d.tree a (bare root))
    {spelling : Bytes} (hs : spelling ∈ spellings p) :
    ∃ root', normalizedRoot h.currentDirectory spelling = .ok root' ∧
      (MakesRoot h (.start d) root' ↔ spelling = p ∧ plainEnd p = true) ∧
      (¬ (spelling = p ∧ plainEnd p = true) →
        ∀ options, ¬ ∃ s, create h spelling options (.start d) = (.ok (), s)) := by
  have hord := keptNames_ordinary p
  have hkept := normalizedRoot_kept habs hlast hroot
  rw [normalizedRoot_bare_kept habs hlast hroot] at hn
  have hnorm := normalizedRoot_spelling h.currentDirectory habs hlast hs hkept
  refine ⟨_, hnorm, ?_⟩
  by_cases hplain : spelling = p ∧ plainEnd p = true
  · rw [if_pos hplain, List.append_nil]
    exact ⟨iff_of_true (makesRoot_plain calm hw hord hn) hplain, fun h => absurd hplain h⟩
  · rw [if_neg hplain] at hnorm ⊢
    exact ⟨iff_of_false (makesRoot_trailing calm hord hn) hplain,
      fun _ _ => create_trailing hw hord hn hnorm⟩

/-- The root directory is there, and a name below it is not. -/
theorem create_spelling_below_root : MakesRoot quiet (.start bareDisk) [ascii "v"] ∧
    ¬ ∃ s, create quiet (ascii "/v/") ⟨1024, 3, false, false⟩ (.start bareDisk) = (.ok (), s) := by
  have hn : NearestAncestor bareDisk.tree [] [ascii "v"] := by
    refine ⟨⟨_, rfl⟩, ⟨_, rfl⟩, ascii "v", [], rfl, ?_⟩
    intro node
    rw [show lstat bareDisk.tree ([] ++ [ascii "v"]) = .error .noEntry from rfl]
    simp
  have hcalm : Calm quiet := ⟨fun _ => rfl, fun _ => rfl⟩
  have hroot : normalizedRoot quiet.currentDirectory (ascii "/v") = .ok [ascii "v"] := by
    decide +kernel
  have hspelling : ∀ spelling ∈ spellings (ascii "/v"), _ := fun spelling hs =>
    create_spelling hcalm bareDisk_wellFormed (by decide) (by decide) hroot hn hs
  constructor
  · obtain ⟨root, hroot, hmade, _⟩ := hspelling (ascii "/v") (by decide)
    cases hroot.symm.trans (by decide +kernel : _ = Except.ok [ascii "v"])
    exact hmade.mpr ⟨rfl, by decide⟩
  · obtain ⟨_, _, _, hno⟩ := hspelling (ascii "/v/") (by decide)
    exact hno (by decide) _

/-- A separator at the end makes the directory be listed twice, and its second creation fails. -/
theorem create_separator_fails :
    (match missingRootPaths quiet ([ascii "v", []] : Path).inits.reverse (.start bareDisk) with
      | (.ok missing, _) => decide (missing = [[ascii "v"], [ascii "v", []]])
      | _ => false) = true ∧
    (match create quiet (ascii "/v/") ⟨1024, 3, false, false⟩ (.start bareDisk) with
      | (.error (.localVault e), _) => decide (e =
          { code := .filesystemError, path := [ascii "v", []]
            message := "failed to create repository directory: path already exists" })
      | _ => false) = true ∧
    (match create quiet (ascii "/v") ⟨1024, 3, false, false⟩ (.start bareDisk) with
      | (.ok (), _) => true
      | _ => false) = true := by
  refine ⟨?_, ?_, ?_⟩ <;> decide +kernel

end Spelling
end LocalVault.Repository
