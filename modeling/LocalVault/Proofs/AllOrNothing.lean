import LocalVault.Proofs.Opening

namespace LocalVault.Repository
open Library Library.FileTree Library.Program

section Root

variable {root : Path} {t : Tree}

/-- The names of a normal root are ordinary; behind them there may be a final
separator. -/
theorem normalizedRoot_bare {currentDirectory : Path} {requested : Bytes}
    (h : normalizedRoot currentDirectory requested = .ok root) : ∀ x ∈ bare root, Ordinary x := by
  unfold normalizedRoot at h
  split at h
  · cases h
  dsimp only at h
  generalize helems : (if requested.head? = some slash then components requested
    else [slash] :: (currentDirectory ++ components requested)) = elements at h
  split at h
  · cases h
  cases h
  have hrooted : elements.head? = some [slash] := by
    rw [← helems]
    split
    · rename_i hs
      simp [components, hs]
    · rfl
  have hne : elements ≠ [] := by
    rintro rfl
    cases hrooted
  generalize hwalk : elements.tail.foldl (normalStep true) ([], false) = walked
  have hord : ∀ x ∈ walked.1.reverse, Ordinary x := by
    intro x hx
    rw [List.mem_reverse, ← hwalk] at hx
    exact normalSteps_ordinary elements.tail ([], false) (by simp) x hx
  unfold lexicallyNormal
  simp only [hrooted, decide_true, ↓reduceIte, hwalk, hne]
  split
  · intro x hx
    simp [bare, trailing] at hx
  · rw [List.append_assoc, List.singleton_append, List.tail_cons]
    split
    · rw [bare_trailing]
      exact hord
    · rw [List.append_nil, bare_ordinary hord]
      exact hord

theorem trailing_bare (hord : ∀ x ∈ bare root, Ordinary x) : trailing (bare root) = false := by
  rw [trailing, decide_eq_false_iff_not]
  intro h
  exact (hord [] (List.mem_of_getLast? h)).1 rfl

/-- A root that is there leads to its directory. -/
theorem realPath_root (hord : ∀ x ∈ bare root, Ordinary x) {st : Stamp}
    (hs : symlinkStatus t root = .ok (.directory st)) :
    ∃ q, realPath t (bare root) = .ok q ∧ t q = some (.directory st) := by
  unfold symlinkStatus at hs
  split at hs
  · unfold stat at hs
    cases hr : realPath t (bare root) with
    | error e => simp [hr] at hs
    | ok q =>
      refine ⟨q, rfl, ?_⟩
      cases hn : t q with
      | none => simp [hr, hn] at hs
      | some m => cases m <;> simp_all
  · rename_i htrail
    have hbare : bare root = root := by simp [bare, htrail]
    rw [hbare] at hord ⊢
    unfold lstat at hs
    cases he : entryPath t root with
    | error e => simp [he] at hs
    | ok q =>
      have hq : t q = some (.directory st) := by
        cases hn : t q with
        | none => simp [he, hn] at hs
        | some m => simpa [he, hn] using hs
      refine ⟨q, ?_, hq⟩
      rcases List.eq_nil_or_concat root with rfl | ⟨d, x, rfl⟩
      · cases he
        rfl
      · rw [List.concat_eq_append] at he hord ⊢
        obtain ⟨r, hr, hd, rfl⟩ := entryPath_split he
        have hx := (hord x (by simp)).2
        refine realPath_append hr (by simpa [Plain] using hx) ?_
        intro pre hpre
        rw [← List.nil_append [x], List.prefix_concat_iff] at hpre
        rcases hpre with rfl | hpre
        · exact ⟨st, hq⟩
        · rw [List.prefix_nil.mp hpre, List.append_nil]
          exact hd

end Root

/-- What a run that returns leaves behind, over the tree in front of it. -/
def Created (h : Surroundings) (root : Path) (t₀ : Tree) (s : Making) : Prop :=
  ∃ c rel changed s₀ info, Laid c rel changed s₀ ∧ loadRepositoryInfo s₀.db = .ok info ∧
    s = closeDatabase h root s₀ ∧ bare root = c.anchor ++ rel ∧ RootKnown c root rel ∧
    ∀ p, realPath t₀ (bare root) ≠ .ok p → SameAt t₀ c.before p

section Layouts

variable {root rel a r : Path} {missing : List Path} {s : Making} {h : Surroundings} {c : Site}
  {changed : Bool} {options : RepositoryCreateOptions}

theorem Stage.start (hw : WellFormed s.disk.tree) (hb : c.before = s.disk.tree)
    (hl : s.ledger = c.records) (hfresh : ∀ r ∈ c.records, r.created = false)
    (hlay : Layered (c.records.map CreationRecord.place)) (hch : s.permissionsChanged = changed)
    (hpub : s.published = false) : Stage c 0 (fun _ => False) (fun _ => False) changed s := by
  have hnone : Owned c.anchor s.ledger = fun _ => False := by
    funext k
    apply propext
    simp only [iff_false]
    rintro ⟨r, hm, hc, _⟩
    rw [hfresh r (hl ▸ hm)] at hc
    cases hc
  refine ⟨by simpa [Repository.marked] using hl, ⟨?_, ?_, hl ▸ hlay⟩, fun _ h => h.elim, hch, hpub⟩
  · rw [hnone, hb]
    exact Added.start hw
  · intro r hm hc
    rw [hfresh r (hl ▸ hm)] at hc
    cases hc

theorem Missing.shape (hm : Missing root missing a r) (hr : r ≠ []) :
    ∃ rel, LocalVault.bare root = a ++ rel ∧
      (r = rel ∧ LocalVault.bare root = root ∨ r = rel ++ [[]]) := by
  obtain ⟨front, x, rfl⟩ := split_last hr
  by_cases hx : x = []
  · refine ⟨front, ?_, Or.inr (by rw [hx])⟩
    rw [hm.split, hx, ← List.append_assoc, bare_trailing]
  · have hbare : LocalVault.bare root = root := by
      rw [LocalVault.bare, hm.split, ← List.append_assoc, trailing_concat hx]
      rfl
    exact ⟨front ++ [x], hbare.trans hm.split, Or.inl ⟨rfl, hbare⟩⟩

theorem validateCreationRoot_ticked :
    (validateCreationRoot h root).wp (fun _ s' => Ticked s s') (fun _ s' => Ticked s s') s := by
  unfold validateCreationRoot
  rw [wp_bind]
  apply wp_look
  · split <;> exact Ticked.tick s
  · exact fun _ => Ticked.tick s

/-- The permissions of a directory that was made may change. -/
theorem Stage.restamped {n : Nat} {standing : Path → Prop}
    (hs : Stage c n standing (fun _ => False) changed s) (hrel : standing rel) (hne : rel ≠ [])
    {f : Stamp → Stamp} {d : Disk} (hd : s.disk.restamp (c.anchor ++ rel) f = .ok d) :
    Stage c n standing (fun _ => False) changed (s.onDisk d) := by
  obtain ⟨st, hst⟩ := hs.accounted.added.directory hrel
  have htree : d.tree = s.disk.tree.set (c.base ++ rel) (some (.directory (f st))) := by
    have h := Disk.restamp_tree hd
    rw [restampFollowing, hs.accounted.added.path hrel] at h
    dsimp only at h
    rw [restamp_directory hst] at h
    exact (Except.ok.inj h).symm
  refine ⟨hs.ledger, hs.accounted.edit (l := [c.base ++ rel]) ?_ ?_, fun _ h => h.elim, hs.changed,
    hs.published⟩
  · change Edit _ s.disk.tree d.tree
    rw [htree]
    exact Edit.set_directory hst
  · intro p hp
    exact ⟨rel, (hs.accounted.added.known rel hrel).resolve_left hne, List.mem_singleton.mp hp⟩

theorem createLayout_missing (hm : Missing root missing a r) (hr : r ≠ [])
    (hthere : ∃ node, symlinkStatus s.disk.tree a = .ok node) (hw : WellFormed s.disk.tree)
    (hl : s.ledger = creationRecords root missing) (hch : s.permissionsChanged = false)
    (hpub : s.published = false) :
    (createLayout h root false missing.length options).wp
      (fun _ s' => Created h root s.disk.tree s')
      (fun _ s' => s'.published = false → Undoable root none s.disk.tree s') s := by
  obtain ⟨rel, hbare, hshape⟩ := hm.shape hr
  have hord : ∀ x ∈ rel, Ordinary x := by
    intro x hx
    exact hm.ordinary x (by rw [hbare]; exact List.mem_append_right _ hx)
  have hs : Stage ⟨a, [], s.disk.tree, creationRecords root missing⟩ 0 (fun _ => False)
      (fun _ => False) false s :=
    Stage.start hw rfl hl creationRecords_fresh hm.layered hch hpub
  have hlen : missing.length ≤ rel.length + 1 := by
    rw [hm.length]
    rcases hshape with ⟨rfl, _⟩ | rfl
    · omega
    · simp
  have hrec : ∀ i, i < missing.length → ∃ r, (creationRecords root missing)[i]? = some r ∧
      LocalVault.bare r.path = a ++ rel.take (i + 1) := by
    intro i hi
    have hi' : i < r.length := by rwa [← hm.length]
    refine ⟨_, missing_record (hm.get hi'), ?_⟩
    obtain ⟨hpre, hplen⟩ := hm.bare hi'
    rw [hbare] at hpre hplen
    refine (List.prefix_of_prefix_length_le hpre
      ((List.prefix_append_right_inj a).mpr (List.take_prefix (i + 1) rel)) ?_).eq_of_length ?_
    all_goals
      simp only [List.length_append, List.length_take] at hplen ⊢
      omega
  have hlstat : rel = [] → ∃ node, lstat s.disk.tree a = .ok node := by
    rintro rfl
    rw [List.append_nil] at hbare
    obtain ⟨node, hnode⟩ := hthere
    have := trailing_bare hm.ordinary
    rw [hbare] at this
    rw [symlinkStatus, this] at hnode
    exact ⟨node, hnode⟩
  have undo : ∀ b s', Recoverable ⟨a, b, s.disk.tree, creationRecords root missing⟩ false s' →
      s'.published = false → Undoable root none s.disk.tree s' := by
    intro b s' hs' hp
    obtain ⟨hperm, standing, hacc⟩ := hs' hp
    exact ⟨a, b, s.disk.tree, standing, hacc, Or.inl ⟨hperm, rfl⟩⟩
  unfold createLayout
  rw [wp_bind]
  refine wp_mono (createRoots_stage hs creationRecords_fresh hord hlen hrec hlstat) ?_ ?_
  swap
  · rintro _ s' ⟨b, hs'⟩
    exact undo b s' hs'.recoverable
  rintro _ s₁ ⟨htotal, ⟨hzero, _⟩ | ⟨b, hs₁⟩⟩
  · rw [hm.length] at hzero
    exact absurd (List.length_eq_zero_iff.mp hzero) hr
  -- the root carries no final separator
  obtain ⟨rfl, hroot⟩ : r = rel ∧ bare root = root := by
    rcases hshape with hshape | rfl
    · exact hshape
    · rw [hm.length, List.length_append, List.length_singleton] at htotal
      omega
  have hrel : r <+: r.take missing.length := by
    rw [hm.length, List.take_length]
  have hc : Rooted ⟨a, b, s.disk.tree, creationRecords root missing⟩ root missing r :=
    ⟨rfl, hbare, hm.ordinary⟩
  rw [wp_bind]
  refine wp_mono validateCreationRoot_ticked ?_ (fun _ s' ht => undo b s' (hs₁.ticked ht).staged.recoverable)
  intro _ s₂ ht
  have hs₂ := hs₁.ticked ht
  rw [wp_bind]
  unfold applyRestrictiveRepositoryPermissions
  rw [wp_bind]
  apply wp_change
  · intro d hd
    rw [hbare] at hd
    have hs₃ := hs₂.restamped hrel hr hd
    simp only [wp_pure, wp_bind, wp_update]
    have hs₄ : Stage ⟨a, b, s.disk.tree, creationRecords root missing⟩ missing.length
        (fun k => k <+: r.take missing.length) (fun _ => False) false
        { s₂.onDisk d with permissionsChanged := false } :=
      ⟨hs₃.ledger, hs₃.accounted, hs₃.files, rfl, hs₃.published⟩
    refine wp_mono (createContents_laid hc hs₄ hrel) ?_ (fun _ s' hs' => undo b s' hs')
    rintro _ s' ⟨s₀, info, hlaid, hload, rfl⟩
    exact ⟨_, r, false, s₀, info, hlaid, hload, rfl, hbare, Or.inl ⟨hr, hroot⟩,
      fun p _ => SameAt.refl _ p⟩
  · exact fun _ => undo b _ (hs₂.ticked (Ticked.tick s₂)).staged.recoverable

theorem createLayout_existing (hord : ∀ x ∈ bare root, Ordinary x) {st : Stamp}
    (hst : symlinkStatus s.disk.tree root = .ok (.directory st)) (hw : WellFormed s.disk.tree)
    (hl : s.ledger = creationRecords root []) (hch : s.permissionsChanged = false)
    (hpub : s.published = false) :
    (createLayout h root true 0 options).wp (fun _ s' => Created h root s.disk.tree s')
      (fun _ s' => s'.published = false → Undoable root (some st.mode) s.disk.tree s') s := by
  obtain ⟨q, hq, hdir⟩ := realPath_root hord hst
  have hm : Missing root [] root [] := ⟨by simp, rfl, hord⟩
  have hlay : Layered ((creationRecords root []).map CreationRecord.place) := hm.layered
  have hs : Stage ⟨bare root, [], s.disk.tree, creationRecords root []⟩ 0 (fun _ => False)
      (fun _ => False) false s :=
    Stage.start hw rfl hl creationRecords_fresh hlay hch hpub
  have untouched : ∀ s', Ticked s s' → s'.published = false →
      Undoable root (some st.mode) s.disk.tree s' := by
    intro s' ht _
    have hs' := hs.ticked ht
    exact ⟨_, _, _, _, hs'.accounted, Or.inl ⟨hs'.changed, rfl⟩⟩
  unfold createLayout
  change wp ((pure () : MakingM Unit) >>= _) _ _ s
  rw [wp_bind, wp_pure, wp_bind]
  refine wp_mono validateCreationRoot_ticked ?_ (fun _ s' ht => untouched s' ht)
  intro _ s₁ ht
  rw [wp_bind]
  unfold applyRestrictiveRepositoryPermissions
  rw [wp_bind]
  apply wp_change
  · intro d hd
    have htree : d.tree = s.disk.tree.set q (some (.directory (setMode 0o700 st))) := by
      have h := Disk.restamp_tree hd
      rw [ht.disk, restampFollowing, hq] at h
      dsimp only at h
      rw [restamp_directory hdir] at h
      exact (Except.ok.inj h).symm
    have hedit : Edit [q] s.disk.tree d.tree := by
      rw [htree]
      exact Edit.set_directory hdir
    have hext : Extends s.disk.tree d.tree := by
      refine ⟨hedit.directories, fun p n hn hp => (hedit.elsewhere p ?_).plain hn hp⟩
      intro hpq
      rw [List.mem_singleton.mp hpq, hdir] at hn
      exact hp st (Option.some.inj hn).symm
    have hkept : PermissionsKept root (some st.mode) true s.disk.tree d.tree :=
      Or.inr ⟨q, st, 0o700, rfl, rfl, hq, hdir, htree⟩
    simp only [wp_pure, wp_bind, wp_update]
    have hs₂ : Stage ⟨bare root, [], d.tree, creationRecords root []⟩ 0 (fun _ => False)
        (fun _ => False) true { s₁.onDisk d with permissionsChanged := true } := by
      obtain ⟨n, rfl⟩ := ht
      exact Stage.start (hedit.wellFormed hw) rfl hl creationRecords_fresh hlay rfl hpub
    have hs₃ := hs₂.settle (b := q) creationRecords_fresh (realPath_extends hext hq)
      (hext.directory q ⟨st, hdir⟩)
    have hc : Rooted ⟨bare root, q, d.tree, creationRecords root []⟩ root [] [] :=
      ⟨rfl, by simp, hord⟩
    have hlaid : (createContents h root ([] : List Path).length options).wp _ _ _ :=
      createContents_laid hc hs₃ rfl
    refine wp_mono hlaid ?_ ?_
    · rintro _ s' ⟨s₀, info, hlaid, hload, rfl⟩
      refine ⟨_, [], true, s₀, info, hlaid, hload, rfl, by simp,
        Or.inr (symlinkStatus_extends hext hst), ?_⟩
      intro p hp
      apply hedit.elsewhere
      intro hpq
      rw [List.mem_singleton.mp hpq] at hp
      exact hp hq
    · intro _ s' hs' hp
      obtain ⟨hperm, standing, hacc⟩ := hs' hp
      exact ⟨_, _, _, standing, hacc, hperm.symm ▸ hkept⟩
  · exact fun _ => untouched _ (ht.trans (Ticked.tick s₁))

end Layouts

section Create

variable {h : Surroundings} {root : Path} {options : RepositoryCreateOptions} {s : Making}

theorem wp_inspectRoot : (inspectRoot h options root).wp
    (fun original s' => Ticked s s' ∧ ∃ st, original = some st.mode ∧
      symlinkStatus s.disk.tree root = .ok (.directory st))
    (fun _ s' => Ticked s s') s := by
  unfold inspectRoot
  rw [wp_bind]
  apply wp_look
  · cases hn : symlinkStatus s.disk.tree root with
    | error e => exact Ticked.tick s
    | ok node =>
      cases node with
      | directory st =>
        dsimp only
        rw [wp_bind]
        have hticked : Ticked s s.tick.tick := (Ticked.tick s).trans (Ticked.tick _)
        apply wp_look
        · split
          · exact hticked
          · rw [wp_ite]
            split
            · exact hticked
            · exact ⟨hticked, st, rfl, rfl⟩
        · exact fun _ => hticked
      | _ => exact Ticked.tick s
  · exact fun _ => Ticked.tick s

theorem requireFree_ticked (path : Path) {s₀ : Making} (hs : Ticked s₀ s) :
    (requireFree h path).wp (fun _ s' => Ticked s₀ s') (fun _ s' => Ticked s₀ s') s := by
  have htick : Ticked s₀ s.tick := hs.trans (Ticked.tick s)
  unfold requireFree
  rw [wp_bind]
  apply wp_pathExists
  · exact fun _ _ => htick
  · exact fun _ => htick
  · exact fun _ => htick

/-- What the clean-up of a failed run leaves behind. -/
def NothingLeft (h : Surroundings) (t₀ : Tree) (s : Making) : Prop :=
  s.published = false → (∀ n, h.cleanupFails n = false) → ∀ p, SameAt t₀ s.disk.tree p

theorem Ticked.nothingLeft {s' : Making} (ht : Ticked s s') : NothingLeft h s.disk.tree s' := by
  intro _ _ p
  rw [ht.disk]
  exact SameAt.refl _ p

/-- The `catch` clauses around the layout. -/
theorem createLayout_rescued {rootExisted : Bool} {missing : Nat} {original : Option Nat} {t₀ : Tree}
    (hlayout : (createLayout h root rootExisted missing options).wp
      (fun _ s' => Created h root t₀ s')
      (fun _ s' => s'.published = false → Undoable root original t₀ s') s) :
    ((createLayout h root rootExisted missing options).rescue (fun e => do
      let published ← Program.read Making.published
      if published = false then Program.update (cleanup h root original)
      .raise (rethrown root e))).wp
      (fun _ s' => Created h root t₀ s') (fun _ s' => NothingLeft h t₀ s') s := by
  rw [wp_rescue]
  refine wp_mono hlayout (fun _ _ h => h) ?_
  intro e s' hs'
  rw [wp_bind, wp_read]
  cases hp : s'.published with
  | true =>
    intro hno
    rw [hp] at hno
    cases hno
  | false => exact fun _ calm => cleanup_undoes calm (hs' hp)

/-- The checks between those of the root and the ledger. -/
theorem wp_checks {s₀ : Making} (hs : Ticked s₀ s) {text : String} {paths : List Path}
    {rest : MakingM Unit} {Q : Unit → Making → Prop} {E : Raised → Making → Prop}
    (failed : ∀ e s', Ticked s₀ s' → E e s') (next : ∀ s', Ticked s₀ s' → rest.wp Q E s') :
    (do
      attempt h
      if (filesystemPolicy h.filesystemClass options.allowRiskyFilesystem).allowed = false then
        failing .filesystemError text root
      else do
        Program.each (requireFree h) paths
        rest).wp Q E s := by
  have ht := hs.trans (Ticked.tick s)
  rw [wp_bind]
  apply wp_attempt
  · rw [wp_ite]
    split
    · exact failed _ _ ht
    rw [wp_bind]
    exact wp_mono (wp_each_invariant (E := fun _ s' => Ticked s₀ s') (fun s' => Ticked s₀ s') _ ht
      (fun path _ s' hs' => requireFree_ticked path hs')) (fun _ s' ht => next s' ht) failed
  · exact fun _ => failed _ _ ht

theorem create_spec (d : Disk) (hw : WellFormed d.tree) (requested : Bytes) :
    (create h requested options).wp
      (fun _ s' => ∃ root, normalizedRoot h.currentDirectory requested = .ok root ∧
        (∀ x ∈ bare root, Ordinary x) ∧ Created h root d.tree s')
      (fun _ s' => NothingLeft h d.tree s') (Making.start d) := by
  have untouched : ∀ (_ : Raised) s', Ticked (Making.start d) s' → NothingLeft h d.tree s' :=
    fun _ _ ht => ht.nothingLeft
  unfold create
  cases hnorm : normalizedRoot h.currentDirectory requested with
  | error e => exact untouched (.localVault e) _ (Ticked.refl _)
  | ok root =>
    have hord := normalizedRoot_bare hnorm
    dsimp only
    rw [wp_ite]
    split
    · exact (Ticked.refl (Making.start d)).nothingLeft
    rw [wp_bind]
    apply wp_pathExists
    · intro _ _
      simp only [↓reduceIte]
      rw [wp_bind]
      refine wp_mono wp_inspectRoot ?_ (fun e s' ht => untouched e s' ((Ticked.tick _).trans ht))
      rintro original s₁ ⟨ht, st, rfl, hst⟩
      apply wp_checks ((Ticked.tick _).trans ht) untouched
      rintro s₂ ⟨n, rfl⟩
      simp only [wp_bind, wp_pure, wp_update]
      have hs : (createLayout h root true 0 options).wp _ _
          { Making.start d with calls := n, ledger := creationRecords root [] } :=
        createLayout_existing hord hst hw rfl rfl rfl
      refine wp_mono (createLayout_rescued hs) ?_ (fun _ _ h => h)
      exact fun _ s' hs' => ⟨root, rfl, hord, hs'⟩
    · intro hno
      simp only [Bool.false_eq_true, ↓reduceIte]
      rw [wp_bind, wp_pure]
      apply wp_checks (Ticked.tick _) untouched
      intro s₂ ht₂
      rw [wp_bind]
      refine wp_mono (wp_missingRootPaths (by rw [ht₂.disk]; exact hw) root) ?_
        (fun e s' ht => untouched e s' (ht₂.trans ht))
      rintro missing s₃ ⟨ht₃, a, r, hsplit, hpaths, hthere⟩
      rw [ht₂.disk] at hthere
      have hm : Missing root missing a r := ⟨hsplit, hpaths, hord⟩
      have hr : r ≠ [] := by
        rintro rfl
        obtain ⟨node, hnode⟩ := hthere
        rw [List.append_nil] at hsplit
        subst hsplit
        rw [hno] at hnode
        cases hnode
      obtain ⟨n, rfl⟩ := ht₂.trans ht₃
      rw [wp_bind, wp_update]
      have hs : (createLayout h root false missing.length options).wp _ _
          { Making.start d with calls := n, ledger := creationRecords root missing } :=
        createLayout_missing hm hr hthere hw rfl rfl rfl
      refine wp_mono (createLayout_rescued hs) ?_ (fun _ _ h => h)
      exact fun _ s' hs' => ⟨root, rfl, hord, hs'⟩
    · exact fun e => untouched e _ (Ticked.tick _)

/-- What stood before stands after a run that returns; only the root itself gets
other permissions. -/
theorem Created.kept {t₀ : Tree} (hc : Created h root t₀ s) {p : Path} (hp : t₀ p ≠ none) (hroot : realPath t₀ (bare root) ≠ .ok p) :
    SameAt t₀ s.disk.tree p := by
  obtain ⟨c, rel, changed, s₀, info, hlaid, _, rfl, hbare, _, hsame⟩ := hc
  have hold := hsame p hroot
  obtain ⟨standing, hacc, _⟩ := (hlaid.touched hbare (h.closedFiles s₀.calls) (h.clock s₀.calls)
    s₀.db).1.accounted
  refine hold.trans (hacc.added.elsewhere_old ?_)
  intro hn
  exact hp (hold.none_iff.mpr hn)

/-- What was created opens in both modes, when SQLite keeps its files. -/
theorem Created.opens {t₀ : Tree} (hc : Created h root t₀ s) (hord : ∀ x ∈ bare root, Ordinary x)
    (hclosed : ∀ n, ∀ name ∈ [databaseName, walName, shmName], h.closedFiles n name ≠ none)
    {h' : Surroundings} (calm : Calm h') (mode : OpenMode) :
    ∃ info t, openAt h' root mode s = (.ok info, t) := by
  obtain ⟨c, rel, changed, s₀, info, hlaid, hload, rfl, hbare, hknown, _⟩ := hc
  obtain ⟨hlaid', hfiles⟩ := hlaid.touched hbare (h.closedFiles s₀.calls) (h.clock s₀.calls) s₀.db
  have hsub : ∀ name ∈ [databaseName, walName, shmName], name ∈ sqliteNames := by decide
  have hopen := hlaid'.openable hbare hord hknown ?_
  · obtain ⟨found, t, hrun, _⟩ := returns (openAt_accepts (s := closeDatabase h root s₀) calm hopen
      hload mode)
    exact ⟨found, t, hrun⟩
  · intro name hm
    obtain ⟨f, hf⟩ := Option.ne_none_iff_exists'.mp (hclosed s₀.calls name hm)
    refine ⟨f.1, f.2, (hfiles name (hsub name hm)).trans ?_⟩
    simp [sqliteFile, hf]

end Create

/-- A failed run leaves the disk as it was, up to the times of directories. A run
that returns keeps what was there and leaves a repository that opens. -/
theorem create_all_or_nothing (h : Surroundings) (d : Disk) (requested : Bytes)
    (options : RepositoryCreateOptions) (hw : WellFormed d.tree) :
    (∀ e s, create h requested options (.start d) = (.error e, s) → s.published = false →
      (∀ n, h.cleanupFails n = false) → ∀ p, SameAt d.tree s.disk.tree p) ∧
    ∀ s, create h requested options (.start d) = (.ok (), s) →
      (∀ root, normalizedRoot h.currentDirectory requested = .ok root →
        ∀ p, d.tree p ≠ none → realPath d.tree (bare root) ≠ .ok p → SameAt d.tree s.disk.tree p) ∧
      ((∀ n, ∀ name ∈ [databaseName, walName, shmName], h.closedFiles n name ≠ none) →
        ∀ h' mode, Calm h' → h'.currentDirectory = h.currentDirectory →
          ∃ info t, openRepository h' requested mode s = (.ok info, t)) := by
  have hspec : (create h requested options).wp _ _ (.start d) := create_spec d hw requested
  unfold wp at hspec
  constructor
  · intro e s hrun
    rw [hrun] at hspec
    exact hspec
  · intro s hrun
    rw [hrun] at hspec
    obtain ⟨root, hnorm, hord, hcreated⟩ := hspec
    constructor
    · intro root' hroot' p hp hne
      cases hnorm.symm.trans hroot'
      exact hcreated.kept hp hne
    · intro hclosed h' mode calm hcur
      rw [openRepository, hcur, hnorm]
      exact hcreated.opens hord hclosed calm mode

/-- Surroundings in which nothing fails and SQLite keeps its files. -/
def quiet : Surroundings where
  fault _ := none
  raises _ := none
  cleanupFails _ := false
  clock _ := 0
  entropy _ := Vector.replicate 16 0
  diagnostics _ := ascii "pid=1"
  taken _ := 100
  sqliteFiles _ name := if name = journalName then none else some ([], ⟨0o600, 0⟩)
  closedFiles _ name := if name = journalName then none else some ([], ⟨0o600, 0⟩)
  filesystemClass := .localDisk
  provenReadOnly := false
  directoryMode := 0o755
  currentDirectory := []

def bareDisk : Disk := ⟨[([], .directory ⟨0o755, 0⟩)]⟩

theorem bareDisk_wellFormed : WellFormed bareDisk.tree := by
  refine ⟨⟨⟨0o755, 0⟩, rfl⟩, ?_⟩
  intro p n hn
  simp [bareDisk, Disk.tree] at hn

def crowded : Surroundings := { quiet with fault := fun n => if n = 28 then some "No space" else none }

theorem quiet_keeps (n : Nat) (name : Name) (hm : name ∈ [databaseName, walName, shmName]) :
    quiet.closedFiles n name ≠ none := by
  have hne : name ≠ journalName := by
    revert name
    decide
  simp [quiet, hne]

/-- The database file cannot be made while the lock is held, below a root with a
missing ancestor; without the failure the repository opens. -/
theorem create_all_or_nothing_nested :
    (∃ e s, create crowded (ascii "/v/w") ⟨1024, 3, false, false⟩ (.start bareDisk) = (.error e, s) ∧
      ∀ p, SameAt bareDisk.tree s.disk.tree p) ∧
    ∃ s info t, create quiet (ascii "/v/w") ⟨1024, 3, false, false⟩ (.start bareDisk) = (.ok (), s) ∧
      openRepository quiet (ascii "/v/w") .readOnly s = (.ok info, t) := by
  constructor
  · have hfails : raises (fun _ s => !s.published)
        (create crowded (ascii "/v/w") ⟨1024, 3, false, false⟩ (.start bareDisk)) = true := by
      decide +kernel
    obtain ⟨e, s, hrun, hpublished⟩ := raises_iff.mp hfails
    rw [Bool.not_eq_true'] at hpublished
    exact ⟨e, s, hrun, (create_all_or_nothing _ _ _ _ bareDisk_wellFormed).1 e s hrun hpublished
      (fun _ => rfl)⟩
  · have hok : gives (fun _ _ => true)
        (create quiet (ascii "/v/w") ⟨1024, 3, false, false⟩ (.start bareDisk)) = true := by
      decide +kernel
    obtain ⟨_, s, hrun, -⟩ := gives_iff.mp hok
    obtain ⟨info, t, hopen⟩ := ((create_all_or_nothing _ _ _ _ bareDisk_wellFormed).2 s hrun).2
      quiet_keeps quiet .readOnly ⟨fun _ => rfl, fun _ => rfl⟩ rfl
    exact ⟨s, info, t, hrun, hopen⟩

end LocalVault.Repository
