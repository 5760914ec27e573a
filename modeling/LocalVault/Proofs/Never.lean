import Mathlib.Algebra.Order.Ring.Nat
import LocalVault.Proofs.Verified
import LocalVault.Proofs.Loading
import LocalVault.Proofs.Placing

namespace LocalVault.Restore
open Library Library.FileTree Library.Program

/-- The saved time and, where one was saved, the saved mode. -/
def HasStamp (e : EntryInfo) (st : Stamp) : Prop :=
  st.mtime = e.modifiedTimeNs ∧ (e.posixMode ≠ 0 → st.mode = e.posixMode % 0o10000)

/-- What stands at a destination is the entry as the snapshot has it. -/
def AsRecorded (x : Externals) (chunks : List ChunkReferenceInfo) (e : EntryInfo)
    (found : Option Node) : Prop :=
  match e.type with
  | .directory => ∃ st, found = some (.directory st) ∧ HasStamp e st
  | .regularFile => ∃ content st, found = some (.file content st) ∧
      VerifiedContent x chunks e content ∧ HasStamp e st
  | .symbolicLink => ∃ target, e.symlinkTarget = some target ∧ found = some (.link target)

theorem stampOf_hasStamp (e : EntryInfo) (old : Stamp) :
    HasStamp e (stampOf e.modifiedTimeNs e.posixMode old) := by
  have htime : (restoredModificationTime e.modifiedTimeNs).1 * 1000000000 +
      (restoredModificationTime e.modifiedTimeNs).2 = e.modifiedTimeNs := by
    have := Int.mul_tdiv_add_tmod e.modifiedTimeNs 1000000000
    unfold restoredModificationTime
    dsimp only
    split <;> dsimp only <;> omega
  refine ⟨htime, fun hm => ?_⟩
  simp [stampOf, withTime, withMode, hm]

section Decide

variable {h : Host} {request : RestoreRequest} {root : Path} {t : Tree}
  {selected : List EntryInfo} {plan : List PlannedEntry}

theorem conflictAction_never (hn : request.overwritePolicy = .never) (e : EntryInfo)
    (destination : Path) (node : Node) :
    conflictAction request e destination node =
      .ok (if e.type = .directory ∧ isDirectoryNode node then .mergeDirectory else .skip) := by
  unfold conflictAction
  by_cases hd : e.type = .directory ∧ isDirectoryNode node
  · rw [if_pos hd, if_pos hd]
  · rw [if_neg hd, if_pos hn, if_neg hd]

/-- A plan without overwriting is never rejected: the first object in the way of
an entry is the conflict of an ancestor, which was skipped before. -/
theorem never_accepted (hn : request.overwritePolicy = .never) (calm : ¬ Troubled h)
    (hvalid : ∀ e ∈ selected, ValidEntry e) (closed : AncestorClosed selected) :
    ¬ PlanRejected h request root t [] (selected.insertionSort shallowFirst) := by
  rintro (hx | ⟨before, e, after, plan, he, hplan, hne, _, hfree, hx⟩)
  · exact calm hx
  have hmem : e ∈ selected := (List.mem_insertionSort shallowFirst).mp (by simp [he])
  rcases hx with ⟨q, r, hpar, hq, hdir, hsome⟩ | ⟨node, error, _, hx⟩
  · have hv : isSafeStoredPath e.relativePath = true := valid_safe hvalid hmem hne
    obtain ⟨d, n, hlast⟩ := split_last (safe_components hv).2.1
    have hsplit : components e.relativePath = q ++ (r ++ [n]) := by
      have : parentComponents e.relativePath = d := by simp [parentComponents, hlast]
      rw [hlast, ← this, hpar, List.append_assoc]
    obtain ⟨a, ha, htype, hcomp⟩ := closed e hmem q _ hsplit hq (by simp)
    -- the ancestor is shallower, so it was planned already
    have hsorted : (before ++ e :: after).Pairwise shallowFirst := by
      rw [← he]
      exact List.pairwise_insertionSort _ _
    have hbefore : a ∈ before := by
      have ha' : a ∈ before ++ e :: after := by
        rw [← he]
        exact (List.mem_insertionSort shallowFirst).mpr ha
      have hlt : pathDepth a.relativePath < pathDepth e.relativePath := by
        simp [pathDepth, hcomp, hsplit]
      rw [List.pairwise_append] at hsorted
      rcases List.mem_append.mp ha' with h | h
      · exact h
      · exfalso
        rcases List.mem_cons.mp h with rfl | h
        · exact Nat.lt_irrefl _ hlt
        · have := (List.pairwise_cons.mp hsorted.2.1).1 a h
          unfold shallowFirst at this
          omega
    rw [← hplan.map_entry, List.mem_map] at hbefore
    obtain ⟨p, hp, rfl⟩ := hbefore
    have hpre : components p.entry.relativePath <+: components e.relativePath := by
      rw [hcomp, hsplit]
      exact List.prefix_append _ _
    have hskip : p.action ≠ .skip := fun hs => hfree p hp hs htype hpre
    rcases hplan.decisions (fun _ h => h) (by simp) p hp with
      ⟨hr, _, _⟩ | ⟨_, _, _, _, _, _, hs, _⟩ | ⟨_, _, hnone, _, _⟩ | ⟨node, _, _, hnode, ha, _⟩
    · rw [hr] at hcomp
      exact hq (by simpa [components, names, pieces] using hcomp.symm)
    · exact hskip hs
    · rw [hcomp] at hnone
      exact hsome hnone
    · rw [conflictAction_never hn] at ha
      have hd : isDirectoryNode node = true := by
        by_contra hd
        simp [htype, hd] at ha
        exact hskip ha.symm
      apply hdir
      rw [hcomp] at hnode
      cases node <;> simp [isDirectoryNode] at hd
      exact ⟨_, hnode⟩
  · rw [conflictAction_never hn] at hx
    cases hx

/-- The decision on an entry, when nothing is overwritten. -/
inductive Kept (root : Path) (t : Tree) (p : PlannedEntry) : Prop
  | merge : p.action = .mergeDirectory → p.metadataAllowed = true → p.entry.type = .directory →
      IsDirectory t (root ++ components p.entry.relativePath) → Kept root t p
  | create : p.action = .create → p.metadataAllowed = true → p.entry.relativePath ≠ [] →
      t (root ++ components p.entry.relativePath) = none → Kept root t p
  | skip : p.action = .skip → p.metadataAllowed = false → Kept root t p

theorem Planned.kept (hplan : Planned request root t [] (selected.insertionSort shallowFirst) plan)
    (hn : request.overwritePolicy = .never) (hvalid : ∀ e ∈ selected, ValidEntry e)
    (hroot : IsDirectory t root) : ∀ p ∈ plan, Kept root t p := by
  intro p hp
  have hmem : p.entry ∈ selected :=
    (List.mem_insertionSort shallowFirst).mp (hplan.mem_entries hp)
  rcases hplan.decisions (fun _ h => h) (by simp) p hp with
    ⟨hr, ha, hm⟩ | ⟨_, _, _, _, _, _, ha, hm⟩ | ⟨hr, _, hnone, ha, hm⟩ | ⟨node, hr, _, hnode, ha, hm⟩
  · refine .merge ha hm ?_ ?_
    · rcases hvalid p.entry hmem with ⟨_, hd⟩ | hv
      · exact hd
      · rw [hr] at hv
        simp [isSafeStoredPath] at hv
    · simpa [hr, components, names, pieces] using hroot
  · exact .skip ha hm
  · exact .create ha hm hr hnone
  · rw [conflictAction_never hn] at ha
    by_cases hd : p.entry.type = .directory ∧ isDirectoryNode node
    · rw [if_pos hd] at ha
      have hact : p.action = .mergeDirectory := (Except.ok.inj ha).symm
      refine .merge hact (by simp [hm, hact]) hd.1 ?_
      cases node <;> simp [isDirectoryNode] at hd
      exact ⟨_, hnode⟩
    · rw [if_neg hd] at ha
      have hact : p.action = .skip := (Except.ok.inj ha).symm
      exact .skip hact (by simp [hm, hact])

/-- The parent of a planned entry is the root or a planned directory, and one
that was skipped is skipped with everything below. -/
theorem Planned.parent (hplan : Planned request root t [] (selected.insertionSort shallowFirst) plan)
    (hvalid : ∀ e ∈ selected, ValidEntry e) (closed : AncestorClosed selected)
    {p : PlannedEntry} (hp : p ∈ plan) (hne : p.entry.relativePath ≠ []) :
    parentComponents p.entry.relativePath = [] ∨
      ∃ d ∈ plan, d.entry.type = .directory ∧ (p.action ≠ .skip → d.action ≠ .skip) ∧
        components d.entry.relativePath = parentComponents p.entry.relativePath := by
  have hmem : p.entry ∈ selected :=
    (List.mem_insertionSort shallowFirst).mp (hplan.mem_entries hp)
  have hv := valid_safe hvalid hmem hne
  obtain ⟨q, n, hlast⟩ := split_last (safe_components hv).2.1
  have hpar : parentComponents p.entry.relativePath = q := by simp [parentComponents, hlast]
  by_cases hq : q = []
  · exact Or.inl (hpar.trans hq)
  right
  obtain ⟨e, he, htype, hcomp⟩ := closed p.entry hmem q [n] hlast hq (by simp)
  have he' := (List.mem_insertionSort shallowFirst).mpr he
  rw [← hplan.map_entry, List.mem_map] at he'
  obtain ⟨d, hd, rfl⟩ := he'
  refine ⟨d, hd, htype, ?_, hcomp.trans hpar.symm⟩
  intro ha hskip
  have hlt : pathDepth d.entry.relativePath < pathDepth p.entry.relativePath := by
    simp [pathDepth, hcomp, hlast]
  obtain ⟨before, after, hsplit, hafter⟩ := shallow_before hplan.map_entry hd hp hlt
  apply ha
  apply hplan.skip_below hsplit hskip htype hafter hne
  rw [hcomp, hlast]
  exact List.prefix_append _ _

end Decide

/-- Random names that nothing has: not the tree, and no entry of the snapshot. -/
structure FreshNames (h : Host) (t : Tree) (root : Path) (selected : List EntryInfo) : Prop where
  missing : ∀ n d, t (root ++ (d ++ [randomTemporaryName (h.entropy n)])) = none
  unused : ∀ n, ∀ e ∈ selected,
    (components e.relativePath).getLast? ≠ some (randomTemporaryName (h.entropy n))

/-- Next to a symbolic link, one of any hundred consecutive temporary names is
free and is the name of no other entry. -/
def LinkRoom (t : Tree) (root : Path) (selected : List EntryInfo) : Prop :=
  ∀ e ∈ selected, e.type = .symbolicLink → ∀ start, ∃ j, j < 100 ∧
    t (root ++ (parentComponents e.relativePath ++ [sequenceName (start + j)])) = none ∧
    ∀ d ∈ selected,
      components d.relativePath = parentComponents e.relativePath ++ [sequenceName (start + j)] →
      d = e

section Run

variable {c : Context} {request : RestoreRequest} {t : Tree} {selected : List EntryInfo}
  {plan : List PlannedEntry} {w : World}

theorem Planned.calm (hplan : Planned request c.root t [] (selected.insertionSort shallowFirst) plan)
    (hn : request.overwritePolicy = .never) (faultless : Faultless c.host) (hplain : Plain c.root)
    (hroot : IsDirectory t c.root) (hvalid : ∀ e ∈ selected, ValidEntry e)
    (distinct : DistinctPaths selected) (closed : AncestorClosed selected)
    (fresh : FreshNames c.host t c.root selected)
    (readable : ∀ e ∈ selected, e.type = .regularFile → ∃ parts, Readable c e parts)
    (targets : ∀ e ∈ selected, e.type = .symbolicLink →
      ∃ target, e.symlinkTarget = some target ∧ target ≠ []) : Calm c plan t := by
  have hmem : ∀ p ∈ plan, p.entry ∈ selected :=
    fun p hp => (List.mem_insertionSort shallowFirst).mp (hplan.mem_entries hp)
  have hkept := hplan.kept hn hvalid hroot
  refine
    { faultless, root := hplain, valid := fun p hp => hvalid _ (hmem p hp), distinct := ?_,
      ordered := ?_, keeps := ?_, parents := fun p hp hne => hplan.parent hvalid closed hp hne,
      free := ?_, merged := ?_, allowed := ?_, random := ?_,
      readable := fun p hp ht => readable _ (hmem p hp) ht,
      targets := fun p hp ht => targets _ (hmem p hp) ht }
  · have hmap : plan.map (fun p => components p.entry.relativePath) =
        (selected.insertionSort shallowFirst).map (fun e => components e.relativePath) := by
      rw [← hplan.map_entry, List.map_map]
      rfl
    rw [hmap]
    exact ((List.perm_insertionSort shallowFirst selected).map _).nodup_iff.mpr distinct
  · have hsorted : (plan.map PlannedEntry.entry).Pairwise shallowFirst := by
      rw [hplan.map_entry]
      exact List.pairwise_insertionSort _ _
    refine (List.pairwise_map.mp hsorted).imp ?_
    intro a b hab
    unfold shallowFirst at hab
    omega
  · intro p hp
    rcases hkept p hp with ⟨ha, _⟩ | ⟨ha, _⟩ | ⟨ha, _⟩ <;> simp [ha]
  · intro p hp hcreate
    rcases hkept p hp with ⟨ha, _⟩ | ⟨_, _, hne, hnone⟩ | ⟨ha, _⟩
    · simp [ha] at hcreate
    · exact ⟨hne, hnone⟩
    · simp [ha] at hcreate
  · intro p hp hmerge
    rcases hkept p hp with ⟨_, _, ht, hd⟩ | ⟨ha, _⟩ | ⟨ha, _⟩
    · exact ⟨ht, hd⟩
    · simp [ha] at hmerge
    · simp [ha] at hmerge
  · intro p hp
    rcases hkept p hp with ⟨ha, hm, _⟩ | ⟨ha, hm, _⟩ | ⟨ha, hm⟩ <;> simp [ha, hm]
  · intro p hp n
    refine ⟨by simpa [Context.parent] using fresh.missing n (parentComponents p.entry.relativePath), ?_⟩
    intro q hq hx
    apply fresh.unused n q.entry (hmem q hq)
    have hcomp : components q.entry.relativePath =
        parentComponents p.entry.relativePath ++ [randomTemporaryName (c.host.entropy n)] := by
      simpa [Context.destination, Context.parent] using hx
    simp [hcomp]

/-- The links of a plan: each stands behind the phase or is named. -/
theorem links_placing (calm : Calm c plan t) (hroot : IsDirectory t c.root)
    (hs : Placing c plan t [] (fun q => q.entry.type ≠ .symbolicLink) w.tree)
    (room : ∀ p ∈ plan, p.entry.type = .symbolicLink → ∀ start, ∃ j, j < 100 ∧
      t (linkTemporary c p (start + j)) = none ∧
      ∀ q ∈ plan, c.destination q.entry = linkTemporary c p (start + j) → q = p) :
    (Program.each (restoreLink c) plan).wp
      (fun _ w' => ∃ stands, Placing c plan t [] stands w'.tree ∧
        (∀ q ∈ plan, q.entry.type ≠ .symbolicLink → stands q) ∧
        (∀ q ∈ plan, q.entry.type = .symbolicLink →
          q.action = .create ∧ stands q ∨ q.entry.relativePath ∈ w'.skippedNames) ∧
        ∀ s ∈ w.skippedNames, s ∈ w'.skippedNames)
      (fun _ _ => False) w := by
  have hloop := wp_each (f := restoreLink c) (s := w) (E := fun _ _ => False)
    (fun done rest w' => ∃ stands, Placing c plan t [] stands w'.tree ∧
      (∀ q ∈ plan, q.entry.type ≠ .symbolicLink → stands q) ∧
      (∀ q ∈ rest, q.entry.type = .symbolicLink → ¬ stands q) ∧
      (∀ q ∈ done, q.entry.type = .symbolicLink →
        q.action = .create ∧ stands q ∨ q.entry.relativePath ∈ w'.skippedNames) ∧
      ∀ s ∈ w.skippedNames, s ∈ w'.skippedNames) plan
    ⟨_, hs, fun _ _ h => h, fun _ _ ht h => h ht, by simp, fun _ h => h⟩ ?_
  · refine wp_mono hloop ?_ (fun _ _ h => h)
    rintro _ w' ⟨stands, hpl, hother, _, hdone, hnames⟩
    exact ⟨stands, hpl, hother, hdone, hnames⟩
  · rintro done p rest he v ⟨stands, hpl, hother, hwait, hdone, hnames⟩
    have hp : p ∈ plan := by simp [he]
    have hfresh := hwait p (by simp)
    have above : ∀ d ∈ plan, d.entry.type = .directory → d.action = .create → stands d :=
      fun d hd ht _ => hother d hd (by simp [ht])
    have hafter : ∀ q ∈ rest, q ≠ p := by
      have hn := calm.nodup
      rw [he] at hn
      rintro q hq rfl
      exact (List.nodup_cons.mp (List.nodup_append.mp hn).2.1).1 hq
    refine wp_mono (restoreLink_placing calm hroot hp hpl hfresh above) ?_ ?_
    · intro _ v' hout
      have grow : ∀ {s : List Bytes} {d : Nat}, Tally v v' s 0 d →
          (∀ n ∈ s, n ∈ v'.skippedNames) ∧ ∀ n ∈ v.skippedNames, n ∈ v'.skippedNames := by
        intro s d ht
        rw [ht.skipped]
        exact ⟨fun n hm => List.mem_append_right _ hm, fun n hm => List.mem_append_left _ hm⟩
      -- an entry done before is where it was, and the list of names only grows
      have before : ∀ {now : PlannedEntry → Prop}, (∀ q, stands q → now q) →
          (∀ n ∈ v.skippedNames, n ∈ v'.skippedNames) →
          (p.entry.type = .symbolicLink →
            p.action = .create ∧ now p ∨ p.entry.relativePath ∈ v'.skippedNames) →
          ∀ q ∈ done ++ [p], q.entry.type = .symbolicLink →
            q.action = .create ∧ now q ∨ q.entry.relativePath ∈ v'.skippedNames := by
        intro now hstay hmore hown q hq ht
        rcases List.mem_append.mp hq with hq | hq
        · rcases hdone q hq ht with h | h
          · exact Or.inl ⟨h.1, hstay q h.2⟩
          · exact Or.inr (hmore _ h)
        · rw [List.mem_singleton.mp hq] at ht ⊢
          exact hown ht
      cases hout with
      | other hne hpl' ht =>
        exact ⟨stands, hpl', hother, fun q hq => hwait q (List.mem_cons_of_mem _ hq),
          before (fun _ h => h) (grow ht).2 (fun h => absurd h hne),
          fun n hn => (grow ht).2 n (hnames n hn)⟩
      | skipped _ _ hpl' ht =>
        exact ⟨stands, hpl', hother, fun q hq => hwait q (List.mem_cons_of_mem _ hq),
          before (fun _ h => h) (grow ht).2 (fun _ => Or.inr ((grow ht).1 _ (by simp))),
          fun n hn => (grow ht).2 n (hnames n hn)⟩
      | placed k _ ha _ _ _ _ hpl' ht =>
        refine ⟨_, hpl', fun q hq hne => Or.inl (hother q hq hne), ?_,
          before (fun _ h => Or.inl h) (grow ht).2 (fun _ => Or.inl ⟨ha, Or.inr rfl⟩),
          fun n hn => (grow ht).2 n (hnames n hn)⟩
        rintro q hq hqt (h | h)
        · exact hwait q (List.mem_cons_of_mem _ hq) hqt h
        · exact hafter q hq h
      | lost k _ _ _ _ _ hpl' ht =>
        exact ⟨stands, hpl', hother, fun q hq => hwait q (List.mem_cons_of_mem _ hq),
          before (fun _ h => h) (grow ht).2 (fun _ => Or.inr ((grow ht).1 _ (by simp))),
          fun n hn => (grow ht).2 n (hnames n hn)⟩
    · -- one of the hundred names is free in the tree, since nothing of the plan has it
      rintro _ v' ⟨ht, ha, htaken⟩
      obtain ⟨j, hj, hnone, howner⟩ := room p hp ht v.sequence
      apply htaken j hj
      by_cases hown : c.destination p.entry = linkTemporary c p (v.sequence + j)
      · rw [← hown]
        exact hpl.waiting p hp ha (hfresh ht) (by simp)
      · rw [hpl.elsewhere _ (by simp) ?_]
        · exact hnone
        · rintro (hr | ⟨q, hq, hr⟩)
          · simpa [linkTemporary, Context.parent] using congrArg List.length hr
          · obtain rfl := howner q hq hr.symm
            exact hown hr.symm

/-- A plan that overwrites nothing runs to its end: every entry is in place or
named, and nothing else has moved. -/
theorem runPlan_never (calm : Calm c plan t) (hw : w.tree = t) (hwell : WellFormed t)
    (hroot : IsDirectory t c.root)
    (hbytes : w.result.restoredBytes + (plan.map fileBytes).sum ≤ maximumByteCount)
    (room : ∀ p ∈ plan, p.entry.type = .symbolicLink → ∀ start, ∃ j, j < 100 ∧
      t (linkTemporary c p (start + j)) = none ∧
      ∀ q ∈ plan, c.destination q.entry = linkTemporary c p (start + j) → q = p) :
    (runPlan c plan).wp
      (fun r w' => (∃ stands, Placing c plan t [] stands w'.tree) ∧
        (∀ p ∈ plan, AsRecorded c.x (c.chunksAt p.entry.id) p.entry
            (w'.tree (c.destination p.entry)) ∧ p.action ≠ .skip ∨
          p.entry.relativePath ∈ r.skippedEntries.map SkippedEntry.relativePath))
      (fun _ _ => False) w := by
  have untroubled := calm.faultless.untroubled
  have hstart : Placing c plan t [] (fun _ => False) w.tree := by
    rw [hw]
    exact ⟨hwell, fun _ _ _ => rfl, fun _ h => h, fun _ _ h _ => h, fun _ _ _ h => h.elim,
      fun q hq ha _ _ => (calm.free q hq ha).2⟩
  have report : ∀ (phase : OperationPhase) {Q : Unit → World → Prop} {v : World},
      (∀ v', v'.tree = v.tree → v'.result = v.result → Q () v') →
      (reportProgress c.host phase c.root c.totalEntries).wp Q (fun _ _ => False) v := by
    intro phase Q v hq
    unfold reportProgress
    rw [wp_bind, wp_update]
    apply wp_callback
    · exact fun v' h => hq v' h.tree h.result
    · exact fun _ _ hx _ => untroubled hx
  unfold runPlan
  rw [wp_bind]
  apply report
  intro w₁ htree₁ hres₁
  rw [wp_bind]
  refine wp_mono (directories_placing calm hroot (by rw [htree₁]; exact hstart)) ?_ (fun _ _ h => h)
  rintro _ w₂ ⟨hplace₂, htally₂⟩
  rw [wp_bind]
  refine wp_mono (files_placing calm hroot hplace₂ ?_) ?_ (fun _ _ h => h)
  · rw [htally₂.bytes, hres₁]
    exact hbytes
  rintro _ w₃ ⟨hplace₃, htally₃⟩
  rw [wp_bind]
  refine wp_mono (links_placing calm hroot hplace₃ room) ?_ (fun _ _ h => h)
  rintro _ w₄ ⟨stands, hplace₄, hother, hlinks, hnames⟩
  rw [wp_bind]
  refine wp_mono (metadata_placing calm hroot hplace₄ (fun d hd ht _ => hother d hd (by simp [ht]))
    (List.perm_insertionSort deepFirst plan)) ?_ (fun _ _ h => h)
  rintro _ w₅ ⟨hplace₅, htally₅, hstamped⟩
  rw [wp_bind]
  apply report
  intro w₆ htree₆ hres₆
  rw [wp_read]
  rw [htree₆]
  have hresult : w₆.result.skippedEntries.map SkippedEntry.relativePath = w₅.skippedNames := by
    rw [hres₆]
    rfl
  rw [hresult]
  -- a name once in the list stays in it
  have from₄ : ∀ n ∈ w₄.skippedNames, n ∈ w₅.skippedNames := by
    intro n hn
    rw [htally₅.skipped]
    exact List.mem_append_left _ hn
  have from₃ : ∀ n ∈ w₃.skippedNames, n ∈ w₅.skippedNames := fun n hn => from₄ n (hnames n hn)
  have named : ∀ {f : PlannedEntry → Bool} {p : PlannedEntry} {ps : List PlannedEntry}, p ∈ ps →
      f p = true → p.entry.relativePath ∈ namesOf f ps := by
    intro f p ps hp hf
    exact List.mem_map.mpr ⟨p, List.mem_filter.mpr ⟨hp, hf⟩, rfl⟩
  have fromDirectories : ∀ p ∈ plan, skippedDirectory p = true →
      p.entry.relativePath ∈ w₅.skippedNames := by
    intro p hp hf
    apply from₃
    rw [htally₃.skipped, htally₂.skipped]
    exact List.mem_append_left _ (List.mem_append_right _ (named hp hf))
  have fromFiles : ∀ p ∈ plan, namedFile p = true → p.entry.relativePath ∈ w₅.skippedNames := by
    intro p hp hf
    apply from₃
    rw [htally₃.skipped]
    exact List.mem_append_right _ (named hp hf)
  have fromMetadata : ∀ p ∈ plan, unstampedDirectory p = true →
      p.entry.relativePath ∈ w₅.skippedNames := by
    intro p hp hf
    rw [htally₅.skipped]
    exact List.mem_append_right _ (named ((List.mem_insertionSort _).mpr hp) hf)
  refine ⟨⟨stands, hplace₅⟩, ?_⟩
  intro p hp
  cases ht : p.entry.type with
  | directory =>
    by_cases ha : p.action = .skip
    · exact Or.inr (fromDirectories p hp (by simp [skippedDirectory, ht, ha]))
    · by_cases hmask : p.entry.posixMode ≤ validModeMask
      · obtain ⟨old, hold⟩ := hstamped p hp ht ha hmask
        refine Or.inl ⟨?_, ha⟩
        unfold AsRecorded
        simp only [ht]
        exact ⟨_, hold, stampOf_hasStamp p.entry old⟩
      · exact Or.inr (fromMetadata p hp (by simp [unstampedDirectory, ht, ha]; omega))
  | regularFile =>
    by_cases ha : p.action = .skip
    · exact Or.inr (fromFiles p hp (by simp [namedFile, ht, ha]))
    · by_cases hmask : p.entry.posixMode ≤ validModeMask
      · have hcreate := action_create calm hp (by simp [ht]) ha
        obtain ⟨n, hn, hr⟩ := hplace₅.standing p hp hcreate (hother p hp (by simp [ht]))
        unfold Restored at hr
        simp only [ht] at hr
        obtain ⟨content, st, rfl, hver, hst⟩ := hr
        obtain ⟨old, rfl⟩ := hst hmask
        refine Or.inl ⟨?_, ha⟩
        unfold AsRecorded
        simp only [ht]
        exact ⟨content, _, hn, hver, stampOf_hasStamp p.entry old⟩
      · exact Or.inr (fromFiles p hp (by simp [namedFile, ht]; omega))
  | symbolicLink =>
    rcases hlinks p hp ht with ⟨hcreate, hst⟩ | hn
    · obtain ⟨n, hn, hr⟩ := hplace₅.standing p hp hcreate hst
      unfold Restored at hr
      simp only [ht] at hr
      obtain ⟨target, htarget, rfl⟩ := hr
      refine Or.inl ⟨?_, by simp [hcreate]⟩
      unfold AsRecorded
      simp only [ht]
      exact ⟨target, htarget, hn⟩
    · exact Or.inr (from₄ _ hn)

end Run
/-- The bytes an entry adds to the restored total. -/
def fileSize (e : EntryInfo) : Nat := if e.type = .regularFile then e.logicalSize else 0

theorem fileBytes_sum_le {selected : List EntryInfo} {plan : List PlannedEntry}
    (h : (plan.map PlannedEntry.entry).Perm selected) :
    (plan.map fileBytes).sum ≤ (selected.map fileSize).sum := by
  have hle : (plan.map fileBytes).sum ≤ (plan.map (fun p => fileSize p.entry)).sum := by
    apply List.sum_le_sum
    intro p _
    unfold fileBytes fileSize
    split <;> split <;> simp_all
  have hsum := (h.map fileSize).sum_eq
  rw [List.map_map] at hsum
  exact hle.trans hsum.le

section Restore

variable {x : Externals} {h : Host} {repository : RepositoryView} {request : RestoreRequest}

/-- The part of the run behind the checks, when nothing is overwritten. -/
theorem restoreSelected_never {root : Path} {selected : List EntryInfo}
    {chunks : List (Int × List ChunkReferenceInfo)} {w : World}
    (hn : request.overwritePolicy = .never) (faultless : Faultless h) (hplain : Plain root)
    (hw : WellFormed w.tree) (hroot : IsDirectory w.tree root)
    (hvalid : ∀ e ∈ selected, ValidEntry e) (distinct : DistinctPaths selected)
    (closed : AncestorClosed selected) (fresh : FreshNames h w.tree root selected)
    (room : LinkRoom w.tree root selected)
    (hbytes : w.result.restoredBytes + (selected.map fileSize).sum ≤ maximumByteCount)
    (readable : ∀ c : Context, c.x = x → c.objects = repository.objects →
      c.chunkSize = repository.chunkSizeBytes → c.chunks = chunks →
      ∀ e ∈ selected, e.type = .regularFile → ∃ parts, Readable c e parts)
    (targets : ∀ e ∈ selected, e.type = .symbolicLink →
      ∃ target, e.symlinkTarget = some target ∧ target ≠ []) :
    (restoreSelected x h repository request root selected chunks).wp
      (fun r w' =>
        (∀ p, p ≠ root → (∀ e ∈ selected, p ≠ root ++ components e.relativePath) →
          w'.tree p = w.tree p) ∧
        (∀ p n, w.tree p = some n → (∀ st, n ≠ .directory st) → w'.tree p = some n) ∧
        ∃ (plan : List PlannedEntry) (c : Context), c.x = x ∧ c.chunks = chunks ∧ c.root = root ∧
          Planned request root w.tree [] (selected.insertionSort shallowFirst) plan ∧
          ∀ p ∈ plan, AsRecorded c.x (c.chunksAt p.entry.id) p.entry
              (w'.tree (c.destination p.entry)) ∧ p.action ≠ .skip ∨
            p.entry.relativePath ∈ r.skippedEntries.map SkippedEntry.relativePath)
      (fun _ _ => False) w := by
  unfold restoreSelected
  rw [wp_bind]
  have hclear : Clear w.tree [] root := Or.inl (by simpa using hroot)
  refine wp_mono (wp_createRoot (I := Quiet w) (fun _ _ hq hi => hi.trans hq)
    (fun v hq => by rw [hq.tree]; exact hw) ?_ hplain (Quiet.refl w) hclear) ?_
    (fun _ _ he => faultless.untroubled he.2)
  case refine_1 =>
    -- every ancestor of the root stands, so none is made
    rintro v t p now hq ⟨r, rfl⟩ hdirect hc
    have hd : IsDirectory v.tree p := by
      rw [hq.tree]
      exact hw.ancestors hroot
    obtain ⟨st, hst⟩ := hd
    have := (create_direct hdirect hc).1
    rw [hst] at this
    cases this
  rintro _ w₁ ⟨hq₁, _⟩
  rw [wp_bind]
  have hvalid' : ∀ e ∈ selected.insertionSort shallowFirst, ValidEntry e :=
    fun e he => hvalid e ((List.mem_insertionSort shallowFirst).mp he)
  have hw₁ : WellFormed w₁.tree := by rw [hq₁.tree]; exact hw
  refine wp_mono (planFrom_planned hw₁ hplain (by rw [hq₁.tree]; exact hroot) _ hvalid' []) ?_
    (fun _ _ he => never_accepted hn faultless.untroubled hvalid closed he.2)
  rintro plan w₂ ⟨hq₂, hplan⟩
  rw [hq₁.tree] at hplan
  have htree : w₂.tree = w.tree := hq₂.tree.trans hq₁.tree
  let c : Context :=
    ⟨x, h, root, repository.objects, repository.chunkSizeBytes, chunks, plan.length⟩
  have hmem : ∀ p ∈ plan, p.entry ∈ selected :=
    fun p hp => (List.mem_insertionSort shallowFirst).mp (hplan.mem_entries hp)
  have calm : Calm c plan w.tree := Planned.calm (c := c) hplan hn faultless hplain hroot hvalid
    distinct closed fresh (readable c rfl rfl rfl rfl) targets
  refine wp_mono (runPlan_never (c := c) calm htree hw hroot ?_ ?_) ?_ (fun _ _ he => he)
  · rw [hq₂.result, hq₁.result]
    have hperm : (plan.map PlannedEntry.entry).Perm selected := by
      rw [hplan.map_entry]
      exact List.perm_insertionSort shallowFirst selected
    have := fileBytes_sum_le hperm
    omega
  · intro p hp ht start
    obtain ⟨j, hj, hnone, hown⟩ := room p.entry (hmem p hp) ht start
    refine ⟨j, hj, by simpa [linkTemporary, Context.parent] using hnone, ?_⟩
    intro q hq hx
    have hcomp : components q.entry.relativePath =
        parentComponents p.entry.relativePath ++ [sequenceName (start + j)] := by
      simpa [Context.destination, linkTemporary, Context.parent] using hx
    have hentry := hown q.entry (hmem q hq) hcomp
    exact calm.destination_inj hp hq (by rw [hentry])
  · rintro r w' ⟨⟨stands, hplace⟩, hdone⟩
    refine ⟨?_, hplace.kept, plan, c, rfl, rfl, rfl, hplan, hdone⟩
    intro p hp hout
    apply hplace.elsewhere p (by simp)
    rintro (hr | ⟨q, hq, hr⟩)
    · exact hp hr
    · exact hout q.entry (hmem q hq) hr

theorem Restorable.readable (restorable : Restorable x repository request.snapshotId)
    {selected : List EntryInfo} {c : Context}
    (hchunks : chunksByEntry repository.db repository.chunkSizeBytes selected = .ok c.chunks)
    (hx : c.x = x) (ho : c.objects = repository.objects)
    (hs : c.chunkSize = repository.chunkSizeBytes) {e : EntryInfo} (he : e ∈ selected)
    (hl : e ∈ Restore.listed repository.db request.snapshotId) (ht : e.type = .regularFile) :
    ∃ parts, Readable c e parts := by
  obtain ⟨chunks, parts, hlist, _, hreads, hsize, hhash⟩ := restorable.chunks hl ht
  have hat : c.chunksAt e.id = chunks := by
    rw [chunksAt_listed hchunks he ht, listedChunks, hlist]
  refine ⟨parts, ?_, hsize, by rw [hx]; exact hhash⟩
  rw [hat]
  unfold ReadsAs
  rw [hx, ho, hs]
  exact hreads

/-- A directory whose place is taken by something else is skipped, with all that
is below it. -/
theorem Planned.skip_conflict {root : Path} {t : Tree} {selected : List EntryInfo}
    {plan : List PlannedEntry}
    (hplan : Planned request root t [] (selected.insertionSort shallowFirst) plan)
    (hn : request.overwritePolicy = .never) (hvalid : ∀ e ∈ selected, ValidEntry e)
    (hroot : IsDirectory t root) {d p : PlannedEntry} (hd : d ∈ plan) (hp : p ∈ plan)
    (htype : d.entry.type = .directory) {node : Node}
    (hnode : t (root ++ components d.entry.relativePath) = some node)
    (hother : isDirectoryNode node = false)
    (hpre : components d.entry.relativePath <+: components p.entry.relativePath) :
    p.action = .skip := by
  have taken : ∀ q ∈ plan, components q.entry.relativePath = components d.entry.relativePath →
      q.action = .skip := by
    intro q hq hc
    rcases hplan.kept hn hvalid hroot q hq with ⟨_, _, _, st, hst⟩ | ⟨_, _, _, hnone⟩ | ⟨ha, _⟩
    · rw [hc, hnode] at hst
      rw [Option.some.inj hst] at hother
      cases hother
    · rw [hc, hnode] at hnone
      cases hnone
    · exact ha
  by_cases hc : components p.entry.relativePath = components d.entry.relativePath
  · exact taken p hp hc
  · have hlt : pathDepth d.entry.relativePath < pathDepth p.entry.relativePath := by
      have := hpre.length_le
      unfold pathDepth
      have hne : (components d.entry.relativePath).length ≠
          (components p.entry.relativePath).length := fun hl => hc (hpre.eq_of_length hl).symm
      omega
    have hne : p.entry.relativePath ≠ [] := by
      intro hr
      rw [hr] at hlt
      simp [pathDepth, components, names, pieces] at hlt
    obtain ⟨before, after, hsplit, hafter⟩ := shallow_before hplan.map_entry hd hp hlt
    exact hplan.skip_below hsplit (taken d hd rfl) htype hafter hne hpre

theorem AsRecorded.chunks {chunks chunks' : List ChunkReferenceInfo} {e : EntryInfo}
    {found : Option Node} (h : AsRecorded x chunks e found)
    (hc : e.type = .regularFile → chunks = chunks') : AsRecorded x chunks' e found := by
  unfold AsRecorded at h ⊢
  cases ht : e.type with
  | regularFile =>
    rw [← hc ht]
    simpa only [ht] using h
  | directory => simpa only [ht] using h
  | symbolicLink => simpa only [ht] using h

end Restore

/-- The names a result gives for what was not restored. -/
def RestoreResult.skipped (r : RestoreResult) : List Bytes :=
  r.skippedEntries.map SkippedEntry.relativePath

/-- A table of empty files is restorable once its rows are in order. -/
theorem sampleView_restorable {rows : List EntryRow}
    (hkeys : (rows.map EntryRow.id).Nodup) (hown : rows.filter (fun e => e.snapshotId == 1) = rows)
    (hroot : ∃ r, rows.filter (fun e => e.relativePath == []) = [r] ∧ r.entryType = .directory)
    (hfiles : ∀ e ∈ rows, e.entryType = .regularFile → e.fileHash = some (toHex emptyDigest))
    (hcolumns : ∀ e ∈ rows, e.logicalSize = 0 ∧ e.posixMode = 0o755 ∧ e.windowsAttributes = none)
    (hsafe : ∀ e ∈ rows, e.relativePath ≠ [] → isSafeStoredPath e.relativePath = true)
    (hdistinct : (rows.map (fun e => components e.relativePath)).Nodup)
    (hclosed : ∀ e ∈ rows, ∀ q ∈ (components e.relativePath).inits, q ≠ [] →
      q ≠ components e.relativePath →
      ∃ d ∈ rows, d.entryType = .directory ∧ components d.relativePath = q)
    (htargets : ∀ e ∈ rows, e.entryType = .symbolicLink → e.symlinkTarget = some (ascii "/etc")) :
    Restorable emptyExternals (sampleView rows) 1 := by
  have hrows : (sampleView rows).db.entriesOf 1 = rows := hown
  refine
    { keyed := ⟨by simp [sampleView], hkeys, by simp [sampleView, Database.empty]⟩,
      chunkSize := by simp [sampleView, permanentMaximumChunkSize],
      complete := ⟨_, List.mem_singleton.mpr rfl, rfl, rfl⟩, intact := ⟨?_, ?_⟩, ranges := ?_,
      safe := ?_, distinct := ?_, closed := ?_, targets := ?_ } <;> rw [hrows]
  · exact hroot
  · intro e he ht
    refine ⟨[], hfiles e he ht, by simp [(hcolumns e he).1], ?_, [], ?_, rfl⟩
    · exact trivial
    · exact List.Forall₂.nil
  · intro e he
    obtain ⟨hs, hm, hw⟩ := hcolumns e he
    refine ⟨?_, ?_, by simp [hw]⟩
    · rw [hs]
      decide
    · rw [hm]
      decide
  · exact hsafe
  · exact hdistinct
  · intro e he q r hsplit hq hr
    apply hclosed e he q ((List.mem_inits _ _).mpr ⟨r, hsplit.symm⟩) hq
    rintro rfl
    exact hr (by simpa using hsplit)
  · intro e he ht
    exact ⟨_, htargets e he ht, by decide⟩

def neverRows : List EntryRow :=
  fileRows ++ [sampleEntry 4 (ascii "l") .symbolicLink none (some (ascii "/etc"))]

/-- A destination that has a file where the snapshot has a directory. -/
def occupiedTree : Tree := fun p =>
  if p = [] ∨ p = [ascii "d"] then some (.directory ⟨0o755, 0⟩)
  else if p = [ascii "d", ascii "a"] then some (.file [1] ⟨0o644, 7⟩) else none

theorem occupiedTree_wellFormed : WellFormed occupiedTree := by
  refine ⟨⟨_, rfl⟩, ?_⟩
  intro p n hn
  have hcase : p ++ [n] = [ascii "d"] ∨ p ++ [n] = [ascii "d", ascii "a"] := by
    by_contra hc
    rw [not_or] at hc
    simp [occupiedTree, hc.1, hc.2] at hn
  rcases hcase with hc | hc
  · have : p = [] := by simpa using congrArg List.dropLast hc
    rw [this]
    exact ⟨_, rfl⟩
  · have : p = [ascii "d"] := by simpa using congrArg List.dropLast hc
    rw [this]
    exact ⟨_, rfl⟩

theorem sequenceName_long (n : Nat) : 24 ≤ (sequenceName n).length := by
  have h : (restorePrefix ++ restoreSuffix).length = 24 := by decide
  simp only [sequenceName, List.length_append] at h ⊢
  omega

/-- The temporary names with the numbers 0 to 99. -/
def isEarlyName (name : Name) : Bool :=
  let digits := (name.drop restorePrefix.length).take (name.length - 24)
  name == restorePrefix ++ digits ++ restoreSuffix && digits.all (fun c => 48 ≤ c && c ≤ 57) &&
    (digits.length == 1 || (digits.length == 2 && digits.head? != some 48))

/-- A destination in which the first hundred temporary names are taken. -/
def crowdedTree : Tree
  | [] => some (.directory ⟨0o755, 0⟩)
  | [c] => if c = ascii "d" ∨ c = ascii "r" then some (.directory ⟨0o755, 0⟩) else none
  | [c, name] =>
    if c = ascii "d" ∧ isEarlyName name then some (.file [] ⟨0o644, 0⟩) else none
  | _ => none

theorem crowdedTree_wellFormed : WellFormed crowdedTree := by
  refine ⟨⟨_, rfl⟩, ?_⟩
  intro p n hn
  match p with
  | [] => exact ⟨_, rfl⟩
  | [c] =>
    have hc : c = ascii "d" := by
      by_contra hc
      simp [crowdedTree, hc] at hn
    rw [hc]
    exact ⟨_, rfl⟩
  | _ :: _ :: rest =>
    cases rest <;> exact absurd rfl hn

end LocalVault.Restore
