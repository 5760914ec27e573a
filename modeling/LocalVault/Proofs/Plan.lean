import LocalVault.Proofs.Phases

namespace LocalVault.Restore
open Library Library.FileTree Library.Program

/-- What `build_plan` decides for a list of entries, over the tree it saw. -/
inductive Planned (request : RestoreRequest) (root : Path) (t : Tree) :
    List (List Name) → List EntryInfo → List PlannedEntry → Prop
  | done {skipped : List (List Name)} : Planned request root t skipped [] []
  | root {skipped : List (List Name)} {e : EntryInfo} {es : List EntryInfo}
      {ps : List PlannedEntry} : e.relativePath = [] → Planned request root t skipped es ps →
      Planned request root t skipped (e :: es) (⟨e, .mergeDirectory, true⟩ :: ps)
  | under {skipped : List (List Name)} {e : EntryInfo} {es : List EntryInfo}
      {ps : List PlannedEntry} (s : List Name) : e.relativePath ≠ [] → s ∈ skipped →
      s <+: components e.relativePath → Planned request root t skipped es ps →
      Planned request root t skipped (e :: es) (⟨e, .skip, false⟩ :: ps)
  | free {skipped : List (List Name)} {e : EntryInfo} {es : List EntryInfo}
      {ps : List PlannedEntry} : e.relativePath ≠ [] →
      (∀ s ∈ skipped, ¬ s <+: components e.relativePath) →
      Clear t root (parentComponents e.relativePath) →
      t (root ++ components e.relativePath) = none → Planned request root t skipped es ps →
      Planned request root t skipped (e :: es) (⟨e, .create, true⟩ :: ps)
  | conflict {skipped : List (List Name)} {e : EntryInfo} {es : List EntryInfo}
      {ps : List PlannedEntry} {node : Node} {action : RestoreAction} : e.relativePath ≠ [] →
      (∀ s ∈ skipped, ¬ s <+: components e.relativePath) →
      Clear t root (parentComponents e.relativePath) →
      t (root ++ components e.relativePath) = some node →
      conflictAction request e (root ++ components e.relativePath) node = .ok action →
      Planned request root t
        (if action = .skip ∧ e.type = .directory then skipped ++ [components e.relativePath]
         else skipped) es ps →
      Planned request root t skipped (e :: es) (⟨e, action, action ≠ .skip⟩ :: ps)

section Run

variable {h : Host} {request : RestoreRequest} {root : Path} {w : World}

theorem any_skipped {skipped : List (List Name)} {path : List Name} :
    skipped.any (fun s => isComponentPrefix s path) = true ↔ ∃ s ∈ skipped, s <+: path := by
  simp [List.any_eq_true, isComponentPrefix_iff]

/-- Why a plan can fail: a call, or an entry that no skipped directory covers
and that has an ancestor that is not a directory, or whose conflict is decided
so. -/
def PlanRejected (h : Host) (request : RestoreRequest) (root : Path) (t : Tree)
    (skipped : List (List Name)) (entries : List EntryInfo) : Prop :=
  Troubled h ∨
    ∃ before e after plan, entries = before ++ e :: after ∧
      Planned request root t skipped before plan ∧ e.relativePath ≠ [] ∧
      (∀ s ∈ skipped, ¬ s <+: components e.relativePath) ∧
      (∀ d ∈ plan, d.action = .skip → d.entry.type = .directory →
        ¬ components d.entry.relativePath <+: components e.relativePath) ∧
      (Blocked t root (parentComponents e.relativePath) ∨
      ∃ node error, t (root ++ components e.relativePath) = some node ∧
        conflictAction request e (root ++ components e.relativePath) node = .error error)

/-- A failure behind one more entry of the plan. -/
theorem PlanRejected.cons {t : Tree} {e : EntryInfo} {es : List EntryInfo} {p : PlannedEntry}
    {skipped s : List (List Name)} (hr : PlanRejected h request root t s es)
    (step : ∀ es ps, Planned request root t s es ps →
      Planned request root t skipped (e :: es) (p :: ps))
    (sub : ∀ n ∈ skipped, n ∈ s)
    (covered : p.action = .skip → p.entry.type = .directory →
      ∃ n ∈ s, n <+: components p.entry.relativePath) :
    PlanRejected h request root t skipped (e :: es) := by
  rcases hr with ht | ⟨before, d, after, plan, he, hplan, hne, hfree, hcover, hx⟩
  · exact Or.inl ht
  · refine Or.inr ⟨e :: before, d, after, p :: plan, by simp [he], step before plan hplan, hne,
      fun n hn => hfree n (sub n hn), ?_, hx⟩
    intro q hq hskip hdir hpre
    rcases List.mem_cons.mp hq with rfl | hq
    · obtain ⟨n, hn, hle⟩ := covered hskip hdir
      exact hfree n hn (hle.trans hpre)
    · exact hcover q hq hskip hdir hpre

theorem entry_visible {t : Tree} {e : EntryInfo} (hw : WellFormed t) (hroot : Plain root)
    (hd : IsDirectory t root) (hvalid : ValidEntry e)
    (hc : Clear t root (parentComponents e.relativePath)) :
    Visible t (root ++ components e.relativePath) := by
  rcases hvalid with ⟨hr, _⟩ | hv
  · rw [hr]
    simpa [components, names, pieces] using visible_directory hw hroot hd
  · obtain ⟨d, n, hn⟩ := split_last (safe_components hv).2.1
    have hpar : parentComponents e.relativePath = d := by simp [parentComponents, hn]
    have hp : Plain (root ++ d ++ [n]) := by
      have := hroot.append (ValidEntry.components_plain (Or.inr hv))
      rw [hn] at this
      simpa using this
    rw [hpar] at hc
    have := hc.visible hw hp
    rw [hn]
    simpa using this

theorem planFrom_planned (hw : WellFormed w.tree) (hroot : Plain root)
    (hd : IsDirectory w.tree root) (entries : List EntryInfo)
    (hvalid : ∀ e ∈ entries, ValidEntry e) (skipped : List (List Name)) :
    (planFrom h request root skipped entries).wp
      (fun plan w' => Quiet w w' ∧ Planned request root w.tree skipped entries plan)
      (fun _ w' => Quiet w w' ∧ PlanRejected h request root w.tree skipped entries) w := by
  -- the tree stays while the calls are counted, so the statement moves along `Quiet`
  suffices hgo : ∀ (v : World), Quiet w v → (planFrom h request root skipped entries).wp
      (fun plan w' => Quiet w w' ∧ Planned request root w.tree skipped entries plan)
      (fun _ w' => Quiet w w' ∧ PlanRejected h request root w.tree skipped entries) v from
    hgo w (Quiet.refl w)
  intro v hv
  induction entries generalizing skipped v with
  | nil => exact ⟨hv, .done⟩
  | cons e es ih =>
    have hvalid' : ∀ d ∈ es, ValidEntry d := fun d hm => hvalid d (List.mem_cons_of_mem _ hm)
    have next : ∀ (s : List (List Name)) (p : PlannedEntry) (u : World), Quiet w u →
        (∀ es ps, Planned request root w.tree s es ps →
          Planned request root w.tree skipped (e :: es) (p :: ps)) →
        (∀ n ∈ skipped, n ∈ s) →
        (p.action = .skip → p.entry.type = .directory →
          ∃ n ∈ s, n <+: components p.entry.relativePath) →
        (planFrom h request root s es >>= fun rest => pure (p :: rest)).wp
          (fun plan w' => Quiet w w' ∧ Planned request root w.tree skipped (e :: es) plan)
          (fun _ w' => Quiet w w' ∧ PlanRejected h request root w.tree skipped (e :: es)) u := by
      intro s p u hu hp hsub hcover
      rw [wp_bind]
      refine wp_mono (ih hvalid' s u hu) ?_ ?_
      · rintro rest w' ⟨hq, hr⟩
        exact ⟨hq, hp es rest hr⟩
      · rintro _ w' ⟨hq, hx⟩
        exact ⟨hq, hx.cons hp hsub hcover⟩
    unfold planFrom
    simp only [wp_ite]
    split
    · rename_i hr
      exact next _ _ v hv (fun _ _ hp => .root hr hp) (fun _ h => h) (by simp)
    · rename_i hr
      split
      · rename_i hs
        obtain ⟨s, hs, hpre⟩ := any_skipped.mp hs
        exact next _ _ v hv (fun _ _ hp => .under s hr hs hpre hp) (fun _ h => h)
          (fun _ _ => ⟨s, hs, hpre⟩)
      · rename_i hs
        have hfree : ∀ s ∈ skipped, ¬ s <+: components e.relativePath := by
          intro s hm hpre
          exact hs (any_skipped.mpr ⟨s, hm, hpre⟩)
        rw [wp_bind]
        have hpl := hroot.append (hvalid e (by simp)).components_plain
        apply wp_requireSafeAncestors (by rw [hv.tree]; exact hw) hpl (by rw [hv.tree]; exact hd)
        · intro v₁ hq₁ hc
          have hv₁ := hv.trans hq₁
          rw [hv.tree] at hc
          rw [wp_bind]
          apply wp_existingStatus
          · rw [hv₁.tree]
            exact entry_visible hw hroot hd (hvalid e (by simp)) hc
          · intro v₂ hq₂
            rw [hv₁.tree, wp_bind, wp_ofExcept]
            cases hn : w.tree (root ++ components e.relativePath) with
            | none =>
              have := next skipped ⟨e, .create, true⟩ v₂ (hv₁.trans hq₂)
                (fun _ _ hp => .free hr hfree hc hn hp) (fun _ h => h) (by simp)
              simpa using this
            | some node =>
              dsimp only
              cases ha : conflictAction request e (root ++ components e.relativePath) node with
              | error error =>
                exact ⟨hv₁.trans hq₂, Or.inr ⟨[], e, es, [], rfl, .done, hr, hfree, by simp,
                  Or.inr ⟨node, error, hn, ha⟩⟩⟩
              | ok action =>
                refine next _ _ v₂ (hv₁.trans hq₂)
                  (fun _ _ hp => .conflict hr hfree hc hn ha hp) ?_ ?_
                · intro n hm
                  split
                  · exact List.mem_append_left _ hm
                  · exact hm
                · intro hskip hdir
                  refine ⟨components e.relativePath, ?_, List.prefix_rfl⟩
                  dsimp only at hskip hdir
                  rw [if_pos ⟨hskip, hdir⟩]
                  simp
          · exact fun _ v₂ ht hq₂ => ⟨hv₁.trans hq₂, Or.inl ht⟩
        · intro _ v₁ hq₁ hx
          rw [hv.tree] at hx
          rcases hx with hx | hx
          · exact ⟨hv.trans hq₁, Or.inl hx⟩
          · exact ⟨hv.trans hq₁, Or.inr ⟨[], e, es, [], rfl, .done, hr, hfree, by simp, Or.inl hx⟩⟩

end Run

section Facts

variable {request : RestoreRequest} {root : Path} {t : Tree} {skipped : List (List Name)}
  {entries : List EntryInfo} {plan : List PlannedEntry}

theorem Planned.map_entry (h : Planned request root t skipped entries plan) :
    plan.map PlannedEntry.entry = entries := by
  induction h with
  | done => rfl
  | root _ _ ih => simp [ih]
  | under _ _ _ _ _ ih => simp [ih]
  | free _ _ _ _ _ ih => simp [ih]
  | conflict _ _ _ _ _ _ ih => simp [ih]

theorem Planned.mem_entries (h : Planned request root t skipped entries plan) {p : PlannedEntry}
    (hp : p ∈ plan) : p.entry ∈ entries := by
  rw [← h.map_entry]
  exact List.mem_map_of_mem hp

/-- A directory that was skipped takes everything below it along. -/
theorem Planned.skip_known (h : Planned request root t skipped entries plan) {s : List Name}
    (hs : s ∈ skipped) {p : PlannedEntry} (hp : p ∈ plan) (hne : p.entry.relativePath ≠ [])
    (hpre : s <+: components p.entry.relativePath) : p.action = .skip := by
  induction h with
  | done => cases hp
  | root hr _ ih =>
    rcases List.mem_cons.mp hp with rfl | hp
    · exact absurd hr hne
    · exact ih hs hp
  | under _ _ _ _ _ ih =>
    rcases List.mem_cons.mp hp with rfl | hp
    · rfl
    · exact ih hs hp
  | free _ hfree _ _ _ ih =>
    rcases List.mem_cons.mp hp with rfl | hp
    · exact absurd hpre (hfree s hs)
    · exact ih hs hp
  | conflict _ hfree _ _ _ _ ih =>
    rcases List.mem_cons.mp hp with rfl | hp
    · exact absurd hpre (hfree s hs)
    · apply ih _ hp
      split
      · exact List.mem_append_left _ hs
      · exact hs

theorem Planned.skip_below (h : Planned request root t skipped entries plan)
    {before after : List PlannedEntry} {d p : PlannedEntry} (he : plan = before ++ d :: after)
    (hd : d.action = .skip) (ht : d.entry.type = .directory) (hp : p ∈ after)
    (hne : p.entry.relativePath ≠ [])
    (hpre : components d.entry.relativePath <+: components p.entry.relativePath) :
    p.action = .skip := by
  induction h generalizing before with
  | done => simp at he
  | root hr hrest ih =>
    rcases List.cons_eq_append_iff.mp he with ⟨_, he⟩ | ⟨b, _, he⟩
    · cases he
      cases hd
    · exact ih he
  | under s hr hs hpre' hrest ih =>
    rcases List.cons_eq_append_iff.mp he with ⟨_, he⟩ | ⟨b, _, he⟩
    · cases he
      exact hrest.skip_known hs hp hne (hpre'.trans hpre)
    · exact ih he
  | free hr hfree hc hn hrest ih =>
    rcases List.cons_eq_append_iff.mp he with ⟨_, he⟩ | ⟨b, _, he⟩
    · cases he
      cases hd
    · exact ih he
  | conflict hr hfree hc hn ha hrest ih =>
    rcases List.cons_eq_append_iff.mp he with ⟨_, he⟩ | ⟨b, _, he⟩
    · cases he
      dsimp only at hd ht hpre
      refine hrest.skip_known (s := _) ?_ hp hne hpre
      simp [hd, ht]
    · exact ih he

/-- The decision on one entry of the plan. -/
inductive Decision (request : RestoreRequest) (root : Path) (t : Tree) (plan : List PlannedEntry)
    (p : PlannedEntry) : Prop
  | root : p.entry.relativePath = [] → p.action = .mergeDirectory → p.metadataAllowed = true →
      Decision request root t plan p
  | under (d : PlannedEntry) : p.entry.relativePath ≠ [] → d ∈ plan → d.action = .skip →
      d.entry.type = .directory →
      components d.entry.relativePath <+: components p.entry.relativePath → p.action = .skip →
      p.metadataAllowed = false → Decision request root t plan p
  | free : p.entry.relativePath ≠ [] → Clear t root (parentComponents p.entry.relativePath) →
      t (root ++ components p.entry.relativePath) = none → p.action = .create →
      p.metadataAllowed = true → Decision request root t plan p
  | conflict (node : Node) : p.entry.relativePath ≠ [] →
      Clear t root (parentComponents p.entry.relativePath) →
      t (root ++ components p.entry.relativePath) = some node →
      conflictAction request p.entry (root ++ components p.entry.relativePath) node = .ok p.action →
      p.metadataAllowed = decide (p.action ≠ .skip) → Decision request root t plan p

theorem Planned.decisions (h : Planned request root t skipped entries plan)
    {all : List PlannedEntry} (hall : ∀ p ∈ plan, p ∈ all)
    (hskipped : ∀ s ∈ skipped, ∃ d ∈ all, d.action = .skip ∧ d.entry.type = .directory ∧
      components d.entry.relativePath = s) :
    ∀ p ∈ plan, Decision request root t all p := by
  induction h with
  | done => simp
  | root hr _ ih =>
    intro p hp
    rcases List.mem_cons.mp hp with rfl | hp
    · exact .root hr rfl rfl
    · exact ih (fun q hq => hall q (List.mem_cons_of_mem _ hq)) hskipped p hp
  | under s hr hs hpre _ ih =>
    intro p hp
    rcases List.mem_cons.mp hp with rfl | hp
    · obtain ⟨d, hd, ha, ht, rfl⟩ := hskipped s hs
      exact .under d hr hd ha ht hpre rfl rfl
    · exact ih (fun q hq => hall q (List.mem_cons_of_mem _ hq)) hskipped p hp
  | free hr hfree hc hn _ ih =>
    intro p hp
    rcases List.mem_cons.mp hp with rfl | hp
    · exact .free hr hc hn rfl rfl
    · exact ih (fun q hq => hall q (List.mem_cons_of_mem _ hq)) hskipped p hp
  | conflict hr hfree hc hn ha _ ih =>
    intro p hp
    rcases List.mem_cons.mp hp with rfl | hp
    · exact .conflict _ hr hc hn ha rfl
    · refine ih (fun q hq => hall q (List.mem_cons_of_mem _ hq)) ?_ p hp
      intro s hs
      split at hs
      · rename_i hcond
        rcases List.mem_append.mp hs with hs | hs
        · exact hskipped s hs
        · exact ⟨_, hall _ List.mem_cons_self, hcond.1, hcond.2, (List.mem_singleton.mp hs).symm⟩
      · exact hskipped s hs

end Facts

theorem shallowFirst_total (a b : EntryInfo) : shallowFirst a b ∨ shallowFirst b a := by
  unfold shallowFirst
  rcases Nat.lt_trichotomy (pathDepth a.relativePath) (pathDepth b.relativePath) with h | h | h
  · exact Or.inl (Or.inl h)
  · rcases List.le_total (pathKey a.relativePath) (pathKey b.relativePath) with hk | hk
    · exact Or.inl (Or.inr ⟨h, hk⟩)
    · exact Or.inr (Or.inr ⟨h.symm, hk⟩)
  · exact Or.inr (Or.inl h)

theorem shallowFirst_trans {a b c : EntryInfo} (h : shallowFirst a b) (k : shallowFirst b c) :
    shallowFirst a c := by
  unfold shallowFirst at *
  rcases h with h | ⟨h, hk⟩
  · rcases k with k | ⟨k, _⟩
    · exact Or.inl (h.trans k)
    · exact Or.inl (k ▸ h)
  · rcases k with k | ⟨k, kk⟩
    · exact Or.inl (h ▸ k)
    · exact Or.inr ⟨h.trans k, List.le_trans hk kk⟩

instance : Std.Total shallowFirst := ⟨shallowFirst_total⟩

instance : IsTrans EntryInfo shallowFirst := ⟨fun _ _ _ => shallowFirst_trans⟩

/-- In the order of the plan a shallower entry stands in front of a deeper one. -/
theorem shallow_before {selected : List EntryInfo} {plan : List PlannedEntry}
    (he : plan.map PlannedEntry.entry = selected.insertionSort shallowFirst)
    {d p : PlannedEntry} (hd : d ∈ plan) (hp : p ∈ plan)
    (hlt : pathDepth d.entry.relativePath < pathDepth p.entry.relativePath) :
    ∃ before after, plan = before ++ d :: after ∧ p ∈ after := by
  obtain ⟨before, after, rfl⟩ := List.append_of_mem hd
  refine ⟨before, after, rfl, ?_⟩
  rcases List.mem_append.mp hp with hb | hb
  · exfalso
    have hsorted : (List.map PlannedEntry.entry (before ++ d :: after)).Pairwise shallowFirst := by
      rw [he]
      exact List.pairwise_insertionSort _ _
    rw [List.map_append, List.pairwise_append] at hsorted
    have := hsorted.2.2 p.entry (List.mem_map_of_mem hb) d.entry (by simp)
    unfold shallowFirst at this
    omega
  · rcases List.mem_cons.mp hb with rfl | hb
    · exact absurd hlt (Nat.lt_irrefl _)
    · exact hb
/-- Why a restore is rejected before it writes. -/
def RestoreRejected (h : Host) (repository : RepositoryView) (request : RestoreRequest)
    (t : Tree) : Prop :=
  repository.openMode ≠ .readWrite ∨
    (request.overwritePolicy = .prompt ∧ request.conflictResolver.isNone) ∨ Troubled h ∨
    request.destinationRoot = [] ∨
    Blocked t [] (lexicalDestination h.currentDirectory request.destinationRoot) ∨
    (isComponentPrefix repository.resolvedRoot
        (lexicalDestination h.currentDirectory request.destinationRoot) = true ∨
      isComponentPrefix (lexicalDestination h.currentDirectory request.destinationRoot)
        repository.resolvedRoot = true) ∨
    ∃ e, loadSelection repository request = .error e

/-- A restore is rejected before it writes, or it writes behind its checks. -/
theorem wp_restore {x : Externals} {h : Host} {repository : RepositoryView}
    {request : RestoreRequest} {w : World} {Q : RestoreResult → World → Prop}
    {E : LocalVaultError → World → Prop} (hw : WellFormed w.tree)
    (rejected : ∀ e w', Quiet w w' → RestoreRejected h repository request w.tree → E e w')
    (started : ∀ w' selected chunks, Quiet w w' →
      Clear w.tree [] (lexicalDestination h.currentDirectory request.destinationRoot) →
      loadSelection repository request = .ok (selected, chunks) →
      (restoreSelected x h repository request
        (lexicalDestination h.currentDirectory request.destinationRoot) selected chunks).wp Q E w') :
    (restore x h repository request).wp Q E w := by
  unfold restore
  simp only [wp_ite]
  split
  · exact rejected _ w (Quiet.refl w) (Or.inl ‹_›)
  split
  · exact rejected _ w (Quiet.refl w) (Or.inr (Or.inl ‹_›))
  rw [wp_bind]
  refine wp_checkCancelled ?_
    (fun e w' ht hq => rejected e w' hq (Or.inr (Or.inr (Or.inl ht))))
  intro w₁ hq₁
  unfold normalizedDestination
  simp only [wp_bind, wp_ite]
  split
  · exact rejected _ w₁ hq₁ (Or.inr (Or.inr (Or.inr (Or.inl ‹_›))))
  have hroot := lexicalDestination_plain h.currentDirectory request.destinationRoot
  generalize hdest : lexicalDestination h.currentDirectory request.destinationRoot = root at *
  have hloop : (requireRealOrMissing h "restore destination has a link or reparse-point ancestor"
      "restore destination has a non-directory ancestor" (root.inits.tail.map ([] ++ ·))).wp
      (fun _ w' => Quiet w w' ∧ Clear w.tree [] root) E w₁ := by
    apply wp_requireRealOrMissing (by rw [hq₁.tree]; exact hw) (by simpa using hroot)
      (by rw [hq₁.tree]; exact hw.root) (fun w' hq hc => ⟨hq₁.trans hq, hq₁.tree ▸ hc⟩)
    intro e w' hq hx
    rw [hq₁.tree] at hx
    refine rejected e w' (hq₁.trans hq) (Or.inr (Or.inr ?_))
    rcases hx with ht | hb
    · exact Or.inl ht
    · exact Or.inr (Or.inr (Or.inl (hdest ▸ hb)))
  simp only [List.nil_append, List.map_id'] at hloop
  refine wp_mono hloop ?_ (fun _ _ he => he)
  rintro _ w₂ ⟨hq₂, hc⟩
  split
  · refine rejected _ w₂ hq₂ (Or.inr (Or.inr (Or.inr (Or.inr (Or.inr (Or.inl ?_))))))
    rw [hdest]
    assumption
  simp only [wp_pure]
  refine wp_callback ?_
    (fun e w' ht hq => rejected e w' (hq₂.trans hq) (Or.inr (Or.inr (Or.inl ht))))
  intro w₃ hq₃
  rw [wp_ofExcept]
  cases hload : loadSelection repository request with
  | error e =>
    exact rejected e w₃ (hq₂.trans hq₃)
      (Or.inr (Or.inr (Or.inr (Or.inr (Or.inr (Or.inr ⟨e, hload⟩))))))
  | ok r => exact started w₃ r.1 r.2 (hq₂.trans hq₃) hc hload

end LocalVault.Restore
