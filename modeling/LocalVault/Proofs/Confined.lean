import LocalVault.Proofs.Plan

namespace LocalVault.Restore
open Library Library.FileTree Library.Program

/-- The paths a restore may create, replace, remove or change the metadata of. -/
inductive Permitted (root : Path) (selected : List EntryInfo) (t : Tree) : Path → Prop
  | root : Permitted root selected t root
  | ancestor {p : Path} : p <+: root → t p = none → Permitted root selected t p
  | entry {e : EntryInfo} : e ∈ selected → isSafeStoredPath e.relativePath = true →
      Permitted root selected t (root ++ components e.relativePath)
  | temporary {e : EntryInfo} {n : Name} : e ∈ selected →
      isSafeStoredPath e.relativePath = true → TemporaryName n →
      Permitted root selected t (root ++ parentComponents e.relativePath ++ [n])

/-- A mutation that stays below the destination, also after the paths it names
have been resolved. -/
structure Confined (root : Path) (selected : List EntryInfo) (m : Mutation) : Prop where
  permitted : ∀ p ∈ m.paths, Permitted root selected m.before p
  direct : ∀ p ∈ m.paths, Direct m.before p
  noLink : ∀ p ∈ m.paths, ∀ q, root <+: q → q <+: p → q ≠ root → q ≠ p →
    ∀ target, m.before q ≠ some (.link target)

/-- Nothing but the paths named by the mutations has changed, directory times
apart. -/
def History : Tree → List Mutation → Prop
  | _, [] => True
  | after, m :: earlier => Edit m.paths m.before after ∧ History m.before earlier

structure Safe (root : Path) (selected : List EntryInfo) (w : World) : Prop where
  wellFormed : WellFormed w.tree
  history : History w.tree w.mutations
  confined : ∀ m ∈ w.mutations, Confined root selected m

section Safe

variable {root : Path} {selected : List EntryInfo} {w : World} {h : Host}

theorem confined_of_direct {t : Tree} (hw : WellFormed t) {paths : List Path}
    (hp : ∀ p ∈ paths, Permitted root selected t p ∧ Direct t p) :
    Confined root selected ⟨paths, t⟩ where
  permitted p hm := (hp p hm).1
  direct p hm := (hp p hm).2
  noLink p hm q _ hqp _ hne target := by
    have hpn : p ≠ [] := by
      rintro rfl
      exact hne (List.prefix_nil.mp hqp)
    obtain ⟨d, n, rfl⟩ := split_last hpn
    have hd := (hp _ hm).2.parent hpn
    rw [List.dropLast_concat] at hd
    rcases List.prefix_concat_iff.mp hqp with he | ⟨r, rfl⟩
    · exact absurd he hne
    · obtain ⟨st, hst⟩ := hw.ancestors hd
      simp [hst]

theorem Safe.stable : Stable (Safe root selected) := by
  intro w w' hs hw
  refine ⟨?_, ?_, ?_⟩
  · rw [hs.tree]
    exact hw.wellFormed
  · rw [hs.tree, hs.mutations]
    exact hw.history
  · rw [hs.mutations]
    exact hw.confined

theorem Safe.mutate (hs : Safe root selected w) {paths : List Path} {t : Tree}
    (he : Edit paths w.tree t) (hp : ∀ p ∈ paths, Permitted root selected w.tree p ∧
      Direct w.tree p) : Safe root selected (w.mutate paths t).tick where
  wellFormed := he.wellFormed hs.wellFormed
  history := ⟨he, hs.history⟩
  confined m hm := by
    rcases List.mem_cons.mp hm with rfl | hm
    · exact confined_of_direct hs.wellFormed hp
    · exact hs.confined m hm

/-- Safe, with some directories known to stand. -/
def SafeAt (root : Path) (selected : List EntryInfo) (directories : List Path) (w : World) : Prop :=
  Safe root selected w ∧ ∀ d ∈ directories, IsDirectory w.tree d

theorem SafeAt.stable {directories : List Path} : Stable (SafeAt root selected directories) := by
  intro w w' hs hw
  refine ⟨Safe.stable w w' hs hw.1, ?_⟩
  rw [hs.tree]
  exact hw.2

theorem SafeAt.mutate {directories : List Path} (hs : SafeAt root selected directories w)
    {paths : List Path} {t : Tree} (he : Edit paths w.tree t)
    (hp : ∀ p ∈ paths, Permitted root selected w.tree p ∧ Direct w.tree p) :
    SafeAt root selected directories (w.mutate paths t).tick :=
  ⟨hs.1.mutate he hp, fun d hd => he.directories d (hs.2 d hd)⟩

theorem SafeAt.weaken {ds ds' : List Path} (hs : SafeAt root selected ds w)
    (hd : ∀ d ∈ ds', d ∈ ds) : SafeAt root selected ds' w :=
  ⟨hs.1, fun d hm => hs.2 d (hd d hm)⟩

end Safe

section Phases

variable {c : Context} {selected : List EntryInfo} {e : EntryInfo} {w : World}

/-- The entry and the temporaries next to it may be touched. -/
theorem sibling_permitted {name : Name} (hmem : e ∈ selected)
    (hv : isSafeStoredPath e.relativePath = true) (hname : TemporaryName name) (t : Tree) :
    ∀ p ∈ [c.parent e ++ [name], c.destination e],
      Permitted c.root selected t p := by
  intro p hm
  simp only [List.mem_cons, List.not_mem_nil, or_false] at hm
  rcases hm with rfl | rfl
  · exact .temporary hmem hv hname
  · exact .entry hmem hv

theorem SafeAt.ready {directories : List Path} (hs : SafeAt c.root selected directories w)
    (hd : c.root ∈ directories) (hroot : Plain c.root) (hvalid : ValidEntry e) :
    Ready c e w :=
  ⟨hs.1.wellFormed, hs.2 _ hd, hroot, hvalid⟩

/-- Safe, with a temporary next to the entry that is not a directory. -/
structure Scoped (c : Context) (selected : List EntryInfo) (e : EntryInfo) (name : Name)
    (w : World) : Prop where
  safe : SafeAt c.root selected [c.root, c.parent e] w
  plain : ¬ IsDirectory w.tree (c.parent e ++ [name])

theorem Scoped.stable {name : Name} : Stable (Scoped c selected e name) := by
  intro w w' hs h
  refine ⟨SafeAt.stable w w' hs h.safe, ?_⟩
  rw [hs.tree]
  exact h.plain

section Scope

variable (hmem : e ∈ selected) (hvalid : ValidEntry e) (hroot : Plain c.root)
include hmem hvalid hroot

theorem scoped_created {name : Name} {t : Tree} {node : Node} {now : Int} {v : World}
    (hv : isSafeStoredPath e.relativePath = true) (hname : TemporaryName name)
    (hs : SafeAt c.root selected [c.root] w) (hw : Still w v)
    (hd : IsDirectory w.tree (c.parent e)) (hnode : ∀ st, node ≠ .directory st)
    (ht : create w.tree (c.parent e ++ [name]) node now = .ok t) :
    Scoped c selected e name
      (v.mutate [c.parent e ++ [name]] t).tick := by
  have hs' := SafeAt.stable w v hw hs
  have ready := hs'.ready (e := e) (by simp) hroot hvalid
  rw [← hw.tree] at ht hd
  have hdir := ready.direct hd name
  have he := create_edit ready.wellFormed hdir ht
  obtain ⟨_, rfl⟩ := create_direct hdir ht
  refine ⟨⟨(hs'.mutate he ?_).1, ?_⟩, ?_⟩
  · intro p hp
    rw [List.mem_singleton.mp hp]
    exact ⟨.temporary hmem hv hname, hdir⟩
  · intro d hm
    simp only [List.mem_cons, List.not_mem_nil, or_false] at hm
    rcases hm with rfl | rfl
    · exact he.directories _ ready.root
    · exact he.directories _ hd
  · rintro hx
    obtain ⟨st, hst⟩ := (touch_directory now).mp hx
    rw [set_same] at hst
    exact hnode st (Option.some.inj hst)

theorem scoped_edited {name : Name} {t : Tree}
    (hv : isSafeStoredPath e.relativePath = true) (hname : TemporaryName name)
    (hs : Scoped c selected e name w)
    (he : Edit [c.parent e ++ [name]] w.tree t)
    (hn : ¬ IsDirectory t (c.parent e ++ [name])) :
    Scoped c selected e name
      (w.mutate [c.parent e ++ [name]] t).tick := by
  refine ⟨hs.safe.mutate he ?_, hn⟩
  intro p hp
  rw [List.mem_singleton.mp hp]
  exact ⟨.temporary hmem hv hname, (hs.safe.ready (by simp) hroot hvalid).direct
    (hs.safe.2 _ (by simp)) name⟩

theorem scoped_renamed {name : Name} {t : Tree} {now : Int} {replace : Bool}
    (hv : isSafeStoredPath e.relativePath = true) (hname : TemporaryName name)
    (hs : Scoped c selected e name w)
    (ht : rename w.tree (c.parent e ++ [name]) (c.destination e) replace
      now = .ok t) :
    Scoped c selected e name
      (w.mutate [c.parent e ++ [name], c.destination e] t).tick := by
  obtain ⟨last, hlast, _⟩ := destination_eq (c := c) hv
  have ready := hs.safe.ready (e := e) (by simp) hroot hvalid
  have hd := hs.safe.2 (c.parent e) (by simp)
  have hdir := ready.direct hd name
  have hdest : Direct w.tree (c.destination e) := by
    rw [hlast]
    exact ready.direct hd last
  refine ⟨hs.safe.mutate (rename_edit ready.wellFormed hdir hdest ht) ?_, ?_⟩
  · intro p hp
    refine ⟨sibling_permitted hmem hv hname _ p hp, ?_⟩
    simp only [List.mem_cons, List.not_mem_nil, or_false] at hp
    rcases hp with rfl | rfl
    · exact hdir
    · exact hdest
  · obtain ⟨n, hn, hp, hq, _, ⟨_, rfl⟩ | ⟨hne, rfl⟩⟩ := rename_direct hdir hdest ht
    · exact hs.plain
    · intro hx
      obtain ⟨st, hst⟩ := (touch_directory now).mp ((touch_directory now).mp hx)
      rw [set_other _ _ hne, set_same] at hst
      cases hst

/-- The scope ends with the removal of the temporary. -/
theorem scoped_closed {name : Name} (hv : isSafeStoredPath e.relativePath = true)
    (hname : TemporaryName name) (hs : Scoped c selected e name w) :
    SafeAt c.root selected [c.root]
      (removeQuietly c.host (c.parent e ++ [name]) w) := by
  have ready := hs.safe.ready (e := e) (by simp) hroot hvalid
  have hdir := ready.direct (hs.safe.2 _ (by simp)) name
  rcases removeQuietly_cases (h := c.host) hdir hs.plain with ⟨hq, _⟩ | ⟨t, now, ht, he⟩
  · exact SafeAt.stable w _ hq.still (hs.safe.weaken (by simp))
  · rw [he]
    refine (hs.safe.weaken (by simp)).mutate (unlink_edit hdir ht) ?_
    intro p hp
    rw [List.mem_singleton.mp hp]
    exact ⟨.temporary hmem hv hname, hdir⟩

end Scope

section Entry

variable {planned : PlannedEntry} (hmem : planned.entry ∈ selected)
  (hvalid : ValidEntry planned.entry) (hroot : Plain c.root)
include hmem hvalid hroot

theorem restoreDirectory_safe :
    Maintains (SafeAt c.root selected [c.root]) (restoreDirectory c planned) := by
  intro w hw
  have ready := hw.ready (e := planned.entry) (by simp) hroot hvalid
  apply wp_restoreDirectory ready
  · exact fun w' hq _ => SafeAt.stable w w' hq.still hw
  · exact fun w' hq _ _ => SafeAt.stable w _ ⟨hq.tree, hq.mutations⟩ hw
  · exact fun w' hq _ _ _ => SafeAt.stable w _ ⟨hq.tree, hq.mutations⟩ hw
  · intro w' t now hq _ _ hdir ht
    have hw' := SafeAt.stable w w' hq.still hw
    rw [← hq.tree] at hdir ht
    refine SafeAt.stable (w'.mutate [c.destination planned.entry] t).tick _ ⟨rfl, rfl⟩
      (hw'.mutate (create_edit hw'.1.wellFormed hdir ht) ?_)
    intro p hp
    rw [List.mem_singleton.mp hp]
    refine ⟨?_, hdir⟩
    rcases hvalid with ⟨hr, _⟩ | hv
    · rw [destination_root hr]
      exact .root
    · exact .entry hmem hv
  · exact fun _ w' hq _ => SafeAt.stable w w' hq.still hw

theorem restoreFile_safe :
    Maintains (SafeAt c.root selected [c.root]) (restoreFile c planned) := by
  intro w hw
  have ready := hw.ready (e := planned.entry) (by simp) hroot hvalid
  by_cases htype : planned.entry.type = .regularFile
  case neg =>
    unfold restoreFile
    simp [htype, hw]
  have hv := ready.safe (by simp [htype])
  apply wp_restoreFile ready (J := fun name content st v => TemporaryName name ∧
    v.tree (c.parent planned.entry ++ [name]) = some (.file content st) ∧
    Scoped c selected planned.entry name v)
  case isOpen =>
    intro name
    refine ⟨?_, ?_, ?_, ?_⟩
    · rintro content st v v' hq ⟨hn, hf, hs⟩
      exact ⟨hn, by rw [hq.tree]; exact hf, Scoped.stable v v' hq.still hs⟩
    · exact fun content st v hj => hj.2.1
    · rintro content st v t bytes now ⟨hn, hf, hs⟩ ht
      have hfile := append_file hf ht
      exact ⟨hn, hfile, scoped_edited hmem hvalid hroot hv hn hs (append_edit ht)
        (not_directory_file hfile)⟩
    · rintro content st v t f ⟨hn, hf, hs⟩ ht
      have hfile := restamped_file hf ht
      exact ⟨hn, hfile, scoped_edited hmem hvalid hroot hv hn hs (restamp_edit ht)
        (not_directory_file hfile)⟩
  case good =>
    rintro name content st v ⟨_, _, hs⟩
    exact ⟨hs.safe.ready (by simp) hroot hvalid, hs.safe.2 _ (by simp)⟩
  case other => exact fun hne => absurd htype hne
  case skipped => exact fun w' hq _ _ => SafeAt.stable w _ ⟨hq.tree, hq.mutations⟩ hw
  case opened =>
    intro w' t n now hq _ _ hd ht
    have hname := randomTemporaryName_temporary (c.host.entropy n)
    refine ⟨hname, created_file (ready.direct hd _) ht, ?_⟩
    exact scoped_created hmem hvalid hroot hv hname hw hq.still hd (by simp) ht
  case published =>
    rintro name parts st warning v t now ⟨hn, _, hs⟩ _ _ _ ht
    have hren := scoped_renamed hmem hvalid hroot hv hn hs ht
    constructor
    · intro v' hr
      exact scoped_closed hmem hvalid hroot hv hn (Scoped.stable _ v' ⟨hr.tree, hr.mutations⟩ hren)
    · intro e v' hst _
      exact scoped_closed hmem hvalid hroot hv hn (Scoped.stable _ v' ⟨hst.tree, hst.mutations⟩ hren)
  case refused =>
    rintro name content st v ⟨hn, _, hs⟩ _ _ _
    exact scoped_closed hmem hvalid hroot hv hn (Scoped.stable v _ ⟨rfl, rfl⟩ hs)
  case broken =>
    rintro name content st v e ⟨hn, _, hs⟩ _ _
    exact scoped_closed hmem hvalid hroot hv hn hs
  case failed => exact fun _ w' hq _ => SafeAt.stable w w' hq.still hw

theorem restoreLink_safe :
    Maintains (SafeAt c.root selected [c.root]) (restoreLink c planned) := by
  intro w hw
  have ready := hw.ready (e := planned.entry) (by simp) hroot hvalid
  by_cases htype : planned.entry.type = .symbolicLink
  case neg =>
    unfold restoreLink
    simp [htype, hw]
  have hv := ready.safe (by simp [htype])
  apply wp_restoreLink ready (J := fun number target v =>
    v.tree (linkTemporary c planned number) = some (.link target) ∧
    Scoped c selected planned.entry (sequenceName number) v)
  case steady =>
    rintro number target v v' hq ⟨hf, hs⟩
    exact ⟨by rw [hq.tree]; exact hf, Scoped.stable v v' hq.still hs⟩
  case good =>
    rintro number target v ⟨hf, hs⟩
    exact ⟨hs.safe.ready (by simp) hroot hvalid, hs.safe.2 _ (by simp), hf⟩
  case other => exact fun hne => absurd htype hne
  case skipped => exact fun w' hq _ _ => SafeAt.stable w _ ⟨hq.tree, hq.mutations⟩ hw
  case made =>
    intro k target v t now _ _ _ _ _ _ hd hdrawn ht
    have hname := sequenceName_temporary (w.sequence + k)
    refine ⟨created_link (ready.direct hd _) ht, ?_⟩
    exact scoped_created hmem hvalid hroot hv hname hw hdrawn.toStill hd (by simp) ht
  case published =>
    rintro number target v t now ⟨_, hs⟩ _ ht v' hq
    have hn := sequenceName_temporary number
    have hren := scoped_renamed hmem hvalid hroot hv hn hs ht
    exact ⟨scoped_closed hmem hvalid hroot hv hn
        (Scoped.stable _ v'.countLink ⟨hq.tree, hq.mutations⟩ hren),
      fun e _ => scoped_closed hmem hvalid hroot hv hn
        (Scoped.stable _ v' ⟨hq.tree, hq.mutations⟩ hren)⟩
  case refused =>
    rintro number target v ⟨_, hs⟩ _ _
    exact scoped_closed hmem hvalid hroot hv (sequenceName_temporary number)
      (Scoped.stable v _ ⟨rfl, rfl⟩ hs)
  case broken =>
    rintro number target v e ⟨_, hs⟩ _
    exact scoped_closed hmem hvalid hroot hv (sequenceName_temporary number) hs
  case failed => exact fun _ w' hs _ => SafeAt.stable w w' hs hw

theorem restoreDirectoryMetadata_safe :
    Maintains (SafeAt c.root selected [c.root]) (restoreDirectoryMetadata c planned) := by
  intro w hw
  have ready := hw.ready (e := planned.entry) (by simp) hroot hvalid
  apply wp_restoreDirectoryMetadata ready (J := fun st v =>
    v.tree (c.destination planned.entry) = some (.directory st) ∧ SafeAt c.root selected [c.root] v)
  case steady =>
    rintro st v v' hq ⟨hf, hs⟩
    exact ⟨by rw [hq.tree]; exact hf, SafeAt.stable v v' hq.still hs⟩
  case good => exact fun st v hj => ⟨hj.2.ready (by simp) hroot hvalid, hj.1⟩
  case other => exact fun _ => hw
  case begun =>
    exact fun st w' hq _ _ hst => ⟨by rw [hq.tree]; exact hst, SafeAt.stable w w' hq.still hw⟩
  case stamped =>
    rintro st f v t ⟨hst, hs⟩ ht
    have he := restamp_edit ht
    rw [restamp_directory hst f] at ht
    cases ht
    refine ⟨set_same _ _ _, hs.mutate he ?_⟩
    intro p hp
    rw [List.mem_singleton.mp hp]
    have hready := hs.ready (e := planned.entry) (by simp) hroot hvalid
    refine ⟨?_, Direct.directory hready.wellFormed hready.plain_destination ⟨st, hst⟩⟩
    rcases hvalid with ⟨hr, _⟩ | hv
    · rw [destination_root hr]
      exact .root
    · exact .entry hmem hv
  case done => exact fun _ _ _ _ hj => hj.2
  case warned => exact fun _ v _ hj _ => SafeAt.stable v _ ⟨rfl, rfl⟩ hj.2
  case failed => exact fun _ w' hq _ => SafeAt.stable w w' hq.still hw

end Entry

theorem runPlan_safe {plan : List PlannedEntry} (hroot : Plain c.root)
    (hplan : ∀ p ∈ plan, p.entry ∈ selected ∧ ValidEntry p.entry) :
    Maintains (SafeAt c.root selected [c.root]) (runPlan c plan) := by
  refine Maintains.bind (maintains_reportProgress SafeAt.stable _ _ _) (fun _ => ?_)
  refine Maintains.bind (Maintains.each (fun p hp =>
    restoreDirectory_safe (hplan p hp).1 (hplan p hp).2 hroot)) (fun _ => ?_)
  refine Maintains.bind (Maintains.each (fun p hp =>
    restoreFile_safe (hplan p hp).1 (hplan p hp).2 hroot)) (fun _ => ?_)
  refine Maintains.bind (Maintains.each (fun p hp =>
    restoreLink_safe (hplan p hp).1 (hplan p hp).2 hroot)) (fun _ => ?_)
  refine Maintains.bind (Maintains.each (fun p hp => ?_)) (fun _ => ?_)
  · have hm := (List.mem_insertionSort _).mp hp
    exact restoreDirectoryMetadata_safe (hplan p hm).1 (hplan p hm).2 hroot
  · exact Maintains.bind (maintains_reportProgress SafeAt.stable _ _ _) (fun _ => Maintains.read _)

end Phases

theorem restoreSelected_safe {x : Externals} {h : Host} {repository : RepositoryView}
    {request : RestoreRequest} {root : Path} {selected : List EntryInfo}
    {chunks : List (Int × List ChunkReferenceInfo)} {w : World} (hroot : Plain root)
    (hvalid : ∀ e ∈ selected, ValidEntry e) (hs : Safe root selected w)
    (hc : Clear w.tree [] root) :
    (restoreSelected x h repository request root selected chunks).wp
      (fun _ => Safe root selected) (fun _ => Safe root selected) w := by
  unfold restoreSelected
  rw [wp_bind]
  refine wp_mono (wp_createRoot (I := Safe root selected) Safe.stable.steady
    (fun _ h => h.wellFormed) ?_ hroot hs hc) ?_ (fun _ _ he => he.1)
  case refine_1 =>
    intro w t p now hs hp hdir ht
    refine hs.mutate (create_edit hs.wellFormed hdir ht) ?_
    intro q hq
    rw [List.mem_singleton.mp hq]
    exact ⟨.ancestor hp (create_direct hdir ht).1, hdir⟩
  rintro _ w' ⟨hs', hd⟩
  have hs' : SafeAt root selected [root] w' := ⟨hs', by simpa using hd⟩
  rw [wp_bind]
  have hvalid' : ∀ e ∈ selected.insertionSort shallowFirst, ValidEntry e :=
    fun e he => hvalid e ((List.mem_insertionSort shallowFirst).mp he)
  refine wp_mono (planFrom_planned hs'.1.wellFormed hroot (hs'.2 root (by simp)) _ hvalid' [])
    ?_ (fun _ w'' he => (SafeAt.stable w' w'' he.1.still hs').1)
  rintro plan w'' ⟨hq, hplan⟩
  have hs'' := SafeAt.stable w' w'' hq.still hs'
  refine wp_mono (runPlan_safe (c := ⟨x, h, root, _, _, chunks, _⟩) hroot ?_ w'' hs'')
    (fun _ _ he => he.1) (fun _ _ he => he.1)
  intro p hp
  have hm := (List.mem_insertionSort shallowFirst).mp (hplan.mem_entries hp)
  exact ⟨hm, hvalid _ hm⟩

/-- Every mutation of a restore stays below the destination, and nothing else
changes. -/
theorem restore_confined (x : Externals) (h : Host) (repository : RepositoryView)
    (request : RestoreRequest) (t : Tree) (sequence : Nat) (hw : WellFormed t) :
    History (restore x h repository request (.start t sequence)).2.tree
        (restore x h repository request (.start t sequence)).2.mutations ∧
      ∀ m ∈ (restore x h repository request (.start t sequence)).2.mutations,
        Confined (lexicalDestination h.currentDirectory request.destinationRoot)
          (selection repository request) m := by
  have hs : Safe (lexicalDestination h.currentDirectory request.destinationRoot)
      (selection repository request) (.start t sequence) :=
    ⟨hw, trivial, fun m hm => absurd hm (List.not_mem_nil)⟩
  have hrun : Safe (lexicalDestination h.currentDirectory request.destinationRoot)
      (selection repository request) (restore x h repository request (.start t sequence)).2 := by
    apply wp_final (P := Safe _ _)
    apply wp_restore hw
    · exact fun _ w' hq _ => Safe.stable _ w' hq.still hs
    · intro w' selected chunks hq hc hload
      have hsel : selection repository request = selected := by
        unfold selection
        rw [hload]
      rw [hsel] at hs ⊢
      exact restoreSelected_safe (lexicalDestination_plain _ _) (loadSelection_valid hload)
        (Safe.stable _ w' hq.still hs) (by rw [hq.tree]; exact hc)
  exact ⟨hrun.history, hrun.confined⟩

/-- A host on which nothing goes wrong. -/
def calmHost : Host where
  fault _ := none
  stopRequested _ := false
  entropy _ := Vector.replicate 16 0
  clock _ := 0
  taken _ := maximumWrite
  raises _ := none
  removalFails _ := false
  currentDirectory := []
  directoryMode := 0o755

theorem calmHost_faultless : Faultless calmHost :=
  ⟨fun _ => rfl, fun _ => rfl, fun _ => rfl, fun _ => rfl⟩

/-- A disk with nothing but its root. -/
def bareTree : Tree := fun p => if p = [] then some (.directory ⟨0o755, 0⟩) else none

theorem bareTree_wellFormed : WellFormed bareTree :=
  ⟨⟨_, rfl⟩, fun p n hn => absurd (by simp [bareTree]) hn⟩

/-- A repository with one complete snapshot of these entries. -/
def sampleView (entries : List EntryRow) : RepositoryView where
  openMode := .readWrite
  root := [ascii "r"]
  resolvedRoot := [ascii "r"]
  db := { Database.empty with
    snapshots := [⟨1, 0, some 0, ascii "/s", "", .complete, 0, 0, 0, 0, 0, 0, 0, 0, none⟩], entries }
  objects _ := none
  chunkSizeBytes := 1024

def sampleEntry (id : Int) (path : Bytes) (type : EntryType) (fileHash target : Option Bytes) :
    EntryRow :=
  ⟨id, 1, path, [], [], type, 0, 0, 0o755, none, fileHash, target⟩

def sampleRequest : RestoreRequest := ⟨1, [], ascii "/d", .never, none⟩

/-- BLAKE3 of the empty input. -/
def emptyDigest : Vector UInt8 32 :=
  ⟨#[0xaf, 0x13, 0x49, 0xb9, 0xf5, 0xf9, 0xa1, 0xa6, 0xa0, 0x40, 0x4d, 0xea, 0x36, 0xdc, 0xc9, 0x49,
     0x9b, 0xcb, 0x25, 0xc9, 0xad, 0xc1, 0x12, 0xb7, 0xcc, 0x9a, 0x93, 0xca, 0xe4, 0x1f, 0x32, 0x62],
    rfl⟩

/-- Enough of the libraries for files without content. -/
def emptyExternals : Externals :=
  ⟨fun _ => emptyDigest, fun _ => .error "", fun _ => .error "", fun _ _ => .error ""⟩

def linkRows : List EntryRow :=
  [sampleEntry 1 [] .directory none none,
   sampleEntry 2 (ascii "l") .symbolicLink none (some (ascii "/etc"))]

/-- A snapshot of one link, restored to a new directory. -/
theorem restore_confined_link :
    WellFormed bareTree ∧
      (restore emptyExternals calmHost (sampleView linkRows) sampleRequest
        (.start bareTree 0)).2.mutations.length = 5 ∧
      ∀ m ∈ (restore emptyExternals calmHost (sampleView linkRows) sampleRequest
        (.start bareTree 0)).2.mutations,
        Confined (lexicalDestination [] (ascii "/d")) (selection (sampleView linkRows) sampleRequest)
          m :=
  ⟨bareTree_wellFormed, by decide +kernel,
    (restore_confined emptyExternals calmHost (sampleView linkRows) sampleRequest bareTree 0
      bareTree_wellFormed).2⟩

end LocalVault.Restore
