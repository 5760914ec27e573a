import LocalVault.Proofs.Confined
import LocalVault.Proofs.Selection

namespace LocalVault.Restore
open Library Library.FileTree Library.Program

/-- What can be wrong with the rows of a snapshot, and with those of the entries
that a request selects in it. -/
inductive Malformed (db : Database) (chunkSize : Nat) (id : SnapshotId) (requested : List Bytes) :
    Prop
  | unsafePath {entries : List EntryInfo} {e : EntryInfo} : listEntries db id = .ok entries →
      e ∈ entries → e.relativePath ≠ [] → isSafeStoredPath e.relativePath = false →
      Malformed db chunkSize id requested
  | rootCount {entries : List EntryInfo} : listEntries db id = .ok entries →
      entries.countP (fun e => e.relativePath = []) ≠ 1 → Malformed db chunkSize id requested
  | rootType {entries : List EntryInfo} {e : EntryInfo} : listEntries db id = .ok entries →
      e ∈ entries → e.relativePath = [] → e.type ≠ .directory → Malformed db chunkSize id requested
  | rejectedAncestor {entries : List EntryInfo} {error : LocalVaultError} :
      listEntries db id = .ok entries → selectEntries entries requested = .error error →
      error.code = .databaseError → Malformed db chunkSize id requested
  | missingAncestor {entries selected : List EntryInfo} : listEntries db id = .ok entries →
      selectEntries entries requested = .ok selected → ¬ AncestorClosed selected →
      Malformed db chunkSize id requested
  | fileHash {entries selected : List EntryInfo} {e : EntryInfo} : listEntries db id = .ok entries →
      selectEntries entries requested = .ok selected → e ∈ selected → e.type = .regularFile →
      e.fileHashHex.any isLowercaseBlake3Hex = false → Malformed db chunkSize id requested
  | chunkRows {entries selected : List EntryInfo} {e : EntryInfo} {error : LocalVaultError} :
      listEntries db id = .ok entries → selectEntries entries requested = .ok selected →
      e ∈ selected → e.type = .regularFile → listEntryChunks db e.id = .error error →
      Malformed db chunkSize id requested
  | chunkLayout {entries selected : List EntryInfo} {e : EntryInfo}
      {chunks : List ChunkReferenceInfo} : listEntries db id = .ok entries →
      selectEntries entries requested = .ok selected → e ∈ selected → e.type = .regularFile →
      listEntryChunks db e.id = .ok chunks → validateChunks e chunks chunkSize ≠ .ok () →
      Malformed db chunkSize id requested
  | missingTarget {entries selected : List EntryInfo} {e : EntryInfo} :
      listEntries db id = .ok entries → selectEntries entries requested = .ok selected →
      e ∈ selected → e.type = .symbolicLink → e.symlinkTarget = none →
      Malformed db chunkSize id requested

/-- Another destination, policy or host for the same rows and the same request. -/
structure SameRows (repository other : RepositoryView) (request wish : RestoreRequest) : Prop where
  db : other.db = repository.db
  objects : other.objects = repository.objects
  chunkSize : other.chunkSizeBytes = repository.chunkSizeBytes
  snapshotId : wish.snapshotId = request.snapshotId
  relativePaths : wish.relativePaths = request.relativePaths

theorem SameRows.loadSelection {repository other : RepositoryView} {request wish : RestoreRequest}
    (h : SameRows repository other request wish) :
    loadSelection other wish = Restore.loadSelection repository request := by
  unfold Restore.loadSelection
  rw [h.db, h.chunkSize, h.snapshotId, h.relativePaths]

/-- On the hosts that count, a restore of these rows that fails although only
the rows are malformed has left the destination alone. -/
def ValidatesFirst (counts : Host → Prop) (x : Externals) (repository : RepositoryView)
    (request : RestoreRequest) : Prop :=
  ∀ h other wish t sequence error w, counts h → SameRows repository other request wish →
    WellFormed t →
    Malformed repository.db repository.chunkSizeBytes request.snapshotId request.relativePaths →
    restore x h other wish (.start t sequence) = (.error error, w) →
    ∀ p, lexicalDestination h.currentDirectory wish.destinationRoot <+: p → w.tree p = t p

/-- What the checks in front of the first write do not look at: every selected
link has a target and every ancestor of a selected entry is a selected directory. -/
def SelectionComplete (repository : RepositoryView) (request : RestoreRequest) : Prop :=
  ∀ selected chunks, loadSelection repository request = .ok (selected, chunks) →
    (∀ e ∈ selected, e.type = .symbolicLink → e.symlinkTarget ≠ none) ∧ AncestorClosed selected

theorem validateEntriesFrom_roots {n : Nat} {entries : List EntryInfo}
    (h : validateEntriesFrom n entries = .ok ()) :
    n + entries.countP (fun e => e.relativePath = []) = 1 := by
  induction entries generalizing n with
  | nil =>
    unfold validateEntriesFrom at h
    split at h
    · cases h
    · simpa using ‹¬ n ≠ 1›
  | cons e es ih =>
    unfold validateEntriesFrom at h
    split at h
    · rename_i hr
      split at h
      · cases h
      · have := ih h
        simp only [List.countP_cons, hr, decide_true, if_true]
        omega
    · rename_i hr
      split at h
      · cases h
      · simpa [List.countP_cons, hr] using ih h

theorem validateSelectedFileHashes_valid {entries : List EntryInfo}
    (h : validateSelectedFileHashes entries = .ok ()) :
    ∀ e ∈ entries, e.type = .regularFile → e.fileHashHex.any isLowercaseBlake3Hex = true := by
  induction entries with
  | nil => simp
  | cons e es ih =>
    unfold validateSelectedFileHashes at h
    split at h
    · cases h
    · rename_i hbad
      intro d hd ht
      rcases List.mem_cons.mp hd with rfl | hd
      · simpa [ht] using hbad
      · exact ih h d hd ht

theorem chunksByEntry_valid {db : Database} {chunkSize : Nat} {selected : List EntryInfo}
    {chunks : List (Int × List ChunkReferenceInfo)}
    (h : chunksByEntry db chunkSize selected = .ok chunks) :
    ∀ e ∈ selected, e.type = .regularFile →
      ∃ listed, listEntryChunks db e.id = .ok listed ∧ validateChunks e listed chunkSize = .ok () := by
  induction selected generalizing chunks with
  | nil => simp
  | cons e es ih =>
    unfold chunksByEntry at h
    intro d hd ht
    split at h
    · rename_i hne
      rcases List.mem_cons.mp hd with rfl | hd
      · exact absurd ht hne
      · exact ih h d hd ht
    · obtain ⟨listed, hlisted, h⟩ := bind_ok.mp h
      obtain ⟨_, hvalid, h⟩ := bind_ok.mp h
      obtain ⟨rest, hrest, h⟩ := bind_ok.mp h
      rcases List.mem_cons.mp hd with rfl | hd
      · exact ⟨listed, hlisted, hvalid⟩
      · exact ih hrest d hd ht

/-- The checks in front of the first write find everything but the two gaps. -/
theorem Malformed.gap {repository : RepositoryView} {request : RestoreRequest}
    {selected : List EntryInfo} {chunks : List (Int × List ChunkReferenceInfo)}
    (hm : Malformed repository.db repository.chunkSizeBytes request.snapshotId request.relativePaths)
    (hload : loadSelection repository request = .ok (selected, chunks)) :
    (∃ e ∈ selected, e.type = .symbolicLink ∧ e.symlinkTarget = none) ∨
      ¬ AncestorClosed selected := by
  obtain ⟨_, _, h⟩ := bind_ok.mp hload
  obtain ⟨entries, hlist, h⟩ := bind_ok.mp h
  obtain ⟨_, hvalid, h⟩ := bind_ok.mp h
  obtain ⟨chosen, hsel, h⟩ := bind_ok.mp h
  obtain ⟨_, hhash, h⟩ := bind_ok.mp h
  obtain ⟨listed, hchunks, h⟩ := bind_ok.mp h
  cases h
  -- the rows that the row at fault speaks of are the rows that were read
  cases hm with
  | unsafePath hl he hne hbad =>
    cases hlist.symm.trans hl
    rcases validateEntriesFrom_valid hvalid _ he with ⟨hr, _⟩ | hs
    · exact absurd hr hne
    · rw [hs] at hbad
      cases hbad
  | rootCount hl hn =>
    cases hlist.symm.trans hl
    have := validateEntriesFrom_roots hvalid
    omega
  | rootType hl he hr ht =>
    cases hlist.symm.trans hl
    rcases validateEntriesFrom_valid hvalid _ he with ⟨_, hd⟩ | hs
    · exact absurd hd ht
    · exact absurd (by simp [hr, components, names, pieces]) (safe_components hs).2.1
  | rejectedAncestor hl hs _ =>
    cases hlist.symm.trans hl
    cases hsel.symm.trans hs
  | missingAncestor hl hs hn =>
    cases hlist.symm.trans hl
    cases hsel.symm.trans hs
    exact Or.inr hn
  | fileHash hl hs he ht hbad =>
    cases hlist.symm.trans hl
    cases hsel.symm.trans hs
    rw [validateSelectedFileHashes_valid hhash _ he ht] at hbad
    cases hbad
  | chunkRows hl hs he ht hbad =>
    cases hlist.symm.trans hl
    cases hsel.symm.trans hs
    obtain ⟨rows, hrows, _⟩ := chunksByEntry_valid hchunks _ he ht
    cases hrows.symm.trans hbad
  | chunkLayout hl hs he ht hrows hbad =>
    cases hlist.symm.trans hl
    cases hsel.symm.trans hs
    obtain ⟨rows, hrows', hok⟩ := chunksByEntry_valid hchunks _ he ht
    cases hrows.symm.trans hrows'
    exact absurd hok hbad
  | missingTarget hl hs he ht hnone =>
    cases hlist.symm.trans hl
    cases hsel.symm.trans hs
    exact Or.inl ⟨_, he, ht, hnone⟩

theorem SelectionComplete.validatesFirst {x : Externals} {repository : RepositoryView}
    {request : RestoreRequest} (hc : SelectionComplete repository request) (counts : Host → Prop) :
    ValidatesFirst counts x repository request := by
  intro h other wish t sequence error w _ hsame hw hm hrun
  have hwp : (restore x h other wish).wp (fun _ _ => True) (fun _ w' => w'.tree = t)
      (.start t sequence) := by
    apply wp_restore hw
    · exact fun _ w' hq _ => hq.tree
    · intro w' selected chunks _ _ hload
      rw [hsame.loadSelection] at hload
      obtain ⟨htarget, hclosed⟩ := hc selected chunks hload
      rcases hm.gap hload with ⟨e, he, ht, hnone⟩ | hopen
      · exact absurd hnone (htarget e he ht)
      · exact absurd hclosed hopen
  have htree : w.tree = t := by simpa [wp, hrun] using hwp
  intro p _
  rw [htree]

/-- Below the destination stand only directories that the selection names. -/
def Grounded (root : Path) (selected : List EntryInfo) (t : Tree) : Prop :=
  ∀ q, q ≠ [] → IsDirectory t (root ++ q) →
    ∃ d ∈ selected, d.type = .directory ∧ components d.relativePath = q

/-- Every ancestor of an entry is a selected directory. -/
def Attached (selected : List EntryInfo) (e : EntryInfo) : Prop :=
  ∀ q r, components e.relativePath = q ++ r → q ≠ [] → r ≠ [] →
    ∃ d ∈ selected, d.type = .directory ∧ components d.relativePath = q

section Grounded

variable {root : Path} {selected : List EntryInfo} {t t' : Tree}

theorem Grounded.edit (hg : Grounded root selected t) {paths : List Path} (he : Edit paths t t')
    (hn : ∀ p ∈ paths, IsDirectory t' p → IsDirectory t p) : Grounded root selected t' := by
  intro q hq hd
  apply hg q hq
  by_cases hm : root ++ q ∈ paths
  · exact hn _ hm hd
  · exact (he.elsewhere _ hm).symm.directory hd

/-- An entry can only be put into a directory that stands. -/
theorem Grounded.attached (hg : Grounded root selected t) (hw : WellFormed t) {e : EntryInfo}
    (hd : IsDirectory t (root ++ parentComponents e.relativePath)) : Attached selected e := by
  intro q r he hq hr
  apply hg q hq
  obtain ⟨front, last, rfl⟩ := split_last hr
  have hparent : parentComponents e.relativePath = q ++ front := by
    rw [parentComponents, he, ← List.append_assoc, List.dropLast_concat]
  rw [hparent, ← List.append_assoc] at hd
  exact hw.ancestors hd

end Grounded

/-- Safe, and grounded in the selection. -/
structure Firm (c : Context) (selected : List EntryInfo) (w : World) : Prop where
  safe : SafeAt c.root selected [c.root] w
  grounded : Grounded c.root selected w.tree

section Stuck

variable {c : Context} {selected : List EntryInfo} {e : EntryInfo} {w : World}

theorem Firm.stable : Stable (Firm c selected) := by
  intro w w' hs h
  refine ⟨SafeAt.stable w w' hs h.safe, ?_⟩
  rw [hs.tree]
  exact h.grounded

theorem Firm.root (h : Firm c selected w) : IsDirectory w.tree c.root := h.safe.2 _ (by simp)

theorem Grounded.removed {h : Host} {p : Path} (hg : Grounded c.root selected w.tree)
    (hd : Direct w.tree p) (hn : ¬ IsDirectory w.tree p) :
    Grounded c.root selected (removeQuietly h p w).tree := by
  rcases removeQuietly_cases (h := h) hd hn with ⟨hq, _⟩ | ⟨t, now, ht, he⟩
  · rw [hq.tree]
    exact hg
  · rw [he]
    refine hg.edit (unlink_edit hd ht) ?_
    intro r hr hdir
    rw [List.mem_singleton.mp hr] at hdir
    obtain ⟨_, rfl⟩ := unlink_direct hd ht
    obtain ⟨st, hst⟩ := (touch_directory now).mp hdir
    rw [set_same] at hst
    cases hst

/-- A temporary is open next to an attached entry. -/
structure FirmScope (c : Context) (selected : List EntryInfo) (e : EntryInfo) (name : Name)
    (w : World) : Prop where
  inner : Scoped c selected e name w
  grounded : Grounded c.root selected w.tree
  attached : Attached selected e

theorem FirmScope.stable {name : Name} : Stable (FirmScope c selected e name) := by
  intro w w' hs h
  refine ⟨Scoped.stable w w' hs h.inner, ?_, h.attached⟩
  rw [hs.tree]
  exact h.grounded

section Scope

variable {name : Name} (hmem : e ∈ selected) (hvalid : ValidEntry e) (hroot : Plain c.root)
  (hv : isSafeStoredPath e.relativePath = true) (hname : TemporaryName name)
include hmem hvalid hroot hv hname

theorem firmScope_created {t : Tree} {node : Node} {now : Int} {v : World}
    (hs : Firm c selected w) (hw : Still w v) (hd : IsDirectory w.tree (c.parent e))
    (hnode : ∀ st, node ≠ .directory st)
    (ht : create w.tree (c.parent e ++ [name]) node now = .ok t) :
    FirmScope c selected e name (v.mutate [c.parent e ++ [name]] t).tick := by
  have hscoped := scoped_created hmem hvalid hroot hv hname hs.safe hw hd hnode ht
  have ready := hs.safe.ready (e := e) (by simp) hroot hvalid
  refine ⟨hscoped, ?_, hs.grounded.attached ready.wellFormed hd⟩
  refine hs.grounded.edit (create_edit ready.wellFormed (ready.direct hd name) ht) ?_
  intro p hp hdir
  rw [List.mem_singleton.mp hp] at hdir
  exact absurd hdir hscoped.plain

theorem firmScope_edited {t : Tree} (hs : FirmScope c selected e name w)
    (he : Edit [c.parent e ++ [name]] w.tree t) (hn : ¬ IsDirectory t (c.parent e ++ [name])) :
    FirmScope c selected e name (w.mutate [c.parent e ++ [name]] t).tick := by
  refine ⟨scoped_edited hmem hvalid hroot hv hname hs.inner he hn, ?_, hs.attached⟩
  refine hs.grounded.edit he ?_
  intro p hp hdir
  rw [List.mem_singleton.mp hp] at hdir
  exact absurd hdir hn

theorem firmScope_renamed {t : Tree} {now : Int} {replace : Bool}
    (hs : FirmScope c selected e name w)
    (ht : rename w.tree (c.parent e ++ [name]) (c.destination e) replace now = .ok t) :
    FirmScope c selected e name
      (w.mutate [c.parent e ++ [name], c.destination e] t).tick := by
  have ready := hs.inner.safe.ready (e := e) (by simp) hroot hvalid
  have hd := hs.inner.safe.2 (c.parent e) (by simp)
  have hdir := ready.direct hd name
  have hdest : Direct w.tree (c.destination e) := by
    obtain ⟨last, hlast, _⟩ := destination_eq (c := c) hv
    rw [hlast]
    exact ready.direct hd last
  have hscoped := scoped_renamed hmem hvalid hroot hv hname hs.inner ht
  refine ⟨hscoped, ?_, hs.attached⟩
  refine hs.grounded.edit (rename_edit ready.wellFormed hdir hdest ht) ?_
  intro p hp hx
  simp only [List.mem_cons, List.not_mem_nil, or_false] at hp
  rcases hp with rfl | rfl
  · exact absurd hx hscoped.plain
  · obtain ⟨n, _, hplain, _, _, ⟨_, rfl⟩ | ⟨_, rfl⟩⟩ := rename_direct hdir hdest ht
    · exact hx
    · obtain ⟨st, hst⟩ := (touch_directory now).mp ((touch_directory now).mp hx)
      rw [set_same] at hst
      exact absurd (Option.some.inj hst) (hplain st)

theorem firmScope_closed (hs : FirmScope c selected e name w) :
    Firm c selected (removeQuietly c.host (c.parent e ++ [name]) w) := by
  have ready := hs.inner.safe.ready (e := e) (by simp) hroot hvalid
  exact ⟨scoped_closed hmem hvalid hroot hv hname hs.inner,
    hs.grounded.removed (ready.direct (hs.inner.safe.2 _ (by simp)) name) hs.inner.plain⟩

end Scope

section Entry

variable {planned : PlannedEntry} (hmem : planned.entry ∈ selected)
  (hvalid : ValidEntry planned.entry) (hroot : Plain c.root)
include hmem hvalid hroot

theorem restoreDirectory_firm (hw : Firm c selected w) :
    (restoreDirectory c planned).wp
      (fun _ w' => Firm c selected w' ∧ (planned.entry.type = .directory →
        planned.action = .create → Attached selected planned.entry))
      (fun _ w' => IsDirectory w'.tree c.root) w := by
  have ready := hw.safe.ready (e := planned.entry) (by simp) hroot hvalid
  apply wp_restoreDirectory ready
  · exact fun w' hq hne => ⟨Firm.stable w w' hq.still hw, fun ht => absurd ht hne⟩
  · intro w' hq _ hskip
    exact ⟨Firm.stable w _ ⟨hq.tree, hq.mutations⟩ hw, fun _ hc => by simp [hskip] at hc⟩
  · intro w' hq _ _ hne
    exact ⟨Firm.stable w _ ⟨hq.tree, hq.mutations⟩ hw, fun _ hc => absurd hc hne⟩
  · intro w' t now hq htype _ hdir ht
    have hsafe : SafeAt c.root selected [c.root]
        (w'.mutate [c.destination planned.entry] t).tick := by
      have hw' := SafeAt.stable w w' hq.still hw.safe
      rw [← hq.tree] at hdir ht
      refine hw'.mutate (create_edit hw'.1.wellFormed hdir ht) ?_
      intro p hp
      rw [List.mem_singleton.mp hp]
      refine ⟨?_, hdir⟩
      rcases hvalid with ⟨hr, _⟩ | hv
      · rw [destination_root hr]
        exact .root
      · exact .entry hmem hv
    have hgrounded : Grounded c.root selected t := by
      have he := create_edit ready.wellFormed hdir ht
      intro q hq' hd
      by_cases hm : c.root ++ q = c.destination planned.entry
      · exact ⟨planned.entry, hmem, htype, (List.append_cancel_left hm).symm⟩
      · exact hw.grounded q hq' ((he.elsewhere _ (by simpa using hm)).symm.directory hd)
    refine ⟨Firm.stable (w'.mutate [c.destination planned.entry] t).tick _ ⟨rfl, rfl⟩
      ⟨hsafe, hgrounded⟩, fun _ _ => ?_⟩
    rcases hvalid with ⟨hr, _⟩ | hv
    · intro q r he hq' _
      simp [hr, components, names, pieces] at he
      exact absurd he.1 hq'
    · apply hw.grounded.attached ready.wellFormed
      have hparent := hdir.parent (by simp [Context.destination, (safe_components hv).2.1])
      rw [destination_dropLast hv] at hparent
      exact hparent
  · intro _ w' hq _
    rw [hq.tree]
    exact hw.root

theorem restoreFile_firm (hw : Firm c selected w) :
    (restoreFile c planned).wp
      (fun _ w' => Firm c selected w' ∧ (planned.entry.type = .regularFile →
        planned.action ≠ .skip → Attached selected planned.entry))
      (fun _ w' => IsDirectory w'.tree c.root) w := by
  have ready := hw.safe.ready (e := planned.entry) (by simp) hroot hvalid
  by_cases htype : planned.entry.type = .regularFile
  case neg =>
    unfold restoreFile
    simp [htype, hw]
  have hv := ready.safe (by simp [htype])
  apply wp_restoreFile ready (J := fun name content st v => TemporaryName name ∧
    v.tree (c.parent planned.entry ++ [name]) = some (.file content st) ∧
    FirmScope c selected planned.entry name v)
  case isOpen =>
    intro name
    refine ⟨?_, ?_, ?_, ?_⟩
    · rintro content st v v' hq ⟨hn, hf, hs⟩
      exact ⟨hn, by rw [hq.tree]; exact hf, FirmScope.stable v v' hq.still hs⟩
    · exact fun content st v hj => hj.2.1
    · rintro content st v t bytes now ⟨hn, hf, hs⟩ ht
      have hfile := append_file hf ht
      exact ⟨hn, hfile, firmScope_edited hmem hvalid hroot hv hn hs (append_edit ht)
        (not_directory_file hfile)⟩
    · rintro content st v t f ⟨hn, hf, hs⟩ ht
      have hfile := restamped_file hf ht
      exact ⟨hn, hfile, firmScope_edited hmem hvalid hroot hv hn hs (restamp_edit ht)
        (not_directory_file hfile)⟩
  case good =>
    rintro name content st v ⟨_, _, hs⟩
    exact ⟨hs.inner.safe.ready (by simp) hroot hvalid, hs.inner.safe.2 _ (by simp)⟩
  case other => exact fun hne => absurd htype hne
  case skipped =>
    intro w' hq _ hskip
    exact ⟨Firm.stable w _ ⟨hq.tree, hq.mutations⟩ hw, fun _ hne => absurd hskip hne⟩
  case opened =>
    intro w' t n now hq _ _ hd ht
    have hname := randomTemporaryName_temporary (c.host.entropy n)
    exact ⟨hname, created_file (ready.direct hd _) ht,
      firmScope_created hmem hvalid hroot hv hname hw hq.still hd (by simp) ht⟩
  case published =>
    rintro name parts st warning v t now ⟨hn, _, hs⟩ _ _ _ ht
    have hren := firmScope_renamed hmem hvalid hroot hv hn hs ht
    constructor
    · intro v' hr
      exact ⟨firmScope_closed hmem hvalid hroot hv hn
        (FirmScope.stable _ v' ⟨hr.tree, hr.mutations⟩ hren), fun _ _ => hs.attached⟩
    · intro e v' hst _
      exact (firmScope_closed hmem hvalid hroot hv hn
        (FirmScope.stable _ v' ⟨hst.tree, hst.mutations⟩ hren)).root
  case refused =>
    rintro name content st v ⟨hn, _, hs⟩ _ _ _
    exact ⟨firmScope_closed hmem hvalid hroot hv hn (FirmScope.stable v _ ⟨rfl, rfl⟩ hs),
      fun _ _ => hs.attached⟩
  case broken =>
    rintro name content st v e ⟨hn, _, hs⟩ _ _
    exact (firmScope_closed hmem hvalid hroot hv hn hs).root
  case failed =>
    intro _ w' hq _
    rw [hq.tree]
    exact hw.root

theorem restoreLink_firm (hw : Firm c selected w) :
    (restoreLink c planned).wp
      (fun _ w' => Firm c selected w' ∧ (planned.entry.type = .symbolicLink →
        planned.action ≠ .skip → Attached selected planned.entry ∧
        planned.entry.symlinkTarget ≠ none))
      (fun _ w' => IsDirectory w'.tree c.root) w := by
  have ready := hw.safe.ready (e := planned.entry) (by simp) hroot hvalid
  by_cases htype : planned.entry.type = .symbolicLink
  case neg =>
    unfold restoreLink
    simp [htype, hw]
  have hv := ready.safe (by simp [htype])
  apply wp_restoreLink ready (J := fun number target v =>
    v.tree (linkTemporary c planned number) = some (.link target) ∧
    planned.entry.symlinkTarget ≠ none ∧
    FirmScope c selected planned.entry (sequenceName number) v)
  case steady =>
    rintro number target v v' hq ⟨hf, hn, hs⟩
    exact ⟨by rw [hq.tree]; exact hf, hn, FirmScope.stable v v' hq.still hs⟩
  case good =>
    rintro number target v ⟨hf, _, hs⟩
    exact ⟨hs.inner.safe.ready (by simp) hroot hvalid, hs.inner.safe.2 _ (by simp), hf⟩
  case other => exact fun hne => absurd htype hne
  case skipped =>
    intro w' hq _ hskip
    exact ⟨Firm.stable w _ ⟨hq.tree, hq.mutations⟩ hw, fun _ hne => absurd hskip hne⟩
  case made =>
    intro k target v t now _ _ htarget _ _ _ hd hdrawn ht
    have hname := sequenceName_temporary (w.sequence + k)
    exact ⟨created_link (ready.direct hd _) ht, by simp [htarget],
      firmScope_created hmem hvalid hroot hv hname hw hdrawn.toStill hd (by simp) ht⟩
  case published =>
    rintro number target v t now ⟨_, hsome, hs⟩ _ ht v' hq
    have hn := sequenceName_temporary number
    have hren := firmScope_renamed hmem hvalid hroot hv hn hs ht
    refine ⟨⟨firmScope_closed hmem hvalid hroot hv hn
        (FirmScope.stable _ v'.countLink ⟨hq.tree, hq.mutations⟩ hren),
      fun _ _ => ⟨hs.attached, hsome⟩⟩, fun e _ => ?_⟩
    exact (firmScope_closed hmem hvalid hroot hv hn
      (FirmScope.stable _ v' ⟨hq.tree, hq.mutations⟩ hren)).root
  case refused =>
    rintro number target v ⟨_, hsome, hs⟩ _ _
    exact ⟨firmScope_closed hmem hvalid hroot hv (sequenceName_temporary number)
      (FirmScope.stable v _ ⟨rfl, rfl⟩ hs), fun _ _ => ⟨hs.attached, hsome⟩⟩
  case broken =>
    rintro number target v e ⟨_, _, hs⟩ _
    exact (firmScope_closed hmem hvalid hroot hv (sequenceName_temporary number) hs).root
  case failed =>
    intro _ w' hs _
    rw [hs.tree]
    exact hw.root

end Entry

/-- A plan that skips nothing and is carried out has found every entry complete. -/
theorem runPlan_firm {plan : List PlannedEntry} (hroot : Plain c.root)
    (hplan : ∀ p ∈ plan, p.entry ∈ selected ∧ ValidEntry p.entry)
    (hcreate : ∀ p ∈ plan, p.entry.relativePath ≠ [] → p.action = .create)
    (hw : Firm c selected w) :
    (runPlan c plan).wp
      (fun _ _ => ∀ p ∈ plan, Attached selected p.entry ∧
        (p.entry.type = .symbolicLink → p.entry.symlinkTarget ≠ none))
      (fun _ w' => IsDirectory w'.tree c.root) w := by
  have hfree : ∀ p ∈ plan, p.entry.type ≠ .directory → p.action ≠ .skip := by
    intro p hp hne
    rcases (hplan p hp).2 with ⟨_, hd⟩ | hv
    · exact absurd hd hne
    · rw [hcreate p hp (by rintro hr; simp [hr, isSafeStoredPath] at hv)]
      simp
  unfold runPlan
  rw [wp_bind]
  refine wp_mono (maintains_reportProgress Firm.stable _ _ _ w hw) ?_ (fun _ _ h => h.root)
  intro _ w₀ hw₀
  rw [wp_bind]
  refine wp_mono (wp_each_all (Firm c selected) _ plan hw₀ (fun p hp v hv =>
    restoreDirectory_firm (hplan p hp).1 (hplan p hp).2 hroot hv)) ?_ (fun _ _ h => h)
  rintro _ w₁ ⟨hw₁, hdirs⟩
  rw [wp_bind]
  refine wp_mono (wp_each_all (Firm c selected) _ plan hw₁ (fun p hp v hv =>
    restoreFile_firm (hplan p hp).1 (hplan p hp).2 hroot hv)) ?_ (fun _ _ h => h)
  rintro _ w₂ ⟨hw₂, hfiles⟩
  rw [wp_bind]
  refine wp_mono (wp_each_all (Firm c selected) _ plan hw₂ (fun p hp v hv =>
    restoreLink_firm (hplan p hp).1 (hplan p hp).2 hroot hv)) ?_ (fun _ _ h => h)
  rintro _ w₃ ⟨hw₃, hlinks⟩
  have hall : ∀ p ∈ plan, Attached selected p.entry ∧
      (p.entry.type = .symbolicLink → p.entry.symlinkTarget ≠ none) := by
    intro p hp
    cases ht : p.entry.type with
    | directory =>
      refine ⟨?_, by simp⟩
      by_cases hr : p.entry.relativePath = []
      · intro q r he hq _
        simp [hr, components, names, pieces] at he
        exact absurd he.1 hq
      · exact hdirs p hp ht (hcreate p hp hr)
    | regularFile => exact ⟨hfiles p hp ht (hfree p hp (by simp [ht])), by simp⟩
    | symbolicLink =>
      have := hlinks p hp ht (hfree p hp (by simp [ht]))
      exact ⟨this.1, fun _ => this.2⟩
  have hrest : Maintains (SafeAt c.root selected [c.root]) (do
      Program.each (restoreDirectoryMetadata c) (plan.insertionSort deepFirst)
      reportProgress c.host .complete c.root c.totalEntries
      Program.read World.result) := by
    refine Maintains.bind (Maintains.each (fun p hp => ?_)) (fun _ => ?_)
    · have hm := (List.mem_insertionSort _).mp hp
      exact restoreDirectoryMetadata_safe (hplan p hm).1 (hplan p hm).2 hroot
    · exact Maintains.bind (maintains_reportProgress SafeAt.stable _ _ _)
        (fun _ => Maintains.read _)
  exact wp_mono (hrest w₃ hw₃.safe) (fun _ _ _ => hall) (fun _ _ h => h.2 _ (by simp))

end Stuck

section Fresh

variable {request : RestoreRequest} {root : Path} {t : Tree} {entries : List EntryInfo}
  {plan : List PlannedEntry}

/-- Nothing stands below the destination. -/
def Barren (root : Path) (t : Tree) : Prop := ∀ q, q ≠ [] → t (root ++ q) = none

/-- Over an empty destination everything is created. -/
theorem Planned.barren (h : Planned request root t [] entries plan) (hb : Barren root t)
    (hvalid : ∀ e ∈ entries, ValidEntry e) :
    ∀ p ∈ plan, p.entry.relativePath ≠ [] → p.action = .create := by
  generalize hs : ([] : List (List Name)) = skipped at h
  induction h with
  | done => simp
  | root hr _ ih =>
    intro p hp hne
    rcases List.mem_cons.mp hp with rfl | hp
    · exact absurd hr hne
    · exact ih (fun e he => hvalid e (List.mem_cons_of_mem _ he)) hs p hp hne
  | under s _ hm _ _ _ =>
    rw [← hs] at hm
    cases hm
  | free _ _ _ _ _ ih =>
    intro p hp hne
    rcases List.mem_cons.mp hp with rfl | hp
    · rfl
    · exact ih (fun e he => hvalid e (List.mem_cons_of_mem _ he)) hs p hp hne
  | conflict hr _ _ hn _ _ _ =>
    rcases hvalid _ List.mem_cons_self with ⟨he, _⟩ | hv
    · exact absurd he hr
    · rw [hb _ (safe_components hv).2.1] at hn
      cases hn

/-- Over an empty destination a selection with a gap is begun and not finished. -/
theorem restoreSelected_stuck {x : Externals} {h : Host} {repository : RepositoryView}
    {selected : List EntryInfo} {chunks : List (Int × List ChunkReferenceInfo)} {w : World}
    (hroot : Plain root) (hvalid : ∀ e ∈ selected, ValidEntry e) (calm : ¬ Troubled h)
    (hs : Safe root selected w) (hc : Clear w.tree [] root) (hb : Barren root w.tree) :
    (restoreSelected x h repository request root selected chunks).wp
      (fun _ _ => (∀ e ∈ selected, e.type = .symbolicLink → e.symlinkTarget ≠ none) ∧
        AncestorClosed selected)
      (fun _ w' => IsDirectory w'.tree root) w := by
  unfold restoreSelected
  rw [wp_bind]
  refine wp_mono (wp_createRoot (I := fun v => Safe root selected v ∧ Barren root v.tree) ?_
    (fun _ h => h.1.wellFormed) ?_ hroot ⟨hs, hb⟩ hc) ?_ (fun _ _ he => absurd he.2 calm)
  case refine_1 =>
    intro v v' hq hv
    refine ⟨Safe.stable v v' hq.still hv.1, ?_⟩
    rw [hq.tree]
    exact hv.2
  case refine_2 =>
    intro v t p now hv hp hdir ht
    have he := create_edit hv.1.wellFormed hdir ht
    refine ⟨hv.1.mutate he ?_, ?_⟩
    · intro q hq
      rw [List.mem_singleton.mp hq]
      exact ⟨.ancestor hp (create_direct hdir ht).1, hdir⟩
    · intro q hq
      have hne : root ++ q ≠ p := by
        rintro rfl
        have := hp.length_le
        simp only [List.length_append] at this
        exact hq (List.length_eq_zero_iff.mp (by omega))
      exact (he.elsewhere _ (by simpa using hne)).none_iff.mp (hv.2 q hq)
  rintro _ w₁ ⟨⟨hs₁, hb₁⟩, hd⟩
  have hsafe : SafeAt root selected [root] w₁ := ⟨hs₁, by simpa using hd⟩
  rw [wp_bind]
  have hvalid' : ∀ e ∈ selected.insertionSort shallowFirst, ValidEntry e :=
    fun e he => hvalid e ((List.mem_insertionSort shallowFirst).mp he)
  refine wp_mono (planFrom_planned hs₁.wellFormed hroot hd _ hvalid' []) ?_ ?_
  case refine_2 =>
    rintro _ w₂ ⟨hq, _⟩
    rw [hq.tree]
    exact hd
  rintro plan w₂ ⟨hq, hplan⟩
  have hmem : ∀ p ∈ plan, p.entry ∈ selected ∧ ValidEntry p.entry := by
    intro p hp
    have hm := (List.mem_insertionSort shallowFirst).mp (hplan.mem_entries hp)
    exact ⟨hm, hvalid _ hm⟩
  have hfirm : Firm ⟨x, h, root, repository.objects, repository.chunkSizeBytes, chunks, plan.length⟩
      selected w₂ := by
    refine ⟨SafeAt.stable w₁ w₂ hq.still hsafe, ?_⟩
    rw [hq.tree]
    rintro q hne ⟨st, hst⟩
    rw [hb₁ q hne] at hst
    cases hst
  refine wp_mono (runPlan_firm hroot hmem (hplan.barren hb₁ hvalid') hfirm) ?_ (fun _ _ h => h)
  intro _ _ hall
  have hentry : ∀ e ∈ selected, ∃ p ∈ plan, p.entry = e := by
    intro e he
    have hm := (List.mem_insertionSort shallowFirst).mpr he
    rw [← hplan.map_entry] at hm
    exact List.mem_map.mp hm
  refine ⟨fun e he ht => ?_, fun e he => ?_⟩
  · obtain ⟨p, hp, rfl⟩ := hentry e he
    exact (hall p hp).2 ht
  · obtain ⟨p, hp, rfl⟩ := hentry e he
    exact (hall p hp).1

end Fresh

theorem ValidatesFirst.selectionComplete {x : Externals} {repository : RepositoryView}
    {request : RestoreRequest}
    (hv : ValidatesFirst (fun h => ¬ Troubled h) x repository request) :
    SelectionComplete repository request := by
  intro selected chunks hload
  by_contra hgap
  have hm : Malformed repository.db repository.chunkSizeBytes request.snapshotId
      request.relativePaths := by
    obtain ⟨_, _, h⟩ := bind_ok.mp hload
    obtain ⟨entries, hlist, h⟩ := bind_ok.mp h
    obtain ⟨_, _, h⟩ := bind_ok.mp h
    obtain ⟨chosen, hsel, h⟩ := bind_ok.mp h
    obtain ⟨_, _, h⟩ := bind_ok.mp h
    obtain ⟨_, _, h⟩ := bind_ok.mp h
    cases h
    by_cases hclosed : AncestorClosed selected
    · simp only [not_and_or, hclosed, not_true_eq_false, or_false] at hgap
      push Not at hgap
      obtain ⟨e, he, ht, hnone⟩ := hgap
      exact .missingTarget hlist hsel he ht hnone
    · exact .missingAncestor hlist hsel hclosed
  -- the same rows, restored on a calm host to a destination that does not exist
  let other : RepositoryView :=
    { repository with openMode := .readWrite, root := [ascii "r"], resolvedRoot := [ascii "r"] }
  let wish : RestoreRequest :=
    { request with destinationRoot := ascii "/d", overwritePolicy := .never, conflictResolver := none }
  have hsame : SameRows repository other request wish := ⟨rfl, rfl, rfl, rfl, rfl⟩
  have calm := calmHost_faultless.untroubled
  have hroot : lexicalDestination calmHost.currentDirectory wish.destinationRoot = [ascii "d"] :=
    show lexicalDestination [] (ascii "/d") = [ascii "d"] by decide
  have hwp : (restore x calmHost other wish).wp (fun _ _ => False)
      (fun _ w' => IsDirectory w'.tree [ascii "d"]) (.start bareTree 0) := by
    apply wp_restore bareTree_wellFormed
    · intro e w' _ hx
      rw [RestoreRejected, hroot] at hx
      rcases hx with hx | hx | hx | hx | hx | hx | ⟨e, hx⟩
      · exact absurd rfl hx
      · cases hx.1
      · exact absurd hx calm
      · cases hx
      · obtain ⟨q, r, he, hne, _, hsome⟩ := hx
        simp [World.start, bareTree, hne] at hsome
      · exact absurd hx (show ¬ (isComponentPrefix [ascii "r"] [ascii "d"] = true ∨
          isComponentPrefix [ascii "d"] [ascii "r"] = true) by decide)
      · rw [hsame.loadSelection, hload] at hx
        cases hx
    · intro w' selected' chunks' hq hc hload'
      rw [hsame.loadSelection, hload] at hload'
      cases hload'
      rw [hroot] at hc ⊢
      refine wp_mono (restoreSelected_stuck (hroot ▸ lexicalDestination_plain _ _)
        (loadSelection_valid hload) calm ?_ ?_ ?_) (fun _ _ h => absurd h hgap) (fun _ _ h => h)
      · exact Safe.stable _ w' hq.still ⟨bareTree_wellFormed, trivial, by simp [World.start]⟩
      · rw [hq.tree]
        exact hc
      · rw [hq.tree]
        intro q _
        simp [World.start, bareTree]
  cases hrun : restore x calmHost other wish (.start bareTree 0) with
  | mk result w =>
    rw [wp, hrun] at hwp
    cases result with
    | ok _ => exact hwp
    | error error =>
      have hp := hv calmHost other wish bareTree 0 error w calm hsame
        bareTree_wellFormed hm hrun [ascii "d"] (by rw [hroot])
      obtain ⟨st, hst⟩ := hwp
      rw [hst] at hp
      cases hp

def targetlessRows : List EntryRow :=
  [sampleEntry 1 [] .directory none none,
   sampleEntry 2 (ascii "a") .directory none none,
   sampleEntry 3 (ascii "l") .symbolicLink none none]

def targetlessError : LocalVaultError where
  code := .databaseError
  message := "symbolic-link entry has no saved target"
  path := [ascii "l"]

end LocalVault.Restore
