import LocalVault.Proofs.Recovery

namespace LocalVault.Repository
open Library Program

variable {α β : Type} {o : Outside} {s : Session} {v : Vault} {id : SnapshotId}

/-- A program that comes to an end, if only because its process dies. -/
abbrev Ends (m : SessionM α) : Prop := Raises (fun stop => stop ≠ .endless) m

theorem FromOutside.ends {stop : Stop} (h : FromOutside o stop) : stop ≠ .endless := by
  rintro rfl
  exact h

theorem ends_throwing (e : LocalVaultError) : Ends (throwing e : SessionM α) := Raises.raise nofun

theorem ends_calling {refused next : SessionM α} (hr : Ends refused) (hn : Ends next) :
    Ends (calling o refused next) :=
  fun s => wp_calling (hn s) (fun _ => hr s) fun _ hstop => hstop.ends

theorem ends_committing {body : Sql α} : Ends (committing body) := by
  intro s
  unfold wp committing
  rcases body s.vault.db with ⟨r, db⟩
  cases r with
  | ok => trivial
  | error => exact nofun

theorem ends_transaction {body : Sql α} : Ends (transaction o body) :=
  ends_calling ends_committing ends_committing

theorem ends_query {look : Database → Except LocalVaultError α} : Ends (query o look) := by
  have hlook : Ends (looking look) := by
    intro s
    unfold wp looking
    cases look s.vault.db with
    | ok => trivial
    | error => exact nofun
  exact ends_calling hlook hlook

theorem ends_quiet {f : Session → Except Stop α × Session} (h : ∀ s, ∃ a t, f s = (.ok a, t)) :
    Ends (f : SessionM α) := by
  intro s
  obtain ⟨a, t, ht⟩ := h s
  exact (wp_run ht).mpr trivial

theorem ends_removeAll (paths : List Path) : Ends (removeAll o paths) := by
  induction paths with
  | nil => exact Raises.pure _
  | cons path paths ih =>
    exact ends_calling (ends_quiet fun s => ⟨false, s.tick, rfl⟩)
      (Raises.bind (Raises.update _) fun _ => ih)

theorem ends_clearItems (paths : List Path) : Ends (clearItems o paths) := by
  induction paths with
  | nil => exact Raises.pure _
  | cons path paths ih =>
    refine Raises.bind (Raises.bind (Raises.read _) fun doomed => ends_removeAll doomed) fun _ => ?_
    exact Raises.bind ih fun _ => Raises.pure _

theorem ends_requireRecoveryDirectory (path : Path) : Ends (requireRecoveryDirectory o path) := by
  have hensure : Ends (ensureRecoveryDirectory path) := by
    refine Raises.bind (Raises.read _) fun item => ?_
    cases item with
    | none => exact Raises.update _
    | some item => exact Raises.ite (fun _ => Raises.update _) fun _ => ends_throwing _
  exact ends_calling hensure hensure

theorem ends_clearTemporaryItems (paths : List Path) : Ends (clearTemporaryItems o paths) := by
  induction paths with
  | nil => exact Raises.pure _
  | cons path paths ih =>
    refine Raises.bind ?_ fun _ => Raises.bind ih fun _ => Raises.pure _
    refine Raises.ite (fun _ => ?_) fun _ => ?_
    · exact Raises.bind (ends_requireRecoveryDirectory path) fun _ =>
        Raises.bind (Raises.read _) fun children => ends_clearItems children
    · exact Raises.bind (Raises.read _) fun doomed => ends_removeAll doomed

theorem ends_clearTemporaryTree : Ends (clearTemporaryTree o) :=
  Raises.bind (Raises.read _) fun children => Raises.bind (ends_clearTemporaryItems children) fun _ =>
    Raises.bind (ends_requireRecoveryDirectory _) fun _ =>
      Raises.bind (ends_requireRecoveryDirectory _) fun _ => Raises.pure _

/-- Without a batch limit that the code takes, nothing is removed. -/
theorem ends_recoverSnapshot {limit : Nat} (hl : supported limit = false)
    (snapshot : IncompleteSnapshotInfo) : Ends (recoverSnapshot o limit snapshot) := by
  obtain ⟨e, he, -⟩ := (checkedBatchLimit_cases limit).resolve_right (by rw [hl]; exact nofun)
  have hclean : Ends (cleanIncompleteSnapshot o snapshot.id limit) := by
    unfold cleanIncompleteSnapshot
    rw [he]
    exact ends_throwing e
  unfold recoverSnapshot
  cases snapshot.status with
  | pending =>
    exact Raises.bind (Raises.bind (Raises.read _) fun _ => ends_transaction) fun _ => hclean
  | failed => exact hclean
  | cancelled => exact hclean
  | deleting =>
    unfold deleteDeletingSnapshot
    rw [he]
    exact ends_throwing e
  | complete => exact ends_throwing _

/-- What holds at the end, and that there is one. -/
theorem wp_ends {m : SessionM α} {Q : α → Session → Prop} {E : Stop → Session → Prop}
    (h : m.wp Q E s) (he : m.wp (fun _ _ => True) (fun stop _ => stop ≠ .endless) s) :
    m.wp Q (fun stop t => E stop t ∧ stop ≠ .endless) s :=
  wp_mono (wp_and h he) (fun _ _ h => h.1) fun _ _ h => h

/-- Recovery on any repository object keeps the vault and comes to an end. -/
theorem wp_recovery (h : Held v s) (r : Opened) :
    (recoverAfterWriterLock o r).wp (fun _ t => Held v t)
      (fun stop t => Held v t ∧ stop ≠ .endless) s := by
  by_cases hfresh : Fresh r s
  · have hrun := wp_recoverAfterWriterLock (o := o) h hfresh
    cases hl : supported r.recoveryEntryBatchLimit with
    | true =>
      rw [hl] at hrun
      exact wp_mono hrun (fun _ _ ht => ht.held) fun _ _ ht => ⟨ht.1, (ht.2 rfl).ends⟩
    | false =>
      refine wp_ends (wp_mono hrun (fun _ _ ht => ht.held) fun _ _ ht => ht.1) ?_
      refine Raises.bind (Raises.read _) (fun recovered => ?_) s
      refine Raises.ite (fun _ => Raises.pure _) fun _ => ?_
      refine Raises.ite (fun _ => ends_throwing _) fun _ => ?_
      refine Raises.bind ends_query fun snapshots => ?_
      refine Raises.bind (Raises.each fun snapshot _ => ends_recoverSnapshot hl snapshot) fun _ => ?_
      refine Raises.bind ends_clearTemporaryTree fun _ => ?_
      exact Raises.bind ends_query fun _ => Raises.update _
  · -- an object that is read-only or has recovered before does nothing
    unfold recoverAfterWriterLock
    rw [wp_bind, wp_read]
    cases hflag : s.recoveryComplete with
    | true => exact h
    | false =>
      have hmode : r.mode ≠ .readWrite := fun hmode => hfresh ⟨hmode, hflag⟩
      rw [if_neg nofun, if_pos hmode]
      exact ⟨h, nofun⟩

/-- A loop whose first round fails. -/
theorem wp_rounds_refused {body : SessionM Bool}
    (h : body.wp (fun _ _ => False) (fun stop _ => stop ≠ .endless) s) (n : Nat) :
    (rounds body (n + 1)).wp (fun _ _ => False) (fun stop _ => stop ≠ .endless) s := by
  unfold rounds
  rw [wp_bind]
  exact wp_mono h (fun _ _ hno => hno.elim) fun _ _ h => h

theorem wp_delete_ends (h : Held v s) (limit : Nat) :
    (deleteDeletingSnapshot o id limit).wp (fun _ t => Held v t)
      (fun stop t => Held v t ∧ stop ≠ .endless) s := by
  have hrun : (deleteDeletingSnapshot o id limit).wp _
      (CutShort v o (supported limit && s.vault.db.ofStatus id [.deleting])) s :=
    wp_deleteDeletingSnapshot h limit
  have hkept := wp_mono hrun (fun _ _ ht => ht.1) (fun _ _ ht => ht.1)
  rcases checkedBatchLimit_cases limit with ⟨e, he, -⟩ | hl
  · unfold deleteDeletingSnapshot
    rw [he]
    exact ⟨h, nofun⟩
  · cases hs : s.vault.db.ofStatus id [.deleting] with
    | true =>
      rw [hl, hs] at hrun
      exact wp_mono hrun (fun _ _ ht => ht.1) fun _ _ ht => ⟨ht.1, (ht.2 rfl).ends⟩
    | false =>
      refine wp_ends hkept ?_
      obtain ⟨hchecked, -⟩ := checkedBatchLimit_of hl
      unfold deleteDeletingSnapshot
      rw [hchecked]
      dsimp only
      unfold removeEntries removeBatches
      rw [wp_bind, wp_bind, wp_read]
      refine wp_mono (wp_rounds_refused ?_ _) (fun _ _ hno => hno.elim) fun _ _ h => h
      rw [wp_bind]
      apply wp_transaction
      · rw [wp_bind]
        refine wp_requireStatus h.settles.consistent.toKeyed (fun hno => ?_) fun _ => nofun
        rw [hs] at hno
        cases hno
      · exact fun _ hstop => hstop.ends

end LocalVault.Repository
