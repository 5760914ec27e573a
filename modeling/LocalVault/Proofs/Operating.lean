import LocalVault.Proofs.Ending
import LocalVault.Proofs.Neighbours
import LocalVault.Proofs.Outcomes
import LocalVault.Repository.Operations

namespace LocalVault.Repository
open Library Snapshot Program

/-- A vault that every operation can work with. -/
structure Vault.Kept (v : Vault) : Prop where
  consistent : v.db.Consistent
  orderly : v.temporary.Orderly

/-- Nothing a reader sees has changed, and nothing it needs has gone. -/
structure Vault.Unseen (v w : Vault) : Prop where
  kept : w.Kept
  chunks : v.db.chunks <+: w.db.chunks
  objects : Grows v.objects w.objects
  issued : v.db.lastSnapshotId ≤ w.db.lastSnapshotId
  shown : w.db.published = v.db.published

/-- Nor has a file come under `objects/`. -/
structure Vault.Still (v w : Vault) : Prop extends v.Unseen w where
  same : w.objects = v.objects

/-- What an operation may do to a vault. -/
structure Vault.Moves (v w : Vault) : Prop where
  kept : w.Kept
  chunks : v.db.chunks <+: w.db.chunks
  objects : Grows v.objects w.objects
  changes : Catalogue.Changes v.db.catalogue w.db.catalogue

/-- What an operation may do that makes no snapshot. -/
structure Vault.Turns (v w : Vault) : Prop extends v.Moves w where
  same : w.objects = v.objects
  shown : ∀ id, w.db.published id = v.db.published id ∨ w.db.published id = none

variable {o : Outside} {r : Opened} {x : Externals} {f : Format} {s : Session} {u v w : Vault}
  {c : Config} {db : Database} {id : SnapshotId}

theorem Vault.Unseen.refl (h : v.Kept) : v.Unseen v :=
  ⟨h, List.prefix_rfl, Grows.refl, Nat.le_refl _, rfl⟩

theorem Vault.Unseen.trans (h : u.Unseen v) (h' : v.Unseen w) : u.Unseen w :=
  ⟨h'.kept, h.chunks.trans h'.chunks, h.objects.trans h'.objects, h.issued.trans h'.issued,
    h'.shown.trans h.shown⟩

theorem Vault.Unseen.moves (h : v.Unseen w) : v.Moves w := by
  refine ⟨h.kept, h.chunks, h.objects, .single ?_⟩
  have hstays : w.db.catalogue = ⟨w.db.lastSnapshotId, v.db.catalogue.shown⟩ := by
    unfold Database.catalogue
    rw [h.shown]
  rw [hstays]
  exact .stays _ (Int.ofNat_le.mpr h.issued)

theorem Vault.Unseen.andMoves (h : u.Unseen v) (h' : v.Moves w) : u.Moves w :=
  ⟨h'.kept, h.chunks.trans h'.chunks, h.objects.trans h'.objects, h.moves.changes.trans h'.changes⟩

theorem Vault.Kept.held (h : v.Kept) (hv : s.vault = v) : Held v s := by
  subst hv
  exact ⟨.refl h.consistent, rfl, h.orderly, rfl⟩

theorem Held.kept (h : Held v s) : s.vault.Kept := ⟨h.settles.consistent, h.orderly⟩

theorem Held.still (h : Held v s) : v.Still s.vault := by
  refine ⟨⟨h.kept, ?_, ?_, ?_, h.settles.published⟩, h.objects⟩
  · rw [h.settles.chunks]
  · rw [h.objects]
    exact Grows.refl
  · rw [h.settles.lastSnapshotId]

theorem Held.turns (h : Held v s) : v.Turns s.vault :=
  ⟨h.still.moves, h.objects, fun id => .inl (congrFun h.settles.published id)⟩

theorem wp_turns {m : SessionM Unit}
    (h : m.wp (fun _ t => Held v t) (fun stop t => Held v t ∧ stop ≠ .endless) s) :
    m.wp (fun _ t => v.Turns t.vault) (fun stop t => v.Turns t.vault ∧ stop ≠ .endless) s :=
  wp_mono h (fun _ _ ht => ht.turns) fun _ _ ht => ⟨ht.1.turns, ht.2⟩

theorem Vault.Still.refl (h : v.Kept) : v.Still v := ⟨.refl h, rfl⟩

theorem Vault.Turns.refl (h : v.Kept) : v.Turns v :=
  ⟨(Vault.Unseen.refl h).moves, rfl, fun _ => .inl rfl⟩

theorem Vault.Still.trans (h : u.Still v) (h' : v.Still w) : u.Still w :=
  ⟨h.toUnseen.trans h'.toUnseen, h'.same.trans h.same⟩

/-- The database of a vault moves by one transaction. -/
theorem Vault.Kept.withDb (h : v.Kept) (hdb : db.Consistent) : ({ v with db } : Vault).Kept :=
  ⟨hdb, h.orderly⟩

theorem wp_recoverAfter (hv : v.Kept) (hs : s.vault = v) :
    (recoverAfterWriterLock o r).wp (fun _ t => v.Turns t.vault)
      (fun stop t => v.Turns t.vault ∧ stop ≠ .endless) s :=
  wp_turns (wp_recovery (hv.held hs) r)

theorem wp_deleteDeleting (hv : v.Kept) (hs : s.vault = v) (limit : Nat) :
    (deleteDeletingSnapshot o id limit).wp (fun _ t => v.Turns t.vault)
      (fun stop t => v.Turns t.vault ∧ stop ≠ .endless) s :=
  wp_turns (wp_delete_ends (hv.held hs) limit)

theorem wp_requireSingle_either {missing multiple : LocalVaultError} (n : Nat)
    {Q : Unit → Database → Prop} {E : LocalVaultError → Database → Prop} (hq : Q () db)
    (he : ∀ e, E e db) : (requireSingle missing multiple n : Sql Unit).wp Q E db := by
  match n with
  | 0 => exact he _
  | 1 => exact hq
  | _ + 2 => exact he _

/-- What a deletion makes of a snapshot row. -/
def SnapshotRow.doomed (id : SnapshotId) (s : SnapshotRow) : SnapshotRow :=
  if s.id == id && s.status == .complete then { s with status := .deleting } else s

theorem doomed_id (s : SnapshotRow) : (SnapshotRow.doomed id s).id = s.id := by
  unfold SnapshotRow.doomed
  split <;> rfl

theorem doomed_status (s : SnapshotRow) (h : (SnapshotRow.doomed id s).status = .complete) :
    SnapshotRow.doomed id s = s ∧ s.id ≠ id := by
  unfold SnapshotRow.doomed at h ⊢
  split at h
  · cases h
  · rename_i hs
    rw [if_neg hs]
    exact ⟨rfl, by rintro rfl; simp [h] at hs⟩

/-- A complete row becomes one of a deletion. -/
theorem startDeleting_moves (hdb : db.Consistent) :
    (startDeleting id).wp
      (fun _ db' => db'.Consistent ∧ db'.chunks = db.chunks ∧
        Catalogue.Change db.catalogue db'.catalogue ∧
        ∀ j, db'.published j = db.published j ∨ db'.published j = none) (fun _ _ => True) db := by
  have hmoved : (db.withSnapshots (SnapshotRow.doomed id)).Consistent ∧
      Catalogue.Change db.catalogue (db.withSnapshots (SnapshotRow.doomed id)).catalogue ∧
      ∀ j, (db.withSnapshots (SnapshotRow.doomed id)).published j = db.published j ∨
        (db.withSnapshots (SnapshotRow.doomed id)).published j = none := by
    have hleaves : Leaves id db (db.withSnapshots (SnapshotRow.doomed id)) := by
      refine leaves_withSnapshots doomed_id fun s hs => ?_
      unfold SnapshotRow.doomed
      simp [hs]
    have hnone : (db.withSnapshots (SnapshotRow.doomed id)).published id = none := by
      rw [published_none, Database.ofStatus, List.any_eq_false]
      intro s hs hcomplete
      obtain ⟨q, -, rfl⟩ := List.mem_map.mp hs
      simp only [Bool.and_eq_true, beq_iff_eq, List.contains_iff_mem, List.mem_singleton] at hcomplete
      obtain ⟨hkept, hother⟩ := doomed_status q hcomplete.2
      exact hother ((doomed_id q).symm.trans hcomplete.1)
    refine ⟨hdb.withSnapshots doomed_id fun s hs => ?_, ?_, fun j => ?_⟩
    · rw [(doomed_status s hs).1] at hs
      exact hs
    · unfold Database.catalogue
      rw [hleaves.published, hnone]
      exact .withdraws id
    · by_cases hj : j = id
      · exact .inr (hj ▸ hnone)
      · exact .inl (hleaves.other hj)
  unfold startDeleting
  rw [wp_bind, wp_updateSnapshots]
  exact wp_requireSingle_either _ ⟨hmoved.1, rfl, hmoved.2⟩ fun _ => trivial

theorem wp_transition (hv : v.Kept) (hs : s.vault = v) :
    (transitionSnapshotToDeleting o id).wp (fun _ t => v.Turns t.vault)
      (fun stop t => v.Turns t.vault ∧ stop ≠ .endless) s := by
  subst hs
  have hsame : s.vault.Turns s.vault := .refl hv
  apply wp_transaction
  · refine wp_mono (startDeleting_moves hv.consistent) ?_ fun _ _ _ => ⟨hsame, nofun⟩
    rintro _ db ⟨hdb, hchunks, hchange, hshown⟩
    exact ⟨⟨hv.withDb hdb, hchunks ▸ List.prefix_rfl, Grows.refl, .single hchange⟩, rfl, hshown⟩
  · exact fun _ hstop => ⟨hsame, hstop.ends⟩

theorem wp_restoreSnapshot (hv : v.Kept) (hs : s.vault = v) (call : RestoreCall) :
    (restoreSnapshot o r x f call).wp (fun _ t => v.Turns t.vault)
      (fun stop t => v.Turns t.vault ∧ stop ≠ .endless) s := by
  have hself : Held v s := hv.held hs
  have houtcome : ∀ {α : Type} (result : Except LocalVaultError α) {t : Session}, Held v t →
      (outcome result).wp (fun _ t => Held v t) (fun stop t => Held v t ∧ stop ≠ .endless) t := by
    intro α result t ht
    cases result with
    | ok => exact ht
    | error => exact ⟨ht, nofun⟩
  have hcut : ∀ {t : Session}, Held v t → ∀ stop, FromOutside o stop →
      Held v t.tick ∧ stop ≠ .endless := fun ht _ hstop => ⟨ht.tick, hstop.ends⟩
  apply wp_turns
  unfold restoreSnapshot
  rw [wp_bind, wp_read]
  split
  · exact ⟨hself, nofun⟩
  · rename_i root world _
    have hlocked : (do
        Program.update Session.tick
        recoverAfterWriterLock o r
        let after ← Program.read (fun s : Session => r.view f s.vault call.resolvedRoot)
        let written := outcome (Restore.restoreRecovered x call.host after call.request root world).1
        calling o written written : SessionM Unit).wp (fun _ t => Held v t)
        (fun stop t => Held v t ∧ stop ≠ .endless) s := by
      rw [wp_bind, wp_update, wp_bind]
      refine wp_mono (wp_recovery hself.tick r) ?_ fun _ _ ht => ht
      intro _ t ht
      rw [wp_bind, wp_read]
      exact wp_calling (houtcome _ ht) (fun _ => houtcome _ ht) (hcut ht)
    rw [wp_bind] at hlocked ⊢
    exact wp_calling hlocked (fun _ => hlocked) (hcut hself)

end LocalVault.Repository
