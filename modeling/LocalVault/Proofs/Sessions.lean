import LocalVault.Proofs.Statements
import LocalVault.Repository.Recovery

namespace LocalVault.Repository
open Library Program

variable {α : Type} {o : Outside} {J : Database → Prop} {objects : Objects}

/-- A session that keeps a property of the tables, and all objects. -/
def Keeps (J : Database → Prop) (objects : Objects) (s : Session) : Prop :=
  J s.vault.db ∧ s.vault.objects = objects

theorem Keeps.tick {s : Session} (h : Keeps J objects s) : Keeps J objects s.tick := h

theorem keeps_calling {refused next : SessionM α} (hr : Maintains (Keeps J objects) refused)
    (hn : Maintains (Keeps J objects) next) : Maintains (Keeps J objects) (calling o refused next) := by
  intro s hs
  unfold wp calling
  cases o.fate s.calls with
  | done => exact hn s hs
  | raises e => exact hs.tick
  | shared => exact hr s hs
  | dies => exact hs.tick

theorem keeps_transaction {body : Sql α} (hb : Maintains J body) :
    Maintains (Keeps J objects) (transaction o body) := by
  have hcommit : Maintains (Keeps J objects) (committing body) := by
    intro s hs
    have hbody := hb s.vault.db hs.1
    unfold wp at hbody
    unfold wp committing
    rcases he : body s.vault.db with ⟨r, db⟩
    cases r with
    | error e => exact hs.tick
    | ok a =>
      rw [he] at hbody
      exact ⟨hbody, hs.2⟩
  exact keeps_calling hcommit hcommit

theorem transaction_returns {body : Sql α} {s t : Session} {a : α}
    (h : transaction o body s = (.ok a, t)) :
    ∃ db, body s.vault.db = (.ok a, db) ∧ t.vault = { s.vault with db } := by
  unfold transaction calling committing at h
  rcases he : body s.vault.db with ⟨r, db⟩
  rw [he] at h
  cases r with
  | error e => cases hf : o.fate s.calls <;> simp [hf] at h
  | ok b =>
    cases hf : o.fate s.calls <;> simp only [hf, Prod.mk.injEq, Except.ok.injEq, reduceCtorEq,
      false_and] at h
    all_goals
      obtain ⟨rfl, rfl⟩ := h
      exact ⟨db, rfl, rfl⟩

theorem keeps_query {look : Database → Except LocalVaultError α} :
    Maintains (Keeps J objects) (query o look) := by
  have hlook : Maintains (Keeps J objects) (looking look) := by
    intro s hs
    unfold wp looking
    cases look s.vault.db with
    | error e => exact hs.tick
    | ok a => exact hs.tick
  exact keeps_calling hlook hlook

theorem keeps_rounds {body : SessionM Bool} (hb : Maintains (Keeps J objects) body) (n : Nat) :
    Maintains (Keeps J objects) (rounds body n) := by
  induction n with
  | zero => exact Maintains.raise _
  | succ n ih =>
    refine Maintains.bind hb (fun last => ?_)
    exact Maintains.ite (fun _ => Maintains.pure _) (fun _ => ih)

theorem keeps_temporary {f : Session → Session}
    (hf : ∀ s, (f s).vault.db = s.vault.db ∧ (f s).vault.objects = s.vault.objects) :
    Maintains (Keeps J objects) (Program.update f : SessionM Unit) := by
  refine Maintains.update (fun s hs => ?_)
  obtain ⟨hdb, hobjects⟩ := hf s
  exact ⟨hdb ▸ hs.1, hobjects.trans hs.2⟩

theorem keeps_throwing (e : LocalVaultError) :
    Maintains (Keeps J objects) (throwing e : SessionM α) := Maintains.raise _

/-- A property of the tables that survives what recovery does to them. -/
structure Withstands (J : Database → Prop) : Prop where
  entries : ∀ {db} drop, J db → J (Database.dropEntries db drop)
  warnings : ∀ {db} drop, J db → J (Database.dropWarnings db drop)
  snapshots : ∀ {db} drop, J db → J (Database.dropSnapshots db drop)
  failed : ∀ {db} id message t, J db → J (Database.withSnapshots db (fun s =>
    if isPending id s then s.abandoned .failed message t else s))

theorem maintains_requireSingle {missing multiple : LocalVaultError} {n : Nat} :
    Maintains J (requireSingle missing multiple n) := by
  unfold requireSingle
  split
  · exact Maintains.raise _
  · exact Maintains.pure _
  · exact Maintains.raise _

theorem maintains_requireStatus {id : SnapshotId} {statuses : List SnapshotStatus}
    {missing multiple : LocalVaultError} :
    Maintains J (requireStatus id statuses missing multiple) :=
  Maintains.bind (Maintains.read _) (fun _ => maintains_requireSingle)

theorem keeps_removeBatches {requireStatus : Sql Unit} {rows : Database → Nat} {batch : Sql Nat}
    (hr : Maintains J requireStatus) (hb : Maintains J batch) :
    Maintains (Keeps J objects) (removeBatches o requireStatus rows batch) := by
  refine Maintains.bind (Maintains.read _) (fun count => keeps_rounds ?_ _)
  exact Maintains.bind (keeps_transaction (Maintains.bind hr (fun _ => hb)))
    (fun _ => Maintains.pure _)

variable (hw : Withstands J)

include hw

theorem keeps_removeEntries {id : SnapshotId} {limit : Nat} {requireStatus : Sql Unit}
    (hr : Maintains J requireStatus) :
    Maintains (Keeps J objects) (removeEntries o id limit requireStatus) :=
  keeps_removeBatches hr (fun _ h => hw.entries _ h)

theorem keeps_removeWarnings {id : SnapshotId} {limit : Nat} {requireStatus : Sql Unit}
    (hr : Maintains J requireStatus) :
    Maintains (Keeps J objects) (removeWarnings o id limit requireStatus) :=
  keeps_removeBatches hr (fun _ h => hw.warnings _ h)

theorem keeps_cleanIncompleteSnapshot {id : SnapshotId} {limit : Nat} :
    Maintains (Keeps J objects) (cleanIncompleteSnapshot o id limit) := by
  unfold cleanIncompleteSnapshot
  split
  · exact keeps_throwing _
  · exact Maintains.bind (keeps_removeEntries hw maintains_requireStatus)
      (fun _ => keeps_removeWarnings hw maintains_requireStatus)

theorem keeps_deleteDeletingSnapshot {id : SnapshotId} {limit : Nat} :
    Maintains (Keeps J objects) (deleteDeletingSnapshot o id limit) := by
  unfold deleteDeletingSnapshot
  split
  · exact keeps_throwing _
  · refine Maintains.bind (keeps_removeEntries hw maintains_requireStatus) (fun _ => ?_)
    refine Maintains.bind (keeps_removeWarnings hw maintains_requireStatus) (fun _ => ?_)
    refine keeps_transaction (Maintains.bind ?_ (fun _ => maintains_requireSingle))
    exact fun _ h => hw.snapshots _ h

theorem keeps_recoverSnapshot {limit : Nat} {snapshot : IncompleteSnapshotInfo} :
    Maintains (Keeps J objects) (recoverSnapshot o limit snapshot) := by
  unfold recoverSnapshot
  cases snapshot.status with
  | pending =>
    refine Maintains.bind ?_ (fun _ => keeps_cleanIncompleteSnapshot hw)
    refine Maintains.bind (Maintains.read _) (fun _ => keeps_transaction
      (Maintains.bind ?_ (fun _ => maintains_requireSingle)))
    exact fun _ h => hw.failed _ _ _ h
  | complete => exact keeps_throwing _
  | failed => exact keeps_cleanIncompleteSnapshot hw
  | cancelled => exact keeps_cleanIncompleteSnapshot hw
  | deleting => exact keeps_deleteDeletingSnapshot hw

omit hw

theorem keeps_removeAll (paths : List Path) :
    Maintains (Keeps J objects) (removeAll o paths) := by
  induction paths with
  | nil => exact Maintains.pure _
  | cons path paths ih =>
    refine keeps_calling (fun _ h => h) ?_
    exact Maintains.bind (keeps_temporary (fun _ => ⟨rfl, rfl⟩)) (fun _ => ih)

theorem keeps_removeRecoveryPath {path : Path} :
    Maintains (Keeps J objects) (removeRecoveryPath o path) :=
  Maintains.bind (Maintains.read _) (fun _ => keeps_removeAll _)

theorem keeps_clearItems (paths : List Path) : Maintains (Keeps J objects) (clearItems o paths) := by
  induction paths with
  | nil => exact Maintains.pure _
  | cons path paths ih =>
    refine Maintains.bind keeps_removeRecoveryPath (fun _ => ?_)
    exact Maintains.bind ih (fun _ => Maintains.pure _)

theorem keeps_requireRecoveryDirectory {path : Path} :
    Maintains (Keeps J objects) (requireRecoveryDirectory o path) := by
  have hensure : Maintains (Keeps J objects) (ensureRecoveryDirectory path) := by
    refine Maintains.bind (Maintains.read _) (fun found => ?_)
    cases found with
    | none => exact keeps_temporary (fun _ => ⟨rfl, rfl⟩)
    | some item =>
      exact Maintains.ite (fun _ => keeps_temporary (fun _ => ⟨rfl, rfl⟩)) (fun _ => keeps_throwing _)
  exact keeps_calling hensure hensure

theorem keeps_clearTemporaryItems (paths : List Path) :
    Maintains (Keeps J objects) (clearTemporaryItems o paths) := by
  induction paths with
  | nil => exact Maintains.pure _
  | cons path paths ih =>
    refine Maintains.bind ?_ (fun _ => Maintains.bind ih (fun _ => Maintains.pure _))
    refine Maintains.ite (fun _ => ?_) (fun _ => keeps_removeRecoveryPath)
    exact Maintains.bind keeps_requireRecoveryDirectory
      (fun _ => Maintains.bind (Maintains.read _) (fun _ => keeps_clearItems _))

theorem keeps_clearTemporaryTree : Maintains (Keeps J objects) (clearTemporaryTree o) := by
  refine Maintains.bind (Maintains.read _) (fun _ => ?_)
  refine Maintains.bind (keeps_clearTemporaryItems _) (fun _ => ?_)
  refine Maintains.bind keeps_requireRecoveryDirectory (fun _ => ?_)
  exact Maintains.bind keeps_requireRecoveryDirectory (fun _ => Maintains.pure _)

/-- Recovery keeps what withstands it. -/
theorem keeps_recoverAfterWriterLock (hw : Withstands J) {r : Opened} :
    Maintains (Keeps J objects) (recoverAfterWriterLock o r) := by
  refine Maintains.bind (Maintains.read _) (fun _ => ?_)
  refine Maintains.ite (fun _ => Maintains.pure _) (fun _ => ?_)
  refine Maintains.ite (fun _ => keeps_throwing _) (fun _ => ?_)
  refine Maintains.bind keeps_query (fun _ => ?_)
  refine Maintains.bind (Maintains.each (fun _ _ => keeps_recoverSnapshot hw)) (fun _ => ?_)
  refine Maintains.bind keeps_clearTemporaryTree (fun _ => ?_)
  exact Maintains.bind keeps_query (fun _ => keeps_temporary (fun _ => ⟨rfl, rfl⟩))

/-- Recovery leaves the chunks table alone. -/
def ChunksAre (chunks : List ChunkRow) (db : Database) : Prop := db.chunks = chunks

theorem chunksAre_withstands {chunks : List ChunkRow} : Withstands (ChunksAre chunks) :=
  ⟨fun _ h => h, fun _ h => h, fun _ h => h, fun _ _ _ h => h⟩

theorem consistent_withstands : Withstands Database.Consistent where
  entries drop h := h.dropEntries drop
  warnings drop h := h.dropWarnings drop
  snapshots drop h := h.dropSnapshots drop
  failed id message t h := by
    apply h.withSnapshots
    · intro s
      by_cases hp : isPending id s = true <;> simp [hp, SnapshotRow.abandoned]
    · intro s hs
      by_cases hp : isPending id s = true
      · simp [hp, SnapshotRow.abandoned] at hs
      · simpa [hp] using hs

end LocalVault.Repository
