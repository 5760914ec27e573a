import LocalVault.Proofs.Making
import LocalVault.Proofs.Treelike

namespace LocalVault.Repository
open Library Snapshot Program

variable {o : Outside} {r : Opened} {x : Externals} {f : Format} {s t : System} {u v w : Vault}
  {event : Event} {events before after : List Event} {id : SnapshotId}

theorem Vault.Moves.refl (h : v.Kept) : v.Moves v := (Vault.Unseen.refl h).moves

theorem Vault.Moves.trans (h : u.Moves v) (h' : v.Moves w) : u.Moves w :=
  ⟨h'.kept, h.chunks.trans h'.chunks, h.objects.trans h'.objects, h.changes.trans h'.changes⟩

theorem wp_writing (hv : v.Kept) {m : SessionM Unit} {s : Session} (hs : s.vault = v)
    (hm : m.wp (fun _ t => v.Turns t.vault) (fun stop t => v.Turns t.vault ∧ stop ≠ .endless) s) :
    (writing r m).wp (fun _ t => v.Turns t.vault)
      (fun stop t => v.Turns t.vault ∧ stop ≠ .endless) s := by
  subst hs
  unfold writing
  split
  · exact hm
  · exact ⟨.refl hv, nofun⟩

/-- The operations that make no snapshot leave the objects alone and show nothing new. -/
theorem perform_turns (hv : v.Kept) (operation : Operation) (recovered : Bool)
    (hother : ∀ call, operation ≠ .createSnapshot call) :
    (operation.perform f x o r).wp (fun _ t => v.Turns t.vault)
      (fun stop t => v.Turns t.vault ∧ stop ≠ .endless) ⟨v, 0, recovered⟩ := by
  cases operation with
  | createSnapshot call => exact absurd rfl (hother call)
  | restore call => exact wp_restoreSnapshot hv rfl call
  | transitionSnapshotToDeleting id => exact wp_writing hv rfl (wp_transition hv rfl)
  | deleteDeletingSnapshot id limit => exact wp_writing hv rfl (wp_deleteDeleting hv rfl limit)
  | recover => exact wp_recoverAfter hv rfl

/-- However an operation ends, it ends, and it has made an admitted move. What is said of the
files under `objects/` has to be kept by the threads of a snapshot only. -/
theorem perform_moves {R : Objects → Prop} (hv : v.Kept) (hstart : R v.objects)
    (operation : Operation) (recovered : Bool)
    (hthreads : ∀ call, operation = .createSnapshot call → ∀ c (begun : Session),
      c.chunkSize = f.chunkSize → begun.vault.objects = v.objects →
        R (call.made.final x c begun.vault).vault.objects) :
    (operation.perform f x o r).wp (fun _ t => v.Moves t.vault ∧ R t.vault.objects)
      (fun stop t => (v.Moves t.vault ∧ R t.vault.objects) ∧ stop ≠ .endless)
      ⟨v, 0, recovered⟩ := by
  by_cases hmakes : ∃ call, operation = .createSnapshot call
  · obtain ⟨call, rfl⟩ := hmakes
    unfold Operation.perform
    rw [wp_bind]
    refine wp_mono (wp_createSnapshot hv rfl hstart (hthreads call rfl)) ?_ ?_
    · exact fun _ _ ht => ⟨ht.1, ht.2.1⟩
    · exact fun _ _ ht => ⟨⟨ht.1.moves, ht.2.1⟩, ht.2.2⟩
  · have hturned : ∀ {w : Vault}, v.Turns w → v.Moves w ∧ R w.objects := by
      intro w hw
      refine ⟨hw.toMoves, ?_⟩
      rw [hw.same]
      exact hstart
    refine wp_mono (perform_turns hv operation recovered fun call he => hmakes ⟨call, he⟩) ?_ ?_
    · exact fun _ _ ht => hturned ht
    · exact fun _ _ ht => ⟨hturned ht.1, ht.2⟩

theorem ended_vault (index : Nat) (handle : Handle) (run : Except Stop Unit × Session) :
    (s.ended index handle run).vault = run.2.vault := by
  obtain ⟨result, t⟩ := run
  cases result with
  | ok => rfl
  | error stop => cases stop <;> rfl

theorem step_moves (hs : s.vault.Kept) (h : s.step f x event = some t) : s.vault.Moves t.vault := by
  cases event with
  | opens process opened =>
    cases h
    exact .refl hs
  | closes index =>
    cases h
    exact .refl hs
  | crashes process =>
    cases h
    exact .refl hs
  | performs index o operation =>
    obtain ⟨handle, -, rfl⟩ := Option.map_eq_some_iff.mp h
    rw [ended_vault]
    exact wp_final (wp_mono (perform_moves (R := fun _ => True) hs trivial operation
      handle.recoveryComplete fun _ _ _ _ _ _ => trivial) (fun _ _ ht => ht.1) fun _ _ ht => ht.1.1)

theorem fresh_kept : Vault.fresh.Kept := by
  refine ⟨empty_consistent, ?_⟩
  have hall : ∀ i ∈ Vault.fresh.temporary, i.path.length = 1 ∧ i.directory = true := by
    intro i hi
    rcases List.mem_cons.mp hi with rfl | hi
    · exact ⟨rfl, rfl⟩
    · rw [List.mem_singleton.mp hi]
      exact ⟨rfl, rfl⟩
  refine ⟨fun i hi hnil => ?_, fun i hi hlong => ?_, fun i hi _ => (hall i hi).2⟩
  · have hlen := (hall i hi).1
    rw [hnil] at hlen
    cases hlen
  · have hlen := (hall i hi).1
    omega

/-- A history moves a vault that operations can work with. -/
theorem runs_moves (hs : s.vault.Kept) (h : runs (System.step f x) s events = some t) :
    s.vault.Moves t.vault := by
  refine runs_invariant (P := fun u => s.vault.Moves u.vault) (Q := fun _ => True)
    (fun u event w _ hu hw => hu.trans (step_moves hu.kept hw)) (.refl hs) (fun _ _ => trivial) h

/-- A call on a directory with a file in it. -/
def folderSnapshot : SnapshotCall :=
  ⟨sampleEngine, folderCall, collecting, folderSource, everything⟩

theorem smallFormat_positive : 0 < 4 := by decide

theorem smallFormat_supported : 4 ≤ permanentMaximumChunkSize := by decide

def smallFormat : Format := ⟨4, smallFormat_positive, smallFormat_supported⟩

/-- A repository is opened and gets a snapshot. -/
def folderHistory : List Event :=
  [.opens 0 sampleOpened, .performs 0 sampleOutside (.createSnapshot folderSnapshot)]

theorem folderHistory_reached : ∃ s, Reached smallFormat sampleExternals folderHistory s ∧
    s.vault.db.ofStatus 1 [.complete] = true := by
  have hrun : (runs (System.step smallFormat sampleExternals) System.fresh folderHistory).any
      (fun s => s.vault.db.ofStatus 1 [.complete]) = true := by
    decide +kernel
  obtain ⟨s, hs, hcomplete⟩ := (Option.any_eq_true _ _).mp hrun
  exact ⟨s, hs, hcomplete⟩

/-- In every state that a history leads to, the schema holds, `temporary/` is a tree, and every
operation that is started comes to an end. -/
theorem reached_kept (h : Reached f x events s) :
    s.vault.Kept ∧ ∀ (o : Outside) (r : Opened) (recovered : Bool) (operation : Operation),
      (operation.perform f x o r ⟨s.vault, 0, recovered⟩).1 ≠ .error .endless := by
  have hkept := (runs_moves fresh_kept h).kept
  refine ⟨hkept, fun o r recovered operation hend => ?_⟩
  have hrun := perform_moves (R := fun _ => True) (f := f) (x := x) (o := o) (r := r) hkept trivial
    operation recovered fun _ _ _ _ _ _ => trivial
  unfold wp at hrun
  rcases hp : operation.perform f x o r ⟨s.vault, 0, recovered⟩ with ⟨result, t⟩
  rw [hp] at hrun hend
  cases hend
  exact hrun.2 rfl

theorem reached_kept_folder : ∃ s, Reached smallFormat sampleExternals folderHistory s ∧
    s.vault.Kept ∧
    (Operation.recover.perform smallFormat sampleExternals sampleOutside sampleOpened
      ⟨s.vault, 0, false⟩).1 ≠ .error .endless := by
  obtain ⟨s, hs, -⟩ := folderHistory_reached
  obtain ⟨hkept, hends⟩ := reached_kept hs
  exact ⟨s, hs, hkept, hends sampleOutside sampleOpened false .recover⟩

theorem issued_of_consistent {db : Database} (h : db.Consistent) : db.catalogue.Issued := by
  intro id shown hshown
  obtain ⟨q, hq, hid, -⟩ := Database.ofStatus_iff.mp (published_some.mp ⟨shown, hshown⟩)
  exact hid ▸ h.snapshotIds q hq

/-- A repository refines a catalogue: behind every history, each further one shows a snapshot under
a new identifier once, never alters it, and takes it away for good; chunk rows and objects only
come. -/
theorem history_catalogue {later : List Event} (h : Reached f x events s)
    (hlater : runs (System.step f x) s later = some t) :
    Catalogue.Changes s.vault.db.catalogue t.vault.db.catalogue ∧
      (∀ id, id ≤ (s.vault.db.lastSnapshotId : Int) →
        t.vault.db.published id = s.vault.db.published id ∨ t.vault.db.published id = none) ∧
      (∀ id shown, s.vault.db.published id = some shown → id ≤ (s.vault.db.lastSnapshotId : Int)) ∧
      s.vault.db.chunks <+: t.vault.db.chunks ∧ Grows s.vault.objects t.vault.objects := by
  have hkept := (runs_moves fresh_kept h).kept
  have hmoves := runs_moves hkept hlater
  exact ⟨hmoves.changes, fun _ hid => hmoves.changes.shown hid, issued_of_consistent hkept.consistent,
    hmoves.chunks, hmoves.objects⟩

theorem history_catalogue_deletes : ∃ s t, Reached smallFormat sampleExternals folderHistory s ∧
    runs (System.step smallFormat sampleExternals) s
      [.performs 0 sampleOutside (.transitionSnapshotToDeleting 1)] = some t ∧
    s.vault.db.ofStatus 1 [.complete] = true ∧ t.vault.db.ofStatus 1 [.complete] = false ∧
    Catalogue.Changes s.vault.db.catalogue t.vault.db.catalogue := by
  have hrun : (runs (System.step smallFormat sampleExternals) System.fresh folderHistory).any
      (fun s => (runs (System.step smallFormat sampleExternals) s
        [.performs 0 sampleOutside (.transitionSnapshotToDeleting 1)]).any
          (fun t => s.vault.db.ofStatus 1 [.complete] && !t.vault.db.ofStatus 1 [.complete])) =
      true := by
    decide +kernel
  obtain ⟨s, hs, hrun⟩ := (Option.any_eq_true _ _).mp hrun
  obtain ⟨t, ht, hshown⟩ := (Option.any_eq_true _ _).mp hrun
  rw [Bool.and_eq_true, Bool.not_eq_true'] at hshown
  exact ⟨s, t, hs, ht, hshown.1, hshown.2, (history_catalogue hs ht).1⟩

end LocalVault.Repository
