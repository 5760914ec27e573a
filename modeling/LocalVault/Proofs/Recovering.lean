import LocalVault.Proofs.Interruptions
import LocalVault.Proofs.Lasting

namespace LocalVault.Repository
open Library Snapshot Program

variable {o : Outside} {r : Opened} {x : Externals} {f : Format} {s : System} {u v w : Vault}
  {db : Database} {events : List Event}

/-- Nothing fails. -/
def Outside.Calm (o : Outside) : Prop := ∀ n, o.fate n = .done

theorem Outside.Calm.stays (h : o.Calm) {stop : Stop} : ¬ FromOutside o stop := by
  intro hstop
  cases stop with
  | raised e =>
    obtain ⟨n, hn⟩ := hstop
    rw [h n] at hn
    cases hn
  | died =>
    obtain ⟨n, hn⟩ := hstop
    rw [h n] at hn
    cases hn
  | endless => exact hstop

/-- What a recovery that comes to its end makes of a vault. -/
structure Vault.Restored (v w : Vault) : Prop where
  statuses : ∀ q ∈ w.db.snapshots,
    q.status = .complete ∨ q.status = .failed ∨ q.status = .cancelled
  emptied : ∀ q ∈ w.db.snapshots, q.status ≠ .complete → w.db.entriesOf q.id = [] ∧
    w.db.referencesOf q.id = [] ∧ w.db.warningsOf q.id = []
  checked : quickRelationshipCheck w.db = .ok ()
  complete : w.db.published = v.db.published
  chunks : w.db.chunks = v.db.chunks
  objects : w.objects = v.objects

theorem referencesOf_nil {id : SnapshotId} (h : db.entriesOf id = []) : db.referencesOf id = [] := by
  unfold Database.referencesOf
  rw [h]
  exact List.filter_eq_nil_iff.mpr fun _ _ => nofun

theorem Recovered.restored {t : Session} (h : Recovered o v t) : v.Restored t.vault where
  statuses q hq := by
    by_cases hc : q.status = .complete
    · exact .inl hc
    · exact .inr ((h.quiet q hq hc).status q hq rfl)
  emptied q hq hc := by
    have hquiet := h.quiet q hq hc
    exact ⟨hquiet.entries, referencesOf_nil hquiet.entries, hquiet.warnings⟩
  checked := quickRelationshipCheck_quiet h.held.settles.consistent h.quiet
  complete := h.held.settles.published
  chunks := h.held.settles.chunks
  objects := h.held.objects

/-- Two directories are all that is left below `temporary/`. -/
def Temporary.Bare (t : Temporary) : Prop :=
  ∀ i, i ∈ t ↔ i = ⟨temporaryObjects, true⟩ ∨ i = ⟨temporaryRestores, true⟩

theorem find_none_of {t : Temporary} {path : Path} (h : (t.find path).isSome = false) :
    ∀ i ∈ t, i.path ≠ path := by
  intro i hi hpath
  have hsome := find_isSome_iff.mpr ⟨i, hi, hpath⟩
  rw [h] at hsome
  cases hsome

theorem tidied_bare {t : Temporary} (h : t.Orderly) : t.tidied.Bare := by
  intro i
  have hkept : i ∈ t.filter (fun i => Permanent i.path) →
      i = ⟨temporaryObjects, true⟩ ∨ i = ⟨temporaryRestores, true⟩ := by
    intro hi
    obtain ⟨hi, hperm⟩ := List.mem_filter.mp hi
    have hdirectory := h.directories i hi hperm
    obtain ⟨path, directory⟩ := i
    cases hdirectory
    rcases permanent_cases hperm with rfl | rfl
    · exact .inl rfl
    · exact .inr rfl
  have hthere : ∀ {path : Path}, Permanent path = true → (t.find path).isSome = true →
      (⟨path, true⟩ : TemporaryItem) ∈ t.filter (fun i => Permanent i.path) := by
    intro path hperm hsome
    obtain ⟨⟨_, directory⟩, hj, rfl⟩ := find_isSome_iff.mp hsome
    have hdirectory := h.directories _ hj hperm
    cases hdirectory
    exact List.mem_filter.mpr ⟨hj, hperm⟩
  unfold Temporary.tidied
  simp only [List.mem_append]
  constructor
  · rintro ((hi | hi) | hi)
    · exact hkept hi
    · split at hi
      · cases hi
      · exact .inl (List.mem_singleton.mp hi)
    · split at hi
      · cases hi
      · exact .inr (List.mem_singleton.mp hi)
  · rintro (rfl | rfl)
    · cases hobjects : (t.find temporaryObjects).isSome with
      | true => exact .inl (.inl (hthere rfl hobjects))
      | false => exact .inl (.inr (List.mem_singleton.mpr rfl))
    · cases hrestores : (t.find temporaryRestores).isSome with
      | true => exact .inl (.inl (hthere rfl hrestores))
      | false => exact .inr (List.mem_singleton.mpr rfl)

/-- What is held through several runs of the recovery. -/
theorem Held.trans {a b : Session} (h : Held v a) (h' : Held a.vault b) : Held v b :=
  ⟨h.settles.trans h'.settles, h'.objects.trans h.objects, h'.orderly, h'.tidied.trans h.tidied⟩

theorem Interrupted.held {os : List Outside} (hv : v.Kept)
    (h : Interrupted (fun o => recoverAfterWriterLock o r) os v w) : Held v (.start w) := by
  induction h with
  | none v => exact hv.held rfl
  | @again o os v w stop t hrun rest ih =>
    have hheld : Held v (Session.start v) := hv.held rfl
    have hstep := wp_recovery (o := o) hheld r
    unfold wp at hstep
    rw [hrun] at hstep
    exact hstep.1.trans (ih hstep.1.kept)

/-- A calm recovery returns, whatever was left. -/
theorem calm_recovery (hv : v.Kept) (hmode : r.mode = .readWrite)
    (hlimit : supported r.recoveryEntryBatchLimit = true) (ho : o.Calm) :
    ∃ t, recoverAfterWriterLock o r (.start v) = (.ok (), t) ∧ Recovered o v t ∧
      t.recoveryComplete = true ∧ t.vault.temporary = v.temporary.tidied := by
  have hheld : Held v (Session.start v) := hv.held rfl
  have hrun := wp_recoverAfterWriterLock (o := o) hheld ⟨hmode, rfl⟩
  rw [hlimit] at hrun
  obtain ⟨_, t, hreturns, ht⟩ := returns (wp_mono hrun (fun _ _ ht => ht)
    fun _ _ hcut => ho.stays (hcut.2 rfl))
  have hcomplete : t.recoveryComplete = true := by
    rcases ht.complete with hc | ⟨n, hn⟩
    · exact hc
    · rw [ho n] at hn
      cases hn
  exact ⟨t, hreturns, ht, hcomplete, ht.temporary hcomplete⟩

/-- The same vault up to the times at which snapshots were given up. -/
structure Vault.Alike (v w : Vault) : Prop where
  db : v.db.untimed = w.db.untimed
  objects : v.objects = w.objects
  temporary : v.temporary = w.temporary

/-- Behind every history a recovery that nothing disturbs returns with everything tidy and
everything complete kept, and runs that were cut off before it make no difference. -/
theorem reached_recovers (h : Reached f x events s) (hmode : r.mode = .readWrite)
    (hlimit : supported r.recoveryEntryBatchLimit = true) (ho : o.Calm) :
    ∃ t, recoverAfterWriterLock o r (.start s.vault) = (.ok (), t) ∧ s.vault.Restored t.vault ∧
      Temporary.Bare t.vault.temporary ∧
      ∀ os w, Interrupted (fun o => recoverAfterWriterLock o r) os s.vault w →
        ∀ o' : Outside, o'.Calm → ∃ t', recoverAfterWriterLock o' r (.start w) = (.ok (), t') ∧
          t'.vault.Alike t.vault := by
  have hv := (reached_kept h).1
  obtain ⟨t, hrun, hrecovered, -, htemporary⟩ := calm_recovery hv hmode hlimit ho
  refine ⟨t, hrun, hrecovered.restored, htemporary ▸ tidied_bare hv.orderly, ?_⟩
  intro os w hcut o' ho'
  have hheld := hcut.held hv
  obtain ⟨t', hrun', hrecovered', -, htemporary'⟩ := calm_recovery hheld.kept hmode hlimit ho'
  refine ⟨t', hrun', ?_, ?_, ?_⟩
  · rw [← recovered_quiet hrecovered'.held.settles.consistent hrecovered'.quiet,
      ← recovered_quiet hrecovered.held.settles.consistent hrecovered.quiet,
      hrecovered'.held.settles.recovered, hrecovered.held.settles.recovered]
    exact hheld.settles.recovered
  · rw [hrecovered'.held.objects, hrecovered.held.objects]
    exact hheld.objects
  · rw [htemporary', htemporary]
    exact hheld.tidied

/-- A snapshot whose process dies behind the pending row. -/
def cutSnapshot : SnapshotCall :=
  { folderSnapshot with call := { folderCall with schedule := [] } }

/-- One process has recovered the repository, and another dies in a snapshot. -/
def cutHistory : List Event :=
  [.opens 0 sampleOpened, .opens 1 sampleOpened, .performs 0 sampleOutside .recover,
    .performs 1 sampleOutside (.createSnapshot cutSnapshot)]

theorem sampleOutside_calm : sampleOutside.Calm := fun _ => rfl

theorem reached_recovers_cut : ∃ s, Reached smallFormat sampleExternals cutHistory s ∧
    s.vault.db.ofStatus 1 [.pending] = true ∧
    ∃ t, recoverAfterWriterLock sampleOutside sampleOpened (.start s.vault) = (.ok (), t) ∧
      s.vault.Restored t.vault ∧ Temporary.Bare t.vault.temporary := by
  have hrun : (runs (System.step smallFormat sampleExternals) System.fresh cutHistory).any
      (fun s => s.vault.db.ofStatus 1 [.pending]) = true := by
    decide +kernel
  obtain ⟨s, hs, hpending⟩ := (Option.any_eq_true _ _).mp hrun
  obtain ⟨t, hreturns, hrestored, hbare, -⟩ :=
    reached_recovers (r := sampleOpened) hs rfl (by decide) sampleOutside_calm
  exact ⟨s, hs, hpending, t, hreturns, hrestored, hbare⟩

/-- A batch limit beyond the integers of SQLite is refused when there is something to recover. -/
theorem recovery_refuses_limit : ∃ s, Reached smallFormat sampleExternals cutHistory s ∧
    ∃ e t, recoverAfterWriterLock sampleOutside
      { sampleOpened with recoveryEntryBatchLimit := 2 ^ 63 } (.start s.vault) =
        (.error (.raised e), t) := by
  have hrun : (runs (System.step smallFormat sampleExternals) System.fresh cutHistory).any
      (fun s => raises (fun e _ => e.isRaised) (recoverAfterWriterLock sampleOutside
        { sampleOpened with recoveryEntryBatchLimit := 2 ^ 63 } (.start s.vault))) = true := by
    decide +kernel
  obtain ⟨s, hs, hraises⟩ := (Option.any_eq_true _ _).mp hrun
  obtain ⟨e, t, hreturns, hraised⟩ := raises_iff.mp hraises
  cases e with
  | raised e => exact ⟨s, hs, e, t, hreturns⟩
  | _ => cases hraised

/-- On an object that has not come through a recovery, one that returns has recovered the
repository, whoever left it as it was. An object that has does not look again. -/
theorem handle_recovers {index calls : Nat} {handle : Handle} {t : Session}
    (h : Reached f x events s) (hhandle : s.handles[index]? = some handle)
    (hreturns : recoverAfterWriterLock o handle.opened ⟨s.vault, calls, handle.recoveryComplete⟩ =
      (.ok (), t)) :
    (handle.recoveryComplete = false → s.vault.Restored t.vault ∧
      (t.recoveryComplete = true → Temporary.Bare t.vault.temporary)) ∧
    (handle.recoveryComplete = true → t.vault = s.vault) := by
  have hv := (reached_kept h).1
  constructor
  · intro hfirst
    rw [hfirst] at hreturns
    have hmode : handle.opened.mode = .readWrite := by
      by_contra hno
      unfold recoverAfterWriterLock at hreturns
      obtain ⟨_, _, hread, hreturns⟩ := Program.bind_returns.mp hreturns
      cases hread
      rw [if_neg (by simp), if_pos hno] at hreturns
      cases hreturns
    have hrun := wp_recoverAfterWriterLock (o := o) (r := handle.opened)
      (hv.held (s := ⟨s.vault, calls, false⟩) rfl) ⟨hmode, rfl⟩
    unfold wp at hrun
    rw [hreturns] at hrun
    refine ⟨Recovered.restored hrun, fun hcomplete => ?_⟩
    rw [hrun.temporary hcomplete]
    exact tidied_bare hv.orderly
  · intro hlater
    rw [hlater] at hreturns
    unfold recoverAfterWriterLock at hreturns
    obtain ⟨_, _, hread, hreturns⟩ := Program.bind_returns.mp hreturns
    cases hread
    cases hreturns
    rfl

theorem handle_recovers_cut : ∃ s handle t,
    Reached smallFormat sampleExternals (cutHistory ++ [.opens 2 sampleOpened]) s ∧
    s.handles[1]? = some handle ∧
    recoverAfterWriterLock sampleOutside handle.opened ⟨s.vault, 0, handle.recoveryComplete⟩ =
      (.ok (), t) ∧
    s.vault.Restored t.vault ∧ Temporary.Bare t.vault.temporary := by
  have hrun : (runs (System.step smallFormat sampleExternals) System.fresh
      (cutHistory ++ [.opens 2 sampleOpened])).any (fun s => s.handles[1]?.any (fun handle =>
        gives (fun _ t => !handle.recoveryComplete && t.recoveryComplete)
          (recoverAfterWriterLock sampleOutside handle.opened
            ⟨s.vault, 0, handle.recoveryComplete⟩))) = true := by
    decide +kernel
  obtain ⟨s, hs, hhandles⟩ := (Option.any_eq_true _ _).mp hrun
  obtain ⟨handle, hhandle, hgives⟩ := (Option.any_eq_true _ _).mp hhandles
  obtain ⟨_, t, hreturns, hrecovered⟩ := gives_iff.mp hgives
  simp only [Bool.and_eq_true, Bool.not_eq_true'] at hrecovered
  obtain ⟨hrestored, hbare⟩ := (handle_recovers hs hhandle hreturns).1 hrecovered.1
  exact ⟨s, handle, t, hs, hhandle, hreturns, hrestored, hbare hrecovered.2⟩

/-- The first process starts its next operation on what the second has left. -/
theorem handle_unrecovered_cut : ∃ s handle t,
    Reached smallFormat sampleExternals cutHistory s ∧ s.handles[0]? = some handle ∧
    recoverAfterWriterLock sampleOutside handle.opened ⟨s.vault, 0, handle.recoveryComplete⟩ =
      (.ok (), t) ∧
    t.recoveryComplete = true ∧ t.vault.db.ofStatus 1 [.pending] = true := by
  have hrun : (runs (System.step smallFormat sampleExternals) System.fresh cutHistory).any
      (fun s => s.handles[0]?.any (fun handle =>
        gives (fun _ t => t.recoveryComplete && t.vault.db.ofStatus 1 [.pending])
          (recoverAfterWriterLock sampleOutside handle.opened
            ⟨s.vault, 0, handle.recoveryComplete⟩))) = true := by
    decide +kernel
  obtain ⟨s, hs, hhandles⟩ := (Option.any_eq_true _ _).mp hrun
  obtain ⟨handle, hhandle, hgives⟩ := (Option.any_eq_true _ _).mp hhandles
  obtain ⟨_, t, hreturns, hleft⟩ := gives_iff.mp hgives
  rw [Bool.and_eq_true] at hleft
  exact ⟨s, handle, t, hs, hhandle, hreturns, hleft⟩

end LocalVault.Repository
