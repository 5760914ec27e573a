import LocalVault.Proofs.Lasting
import LocalVault.Proofs.Loading

namespace LocalVault
open Library Restore

namespace Snapshot
open Repository

variable {o : Outside} {r : Opened} {x : Externals} {c : Config} {engine : Engine} {call : Call}
  {before begun after : Session} {result : SnapshotResult} {db : Database}
  {ps : List ProcessedEntry} {p : ProcessedEntry}

/-- A symbolic link names something. -/
def FileJob.Linked : FileJob → Prop
  | .entry e => e.type = .symbolicLink → e.symlinkTarget.any (fun target => target != []) = true
  | .warning _ => True

instance : DecidablePred FileJob.Linked
  | .entry _ => inferInstanceAs (Decidable (_ → _))
  | .warning _ => inferInstanceAs (Decidable True)

theorem Result.linked (h : Result c x p) (ho : p.origin.Linked) : p.value.Linked := by
  cases h with
  | passed hj hp =>
    rw [hp]
    exact ho
  | stored e a refs _ ht hacc hv hsame hrefs hspool hsize hhash hcount htries hsource =>
    rw [hv]
    intro hlink
    rw [ht] at hlink
    cases hlink
  | unread e w _ ht hv hpath hrefs hacc htries hsource =>
    rw [hv]
    trivial

/-- A row that restore can read: its columns are in range, and its link has a target. -/
structure Legible (row : EntryRow) : Prop where
  ranges : InRange row
  target : row.entryType = .symbolicLink → ∃ target, row.symlinkTarget = some target ∧ target ≠ []

theorem MadeOf.targets (h : MadeOf x c db ps) (hlinked : ∀ p ∈ ps, p.value.Linked) :
    ∀ row ∈ db.entriesOf c.snapshotId, row.entryType = .symbolicLink →
      ∃ target, row.symlinkTarget = some target ∧ target ≠ [] := by
  intro row hrow hlink
  have hfiled : (row.unnumbered, (db.entryChunksOf row.id).map EntryChunkRow.unnumbered) ∈
      db.filed c.snapshotId := List.mem_map_of_mem hrow
  rw [h.filed.entries] at hfiled
  obtain ⟨p, hp, hsome⟩ := List.mem_filterMap.mp hfiled
  have hlinks := hlinked p hp
  unfold ProcessedEntry.filed? at hsome
  cases hv : p.value with
  | warning w =>
    rw [hv] at hsome
    cases hsome
  | entry e =>
    rw [hv] at hsome hlinks
    have hentry := congrArg Prod.fst (Option.some.inj hsome)
    have htype : e.type = row.entryType := congrArg EntryRow.entryType hentry
    have htarget : e.symlinkTarget = row.symlinkTarget := congrArg EntryRow.symlinkTarget hentry
    obtain ⟨target, hfound, hne⟩ := (Option.any_eq_true _ _).mp (hlinks (htype.trans hlink))
    exact ⟨target, htarget ▸ hfound, by simpa using hne⟩

/-- What a call shows a reader that is told the truth about modes and link targets. -/
structure Call.Truthful (call : Call) : Prop where
  narrow : ∀ job ∈ call.scan, job.Narrow
  linked : ∀ job ∈ call.scan, job.Linked
  sees : ∀ l ∈ call.schedule, l.Sees (fun m => m.posixMode ≤ maximumUint32)

theorem createSnapshot_legible (hdb : before.vault.db.Consistent) (htrue : call.Truthful)
    (hopen : openSnapshot o r engine call before = (.ok c, begun))
    (h : createSnapshot o r x engine call before = (.ok result, after)) :
    ∀ row ∈ after.vault.db.entriesOf c.snapshotId, Legible row := by
  have hmade := createSnapshot_made hdb hopen h
  obtain ⟨hpublished, -, -⟩ := createSnapshot_returns hopen h
  obtain ⟨old, hentered⟩ := openSnapshot_entered hdb hopen
  obtain ⟨startedAtNs, hconfig⟩ := hentered.config
  have hjobs : c.scan = call.scan := by rw [hconfig]; rfl
  obtain ⟨ls, hsub, hrun⟩ := follow_sublist (c := c) (x := x) call.schedule
    (State.start c begun.vault call.externalStop)
  change run c x _ ls = some (call.final x c begun.vault) at hrun
  generalize call.final x c begun.vault = t at *
  obtain ⟨committed, now, hrecorded, -⟩ := run_published hrun hpublished
  have hseen := run_seen (fun l hl => htrue.sees l (hsub.subset hl)) hrun
    (by rw [hpublished]; rfl)
  have horigin : ∀ p ∈ t.handled, p.origin ∈ call.scan := by
    intro p hp
    rw [← hjobs]
    exact hmade.items.mem_iff.mp (List.mem_map_of_mem hp)
  have hmodes : ∀ p ∈ t.handled, p.value.Narrow := fun p hp =>
    (hmade.results p hp).narrow (htrue.narrow _ (horigin p hp)) (hseen p hp)
  have hlinks : ∀ p ∈ t.handled, p.value.Linked := fun p hp =>
    (hmade.results p hp).linked (htrue.linked _ (horigin p hp))
  intro row hrow
  exact ⟨hmade.ranges hrecorded.bounded hmodes row hrow, hmade.targets hlinks row hrow⟩

end Snapshot

namespace Repository
open Snapshot Program

variable {o : Outside} {r : Opened} {x : Externals} {f : Format} {s t : System} {v : Vault}
  {after : Session} {out : Except Stop Unit} {operation : Operation} {recovered : Bool}
  {drawn : Bytes → Prop} {event : Event} {events : List Event} {id : SnapshotId}

def Operation.Truthful : Operation → Prop
  | .createSnapshot call => call.made.Truthful
  | _ => True

def Event.Truthful : Event → Prop
  | .performs _ _ operation => operation.Truthful
  | _ => True

/-- Restore can read every row of a complete snapshot. -/
def Vault.Legible (v : Vault) : Prop :=
  ∀ id, v.db.ofStatus id [.complete] = true → ∀ row ∈ v.db.entriesOf id, Snapshot.Legible row

theorem perform_legible (hv : v.Kept) (hlegible : v.Legible) (htrue : operation.Truthful)
    (h : operation.perform f x o r ⟨v, 0, recovered⟩ = (out, after)) : after.vault.Legible := by
  intro id hcomplete
  rcases complete_after hv h hcomplete with ⟨hold, hshown⟩ | ⟨call, c, rfl, rfl, hmakes⟩
  · rw [(published_parts hold hshown).1]
    exact hlegible id hold
  · obtain ⟨begun, hopen⟩ := hmakes.opened
    obtain ⟨result, hreturned⟩ := hmakes.returned
    have hcall : call.made.Truthful := htrue
    exact createSnapshot_legible hv.consistent hcall hopen hreturned

theorem step_legible (hs : s.vault.Kept) (hlegible : s.vault.Legible) (htrue : event.Truthful)
    (h : s.step f x event = some t) : t.vault.Legible := by
  cases event with
  | opens process opened =>
    cases h
    exact hlegible
  | closes index =>
    cases h
    exact hlegible
  | crashes process =>
    cases h
    exact hlegible
  | performs index o operation =>
    obtain ⟨handle, -, rfl⟩ := Option.map_eq_some_iff.mp h
    rw [ended_vault]
    exact perform_legible hs hlegible htrue rfl

theorem reached_legible (htrue : ∀ event ∈ events, event.Truthful) (h : Reached f x events s) :
    s.vault.Kept ∧ s.vault.Legible :=
  runs_invariant (P := fun u => u.vault.Kept ∧ u.vault.Legible) (Q := Event.Truthful)
    (fun _ _ _ hevent hu hw => ⟨(step_moves hu.1 hw).kept, step_legible hu.1 hu.2 hevent hw⟩)
    ⟨fresh_kept, fun _ h => nomatch h⟩ htrue h

theorem Vault.Whole.restorable (h : v.Whole x f drawn) (hlegible : v.Legible)
    (hcomplete : v.db.ofStatus id [.complete] = true) (r : Opened) (resolvedRoot : Path) :
    Restorable x (r.view f v resolvedRoot) id := by
  obtain ⟨row, hrow, hid, hstatus⟩ := Database.ofStatus_iff.mp hcomplete
  have hshaped : TreeShaped v.db id := ⟨⟨row, hrow, hid, List.mem_singleton.mp hstatus⟩,
    h.tree id hcomplete, fun e he => (hlegible id hcomplete e he).ranges⟩
  refine ⟨h.consistent.toKeyed, f.supported, hshaped.complete, h.intact id hcomplete,
    hshaped.ranges, fun e he hne => h.tree id hcomplete |>.safe _ (mem_place he) hne, ?_, ?_,
    fun e he => (hlegible id hcomplete e he).target⟩
  · have hdistinct := hshaped.distinctPaths
    unfold DistinctPaths Restore.listed at hdistinct
    rw [List.map_map] at hdistinct
    exact ((List.perm_insertionSort _ _).map _).nodup_iff.mp hdistinct
  · intro e he q rest hsplit hq hrest
    obtain ⟨d, hd, htype, hpath⟩ := hshaped.ancestorClosed (entryInfo e)
      (mem_listed.mpr ⟨e, he, rfl⟩) q rest hsplit hq hrest
    obtain ⟨row, hrow, rfl⟩ := mem_listed.mp hd
    exact ⟨row, hrow, htype, hpath⟩

/-- What a restore reads of one selected file. -/
structure FileReads (x : Externals) (view : RepositoryView) (e : EntryInfo) : Prop where
  reads : ∃ chunks parts, listEntryChunks view.db e.id = .ok chunks ∧
    validateChunks e chunks view.chunkSizeBytes = .ok () ∧
    List.Forall₂ (fun chunk part => readVerified x view.chunkSizeBytes view.objects chunk.hashHex
      chunk.objectPath chunk.rawSize chunk.storedSize = .ok part) chunks parts ∧
    parts.flatten.length = e.logicalSize ∧
    e.fileHashHex = some (toHex (x.blake3 parts.flatten))

theorem folderHistory_truthful : ∀ event ∈ folderHistory, event.Truthful := by
  have hround : ∀ l ∈ folderRound, l.Sees (fun m => m.posixMode ≤ maximumUint32) := by
    simp [folderRound, Label.Sees]
  simp only [folderHistory, List.forall_mem_cons]
  refine ⟨trivial, ⟨by decide +kernel, by decide +kernel, fun l hl => ?_⟩,
    fun _ h => absurd h List.not_mem_nil⟩
  obtain ⟨labels, hlabels, hl⟩ := List.mem_flatten.mp hl
  rw [List.eq_of_mem_replicate hlabels] at hl
  exact hround l hl

/-- A request for all of the snapshot. -/
def folderRequest : RestoreRequest := ⟨1, [], ascii "/d", .never, none⟩

end Repository

end LocalVault
