import LocalVault.Proofs.Histories
import LocalVault.Proofs.Intact

namespace LocalVault
open Library

section Shown

variable {x : Externals} {maximum : Nat} {db db' : Database} {objects objects' : Objects}
  {id : SnapshotId} {e : EntryRow}

theorem entryChunksOf_references (he : e ∈ db.entriesOf id) :
    db.entryChunksOf e.id = (db.referencesOf id).filter (fun c => c.entryId == e.id) := by
  unfold Database.entryChunksOf Database.referencesOf
  rw [List.filter_filter]
  refine List.filter_congr fun c _ => ?_
  cases hown : c.entryId == e.id with
  | false => rfl
  | true =>
    have hid : e.id = c.entryId := (beq_iff_eq.mp hown).symm
    simpa using ⟨e, he, hid⟩

/-- What is shown of a complete snapshot, part by part. -/
theorem published_parts (hcomplete : db.ofStatus id [.complete] = true)
    (h : db'.published id = db.published id) :
    db'.entriesOf id = db.entriesOf id ∧ db'.referencesOf id = db.referencesOf id := by
  obtain ⟨shown, hshown⟩ := published_some.mpr hcomplete
  rw [hshown] at h
  unfold Database.published at h hshown
  obtain ⟨row, -, rfl⟩ := Option.map_eq_some_iff.mp hshown
  obtain ⟨row', -, hparts⟩ := Option.map_eq_some_iff.mp h
  exact ⟨congrArg Published.entries hparts, congrArg Published.references hparts⟩

theorem ChunkIntact.lasts {row : EntryChunkRow} {part : Bytes}
    (h : ChunkIntact x maximum db objects row part) (hchunks : db.chunks <+: db'.chunks)
    (hobjects : Snapshot.Grows objects objects') : ChunkIntact x maximum db' objects' row part := by
  obtain ⟨hlength, chunk, hchunk, hhash, hobject⟩ := h
  obtain ⟨content, hfile, hrest⟩ := hobject.object
  exact ⟨hlength, chunk, hchunks.subset hchunk, hhash,
    { hobject with object := ⟨content, hobjects _ _ hfile, hrest⟩ }⟩

/-- A snapshot stays intact while it is shown unchanged, and chunks and objects only come. -/
theorem SnapshotIntact.lasts (h : SnapshotIntact x maximum db objects id)
    (hcomplete : db.ofStatus id [.complete] = true) (hshown : db'.published id = db.published id)
    (hchunks : db.chunks <+: db'.chunks) (hobjects : Snapshot.Grows objects objects') :
    SnapshotIntact x maximum db' objects' id := by
  obtain ⟨hentries, hreferences⟩ := published_parts hcomplete hshown
  refine ⟨?_, fun e he ht => ?_⟩
  · rw [hentries]
    exact h.root
  · have hold : e ∈ db.entriesOf id := hentries ▸ he
    have hrows : db'.fileChunks e.id = db.fileChunks e.id := by
      unfold Database.fileChunks
      rw [entryChunksOf_references he, entryChunksOf_references hold, hreferences]
    obtain ⟨content, hfile⟩ := h.files e hold ht
    obtain ⟨parts, hparts, hcontent⟩ := hfile.parts
    refine ⟨content, hfile.hash, hfile.size, ?_, parts, ?_, hcontent⟩
    · rw [hrows]
      exact hfile.contiguous
    · rw [hrows]
      exact hparts.imp fun _ _ hpart => hpart.lasts hchunks hobjects

end Shown

namespace Snapshot
open Repository Program

variable {o : Outside} {r : Opened} {x : Externals} {c : Config} {engine : Engine} {call : Call}
  {drawn : Bytes → Prop} {before begun after : Session} {result : SnapshotResult}

/-- The scan of a call comes from a source that the scanner goes through. -/
theorem Call.Scans.tree {host : ScanHost} {source : Source} {options : FileScannerOptions}
    (h : call.Scans host source options) (hclean : call.scanError = none) :
    WellFormedTree ((call.scan.filterMap FileJob.scanned?).map ScannedEntry.place) := by
  have hended := h.ended
  rw [hclean] at hended
  rw [h.jobs]
  rcases hstream : scanStreaming host source options .start with ⟨ended, scanned⟩
  rw [hstream] at hended
  cases ended with
  | error e => cases hended
  | ok =>
    obtain ⟨context, root, hbegun, hscanned, -⟩ := scanStreaming_returns hstream
    rw [hscanned]
    exact jobsOf_tree hbegun

/-- A call that returns leaves the vault as its threads have left it. -/
theorem createSnapshot_ended (hopen : openSnapshot o r engine call before = (.ok c, begun))
    (h : createSnapshot o r x engine call before = (.ok result, after)) :
    after = call.ended x c begun := by
  obtain ⟨hpublished, -, -⟩ := createSnapshot_returns hopen h
  obtain ⟨c', u, hopen', h⟩ := Program.bind_returns.mp h
  cases hopen.symm.trans hopen'
  unfold Program.rescue pipeline at h
  dsimp only at h
  rw [hpublished] at h
  cases h
  rfl

/-- What a call that returns has left. -/
theorem createSnapshot_intact (hdb : before.vault.db.Consistent)
    (hx : RoundTrips x) (hfree : CollisionFree x drawn)
    (hmax : engine.chunkSize ≤ permanentMaximumChunkSize)
    (hshelved : Shelved x engine.chunkSize drawn before.vault.objects)
    (hdraws : ∀ l ∈ call.schedule, l.Draws drawn)
    {host : ScanHost} {source : Source} {options : FileScannerOptions}
    (hscan : call.Scans host source options)
    (hopen : openSnapshot o r engine call before = (.ok c, begun))
    (h : createSnapshot o r x engine call before = (.ok result, after)) :
    WellFormedTree ((after.vault.db.entriesOf c.snapshotId).map EntryRow.place) ∧
      SnapshotIntact x engine.chunkSize after.vault.db after.vault.objects c.snapshotId := by
  have hmade := createSnapshot_made hdb hopen h
  obtain ⟨hpublished, -, hafter⟩ := createSnapshot_returns hopen h
  obtain ⟨old, hentered⟩ := openSnapshot_entered hdb hopen
  obtain ⟨startedAtNs, hconfig⟩ := hentered.config
  obtain ⟨-, hobjects⟩ := openSnapshot_chunks hopen
  have hsize : c.chunkSize = engine.chunkSize := by rw [hconfig]; rfl
  have hjobs : c.scan = call.scan := by rw [hconfig]; rfl
  have herror : c.scanError = call.scanError := by rw [hconfig]; rfl
  obtain ⟨ls, hsub, hrun⟩ := follow_sublist (c := c) (x := x) call.schedule
    (State.start c begun.vault call.externalStop)
  change run c x _ ls = some (call.final x c begun.vault) at hrun
  have hended : after.vault.objects = (call.final x c begun.vault).vault.objects := by
    rw [createSnapshot_ended hopen h]
    rfl
  generalize call.final x c begun.vault = t at *
  have hsettles : t.main.settles = true := by rw [hpublished]; rfl
  have hstocked := run_stocked hx (hsize ▸ hmax) (hsize ▸ hobjects ▸ hshelved)
    (fun l hl => hdraws l (hsub.subset hl)) hrun
  obtain ⟨committed, now, hrecorded, hcomplete⟩ := run_published hrun hpublished
  obtain ⟨-, hfinal, -⟩ := markSnapshotComplete_returns hcomplete
  have htree := hmade.tree (hjobs ▸ hscan.tree (herror ▸ run_scanned hrun hsettles))
  refine ⟨htree, ?_⟩
  rw [hended, ← hsize]
  refine hmade.intact (run_drawn hrun hsettles hstocked) (fun p hp refs hfiles ref href => ?_)
    hstocked.shelved hfree htree
  have hvouched := hrecorded.vouched.1 p hp refs hfiles ref href
  rw [hafter, hfinal]
  exact hvouched

end Snapshot

namespace Repository
open Snapshot Program

variable {o : Outside} {r : Opened} {x : Externals} {f : Format} {s t : System} {v : Vault}
  {after : Session} {out : Except Stop Unit} {operation : Operation} {recovered : Bool}
  {drawn : Bytes → Prop} {event : Event} {events : List Event} {id : SnapshotId}

/-- A snapshot of an operation that has just been made. -/
structure Makes (f : Format) (x : Externals) (o : Outside) (r : Opened) (before : Session)
    (call : SnapshotCall) (c : Config) (after : Session) : Prop where
  opened : ∃ begun, openSnapshot o r (call.engineOf f) call.made before = (.ok c, begun)
  returned : ∃ result, createSnapshot o r x (call.engineOf f) call.made before = (.ok result, after)

/-- What is complete after an operation was so before and has not changed, or has just been
made. -/
theorem complete_after (hv : v.Kept)
    (h : operation.perform f x o r ⟨v, 0, recovered⟩ = (out, after))
    (hcomplete : after.vault.db.ofStatus id [.complete] = true) :
    v.db.ofStatus id [.complete] = true ∧ after.vault.db.published id = v.db.published id ∨
      ∃ call c, operation = .createSnapshot call ∧ c.snapshotId = id ∧
        Makes f x o r ⟨v, 0, recovered⟩ call c after := by
  have hkept : after.vault.db.published id = v.db.published id →
      v.db.ofStatus id [.complete] = true ∧ after.vault.db.published id = v.db.published id := by
    intro hsame
    refine ⟨?_, hsame⟩
    rw [← published_some, ← hsame]
    exact published_some.mpr hcomplete
  by_cases hmakes : ∃ call, operation = .createSnapshot call
  · obtain ⟨call, rfl⟩ := hmakes
    have hcreate : (createSnapshot o r x (call.engineOf f) call.made).wp
        (fun result t => v.Moves t.vault ∧ True ∧
          ∀ j, j ≠ result.snapshotId → t.vault.db.published j = v.db.published j)
        (fun stop t => v.Unseen t.vault ∧ True ∧ stop ≠ .endless) ⟨v, 0, recovered⟩ :=
      wp_createSnapshot (R := fun _ => True) hv rfl trivial fun _ _ _ _ => trivial
    unfold Program.wp at hcreate
    change Program.andThen (createSnapshot o r x (call.engineOf f) call.made) _ _ = _ at h
    unfold Program.andThen at h
    rcases hrun : createSnapshot o r x (call.engineOf f) call.made ⟨v, 0, recovered⟩ with
      ⟨made, left⟩
    rw [hrun] at h hcreate
    cases made with
    | error stop =>
      cases h
      exact .inl (hkept (congrFun hcreate.1.shown id))
    | ok result =>
      cases h
      by_cases hid : id = result.snapshotId
      · obtain ⟨c, begun, hopen, -⟩ := Program.bind_returns.mp hrun
        obtain ⟨-, hresult, -⟩ := createSnapshot_returns hopen hrun
        refine .inr ⟨call, c, rfl, ?_, ⟨begun, hopen⟩, ⟨result, hrun⟩⟩
        rw [hid, hresult]
        rfl
      · exact .inl (hkept (hcreate.2.2 id hid))
  · have hturns := perform_turns (f := f) (x := x) (o := o) (r := r) hv operation recovered
      fun call he => hmakes ⟨call, he⟩
    have hturned : v.Turns after.vault := by
      have hboth := wp_final (P := fun t => v.Turns t.vault)
        (wp_mono hturns (fun _ _ ht => ht) fun _ _ ht => ht.1)
      rw [h] at hboth
      exact hboth
    rcases hturned.shown id with hsame | hgone
    · exact .inl (hkept hsame)
    · rw [published_none.mp hgone] at hcomplete
      cases hcomplete

/-- What the workers of an operation read is drawn. -/
def Operation.Draws (drawn : Bytes → Prop) : Operation → Prop
  | .createSnapshot call => ∀ l ∈ call.call.schedule, l.Draws drawn
  | _ => True

def Event.Draws (drawn : Bytes → Prop) : Event → Prop
  | .performs _ _ operation => operation.Draws drawn
  | _ => True

/-- A vault whose complete snapshots can all be read back. -/
structure Vault.Whole (x : Externals) (f : Format) (drawn : Bytes → Prop) (v : Vault) : Prop
    extends v.Kept where
  shelved : Shelved x f.chunkSize drawn v.objects
  tree : ∀ id, v.db.ofStatus id [.complete] = true →
    WellFormedTree ((v.db.entriesOf id).map EntryRow.place)
  intact : ∀ id, v.db.ofStatus id [.complete] = true →
    SnapshotIntact x f.chunkSize v.db v.objects id

/-- An operation leaves a whole vault, whether it returns, fails or is cut off. -/
theorem perform_whole (hx : RoundTrips x) (hfree : CollisionFree x drawn) (hv : v.Whole x f drawn)
    (hdraws : operation.Draws drawn)
    (h : operation.perform f x o r ⟨v, 0, recovered⟩ = (out, after)) :
    after.vault.Whole x f drawn := by
  have hthreads : ∀ call, operation = .createSnapshot call → ∀ c (begun : Session),
      c.chunkSize = f.chunkSize → begun.vault.objects = v.objects →
        Shelved x f.chunkSize drawn (call.made.final x c begun.vault).vault.objects := by
    rintro call rfl c begun hsize hobjects
    obtain ⟨ls, hsub, hrun⟩ := follow_sublist (c := c) (x := x) call.made.schedule
      (State.start c begun.vault call.made.externalStop)
    have hstocked := run_stocked hx (hsize ▸ f.supported) (hsize ▸ hobjects ▸ hv.shelved)
      (fun l hl => hdraws l (hsub.subset hl)) hrun
    rw [hsize] at hstocked
    exact hstocked.shelved
  have hboth : v.Moves after.vault ∧ Shelved x f.chunkSize drawn after.vault.objects := by
    have hwp := wp_final (P := fun t => v.Moves t.vault ∧ Shelved x f.chunkSize drawn t.vault.objects)
      (wp_mono (perform_moves (f := f) (x := x) (o := o) (r := r) hv.toKept hv.shelved operation
        recovered hthreads) (fun _ _ ht => ht) fun _ _ ht => ht.1)
    rw [h] at hwp
    exact hwp
  obtain ⟨hmoves, hshelved⟩ := hboth
  have hsnapshot : ∀ id, after.vault.db.ofStatus id [.complete] = true →
      WellFormedTree ((after.vault.db.entriesOf id).map EntryRow.place) ∧
        SnapshotIntact x f.chunkSize after.vault.db after.vault.objects id := by
    intro id hcomplete
    rcases complete_after hv.toKept h hcomplete with ⟨hold, hshown⟩ | ⟨call, c, rfl, rfl, hmakes⟩
    · refine ⟨?_, (hv.intact id hold).lasts hold hshown hmoves.chunks hmoves.objects⟩
      rw [(published_parts hold hshown).1]
      exact hv.tree id hold
    · obtain ⟨begun, hopen⟩ := hmakes.opened
      obtain ⟨result, hreturned⟩ := hmakes.returned
      have hreads : ∀ l ∈ call.made.schedule, l.Draws drawn := hdraws
      exact createSnapshot_intact hv.consistent hx hfree f.supported hv.shelved hreads ⟨rfl, rfl⟩
        hopen hreturned
  exact ⟨hmoves.kept, hshelved, fun id hid => (hsnapshot id hid).1, fun id hid => (hsnapshot id hid).2⟩

theorem step_whole (hx : RoundTrips x) (hfree : CollisionFree x drawn) (hdraws : event.Draws drawn)
    (hs : s.vault.Whole x f drawn) (h : s.step f x event = some t) : t.vault.Whole x f drawn := by
  cases event with
  | opens process opened =>
    cases h
    exact hs
  | closes index =>
    cases h
    exact hs
  | crashes process =>
    cases h
    exact hs
  | performs index o operation =>
    obtain ⟨handle, -, rfl⟩ := Option.map_eq_some_iff.mp h
    rw [ended_vault]
    exact perform_whole hx hfree hs hdraws rfl

theorem fresh_whole : Vault.fresh.Whole x f drawn :=
  ⟨fresh_kept, shelved_empty, fun _ h => (nomatch h), fun _ h => nomatch h⟩

theorem runs_whole (hx : RoundTrips x) (hfree : CollisionFree x drawn)
    (hdraws : ∀ event ∈ events, event.Draws drawn) (hs : s.vault.Whole x f drawn)
    (h : runs (System.step f x) s events = some t) : t.vault.Whole x f drawn :=
  runs_invariant (P := fun u => u.vault.Whole x f drawn) (Q := Event.Draws drawn)
    (fun _ _ _ hevent hu hw => step_whole hx hfree hevent hu hw) hs hdraws h

/-- In every state that a history leads to, a complete snapshot can be read back from its rows and
its objects, and its rows stay what they are as long as it is complete. -/
theorem complete_lasts {later : List Event} (hx : RoundTrips x) (hfree : CollisionFree x drawn)
    (hdraws : ∀ event ∈ events, event.Draws drawn) (h : Reached f x events s)
    (hcomplete : s.vault.db.ofStatus id [.complete] = true) :
    SnapshotIntact x f.chunkSize s.vault.db s.vault.objects id ∧
      (∀ e ∈ s.vault.db.entriesOf id, e.entryType = .regularFile →
        e.fileHash.any isLowercaseBlake3Hex = true) ∧
      ∀ t, runs (System.step f x) s later = some t → t.vault.db.ofStatus id [.complete] = true →
        t.vault.db.published id = s.vault.db.published id := by
  have hwhole := runs_whole hx hfree hdraws fresh_whole h
  refine ⟨hwhole.intact id hcomplete, fun e he ht => ?_, fun t hlater hstill => ?_⟩
  · obtain ⟨hin, hid⟩ := List.mem_filter.mp he
    exact hwhole.consistent.hashed e hin (beq_iff_eq.mp hid ▸ hcomplete) ht
  · obtain ⟨shown, hshown⟩ := published_some.mpr hcomplete
    have hissued := issued_of_consistent hwhole.consistent id shown hshown
    rcases (runs_moves hwhole.toKept hlater).changes.shown hissued with hsame | hgone
    · exact hsame
    · rw [published_none.mp hgone] at hstill
      cases hstill

/-- The workers of the history read one chunk. -/
theorem folderHistory_draws : ∀ event ∈ folderHistory, event.Draws (fun raw => raw = ascii "abc") := by
  have hround : ∀ l ∈ folderRound, l.Draws (fun raw => raw = ascii "abc") := by
    simp [folderRound, Label.Draws]
  simp only [folderHistory, List.forall_mem_cons]
  refine ⟨trivial, fun l hl => ?_, fun _ h => absurd h List.not_mem_nil⟩
  obtain ⟨labels, hlabels, hl⟩ := List.mem_flatten.mp hl
  rw [List.eq_of_mem_replicate hlabels] at hl
  exact hround l hl

theorem single_free (chunk : Bytes) : CollisionFree x (fun raw => raw = chunk) :=
  fun _ _ ha hb _ => ha.trans hb.symm

theorem complete_lasts_folder : ∃ s, Reached smallFormat sampleExternals folderHistory s ∧
    SnapshotIntact sampleExternals 4 s.vault.db s.vault.objects 1 ∧
    ∀ t, runs (System.step smallFormat sampleExternals) s [.performs 0 sampleOutside .recover] =
      some t → t.vault.db.ofStatus 1 [.complete] = true →
      t.vault.db.published 1 = s.vault.db.published 1 := by
  obtain ⟨s, hs, hcomplete⟩ := folderHistory_reached
  obtain ⟨hintact, -, hlater⟩ := complete_lasts sampleExternals_roundTrips (single_free _)
    folderHistory_draws hs hcomplete
  exact ⟨s, hs, hintact, hlater⟩

end Repository

end LocalVault
