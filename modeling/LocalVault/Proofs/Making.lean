import LocalVault.Proofs.Operating

namespace LocalVault.Snapshot
open Library Repository Program

variable {o : Outside} {r : Opened} {x : Externals} {s t : Session} {v w mid : Vault}
  {c : Config} {db db' : Database} {id : SnapshotId} {engine : Engine} {call : Call}

/-- A snapshot whose file hashes, as far as they are set, are ones. -/
def Hashed (id : SnapshotId) (db : Database) : Prop :=
  ∀ e ∈ db.entries, e.snapshotId = id → ∀ hash, e.fileHash = some hash →
    isLowercaseBlake3Hex hash = true

theorem carries_hashed : Carries c (Hashed c.snapshotId) where
  entry h hdb := by
    obtain ⟨_, _, _, _, rfl⟩ := insertEntry_returns hdb
    intro e he hid hash hhash
    rcases List.mem_append.mp he with he | he
    · exact h e he hid hash hhash
    · cases List.mem_singleton.mp he
      cases hhash
  warning h hdb := by
    obtain rfl := insertWarning_returns hdb
    exact h
  chunk h hdb := by
    obtain ⟨mid, hensured, rfl⟩ := (recordChunk_returns hdb).ensured
    rcases hensured.rows with rfl | ⟨_, rfl⟩ <;> exact h
  hash h hdb := by
    obtain ⟨hvalid, _, rfl⟩ := setRegularFileHash_returns hdb
    intro e he hid hash hhash
    obtain ⟨d, hd, rfl⟩ := List.mem_map.mp he
    split at hhash
    · cases hhash
      exact hvalid
    · rename_i hno
      rw [if_neg hno] at hid
      exact h d hd hid hash hhash

/-- What publication changes. -/
structure Publishes (id : SnapshotId) (db db' : Database) : Prop where
  consistent : db'.Consistent
  leaves : Leaves id db db'
  chunks : db'.chunks = db.chunks
  issued : db'.lastSnapshotId = db.lastSnapshotId

theorem publishes_of (hdb : db.Consistent) (hhashed : Hashed id db) {totals : SnapshotTotals}
    {now : Int} (h : markSnapshotComplete id totals now db = (.ok (), db')) : Publishes id db db' := by
  obtain ⟨hone, rfl, -⟩ := markSnapshotComplete_returns h
  set change := fun s : SnapshotRow =>
    if s.id == id && s.status == .pending && !db.unhashed id then
      s.completed (countEntries db id .regularFile) (countEntries db id .directory)
        (countEntries db id .symbolicLink) (sumLogicalSize db id) totals.newStoredSize
        totals.newChunkCount totals.reusedChunkCount totals.durationMs now
    else s with hchange
  have hid : ∀ s, (change s).id = s.id := by
    intro s
    rw [hchange]
    dsimp only
    split <;> rfl
  have hother : ∀ s : SnapshotRow, s.id ≠ id → change s = s := by
    intro s hs
    rw [hchange]
    exact if_neg (by simp [hs])
  have hset : db.unhashed id = false := by
    obtain ⟨row, hrow⟩ := List.length_eq_one_iff.mp hone
    have hmem : row ∈ db.snapshots.filter (fun s => s.id == id && s.status == .pending &&
        !db.unhashed id) := hrow ▸ List.mem_singleton.mpr rfl
    have hselected := (List.mem_filter.mp hmem).2
    simp only [Bool.and_eq_true, Bool.not_eq_true'] at hselected
    exact hselected.2
  have hrow : ∀ {k : SnapshotId}, (∃ s ∈ db.snapshots, s.id = k) →
      ∃ s ∈ db.snapshots.map change, s.id = k := by
    rintro k ⟨s, hs, rfl⟩
    exact ⟨change s, List.mem_map_of_mem hs, hid s⟩
  refine ⟨?_, leaves_withSnapshots hid hother, rfl, rfl⟩
  exact { hdb with
    snapshots := nodup_key_map hdb.snapshots hid
    entrySnapshot := fun e he => hrow (hdb.entrySnapshot e he)
    warningSnapshot := fun w hw => hrow (hdb.warningSnapshot w hw)
    snapshotIds := by
      intro s hs
      obtain ⟨q, hq, rfl⟩ := List.mem_map.mp hs
      rw [hid]
      exact hdb.snapshotIds q hq
    hashed := by
      intro e he hcomplete htype
      by_cases hown : e.snapshotId = id
      · -- an entry of the snapshot has a hash, or it would not have been published
        have hsome := List.any_eq_false.mp hset e (List.mem_filter.mpr ⟨he, by simp [hown]⟩)
        cases hhash : e.fileHash with
        | none => simp [htype, hhash] at hsome
        | some hash => exact hhashed e he hown hash hhash
      · refine hdb.hashed e he ?_ htype
        obtain ⟨s, hs, hsid, hstatus⟩ := Database.ofStatus_iff.mp hcomplete
        obtain ⟨q, hq, rfl⟩ := List.mem_map.mp hs
        have hqid : q.id ≠ id := by
          rw [← hid q, hsid]
          exact hown
        rw [hother q hqid] at hsid hstatus
        exact Database.ofStatus_iff.mpr ⟨q, hq, hsid, hstatus⟩ }

/-- A new snapshot behind the recovery in front of it. -/
structure Launched (engine : Engine) (call : Call) (c : Config) (mid : Vault) (begun : Session) :
    Prop where
  entered : Entered engine call c mid.db begun
  objects : begun.vault.objects = mid.objects
  temporary : begun.vault.temporary = mid.temporary

theorem wp_openSnapshot (h : Held v s) :
    (openSnapshot o r engine call).wp
      (fun c t => ∃ u : Session, Held v u ∧ Launched engine call c u.vault t)
      (fun stop t => Held v t ∧ stop ≠ .endless) s := by
  have hcut : ∀ {t : Session}, Held v t → ∀ stop, FromOutside o stop →
      Held v t.tick ∧ stop ≠ .endless := fun ht _ hstop => ⟨ht.tick, hstop.ends⟩
  have hprepare : (prepare o r call).wp (fun _ t => Held v t)
      (fun stop t => Held v t ∧ stop ≠ .endless) s := by
    unfold prepare
    split
    · exact ⟨h, nofun⟩
    · split
      · exact ⟨h, nofun⟩
      · exact wp_calling h.tick (fun _ => h.tick) (hcut h)
  unfold openSnapshot
  rw [wp_bind]
  refine wp_mono hprepare ?_ fun _ _ ht => ht
  intro _ t ht
  rw [wp_bind]
  refine wp_mono (wp_recovery ht r) ?_ fun _ _ hu => hu
  intro _ u hu
  unfold beginSnapshot
  rw [wp_bind, wp_read, wp_bind]
  apply wp_transaction
  · unfold createPendingSnapshot
    rw [wp_bind]
    unfold bindTexts
    split
    · exact ⟨hu.tick, nofun⟩
    · exact ⟨u, hu, ⟨hu.settles.consistent, ⟨_, rfl⟩, rfl, _, rfl, rfl, rfl⟩, rfl, rfl⟩
  · exact hcut hu

/-- The tables while a snapshot is made. -/
structure Underway (c : Config) (mid begun db : Database) : Prop where
  drafted : Drafted c.snapshotId db
  leaves : Leaves c.snapshotId mid db
  chunks : mid.chunks <+: db.chunks
  issued : db.lastSnapshotId = mid.lastSnapshotId + 1
  rows : db.snapshots = begun.snapshots
  hashed : Hashed c.snapshotId db

theorem minds_underway {old begun : Database} : Minds c (Underway c old begun) where
  entry h hdb := by
    obtain ⟨hdrafted, hleaves⟩ := minds_neighbours.entry ⟨h.drafted, h.leaves⟩ hdb
    exact ⟨hdrafted, hleaves, carries_chunks.entry h.chunks hdb,
      carries_lastSnapshotId.entry h.issued hdb, carries_snapshots.entry h.rows hdb,
      carries_hashed.entry h.hashed hdb⟩
  warning h hdb := by
    obtain ⟨hdrafted, hleaves⟩ := minds_neighbours.warning ⟨h.drafted, h.leaves⟩ hdb
    exact ⟨hdrafted, hleaves, carries_chunks.warning h.chunks hdb,
      carries_lastSnapshotId.warning h.issued hdb, carries_snapshots.warning h.rows hdb,
      carries_hashed.warning h.hashed hdb⟩
  chunk h hown hdb := by
    obtain ⟨hdrafted, hleaves⟩ := minds_neighbours.chunk ⟨h.drafted, h.leaves⟩ hown hdb
    exact ⟨hdrafted, hleaves, carries_chunks.chunk h.chunks hdb,
      carries_lastSnapshotId.chunk h.issued hdb, carries_snapshots.chunk h.rows hdb,
      carries_hashed.chunk h.hashed hdb⟩
  hash h hown hdb := by
    obtain ⟨hdrafted, hleaves⟩ := minds_neighbours.hash ⟨h.drafted, h.leaves⟩ hown hdb
    exact ⟨hdrafted, hleaves, (carries_chunks (c := c)).hash h.chunks hdb,
      (carries_lastSnapshotId (c := c)).hash h.issued hdb,
      (carries_snapshots (c := c)).hash h.rows hdb, carries_hashed.hash h.hashed hdb⟩

theorem Launched.underway (h : Launched engine call c mid s) :
    Underway c mid.db s.vault.db s.vault.db := by
  obtain ⟨row, hid, hpending, hbegun⟩ := h.entered.row
  refine ⟨h.entered.drafted.1, ?_, ?_, ?_, rfl, ?_⟩
  · rw [hbegun, ← hid]
    exact leaves_row (by rw [hpending]; exact nofun) _
  · rw [hbegun]
  · rw [hbegun]
  · -- no entry belongs to the new identifier
    intro e he hown
    rw [hbegun] at he
    obtain ⟨q, hq, hqid⟩ := h.entered.consistent.entrySnapshot e he
    exact absurd (hqid.trans hown) (h.entered.unused q hq)

/-- The new identifier shows nothing before its publication. -/
theorem Launched.hidden (h : Launched engine call c mid s) :
    mid.db.ofStatus c.snapshotId [.complete] = false := by
  rw [← Bool.not_eq_true, Database.ofStatus_iff]
  rintro ⟨q, hq, hid, -⟩
  exact h.entered.unused q hq hid

theorem Underway.unseen (h : Underway c mid.db s.vault.db db) (hb : Launched engine call c mid s)
    {objects : Objects} {temporary : Temporary} (hobjects : Grows mid.objects objects)
    (htemporary : temporary.Orderly) : mid.Unseen ⟨db, objects, temporary⟩ :=
  ⟨⟨h.drafted.consistent, htemporary⟩, h.chunks, hobjects, by rw [h.issued]; exact Nat.le_succ _,
    h.leaves.unseen hb.hidden h.drafted.unpublished⟩

/-- A file that is left below `temporary/objects` does not hinder recovery. -/
theorem litter_orderly {temporary : Temporary} (h : temporary.Orderly) (names : List Name) :
    (litter temporary names).Orderly := by
  induction names generalizing temporary with
  | nil => exact h
  | cons name names ih =>
    unfold litter
    dsimp only
    split
    · rename_i hfree
      refine ih ?_
      have hdirectory : ∃ j ∈ temporary, j.path = temporaryObjects :=
        ⟨_, List.mem_of_find?_eq_some hfree.1, rfl⟩
      refine ⟨fun i hi => ?_, fun i hi hlong => ?_, fun i hi hperm => ?_⟩
      · rcases List.mem_append.mp hi with hi | hi
        · exact h.named i hi
        · rw [List.mem_singleton.mp hi]
          exact List.append_ne_nil_of_right_ne_nil _ (List.cons_ne_nil _ _)
      · rcases List.mem_append.mp hi with hi | hi
        · obtain ⟨j, hj, hpath⟩ := h.parent i hi hlong
          exact ⟨j, List.mem_append_left _ hj, hpath⟩
        · rw [List.mem_singleton.mp hi]
          obtain ⟨j, hj, hpath⟩ := hdirectory
          exact ⟨j, List.mem_append_left _ hj, by simp [hpath]⟩
      · rcases List.mem_append.mp hi with hi | hi
        · exact h.directories i hi hperm
        · -- the path of the file is longer than those of the two directories
          rw [List.mem_singleton.mp hi] at hperm
          rcases permanent_cases hperm with hp | hp <;>
            simpa [temporaryObjects, temporaryRestores] using congrArg List.length hp
    · exact ih h

/-- What the threads of a call leave. -/
structure Ran (c : Config) (mid : Vault) (begun : Session) (t : State) (ended : Session) : Prop where
  underway : t.main ≠ .published → Underway c mid.db begun.vault.db t.vault.db
  published : t.main = .published → ∃ db, Underway c mid.db begun.vault.db db ∧
    Publishes c.snapshotId db t.vault.db
  vault : ended.vault = { t.vault with temporary := ended.vault.temporary }
  objects : Grows mid.objects t.vault.objects
  orderly : ended.vault.temporary.Orderly

theorem Launched.ran (h : Launched engine call c mid s) (hmid : mid.Kept) :
    Ran c mid s (call.final x c s.vault) (call.ended x c s) := by
  obtain ⟨ls, hrun⟩ := follow_run (c := c) (x := x) call.schedule
    (State.start c s.vault call.externalStop)
  change run c x _ ls = some (call.final x c s.vault) at hrun
  have hmeanwhile := run_meanwhile hrun
  have hcarried := run_minded minds_underway h.underway hrun
  refine ⟨hcarried.vault, fun hm => ?_, rfl, ?_, ?_⟩
  · obtain ⟨totals, db, now, hdb, hcomplete⟩ := hcarried.published hm
    exact ⟨db, hdb, publishes_of hdb.drafted.consistent hdb.hashed hcomplete⟩
  · rw [← h.objects]
    exact hmeanwhile.objects
  · refine litter_orderly ?_ _
    rw [hmeanwhile.temporary, h.temporary]
    exact hmid.orderly

/-- The best effort for a snapshot that was given up changes nothing that is shown. -/
theorem wp_cleanUp_unseen {status : SnapshotStatus} {message : String} (hv : s.vault.Kept)
    (hdrafted : Drafted id s.vault.db) (hs : s.vault.db.ofStatus id [.pending] = true)
    (hstatus : status = .failed ∨ status = .cancelled) (limit : Nat) :
    (cleanUp o id status message limit).wp (fun _ t => s.vault.Still t.vault)
      (fun stop t => s.vault.Still t.vault ∧ stop ≠ .endless) s := by
  refine wp_ends ?_ (wp_mono (wp_cleanUp hdrafted hs hstatus limit) (fun _ _ _ => trivial)
    fun _ _ ht => ht.2)
  unfold cleanUp
  rw [wp_bind, wp_read, wp_bind]
  apply wp_transaction
  · refine wp_mono (wp_markSnapshotIncomplete hdrafted.consistent.toKeyed hs hstatus _) ?_
      fun _ _ hno => hno.elim
    rintro _ db rfl
    set change := fun q : SnapshotRow =>
      if isPending id q then q.abandoned status message (o.clock s.calls) else q with hchange
    have hid : ∀ q, (change q).id = q.id := by
      intro q
      rw [hchange]
      dsimp only
      split <;> rfl
    have hcomplete : ∀ q : SnapshotRow, (change q).status = .complete → q.status = .complete := by
      intro q hq
      rw [hchange] at hq
      dsimp only at hq
      split at hq
      · rcases hstatus with rfl | rfl <;> cases hq
      · exact hq
    have hleaves : Leaves id s.vault.db (s.vault.db.withSnapshots change) := by
      refine leaves_withSnapshots hid fun q hq => ?_
      rw [hchange]
      exact if_neg (by simp [isPending, hq])
    have hhidden : (s.vault.db.withSnapshots change).ofStatus id [.complete] = false := by
      rw [← Bool.not_eq_true, Database.ofStatus_iff]
      rintro ⟨q, hq, hqid, hstatus'⟩
      obtain ⟨p, hp, rfl⟩ := List.mem_map.mp hq
      have hno := hdrafted.unpublished
      rw [← Bool.not_eq_true, Database.ofStatus_iff] at hno
      exact hno ⟨p, hp, (hid p).symm.trans hqid,
        List.mem_singleton.mpr (hcomplete p (List.mem_singleton.mp hstatus'))⟩
    have hgiven : s.vault.Still { s.vault with db := s.vault.db.withSnapshots change } :=
      ⟨⟨hv.withDb (hv.consistent.withSnapshots hid hcomplete), List.prefix_rfl, Grows.refl,
        Nat.le_refl _, hleaves.unseen hdrafted.unpublished hhidden⟩, rfl⟩
    have hheld : Held { s.vault with db := s.vault.db.withSnapshots change }
        (s.commit (s.vault.db.withSnapshots change)) := hgiven.kept.held rfl
    exact wp_mono (wp_cleanIncompleteSnapshot hheld limit)
      (fun _ _ ht => hgiven.trans ht.1.still) fun _ _ ht => hgiven.trans ht.1.still
  · exact fun _ _ => .refl hv

theorem wp_bestEffort {m : SessionM Unit} {Q : Unit → Session → Prop} {E : Stop → Session → Prop}
    (h : m.wp Q (fun stop t => (∀ e, stop = .raised e → Q () t) ∧
      ((∀ e, stop ≠ .raised e) → E stop t)) s) : (bestEffort m).wp Q E s := by
  unfold bestEffort
  rw [wp_rescue]
  refine wp_mono h (fun _ _ ht => ht) ?_
  rintro stop t ⟨hraised, hother⟩
  cases stop with
  | raised e => exact hraised e rfl
  | died => exact hother nofun
  | endless => exact hother nofun

/-- A call that gives its snapshot up has not changed what is shown. -/
theorem wp_giveUp_unseen {stop : Stop} (hv : s.vault.Kept) (hdrafted : Drafted c.snapshotId s.vault.db)
    (hs : s.vault.db.ofStatus c.snapshotId [.pending] = true) (hstop : stop ≠ .endless) :
    (giveUp o c stop).wp (fun _ _ => False)
      (fun stop t => s.vault.Still t.vault ∧ stop ≠ .endless) s := by
  have hself := Vault.Still.refl hv
  cases stop with
  | raised e =>
    unfold giveUp
    rw [wp_bind]
    refine wp_bestEffort (Q := fun _ t => s.vault.Still t.vault ∧ _ ≠ Stop.endless) ?_
    refine wp_mono (wp_cleanUp_unseen hv hdrafted hs (failureStatus_cases e) _)
      (fun _ _ ht => ⟨ht, nofun⟩) ?_
    exact fun stop t ht => ⟨fun _ _ => ⟨ht.1, nofun⟩, fun _ => ht⟩
  | died => exact ⟨hself, nofun⟩
  | endless => exact absurd rfl hstop

/-- The threads of a call publish, fail, or stop where their process dies. -/
theorem wp_pipeline {Q : SnapshotResult → Session → Prop} {E : Stop → Session → Prop}
    (published : (call.final x c s.vault).main = .published →
      Q ((call.final x c s.vault).result c) (call.ended x c s))
    (unpublished : (call.final x c s.vault).main ≠ .published → ∀ stop, stop ≠ .endless →
      E stop (call.ended x c s)) : (pipeline x c call).wp Q E s := by
  unfold wp pipeline
  dsimp only
  cases hm : (call.final x c s.vault).main with
  | published => exact published hm
  | failing f => exact unpublished (by rw [hm]; exact nofun) _ nofun
  | _ => exact unpublished (by rw [hm]; exact nofun) _ nofun

theorem Launched.fresh (h : Launched engine call c mid s) :
    mid.db.catalogue.issued < c.snapshotId := by
  rw [h.entered.id]
  exact Int.lt_succ _

/-- A publication shows the new snapshot under the next identifier, and nothing else. -/
theorem Ran.published_moves {begun ended : Session} {t : State}
    (hran : Ran c mid begun t ended) (h : Launched engine call c mid begun)
    (hm : t.main = .published) : mid.Moves ended.vault := by
  obtain ⟨db, hunder, hpub⟩ := hran.published hm
  have hdb : ended.vault.db = t.vault.db := by rw [hran.vault]
  have hobjects : ended.vault.objects = t.vault.objects := by rw [hran.vault]
  have hleaves := hunder.leaves.trans hpub.leaves
  have hissued : (t.vault.db.lastSnapshotId : Int) = c.snapshotId := by
    rw [hpub.issued, hunder.issued, h.entered.id]
    rfl
  refine ⟨⟨hdb ▸ hpub.consistent, hran.orderly⟩, ?_, ?_, ?_⟩
  · rw [hdb, hpub.chunks]
    exact hunder.chunks
  · rw [hobjects]
    exact hran.objects
  · rw [hdb]
    have hafter : t.vault.db.catalogue = ⟨c.snapshotId,
        Function.update mid.db.published c.snapshotId (t.vault.db.published c.snapshotId)⟩ := by
      unfold Database.catalogue
      rw [hissued, ← hleaves.published]
    rw [hafter]
    cases hshown : t.vault.db.published c.snapshotId with
    | some shown => exact .single (.publishes _ shown h.fresh)
    | none =>
      refine (Relation.ReflTransGen.single (.stays _ h.fresh.le)).tail ?_
      exact .withdraws _

/-- A call shows its snapshot when it returns and nothing when it fails; whatever is said of the
files under `objects/` has to be kept by its threads. -/
theorem wp_createSnapshot {R : Objects → Prop} (hv : v.Kept) (hs : s.vault = v) (hstart : R v.objects)
    (hthreads : ∀ c (begun : Session), c.chunkSize = engine.chunkSize → begun.vault.objects = v.objects →
      R (call.final x c begun.vault).vault.objects) :
    (createSnapshot o r x engine call).wp
      (fun result t => v.Moves t.vault ∧ R t.vault.objects ∧
        ∀ j, j ≠ result.snapshotId → t.vault.db.published j = v.db.published j)
      (fun stop t => v.Unseen t.vault ∧ R t.vault.objects ∧ stop ≠ .endless) s := by
  unfold createSnapshot
  rw [wp_bind]
  refine wp_mono (wp_openSnapshot (hv.held hs)) ?_ ?_
  · rintro c begun ⟨u, hu, hbegun⟩
    have hmid := hu.still.toUnseen
    have hran := hbegun.ran (x := x) hmid.kept
    obtain ⟨startedAtNs, hconfig⟩ := hbegun.entered.config
    have hfinal : R (call.final x c begun.vault).vault.objects :=
      hthreads c begun (by rw [hconfig]; rfl) (hbegun.objects.trans hu.objects)
    rw [wp_rescue]
    refine wp_pipeline (fun hm => ⟨hmid.andMoves (hran.published_moves hbegun hm), hfinal, ?_⟩) ?_
    · intro j hj
      obtain ⟨db, hunder, hpub⟩ := hran.published hm
      have hdb : (call.ended x c begun).vault.db = (call.final x c begun.vault).vault.db := rfl
      rw [hdb, ((hunder.leaves.trans hpub.leaves).other hj), hmid.shown]
    intro hm stop hstop
    have hunder := hran.underway hm
    have hdb : (call.ended x c begun).vault.db = (call.final x c begun.vault).vault.db := rfl
    have hunseen : u.vault.Unseen (call.ended x c begun).vault :=
      hunder.unseen hbegun hran.objects hran.orderly
    have hpending : (call.ended x c begun).vault.db.ofStatus c.snapshotId [.pending] = true := by
      have hbefore := hbegun.entered.drafted.2
      rw [hdb]
      unfold Database.ofStatus at hbefore ⊢
      rw [hunder.rows]
      exact hbefore
    have hgiven : ∀ {t : Session}, (call.ended x c begun).vault.Still t.vault →
        v.Unseen t.vault ∧ R t.vault.objects := by
      intro t ht
      refine ⟨hmid.trans (hunseen.trans ht.toUnseen), ?_⟩
      rw [ht.same]
      exact hfinal
    refine wp_mono (wp_giveUp_unseen hunseen.kept (hdb ▸ hunder.drafted) hpending hstop) ?_ ?_
    · exact fun _ _ hno => hno.elim
    · exact fun _ _ ht => ⟨(hgiven ht.1).1, (hgiven ht.1).2, ht.2⟩
  · intro _ _ ht
    refine ⟨ht.1.still.toUnseen, ?_, ht.2⟩
    rw [ht.1.objects]
    exact hstart

end LocalVault.Snapshot
