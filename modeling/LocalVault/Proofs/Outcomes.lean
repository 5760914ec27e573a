import LocalVault.Proofs.Callbacks
import LocalVault.Proofs.Carrying
import LocalVault.Proofs.Resuming
import LocalVault.Proofs.Totals

namespace LocalVault.Snapshot
open Library Repository

variable {c : Config} {x : Externals} {s t : State} {v : Vault} {o : Outside} {id : SnapshotId}
  {db db' : Database} {status : SnapshotStatus} {message : String}

/-- Behind the publication nothing touches the tables any more. -/
theorem Move.stays (hm : Move c x s t) (ho : Orderly c s) (hp : s.main = .published) :
    t.main = .published ∧ t.vault.db = s.vault.db := by
  have halone := ho.standing.alone (settles_joined (by rw [hp]; rfl))
  cases hm with
  | scanner hm =>
    have hover := halone.scanner
    rw [hm.running.1] at hover
    cases hover
  | worker i hi hm =>
    have hover := halone.workers i hi
    rw [hm.running.1] at hover
    cases hover
  | writer hm =>
    have hover := halone.writer
    rw [hm.running.1] at hover
    cases hover
  | main hm => exact absurd hp hm.unpublished
  | other hm => exact ⟨hm.frame.main.trans hp, by rw [hm.frame.vault]⟩

theorem run_stays {ls : List Label} (ho : Orderly c s) (hp : s.main = .published)
    (h : run c x s ls = some t) : t.main = .published ∧ t.vault.db = s.vault.db := by
  refine (run_invariant (P := fun t => Orderly c t ∧ t.main = .published ∧ t.vault.db = s.vault.db)
    (fun t u ht hm => ?_) ⟨ho, hp, rfl⟩ h).2
  obtain ⟨hmain, hdb⟩ := hm.stays ht.1 ht.2.1
  exact ⟨hm.orderly ht.1, hmain, hdb.trans ht.2.2⟩

/-- A published snapshot stays as it is, whatever the callback still does. -/
theorem observed_stays {v : Vault} {e : Bool} {now : Int} {w u : Observed} {turns more : List Turn}
    (hw : (Observed.start c v e now).run c x turns = some w) (hp : w.pipeline.main = .published)
    (hu : w.run c x more = some u) :
    Published c u.pipeline ∧ u.pipeline.vault.db = w.pipeline.vault.db ∧ u.course ≠ .thrown := by
  have hbefore := run_observes hw
  obtain ⟨hafter, ls, hrun⟩ := observed_invariant
    (P := fun u => Observes c x v e u ∧ ∃ ls, run c x w.pipeline ls = some u.pipeline)
    (fun u turn u' hu hstep => ⟨hu.1.step hstep, (step_follows hstep).reached hu.2⟩)
    ⟨hbefore, [], rfl⟩ hu
  obtain ⟨hmain, hdb⟩ := run_stays hbefore.placed.orderly hp hrun
  refine ⟨hafter.published hmain, hdb, fun hthrown => ?_⟩
  have hchecking := hafter.placed.opening (.inr hthrown)
  rw [hmain] at hchecking
  cases hchecking

/-- The pending row and nothing else of a snapshot that begins. -/
theorem Entered.drafted {engine : Engine} {call : Call} {old : Database} {begun : Session}
    (h : Entered engine call c old begun) :
    Drafted c.snapshotId begun.vault.db ∧ begun.vault.db.ofStatus c.snapshotId [.pending] = true := by
  obtain ⟨row, hid, hpending, hdb⟩ := h.row
  have hkeys := h.consistent
  have hkept : ∀ {id : SnapshotId}, (∃ q ∈ old.snapshots, q.id = id) →
      ∃ q ∈ old.snapshots ++ [row], q.id = id :=
    fun ⟨q, hq, hqid⟩ => ⟨q, List.mem_append_left _ hq, hqid⟩
  have hmine : ∀ {rows : List SnapshotStatus}, .pending ∉ rows →
      ∀ j, begun.vault.db.ofStatus j rows = old.ofStatus j rows := by
    intro rows hrows j
    rw [hdb]
    simp [Database.ofStatus, hpending, hrows]
  rw [hdb] at hmine
  rw [hdb]
  refine ⟨⟨?_, ?_⟩, ?_⟩
  · exact { hkeys with
      snapshots := by
        rw [List.map_append]
        refine nodup_snoc hkeys.snapshots fun hmem => ?_
        obtain ⟨q, hq, hqid⟩ := List.mem_map.mp hmem
        exact h.unused q hq (hqid.trans hid)
      entrySnapshot := fun e he => hkept (hkeys.entrySnapshot e he)
      warningSnapshot := fun w hw => hkept (hkeys.warningSnapshot w hw)
      snapshotIds := by
        intro q hq
        change q.id ≤ old.lastSnapshotId + 1
        rcases List.mem_append.mp hq with hq | hq
        · exact Int.le_trans (hkeys.snapshotIds q hq) (Int.le_of_lt (Int.lt_succ _))
        · rw [List.mem_singleton.mp hq, hid, h.id]
      hashed := by
        intro e he hcomplete
        rw [hmine (by decide)] at hcomplete
        exact hkeys.hashed e he hcomplete }
  · rw [hmine (by decide), ← Bool.not_eq_true, Database.ofStatus_iff]
    rintro ⟨q, hq, hqid, -⟩
    exact h.unused q hq hqid
  · exact Database.ofStatus_iff.mpr
      ⟨row, List.mem_append_right _ (List.mem_singleton.mpr rfl), hid, by rw [hpending]; decide⟩

/-- Giving up the pending row of a snapshot. -/
theorem wp_markSnapshotIncomplete (h : db.Keyed) (hs : db.ofStatus id [.pending] = true)
    (hstatus : status = .failed ∨ status = .cancelled) (now : Int) :
    (markSnapshotIncomplete id status message now).wp
      (fun _ db' => db' = db.withSnapshots (fun r =>
        if isPending id r then r.abandoned status message now else r))
      (fun _ _ => False) db := by
  obtain ⟨r, hrow, rfl, hpending⟩ := Database.ofStatus_iff.mp hs
  have hone : db.snapshots.filter (isPending r.id) = [r] := by
    unfold isPending
    rw [filter_key_and h.snapshots hrow (fun q => q.status == .pending)]
    simpa using hpending
  unfold markSnapshotIncomplete requireSingleUpdatedRow
  rw [if_neg (by rcases hstatus with rfl | rfl <;> decide), Program.wp_bind, wp_updateSnapshots,
    wp_requireSingle (by rw [hone]; rfl)]
  rfl

/-- The row of a snapshot that was given up. -/
theorem abandoned_status (h : db.Consistent) (hs : db.ofStatus id [.pending] = true)
    (hstatus : status = .failed ∨ status = .cancelled) (now : Int) :
    let db' := db.withSnapshots (fun r =>
      if isPending id r then r.abandoned status message now else r)
    db'.Identified ∧ db'.ofStatus id [status] = true := by
  have hid : ∀ r : SnapshotRow,
      (if isPending id r then r.abandoned status message now else r).id = r.id := by
    intro r
    cases isPending id r <;> rfl
  obtain ⟨r, hrow, rfl, hpending⟩ := Database.ofStatus_iff.mp hs
  refine ⟨⟨⟨nodup_key_map h.snapshots hid, h.entries, h.chunks⟩, h.warnings⟩, ?_⟩
  refine Database.ofStatus_iff.mpr ⟨_, List.mem_map_of_mem hrow, hid r, ?_⟩
  rw [if_pos (by simpa [isPending] using hpending)]
  exact List.mem_singleton.mpr rfl

/-- The best effort of `create_snapshot` for a snapshot it gives up. -/
def cleanUp (o : Outside) (id : SnapshotId) (status : SnapshotStatus) (message : String)
    (metadataBatchLimit : Nat) : SessionM Unit := do
  let completedAtNs ← Program.read (fun s : Session => o.clock s.calls)
  transaction o (markSnapshotIncomplete id status message completedAtNs)
  cleanIncompleteSnapshot o id metadataBatchLimit

/-- The row of a snapshot has one status. -/
theorem ofStatus_single (h : db.Keyed) (hs : db.ofStatus id [status] = true) (other : SnapshotStatus) :
    db.ofStatus id [other] = true ↔ status = other := by
  obtain ⟨r, hrow, rfl, hstatus⟩ := Database.ofStatus_iff.mp hs
  rw [h.ofStatus_row hrow, List.mem_singleton, List.mem_singleton.mp hstatus]

/-- What is left of a snapshot that was given up and cleaned up. -/
structure GoneBack (id : SnapshotId) (status : SnapshotStatus) (db : Database) : Prop where
  keyed : db.Keyed
  status : db.ofStatus id [status] = true
  entries : db.entriesOf id = []
  warnings : db.warningsOf id = []

theorem wp_cleanIncomplete {s : Session} (hk : s.vault.db.Identified)
    (hs : s.vault.db.ofStatus id [status] = true)
    (hstatus : status = .failed ∨ status = .cancelled) (limit : Nat) :
    (cleanIncompleteSnapshot o id limit).wp (fun _ t => GoneBack id status t.vault.db)
      (fun stop t => t.vault.db.ofStatus id [.complete] = false ∧ stop ≠ .endless) s := by
  have hgiven : s.vault.db.ofStatus id [.failed, .cancelled] = true := by
    obtain ⟨r, hrow, hid, hr⟩ := Database.ofStatus_iff.mp hs
    refine Database.ofStatus_iff.mpr ⟨r, hrow, hid, ?_⟩
    rw [List.mem_singleton.mp hr]
    rcases hstatus with rfl | rfl <;> decide
  have hopen : ∀ {t : Session}, Swept id s.vault t.vault →
      t.vault.db.ofStatus id [.complete] = false :=
    fun ht => ht.ofStatus.trans (incomplete_of_status hk.toKeyed (by decide) hgiven)
  have hends : ∀ {stop : Stop}, FromOutside o stop → stop ≠ .endless := by
    rintro stop hstop rfl
    exact hstop
  have hself : Swept id s.vault s.vault := ⟨rfl, .refl⟩
  cases hl : supported limit with
  | false =>
    rcases checkedBatchLimit_cases limit with ⟨e, he, -⟩ | he
    · unfold cleanIncompleteSnapshot
      simp only [he]
      exact ⟨hopen hself, nofun⟩
    · rw [hl] at he
      cases he
  | true =>
    have hpos := (checkedBatchLimit_of hl).2
    rw [cleanIncompleteSnapshot_supported hl, Program.wp_bind]
    refine Program.wp_mono (wp_sweepEntries hk hpos hself hgiven) ?_
      (fun _ _ ht => ⟨hopen ht.1, hends ht.2⟩)
    intro _ t ⟨ht, hnone⟩
    refine Program.wp_mono (wp_sweepWarnings hk hpos ht hgiven hnone) ?_
      (fun _ _ hu => ⟨hopen hu.1, hends hu.2⟩)
    intro _ u ⟨hu, hentries, hwarnings⟩
    exact ⟨(hu.thinned.identified hk).toKeyed, hu.ofStatus.trans hs, hentries, hwarnings⟩

/-- However the clean-up ends, the snapshot is not published by it. -/
theorem wp_cleanUp {s : Session} (h : Drafted id s.vault.db)
    (hs : s.vault.db.ofStatus id [.pending] = true)
    (hstatus : status = .failed ∨ status = .cancelled) (limit : Nat) :
    (cleanUp o id status message limit).wp (fun _ t => GoneBack id status t.vault.db)
      (fun stop t => t.vault.db.ofStatus id [.complete] = false ∧ stop ≠ .endless) s := by
  unfold cleanUp
  rw [Program.wp_bind, Program.wp_read, Program.wp_bind]
  apply wp_transaction
  · refine Program.wp_mono (wp_markSnapshotIncomplete h.consistent.toKeyed hs hstatus _) ?_
      (fun _ _ hno => hno.elim)
    rintro _ _ rfl
    obtain ⟨hkeys, hrow⟩ := abandoned_status h.consistent hs hstatus (o.clock s.calls)
    exact wp_cleanIncomplete hkeys hrow hstatus limit
  · rintro stop hstop
    refine ⟨h.unpublished, ?_⟩
    rintro rfl
    exact hstop

theorem GoneBack.unpublished (h : GoneBack id status db)
    (hstatus : status = .failed ∨ status = .cancelled) : db.ofStatus id [.complete] = false := by
  rw [← Bool.not_eq_true, ofStatus_single h.keyed h.status]
  rcases hstatus with rfl | rfl <;> decide

theorem failureStatus_cases (e : Raised) :
    failureStatus e = .failed ∨ failureStatus e = .cancelled := by
  unfold failureStatus
  split
  · split
    · exact .inr rfl
    · exact .inl rfl
  · exact .inl rfl

/-- The status that a snapshot is given up with follows the code that is thrown. -/
theorem failureStatus_cancelled (e : Raised) (source : Path) :
    failureStatus e = .cancelled ↔ (rethrown source e).code = .cancelled := by
  cases e with
  | localVault e =>
    simp only [failureStatus, rethrown]
    split
    · exact iff_of_true rfl ‹_›
    · exact iff_of_false nofun ‹_›
  | standard what => exact iff_of_false nofun nofun
  | unknown => exact iff_of_false nofun nofun

/-- The session behind the threads of a call. -/
def Call.ended (call : Call) (x : Externals) (c : Config) (begun : Session) : Session :=
  let t := call.final x c begun.vault
  { begun with vault := { t.vault with temporary := litter t.vault.temporary call.leftovers } }

/-- A call has published, or it gives up, or its process has died on the way. -/
theorem createSnapshot_cases {r : Opened} {engine : Engine} {call : Call}
    {before begun after : Session} {out : Except Stop SnapshotResult}
    (hopen : openSnapshot o r engine call before = (.ok c, begun))
    (h : createSnapshot o r x engine call before = (out, after)) :
    let t := call.final x c begun.vault
    t.main = .published ∧ out = .ok (t.result c) ∧ after.vault.db = t.vault.db ∨
      (∃ f, t.main = .failing f ∧
        giveUp o c (.raised f.error) (call.ended x c begun) = (out, after)) ∨
      t.main ≠ .published ∧ out = .error .died ∧ after.vault.db = t.vault.db := by
  have hcall : ((pipeline x c call).rescue (giveUp o c)) begun = (out, after) := by
    rw [← h]
    change _ = Program.andThen (openSnapshot o r engine call) _ before
    unfold Program.andThen
    rw [hopen]
  unfold Program.rescue pipeline at hcall
  dsimp only at hcall
  cases hm : (call.final x c begun.vault).main with
  | published =>
    rw [hm] at hcall
    cases hcall
    exact .inl ⟨hm, rfl, rfl⟩
  | failing f =>
    rw [hm] at hcall
    exact .inr (.inl ⟨f, hm, hcall⟩)
  | _ =>
    rw [hm] at hcall
    cases hcall
    refine .inr (.inr ⟨?_, rfl, rfl⟩)
    rw [hm]
    exact nofun

/-- A call that gives up throws, and the best effort is all it has done. -/
theorem giveUp_throws {s after : Session} {e : Raised} {out : Except Stop SnapshotResult}
    (hdrafted : Drafted c.snapshotId s.vault.db)
    (hpending : s.vault.db.ofStatus c.snapshotId [.pending] = true)
    (h : giveUp o c (.raised e) s = (out, after)) :
    after.vault.db.ofStatus c.snapshotId [.complete] = false ∧ (out ≠ .error .died →
      out = .error (.raised (.localVault (rethrown c.source e))) ∧
      ∀ u, cleanUp o c.snapshotId (failureStatus e) (failureText e) c.metadataBatchEntryLimit s =
        (.ok (), u) → after = u ∧ GoneBack c.snapshotId (failureStatus e) u.vault.db) := by
  have hclean : (cleanUp o c.snapshotId (failureStatus e) (failureText e)
      c.metadataBatchEntryLimit).wp (fun _ t => GoneBack c.snapshotId (failureStatus e) t.vault.db)
      (fun stop t => t.vault.db.ofStatus c.snapshotId [.complete] = false ∧ stop ≠ .endless) s :=
    wp_cleanUp hdrafted hpending (failureStatus_cases e) c.metadataBatchEntryLimit
  unfold Program.wp at hclean
  unfold giveUp at h
  change Program.andThen (bestEffort (cleanUp o c.snapshotId (failureStatus e) (failureText e)
    c.metadataBatchEntryLimit)) _ s = _ at h
  unfold Program.andThen bestEffort Program.rescue at h
  generalize cleanUp o c.snapshotId (failureStatus e) (failureText e) c.metadataBatchEntryLimit s =
    done at h hclean
  obtain ⟨result, t⟩ := done
  cases result with
  | ok =>
    cases h
    refine ⟨GoneBack.unpublished hclean (failureStatus_cases e), fun _ => ⟨rfl, ?_⟩⟩
    rintro u hu
    cases hu
    exact ⟨rfl, hclean⟩
  | error stop =>
    cases stop with
    | raised =>
      cases h
      exact ⟨hclean.1, fun _ => ⟨rfl, nofun⟩⟩
    | died =>
      cases h
      exact ⟨hclean.1, fun hends => absurd rfl hends⟩
    | endless => exact absurd rfl hclean.2

/-- What the threads of a call leave, as long as they have not published. -/
structure Unpublished (c : Config) (ended : Session) : Prop where
  drafted : Drafted c.snapshotId ended.vault.db
  pending : ended.vault.db.ofStatus c.snapshotId [.pending] = true

/-- How the tables stand behind the threads of a call. -/
structure Ending (c : Config) (t : State) (ended : Session) : Prop where
  orderly : Orderly c t
  published : t.main = .published → t.vault.db.ofStatus c.snapshotId [.complete] = true
  unpublished : t.main ≠ .published → Unpublished c ended

theorem openSnapshot_ending {r : Opened} {engine : Engine} {call : Call} {before begun : Session}
    (hdb : before.vault.db.Consistent)
    (hopen : openSnapshot o r engine call before = (.ok c, begun)) :
    Ending c (call.final x c begun.vault) (call.ended x c begun) := by
  obtain ⟨old, hentered⟩ := openSnapshot_entered hdb hopen
  obtain ⟨hdrafted, hpending⟩ := hentered.drafted
  obtain ⟨ls, hrun⟩ := follow_run (c := c) (x := x) call.schedule
    (State.start c begun.vault call.externalStop)
  change run c x _ ls = some (call.final x c begun.vault) at hrun
  have hcarried := run_carried (carries_drafted.and carries_snapshots) ⟨hdrafted, rfl⟩ hrun
  refine ⟨run_orderly hrun, fun hm => ?_, fun hm => ?_⟩
  · obtain ⟨totals, db, now, -, hcomplete⟩ := hcarried.published hm
    obtain ⟨row, hrow, hid, hstatus⟩ := completed_row hcomplete
    exact Database.ofStatus_iff.mpr ⟨row, hrow, hid, List.mem_singleton.mpr hstatus⟩
  · obtain ⟨hkept, hrows⟩ := hcarried.vault hm
    refine ⟨hkept, ?_⟩
    unfold Database.ofStatus at hpending ⊢
    change (call.final x c begun.vault).vault.db.snapshots.any _ = true
    rw [hrows]
    exact hpending

/-- A call whose snapshot is complete has returned. -/
theorem createSnapshot_complete {r : Opened} {engine : Engine} {call : Call}
    {before begun after : Session} {out : Except Stop SnapshotResult}
    (hdb : before.vault.db.Consistent)
    (hopen : openSnapshot o r engine call before = (.ok c, begun))
    (h : createSnapshot o r x engine call before = (out, after))
    (hcomplete : after.vault.db.ofStatus c.snapshotId [.complete] = true) :
    ∃ result, out = .ok result := by
  have hending := openSnapshot_ending (x := x) hdb hopen
  rcases createSnapshot_cases hopen h with ⟨-, hout, -⟩ | ⟨f, hm, hgive⟩ | ⟨hm, -, hafter⟩
  · exact ⟨_, hout⟩
  · have hopened := hending.unpublished (by rw [hm]; exact nofun)
    rw [(giveUp_throws hopened.drafted hopened.pending hgive).1] at hcomplete
    cases hcomplete
  · have hopened := (hending.unpublished hm).drafted.unpublished
    rw [hafter] at hcomplete
    exact absurd (hopened.symm.trans hcomplete) nofun

/-- How a call that gives up ends: with the first error that was handed to `shutdown`, or, where
none was handed, with an exception that the calling thread has met alone. -/
structure GivenUp (o : Outside) (c : Config) (t : State) (ended after : Session) (f : Failure) :
    Prop where
  failing : t.main = .failing f
  first : ∀ g, t.handed.head? = some g → g.error = f.error ∧ g.primary = true
  own : t.handed = [] → t.stopRequested = false ∧ Alone c t
  cleaned : ∀ u, cleanUp o c.snapshotId (failureStatus f.error) (failureText f.error)
    c.metadataBatchEntryLimit ended = (.ok (), u) → after = u ∧
      (after.vault.db.ofStatus c.snapshotId [.cancelled] = true ↔
        (rethrown c.source f.error).code = .cancelled) ∧
      (after.vault.db.ofStatus c.snapshotId [.failed] = true ↔
        (rethrown c.source f.error).code ≠ .cancelled) ∧
      after.vault.db.entriesOf c.snapshotId = [] ∧ after.vault.db.warningsOf c.snapshotId = []

/-- The first error wins every race: it is the one that the calling thread rethrows. -/
theorem Orderly.rethrows {f : Failure} (h : Orderly c s) (hm : s.main = .failing f) :
    (∀ g, s.handed.head? = some g → g.error = f.error ∧ g.primary = true) ∧
      (s.handed = [] → s.stopRequested = false ∧ Alone c s) := by
  refine ⟨fun g hg => ⟨?_, h.sound.primary g hg⟩, fun hnone => ⟨?_, ?_⟩⟩
  · have hfirst : s.firstError = some g.error := by
      rw [h.sound.first, hg]
      rfl
    rcases h.standing.failing f hm with he | he
    · rw [hfirst] at he
      cases he
    · exact Option.some.inj (hfirst.symm.trans he)
  · rw [← Bool.not_eq_true]
    intro hstop
    have hfailed := h.sound.stop hstop
    rw [State.failed, h.sound.first, hnone] at hfailed
    cases hfailed
  · exact h.standing.alone (by rw [hm]; exact Nat.le_refl 5)

/-- A call that has its pending row returns if and only if the row is complete at its end, and
throws otherwise; whatever it throws, no stop of its own has caused it. -/
theorem snapshot_outcome {r : Opened} {engine : Engine} {call : Call}
    {before begun after : Session} {out : Except Stop SnapshotResult}
    (hdb : before.vault.db.Consistent)
    (hopen : openSnapshot o r engine call before = (.ok c, begun))
    (h : createSnapshot o r x engine call before = (out, after)) (hends : out ≠ .error .died) :
    ((∃ result, out = .ok result) ↔ after.vault.db.ofStatus c.snapshotId [.complete] = true) ∧
    ((∃ e, out = .error (.raised e)) ↔ after.vault.db.ofStatus c.snapshotId [.complete] = false) ∧
    (∀ e, out = .error (.raised e) → ∃ f, e = .localVault (rethrown c.source f.error) ∧
      GivenUp o c (call.final x c begun.vault) (call.ended x c begun) after f) ∧
    ∀ now turns more w u, (Observed.start c begun.vault call.externalStop now).run c x turns = some w →
      w.pipeline.main = .published → w.run c x more = some u →
        Published c u.pipeline ∧ u.pipeline.vault.db = w.pipeline.vault.db ∧ u.course ≠ .thrown := by
  refine and_assoc.mp (and_assoc.mp ⟨?_, fun now turns more w u => observed_stays⟩)
  have hending := openSnapshot_ending (x := x) hdb hopen
  rcases createSnapshot_cases hopen h with ⟨hm, rfl, hafter⟩ | ⟨f, hm, hgive⟩ | ⟨-, hdied, -⟩
  · rw [hafter, hending.published hm]
    exact ⟨⟨iff_of_true ⟨_, rfl⟩ rfl, iff_of_false (by simp) nofun⟩, nofun⟩
  · have hopened := hending.unpublished (by rw [hm]; exact nofun)
    obtain ⟨hunpublished, hthrows⟩ := giveUp_throws hopened.drafted hopened.pending hgive
    obtain ⟨rfl, hclean⟩ := hthrows hends
    rw [hunpublished]
    refine ⟨⟨iff_of_false (by simp) nofun, iff_of_true ⟨_, rfl⟩ rfl⟩, ?_⟩
    rintro e he
    cases he
    obtain ⟨hfirst, hown⟩ := hending.orderly.rethrows hm
    refine ⟨f, rfl, hm, hfirst, hown, fun u hu => ?_⟩
    obtain ⟨rfl, hgone⟩ := hclean u hu
    refine ⟨rfl, ?_, ?_, hgone.entries, hgone.warnings⟩
    · rw [ofStatus_single hgone.keyed hgone.status, failureStatus_cancelled]
    · rw [ofStatus_single hgone.keyed hgone.status, Ne, ← failureStatus_cancelled]
      rcases failureStatus_cases f.error with hs | hs <;> rw [hs] <;> simp
  · exact absurd hdied hends

/-- The read of a file fails, and the exception goes through `shutdown`. -/
def failingCall : Call :=
  { steadyCall with
    schedule := sampleStart ++ [.worker 0 (.raises (.standard "bad alloc"))] ++
      List.replicate 8 (.worker 0 .next) ++ List.replicate 4 (.scanner .next) ++
      List.replicate 3 (.writer .next) ++ [.progress .next] ++ List.replicate 8 (.main .next) }

theorem snapshot_outcome_failing : ∃ c begun after f,
    openSnapshot sampleOutside sampleOpened sampleEngine failingCall sampleSession = (.ok c, begun) ∧
    createSnapshot sampleOutside sampleOpened sampleExternals sampleEngine failingCall sampleSession =
      (.error (.raised (.localVault (rethrown c.source f.error))), after) ∧
    GivenUp sampleOutside c (failingCall.final sampleExternals c begun.vault)
      (failingCall.ended sampleExternals c begun) after f := by
  have hrun : gives (fun _ _ => raises (fun e _ => e.isRaised) (createSnapshot sampleOutside
        sampleOpened sampleExternals sampleEngine failingCall sampleSession))
      (openSnapshot sampleOutside sampleOpened sampleEngine failingCall sampleSession) = true := by
    decide +kernel
  obtain ⟨c, begun, hopen, hrun⟩ := gives_iff.mp hrun
  obtain ⟨e, after, hcreate, hraised⟩ := raises_iff.mp hrun
  obtain ⟨e, rfl⟩ := Repository.Stop.isRaised_iff.mp hraised
  obtain ⟨-, -, hthrown, -⟩ := snapshot_outcome empty_consistent hopen hcreate (by simp)
  obtain ⟨f, rfl, hgiven⟩ := hthrown e rfl
  exact ⟨c, begun, after, f, hopen, hcreate, hgiven⟩

/-- The caller asks for the stop when all threads are joined and the stop callback is gone. -/
def lateCall : Call :=
  { steadyCall with
    schedule := steadyCall.schedule.take (steadyCall.schedule.length - 4) ++
      [.requestExternalStop, .main (.ticks 5)] }

/-- A call throws behind its pipeline, and nothing was handed to `shutdown`. -/
theorem snapshot_throws_unhanded : ∃ c begun e after,
    openSnapshot sampleOutside sampleOpened sampleEngine lateCall sampleSession = (.ok c, begun) ∧
    createSnapshot sampleOutside sampleOpened sampleExternals sampleEngine lateCall sampleSession =
      (.error (.raised e), after) ∧
    (lateCall.final sampleExternals c begun.vault).scanner = .done ∧
    ¬∃ f, (lateCall.final sampleExternals c begun.vault).handed.head? = some f ∧
      e = .localVault (rethrown c.source f.error) := by
  have hrun : gives (fun c begun => raises (fun e _ => e.isRaised &&
          ((lateCall.final sampleExternals c begun.vault).scanner == .done &&
            (lateCall.final sampleExternals c begun.vault).handed == []))
        (createSnapshot sampleOutside sampleOpened sampleExternals sampleEngine lateCall
          sampleSession))
      (openSnapshot sampleOutside sampleOpened sampleEngine lateCall sampleSession) = true := by
    decide +kernel
  obtain ⟨c, begun, hopen, hrun⟩ := gives_iff.mp hrun
  obtain ⟨e, after, hcreate, hends⟩ := raises_iff.mp hrun
  simp only [Bool.and_eq_true, beq_iff_eq] at hends
  obtain ⟨hraised, hscanner, hhanded⟩ := hends
  obtain ⟨e, rfl⟩ := Repository.Stop.isRaised_iff.mp hraised
  refine ⟨c, begun, e, after, hopen, hcreate, hscanner, ?_⟩
  rintro ⟨f, hf, -⟩
  rw [hhanded] at hf
  cases hf

end LocalVault.Snapshot
