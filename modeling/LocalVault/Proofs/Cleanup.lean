import LocalVault.Proofs.Settling

namespace LocalVault.Repository
open Library

/-- An early end that the outside brought about. -/
def FromOutside (o : Outside) : Stop → Prop
  | .raised e => ∃ n, o.fate n = .raises e
  | .died => ∃ n, o.fate n = .dies
  | .endless => False

/-- The two directories recovery leaves below `temporary/`. -/
def Permanent (path : Path) : Bool := path == temporaryObjects || path == temporaryRestores

/-- What recovery leaves below `temporary/`, in the order of the listing. -/
def Temporary.tidied (t : Temporary) : Temporary :=
  let kept := t.filter (fun i => Permanent i.path)
  let objects : Temporary := if (t.find temporaryObjects).isSome then [] else [⟨temporaryObjects, true⟩]
  let restores : Temporary :=
    if (t.find temporaryRestores).isSome then [] else [⟨temporaryRestores, true⟩]
  kept ++ objects ++ restores

/-- A tree, with real directories where recovery wants them. -/
structure Temporary.Orderly (t : Temporary) : Prop where
  named : ∀ i ∈ t, i.path ≠ []
  parent : ∀ i ∈ t, 1 < i.path.length → ∃ j ∈ t, j.path = i.path.dropLast
  directories : ∀ i ∈ t, Permanent i.path = true → i.directory = true

/-- A session that has done nothing to its vault but what recovery does. -/
structure Held (v : Vault) (s : Session) : Prop where
  settles : Settles v.db s.vault.db
  objects : s.vault.objects = v.objects
  orderly : Temporary.Orderly s.vault.temporary
  tidied : Temporary.tidied s.vault.temporary = Temporary.tidied v.temporary

theorem Held.tick {v : Vault} {s : Session} (h : Held v s) : Held v s.tick :=
  ⟨h.settles, h.objects, h.orderly, h.tidied⟩

theorem Held.commit {v : Vault} {s : Session} (h : Held v s) {db : Database}
    (hs : Settles s.vault.db db) : Held v (s.commit db) :=
  ⟨h.settles.trans hs, h.objects, h.orderly, h.tidied⟩

section Calls

variable {α : Type} {o : Outside} {s : Session} {Q : α → Session → Prop} {E : Stop → Session → Prop}

theorem wp_calling {refused next : SessionM α} (hn : next.wp Q E s)
    (hr : (∃ n, o.fate n = .shared) → refused.wp Q E s)
    (he : ∀ stop, FromOutside o stop → E stop s.tick) : (calling o refused next).wp Q E s := by
  unfold Program.wp at hn hr ⊢
  cases hf : o.fate s.calls with
  | done => simpa only [calling, hf] using hn
  | shared => simpa only [calling, hf] using hr ⟨_, hf⟩
  | raises e => simpa only [calling, hf] using he (.raised e) ⟨_, hf⟩
  | dies => simpa only [calling, hf] using he .died ⟨_, hf⟩

/-- A transaction takes over what its statements promise; an exception of a
statement rolls them back. -/
theorem wp_transaction {body : Sql α}
    (hb : body.wp (fun a db => Q a (s.commit db)) (fun e _ => E (.raised (.localVault e)) s.tick)
      s.vault.db)
    (he : ∀ stop, FromOutside o stop → E stop s.tick) : (transaction o body).wp Q E s := by
  have hrun : (committing body).wp Q E s := by
    unfold Program.wp committing at *
    rcases hm : body s.vault.db with ⟨r, db⟩
    cases r <;> simpa [hm] using hb
  exact wp_calling hrun (fun _ => hrun) he

theorem wp_query {look : Database → Except LocalVaultError α}
    (hb : match look s.vault.db with
      | .ok a => Q a s.tick
      | .error e => E (.raised (.localVault e)) s.tick)
    (he : ∀ stop, FromOutside o stop → E stop s.tick) : (query o look).wp Q E s := by
  have hrun : (looking look).wp Q E s := by
    unfold Program.wp looking
    cases hl : look s.vault.db <;> simpa [hl] using hb
  exact wp_calling hrun (fun _ => hrun) he

/-- The rule of a loop that ends: every round but the last makes a number
smaller. -/
theorem wp_rounds {body : SessionM Bool} {Q : Session → Prop} (I : Nat → Session → Prop)
    (step : ∀ n s, I n s →
      body.wp (fun last t => if last then Q t else ∃ m, m < n ∧ I m t) E s) :
    ∀ k n s, I n s → n < k → (rounds body k).wp (fun _ t => Q t) E s := by
  intro k
  induction k with
  | zero => exact fun n s _ hk => absurd hk (Nat.not_lt_zero n)
  | succ k ih =>
    intro n s hs hk
    unfold rounds
    rw [Program.wp_bind]
    refine Program.wp_mono (step n s hs) ?_ (fun _ _ h => h)
    intro last t ht
    cases last with
    | true => simpa using ht
    | false =>
      obtain ⟨m, hm, hi⟩ : ∃ m, m < n ∧ I m t := by simpa using ht
      simpa using ih m t hi (by omega)

end Calls

section Snapshots

variable {v : Vault} {o : Outside} {s : Session} {id : SnapshotId}

/-- How the clean-up of one snapshot may end early: only through the outside,
if the snapshot has the status it needs. -/
def CutShort (v : Vault) (o : Outside) (expected : Bool) (stop : Stop) (t : Session) : Prop :=
  Held v t ∧ (expected = true → FromOutside o stop)

/-- The rule of the two loops of a clean-up. -/
theorem wp_removeBatches {check : Sql Unit} {batch : Sql Nat} {rows : Database → Nat}
    (expected : Bool) (I : Session → Prop) (hs : I s) (tick : ∀ t, I t → I t.tick)
    (step : ∀ t, I t → (do check; batch).wp
      (fun removed db => I (t.commit db) ∧ (removed = 0 → rows db = 0) ∧
        (removed ≠ 0 → rows db < rows t.vault.db))
      (fun _ _ => expected = false) t.vault.db) :
    (removeBatches o check rows batch).wp (fun _ t => I t ∧ rows t.vault.db = 0)
      (fun stop t => I t ∧ (expected = true → FromOutside o stop)) s := by
  unfold removeBatches
  rw [Program.wp_bind, Program.wp_read]
  apply wp_rounds (fun n t => I t ∧ rows t.vault.db = n) ?_ _ _ _ ⟨hs, rfl⟩ (Nat.lt_succ_self _)
  rintro n t ⟨ht, rfl⟩
  rw [Program.wp_bind]
  apply wp_transaction
  · refine Program.wp_mono (step t ht) ?_ ?_
    · intro removed db ⟨hi, hzero, hfewer⟩
      rw [Program.wp_pure]
      by_cases hr : removed = 0
      · simpa [hr] using ⟨hi, hzero hr⟩
      · simpa [hr] using ⟨hfewer hr, hi⟩
    · intro e _ hno
      exact ⟨tick t ht, by simp [hno]⟩
  · exact fun stop hstop => ⟨tick t ht, fun _ => hstop⟩

theorem wp_removeEntries (h : Held v s) {limit : Nat} (hl : 0 < limit)
    {statuses : List SnapshotStatus} (hs : SnapshotStatus.complete ∉ statuses)
    {missing multiple : LocalVaultError} :
    (removeEntries o id limit (requireStatus id statuses missing multiple)).wp
      (fun _ t => Held v t ∧ Elsewhere id s.vault.db t.vault.db ∧
        t.vault.db.snapshots = s.vault.db.snapshots ∧ t.vault.db.entriesOf id = [])
      (CutShort v o (s.vault.db.ofStatus id statuses)) s := by
  unfold removeEntries
  refine Program.wp_mono (wp_removeBatches (s.vault.db.ofStatus id statuses)
    (fun t => Held v t ∧ Elsewhere id s.vault.db t.vault.db ∧
      t.vault.db.snapshots = s.vault.db.snapshots)
    ⟨h, Elsewhere.refl _ _, rfl⟩ (fun t ht => ⟨ht.1.tick, ht.2⟩) ?_) ?_
    (fun _ _ hc => ⟨hc.1.1, hc.2⟩)
  · rintro t ⟨ht, hframe, hrows⟩
    have hkeys := ht.settles.consistent
    refine Program.wp_mono (wp_entryBatch hkeys.toKeyed hl) ?_ ?_
    · rintro removed _ ⟨hstatus, drop, hd, rfl⟩
      obtain ⟨hsettles, helse⟩ :=
        settles_entryBatch hkeys hd (incomplete_of_status hkeys.toKeyed hs hstatus)
      exact ⟨⟨ht.commit hsettles, hframe.trans helse, hrows⟩,
        fun hr => congrArg List.length (hd.empty hr), hd.fewer⟩
    · intro _ _ hno
      rwa [Database.ofStatus, hrows] at hno
  · rintro _ t ⟨⟨ht, hframe, hrows⟩, hzero⟩
    exact ⟨ht, hframe, hrows, List.eq_nil_of_length_eq_zero hzero⟩

theorem wp_removeWarnings (h : Held v s) {limit : Nat} (hl : 0 < limit)
    {statuses : List SnapshotStatus} (hs : SnapshotStatus.complete ∉ statuses)
    {missing multiple : LocalVaultError} (hempty : s.vault.db.entriesOf id = []) :
    (removeWarnings o id limit (requireStatus id statuses missing multiple)).wp
      (fun _ t => Held v t ∧ Elsewhere id s.vault.db t.vault.db ∧
        t.vault.db.snapshots = s.vault.db.snapshots ∧ t.vault.db.entriesOf id = [] ∧
        t.vault.db.warningsOf id = [])
      (CutShort v o (s.vault.db.ofStatus id statuses)) s := by
  unfold removeWarnings
  refine Program.wp_mono (wp_removeBatches (s.vault.db.ofStatus id statuses)
    (fun t => Held v t ∧ Elsewhere id s.vault.db t.vault.db ∧
      t.vault.db.snapshots = s.vault.db.snapshots ∧ t.vault.db.entriesOf id = [])
    ⟨h, Elsewhere.refl _ _, rfl, hempty⟩ (fun t ht => ⟨ht.1.tick, ht.2⟩) ?_) ?_
    (fun _ _ hc => ⟨hc.1.1, hc.2⟩)
  · rintro t ⟨ht, hframe, hrows, hnone⟩
    have hkeys := ht.settles.consistent
    refine Program.wp_mono (wp_warningBatch hkeys.toKeyed hkeys.warnings hl) ?_ ?_
    · rintro removed _ ⟨hstatus, drop, hd, rfl⟩
      obtain ⟨hsettles, helse⟩ :=
        settles_warningBatch hkeys hd (incomplete_of_status hkeys.toKeyed hs hstatus)
      exact ⟨⟨ht.commit hsettles, hframe.trans helse, hrows, hnone⟩,
        fun hr => congrArg List.length (hd.empty hr), hd.fewer⟩
    · intro _ _ hno
      rwa [Database.ofStatus, hrows] at hno
  · rintro _ t ⟨⟨ht, hframe, hrows, hnone⟩, hzero⟩
    exact ⟨ht, hframe, hrows, hnone, List.eq_nil_of_length_eq_zero hzero⟩

/-- The batch limits the code takes. -/
def supported (limit : Nat) : Bool := decide (0 < limit ∧ limit ≤ maximumInt64)

theorem checkedBatchLimit_of {limit : Nat} (h : supported limit = true) :
    checkedBatchLimit limit = .ok limit ∧ 0 < limit := by
  obtain ⟨hpos, hmax⟩ := of_decide_eq_true h
  refine ⟨?_, hpos⟩
  unfold checkedBatchLimit
  rw [if_neg (by omega)]

theorem checkedBatchLimit_cases (limit : Nat) :
    (∃ e, checkedBatchLimit limit = .error e ∧ supported limit = false) ∨ supported limit = true := by
  cases hs : supported limit with
  | true => exact Or.inr rfl
  | false =>
    have hno := of_decide_eq_false hs
    refine Or.inl ⟨_, if_pos ?_, rfl⟩
    omega

theorem wp_cleanIncompleteSnapshot (h : Held v s) (limit : Nat) :
    (cleanIncompleteSnapshot o id limit).wp
      (fun _ t => Held v t ∧ Elsewhere id s.vault.db t.vault.db ∧
        t.vault.db.snapshots = s.vault.db.snapshots ∧ t.vault.db.entriesOf id = [] ∧
        t.vault.db.warningsOf id = [])
      (CutShort v o (supported limit && s.vault.db.ofStatus id [.failed, .cancelled])) s := by
  unfold cleanIncompleteSnapshot
  rcases checkedBatchLimit_cases limit with ⟨e, he, hs⟩ | hs
  · simp only [he]
    exact ⟨h, by simp [hs]⟩
  · obtain ⟨hlimit, hpos⟩ := checkedBatchLimit_of hs
    simp only [hlimit, hs, Bool.true_and]
    rw [Program.wp_bind]
    refine Program.wp_mono (wp_removeEntries h hpos (by decide)) ?_ (fun _ _ hc => hc)
    rintro _ t ⟨ht, hframe, hrows, hnone⟩
    refine Program.wp_mono (wp_removeWarnings ht hpos (by decide) hnone) ?_ ?_
    · rintro _ u ⟨hu, hframe', hrows', hnone', hwarnings⟩
      exact ⟨hu, hframe.trans hframe', hrows'.trans hrows, hnone', hwarnings⟩
    · intro stop u hu
      unfold Database.ofStatus at hu ⊢
      rwa [hrows] at hu

/-- The last transaction of a deletion. -/
theorem wp_deleteSnapshotRow {db : Database} (h : db.Consistent) :
    (deleteSnapshotRow id).wp
      (fun _ db' => Settles db db' ∧ Elsewhere id db db' ∧ (∀ r ∈ db'.snapshots, r.id ≠ id) ∧
        (db.entriesOf id = [] → db'.entriesOf id = []) ∧
        (db.warningsOf id = [] → db'.warningsOf id = []))
      (fun _ _ => db.ofStatus id [.deleting] = false) db := by
  let gone : SnapshotRow → Bool := fun r => r.id == id && r.status == .deleting
  have hlost : ∀ j, (db.snapshots.filter gone).any (fun r => r.id == j) = true → j = id := by
    intro j hj
    obtain ⟨r, hr, he⟩ := List.any_eq_true.mp hj
    have hid := (List.mem_filter.mp hr).2
    simp only [gone, Bool.and_eq_true, beq_iff_eq] at hid
    exact (beq_iff_eq.mp he).symm.trans hid.1
  unfold deleteSnapshotRow
  rw [Program.wp_bind]
  change (requireSingle _ _ (db.snapshots.filter gone).length : Sql Unit).wp _ _ (db.dropSnapshots gone)
  cases hs : db.ofStatus id [.deleting] with
  | false =>
    have hnone : db.snapshots.filter gone = [] := by
      rw [List.filter_eq_nil_iff]
      intro r hr hg
      have hno := List.any_eq_false.mp hs r hr
      simp_all [gone]
    rw [hnone]
    rfl
  | true =>
    obtain ⟨s, hrow, rfl, hstatus⟩ := Database.ofStatus_iff.mp hs
    have hdeleting : s.status = .deleting := by simpa using hstatus
    have hone : db.snapshots.filter gone = [s] := by
      rw [filter_key_and h.snapshots hrow (fun r => r.status == .deleting)]
      simp [hdeleting]
    rw [wp_requireSingle (by rw [hone]; rfl)]
    refine ⟨⟨h.dropSnapshots gone, recovered_dropSnapshots h ?_⟩, ⟨?_, ?_, ?_⟩, ?_, ?_, ?_⟩
    · intro r _ hg
      simp only [gone, Bool.and_eq_true, beq_iff_eq] at hg
      exact hg.2
    · intro j hj
      exact filter_drop_other (fun e _ he => hlost e.snapshotId he) hj
    · intro j hj
      exact filter_drop_other (fun w _ hw => hlost w.snapshotId hw) hj
    · intro r hr
      have hkept : gone r = false := by simp [gone, hr]
      change r ∈ db.snapshots.filter (fun r => !gone r) ↔ _
      simp [hkept]
    · intro r hr hid
      obtain ⟨hr, hkept⟩ := List.mem_filter.mp hr
      have hsame := List.inj_on_of_nodup_map h.snapshots hr hrow hid
      simp [gone, hsame, hdeleting] at hkept
    · intro hnone
      change (db.entries.filter _).filter (fun e => e.snapshotId == s.id) = []
      rw [List.filter_comm]
      exact (congrArg (List.filter _) hnone).trans rfl
    · intro hnone
      change (db.warnings.filter _).filter (fun w => w.snapshotId == s.id) = []
      rw [List.filter_comm]
      exact (congrArg (List.filter _) hnone).trans rfl

theorem wp_deleteDeletingSnapshot (h : Held v s) (limit : Nat) :
    (deleteDeletingSnapshot o id limit).wp
      (fun _ t => Held v t ∧ Elsewhere id s.vault.db t.vault.db ∧
        (∀ r ∈ t.vault.db.snapshots, r.id ≠ id) ∧ t.vault.db.entriesOf id = [] ∧
        t.vault.db.warningsOf id = [])
      (CutShort v o (supported limit && s.vault.db.ofStatus id [.deleting])) s := by
  unfold deleteDeletingSnapshot
  rcases checkedBatchLimit_cases limit with ⟨e, he, hs⟩ | hs
  · simp only [he]
    exact ⟨h, by simp [hs]⟩
  · obtain ⟨hlimit, hpos⟩ := checkedBatchLimit_of hs
    simp only [hlimit, hs, Bool.true_and]
    rw [Program.wp_bind]
    refine Program.wp_mono (wp_removeEntries h hpos (by decide)) ?_ (fun _ _ hc => hc)
    rintro _ t ⟨ht, hframe, hrows, hnone⟩
    rw [Program.wp_bind]
    refine Program.wp_mono (wp_removeWarnings ht hpos (by decide) hnone) ?_ ?_
    · rintro _ u ⟨hu, hframe', hrows', hnone', hwarnings⟩
      apply wp_transaction
      · refine Program.wp_mono (wp_deleteSnapshotRow hu.settles.consistent) ?_ ?_
        · rintro _ db ⟨hsettles, helse, hgone, hentries, hwarn⟩
          exact ⟨hu.commit hsettles, (hframe.trans hframe').trans helse, hgone, hentries hnone',
            hwarn hwarnings⟩
        · intro _ _ hno
          refine ⟨hu.tick, ?_⟩
          rw [Database.ofStatus, hrows'.trans hrows] at hno
          rw [Database.ofStatus, hno]
          simp
      · exact fun stop hstop => ⟨hu.tick, fun _ => hstop⟩
    · intro stop u hu
      unfold Database.ofStatus at hu ⊢
      rwa [hrows] at hu

/-- Giving up the pending row of an identifier. -/
theorem wp_failStalePending {db : Database} (h : db.Consistent) (t : Int) :
    (failStalePending id interrupted t).wp
      (fun _ db' => Settles db db' ∧ Elsewhere id db db' ∧
        (db.ofStatus id [.pending] = true → db'.ofStatus id [.failed, .cancelled] = true) ∧
        ∀ r ∈ db'.snapshots, r.id = id → r.status ≠ .pending)
      (fun _ _ => db.ofStatus id [.pending] = false) db := by
  unfold failStalePending
  rw [Program.wp_bind, wp_updateSnapshots]
  cases hs : db.ofStatus id [.pending] with
  | false =>
    have hnone : db.snapshots.filter (isPending id) = [] := by
      rw [List.filter_eq_nil_iff]
      intro r hr hp
      have hno := List.any_eq_false.mp hs r hr
      simp_all [isPending]
    rw [hnone]
    rfl
  | true =>
    obtain ⟨s, hrow, rfl, hstatus⟩ := Database.ofStatus_iff.mp hs
    have hpending : s.status = .pending := by simpa using hstatus
    have hone : db.snapshots.filter (isPending s.id) = [s] := by
      unfold isPending
      rw [filter_key_and h.snapshots hrow (fun r => r.status == .pending)]
      simp [hpending]
    rw [wp_requireSingle (by rw [hone]; rfl)]
    let change : SnapshotRow → SnapshotRow :=
      fun r => if isPending s.id r then r.abandoned .failed interrupted t else r
    have hid : ∀ r, (change r).id = r.id := by
      intro r
      by_cases hp : isPending s.id r = true <;> simp [change, hp, SnapshotRow.abandoned]
    change Settles db (db.withSnapshots change) ∧ _
    refine ⟨⟨h.withSnapshots hid ?_, recovered_abandoned s.id t⟩,
      ⟨fun _ _ => rfl, fun _ _ => rfl, ?_⟩, ?_, ?_⟩
    · intro r hr
      by_cases hp : isPending s.id r = true
      · simp [change, hp, SnapshotRow.abandoned] at hr
      · simpa [change, hp] using hr
    · intro r hr
      have hsame : ∀ q : SnapshotRow, q.id ≠ s.id → change q = q := by
        intro q hq
        simp [change, isPending, hq]
      change r ∈ db.snapshots.map change ↔ _
      rw [List.mem_map]
      constructor
      · rintro ⟨q, hq, rfl⟩
        rw [hid] at hr
        rwa [hsame q hr]
      · intro hmem
        exact ⟨r, hmem, hsame r hr⟩
    · intro _
      refine Database.ofStatus_iff.mpr ⟨change s, List.mem_map.mpr ⟨s, hrow, rfl⟩, hid s, ?_⟩
      simp [change, isPending, hpending, SnapshotRow.abandoned]
    · intro r hr hrid hp
      obtain ⟨q, hq, rfl⟩ := List.mem_map.mp hr
      by_cases hpq : isPending s.id q = true
      · simp [hpq, SnapshotRow.abandoned] at hp
      · simp only [hpq, Bool.false_eq_true, ↓reduceIte] at hp hrid
        simp [isPending, hrid, hp] at hpq

/-- Nothing is left to recover of a snapshot. -/
structure Quiet (db : Database) (id : SnapshotId) : Prop where
  entries : db.entriesOf id = []
  warnings : db.warningsOf id = []
  status : ∀ r ∈ db.snapshots, r.id = id → r.status = .failed ∨ r.status = .cancelled

/-- One turn of the loop over the incomplete snapshots. -/
theorem wp_recoverSnapshot (h : Held v s) {limit : Nat} {info : IncompleteSnapshotInfo}
    (hrow : s.vault.db.ofStatus info.id [info.status] = true) (hc : info.status ≠ .complete) :
    (recoverSnapshot o limit info).wp
      (fun _ t => Held v t ∧ Elsewhere info.id s.vault.db t.vault.db ∧ Quiet t.vault.db info.id)
      (CutShort v o (supported limit)) s := by
  have hkeys := h.settles.consistent
  have hclean : ∀ u : Session, Held v u → Elsewhere info.id s.vault.db u.vault.db →
      u.vault.db.ofStatus info.id [.failed, .cancelled] = true →
      (cleanIncompleteSnapshot o info.id limit).wp
        (fun _ t => Held v t ∧ Elsewhere info.id s.vault.db t.vault.db ∧ Quiet t.vault.db info.id)
        (CutShort v o (supported limit)) u := by
    intro u hu hframe hstatus
    refine Program.wp_mono (wp_cleanIncompleteSnapshot hu limit) ?_ ?_
    · rintro _ t ⟨ht, hframe', hrows, hentries, hwarnings⟩
      refine ⟨ht, hframe.trans hframe', hentries, hwarnings, ?_⟩
      intro r hr hid
      rw [hrows] at hr
      rw [← hid, hu.settles.consistent.ofStatus_row hr] at hstatus
      simpa using hstatus
    · rintro stop t ⟨ht, hout⟩
      exact ⟨ht, fun hsup => hout (by rw [hsup, hstatus]; rfl)⟩
  have hgiven : info.status = .failed ∨ info.status = .cancelled →
      s.vault.db.ofStatus info.id [.failed, .cancelled] = true := by
    intro hg
    obtain ⟨r, hr, hid, hst⟩ := Database.ofStatus_iff.mp hrow
    refine Database.ofStatus_iff.mpr ⟨r, hr, hid, ?_⟩
    rw [List.mem_singleton.mp hst]
    simpa using hg
  unfold recoverSnapshot
  cases hst : info.status with
  | pending =>
    simp only
    rw [Program.wp_bind]
    unfold markStalePendingSnapshotFailed
    rw [Program.wp_bind, Program.wp_read]
    rw [hst] at hrow
    apply wp_transaction
    · refine Program.wp_mono (wp_failStalePending hkeys _) ?_ ?_
      · rintro _ db ⟨hsettles, hframe, hfailed, _⟩
        exact hclean _ (h.commit hsettles) hframe (hfailed hrow)
      · intro _ _ hno
        simp [hno] at hrow
    · exact fun stop hstop => ⟨h.tick, fun _ => hstop⟩
  | failed => exact hclean s h (Elsewhere.refl _ _) (hgiven (Or.inl hst))
  | cancelled => exact hclean s h (Elsewhere.refl _ _) (hgiven (Or.inr hst))
  | complete => exact absurd hst hc
  | deleting =>
    rw [hst] at hrow
    refine Program.wp_mono (wp_deleteDeletingSnapshot h limit) ?_ ?_
    · rintro _ t ⟨ht, hframe, hgone, hentries, hwarnings⟩
      exact ⟨ht, hframe, hentries, hwarnings, fun r hr hid => absurd hid (hgone r hr)⟩
    · rintro stop t ⟨ht, hout⟩
      exact ⟨ht, fun hsup => hout (by rw [hsup, hrow]; rfl)⟩

theorem mem_listIncompleteSnapshots {db : Database} {info : IncompleteSnapshotInfo} :
    info ∈ listIncompleteSnapshots db ↔
      ∃ r ∈ db.snapshots, r.status ≠ .complete ∧ info = ⟨r.id, r.status⟩ := by
  simp only [listIncompleteSnapshots, List.mem_map, List.mem_insertionSort, List.mem_filter]
  constructor
  · rintro ⟨r, ⟨hr, hc⟩, rfl⟩
    exact ⟨r, hr, by simpa using hc, rfl⟩
  · rintro ⟨r, hr, hc, rfl⟩
    exact ⟨r, ⟨hr, by simpa using hc⟩, rfl⟩

theorem listIncompleteSnapshots_nodup {db : Database} (h : db.Consistent) :
    ((listIncompleteSnapshots db).map IncompleteSnapshotInfo.id).Nodup := by
  unfold listIncompleteSnapshots
  rw [List.map_map]
  have hperm := (List.perm_insertionSort (fun a b : SnapshotRow => a.id ≤ b.id)
    (db.snapshots.filter (fun s => s.status != .complete))).map SnapshotRow.id
  exact hperm.nodup_iff.mpr (nodup_key_filter h.snapshots _)

/-- A database without anything left to recover. -/
def AllQuiet (db : Database) : Prop :=
  ∀ r ∈ db.snapshots, r.status ≠ .complete → Quiet db r.id

/-- The loop over the incomplete snapshots. -/
theorem wp_recoverSnapshots (h : Held v s) {limit : Nat} :
    (Program.each (recoverSnapshot o limit) (listIncompleteSnapshots s.vault.db)).wp
      (fun _ t => Held v t ∧ AllQuiet t.vault.db) (CutShort v o (supported limit)) s := by
  have hkeys := h.settles.consistent
  let infos := listIncompleteSnapshots s.vault.db
  refine Program.wp_mono (Program.wp_each (fun done rest t => Held v t ∧
    (∀ info ∈ done, Quiet t.vault.db info.id) ∧
    (∀ info ∈ rest, t.vault.db.ofStatus info.id [info.status] = true) ∧
    ∀ r ∈ t.vault.db.snapshots, r.status ≠ .complete → r.id ∈ infos.map IncompleteSnapshotInfo.id)
    infos ⟨h, by simp, ?_, ?_⟩ ?_) ?_ (fun _ _ hc => hc)
  · intro info hinfo
    obtain ⟨r, hr, _, rfl⟩ := mem_listIncompleteSnapshots.mp hinfo
    exact Database.ofStatus_iff.mpr ⟨r, hr, rfl, by simp⟩
  · intro r hr hc
    exact List.mem_map.mpr ⟨⟨r.id, r.status⟩, mem_listIncompleteSnapshots.mpr ⟨r, hr, hc, rfl⟩, rfl⟩
  · rintro done info rest hsplit t ⟨ht, hdone, hrest, hold⟩
    have hnodup := listIncompleteSnapshots_nodup hkeys
    have hmem : info ∈ infos := by simp [hsplit]
    obtain ⟨r, _, hc, rfl⟩ := mem_listIncompleteSnapshots.mp hmem
    refine Program.wp_mono (wp_recoverSnapshot ht (hrest _ (by simp)) hc) ?_ (fun _ _ he => he)
    rintro _ u ⟨hu, hframe, hquiet⟩
    change (infos.map IncompleteSnapshotInfo.id).Nodup at hnodup
    rw [hsplit, List.map_append, List.map_cons, List.nodup_append] at hnodup
    obtain ⟨_, hnd, hdisjoint⟩ := hnodup
    refine ⟨hu, ?_, ?_, ?_⟩
    · intro info' hinfo'
      rcases List.mem_append.mp hinfo' with hin | hin
      · have hne : info'.id ≠ r.id :=
          fun he => hdisjoint info'.id (List.mem_map.mpr ⟨_, hin, rfl⟩) r.id (by simp) he
        have hq := hdone info' hin
        refine ⟨(hframe.entries _ hne).trans hq.entries, (hframe.warnings _ hne).trans hq.warnings, ?_⟩
        intro q hq' hid
        exact hq.status q ((hframe.rows q (by rw [hid]; exact hne)).mp hq') hid
      · rw [List.mem_singleton.mp hin]
        exact hquiet
    · intro info' hin
      have hne : info'.id ≠ r.id := by
        intro he
        exact (List.nodup_cons.mp hnd).1 (he ▸ List.mem_map.mpr ⟨_, hin, rfl⟩)
      obtain ⟨q, hq, hid, hst⟩ := Database.ofStatus_iff.mp (hrest info' (List.mem_cons_of_mem _ hin))
      exact Database.ofStatus_iff.mpr ⟨q, (hframe.rows q (by rw [hid]; exact hne)).mpr hq, hid, hst⟩
    · intro q hq hqc
      by_cases hid : q.id = r.id
      · exact hid ▸ List.mem_map.mpr ⟨_, hmem, rfl⟩
      · exact hold q ((hframe.rows q hid).mp hq) hqc
  · rintro _ t ⟨ht, hdone, _, hold⟩
    refine ⟨ht, ?_⟩
    intro r hr hc
    obtain ⟨info, hinfo, hid⟩ := List.mem_map.mp (hold r hr hc)
    exact hid ▸ hdone info hinfo

end Snapshots

end LocalVault.Repository
