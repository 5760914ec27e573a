import LocalVault.Proofs.Interruptions

namespace LocalVault
open Library

/-- The primary keys of all tables. -/
structure Database.Identified (db : Database) : Prop extends db.Keyed where
  warnings : (db.warnings.map WarningRow.id).Nodup

/-- A database without the entries of a snapshot, their chunk references and
its warnings. -/
def Database.emptied (db : Database) (id : SnapshotId) : Database :=
  { db with
    entries := db.entries.filter (fun e => e.snapshotId != id)
    entryChunks := db.entryChunks.filter (fun c => !(db.entriesOf id).any (fun e => e.id == c.entryId))
    warnings := db.warnings.filter (fun w => w.snapshotId != id) }

/-- A database without the row of a snapshot. -/
def Database.unlisted (db : Database) (id : SnapshotId) : Database :=
  { db with snapshots := db.snapshots.filter (fun s => s.id != id) }

/-- What a deletion at one stroke leaves. -/
def Database.without (db : Database) (id : SnapshotId) : Database := (db.emptied id).unlisted id

variable {db : Database} {id : SnapshotId}

theorem dropEntries_dropEntries (p q : EntryRow → Bool) :
    (db.dropEntries p).dropEntries q = db.dropEntries (fun e => p e || q e) := by
  have hentries : (db.entries.filter (fun e => !p e)).filter (fun e => !q e) =
      db.entries.filter (fun e => !(p e || q e)) := by
    rw [List.filter_filter]
    congr 1
    funext e
    rw [Bool.not_or, Bool.and_comm]
  have hchunks : (db.entryChunks.filter (fun c =>
        !(db.entries.filter p).any (fun e => e.id == c.entryId))).filter (fun c =>
          !((db.entries.filter (fun e => !p e)).filter q).any (fun e => e.id == c.entryId)) =
      db.entryChunks.filter (fun c =>
        !(db.entries.filter (fun e => p e || q e)).any (fun e => e.id == c.entryId)) := by
    rw [List.filter_filter]
    congr 1
    funext c
    rw [← Bool.not_or, List.filter_filter, Bool.eq_iff_iff]
    simp only [Bool.not_eq_true', Bool.or_eq_false_iff, List.any_eq_false, List.mem_filter]
    constructor
    · intro ⟨hq, hp⟩ e ⟨he, hpq⟩
      cases hpe : p e with
      | true => exact hp e ⟨he, hpe⟩
      | false => exact hq e ⟨he, by simpa [hpe] using hpq⟩
    · intro h
      exact ⟨fun e ⟨he, hqe⟩ => h e ⟨he, by simp_all⟩, fun e ⟨he, hpe⟩ => h e ⟨he, by simp [hpe]⟩⟩
  unfold Database.dropEntries
  simp only [hentries, hchunks]

theorem dropWarnings_dropWarnings (p q : WarningRow → Bool) :
    (db.dropWarnings p).dropWarnings q = db.dropWarnings (fun w => p w || q w) := by
  have hwarnings : (db.warnings.filter (fun w => !p w)).filter (fun w => !q w) =
      db.warnings.filter (fun w => !(p w || q w)) := by
    rw [List.filter_filter]
    congr 1
    funext w
    rw [Bool.not_or, Bool.and_comm]
  unfold Database.dropWarnings
  simp only [hwarnings]

theorem dropEntries_congr {p q : EntryRow → Bool} (h : ∀ e ∈ db.entries, p e = q e) :
    db.dropEntries p = db.dropEntries q := by
  have hkept : db.entries.filter (fun e => !p e) = db.entries.filter (fun e => !q e) :=
    List.filter_congr (fun e he => by rw [h e he])
  have hgone : db.entries.filter p = db.entries.filter q := List.filter_congr h
  unfold Database.dropEntries
  rw [hkept, hgone]

theorem dropWarnings_congr {p q : WarningRow → Bool} (h : ∀ w ∈ db.warnings, p w = q w) :
    db.dropWarnings p = db.dropWarnings q := by
  unfold Database.dropWarnings
  rw [List.filter_congr (fun w hw => by rw [h w hw])]

namespace Repository

/-- A database that has lost rows of one snapshot only. -/
inductive Thinned (id : SnapshotId) (db : Database) : Database → Prop
  | drop (p : EntryRow → Bool) (q : WarningRow → Bool)
      (entries : ∀ e ∈ db.entries, p e = true → e.snapshotId = id)
      (warnings : ∀ w ∈ db.warnings, q w = true → w.snapshotId = id) :
      Thinned id db ((db.dropEntries p).dropWarnings q)

namespace Thinned

theorem dropEntries {p : EntryRow → Bool}
    (hp : ∀ e ∈ db.entries, p e = true → e.snapshotId = id) : Thinned id db (db.dropEntries p) := by
  have h : Thinned id db _ := .drop p (fun _ => false) hp (by simp)
  simpa [Database.dropWarnings] using h

theorem dropWarnings {q : WarningRow → Bool}
    (hq : ∀ w ∈ db.warnings, q w = true → w.snapshotId = id) :
    Thinned id db (db.dropWarnings q) := by
  have h : Thinned id db _ := .drop (fun _ => false) q (by simp) hq
  simpa [Database.dropEntries] using h

theorem refl : Thinned id db db := by
  have h : Thinned id db (db.dropWarnings (fun _ => false)) := dropWarnings (by simp)
  simpa [Database.dropWarnings] using h

theorem trans {a b c : Database} (h : Thinned id a b) (h' : Thinned id b c) : Thinned id a c := by
  obtain ⟨p, q, hp, hq⟩ := h
  obtain ⟨p', q', hp', hq'⟩ := h'
  have hswap : ((((a.dropEntries p).dropWarnings q).dropEntries p').dropWarnings q') =
      (((a.dropEntries p).dropEntries p').dropWarnings q).dropWarnings q' := rfl
  rw [hswap, dropEntries_dropEntries, dropWarnings_dropWarnings]
  refine .drop _ _ ?_ ?_
  · intro e he hpe
    cases hp0 : p e with
    | true => exact hp e he hp0
    | false =>
      exact hp' e (List.mem_filter.mpr ⟨he, by simp [hp0]⟩) (by simpa [hp0] using hpe)
  · intro w hw hqw
    cases hq0 : q w with
    | true => exact hq w hw hq0
    | false =>
      exact hq' w (List.mem_filter.mpr ⟨hw, by simp [hq0]⟩) (by simpa [hq0] using hqw)

variable {db' : Database}

theorem snapshots (h : Thinned id db db') : db'.snapshots = db.snapshots := by
  cases h
  rfl

theorem identified (h : Thinned id db db') (hk : db.Identified) : db'.Identified := by
  cases h
  exact {
    snapshots := hk.snapshots
    entries := nodup_key_filter hk.entries _
    chunks := hk.chunks
    warnings := nodup_key_filter hk.warnings _ }

theorem entries_subset (h : Thinned id db db') : ∀ e ∈ db'.entries, e ∈ db.entries := by
  cases h
  exact fun _ he => List.mem_of_mem_filter he

/-- Batches that have taken everything have taken what one deletion would. -/
theorem emptied (h : Thinned id db db') (he : db'.entriesOf id = []) (hw : db'.warningsOf id = []) :
    db' = db.emptied id := by
  obtain ⟨p, q, hp, hq⟩ := h
  change (db.entries.filter (fun e => !p e)).filter (fun e => e.snapshotId == id) = [] at he
  change (db.warnings.filter (fun w => !q w)).filter (fun w => w.snapshotId == id) = [] at hw
  rw [List.filter_filter, List.filter_eq_nil_iff] at he hw
  have hentries : ∀ e ∈ db.entries, p e = (e.snapshotId == id) := by
    intro e hmem
    rw [Bool.eq_iff_iff, beq_iff_eq]
    exact ⟨hp e hmem, fun hid => by simpa [hid] using he e hmem⟩
  have hwarnings : ∀ w ∈ db.warnings, q w = (w.snapshotId == id) := by
    intro w hmem
    rw [Bool.eq_iff_iff, beq_iff_eq]
    exact ⟨hq w hmem, fun hid => by simpa [hid] using hw w hmem⟩
  rw [dropEntries_congr hentries]
  exact dropWarnings_congr hwarnings

theorem of_emptied : Thinned id db (db.emptied id) :=
  .drop (fun e => e.snapshotId == id) (fun w => w.snapshotId == id)
    (fun _ _ h => eq_of_beq h) (fun _ _ h => eq_of_beq h)

end Thinned

/-- The rows of the other snapshots and the chunks are as they were. -/
structure Untouched (id : SnapshotId) (db db' : Database) : Prop where
  snapshots : db'.snapshots.filter (fun s => s.id != id) = db.snapshots.filter (fun s => s.id != id)
  entries : db'.entries.filter (fun e => e.snapshotId != id) =
    db.entries.filter (fun e => e.snapshotId != id)
  references : ∀ e ∈ db.entries, e.snapshotId ≠ id → db'.entryChunksOf e.id = db.entryChunksOf e.id
  warnings : db'.warnings.filter (fun w => w.snapshotId != id) =
    db.warnings.filter (fun w => w.snapshotId != id)
  chunks : db'.chunks = db.chunks

/-- No query shows a snapshot, nor what is left of the entries it had. -/
structure Invisible (id : SnapshotId) (db db' : Database) : Prop where
  entries : listEntries db' id = .ok []
  children : ∀ parentPath, listChildren db' id parentPath = .ok []
  references : ∀ e ∈ db.entriesOf id, listEntryChunks db' e.id = .ok []

theorem filter_drop_rest {ρ : Type} {rows : List ρ} {owner : ρ → SnapshotId} {drop : ρ → Bool}
    (hdrop : ∀ r ∈ rows, drop r = true → owner r = id) :
    (rows.filter (fun r => !drop r)).filter (fun r => owner r != id) =
      rows.filter (fun r => owner r != id) := by
  rw [List.filter_filter]
  apply List.filter_congr
  intro r hr
  cases hd : drop r with
  | false => simp
  | true => simp [hdrop r hr hd]

theorem untouched_thinned {db' : Database} (hk : db.Identified) (h : Thinned id db db') :
    Untouched id db db' := by
  obtain ⟨p, q, hp, hq⟩ := h
  refine ⟨rfl, filter_drop_rest hp, ?_, filter_drop_rest hq, rfl⟩
  intro e he hother
  change (db.entryChunks.filter _).filter (fun c => c.entryId == e.id) = _
  rw [List.filter_filter]
  apply List.filter_congr
  intro c _
  by_cases hc : c.entryId = e.id
  · have hkept : (db.entries.filter p).any (fun d => d.id == c.entryId) = false := by
      rw [List.any_eq_false]
      intro d hd hid
      obtain ⟨hd, hpd⟩ := List.mem_filter.mp hd
      have hsame : d = e :=
        List.inj_on_of_nodup_map hk.entries hd he ((beq_iff_eq.mp hid).trans hc)
      exact hother (hsame ▸ hp d hd hpd)
    simp [hkept]
  · simp [hc]

theorem Untouched.unlisted {db' : Database} (h : Untouched id db db') :
    Untouched id db (db'.unlisted id) := by
  refine ⟨?_, h.entries, h.references, h.warnings, h.chunks⟩
  change (db'.snapshots.filter _).filter _ = _
  rw [List.filter_filter]
  simpa using h.snapshots

theorem invisible_of {db' : Database} (hk : db.Identified)
    (hentries : ∀ e ∈ db'.entries, e ∈ db.entries)
    (hstatus : ∀ s ∈ db'.snapshots, s.id = id → s.status ≠ .complete) : Invisible id db db' := by
  have hnone : db'.snapshots.any (fun s => s.id == id && s.status == .complete) = false := by
    rw [List.any_eq_false]
    intro s hs hc
    rw [Bool.and_eq_true, beq_iff_eq, beq_iff_eq] at hc
    exact hstatus s hs hc.1 hc.2
  refine ⟨?_, ?_, ?_⟩
  · have hrows : db'.entries.filter (fun e => e.snapshotId == id &&
        db'.snapshots.any (fun s => s.id == e.snapshotId && s.status == .complete)) = [] := by
      rw [List.filter_eq_nil_iff]
      intro e _ he
      rw [Bool.and_eq_true, beq_iff_eq] at he
      rw [he.1, hnone] at he
      exact absurd he.2 (by decide)
    unfold listEntries
    rw [hrows]
    rfl
  · intro parentPath
    have hrows : db'.entries.filter (fun e => e.snapshotId == id && e.parentPath == parentPath &&
        e.relativePath != [] &&
        db'.snapshots.any (fun s => s.id == e.snapshotId && s.status == .complete)) = [] := by
      rw [List.filter_eq_nil_iff]
      intro e _ he
      simp only [Bool.and_eq_true, beq_iff_eq] at he
      rw [he.1.1.1, hnone] at he
      exact absurd he.2 (by decide)
    unfold listChildren
    rw [hrows]
    rfl
  · intro e he
    obtain ⟨he, hid⟩ := List.mem_filter.mp he
    have hrows : (db'.entryChunks.filter (fun c => c.entryId == e.id)).flatMap (fun ec =>
        (db'.chunks.filter (fun c => c.hash == ec.chunkHash)).flatMap (fun c =>
          (db'.entries.filter (fun d => d.id == ec.entryId)).flatMap (fun d =>
            (db'.snapshots.filter (fun s => s.id == d.snapshotId && s.status == .complete)).map
              (fun _ => (ec, c))))) = [] := by
      simp only [List.flatMap_eq_nil_iff, List.map_eq_nil_iff, List.filter_eq_nil_iff]
      intro ec hec c _ d hd s hs hc
      obtain ⟨hd, hdid⟩ := List.mem_filter.mp hd
      have hkey : d.id = e.id :=
        (beq_iff_eq.mp hdid).trans (beq_iff_eq.mp (List.mem_filter.mp hec).2)
      have hsame : d = e := List.inj_on_of_nodup_map hk.entries (hentries d hd) he hkey
      rw [Bool.and_eq_true, beq_iff_eq, beq_iff_eq, hsame, beq_iff_eq.mp hid] at hc
      exact hstatus s hs hc.1 hc.2
    unfold listEntryChunks joinedEntryChunks
    rw [hrows]
    rfl

/-- What the transactions of a clean-up commit. -/
inductive Batch (limit : Nat) (id : SnapshotId) (db : Database) : Database → Prop
  | entries (drop : EntryRow → Bool) (mine : ∀ e ∈ db.entries, drop e = true → e.snapshotId = id)
      (bounded : (db.entries.filter drop).length ≤ limit) : Batch limit id db (db.dropEntries drop)
  | warnings (drop : WarningRow → Bool)
      (mine : ∀ w ∈ db.warnings, drop w = true → w.snapshotId = id)
      (bounded : (db.warnings.filter drop).length ≤ limit) :
      Batch limit id db (db.dropWarnings drop)

/-- What the transactions of a deletion commit: the row goes last, alone. -/
inductive Deletion (limit : Nat) (id : SnapshotId) (db : Database) : Database → Prop
  | batch {db' : Database} (h : Batch limit id db db') : Deletion limit id db db'
  | row (entries : db.entriesOf id = []) (warnings : db.warningsOf id = []) :
      Deletion limit id db (db.unlisted id)

theorem Batch.thinned {limit : Nat} {db' : Database} (h : Batch limit id db db') :
    Thinned id db db' := by
  cases h with
  | entries drop mine _ => exact Thinned.dropEntries mine
  | warnings drop mine _ => exact Thinned.dropWarnings mine

/-- A vault that has lost rows of one snapshot only. -/
structure Swept (id : SnapshotId) (v w : Vault) : Prop where
  rest : w = { v with db := w.db }
  thinned : Thinned id v.db w.db

section Runs

variable {v : Vault} {o : Outside} {s : Session} {limit : Nat}

theorem Swept.commit (h : Swept id v s.vault) {db : Database} (hd : Thinned id s.vault.db db) :
    Swept id v (s.commit db).vault where
  rest := by
    change ({ s.vault with db := db } : Vault) = _
    rw [h.rest]
    rfl
  thinned := h.thinned.trans hd

theorem Swept.ofStatus (h : Swept id v s.vault) {statuses : List SnapshotStatus} :
    s.vault.db.ofStatus id statuses = v.db.ofStatus id statuses := by
  unfold Database.ofStatus
  rw [h.thinned.snapshots]

theorem interruptible_round {body : Sql Nat} : Interruptible (fun o => do
    let removed ← transaction o body
    pure (removed == 0)) :=
  (Interruptible.transaction body).bind (fun _ => Interruptible.pure _)

theorem interruptible_removeBatches {check : Sql Unit} {batch : Sql Nat} {rows : Database → Nat} :
    Interruptible (fun o => removeBatches o check rows batch) :=
  (Interruptible.read _).bind (fun count => interruptible_round.rounds (count + 1))

/-- Each round of a loop over batches is one step. -/
theorem stepwise_removeBatches {check : Sql Unit} {batch : Sql Nat} {rows : Database → Nat}
    {Step : Database → Database → Prop} (I : Session → Prop) (hs : I s)
    (step : ∀ t, I t → (do check; batch).wp
      (fun _ db => I (t.commit db) ∧ Step t.vault.db db) (fun _ _ => True) t.vault.db) :
    Stepwise Step (fun o => removeBatches o check rows batch) s := by
  apply Stepwise.quiet.bind (Interruptible.read _)
    (fun count => interruptible_round.rounds (count + 1))
  intro o
  rw [Program.wp_read]
  refine Stepwise.rounds interruptible_round I ?_ _ s hs
  intro t ht
  constructor
  · apply Stepwise.bind
    · exact Stepwise.transaction (Program.wp_mono (step t ht) (fun _ _ h => h.2) (fun _ _ h => h))
    · exact Interruptible.transaction _
    · exact fun _ => Interruptible.pure _
    · exact fun _ => Program.wp_any (fun _ _ => Stepwise.quiet) (fun _ _ => trivial)
  · intro o
    rw [Program.wp_bind]
    apply wp_transaction
    · exact Program.wp_mono (step t ht) (fun _ _ h _ => h.1) (fun _ _ h => h)
    · exact fun _ _ => trivial

section Loops

variable {statuses : List SnapshotStatus} {missing multiple : LocalVaultError}

theorem entryBatch_step (hk : v.db.Identified) (hl : 0 < limit) (h : Swept id v s.vault) :
    (do requireStatus id statuses missing multiple; deleteEntryBatch id limit).wp
      (fun removed db => Swept id v (s.commit db).vault ∧ Batch limit id s.vault.db db ∧
        (removed = 0 → db.entriesOf id = []) ∧
        (removed ≠ 0 → (db.entriesOf id).length < (s.vault.db.entriesOf id).length))
      (fun _ _ => v.db.ofStatus id statuses = false) s.vault.db := by
  refine Program.wp_mono (wp_entryBatch (h.thinned.identified hk).toKeyed hl) ?_ ?_
  · rintro removed _ ⟨_, drop, hd, rfl⟩
    have hbatch : Batch limit id s.vault.db (s.vault.db.dropEntries drop) :=
      .entries drop hd.mine hd.bounded
    exact ⟨h.commit hbatch.thinned, hbatch, hd.empty, hd.fewer⟩
  · intro _ _ hno
    rwa [h.ofStatus] at hno

theorem warningBatch_step (hk : v.db.Identified) (hl : 0 < limit) (h : Swept id v s.vault) :
    (do requireStatus id statuses missing multiple; deleteWarningBatch id limit).wp
      (fun removed db => Swept id v (s.commit db).vault ∧ Batch limit id s.vault.db db ∧
        db.entries = s.vault.db.entries ∧ (removed = 0 → db.warningsOf id = []) ∧
        (removed ≠ 0 → (db.warningsOf id).length < (s.vault.db.warningsOf id).length))
      (fun _ _ => v.db.ofStatus id statuses = false) s.vault.db := by
  have hkeys := h.thinned.identified hk
  refine Program.wp_mono (wp_warningBatch hkeys.toKeyed hkeys.warnings hl) ?_ ?_
  · rintro removed _ ⟨_, drop, hd, rfl⟩
    have hbatch : Batch limit id s.vault.db (s.vault.db.dropWarnings drop) :=
      .warnings drop hd.mine hd.bounded
    exact ⟨h.commit hbatch.thinned, hbatch, rfl, hd.empty, hd.fewer⟩
  · intro _ _ hno
    rwa [h.ofStatus] at hno

theorem wp_sweepEntries (hk : v.db.Identified) (hl : 0 < limit) (h : Swept id v s.vault)
    (hs : v.db.ofStatus id statuses = true) :
    (removeEntries o id limit (requireStatus id statuses missing multiple)).wp
      (fun _ t => Swept id v t.vault ∧ t.vault.db.entriesOf id = [])
      (fun stop t => Swept id v t.vault ∧ FromOutside o stop) s := by
  unfold removeEntries
  refine Program.wp_mono (wp_removeBatches (v.db.ofStatus id statuses)
    (fun t => Swept id v t.vault) h (fun _ ht => ht) ?_) ?_ ?_
  · intro t ht
    refine Program.wp_mono (entryBatch_step hk hl ht) ?_ (fun _ _ hno => hno)
    intro removed db ⟨hswept, _, hempty, hfewer⟩
    exact ⟨hswept, fun hr => congrArg List.length (hempty hr), hfewer⟩
  · exact fun _ t ht => ⟨ht.1, List.eq_nil_of_length_eq_zero ht.2⟩
  · exact fun _ t ht => ⟨ht.1, ht.2 hs⟩

theorem wp_sweepWarnings (hk : v.db.Identified) (hl : 0 < limit) (h : Swept id v s.vault)
    (hs : v.db.ofStatus id statuses = true) (he : s.vault.db.entriesOf id = []) :
    (removeWarnings o id limit (requireStatus id statuses missing multiple)).wp
      (fun _ t => Swept id v t.vault ∧ t.vault.db.entriesOf id = [] ∧ t.vault.db.warningsOf id = [])
      (fun stop t => Swept id v t.vault ∧ FromOutside o stop) s := by
  unfold removeWarnings
  refine Program.wp_mono (wp_removeBatches (v.db.ofStatus id statuses)
    (fun t => Swept id v t.vault ∧ t.vault.db.entriesOf id = []) ⟨h, he⟩ (fun _ ht => ht) ?_) ?_ ?_
  · intro t ⟨ht, hnone⟩
    refine Program.wp_mono (warningBatch_step hk hl ht) ?_ (fun _ _ hno => hno)
    intro removed db ⟨hswept, _, hentries, hempty, hfewer⟩
    refine ⟨⟨hswept, ?_⟩, fun hr => congrArg List.length (hempty hr), hfewer⟩
    change db.entriesOf id = []
    rwa [Database.entriesOf, hentries]
  · exact fun _ t ht => ⟨ht.1.1, ht.1.2, List.eq_nil_of_length_eq_zero ht.2⟩
  · exact fun _ t ht => ⟨ht.1.1, ht.2 hs⟩

theorem stepwise_removeEntries {Step : Database → Database → Prop} (hk : v.db.Identified)
    (hl : 0 < limit) (h : Swept id v s.vault)
    (hstep : ∀ {a b}, Batch limit id a b → Step a b) :
    Stepwise Step (fun o => removeEntries o id limit (requireStatus id statuses missing multiple))
      s := by
  apply stepwise_removeBatches (fun t => Swept id v t.vault) h
  intro t ht
  refine Program.wp_mono (entryBatch_step hk hl ht) ?_ (fun _ _ _ => trivial)
  exact fun _ _ h => ⟨h.1, hstep h.2.1⟩

theorem stepwise_removeWarnings {Step : Database → Database → Prop} (hk : v.db.Identified)
    (hl : 0 < limit) (h : Swept id v s.vault)
    (hstep : ∀ {a b}, Batch limit id a b → Step a b) :
    Stepwise Step (fun o => removeWarnings o id limit (requireStatus id statuses missing multiple))
      s := by
  apply stepwise_removeBatches (fun t => Swept id v t.vault) h
  intro t ht
  refine Program.wp_mono (warningBatch_step hk hl ht) ?_ (fun _ _ _ => trivial)
  exact fun _ _ h => ⟨h.1, hstep h.2.1⟩

end Loops

/-- The row of an emptied snapshot goes alone. -/
theorem dropSnapshots_bare {db : Database} (he : db.entriesOf id = []) (hw : db.warningsOf id = [])
    {drop : SnapshotRow → Bool} (hd : ∀ r ∈ db.snapshots, drop r = (r.id == id)) :
    db.dropSnapshots drop = db.unlisted id := by
  have hlost : ∀ j, (db.snapshots.filter drop).any (fun r => r.id == j) = true → j = id := by
    intro j hj
    obtain ⟨r, hr, hrj⟩ := List.any_eq_true.mp hj
    obtain ⟨hr, hdrop⟩ := List.mem_filter.mp hr
    rw [hd r hr, beq_iff_eq] at hdrop
    exact (eq_of_beq hrj).symm.trans hdrop
  have hentries : db.dropEntries (fun e =>
      (db.snapshots.filter drop).any (fun r => r.id == e.snapshotId)) = db := by
    rw [dropEntries_congr (q := fun _ => false)]
    · simp [Database.dropEntries]
    · intro e hmem
      rw [← Bool.not_eq_true]
      intro hj
      have hmine : e ∈ db.entriesOf id := List.mem_filter.mpr ⟨hmem, by simpa using hlost _ hj⟩
      rw [he] at hmine
      cases hmine
  have hwarnings : db.dropWarnings (fun w =>
      (db.snapshots.filter drop).any (fun r => r.id == w.snapshotId)) = db := by
    rw [dropWarnings_congr (q := fun _ => false)]
    · simp [Database.dropWarnings]
    · intro w hmem
      rw [← Bool.not_eq_true]
      intro hj
      have hmine : w ∈ db.warningsOf id := List.mem_filter.mpr ⟨hmem, by simpa using hlost _ hj⟩
      rw [hw] at hmine
      cases hmine
  have hkept : db.snapshots.filter (fun r => !drop r) = db.snapshots.filter (fun r => r.id != id) :=
    List.filter_congr (fun r hr => by rw [hd r hr]; rfl)
  unfold Database.dropSnapshots
  simp only [hentries, hwarnings, hkept]
  rfl

theorem wp_deleteSnapshotRow_bare {db : Database} (h : db.Keyed)
    (hs : db.ofStatus id [.deleting] = true) (he : db.entriesOf id = []) (hw : db.warningsOf id = []) :
    (deleteSnapshotRow id).wp (fun _ db' => db' = db.unlisted id) (fun _ _ => False) db := by
  obtain ⟨r, hrow, rfl, hstatus⟩ := Database.ofStatus_iff.mp hs
  have hdeleting : r.status = .deleting := by simpa using hstatus
  have hone : db.snapshots.filter (fun q => q.id == r.id && q.status == .deleting) = [r] := by
    rw [filter_key_and h.snapshots hrow (fun q => q.status == .deleting)]
    simp [hdeleting]
  unfold deleteSnapshotRow
  rw [Program.wp_bind]
  change (requireSingle _ _ (db.snapshots.filter _).length : Sql Unit).wp _ _ (db.dropSnapshots _)
  rw [wp_requireSingle (by rw [hone]; rfl)]
  apply dropSnapshots_bare he hw
  intro q hq
  rw [Bool.eq_iff_iff, Bool.and_eq_true, beq_iff_eq, beq_iff_eq]
  constructor
  · exact fun hq => hq.1
  · intro hid
    rw [List.inj_on_of_nodup_map h.snapshots hq hrow hid]
    exact ⟨rfl, hdeleting⟩

end Runs

end Repository
end LocalVault
