import LocalVault.Proofs.Verified
import LocalVault.Restore.Warned

namespace LocalVault.Restore
open Library Library.FileTree Library.Program

/-- The result and the reports of a run stand here. -/
structure Standing (result : RestoreResult) (reports : List ProgressEvent) (w : World) : Prop where
  result : w.result = result
  reports : w.reports = reports

section Standing

variable {result : RestoreResult} {reports : List ProgressEvent} {h : Host}

theorem Standing.steady : Steady (Standing result reports) :=
  fun _ _ hq ht => ⟨hq.result.trans ht.result, hq.reports.trans ht.reports⟩

/-- A change of the tree is not counted. -/
theorem standing_mutate {paths : List Path} {change : Tree → Int → Except Errno Tree} :
    Maintains (Standing result reports) (mutate h paths change) :=
  maintains_mutate Standing.steady fun _ _ _ ht _ => ⟨ht.result, ht.reports⟩

theorem standing_removeQuietly {p : Path} {w : World} (ht : Standing result reports w) :
    Standing result reports (removeQuietly h p w) := by
  unfold removeQuietly
  split
  · exact ⟨ht.result, ht.reports⟩
  · split
    · exact ⟨ht.result, ht.reports⟩
    · exact ⟨ht.result, ht.reports⟩

theorem standing_openTemporaryOutputFile {directory : Path} (attempts : Nat) :
    Maintains (Standing result reports) (openTemporaryOutputFile h directory attempts) := by
  induction attempts with
  | zero => exact Maintains.raise _
  | succ attempts ih =>
    refine Maintains.bind (Maintains.read _) fun candidate => Maintains.bind standing_mutate ?_
    intro r
    rcases r with e | _
    · cases e <;> first | exact ih | exact Maintains.raise _
    · exact Maintains.pure _

theorem standing_writeLoop {temporary : Path} (rounds : Nat) (bytes : Bytes) :
    Maintains (Standing result reports) (writeLoop h temporary rounds bytes) := by
  induction rounds generalizing bytes with
  | zero => exact Maintains.pure _
  | succ rounds ih =>
    refine Maintains.ite (fun _ => Maintains.pure _) fun _ => ?_
    refine Maintains.bind (Maintains.read _) fun written => Maintains.bind standing_mutate ?_
    intro r
    rcases r with e | _
    · exact Maintains.raise _
    · exact ih _

theorem standing_changeStamp {path : Path} {change : Tree → (Stamp → Stamp) → Except Errno Tree}
    {f : Stamp → Stamp} {message : String} :
    Maintains (Standing result reports) (changeStamp h path change f message) := by
  refine Maintains.bind standing_mutate ?_
  intro r
  rcases r with e | _
  · exact Maintains.raise _
  · exact Maintains.pure _

theorem standing_applyMetadataBy {path : Path} {change : Tree → (Stamp → Stamp) → Except Errno Tree}
    {modifiedTimeNs : Int} {posixMode : Nat} :
    Maintains (Standing result reports) (applyMetadataBy h path change modifiedTimeNs posixMode) := by
  refine Maintains.bind (Maintains.ofExcept _) fun _ => ?_
  refine Maintains.ite (fun _ => ?_) fun _ => standing_changeStamp
  exact Maintains.bind standing_changeStamp fun _ => standing_changeStamp

theorem standing_publishRestoredPath {temporary destination : Path} {replaceExisting : Bool} :
    Maintains (Standing result reports)
      (publishRestoredPath h temporary destination replaceExisting) := by
  refine Maintains.bind standing_mutate ?_
  intro r
  rcases r with e | _
  · exact Maintains.ite (fun _ => Maintains.raise _) fun _ =>
      Maintains.ite (fun _ => Maintains.pure _) fun _ => Maintains.raise _
  · exact Maintains.pure _

theorem standing_uniqueTemporaryPath {destination : Path} (attempts : Nat) :
    Maintains (Standing result reports) (uniqueTemporaryPath h destination attempts) := by
  induction attempts with
  | zero => exact Maintains.raise _
  | succ attempts ih =>
    refine Maintains.bind (Maintains.read _) fun number => ?_
    refine Maintains.bind (Maintains.update fun _ ht => ⟨ht.result, ht.reports⟩) fun _ => ?_
    refine Maintains.bind (maintains_existingStatus Standing.steady _) ?_
    intro status
    cases status with
    | none => exact Maintains.pure _
    | some node => exact ih

theorem standing_createRestoredSymlink {target : Bytes} {linkPath : Path} :
    Maintains (Standing result reports) (createRestoredSymlink h target linkPath) := by
  refine Maintains.bind standing_mutate ?_
  intro r
  rcases r with e | _
  · exact Maintains.raise _
  · exact Maintains.pure _

theorem standing_createDirectories (paths : List Path) :
    Maintains (Standing result reports) (createDirectories h paths) := by
  induction paths with
  | nil => exact Maintains.pure _
  | cons p ps ih =>
    refine Maintains.bind (maintains_observe Standing.steady _) ?_
    intro r
    rcases r with e | node
    · cases e with
      | noEntry =>
        refine Maintains.bind standing_mutate ?_
        intro r
        rcases r with e | _
        · exact Maintains.raise _
        · exact ih
      | _ => exact Maintains.raise _
    · exact Maintains.ite (fun _ => ih) fun _ => Maintains.raise _

theorem standing_planFrom {request : RestoreRequest} {root : Path} (entries : List EntryInfo)
    (skipped : List (List Name)) :
    Maintains (Standing result reports) (planFrom h request root skipped entries) := by
  induction entries generalizing skipped with
  | nil => exact Maintains.pure _
  | cons entry entries ih =>
    refine Maintains.ite (fun _ => ?_) fun _ => Maintains.ite (fun _ => ?_) fun _ => ?_
    · exact Maintains.bind (ih _) fun _ => Maintains.pure _
    · exact Maintains.bind (ih _) fun _ => Maintains.pure _
    · refine Maintains.bind (maintains_requireSafeAncestors Standing.steady _ _) fun _ => ?_
      refine Maintains.bind (maintains_existingStatus Standing.steady _) fun status => ?_
      refine Maintains.bind (Maintains.ofExcept _) fun action => ?_
      exact Maintains.bind (ih _) fun _ => Maintains.pure _

theorem standing_normalizedDestination {requested : Bytes} {repository : RepositoryView} :
    Maintains (Standing result reports) (normalizedDestination h requested repository) := by
  refine Maintains.ite (fun _ => Maintains.raise _) fun _ => ?_
  refine Maintains.bind (maintains_requireRealOrMissing Standing.steady _ _ _) fun _ => ?_
  exact Maintains.ite (fun _ => Maintains.raise _) fun _ => Maintains.pure _

theorem standing_writeChunks {c : Context} {entry : EntryInfo} {temporary : Path}
    (chunks : List ChunkReferenceInfo) (written : Nat) (hashed : Bytes) :
    Maintains (Standing result reports) (writeChunks c entry temporary chunks written hashed) := by
  induction chunks generalizing written hashed with
  | nil => exact Maintains.pure _
  | cons chunk chunks ih =>
    refine Maintains.bind (maintains_checkCancelled Standing.steady _) fun _ => ?_
    refine Maintains.bind (maintains_callback Standing.steady) fun _ => ?_
    refine Maintains.bind (Maintains.ofExcept _) fun raw => ?_
    refine Maintains.ite (fun _ => Maintains.raise _) fun _ => ?_
    refine Maintains.bind (standing_writeLoop _ _) fun _ => ?_
    refine Maintains.bind (maintains_callback Standing.steady) fun _ => ?_
    exact Maintains.bind (Maintains.ofExcept _) fun total => ih _ _

theorem standing_fileMetadata {c : Context} {entry : EntryInfo} {temporary : Path} :
    Maintains (Standing result reports) (fileMetadata c entry temporary) :=
  Maintains.rescue (Maintains.bind standing_applyMetadataBy fun _ => Maintains.pure _)
    fun _ => Maintains.pure _

end Standing

/-- What a report counts as processed. -/
def World.processed (w : World) : Nat :=
  w.result.restoredFiles + w.result.restoredDirectories + w.result.restoredSymlinks +
    w.result.skippedEntries.length

/-- So many entries are counted, and every report is in order. -/
structure Counted (ok : ProgressEvent → Prop) (k : Nat) (w : World) : Prop where
  processed : w.processed = k
  reports : ∀ event ∈ w.reports, ok event

theorem Counted.standing {ok : ProgressEvent → Prop} {k : Nat} {w u : World} (hw : Counted ok k w)
    (ht : Standing w.result w.reports u) : Counted ok k u := by
  refine ⟨?_, ht.reports ▸ hw.reports⟩
  rw [← hw.processed]
  unfold World.processed
  rw [ht.result]

/-- What follows calls that count nothing starts with the same count. -/
theorem Counted.after {ok : ProgressEvent → Prop} {k : Nat} {w : World} {α β : Type}
    {m : RestoreM α} {f : α → RestoreM β} {Q : β → World → Prop}
    (hm : ∀ result reports, Maintains (Standing result reports) m) (hw : Counted ok k w)
    (hf : ∀ a u, m w = (.ok a, u) → Counted ok k u →
      (f a).wp Q (fun _ v => ∀ event ∈ v.reports, ok event) u) :
    (m >>= f).wp Q (fun _ v => ∀ event ∈ v.reports, ok event) w := by
  have ht := hm w.result w.reports w ⟨rfl, rfl⟩
  rw [wp_bind]
  unfold wp at ht ⊢
  rcases hr : m w with ⟨r, u⟩
  rw [hr] at ht
  cases r with
  | error e => exact (hw.standing ht).reports
  | ok a => exact hf a u hr (hw.standing ht)

/-- A report of `k` entries of `total` would be in order. -/
def Allowed (ok : ProgressEvent → Prop) (total k : Nat) : Prop :=
  ∀ phase path bytes, ok ⟨phase, path, k, bytes, total⟩

/-- A program that counts `d` entries, as long as reports of no more than these are in order. -/
def Adds (ok : ProgressEvent → Prop) (total d : Nat) {α : Type} (m : RestoreM α) : Prop :=
  ∀ k, (∀ j ≤ k + d, Allowed ok total j) → ∀ w, Counted ok k w →
    m.wp (fun _ w' => Counted ok (k + d) w') (fun _ w' => ∀ event ∈ w'.reports, ok event) w

namespace Adds

variable {ok : ProgressEvent → Prop} {total d d' : Nat} {α β : Type} {m : RestoreM α}

theorem silent (h : ∀ result reports, Maintains (Standing result reports) m) : Adds ok total 0 m := by
  intro k _ w hw
  exact wp_mono (h w.result w.reports w ⟨rfl, rfl⟩) (fun _ _ ht => hw.standing ht)
    (fun _ _ ht => (hw.standing ht).reports)

theorem pure (a : α) : Adds ok total 0 (Pure.pure a : RestoreM α) :=
  silent fun _ _ => Maintains.pure a

theorem raise (e : LocalVaultError) : Adds ok total d (Program.raise e : RestoreM α) :=
  fun _ _ _ hw => hw.reports

theorem bind {f : α → RestoreM β} {e : Nat} (hm : Adds ok total d m)
    (hf : ∀ a, Adds ok total d' (f a)) (he : e = d + d') : Adds ok total e (m >>= f) := by
  intro k hk w hw
  rw [wp_bind]
  refine wp_mono (hm k (fun j hj => hk j (by omega)) w hw) (fun a u hu => ?_) fun _ _ h => h
  have hlast := hf a (k + d) (fun j hj => hk j (by omega)) u hu
  rwa [Nat.add_assoc, ← he] at hlast

/-- Calls that count nothing may stand in front. -/
theorem after {f : α → RestoreM β} (hm : ∀ result reports, Maintains (Standing result reports) m)
    (hf : ∀ a, Adds ok total d (f a)) : Adds ok total d (m >>= f) :=
  (silent hm).bind hf (Nat.zero_add d).symm

theorem rescue {handler : LocalVaultError → RestoreM α}
    (hm : ∀ result reports, Maintains (Standing result reports) m)
    (hh : ∀ e, Adds ok total 0 (handler e)) : Adds ok total 0 (m.rescue handler) := by
  intro k hk w hw
  rw [wp_rescue]
  exact wp_mono (hm w.result w.reports w ⟨rfl, rfl⟩) (fun _ _ hu => hw.standing hu)
    (fun e u hu => hh e k hk u (hw.standing hu))

theorem ite {c : Prop} [Decidable c] {n : RestoreM α} (hm : c → Adds ok total d m)
    (hn : ¬ c → Adds ok total d n) : Adds ok total d (if c then m else n) := by
  split
  · exact hm ‹_›
  · exact hn ‹_›

theorem removing {h : Host} {p : Path} (hm : Adds ok total d m) :
    Adds ok total d (m.ensure (removeQuietly h p)) := by
  intro k hk w hw
  rw [wp_ensure]
  have hkeep : ∀ u, Standing u.result u.reports (removeQuietly h p u) :=
    fun u => standing_removeQuietly ⟨rfl, rfl⟩
  refine wp_mono (hm k hk w hw) (fun _ u hu => ⟨?_, ?_⟩) fun _ u hu => ?_
  · rw [← hu.processed]
    unfold World.processed
    rw [(hkeep u).result]
  · rw [(hkeep u).reports]
    exact hu.reports
  · rw [(hkeep u).reports]
    exact hu

/-- A loop counts what its rounds count. -/
theorem each {f : α → RestoreM Unit} {count : α → Nat} (hf : ∀ a, Adds ok total (count a) (f a))
    (xs : List α) : Adds ok total (xs.map count).sum (Program.each f xs) := by
  induction xs with
  | nil => exact pure ()
  | cons a as ih => exact (hf a).bind (fun _ => ih) (by simp)

theorem update {f : World → World} (hp : ∀ w, (f w).processed = w.processed + d)
    (hr : ∀ w, (f w).reports = w.reports) : Adds ok total d (.update f : RestoreM Unit) := by
  intro k _ w hw
  exact ⟨by rw [hp, hw.processed], by rw [hr]; exact hw.reports⟩

theorem skipEntry (relativePath : Bytes) (reason : String) :
    Adds ok total 1 (Restore.skipEntry relativePath reason) :=
  update (fun w => by simp [World.skip, World.processed, Nat.add_assoc]) fun _ => rfl

theorem reportProgress {h : Host} {phase : OperationPhase} {path : Path} :
    Adds ok total 0 (Restore.reportProgress h phase path total) := by
  have hreport : Adds ok total 0 (.update (·.report phase path total) : RestoreM Unit) := by
    intro k hk w hw
    refine ⟨hw.processed, fun event he => ?_⟩
    rcases List.mem_append.mp he with he | he
    · exact hw.reports event he
    · rw [List.mem_singleton.mp he]
      have := hk k le_rfl phase path w.result.restoredBytes
      rwa [← hw.processed] at this
  exact hreport.bind (fun _ => silent fun _ _ => maintains_callback Standing.steady) rfl

end Adds

/-- Whether an entry is counted by the phase of its type. -/
def due (type : EntryType) (planned : PlannedEntry) : Nat :=
  if planned.entry.type = type then 1 else 0

section Phases

variable {ok : ProgressEvent → Prop} {c : Context} {planned : PlannedEntry} {temporary : Path}

theorem adds_restoreDirectory :
    Adds ok c.totalEntries (due .directory planned) (restoreDirectory c planned) := by
  unfold due
  refine Adds.after (fun _ _ => maintains_checkCancelled Standing.steady _) fun _ => ?_
  by_cases ht : planned.entry.type = .directory
  · rw [if_pos ht, if_neg (not_not.mpr ht)]
    refine Adds.ite (fun _ => .skipEntry _ _) fun _ => ?_
    have hcount : Adds ok c.totalEntries 1 (.update World.countDirectory : RestoreM Unit) := by
      refine .update (fun w => ?_) fun _ => rfl
      simp only [World.processed, World.countDirectory]
      omega
    refine Adds.ite (fun _ => ?_) fun _ => hcount
    refine Adds.after (fun _ _ => maintains_requireSafeAncestors Standing.steady _ _) fun _ => ?_
    refine Adds.after (fun _ _ => standing_mutate) ?_
    intro r
    rcases r with e | _
    · exact Adds.bind (.raise _) (fun _ => hcount) (Nat.zero_add _).symm
    · exact hcount
  · rw [if_neg ht, if_pos ht]
    exact .pure ()

theorem adds_publishLink : Adds ok c.totalEntries 1 (publishLink c planned temporary) := by
  refine Adds.after (fun _ _ => maintains_requireSafeAncestors Standing.steady _ _) fun _ => ?_
  refine Adds.after (fun _ _ => standing_publishRestoredPath) ?_
  intro r
  cases r with
  | destinationExists => exact .skipEntry _ _
  | published =>
    refine Adds.after (fun _ _ => maintains_flush Standing.steady _ _) fun _ => ?_
    refine .update (fun w => ?_) fun _ => rfl
    simp only [World.processed, World.countLink]
    omega

theorem adds_restoreLink :
    Adds ok c.totalEntries (due .symbolicLink planned) (restoreLink c planned) := by
  unfold due restoreLink
  dsimp only
  by_cases ht : planned.entry.type = .symbolicLink
  · rw [if_pos ht, if_neg (not_not.mpr ht)]
    refine Adds.after (fun _ _ => maintains_checkCancelled Standing.steady _) fun _ => ?_
    refine Adds.ite (fun _ => .skipEntry _ _) fun _ => ?_
    split
    · exact .raise _
    · refine Adds.after (fun _ _ => maintains_requireSafeAncestors Standing.steady _ _) fun _ => ?_
      refine Adds.after (fun _ _ => standing_uniqueTemporaryPath _) fun _ => ?_
      refine Adds.removing (Adds.after (fun _ _ => standing_createRestoredSymlink) fun _ => ?_)
      exact Adds.ite (fun _ => adds_publishLink) fun _ => .skipEntry _ _
  · rw [if_neg ht, if_pos ht]
    exact .pure ()

/-- The publication counts its file once, when a warning counts nothing. -/
theorem adds_publishFile {warn : Warn} {metadataWarning : Option String}
    (hwarn : ∀ path reason, Adds ok c.totalEntries 0 (warn path reason)) :
    Adds ok c.totalEntries 1
      (Warned.publishFile warn c planned temporary metadataWarning) := by
  refine Adds.after (fun _ _ => maintains_requireSafeAncestors Standing.steady _ _) fun _ => ?_
  refine Adds.after (fun _ _ => standing_publishRestoredPath) ?_
  intro r
  cases r with
  | destinationExists => exact .skipEntry _ _
  | published =>
    refine Adds.after (fun _ _ => maintains_flush Standing.steady _ _) fun _ => ?_
    refine Adds.after (fun _ _ => Maintains.read _) fun _ => ?_
    refine Adds.after (fun _ _ => Maintains.ofExcept _) fun _ => ?_
    refine Adds.bind (.update (fun w => ?_) fun _ => rfl) (fun _ => ?_) (Nat.add_zero 1).symm
    · simp only [World.processed, World.countFile]
      omega
    · cases metadataWarning with
      | none => exact .reportProgress
      | some warning => exact (hwarn _ _).bind (fun _ => .reportProgress) rfl

theorem adds_produceFile {warn : Warn} {chunks : List ChunkReferenceInfo}
    (hwarn : ∀ path reason, Adds ok c.totalEntries 0 (warn path reason)) :
    Adds ok c.totalEntries 1 (Warned.produceFile warn c planned chunks temporary) := by
  refine Adds.after (fun _ _ => standing_writeChunks _ _ _) fun _ => ?_
  refine Adds.ite (fun _ => .raise _) fun _ => Adds.ite (fun _ => .raise _) fun _ => ?_
  refine Adds.after (fun _ _ => maintains_flush Standing.steady _ _) fun _ => ?_
  exact Adds.after (fun _ _ => standing_fileMetadata) fun _ => adds_publishFile hwarn

theorem adds_restoreFile {warn : Warn}
    (hwarn : ∀ path reason, Adds ok c.totalEntries 0 (warn path reason)) :
    Adds ok c.totalEntries (due .regularFile planned) (Warned.restoreFile warn c planned) := by
  unfold due Warned.restoreFile
  dsimp only
  by_cases ht : planned.entry.type = .regularFile
  · rw [if_pos ht, if_neg (not_not.mpr ht)]
    refine Adds.after (fun _ _ => maintains_checkCancelled Standing.steady _) fun _ => ?_
    refine Adds.ite (fun _ => .skipEntry _ _) fun _ => ?_
    refine Adds.after (fun _ _ => maintains_requireSafeAncestors Standing.steady _ _) fun _ => ?_
    exact Adds.after (fun _ _ => standing_openTemporaryOutputFile _) fun _ => .removing (adds_produceFile hwarn)
  · rw [if_neg ht, if_pos ht]
    exact .pure ()

theorem adds_restoreDirectoryMetadata {warn : Warn}
    (hwarn : ∀ path reason, Adds ok c.totalEntries 0 (warn path reason)) :
    Adds ok c.totalEntries 0 (Warned.restoreDirectoryMetadata warn c planned) := by
  refine Adds.ite (fun _ => .pure ()) fun _ => ?_
  refine Adds.after (fun _ _ => maintains_requireSafeAncestors Standing.steady _ _) fun _ => ?_
  refine Adds.after (fun _ _ => maintains_requireRealDirectory Standing.steady _) fun _ => ?_
  exact .rescue (fun _ _ => standing_applyMetadataBy) fun _ => hwarn _ _

end Phases

/-- From `w` a program that returns has counted `d` entries or more, and if no more, then it
never warned. -/
def Exact (d : Nat) {α : Type} (m : Warn → RestoreM α) (w : World) : Prop :=
  ∀ a u, m skipEntry w = (.ok a, u) →
    w.processed + d ≤ u.processed ∧
      (u.processed = w.processed + d → ∀ warn, m warn w = m skipEntry w)

namespace Exact

variable {d d' : Nat} {α β : Type} {w : World} {m : Warn → RestoreM α}

theorem counted {m : RestoreM α} {total : Nat} (hm : Adds (fun _ => True) total d m) :
    Exact d (fun _ => m) w := by
  intro a u h
  have hwp := hm w.processed (fun _ _ _ _ _ => trivial) w ⟨rfl, fun _ _ => trivial⟩
  rw [wp_run h] at hwp
  exact ⟨hwp.processed.ge, fun _ _ => rfl⟩

theorem bind {f : Warn → α → RestoreM β} {e : Nat} (hm : Exact d m w)
    (hf : ∀ a u, m skipEntry w = (.ok a, u) → Exact d' (fun warn => f warn a) u)
    (he : e = d + d') : Exact e (fun warn => m warn >>= f warn) w := by
  intro b v h
  obtain ⟨a, u, ha, hb⟩ := bind_returns.mp h
  obtain ⟨hfirst, hsame⟩ := hm a u ha
  obtain ⟨hlast, hsame'⟩ := hf a u ha b v hb
  refine ⟨by omega, fun hexact warn => ?_⟩
  have hstart := (hsame (by omega) warn).trans ha
  rw [h]
  exact bind_returns.mpr ⟨a, u, hstart, (hsame' (by omega) warn).trans hb⟩

/-- A part that cannot warn and counts nothing may stand in front. -/
theorem after {n : RestoreM α} {f : Warn → α → RestoreM β}
    (hn : ∀ result reports, Maintains (Standing result reports) n)
    (hf : ∀ a u, n w = (.ok a, u) → Exact d (fun warn => f warn a) u) :
    Exact d (fun warn => n >>= f warn) w :=
  (counted (.silent hn : Adds _ 0 0 n)).bind hf (Nat.zero_add d).symm

theorem ite {c : Prop} [Decidable c] {n : Warn → RestoreM α} (hm : c → Exact d m w)
    (hn : ¬ c → Exact d n w) : Exact d (fun warn => if c then m warn else n warn) w := by
  by_cases hc : c
  · simpa only [if_pos hc] using hm hc
  · simpa only [if_neg hc] using hn hc

theorem removing {h : Host} {p : Path} (hm : Exact d m w) :
    Exact d (fun warn => (m warn).ensure (removeQuietly h p)) w := by
  intro a u hu
  unfold ensure at hu
  rcases hr : m skipEntry w with ⟨r, v⟩
  simp only [hr] at hu
  cases hu
  obtain ⟨hle, hsame⟩ := hm a v hr
  have hkeep : (removeQuietly h p v).processed = v.processed := by
    have ht : Standing v.result v.reports (removeQuietly h p v) := standing_removeQuietly ⟨rfl, rfl⟩
    unfold World.processed
    rw [ht.result]
  rw [hkeep]
  refine ⟨hle, fun hexact warn => ?_⟩
  unfold ensure
  simp only [hsame hexact warn]

theorem rescue {n : RestoreM α} {handler : Warn → LocalVaultError → RestoreM α}
    (hn : ∀ result reports, Maintains (Standing result reports) n)
    (hh : ∀ e u, Exact 0 (fun warn => handler warn e) u) :
    Exact 0 (fun warn => n.rescue (handler warn)) w := by
  intro a u hu
  have ht := hn w.result w.reports w ⟨rfl, rfl⟩
  unfold Program.rescue at hu ⊢
  unfold wp at ht
  rcases hr : n w with ⟨r, v⟩
  simp only [hr] at hu ht ⊢
  have hkeep : v.processed = w.processed := by
    cases r <;> simp only [World.processed, ht.result]
  cases r with
  | ok b =>
    cases hu
    exact ⟨by omega, fun _ _ => rfl⟩
  | error e =>
    rw [← hkeep]
    exact hh e v a u hu

theorem each {f : Warn → α → RestoreM Unit} {count : α → Nat}
    (hf : ∀ a w, Exact (count a) (fun warn => f warn a) w) (xs : List α) (w : World) :
    Exact (xs.map count).sum (fun warn => Program.each (f warn) xs) w := by
  induction xs generalizing w with
  | nil => exact counted (.pure () : Adds _ 0 0 _)
  | cons a as ih => exact (hf a w).bind (fun _ u _ => ih u) (by simp)

/-- A warning is one entry too many. -/
theorem warning (path : Bytes) (reason : String) : Exact 0 (fun warn => warn path reason) w := by
  intro a u h
  cases h
  have hcount : (w.skip path reason).processed = w.processed + 1 := by
    simp [World.skip, World.processed, Nat.add_assoc]
  rw [hcount]
  exact ⟨by omega, fun h => by omega⟩

end Exact

section Phases

variable {c : Context} {planned : PlannedEntry} {temporary : Path} {w : World}

theorem exact_publishFile {metadataWarning : Option String} :
    Exact 1 (fun warn => Warned.publishFile warn c planned temporary metadataWarning) w := by
  refine Exact.after (fun _ _ => maintains_requireSafeAncestors Standing.steady _ _) fun _ _ _ => ?_
  refine Exact.after (fun _ _ => standing_publishRestoredPath) ?_
  intro r u _
  cases r with
  | destinationExists => exact .counted (.skipEntry _ _ : Adds _ c.totalEntries 1 _)
  | published =>
    refine Exact.after (fun _ _ => maintains_flush Standing.steady _ _) fun _ _ _ => ?_
    refine Exact.after (fun _ _ => Maintains.read _) fun _ _ _ => ?_
    refine Exact.after (fun _ _ => Maintains.ofExcept _) fun total _ _ => ?_
    have hcount : Adds (fun _ => True) c.totalEntries 1
        (.update (·.countFile total) : RestoreM Unit) := by
      refine .update (fun w => ?_) fun _ => rfl
      simp only [World.processed, World.countFile]
      omega
    have hreport : Adds (fun _ => True) c.totalEntries 0 (reportProgress c.host .restoring
        (components planned.entry.relativePath) c.totalEntries) :=
      .reportProgress
    refine Exact.bind (.counted hcount) (fun _ _ _ => ?_) (Nat.add_zero 1).symm
    cases metadataWarning with
    | none => exact .counted hreport
    | some warning =>
      exact Exact.bind (.warning _ _) (fun _ _ _ => .counted hreport) rfl

theorem exact_restoreFile :
    Exact (due .regularFile planned) (fun warn => Warned.restoreFile warn c planned) w := by
  unfold due Warned.restoreFile
  dsimp only
  by_cases ht : planned.entry.type = .regularFile
  · simp only [if_pos ht, if_neg (not_not.mpr ht)]
    refine Exact.after (fun _ _ => maintains_checkCancelled Standing.steady _) fun _ _ _ => ?_
    refine Exact.ite (fun _ => .counted (.skipEntry _ _ : Adds _ c.totalEntries 1 _)) fun _ => ?_
    refine Exact.after (fun _ _ => maintains_requireSafeAncestors Standing.steady _ _) fun _ _ _ => ?_
    refine Exact.after (fun _ _ => standing_openTemporaryOutputFile _) fun _ _ _ => .removing ?_
    refine Exact.after (fun _ _ => standing_writeChunks _ _ _) fun _ _ _ => ?_
    refine Exact.ite (fun _ => .counted (.raise _ : Adds _ c.totalEntries 1 _)) fun _ =>
      Exact.ite (fun _ => .counted (.raise _ : Adds _ c.totalEntries 1 _)) fun _ => ?_
    refine Exact.after (fun _ _ => maintains_flush Standing.steady _ _) fun _ _ _ => ?_
    exact Exact.after (fun _ _ => standing_fileMetadata) fun _ _ _ => exact_publishFile
  · simp only [if_neg ht, if_pos ht]
    exact .counted (.pure () : Adds _ c.totalEntries 0 _)

theorem exact_restoreDirectoryMetadata :
    Exact 0 (fun warn => Warned.restoreDirectoryMetadata warn c planned) w := by
  refine Exact.ite (fun _ => .counted (.pure () : Adds _ c.totalEntries 0 _)) fun _ => ?_
  refine Exact.after (fun _ _ => maintains_requireSafeAncestors Standing.steady _ _) fun _ _ _ => ?_
  refine Exact.after (fun _ _ => maintains_requireRealDirectory Standing.steady _) fun _ _ _ => ?_
  exact .rescue (fun _ _ => standing_applyMetadataBy) fun _ _ => .warning _ _

/-- Every planned entry is due in one phase. -/
theorem due_sum (plan : List PlannedEntry) :
    (plan.map (due .directory)).sum + (plan.map (due .regularFile)).sum +
      (plan.map (due .symbolicLink)).sum = plan.length := by
  induction plan with
  | nil => rfl
  | cons planned plan ih =>
    simp only [List.map_cons, List.sum_cons, List.length_cons, due]
    cases planned.entry.type <;> simp <;> omega

theorem adds_runPlan {ok : ProgressEvent → Prop} {warn : Warn} {plan : List PlannedEntry}
    (hwarn : ∀ path reason, Adds ok c.totalEntries 0 (warn path reason)) :
    Adds ok c.totalEntries plan.length (Warned.runPlan warn c plan) := by
  have hmetadata : Adds ok c.totalEntries 0
      (.each (Warned.restoreDirectoryMetadata warn c) (plan.insertionSort deepFirst)) := by
    simpa using Adds.each (fun _ => adds_restoreDirectoryMetadata hwarn)
      (plan.insertionSort deepFirst)
  rw [← due_sum plan, Nat.add_assoc]
  refine Adds.reportProgress.bind (fun _ => ?_) (Nat.zero_add _).symm
  refine (Adds.each (fun _ => adds_restoreDirectory) plan).bind (fun _ => ?_) rfl
  refine (Adds.each (fun _ => adds_restoreFile hwarn) plan).bind (fun _ => ?_) rfl
  refine (Adds.each (fun _ => adds_restoreLink) plan).bind (fun _ => ?_) (Nat.add_zero _).symm
  refine hmetadata.bind (fun _ => ?_) (Nat.zero_add 0).symm
  exact Adds.reportProgress.bind (fun _ => .silent fun _ _ => Maintains.read _) rfl

theorem exact_runPlan {plan : List PlannedEntry} :
    Exact plan.length (fun warn => Warned.runPlan warn c plan) w := by
  have hreport : ∀ phase, Adds (fun _ => True) c.totalEntries 0
      (reportProgress c.host phase c.root c.totalEntries) :=
    fun _ => .reportProgress
  have hmetadata : ∀ u, Exact 0 (fun warn => Program.each
      (Warned.restoreDirectoryMetadata warn c) (plan.insertionSort deepFirst)) u := by
    intro u
    simpa using Exact.each (fun _ _ => exact_restoreDirectoryMetadata)
      (plan.insertionSort deepFirst) u
  rw [← due_sum plan, Nat.add_assoc]
  refine Exact.bind (.counted (hreport _)) (fun _ _ _ => ?_) (Nat.zero_add _).symm
  refine Exact.bind (.counted (Adds.each (fun _ => adds_restoreDirectory) plan))
    (fun _ _ _ => ?_) rfl
  refine Exact.bind (.each (fun _ _ => exact_restoreFile) plan _) (fun _ _ _ => ?_) rfl
  refine Exact.bind (.counted (Adds.each (fun _ => adds_restoreLink) plan)) (fun _ _ _ => ?_)
    (Nat.add_zero _).symm
  refine Exact.bind (hmetadata _) (fun _ _ _ => ?_) (Nat.zero_add 0).symm
  refine Exact.bind (.counted (hreport _)) (fun _ _ _ => ?_) (Nat.zero_add 0).symm
  exact .counted (.silent fun _ _ => Maintains.read _ : Adds _ c.totalEntries 0 _)

/-- The last report of a run of the plan tells what has been counted. -/
theorem runPlan_final {plan : List PlannedEntry} {result : RestoreResult} {u : World}
    (h : runPlan c plan w = (.ok result, u)) :
    ∃ earlier bytes, u.reports =
      earlier ++ [⟨.complete, c.root, u.processed, bytes, c.totalEntries⟩] := by
  unfold runPlan at h
  obtain ⟨_, _, -, h⟩ := bind_returns.mp h
  obtain ⟨_, _, -, h⟩ := bind_returns.mp h
  obtain ⟨_, _, -, h⟩ := bind_returns.mp h
  obtain ⟨_, _, -, h⟩ := bind_returns.mp h
  obtain ⟨_, v, -, h⟩ := bind_returns.mp h
  obtain ⟨_, v', hreport, h⟩ := bind_returns.mp h
  cases h
  obtain ⟨_, v'', hupdate, hcall⟩ := bind_returns.mp hreport
  cases hupdate
  have ht := maintains_callback (h := c.host) Standing.steady _
    (⟨rfl, rfl⟩ : Standing v.result (v.report .complete c.root c.totalEntries).reports
      (v.report .complete c.root c.totalEntries))
  rw [wp_run hcall] at ht
  refine ⟨v.reports, v.result.restoredBytes, ?_⟩
  rw [ht.reports]
  simp only [World.report, World.processed, ht.result]

end Phases

section Run

variable {x : Externals} {h : Host} {repository : RepositoryView} {request : RestoreRequest}

theorem planFrom_length {root : Path} {entries : List EntryInfo} {skipped : List (List Name)}
    {w u : World} {plan : List PlannedEntry}
    (hp : planFrom h request root skipped entries w = (.ok plan, u)) :
    plan.length = entries.length := by
  induction entries generalizing skipped w u plan with
  | nil =>
    cases hp
    rfl
  | cons entry entries ih =>
    unfold planFrom at hp
    split at hp
    · obtain ⟨rest, _, hrest, hp⟩ := bind_returns.mp hp
      cases hp
      rw [List.length_cons, List.length_cons, ih hrest]
    · split at hp
      · obtain ⟨rest, _, hrest, hp⟩ := bind_returns.mp hp
        cases hp
        rw [List.length_cons, List.length_cons, ih hrest]
      · obtain ⟨_, _, -, hp⟩ := bind_returns.mp hp
        obtain ⟨_, _, -, hp⟩ := bind_returns.mp hp
        obtain ⟨_, _, -, hp⟩ := bind_returns.mp hp
        obtain ⟨rest, _, hrest, hp⟩ := bind_returns.mp hp
        cases hp
        rw [List.length_cons, List.length_cons, ih hrest]

/-- The plan has one entry for each selected one. -/
theorem buildPlan_length {root : Path} {selected : List EntryInfo} {w u : World}
    {plan : List PlannedEntry} (hp : buildPlan h request root selected w = (.ok plan, u)) :
    plan.length = selected.length := by
  rw [planFrom_length hp, List.length_insertionSort]

theorem loadSelection_selection {selected : List EntryInfo}
    {chunks : List (Int × List ChunkReferenceInfo)}
    (hl : loadSelection repository request = .ok (selected, chunks)) :
    selection repository request = selected := by
  unfold selection
  rw [hl]

/-- As long as nothing is warned about, every report of a restore is in order. -/
theorem adds_restore {ok : ProgressEvent → Prop} {warn : Warn} {w : World}
    (hok : ∀ j ≤ (selection repository request).length,
      Allowed ok (selection repository request).length j)
    (hwarn : ∀ path reason, Adds ok (selection repository request).length 0 (warn path reason))
    (hw : Counted ok 0 w) :
    (Warned.restore warn x h repository request).wp
      (fun _ u => Counted ok (selection repository request).length u)
      (fun _ u => ∀ event ∈ u.reports, ok event) w := by
  unfold Warned.restore
  simp only [wp_ite]
  split
  · exact hw.reports
  split
  · exact hw.reports
  refine hw.after (fun _ _ => maintains_checkCancelled Standing.steady _) fun _ _ _ hw => ?_
  refine hw.after (fun _ _ => standing_normalizedDestination) fun root _ _ hw => ?_
  refine hw.after (fun _ _ => maintains_callback Standing.steady) fun _ _ _ hw => ?_
  refine hw.after (fun _ _ => Maintains.ofExcept _) fun loaded _ hl hw => ?_
  have hselected := loadSelection_selection (ofExcept_returns.mp hl).1
  refine hw.after (fun _ _ => standing_createDirectories _) fun _ _ _ hw => ?_
  refine hw.after (fun _ _ => standing_planFrom _ _) fun plan _ hp hw => ?_
  have hlength := buildPlan_length hp
  rw [← hselected] at hlength
  rw [← hlength] at hok hwarn ⊢
  refine wp_mono (adds_runPlan hwarn 0 (fun j hj => hok j (hj.trans_eq (Nat.zero_add _))) _ hw)
    (fun _ _ hc => ?_) fun _ _ hc => hc
  rwa [Nat.zero_add] at hc

theorem exact_restore {w : World} :
    Exact (selection repository request).length
      (fun warn => Warned.restore warn x h repository request) w := by
  unfold Warned.restore
  refine Exact.ite (fun _ => .counted (.raise _ : Adds _ 0 _ _)) fun _ =>
    Exact.ite (fun _ => .counted (.raise _ : Adds _ 0 _ _)) fun _ => ?_
  refine Exact.after (fun _ _ => maintains_checkCancelled Standing.steady _) fun _ _ _ => ?_
  refine Exact.after (fun _ _ => standing_normalizedDestination) fun root _ _ => ?_
  refine Exact.after (fun _ _ => maintains_callback Standing.steady) fun _ _ _ => ?_
  refine Exact.after (fun _ _ => Maintains.ofExcept _) fun loaded _ hl => ?_
  rw [loadSelection_selection (ofExcept_returns.mp hl).1]
  refine Exact.after (fun _ _ => standing_createDirectories _) fun _ _ _ => ?_
  refine Exact.after (fun _ _ => standing_planFrom _ _) fun plan _ hp => ?_
  rw [← buildPlan_length hp]
  exact exact_runPlan

theorem restore_final {w u : World} {result : RestoreResult}
    (hr : restore x h repository request w = (.ok result, u)) :
    ∃ earlier root bytes, u.reports = earlier ++
      [⟨.complete, root, u.processed, bytes, (selection repository request).length⟩] := by
  unfold restore at hr
  split at hr
  · cases hr
  split at hr
  · cases hr
  obtain ⟨_, _, -, hr⟩ := bind_returns.mp hr
  obtain ⟨root, _, -, hr⟩ := bind_returns.mp hr
  obtain ⟨_, _, -, hr⟩ := bind_returns.mp hr
  obtain ⟨loaded, _, hl, hr⟩ := bind_returns.mp hr
  obtain ⟨_, _, -, hr⟩ := bind_returns.mp hr
  obtain ⟨plan, _, hp, hr⟩ := bind_returns.mp hr
  obtain ⟨earlier, bytes, he⟩ := runPlan_final hr
  rw [buildPlan_length hp] at he
  rw [loadSelection_selection (ofExcept_returns.mp hl).1]
  exact ⟨earlier, root, bytes, he⟩

/-- The reports of a restore of `planned` entries count each of them once. -/
structure CountsOnce (planned : Nat) (reports : List ProgressEvent) : Prop where
  bounded : ∀ event ∈ reports, event.processedEntries ≤ event.totalEntries
  final : ∃ event, reports.getLast? = some event ∧ event.phase = .complete ∧
    event.processedEntries = planned ∧ event.totalEntries = planned

end Run

/-- An empty file whose stored mode has bits that no mode has. -/
def badModeRows : List EntryRow :=
  [sampleEntry 1 [] .directory none none,
   { sampleEntry 2 (ascii "a") .regularFile emptyHash none with posixMode := 4294967295 }]

end LocalVault.Restore
