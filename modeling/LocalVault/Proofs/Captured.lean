import LocalVault.Proofs.Scanning

namespace LocalVault.Snapshot
open Library

/-- A property of everything that a scan has called back with. -/
def Scanning.All (P : FileJob → Prop) (s : Scanning) : Prop := ∀ job ∈ s.jobs, P job

section Captured

variable {P : FileJob → Prop} {x : ScanHost} {c : ScanContext}

theorem callBack_all {job : FileJob} (h : P job) :
    Program.Maintains (Scanning.All P) (callBack x job) := by
  intro s hs
  unfold Program.wp callBack
  cases x.callback s.jobs.length with
  | some e => exact hs
  | none =>
    intro job' hmem
    rcases List.mem_append.mp hmem with hmem | hmem
    · exact hs job' hmem
    · rw [List.mem_singleton.mp hmem]
      exact h

theorem checkCancelled_all (path : Path) :
    Program.Maintains (Scanning.All P) (checkCancelled x path) := by
  intro s hs
  unfold Program.wp checkCancelled
  cases x.stopped s.checks <;> exact hs

theorem warned_all {α : Type} (hw : ∀ w, P (.warning w)) (relativePath : Bytes)
    (code message : String) (a : α) : Program.Maintains (Scanning.All P) (do
      addWarning x relativePath code message
      pure a) :=
  (callBack_all (hw _)).bind fun _ => .pure a

theorem scanEntry_all (hw : ∀ w, P (.warning w)) (facts : ObjectFacts) (sourcePath : Path)
    (relativePath : Bytes) (status : FileType) (link : Bool) :
    Program.Maintains (Scanning.All P) (scanEntry x facts sourcePath relativePath status link) := by
  unfold scanEntry
  dsimp only
  split
  · exact warned_all hw _ _ _ _
  · split
    · exact warned_all hw _ _ _ _
    · refine .ite (fun _ => ?_) (fun _ => .pure _)
      split
      · exact warned_all hw _ _ _ _
      · exact .ite (fun _ => .pure _) (fun _ => warned_all hw _ _ _ _)

/-- What `scan_entry` returns is a judged entry. -/
theorem scanEntry_judged (hw : ∀ w, P (.warning w)) (facts : ObjectFacts) (sourcePath : Path)
    (relativePath : Bytes) (status : FileType) (link : Bool) {s : Scanning} (hs : s.All P) :
    (scanEntry x facts sourcePath relativePath status link).wp (fun r t => t.All P ∧
      ∀ e, r = some e → judgeEntry facts sourcePath relativePath status link = .ok e)
      (fun _ t => t.All P) s := by
  have hall := scanEntry_all (x := x) hw facts sourcePath relativePath status link s hs
  unfold Program.wp at hall ⊢
  generalize hr : scanEntry x facts sourcePath relativePath status link s = r at hall ⊢
  obtain ⟨result, t⟩ := r
  cases result with
  | error e => exact hall
  | ok captured =>
    refine ⟨hall, fun e he => ?_⟩
    obtain ⟨hcaptured, -⟩ := (emits_scanEntry sourcePath relativePath status link rfl).returned x s
      captured t hr
    rw [he] at hcaptured
    cases hjudged : judgeEntry facts sourcePath relativePath status link with
    | error w =>
      rw [hjudged] at hcaptured
      cases hcaptured
    | ok e' =>
      rw [hjudged] at hcaptured
      cases hcaptured
      rfl

/-- A property of the warnings and of the entries that `scan_entry` may return. -/
structure Judged (P : FileJob → Prop) : Prop where
  warning : ∀ w, P (.warning w)
  entry : ∀ facts sourcePath relativePath status link e,
    judgeEntry facts sourcePath relativePath status link = .ok e → P (.entry e)

theorem scanObject_all (hP : Judged P) (path : Path) (facts : ObjectFacts) :
    Program.Maintains (Scanning.All P) (scanObject x c path facts) := by
  unfold scanObject
  refine .bind (.update fun s hs => hs) fun _ => ?_
  cases pathToUtf8 path with
  | none => exact warned_all hP.warning _ _ _ _
  | some relative =>
    cases facts.status with
    | error text => exact warned_all hP.warning _ _ _ _
    | ok status =>
      cases facts.platform with
      | error e => exact warned_all hP.warning _ _ _ _
      | ok platform =>
        dsimp only
        refine .ite (fun _ => .pure _) fun _ => .ite (fun _ => warned_all hP.warning _ _ _ _)
          fun _ => .ite (fun _ => .pure _) fun _ => ?_
        intro s hs
        rw [Program.wp_bind]
        refine Program.wp_mono (scanEntry_judged hP.warning _ _ _ _ _ hs) ?_ (fun _ _ h => h)
        rintro (- | e) t ⟨ht, hjudged⟩
        · exact ht
        · exact ((callBack_all (hP.entry _ _ _ _ _ e (hjudged e rfl))).bind fun _ => .pure _) t ht

theorem scanDirectory_all (hP : Judged P) (directory : Path) (enumeration : Enumeration)
    {loop : ScanM Unit} (h : Program.Maintains (Scanning.All P) loop) :
    Program.Maintains (Scanning.All P) (scanDirectory x c directory enumeration loop) := by
  unfold scanDirectory
  refine (checkCancelled_all _).bind fun _ => ?_
  cases enumeration.refused with
  | none => exact h
  | some text => exact callBack_all (hP.warning _)

theorem scanEntries_all (hP : Judged P) (f : Forest Name ObjectFacts) (directory : Path)
    (interrupted : Option (Nat × String)) :
    Program.Maintains (Scanning.All P) (scanEntries x c directory interrupted f) := by
  induction f generalizing directory interrupted with
  | nil => exact .pure ()
  | cons name facts below rest ihb ihr =>
    unfold scanEntries
    refine (checkCancelled_all _).bind fun _ => (scanObject_all hP _ _).bind fun captured => ?_
    refine .bind (.ite (fun _ => scanDirectory_all hP _ _ (ihb _ _)) fun _ => .pure _) fun _ => ?_
    unfold incremented
    split
    · exact callBack_all (hP.warning _)
    · exact ihr _ _
    · exact ihr _ _

/-- Every entry that a scan calls back with is one that `scan_entry` has returned. -/
theorem scanStreaming_all (hP : Judged P) (source : Source) (options : FileScannerOptions) :
    Program.Maintains (Scanning.All P) (scanStreaming x source options) := by
  unfold scanStreaming
  refine .ite (fun _ => .raise _) fun _ => (checkCancelled_all _).bind fun _ => ?_
  cases source.currentDirectory with
  | error text => exact .raise _
  | ok directory =>
    dsimp only
    cases source.facts.status with
    | error text => exact .raise _
    | ok status =>
      refine .ite (fun _ => .raise _) fun _ => ?_
      cases source.facts.platform with
      | error e => exact .raise _
      | ok platform =>
        refine .ite (fun _ => .raise _) fun _ => ?_
        split
        · exact .raise _
        · intro s hs
          rw [Program.wp_bind]
          refine Program.wp_mono (scanEntry_judged hP.warning _ _ _ _ _ hs) ?_ (fun _ _ h => h)
          rintro (- | root) t ⟨ht, hjudged⟩
          · exact ht
          · exact ((callBack_all (hP.entry _ _ _ _ _ root (hjudged root rfl))).bind fun _ =>
              scanDirectory_all hP _ _ (scanEntries_all hP _ _ _)) t ht

/-- Only a file has a size. -/
def FileJob.Sized : FileJob → Prop
  | .entry e => e.type ≠ .regularFile → e.logicalSize = 0
  | .warning _ => True

theorem judged_sized : Judged FileJob.Sized where
  warning _ := trivial
  entry facts sourcePath relativePath status link e h := by
    intro ht
    unfold judgeEntry at h
    dsimp only at h
    split at h
    · cases h
    · split at h
      · cases h
      · split at h
        · split at h
          · cases h
          · split at h
            · cases h
              exact if_neg ht
            · cases h
        · cases h
          exact if_neg ht

theorem scanStreaming_sized (source : Source) (options : FileScannerOptions) :
    (scanStreaming x source options .start).2.All FileJob.Sized :=
  Program.wp_final (scanStreaming_all judged_sized source options .start fun _ h => by cases h)

end Captured

end LocalVault.Snapshot
