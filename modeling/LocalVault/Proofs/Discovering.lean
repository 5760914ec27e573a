import LocalVault.Proofs.Crediting
import LocalVault.Snapshot.Scanner

namespace LocalVault.Snapshot
open Library Repository

variable {c : Config} {x : Externals} {w u : Observed} {s t : State} {a b : ProgressAggregator}
  {r r' : Recorder} {m m' : Emitter} {job : FileJob}

/-- The entries among the jobs. -/
def scannedIn (jobs : List FileJob) : List ScannedEntry := jobs.filterMap FileJob.scanned?

theorem scannedIn_append (jobs jobs' : List FileJob) :
    scannedIn (jobs ++ jobs') = scannedIn jobs ++ scannedIn jobs' := List.filterMap_append

/-- What has been found is what the scanner has emitted, up to its place. -/
structure Found (c : Config) (w : Observed) : Prop where
  unscanned : w.pipeline.scanner = .waiting ∨ w.pipeline.scanner = .starting → w.found = []
  emitting : ∀ rest, w.pipeline.scanner = .emitting rest → ∃ emitted, c.scan = emitted ++ rest ∧
    (w.scanner = .idle ∧ w.found = scannedIn emitted ∨
      w.scanner ≠ .idle ∧
        ∃ e rest', rest = .entry e :: rest' ∧ w.found = scannedIn emitted ++ [e])
  pushing : ∀ job rest, w.pipeline.scanner = .pushing job rest →
    ∃ emitted, c.scan = emitted ++ job :: rest ∧ w.found = scannedIn (emitted ++ [job])
  closing : w.pipeline.scanner = .closing → w.found = scannedIn c.scan
  complete : w.aggregator.scanComplete = true →
    (w.pipeline.scanner = .closing ∨ w.pipeline.scanner = .done) ∧ w.scanner = .idle ∧
      w.found = scannedIn c.scan

theorem found_start {v : Vault} {e : Bool} {now : Int} : Found c (.start c v e now) where
  unscanned _ := rfl
  emitting rest h := by cases h
  pushing job rest h := by cases h
  closing h := by cases h
  complete h := by cases h

theorem Seated.idle_pushing {rest : List FileJob} (h : Seated w)
    (hp : w.pipeline.scanner = .pushing job rest) : w.scanner = .idle := by
  by_contra hbusy
  have hseat := h.scanner hbusy
  simp [hp, ScannerPc.shuts] at hseat

theorem Seated.idle_closing (h : Seated w) (hp : w.pipeline.scanner = .closing) :
    w.scanner = .idle := by
  by_contra hbusy
  have hseat := h.scanner hbusy
  simp [hp, ScannerPc.shuts] at hseat

theorem Seated.idle_starting (h : Seated w) (hp : w.pipeline.scanner = .starting) :
    w.scanner = .idle := by
  by_contra hbusy
  have hseat := h.scanner hbusy
  simp [hp, ScannerPc.shuts] at hseat

theorem Found.same (h : Found c w) (hp : u.pipeline.scanner = w.pipeline.scanner)
    (hs : u.scanner = .idle ↔ w.scanner = .idle) (hf : u.found = w.found)
    (hc : u.aggregator.scanComplete = true → w.aggregator.scanComplete = true) : Found c u where
  unscanned := by
    rw [hp, hf]
    exact h.unscanned
  emitting rest hr := by
    obtain ⟨emitted, hscan, hfound⟩ := h.emitting rest (hp ▸ hr)
    rw [hf]
    exact ⟨emitted, hscan, hfound.imp (And.imp_left hs.mpr) (And.imp_left (fun hn hi => hn (hs.mp hi)))⟩
  pushing := by
    rw [hp, hf]
    exact h.pushing
  closing := by
    rw [hp, hf]
    exact h.closing
  complete hcomplete := by
    obtain ⟨hplace, hidle, hfound⟩ := h.complete (hc hcomplete)
    rw [hp, hf]
    exact ⟨hplace, hs.mpr hidle, hfound⟩

theorem Records.complete (h : Records a r r' b) : b.scanComplete = a.scanComplete := by
  cases h <;> rfl

theorem Beside.found_kept (hb : Beside w u) (hseat : Seated u) (h : Found c w) : Found c u := by
  rcases hb.scannerPc with hp | ⟨hw, hs⟩
  · rcases hb.complete with hc | ⟨hclosing, hc⟩
    · exact h.same hp (by rw [hb.scanner]) hb.found (fun ht => hc.symm.trans ht)
    · have hfound := h.closing (hp.symm.trans hclosing)
      refine ⟨fun hpc => ?_, fun rest hpc => ?_, fun job rest hpc => ?_,
        fun _ => hb.found.trans hfound, fun _ => ?_⟩
      · rw [hclosing] at hpc
        simp at hpc
      · rw [hclosing] at hpc
        cases hpc
      · rw [hclosing] at hpc
        cases hpc
      · exact ⟨.inl hclosing, hseat.idle_closing hclosing, hb.found.trans hfound⟩
  · have hfound := h.unscanned (.inl hw)
    refine ⟨fun _ => hb.found.trans hfound, fun rest hpc => ?_, fun job rest hpc => ?_,
      fun hpc => ?_, fun hcomplete => ?_⟩
    · rw [hs] at hpc
      cases hpc
    · rw [hs] at hpc
      cases hpc
    · rw [hs] at hpc
      cases hpc
    · rcases hb.complete with hc | ⟨hclosing, -⟩
      · have hplace := (h.complete (hc.symm.trans hcomplete)).1
        rw [hw] at hplace
        simp at hplace
      · rw [hs] at hclosing
        cases hclosing

/-- The scanner takes a step: it has found what it pushes. -/
theorem ScannerMove.found_kept (hm : ScannerMove c w.pipeline t) (hseat : Seated w)
    (h : Found c w) (recorded : ∀ e rest, w.pipeline.scanner = .emitting (.entry e :: rest) →
      t.scanner = .pushing (.entry e) rest → w.scanner = .recorded) :
    Found c { w with pipeline := t, scanner := w.scanner.leave } := by
  -- the scan is not complete where the scanner still has something to do
  have hincomplete : w.pipeline.scanner ≠ .closing →
      ¬ w.aggregator.scanComplete = true := by
    intro hn hcomplete
    have hover := hm.running.1
    rcases (h.complete hcomplete).1 with hp | hp
    · exact hn hp
    · rw [hp] at hover
      cases hover
  have hbare : w.pipeline.scanner ≠ .closing → (∀ rest, t.scanner ≠ .emitting rest) →
      (∀ job rest, t.scanner ≠ .pushing job rest) → t.scanner ≠ .closing →
      t.scanner ≠ .waiting → t.scanner ≠ .starting →
      Found c { w with pipeline := t, scanner := w.scanner.leave } :=
    fun hn hemitting hpushing hclosing hwaiting hstarting =>
      ⟨fun hp => absurd hp (not_or_intro hwaiting hstarting), fun rest hp => absurd hp (hemitting rest),
        fun job rest hp => absurd hp (hpushing job rest), fun hp => absurd hp hclosing,
        fun hcomplete => absurd hcomplete (hincomplete hn)⟩
  cases hm with
  | starts hp =>
    have hfound := h.unscanned (.inr hp)
    refine ⟨nofun, fun rest hr => ?_, nofun, nofun,
      fun hcomplete => absurd hcomplete (hincomplete (by rw [hp]; exact nofun))⟩
    cases hr
    refine ⟨[], rfl, .inl ⟨?_, hfound⟩⟩
    dsimp only
    rw [hseat.idle_starting hp]
    rfl
  | fails f hf hp =>
    refine hbare ?_ nofun nofun nofun nofun nofun
    rcases hp with hp | ⟨rest, hp⟩ <;> rw [hp] <;> exact nofun
  | emits job rest hp =>
    refine ⟨nofun, nofun, fun job' rest' hr => ?_, nofun,
      fun hcomplete => absurd hcomplete (hincomplete (by rw [hp]; exact nofun))⟩
    cases hr
    obtain ⟨emitted, hscan, hfound⟩ := h.emitting _ hp
    refine ⟨emitted, hscan, ?_⟩
    rw [scannedIn_append]
    cases job with
    | entry e =>
      have hrecorded := recorded e rest hp rfl
      rcases hfound with ⟨hidle, -⟩ | ⟨-, e', rest', he, hfound⟩
      · rw [hrecorded] at hidle
        cases hidle
      · cases he
        exact hfound
    | warning n =>
      rcases hfound with ⟨-, hfound⟩ | ⟨-, e', rest', he, -⟩
      · exact hfound.trans (List.append_nil _).symm
      · cases he
  | finishes hp he =>
    obtain ⟨emitted, hscan, hfound⟩ := h.emitting _ hp
    have hall : w.found = scannedIn c.scan := by
      rcases hfound with ⟨-, hfound⟩ | ⟨-, e', rest', hnil, -⟩
      · rw [hfound, hscan, List.append_nil]
      · cases hnil
    exact ⟨nofun, nofun, nofun, fun _ => hall,
      fun hcomplete => absurd hcomplete (hincomplete (by rw [hp]; exact nofun))⟩
  | pushes job rest jobs hp hq =>
    obtain ⟨emitted, hscan, hfound⟩ := h.pushing _ _ hp
    refine ⟨nofun, fun rest' hr => ?_, nofun, nofun,
      fun hcomplete => absurd hcomplete (hincomplete (by rw [hp]; exact nofun))⟩
    cases hr
    refine ⟨emitted ++ [job], ?_, .inl ⟨?_, hfound⟩⟩
    · rw [hscan, List.append_assoc]
      rfl
    · dsimp only
      rw [hseat.idle_pushing hp]
      rfl
  | refused job rest hp hq => exact hbare (by rw [hp]; exact nofun) nofun nofun nofun nofun nofun
  | rejects job e hp => exact hbare (by rw [hp]; exact nofun) nofun nofun nofun nofun nofun
  | closes hp =>
    refine ⟨nofun, nofun, nofun, nofun, fun hcomplete => ?_⟩
    obtain ⟨-, hidle, hfound⟩ := h.complete hcomplete
    refine ⟨.inr rfl, ?_, hfound⟩
    dsimp only
    rw [hidle]
    rfl
  | shuts f stage hp =>
    refine hbare (by rw [hp]; exact nofun) ?_ ?_ ?_ ?_ ?_ <;>
      rcases afterStage_cases ScannerPc.shutting .done f stage with he | ⟨next, he⟩ <;>
        dsimp only <;> rw [he] <;> exact nofun

theorem Counts.found_kept (hc : Counts c x w u) (hseat : Seated w) (h : Found c w) : Found c u := by
  cases hc with
  | beside hb => exact hb.found_kept (hb.seated hseat) h
  | scanner hm settled recorded he =>
    subst he
    exact hm.found_kept hseat h recorded
  | worker i hi hm settled recorded he =>
    subst he
    exact h.same hm.frame.scanner Iff.rfl rfl id
  | finds e rest hp hr he =>
    subst he
    refine ⟨fun hw => ?_, fun rest' hpc => ?_, fun job rest' hpc => ?_, fun hpc => ?_,
      fun hcomplete => ?_⟩
    · dsimp only at hw
      rw [hp] at hw
      simp at hw
    · dsimp only at hpc
      rw [hp] at hpc
      cases hpc
      obtain ⟨emitted, hscan, hfound⟩ := h.emitting _ hp
      refine ⟨emitted, hscan, .inr ⟨nofun, e, rest, rfl, ?_⟩⟩
      rcases hfound with ⟨-, hfound⟩ | ⟨hbusy, -⟩
      · exact congrArg (· ++ [e]) hfound
      · exact absurd hr hbusy
    · dsimp only at hpc
      rw [hp] at hpc
      cases hpc
    · dsimp only at hpc
      rw [hp] at hpc
      cases hpc
    · have hplace := (h.complete hcomplete).1
      rw [hp] at hplace
      simp at hplace
  | discovers e rest r b hp hr he =>
    subst he
    have hcomplete := hr.complete
    exact h.same rfl (iff_of_false hr.busy.2 hr.busy.1) rfl (fun ht => hcomplete.symm.trans ht)
  | scannerOverflows e rest f hp hm hr ht he =>
    subst he
    refine ⟨fun hpc => ?_, fun rest' hpc => ?_, fun job rest' hpc => ?_, fun hpc => ?_,
      fun hcomplete => ?_⟩
    · dsimp only at hpc
      rw [ht] at hpc
      simp at hpc
    · exact absurd (ht.symm.trans hpc) nofun
    · exact absurd (ht.symm.trans hpc) nofun
    · exact absurd (ht.symm.trans hpc) nofun
    · have hplace := (h.complete hcomplete).1
      rw [hp] at hplace
      simp at hplace
  | begins i p e hi hp hv hr he =>
    subst he
    exact h.same rfl Iff.rfl rfl id
  | processes i p e r b hi hp hv hr he =>
    subst he
    have hcomplete := hr.complete
    exact h.same rfl Iff.rfl rfl (fun ht => hcomplete.symm.trans ht)
  | workerOverflows i p e f hi hp hv hm hr ht he =>
    subst he
    exact h.same hm.frame.scanner Iff.rfl rfl id

theorem sum_map_one (entries : List ScannedEntry) (f : ScannedEntry → Nat) (h : ∀ e, f e = 1) :
    (entries.map f).sum = entries.length := by
  induction entries with
  | nil => rfl
  | cons e entries ih =>
    rw [List.map_cons, List.sum_cons, ih, h, List.length_cons]
    omega

theorem sum_map_zero {α : Type} (l : List α) (f : α → Nat) (h : ∀ a ∈ l, f a = 0) :
    (l.map f).sum = 0 := by
  refine List.sum_eq_zero fun n hn => ?_
  obtain ⟨a, ha, rfl⟩ := List.mem_map.mp hn
  exact h a ha

/-- When the scan is complete, the counters of the discoveries are those of all its entries. -/
theorem Balanced.discovered (h : Balanced c w) (hf : Found c w)
    (hcomplete : w.aggregator.scanComplete = true) {k : Counter} (hk : k.discovers = true) :
    w.aggregator.counters k = ((scannedIn c.scan).map (fun e => amount (discovery e) k)).sum := by
  obtain ⟨-, hidle, hfound⟩ := hf.complete hcomplete
  have hcredit := h.credit k
  have hpool : pooled c.workerCount (fun i => (w.workers i).pending k) = 0 :=
    pooled_eq_zero.mpr fun i _ => h.workers i k hk
  have hrecorded : (w.recorded.map (fun p => amount p.additions k)).sum = 0 :=
    sum_map_zero _ _ fun p _ => additions_amount hk p
  unfold Observed.credit at hcredit
  rw [hidle, hpool, hrecorded, hfound] at hcredit
  exact hcredit

/-- One if an entry of the worker is still to be recorded. -/
def Observed.held (w : Observed) (i : Nat) : Nat :=
  match (w.pipeline.workers i).pc.open with
  | some (.entry _) => if w.workers i = .idle then 1 else 0
  | _ => 0

/-- One if the scanner has counted the entry that it is about to push. -/
def Observed.handing (w : Observed) : Nat :=
  match w.pipeline.scanner with
  | .pushing (.entry _) _ => 1
  | .emitting (.entry _ :: _) =>
    if w.scanner = .idle ∨ 0 < w.scanner.pending .discoveredEntries then 0 else 1
  | _ => 0

def FileJob.isEntry : FileJob → Bool
  | .entry _ => true
  | .warning _ => false

/-- Every entry that is recorded, or will be, has been counted as discovered. -/
def Behind (c : Config) (w : Observed) : Prop :=
  w.recorded.length + pooled c.workerCount w.held + w.pipeline.jobs.values.countP FileJob.isEntry +
    w.handing ≤ w.aggregator.counters .discoveredEntries

theorem behind_start {v : Vault} {e : Bool} {now : Int} : Behind c (.start c v e now) := by
  have hpool : pooled c.workerCount (Observed.held (.start c v e now)) = 0 :=
    pooled_eq_zero.mpr fun _ _ => rfl
  change 0 + pooled c.workerCount _ + 0 + 0 ≤ 0
  omega

theorem held_le (w : Observed) (i : Nat) : w.held i ≤ 1 := by
  unfold Observed.held
  split
  · split <;> omega
  · omega

theorem held_none {i : Nat} (h : (w.pipeline.workers i).pc.open = none) : w.held i = 0 := by
  unfold Observed.held
  rw [h]

theorem held_busy {i : Nat} (h : w.workers i ≠ .idle) : w.held i = 0 := by
  unfold Observed.held
  split
  · exact if_neg h
  · rfl

theorem held_same {i : Nat}
    (hp : (u.pipeline.workers i).pc.open = (w.pipeline.workers i).pc.open)
    (hw : u.workers i = .idle ↔ w.workers i = .idle) : u.held i = w.held i := by
  unfold Observed.held
  rw [hp]
  simp only [hw]

theorem handing_same (hp : u.pipeline.scanner = w.pipeline.scanner) (hs : u.scanner = w.scanner) :
    u.handing = w.handing := by
  unfold Observed.handing
  rw [hp, hs]

theorem Beside.behind (hb : Beside w u) (h : Behind c w) : Behind c u := by
  have hheld : u.held = w.held := by
    funext i
    rcases hb.workerPc i with hp | ⟨hp, hp'⟩
    · exact held_same (by rw [hp]) (by rw [hb.workers])
    · rw [held_none (by rw [hp']; rfl), held_none (by rw [hp]; rfl)]
  have hhanding : u.handing = w.handing := by
    rcases hb.scannerPc with hp | ⟨hp, hp'⟩
    · exact handing_same hp hb.scanner
    · unfold Observed.handing
      rw [hp, hp']
  unfold Behind Queue.values
  rw [hb.recorded, hheld, hb.jobs, hhanding, hb.counters]
  exact h

/-- The scanner pushes what it has counted. -/
theorem ScannerMove.handing (hm : ScannerMove c w.pipeline t) (hseat : Seated w)
    (recorded : ∀ e rest, w.pipeline.scanner = .emitting (.entry e :: rest) →
      t.scanner = .pushing (.entry e) rest → w.scanner = .recorded) (hu : u.pipeline = t)
    (hs : u.scanner = w.scanner.leave) :
    t.jobs.values.countP FileJob.isEntry + u.handing ≤
      w.pipeline.jobs.values.countP FileJob.isEntry + w.handing := by
  have hbare : (∀ rest, t.scanner ≠ .emitting rest) → (∀ job rest, t.scanner ≠ .pushing job rest) →
      u.handing = 0 := by
    intro hemitting hpushing
    unfold Observed.handing
    rw [hu]
    split
    · exact absurd ‹_› (hpushing _ _)
    · exact absurd ‹_› (hemitting _)
    · rfl
  have hidle : ∀ {jobs}, t.scanner = .emitting jobs → u.scanner = .idle → u.handing = 0 := by
    intro jobs hp hi
    unfold Observed.handing
    rw [hu, hp]
    split
    · cases ‹ScannerPc.emitting _ = _›
    · exact if_pos (.inl hi)
    · rfl
  cases hm with
  | starts hp =>
    have hzero := hidle rfl (by rw [hs, hseat.idle_starting hp]; rfl)
    dsimp only
    omega
  | emits job rest hp =>
    dsimp only
    cases job with
    | entry e =>
      have hrecorded := recorded e rest hp rfl
      have hbefore : w.handing = 1 := by
        unfold Observed.handing
        rw [hp, hrecorded]
        rfl
      have hafter : u.handing = 1 := by
        unfold Observed.handing
        rw [hu]
      omega
    | warning n =>
      have hafter : u.handing = 0 := by
        unfold Observed.handing
        rw [hu]
      omega
  | pushes job rest jobs hp hq =>
    obtain ⟨_, _, _, rfl⟩ := Queue.push_accepted hq
    have hzero := hidle rfl (by rw [hs, hseat.idle_pushing hp]; rfl)
    have hvalues : (w.pipeline.jobs.items ++ [(job, 0)]).map Prod.fst =
        w.pipeline.jobs.values ++ [job] := by
      rw [List.map_append]
      rfl
    unfold Queue.values at hvalues ⊢
    dsimp only
    rw [hvalues, List.countP_append]
    cases job with
    | entry e =>
      have hbefore : w.handing = 1 := by
        unfold Observed.handing
        rw [hp]
      rw [hzero, hbefore]
      exact Nat.le_refl _
    | warning n =>
      rw [hzero]
      exact Nat.le_add_right _ _
  | closes hp =>
    have hzero := hbare nofun nofun
    change w.pipeline.jobs.values.countP FileJob.isEntry + u.handing ≤ _
    omega
  | shuts f stage hp =>
    have hitems : (w.pipeline.shut f stage).jobs.items = w.pipeline.jobs.items :=
      shut_untouched.jobItems
    have hzero : u.handing = 0 := by
      refine hbare ?_ ?_ <;>
        rcases afterStage_cases ScannerPc.shutting .done f stage with he | ⟨next, he⟩ <;>
          dsimp only <;> rw [he] <;> exact nofun
    unfold Queue.values
    dsimp only
    rw [hitems]
    omega
  | fails f hf hp =>
    have hzero := hbare nofun nofun
    dsimp only
    omega
  | finishes hp he =>
    have hzero := hbare nofun nofun
    dsimp only
    omega
  | refused job rest hp hq =>
    have hzero := hbare nofun nofun
    dsimp only
    omega
  | rejects job e hp =>
    have hzero := hbare nofun nofun
    dsimp only
    omega

theorem Seated.idle_worker {i : Nat} (h : Seated w)
    (hp : ∀ p, (w.pipeline.workers i).pc ≠ .finished p)
    (hs : (w.pipeline.workers i).pc.shuts = false) (hg : (w.pipeline.workers i).pc.gone = false) :
    w.workers i = .idle := by
  by_contra hbusy
  rcases h.workers i hbusy with ⟨p, e, hpc, -⟩ | ⟨f, hpc⟩ | ⟨-, hshuts | hgone⟩
  · exact hp p hpc
  · rw [hpc] at hs
    cases hs
  · rw [hs] at hshuts
    cases hshuts
  · rw [hg] at hgone
    cases hgone

/-- A worker holds an entry that it has taken, and gives it up when it records it. -/
theorem WorkerMove.held {i : Nat} (hm : WorkerMove c x w.pipeline i t) (hseat : Seated w)
    (hu : u.pipeline = t) (hw : u.workers i = (w.workers i).leave) :
    u.held i + t.jobs.values.countP FileJob.isEntry ≤
      w.held i + w.pipeline.jobs.values.countP FileJob.isEntry := by
  have hkeeps : t.jobs.items = w.pipeline.jobs.items → (t.workers i).pc.open = none →
      u.held i + t.jobs.values.countP FileJob.isEntry ≤
        w.held i + w.pipeline.jobs.values.countP FileJob.isEntry := by
    intro hjobs hopen
    rw [held_none (by rw [hu]; exact hopen)]
    unfold Queue.values
    rw [hjobs]
    omega
  -- a step within a read attempt, whose worker is in no call of the aggregator
  have hattempt : ∀ pc, (t.workers i).pc = pc → t.jobs.items = w.pipeline.jobs.items →
      (∀ p, (w.pipeline.workers i).pc ≠ .finished p) → (w.pipeline.workers i).pc.shuts = false →
      (w.pipeline.workers i).pc.gone = false →
      (pc.shuts = false → pc.open = (w.pipeline.workers i).pc.open) →
      u.held i + t.jobs.values.countP FileJob.isEntry ≤
        w.held i + w.pipeline.jobs.values.countP FileJob.isEntry := by
    intro pc hpc hjobs hp hs hg hopen
    have hidle := hseat.idle_worker hp hs hg
    cases hshuts : pc.shuts with
    | true =>
      refine hkeeps hjobs ?_
      rw [hpc]
      cases pc <;> first | rfl | cases hshuts
    | false =>
      have hsame : u.held i = w.held i := by
        refine held_same ?_ ?_
        · rw [hu, hpc]
          exact hopen hshuts
        · rw [hw, hidle]
          exact Iff.rfl
      unfold Queue.values
      rw [hsame, hjobs]
  cases hm with
  | works pc hworks =>
    by_cases hplain : ∃ p, (w.pipeline.workers i).pc = .finished p
    · obtain ⟨p, hpc⟩ := hplain
      refine hkeeps rfl ?_
      rw [hpc] at hworks
      rw [State.moveWorker, setWorker_same, goto_pc]
      cases hworks with
      | fails _ t callback spool f hpc hf => cases hpc
      | dies _ e hpc => rfl
    · refine hattempt pc ?_ rfl (fun p hpc => hplain ⟨p, hpc⟩) ?_ ?_ (fun hs => hworks.open hs)
      · rw [State.moveWorker, setWorker_same, goto_pc]
      · cases hpc : (w.pipeline.workers i).pc with
        | shutting f stage =>
          rw [hpc] at hworks
          cases hworks with
          | fails _ t callback spool f hpc hf => cases hpc
          | dies _ e hpc => cases hpc
        | _ => rfl
      · cases hg : (w.pipeline.workers i).pc.gone with
        | false => rfl
        | true =>
          generalize (w.pipeline.workers i).pc = old at hworks hg
          cases old <;> cases hg <;> cases hworks with
          | fails _ t callback spool f hpc hf => cases hpc
          | dies _ e hpc => cases hpc
  | pops job jobs hp hq =>
    obtain ⟨_, n, hitems, _⟩ := Queue.pop_item hq
    have hopen := (accept_open job).1
    have hle := held_le u i
    have hjobs : w.pipeline.jobs.values = job :: jobs.values := by
      unfold Queue.values
      rw [hitems]
      rfl
    have hnone : ∀ n, job = .warning n → u.held i = 0 := by
      intro n hjob
      unfold Observed.held
      rw [hu, setWorker_same, goto_pc, hopen, hjob]
    change u.held i + jobs.values.countP FileJob.isEntry ≤ _
    rw [hjobs, List.countP_cons]
    cases job with
    | entry e =>
      simp only [FileJob.isEntry, if_true]
      omega
    | warning n =>
      have hzero := hnone n rfl
      simp only [FileJob.isEntry]
      omega
  | confirms r after hp =>
    refine hattempt (confirmed c x r after) ?_ rfl (by simp [hp])
      (by rw [hp]; rfl) (by rw [hp]; rfl) (fun hs => ?_)
    · rw [setWorker_same, goto_pc]
    · rw [confirmed_open hs, hp]
      rfl
  | stores r raw compressed object known objects hp hs =>
    refine hattempt (appended c r raw object) ?_ rfl (by simp [hp])
      (by rw [hp]; rfl) (by rw [hp]; rfl) (fun hs => ?_)
    · rw [setWorker_same, goto_pc]
    · rw [appended_open hs, hp]
      rfl
  | leaves r raw compressed known e hp hs =>
    refine hattempt (caught c r.task true r.spool ⟨e, true⟩) ?_ rfl
      (by simp [hp]) (by rw [hp]; rfl) (by rw [hp]; rfl) (fun hs => ?_)
    · rw [State.moveWorker, setWorker_same, goto_pc]
    · rw [caught_open hs, hp]
      rfl
  | shuts f stage hp =>
    refine hkeeps shut_untouched.jobItems ?_
    rw [State.moveWorker, setWorker_same, goto_pc]
    rcases afterStage_cases WorkerPc.shutting .leaving f stage with he | ⟨next, he⟩ <;> rw [he] <;> rfl
  | counts hp =>
    refine hkeeps rfl ?_
    rw [State.moveWorker, setWorker_same, goto_pc]
    split <;> rfl
  | finishes p hp =>
    refine hkeeps rfl ?_
    rw [setWorker_same]
    rfl
  | _ =>
    refine hkeeps rfl ?_
    rw [State.moveWorker, setWorker_same]
    rfl

theorem Result.entry_origin {p : ProcessedEntry} {e : ScannedEntry} (h : Result c x p)
    (hv : p.value = .entry e) : ∃ e', p.origin = .entry e' := by
  cases h with
  | passed hj hp =>
    refine ⟨e, ?_⟩
    rw [← hv, hp]
    rfl
  | stored e' a refs ho ht ha hv' hsame hrefs hspool hsize hhash hcount htries hsource =>
    exact ⟨e', ho⟩
  | unread e' n ho ht hv' hpath hrefs ha htries hsource => exact ⟨e', ho⟩

theorem Counts.behind (hc : Counts c x w u) (hseat : Seated w) (hb : Balanced c w)
    (hresult : ∀ i p, (w.pipeline.workers i).pc = .finished p → Result c x p) (h : Behind c w) :
    Behind c u := by
  cases hc with
  | beside hb => exact hb.behind h
  | @scanner t hm settled recorded he =>
    subst he
    have hhanding := hm.handing (u := { w with pipeline := t, scanner := w.scanner.leave }) hseat
      recorded rfl rfl
    have hheld : Observed.held { w with pipeline := t, scanner := w.scanner.leave } = w.held :=
      funext fun i => held_same (by dsimp only; rw [hm.frame.workers]) Iff.rfl
    unfold Behind at h ⊢
    rw [hheld]
    dsimp only at hhanding ⊢
    omega
  | @worker t i hi hm settled recorded he =>
    subst he
    have hheld := hm.held (u := { w with
      pipeline := t, workers := Function.update w.workers i (w.workers i).leave }) hseat rfl
      (Function.update_self _ _ _)
    have hpool := pooled_change (n := c.workerCount) (i := i) (f := w.held)
      (g := Observed.held { w with
        pipeline := t, workers := Function.update w.workers i (w.workers i).leave }) hi
      (fun j hj => held_same (by dsimp only; rw [hm.frame.others j hj])
        (by dsimp only; rw [Function.update_of_ne hj]))
    have hhanding : Observed.handing { w with
        pipeline := t, workers := Function.update w.workers i (w.workers i).leave } = w.handing :=
      handing_same hm.frame.scanner rfl
    unfold Behind at h ⊢
    rw [hhanding]
    dsimp only at hheld hpool ⊢
    omega
  | finds e rest hp hr he =>
    subst he
    have hbefore : w.handing = 0 := by
      unfold Observed.handing
      rw [hp]
      exact if_pos (.inl hr)
    have hafter : Observed.handing { w with
        scanner := .adding (discovery e) none e.sourcePath, found := w.found ++ [e] } = 0 := by
      unfold Observed.handing
      rw [hp]
      exact if_pos (.inr Nat.one_pos)
    unfold Behind at h ⊢
    rw [hbefore] at h
    rw [hafter]
    exact h
  | discovers e rest r b hp hr he =>
    subst he
    have hmoved := hr.pending .discoveredEntries
    have hcounter := hr.counters .discoveredEntries
    have hbusy := hr.busy
    have hheld : Observed.held { w with scanner := r, aggregator := b } = w.held := rfl
    have hbefore : w.handing = if 0 < w.scanner.pending .discoveredEntries then 0 else 1 := by
      unfold Observed.handing
      rw [hp]
      simp [hbusy.1]
    have hafter : Observed.handing { w with scanner := r, aggregator := b } =
        if 0 < r.pending .discoveredEntries then 0 else 1 := by
      unfold Observed.handing
      rw [hp]
      simp [hbusy.2]
    unfold Behind at h ⊢
    rw [hbefore] at h
    rw [hafter, hheld]
    dsimp only
    split at h <;> split <;> omega
  | @scannerOverflows t e rest f hp hm hr ht he =>
    subst he
    have hheld : Observed.held { w with pipeline := t } = w.held :=
      funext fun i => held_same (by dsimp only; rw [hm.frame.workers]) Iff.rfl
    have hhanding : Observed.handing { w with pipeline := t } = 0 := by
      unfold Observed.handing
      rw [ht]
    have hjobs : t.jobs.values = w.pipeline.jobs.values := by
      generalize hold : w.pipeline = s at hm hp
      cases hm with
      | fails g hg hpc => rfl
      | emits job rest hpc => cases ht
      | finishes hpc hn => cases ht
      | starts hpc => cases ht
      | pushes job rest jobs hpc hq => cases ht
      | refused job rest hpc hq => cases ht
      | rejects job e hpc => rfl
      | closes hpc => cases ht
      | shuts g stage hpc =>
        rw [hp] at hpc
        cases hpc
    unfold Behind at h ⊢
    rw [hheld, hhanding]
    dsimp only
    rw [hjobs]
    omega
  | begins i p e hi hp hv hr he =>
    subst he
    obtain ⟨e', horigin⟩ := (hresult i p hp).entry_origin hv
    have hbefore : w.held i = 1 := by
      unfold Observed.held
      rw [hp]
      simp [WorkerPc.open, horigin, hr]
    have hafter : Observed.held { w.setRecorder i (.adding (processing p e) none e.sourcePath) with
        recorded := w.recorded ++ [p] } i = 0 := by
      refine held_busy ?_
      dsimp only [Observed.setRecorder]
      rw [Function.update_self]
      simp
    have hpool := pooled_change (n := c.workerCount) (i := i) (f := w.held)
      (g := Observed.held { w.setRecorder i (.adding (processing p e) none e.sourcePath) with
        recorded := w.recorded ++ [p] }) hi
      (fun j hj => held_same rfl (by
        dsimp only [Observed.setRecorder]
        rw [Function.update_of_ne hj]))
    have hhanding : Observed.handing { w.setRecorder i
        (.adding (processing p e) none e.sourcePath) with
          recorded := w.recorded ++ [p] } = w.handing := handing_same rfl rfl
    unfold Behind at h ⊢
    rw [hhanding, List.length_append, List.length_singleton]
    dsimp only [Observed.setRecorder] at hpool hafter ⊢
    omega
  | processes i p e r b hi hp hv hr he =>
    subst he
    have hcounter := hr.counters .discoveredEntries
    have hheld : Observed.held { w.setRecorder i r with aggregator := b } = w.held := by
      funext j
      by_cases hj : j = i
      · subst hj
        rw [held_busy hr.busy.1]
        refine held_busy ?_
        dsimp only [Observed.setRecorder]
        rw [Function.update_self]
        exact hr.busy.2
      · exact held_same rfl (by
          dsimp only [Observed.setRecorder]
          rw [Function.update_of_ne hj])
    have hhanding : Observed.handing { w.setRecorder i r with aggregator := b } = w.handing :=
      handing_same rfl rfl
    unfold Behind at h ⊢
    rw [hheld, hhanding]
    exact h.trans hcounter
  | @workerOverflows t i p e f hi hp hv hm hr ht he =>
    subst he
    have hpool := pooled_change (n := c.workerCount) (i := i) (f := w.held)
      (g := Observed.held { w with pipeline := t }) hi
      (fun j hj => held_same (by dsimp only; rw [hm.frame.others j hj]) Iff.rfl)
    have hafter : Observed.held { w with pipeline := t } i = 0 := by
      refine held_none ?_
      rw [ht]
      rfl
    have hhanding : Observed.handing { w with pipeline := t } = w.handing :=
      handing_same hm.frame.scanner rfl
    have hjobs : t.jobs.values = w.pipeline.jobs.values := by
      cases hm with
      | pops job jobs hpc hq =>
        rw [hp] at hpc
        cases hpc
      | shuts g stage hpc =>
        rw [hp] at hpc
        cases hpc
      | _ => rfl
    unfold Behind at h ⊢
    rw [hhanding]
    dsimp only at hpool hafter ⊢
    rw [hjobs]
    omega

/-- As many entries as are counted as processed have been counted as discovered before. -/
theorem Behind.counters (h : Behind c w) (hb : Balanced c w) :
    w.aggregator.counters .processedEntries ≤ w.aggregator.counters .discoveredEntries := by
  have hcredit := hb.credit .processedEntries
  have hfound : (w.found.map (fun e => amount (discovery e) .processedEntries)).sum = 0 :=
    sum_map_zero _ _ fun e _ => discovery_amount rfl e
  have hrecorded : (w.recorded.map (fun p => amount p.additions .processedEntries)).sum ≤
      w.recorded.length := by
    have hle := List.sum_le_card_nsmul
      (w.recorded.map (fun p => amount p.additions .processedEntries)) 1 fun n hn => by
        obtain ⟨p, -, rfl⟩ := List.mem_map.mp hn
        exact additions_one p
    simpa using hle
  unfold Observed.credit at hcredit
  unfold Behind at h
  omega

end LocalVault.Snapshot
