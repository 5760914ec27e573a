import LocalVault.Proofs.Discovering

namespace LocalVault.Snapshot
open Library Repository

variable {c : Config} {x : Externals} {w u : Observed} {s t : State} {turns : List Turn} {v : Vault}
  {e : Bool} {now : Int}

/-- The result that a worker is recording and has not given. -/
def Observed.holding (w : Observed) (i : Nat) : Option ProcessedEntry :=
  match (w.pipeline.workers i).pc with
  | .finished p => if w.workers i = .idle then none else some p
  | _ => none

/-- Every entry that was recorded has been given, or its worker is about to give it. -/
def Handed (c : Config) (w : Observed) : Prop :=
  ∀ p e, p.value = .entry e → w.recorded.count p =
    pooled c.workerCount (fun i => (w.pipeline.workers i).given.count p +
      (w.holding i).toList.count p)

theorem handed_start : Handed c (.start c v e now) := fun p _ _ => by
  have hpool : pooled c.workerCount (fun _ => 0) = 0 := pooled_eq_zero.mpr fun _ _ => rfl
  exact hpool.symm

theorem holding_none {i : Nat} (h : ∀ p, (w.pipeline.workers i).pc ≠ .finished p) :
    w.holding i = none := by
  unfold Observed.holding
  split
  · exact absurd ‹_› (h _)
  · rfl

theorem holding_idle {i : Nat} (h : w.workers i = .idle) : w.holding i = none := by
  unfold Observed.holding
  split
  · exact if_pos h
  · rfl

theorem holding_busy {i : Nat} {p : ProcessedEntry} (hp : (w.pipeline.workers i).pc = .finished p)
    (h : w.workers i ≠ .idle) : w.holding i = some p := by
  unfold Observed.holding
  rw [hp]
  exact if_neg h

theorem holding_same {i : Nat} (hp : (u.pipeline.workers i).pc = (w.pipeline.workers i).pc)
    (hw : u.workers i = .idle ↔ w.workers i = .idle) : u.holding i = w.holding i := by
  unfold Observed.holding
  rw [hp]
  simp only [hw]

theorem Handed.same (h : Handed c w) (hr : u.recorded = w.recorded)
    (hg : ∀ i, (u.pipeline.workers i).given = (w.pipeline.workers i).given)
    (hh : ∀ i, u.holding i = w.holding i) : Handed c u := fun p e hv => by
  have hold := h p e hv
  simp only [hr, hg, hh]
  exact hold

theorem Beside.handed (hb : Beside w u) (h : Handed c w) : Handed c u := by
  refine h.same hb.recorded hb.given fun i => ?_
  rcases hb.workerPc i with hp | ⟨hw, hs⟩
  · exact holding_same hp (by rw [hb.workers])
  · rw [holding_none (by rw [hs]; exact fun _ => nofun),
      holding_none (by rw [hw]; exact fun _ => nofun)]

/-- A worker that is not at a result does not hold one behind its next step either. -/
theorem WorkerMove.holds_none {i : Nat} (hm : WorkerMove c x w.pipeline i t) (hseat : Seated w)
    (hclean : (w.pipeline.workers i).pc.shuts = false)
    (hp : ∀ p, (w.pipeline.workers i).pc ≠ .finished p) (hu : u.pipeline = t)
    (hw : u.workers i = (w.workers i).leave) : u.holding i = none := by
  cases hg : (w.pipeline.workers i).pc.gone with
  | false =>
    refine holding_idle ?_
    rw [hw, hseat.idle_worker hp hclean hg]
    rfl
  | true =>
    have hstays := hm.stays_gone hg
    refine holding_none fun p hpc => ?_
    rw [hu] at hpc
    rw [hpc] at hstays
    cases hstays

theorem WorkerMove.given_same {i : Nat} (hm : WorkerMove c x s i t)
    (hp : ∀ p, (s.workers i).pc ≠ .finished p) :
    (t.workers i).given = (s.workers i).given := by
  cases hm with
  | finishes p hpc => exact absurd hpc (hp p)
  | shuts f stage hpc =>
    rw [State.moveWorker, setWorker_same, congrFun shut_untouched.workers i]
    rfl
  | pops job jobs hpc hq =>
    rw [setWorker_same]
    rfl
  | confirms r after hpc =>
    rw [setWorker_same]
    rfl
  | stores r raw compressed object known objects hpc hs =>
    rw [setWorker_same]
    rfl
  | _ =>
    rw [State.moveWorker, setWorker_same]
    rfl

/-- A worker that is at a result gives it, if it does not fail. -/
theorem WorkerMove.from_finished {i : Nat} {p : ProcessedEntry} (hm : WorkerMove c x s i t)
    (hp : (s.workers i).pc = .finished p) (hclean : (t.workers i).pc.shuts = false) :
    (t.workers i).pc = .pushing p ∧ (t.workers i).given = (s.workers i).given ++ [p] := by
  cases hm with
  | works pc hw =>
    rw [State.moveWorker, setWorker_same, goto_pc] at hclean
    rw [hp] at hw
    cases hw with
    | fails _ t callback spool f hpc hf => cases hpc
    | dies _ e hpc => cases hclean
  | finishes q hpc =>
    rw [hp] at hpc
    cases hpc
    rw [setWorker_same]
    exact ⟨rfl, rfl⟩
  | pops job jobs hpc hq => simp [hp] at hpc
  | confirms r after hpc => simp [hp] at hpc
  | ended hpc hq => simp [hp] at hpc
  | stores r raw compressed object known objects hpc hs => simp [hp] at hpc
  | leaves r raw compressed known e hpc hs => simp [hp] at hpc
  | pushes q processed hpc hq => simp [hp] at hpc
  | refused q hpc hq => simp [hp] at hpc
  | oversized q hpc hq => simp [hp] at hpc
  | rejects q large e hpc => simp [hp] at hpc
  | shuts f stage hpc => simp [hp] at hpc
  | counts hpc => simp [hp] at hpc
  | closes hpc => simp [hp] at hpc

/-- What a worker gives it has recorded, unless it is a warning. -/
theorem WorkerMove.hands {i : Nat} {p : ProcessedEntry} {entry : ScannedEntry}
    (hm : WorkerMove c x w.pipeline i t) (hseat : Seated w)
    (hw : (w.pipeline.workers i).pc.shuts = false) (ht : (t.workers i).pc.shuts = false)
    (recorded : ∀ p e, (w.pipeline.workers i).pc = .finished p → p.value = .entry e →
      (t.workers i).pc = .pushing p → w.workers i = .recorded) (hu : u.pipeline = t)
    (hr : u.workers i = (w.workers i).leave) (hv : p.value = .entry entry) :
    (t.workers i).given.count p + (u.holding i).toList.count p =
      (w.pipeline.workers i).given.count p + (w.holding i).toList.count p := by
  by_cases hplace : ∃ q, (w.pipeline.workers i).pc = .finished q
  · obtain ⟨q, hq⟩ := hplace
    obtain ⟨hpc, hgiven⟩ := hm.from_finished hq ht
    have hnone : u.holding i = none := by
      refine holding_none fun p' => ?_
      rw [hu, hpc]
      exact nofun
    rw [hnone, hgiven, List.count_append]
    by_cases he : q = p
    · subst he
      have hrecorded := recorded q entry hq hv hpc
      rw [holding_busy hq (by rw [hrecorded]; exact nofun)]
      rfl
    · have hzero : (w.holding i).toList.count p = 0 := by
        unfold Observed.holding
        rw [hq]
        dsimp only
        split
        · rfl
        · exact List.count_eq_zero.mpr (by simpa using Ne.symm he)
      have hother : [q].count p = 0 := List.count_eq_zero.mpr (by simpa using Ne.symm he)
      rw [hzero, hother]
      rfl
  · have hplace : ∀ q, (w.pipeline.workers i).pc ≠ .finished q := fun q hq => hplace ⟨q, hq⟩
    rw [hm.holds_none hseat hw hplace hu hr, hm.given_same hplace, holding_none hplace]

theorem Counts.handed (hc : Counts c x w u) (hseat : Seated w) (hw : Clean c w.pipeline)
    (hu : Clean c u.pipeline) (h : Handed c w) : Handed c u := by
  cases hc with
  | beside hb => exact hb.handed h
  | @scanner t hm settled recorded he =>
    subst he
    have hframe := hm.frame
    exact h.same rfl (fun i => by dsimp only; rw [hframe.workers])
      (fun i => holding_same (by dsimp only; rw [hframe.workers]) Iff.rfl)
  | @worker t i hi hm settled recorded he =>
    subst he
    intro p e hv
    have hold := h p e hv
    have hhands := hm.hands (u := { w with
      pipeline := t, workers := Function.update w.workers i (w.workers i).leave }) hseat
      (hw.workers i hi) (hu.workers i hi) recorded rfl (Function.update_self _ _ _) hv
    have hpool := pooled_same (n := c.workerCount) (i := i)
      (f := fun j => (w.pipeline.workers j).given.count p + (w.holding j).toList.count p)
      (g := fun j => (t.workers j).given.count p + (Observed.holding { w with
        pipeline := t, workers := Function.update w.workers i (w.workers i).leave }
          j).toList.count p) hi
      (fun j hj => by
        rw [hm.frame.others j hj, holding_same (w := w) (by dsimp only; rw [hm.frame.others j hj])
          (by dsimp only; rw [Function.update_of_ne hj])]) hhands
    exact hold.trans hpool.symm
  | finds e rest hp hr he =>
    subst he
    exact h.same rfl (fun _ => rfl) (fun _ => rfl)
  | discovers e rest r b hp hr he =>
    subst he
    exact h.same rfl (fun _ => rfl) (fun _ => rfl)
  | scannerOverflows e rest f hp hm hr ht he =>
    subst he
    have hshuts := hu.scanner
    rw [ht] at hshuts
    cases hshuts
  | begins i p e hi hp hv hr he =>
    have hpipeline : u.pipeline = w.pipeline := by rw [he]; rfl
    have hrecorded : u.recorded = w.recorded ++ [p] := by rw [he]
    have hworkers : u.workers = Function.update w.workers i
        (.adding (processing p e) none e.sourcePath) := by rw [he]; rfl
    intro q e' hq
    have hold := h q e' hq
    have hbefore := holding_idle hr
    have hafter : u.holding i = some p := by
      refine holding_busy (by rwa [hpipeline]) ?_
      rw [hworkers, Function.update_self]
      exact nofun
    have hother : ∀ j, j ≠ i → u.holding j = w.holding j := fun j hj =>
      holding_same (by rw [hpipeline]) (by rw [hworkers, Function.update_of_ne hj])
    have hpool := pooled_change (n := c.workerCount) (i := i)
      (f := fun j => (w.pipeline.workers j).given.count q + (w.holding j).toList.count q)
      (g := fun j => (w.pipeline.workers j).given.count q + (u.holding j).toList.count q) hi
      (fun j hj => by rw [hother j hj])
    simp only [hbefore, hafter, Option.toList_some, Option.toList_none, List.count_nil] at hpool
    rw [hrecorded, List.count_append, hpipeline]
    omega
  | processes i p e r b hi hp hv hr he =>
    subst he
    refine h.same rfl (fun _ => rfl) fun j => ?_
    by_cases hj : j = i
    · subst hj
      rw [holding_busy hp hr.busy.1]
      refine holding_busy hp ?_
      dsimp only [Observed.setRecorder]
      rw [Function.update_self]
      exact hr.busy.2
    · exact holding_same rfl (by
        dsimp only [Observed.setRecorder]
        rw [Function.update_of_ne hj])
  | workerOverflows i p e f hi hp hv hm hr ht he =>
    subst he
    have hshuts := hu.workers i hi
    rw [ht] at hshuts
    cases hshuts

end LocalVault.Snapshot
