import LocalVault.Proofs.Conservation

namespace LocalVault.Snapshot
open Library Repository

variable {c : Config} {x : Externals} {s t : State} {f : Failure} {stage : Stage}

/-- The result the writer is at. -/
def WriterPc.item : WriterPc → Option ProcessedEntry
  | .inserting p | .referring p _ _ => some p
  | _ => none

/-- Whatever has left a worker has a property. -/
structure Passed (P : ProcessedEntry → Prop) (s : State) : Prop where
  queued : ∀ p ∈ s.processed.values, P p
  item : ∀ p, s.writer.item = some p → P p
  handled : ∀ p ∈ s.handled, P p

theorem Passed.same {P : ProcessedEntry → Prop} (h : Passed P s)
    (hqueue : t.processed.items = s.processed.items) (hwriter : t.writer.item = s.writer.item)
    (hhandled : t.handled = s.handled) : Passed P t := by
  refine ⟨?_, ?_, ?_⟩
  · rw [Queue.values, hqueue]
    exact h.queued
  · rw [hwriter]
    exact h.item
  · rw [hhandled]
    exact h.handled

theorem WorkerMove.passed {P : ProcessedEntry → Prop} {i : Nat} (hm : WorkerMove c x s i t)
    (hp : ∀ p, (s.workers i).pc = .pushing p → P p) (h : Passed P s) : Passed P t := by
  cases hm with
  | pushes p processed hpc hq =>
    obtain ⟨_, _, _, rfl⟩ := Queue.push_accepted hq
    refine ⟨?_, h.item, h.handled⟩
    intro q hq
    change q ∈ (s.processed.items ++ [(p, processedEntrySize c p)]).map Prod.fst at hq
    rw [List.map_append, List.mem_append] at hq
    rcases hq with hq | hq
    · exact h.queued q hq
    · cases List.mem_singleton.mp hq
      exact hp p hpc
  | shuts f stage hpc =>
    exact h.same shut_untouched.processedItems (congrArg _ shut_untouched.writer)
      shut_untouched.handled
  | _ => exact h.same rfl rfl rfl

theorem WriterMove.passed {P : ProcessedEntry → Prop} (hm : WriterMove c s t) (h : Passed P s) :
    Passed P t := by
  have hquiet : ∀ {pc : WriterPc}, pc = .popping ∨ pc = .committing false → pc.item = none := by
    rintro pc (rfl | rfl) <;> rfl
  have hrecord : ∀ {p : ProcessedEntry} {u : State}, s.writer.item = some p →
      u.processed = s.processed → u.writer.item = none → u.handled = s.handled ++ [p] →
      Passed P u := by
    intro p u hp hqueue hwriter hhandled
    refine ⟨by rw [hqueue]; exact h.queued, (fun q hq => by rw [hwriter] at hq; cases hq), ?_⟩
    intro q hq
    rw [hhandled] at hq
    rcases List.mem_append.mp hq with hq | hq
    · exact h.handled q hq
    · cases List.mem_singleton.mp hq
      exact h.item p hp
  cases hm with
  | starts hp => exact h.same rfl (by rw [hp]; rfl) rfl
  | fails f totals hf hp => exact ⟨h.queued, (fun q hq => by cases hq), h.handled⟩
  | pops p processed hp hq =>
    obtain ⟨_, n, hitems, _⟩ := Queue.pop_item hq
    have hvalues : s.processed.values = p :: processed.values := by
      rw [Queue.values, hitems]
      rfl
    refine ⟨fun q hq => h.queued q (by rw [hvalues]; exact List.mem_cons_of_mem _ hq), ?_, h.handled⟩
    intro q hq
    cases hq
    exact h.queued p (by rw [hvalues]; exact List.mem_cons_self)
  | ended hp hq => exact h.same rfl (by rw [hp]; rfl) rfl
  | warns p w b b' pc hp hb hv hdb hr hpc => exact hrecord (by rw [hp]; rfl) rfl (hquiet hpc) rfl
  | inserts p e b b' id pc hp hb hv ht hdb hr hpc =>
    exact hrecord (by rw [hp]; rfl) rfl (hquiet hpc) rfl
  | begins p e b id db references hp hb hv ht hdb hrefs hmax => exact h.same rfl (by rw [hp]; rfl) rfl
  | refers p id ref rest b db totals now hp hb hdb ht => exact h.same rfl (by rw [hp]; rfl) rfl
  | hashes p id b b' pc hp hb hdb hr hpc => exact hrecord (by rw [hp]; rfl) rfl (hquiet hpc) rfl
  | skips last b hp hb hr => exact h.same rfl (by rw [hp]; cases last <;> rfl) rfl
  | commits last b hp hb hr hs => exact h.same rfl (by rw [hp]; cases last <;> rfl) rfl
  | breaks b e hb hr last hp => exact ⟨h.queued, (fun q hq => by cases hq), h.handled⟩
  | abandons hp hs => exact h.same rfl (by rw [hp]; rfl) rfl
  | concludes hp hs => exact h.same rfl (by rw [hp]; rfl) rfl
  | shuts f stage hp =>
    refine h.same shut_untouched.processedItems ?_ shut_untouched.handled
    rw [hp]
    rcases afterStage_cases WriterPc.shutting .done f stage with he | ⟨stage', he⟩ <;> rw [he] <;> rfl

theorem Creates.passed {P : ProcessedEntry → Prop} {n : Nat} (hc : Creates c s n t)
    (hu : Uncreated n s) (h : Passed P s) : Passed P t := by
  cases hc with
  | writer => exact h.same rfl (by rw [hu.writer (Nat.le_refl 1)]; rfl) rfl
  | _ => exact h.same rfl rfl rfl

theorem MainMove.passed {P : ProcessedEntry → Prop} (hm : MainMove c s t) (hy : Young s)
    (h : Passed P s) : Passed P t := by
  cases hm with
  | cancels f stage hp =>
    exact h.same shut_untouched.processedItems (congrArg _ shut_untouched.writer)
      shut_untouched.handled
  | shuts f stage hp =>
    exact h.same shut_untouched.processedItems (congrArg _ shut_untouched.writer)
      shut_untouched.handled
  | creates n hp =>
    exact (create_creates n).passed (hy n (by rw [hp]; rfl)) h
  | _ => exact h.same rfl rfl rfl

/-- What holds of everything a worker pushes holds of every record. -/
theorem run_passed {P : ProcessedEntry → Prop} {v : Vault} {e : Bool} {ls : List Label}
    (hpush : ∀ w, WorkerSound c x w → ∀ p, w.pc = .pushing p → P p)
    (h : run c x (State.start c v e) ls = some s) : Passed P s := by
  have hall := run_invariant
    (P := fun s => Young s ∧ (∀ i, WorkerSound c x (s.workers i)) ∧ Passed P s) ?_ ?_ h
  · exact hall.2.2
  · rintro s t ⟨hy, hw, hp⟩ hm
    refine ⟨hm.young hy, ?_, ?_⟩
    · intro i
      rcases hm.worker_cases hy i with he | hmove | ⟨hwait, he⟩
      · rw [he]
        exact hw i
      · exact hmove.sound (hw i)
      · rw [he]
        exact (hw i).pass trivial (fun _ => by rw [hwait]; rfl) rfl
    · cases hm with
      | scanner hm =>
        exact hp.same hm.frame.processedItems (by rw [hm.frame.writer]) hm.frame.handled
      | worker i hi hm => exact hm.passed (hpush _ (hw i)) hp
      | writer hm => exact hm.passed hp
      | main hm => exact hm.passed hy hp
      | other hm =>
        exact hp.same hm.frame.processedItems (by rw [hm.frame.writer]) hm.frame.handled
  · refine ⟨young_start, fun i => ?_, ⟨?_, ?_, ?_⟩⟩
    · refine ⟨trivial, fun p hp => absurd hp List.not_mem_nil, fun _ => rfl, ?_⟩
      rintro p (hp | hp) <;> cases hp
    · exact fun p hp => absurd hp List.not_mem_nil
    · intro p hp
      cases hp
    · exact fun p hp => absurd hp List.not_mem_nil

/-- Every record is a result that a worker may give. -/
theorem run_results {v : Vault} {e : Bool} {ls : List Label}
    (h : run c x (State.start c v e) ls = some s) : Passed (Result c x) s := by
  refine run_passed (fun w hw p hp => ?_) h
  have hpc := hw.pc
  rwa [hp] at hpc

end LocalVault.Snapshot
