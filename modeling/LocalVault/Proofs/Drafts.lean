import LocalVault.Proofs.Callbacks
import LocalVault.Proofs.Discovering

namespace LocalVault.Snapshot
open Library Repository

variable {c : Config} {x : Externals} {w u : Observed} {s t : State} {a : ProgressAggregator}
  {d d' e : Draft} {m : Emitter} {turns : List Turn}

def Emitter.draft : Emitter → Option Draft
  | .building d => some d
  | _ => none

/-- The events that were delivered, and the one that is being put together. -/
def Observed.drafts (w : Observed) : List Draft :=
  w.delivered.map Delivery.draft ++ w.speaker.draft.toList

/-- What a step is to the events. -/
inductive Composes (w u : Observed) : Prop
  | same (h : u.drafts = w.drafts)
  | begins (n : Notice) (h : u.drafts = w.drafts ++ [⟨n, w.now, none, []⟩])
  | loads (before : List Draft) (d d' : Draft) (hw : w.drafts = before ++ [d])
      (hu : u.drafts = before ++ [d']) (hn : d.next w.aggregator = some d')

theorem Speaks.composes (h : Speaks c w u) : Composes w u := by
  cases h with
  | quiet silent speaker =>
    refine .same ?_
    unfold Observed.drafts
    rw [silent.delivered]
    rcases speaker with hs | ⟨hs, hu⟩
    · rw [hs]
    · rw [hs, hu]
      rfl
  | asks n may idle silent speaker stage =>
    refine .same ?_
    unfold Observed.drafts
    rw [silent.delivered, speaker, idle]
    rfl
  | lets n asked silent speaker =>
    refine .begins n ?_
    unfold Observed.drafts
    rw [silent.delivered, speaker, asked]
    simp [Emitter.draft]
  | suppresses n asked silent speaker =>
    refine .same ?_
    unfold Observed.drafts
    rw [silent.delivered, speaker, asked]
    rfl
  | drafts d d' building next silent speaker =>
    refine .loads (w.delivered.map Delivery.draft) d d' ?_ ?_ next
    · unfold Observed.drafts
      rw [building]
      rfl
    · unfold Observed.drafts
      rw [silent.delivered, speaker]
      rfl
  | delivers d building done silent speaker =>
    have hnone : u.speaker.draft = none := by
      rcases speaker with hs | hs <;> rw [hs] <;> rfl
    refine .same ?_
    unfold Observed.drafts
    rw [silent.delivered, hnone, building]
    simp [Emitter.draft]

/-- An access for an event: the scan flag first, then one counter after the other. -/
theorem next_cases (h : d.next a = some d') :
    d.complete = none ∧ d' = { d with complete := some a.scanComplete } ∨
      ∃ done field rest, d.complete = some done ∧
        (loads done).drop d.loaded.length = field :: rest ∧
        d' = { d with loaded := d.loaded ++ [(field, a.counters field.counter)] } := by
  unfold Draft.next at h
  split at h
  · rename_i hnone
    cases h
    exact .inl ⟨hnone, rfl⟩
  · rename_i done hdone
    split at h
    · cases h
    · rename_i field rest hdrop
      cases h
      exact .inr ⟨done, field, rest, hdone, hdrop, rfl⟩

/-- An event that was put together before another. -/
structure Draft.Earlier (d e : Draft) : Prop where
  values : ∀ a ∈ d.loaded, ∀ b ∈ e.loaded, a.1.counter = b.1.counter → a.2 ≤ b.2
  behind : ∀ a ∈ d.loaded, ∀ b ∈ e.loaded, a.1.counter = .processedEntries →
    b.1.counter = .discoveredEntries → a.2 ≤ b.2
  complete : d.complete = some true → e.complete ≠ some false

/-- What an event has loaded, against the aggregator. -/
structure Draft.Seen (w : Observed) (d : Draft) : Prop where
  unflagged : d.complete = none → d.loaded = []
  order : ∀ done, d.complete = some done → d.loaded.map Prod.fst <+: loads done
  below : ∀ a ∈ d.loaded, a.2 ≤ w.aggregator.counters a.1.counter
  scanned : d.complete = some true → w.aggregator.scanComplete = true
  exact : d.complete = some true → ∀ a ∈ d.loaded, a.1.counter.discovers = true →
    a.2 = w.aggregator.counters a.1.counter
  final : d.notice.phase = .complete → ∀ a ∈ d.loaded, a.2 = w.aggregator.counters a.1.counter

structure Viewed (w : Observed) : Prop where
  seen : ∀ d ∈ w.drafts, d.Seen w
  ordered : w.drafts.Pairwise Draft.Earlier
  through : ∀ e ∈ w.delivered, ∃ done, e.draft.complete = some done ∧
    e.draft.loaded.map Prod.fst = loads done

theorem viewed_start {v : Vault} {e : Bool} {now : Int} : Viewed (.start c v e now) where
  seen d h := by cases h
  ordered := List.Pairwise.nil
  through e h := by cases h

/-- The counters of the discoveries do not change behind the scan. -/
theorem Counts.frozen (hc : Counts c x w u) (hb : Balanced c w) (hf : Found c w)
    (hcomplete : w.aggregator.scanComplete = true) {k : Counter} (hk : k.discovers = true) :
    u.aggregator.counters k = w.aggregator.counters k := by
  cases hc with
  | beside hb => rw [hb.counters]
  | discovers e rest r b hp hr he =>
    have hplace := (hf.complete hcomplete).1
    rw [hp] at hplace
    simp at hplace
  | processes i p e r b hi hp hv hr he =>
    subst he
    have hmoved := hr.pending k
    have hle := hr.counters k
    have hnone := hb.workers i k hk
    dsimp only
    omega
  | _ =>
    subst_vars
    rfl

/-- No counter changes behind the publication. -/
theorem Counts.settled (hc : Counts c x w u) (ho : Orderly c w.pipeline)
    (hp : w.pipeline.main = .published) : u.aggregator.counters = w.aggregator.counters := by
  have hended := ho.ended (by rw [hp]; rfl)
  cases hc with
  | beside hb => exact hb.counters
  | discovers e rest r b hpc hr he =>
    rw [hended.scanner] at hpc
    cases hpc
  | processes i p e r b hi hpc hv hr he =>
    rw [hended.workers i hi] at hpc
    cases hpc
  | _ =>
    subst_vars
    rfl

theorem Counts.complete (hc : Counts c x w u) (h : w.aggregator.scanComplete = true) :
    u.aggregator.scanComplete = true := by
  cases hc with
  | beside hb => exact hb.complete.elim (fun he => he.trans h) And.right
  | discovers e rest r b hp hr he =>
    subst he
    exact hr.complete.trans h
  | processes i p e r b hi hp hv hr he =>
    subst he
    exact hr.complete.trans h
  | _ =>
    subst_vars
    exact h

theorem Draft.Seen.kept (hd : d.Seen w) (hc : Counts c x w u)
    (hle : ∀ k, w.aggregator.counters k ≤ u.aggregator.counters k) (hb : Balanced c w)
    (hf : Found c w) (ho : Orderly c w.pipeline)
    (hp : d.notice.phase = .complete → w.pipeline.main = .published) : d.Seen u where
  unflagged := hd.unflagged
  order := hd.order
  below a ha := (hd.below a ha).trans (hle _)
  scanned h := hc.complete (hd.scanned h)
  exact h a ha hk := (hd.exact h a ha hk).trans (hc.frozen hb hf (hd.scanned h) hk).symm
  final h a ha := (hd.final h a ha).trans (congrFun (hc.settled ho (hp h)) _).symm

theorem Draft.Seen.next (hd : d.Seen w) (hn : d.next w.aggregator = some d') : d'.Seen w := by
  rcases next_cases hn with ⟨hnone, rfl⟩ | ⟨done, field, rest, hdone, hdrop, rfl⟩
  · have hempty := hd.unflagged hnone
    refine ⟨nofun, fun done _ => ?_, hd.below, fun h => Option.some.inj h, fun _ a ha => ?_,
      fun _ a ha => ?_⟩
    · dsimp only
      rw [hempty]
      exact List.nil_prefix
    · rw [hempty] at ha
      cases ha
    · rw [hempty] at ha
      cases ha
  · have hmem : ∀ {P : Field × Nat → Prop}, (∀ a ∈ d.loaded, P a) →
        P (field, w.aggregator.counters field.counter) →
        ∀ a ∈ d.loaded ++ [(field, w.aggregator.counters field.counter)], P a := by
      intro P hold hnew a ha
      rcases List.mem_append.mp ha with ha | ha
      · exact hold a ha
      · rw [List.mem_singleton.mp ha]
        exact hnew
    refine ⟨fun h => ?_, fun done' h => ?_, hmem hd.below (Nat.le_refl _), hd.scanned, fun h => ?_,
      fun h => hmem (hd.final h) rfl⟩
    · exact absurd (hdone.symm.trans h) nofun
    · cases hdone.symm.trans h
      obtain ⟨later, hlater⟩ := hd.order done hdone
      have hlength := congrArg (List.drop d.loaded.length) hlater
      rw [hdrop, List.drop_append_of_le_length (by rw [List.length_map]), ← List.length_map (f := Prod.fst),
        List.drop_length, List.nil_append] at hlength
      refine ⟨rest, ?_⟩
      rw [List.map_append, List.append_assoc]
      rw [hlength] at hlater
      exact hlater
    · exact hmem (hd.exact h) fun _ => rfl

/-- What is loaded for an event is behind what the events before it hold. -/
theorem Draft.Earlier.next (he : e.Earlier d) (hs : e.Seen w) (hn : d.next w.aggregator = some d')
    (hbehind : w.aggregator.counters .processedEntries ≤
      w.aggregator.counters .discoveredEntries) : e.Earlier d' := by
  rcases next_cases hn with ⟨hnone, rfl⟩ | ⟨done, field, rest, hdone, hdrop, rfl⟩
  · refine ⟨he.values, he.behind, fun h => ?_⟩
    dsimp only
    rw [hs.scanned h]
    exact nofun
  · refine ⟨fun a ha b hb hk => ?_, fun a ha b hb hp hd => ?_, he.complete⟩
    · rcases List.mem_append.mp hb with hb | hb
      · exact he.values a ha b hb hk
      · rw [List.mem_singleton.mp hb] at hk ⊢
        have hle := hs.below a ha
        rw [hk] at hle
        exact hle
    · rcases List.mem_append.mp hb with hb | hb
      · exact he.behind a ha b hb hp hd
      · rw [List.mem_singleton.mp hb] at hd ⊢
        have hle := hs.below a ha
        rw [hp] at hle
        exact (hle.trans hbehind).trans_eq (congrArg _ hd.symm)

theorem Sequenced.published (h : Sequenced w) (hd : d ∈ w.drafts) (hp : d.notice.phase = .complete) :
    w.pipeline.main = .published := by
  rcases List.mem_append.mp hd with hd | hd
  · obtain ⟨e, he, rfl⟩ := List.mem_map.mp hd
    exact (h.delivered e he).complete hp
  · cases hs : w.speaker with
    | building d' =>
      rw [hs] at hd
      cases List.mem_singleton.mp hd
      exact (h.flight d.notice (by rw [hs]; rfl)).1.complete hp
    | _ =>
      rw [hs] at hd
      cases hd

theorem next_none (hs : d.Seen w) (hn : d.next a = none) :
    ∃ done, d.complete = some done ∧ d.loaded.map Prod.fst = loads done := by
  unfold Draft.next at hn
  split at hn
  · cases hn
  · rename_i done hdone
    split at hn
    · rename_i hdrop
      obtain ⟨later, hlater⟩ := hs.order done hdone
      refine ⟨done, hdone, ?_⟩
      have hlength := List.drop_eq_nil_iff.mp hdrop
      rw [← hlater, List.length_append, List.length_map] at hlength
      rw [← hlater, List.length_eq_zero_iff.mp (show later.length = 0 by omega), List.append_nil]
    · cases hn

theorem Speaks.delivered (h : Speaks c w u) : u.delivered = w.delivered ∨
    ∃ d ∈ w.drafts, d.next w.aggregator = none ∧ u.delivered = w.delivered ++ [⟨d, w.now⟩] := by
  cases h with
  | quiet silent => exact .inl silent.delivered
  | asks n may idle silent => exact .inl silent.delivered
  | lets n asked silent => exact .inl silent.delivered
  | suppresses n asked silent => exact .inl silent.delivered
  | drafts d d' building next silent => exact .inl silent.delivered
  | delivers d building done silent =>
    refine .inr ⟨d, ?_, done, silent.delivered⟩
    refine List.mem_append_right _ ?_
    rw [building]
    exact List.mem_singleton.mpr rfl

theorem Happens.viewed (hm : Happens c x w u) (hp : Placed c w) (hs : Sequenced w)
    (hb : Balanced c w) (hf : Found c w) (hbehind : w.aggregator.counters .processedEntries ≤
      w.aggregator.counters .discoveredEntries) (h : Viewed w) : Viewed u := by
  have hcounts := hm.counts hp
  have hspeaks := hm.speaks hp
  have hkept : ∀ d ∈ w.drafts, d.Seen u := fun d hd =>
    (h.seen d hd).kept hcounts hm.counters hb hf hp.orderly (hs.published hd)
  refine ⟨?_, ?_, ?_⟩
  · cases hspeaks.composes with
    | same he => exact he ▸ hkept
    | begins n he =>
      rw [he]
      intro d hd
      rcases List.mem_append.mp hd with hd | hd
      · exact hkept d hd
      · rw [List.mem_singleton.mp hd]
        exact ⟨fun _ => rfl, nofun, nofun, nofun, nofun, fun _ => nofun⟩
    | loads before d d' hw hu hn =>
      rw [hu]
      intro e he
      have hmem : d ∈ w.drafts := by
        rw [hw]
        exact List.mem_append_right _ (List.mem_singleton.mpr rfl)
      rcases List.mem_append.mp he with he | he
      · exact hkept e (hw ▸ List.mem_append_left _ he)
      · rw [List.mem_singleton.mp he]
        refine ((h.seen d hmem).next hn).kept hcounts hm.counters hb hf hp.orderly fun hphase => ?_
        exact hs.published hmem ((next_kept hn).1 ▸ hphase)
  · cases hspeaks.composes with
    | same he => exact he ▸ h.ordered
    | begins n he =>
      rw [he]
      refine List.pairwise_append.mpr ⟨h.ordered, List.pairwise_singleton _ _, fun d hd e he => ?_⟩
      rw [List.mem_singleton.mp he]
      exact ⟨fun _ _ => nofun, fun _ _ => nofun, fun _ => nofun⟩
    | loads before d d' hw hu hn =>
      rw [hu]
      have hold := h.ordered
      rw [hw] at hold
      obtain ⟨hbefore, -, hlast⟩ := List.pairwise_append.mp hold
      refine List.pairwise_append.mpr ⟨hbefore, List.pairwise_singleton _ _, fun e he e' he' => ?_⟩
      rw [List.mem_singleton.mp he']
      have hseen := h.seen e (hw ▸ List.mem_append_left _ he)
      exact (hlast e he d (List.mem_singleton.mpr rfl)).next hseen hn hbehind
  · rcases hspeaks.delivered with he | ⟨d, hd, hn, he⟩
    · exact he ▸ h.through
    · rw [he]
      intro e hmem
      rcases List.mem_append.mp hmem with hmem | hmem
      · exact h.through e hmem
      · rw [List.mem_singleton.mp hmem]
        exact next_none (h.seen d hd) hn

/-- What the counters and the events of a call have to do with its entries. -/
structure Accounts (c : Config) (w : Observed) : Prop where
  seated : Seated w
  balanced : Balanced c w
  found : Found c w
  behind : Behind c w
  viewed : Viewed w

theorem run_accounts {v : Vault} {e : Bool} {now : Int}
    (h : (Observed.start c v e now).run c x turns = some w) : Accounts c w := by
  refine observes_invariant (P := Accounts c) (fun w u ho ha hm => ?_)
    ⟨seated_start, balanced_start, found_start, behind_start, viewed_start⟩ h
  have hcounts := hm.counts ho.placed
  obtain ⟨ls, hrun⟩ := ho.reached
  have hresult : ∀ i p, (w.pipeline.workers i).pc = .finished p → Result c x p := by
    intro i p hp
    have hpc := (run_worker_sound hrun i).pc
    rwa [hp] at hpc
  exact ⟨hcounts.seated ha.seated, hcounts.balanced ha.balanced,
    hcounts.found_kept ha.seated ha.found, hcounts.behind ha.seated ha.balanced hresult ha.behind,
    hm.viewed ho.placed ho.sequenced ha.balanced ha.found (ha.behind.counters ha.balanced) ha.viewed⟩

theorem lookup_mem {field : Field} {value : Nat} {loaded : List (Field × Nat)}
    (h : loaded.lookup field = some value) : (field, value) ∈ loaded := by
  induction loaded with
  | nil => cases h
  | cons entry loaded ih =>
    rw [List.lookup_cons] at h
    split at h
    · rename_i hfield
      cases h
      rw [beq_iff_eq.mp hfield]
      exact List.mem_cons_self
    · exact List.mem_cons_of_mem _ (ih h)

theorem lookup_some {field : Field} {loaded : List (Field × Nat)}
    (h : field ∈ loaded.map Prod.fst) : ∃ value, loaded.lookup field = some value := by
  induction loaded with
  | nil => cases h
  | cons entry loaded ih =>
    rw [List.lookup_cons]
    split
    · exact ⟨_, rfl⟩
    · rename_i hother
      rcases List.mem_cons.mp h with he | hmem
      · rw [he, beq_self_eq_true] at hother
        cases hother
      · exact ih hmem

/-- The fields that every event has. -/
theorem Viewed.value (h : Viewed w) {d : Delivery} (hd : d ∈ w.delivered) {field : Field}
    (hfield : field ∈ loads false) : (field, d.draft.value field) ∈ d.draft.loaded := by
  obtain ⟨done, -, hloaded⟩ := h.through d hd
  have hmem : field ∈ d.draft.loaded.map Prod.fst := by
    rw [hloaded]
    cases done with
    | false => exact hfield
    | true =>
      revert hfield
      cases field <;> decide
  obtain ⟨value, hvalue⟩ := lookup_some hmem
  unfold Draft.value
  rw [hvalue]
  exact lookup_mem hvalue

/-- The totals are those of an event that has seen the scan complete. -/
theorem Viewed.total (h : Viewed w) {d : Delivery} (hd : d ∈ w.delivered) (field : Field)
    {total : Nat} (hfield : field ∉ loads false) (ht : d.draft.loaded.lookup field = some total) :
    d.draft.complete = some true ∧ (field, total) ∈ d.draft.loaded := by
  have hmem := lookup_mem ht
  refine ⟨?_, hmem⟩
  obtain ⟨done, hdone, hloaded⟩ := h.through d hd
  cases done with
  | true => exact hdone
  | false =>
    have hin : field ∈ d.draft.loaded.map Prod.fst := List.mem_map.mpr ⟨_, hmem, rfl⟩
    rw [hloaded] at hin
    exact absurd hin hfield

theorem Viewed.mem_drafts {d : Delivery} (hd : d ∈ w.delivered) : d.draft ∈ w.drafts :=
  List.mem_append_left _ (List.mem_map.mpr ⟨d, hd, rfl⟩)

/-- Two events, one delivered before the other. -/
theorem Viewed.earlier (h : Viewed w) :
    w.delivered.Pairwise (fun d e => d ∈ w.delivered ∧ e ∈ w.delivered ∧ d.draft.Earlier e.draft) := by
  have hordered := (List.pairwise_append.mp h.ordered).1
  rw [List.pairwise_map] at hordered
  exact hordered.imp_of_mem fun hd he hearlier => ⟨hd, he, hearlier⟩

/-- What the events of a call say of the entries that are processed. -/
structure Bounded (w : Observed) : Prop where
  counters : w.aggregator.counters .processedEntries ≤ w.aggregator.counters .discoveredEntries
  reached : ∀ d ∈ w.delivered,
    d.draft.event.processedEntries ≤ w.aggregator.counters .discoveredEntries
  later : w.delivered.Pairwise
    (fun d e => d.draft.event.processedEntries ≤ e.draft.event.discoveredEntries)
  totals : ∀ d ∈ w.delivered, d.draft.event.totalEntries.isSome = true →
    d.draft.event.processedEntries ≤ d.draft.event.discoveredEntries

/-- An event reports no more entries as processed than are discovered by then, and no more than
it reports as discovered if it has the totals. -/
theorem run_bounded {v : Vault} {e : Bool} {now : Int}
    (h : (Observed.start c v e now).run c x turns = some w) : Bounded w := by
  have ha := run_accounts h
  have hcounters := ha.behind.counters ha.balanced
  have hprocessed : ∀ d ∈ w.delivered, (Field.processedEntries, d.draft.value .processedEntries) ∈
      d.draft.loaded := fun d hd => ha.viewed.value hd (by decide)
  have hdiscovered : ∀ d ∈ w.delivered, (Field.discoveredEntries, d.draft.value .discoveredEntries) ∈
      d.draft.loaded := fun d hd => ha.viewed.value hd (by decide)
  have hbelow : ∀ d ∈ w.delivered,
      d.draft.event.processedEntries ≤ w.aggregator.counters .processedEntries := fun d hd =>
    (ha.viewed.seen d.draft (Viewed.mem_drafts hd)).below _ (hprocessed d hd)
  refine ⟨hcounters, fun d hd => (hbelow d hd).trans hcounters, ?_, fun d hd ht => ?_⟩
  · exact ha.viewed.earlier.imp fun ⟨hd, he, hearlier⟩ =>
      hearlier.behind _ (hprocessed _ hd) _ (hdiscovered _ he) rfl rfl
  · obtain ⟨total, htotal⟩ := Option.isSome_iff_exists.mp ht
    obtain ⟨hcomplete, -⟩ := ha.viewed.total hd .totalEntries (by decide) htotal
    have hexact := (ha.viewed.seen d.draft (Viewed.mem_drafts hd)).exact hcomplete _
      (hdiscovered d hd) rfl
    exact (hbelow d hd).trans (hcounters.trans_eq hexact.symm)

def nestedDirectory : ScannedEntry :=
  { sampleDirectory with
    sourcePath := [ascii "s", ascii "d"], relativePath := ascii "d", name := ascii "d" }

def nestedConfig : Config :=
  { sampleConfig with scan := [.entry sampleDirectory, .entry nestedDirectory] }

/-- The turns up to an event of the progress thread that has seen one entry. -/
def seenTurns : List Turn :=
  [speaks 9, [.opens], steps 1 (.main .next), speaks 9, steps 8 (.main .next),
    steps 1 (.scanner .next), List.replicate 6 (.scannerRecords false),
    List.replicate 5 (.runs none)].flatten

/-- Before it goes on, the other entry is found, and the worker is through with both. -/
def tornTurns : List Turn :=
  [steps 2 (.scanner .next), steps 2 (.worker 0 .next), List.replicate 6 (.scannerRecords false),
    steps 2 (.scanner .next), List.replicate 10 (.workerRecords 0 false), steps 3 (.worker 0 .next),
    List.replicate 10 (.workerRecords 0 false), List.replicate 5 (.runs none)].flatten

theorem torn_event : ∃ w,
    (Observed.start nestedConfig pendingVault false 0).run nestedConfig sampleExternals
      (seenTurns ++ tornTurns) = some w ∧
    ∃ d ∈ w.delivered,
      d.draft.event.discoveredEntries = 1 ∧ d.draft.event.processedEntries = 2 := by
  have hrun : ((Observed.start nestedConfig pendingVault false 0).run nestedConfig sampleExternals
      (seenTurns ++ tornTurns)).any (fun w => w.delivered.any (fun d =>
        d.draft.event.discoveredEntries = 1 && d.draft.event.processedEntries = 2)) = true := by
    decide +kernel
  obtain ⟨w, hw, hany⟩ := (Option.any_eq_true _ _).mp hrun
  obtain ⟨d, hd, hevent⟩ := List.any_eq_true.mp hany
  rw [Bool.and_eq_true, decide_eq_true_eq, decide_eq_true_eq] at hevent
  exact ⟨w, hw, d, hd, hevent⟩

/-- Two directories are processed while an event that has seen one of them is put together. -/
theorem run_bounded_torn : ∃ w,
    (Observed.start nestedConfig pendingVault false 0).run nestedConfig sampleExternals
      (seenTurns ++ tornTurns) = some w ∧ Bounded w := by
  have hrun : ((Observed.start nestedConfig pendingVault false 0).run nestedConfig sampleExternals
      (seenTurns ++ tornTurns)).isSome = true := by
    decide +kernel
  obtain ⟨w, hw⟩ := Option.isSome_iff_exists.mp hrun
  exact ⟨w, hw, run_bounded hw⟩

end LocalVault.Snapshot
