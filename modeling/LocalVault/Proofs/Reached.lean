import LocalVault.Proofs.Scanning

namespace LocalVault.Snapshot
open Library

section Loop

variable {c : ScanContext} {directory : Path} {interrupted : Option (Nat × String)}
  {f g below rest : Forest Name ObjectFacts} {name : Name} {facts : ObjectFacts}

theorem reached_cons {p : Path} {o : ObjectFacts}
    (h : (p, o) ∈ reached c directory interrupted (.cons name facts below rest)) :
    p = directory ++ [name] ∧ o = facts ∨
      ((judge c (directory ++ [name]) facts).descends = true ∧
        (p, o) ∈ reached c (directory ++ [name]) facts.enumeration.interrupted below) ∨
      ∃ i, (p, o) ∈ reached c directory i rest := by
  rw [reached, List.mem_cons, List.mem_append] at h
  rcases h with h | h | h
  · exact Or.inl (by simpa using h)
  · split at h
    · rename_i hd
      exact Or.inr (Or.inl ⟨hd.1, h⟩)
    · cases h
  · refine Or.inr (Or.inr ?_)
    revert h
    exact after_cases (P := fun l => (p, o) ∈ l → ∃ i, (p, o) ∈ reached c directory i rest)
      interrupted (fun _ h => absurd h List.not_mem_nil) (fun i h => ⟨i, h⟩)

/-- The loop comes to objects of the tree, through directories that were captured. -/
theorem reached_inv (hf : f.Distinct) {p : Path} {o : ObjectFacts}
    (h : (p, o) ∈ reached c directory interrupted f) :
    ∃ n r, p = directory ++ n :: r ∧ f.find (n :: r) = some o ∧
      ∀ q, q ≠ [] → q <+: n :: r → q ≠ n :: r → ∃ facts, f.find q = some facts ∧
        (judge c (directory ++ q) facts).descends = true := by
  induction f generalizing directory interrupted with
  | nil => cases h
  | cons name facts below rest ihb ihr =>
    obtain ⟨hname, hbelow, hrest⟩ := hf
    rcases reached_cons h with ⟨rfl, rfl⟩ | ⟨hd, hm⟩ | ⟨i, hm⟩
    · refine ⟨name, [], rfl, by simp [Forest.find_head], ?_⟩
      intro q hne hpre hq
      rcases List.prefix_cons_iff.mp hpre with rfl | ⟨t, rfl, ht⟩
      · exact absurd rfl hne
      · rw [List.prefix_nil.mp ht] at hq
        exact absurd rfl hq
    · obtain ⟨n, r, rfl, hfind, habove⟩ := ihb hbelow hm
      refine ⟨name, n :: r, by simp, by simp [Forest.find_head, hfind], ?_⟩
      intro q hne hpre hq
      rcases List.prefix_cons_iff.mp hpre with rfl | ⟨t, rfl, ht⟩
      · exact absurd rfl hne
      · by_cases hnil : t = []
        · subst hnil
          exact ⟨facts, by simp [Forest.find_head], hd⟩
        · obtain ⟨facts', hfind', hd'⟩ := habove t hnil ht (fun he => hq (by rw [he]))
          exact ⟨facts', by simp [Forest.find_head, hnil, hfind'], by simpa using hd'⟩
    · obtain ⟨n, r, rfl, hfind, habove⟩ := ihr hrest hm
      have hother : n ≠ name := fun he => hname (he ▸ Forest.find_listed hfind)
      refine ⟨n, r, rfl, by rw [Forest.find_other hother]; exact hfind, ?_⟩
      intro q hne hpre hq
      obtain ⟨facts', hfind', hd'⟩ := habove q hne hpre hq
      refine ⟨facts', ?_, hd'⟩
      rcases List.prefix_cons_iff.mp hpre with rfl | ⟨t, rfl, _⟩
      · exact absurd rfl hne
      · rw [Forest.find_other hother]
        exact hfind'

/-- No object is come to twice. -/
theorem reached_nodup (hf : f.Distinct) :
    ((reached c directory interrupted f).map Prod.fst).Nodup := by
  induction f generalizing directory interrupted with
  | nil => simp [reached]
  | cons name facts below rest ihb ihr =>
    obtain ⟨hname, hbelow, hrest⟩ := hf
    have hinside : ∀ p ∈ (if (judge c (directory ++ [name]) facts).descends ∧
          facts.enumeration.refused = none then
          reached c (directory ++ [name]) facts.enumeration.interrupted below else []).map Prod.fst,
        ∃ n r, p = directory ++ name :: n :: r := by
      intro p hp
      obtain ⟨⟨p, o⟩, hm, rfl⟩ := List.mem_map.mp hp
      split at hm
      · obtain ⟨n, r, rfl, _⟩ := reached_inv hbelow hm
        exact ⟨n, r, by simp⟩
      · cases hm
    have hbehind : ∀ p ∈ (after (fun _ => []) (fun i => reached c directory i rest)
        interrupted).map Prod.fst, ∃ n r, n ≠ name ∧ p = directory ++ n :: r := by
      refine after_cases (P := fun (l : List (Path × ObjectFacts)) => ∀ p ∈ l.map Prod.fst,
        ∃ n r, n ≠ name ∧ p = directory ++ n :: r) interrupted (by simp) ?_
      intro i p hp
      obtain ⟨⟨p, o⟩, hm, rfl⟩ := List.mem_map.mp hp
      obtain ⟨n, r, rfl, hfind, _⟩ := reached_inv hrest hm
      exact ⟨n, r, fun he => hname (he ▸ Forest.find_listed hfind), rfl⟩
    rw [reached, List.map_cons, List.map_append, List.nodup_cons, List.nodup_append]
    refine ⟨?_, ?_, ?_, ?_⟩
    · intro hm
      rcases List.mem_append.mp hm with hm | hm
      · obtain ⟨n, r, he⟩ := hinside _ hm
        simp at he
      · obtain ⟨n, r, hn, he⟩ := hbehind _ hm
        have : name = n ∧ [] = r := by simpa using he
        exact hn this.1.symm
    · split
      · exact ihb hbelow
      · simp
    · exact after_cases (P := fun (l : List (Path × ObjectFacts)) => (l.map Prod.fst).Nodup) interrupted (by simp)
        (fun i => ihr hrest)
    · intro p hp q hq he
      obtain ⟨n, r, hp⟩ := hinside _ hp
      obtain ⟨m, t, hm, hq⟩ := hbehind _ hq
      rw [hp, hq] at he
      have : name = m ∧ n :: r = t := by simpa using he
      exact hm this.1.symm

theorem Verdict.captured?_jobs (v : Verdict) : v.jobs.filterMap FileJob.scanned? = v.captured?.toList := by
  cases v <;> rfl

/-- What is picked from the calls is picked from the verdicts on the objects, when nothing is
picked from a warning about an enumeration. -/
theorem scanned_filterMap {β : Type} {g : FileJob → Option β} {v : Verdict → Option β}
    (hv : ∀ p o, (judge c p o).jobs.filterMap g = (v (judge c p o)).toList)
    (hg : ∀ d message, g (.warning (enumerationWarning d message)) = none) :
    (scanned c directory interrupted f).filterMap g =
      (reached c directory interrupted f).filterMap (fun r => v (judge c r.1 r.2)) := by
  induction f generalizing directory interrupted with
  | nil => rfl
  | cons name facts below rest ihb ihr =>
    have hbelow : (if (judge c (directory ++ [name]) facts).descends then
        listed (directory ++ [name]) facts.enumeration
          (scanned c (directory ++ [name]) facts.enumeration.interrupted below)
        else []).filterMap g =
        (if (judge c (directory ++ [name]) facts).descends ∧ facts.enumeration.refused = none then
          reached c (directory ++ [name]) facts.enumeration.interrupted below else []).filterMap
            (fun r => v (judge c r.1 r.2)) := by
      cases (judge c (directory ++ [name]) facts).descends with
      | false => simp
      | true =>
        cases hr : facts.enumeration.refused with
        | some text => simp [listed, hr, hg]
        | none => simpa [listed, hr] using ihb
    have hbehind : (after (brokenOff directory) (fun i => scanned c directory i rest)
        interrupted).filterMap g =
        (after (fun _ => []) (fun i => reached c directory i rest) interrupted).filterMap
          (fun r => v (judge c r.1 r.2)) := by
      match interrupted with
      | some (0, text) => simp [after, brokenOff, hg]
      | some (n + 1, text) => exact ihr
      | none => exact ihr
    rw [scanned, reached, List.filterMap_append, List.filterMap_append, hbelow, hbehind, hv,
      List.filterMap_cons, List.filterMap_append]
    cases v (judge c (directory ++ [name]) facts) <;> rfl

/-- The entries are those of the objects that were captured. -/
theorem scanned_entries : (scanned c directory interrupted f).filterMap FileJob.scanned? =
    (reached c directory interrupted f).filterMap (fun r => (judge c r.1 r.2).captured?) :=
  scanned_filterMap (fun _ _ => Verdict.captured?_jobs _) (fun _ _ => rfl)

/-- A warning about an object that was skipped. -/
def FileJob.skip? : FileJob → Option ScanWarning
  | .warning w => if w.code = "directory_enumeration_failed" then none else some w
  | .entry _ => none

def Verdict.warning? : Verdict → Option ScanWarning
  | .warned w => some w
  | _ => none

theorem judge_skip? (c : ScanContext) (p : Path) (o : ObjectFacts) :
    (judge c p o).jobs.filterMap FileJob.skip? = (judge c p o).warning?.toList := by
  rcases judge_cases c p o with ⟨h, _⟩ | ⟨w, h, _, hw⟩ | ⟨e, _, _, h, _⟩
  · rw [h]
    rfl
  · have : FileJob.skip? (.warning w) = some w := if_neg hw
    simp [h, Verdict.jobs, Verdict.warning?, this]
  · rw [h]
    rfl

/-- The warnings about skipped objects are one for each. -/
theorem scanned_skips : (scanned c directory interrupted f).filterMap FileJob.skip? =
    (reached c directory interrupted f).filterMap (fun r => (judge c r.1 r.2).warning?) :=
  scanned_filterMap (judge_skip? c) (fun _ _ => rfl)

/-- How it is known that an enumeration failed. -/
def EnumerationWarned (jobs : List FileJob) (directory : Path) : Prop :=
  ∃ w, .warning w ∈ jobs ∧ w.code = "directory_enumeration_failed" ∧
    w.relativePath = (pathToUtf8 directory).getD []

theorem enumerationWarned {jobs : List FileJob} {d : Path} (message : String)
    (h : .warning (enumerationWarning d message) ∈ jobs) : EnumerationWarned jobs d :=
  ⟨_, h, rfl, rfl⟩

theorem EnumerationWarned.mono {jobs jobs' : List FileJob} {d : Path}
    (h : EnumerationWarned jobs d) (hsub : ∀ j ∈ jobs, j ∈ jobs') : EnumerationWarned jobs' d := by
  obtain ⟨w, hw, hcode, hpath⟩ := h
  exact ⟨w, hsub _ hw, hcode, hpath⟩

/-- The loop comes to an object, or has stopped above it: at one that it does not go below, or
at a directory that could not be enumerated. -/
inductive Covered (c : ScanContext) (directory : Path) (interrupted : Option (Nat × String))
    (f : Forest Name ObjectFacts) (r : Path) (o : ObjectFacts) : Prop
  | comes (h : (directory ++ r, o) ∈ reached c directory interrupted f)
  | stopped (q : Path) (facts : ObjectFacts) (hq : q ≠ []) (hpre : q <+: r) (hne : q ≠ r)
      (hfind : f.find q = some facts)
      (h : (directory ++ q, facts) ∈ reached c directory interrupted f)
      (hno : (judge c (directory ++ q) facts).descends = false)
  | failed (q : Path) (hpre : q <+: r) (hne : q ≠ r)
      (h : EnumerationWarned (scanned c directory interrupted f) (directory ++ q))

theorem Covered.inside {n : Name} {r : Path} {o : ObjectFacts}
    (hd : (judge c (directory ++ [n]) facts).descends = true)
    (hrefused : facts.enumeration.refused = none)
    (h : Covered c (directory ++ [n]) facts.enumeration.interrupted below r o) :
    Covered c directory interrupted (.cons n facts below rest) (n :: r) o := by
  have hreached : ∀ x ∈ reached c (directory ++ [n]) facts.enumeration.interrupted below,
      x ∈ reached c directory interrupted (.cons n facts below rest) := by
    intro x hx
    rw [reached]
    simp [hd, hrefused, hx]
  have hjobs : ∀ job ∈ scanned c (directory ++ [n]) facts.enumeration.interrupted below,
      job ∈ scanned c directory interrupted (.cons n facts below rest) := by
    intro job hj
    rw [scanned, listed]
    simp [hd, hrefused, hj]
  cases h with
  | comes h => exact .comes (by simpa using hreached _ h)
  | stopped q facts' hq hpre hne hfind h hno =>
    refine .stopped (n :: q) facts' (by simp) ((List.prefix_cons_inj n).mpr hpre) (by simpa using hne)
      ?_ (by simpa using hreached _ h) (by simpa using hno)
    rw [Forest.find_head, if_neg hq]
    exact hfind
  | failed q hpre hne h =>
    exact .failed (n :: q) ((List.prefix_cons_inj n).mpr hpre) (by simpa using hne)
      (by simpa using h.mono hjobs)

theorem Covered.behind {n : Name} {r : Path} {o : ObjectFacts} {next : Option (Nat × String)}
    (hn : n ≠ name)
    (hnext : ∀ {γ : Type} (broken : String → γ) loop, after broken loop interrupted = loop next)
    (h : Covered c directory next rest (n :: r) o) :
    Covered c directory interrupted (.cons name facts below rest) (n :: r) o := by
  have hreached : ∀ x ∈ reached c directory next rest,
      x ∈ reached c directory interrupted (.cons name facts below rest) := by
    intro x hx
    rw [reached, hnext]
    simp [hx]
  have hjobs : ∀ job ∈ scanned c directory next rest,
      job ∈ scanned c directory interrupted (.cons name facts below rest) := by
    intro job hj
    rw [scanned, hnext]
    simp [hj]
  cases h with
  | comes h => exact .comes (hreached _ h)
  | stopped q facts' hq hpre hne hfind h hno =>
    refine .stopped q facts' hq hpre hne ?_ (hreached _ h) hno
    rcases List.prefix_cons_iff.mp hpre with rfl | ⟨t, rfl, _⟩
    · exact absurd rfl hq
    · rw [Forest.find_other hn]
      exact hfind
  | failed q hpre hne h => exact .failed q hpre hne (h.mono hjobs)

theorem covered {r : Path} {o : ObjectFacts} (h : f.find r = some o) :
    Covered c directory interrupted f r o := by
  induction f generalizing directory interrupted r with
  | nil => cases r <;> cases h
  | cons name facts below rest ihb ihr =>
    cases r with
    | nil => cases h
    | cons n r =>
      by_cases hn : n = name
      · subst hn
        have hhead : (directory ++ [n], facts) ∈
            reached c directory interrupted (.cons n facts below rest) := by
          rw [reached]
          exact List.mem_cons_self
        rw [Forest.find_head] at h
        split at h
        · rename_i hr
          cases h
          exact .comes (by rwa [hr])
        rename_i hr
        have hpre : [n] <+: n :: r := by simp
        have hne : [n] ≠ n :: r := by simpa using Ne.symm hr
        cases hd : (judge c (directory ++ [n]) facts).descends with
        | false => exact .stopped [n] facts (by simp) hpre hne (by simp [Forest.find_head]) hhead hd
        | true =>
          cases hrefused : facts.enumeration.refused with
          | some text =>
            refine .failed [n] hpre hne
              (enumerationWarned ("failed to enumerate directory: " ++ text) ?_)
            rw [scanned, listed]
            simp [hd, hrefused]
          | none => exact (ihb h).inside hd hrefused
      · rw [Forest.find_other hn] at h
        rcases interrupted with _ | ⟨_ | k, text⟩
        · exact (ihr h).behind hn (fun _ _ => rfl)
        · refine .failed [] (by simp) (by simp)
            (enumerationWarned ("failed while enumerating directory: " ++ text) ?_)
          rw [scanned]
          simp [after, brokenOff]
        · exact (ihr h).behind hn (fun _ _ => rfl)

theorem listed_perm {enumeration : Enumeration} {jobs jobs' : List FileJob}
    (h : enumeration.refused = none → jobs.Perm jobs') :
    (listed directory enumeration jobs).Perm (listed directory enumeration jobs') := by
  unfold listed
  cases hr : enumeration.refused with
  | some text => exact List.Perm.refl _
  | none => exact h hr

/-- An enumeration breaks off. -/
def Breaks (enumeration : Enumeration) : Prop :=
  enumeration.refused = none ∧ enumeration.interrupted ≠ none

theorem scanned_reordered (h : f.Reordered g)
    (hf : ∀ r ∈ reached c directory none f, (judge c r.1 r.2).descends = true →
      ¬ Breaks r.2.enumeration) :
    (scanned c directory none f).Perm (scanned c directory none g) ∧
      (reached c directory none f).Perm (reached c directory none g) := by
  induction h generalizing directory with
  | nil => exact ⟨List.Perm.refl _, List.Perm.refl _⟩
  | @cons name facts below below' rest rest' _ _ ihb ihr =>
    have hrest : (scanned c directory none rest).Perm (scanned c directory none rest') ∧
        (reached c directory none rest).Perm (reached c directory none rest') :=
      ihr (fun r hr => hf r (by simp [reached, after, hr]))
    have hbelow : (judge c (directory ++ [name]) facts).descends = true →
        facts.enumeration.refused = none →
        (scanned c (directory ++ [name]) facts.enumeration.interrupted below).Perm
          (scanned c (directory ++ [name]) facts.enumeration.interrupted below') ∧
        (reached c (directory ++ [name]) facts.enumeration.interrupted below).Perm
          (reached c (directory ++ [name]) facts.enumeration.interrupted below') := by
      intro hd hrefused
      have hnone : facts.enumeration.interrupted = none := by
        by_contra hsome
        exact hf (directory ++ [name], facts) (by simp [reached]) hd ⟨hrefused, hsome⟩
      have hf' : ∀ r ∈ reached c (directory ++ [name]) none below,
          (judge c r.1 r.2).descends = true → ¬ Breaks r.2.enumeration :=
        fun r hr => hf r (by simp [reached, hd, hrefused, hnone, hr])
      rw [hnone]
      exact ihb hf'
    constructor
    · rw [scanned, scanned]
      refine List.Perm.append_left _ (List.Perm.append ?_ hrest.1)
      split
      · exact listed_perm (fun hr => (hbelow ‹_› hr).1)
      · exact List.Perm.refl _
    · rw [reached, reached]
      refine List.Perm.cons _ (List.Perm.append ?_ hrest.2)
      split
      · rename_i hd
        exact (hbelow hd.1 hd.2).2
      · exact List.Perm.refl _
  | swap n m a b f g rest =>
    simp only [scanned, reached, after]
    constructor
    · grind
    · exact List.perm_append_comm_assoc (_ :: _) (_ :: _) _
  | trans _ _ ih ih' =>
    obtain ⟨hjobs, hreached⟩ := ih hf
    obtain ⟨hjobs', hreached'⟩ := ih' (fun r hr => hf r (hreached.mem_iff.mpr hr))
    exact ⟨hjobs.trans hjobs', hreached.trans hreached'⟩

end Loop

end LocalVault.Snapshot
