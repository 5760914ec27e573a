import LocalVault.Proofs.Plan

namespace LocalVault.Restore
open Library Library.FileTree Library.Program

/-- The object at the destination of an entry is the one the entry describes; a
directory gets its times at the end. -/
def Restored (c : Context) (e : EntryInfo) (n : Node) : Prop :=
  match e.type with
  | .directory => ∃ st, n = .directory st
  | .regularFile => ∃ content st, n = .file content st ∧
      VerifiedContent c.x (c.chunksAt e.id) e content ∧
      (e.posixMode ≤ validModeMask → ∃ old, st = stampOf e.modifiedTimeNs e.posixMode old)
  | .symbolicLink => ∃ target, e.symlinkTarget = some target ∧ n = .link target

/-- What a plan without replacements relies on, over the tree it was made for:
every parent is the root or a planned directory, nothing is in the way, and the
temporary names are free. -/
structure Calm (c : Context) (plan : List PlannedEntry) (t₀ : Tree) : Prop where
  faultless : Faultless c.host
  root : Plain c.root
  valid : ∀ p ∈ plan, ValidEntry p.entry
  distinct : (plan.map (fun p => components p.entry.relativePath)).Nodup
  ordered : plan.Pairwise (fun a b => pathDepth a.entry.relativePath ≤ pathDepth b.entry.relativePath)
  keeps : ∀ p ∈ plan, p.action ≠ .replace
  parents : ∀ p ∈ plan, p.entry.relativePath ≠ [] → parentComponents p.entry.relativePath = [] ∨
    ∃ d ∈ plan, d.entry.type = .directory ∧ (p.action ≠ .skip → d.action ≠ .skip) ∧
      components d.entry.relativePath = parentComponents p.entry.relativePath
  free : ∀ p ∈ plan, p.action = .create → p.entry.relativePath ≠ [] ∧
    t₀ (c.destination p.entry) = none
  merged : ∀ p ∈ plan, p.action = .mergeDirectory → p.entry.type = .directory ∧
    IsDirectory t₀ (c.destination p.entry)
  allowed : ∀ p ∈ plan, p.metadataAllowed = decide (p.action ≠ .skip)
  random : ∀ p ∈ plan, ∀ n, t₀ (c.parent p.entry ++ [randomTemporaryName (c.host.entropy n)]) = none ∧
    ∀ q ∈ plan, c.destination q.entry ≠
      c.parent p.entry ++ [randomTemporaryName (c.host.entropy n)]
  readable : ∀ p ∈ plan, p.entry.type = .regularFile → ∃ parts, Readable c p.entry parts
  targets : ∀ p ∈ plan, p.entry.type = .symbolicLink →
    ∃ target, p.entry.symlinkTarget = some target ∧ target ≠ []

/-- A path the plan may change. -/
def Ours (c : Context) (plan : List PlannedEntry) (p : Path) : Prop :=
  p = c.root ∨ ∃ q ∈ plan, p = c.destination q.entry

/-- How far the plan has come: `stands` says which new entries are in place, and
`spare` is the temporary of the moment. -/
structure Placing (c : Context) (plan : List PlannedEntry) (t₀ : Tree) (spare : List Path)
    (stands : PlannedEntry → Prop) (t : Tree) : Prop where
  wellFormed : WellFormed t
  elsewhere : ∀ p, p ∉ spare → ¬ Ours c plan p → t p = t₀ p
  directories : ∀ p, IsDirectory t₀ p → IsDirectory t p
  kept : ∀ p n, t₀ p = some n → (∀ st, n ≠ .directory st) → t p = some n
  standing : ∀ q ∈ plan, q.action = .create → stands q →
    ∃ n, t (c.destination q.entry) = some n ∧ Restored c q.entry n
  waiting : ∀ q ∈ plan, q.action = .create → ¬ stands q → c.destination q.entry ∉ spare →
    t (c.destination q.entry) = none

theorem Restored.like {c : Context} {e : EntryInfo} {n m : Node} (h : Restored c e n)
    (hl : n.Like m) : Restored c e m := by
  unfold Restored at *
  cases he : e.type with
  | directory =>
    simp only [he] at h ⊢
    obtain ⟨st, rfl⟩ := h
    cases m <;> simp [Node.Like] at hl ⊢
  | regularFile =>
    simp only [he] at h ⊢
    obtain ⟨content, st, rfl, hv⟩ := h
    cases m <;> simp [Node.Like] at hl
    obtain ⟨rfl, rfl⟩ := hl
    exact ⟨_, _, rfl, hv⟩
  | symbolicLink =>
    simp only [he] at h ⊢
    obtain ⟨target, ht, rfl⟩ := h
    cases m <;> simp [Node.Like] at hl
    subst hl
    exact ⟨_, ht, rfl⟩

section Placing

variable {c : Context} {plan : List PlannedEntry} {t₀ t t' : Tree} {spare paths : List Path}
  {stands : PlannedEntry → Prop} {p : PlannedEntry} {name : Name} {w : World}

/-- One change of the tree, and what it owes at the paths it names. -/
theorem Placing.edit (hs : Placing c plan t₀ spare stands t) {s : List Path}
    {now : PlannedEntry → Prop} (he : Edit paths t t')
    (ours : ∀ p ∈ paths, p ∈ s ∨ Ours c plan p)
    (frame : ∀ r, r ∉ s → ¬ Ours c plan r → t' r = t r)
    (keep : ∀ p ∈ paths, ∀ n, t₀ p = some n → (∀ st, n ≠ .directory st) → t' p = some n)
    (here : ∀ q ∈ plan, q.action = .create → c.destination q.entry ∈ paths →
      (now q → ∃ n, t' (c.destination q.entry) = some n ∧ Restored c q.entry n) ∧
      (¬ now q → c.destination q.entry ∉ s → t' (c.destination q.entry) = none))
    (there : ∀ q ∈ plan, q.action = .create → c.destination q.entry ∉ paths → (now q ↔ stands q))
    (drop : ∀ p, p ∉ s → p ∉ paths → p ∉ spare) : Placing c plan t₀ s now t' where
  wellFormed := he.wellFormed hs.wellFormed
  elsewhere r hr ho := by
    have hm : r ∉ paths := by
      intro hm
      rcases ours r hm with h | h
      · exact hr h
      · exact ho h
    rw [frame r hr ho]
    exact hs.elsewhere r (drop r hr hm) ho
  directories r hd := he.directories r (hs.directories r hd)
  kept r n hn hp := by
    by_cases hm : r ∈ paths
    · exact keep r hm n hn hp
    · exact (he.elsewhere r hm).plain (hs.kept r n hn hp) hp
  standing q hq ha hnow := by
    by_cases hm : c.destination q.entry ∈ paths
    · exact (here q hq ha hm).1 hnow
    · obtain ⟨n, hn, hr⟩ := hs.standing q hq ha ((there q hq ha hm).mp hnow)
      rcases he.elsewhere _ hm with ⟨hnone, _⟩ | ⟨a, b, hta, htb, hlike⟩
      · rw [hn] at hnone
        cases hnone
      · rw [hn] at hta
        cases hta
        exact ⟨b, htb, hr.like hlike⟩
  waiting q hq ha hnow hsp := by
    by_cases hm : c.destination q.entry ∈ paths
    · exact (here q hq ha hm).2 hnow hsp
    · have hold := hs.waiting q hq ha (fun h => hnow ((there q hq ha hm).mpr h)) (drop _ hsp hm)
      exact (he.elsewhere _ hm).none_iff.mp hold

theorem Placing.weaken (hs : Placing c plan t₀ spare stands t) {now : PlannedEntry → Prop}
    (h : ∀ q ∈ plan, q.action = .create → (now q ↔ stands q)) : Placing c plan t₀ spare now t :=
  { hs with
    standing := fun q hq ha hn => hs.standing q hq ha ((h q hq ha).mp hn)
    waiting := fun q hq ha hn => hs.waiting q hq ha (fun hx => hn ((h q hq ha).mpr hx)) }

/-- What is missing now was missing before. -/
theorem Placing.missing (hs : Placing c plan t₀ spare stands t) {r : Path} (h : t r = none) :
    t₀ r = none := by
  cases hr : t₀ r with
  | none => rfl
  | some n =>
    exfalso
    by_cases hd : ∃ st, n = .directory st
    · obtain ⟨st, rfl⟩ := hd
      obtain ⟨st', hst⟩ := hs.directories r ⟨st, hr⟩
      rw [h] at hst
      cases hst
    · rw [hs.kept r n hr (fun st he => hd ⟨st, he⟩)] at h
      cases h

/-- The temporary is gone. -/
theorem Placing.close {r : Path} (hs : Placing c plan t₀ [r] stands t) (hn : t r = none) :
    Placing c plan t₀ [] stands t :=
  { hs with
    elsewhere := by
      intro p _ ho
      by_cases hp : p = r
      · rw [hp, hn, hs.missing hn]
      · exact hs.elsewhere p (by simpa using hp) ho
    waiting := by
      intro q hq ha hst _
      by_cases hd : c.destination q.entry = r
      · rw [hd, hn]
      · exact hs.waiting q hq ha hst (by simpa using hd) }

theorem not_blocked (hw : WellFormed t) {base rel : Path} (hd : IsDirectory t (base ++ rel)) :
    ¬ Blocked t base rel := by
  rintro ⟨q, r, rfl, _, hn, _⟩
  exact hn (hw.ancestors (q := r) (by simpa using hd))

theorem Placing.ready (hs : Placing c plan t₀ spare stands w.tree) (calm : Calm c plan t₀)
    (hroot : IsDirectory t₀ c.root) (hp : p ∈ plan) : Ready c p.entry w :=
  ⟨hs.wellFormed, hs.directories _ hroot, calm.root, calm.valid p hp⟩

/-- The parent of an entry is one of the paths of the plan. -/
theorem Calm.parent_ours (calm : Calm c plan t₀) (hp : p ∈ plan)
    (hne : p.entry.relativePath ≠ []) : Ours c plan (c.parent p.entry) := by
  rcases calm.parents p hp hne with h | ⟨d, hd, _, _, hc⟩
  · exact Or.inl (by simp [Context.parent, h])
  · exact Or.inr ⟨d, hd, by simp [Context.parent, Context.destination, hc]⟩

/-- A planned directory is one, unless it was skipped. -/
theorem Placing.directory (hs : Placing c plan t₀ spare stands t) (calm : Calm c plan t₀)
    (hp : p ∈ plan) (ht : p.entry.type = .directory) (ha : p.action ≠ .skip)
    (hst : p.action = .create → stands p) : IsDirectory t (c.destination p.entry) := by
  cases hda : p.action with
  | create =>
    obtain ⟨n, hn, hr⟩ := hs.standing p hp hda (hst hda)
    unfold Restored at hr
    simp only [ht] at hr
    obtain ⟨st, rfl⟩ := hr
    exact ⟨st, hn⟩
  | mergeDirectory => exact hs.directories _ (calm.merged p hp hda).2
  | replace => exact absurd hda (calm.keeps p hp)
  | skip => exact absurd hda ha

/-- The parent of an entry that is not skipped is a directory, once the planned
directories above it stand. -/
theorem Placing.parent (hs : Placing c plan t₀ spare stands t) (calm : Calm c plan t₀)
    (hroot : IsDirectory t₀ c.root) (hp : p ∈ plan) (hne : p.entry.relativePath ≠ [])
    (ha : p.action ≠ .skip)
    (above : ∀ d ∈ plan, d.entry.type = .directory → d.action = .create →
      components d.entry.relativePath = parentComponents p.entry.relativePath → stands d) :
    IsDirectory t (c.parent p.entry) := by
  rcases calm.parents p hp hne with h | ⟨d, hd, ht, hk, hc⟩
  · simpa [Context.parent, h] using hs.directories _ hroot
  · have hdest : c.parent p.entry = c.destination d.entry := by
      simp [Context.parent, Context.destination, hc]
    rw [hdest]
    exact hs.directory calm hd ht (hk ha) (fun hda => above d hd ht hda hc)

theorem Calm.destination_inj (calm : Calm c plan t₀) {q : PlannedEntry} (hp : p ∈ plan)
    (hq : q ∈ plan) (h : c.destination q.entry = c.destination p.entry) : q = p :=
  List.inj_on_of_nodup_map calm.distinct hq hp (List.append_cancel_left h)

theorem Calm.nodup (calm : Calm c plan t₀) : plan.Nodup := calm.distinct.of_map _

theorem Calm.random_elsewhere (calm : Calm c plan t₀) (hp : p ∈ plan) (n : Nat) :
    ¬ Ours c plan (c.parent p.entry ++ [randomTemporaryName (c.host.entropy n)]) := by
  rintro (h | ⟨q, hq, h⟩)
  · simpa using congrArg List.length h
  · exact (calm.random p hp n).2 q hq h.symm

/-- Changes of the temporary, from its creation on. -/
theorem Placing.temporary (hs : Placing c plan t₀ spare stands t) {r : Path}
    (he : Edit [r] t t') (hl : Local [r] t t') (hd : Ours c plan r.dropLast) (hn : t₀ r = none)
    (hfree : ∀ q ∈ plan, q.action = .create → stands q → c.destination q.entry ≠ r)
    (hsub : ∀ p ∈ spare, p = r) : Placing c plan t₀ [r] stands t' := by
  refine hs.edit he ?_ ?_ ?_ ?_ (fun _ _ _ _ => Iff.rfl) ?_
  · exact fun p hp => Or.inl hp
  · intro p hp ho
    apply hl p
    intro q hq
    rw [List.mem_singleton.mp hq]
    refine ⟨fun h => hp (by simp [h]), fun h => ho (h ▸ hd)⟩
  · intro p hp n hx
    rw [List.mem_singleton.mp hp, hn] at hx
    cases hx
  · intro q hq ha hm
    exact ⟨fun h => absurd (List.mem_singleton.mp hm) (hfree q hq ha h),
      fun _ h => absurd hm h⟩
  · intro p hp _ h
    exact hp (by simp [hsub p h])

/-- The move of the temporary to the destination of its entry. -/
theorem Placing.publish (hs : Placing c plan t₀ [c.parent p.entry ++ [name]] stands t)
    (calm : Calm c plan t₀) (hp : p ∈ plan) (hv : isSafeStoredPath p.entry.relativePath = true)
    (ha : p.action = .create)
    (hfree : ∀ q ∈ plan, q.action = .create → stands q → c.destination q.entry ≠ c.parent p.entry ++ [name])
    (hne : c.parent p.entry ++ [name] ≠ c.destination p.entry)
    (he : Edit [c.parent p.entry ++ [name], c.destination p.entry] t t')
    (hl : Local [c.parent p.entry ++ [name], c.destination p.entry] t t')
    (hn : t₀ (c.parent p.entry ++ [name]) = none) {n : Node}
    (hnew : t' (c.destination p.entry) = some n) (hr : Restored c p.entry n)
    (hgone : t' (c.parent p.entry ++ [name]) = none) :
    Placing c plan t₀ [] (fun q => stands q ∨ q = p) t' := by
  have hpar : Ours c plan (c.parent p.entry) := calm.parent_ours hp (calm.free p hp ha).1
  have hmoved : Placing c plan t₀ [c.parent p.entry ++ [name]] (fun q => stands q ∨ q = p) t' := by
    refine hs.edit he ?_ ?_ ?_ ?_ ?_ (fun _ h _ => h)
    · intro r hm
      simp only [List.mem_cons, List.not_mem_nil, or_false] at hm
      rcases hm with rfl | rfl
      · exact Or.inl (by simp)
      · exact Or.inr (Or.inr ⟨p, hp, rfl⟩)
    · intro r hm ho
      apply hl r
      intro q hq
      simp only [List.mem_cons, List.not_mem_nil, or_false] at hq
      rcases hq with rfl | rfl
      · refine ⟨fun h => hm (by simp [h]), fun h => ho ?_⟩
        rw [List.dropLast_concat] at h
        exact h ▸ hpar
      · refine ⟨fun h => ho (Or.inr ⟨p, hp, h⟩), fun h => ho ?_⟩
        rw [destination_dropLast hv] at h
        exact h ▸ hpar
    · intro r hm m hx
      simp only [List.mem_cons, List.not_mem_nil, or_false] at hm
      rcases hm with rfl | rfl
      · rw [hn] at hx
        cases hx
      · rw [(calm.free p hp ha).2] at hx
        cases hx
    · intro q hq hqa hm
      simp only [List.mem_cons, List.not_mem_nil, or_false] at hm
      rcases hm with hm | hm
      · refine ⟨?_, fun _ h => absurd (by simp [hm]) h⟩
        rintro (h | rfl)
        · exact absurd hm (hfree q hq hqa h)
        · exact absurd hm.symm hne
      · obtain rfl := calm.destination_inj hp hq hm
        exact ⟨fun _ => ⟨n, hnew, hr⟩, fun h => absurd (Or.inr rfl) h⟩
    · intro q hq _ hm
      refine ⟨?_, Or.inl⟩
      rintro (h | rfl)
      · exact h
      · exact absurd (by simp) hm
  exact hmoved.close hgone

end Placing

/-- The names in the list of skipped entries. -/
def World.skippedNames (w : World) : List Bytes :=
  w.result.skippedEntries.map SkippedEntry.relativePath

/-- What a step added: skipped names, restored bytes and drawn numbers. -/
structure Tally (w w' : World) (skipped : List Bytes) (bytes draws : Nat) : Prop where
  skipped : w'.skippedNames = w.skippedNames ++ skipped
  bytes : w'.result.restoredBytes = w.result.restoredBytes + bytes
  draws : w'.sequence = w.sequence + draws

theorem Tally.refl (w : World) : Tally w w [] 0 0 := ⟨by simp, rfl, rfl⟩

theorem Tally.trans {u v w : World} {s s' : List Bytes} {b b' d d' : Nat} (h : Tally u v s b d)
    (k : Tally v w s' b' d') : Tally u w (s ++ s') (b + b') (d + d') :=
  ⟨by rw [k.skipped, h.skipped, List.append_assoc], by rw [k.bytes, h.bytes, Nat.add_assoc],
    by rw [k.draws, h.draws, Nat.add_assoc]⟩

theorem Tally.of_result {w w' : World} (hr : w'.result = w.result) (hs : w'.sequence = w.sequence) :
    Tally w w' [] 0 0 :=
  ⟨by simp [World.skippedNames, hr], by rw [hr, Nat.add_zero], by rw [hs, Nat.add_zero]⟩

/-- The counters a step added up are all that a tally reads. -/
theorem Tally.seen {w w' v : World} {s : List Bytes} {b d : Nat} (h : Tally w w' s b d)
    (hs : v.skippedNames = w'.skippedNames)
    (hb : v.result.restoredBytes = w'.result.restoredBytes) (hd : v.sequence = w'.sequence) :
    Tally w v s b d :=
  ⟨hs.trans h.skipped, hb.trans h.bytes, hd.trans h.draws⟩

theorem Tally.skip {w w' : World} {s : List Bytes} {b d : Nat} (h : Tally w w' s b d) (path : Bytes)
    (reason : String) : Tally w (w'.skip path reason) (s ++ [path]) b d :=
  ⟨by simpa [World.skip, World.skippedNames, ← List.append_assoc] using h.skipped, h.bytes, h.draws⟩

theorem Recorded.tally {u v : World} {e : EntryInfo} {warning : Option String}
    (h : Recorded u v e warning) :
    Tally u v (if warning = none then [] else [e.relativePath]) e.logicalSize 0 := by
  cases warning with
  | none => exact ⟨by simp [World.skippedNames, h.result, World.countFile],
      by simp [h.result, World.countFile], h.sequence⟩
  | some text => exact ⟨by simp [World.skippedNames, h.result, World.countFile, World.skip],
      by simp [h.result, World.countFile, World.skip], h.sequence⟩

section Steps

variable {c : Context} {plan : List PlannedEntry} {t₀ : Tree} {stands : PlannedEntry → Prop}
  {p : PlannedEntry} {w : World}

/-- The directory phase names the directories it skips. -/
def skippedDirectory (p : PlannedEntry) : Bool := p.entry.type = .directory ∧ p.action = .skip

theorem restoreDirectory_placing (calm : Calm c plan t₀) (hroot : IsDirectory t₀ c.root)
    (hp : p ∈ plan) (hs : Placing c plan t₀ [] stands w.tree) (hnew : ¬ stands p)
    (above : p.action = .create → ∀ d ∈ plan, d.entry.type = .directory → d.action = .create →
      components d.entry.relativePath = parentComponents p.entry.relativePath → stands d) :
    (restoreDirectory c p).wp
      (fun _ w' => Placing c plan t₀ []
          (fun q => stands q ∨ q = p ∧ p.entry.type = .directory) w'.tree ∧
        Tally w w' (if skippedDirectory p then [p.entry.relativePath] else []) 0 0)
      (fun _ _ => False) w := by
  have ready := hs.ready calm hroot hp
  -- an entry that makes no directory changes no tree
  have same : ∀ w' : World, w'.tree = w.tree → ¬ (p.entry.type = .directory ∧ p.action = .create) →
      Placing c plan t₀ [] (fun q => stands q ∨ q = p ∧ p.entry.type = .directory) w'.tree := by
    intro w' ht hn
    rw [ht]
    apply hs.weaken
    intro q _ ha
    refine ⟨?_, Or.inl⟩
    rintro (h | ⟨rfl, h⟩)
    · exact h
    · exact absurd ⟨h, ha⟩ hn
  apply wp_restoreDirectory ready
  case other =>
    intro w' hq hne
    exact ⟨same w' hq.tree (fun h => hne h.1), by
      simpa [skippedDirectory, hne] using Tally.of_result hq.result hq.sequence⟩
  case skipped =>
    intro w' hq ht ha
    refine ⟨same _ hq.tree (by simp [ha]), ?_⟩
    have := (Tally.of_result hq.result hq.sequence).skip p.entry.relativePath
      "destination directory conflicts"
    simpa [skippedDirectory, ht, ha] using this
  case merged =>
    intro w' hq _ hskip hcreate
    refine ⟨same _ hq.tree (fun h => hcreate h.2), ?_⟩
    have htally : Tally w w'.countDirectory [] 0 0 :=
      (Tally.of_result hq.result hq.sequence).seen rfl rfl rfl
    simpa [skippedDirectory, hskip] using htally
  case created =>
    intro w' t now hq ht ha hd hc
    constructor
    · have hpar := calm.parent_ours hp (calm.free p hp ha).1
      have hv : isSafeStoredPath p.entry.relativePath = true := by
        rcases calm.valid p hp with ⟨h, _⟩ | h
        · exact absurd h (calm.free p hp ha).1
        · exact h
      refine hs.edit (create_edit hs.wellFormed hd hc) ?_ ?_ ?_ ?_ ?_ (fun _ h _ => h)
      · intro r hm
        exact Or.inr (Or.inr ⟨p, hp, List.mem_singleton.mp hm⟩)
      · intro r _ ho
        apply create_local hd hc r
        intro q hm
        rw [List.mem_singleton.mp hm]
        refine ⟨fun h => ho (Or.inr ⟨p, hp, h⟩), fun h => ho ?_⟩
        rw [destination_dropLast hv] at h
        exact h ▸ hpar
      · intro r hm n hx
        rw [List.mem_singleton.mp hm, (calm.free p hp ha).2] at hx
        cases hx
      · intro q hq' _ hm
        obtain rfl := calm.destination_inj hp hq' (List.mem_singleton.mp hm)
        refine ⟨fun _ => ?_, fun h => absurd (Or.inr ⟨rfl, ht⟩) h⟩
        obtain ⟨st, hst⟩ := create_isDirectory hd hc
        refine ⟨_, hst, ?_⟩
        unfold Restored
        simp only [ht]
        exact ⟨st, rfl⟩
      · intro q hq' _ hm
        refine ⟨?_, Or.inl⟩
        rintro (h | ⟨rfl, _⟩)
        · exact h
        · exact absurd (by simp) hm
    · have htally : Tally w (w'.mutate [c.destination p.entry] t).tick.countDirectory [] 0 0 :=
        (Tally.of_result hq.result hq.sequence).seen rfl rfl rfl
      simpa [skippedDirectory, ha] using htally
  case failed =>
    rintro e w' hq (h | ⟨ht, ha, h⟩)
    · exact calm.faultless.untroubled h
    · have hne := (calm.free p hp ha).1
      have hpar := hs.parent calm hroot hp hne (by simp [ha]) (above ha)
      rcases h with h | h | h
      · exact not_blocked hs.wellFormed hpar h
      · exact h hpar
      · exact h (hs.waiting p hp ha hnew (by simp))

/-- The file phase names the files it skips and those whose mode it cannot
restore. -/
def namedFile (p : PlannedEntry) : Bool :=
  p.entry.type = .regularFile ∧ (p.action = .skip ∨ validModeMask < p.entry.posixMode)

/-- The bytes the file phase counts for an entry. -/
def fileBytes (p : PlannedEntry) : Nat :=
  if p.entry.type = .regularFile ∧ p.action ≠ .skip then p.entry.logicalSize else 0

theorem action_create (calm : Calm c plan t₀) (hp : p ∈ plan) (ht : p.entry.type ≠ .directory)
    (ha : p.action ≠ .skip) : p.action = .create := by
  cases h : p.action with
  | create => rfl
  | mergeDirectory => exact absurd (calm.merged p hp h).1 ht
  | replace => exact absurd h (calm.keeps p hp)
  | skip => exact absurd h ha

/-- The temporary of a file, by its name, its bytes and its stamp, since the
world `w` in front of it. -/
structure Lodged (c : Context) (plan : List PlannedEntry) (t₀ : Tree)
    (stands : PlannedEntry → Prop) (p : PlannedEntry) (w : World) (name : Name) (content : Bytes)
    (st : Stamp) (v : World) : Prop where
  create : p.action = .create
  placing : Placing c plan t₀ [c.parent p.entry ++ [name]] stands v.tree
  file : v.tree (c.parent p.entry ++ [name]) = some (.file content st)
  result : v.result = w.result
  sequence : v.sequence = w.sequence
  random : ∃ n, name = randomTemporaryName (c.host.entropy n)

theorem Lodged.touched {name : Name} {content content' : Bytes} {st st' : Stamp} {v : World}
    {t : Tree} (calm : Calm c plan t₀) (hp : p ∈ plan)
    (h : Lodged c plan t₀ stands p w name content st v)
    (he : Edit [c.parent p.entry ++ [name]] v.tree t)
    (hl : Local [c.parent p.entry ++ [name]] v.tree t)
    (hfile : t (c.parent p.entry ++ [name]) = some (.file content' st')) :
    Lodged c plan t₀ stands p w name content' st'
      (v.mutate [c.parent p.entry ++ [name]] t).tick := by
  obtain ⟨n, rfl⟩ := h.random
  refine { h with placing := ?_, file := hfile, random := ⟨n, rfl⟩ }
  apply h.placing.temporary he hl
  · rw [List.dropLast_concat]
    exact calm.parent_ours hp (calm.free p hp h.create).1
  · exact (calm.random p hp n).1
  · exact fun q hq _ _ => (calm.random p hp n).2 q hq
  · simp

theorem lodged_open (calm : Calm c plan t₀) (hp : p ∈ plan) (name : Name) :
    Open (c.parent p.entry ++ [name]) (Lodged c plan t₀ stands p w name) where
  steady content st v v' hq h :=
    { h with
      placing := by rw [hq.tree]; exact h.placing
      file := by rw [hq.tree]; exact h.file
      result := hq.result.trans h.result
      sequence := hq.sequence.trans h.sequence }
  file _ _ _ h := h.file
  append _ _ _ _ _ _ h ht := h.touched calm hp (append_edit ht) (append_local ht) (append_file h.file ht)
  restamp _ _ _ _ _ h ht :=
    h.touched calm hp (restamp_edit ht) (restamp_local ht) (restamped_file h.file ht)

theorem restoreFile_placing (calm : Calm c plan t₀) (hroot : IsDirectory t₀ c.root)
    (hp : p ∈ plan) (hs : Placing c plan t₀ [] stands w.tree)
    (hnew : p.entry.type = .regularFile → ¬ stands p)
    (above : ∀ d ∈ plan, d.entry.type = .directory → d.action = .create → stands d)
    (room : w.result.restoredBytes + fileBytes p ≤ maximumByteCount) :
    (restoreFile c p).wp
      (fun _ w' => Placing c plan t₀ []
          (fun q => stands q ∨ q = p ∧ p.entry.type = .regularFile) w'.tree ∧
        Tally w w' (if namedFile p then [p.entry.relativePath] else []) (fileBytes p) 0)
      (fun _ _ => False) w := by
  have ready := hs.ready calm hroot hp
  have untroubled := calm.faultless.untroubled
  have hdir : ∀ {v : World} {r : List Path}, Placing c plan t₀ r stands v.tree →
      p.action = .create → IsDirectory v.tree (c.parent p.entry) := by
    intro v r hpl ha
    exact hpl.parent calm hroot hp (calm.free p hp ha).1 (by simp [ha])
      (fun d hd hdt hda _ => above d hd hdt hda)
  have hcreate := action_create calm hp
  have same : ∀ w' : World, w'.tree = w.tree →
      ¬ (p.entry.type = .regularFile ∧ p.action = .create) →
      Placing c plan t₀ [] (fun q => stands q ∨ q = p ∧ p.entry.type = .regularFile) w'.tree := by
    intro w' ht hn
    rw [ht]
    apply hs.weaken
    intro q _ ha
    refine ⟨?_, Or.inl⟩
    rintro (h | ⟨rfl, h⟩)
    · exact h
    · exact absurd ⟨h, ha⟩ hn
  apply wp_restoreFile (J := Lodged c plan t₀ stands p w) ready (lodged_open calm hp)
  case good =>
    intro name content st v h
    exact ⟨h.placing.ready calm hroot hp, hdir h.placing h.create⟩
  case other =>
    intro hne
    exact ⟨same w rfl (fun h => hne h.1), by simpa [namedFile, fileBytes, hne] using Tally.refl w⟩
  case skipped =>
    intro w' hq ht ha
    refine ⟨same _ hq.tree (by simp [ha]), ?_⟩
    have := (Tally.of_result hq.result hq.sequence).skip p.entry.relativePath
      "destination file conflicts"
    simpa [namedFile, fileBytes, ht, ha] using this
  case opened =>
    intro w' t n now hq ht ha hd hc
    have hca := hcreate (by simp [ht]) ha
    have hdirect := ready.direct hd (randomTemporaryName (c.host.entropy n))
    refine ⟨hca, ?_, created_file hdirect hc, hq.result, hq.sequence, n, rfl⟩
    apply hs.temporary (create_edit hs.wellFormed hdirect hc) (create_local hdirect hc)
    · rw [List.dropLast_concat]
      exact calm.parent_ours hp (calm.free p hp hca).1
    · exact (calm.random p hp n).1
    · exact fun q hq _ _ => (calm.random p hp n).2 q hq
    · simp
  case published =>
    intro name parts st warning v t now h ht hread hwarn hren
    obtain ⟨n, rfl⟩ := h.random
    have ready' := h.placing.ready calm hroot hp
    have hv := ready'.safe (by simp [ht])
    have hd := hdir h.placing h.create
    have hne := ((calm.random p hp n).2 p hp).symm
    obtain ⟨last, hlast, _⟩ := destination_eq (c := c) hv
    have hdirect := ready'.direct hd (randomTemporaryName (c.host.entropy n))
    have hdest : Direct v.tree (c.destination p.entry) := by
      rw [hlast]
      exact ready'.direct hd last
    have hgone := renamed_source hdirect hdest hne hren
    have hplaced : Placing c plan t₀ [] (fun q => stands q ∨ q = p) t := by
      apply h.placing.publish calm hp hv h.create (fun q hq _ _ => (calm.random p hp n).2 q hq) hne
        (rename_edit h.placing.wellFormed hdirect hdest hren) (rename_local hdirect hdest hren)
        (calm.random p hp n).1 (renamed_node hdirect hdest h.file hren) ?_ hgone
      unfold Restored
      simp only [ht]
      refine ⟨_, _, rfl, hread.verified, ?_⟩
      intro hmask
      rcases hwarn with ⟨_, _, time, hst⟩ | ⟨_, hx | hx⟩
      · exact ⟨_, hst⟩
      · exact absurd hx untroubled
      · omega
    constructor
    · intro v' hrec
      have htree : v'.tree = t := hrec.tree
      have hclear : Direct v'.tree (c.parent p.entry ++ [randomTemporaryName (c.host.entropy n)]) := by
        rw [htree]
        exact Direct.entry hplaced.wellFormed ready'.plain_parent
          ((rename_edit h.placing.wellFormed hdirect hdest hren).directories _ hd) _
      have hquiet := removeQuietly_missing (h := c.host) (w := v') (by rw [htree]; exact hgone)
        (fun q hq => (Except.ok.inj (hclear.symm.trans hq)).symm)
      refine ⟨?_, ?_⟩
      · rw [hquiet.tree, htree]
        exact hplaced.weaken (fun q _ _ => by simp [ht])
      · have hbytes : fileBytes p = p.entry.logicalSize := by simp [fileBytes, ht, h.create]
        have hnamed : (if namedFile p then [p.entry.relativePath] else []) =
            if warning = none then [] else [p.entry.relativePath] := by
          rcases hwarn with ⟨rfl, hmask, _⟩ | ⟨hwarning, hx⟩
          · simp [namedFile, h.create, hmask]
          · simp [namedFile, ht, hx.resolve_left untroubled, hwarning]
        rw [hbytes, hnamed]
        have hstart : ∀ paths, Tally w (v.mutate paths t).tick [] 0 0 :=
          fun _ => Tally.of_result h.result h.sequence
        simpa using ((hstart _).trans hrec.tally).trans
          (Tally.of_result hquiet.result hquiet.sequence)
    · rintro e v' _ (hx | hx)
      · exact untroubled hx
      · rw [h.result] at hx
        have hbytes : fileBytes p = p.entry.logicalSize := by simp [fileBytes, ht, h.create]
        omega
  case refused =>
    intro name content st v h ht _ hx
    exfalso
    obtain ⟨n, rfl⟩ := h.random
    apply hx
    exact h.placing.waiting p hp h.create (hnew ht)
      (fun hm => (calm.random p hp n).2 p hp (List.mem_singleton.mp hm))
  case broken =>
    rintro name content st v e h ht (hx | hx | hx | hx | hx)
    · exact untroubled hx
    · obtain ⟨parts, hparts⟩ := calm.readable p hp ht
      exact hx parts hparts
    · have : p.entry.logicalSize ≤ maximumByteCount := by
        simp only [fileBytes, ht, h.create, true_and] at room
        exact Nat.le_trans (Nat.le_add_left _ _) room
      omega
    · exact not_blocked h.placing.wellFormed (hdir h.placing h.create) hx
    · exact calm.keeps p hp hx.1
  case failed =>
    rintro e w' hq (hx | ⟨ht, ha, hx⟩)
    · exact untroubled hx
    · have hca := hcreate (by simp [ht]) ha
      rcases hx with hx | hx | ⟨n, hx⟩
      · exact not_blocked hs.wellFormed (hdir hs hca) hx
      · exact hx (hdir hs hca)
      · apply hx
        rw [hs.elsewhere _ (by simp) (calm.random_elsewhere hp n)]
        exact (calm.random p hp n).1

/-- A link was skipped, or its temporary drew the first free number: a name next
to it, or its own one, and then nothing is restored. -/
inductive LinkOutcome (c : Context) (plan : List PlannedEntry) (t₀ : Tree)
    (stands : PlannedEntry → Prop) (p : PlannedEntry) (w w' : World) : Prop
  | other : p.entry.type ≠ .symbolicLink → Placing c plan t₀ [] stands w'.tree →
      Tally w w' [] 0 0 → LinkOutcome c plan t₀ stands p w w'
  | skipped : p.entry.type = .symbolicLink → p.action = .skip →
      Placing c plan t₀ [] stands w'.tree → Tally w w' [p.entry.relativePath] 0 0 →
      LinkOutcome c plan t₀ stands p w w'
  | placed (k : Nat) : p.entry.type = .symbolicLink → p.action = .create → k < 100 →
      (∀ j, j < k → w.tree (linkTemporary c p (w.sequence + j)) ≠ none) →
      w.tree (linkTemporary c p (w.sequence + k)) = none →
      linkTemporary c p (w.sequence + k) ≠ c.destination p.entry →
      Placing c plan t₀ [] (fun q => stands q ∨ q = p) w'.tree → Tally w w' [] 0 (k + 1) →
      LinkOutcome c plan t₀ stands p w w'
  | lost (k : Nat) : p.entry.type = .symbolicLink → p.action = .create → k < 100 →
      (∀ j, j < k → w.tree (linkTemporary c p (w.sequence + j)) ≠ none) →
      linkTemporary c p (w.sequence + k) = c.destination p.entry →
      Placing c plan t₀ [] stands w'.tree → Tally w w' [p.entry.relativePath] 0 (k + 1) →
      LinkOutcome c plan t₀ stands p w w'

/-- The temporary of a link, since the world `w` in front of it. -/
structure Hung (c : Context) (plan : List PlannedEntry) (t₀ : Tree)
    (stands : PlannedEntry → Prop) (p : PlannedEntry) (w : World) (number : Nat) (target : Bytes)
    (v : World) : Prop where
  type : p.entry.type = .symbolicLink
  create : p.action = .create
  placing : Placing c plan t₀ [linkTemporary c p number] stands v.tree
  link : v.tree (linkTemporary c p number) = some (.link target)
  near : ∃ k, k < 100 ∧ number = w.sequence + k ∧ Tally w v [] 0 (k + 1) ∧
    ∀ j, j < k → w.tree (linkTemporary c p (w.sequence + j)) ≠ none
  free : w.tree (linkTemporary c p number) = none
  target : p.entry.symlinkTarget = some target

theorem restoreLink_placing (calm : Calm c plan t₀) (hroot : IsDirectory t₀ c.root)
    (hp : p ∈ plan) (hs : Placing c plan t₀ [] stands w.tree)
    (hnew : p.entry.type = .symbolicLink → ¬ stands p)
    (above : ∀ d ∈ plan, d.entry.type = .directory → d.action = .create → stands d) :
    (restoreLink c p).wp (fun _ w' => LinkOutcome c plan t₀ stands p w w')
      (fun _ _ => p.entry.type = .symbolicLink ∧ p.action = .create ∧
        ∀ j, j < 100 → w.tree (linkTemporary c p (w.sequence + j)) ≠ none) w := by
  have ready := hs.ready calm hroot hp
  have untroubled := calm.faultless.untroubled
  have hdir : ∀ {v : World} {r : List Path}, Placing c plan t₀ r stands v.tree →
      p.action = .create → IsDirectory v.tree (c.parent p.entry) := by
    intro v r hpl ha
    exact hpl.parent calm hroot hp (calm.free p hp ha).1 (by simp [ha])
      (fun d hd hdt hda _ => above d hd hdt hda)
  -- nothing that stands is in the way of a free name
  have apart : ∀ {r : Path}, w.tree r = none → ∀ q ∈ plan, q.action = .create → stands q →
      c.destination q.entry ≠ r := by
    rintro r hr q hq ha hst rfl
    obtain ⟨n, hn, _⟩ := hs.standing q hq ha hst
    rw [hr] at hn
    cases hn
  apply wp_restoreLink (J := Hung c plan t₀ stands p w) ready
  case steady =>
    intro number target v v' hq h
    obtain ⟨k, hk, hnum, htally, htaken⟩ := h.near
    have htally' : Tally w v' [] 0 (k + 1) := by
      simpa using htally.trans (Tally.of_result hq.result hq.sequence)
    exact { h with
      placing := by rw [hq.tree]; exact h.placing
      link := by rw [hq.tree]; exact h.link
      near := ⟨k, hk, hnum, htally', htaken⟩ }
  case good =>
    intro number target v h
    exact ⟨h.placing.ready calm hroot hp, hdir h.placing h.create, h.link⟩
  case other => exact fun hne => .other hne hs (Tally.refl w)
  case skipped =>
    intro w' hq ht ha
    refine .skipped ht ha (by rw [show (w'.skip _ _).tree = w.tree from hq.tree]; exact hs) ?_
    simpa using (Tally.of_result hq.result hq.sequence).skip p.entry.relativePath
      "destination symbolic link conflicts"
  case made =>
    intro k target v t now ht ha htarget hk htaken hfree hd hdrawn hc
    have hca := action_create calm hp (by simp [ht]) ha
    have hdirect := ready.direct hd (sequenceName (w.sequence + k))
    refine ⟨ht, hca, ?_, created_link hdirect hc, ⟨k, hk, rfl, ?_, htaken⟩, hfree, htarget⟩
    · apply hs.temporary (create_edit hs.wellFormed hdirect hc) (create_local hdirect hc)
      · rw [List.dropLast_concat]
        exact calm.parent_ours hp (calm.free p hp hca).1
      · exact hs.missing hfree
      · exact apart hfree
      · simp
    · refine ⟨?_, ?_, ?_⟩
      · simp [World.skippedNames, World.mutate, World.tick, hdrawn.result]
      · simp [World.mutate, World.tick, hdrawn.result]
      · exact hdrawn.sequence
  case published =>
    intro number target v t now h htarget hren v' hq
    obtain ⟨k, hk, rfl, htally, htaken⟩ := h.near
    have ready' := h.placing.ready calm hroot hp
    have hv := ready'.safe (by simp [h.type])
    have hd := hdir h.placing h.create
    obtain ⟨last, hlast, _⟩ := destination_eq (c := c) hv
    have hdirect := ready'.direct hd (sequenceName (w.sequence + k))
    have hdest : Direct v.tree (c.destination p.entry) := by
      rw [hlast]
      exact ready'.direct hd last
    -- a move onto itself is refused without replacement
    have hne : linkTemporary c p (w.sequence + k) ≠ c.destination p.entry := by
      intro he
      obtain ⟨_, _, _, _, hfree, _⟩ := rename_direct hdirect hdest hren
      have := hfree (by simp [h.create])
      rw [← he, h.link] at this
      cases this
    have hgone := renamed_source hdirect hdest hne hren
    have hplaced : Placing c plan t₀ [] (fun q => stands q ∨ q = p) t := by
      apply h.placing.publish calm hp hv h.create (apart h.free) hne
        (rename_edit h.placing.wellFormed hdirect hdest hren) (rename_local hdirect hdest hren)
        (hs.missing h.free) (renamed_node hdirect hdest h.link hren) ?_ hgone
      unfold Restored
      simp only [h.type]
      exact ⟨target, htarget, rfl⟩
    have htree : v'.countLink.tree = t := hq.tree
    have hclear : Direct v'.countLink.tree (linkTemporary c p (w.sequence + k)) := by
      rw [htree]
      exact Direct.entry hplaced.wellFormed ready'.plain_parent
        ((rename_edit h.placing.wellFormed hdirect hdest hren).directories _ hd) _
    have hquiet := removeQuietly_missing (h := c.host) (w := v'.countLink)
      (by rw [htree]; exact hgone) (fun q hx => (Except.ok.inj (hclear.symm.trans hx)).symm)
    refine ⟨.placed k h.type h.create hk htaken h.free hne ?_ ?_, fun _ hx => absurd hx untroubled⟩
    · rw [hquiet.tree, htree]
      exact hplaced
    · have hmoved : ∀ paths, Tally w (v.mutate paths t).tick [] 0 (k + 1) :=
        fun _ => htally.seen rfl rfl rfl
      have hcount : Tally w v'.countLink ([] ++ []) (0 + 0) (k + 1 + 0) :=
        ((hmoved _).trans (Tally.of_result hq.result hq.sequence)).seen rfl rfl rfl
      simpa using hcount.trans (Tally.of_result hquiet.result hquiet.sequence)
  case refused =>
    intro number target v h _ hx
    obtain ⟨k, hk, rfl, htally, htaken⟩ := h.near
    -- only its own temporary can stand where nothing stood before
    have hown : linkTemporary c p (w.sequence + k) = c.destination p.entry := by
      by_contra hne
      exact hx (h.placing.waiting p hp h.create (hnew h.type) (by simpa using Ne.symm hne))
    have ready' := h.placing.ready calm hroot hp
    have hdirect : Direct v.tree (linkTemporary c p (w.sequence + k)) :=
      ready'.direct (hdir h.placing h.create) _
    have hplain : ¬ IsDirectory v.tree (linkTemporary c p (w.sequence + k)) := by
      rintro ⟨st, hst⟩
      rw [h.link] at hst
      cases hst
    have hskip := htally.skip p.entry.relativePath "destination appeared during restore"
    rcases removeQuietly_cases (h := c.host)
        (w := v.skip p.entry.relativePath "destination appeared during restore") hdirect hplain with
      ⟨_, ⟨n, hn⟩ | hn⟩ | ⟨t, now, ht, he⟩
    · rw [calm.faultless.removal n] at hn
      cases hn
    · exact absurd (h.link.symm.trans hn) (by simp)
    · rw [he]
      refine .lost k h.type h.create hk htaken hown ?_ ?_
      · have hgone : Placing c plan t₀ [linkTemporary c p (w.sequence + k)] stands t := by
          apply h.placing.temporary (unlink_edit hdirect ht) (unlink_local hdirect ht)
          · rw [List.dropLast_concat]
            exact calm.parent_ours hp (calm.free p hp h.create).1
          · exact hs.missing h.free
          · exact apart h.free
          · simp
        exact hgone.close (unlinked_none hdirect ht)
      · exact hskip.seen rfl rfl rfl
  case broken =>
    rintro number target v e h (hx | hx | hx)
    · exact absurd hx untroubled
    · exact absurd hx (not_blocked h.placing.wellFormed (hdir h.placing h.create))
    · exact absurd hx.1 (calm.keeps p hp)
  case failed =>
    rintro e w' hq (hx | ⟨ht, ha, hx⟩)
    · exact absurd hx untroubled
    · have hca := action_create calm hp (by simp [ht]) ha
      obtain ⟨target, htarget, hne⟩ := calm.targets p hp ht
      rcases hx with hx | hx | hx | hx | hx
      · exact absurd hx (not_blocked hs.wellFormed (hdir hs hca))
      · exact absurd (hdir hs hca) hx
      · rw [htarget] at hx
        cases hx
      · rw [htarget] at hx
        exact absurd (Option.some.inj hx) hne
      · exact ⟨ht, hca, hx⟩

/-- The metadata pass names the directories whose mode it cannot restore. -/
def unstampedDirectory (p : PlannedEntry) : Bool :=
  p.entry.type = .directory ∧ p.action ≠ .skip ∧ validModeMask < p.entry.posixMode

/-- A directory under its new stamps, since the world `w` in front of the pass. -/
structure Stamping (c : Context) (plan : List PlannedEntry) (t₀ : Tree)
    (stands : PlannedEntry → Prop) (p : PlannedEntry) (w : World) (st : Stamp) (v : World) :
    Prop where
  placing : Placing c plan t₀ [] stands v.tree
  directory : v.tree (c.destination p.entry) = some (.directory st)
  others : ∀ q ∈ plan, q ≠ p → v.tree (c.destination q.entry) = w.tree (c.destination q.entry)
  result : v.result = w.result
  sequence : v.sequence = w.sequence
  type : p.entry.type = .directory
  allowed : p.action ≠ .skip

theorem Stamping.stamped {st : Stamp} {f : Stamp → Stamp} {v : World} {t : Tree}
    (calm : Calm c plan t₀) (hp : p ∈ plan) (hst : p.action = .create → stands p)
    (h : Stamping c plan t₀ stands p w st v)
    (ht : restamp v.tree (c.destination p.entry) f = .ok t) :
    Stamping c plan t₀ stands p w (f st) (v.mutate [c.destination p.entry] t).tick := by
  have he := restamp_edit ht
  rw [restamp_directory h.directory] at ht
  cases ht
  refine { h with placing := ?_, directory := set_same _ _ _, others := ?_ }
  · refine h.placing.edit he ?_ ?_ ?_ ?_ (fun _ _ _ _ => Iff.rfl) (fun _ hm _ => hm)
    · exact fun r hm => Or.inr (Or.inr ⟨p, hp, List.mem_singleton.mp hm⟩)
    · intro r _ ho
      exact set_other _ _ (fun hr => ho (Or.inr ⟨p, hp, hr⟩))
    · intro r hm n hx hn
      rw [List.mem_singleton.mp hm] at hx
      have := h.placing.kept _ n hx hn
      rw [h.directory] at this
      exact absurd (Option.some.inj this).symm (hn st)
    · intro q hq ha hm
      obtain rfl := calm.destination_inj hp hq (List.mem_singleton.mp hm)
      refine ⟨fun _ => ⟨_, set_same _ _ _, ?_⟩, fun hn => absurd (hst ha) hn⟩
      unfold Restored
      simp only [h.type]
      exact ⟨_, rfl⟩
  · intro q hq hne
    have hd : c.destination q.entry ≠ c.destination p.entry :=
      fun hd => hne (calm.destination_inj hp hq hd)
    exact (set_other _ _ hd).trans (h.others q hq hne)

theorem restoreDirectoryMetadata_placing (calm : Calm c plan t₀) (hroot : IsDirectory t₀ c.root)
    (hp : p ∈ plan) (hs : Placing c plan t₀ [] stands w.tree)
    (above : ∀ d ∈ plan, d.entry.type = .directory → d.action = .create → stands d) :
    (restoreDirectoryMetadata c p).wp
      (fun _ w' => Placing c plan t₀ [] stands w'.tree ∧
        Tally w w' (if unstampedDirectory p then [p.entry.relativePath] else []) 0 0 ∧
        (∀ q ∈ plan, q ≠ p → w'.tree (c.destination q.entry) = w.tree (c.destination q.entry)) ∧
        (p.entry.type = .directory → p.action ≠ .skip → p.entry.posixMode ≤ validModeMask →
          ∃ old, w'.tree (c.destination p.entry) =
            some (.directory (stampOf p.entry.modifiedTimeNs p.entry.posixMode old))))
      (fun _ _ => False) w := by
  have untroubled := calm.faultless.untroubled
  have hallowed := calm.allowed p hp
  apply wp_restoreDirectoryMetadata (J := Stamping c plan t₀ stands p w)
    (hs.ready calm hroot hp)
  case steady =>
    intro st v v' hq h
    exact { h with
      placing := by rw [hq.tree]; exact h.placing
      directory := by rw [hq.tree]; exact h.directory
      others := fun q hm hne => by rw [hq.tree]; exact h.others q hm hne
      result := hq.result.trans h.result
      sequence := hq.sequence.trans h.sequence }
  case good =>
    exact fun st v h => ⟨h.placing.ready calm hroot hp, h.directory⟩
  case other =>
    intro hx
    have hno : ¬ (p.entry.type = .directory ∧ p.action ≠ .skip) := by
      rintro ⟨ht, ha⟩
      rcases hx with hx | hx
      · exact hx ht
      · simp [hallowed, ha] at hx
    refine ⟨hs, ?_, fun _ _ _ => rfl, fun ht ha => absurd ⟨ht, ha⟩ hno⟩
    have : unstampedDirectory p = false := by
      simp only [unstampedDirectory, decide_eq_false_iff_not]
      exact fun h => hno ⟨h.1, h.2.1⟩
    simpa [this] using Tally.refl w
  case begun =>
    intro st w' hq ht ha hd
    have hskip : p.action ≠ .skip := by simpa [hallowed] using ha
    refine ⟨by rw [hq.tree]; exact hs, by rw [hq.tree]; exact hd, fun _ _ _ => by rw [hq.tree],
      hq.result, hq.sequence, ht, hskip⟩
  case stamped =>
    intro st f v t h ht
    exact h.stamped calm hp (above p hp h.type) ht
  case done =>
    intro st v hd hmask h
    refine ⟨h.placing, ?_, h.others, fun _ _ _ => ⟨st, h.directory⟩⟩
    have : unstampedDirectory p = false := by simp [unstampedDirectory, hmask]
    simpa [this] using Tally.of_result h.result h.sequence
  case warned =>
    intro st v message h hx
    have hmask := hx.resolve_left untroubled
    refine ⟨h.placing, ?_, h.others, fun _ _ hle => by omega⟩
    have : unstampedDirectory p = true := by simp [unstampedDirectory, h.type, h.allowed, hmask]
    simpa [this] using (Tally.of_result h.result h.sequence).skip p.entry.relativePath
      ("directory restored; metadata not fully restored: " ++ message)
  case failed =>
    rintro e w' hq (hx | ⟨ht, ha, hx⟩)
    · exact untroubled hx
    · have hskip : p.action ≠ .skip := by simpa [hallowed] using ha
      have hd := hs.directory calm hp ht hskip (above p hp ht)
      rcases hx with hx | hx
      · have hpar : IsDirectory w.tree (c.parent p.entry) := by
          rcases calm.valid p hp with ⟨hr, _⟩ | hv
          · simpa [Context.parent, parentComponents, components, hr, names, pieces] using
              hs.directories _ hroot
          · obtain ⟨n, hn, _⟩ := destination_eq (c := c) hv
            rw [hn] at hd
            exact hs.wellFormed.ancestors hd
        exact not_blocked hs.wellFormed hpar hx
      · exact hx hd

end Steps

/-- The stored paths of the entries a phase names. -/
def namesOf (named : PlannedEntry → Bool) (ps : List PlannedEntry) : List Bytes :=
  (ps.filter named).map (fun p => p.entry.relativePath)

theorem namesOf_append (named : PlannedEntry → Bool) (ps : List PlannedEntry) (p : PlannedEntry) :
    namesOf named (ps ++ [p]) =
      namesOf named ps ++ if named p then [p.entry.relativePath] else [] := by
  unfold namesOf
  cases h : named p <;> simp [List.filter_append, h]

section Loops

variable {c : Context} {plan : List PlannedEntry} {t₀ : Tree} {w : World}

/-- In the order of the plan a parent comes first. -/
theorem Calm.parent_before (calm : Calm c plan t₀) {before after : List PlannedEntry}
    {p d : PlannedEntry} (he : plan = before ++ p :: after) (hd : d ∈ plan)
    (hne : p.entry.relativePath ≠ [])
    (hc : components d.entry.relativePath = parentComponents p.entry.relativePath) :
    d ∈ before := by
  have hv : isSafeStoredPath p.entry.relativePath = true := by
    rcases calm.valid p (by simp [he]) with ⟨h, _⟩ | h
    · exact absurd h hne
    · exact h
  have hlt : pathDepth d.entry.relativePath < pathDepth p.entry.relativePath := by
    have hlen := List.length_pos_of_ne_nil (safe_components hv).2.1
    simp only [pathDepth, hc, parentComponents, List.length_dropLast]
    omega
  have hord := calm.ordered
  rw [he, List.pairwise_append] at hord
  rw [he] at hd
  rcases List.mem_append.mp hd with h | h
  · exact h
  · exfalso
    rcases List.mem_cons.mp h with rfl | h
    · exact Nat.lt_irrefl _ hlt
    · have := (List.pairwise_cons.mp hord.2.1).1 d h
      omega

theorem Calm.not_done (calm : Calm c plan t₀) {done rest : List PlannedEntry} {p : PlannedEntry}
    (he : plan = done ++ p :: rest) : p ∉ done := by
  have hn := calm.nodup
  rw [he] at hn
  exact fun hm => (List.nodup_append.mp hn).2.2 p hm p (by simp) rfl

theorem directories_placing (calm : Calm c plan t₀) (hroot : IsDirectory t₀ c.root)
    (hs : Placing c plan t₀ [] (fun _ => False) w.tree) :
    (Program.each (restoreDirectory c) plan).wp
      (fun _ w' => Placing c plan t₀ [] (fun q => q.entry.type = .directory) w'.tree ∧
        Tally w w' (namesOf skippedDirectory plan) 0 0) (fun _ _ => False) w := by
  have hloop := wp_each (f := restoreDirectory c) (s := w) (E := fun _ _ => False)
    (fun done _ w' => Placing c plan t₀ [] (fun q => q.entry.type = .directory ∧ q ∈ done) w'.tree ∧
      Tally w w' (namesOf skippedDirectory done) 0 0) plan
    ⟨hs.weaken (by simp), by simpa [namesOf] using Tally.refl w⟩ ?_
  · refine wp_mono hloop ?_ (fun _ _ h => h)
    rintro _ w' ⟨hpl, ht⟩
    exact ⟨hpl.weaken (fun q hq _ => by simp [hq]), ht⟩
  · rintro done p rest he v ⟨hpl, ht⟩
    have hp : p ∈ plan := by simp [he]
    have hstep := restoreDirectory_placing calm hroot hp hpl (fun h => calm.not_done he h.2) ?_
    · refine wp_mono hstep ?_ (fun _ _ h => h)
      rintro _ v' ⟨hpl', ht'⟩
      refine ⟨hpl'.weaken ?_, ?_⟩
      · intro q _ _
        constructor
        · rintro ⟨hq, hm⟩
          rcases List.mem_append.mp hm with hm | hm
          · exact Or.inl ⟨hq, hm⟩
          · rw [List.mem_singleton.mp hm] at hq ⊢
            exact Or.inr ⟨rfl, hq⟩
        · rintro (⟨hq, hm⟩ | ⟨rfl, hq⟩)
          · exact ⟨hq, List.mem_append_left _ hm⟩
          · exact ⟨hq, by simp⟩
      · simpa [namesOf_append] using ht.trans ht'
    · exact fun ha d hd hdt _ hc => ⟨hdt, calm.parent_before he hd (calm.free p hp ha).1 hc⟩

theorem files_placing (calm : Calm c plan t₀) (hroot : IsDirectory t₀ c.root)
    (hs : Placing c plan t₀ [] (fun q => q.entry.type = .directory) w.tree)
    (room : w.result.restoredBytes + (plan.map fileBytes).sum ≤ maximumByteCount) :
    (Program.each (restoreFile c) plan).wp
      (fun _ w' => Placing c plan t₀ [] (fun q => q.entry.type ≠ .symbolicLink) w'.tree ∧
        Tally w w' (namesOf namedFile plan) (plan.map fileBytes).sum 0) (fun _ _ => False) w := by
  have hloop := wp_each (f := restoreFile c) (s := w) (E := fun _ _ => False)
    (fun done _ w' => Placing c plan t₀ [] (fun q => q.entry.type = .directory ∨
        q.entry.type = .regularFile ∧ q ∈ done) w'.tree ∧
      Tally w w' (namesOf namedFile done) (done.map fileBytes).sum 0) plan
    ⟨hs.weaken (by simp), by simpa [namesOf] using Tally.refl w⟩ ?_
  · refine wp_mono hloop ?_ (fun _ _ h => h)
    rintro _ w' ⟨hpl, ht⟩
    refine ⟨hpl.weaken (fun q hq _ => ?_), ht⟩
    cases h : q.entry.type <;> simp [hq]
  · rintro done p rest he v ⟨hpl, ht⟩
    have hp : p ∈ plan := by simp [he]
    have hroom : v.result.restoredBytes + fileBytes p ≤ maximumByteCount := by
      rw [he] at room
      simp only [List.map_append, List.map_cons, List.sum_append, List.sum_cons] at room
      rw [ht.bytes]
      omega
    have hnew : p.entry.type = .regularFile →
        ¬ (p.entry.type = .directory ∨ p.entry.type = .regularFile ∧ p ∈ done) := by
      rintro hfile (h | ⟨_, h⟩)
      · simp [hfile] at h
      · exact calm.not_done he h
    refine wp_mono (restoreFile_placing calm hroot hp hpl hnew (fun d _ hdt _ => Or.inl hdt) hroom)
      ?_ (fun _ _ h => h)
    rintro _ v' ⟨hpl', ht'⟩
    refine ⟨hpl'.weaken ?_, ?_⟩
    · intro q _ _
      constructor
      · rintro (hq | ⟨hq, hm⟩)
        · exact Or.inl (Or.inl hq)
        · rcases List.mem_append.mp hm with hm | hm
          · exact Or.inl (Or.inr ⟨hq, hm⟩)
          · rw [List.mem_singleton.mp hm] at hq ⊢
            exact Or.inr ⟨rfl, hq⟩
      · rintro ((hq | ⟨hq, hm⟩) | ⟨rfl, hq⟩)
        · exact Or.inl hq
        · exact Or.inr ⟨hq, List.mem_append_left _ hm⟩
        · exact Or.inr ⟨hq, by simp⟩
    · simpa [namesOf_append] using ht.trans ht'

/-- The stamp of every directory that was not skipped. -/
def Stamped (c : Context) (t : Tree) (p : PlannedEntry) : Prop :=
  p.entry.type = .directory → p.action ≠ .skip → p.entry.posixMode ≤ validModeMask →
    ∃ old, t (c.destination p.entry) =
      some (.directory (stampOf p.entry.modifiedTimeNs p.entry.posixMode old))

theorem metadata_placing {stands : PlannedEntry → Prop} (calm : Calm c plan t₀)
    (hroot : IsDirectory t₀ c.root) (hs : Placing c plan t₀ [] stands w.tree)
    (above : ∀ d ∈ plan, d.entry.type = .directory → d.action = .create → stands d)
    {order : List PlannedEntry} (hperm : order.Perm plan) :
    (Program.each (restoreDirectoryMetadata c) order).wp
      (fun _ w' => Placing c plan t₀ [] stands w'.tree ∧
        Tally w w' (namesOf unstampedDirectory order) 0 0 ∧ ∀ p ∈ plan, Stamped c w'.tree p)
      (fun _ _ => False) w := by
  have hloop := wp_each (f := restoreDirectoryMetadata c) (s := w) (E := fun _ _ => False)
    (fun done _ w' => Placing c plan t₀ [] stands w'.tree ∧
      Tally w w' (namesOf unstampedDirectory done) 0 0 ∧ ∀ p ∈ done, Stamped c w'.tree p) order
    ⟨hs, by simpa [namesOf] using Tally.refl w, by simp⟩ ?_
  · refine wp_mono hloop ?_ (fun _ _ h => h)
    rintro _ w' ⟨hpl, ht, hst⟩
    exact ⟨hpl, ht, fun p hp => hst p (hperm.mem_iff.mpr hp)⟩
  · rintro done p rest he v ⟨hpl, ht, hst⟩
    have hmem : ∀ q ∈ order, q ∈ plan := fun q hq => hperm.mem_iff.mp hq
    have hp : p ∈ plan := hmem p (by simp [he])
    refine wp_mono (restoreDirectoryMetadata_placing calm hroot hp hpl above) ?_ (fun _ _ h => h)
    rintro _ v' ⟨hpl', ht', hothers, hown⟩
    refine ⟨hpl', by simpa [namesOf_append] using ht.trans ht', ?_⟩
    intro q hq
    by_cases hqp : q = p
    · rw [hqp]
      exact hown
    · have hq' : q ∈ done := by simpa [hqp] using hq
      unfold Stamped
      rw [hothers q (hmem q (by simp [he, hq'])) hqp]
      exact hst q hq'

end Loops
end LocalVault.Restore
