import LocalVault.Restore.Engine

namespace LocalVault.Restore
open Library Library.FileTree Library.Program

/-- Nothing but the number of calls has moved. -/
structure Quiet (w w' : World) : Prop where
  tree : w'.tree = w.tree
  mutations : w'.mutations = w.mutations
  sequence : w'.sequence = w.sequence
  result : w'.result = w.result
  reports : w'.reports = w.reports

theorem Quiet.refl (w : World) : Quiet w w := ⟨rfl, rfl, rfl, rfl, rfl⟩

theorem Quiet.tick (w : World) : Quiet w w.tick := ⟨rfl, rfl, rfl, rfl, rfl⟩

theorem Quiet.trans {u v w : World} (h : Quiet u v) (k : Quiet v w) : Quiet u w :=
  ⟨k.tree.trans h.tree, k.mutations.trans h.mutations, k.sequence.trans h.sequence,
    k.result.trans h.result, k.reports.trans h.reports⟩

/-- No system call fails for a reason outside the tree, no callback raises and
nobody asks to stop. -/
structure Faultless (h : Host) : Prop where
  fault : ∀ n, h.fault n = none
  stop : ∀ n, h.stopRequested n = false
  raises : ∀ n, h.raises n = none
  removal : ∀ n, h.removalFails n = false

/-- Something outside the tree has gone wrong: a call failed, somebody asked to
stop, or a callback raised. -/
def Troubled (h : Host) : Prop :=
  (∃ n text, h.fault n = some text) ∨ (∃ n, h.stopRequested n = true) ∨
    ∃ n e, h.raises n = some e

theorem Faultless.untroubled {h : Host} (hf : Faultless h) : ¬ Troubled h := by
  rintro (⟨n, text, hn⟩ | ⟨n, hn⟩ | ⟨n, e, hn⟩)
  · simp [hf.fault n] at hn
  · simp [hf.stop n] at hn
  · simp [hf.raises n] at hn

section Calls

variable {h : Host} {w : World} {α : Type}

theorem wp_observe {look : Tree → Except Errno α} {Q : Except Errno α → World → Prop}
    {E : LocalVaultError → World → Prop}
    (seen : ∀ w', Quiet w w' → Q (look w.tree) w')
    (failed : ∀ text w', Troubled h → Quiet w w' → Q (.error (.other text)) w') :
    (observe h look).wp Q E w := by
  unfold wp observe
  cases hf : h.fault w.calls with
  | none => exact seen _ (Quiet.tick w)
  | some text => exact failed text _ (Or.inl ⟨_, text, hf⟩) (Quiet.tick w)

theorem wp_mutate {paths : List Path} {change : Tree → Int → Except Errno Tree}
    {Q : Except Errno Unit → World → Prop} {E : LocalVaultError → World → Prop}
    (done : ∀ t, change w.tree (h.clock w.calls) = .ok t → Q (.ok ()) (w.mutate paths t).tick)
    (refused : ∀ e w', change w.tree (h.clock w.calls) = .error e → Quiet w w' →
      Q (.error e) w')
    (failed : ∀ text w', Troubled h → Quiet w w' → Q (.error (.other text)) w') :
    (mutate h paths change).wp Q E w := by
  unfold wp mutate
  cases hf : h.fault w.calls with
  | some text => exact failed text _ (Or.inl ⟨_, text, hf⟩) (Quiet.tick w)
  | none =>
    dsimp only
    cases hc : change w.tree (h.clock w.calls) with
    | error e => exact refused e _ hc (Quiet.tick w)
    | ok t => exact done t hc

theorem wp_callback {Q : Unit → World → Prop} {E : LocalVaultError → World → Prop}
    (returned : ∀ w', Quiet w w' → Q () w')
    (raised : ∀ e w', Troubled h → Quiet w w' → E e w') :
    (callback h).wp Q E w := by
  unfold wp callback
  cases hf : h.raises w.calls with
  | none => exact returned _ (Quiet.tick w)
  | some e => exact raised e _ (Or.inr (Or.inr ⟨_, e, hf⟩)) (Quiet.tick w)

theorem wp_checkCancelled {path : Path} {Q : Unit → World → Prop}
    {E : LocalVaultError → World → Prop}
    (passed : ∀ w', Quiet w w' → Q () w')
    (stopped : ∀ e w', Troubled h → Quiet w w' → E e w') :
    (checkCancelled h path).wp Q E w := by
  unfold checkCancelled
  simp only [wp_bind, wp_read]
  split
  · rename_i hs
    exact stopped _ _ (Or.inr (Or.inl ⟨_, hs⟩)) (Quiet.refl w)
  · exact passed _ (Quiet.tick w)

theorem wp_flush {message : String} {path : Path} {Q : Unit → World → Prop}
    {E : LocalVaultError → World → Prop}
    (flushed : ∀ w', Quiet w w' → Q () w')
    (failed : ∀ e w', Troubled h → Quiet w w' → E e w') :
    (flush h message path).wp Q E w := by
  unfold flush
  rw [wp_bind]
  apply wp_observe
  · exact fun w' hq => flushed w' hq
  · exact fun _ w' ht hq => failed _ w' ht hq

/-- What `lstat` says when the parent of the path is a directory. -/
def statusAt : Option Node → NoFollowPathType
  | none => .notFound
  | some node => noFollowPathType node

/-- The path names what stands in the tree there. -/
def Visible (t : Tree) (p : Path) : Prop :=
  lstat t p = match t p with
    | none => .error .noEntry
    | some node => .ok node

theorem visible_entry {t : Tree} {d : Path} (hw : WellFormed t) (hp : Plain d)
    (hd : IsDirectory t d) (n : Name) : Visible t (d ++ [n]) :=
  lstat_entry hw hp hd n

theorem visible_directory {t : Tree} {d : Path} (hw : WellFormed t) (hp : Plain d)
    (hd : IsDirectory t d) : Visible t d := by
  rcases List.eq_nil_or_concat d with rfl | ⟨p, n, rfl⟩
  · obtain ⟨st, hst⟩ := hw.root
    simp [Visible, lstat, entryPath, hst]
  · rw [List.concat_eq_append] at hp hd ⊢
    exact visible_entry hw hp.left (hw.ancestors hd) n

/-- A path with a missing name in it is missing, whichever call asks. -/
theorem visible_below_missing {t : Tree} {d : Path} {c : Name} {rest : Path} (hw : WellFormed t)
    (hp : Plain (d ++ c :: rest)) (hd : IsDirectory t d) (hc : t (d ++ [c]) = none) :
    Visible t (d ++ c :: rest) := by
  have hn : t (d ++ c :: rest) = none := by
    have := hw.below_missing (q := rest) hc
    simpa using this
  unfold Visible
  rw [lstat_missing hw hp hd hc, hn]

theorem wp_inspectPathNoFollow {path : Path} {Q : NoFollowPathType → World → Prop}
    {E : LocalVaultError → World → Prop} (hv : Visible w.tree path)
    (seen : ∀ w', Quiet w w' → Q (statusAt (w.tree path)) w')
    (failed : ∀ e w', Troubled h → Quiet w w' → E e w') :
    (inspectPathNoFollow h path).wp Q E w := by
  unfold inspectPathNoFollow
  rw [wp_bind]
  apply wp_observe
  · intro w' hq
    have hs := seen w' hq
    rw [hv]
    cases hn : w.tree path with
    | none => rw [hn] at hs; exact hs
    | some node => rw [hn] at hs; exact hs
  · exact fun _ w' ht hq => failed _ w' ht hq

theorem wp_existingStatus {path : Path} {Q : Option Node → World → Prop}
    {E : LocalVaultError → World → Prop} (hv : Visible w.tree path)
    (seen : ∀ w', Quiet w w' → Q (w.tree path) w')
    (failed : ∀ e w', Troubled h → Quiet w w' → E e w') :
    (existingStatus h path).wp Q E w := by
  unfold existingStatus
  rw [wp_bind]
  apply wp_observe
  · intro w' hq
    have hs := seen w' hq
    rw [hv]
    cases hn : w.tree path with
    | none => rw [hn] at hs; exact hs
    | some node => rw [hn] at hs; exact hs
  · exact fun _ w' ht hq => failed _ w' ht hq

end Calls

/-- The tree and the record of its changes have not moved. -/
structure Still (w w' : World) : Prop where
  tree : w'.tree = w.tree
  mutations : w'.mutations = w.mutations

theorem Still.refl (w : World) : Still w w := ⟨rfl, rfl⟩

theorem Still.trans {u v w : World} (h : Still u v) (k : Still v w) : Still u w :=
  ⟨k.tree.trans h.tree, k.mutations.trans h.mutations⟩

theorem Quiet.still {w w' : World} (h : Quiet w w') : Still w w' := ⟨h.tree, h.mutations⟩

/-- A property of the tree and its history alone. -/
def Stable (I : World → Prop) : Prop := ∀ w w', Still w w' → I w → I w'

theorem Still.stable (w : World) : Stable (Still w) := fun _ _ hs h => h.trans hs

/-- A property that calls without an effect do not change. -/
def Steady (I : World → Prop) : Prop := ∀ w w', Quiet w w' → I w → I w'

theorem Stable.steady {I : World → Prop} (h : Stable I) : Steady I :=
  fun w w' hq hi => h w w' hq.still hi

section Stable

variable {h : Host} {I : World → Prop} {α : Type}

theorem maintains_observe (hs : Steady I) (look : Tree → Except Errno α) :
    Maintains I (observe h look) := by
  intro w hw
  apply wp_observe
  · exact fun w' hq => hs w w' hq hw
  · exact fun _ w' _ hq => hs w w' hq hw

theorem maintains_callback (hs : Steady I) : Maintains I (callback h) := by
  intro w hw
  apply wp_callback
  · exact fun w' hq => hs w w' hq hw
  · exact fun _ w' _ hq => hs w w' hq hw

theorem maintains_checkCancelled (hs : Steady I) (path : Path) :
    Maintains I (checkCancelled h path) := by
  intro w hw
  apply wp_checkCancelled
  · exact fun w' hq => hs w w' hq hw
  · exact fun _ w' _ hq => hs w w' hq hw

theorem maintains_flush (hs : Steady I) (message : String) (path : Path) :
    Maintains I (flush h message path) := by
  intro w hw
  apply wp_flush
  · exact fun w' hq => hs w w' hq hw
  · exact fun _ w' _ hq => hs w w' hq hw

theorem maintains_inspectPathNoFollow (hs : Steady I) (path : Path) :
    Maintains I (inspectPathNoFollow h path) := by
  refine Maintains.bind (maintains_observe hs _) ?_
  intro r
  rcases r with e | node
  · cases e <;> first | exact Maintains.pure _ | exact Maintains.raise _
  · exact Maintains.pure _

theorem maintains_existingStatus (hs : Steady I) (path : Path) :
    Maintains I (existingStatus h path) := by
  refine Maintains.bind (maintains_observe hs _) ?_
  intro r
  rcases r with e | node
  · cases e <;> first | exact Maintains.pure _ | exact Maintains.raise _
  · exact Maintains.pure _

theorem maintains_requireRealOrMissing (hs : Steady I) (linkMessage otherMessage : String)
    (paths : List Path) : Maintains I (requireRealOrMissing h linkMessage otherMessage paths) := by
  induction paths with
  | nil => exact Maintains.pure ()
  | cons p ps ih =>
    refine Maintains.bind (maintains_inspectPathNoFollow hs p) ?_
    intro r
    cases r with
    | notFound => exact Maintains.pure ()
    | directory => exact ih
    | indirection => exact Maintains.raise _
    | other => exact Maintains.raise _

theorem maintains_requireSafeAncestors (hs : Steady I) (root : Path) (relativePath : Bytes) :
    Maintains I (requireSafeAncestors h root relativePath) := by
  refine Maintains.bind (maintains_inspectPathNoFollow hs root) ?_
  intro r
  exact Maintains.ite (fun _ => Maintains.raise _) (fun _ => maintains_requireRealOrMissing hs _ _ _)

theorem maintains_requireRealDirectory (hs : Steady I) (path : Path) :
    Maintains I (requireRealDirectory h path) := by
  refine Maintains.bind (maintains_inspectPathNoFollow hs path) ?_
  intro r
  exact Maintains.ite (fun _ => Maintains.raise _) (fun _ => Maintains.pure ())

/-- An update that leaves tree and history alone. -/
theorem maintains_update (hs : Stable I) {f : World → World} (hf : ∀ w, Still w (f w)) :
    Maintains I (.update f : RestoreM Unit) :=
  Maintains.update (fun w hw => hs w (f w) (hf w) hw)

theorem maintains_skipEntry (hs : Stable I) (relativePath : Bytes) (reason : String) :
    Maintains I (skipEntry relativePath reason) :=
  maintains_update hs (fun _ => ⟨rfl, rfl⟩)

theorem maintains_reportProgress (hs : Stable I) (phase : OperationPhase) (path : Path)
    (totalEntries : Nat) : Maintains I (reportProgress h phase path totalEntries) :=
  Maintains.bind (maintains_update hs (fun _ => ⟨rfl, rfl⟩)) (fun _ => maintains_callback hs.steady)

theorem maintains_mutate (hs : Steady I) {paths : List Path}
    {change : Tree → Int → Except Errno Tree}
    (hm : ∀ w t now, I w → change w.tree now = .ok t → I (w.mutate paths t).tick) :
    Maintains I (mutate h paths change) := by
  intro w hw
  apply wp_mutate
  · exact fun t ht => hm w t _ hw ht
  · exact fun _ w' _ hq => hs w w' hq hw
  · exact fun _ w' _ hq => hs w w' hq hw

end Stable

/-- What a passed ancestor check says of the way from `base` along `rel`: real
directories, up to the end or up to a name that is missing. -/
def Clear (t : Tree) (base rel : Path) : Prop :=
  IsDirectory t (base ++ rel) ∨
    ∃ d c rest, rel = d ++ c :: rest ∧ IsDirectory t (base ++ d) ∧ t (base ++ d ++ [c]) = none

/-- Something that is not a directory stands on the way. -/
def Blocked (t : Tree) (base rel : Path) : Prop :=
  ∃ q r, rel = q ++ r ∧ q ≠ [] ∧ ¬ IsDirectory t (base ++ q) ∧ t (base ++ q) ≠ none

theorem inits_tail_cons (c : Name) (cs : Path) (f : Path → Path) :
    ((c :: cs).inits.tail).map f = f [c] :: (cs.inits.tail).map (fun q => f (c :: q)) := by
  cases cs <;> simp [List.inits, Function.comp_def]

theorem noFollow_directory {o : Option Node} (h : statusAt o = .directory) :
    ∃ st, o = some (.directory st) := by
  cases o with
  | none => cases h
  | some n => cases n <;> simp [statusAt, noFollowPathType] at h ⊢

section Ancestors

variable {h : Host} {w : World}

theorem wp_requireRealDirectory {path : Path} {Q : Unit → World → Prop}
    {E : LocalVaultError → World → Prop} (hv : Visible w.tree path)
    (passed : ∀ w', Quiet w w' → IsDirectory w.tree path → Q () w')
    (failed : ∀ e w', Quiet w w' → Troubled h ∨
      ¬ IsDirectory w.tree path → E e w') :
    (requireRealDirectory h path).wp Q E w := by
  unfold requireRealDirectory
  rw [wp_bind]
  apply wp_inspectPathNoFollow hv
  · intro w' hq
    rw [wp_ite]
    split
    · rename_i hs
      refine failed _ w' hq (Or.inr ?_)
      rintro ⟨st, hst⟩
      simp [hst, statusAt, noFollowPathType] at hs
    · rename_i hs
      exact passed w' hq (noFollow_directory (by simpa using hs))
  · exact fun e w' ht hq => failed e w' hq (Or.inl ht)

theorem wp_requireRealOrMissing {linkMessage otherMessage : String} {base rel : Path}
    {Q : Unit → World → Prop} {E : LocalVaultError → World → Prop} (hw : WellFormed w.tree)
    (hp : Plain (base ++ rel))    (hb : IsDirectory w.tree base)
    (passed : ∀ w', Quiet w w' → Clear w.tree base rel → Q () w')
    (failed : ∀ e w', Quiet w w' → Troubled h ∨ Blocked w.tree base rel → E e w') :
    (requireRealOrMissing h linkMessage otherMessage (rel.inits.tail.map (base ++ ·))).wp Q E w := by
  induction rel generalizing base w with
  | nil => exact passed w (Quiet.refl w) (Or.inl (by simpa using hb))
  | cons c cs ih =>
    rw [inits_tail_cons c cs (base ++ ·)]
    unfold requireRealOrMissing
    rw [wp_bind]
    have hpc : Plain (base ++ [c]) := Plain.left (q := cs) (by simpa using hp)
    apply wp_inspectPathNoFollow (visible_entry hw hpc.left hb c)
    · intro w' hq
      cases hs : statusAt (w.tree (base ++ [c])) with
      | notFound =>
        apply passed w' hq
        refine Or.inr ⟨[], c, cs, rfl, by simpa using hb, ?_⟩
        cases hn : w.tree (base ++ [c]) with
        | none => simpa using hn
        | some n => rw [hn] at hs; cases n <;> cases hs
      | indirection =>
        refine failed _ w' hq (Or.inr ⟨[c], cs, rfl, by simp, ?_, ?_⟩)
        · rintro ⟨st, hst⟩
          rw [hst] at hs
          cases hs
        · intro hn
          rw [hn] at hs
          cases hs
      | other =>
        refine failed _ w' hq (Or.inr ⟨[c], cs, rfl, by simp, ?_, ?_⟩)
        · rintro ⟨st, hst⟩
          rw [hst] at hs
          cases hs
        · intro hn
          rw [hn] at hs
          cases hs
      | directory =>
        have hd : IsDirectory w.tree (base ++ [c]) := noFollow_directory hs
        have hmap : (fun q => base ++ c :: q) = (fun q => base ++ [c] ++ q) := by
          funext q
          simp
        dsimp only
        rw [hmap]
        apply ih (w := w') (by rw [hq.tree]; exact hw) (by simpa using hp)
          (by rw [hq.tree]; exact hd)
        · intro w'' hq' hc
          rw [hq.tree] at hc
          refine passed w'' (hq.trans hq') ?_
          rcases hc with hc | ⟨d, e, rest, he, hd', hn⟩
          · exact Or.inl (by simpa using hc)
          · exact Or.inr ⟨c :: d, e, rest, by simp [he], by simpa using hd', by simpa using hn⟩
        · intro e w'' hq' hx
          refine failed e w'' (hq.trans hq') ?_
          rcases hx with hx | ⟨q, r, he, hne, hd', hn⟩
          · exact Or.inl hx
          · rw [hq.tree] at hd' hn
            exact Or.inr ⟨c :: q, r, by simp [he], by simp, by simpa using hd', by simpa using hn⟩
    · exact fun e w' ht hq => failed e w' hq (Or.inl ht)

theorem wp_requireSafeAncestors {root : Path} {relativePath : Bytes} {Q : Unit → World → Prop}
    {E : LocalVaultError → World → Prop} (hw : WellFormed w.tree)
    (hp : Plain (root ++ components relativePath)) (hb : IsDirectory w.tree root)
    (passed : ∀ w', Quiet w w' → Clear w.tree root (parentComponents relativePath) → Q () w')
    (failed : ∀ e w', Quiet w w' → Troubled h ∨
      Blocked w.tree root (parentComponents relativePath) → E e w') :
    (requireSafeAncestors h root relativePath).wp Q E w := by
  unfold requireSafeAncestors
  rw [wp_bind]
  have hpp : Plain (root ++ parentComponents relativePath) := by
    apply hp.left.append
    intro c hc
    exact hp.right c (List.mem_of_mem_dropLast hc)
  apply wp_inspectPathNoFollow (visible_directory hw hp.left hb)
  · intro w' hq
    obtain ⟨st, hst⟩ := hb
    simp only [hst, statusAt, noFollowPathType, ne_eq, not_true_eq_false, ↓reduceIte]
    apply wp_requireRealOrMissing (w := w') (by rw [hq.tree]; exact hw) hpp
      (by rw [hq.tree]; exact ⟨st, hst⟩)
    · intro w'' hq' hc
      rw [hq.tree] at hc
      exact passed w'' (hq.trans hq') hc
    · intro e w'' hq' hx
      rw [hq.tree] at hx
      exact failed e w'' (hq.trans hq') hx
  · exact fun e w' ht hq => failed e w' hq (Or.inl ht)

end Ancestors

theorem Clear.resolves {t : Tree} {base rel : Path} (hw : WellFormed t)
    (hp : Plain (base ++ rel)) (hc : Clear t base rel) (n : Name) :
    (IsDirectory t (base ++ rel) ∧ entryPath t (base ++ rel ++ [n]) = .ok (base ++ rel ++ [n])) ∨
      entryPath t (base ++ rel ++ [n]) = .error .noEntry := by
  rcases hc with hd | ⟨d, c, rest, rfl, hd, hn⟩
  · exact Or.inl ⟨hd, entryPath_directory hw hp hd n⟩
  · refine Or.inr ?_
    have hp' : Plain (base ++ d ++ c :: rest) := by simpa using hp
    simpa using entryPath_missing (n := n) hw hp' hd hn

theorem Clear.visible {t : Tree} {base rel : Path} {n : Name} (hw : WellFormed t)
    (hp : Plain (base ++ rel ++ [n])) (hc : Clear t base rel) :
    Visible t (base ++ rel ++ [n]) := by
  rcases hc with hd | ⟨d, c, rest, rfl, hd, hn⟩
  · exact visible_entry hw hp.left hd n
  · have hp' : Plain (base ++ d ++ c :: (rest ++ [n])) := by simpa using hp
    simpa using visible_below_missing hw hp' hd hn

/-- No link stands on a clear way. -/
theorem Clear.no_link {t : Tree} {base rel : Path} (hw : WellFormed t) (hc : Clear t base rel)
    {q : Path} (hq : q <+: rel) (target : Bytes) :
    t (base ++ q) ≠ some (.link target) := by
  intro hl
  obtain ⟨r, rfl⟩ := hq
  rcases hc with hd | ⟨d, c, rest, he, hd, hn⟩
  · obtain ⟨st, hst⟩ := hw.ancestors (p := base ++ q) (q := r) (by simpa using hd)
    rw [hst] at hl
    cases hl
  · rcases List.append_eq_append_iff.mp he with ⟨m, hm, hr⟩ | ⟨m, hm, hr⟩
    · obtain ⟨st, hst⟩ := hw.ancestors (p := base ++ q) (q := m) (by simpa [hm] using hd)
      rw [hst] at hl
      cases hl
    · cases m with
      | nil =>
        obtain ⟨st, hst⟩ := hd
        rw [hm] at hl
        simp [hst] at hl
      | cons a m =>
        obtain ⟨rfl, hr'⟩ := List.cons.inj hr
        have := hw.below_missing (q := m) hn
        rw [hm] at hl
        rw [show base ++ (d ++ c :: m) = base ++ d ++ [c] ++ m by simp, this] at hl
        cases hl

end LocalVault.Restore
