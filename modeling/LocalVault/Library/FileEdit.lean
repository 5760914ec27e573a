import LocalVault.Library.FileTree

namespace LocalVault.Library.FileTree

/-- A path that names the entry standing at it: nothing on the way is resolved
to something else. -/
def Direct (t : Tree) (p : Path) : Prop := entryPath t p = .ok p

/-- The same object, up to the modification time of a directory. -/
def Node.Like : Node → Node → Prop
  | .directory st, .directory st' => st.mode = st'.mode
  | m, n => m = n

theorem Node.Like.refl (n : Node) : n.Like n := by
  cases n <;> simp [Node.Like]

theorem Node.Like.trans {a b c : Node} (h : a.Like b) (k : b.Like c) : a.Like c := by
  cases a <;> cases b <;> cases c <;> simp_all [Node.Like]

theorem Node.Like.symm {a b : Node} (h : a.Like b) : b.Like a := by
  cases a <;> cases b <;> simp_all [Node.Like]

theorem Node.like_retime (n : Node) (now : Int) : n.Like (n.retime now) := by
  cases n <;> simp [Node.Like, Node.retime]

/-- What two trees hold at a path, up to directory times. -/
def SameAt (t t' : Tree) (p : Path) : Prop :=
  (t p = none ∧ t' p = none) ∨ ∃ n n', t p = some n ∧ t' p = some n' ∧ n.Like n'

theorem SameAt.refl (t : Tree) (p : Path) : SameAt t t p := by
  cases h : t p with
  | none => exact Or.inl ⟨h, h⟩
  | some n => exact Or.inr ⟨n, n, h, h, Node.Like.refl n⟩

theorem SameAt.of_eq {t t' : Tree} {p : Path} (h : t' p = t p) : SameAt t t' p := by
  rcases SameAt.refl t p with ⟨hn, _⟩ | ⟨n, _, hn, _, hl⟩
  · exact Or.inl ⟨hn, by rw [h, hn]⟩
  · exact Or.inr ⟨n, n, hn, by rw [h, hn], Node.Like.refl n⟩

theorem SameAt.trans {t u v : Tree} {p : Path} (h : SameAt t u p) (k : SameAt u v p) :
    SameAt t v p := by
  rcases h with ⟨ht, hu⟩ | ⟨n, m, ht, hu, hl⟩
  · rcases k with ⟨_, hv⟩ | ⟨m, _, hm, _, _⟩
    · exact Or.inl ⟨ht, hv⟩
    · rw [hu] at hm
      cases hm
  · rcases k with ⟨hn, _⟩ | ⟨m', o, hm, hv, hl'⟩
    · rw [hu] at hn
      cases hn
    · rw [hu] at hm
      cases hm
      exact Or.inr ⟨n, o, ht, hv, hl.trans hl'⟩

theorem SameAt.symm {t u : Tree} {p : Path} (h : SameAt t u p) : SameAt u t p := by
  rcases h with ⟨ht, hu⟩ | ⟨n, m, ht, hu, hl⟩
  · exact Or.inl ⟨hu, ht⟩
  · exact Or.inr ⟨m, n, hu, ht, hl.symm⟩

theorem SameAt.none_iff {t t' : Tree} {p : Path} (h : SameAt t t' p) : t p = none ↔ t' p = none := by
  rcases h with ⟨ht, hu⟩ | ⟨n, m, ht, hu, _⟩
  · simp [ht, hu]
  · simp [ht, hu]

/-- An object that is not a directory is the same in full. -/
theorem SameAt.plain {t t' : Tree} {p : Path} {n : Node} (h : SameAt t t' p) (ht : t p = some n)
    (hn : ∀ st, n ≠ .directory st) : t' p = some n := by
  rcases h with ⟨he, _⟩ | ⟨a, b, ha, hb, hl⟩
  · rw [ht] at he
    cases he
  · rw [ht] at ha
    cases ha
    rw [hb]
    cases n with
    | directory st => exact absurd rfl (hn st)
    | _ => cases b <;> simp_all [Node.Like]

theorem SameAt.directory {t t' : Tree} {p : Path} (h : SameAt t t' p) (hd : IsDirectory t p) :
    IsDirectory t' p := by
  obtain ⟨st, hst⟩ := hd
  rcases h with ⟨he, _⟩ | ⟨a, b, ha, hb, hl⟩
  · rw [hst] at he
    cases he
  · rw [hst] at ha
    cases ha
    cases b with
    | directory st' => exact ⟨st', hb⟩
    | _ => simp [Node.Like] at hl

theorem SameAt.touch (t : Tree) (d p : Path) (now : Int) : SameAt t (t.touch d now) p := by
  unfold SameAt Tree.touch
  cases h : t p with
  | none => simp
  | some n =>
    right
    by_cases hp : p = d
    · exact ⟨n, n.retime now, rfl, by simp [hp], n.like_retime now⟩
    · exact ⟨n, n, rfl, by simp [hp], Node.Like.refl n⟩

/-- What a successful change of the tree does, whichever call made it: the
paths it names may change, directories stay directories, and the tree stays
well formed. -/
structure Edit (paths : List Path) (t t' : Tree) : Prop where
  elsewhere : ∀ q, q ∉ paths → SameAt t t' q
  directories : ∀ q, IsDirectory t q → IsDirectory t' q
  wellFormed : WellFormed t → WellFormed t'

section Direct

variable {t t' : Tree} {p q : Path} {now : Int}

theorem split_last (hne : p ≠ []) : ∃ d n, p = d ++ [n] :=
  ⟨p.dropLast, p.getLast hne, (List.dropLast_append_getLast hne).symm⟩

theorem Direct.parent (h : Direct t p) (hne : p ≠ []) : IsDirectory t p.dropLast := by
  obtain ⟨d, n, rfl⟩ := split_last hne
  unfold Direct entryPath at h
  rw [List.getLast?_concat, List.dropLast_concat] at h
  dsimp only at h
  rw [List.dropLast_concat]
  split at h
  · cases h
  · rename_i d' _
    split at h
    · rename_i st hst
      obtain ⟨rfl, _⟩ := List.append_inj' (Except.ok.inj h) rfl
      exact ⟨st, hst⟩
    · cases h

theorem Direct.entry (hw : WellFormed t) (hp : Plain p) (hd : IsDirectory t p) (n : Name) :
    Direct t (p ++ [n]) :=
  entryPath_directory hw hp hd n

theorem Direct.directory (hw : WellFormed t) (hp : Plain p) (hd : IsDirectory t p) :
    Direct t p := by
  rcases List.eq_nil_or_concat p with rfl | ⟨d, n, rfl⟩
  · rfl
  · rw [List.concat_eq_append] at hp hd ⊢
    exact Direct.entry hw hp.left (hw.ancestors hd) n

theorem create_direct (h : Direct t p) {n : Node} (hc : create t p n now = .ok t') :
    t p = none ∧ t' = (t.set p (some n)).touch p.dropLast now := by
  unfold create at hc
  rw [h] at hc
  dsimp only at hc
  cases hp : t p with
  | some m => rw [hp] at hc; cases hc
  | none => rw [hp] at hc; exact ⟨rfl, (Except.ok.inj hc).symm⟩

theorem create_isDirectory (h : Direct t p) {st : Stamp}
    (hc : create t p (.directory st) now = .ok t') : IsDirectory t' p := by
  obtain ⟨_, rfl⟩ := create_direct h hc
  exact (touch_directory now).mpr ⟨st, set_same t p _⟩

theorem unlink_direct (h : Direct t p) (hc : unlink t p now = .ok t') :
    (∃ n, t p = some n ∧ ∀ st, n ≠ .directory st) ∧
      t' = (t.set p none).touch p.dropLast now := by
  unfold unlink at hc
  rw [h] at hc
  dsimp only at hc
  cases hp : t p with
  | none => rw [hp] at hc; cases hc
  | some m =>
    rw [hp] at hc
    cases m with
    | directory st => cases hc
    | _ => exact ⟨⟨_, rfl, by simp⟩, (Except.ok.inj hc).symm⟩

theorem rename_direct (h : Direct t p) (k : Direct t q) {replace : Bool}
    (hc : rename t p q replace now = .ok t') :
    (∃ n, t p = some n ∧ (∀ st, n ≠ .directory st) ∧ ¬ IsDirectory t q ∧
      (replace = false → t q = none) ∧
      (p = q ∧ t' = t ∨ p ≠ q ∧
        t' = (((t.set p none).set q (some n)).touch p.dropLast now).touch q.dropLast now)) := by
  unfold rename at hc
  rw [h, k] at hc
  dsimp only at hc
  cases hp : t p with
  | none => rw [hp] at hc; cases hc
  | some m =>
    rw [hp] at hc
    have hm : ∀ st, m ≠ .directory st := by
      rintro st rfl
      cases hc
    refine ⟨m, rfl, hm, ?_⟩
    cases hq : t q with
    | none =>
      have he := hc
      rw [hq] at he
      have hpq : p ≠ q := by
        rintro rfl
        rw [hp] at hq
        cases hq
      refine ⟨by simp [IsDirectory, hq], fun _ => rfl, Or.inr ⟨hpq, ?_⟩⟩
      cases m with
      | directory st => cases he
      | _ => exact (Except.ok.inj he).symm
    | some o =>
      have he := hc
      rw [hq] at he
      have ho : ∀ st, o ≠ .directory st := by
        rintro st rfl
        cases m <;> cases replace <;> cases he
      have hr : replace = true := by
        cases hr : replace with
        | true => rfl
        | false =>
          rw [hr] at he
          cases m <;> cases o <;> simp at he
      refine ⟨?_, ?_, ?_⟩
      · rintro ⟨st, hst⟩
        rw [hq] at hst
        exact ho st (Option.some.inj hst)
      · intro hf
        rw [hr] at hf
        cases hf
      · by_cases hpq : p = q
        · refine Or.inl ⟨hpq, ?_⟩
          cases m <;> cases o <;> simp_all
        · refine Or.inr ⟨hpq, ?_⟩
          cases m <;> cases o <;> simp_all

/-- Why a file or a link is not moved. -/
theorem rename_refused (h : Direct t p) (k : Direct t q) {n : Node} (hp : t p = some n)
    (hn : ∀ st, n ≠ .directory st) {replace : Bool} {e : Errno}
    (hc : rename t p q replace now = .error e) :
    t q ≠ none ∧ (replace = false → e = .alreadyExists) ∧ (replace = true → IsDirectory t q) := by
  unfold rename at hc
  rw [h, k] at hc
  dsimp only at hc
  rw [hp] at hc
  cases hq : t q with
  | none =>
    rw [hq] at hc
    cases n with
    | directory st => exact absurd rfl (hn st)
    | _ => cases hc
  | some o =>
    rw [hq] at hc
    refine ⟨by simp, ?_, ?_⟩
    · rintro rfl
      cases n <;> cases o <;> simp_all
    · rintro rfl
      cases o with
      | directory st => exact ⟨st, hq⟩
      | _ =>
        exfalso
        cases n <;> by_cases hpq : p = q <;> simp_all

end Direct

section Edits

variable {t t' : Tree} {p q : Path} {now : Int}

theorem set_sameAt (t : Tree) {p q : Path} (n : Option Node) (h : q ≠ p) :
    SameAt t (t.set p n) q :=
  SameAt.of_eq (set_other t n h)

theorem WellFormed.put (hw : WellFormed t) (hne : p ≠ []) (hd : IsDirectory t p.dropLast)
    (hf : ¬ IsDirectory t p) (m : Node) : WellFormed (t.set p (some m)) := by
  obtain ⟨d, n, rfl⟩ := split_last hne
  rw [List.dropLast_concat] at hd
  exact hw.insert hd hf m

theorem WellFormed.parent_of (hw : WellFormed t) (hne : p ≠ []) (h : t p ≠ none) :
    IsDirectory t p.dropLast := by
  obtain ⟨d, n, rfl⟩ := split_last hne
  rw [List.dropLast_concat]
  exact hw.parent d n h

/-- Putting or removing an object at an entry of a directory, where no
directory stands, is an edit of that entry. -/
theorem Edit.set_touch (hf : ¬ IsDirectory t p) (n : Option Node)
    (hp : n ≠ none → p ≠ [] ∧ IsDirectory t p.dropLast) (d : Path) :
    Edit [p] t ((t.set p n).touch d now) where
  elsewhere r hr := (set_sameAt t n (by simpa using hr)).trans (SameAt.touch _ d r now)
  directories r hd := by
    rw [touch_directory]
    refine (set_sameAt t n ?_).directory hd
    rintro rfl
    exact hf hd
  wellFormed hw := by
    apply WellFormed.touch
    cases n with
    | none => exact hw.erase hf
    | some m =>
      obtain ⟨hne, hd⟩ := hp (by simp)
      exact hw.put hne hd hf m

theorem Edit.trans {ps qs : List Path} {u : Tree} (h : Edit ps t t') (k : Edit qs t' u) :
    Edit (ps ++ qs) t u where
  elsewhere r hr := by
    simp only [List.mem_append, not_or] at hr
    exact (h.elsewhere r hr.1).trans (k.elsewhere r hr.2)
  directories r hd := k.directories r (h.directories r hd)
  wellFormed hw := k.wellFormed (h.wellFormed hw)

theorem Edit.refl (ps : List Path) (t : Tree) : Edit ps t t :=
  ⟨fun q _ => SameAt.refl t q, fun _ h => h, fun h => h⟩

theorem Edit.touch (t : Tree) (d : Path) (now : Int) : Edit [] t (t.touch d now) where
  elsewhere q _ := SameAt.touch t d q now
  directories _ h := (touch_directory now).mpr h
  wellFormed h := h.touch d now

theorem Direct.ne_nil (hw : WellFormed t) (hf : ¬ IsDirectory t p) : p ≠ [] := by
  rintro rfl
  exact hf hw.root

theorem create_edit (hw : WellFormed t) (h : Direct t p) {n : Node}
    (hc : create t p n now = .ok t') : Edit [p] t t' := by
  obtain ⟨hn, rfl⟩ := create_direct h hc
  have hf : ¬ IsDirectory t p := by simp [IsDirectory, hn]
  have hne := Direct.ne_nil hw hf
  exact Edit.set_touch hf _ (fun _ => ⟨hne, h.parent hne⟩) _

theorem unlink_edit (h : Direct t p) (hc : unlink t p now = .ok t') : Edit [p] t t' := by
  obtain ⟨⟨n, hn, hd⟩, rfl⟩ := unlink_direct h hc
  refine Edit.set_touch ?_ none (by simp) _
  rintro ⟨st, hst⟩
  rw [hn] at hst
  exact hd st (Option.some.inj hst)

theorem rename_edit (hw : WellFormed t) (h : Direct t p) (k : Direct t q) {replace : Bool}
    (hc : rename t p q replace now = .ok t') : Edit [p, q] t t' := by
  obtain ⟨n, hn, hp, hq, _, ⟨rfl, rfl⟩ | ⟨_, rfl⟩⟩ := rename_direct h k hc
  · exact Edit.refl _ _
  · have hfp : ¬ IsDirectory t p := by
      rintro ⟨st, hst⟩
      rw [hn] at hst
      exact hp st (Option.some.inj hst)
    have hne := Direct.ne_nil hw hq
    have first : Edit [p] t (t.set p none) := by
      refine ⟨fun r hr => set_sameAt t none (by simpa using hr), ?_, fun hw => hw.erase hfp⟩
      intro r hd
      refine (set_sameAt t none ?_).directory hd
      rintro rfl
      exact hfp hd
    have hq' : ¬ IsDirectory (t.set p none) q := by
      rintro ⟨st, hst⟩
      by_cases he : q = p
      · rw [he, set_same] at hst
        cases hst
      · rw [set_other t _ he] at hst
        exact hq ⟨st, hst⟩
    have second : Edit [q] (t.set p none) (((t.set p none).set q (some n)).touch p.dropLast now) :=
      Edit.set_touch hq' (some n) (fun _ => ⟨hne, first.directories _ (k.parent hne)⟩) p.dropLast
    have third := Edit.touch ((((t.set p none).set q (some n)).touch p.dropLast now))
      q.dropLast now
    simpa using (first.trans second).trans third

theorem Edit.set_file {content content' : Bytes} {st st' : Stamp}
    (hp : t p = some (.file content st)) : Edit [p] t (t.set p (some (.file content' st'))) where
  elsewhere r hr := set_sameAt t _ (by simpa using hr)
  directories r hd := by
    refine (set_sameAt t _ ?_).directory hd
    rintro rfl
    obtain ⟨st, hst⟩ := hd
    rw [hp] at hst
    cases hst
  wellFormed hw := by
    have hf : ¬ IsDirectory t p := by simp [IsDirectory, hp]
    have hne := Direct.ne_nil hw hf
    exact hw.put hne (hw.parent_of hne (by simp [hp])) hf _

theorem Edit.set_directory {st st' : Stamp} (hp : t p = some (.directory st)) :
    Edit [p] t (t.set p (some (.directory st'))) where
  elsewhere r hr := set_sameAt t _ (by simpa using hr)
  directories r hd := by
    by_cases he : r = p
    · exact ⟨st', by rw [he, set_same]⟩
    · exact (set_sameAt t _ he).directory hd
  wellFormed hw := by
    have keep : ∀ r, IsDirectory t r → IsDirectory (t.set p (some (.directory st'))) r := by
      intro r hd
      by_cases he : r = p
      · exact ⟨st', by rw [he, set_same]⟩
      · exact (set_sameAt t _ he).directory hd
    apply hw.change keep
    intro r n hn
    by_cases he : r ++ [n] = p
    · exact Or.inl (by simp [he, hp])
    · rw [set_other t _ he] at hn
      exact Or.inl hn

theorem append_edit {bytes : Bytes} (hc : append t p bytes now = .ok t') : Edit [p] t t' := by
  unfold append at hc
  split at hc
  · rename_i content st hp
    cases hc
    exact Edit.set_file hp
  · cases hc

theorem restamp_file {content : Bytes} {st : Stamp} (hp : t p = some (.file content st))
    (f : Stamp → Stamp) : restamp t p f = .ok (t.set p (some (.file content (f st)))) := by
  unfold restamp
  rw [hp]

theorem restamp_directory {st : Stamp} (hp : t p = some (.directory st)) (f : Stamp → Stamp) :
    restamp t p f = .ok (t.set p (some (.directory (f st)))) := by
  unfold restamp
  rw [hp]

theorem restamp_edit {f : Stamp → Stamp} (hc : restamp t p f = .ok t') : Edit [p] t t' := by
  unfold restamp at hc
  split at hc
  · rename_i st hp
    cases hc
    exact Edit.set_directory hp
  · rename_i content st hp
    cases hc
    exact Edit.set_file hp
  · cases hc
    exact Edit.refl _ _
  · cases hc

theorem created_file (h : Direct t p) {content : Bytes} {st : Stamp}
    (hc : create t p (.file content st) now = .ok t') : t' p = some (.file content st) := by
  obtain ⟨_, rfl⟩ := create_direct h hc
  exact touch_plain now (set_same t p _) (by simp)

theorem created_link (h : Direct t p) {target : Bytes}
    (hc : create t p (.link target) now = .ok t') : t' p = some (.link target) := by
  obtain ⟨_, rfl⟩ := create_direct h hc
  exact touch_plain now (set_same t p _) (by simp)

theorem append_file {content bytes : Bytes} {st : Stamp} (hp : t p = some (.file content st))
    (hc : append t p bytes now = .ok t') :
    t' p = some (.file (content ++ bytes) { st with mtime := now }) := by
  unfold append at hc
  rw [hp] at hc
  cases hc
  exact set_same t p _

theorem restamped_file {content : Bytes} {st : Stamp} {f : Stamp → Stamp}
    (hp : t p = some (.file content st)) (hc : restamp t p f = .ok t') :
    t' p = some (.file content (f st)) := by
  rw [restamp_file hp] at hc
  cases hc
  exact set_same t p _

/-- A move puts the object at its target. -/
theorem renamed_node (h : Direct t p) (k : Direct t q) {n : Node} (hp : t p = some n)
    {replace : Bool} (hc : rename t p q replace now = .ok t') : t' q = some n := by
  obtain ⟨m, hm, hd, _, _, ⟨rfl, rfl⟩ | ⟨_, rfl⟩⟩ := rename_direct h k hc
  · exact hp
  · rw [hp] at hm
    cases hm
    exact touch_plain now (touch_plain now (set_same _ q _) hd) hd

theorem unlinked_none (h : Direct t p) (hc : unlink t p now = .ok t') : t' p = none := by
  obtain ⟨_, rfl⟩ := unlink_direct h hc
  exact (touch_none now).mpr (set_same t p none)

theorem not_directory_file {content : Bytes} {st : Stamp} (hp : t p = some (.file content st)) :
    ¬ IsDirectory t p := by
  simp [IsDirectory, hp]

/-- Only the paths a change names and the directories they stand in differ;
everything else is the same in full. -/
def Local (paths : List Path) (t t' : Tree) : Prop :=
  ∀ r, (∀ p ∈ paths, r ≠ p ∧ r ≠ p.dropLast) → t' r = t r

theorem Local.set (t : Tree) (p : Path) (n : Option Node) : Local [p] t (t.set p n) :=
  fun _ hr => set_other t n (hr p (by simp)).1

theorem Local.set_touch (t : Tree) (p : Path) (n : Option Node) (now : Int) :
    Local [p] t ((t.set p n).touch p.dropLast now) := by
  intro r hr
  obtain ⟨hp, hd⟩ := hr p (by simp)
  rw [touch_other _ now hd, set_other t n hp]

theorem create_local (h : Direct t p) {n : Node} (hc : create t p n now = .ok t') :
    Local [p] t t' := by
  obtain ⟨_, rfl⟩ := create_direct h hc
  exact Local.set_touch t p _ now

theorem unlink_local (h : Direct t p) (hc : unlink t p now = .ok t') : Local [p] t t' := by
  obtain ⟨_, rfl⟩ := unlink_direct h hc
  exact Local.set_touch t p _ now

theorem rename_local (h : Direct t p) (k : Direct t q) {replace : Bool}
    (hc : rename t p q replace now = .ok t') : Local [p, q] t t' := by
  obtain ⟨n, _, _, _, _, ⟨rfl, rfl⟩ | ⟨_, rfl⟩⟩ := rename_direct h k hc
  · exact fun _ _ => rfl
  · intro r hr
    obtain ⟨hp, hpd⟩ := hr p (by simp)
    obtain ⟨hq, hqd⟩ := hr q (by simp)
    rw [touch_other _ now hqd, touch_other _ now hpd, set_other _ _ hq, set_other t _ hp]

theorem append_local {bytes : Bytes} (hc : append t p bytes now = .ok t') : Local [p] t t' := by
  unfold append at hc
  split at hc
  · cases hc
    exact Local.set t p _
  · cases hc

theorem restamp_local {f : Stamp → Stamp} (hc : restamp t p f = .ok t') : Local [p] t t' := by
  unfold restamp at hc
  split at hc
  · cases hc
    exact Local.set t p _
  · cases hc
    exact Local.set t p _
  · cases hc
    exact fun _ _ => rfl
  · cases hc

/-- A move away leaves the name free. -/
theorem renamed_source (h : Direct t p) (k : Direct t q) {replace : Bool} (hne : p ≠ q)
    (hc : rename t p q replace now = .ok t') : t' p = none := by
  obtain ⟨n, _, _, _, _, ⟨rfl, rfl⟩ | ⟨_, rfl⟩⟩ := rename_direct h k hc
  · exact absurd rfl hne
  · rw [touch_none, touch_none, set_other _ _ hne]
    exact set_same t p none

end Edits
end LocalVault.Library.FileTree
