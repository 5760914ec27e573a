import LocalVault.Library.Disk

namespace LocalVault.Library.FileTree

/-- Putting an object at an entry of a directory, or taking away one that is
not a directory. -/
theorem Edit.set {t : Tree} {p : Path} (hf : ¬ IsDirectory t p) (n : Option Node)
    (hp : n ≠ none → p ≠ [] ∧ IsDirectory t p.dropLast) : Edit [p] t (t.set p n) where
  elsewhere r hr := set_sameAt t n (by simpa using hr)
  directories r hd := by
    refine (set_sameAt t n ?_).directory hd
    rintro rfl
    exact hf hd
  wellFormed hw := by
    cases n with
    | none => exact hw.erase hf
    | some m => exact hw.put (hp (by simp)).1 (hp (by simp)).2 hf m

/-- A tree that differs from an earlier one in the objects `own`, which were
added below a directory `base` that `anchor` leads to; `standing` are those of
them, and the base itself, that are known to be directories. -/
structure Added (anchor base : Path) (before now : Tree) (own standing : Path → Prop) : Prop where
  wellBefore : WellFormed before
  wellNow : WellFormed now
  known : ∀ k, standing k → k = [] ∨ own k
  resolved : ∀ k, standing k → realPath before anchor = .ok base ∧ Plain k ∧
    ∀ pre, pre <+: k → IsDirectory now (base ++ pre)
  fresh : ∀ k, own k → k ≠ [] ∧ before (base ++ k) = none ∧ standing k.dropLast
  elsewhere : ∀ p, (∀ k, own k → p ≠ base ++ k) → SameAt before now p

namespace Added

variable {anchor base : Path} {before now t : Tree} {own standing : Path → Prop}

theorem elsewhere_old (h : Added anchor base before now own standing) {p : Path}
    (hp : before p ≠ none) : SameAt before now p := by
  apply h.elsewhere
  rintro k hk rfl
  exact hp (h.fresh k hk).2.1

theorem grown (h : Added anchor base before now own standing) : Extends before now :=
  Extends.of_same (fun _ hp => h.elsewhere_old hp)

theorem directory (h : Added anchor base before now own standing) {k : Path} (hk : standing k) :
    IsDirectory now (base ++ k) := (h.resolved k hk).2.2 k List.prefix_rfl

theorem path (h : Added anchor base before now own standing) {k : Path} (hk : standing k) :
    realPath now (anchor ++ k) = .ok (base ++ k) := by
  obtain ⟨hr, hp, hd⟩ := h.resolved k hk
  exact realPath_append (realPath_extends h.grown hr) hp hd

theorem entry (h : Added anchor base before now own standing) {k : Path} (hk : standing k)
    (x : Name) : entryPath now (anchor ++ (k ++ [x])) = .ok (base ++ (k ++ [x])) := by
  obtain ⟨hr, hp, hd⟩ := h.resolved k hk
  exact entryPath_append (realPath_extends h.grown hr) hp hd

/-- An owned object is an entry of a standing directory. -/
theorem owned (h : Added anchor base before now own standing) {k : Path} (hk : own k) :
    ∃ d x, k = d ++ [x] ∧ standing d ∧
      entryPath now (anchor ++ k) = .ok (base ++ k) := by
  obtain ⟨hne, _, hd⟩ := h.fresh k hk
  obtain ⟨d, x, rfl⟩ := split_last hne
  rw [List.dropLast_concat] at hd
  exact ⟨d, x, rfl, hd, h.entry hd x⟩

theorem file_path (h : Added anchor base before now own standing) {k : Path} (hk : own k)
    (hp : Plain k) {content : Bytes} {st : Stamp} (hf : now (base ++ k) = some (.file content st)) :
    realPath now (anchor ++ k) = .ok (base ++ k) := by
  obtain ⟨d, x, rfl, hd, _⟩ := h.owned hk
  obtain ⟨hr, _, hdirs⟩ := h.resolved d hd
  exact realPath_file (realPath_extends h.grown hr) hp hdirs hf

/-- Nothing is added yet. -/
theorem start (hw : WellFormed before) : Added anchor base before before (fun _ => False)
    (fun _ => False) :=
  ⟨hw, hw, fun _ h => h.elim, fun _ h => h.elim, fun _ h => h.elim, fun _ _ => SameAt.refl _ _⟩

/-- The base is found. -/
theorem settle (h : Added anchor base before now (fun _ => False) (fun _ => False)) {b : Path}
    (hr : realPath now anchor = .ok b) (hd : IsDirectory now b) :
    Added anchor b before now (fun _ => False) (fun k => k = []) := by
  have hsame : ∀ p, SameAt before now p := fun p => h.elsewhere p (fun _ hk => hk.elim)
  refine ⟨h.wellBefore, h.wellNow, fun k hk => Or.inl hk, ?_, fun _ h => h.elim, fun p _ => hsame p⟩
  rintro k rfl
  refine ⟨realPath_extends (Extends.of_same (fun p _ => (hsame p).symm)) hr, ?_, ?_⟩
  · intro c hc
    cases hc
  · intro pre hpre
    rw [List.prefix_nil.mp hpre]
    simpa using hd

/-- Owned objects may change, as long as directories stay. -/
theorem edit (h : Added anchor base before now own standing) {l : List Path}
    (he : Edit l now t) (hp : ∀ p ∈ l, ∃ k, own k ∧ p = base ++ k) :
    Added anchor base before t own standing := by
  refine ⟨h.wellBefore, he.wellFormed h.wellNow, h.known, ?_, h.fresh, ?_⟩
  · intro k hk
    obtain ⟨hr, hpl, hd⟩ := h.resolved k hk
    exact ⟨hr, hpl, fun pre hpre => he.directories _ (hd pre hpre)⟩
  · intro p hn
    refine (h.elsewhere p hn).trans (he.elsewhere p ?_)
    intro hm
    obtain ⟨k, hk, rfl⟩ := hp p hm
    exact hn k hk rfl

theorem own_mono (h : Added anchor base before now own standing) {own' : Path → Prop}
    (hall : ∀ k, own k → own' k)
    (hnew : ∀ k, own' k → own k ∨ k ≠ [] ∧ before (base ++ k) = none ∧ standing k.dropLast) :
    Added anchor base before now own' standing := by
  refine ⟨h.wellBefore, h.wellNow, fun k hk => (h.known k hk).imp id (hall k), h.resolved, ?_, ?_⟩
  · intro k hk
    rcases hnew k hk with hk | hk
    · exact h.fresh k hk
    · exact hk
  · intro p hp
    exact h.elsewhere p (fun k hk => hp k (hall k hk))

/-- An object is added to a standing directory. -/
theorem insert (h : Added anchor base before now own standing) {d : Path} {x : Name}
    {node : Node} {time : Int} (hd : standing d) (hn : now (base ++ (d ++ [x])) = none)
    (ht : t = (now.set (base ++ (d ++ [x])) (some node)).touch (base ++ d) time) :
    Added anchor base before t (fun k => own k ∨ k = d ++ [x]) standing := by
  have hold : before (base ++ (d ++ [x])) = none := by
    by_contra hne
    exact hne ((h.elsewhere_old hne).none_iff.mpr hn)
  have hown : Added anchor base before now (fun k => own k ∨ k = d ++ [x]) standing := by
    refine h.own_mono (fun k hk => Or.inl hk) ?_
    rintro k (hk | rfl)
    · exact Or.inl hk
    · exact Or.inr ⟨by simp, hold, by simpa using hd⟩
  refine hown.edit (l := [base ++ (d ++ [x])]) ?_ ?_
  · rw [ht]
    apply Edit.set_touch
    · rintro ⟨st, hst⟩
      rw [hn] at hst
      cases hst
    · intro _
      refine ⟨by simp, ?_⟩
      rw [← List.append_assoc, List.dropLast_concat]
      exact h.directory hd
  · intro p hp
    exact ⟨d ++ [x], Or.inr rfl, List.mem_singleton.mp hp⟩

/-- A directory that was added is known to stand. -/
theorem learn (h : Added anchor base before now own standing) {d : Path} {x : Name}
    (hd : standing d) (hx : x ≠ dot ∧ x ≠ dotDot) (hk : own (d ++ [x]))
    (hdir : IsDirectory now (base ++ (d ++ [x]))) :
    Added anchor base before now own (fun k => standing k ∨ k = d ++ [x]) := by
  refine ⟨h.wellBefore, h.wellNow, ?_, ?_, ?_, h.elsewhere⟩
  · rintro k (hs | rfl)
    · exact h.known k hs
    · exact Or.inr hk
  · rintro k (hs | rfl)
    · exact h.resolved k hs
    · obtain ⟨hr, hp, hdirs⟩ := h.resolved d hd
      refine ⟨hr, hp.append (by simpa [Plain] using hx), ?_⟩
      intro pre hpre
      rcases List.prefix_concat_iff.mp hpre with rfl | hpre
      · exact hdir
      · exact hdirs pre hpre
  · intro k hown
    obtain ⟨hne, hnone, hs⟩ := h.fresh k hown
    exact ⟨hne, hnone, Or.inl hs⟩

/-- Nothing stands below an owned object that no other lies under. -/
theorem leaf (h : Added anchor base before now own standing) {k : Path} (hk : own k)
    (hleaf : ∀ j, own j → k <+: j → j = k) (n : Name) : now (base ++ k ++ [n]) = none := by
  have hold : before (base ++ k ++ [n]) = none :=
    h.wellBefore.below_missing (h.fresh k hk).2.1
  refine (h.elsewhere _ ?_).none_iff.mp hold
  intro j hj he
  rw [List.append_assoc] at he
  have hjk : k ++ [n] = j := List.append_cancel_left he
  have := hleaf j hj ⟨[n], hjk⟩
  simp [this] at hjk

/-- An object that no other lies under is taken away. -/
theorem erase (h : Added anchor base before now own standing) {k : Path} (hk : own k)
    (hleaf : ∀ j, own j → k <+: j → j = k) {own' : Path → Prop}
    (hsub : ∀ j, own' j → own j) (hrest : ∀ j, own j → j ≠ k → own' j) {time : Int}
    (ht : t = (now.set (base ++ k) none).touch (base ++ k).dropLast time ∨
      now (base ++ k) = none ∧ t = now) :
    Added anchor base before t own' (fun j => standing j ∧ j ≠ k) := by
  have hne := (h.fresh k hk).1
  have hother : ∀ p, p ≠ base ++ k → SameAt now t p := by
    intro p hp
    rcases ht with rfl | ⟨_, rfl⟩
    · exact (set_sameAt now none hp).trans (SameAt.touch _ _ p time)
    · exact SameAt.refl _ _
  have hgone : t (base ++ k) = none := by
    rcases ht with rfl | ⟨hn, rfl⟩
    · rw [touch_none, set_same]
    · exact hn
  have hwell : WellFormed t := by
    constructor
    · exact (hother [] (by simp [hne])).directory h.wellNow.root
    · intro p n hn
      have hpn : p ++ [n] ≠ base ++ k := fun he => hn (by rw [he, hgone])
      have hnow : now (p ++ [n]) ≠ none := fun he => hn ((hother _ hpn).none_iff.mp he)
      have hp : p ≠ base ++ k := by
        rintro rfl
        exact hnow (h.leaf hk hleaf n)
      exact (hother p hp).directory (h.wellNow.parent p n hnow)
  -- what stands below an owned object is owned, so nothing standing goes through `k`
  have hstand : ∀ j, standing j → j ≠ k → ¬ k <+: j := by
    intro j hj hjk hpre
    rcases h.known j hj with rfl | hown
    · exact hne (List.prefix_nil.mp hpre)
    · exact hjk (hleaf j hown hpre)
  refine ⟨h.wellBefore, hwell, ?_, ?_, ?_, ?_⟩
  · rintro j ⟨hj, hjk⟩
    exact (h.known j hj).imp id (fun ho => hrest j ho hjk)
  · rintro j ⟨hj, hjk⟩
    obtain ⟨hr, hp, hd⟩ := h.resolved j hj
    refine ⟨hr, hp, fun pre hpre => (hother _ ?_).directory (hd pre hpre)⟩
    intro he
    have hprek : pre = k := List.append_cancel_left he
    exact hstand j hj hjk (hprek ▸ hpre)
  · intro j hj
    obtain ⟨hjne, hnone, hs⟩ := h.fresh j (hsub j hj)
    refine ⟨hjne, hnone, hs, ?_⟩
    intro he
    have hpre : k <+: j := he ▸ List.dropLast_prefix j
    have := hleaf j (hsub j hj) hpre
    rw [this] at he
    have hlen := congrArg List.length he
    have hpos := List.length_pos_iff.mpr hne
    simp at hlen
    omega
  · intro p hp
    by_cases he : p = base ++ k
    · rw [he]
      exact Or.inl ⟨(h.fresh k hk).2.1, hgone⟩
    · refine (h.elsewhere p ?_).trans (hother p he)
      intro j hj hpj
      by_cases hjk : j = k
      · exact he (by rw [hpj, hjk])
      · exact hp j (hrest j hj hjk) hpj

end Added

end LocalVault.Library.FileTree
