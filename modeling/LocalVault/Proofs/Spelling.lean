import LocalVault.Text

namespace LocalVault

/-- Three spellings of one path: as it is, with a separator behind it, and with a separator and a
dot. -/
def spellings (p : Bytes) : List Bytes := [p, p ++ [slash], p ++ slash :: dot]

/-- The last component is a name, not a special one. -/
def plainEnd (p : Bytes) : Bool :=
  (names p).getLast? ≠ some dot ∧ (names p).getLast? ≠ some dotDot

/-- What the normal form of an absolute path keeps of its names. -/
def keptNames (p : Bytes) : Path := ((names p).foldl (normalStep true) ([], false)).1.reverse

theorem keptNames_ordinary (p : Bytes) : ∀ x ∈ keptNames p, Ordinary x := by
  intro x hx
  rw [keptNames, List.mem_reverse] at hx
  exact normalSteps_ordinary (names p) ([], false) (by simp) x hx

/-- The normal form of an absolute path, read off the walk over its elements. -/
theorem lexicallyNormal_walked {es kept : List Name} {behind : Bool}
    (hw : es.foldl (normalStep true) ([], false) = (kept, behind)) :
    (lexicallyNormal ([slash] :: es)).tail =
      if kept = [] then [] else kept.reverse ++ if behind then [[]] else [] := by
  have hord : ∀ x ∈ kept, Ordinary x := by
    have := normalSteps_ordinary es ([], false) (by simp)
    rwa [hw] at this
  have hhead : kept.head? ≠ some dotDot := by
    intro h
    exact (hord _ (List.mem_of_mem_head? h)).2.2 rfl
  unfold lexicallyNormal
  simp only [List.head?_cons, decide_true, ↓reduceIte, List.tail_cons, hw, reduceCtorEq]
  split
  · rfl
  · simp [hhead]

/-- Behind a separator or a dot the walk ends with a separator. -/
theorem normalStep_behind (w : List Name × Bool) {c : Name} (hc : c = [] ∨ c = dot) :
    normalStep true w c = (w.1, true) := by
  simp [normalStep, hc]

/-- The walk over a path ends with a separator exactly behind a special name, unless nothing is
left of the path. -/
theorem walked_behind {p : Bytes} (hne : keptNames p ≠ []) :
    ((names p).foldl (normalStep true) ([], false)).2 = !plainEnd p := by
  unfold keptNames at hne
  have hnames : ∀ c ∈ names p, c ≠ [] := fun c hc => names_ne_nil hc
  have hplain : plainEnd p = (decide ((names p).getLast? ≠ some dot) &&
      decide ((names p).getLast? ≠ some dotDot)) := by simp [plainEnd]
  rw [hplain]
  generalize names p = cs at hne hnames
  rcases List.eq_nil_or_concat cs with rfl | ⟨cs, c, rfl⟩
  · exact absurd rfl hne
  rw [List.concat_eq_append] at *
  rw [List.foldl_append, List.foldl_cons, List.foldl_nil] at hne ⊢
  have hc : c ≠ [] := hnames c (by simp)
  have hord := normalSteps_ordinary cs ([], false) (by simp)
  generalize cs.foldl (normalStep true) ([], false) = w at hne hord ⊢
  obtain ⟨kept, behind⟩ := w
  rw [List.getLast?_concat]
  by_cases hdot : c = dot
  · subst hdot
    simp [normalStep]
  by_cases hdots : c = dotDot
  · subst hdots
    cases kept with
    | nil => simp [normalStep, hc, hdot] at hne
    | cons top below =>
      have htop := (hord top (by simp)).2.2
      simp [normalStep, hc, hdot, htop]
  · simp [normalStep, hc, hdot, hdots]

section Absolute

variable {p spelling : Bytes}

theorem names_absolute (habs : p.head? = some slash) (hlast : p.getLast? ≠ some slash) :
    names p ≠ [] := by
  intro hn
  obtain ⟨above, c, hc⟩ := pieces_split p
  have hnil : c = [] := by
    by_contra hne
    have hm : c ∈ names p := List.mem_filter.mpr ⟨by simp [hc], by simpa using hne⟩
    rw [hn] at hm
    cases hm
  rcases pieces_last_nil (hnil ▸ hc) with rfl | h
  · cases habs
  · exact hlast h

theorem spelling_absolute (habs : p.head? = some slash) (hs : spelling ∈ spellings p) :
    spelling.head? = some slash := by
  simp only [spellings, List.mem_cons, List.not_mem_nil, or_false] at hs
  rcases hs with rfl | rfl | rfl <;> simp [habs]

/-- The elements of the three spellings of an absolute path. -/
theorem components_spelling (habs : p.head? = some slash) (hlast : p.getLast? ≠ some slash) :
    components p = [slash] :: names p ∧
      components (p ++ [slash]) = [slash] :: (names p ++ [[]]) ∧
      components (p ++ slash :: dot) = [slash] :: (names p ++ [dot]) := by
  have hne := names_absolute habs hlast
  have hhead : ∀ q, (p ++ q).head? = some slash := by
    intro q
    simp [habs]
  have hsep : names (p ++ [slash]) = names p := by
    have := names_behind p []
    simpa [names, pieces] using this
  have hdot : names (p ++ slash :: dot) = names p ++ [dot] := names_behind p dot
  refine ⟨?_, ?_, ?_⟩
  · simp [components, habs, hlast]
  · simp [components, habs, hsep, hne]
  · have : (slash :: dot).getLast? ≠ some slash := by decide
    simp [components, habs, hdot, this]

/-- A spelling of an absolute path keeps the names of the path; it keeps a separator behind them
unless it is the path itself and ends in a name. -/
theorem normal_spelling (habs : p.head? = some slash) (hlast : p.getLast? ≠ some slash)
    (hs : spelling ∈ spellings p) :
    (lexicallyNormal (components spelling)).tail = if keptNames p = [] then [] else
      keptNames p ++ if spelling = p ∧ plainEnd p = true then [] else [[]] := by
  obtain ⟨hself, hsep, hdot⟩ := components_spelling habs hlast
  have hnil : keptNames p = [] ↔ ((names p).foldl (normalStep true) ([], false)).1 = [] := by
    simp [keptNames]
  have hbehind : ∀ c, c = [] ∨ c = dot → (lexicallyNormal ([slash] :: (names p ++ [c]))).tail =
      if keptNames p = [] then [] else keptNames p ++ [[]] := by
    intro c hc
    have hw : (names p ++ [c]).foldl (normalStep true) ([], false) =
        (((names p).foldl (normalStep true) ([], false)).1, true) := by
      rw [List.foldl_append, List.foldl_cons, List.foldl_nil, normalStep_behind _ hc]
    rw [lexicallyNormal_walked hw]
    simp [keptNames]
  simp only [spellings, List.mem_cons, List.not_mem_nil, or_false] at hs
  rcases hs with rfl | rfl | rfl
  · rw [hself, lexicallyNormal_walked rfl]
    simp only [hnil]
    split
    · rfl
    · rw [walked_behind (mt hnil.mp ‹_›)]
      cases plainEnd spelling <;> simp [keptNames]
  · rw [hsep, hbehind [] (Or.inl rfl)]
    simp
  · rw [hdot, hbehind dot (Or.inr rfl)]
    simp [dot]

end Absolute
end LocalVault
