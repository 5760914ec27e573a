import Mathlib.Data.List.TakeWhile
import LocalVault.Text

namespace LocalVault

/-- A path that the system finds strictly below a root: separators may be doubled, and an empty
component stands behind a trailing one. -/
def StrictlyBelow (root text : Bytes) : Prop :=
  ∃ t, text = appended root t ∧ components t ≠ [] ∧ ∀ c ∈ components t, Ordinary c

theorem appended_injective {root a b : Bytes} (h : appended root a = appended root b) : a = b := by
  unfold appended at h
  split at h
  · exact List.append_cancel_left h
  · exact (List.cons.inj (List.append_cancel_left h)).2

theorem cString_appended {root path : Bytes} (h : nul ∉ root) :
    cString (appended root path) = appended root (cString path) := by
  have hroot : ∀ c ∈ root, decide (c ≠ nul) = true := by
    intro c hc
    simpa using fun he : c = nul => h (he ▸ hc)
  unfold appended cString
  split
  · exact List.takeWhile_append_of_pos hroot
  · rw [List.takeWhile_append_of_pos hroot, List.takeWhile_cons_of_pos (by decide)]

theorem cString_plain {path : Bytes} (h : nul ∉ path) : cString path = path := by
  unfold cString
  rw [List.takeWhile_eq_self_iff]
  intro c hc
  simpa using fun he : c = nul => h (he ▸ hc)

/-- A path that is cut at its first NUL goes on behind the cut. -/
theorem cString_cut {path : Bytes} (h : nul ∈ path) : ∃ rest, path = cString path ++ nul :: rest := by
  induction path with
  | nil => cases h
  | cons c path ih =>
    by_cases hc : c = nul
    · exact ⟨path, by simp [cString, hc]⟩
    · obtain ⟨rest, hrest⟩ := ih (by simpa [Ne.symm hc] using h)
      refine ⟨rest, ?_⟩
      have hcut : cString (c :: path) = c :: cString path := by simp [cString, hc]
      rw [hcut, List.cons_append, ← hrest]

/-- Every piece of a safe path is a name, or empty between two separators. -/
theorem safe_pieces {s : Bytes} (h : isSafeStoredPath s = true) {c : Bytes} (hc : c ∈ pieces s)
    (hne : c ≠ []) : Ordinary c := by
  obtain ⟨he, _, hall⟩ := safe_components h
  exact hall c (he ▸ List.mem_filter.mpr ⟨hc, by simpa using hne⟩)

theorem safe_head {s : Bytes} (h : isSafeStoredPath s = true) : s ≠ [] ∧ s.head? ≠ some slash := by
  unfold isSafeStoredPath at h
  split at h
  · cases h
  · rename_i hn
    simp only [not_or] at hn
    exact ⟨hn.1, hn.2.1⟩

theorem cString_head {s : Bytes} (h : s.head? ≠ some slash) : (cString s).head? ≠ some slash := by
  cases s with
  | nil => simp [cString]
  | cons c s =>
    unfold cString
    rw [List.takeWhile_cons]
    split
    · simpa using h
    · simp

/-- What is accepted as a safe stored path is safe for the system too, unless a NUL cuts a name so
that nothing is left of it, or `.` or `..`. -/
theorem safe_path_native {s : Bytes} (h : isSafeStoredPath s = true) {root : Bytes}
    (hnul : nul ∉ root) : StrictlyBelow root (cString (appended root s)) ↔
      nul ∉ s ∨ ∃ p, (pieces (cString s)).getLast? = some p ∧ Ordinary p := by
  obtain ⟨hs, hhead⟩ := safe_head h
  obtain ⟨above, p, hpieces⟩ := pieces_split (cString s)
  have hp : (pieces (cString s)).getLast? = some p := by rw [hpieces, List.getLast?_concat]
  have hbelow : StrictlyBelow root (cString (appended root s)) ↔
      components (cString s) ≠ [] ∧ ∀ c ∈ components (cString s), Ordinary c := by
    rw [cString_appended hnul]
    constructor
    · rintro ⟨t, ht, hne, hall⟩
      rw [appended_injective ht]
      exact ⟨hne, hall⟩
    · exact fun ⟨hne, hall⟩ => ⟨_, rfl, hne, hall⟩
  rw [hbelow]
  have hhead' := cString_head hhead
  have hcomponents : components (cString s) = names (cString s) ++
      if names (cString s) ≠ [] ∧ (cString s).getLast? = some slash then [[]] else [] := by
    simp [components, hhead']
  have hname : p ≠ [] → p ∈ names (cString s) := by
    intro hpne
    exact List.mem_filter.mpr ⟨by rw [hpieces]; simp, by simpa using hpne⟩
  constructor
  · rintro ⟨hne, hall⟩
    have hnames : names (cString s) ≠ [] := by
      intro hn
      rw [hcomponents, hn] at hne
      simp at hne
    have hpne : p ≠ [] := by
      rintro rfl
      rcases pieces_last_nil hpieces with ht | ht
      · rw [ht] at hnames
        exact hnames rfl
      · have hmem : [] ∈ components (cString s) := by
          rw [hcomponents]
          simp [hnames, ht]
        exact (hall [] hmem).1 rfl
    refine Or.inr ⟨p, hp, hall p ?_⟩
    rw [hcomponents]
    exact List.mem_append_left _ (hname hpne)
  · rintro (hno | ⟨q, hq, hordinary⟩)
    · rw [cString_plain hno]
      obtain ⟨_, hne, hall⟩ := safe_components h
      exact ⟨hne, hall⟩
    · obtain rfl : p = q := Option.some.inj (hp.symm.trans hq)
      have hlast : (cString s).getLast? ≠ some slash :=
        fun ht => hordinary.1 (pieces_trailing hpieces ht)
      have hplain : components (cString s) = names (cString s) := by
        rw [hcomponents, if_neg (fun hn => hlast hn.2), List.append_nil]
      rw [hplain]
      refine ⟨List.ne_nil_of_mem (hname hordinary.1), ?_⟩
      intro c hc
      obtain ⟨hcp, hcne⟩ := List.mem_filter.mp hc
      rw [hpieces] at hcp
      rcases List.mem_append.mp hcp with hcp | hcp
      · -- the pieces in front of the cut are pieces of the stored path
        refine safe_pieces h ?_ (by simpa using hcne)
        by_cases hn : nul ∈ s
        · obtain ⟨rest, hrest⟩ := cString_cut hn
          obtain ⟨q, qs, hqs⟩ := List.exists_cons_of_ne_nil (pieces_ne_nil (nul :: rest))
          rw [hrest, pieces_append hpieces hqs]
          exact List.mem_append_left _ hcp
        · rw [cString_plain hn] at hpieces
          rw [hpieces]
          exact List.mem_append_left _ hcp
      · rw [List.mem_singleton.mp hcp]
        exact hordinary

/-- A plain name. -/
theorem safe_path_native_a :
    StrictlyBelow (ascii "/r") (cString (appended (ascii "/r") (ascii "a"))) ↔
      nul ∉ ascii "a" ∨ ∃ p, (pieces (cString (ascii "a"))).getLast? = some p ∧ Ordinary p :=
  safe_path_native (by decide) (by decide)

/-- A name that starts with two dots and a NUL leads out of the destination. -/
theorem safe_path_escapes :
    isSafeStoredPath [46, 46, 0, 120] = true ∧
      ¬ StrictlyBelow (ascii "/r") (cString (appended (ascii "/r") [46, 46, 0, 120])) := by
  refine ⟨by decide, ?_⟩
  rintro ⟨t, ht, _, hall⟩
  have hcut : cString (appended (ascii "/r") [46, 46, 0, 120]) = appended (ascii "/r") dotDot := by
    decide
  rw [hcut] at ht
  rw [← appended_injective ht] at hall
  exact (hall dotDot (by decide)).2.2 rfl

end LocalVault
