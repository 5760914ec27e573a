import LocalVault.Proofs.Cleanup

namespace LocalVault.Repository
open Library

section Temporaries

variable {v : Vault} {o : Outside} {s : Session} {t : Temporary} {path : Path}

theorem permanent_cases (h : Permanent path = true) :
    path = temporaryObjects ∨ path = temporaryRestores := by
  unfold Permanent at h
  simpa only [Bool.or_eq_true, beq_iff_eq] using h

theorem not_permanent_below (hne : path ≠ []) (hp : Permanent path = false) {p : Path}
    (h : path <+: p) : Permanent p = false := by
  by_contra hn
  have hp' : p = temporaryObjects ∨ p = temporaryRestores := permanent_cases (by simpa using hn)
  have hlen : p.length = 1 := by
    rcases hp' with rfl | rfl <;> rfl
  have hpos := List.length_pos_of_ne_nil hne
  exact hn (h.eq_of_length_le (by omega) ▸ hp)

theorem tidied_forget (hp : Permanent path = false) : (t.forget path).tidied = t.tidied := by
  have hfind : ∀ q, Permanent q = true → (t.forget path).find q = t.find q := by
    intro q hq
    unfold Temporary.find Temporary.forget
    rw [List.find?_filter]
    congr 1
    funext i
    by_cases hi : i.path = q
    · have hne : i.path ≠ path := by
        intro he
        rw [← he, hi, hq] at hp
        cases hp
      simp [hi, hi ▸ hne]
    · simp [hi]
  have hkept : (t.forget path).filter (fun i => Permanent i.path) =
      t.filter (fun i => Permanent i.path) := by
    unfold Temporary.forget
    rw [List.filter_filter]
    apply List.filter_congr
    intro i _
    by_cases hi : i.path = path
    · simp [hi, hp]
    · simp [hi]
  unfold Temporary.tidied
  rw [hkept, hfind _ (by decide), hfind _ (by decide)]

theorem Temporary.Orderly.forget (h : t.Orderly) (hbelow : ∀ i ∈ t, 1 < i.path.length →
    i.path.dropLast ≠ path) : (t.forget path).Orderly := by
  refine ⟨fun i hi => h.named i (List.mem_of_mem_filter hi), ?_,
    fun i hi => h.directories i (List.mem_of_mem_filter hi)⟩
  intro i hi hlen
  have hi' := List.mem_of_mem_filter hi
  obtain ⟨j, hj, hparent⟩ := h.parent i hi' hlen
  refine ⟨j, List.mem_filter.mpr ⟨hj, ?_⟩, hparent⟩
  simpa [hparent] using hbelow i hi' hlen

/-- A listed child stands above everything else below a directory. -/
theorem Temporary.Orderly.child (h : t.Orderly) (directory : Path) {i : TemporaryItem} (hi : i ∈ t)
    (hpre : directory <+: i.path) (hne : i.path ≠ directory) :
    ∃ c ∈ t.children directory, c <+: i.path := by
  generalize hn : i.path.length - directory.length = n
  induction n generalizing i with
  | zero =>
    exact absurd (hpre.eq_of_length_le (by omega)).symm hne
  | succ n ih =>
    have hdrop : directory <+: i.path.dropLast := by
      obtain ⟨rest, hrest⟩ := hpre
      cases rest using List.reverseRecOn with
      | nil => exact absurd (by simpa using hrest.symm) hne
      | append_singleton rest x => exact ⟨rest, by rw [← hrest, ← List.append_assoc]; simp⟩
    by_cases hd : i.path.dropLast = directory
    · refine ⟨i.path, ?_, List.prefix_rfl⟩
      simp only [Temporary.children, List.mem_filter, List.mem_map]
      exact ⟨⟨i, hi, rfl⟩, by simpa [hd] using h.named i hi⟩
    · have hlen : directory.length < i.path.dropLast.length := by
        have hle := hdrop.length_le
        rcases Nat.lt_or_ge directory.length i.path.dropLast.length with hlt | hge
        · exact hlt
        · exact absurd (hdrop.eq_of_length_le hge).symm hd
      rw [List.length_dropLast] at hlen
      obtain ⟨j, hj, hparent⟩ := h.parent i hi (by omega)
      obtain ⟨c, hc, hcpre⟩ := ih hj (by rwa [hparent]) (by rwa [hparent])
        (by rw [hparent, List.length_dropLast]; omega)
      exact ⟨c, hc, hcpre.trans (hparent ▸ List.dropLast_prefix i.path)⟩

/-- Removals below `temporary/`: nothing new, and the two directories stay. -/
structure Pruned (s t : Session) : Prop where
  db : t.vault.db = s.vault.db
  fewer : ∀ i ∈ t.vault.temporary, i ∈ s.vault.temporary
  permanent : ∀ i ∈ s.vault.temporary, Permanent i.path = true → i ∈ t.vault.temporary

theorem Pruned.refl (s : Session) : Pruned s s := ⟨rfl, fun _ h => h, fun _ h _ => h⟩

theorem Pruned.trans {a b c : Session} (h : Pruned a b) (h' : Pruned b c) : Pruned a c :=
  ⟨h'.db.trans h.db, fun i hi => h.fewer i (h'.fewer i hi),
    fun i hi hp => h'.permanent i (h.permanent i hi hp) hp⟩

instance : Std.Total deepestFirst := ⟨fun p q => Nat.le_total q.length p.length⟩

instance : IsTrans Path deepestFirst := ⟨fun _ _ _ h h' => Nat.le_trans h' h⟩

/-- How a removal ends: complete, or held up by another process. -/
def Cleared (o : Outside) (gone : Prop) (complete : Bool) : Prop :=
  (complete = true → gone) ∧ (complete = true ∨ ∃ n, o.fate n = .shared)

theorem wp_removeAll (hperm : ∀ p, path <+: p → Permanent p = false) (ps : List Path) (s : Session)
    (h : Held v s) (hps : ∀ p ∈ ps, path <+: p) (hsorted : ps.Pairwise deepestFirst)
    (hall : ∀ i ∈ s.vault.temporary, path <+: i.path → i.path ∈ ps) :
    (removeAll o ps).wp
      (fun complete t => Held v t ∧ Pruned s t ∧
        Cleared o (∀ i ∈ t.vault.temporary, ¬ path <+: i.path) complete)
      (CutShort v o true) s := by
  induction ps generalizing s with
  | nil =>
    refine ⟨h, Pruned.refl s, fun _ i hi hpre => ?_, Or.inl rfl⟩
    simpa using hall i hi hpre
  | cons p ps ih =>
    unfold removeAll
    obtain ⟨hfirst, hrest⟩ := List.pairwise_cons.mp hsorted
    apply wp_calling
    · rw [Program.wp_bind, Program.wp_update]
      have hp := hps p (by simp)
      have hnot := hperm p hp
      have hbelow : ∀ i ∈ s.vault.temporary, 1 < i.path.length → i.path.dropLast ≠ p := by
        intro i hi hlen he
        have hpre : path <+: i.path := hp.trans (he ▸ List.dropLast_prefix i.path)
        have hlong : i.path.length = p.length + 1 := by
          rw [← he, List.length_dropLast]
          omega
        rcases List.mem_cons.mp (hall i hi hpre) with heq | hin
        · rw [heq] at hlong
          omega
        · have := hfirst _ hin
          unfold deepestFirst at this
          omega
      have hheld : Held v (s.keep (s.vault.temporary.forget p)) :=
        ⟨h.settles, h.objects, h.orderly.forget hbelow, (tidied_forget hnot).trans h.tidied⟩
      have hpruned : Pruned s (s.keep (s.vault.temporary.forget p)) := by
        refine ⟨rfl, fun i hi => List.mem_of_mem_filter hi, ?_⟩
        intro i hi hip
        refine List.mem_filter.mpr ⟨hi, ?_⟩
        have hne : i.path ≠ p := fun he => by simp [he, hnot] at hip
        simpa using hne
      refine Program.wp_mono (ih _ hheld (fun q hq => hps q (List.mem_cons_of_mem _ hq)) hrest ?_) ?_
        (fun _ _ hc => hc)
      · intro i hi hpre
        obtain ⟨hi, hne⟩ := List.mem_filter.mp hi
        rcases List.mem_cons.mp (hall i hi hpre) with heq | hin
        · simp [heq] at hne
        · exact hin
      · rintro complete t ⟨ht, hpr, hcleared⟩
        exact ⟨ht, hpruned.trans hpr, hcleared⟩
    · intro hshared
      exact ⟨h.tick, ⟨rfl, fun _ hi => hi, fun _ hi _ => hi⟩, by simp, Or.inr hshared⟩
    · exact fun stop hstop => ⟨h.tick, fun _ => hstop⟩

theorem wp_removeRecoveryPath (h : Held v s) (hne : path ≠ []) (hp : Permanent path = false) :
    (removeRecoveryPath o path).wp
      (fun complete t => Held v t ∧ Pruned s t ∧
        Cleared o (∀ i ∈ t.vault.temporary, ¬ path <+: i.path) complete)
      (CutShort v o true) s := by
  unfold removeRecoveryPath
  rw [Program.wp_bind, Program.wp_read]
  apply wp_removeAll (fun p hpre => not_permanent_below hne hp hpre) _ _ h
  · intro p hpm
    rw [Temporary.below, List.mem_insertionSort, List.mem_filter] at hpm
    exact List.isPrefixOf_iff_prefix.mp hpm.2
  · exact List.pairwise_insertionSort _ _
  · intro i hi hpre
    rw [Temporary.below, List.mem_insertionSort, List.mem_filter]
    exact ⟨List.mem_map.mpr ⟨i, hi, rfl⟩, List.isPrefixOf_iff_prefix.mpr hpre⟩

theorem wp_clearItems (ps : List Path) (s : Session) (h : Held v s)
    (hps : ∀ p ∈ ps, p ≠ [] ∧ Permanent p = false) :
    (clearItems o ps).wp
      (fun complete t => Held v t ∧ Pruned s t ∧
        Cleared o (∀ p ∈ ps, ∀ i ∈ t.vault.temporary, ¬ p <+: i.path) complete)
      (CutShort v o true) s := by
  induction ps generalizing s with
  | nil => exact ⟨h, Pruned.refl s, by simp, Or.inl rfl⟩
  | cons p ps ih =>
    unfold clearItems
    obtain ⟨hne, hp⟩ := hps p (by simp)
    rw [Program.wp_bind]
    refine Program.wp_mono (wp_removeRecoveryPath h hne hp) ?_ (fun _ _ hc => hc)
    rintro removed t ⟨ht, hpr, hgone, hshared⟩
    rw [Program.wp_bind]
    refine Program.wp_mono (ih t ht (fun q hq => hps q (List.mem_cons_of_mem _ hq))) ?_
      (fun _ _ hc => hc)
    rintro rest u ⟨hu, hpr', hgone', hshared'⟩
    refine ⟨hu, hpr.trans hpr', ?_, ?_⟩
    · intro hboth
      obtain ⟨hr, hr'⟩ := Bool.and_eq_true_iff.mp hboth
      intro q hq i hi
      rcases List.mem_cons.mp hq with rfl | hq
      · exact hgone hr i (hpr'.fewer i hi)
      · exact hgone' hr' q hq i hi
    · rcases hshared with hr | hr
      · rcases hshared' with hr' | hr'
        · exact Or.inl (by rw [hr, hr']; rfl)
        · exact Or.inr hr'
      · exact Or.inr hr

theorem mem_children {directory p : Path} : p ∈ t.children directory ↔
    (∃ i ∈ t, i.path = p) ∧ p ≠ [] ∧ p.dropLast = directory := by
  simp [Temporary.children]

theorem wp_clearDirectoryContents (h : Held v s) (hp : Permanent path = true) :
    (clearDirectoryContents o path).wp
      (fun complete t => Held v t ∧ Pruned s t ∧
        Cleared o (∀ i ∈ t.vault.temporary, path <+: i.path → i.path = path) complete)
      (CutShort v o true) s := by
  unfold clearDirectoryContents
  rw [Program.wp_bind, Program.wp_read]
  refine Program.wp_mono (wp_clearItems _ s h ?_) ?_ (fun _ _ hc => hc)
  · intro p hpc
    obtain ⟨_, hne, hparent⟩ := mem_children.mp hpc
    refine ⟨hne, ?_⟩
    by_contra hperm
    have hpath : path.length = 1 := by
      rcases permanent_cases hp with rfl | rfl <;> rfl
    have hlen : p.length = 1 := by
      rcases permanent_cases (by simpa using hperm) with rfl | rfl <;> rfl
    rw [← hparent, List.length_dropLast, hlen] at hpath
    omega
  · rintro complete t ⟨ht, hpr, hgone, hshared⟩
    refine ⟨ht, hpr, ?_, hshared⟩
    intro hc i hi hpre
    by_contra hne
    obtain ⟨c, hchild, hcpre⟩ := h.orderly.child path (hpr.fewer i hi) hpre hne
    exact hgone hc c hchild i hi hcpre

theorem find_isSome_iff : (t.find path).isSome = true ↔ ∃ i ∈ t, i.path = path := by
  simp [Temporary.find]

theorem find_append {i : TemporaryItem} (h : i.path ≠ path) : (t ++ [i]).find path = t.find path := by
  simp [Temporary.find, List.find?_append, h]

/-- A missing directory is recreated in its turn. -/
theorem tidied_append (hp : Permanent path = true) (hnone : t.find path = none)
    (hturn : path = temporaryRestores → (t.find temporaryObjects).isSome = true) :
    Temporary.tidied (t ++ [⟨path, true⟩]) = t.tidied := by
  have hself : (Temporary.find (t ++ [⟨path, true⟩]) path).isSome = true :=
    find_isSome_iff.mpr ⟨⟨path, true⟩, by simp, rfl⟩
  rcases permanent_cases hp with rfl | rfl
  · unfold Temporary.tidied
    rw [hself, hnone, find_append (by decide), List.filter_append]
    simp [hp]
  · unfold Temporary.tidied
    rw [hself, hnone, find_append (by decide), hturn rfl, List.filter_append]
    simp [hp]

theorem Temporary.Orderly.append (h : t.Orderly) (hp : Permanent path = true) :
    Temporary.Orderly (t ++ [⟨path, true⟩]) := by
  have hlen : path.length = 1 := by
    rcases permanent_cases hp with rfl | rfl <;> rfl
  refine ⟨?_, ?_, ?_⟩
  · intro i hi
    rcases List.mem_append.mp hi with hi | hi
    · exact h.named i hi
    · rw [List.mem_singleton.mp hi]
      intro he
      simp only at he
      simp [he] at hlen
  · intro i hi hi1
    rcases List.mem_append.mp hi with hi | hi
    · obtain ⟨j, hj, hparent⟩ := h.parent i hi hi1
      exact ⟨j, List.mem_append_left _ hj, hparent⟩
    · rw [List.mem_singleton.mp hi] at hi1
      simp only at hi1
      omega
  · intro i hi
    rcases List.mem_append.mp hi with hi | hi
    · exact h.directories i hi
    · rw [List.mem_singleton.mp hi]
      simp

/-- After the check the directory is there, and nothing else is new. -/
theorem wp_requireRecoveryDirectory (h : Held v s) (hp : Permanent path = true)
    (hturn : s.vault.temporary.find path = none → path = temporaryRestores →
      (s.vault.temporary.find temporaryObjects).isSome = true) :
    (requireRecoveryDirectory o path).wp
      (fun _ t => Held v t ∧ t.vault.db = s.vault.db ∧
        (∃ i ∈ t.vault.temporary, i.path = path) ∧
        (∀ i ∈ s.vault.temporary, i ∈ t.vault.temporary) ∧
        ∀ i ∈ t.vault.temporary, i ∈ s.vault.temporary ∨ i.path = path ∧
          s.vault.temporary.find path = none)
      (CutShort v o true) s := by
  have hensure : (ensureRecoveryDirectory path).wp
      (fun _ t => Held v t ∧ t.vault.db = s.vault.db ∧
        (∃ i ∈ t.vault.temporary, i.path = path) ∧
        (∀ i ∈ s.vault.temporary, i ∈ t.vault.temporary) ∧
        ∀ i ∈ t.vault.temporary, i ∈ s.vault.temporary ∨ i.path = path ∧
          s.vault.temporary.find path = none)
      (CutShort v o true) s := by
    unfold ensureRecoveryDirectory
    rw [Program.wp_bind, Program.wp_read]
    cases hf : s.vault.temporary.find path with
    | none =>
      refine ⟨⟨h.settles, h.objects, h.orderly.append hp, (tidied_append hp hf (hturn hf)).trans h.tidied⟩,
        rfl, ⟨⟨path, true⟩, by simp [Session.keep], rfl⟩,
        fun i hi => List.mem_append_left _ hi, ?_⟩
      intro i hi
      rcases List.mem_append.mp hi with hi | hi
      · exact Or.inl hi
      · exact Or.inr ⟨by rw [List.mem_singleton.mp hi], rfl⟩
    | some item =>
      have hmem := List.mem_of_find?_eq_some hf
      have hpath : item.path = path := by simpa using List.find?_some hf
      simp only [h.orderly.directories item hmem (hpath ▸ hp), ↓reduceIte]
      exact ⟨h.tick, rfl, ⟨item, hmem, hpath⟩, fun i hi => hi, fun i hi => Or.inl hi⟩
  exact wp_calling hensure (fun _ => hensure) (fun stop hstop => ⟨h.tick, fun _ => hstop⟩)

theorem wp_clearTemporaryItem (h : Held v s) (hne : path ≠ [])
    (hthere : Permanent path = true → ∃ i ∈ s.vault.temporary, i.path = path) :
    (clearTemporaryItem o path).wp
      (fun complete t => Held v t ∧ Pruned s t ∧
        Cleared o (∀ i ∈ t.vault.temporary, path <+: i.path → Permanent i.path = true) complete)
      (CutShort v o true) s := by
  unfold clearTemporaryItem
  by_cases hp : Permanent path = true
  · rw [if_pos (permanent_cases hp), Program.wp_bind]
    have hfind := find_isSome_iff.mpr (hthere hp)
    refine Program.wp_mono (wp_requireRecoveryDirectory h hp ?_) ?_ (fun _ _ hc => hc)
    · intro hnone
      simp [hnone] at hfind
    · rintro _ t ⟨ht, hdb, _, hkept, hnew⟩
      have hpr : Pruned s t := by
        refine ⟨hdb, ?_, fun i hi _ => hkept i hi⟩
        intro i hi
        rcases hnew i hi with hold | ⟨_, hnone⟩
        · exact hold
        · simp [hnone] at hfind
      refine Program.wp_mono (wp_clearDirectoryContents ht hp) ?_ (fun _ _ hc => hc)
      rintro complete u ⟨hu, hpr', hgone, hshared⟩
      refine ⟨hu, hpr.trans hpr', ?_, hshared⟩
      intro hc i hi hpre
      rw [hgone hc i hi hpre]
      exact hp
  · have hcase : ¬ (path = temporaryObjects ∨ path = temporaryRestores) := by
      intro hc
      apply hp
      rcases hc with rfl | rfl <;> rfl
    rw [if_neg hcase]
    refine Program.wp_mono (wp_removeRecoveryPath h hne (by simpa using hp)) ?_ (fun _ _ hc => hc)
    rintro complete t ⟨ht, hpr, hgone, hshared⟩
    exact ⟨ht, hpr, fun hc i hi hpre => absurd hpre (hgone hc i hi), hshared⟩

theorem wp_clearTemporaryItems (ps : List Path) (s : Session) (h : Held v s)
    (hps : ∀ p ∈ ps, p ≠ [] ∧ (Permanent p = true → ∃ i ∈ s.vault.temporary, i.path = p)) :
    (clearTemporaryItems o ps).wp
      (fun complete t => Held v t ∧ Pruned s t ∧
        Cleared o (∀ p ∈ ps, ∀ i ∈ t.vault.temporary, p <+: i.path → Permanent i.path = true) complete)
      (CutShort v o true) s := by
  induction ps generalizing s with
  | nil => exact ⟨h, Pruned.refl s, by simp, Or.inl rfl⟩
  | cons p ps ih =>
    unfold clearTemporaryItems
    obtain ⟨hne, hthere⟩ := hps p (by simp)
    rw [Program.wp_bind]
    refine Program.wp_mono (wp_clearTemporaryItem h hne hthere) ?_ (fun _ _ hc => hc)
    rintro cleared t ⟨ht, hpr, hgone, hshared⟩
    rw [Program.wp_bind]
    refine Program.wp_mono (ih t ht ?_) ?_ (fun _ _ hc => hc)
    · intro q hq
      obtain ⟨hqne, hqthere⟩ := hps q (List.mem_cons_of_mem _ hq)
      refine ⟨hqne, ?_⟩
      intro hqp
      obtain ⟨i, hi, rfl⟩ := hqthere hqp
      exact ⟨i, hpr.permanent i hi hqp, rfl⟩
    · rintro rest u ⟨hu, hpr', hgone', hshared'⟩
      refine ⟨hu, hpr.trans hpr', ?_, ?_⟩
      · intro hboth
        obtain ⟨hr, hr'⟩ := Bool.and_eq_true_iff.mp hboth
        intro q hq i hi
        rcases List.mem_cons.mp hq with rfl | hq
        · exact hgone hr i (hpr'.fewer i hi)
        · exact hgone' hr' q hq i hi
      · rcases hshared with hr | hr
        · rcases hshared' with hr' | hr'
          · exact Or.inl (by rw [hr, hr']; rfl)
          · exact Or.inr hr'
        · exact Or.inr hr

/-- With both directories there and nothing else, nothing is left to tidy. -/
theorem tidied_eq_self (hall : ∀ i ∈ t, Permanent i.path = true)
    (hobjects : ∃ i ∈ t, i.path = temporaryObjects)
    (hrestores : ∃ i ∈ t, i.path = temporaryRestores) : t.tidied = t := by
  unfold Temporary.tidied
  rw [find_isSome_iff.mpr hobjects, find_isSome_iff.mpr hrestores,
    List.filter_eq_self.mpr hall]
  simp

theorem wp_clearTemporaryTree (h : Held v s) :
    (clearTemporaryTree o).wp
      (fun complete t => Held v t ∧ t.vault.db = s.vault.db ∧
        Cleared o (t.vault.temporary = Temporary.tidied v.temporary) complete)
      (CutShort v o true) s := by
  unfold clearTemporaryTree
  rw [Program.wp_bind, Program.wp_read, Program.wp_bind]
  refine Program.wp_mono (wp_clearTemporaryItems _ s h ?_) ?_ (fun _ _ hc => hc)
  · intro p hp
    obtain ⟨hthere, hne, _⟩ := mem_children.mp hp
    exact ⟨hne, fun _ => hthere⟩
  rintro complete t ⟨ht, hpr, hgone, hshared⟩
  have hpermanent : complete = true → ∀ i ∈ t.vault.temporary, Permanent i.path = true := by
    intro hc i hi
    have hi' := hpr.fewer i hi
    obtain ⟨c, hchild, hcpre⟩ :=
      h.orderly.child [] hi' List.nil_prefix (h.orderly.named i hi')
    exact hgone hc c hchild i hi hcpre
  rw [Program.wp_bind]
  refine Program.wp_mono (wp_requireRecoveryDirectory ht (by decide) (fun _ he => ?_)) ?_
    (fun _ _ hc => hc)
  · exact absurd he (by decide)
  rintro _ u ⟨hu, hdb, hobjects, _, hnew⟩
  rw [Program.wp_bind]
  refine Program.wp_mono (wp_requireRecoveryDirectory hu (by decide) (fun _ _ => ?_)) ?_
    (fun _ _ hc => hc)
  · exact find_isSome_iff.mpr hobjects
  rintro _ w ⟨hw, hdb', hrestores, hkept, hnew'⟩
  refine ⟨hw, hdb'.trans (hdb.trans hpr.db), ?_, hshared⟩
  intro hc
  rw [← hw.tidied]
  refine (tidied_eq_self ?_ ?_ hrestores).symm
  · intro i hi
    rcases hnew' i hi with hi | ⟨hi, _⟩
    · rcases hnew i hi with hi | ⟨hi, _⟩
      · exact hpermanent hc i hi
      · rw [hi]
        decide
    · rw [hi]
      decide
  · obtain ⟨i, hi, hpath⟩ := hobjects
    exact ⟨i, hkept i hi, hpath⟩

end Temporaries

end LocalVault.Repository
