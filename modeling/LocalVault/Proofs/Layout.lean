import LocalVault.Proofs.Creation

namespace LocalVault.Repository
open Library Library.FileTree Library.Program

section Records

variable {root : Path} {missing : List Path}

theorem layout_record {i : Nat} {tail : Path} {held : Bool}
    (h : layoutRecords[i]? = some (tail, held)) :
    (creationRecords root missing)[missing.length + i]? = some ⟨bare root ++ tail, false, held⟩ := by
  unfold creationRecords
  rw [List.getElem?_append_right (by simp)]
  simp [h]

theorem missing_record {i : Nat} {path : Path} (h : missing[i]? = some path) :
    (creationRecords root missing)[i]? = some ⟨path, false, true⟩ := by
  unfold creationRecords
  obtain ⟨hlt, _⟩ := List.getElem?_eq_some_iff.mp h
  rw [List.getElem?_append_left (by simpa using hlt)]
  simp [h]

theorem creationRecords_fresh : ∀ r ∈ creationRecords root missing, r.created = false := by
  intro r hr
  rcases List.mem_append.mp hr with hr | hr
  · obtain ⟨_, _, rfl⟩ := List.mem_map.mp hr
    rfl
  · obtain ⟨_, _, rfl⟩ := List.mem_map.mp hr
    rfl

theorem layout_ordinary : ∀ r ∈ layoutRecords, ∀ x ∈ r.1, Ordinary x := by
  unfold Ordinary
  decide

theorem bare_layout (hroot : ∀ x ∈ bare root, Ordinary x) {r : Path × Bool}
    (hr : r ∈ layoutRecords) : bare (bare root ++ r.1) = bare root ++ r.1 := by
  apply bare_ordinary
  intro x hx
  rcases List.mem_append.mp hx with hx | hx
  · exact hroot x hx
  · exact layout_ordinary r hr x hx

/-- The paths found missing on the way down from `a` to the root. -/
structure Missing (root : Path) (missing : List Path) (a r : Path) : Prop where
  split : root = a ++ r
  paths : missing = r.inits.tail.map (a ++ ·)
  ordinary : ∀ x ∈ bare root, Ordinary x

theorem Missing.length {a r : Path} (h : Missing root missing a r) : missing.length = r.length := by
  simp [h.paths]

theorem Missing.get {a r : Path} (h : Missing root missing a r) {i : Nat} (hi : i < r.length) :
    missing[i]? = some (a ++ r.take (i + 1)) := by
  have hlen : i < r.inits.tail.length := by simpa using hi
  rw [h.paths, List.getElem?_map, List.getElem?_eq_getElem hlen]
  simp [List.getElem_tail, List.getElem_inits]

theorem bare_prefix {p q : Path} (h : p <+: q) (hq : ∀ x ∈ bare q, Ordinary x) :
    bare p = p ∧ p <+: bare q ∨ p = q := by
  by_cases he : p = q
  · exact Or.inr he
  · have hpre : p <+: bare q := by
      unfold bare
      split
      · obtain ⟨r, rfl⟩ := h
        have hr : r ≠ [] := fun hr => he (by simp [hr])
        rw [List.dropLast_append_of_ne_nil hr]
        exact List.prefix_append _ _
      · exact h
    refine Or.inl ⟨bare_ordinary (fun x hx => hq x (hpre.subset hx)), hpre⟩

/-- The records of a missing root, without a final separator. -/
theorem Missing.bare {a r : Path} (h : Missing root missing a r) {i : Nat} (hi : i < r.length) :
    LocalVault.bare (a ++ r.take (i + 1)) <+: LocalVault.bare root ∧
      (LocalVault.bare (a ++ r.take (i + 1))).length =
        min (a.length + (i + 1)) (LocalVault.bare root).length := by
  have hpre : a ++ r.take (i + 1) <+: root := by
    rw [h.split]
    exact (List.prefix_append_right_inj a).mpr (List.take_prefix _ _)
  have hlen : (a ++ r.take (i + 1)).length = a.length + (i + 1) := by
    rw [List.length_append, List.length_take]
    omega
  rcases bare_prefix hpre h.ordinary with ⟨he, hle⟩ | he
  · rw [he]
    refine ⟨hle, ?_⟩
    have := hle.length_le
    omega
  · rw [he]
    refine ⟨List.prefix_rfl, ?_⟩
    have hroot : root.length = a.length + (i + 1) := by rw [← hlen, he]
    have : (LocalVault.bare root).length ≤ root.length := by
      unfold LocalVault.bare
      split <;> simp
    omega

theorem Missing.layered {a r : Path} (h : Missing root missing a r) :
    Layered ((creationRecords root missing).map CreationRecord.place) := by
  have hplaces : (creationRecords root missing).map CreationRecord.place =
      missing.map (fun p => (LocalVault.bare p, true)) ++
        layoutRecords.map (fun r => (LocalVault.bare root ++ r.1, r.2)) := by
    unfold creationRecords
    rw [List.map_append, List.map_map, List.map_map]
    congr 1
    apply List.map_congr_left
    intro r hr
    simp [CreationRecord.place, bare_layout h.ordinary hr]
  have habove : ∀ p ∈ missing, LocalVault.bare p <+: LocalVault.bare root := by
    intro p hp
    obtain ⟨i, hlt, rfl⟩ := List.getElem_of_mem hp
    have hi : i < r.length := by rwa [← h.length]
    have := h.get hi
    rw [List.getElem?_eq_getElem hlt] at this
    rw [Option.some.inj this]
    exact (h.bare hi).1
  have hbelow : ∀ p ∈ missing, ∀ q ∈ layoutRecords,
      ¬ LocalVault.bare root ++ q.1 <+: LocalVault.bare p := by
    intro p hp q hq hle
    have h₁ := hle.length_le
    have h₂ := (habove p hp).length_le
    have hpos : ∀ q ∈ layoutRecords, 0 < q.1.length := by decide
    have h₃ := hpos q hq
    rw [List.length_append] at h₁
    omega
  rw [hplaces]
  constructor
  · rw [List.pairwise_append]
    refine ⟨?_, ?_, ?_⟩
    · rw [List.pairwise_map, List.pairwise_iff_getElem]
      intro i j hi hj hij hle
      have hi' : i < r.length := by rwa [← h.length]
      have hj' : j < r.length := by rwa [← h.length]
      have hgi := h.get hi'
      have hgj := h.get hj'
      rw [List.getElem?_eq_getElem hi] at hgi
      rw [List.getElem?_eq_getElem hj] at hgj
      dsimp only at hle ⊢
      rw [Option.some.inj hgi, Option.some.inj hgj] at hle ⊢
      refine (hle.eq_of_length ?_).symm
      have := hle.length_le
      rw [(h.bare hi').2, (h.bare hj').2] at this ⊢
      omega
    · rw [List.pairwise_map]
      have htails : layoutRecords.Pairwise (fun a b => b.1 <+: a.1 → a.1 = b.1) := by decide
      refine htails.imp ?_
      intro p q hpq hle
      rw [hpq ((List.prefix_append_right_inj _).mp hle)]
    · intro p hp q hq hle
      obtain ⟨m, hm, rfl⟩ := List.mem_map.mp hp
      obtain ⟨l, hl, rfl⟩ := List.mem_map.mp hq
      exact absurd hle (hbelow m hm l hl)
  · intro p hp q hq hle hheld
    rcases List.mem_append.mp hp with hp | hp
    · obtain ⟨m, _, rfl⟩ := List.mem_map.mp hp
      rfl
    · obtain ⟨l, hl, rfl⟩ := List.mem_map.mp hp
      rcases List.mem_append.mp hq with hq | hq
      · obtain ⟨m, hm, rfl⟩ := List.mem_map.mp hq
        exact absurd hle (hbelow m hm l hl)
      · obtain ⟨k, hk, rfl⟩ := List.mem_map.mp hq
        have htails : ∀ a ∈ layoutRecords, ∀ b ∈ layoutRecords, a.1 <+: b.1 → b.2 = true →
            a.2 = true := by decide
        exact htails l hl k hk ((List.prefix_append_right_inj _).mp hle) hheld

end Records

section Layout

variable {c : Site} {root rel : Path} {missing : List Path} {standing files : Path → Prop}
  {changed : Bool} {s : Making} {h : Surroundings}

/-- What a site has to do with the ledger of a run. -/
structure Rooted (c : Site) (root : Path) (missing : List Path) (rel : Path) : Prop where
  records : c.records = creationRecords root missing
  path : bare root = c.anchor ++ rel
  ordinary : ∀ x ∈ bare root, Ordinary x

theorem Rooted.record (hc : Rooted c root missing rel) {i : Nat} {tail : Path} {held : Bool}
    (hi : layoutRecords[i]? = some (tail, held)) :
    ∃ r, c.records[missing.length + i]? = some r ∧ bare r.path = r.path ∧
      r.path = c.anchor ++ (rel ++ tail) := by
  refine ⟨⟨bare root ++ tail, false, held⟩, ?_, ?_, ?_⟩
  · rw [hc.records]
    exact layout_record hi
  · exact bare_layout hc.ordinary (List.mem_of_getElem? hi)
  · dsimp only
    rw [hc.path, List.append_assoc]

theorem layoutDirectory_stage (hc : Rooted c root missing rel) {i : Nat} {d : Path} {x : Name}
    {held : Bool} (hs : Stage c (missing.length + i) standing files changed s)
    (hi : layoutRecords[i]? = some (d ++ [x], held)) (hd : standing (rel ++ d)) :
    (createDirectory h (missing.length + i)).wp
      (fun _ => Stage c (missing.length + (i + 1))
        (fun k => standing k ∨ k = rel ++ (d ++ [x])) files changed)
      (fun _ => Staged c changed) s := by
  obtain ⟨r, hr, hb, hp⟩ := hc.record hi
  have hx := (layout_ordinary _ (List.mem_of_getElem? hi) x (by simp)).2
  have := createDirectory_stage (h := h) hs hr (d := rel ++ d) (x := x)
    (by rw [hb, hp]; simp) hd hx
  simpa [Nat.add_assoc] using this

theorem layoutFile_stage (hc : Rooted c root missing rel) {i : Nat} {x : Name} {held : Bool}
    (hs : Stage c (missing.length + i) standing files changed s)
    (hi : layoutRecords[i]? = some ([x], held)) (hd : standing rel) :
    (createEmptyFile h (missing.length + i)).wp
      (fun _ => Stage c (missing.length + (i + 1)) standing
        (fun k => files k ∨ k = rel ++ [x]) changed)
      (fun _ => Staged c changed) s := by
  obtain ⟨r, hr, hb, hp⟩ := hc.record hi
  have hx := (layout_ordinary _ (List.mem_of_getElem? hi) x (by simp)).2
  exact createEmptyFile_stage hs hr hb hp hd hx

def layoutDirectories : List Path :=
  [[objectsName], [temporaryName], [temporaryName, objectsName], [temporaryName, restoresName],
   [logsName]]

/-- The five directories below the root. -/
theorem layoutDirectories_stage (hc : Rooted c root missing rel)
    (hs : Stage c missing.length standing files changed s) (hd : standing rel) :
    (each (createDirectory h) ((List.range 5).map (missing.length + ·))).wp
      (fun _ s' => ∃ standing', Stage c (missing.length + 5) standing' files changed s' ∧
        standing' rel ∧ ∀ d ∈ layoutDirectories, standing' (rel ++ d))
      (fun _ => Staged c changed) s := by
  have hlist : (List.range 5).map (missing.length + ·) =
      [missing.length, missing.length + 1, missing.length + 2, missing.length + 3,
        missing.length + 4] := rfl
  rw [hlist]
  simp only [each, wp_bind, wp_pure]
  refine wp_mono (layoutDirectory_stage hc (i := 0) (d := []) hs rfl (by simpa using hd)) ?_
    (fun _ _ h => h)
  intro _ s₁ hs₁
  refine wp_mono (layoutDirectory_stage hc (i := 1) (d := []) hs₁ rfl (Or.inl (by simpa using hd)))
    ?_ (fun _ _ h => h)
  intro _ s₂ hs₂
  refine wp_mono (layoutDirectory_stage hc (i := 2) (d := [temporaryName]) hs₂ rfl
    (Or.inr rfl)) ?_ (fun _ _ h => h)
  intro _ s₃ hs₃
  refine wp_mono (layoutDirectory_stage hc (i := 3) (d := [temporaryName]) hs₃ rfl
    (Or.inl (Or.inr rfl))) ?_ (fun _ _ h => h)
  intro _ s₄ hs₄
  refine wp_mono (layoutDirectory_stage hc (i := 4) (d := []) hs₄ rfl
    (by rw [List.append_nil]; exact Or.inl (Or.inl (Or.inl (Or.inl hd))))) ?_ (fun _ _ h => h)
  intro _ s₅ hs₅
  refine ⟨_, hs₅, Or.inl (Or.inl (Or.inl (Or.inl (Or.inl hd)))), ?_⟩
  simp [layoutDirectories]

/-- The four files of the database. -/
theorem layoutFiles_stage (hc : Rooted c root missing rel)
    (hs : Stage c (missing.length + 6) standing files changed s) (hd : standing rel) :
    (each (createEmptyFile h) ((List.range 4).map (missing.length + 6 + ·))).wp
      (fun _ s' => ∃ files', Stage c (missing.length + 10) standing files' changed s' ∧
        (∀ k, files k → files' k) ∧ ∀ name ∈ sqliteNames, files' (rel ++ [name]))
      (fun _ => Staged c changed) s := by
  have hlist : (List.range 4).map (missing.length + 6 + ·) =
      [missing.length + 6, missing.length + 7, missing.length + 8, missing.length + 9] := rfl
  rw [hlist]
  simp only [each, wp_bind, wp_pure]
  refine wp_mono (layoutFile_stage hc (i := 6) hs rfl hd) ?_ (fun _ _ h => h)
  intro _ s₁ hs₁
  refine wp_mono (layoutFile_stage hc (i := 7) hs₁ rfl hd) ?_ (fun _ _ h => h)
  intro _ s₂ hs₂
  refine wp_mono (layoutFile_stage hc (i := 8) hs₂ rfl hd) ?_ (fun _ _ h => h)
  intro _ s₃ hs₃
  refine wp_mono (layoutFile_stage hc (i := 9) hs₃ rfl hd) ?_ (fun _ _ h => h)
  intro _ s₄ hs₄
  refine ⟨_, hs₄, fun k hk => Or.inl (Or.inl (Or.inl (Or.inl hk))), ?_⟩
  simp [sqliteNames]

end Layout

end LocalVault.Repository
