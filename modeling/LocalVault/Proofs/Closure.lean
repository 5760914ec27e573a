import LocalVault.Proofs.Selection

namespace LocalVault.Restore
open Library Library.Program

/-- A requested entry, or one below a requested directory. -/
def Wanted (entries : List EntryInfo) (requested : List Bytes) (e : EntryInfo) : Prop :=
  e ∈ entries ∧ e.relativePath ≠ [] ∧ ∃ r ∈ requested, components e.relativePath = components r ∨
    ∃ d ∈ entries, d.type = .directory ∧ components d.relativePath = components r ∧
      components r <+: components e.relativePath

/-- The names of a proper ancestor that is not the root. -/
def AncestorOf (a : List Name) (e : EntryInfo) : Prop :=
  a ≠ [] ∧ a <+: components e.relativePath ∧ a ≠ components e.relativePath

/-- The root, what is wanted, and what stands above it. -/
def Selected (entries : List EntryInfo) (requested : List Bytes) (e : EntryInfo) : Prop :=
  e ∈ entries ∧ (e.relativePath = [] ∨ Wanted entries requested e ∨
    ∃ w, Wanted entries requested w ∧ AncestorOf (components e.relativePath) w)

/-- A request that cannot be met. -/
def Unmet (entries : List EntryInfo) (requested : List Bytes) : Prop :=
  (∃ r ∈ requested, isSafeStoredPath r = false ∨
    ∀ e ∈ entries, components e.relativePath ≠ components r) ∨
  ∃ w, Wanted entries requested w ∧ ∃ a, AncestorOf a w ∧
    ∀ d ∈ entries, d.type = .directory → components d.relativePath ≠ a

theorem mem_ancestors_iff {e : EntryInfo} {a : List Name} :
    a ∈ ancestors (components e.relativePath) ↔ AncestorOf a e := by
  rw [mem_ancestors]
  unfold AncestorOf
  refine and_congr_right fun hne => ?_
  constructor
  · intro h
    refine ⟨h.trans (List.dropLast_prefix _), ?_⟩
    intro he
    have hlength := h.length_le
    rw [he, List.length_dropLast] at hlength
    have := List.length_pos_of_ne_nil hne
    rw [he] at this
    omega
  · rintro ⟨⟨r, hr⟩, hproper⟩
    refine prefix_dropLast hr.symm ?_
    rintro rfl
    exact hproper (by simpa using hr)

section Keys

variable {m : ByPath}

/-- What a requested path brings in. -/
def Brings (m : ByPath) (r key : Bytes) : Prop :=
  key = pathKey r ∨ ∃ d, m.find (pathKey r) = some d ∧ d.type = .directory ∧
    ∃ row ∈ m, row.1 = key ∧
      isComponentPrefix (components r) (components row.2.relativePath) = true

/-- The keys behind one requested path. -/
def taken (m : ByPath) (r : Bytes) (d : EntryInfo) (keys : List Bytes) : List Bytes :=
  if d.type = .directory then
    ((m.filter (fun row => isComponentPrefix (components r) (components row.2.relativePath))).map
      Prod.fst).foldl insertKey (insertKey keys (pathKey r))
  else insertKey keys (pathKey r)

theorem requestedKeys_cons {r : Bytes} {rs keys : List Bytes} {d : EntryInfo}
    (hsafe : isSafeStoredPath r = true) (hfind : m.find (pathKey r) = some d) :
    requestedKeys m (r :: rs) keys = requestedKeys m rs (taken m r d keys) := by
  rw [requestedKeys, taken]
  simp only [hsafe, Bool.true_eq_false, ↓reduceIte, hfind]
  split <;> rfl

theorem mem_taken {r : Bytes} {keys : List Bytes} {d : EntryInfo}
    (hfind : m.find (pathKey r) = some d) {k : Bytes} :
    k ∈ taken m r d keys ↔ k ∈ keys ∨ Brings m r k := by
  unfold taken Brings
  simp only [hfind, Option.some.injEq, exists_eq_left']
  by_cases hd : d.type = .directory
  · rw [if_pos hd, mem_insertKeys, mem_insertKey]
    simp only [hd, true_and, List.mem_map, List.mem_filter, or_assoc]
    refine or_congr_right (or_congr_right ?_)
    constructor
    · rintro ⟨row, ⟨hrow, hpre⟩, hk⟩
      exact ⟨row, hrow, hk, hpre⟩
    · rintro ⟨row, hrow, hk, hpre⟩
      exact ⟨row, ⟨hrow, hpre⟩, hk⟩
  · rw [if_neg hd, mem_insertKey]
    simp [hd]

theorem nodup_taken {r : Bytes} {keys : List Bytes} {d : EntryInfo} (h : keys.Nodup) :
    (taken m r d keys).Nodup := by
  unfold taken
  split
  · exact nodup_insertKeys (nodup_insertKey _ h)
  · exact nodup_insertKey _ h

/-- A request is taken when each of its paths is safe and listed. -/
theorem requestedKeys_error {requested keys : List Bytes} {e : LocalVaultError}
    (h : requestedKeys m requested keys = .error e) :
    ∃ r ∈ requested, isSafeStoredPath r = false ∨ m.find (pathKey r) = none := by
  induction requested generalizing keys with
  | nil => cases h
  | cons r rs ih =>
    by_cases hsafe : isSafeStoredPath r = true
    swap
    · exact ⟨r, by simp, Or.inl (by simpa using hsafe)⟩
    cases hfind : m.find (pathKey r) with
    | none => exact ⟨r, by simp, Or.inr hfind⟩
    | some d =>
      rw [requestedKeys_cons hsafe hfind] at h
      obtain ⟨r', hr', hwhy⟩ := ih h
      exact ⟨r', List.mem_cons_of_mem _ hr', hwhy⟩

theorem requestedKeys_result {requested keys found : List Bytes}
    (h : requestedKeys m requested keys = .ok found) :
    (∀ r ∈ requested, isSafeStoredPath r = true ∧ ∃ e, m.find (pathKey r) = some e) ∧
      (keys.Nodup → found.Nodup) ∧ ∀ k, k ∈ found ↔ k ∈ keys ∨ ∃ r ∈ requested, Brings m r k := by
  induction requested generalizing keys with
  | nil =>
    cases h
    simp
  | cons r rs ih =>
    by_cases hsafe : isSafeStoredPath r = true
    swap
    · simp [requestedKeys, hsafe] at h
    cases hfind : m.find (pathKey r) with
    | none => simp [requestedKeys, hsafe, hfind] at h
    | some d =>
      rw [requestedKeys_cons hsafe hfind] at h
      obtain ⟨hall, hnodup, hmem⟩ := ih h
      refine ⟨?_, fun hn => hnodup (nodup_taken hn), ?_⟩
      · intro r' hr'
        rcases List.mem_cons.mp hr' with rfl | hr'
        · exact ⟨hsafe, d, hfind⟩
        · exact hall r' hr'
      · intro k
        rw [hmem, mem_taken hfind]
        simp [or_assoc]

theorem ancestorKeys_error {e : EntryInfo} {parents : List (List Name)} {keys : List Bytes}
    {error : LocalVaultError} (h : ancestorKeys m e parents keys = .error error) :
    ∃ a ∈ parents, ∀ d, m.find (joined a) = some d → d.type ≠ .directory := by
  induction parents generalizing keys with
  | nil => cases h
  | cons a as ih =>
    rw [ancestorKeys] at h
    cases hfind : m.find (joined a) with
    | none => exact ⟨a, by simp, by simp [hfind]⟩
    | some d =>
      by_cases hd : d.type = .directory
      · simp only [hfind, hd, ↓reduceIte] at h
        obtain ⟨b, hb, hno⟩ := ih h
        exact ⟨b, List.mem_cons_of_mem _ hb, hno⟩
      · refine ⟨a, by simp, ?_⟩
        intro d' hd'
        rw [hfind] at hd'
        cases hd'
        exact hd

/-- The ancestors of the wanted entries are refused when one of them is no listed directory. -/
theorem allAncestorKeys_error {ks keys : List Bytes} {error : LocalVaultError}
    (h : allAncestorKeys m ks keys = .error error) :
    ∃ k ∈ ks, ∃ e, m.find k = some e ∧ ∃ a ∈ ancestors (components e.relativePath),
      ∀ d, m.find (joined a) = some d → d.type ≠ .directory := by
  induction ks generalizing keys with
  | nil => cases h
  | cons k ks ih =>
    rw [allAncestorKeys] at h
    cases hfind : m.find k with
    | none =>
      simp only [hfind] at h
      obtain ⟨k', hk', hrest⟩ := ih h
      exact ⟨k', List.mem_cons_of_mem _ hk', hrest⟩
    | some e =>
      simp only [hfind] at h
      split at h
      · rename_i hone
        obtain ⟨a, ha, hno⟩ := ancestorKeys_error hone
        exact ⟨k, by simp, e, hfind, a, ha, hno⟩
      · obtain ⟨k', hk', hrest⟩ := ih h
        exact ⟨k', List.mem_cons_of_mem _ hk', hrest⟩

theorem ancestorKeys_found {e : EntryInfo} {parents : List (List Name)} {keys found : List Bytes}
    (h : ancestorKeys m e parents keys = .ok found) :
    ∀ a ∈ parents, ∃ d, m.find (joined a) = some d ∧ d.type = .directory := by
  induction parents generalizing keys with
  | nil => simp
  | cons a as ih =>
    rw [ancestorKeys] at h
    cases hfind : m.find (joined a) with
    | none => simp [hfind] at h
    | some d =>
      by_cases hd : d.type = .directory
      · simp only [hfind, hd, ↓reduceIte] at h
        intro b hb
        rcases List.mem_cons.mp hb with rfl | hb
        · exact ⟨d, hfind, hd⟩
        · exact ih h b hb
      · simp [hfind, hd] at h

theorem allAncestorKeys_found {ks keys found : List Bytes} (h : allAncestorKeys m ks keys = .ok found) :
    ∀ k ∈ ks, ∀ e, m.find k = some e → ∀ a ∈ ancestors (components e.relativePath),
      ∃ d, m.find (joined a) = some d ∧ d.type = .directory := by
  induction ks generalizing keys with
  | nil => simp
  | cons k ks ih =>
    rw [allAncestorKeys] at h
    intro l hl e he a ha
    cases hfind : m.find k with
    | none =>
      simp only [hfind] at h
      rcases List.mem_cons.mp hl with rfl | hl
      · rw [hfind] at he
        cases he
      · exact ih h l hl e he a ha
    | some d =>
      simp only [hfind] at h
      split at h
      · cases h
      · rename_i hone
        rcases List.mem_cons.mp hl with rfl | hl
        · rw [hfind] at he
          cases he
          exact ancestorKeys_found hone a ha
        · exact ih h l hl e he a ha

end Keys

section Select

variable {entries : List EntryInfo} (valid : ∀ e ∈ entries, ValidEntry e)
  (distinct : DistinctPaths entries)
include valid distinct

/-- A safe path is listed under its names. -/
theorem find_path {r : Bytes} (hsafe : isSafeStoredPath r = true) {e : EntryInfo} :
    (byPath entries []).find (pathKey r) = some e ↔
      e ∈ entries ∧ components e.relativePath = components r := by
  rw [find_entry valid distinct]
  constructor
  · rintro ⟨he, hne, hkey⟩
    exact ⟨he, components_of_key (valid_safe valid he hne) hsafe hkey⟩
  · rintro ⟨he, hc⟩
    refine ⟨he, ?_, by simp [pathKey, hc]⟩
    intro h
    apply (safe_components hsafe).2.1
    rw [← hc, h]
    simp [components, names, pieces]

/-- The names of an ancestor are read back from its key. -/
theorem find_joined {e : EntryInfo} (he : e ∈ entries) {a : List Name} (ha : AncestorOf a e)
    {d : EntryInfo} : (byPath entries []).find (joined a) = some d ↔
      d ∈ entries ∧ components d.relativePath = a := by
  obtain ⟨hne, ⟨r, hr⟩, _⟩ := ha
  have hnames : ∀ c ∈ a, c ≠ [] ∧ slash ∉ c := by
    intro c hc
    have hcomponent : c ∈ components e.relativePath := hr ▸ List.mem_append_left r hc
    have hroot : e.relativePath ≠ [] := by
      intro h
      rw [h] at hr
      have : a ++ r = [] := by simpa [components, names, pieces] using hr
      exact hne (List.append_eq_nil_iff.mp this).1
    obtain ⟨hcs, _, hall⟩ := safe_components (valid_safe valid he hroot)
    refine ⟨(hall c hcomponent).1, ?_⟩
    rw [hcs] at hcomponent
    exact names_slash_free hcomponent
  have hread : names (joined a) = a :=
    names_joined (fun c hc => (hnames c hc).1) (fun c hc => (hnames c hc).2)
  rw [find_entry valid distinct]
  constructor
  · rintro ⟨hd, hdne, hkey⟩
    refine ⟨hd, ?_⟩
    have hdsafe := valid_safe valid hd hdne
    rw [pathKey_safe hdsafe] at hkey
    rw [← components_joined hdsafe, hkey, hread]
  · rintro ⟨hd, hc⟩
    have hdne : d.relativePath ≠ [] := by
      intro h
      rw [h] at hc
      exact hne (by simpa [components, names, pieces] using hc.symm)
    exact ⟨hd, hdne, by rw [pathKey_safe (valid_safe valid hd hdne), hc]⟩

theorem mem_byPath {row : Bytes × EntryInfo} : row ∈ byPath entries [] ↔
    row.2 ∈ entries ∧ row.2.relativePath ≠ [] ∧ row.1 = pathKey row.2.relativePath := by
  obtain ⟨key, d⟩ := row
  rw [byPath_eq [] entries (by simp) (keys_distinct valid distinct), List.nil_append, List.mem_map]
  simp only [List.mem_filter, Prod.mk.injEq, decide_eq_true_eq]
  constructor
  · rintro ⟨e, ⟨he, hne⟩, rfl, rfl⟩
    exact ⟨he, hne, rfl⟩
  · rintro ⟨hd, hne, rfl⟩
    exact ⟨d, ⟨hd, hne⟩, rfl, rfl⟩

/-- What the requested paths bring in are the wanted entries. -/
theorem brings_iff {requested : List Bytes} (hsafe : ∀ r ∈ requested, isSafeStoredPath r = true)
    {e : EntryInfo} (he : e ∈ entries) (hne : e.relativePath ≠ []) :
    (∃ r ∈ requested, Brings (byPath entries []) r (pathKey e.relativePath)) ↔
      Wanted entries requested e := by
  have hesafe := valid_safe valid he hne
  unfold Wanted
  rw [and_iff_right he, and_iff_right hne]
  refine exists_congr fun r => and_congr_right fun hr => ?_
  refine or_congr ?_ ?_
  · constructor
    · exact components_of_key hesafe (hsafe r hr)
    · intro h
      simp [pathKey, h]
  · simp only [find_path valid distinct (hsafe r hr), mem_byPath valid distinct,
      isComponentPrefix_iff]
    constructor
    · rintro ⟨d, ⟨hd, hc⟩, ht, row, ⟨hrow, hrne, hrkey⟩, hkey, hpre⟩
      have hsame : components row.2.relativePath = components e.relativePath :=
        components_of_key (valid_safe valid hrow hrne) hesafe (hrkey.symm.trans hkey)
      exact ⟨d, hd, ht, hc, hsame ▸ hpre⟩
    · rintro ⟨d, hd, ht, hc, hpre⟩
      exact ⟨d, ⟨hd, hc⟩, ht, ⟨pathKey e.relativePath, e⟩, ⟨he, hne, rfl⟩, rfl, hpre⟩

omit valid in
theorem rootEntry_iff {e : EntryInfo} :
    rootEntry entries = some e ↔ e ∈ entries ∧ e.relativePath = [] := by
  have hfound : ∀ d, rootEntry entries = some d → d ∈ entries ∧ d.relativePath = [] := by
    intro d hd
    exact ⟨List.mem_reverse.mp (List.mem_of_find?_eq_some hd), by simpa using List.find?_some hd⟩
  constructor
  · exact hfound e
  · rintro ⟨he, hnil⟩
    cases hd : rootEntry entries with
    | none =>
      have hno := List.find?_eq_none.mp hd e (List.mem_reverse.mpr he)
      simp [hnil] at hno
    | some d =>
      obtain ⟨hdm, hdnil⟩ := hfound d hd
      have hsame : d = e := List.inj_on_of_nodup_map distinct hdm he (by rw [hdnil, hnil])
      rw [hsame]

theorem select_error {requested : List Bytes} {error : LocalVaultError}
    (h : selectEntries entries requested = .error error) : Unmet entries requested := by
  unfold selectEntries at h
  split at h
  · cases h
  cases hwanted : requestedKeys (byPath entries []) requested [] with
  | error e =>
    obtain ⟨r, hr, hwhy⟩ := requestedKeys_error hwanted
    refine Or.inl ⟨r, hr, ?_⟩
    by_cases hsafe : isSafeStoredPath r = false
    · exact Or.inl hsafe
    · refine Or.inr fun e he hc => ?_
      have hfind := (find_path valid distinct (by simpa using hsafe)).mpr ⟨he, hc⟩
      rcases hwhy with hno | hno
      · exact hsafe hno
      · rw [hno] at hfind
        cases hfind
  | ok wanted =>
    obtain ⟨hall, _, hmem⟩ := requestedKeys_result hwanted
    cases hkeys : allAncestorKeys (byPath entries []) (wanted.insertionSort (· ≤ ·)) wanted with
    | ok found =>
      dsimp only at h
      rw [hwanted] at h
      simp only [bind, Except.bind, hkeys] at h
      cases h
    | error e =>
      obtain ⟨k, hk, w, hfind, a, ha, hno⟩ := allAncestorKeys_error hkeys
      obtain ⟨hw, hwne, rfl⟩ := (find_entry valid distinct).mp hfind
      have hancestor := mem_ancestors_iff.mp ha
      refine Or.inr ⟨w, ?_, a, hancestor, ?_⟩
      · rw [← brings_iff valid distinct (fun r hr => (hall r hr).1) hw hwne]
        simpa using (hmem _).mp ((List.mem_insertionSort _).mp hk)
      · intro d hd ht hc
        exact hno d ((find_joined valid distinct hw hancestor).mpr ⟨hd, hc⟩) ht

/-- Entries found under different keys have different paths. -/
theorem keyed_distinct {keys : List Bytes} (h : keys.Nodup) :
    DistinctPaths ((rootEntry entries).toList ++
      (keys.insertionSort (· ≤ ·)).filterMap (fun key => (byPath entries []).find key)) := by
  have hfound : ∀ k e, (byPath entries []).find k = some e →
      e ∈ entries ∧ e.relativePath ≠ [] ∧ pathKey e.relativePath = k :=
    fun k e => (find_entry valid distinct).mp
  have hroot : ∀ e ∈ (rootEntry entries).toList, e ∈ entries ∧ e.relativePath = [] :=
    fun e he => (rootEntry_iff distinct).mp (Option.mem_toList.mp he)
  refine List.Nodup.map_on ?_ ?_
  · have hmem : ∀ e ∈ (rootEntry entries).toList ++ (keys.insertionSort (· ≤ ·)).filterMap
        (fun key => (byPath entries []).find key), e ∈ entries := by
      intro e he
      rcases List.mem_append.mp he with he | he
      · exact (hroot e he).1
      · obtain ⟨k, _, hk⟩ := List.mem_filterMap.mp he
        exact (hfound k e hk).1
    exact fun a ha b hb => List.inj_on_of_nodup_map distinct (hmem a ha) (hmem b hb)
  · rw [List.nodup_append]
    refine ⟨?_, ?_, ?_⟩
    · cases rootEntry entries <;> simp
    · apply List.Nodup.filterMap
      · intro k l e hk hl
        exact (hfound k e hk).2.2.symm.trans (hfound l e hl).2.2
      · exact (List.perm_insertionSort _ _).nodup_iff.mpr h
    · rintro a ha b hb rfl
      obtain ⟨k, _, hk⟩ := List.mem_filterMap.mp hb
      exact (hfound k a hk).2.1 (hroot a ha).2

theorem select_result {requested : List Bytes} {selected : List EntryInfo} (hne : requested ≠ [])
    (h : selectEntries entries requested = .ok selected) :
    ¬ Unmet entries requested ∧ DistinctPaths selected ∧
      ∀ e, e ∈ selected ↔ Selected entries requested e := by
  have hsub := selectEntries_mem h
  unfold selectEntries at h
  rw [if_neg hne] at h
  obtain ⟨wanted, hwanted, h⟩ := bind_ok.mp h
  obtain ⟨all, hkeys, h⟩ := bind_ok.mp h
  cases h
  obtain ⟨hlisted, hnodup, hmem⟩ := requestedKeys_result hwanted
  have hsafe : ∀ r ∈ requested, isSafeStoredPath r = true := fun r hr => (hlisted r hr).1
  have hfound := allAncestorKeys_found hkeys
  obtain ⟨all', hkeys', hnall, hall⟩ := allAncestorKeys_ok _ wanted hfound
  obtain rfl : all' = all := by
    rw [hkeys] at hkeys'
    exact (Except.ok.inj hkeys').symm
  have hkey : ∀ {e}, e ∈ entries → e.relativePath ≠ [] →
      (pathKey e.relativePath ∈ wanted ↔ Wanted entries requested e) := by
    intro e he hene
    rw [← brings_iff valid distinct hsafe he hene, hmem]
    simp
  refine ⟨?_, ?_, ?_⟩
  · rintro (⟨r, hr, hwhy⟩ | ⟨w, hw, a, ha, hno⟩)
    · obtain ⟨hs, d, hd⟩ := hlisted r hr
      obtain ⟨hdm, hc⟩ := (find_path valid distinct hs).mp hd
      rcases hwhy with hwhy | hwhy
      · rw [hs] at hwhy
        cases hwhy
      · exact hwhy d hdm hc
    · have hk := (List.mem_insertionSort (r := (· ≤ ·))).mpr ((hkey hw.1 hw.2.1).mpr hw)
      obtain ⟨d, hd, ht⟩ := hfound _ hk w
        ((find_entry valid distinct).mpr ⟨hw.1, hw.2.1, rfl⟩) a (mem_ancestors_iff.mpr ha)
      obtain ⟨hdm, hc⟩ := (find_joined valid distinct hw.1 ha).mp hd
      exact hno d hdm ht hc
  · exact keyed_distinct valid distinct (hnall (hnodup List.nodup_nil))
  · intro e
    rw [List.mem_append, Option.mem_toList, rootEntry_iff distinct,
      List.mem_filterMap]
    simp only [List.mem_insertionSort, hall]
    constructor
    · rintro (⟨he, hnil⟩ | ⟨k, hk, hfind⟩)
      · exact ⟨he, Or.inl hnil⟩
      · obtain ⟨he, hene, rfl⟩ := (find_entry valid distinct).mp hfind
        refine ⟨he, Or.inr ?_⟩
        rcases hk with hk | ⟨l, hl, w, hw, a, ha, hka⟩
        · exact Or.inl ((hkey he hene).mp hk)
        · obtain ⟨hwm, hwne, rfl⟩ := (find_entry valid distinct).mp hw
          have hancestor := mem_ancestors_iff.mp ha
          rw [hka] at hfind
          obtain ⟨_, hc⟩ := (find_joined valid distinct hwm hancestor).mp hfind
          exact Or.inr ⟨w, (hkey hwm hwne).mp hl, hc ▸ hancestor⟩
    · rintro ⟨he, hnil | hw | ⟨w, hw, ha⟩⟩
      · exact Or.inl ⟨he, hnil⟩
      · exact Or.inr ⟨_, Or.inl ((hkey he hw.2.1).mpr hw),
          (find_entry valid distinct).mpr ⟨he, hw.2.1, rfl⟩⟩
      · refine Or.inr ⟨joined (components e.relativePath), Or.inr ⟨_, (hkey hw.1 hw.2.1).mpr hw, w,
          (find_entry valid distinct).mpr ⟨hw.1, hw.2.1, rfl⟩, _, mem_ancestors_iff.mpr ha, rfl⟩,
          (find_joined valid distinct hw.1 ha).mpr ⟨he, rfl⟩⟩

/-- The entries right below the root. -/
def TopLevel (entries : List EntryInfo) (requested : List Bytes) : Prop :=
  ∀ r, r ∈ requested ↔ ∃ e ∈ entries, e.relativePath = r ∧ (components r).length = 1

/-- Whoever asks for all that is right below the root gets everything. -/
theorem select_topLevel (closed : AncestorClosed entries) {requested : List Bytes}
    (htop : TopLevel entries requested) : ∃ selected, selectEntries entries requested = .ok selected ∧
      ∀ e, e ∈ selected ↔ e ∈ entries := by
  by_cases hne : requested = []
  · exact ⟨entries, by simp [selectEntries, hne], fun _ => Iff.rfl⟩
  have htopSafe : ∀ e ∈ entries, (components e.relativePath).length = 1 → e.relativePath ≠ [] := by
    intro e _ hl h
    rw [h] at hl
    simp [components, names, pieces] at hl
  obtain ⟨selected, hselected, _, _⟩ := selectEntries_ok valid distinct closed (fun r hr => by
    obtain ⟨e, he, rfl, hl⟩ := (htop r).mp hr
    exact ⟨valid_safe valid he (htopSafe e he hl), e, he, rfl⟩)
  refine ⟨selected, hselected, fun e => ?_⟩
  obtain ⟨_, _, hmem⟩ := select_result valid distinct hne hselected
  rw [hmem]
  refine ⟨fun h => h.1, fun he => ⟨he, ?_⟩⟩
  by_cases hroot : e.relativePath = []
  · exact Or.inl hroot
  refine Or.inr (Or.inl ⟨he, hroot, ?_⟩)
  cases hc : components e.relativePath with
  | nil => exact absurd hc (safe_components (valid_safe valid he hroot)).2.1
  | cons c cs =>
    by_cases hcs : cs = []
    · exact ⟨e.relativePath, (htop _).mpr ⟨e, he, rfl, by rw [hc, hcs]; rfl⟩, Or.inl hc.symm⟩
    · obtain ⟨d, hd, ht, hdc⟩ := closed e he [c] cs hc (by simp) hcs
      refine ⟨d.relativePath, (htop _).mpr ⟨d, hd, rfl, by rw [hdc]; rfl⟩, Or.inr ⟨d, hd, ht, rfl, ?_⟩⟩
      rw [hdc]
      simp

end Select

/-- A selection of given paths is refused for one of the reasons of `Unmet`, or it is the root
with all that is wanted and all above it; and the paths right below the root select what the empty
request selects, which is everything. -/
theorem select_closure (entries : List EntryInfo) (accepted : validateEntries entries = .ok ())
    (distinct : DistinctPaths entries) :
    (∀ requested, requested ≠ [] →
      (∀ error, selectEntries entries requested = .error error → Unmet entries requested) ∧
      ∀ selected, selectEntries entries requested = .ok selected → ¬ Unmet entries requested ∧
        DistinctPaths selected ∧ ∀ e, e ∈ selected ↔ Selected entries requested e) ∧
    selectEntries entries [] = .ok entries ∧
    (AncestorClosed entries → ∀ requested, TopLevel entries requested →
      ∃ selected, selectEntries entries requested = .ok selected ∧ ∀ e, e ∈ selected ↔ e ∈ entries) := by
  have valid := validateEntriesFrom_valid accepted
  refine ⟨?_, rfl, ?_⟩
  · intro requested hne
    exact ⟨fun error h => select_error valid distinct h,
      fun selected h => select_result valid distinct hne h⟩
  · exact fun closed requested htop => select_topLevel valid distinct closed htop

def entryAt (relativePath : Bytes) (type : EntryType) : EntryInfo :=
  ⟨1, 1, relativePath, type, 0, 0, 0, none, none, none⟩

/-- A directory with a file in it, beside a file whose name starts like the directory's. -/
def abEntries : List EntryInfo :=
  [entryAt [] .directory, entryAt (ascii "a") .directory, entryAt (ascii "a/b") .regularFile,
    entryAt (ascii "ab") .regularFile]

theorem select_closure_ab : ¬ Unmet abEntries [ascii "a"] := by
  have hdistinct : DistinctPaths abEntries := by
    unfold DistinctPaths
    decide
  have h := (select_closure abEntries (by decide) hdistinct).1 [ascii "a"] (by decide)
  have hok : (match selectEntries abEntries [ascii "a"] with
      | .ok _ => true
      | .error _ => false) = true := by decide +kernel
  cases hs : selectEntries abEntries [ascii "a"] with
  | ok selected => exact (h.2 selected hs).1
  | error e => simp [hs] at hok

/-- Nothing is requested, and everything is selected. -/
theorem select_nothing : selectEntries abEntries [] = .ok abEntries ∧
    entryAt (ascii "ab") .regularFile ∈ abEntries ∧
    ¬ Selected abEntries [] (entryAt (ascii "ab") .regularFile) := by
  refine ⟨rfl, by decide, ?_⟩
  rintro ⟨_, h | ⟨_, _, r, hr, _⟩ | ⟨w, ⟨_, _, r, hr, _⟩, _⟩⟩
  · revert h
    decide
  · cases hr
  · cases hr

end LocalVault.Restore
