import LocalVault.Proofs.Entries

namespace LocalVault

/-- The key of a safe path is its names, joined. -/
theorem pathKey_safe {text : Bytes} (h : isSafeStoredPath text = true) :
    pathKey text = joined (components text) := by
  obtain ⟨he, _, _⟩ := safe_components h
  unfold pathKey
  cases hc : components text with
  | nil => rfl
  | cons c cs =>
    have hmem : c ∈ names text := by simp [← he, hc]
    have hne : c ≠ [slash] := by
      rintro rfl
      exact names_slash_free hmem (by simp)
    simp [hne]

theorem components_joined {text : Bytes} (h : isSafeStoredPath text = true) :
    names (joined (components text)) = components text := by
  obtain ⟨he, _, hall⟩ := safe_components h
  apply names_joined
  · exact fun c hc => (hall c hc).1
  · intro c hc
    rw [he] at hc
    exact names_slash_free hc

/-- Safe paths with one key are one path. -/
theorem components_of_key {a b : Bytes} (ha : isSafeStoredPath a = true)
    (hb : isSafeStoredPath b = true) (h : pathKey a = pathKey b) : components a = components b := by
  rw [pathKey_safe ha, pathKey_safe hb] at h
  rw [← components_joined ha, h, components_joined hb]

namespace Restore
open Library Library.FileTree

/-- Every ancestor of a listed entry is a listed directory. -/
def AncestorClosed (entries : List EntryInfo) : Prop :=
  ∀ e ∈ entries, ∀ q r, components e.relativePath = q ++ r → q ≠ [] → r ≠ [] →
    ∃ d ∈ entries, d.type = .directory ∧ components d.relativePath = q

/-- No two entries name one path. -/
def DistinctPaths (entries : List EntryInfo) : Prop :=
  (entries.map (fun e => components e.relativePath)).Nodup

section Keys

variable {entries : List EntryInfo}

theorem valid_safe (valid : ∀ e ∈ entries, ValidEntry e) {e : EntryInfo} (he : e ∈ entries)
    (hne : e.relativePath ≠ []) : isSafeStoredPath e.relativePath = true := by
  rcases valid e he with ⟨h, _⟩ | h
  · exact absurd h hne
  · exact h

/-- The map of a snapshot holds each entry under its key. -/
theorem byPath_eq (m : ByPath) (entries : List EntryInfo)
    (fresh : ∀ e ∈ entries, e.relativePath ≠ [] → ∀ r ∈ m, r.1 ≠ pathKey e.relativePath)
    (distinct : entries.Pairwise (fun a b => a.relativePath ≠ [] → b.relativePath ≠ [] →
      pathKey a.relativePath ≠ pathKey b.relativePath)) :
    byPath entries m = m ++ (entries.filter (fun e => e.relativePath ≠ [])).map
      (fun e => (pathKey e.relativePath, e)) := by
  induction entries generalizing m with
  | nil => simp [byPath]
  | cons e es ih =>
    obtain ⟨hhead, htail⟩ := List.pairwise_cons.mp distinct
    unfold byPath
    by_cases hr : e.relativePath = []
    · simp only [hr, ↓reduceIte]
      rw [ih m (fun d hd => fresh d (List.mem_cons_of_mem _ hd)) htail]
      simp [hr]
    · have hnew : m.any (fun r => r.1 == pathKey e.relativePath) = false := by
        simpa [List.any_eq_false] using fun a b hab => fresh e (by simp) hr (a, b) hab
      simp only [hr, ↓reduceIte, ByPath.emplace, hnew, Bool.false_eq_true]
      rw [ih (m ++ [(pathKey e.relativePath, e)]) ?_ htail]
      · simp [hr]
      · intro d hd hdr r hm
        rcases List.mem_append.mp hm with hm | hm
        · exact fresh d (List.mem_cons_of_mem _ hd) hdr r hm
        · rw [List.mem_singleton.mp hm]
          exact hhead d hd hr hdr

variable (valid : ∀ e ∈ entries, ValidEntry e) (distinct : DistinctPaths entries)
include valid distinct

theorem keys_distinct : entries.Pairwise (fun a b => a.relativePath ≠ [] → b.relativePath ≠ [] →
    pathKey a.relativePath ≠ pathKey b.relativePath) := by
  have hpair := List.pairwise_map.mp distinct
  refine hpair.imp_of_mem ?_
  intro a b ha hb hne har hbr hkey
  exact hne (components_of_key (valid_safe valid ha har) (valid_safe valid hb hbr) hkey)

theorem find_entry {key : Bytes} {e : EntryInfo} :
    (byPath entries []).find key = some e ↔
      e ∈ entries ∧ e.relativePath ≠ [] ∧ pathKey e.relativePath = key := by
  have hkeys := keys_distinct valid distinct
  have hmap := byPath_eq [] entries (by simp) hkeys
  constructor
  · intro h
    have hm := find_mem h
    rw [hmap, List.nil_append, List.mem_map] at hm
    obtain ⟨d, hd, he⟩ := hm
    cases he
    have := List.mem_filter.mp hd
    exact ⟨this.1, by simpa using this.2, rfl⟩
  · rintro ⟨he, hne, rfl⟩
    unfold ByPath.find
    have hmem : (pathKey e.relativePath, e) ∈ byPath entries [] := by
      rw [hmap, List.nil_append]
      exact List.mem_map.mpr ⟨e, List.mem_filter.mpr ⟨he, by simpa using hne⟩, rfl⟩
    cases hf : List.find? (fun r => r.1 == pathKey e.relativePath) (byPath entries []) with
    | none => simpa using List.find?_eq_none.mp hf _ hmem
    | some r =>
      have hr := List.mem_of_find?_eq_some hf
      have hk := List.find?_some hf
      simp only [beq_iff_eq] at hk
      rw [hmap, List.nil_append, List.mem_map] at hr
      obtain ⟨d, hd, rfl⟩ := hr
      obtain ⟨hd, hdr⟩ := List.mem_filter.mp hd
      have hcomp := components_of_key (valid_safe valid hd (by simpa using hdr))
        (valid_safe valid he hne) hk
      simpa using List.inj_on_of_nodup_map distinct hd he hcomp

end Keys

theorem mem_insertKey {keys : List Bytes} {key k : Bytes} :
    k ∈ insertKey keys key ↔ k ∈ keys ∨ k = key := by
  unfold insertKey
  split
  · constructor
    · exact Or.inl
    · rintro (h | rfl)
      · exact h
      · assumption
  · simp

theorem nodup_insertKey {keys : List Bytes} (key : Bytes) (h : keys.Nodup) :
    (insertKey keys key).Nodup := by
  unfold insertKey
  split
  · exact h
  · rename_i hn
    rw [List.nodup_append]
    refine ⟨h, by simp, ?_⟩
    rintro a ha b hb rfl
    exact hn (List.mem_singleton.mp hb ▸ ha)

theorem mem_insertKeys {new keys : List Bytes} {k : Bytes} :
    k ∈ new.foldl insertKey keys ↔ k ∈ keys ∨ k ∈ new := by
  induction new generalizing keys with
  | nil => simp
  | cons n ns ih =>
    rw [List.foldl_cons, ih, mem_insertKey, List.mem_cons]
    tauto

theorem nodup_insertKeys {new keys : List Bytes} (h : keys.Nodup) :
    (new.foldl insertKey keys).Nodup := by
  induction new generalizing keys with
  | nil => exact h
  | cons n ns ih => exact ih (nodup_insertKey n h)

theorem mem_ancestors {path a : List Name} : a ∈ ancestors path ↔ a ≠ [] ∧ a <+: path.dropLast := by
  unfold ancestors
  rw [List.mem_reverse]
  cases hp : path.dropLast with
  | nil => simp
  | cons c cs =>
    have htail : (c :: cs).inits.tail = cs.inits.map (List.cons c) := by simp [List.inits]
    rw [htail, List.mem_map]
    constructor
    · rintro ⟨b, hb, rfl⟩
      exact ⟨by simp, (List.prefix_cons_inj c).mpr (List.mem_inits _ _ |>.mp hb)⟩
    · rintro ⟨hne, hpre⟩
      cases a with
      | nil => exact absurd rfl hne
      | cons d ds =>
        obtain ⟨rfl, hds⟩ := List.cons_prefix_cons.mp hpre
        exact ⟨ds, (List.mem_inits _ _).mpr hds, rfl⟩

/-- The requested keys, once every requested path is safe and listed. -/
theorem requestedKeys_ok {m : ByPath} {requested : List Bytes} {keys : List Bytes}
    (hr : ∀ r ∈ requested, isSafeStoredPath r = true ∧ ∃ e, m.find (pathKey r) = some e)
    (hkeys : keys.Nodup) (hin : ∀ k ∈ keys, ∃ r ∈ m, r.1 = k) :
    ∃ found, requestedKeys m requested keys = .ok found ∧ found.Nodup ∧
      ∀ k ∈ found, ∃ r ∈ m, r.1 = k := by
  induction requested generalizing keys with
  | nil => exact ⟨keys, rfl, hkeys, hin⟩
  | cons r rs ih =>
    obtain ⟨hsafe, e, he⟩ := hr r (by simp)
    have hrest := fun d hd => hr d (List.mem_cons_of_mem _ hd)
    have hin' : ∀ k ∈ insertKey keys (pathKey r), ∃ r ∈ m, r.1 = k := by
      intro k hk
      rcases mem_insertKey.mp hk with hk | rfl
      · exact hin k hk
      · exact ⟨_, find_mem he, rfl⟩
    unfold requestedKeys
    simp only [hsafe, Bool.true_eq_false, ↓reduceIte, he]
    split
    · apply ih hrest (nodup_insertKeys (nodup_insertKey _ hkeys))
      intro k hk
      rcases mem_insertKeys.mp hk with hk | hk
      · exact hin' k hk
      · obtain ⟨row, hrow, rfl⟩ := List.mem_map.mp hk
        exact ⟨row, (List.mem_filter.mp hrow).1, rfl⟩
    · exact ih hrest (nodup_insertKey _ hkeys) hin'

theorem ancestorKeys_ok {m : ByPath} {e : EntryInfo} {parents : List (List Name)}
    (keys : List Bytes) (hp : ∀ a ∈ parents, ∃ d, m.find (joined a) = some d ∧ d.type = .directory) :
    ∃ found, ancestorKeys m e parents keys = .ok found ∧ (keys.Nodup → found.Nodup) ∧
      ∀ k, k ∈ found ↔ k ∈ keys ∨ ∃ a ∈ parents, k = joined a := by
  induction parents generalizing keys with
  | nil => exact ⟨keys, rfl, fun h => h, by simp⟩
  | cons a as ih =>
    obtain ⟨d, hd, ht⟩ := hp a (by simp)
    obtain ⟨found, hf, hn, hm⟩ := ih (insertKey keys (joined a))
      (fun b hb => hp b (List.mem_cons_of_mem _ hb))
    refine ⟨found, by simpa [ancestorKeys, hd, ht] using hf, fun h => hn (nodup_insertKey _ h), ?_⟩
    intro k
    rw [hm, mem_insertKey]
    simp only [List.mem_cons, exists_eq_or_imp]
    tauto

theorem allAncestorKeys_ok {m : ByPath} (ks keys : List Bytes)
    (hp : ∀ k ∈ ks, ∀ e, m.find k = some e → ∀ a ∈ ancestors (components e.relativePath),
      ∃ d, m.find (joined a) = some d ∧ d.type = .directory) :
    ∃ found, allAncestorKeys m ks keys = .ok found ∧ (keys.Nodup → found.Nodup) ∧
      ∀ k, k ∈ found ↔ k ∈ keys ∨ ∃ l ∈ ks, ∃ e, m.find l = some e ∧
        ∃ a ∈ ancestors (components e.relativePath), k = joined a := by
  induction ks generalizing keys with
  | nil => exact ⟨keys, rfl, fun h => h, by simp⟩
  | cons l ls ih =>
    have hrest := fun k hk => hp k (List.mem_cons_of_mem _ hk)
    unfold allAncestorKeys
    cases hf : m.find l with
    | none =>
      obtain ⟨found, hfound, hn, hm⟩ := ih keys hrest
      refine ⟨found, hfound, hn, fun k => ?_⟩
      rw [hm]
      simp [hf]
    | some e =>
      obtain ⟨first, hfirst, hn₁, hm₁⟩ := ancestorKeys_ok (e := e) keys
        (hp l (by simp) e hf)
      obtain ⟨found, hfound, hn, hm⟩ := ih first hrest
      refine ⟨found, by simpa [hfirst] using hfound, fun h => hn (hn₁ h), fun k => ?_⟩
      rw [hm, hm₁]
      simp only [List.mem_cons, exists_eq_or_imp, hf, Option.some.injEq, exists_eq_left', or_assoc]

theorem prefix_dropLast {path q r : List Name} (h : path = q ++ r) (hr : r ≠ []) :
    q <+: path.dropLast := by
  rw [h, List.dropLast_append_of_ne_nil hr]
  exact List.prefix_append _ _

section Select

variable {entries : List EntryInfo} (valid : ∀ e ∈ entries, ValidEntry e)
  (distinct : DistinctPaths entries) (closed : AncestorClosed entries)
include valid distinct closed

/-- The ancestors of an entry are found under their joined names. -/
theorem find_ancestor {e : EntryInfo} (he : e ∈ entries) {a : List Name}
    (ha : a ∈ ancestors (components e.relativePath)) :
    ∃ d, (byPath entries []).find (joined a) = some d ∧ d.type = .directory ∧
      components d.relativePath = a := by
  obtain ⟨hne, r, hr⟩ := mem_ancestors.mp ha
  have hsplit : components e.relativePath =
      a ++ (r ++ (components e.relativePath).getLast?.toList) := by
    cases hc : components e.relativePath with
    | nil =>
      rw [hc] at hr
      exact absurd (List.append_eq_nil_iff.mp hr).1 hne
    | cons c cs =>
      rw [hc] at hr
      rw [← List.append_assoc, hr, List.getLast?_eq_some_getLast (by simp), Option.toList_some,
        List.dropLast_append_getLast]
  have hlast : r ++ (components e.relativePath).getLast?.toList ≠ [] := by
    intro h
    rw [h, List.append_nil] at hsplit
    rw [hsplit] at hr
    have := congrArg List.length hr
    simp only [List.length_append, List.length_dropLast] at this
    have := List.length_pos_of_ne_nil hne
    omega
  obtain ⟨d, hd, ht, hc⟩ := closed e he a _ hsplit hne hlast
  have hdr : d.relativePath ≠ [] := by
    intro h
    rw [h] at hc
    exact hne (by simpa [components, names, pieces] using hc.symm)
  refine ⟨d, (find_entry valid distinct).mpr ⟨hd, hdr, ?_⟩, ht, hc⟩
  rw [pathKey_safe (valid_safe valid hd hdr), hc]

/-- A selection of listed paths succeeds; it is closed and names no path twice. -/
theorem selectEntries_ok {requested : List Bytes}
    (hr : ∀ r ∈ requested, isSafeStoredPath r = true ∧
      ∃ e ∈ entries, components e.relativePath = components r) :
    ∃ selected, selectEntries entries requested = .ok selected ∧ DistinctPaths selected ∧
      AncestorClosed selected := by
  by_cases hempty : requested = []
  · exact ⟨entries, by simp [selectEntries, hempty], distinct, closed⟩
  have hlisted : ∀ r ∈ requested, isSafeStoredPath r = true ∧
      ∃ e, (byPath entries []).find (pathKey r) = some e := by
    intro r hm
    obtain ⟨hs, e, he, hc⟩ := hr r hm
    refine ⟨hs, e, (find_entry valid distinct).mpr ⟨he, ?_, by simp [pathKey, hc]⟩⟩
    intro h
    apply (safe_components hs).2.1
    rw [← hc, h]
    simp [components, names, pieces]
  obtain ⟨wanted, hwanted, hnodup, hfrom⟩ := requestedKeys_ok hlisted List.nodup_nil (by simp)
  obtain ⟨all, hall, hnall, hmem⟩ := allAncestorKeys_ok (m := byPath entries [])
    (wanted.insertionSort (· ≤ ·)) wanted (fun k _ e he a ha => by
      obtain ⟨d, hd, ht, _⟩ := find_ancestor valid distinct closed
        ((find_entry valid distinct).mp he).1 ha
      exact ⟨d, hd, ht⟩)
  have hsel : selectEntries entries requested = .ok ((rootEntry entries).toList ++
      (all.insertionSort (· ≤ ·)).filterMap (fun key => (byPath entries []).find key)) := by
    unfold selectEntries
    rw [if_neg hempty]
    exact bind_ok.mpr ⟨wanted, hwanted, bind_ok.mpr ⟨all, hall, rfl⟩⟩
  refine ⟨_, hsel, ?_, ?_⟩
  · have hsub := selectEntries_mem hsel
    refine List.Nodup.map_on (fun a ha b hb h =>
      List.inj_on_of_nodup_map distinct (hsub a ha) (hsub b hb) h) ?_
    rw [List.nodup_append]
    refine ⟨?_, ?_, ?_⟩
    · cases rootEntry entries <;> simp
    · apply List.Nodup.filterMap
      · intro k l e hk hl
        exact ((find_entry valid distinct).mp hk).2.2.symm.trans ((find_entry valid distinct).mp hl).2.2
      · exact (List.perm_insertionSort _ _).nodup_iff.mpr (hnall hnodup)
    · rintro a ha b hb rfl
      have hroot := List.find?_some (Option.mem_toList.mp ha)
      obtain ⟨k, _, hk⟩ := List.mem_filterMap.mp hb
      exact ((find_entry valid distinct).mp hk).2.1 (by simpa using hroot)
  · intro e he q r hsplit hq hrest
    -- the ancestors of the wanted entries were added with them
    have hstep : ∀ k d, k ∈ wanted → (byPath entries []).find k = some d →
        q <+: (components d.relativePath).dropLast →
        ∃ a ∈ (rootEntry entries).toList ++ (all.insertionSort (· ≤ ·)).filterMap
          (fun key => (byPath entries []).find key), a.type = .directory ∧
          components a.relativePath = q := by
      intro k d hk hd hpre
      have hqa : q ∈ ancestors (components d.relativePath) := mem_ancestors.mpr ⟨hq, hpre⟩
      obtain ⟨a, ha, ht, hc⟩ := find_ancestor valid distinct closed
        ((find_entry valid distinct).mp hd).1 hqa
      refine ⟨a, List.mem_append_right _ (List.mem_filterMap.mpr ⟨joined q, ?_, ha⟩), ht, hc⟩
      refine (List.mem_insertionSort _).mpr ((hmem _).mpr (Or.inr ⟨k, ?_, d, hd, q, hqa, rfl⟩))
      exact (List.mem_insertionSort _).mpr hk
    rcases List.mem_append.mp he with he | he
    · have hroot := List.find?_some (Option.mem_toList.mp he)
      have hnil : e.relativePath = [] := by simpa using hroot
      rw [hnil] at hsplit
      have : q ++ r = [] := by simpa [components, names, pieces] using hsplit.symm
      exact absurd (List.append_eq_nil_iff.mp this).1 hq
    · obtain ⟨k, hk, hf⟩ := List.mem_filterMap.mp he
      rcases (hmem k).mp ((List.mem_insertionSort _).mp hk) with hw | ⟨l, hl, d, hd, a, ha, rfl⟩
      · exact hstep k e hw hf (prefix_dropLast hsplit hrest)
      · obtain ⟨e', he', _, hc⟩ := find_ancestor valid distinct closed
          ((find_entry valid distinct).mp hd).1 ha
        obtain rfl : e = e' := Option.some.inj (hf.symm.trans he')
        apply hstep l d ((List.mem_insertionSort _).mp hl) hd
        rw [hc] at hsplit
        exact (hsplit ▸ List.prefix_append q r : q <+: a).trans (mem_ancestors.mp ha).2

end Select
end Restore
end LocalVault
