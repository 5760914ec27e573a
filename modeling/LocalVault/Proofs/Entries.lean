import LocalVault.Library.FileEdit
import LocalVault.Proofs.Host

namespace LocalVault.Restore
open Library Library.FileTree Library.Program

theorem lexicalDestination_plain (currentDirectory : Path) (requested : Bytes) :
    Plain (lexicalDestination currentDirectory requested) := by
  unfold lexicalDestination
  generalize he : (if requested.head? = some slash then components requested
    else [slash] :: (currentDirectory ++ components requested)) = elements
  have hr : elements.head? = some [slash] := by
    rw [← he]
    split
    · simp [components, *]
    · rfl
  have hw := normalSteps_ordinary elements.tail ([], false) (by simp)
  intro c hc
  simp only [List.mem_filter, decide_eq_true_eq] at hc
  have hm := hc.1
  unfold lexicallyNormal at hm
  simp only [hr, decide_true, ↓reduceIte] at hm
  split at hm
  · simp at hm
  · split at hm
    · simp at hm
    · simp only [List.cons_append, List.nil_append, List.tail_cons, List.mem_append,
        List.mem_reverse] at hm
      rcases hm with hm | hm
      · exact (hw c hm).2
      · split at hm
        · exact absurd (List.mem_singleton.mp hm) (by simpa using hc.2)
        · simp at hm

/-- What `validate_entries` leaves in the table. -/
def ValidEntry (e : EntryInfo) : Prop :=
  (e.relativePath = [] ∧ e.type = .directory) ∨ isSafeStoredPath e.relativePath = true

theorem validateEntriesFrom_valid {n : Nat} {entries : List EntryInfo}
    (h : validateEntriesFrom n entries = .ok ()) : ∀ e ∈ entries, ValidEntry e := by
  induction entries generalizing n with
  | nil => simp
  | cons e es ih =>
    unfold validateEntriesFrom at h
    intro d hd
    split at h
    · rename_i hr
      split at h
      · cases h
      · rename_i ht
        rcases List.mem_cons.mp hd with rfl | hd
        · exact Or.inl ⟨hr, by simpa using ht⟩
        · exact ih h d hd
    · split at h
      · cases h
      · rename_i hs
        rcases List.mem_cons.mp hd with rfl | hd
        · exact Or.inr (by simpa using hs)
        · exact ih h d hd

theorem ValidEntry.components_plain {e : EntryInfo} (h : ValidEntry e) :
    Plain (components e.relativePath) := by
  rcases h with ⟨hr, _⟩ | hs
  · rw [hr]
    simp [Plain, components, names, pieces]
  · exact fun c hc => ((safe_components hs).2.2 c hc).2

theorem emplace_mem {m : ByPath} {key : Bytes} {e : EntryInfo} {r : Bytes × EntryInfo}
    (h : r ∈ m.emplace key e) : r ∈ m ∨ r = (key, e) := by
  unfold ByPath.emplace at h
  split at h
  · exact Or.inl h
  · simpa using h

theorem byPath_mem {entries : List EntryInfo} {m : ByPath} {r : Bytes × EntryInfo}
    (h : r ∈ byPath entries m) : r ∈ m ∨ r.2 ∈ entries := by
  induction entries generalizing m with
  | nil => exact Or.inl h
  | cons e es ih =>
    unfold byPath at h
    split at h
    · rcases ih h with hm | hm
      · exact Or.inl hm
      · exact Or.inr (List.mem_cons_of_mem _ hm)
    · rcases ih h with hm | hm
      · rcases emplace_mem hm with hm | rfl
        · exact Or.inl hm
        · exact Or.inr (by simp)
      · exact Or.inr (List.mem_cons_of_mem _ hm)

theorem find_mem {m : ByPath} {key : Bytes} {e : EntryInfo} (h : m.find key = some e) :
    (key, e) ∈ m := by
  unfold ByPath.find at h
  obtain ⟨r, hr, rfl⟩ := Option.map_eq_some_iff.mp h
  have hk := List.find?_some hr
  have hm := List.mem_of_find?_eq_some hr
  simp only [beq_iff_eq] at hk
  rwa [← hk]

theorem selectEntries_mem {entries selected : List EntryInfo} {requested : List Bytes}
    (h : selectEntries entries requested = .ok selected) : ∀ e ∈ selected, e ∈ entries := by
  unfold selectEntries at h
  split at h
  · cases h
    exact fun e he => he
  · obtain ⟨keys, _, h⟩ := bind_ok.mp h
    obtain ⟨all, _, h⟩ := bind_ok.mp h
    cases h
    intro e he
    rcases List.mem_append.mp he with he | he
    · exact List.mem_reverse.mp (List.mem_of_find?_eq_some (Option.mem_toList.mp he))
    · obtain ⟨key, _, hf⟩ := List.mem_filterMap.mp he
      rcases byPath_mem (find_mem hf) with hm | hm
      · cases hm
      · exact hm

/-- The entries a request names, when the snapshot is accepted. -/
def selection (repository : RepositoryView) (request : RestoreRequest) : List EntryInfo :=
  match loadSelection repository request with
  | .ok (selected, _) => selected
  | .error _ => []

theorem loadSelection_valid {repository : RepositoryView} {request : RestoreRequest}
    {selected : List EntryInfo} {chunks : List (Int × List ChunkReferenceInfo)}
    (h : loadSelection repository request = .ok (selected, chunks)) :
    ∀ e ∈ selected, ValidEntry e := by
  obtain ⟨_, _, h⟩ := bind_ok.mp h
  obtain ⟨entries, _, h⟩ := bind_ok.mp h
  obtain ⟨_, hvalid, h⟩ := bind_ok.mp h
  obtain ⟨chosen, hsel, h⟩ := bind_ok.mp h
  obtain ⟨_, _, h⟩ := bind_ok.mp h
  obtain ⟨_, _, h⟩ := bind_ok.mp h
  cases h
  exact fun e he => validateEntriesFrom_valid hvalid e (selectEntries_mem hsel e he)

theorem loadSelection_chunks {repository : RepositoryView} {request : RestoreRequest}
    {selected : List EntryInfo} {chunks : List (Int × List ChunkReferenceInfo)}
    (h : loadSelection repository request = .ok (selected, chunks)) :
    chunksByEntry repository.db repository.chunkSizeBytes selected = .ok chunks := by
  obtain ⟨_, _, h⟩ := bind_ok.mp h
  obtain ⟨entries, _, h⟩ := bind_ok.mp h
  obtain ⟨_, _, h⟩ := bind_ok.mp h
  obtain ⟨chosen, _, h⟩ := bind_ok.mp h
  obtain ⟨_, _, h⟩ := bind_ok.mp h
  obtain ⟨listed, hchunks, h⟩ := bind_ok.mp h
  cases h
  exact hchunks

/-- The chunk list of an entry, as the repository gives it. -/
def listedChunks (db : Database) (entryId : Int) : List ChunkReferenceInfo :=
  match listEntryChunks db entryId with
  | .ok chunks => chunks
  | .error _ => []

theorem chunksByEntry_listed {db : Database} {chunkSize : Nat} {selected : List EntryInfo}
    {chunks : List (Int × List ChunkReferenceInfo)}
    (h : chunksByEntry db chunkSize selected = .ok chunks) :
    (∀ r ∈ chunks, r.2 = listedChunks db r.1) ∧
      ∀ e ∈ selected, e.type = .regularFile → ∃ r ∈ chunks, r.1 = e.id := by
  induction selected generalizing chunks with
  | nil =>
    cases h
    simp
  | cons e es ih =>
    unfold chunksByEntry at h
    split at h
    · rename_i htype
      obtain ⟨hall, hex⟩ := ih h
      refine ⟨hall, ?_⟩
      intro d hd hdt
      rcases List.mem_cons.mp hd with rfl | hd
      · exact absurd hdt htype
      · exact hex d hd hdt
    · obtain ⟨listed, hlist, h⟩ := bind_ok.mp h
      obtain ⟨_, _, h⟩ := bind_ok.mp h
      obtain ⟨rest, hrest, h⟩ := bind_ok.mp h
      cases h
      obtain ⟨hall, hex⟩ := ih hrest
      constructor
      · intro r hr
        rcases List.mem_cons.mp hr with rfl | hr
        · simp [listedChunks, hlist]
        · exact hall r hr
      · intro d hd hdt
        rcases List.mem_cons.mp hd with rfl | hd
        · exact ⟨_, List.mem_cons_self, rfl⟩
        · obtain ⟨r, hr, he⟩ := hex d hd hdt
          exact ⟨r, List.mem_cons_of_mem _ hr, he⟩

theorem chunksAt_listed {c : Context} {db : Database} {chunkSize : Nat}
    {selected : List EntryInfo} (h : chunksByEntry db chunkSize selected = .ok c.chunks)
    {e : EntryInfo} (he : e ∈ selected) (ht : e.type = .regularFile) :
    c.chunksAt e.id = listedChunks db e.id := by
  obtain ⟨hall, hex⟩ := chunksByEntry_listed h
  obtain ⟨r, hr, hid⟩ := hex e he ht
  unfold Context.chunksAt
  cases hf : c.chunks.find? (fun r => r.1 == e.id) with
  | none =>
    have := List.find?_eq_none.mp hf r hr
    simp [hid] at this
  | some q =>
    have hq := hall q (List.mem_of_find?_eq_some hf)
    have hqid := List.find?_some hf
    simp only [beq_iff_eq] at hqid
    simp [hq, hqid]

end LocalVault.Restore
