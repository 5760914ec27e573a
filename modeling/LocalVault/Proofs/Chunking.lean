import LocalVault.Library.Blocks
import LocalVault.Storage.Chunker

namespace LocalVault
open Library Library.Program

section Round

variable {x : ReadHost} {chunker : Chunker} {source : Path} {s : Chunking} {rest : Bytes}
  {offset : Nat} {E : Raised → Chunking → Prop}

/-- The stream is in good order and holds what is left; the offset is that of its next byte. -/
def Chunking.At (s : Chunking) (offset : Nat) (rest : Bytes) : Prop :=
  s.input = .opened rest ∧ s.rawOffset = offset

/-- A read from a stream in good order. -/
theorem wp_readBlock {count : Nat} (hs : s.At offset rest) {Q : Bytes → Chunking → Prop}
    (thrown : ∀ bytes s', s'.input.badBit = true → s'.delivered = s.delivered → Q bytes s')
    (read : ∀ s', s'.input = ⟨rest.drop count, rest.length < count, rest.length < count, false⟩ →
      s'.rawOffset = offset → s'.delivered = s.delivered → Q (rest.take count) s') :
    (readBlock x count).wp Q E s := by
  unfold wp readBlock
  rw [hs.1]
  cases x.thrown s.rounds with
  | some passed => exact thrown _ _ rfl rfl
  | none => exact read _ rfl hs.2 rfl

theorem wp_deliver {bytes : Bytes} {Q : Unit → Chunking → Prop}
    (thrown : ∀ e, E e { s with delivered := s.delivered ++ [(s.rawOffset, bytes)] })
    (done : Q () { s with delivered := s.delivered ++ [(s.rawOffset, bytes)] }) :
    (deliver x bytes).wp Q E s := by
  unfold wp deliver
  cases x.callback s.delivered.length with
  | some e => exact thrown e
  | none => exact done

/-- What one round does. -/
theorem wp_chunkRound (hs : s.At offset rest) {Q : Bool → Chunking → Prop}
    (raised : ∀ e s', s'.delivered = s.delivered → E e s')
    (thrown : rest ≠ [] → ∀ e s',
      s'.delivered = s.delivered ++ [(offset, rest.take chunker.maximumChunkSize)] → E e s')
    (ended : rest = [] → ∀ s', s'.delivered = s.delivered → Q false s')
    (short : rest ≠ [] → rest.length < chunker.maximumChunkSize → ∀ s',
      s'.delivered = s.delivered ++ [(offset, rest)] → Q false s')
    (full : chunker.maximumChunkSize ≤ rest.length → ∀ s',
      s'.At (offset + chunker.maximumChunkSize) (rest.drop chunker.maximumChunkSize) →
      s'.delivered = s.delivered ++ [(offset, rest.take chunker.maximumChunkSize)] → Q true s') :
    (chunkRound x chunker source).wp Q E s := by
  have hm := chunker.positive
  simp only [chunkRound, chunkingFailed, wp_bind, wp_read, wp_ite, wp_raise]
  split
  · exact raised _ _ rfl
  apply wp_readBlock hs
  · intro bytes s' hbad hkept
    rw [if_pos (Or.inl hbad)]
    exact raised _ _ hkept
  intro s' hinput hoffset hkept
  have hnone : rest.take chunker.maximumChunkSize = [] ↔ rest = [] := by
    rw [List.take_eq_nil_iff]
    simp [hm.ne']
  by_cases hshort : rest.length < chunker.maximumChunkSize
  · -- the end of the stream is seen in this read, with the last bytes or without any
    simp only [hinput, InputStream.fail, hshort, List.take_of_length_le hshort.le,
      decide_true, Bool.false_eq_true, Bool.true_eq_false, and_false, or_self, ↓reduceIte, hoffset,
      Bool.not_true]
    split
    · exact ended ‹_› _ hkept
    rename_i hsome
    split
    · exact raised _ _ hkept
    apply wp_deliver
    · intro e
      refine thrown hsome e _ ?_
      simp [hkept, hoffset, List.take_of_length_le hshort.le]
    · refine short hsome hshort _ ?_
      simp [hkept, hoffset]
  · have hsome : rest ≠ [] := by
      rintro rfl
      exact hshort hm
    have hlen : (rest.take chunker.maximumChunkSize).length = chunker.maximumChunkSize :=
      List.length_take_of_le (not_lt.mp hshort)
    simp only [hinput, InputStream.fail, hshort, hnone, hsome, decide_false, Bool.false_eq_true,
      Bool.or_self, false_and, or_self, ↓reduceIte, hoffset, Bool.not_false]
    split
    · exact raised _ _ hkept
    apply wp_deliver
    · intro e
      exact thrown hsome e _ (by simp [hkept, hoffset])
    · refine full (not_lt.mp hshort) _ ⟨?_, ?_⟩ (by simp [hkept, hoffset])
      · simp [hinput, hshort, InputStream.opened]
      · simp [hoffset, hlen]

end Round

section Loop

variable {x : ReadHost} {chunker : Chunker} {source : Path} {s : Chunking} {content : Bytes}
  {offset : Nat} {blocks : List (Nat × Bytes)}

/-- With rounds enough the loop ends; it has delivered the blocks of what was left, or a first
part of them. -/
theorem wp_forEachChunk (hb : Blocks chunker.maximumChunkSize offset content blocks)
    (hs : s.At offset content) {rounds : Nat}
    (hr : content.length / chunker.maximumChunkSize + 1 ≤ rounds) :
    (forEachChunk x chunker source rounds).wp
      (fun goesOn s' => goesOn = false ∧ s'.delivered = s.delivered ++ blocks)
      (fun _ s' => ∃ front, front <+: blocks ∧ s'.delivered = s.delivered ++ front) s := by
  have hm := chunker.positive
  induction hb generalizing s rounds with
  | nil offset =>
    obtain ⟨rounds, rfl⟩ := Nat.exists_eq_add_of_le' (Nat.le_of_add_left_le hr)
    simp only [forEachChunk, wp_bind]
    apply wp_chunkRound hs
    · exact fun _ s' hd => ⟨[], List.nil_prefix, by simpa using hd⟩
    · exact fun h => absurd rfl h
    · intro _ s' hd
      simpa using hd
    · exact fun h => absurd rfl h
    · exact fun h => absurd hm (not_lt.mpr h)
  | @full offset block rest blocks whole tail ih =>
    obtain ⟨rounds, rfl⟩ := Nat.exists_eq_add_of_le' (Nat.le_of_add_left_le hr)
    have htake : (block ++ rest).take chunker.maximumChunkSize = block := List.take_left' whole
    have hdrop : (block ++ rest).drop chunker.maximumChunkSize = rest := List.drop_left' whole
    have hlen : (block ++ rest).length = chunker.maximumChunkSize + rest.length := by
      rw [List.length_append, whole]
    have hsome : block ++ rest ≠ [] := List.ne_nil_of_length_pos (by omega)
    simp only [forEachChunk, wp_bind]
    apply wp_chunkRound hs
    · exact fun _ s' hd => ⟨[], List.nil_prefix, by simpa using hd⟩
    · intro _ _ s' hd
      refine ⟨[(offset, block)], ⟨blocks, rfl⟩, ?_⟩
      rwa [htake] at hd
    · exact fun h => absurd h hsome
    · intro _ h
      omega
    · intro _ s' hat hd
      rw [htake] at hd
      rw [hdrop] at hat
      have hrest : rest.length / chunker.maximumChunkSize + 1 ≤ rounds := by
        rw [hlen, Nat.add_div_left _ hm] at hr
        omega
      simp only [↓reduceIte]
      refine wp_mono (ih hat hrest) ?_ ?_
      · intro goesOn u hu
        simpa [hd] using hu
      · intro e u hu
        obtain ⟨front, hfront, hdelivered⟩ := hu
        exact ⟨(offset, block) :: front, (List.prefix_cons_inj _).mpr hfront, by
          simp [hdelivered, hd]⟩
  | @last offset block some short =>
    obtain ⟨rounds, rfl⟩ := Nat.exists_eq_add_of_le' (Nat.le_of_add_left_le hr)
    simp only [forEachChunk, wp_bind]
    apply wp_chunkRound hs
    · exact fun _ s' hd => ⟨[], List.nil_prefix, by simpa using hd⟩
    · intro _ _ s' hd
      refine ⟨[(offset, block)], List.prefix_rfl, ?_⟩
      rwa [List.take_of_length_le short.le] at hd
    · exact fun h => absurd h some
    · exact fun _ _ s' hd => ⟨rfl, hd⟩
    · exact fun h => absurd short (not_lt.mpr h)

/-- A loop that has ended does the same with more rounds. -/
theorem forEachChunk_more {rounds more : Nat} {result : Except Raised Bool} {s' : Chunking}
    (h : forEachChunk x chunker source rounds s = (result, s')) (hend : result ≠ .ok true) :
    forEachChunk x chunker source (rounds + more) s = (result, s') := by
  induction rounds generalizing s with
  | zero =>
    cases h
    exact absurd rfl hend
  | succ rounds ih =>
    rw [Nat.succ_add]
    change andThen (chunkRound x chunker source) _ s = _ at h
    change andThen (chunkRound x chunker source) _ s = _
    unfold andThen at h ⊢
    rcases hround : chunkRound x chunker source s with ⟨r, t⟩
    rw [hround] at h
    cases r with
    | error e => exact h
    | ok goesOn =>
      cases goesOn with
      | false => exact h
      | true => exact ih h

end Loop

/-- Whatever goes wrong on the way, the loop ends, and what it has delivered is the exact cut of
the stream or, behind an exception, a first part of it. -/
theorem forEachChunk_partition (x : ReadHost) (chunker : Chunker) (source : Path) (content : Bytes) :
    ∃ blocks, Partition chunker.maximumChunkSize content blocks ∧ ∃ result s,
      (∀ rounds, content.length / chunker.maximumChunkSize + 1 ≤ rounds →
        forEachChunk x chunker source rounds (.start content) = (result, s)) ∧
      match result with
      | .ok goesOn => goesOn = false ∧ s.delivered = blocks
      | .error _ => s.delivered <+: blocks := by
  obtain ⟨blocks, hb⟩ := Blocks.exist chunker.positive 0 content
  refine ⟨blocks, hb.partition chunker.positive, ?_⟩
  have hrun : (forEachChunk x chunker source _).wp _ _ (.start content) :=
    wp_forEachChunk hb ⟨rfl, rfl⟩ le_rfl
  unfold wp at hrun
  rcases hresult : forEachChunk x chunker source (content.length / chunker.maximumChunkSize + 1)
    (.start content) with ⟨result, s⟩
  rw [hresult] at hrun
  have hend : result ≠ .ok true := by
    rintro rfl
    exact absurd hrun.1 (by decide)
  refine ⟨result, s, ?_, ?_⟩
  · intro rounds hr
    obtain ⟨more, rfl⟩ := Nat.exists_eq_add_of_le hr
    exact forEachChunk_more hresult hend
  · cases result with
    | ok goesOn => exact hrun
    | error e =>
      obtain ⟨front, hfront, hdelivered⟩ := hrun
      change s.delivered = front at hdelivered
      exact hdelivered ▸ hfront

/-- A length that is a multiple of the chunk size costs one more read and no chunk. -/
example : forEachChunk ⟨fun _ => false, fun _ => none, fun _ => none⟩ ⟨2, by decide, by decide⟩ []
      3 (.start [1, 2, 3, 4]) =
    (.ok false, ⟨⟨[], true, true, false⟩, 4, 3, [(0, [1, 2]), (2, [3, 4])]⟩) := rfl

end LocalVault
