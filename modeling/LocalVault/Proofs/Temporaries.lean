import LocalVault.Library.FileEdit
import LocalVault.Proofs.Host

namespace LocalVault.Restore
open Library Library.FileTree Library.Program

def TemporaryName (n : Name) : Prop := ∃ middle, n = restorePrefix ++ middle ++ restoreSuffix

theorem randomTemporaryName_temporary (bytes : Vector UInt8 16) :
    TemporaryName (randomTemporaryName bytes) := ⟨_, rfl⟩

theorem sequenceName_temporary (n : Nat) : TemporaryName (sequenceName n) := ⟨_, rfl⟩

theorem TemporaryName.plain {n : Name} (h : TemporaryName n) : n ≠ dot ∧ n ≠ dotDot := by
  obtain ⟨middle, rfl⟩ := h
  have hp : restorePrefix.length = 20 := by decide
  constructor
  · intro he
    have := congrArg List.length he
    simp [hp, dot] at this
    omega
  · intro he
    have := congrArg List.length he
    simp [hp, dotDot] at this
    omega

theorem create_ok_path {t t' : Tree} {p : Path} {n : Node} {now : Int}
    (h : create t p n now = .ok t') : ∃ q, entryPath t p = .ok q := by
  unfold create at h
  split at h
  · cases h
  · exact ⟨_, ‹_›⟩

theorem unlink_ok_path {t t' : Tree} {p : Path} {now : Int}
    (h : unlink t p now = .ok t') : ∃ q, entryPath t p = .ok q := by
  unfold unlink at h
  split at h
  · cases h
  · exact ⟨_, ‹_›⟩

/-- A call that finds its entry behind a clear way finds it in a directory. -/
theorem Clear.direct {t : Tree} {base rel : Path} {n : Name} (hc : Clear t base rel)
    (hw : WellFormed t) (hp : Plain (base ++ rel)) (hq : ∃ q, entryPath t (base ++ rel ++ [n]) = .ok q) :
    IsDirectory t (base ++ rel) ∧ Direct t (base ++ rel ++ [n]) := by
  obtain ⟨q, hq⟩ := hq
  rcases hc.resolves hw hp n with h | h
  · exact h
  · rw [hq] at h
    cases h

section Temporaries

variable {h : Host} {w : World}

theorem create_refused {t : Tree} {d : Path} {n : Name} {node : Node} {now : Int} {e : Errno}
    (hw : WellFormed t) (hp : Plain d) (h : create t (d ++ [n]) node now = .error e) :
    ¬ IsDirectory t d ∨ e = .alreadyExists ∧ t (d ++ [n]) ≠ none := by
  by_cases hd : IsDirectory t d
  · right
    rw [create_entry hw hp hd] at h
    cases hn : t (d ++ [n]) with
    | none => rw [hn] at h; cases h
    | some m => rw [hn] at h; cases h; exact ⟨rfl, by simp⟩
  · exact Or.inl hd

theorem wp_openTemporaryOutputFile {directory : Path} {Q : Path → World → Prop}
    {E : LocalVaultError → World → Prop} (attempts : Nat) (hpos : 0 < attempts)
    (hw : WellFormed w.tree) (hp : Plain directory)
    (opened : ∀ w' t n now, Quiet w w' →
      create w.tree (directory ++ [randomTemporaryName (h.entropy n)]) (.file [] ⟨0o600, now⟩)
        now = .ok t →
      Q (directory ++ [randomTemporaryName (h.entropy n)])
        (w'.mutate [directory ++ [randomTemporaryName (h.entropy n)]] t).tick)
    (failed : ∀ e w', Quiet w w' → Troubled h ∨ ¬ IsDirectory w.tree directory ∨
      (∃ n, w.tree (directory ++ [randomTemporaryName (h.entropy n)]) ≠ none) → E e w') :
    (openTemporaryOutputFile h directory attempts).wp Q E w := by
  suffices hgo : ∀ attempts w', Quiet w w' → (0 < attempts ∨ ¬ IsDirectory w.tree directory ∨
      ∃ n, w.tree (directory ++ [randomTemporaryName (h.entropy n)]) ≠ none) →
      (openTemporaryOutputFile h directory attempts).wp Q E w' from
    hgo attempts w (Quiet.refl w) (Or.inl hpos)
  intro attempts
  induction attempts with
  | zero =>
    rintro w' hq (h0 | hx)
    · exact absurd h0 (Nat.lt_irrefl 0)
    · exact failed _ w' hq (Or.inr hx)
  | succ attempts ih =>
    intro w' hq _
    unfold openTemporaryOutputFile
    simp only [wp_bind, wp_read]
    apply wp_mutate
    · intro t ht
      rw [hq.tree] at ht
      exact opened w' t _ _ hq ht
    · intro e w'' he hq'
      rw [hq.tree] at he
      have hx : ¬ IsDirectory w.tree directory ∨
          ∃ n, w.tree (directory ++ [randomTemporaryName (h.entropy n)]) ≠ none := by
        rcases create_refused hw hp he with hd | ⟨_, htaken⟩
        · exact Or.inl hd
        · exact Or.inr ⟨_, htaken⟩
      cases e with
      | alreadyExists => exact ih w'' (hq.trans hq') (Or.inr hx)
      | _ => exact failed _ w'' (hq.trans hq') (Or.inr hx)
    · exact fun _ w'' ht hq' => failed _ w'' (hq.trans hq') (Or.inl ht)

/-- After so many names that were taken, a free one was drawn. -/
structure Drawn (w w' : World) (k : Nat) : Prop extends Still w w' where
  sequence : w'.sequence = w.sequence + k + 1
  result : w'.result = w.result
  reports : w'.reports = w.reports

theorem wp_uniqueTemporaryPath {destination : Path} {Q : Path → World → Prop}
    {E : LocalVaultError → World → Prop} (attempts : Nat)
    (hv : ∀ n, Visible w.tree (destination.dropLast ++ [sequenceName n]))
    (found : ∀ k w', Drawn w w' k → k < attempts →
      (∀ j, j < k → w.tree (destination.dropLast ++ [sequenceName (w.sequence + j)]) ≠ none) →
      w.tree (destination.dropLast ++ [sequenceName (w.sequence + k)]) = none →
      Q (destination.dropLast ++ [sequenceName (w.sequence + k)]) w')
    (failed : ∀ e w', Still w w' → Troubled h ∨
      (∀ j, j < attempts →
        w.tree (destination.dropLast ++ [sequenceName (w.sequence + j)]) ≠ none) → E e w') :
    (uniqueTemporaryPath h destination attempts).wp Q E w := by
  induction attempts generalizing w with
  | zero => exact failed _ w (Still.refl w) (Or.inr (fun j hj => absurd hj (Nat.not_lt_zero j)))
  | succ attempts ih =>
    unfold uniqueTemporaryPath
    simp only [wp_bind, wp_read, wp_update]
    apply wp_existingStatus (w := { w with sequence := w.sequence + 1 }) (hv w.sequence)
    · intro w' hq
      have hs : Still w w' := ⟨hq.tree, hq.mutations⟩
      cases hn : w.tree (destination.dropLast ++ [sequenceName w.sequence]) with
      | none =>
        refine found 0 w' ⟨hs, ?_, hq.result, hq.reports⟩ (Nat.succ_pos _)
          (fun j hj => absurd hj (Nat.not_lt_zero j)) hn
        simp [hq.sequence]
      | some node =>
        have hseq : w'.sequence = w.sequence + 1 := hq.sequence
        have htaken : ∀ k, (∀ j, j < k →
            w'.tree (destination.dropLast ++ [sequenceName (w'.sequence + j)]) ≠ none) →
            ∀ j, j < k + 1 →
              w.tree (destination.dropLast ++ [sequenceName (w.sequence + j)]) ≠ none := by
          intro k hk j hj
          cases j with
          | zero => simp [hn]
          | succ j =>
            have := hk j (by omega)
            rw [hs.tree, hseq] at this
            rwa [show w.sequence + (j + 1) = w.sequence + 1 + j by omega]
        apply ih (w := w')
        · rw [hs.tree]
          exact hv
        · intro k w'' hd hk hbefore hfree
          have hnum : w.sequence + (k + 1) = w'.sequence + k := by omega
          have := found (k + 1) w'' ⟨hs.trans hd.toStill, by rw [hd.sequence, hseq]; omega,
            hd.result.trans hq.result, hd.reports.trans hq.reports⟩ (by omega)
            (htaken k hbefore) (by rw [hnum, ← hs.tree]; exact hfree)
          rwa [hnum] at this
        · intro e w'' hk hx
          refine failed e w'' (hs.trans hk) ?_
          rcases hx with hx | hx
          · exact Or.inl hx
          · exact Or.inr (htaken attempts hx)
    · intro e w' ht hq
      exact failed e w' ⟨hq.tree, hq.mutations⟩ (Or.inl ht)

/-- A removal that fails, or finds nothing, changes nothing. -/
theorem removeQuietly_missing {p : Path} (hm : w.tree p = none)
    (hd : ∀ q, entryPath w.tree p = .ok q → q = p) : Quiet w (removeQuietly h p w) := by
  unfold removeQuietly
  split
  · exact Quiet.tick w
  · have : ∀ t, unlink w.tree p (h.clock w.calls) ≠ .ok t := by
      intro t ht
      unfold unlink at ht
      split at ht
      · cases ht
      · rename_i q hq
        rw [hd q hq, hm] at ht
        cases ht
    split
    · exact Quiet.tick w
    · exact absurd ‹_› (this _)

/-- A removal takes the object away, unless it fails or there is none. -/
theorem removeQuietly_cases {p : Path} (hd : Direct w.tree p) (hn : ¬ IsDirectory w.tree p) :
    (Quiet w (removeQuietly h p w) ∧ ((∃ n, h.removalFails n = true) ∨ w.tree p = none)) ∨
      ∃ t now, unlink w.tree p now = .ok t ∧ removeQuietly h p w = (w.mutate [p] t).tick := by
  unfold removeQuietly
  split
  · rename_i hf
    exact Or.inl ⟨Quiet.tick w, Or.inl ⟨_, hf⟩⟩
  · split
    · rename_i e he
      refine Or.inl ⟨Quiet.tick w, Or.inr ?_⟩
      unfold unlink at he
      rw [hd] at he
      dsimp only at he
      cases hp : w.tree p with
      | none => rfl
      | some m =>
        rw [hp] at he
        cases m with
        | directory st => exact absurd ⟨st, hp⟩ hn
        | _ => cases he
    · rename_i t ht
      exact Or.inr ⟨t, _, ht, rfl⟩

end Temporaries

section Write

variable {c : Context} {w : World} {temporary : Path} {J : Bytes → Stamp → World → Prop}

/-- An open temporary: a file with these bytes and this stamp, which stays
while nothing is written and follows what is written. -/
structure Open (temporary : Path) (J : Bytes → Stamp → World → Prop) : Prop where
  steady : ∀ content st, Steady (J content st)
  file : ∀ content st w, J content st w → w.tree temporary = some (.file content st)
  append : ∀ content st w t bytes now, J content st w →
    append w.tree temporary bytes now = .ok t →
    J (content ++ bytes) { st with mtime := now } (w.mutate [temporary] t).tick
  restamp : ∀ content st w t f, J content st w → restamp w.tree temporary f = .ok t →
    J content (f st) (w.mutate [temporary] t).tick

/-- The loop of `write` puts every byte behind what is there. -/
theorem wp_writeLoop {h : Host} (ho : Open temporary J) (rounds : Nat) (bytes content : Bytes)
    (st : Stamp) (hlen : bytes.length ≤ rounds) (hw : J content st w) :
    (writeLoop h temporary rounds bytes).wp
      (fun _ w' => ∃ st', st'.mode = st.mode ∧ J (content ++ bytes) st' w')
      (fun _ w' => (∃ content' st', J content' st' w') ∧ Troubled h) w := by
  induction rounds generalizing bytes content st w with
  | zero =>
    have : bytes = [] := List.length_eq_zero_iff.mp (by omega)
    subst this
    exact ⟨st, rfl, by simpa using hw⟩
  | succ rounds ih =>
    unfold writeLoop
    rw [wp_ite]
    split
    · rename_i hb
      subst hb
      exact ⟨st, rfl, by simpa using hw⟩
    · rename_i hb
      have hpos : 0 < bytes.length := List.length_pos_iff.mpr hb
      simp only [wp_bind, wp_read]
      generalize hk : max 1 (min (min maximumWrite bytes.length) (h.taken w.calls)) = k
      have hk₁ : 1 ≤ k := by omega
      apply wp_mutate
      · intro t ht
        have := ih (bytes.drop k) (content ++ bytes.take k) _ (by simp; omega)
          (ho.append _ _ _ _ _ _ hw ht)
        simpa using this
      · intro e w' he hq
        simp [FileTree.append, ho.file _ _ _ hw] at he
      · exact fun _ w' ht hq => ⟨⟨content, st, ho.steady _ _ w w' hq hw⟩, ht⟩

/-- A chunk of the list and the bytes it stands for. -/
def ReadsAs (c : Context) (chunk : ChunkReferenceInfo) (part : Bytes) : Prop :=
  readVerified c.x c.chunkSize c.objects chunk.hashHex chunk.objectPath chunk.rawSize
    chunk.storedSize = .ok part ∧ part.length = chunk.rawLength

theorem wp_writeChunks {entry : EntryInfo} (ho : Open temporary J)
    (chunks : List ChunkReferenceInfo) (written : Nat) (hashed : Bytes) (st : Stamp)
    (hw : J hashed st w) :
    (writeChunks c entry temporary chunks written hashed).wp
      (fun r w' => (∃ st', st'.mode = st.mode ∧ J r.2 st' w') ∧
        ∃ parts, List.Forall₂ (ReadsAs c) chunks parts ∧
          r = (written + parts.flatten.length, hashed ++ parts.flatten))
      (fun _ w' => (∃ content' st', J content' st' w') ∧ (Troubled c.host ∨
        (∃ chunk ∈ chunks, ∀ part, ¬ ReadsAs c chunk part) ∨
        maximumByteCount < written + (chunks.map ChunkReferenceInfo.rawLength).sum)) w := by
  induction chunks generalizing written hashed st w with
  | nil => exact ⟨⟨st, rfl, hw⟩, [], .nil, by simp⟩
  | cons chunk chunks ih =>
    unfold writeChunks
    rw [wp_bind]
    apply wp_checkCancelled
    case stopped => exact fun e w' ht hq => ⟨⟨_, _, ho.steady _ _ w w' hq hw⟩, Or.inl ht⟩
    intro w₁ hq₁
    rw [wp_bind]
    have hw₁ := ho.steady _ _ w w₁ hq₁ hw
    apply wp_callback
    case raised => exact fun e w' ht hq => ⟨⟨_, _, ho.steady _ _ w₁ w' hq hw₁⟩, Or.inl ht⟩
    intro w₂ hq₂
    have hw₂ := ho.steady _ _ w₁ w₂ hq₂ hw₁
    rw [wp_bind, wp_ofExcept]
    cases hread : readVerified c.x c.chunkSize c.objects chunk.hashHex chunk.objectPath
        chunk.rawSize chunk.storedSize with
    | error e =>
      refine ⟨⟨_, _, hw₂⟩, Or.inr (Or.inl ⟨chunk, by simp, ?_⟩)⟩
      rintro part ⟨hp, _⟩
      rw [hread] at hp
      cases hp
    | ok raw =>
      simp only [wp_ite]
      split
      · rename_i hlen
        refine ⟨⟨_, _, hw₂⟩, Or.inr (Or.inl ⟨chunk, by simp, ?_⟩)⟩
        rintro part ⟨hp, hl⟩
        rw [hread] at hp
        cases hp
        exact hlen hl
      · rename_i hlen
        have hlen : raw.length = chunk.rawLength := by simpa using hlen
        rw [wp_bind]
        refine wp_mono (wp_writeLoop ho raw.length raw hashed st (Nat.le_refl _) hw₂) ?_
          (fun _ _ hx => ⟨hx.1, Or.inl hx.2⟩)
        rintro _ w₃ ⟨st₃, hmode, hw₃⟩
        rw [wp_bind]
        apply wp_callback
        case raised => exact fun e w' ht hq => ⟨⟨_, _, ho.steady _ _ w₃ w' hq hw₃⟩, Or.inl ht⟩
        intro w₄ hq₄
        have hw₄ := ho.steady _ _ w₃ w₄ hq₄ hw₃
        rw [wp_bind, wp_ofExcept]
        unfold checkedAdd
        split
        · rename_i total hadd
          split at hadd
          · cases hadd
          · cases hadd
            refine wp_mono (ih (written + chunk.rawLength) (hashed ++ raw) st₃ hw₄) ?_ ?_
            · rintro r w₅ ⟨⟨st₅, hmode₅, hw₅⟩, parts, hparts, rfl⟩
              refine ⟨⟨st₅, hmode₅.trans hmode, hw₅⟩, raw :: parts, .cons ⟨hread, hlen⟩ hparts, ?_⟩
              simp [hlen, Nat.add_assoc]
            · rintro _ _ ⟨hx, ht | ⟨d, hd, hbad⟩ | hbig⟩
              · exact ⟨hx, Or.inl ht⟩
              · exact ⟨hx, Or.inr (Or.inl ⟨d, List.mem_cons_of_mem _ hd, hbad⟩)⟩
              · refine ⟨hx, Or.inr (Or.inr ?_)⟩
                simp only [List.map_cons, List.sum_cons]
                omega
        · rename_i e hadd
          split at hadd
          · refine ⟨⟨_, _, hw₄⟩, Or.inr (Or.inr ?_)⟩
            simp only [List.map_cons, List.sum_cons]
            omega
          · cases hadd

end Write

/-- The stamp of an object after its metadata was applied. -/
def stampOf (modifiedTimeNs : Int) (posixMode : Nat) (st : Stamp) : Stamp :=
  withTime (restoredModificationTime modifiedTimeNs)
    (if posixMode = 0 then st else withMode posixMode st)

theorem wp_applyMetadataBy {h : Host} {path : Path} {w : World}
    {change : Tree → (Stamp → Stamp) → Except Errno Tree} {J : Stamp → World → Prop}
    {Q : Unit → World → Prop} {E : LocalVaultError → World → Prop} {modifiedTimeNs : Int}
    {posixMode : Nat} {st : Stamp} (hJ : ∀ st, Steady (J st))
    (hchange : ∀ w st f, J st w → ∃ t, change w.tree f = .ok t ∧ J (f st) (w.mutate [path] t).tick)
    (hw : J st w) (done : ∀ w', posixMode ≤ validModeMask →
      J (stampOf modifiedTimeNs posixMode st) w' → Q () w')
    (failed : ∀ e st' w', J st' w' → Troubled h ∨ validModeMask < posixMode → E e w') :
    (applyMetadataBy h path change modifiedTimeNs posixMode).wp Q E w := by
  have one : ∀ (st : Stamp) (w : World) (f : Stamp → Stamp) (message : String)
      {Q : Unit → World → Prop}, J st w → (∀ w', J (f st) w' → Q () w') →
      (changeStamp h path change f message).wp Q E w := by
    intro st w f message Q hw hq
    obtain ⟨t, ht, hj⟩ := hchange w st f hw
    unfold changeStamp
    rw [wp_bind]
    apply wp_mutate
    · intro t' ht'
      rw [ht] at ht'
      cases ht'
      exact hq _ hj
    · intro e w' he _
      rw [ht] at he
      cases he
    · exact fun _ w' htr hquiet => failed _ st w' (hJ st w w' hquiet hw) (Or.inl htr)
  unfold applyMetadataBy
  rw [wp_bind, wp_ofExcept]
  unfold validatePosixMode
  split
  · rename_i hok
    have hmask : posixMode ≤ validModeMask := by
      split at hok
      · cases hok
      · omega
    have done := fun w' => done w' hmask
    by_cases hz : posixMode = 0
    · rw [show stampOf modifiedTimeNs posixMode st =
          withTime (restoredModificationTime modifiedTimeNs) st by simp [stampOf, hz]] at done
      simp only [hz, ne_eq, not_true_eq_false, ↓reduceIte]
      exact one st w _ _ hw done
    · rw [show stampOf modifiedTimeNs posixMode st =
          withTime (restoredModificationTime modifiedTimeNs) (withMode posixMode st) by
        simp [stampOf, hz]] at done
      simp only [hz, ne_eq, not_false_eq_true, ↓reduceIte, wp_bind]
      exact one st w _ _ hw (fun w' hj => one _ w' _ _ hj done)
  · rename_i e hok
    split at hok
    · rename_i hbig
      exact failed _ st w hw (Or.inr hbig)
    · cases hok

/-- What a verified read says of its result. -/
theorem readVerified_spec {x : Externals} {maximum : Nat} {objects : Objects}
    {hashHex relativePath raw : Bytes} {rawSize storedSize : Nat}
    (h : readVerified x maximum objects hashHex relativePath rawSize storedSize = .ok raw) :
    hashRaw x raw = hashHex ∧ raw.length = rawSize := by
  unfold readVerified at h
  obtain ⟨_, _, h⟩ := bind_ok.mp h
  dsimp only at h
  split at h
  · cases h
  · split at h
    · cases h
    · split at h
      · cases h
      · obtain ⟨size, _, h⟩ := bind_ok.mp h
        cases size with
        | none => cases h
        | some size =>
          dsimp only at h
          split at h
          · cases h
          · obtain ⟨compressed, _, h⟩ := bind_ok.mp h
            cases hd : decompress x compressed rawSize maximum with
            | error e =>
              rw [hd] at h
              dsimp only at h
              split at h <;> cases h
            | ok bytes =>
              rw [hd] at h
              dsimp only at h
              split at h
              · cases h
              · rename_i hhash
                cases h
                exact ⟨by simpa using hhash, decompress_length hd⟩

end LocalVault.Restore
