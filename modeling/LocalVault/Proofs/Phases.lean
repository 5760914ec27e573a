import LocalVault.Proofs.Entries
import LocalVault.Proofs.Temporaries

namespace LocalVault.Restore
open Library Library.FileTree Library.Program

/-- The directory an entry is restored into. -/
abbrev Context.parent (c : Context) (e : EntryInfo) : Path :=
  c.root ++ parentComponents e.relativePath

/-- The destination of a safe entry is an entry of its parent. -/
theorem destination_eq {c : Context} {e : EntryInfo} (hv : isSafeStoredPath e.relativePath = true) :
    ∃ n, c.destination e = c.parent e ++ [n] ∧
      components e.relativePath = parentComponents e.relativePath ++ [n] := by
  obtain ⟨d, n, hd⟩ := split_last (safe_components hv).2.1
  refine ⟨n, ?_, ?_⟩
  · simp [Context.destination, parentComponents, hd]
  · simp [parentComponents, hd]

theorem destination_dropLast {c : Context} {e : EntryInfo}
    (hv : isSafeStoredPath e.relativePath = true) : (c.destination e).dropLast = c.parent e := by
  obtain ⟨n, hn, _⟩ := destination_eq (c := c) hv
  rw [hn, List.dropLast_concat]

theorem destination_root {c : Context} {e : EntryInfo} (hr : e.relativePath = []) :
    c.destination e = c.root := by
  simp [Context.destination, hr, components, names, pieces]

/-- What every phase starts from. -/
structure Ready (c : Context) (e : EntryInfo) (w : World) : Prop where
  wellFormed : WellFormed w.tree
  root : IsDirectory w.tree c.root
  plain : Plain c.root
  valid : ValidEntry e

section Ready

variable {c : Context} {e : EntryInfo} {w : World}

theorem Ready.steady : Steady (Ready c e) := by
  intro w w' hq h
  refine ⟨?_, ?_, h.plain, h.valid⟩
  · rw [hq.tree]
    exact h.wellFormed
  · rw [hq.tree]
    exact h.root

theorem Ready.plain_destination (h : Ready c e w) : Plain (c.destination e) :=
  h.plain.append h.valid.components_plain

theorem Ready.plain_parent (h : Ready c e w) : Plain (c.parent e) := by
  apply h.plain.append
  intro n hn
  exact h.valid.components_plain n (List.mem_of_mem_dropLast hn)

theorem Ready.visible (h : Ready c e w) (hc : Clear w.tree c.root (parentComponents e.relativePath)) :
    Visible w.tree (c.destination e) := by
  rcases h.valid with ⟨hr, _⟩ | hv
  · rw [destination_root hr]
    exact visible_directory h.wellFormed h.plain h.root
  · obtain ⟨n, hn, _⟩ := destination_eq (c := c) hv
    have hp := h.plain_destination
    rw [hn] at hp ⊢
    exact hc.visible h.wellFormed hp

theorem Ready.direct (h : Ready c e w) (hd : IsDirectory w.tree (c.parent e)) (n : Name) :
    Direct w.tree (c.parent e ++ [n]) :=
  Direct.entry h.wellFormed h.plain_parent hd n

theorem Ready.safe (h : Ready c e w) (ht : e.type ≠ .directory) :
    isSafeStoredPath e.relativePath = true := by
  rcases h.valid with ⟨_, hd⟩ | hv
  · exact absurd hd ht
  · exact hv

/-- The ancestor check in front of every mutation. -/
theorem Ready.check {Q : Unit → World → Prop} {E : LocalVaultError → World → Prop}
    (h : Ready c e w)
    (passed : ∀ w', Quiet w w' → Clear w.tree c.root (parentComponents e.relativePath) → Q () w')
    (failed : ∀ er w', Quiet w w' → Troubled c.host ∨
      Blocked w.tree c.root (parentComponents e.relativePath) → E er w') :
    (requireSafeAncestors c.host c.root e.relativePath).wp Q E w :=
  wp_requireSafeAncestors h.wellFormed h.plain_destination h.root passed failed

end Ready

/-- The way to the destination is real directories as far as it exists. -/
theorem Clear.real {t : Tree} {root : Path} (hw : WellFormed t) (hc : Clear t [] root) {q : Path}
    (hq : q <+: root) : t q = none ∨ IsDirectory t q := by
  obtain ⟨r, rfl⟩ := hq
  rcases hc with hd | ⟨d, n, rest, he, hd, hn⟩
  · exact Or.inr (hw.ancestors (by simpa using hd))
  · rcases List.append_eq_append_iff.mp he with ⟨m, hm, _⟩ | ⟨m, hm, hr⟩
    · exact Or.inr (hw.ancestors (q := m) (by simpa [hm] using hd))
    · cases m with
      | nil => exact Or.inr (by simpa [hm] using hd)
      | cons a m =>
        obtain ⟨rfl, _⟩ := List.cons.inj hr
        have := hw.below_missing (q := m) hn
        exact Or.inl (by simpa [hm] using this)

theorem wp_createDirectories {h : Host} {root base rel : Path} {I : World → Prop} {w : World}
    (steady : Steady I) (good : ∀ w, I w → WellFormed w.tree)
    (made : ∀ w t p now, I w → p <+: root → Direct w.tree p →
      create w.tree p (.directory ⟨h.directoryMode, now⟩) now = .ok t → I (w.mutate [p] t).tick)
    (hroot : Plain root) (hsplit : root = base ++ rel) (hI : I w) (hb : IsDirectory w.tree base)
    (hreal : ∀ q, q <+: root → w.tree q = none ∨ IsDirectory w.tree q) :
    (createDirectories h (rel.inits.tail.map (base ++ ·))).wp
      (fun _ w' => I w' ∧ IsDirectory w'.tree root) (fun _ w' => I w' ∧ Troubled h) w := by
  induction rel generalizing base w with
  | nil => exact ⟨hI, by simpa [hsplit] using hb⟩
  | cons n rel ih =>
    rw [inits_tail_cons n rel (base ++ ·)]
    unfold createDirectories
    rw [wp_bind]
    have hplain : Plain (base ++ [n]) := by
      apply Plain.left (q := rel)
      simpa [hsplit] using hroot
    have hprefix : base ++ [n] <+: root := ⟨rel, by simp [hsplit]⟩
    have hmap : (fun q => base ++ n :: q) = (fun q => base ++ [n] ++ q) := by
      funext q
      simp
    have hlink : ∀ target, w.tree (base ++ [n]) ≠ some (.link target) := by
      intro target hl
      rcases hreal _ hprefix with hn | ⟨st, hst⟩
      · simp [hl] at hn
      · simp [hl] at hst
    have hstat := stat_entry (good w hI) hplain.left hb (hplain n (by simp)) hlink
    apply wp_observe
    · intro w' hq
      have hI' := steady w w' hq hI
      have hb' : IsDirectory w'.tree base := by rw [hq.tree]; exact hb
      have hreal' : ∀ q, q <+: root → w'.tree q = none ∨ IsDirectory w'.tree q := by
        rw [hq.tree]
        exact hreal
      rw [hstat]
      rcases hreal _ hprefix with hn | ⟨st, hst⟩
      · rw [hn]
        dsimp only
        rw [wp_bind, hmap]
        have hdir := Direct.entry (good w' hI') hplain.left hb' n
        apply wp_mutate
        · intro t ht
          have he := create_edit (good w' hI') hdir ht
          have hmade := create_isDirectory hdir ht
          apply ih (by simp [hsplit]) (made w' t _ _ hI' hprefix hdir ht) hmade
          intro q hqr
          by_cases hqe : q = base ++ [n]
          · rw [hqe]
            exact Or.inr hmade
          · have hsame := he.elsewhere q (by simpa using hqe)
            rcases hreal' q hqr with hn' | hd'
            · exact Or.inl (hsame.none_iff.mp hn')
            · exact Or.inr (hsame.directory hd')
        · intro e v he _
          rw [create_entry (good w' hI') hplain.left hb' n, hq.tree, hn] at he
          cases he
        · exact fun _ v ht hq' => ⟨steady w' v hq' hI', ht⟩
      · rw [hst]
        dsimp only
        simp only [isDirectoryNode, ↓reduceIte, hmap]
        exact ih (by simp [hsplit]) hI' (by rw [hq.tree]; exact ⟨st, hst⟩) hreal'
    · exact fun _ w' ht hq => ⟨steady w w' hq hI, ht⟩

/-- The destination root is created over a clear way to it. -/
theorem wp_createRoot {h : Host} {root : Path} {I : World → Prop} {w : World}
    (steady : Steady I) (good : ∀ w, I w → WellFormed w.tree)
    (made : ∀ w t p now, I w → p <+: root → Direct w.tree p →
      create w.tree p (.directory ⟨h.directoryMode, now⟩) now = .ok t → I (w.mutate [p] t).tick)
    (hroot : Plain root) (hI : I w) (hc : Clear w.tree [] root) :
    (createDirectories h root.inits.tail).wp
      (fun _ w' => I w' ∧ IsDirectory w'.tree root) (fun _ w' => I w' ∧ Troubled h) w := by
  have hw := good w hI
  have hdirs := wp_createDirectories steady good made hroot (List.nil_append root).symm hI hw.root
    (fun q hq => hc.real hw hq)
  simpa only [List.nil_append, List.map_id'] using hdirs

section Directory

variable {c : Context} {planned : PlannedEntry} {w : World}

theorem wp_restoreDirectory {Q : Unit → World → Prop} {E : LocalVaultError → World → Prop}
    (ready : Ready c planned.entry w)
    (other : ∀ w', Quiet w w' → planned.entry.type ≠ .directory → Q () w')
    (skipped : ∀ w', Quiet w w' → planned.entry.type = .directory → planned.action = .skip →
      Q () (w'.skip planned.entry.relativePath "destination directory conflicts"))
    (merged : ∀ w', Quiet w w' → planned.entry.type = .directory → planned.action ≠ .skip →
      planned.action ≠ .create → Q () w'.countDirectory)
    (created : ∀ w' t now, Quiet w w' → planned.entry.type = .directory →
      planned.action = .create → Direct w.tree (c.destination planned.entry) →
      create w.tree (c.destination planned.entry) (.directory ⟨c.host.directoryMode, now⟩) now =
        .ok t → Q () (w'.mutate [c.destination planned.entry] t).tick.countDirectory)
    (failed : ∀ e w', Quiet w w' → Troubled c.host ∨ (planned.entry.type = .directory ∧
      planned.action = .create ∧
      (Blocked w.tree c.root (parentComponents planned.entry.relativePath) ∨
        ¬ IsDirectory w.tree (c.parent planned.entry) ∨
        w.tree (c.destination planned.entry) ≠ none)) → E e w') :
    (restoreDirectory c planned).wp Q E w := by
  unfold restoreDirectory
  rw [wp_bind]
  refine wp_checkCancelled ?_ (fun e w' ht hq => failed e w' hq (Or.inl ht))
  intro w₁ hq₁
  simp only [wp_ite]
  split
  · exact other w₁ hq₁ ‹_›
  · rename_i htype
    have htype : planned.entry.type = .directory := by simpa using htype
    split
    · exact skipped w₁ hq₁ htype ‹_›
    · rename_i hskip
      split
      · rename_i hcreate
        rw [wp_bind]
        apply (Ready.steady w w₁ hq₁ ready).check
        · intro w₂ hq₂ hclear
          have hq := hq₁.trans hq₂
          rw [hq₁.tree] at hclear
          rw [wp_bind]
          apply wp_mutate
          · intro t ht
            rw [hq.tree] at ht
            refine created w₂ t _ hq htype hcreate ?_ ht
            rcases ready.valid with ⟨hr, _⟩ | hv
            · rw [destination_root hr]
              exact Direct.directory ready.wellFormed ready.plain ready.root
            · obtain ⟨n, hn, _⟩ := destination_eq (c := c) hv
              rw [hn] at ht ⊢
              exact (hclear.direct ready.wellFormed ready.plain_parent (create_ok_path ht)).2
          · intro e w₃ he hq₃
            rw [hq.tree] at he
            refine failed _ w₃ (hq.trans hq₃) (Or.inr ⟨htype, hcreate, Or.inr ?_⟩)
            rcases ready.valid with ⟨hr, _⟩ | hv
            · obtain ⟨st, hst⟩ := ready.root
              exact Or.inr (by rw [destination_root hr, hst]; simp)
            · obtain ⟨n, hn, _⟩ := destination_eq (c := c) hv
              rw [hn] at he ⊢
              rcases create_refused ready.wellFormed ready.plain_parent he with hd | ⟨_, hx⟩
              · exact Or.inl hd
              · exact Or.inr hx
          · exact fun _ w₃ ht hq₃ => failed _ w₃ (hq.trans hq₃) (Or.inl ht)
        · intro e w₂ hq₂ hx
          rw [hq₁.tree] at hx
          refine failed e w₂ (hq₁.trans hq₂) ?_
          rcases hx with ht | hblocked
          · exact Or.inl ht
          · exact Or.inr ⟨htype, hcreate, Or.inl hblocked⟩
      · exact merged w₁ hq₁ htype hskip ‹_›

theorem wp_restoreDirectoryMetadata {Q : Unit → World → Prop} {E : LocalVaultError → World → Prop}
    {J : Stamp → World → Prop} (ready : Ready c planned.entry w)
    (steady : ∀ st, Steady (J st))
    (good : ∀ st v, J st v → Ready c planned.entry v ∧
      v.tree (c.destination planned.entry) = some (.directory st))
    (other : planned.entry.type ≠ .directory ∨ planned.metadataAllowed = false → Q () w)
    (begun : ∀ st w', Quiet w w' → planned.entry.type = .directory → planned.metadataAllowed = true →
      w.tree (c.destination planned.entry) = some (.directory st) → J st w')
    (stamped : ∀ st f v t, J st v → restamp v.tree (c.destination planned.entry) f = .ok t →
      J (f st) (v.mutate [c.destination planned.entry] t).tick)
    (done : ∀ st v, w.tree (c.destination planned.entry) = some (.directory st) →
      planned.entry.posixMode ≤ validModeMask →
      J (stampOf planned.entry.modifiedTimeNs planned.entry.posixMode st) v → Q () v)
    (warned : ∀ st v message, J st v → Troubled c.host ∨
      validModeMask < planned.entry.posixMode → Q () (v.skip planned.entry.relativePath
        ("directory restored; metadata not fully restored: " ++ message)))
    (failed : ∀ e w', Quiet w w' → Troubled c.host ∨ (planned.entry.type = .directory ∧
      planned.metadataAllowed = true ∧
      (Blocked w.tree c.root (parentComponents planned.entry.relativePath) ∨
        ¬ IsDirectory w.tree (c.destination planned.entry))) → E e w') :
    (restoreDirectoryMetadata c planned).wp Q E w := by
  unfold restoreDirectoryMetadata
  simp only [wp_ite]
  split
  · exact other ‹_›
  · rename_i hcond
    have hcond : planned.entry.type = .directory ∧ planned.metadataAllowed = true := by
      simpa [not_or] using hcond
    rw [wp_bind]
    apply ready.check
    · intro w₁ hq₁ hclear
      have ready₁ := Ready.steady w w₁ hq₁ ready
      rw [← hq₁.tree] at hclear
      rw [wp_bind]
      apply wp_requireRealDirectory (ready₁.visible hclear)
      · intro w₂ hq₂ hdir
        have hq := hq₁.trans hq₂
        rw [hq₁.tree] at hdir
        obtain ⟨st, hst⟩ := hdir
        rw [wp_rescue]
        apply wp_applyMetadataBy steady
        · intro v st' f hj
          obtain ⟨hready, hv⟩ := good st' v hj
          have hstamp := restamp_directory hv f
          refine ⟨_, ?_, stamped st' f v _ hj hstamp⟩
          rw [restampFollowing, realPath_directory hready.wellFormed hready.plain_destination
            ⟨st', hv⟩]
          exact hstamp
        · exact begun st w₂ hq hcond.1 hcond.2 hst
        · exact fun v hmask hj => done st v hst hmask hj
        · exact fun e st' v hj hx => warned st' v e.message hj hx
      · intro e w₂ hq₂ hx
        rw [hq₁.tree] at hx
        refine failed e w₂ (hq₁.trans hq₂) ?_
        rcases hx with ht | hn
        · exact Or.inl ht
        · exact Or.inr ⟨hcond.1, hcond.2, Or.inr hn⟩
    · intro e w₁ hq₁ hx
      refine failed e w₁ hq₁ ?_
      rcases hx with ht | hb
      · exact Or.inl ht
      · exact Or.inr ⟨hcond.1, hcond.2, Or.inl hb⟩

end Directory

theorem wp_publishRestoredPath {h : Host} {w : World} {temporary destination : Path}
    {replace : Bool} {n : Node} {Q : RestorePublishResult → World → Prop}
    {E : LocalVaultError → World → Prop} (hd : Direct w.tree temporary)
    (hk : Direct w.tree destination) (hn : w.tree temporary = some n)
    (hp : ∀ st, n ≠ .directory st)
    (renamed : ∀ t now, rename w.tree temporary destination replace now = .ok t →
      Q .published (w.mutate [temporary, destination] t).tick)
    (refused : ∀ w', Quiet w w' → replace = false → w.tree destination ≠ none →
      Q .destinationExists w')
    (failed : ∀ e w', Quiet w w' → Troubled h ∨ replace = true ∧ IsDirectory w.tree destination →
      E e w') :
    (publishRestoredPath h temporary destination replace).wp Q E w := by
  unfold publishRestoredPath
  rw [wp_bind]
  apply wp_mutate
  · exact fun t ht => renamed t _ ht
  · intro e w' he hq
    obtain ⟨hsome, hfalse, htrue⟩ := rename_refused hd hk hn hp he
    cases replace with
    | true => exact failed _ w' hq (Or.inr ⟨rfl, htrue rfl⟩)
    | false =>
      rw [hfalse rfl]
      exact refused w' hq rfl hsome
  · intro text w' ht hq
    cases replace <;> exact failed _ w' hq (Or.inl ht)

/-- The bytes a regular-file entry and its chunk list promise. -/
structure VerifiedContent (x : Externals) (chunks : List ChunkReferenceInfo) (e : EntryInfo)
    (content : Bytes) : Prop where
  size : content.length = e.logicalSize
  hash : e.fileHashHex = some (toHex (x.blake3 content))
  pieces : ∃ parts : List Bytes, content = parts.flatten ∧
    List.Forall₂ (fun chunk part => part.length = chunk.rawLength ∧ hashRaw x part = chunk.hashHex)
      chunks parts

/-- The objects give the content of the entry back. -/
structure Readable (c : Context) (e : EntryInfo) (parts : List Bytes) : Prop where
  reads : List.Forall₂ (ReadsAs c) (c.chunksAt e.id) parts
  size : parts.flatten.length = e.logicalSize
  hash : e.fileHashHex = some (toHex (c.x.blake3 parts.flatten))

theorem readsAs_functional {c : Context} : Relator.RightUnique (ReadsAs c) := by
  intro chunk p q hp hq
  have := hp.1.symm.trans hq.1
  cases this
  rfl

theorem readsAs_mem {c : Context} {chunks : List ChunkReferenceInfo} {parts : List Bytes}
    (h : List.Forall₂ (ReadsAs c) chunks parts) {chunk : ChunkReferenceInfo}
    (hm : chunk ∈ chunks) : ∃ part, ReadsAs c chunk part := by
  induction h with
  | nil => cases hm
  | cons h _ ih =>
    rcases List.mem_cons.mp hm with rfl | hm
    · exact ⟨_, h⟩
    · exact ih hm

theorem readsAs_length {c : Context} {chunks : List ChunkReferenceInfo} {parts : List Bytes}
    (h : List.Forall₂ (ReadsAs c) chunks parts) :
    parts.flatten.length = (chunks.map ChunkReferenceInfo.rawLength).sum := by
  induction h with
  | nil => rfl
  | cons h _ ih => simp [h.2, ih]

theorem Readable.verified {c : Context} {e : EntryInfo} {parts : List Bytes}
    (h : Readable c e parts) : VerifiedContent c.x (c.chunksAt e.id) e parts.flatten := by
  refine ⟨h.size, h.hash, parts, rfl, ?_⟩
  exact h.reads.imp (fun chunk part hr => ⟨hr.2, (readVerified_spec hr.1).1⟩)

/-- What is counted after a file was published. -/
structure Recorded (u v : World) (e : EntryInfo) (warning : Option String) : Prop
    extends Still u v where
  sequence : v.sequence = u.sequence
  result : v.result = (match warning with
    | none => u.countFile (u.result.restoredBytes + e.logicalSize)
    | some text =>
      (u.countFile (u.result.restoredBytes + e.logicalSize)).skip e.relativePath text).result

section File

variable {c : Context} {planned : PlannedEntry} {w : World}

/-- The rule of the publication, for a temporary that stands. -/
theorem wp_publishFile {Q : Unit → World → Prop} {E : LocalVaultError → World → Prop}
    {temporary : Path} {warning : Option String} {n : Node} (ready : Ready c planned.entry w)
    (hd : Direct w.tree temporary) (hk : Direct w.tree (c.destination planned.entry))
    (hn : w.tree temporary = some n) (hp : ∀ st, n ≠ .directory st)
    (published : ∀ v t now, Quiet w v → rename w.tree temporary (c.destination planned.entry)
        (planned.action = .replace) now = .ok t →
      (∀ v', Recorded (v.mutate [temporary, c.destination planned.entry] t).tick v'
        planned.entry warning → Q () v') ∧
      ∀ e v', Still (v.mutate [temporary, c.destination planned.entry] t).tick v' →
        Troubled c.host ∨
          maximumByteCount < v.result.restoredBytes + planned.entry.logicalSize → E e v')
    (refused : ∀ v, Quiet w v → planned.action ≠ .replace →
      w.tree (c.destination planned.entry) ≠ none →
      Q () (v.skip planned.entry.relativePath "destination appeared during restore"))
    (failed : ∀ e v, Quiet w v → Troubled c.host ∨
      Blocked w.tree c.root (parentComponents planned.entry.relativePath) ∨
      planned.action = .replace ∧ IsDirectory w.tree (c.destination planned.entry) → E e v) :
    (publishFile c planned temporary warning).wp Q E w := by
  unfold publishFile
  rw [wp_bind]
  apply ready.check
  case failed =>
    intro e v hq hx
    rcases hx with ht | hb
    · exact failed e v hq (Or.inl ht)
    · exact failed e v hq (Or.inr (Or.inl hb))
  intro v hq _
  rw [wp_bind]
  apply wp_publishRestoredPath (n := n) (by rw [hq.tree]; exact hd) (by rw [hq.tree]; exact hk)
    (by rw [hq.tree]; exact hn) hp
  case refused =>
    intro v' hq' hr hx
    rw [hq.tree] at hx
    exact refused v' (hq.trans hq') (by simpa using hr) hx
  case failed =>
    intro e v' hq' hx
    rw [hq.tree] at hx
    refine failed e v' (hq.trans hq') ?_
    rcases hx with ht | ⟨hr, hdir⟩
    · exact Or.inl ht
    · exact Or.inr (Or.inr ⟨by simpa using hr, hdir⟩)
  intro t now ht
  rw [hq.tree] at ht
  obtain ⟨hdone, hfail⟩ := published v t now hq ht
  dsimp only
  rw [wp_bind]
  apply wp_flush
  case failed =>
    intro e v₁ htr hq₁
    exact hfail e v₁ ⟨hq₁.tree, hq₁.mutations⟩ (Or.inl htr)
  intro v₁ hq₁
  have hbytes : v₁.result.restoredBytes = v.result.restoredBytes := by
    rw [hq₁.result]
    rfl
  simp only [wp_bind, wp_read, wp_ofExcept]
  unfold checkedAdd
  split
  · rename_i total hadd
    split at hadd
    · cases hadd
    · cases hadd
      simp only [wp_update]
      have hreport : ∀ v₂, v₂.tree = v₁.tree → v₂.mutations = v₁.mutations →
          v₂.sequence = v₁.sequence → v₂.result = (match warning with
            | none => (v.mutate [temporary, c.destination planned.entry] t).tick.countFile
                (v.result.restoredBytes + planned.entry.logicalSize)
            | some text => ((v.mutate [temporary, c.destination planned.entry] t).tick.countFile
                (v.result.restoredBytes + planned.entry.logicalSize)).skip
                planned.entry.relativePath text).result →
          (reportProgress c.host .restoring (components planned.entry.relativePath)
            c.totalEntries).wp Q E v₂ := by
        intro v₂ htree hmut hseq hres
        unfold reportProgress
        simp only [wp_bind, wp_update]
        apply wp_callback
        · intro v₃ hq₃
          refine hdone v₃ ⟨⟨?_, ?_⟩, ?_, ?_⟩
          · exact hq₃.tree.trans (htree.trans hq₁.tree)
          · exact hq₃.mutations.trans (hmut.trans hq₁.mutations)
          · exact hq₃.sequence.trans (hseq.trans hq₁.sequence)
          · exact hq₃.result.trans hres
        · intro e v₃ htr hq₃
          refine hfail e v₃ ⟨?_, ?_⟩ (Or.inl htr)
          · exact hq₃.tree.trans (htree.trans hq₁.tree)
          · exact hq₃.mutations.trans (hmut.trans hq₁.mutations)
      have hres₁ : v₁.result = v.result := hq₁.result
      cases warning with
      | none =>
        refine hreport _ rfl rfl rfl ?_
        simp [World.countFile, World.mutate, World.tick, hres₁]
      | some text =>
        unfold skipEntry
        simp only [wp_bind, wp_update]
        refine hreport _ rfl rfl rfl ?_
        simp [World.countFile, World.skip, World.mutate, World.tick, hres₁]
  · rename_i e hadd
    split at hadd
    · refine hfail _ v₁ ⟨hq₁.tree, hq₁.mutations⟩ (Or.inr ?_)
      omega
    · cases hadd

/-- Why a file that was begun is not restored. -/
def FileTrouble (c : Context) (planned : PlannedEntry) (t : Tree) : Prop :=
  Troubled c.host ∨ (∀ parts, ¬ Readable c planned.entry parts) ∨
    maximumByteCount < planned.entry.logicalSize ∨ Blocked t c.root (parentComponents planned.entry.relativePath) ∨
    planned.action = .replace ∧ IsDirectory t (c.destination planned.entry)

/-- The rule of the file phase. `J` describes the open temporary by its name,
its bytes and its stamp. -/
theorem wp_restoreFile {Q : Unit → World → Prop} {E : LocalVaultError → World → Prop}
    {J : Name → Bytes → Stamp → World → Prop} (ready : Ready c planned.entry w)
    (isOpen : ∀ name, Open (c.parent planned.entry ++ [name]) (J name))
    (good : ∀ name content st v, J name content st v → Ready c planned.entry v ∧
      IsDirectory v.tree (c.parent planned.entry))
    (other : planned.entry.type ≠ .regularFile → Q () w)
    (skipped : ∀ w', Quiet w w' → planned.entry.type = .regularFile → planned.action = .skip →
      Q () (w'.skip planned.entry.relativePath "destination file conflicts"))
    (opened : ∀ w' t n now, Quiet w w' → planned.entry.type = .regularFile →
      planned.action ≠ .skip → IsDirectory w.tree (c.parent planned.entry) →
      create w.tree (c.parent planned.entry ++ [randomTemporaryName (c.host.entropy n)])
        (.file [] ⟨0o600, now⟩) now = .ok t →
      J (randomTemporaryName (c.host.entropy n)) [] ⟨0o600, now⟩
        (w'.mutate [c.parent planned.entry ++ [randomTemporaryName (c.host.entropy n)]] t).tick)
    (published : ∀ name parts st warning v t now, J name parts.flatten st v →
      planned.entry.type = .regularFile → Readable c planned.entry parts →
      (warning = none ∧ planned.entry.posixMode ≤ validModeMask ∧ (∃ time, st =
          stampOf planned.entry.modifiedTimeNs planned.entry.posixMode ⟨0o600, time⟩) ∨
        warning ≠ none ∧ (Troubled c.host ∨ validModeMask < planned.entry.posixMode)) →
      rename v.tree (c.parent planned.entry ++ [name]) (c.destination planned.entry)
        (planned.action = .replace) now = .ok t →
      (∀ v', Recorded
          (v.mutate [c.parent planned.entry ++ [name], c.destination planned.entry] t).tick v'
          planned.entry warning →
        Q () (removeQuietly c.host (c.parent planned.entry ++ [name]) v')) ∧
      ∀ e v', Still
          (v.mutate [c.parent planned.entry ++ [name], c.destination planned.entry] t).tick v' →
        Troubled c.host ∨
          maximumByteCount < v.result.restoredBytes + planned.entry.logicalSize →
        E e (removeQuietly c.host (c.parent planned.entry ++ [name]) v'))
    (refused : ∀ name content st v, J name content st v → planned.entry.type = .regularFile →
      planned.action ≠ .replace → v.tree (c.destination planned.entry) ≠ none →
      Q () (removeQuietly c.host (c.parent planned.entry ++ [name])
        (v.skip planned.entry.relativePath "destination appeared during restore")))
    (broken : ∀ name content st v e, J name content st v → planned.entry.type = .regularFile →
      FileTrouble c planned v.tree →
      E e (removeQuietly c.host (c.parent planned.entry ++ [name]) v))
    (failed : ∀ e w', Quiet w w' → Troubled c.host ∨ (planned.entry.type = .regularFile ∧
      planned.action ≠ .skip ∧
      (Blocked w.tree c.root (parentComponents planned.entry.relativePath) ∨
        ¬ IsDirectory w.tree (c.parent planned.entry) ∨
        ∃ n, w.tree (c.parent planned.entry ++ [randomTemporaryName (c.host.entropy n)]) ≠ none)) →
      E e w') :
    (restoreFile c planned).wp Q E w := by
  unfold restoreFile
  simp only [wp_ite]
  split
  · exact other ‹_›
  rename_i htype
  have htype : planned.entry.type = .regularFile := by simpa using htype
  have hv := ready.safe (by simp [htype])
  rw [wp_bind]
  refine wp_checkCancelled ?_ (fun e w' ht hq => failed e w' hq (Or.inl ht))
  intro w₁ hq₁
  rw [wp_ite]
  split
  · exact skipped w₁ hq₁ htype ‹_›
  rename_i hskip
  rw [wp_bind]
  apply (Ready.steady w w₁ hq₁ ready).check
  case failed =>
    intro e w₂ hq₂ hx
    rw [hq₁.tree] at hx
    refine failed e w₂ (hq₁.trans hq₂) ?_
    rcases hx with ht | hb
    · exact Or.inl ht
    · exact Or.inr ⟨htype, hskip, Or.inl hb⟩
  intro w₂ hq₂ hclear
  have hq := hq₁.trans hq₂
  rw [hq₁.tree] at hclear
  unfold withTemporaryOutputFile
  rw [wp_bind, destination_dropLast hv]
  apply wp_openTemporaryOutputFile 100 (by decide) (by rw [hq.tree]; exact ready.wellFormed)
    ready.plain_parent
  case failed =>
    intro e w₃ hq₃ hx
    rw [hq.tree] at hx
    refine failed e w₃ (hq.trans hq₃) ?_
    rcases hx with ht | hx
    · exact Or.inl ht
    · exact Or.inr ⟨htype, hskip, Or.inr hx⟩
  intro w₃ t n now hq₃ ht
  rw [hq.tree] at ht
  have hdir := (hclear.direct ready.wellFormed ready.plain_parent (create_ok_path ht)).1
  have hj := opened w₃ t n now (hq.trans hq₃) htype hskip hdir ht
  generalize randomTemporaryName (c.host.entropy n) = name at *
  have ho := isOpen name
  rw [wp_ensure]
  unfold produceFile
  rw [wp_bind]
  refine wp_mono (wp_writeChunks ho (c.chunksAt planned.entry.id) 0 [] _ hj) ?_ ?_
  case refine_2 =>
    rintro e v ⟨⟨content, st, hj'⟩, ht' | ⟨chunk, hm, hbad⟩ | hbig⟩
    · exact broken name content st v e hj' htype (Or.inl ht')
    · refine broken name content st v e hj' htype (Or.inr (Or.inl ?_))
      intro parts hr
      obtain ⟨part, hpart⟩ := readsAs_mem hr.reads hm
      exact hbad part hpart
    · refine broken name content st v e hj' htype ?_
      by_cases hr : ∃ parts, Readable c planned.entry parts
      · obtain ⟨parts, hr⟩ := hr
        have hlen := readsAs_length hr.reads
        rw [hr.size] at hlen
        exact Or.inr (Or.inr (Or.inl (by omega)))
      · exact Or.inr (Or.inl (fun parts hp => hr ⟨parts, hp⟩))
  rintro ⟨written, hashed⟩ v ⟨⟨st, hmode, hj'⟩, parts, hreads, heq⟩
  simp only [Nat.zero_add, List.nil_append, Prod.mk.injEq] at heq
  obtain ⟨rfl, rfl⟩ := heq
  have notReadable : parts.flatten.length ≠ planned.entry.logicalSize ∨
      planned.entry.fileHashHex ≠ some (toHex (c.x.blake3 parts.flatten)) →
      ∀ parts', ¬ Readable c planned.entry parts' := by
    intro hx parts' hr
    rw [readsAs_functional.forall₂ hr.reads hreads] at hr
    rcases hx with hx | hx
    · exact hx hr.size
    · exact hx hr.hash
  dsimp only
  simp only [wp_ite]
  split
  · exact broken name _ st v _ hj' htype (Or.inr (Or.inl (notReadable (Or.inl ‹_›))))
  rename_i hsize
  split
  · exact broken name _ st v _ hj' htype (Or.inr (Or.inl (notReadable (Or.inr ‹_›))))
  rename_i hhash
  have hread : Readable c planned.entry parts :=
    ⟨hreads, by simpa using hsize, by simpa using hhash⟩
  rw [wp_bind]
  apply wp_flush
  case failed =>
    intro e v' ht' hq'
    exact broken name _ st v' e (ho.steady _ _ v v' hq' hj') htype (Or.inl ht')
  intro v₁ hq₁
  have hj₁ := ho.steady _ _ v v₁ hq₁ hj'
  have hpublish : ∀ st' v₂ (warning : Option String), J name parts.flatten st' v₂ →
      (warning = none ∧ planned.entry.posixMode ≤ validModeMask ∧ (∃ time, st' =
          stampOf planned.entry.modifiedTimeNs planned.entry.posixMode ⟨0o600, time⟩) ∨
        warning ≠ none ∧ (Troubled c.host ∨ validModeMask < planned.entry.posixMode)) →
      (publishFile c planned (c.parent planned.entry ++ [name]) warning).wp
        (fun a t => Q a (removeQuietly c.host (c.parent planned.entry ++ [name]) t))
        (fun e t => E e (removeQuietly c.host (c.parent planned.entry ++ [name]) t)) v₂ := by
    intro st' v₂ warning hj₂ hwarning
    obtain ⟨ready₂, hdir₂⟩ := good name _ st' v₂ hj₂
    obtain ⟨last, hlast, _⟩ := destination_eq (c := c) hv
    apply wp_publishFile (n := .file parts.flatten st') ready₂ (ready₂.direct hdir₂ name)
      (by rw [hlast]; exact ready₂.direct hdir₂ last) (ho.file _ _ _ hj₂) (by simp)
    · intro v₃ t now hq₃ ht
      have hj₃ := ho.steady _ _ v₂ v₃ hq₃ hj₂
      rw [← hq₃.tree] at ht
      exact published name parts st' warning v₃ t now hj₃ htype hread hwarning ht
    · intro v₃ hq₃ hr hx
      have hj₃ := ho.steady _ _ v₂ v₃ hq₃ hj₂
      rw [← hq₃.tree] at hx
      exact refused name _ st' v₃ hj₃ htype hr hx
    · intro e v₃ hq₃ hx
      have hj₃ := ho.steady _ _ v₂ v₃ hq₃ hj₂
      rw [← hq₃.tree] at hx
      refine broken name _ st' v₃ e hj₃ htype ?_
      rcases hx with hx | hx | hx
      · exact Or.inl hx
      · exact Or.inr (Or.inr (Or.inr (Or.inl hx)))
      · exact Or.inr (Or.inr (Or.inr (Or.inr hx)))
  unfold fileMetadata
  rw [wp_bind, wp_rescue, wp_bind]
  apply wp_applyMetadataBy (J := J name parts.flatten) (fun st => ho.steady _ st) ?_ hj₁
  · intro v₂ hmask hj₂
    have hst : st = ⟨0o600, st.mtime⟩ := by
      cases st
      simpa using hmode
    exact hpublish _ v₂ none hj₂ (Or.inl ⟨rfl, hmask, st.mtime, congrArg _ hst⟩)
  · intro e st' v₂ hj₂ hx
    exact hpublish st' v₂ _ hj₂ (Or.inr ⟨by simp, hx⟩)
  · intro v₂ st' f hj₂
    have hstamp := restamp_file (ho.file _ _ _ hj₂) f
    exact ⟨_, hstamp, ho.restamp _ _ _ _ f hj₂ hstamp⟩

end File

theorem createLink_ok {t t' : Tree} {target : Bytes} {p : Path} {now : Int}
    (h : createLink target p t now = .ok t') : create t p (.link target) now = .ok t' := by
  unfold createLink at h
  split at h
  · cases h
  · exact h

section Link

variable {c : Context} {planned : PlannedEntry} {w : World}

/-- The temporary path of a link, from the number that was drawn. -/
abbrev linkTemporary (c : Context) (planned : PlannedEntry) (number : Nat) : Path :=
  c.parent planned.entry ++ [sequenceName number]

/-- The rule of the symbolic-link phase. `J` describes the world after the
temporary link was made. -/
theorem wp_restoreLink {Q : Unit → World → Prop} {E : LocalVaultError → World → Prop}
    {J : Nat → Bytes → World → Prop} (ready : Ready c planned.entry w)
    (steady : ∀ number target, Steady (J number target))
    (good : ∀ number target v, J number target v → Ready c planned.entry v ∧
      IsDirectory v.tree (c.parent planned.entry) ∧
      v.tree (linkTemporary c planned number) = some (.link target))
    (other : planned.entry.type ≠ .symbolicLink → Q () w)
    (skipped : ∀ w', Quiet w w' → planned.entry.type = .symbolicLink → planned.action = .skip →
      Q () (w'.skip planned.entry.relativePath "destination symbolic link conflicts"))
    (made : ∀ k target v t now, planned.entry.type = .symbolicLink → planned.action ≠ .skip →
      planned.entry.symlinkTarget = some target → k < 100 →
      (∀ j, j < k → w.tree (linkTemporary c planned (w.sequence + j)) ≠ none) →
      w.tree (linkTemporary c planned (w.sequence + k)) = none →
      IsDirectory w.tree (c.parent planned.entry) → Drawn w v k →
      create w.tree (linkTemporary c planned (w.sequence + k)) (.link target) now = .ok t →
      J (w.sequence + k) target (v.mutate [linkTemporary c planned (w.sequence + k)] t).tick)
    (published : ∀ number target v t now, J number target v →
      planned.entry.symlinkTarget = some target →
      rename v.tree (linkTemporary c planned number) (c.destination planned.entry)
        (planned.action = .replace) now = .ok t →
      ∀ v', Quiet
          (v.mutate [linkTemporary c planned number, c.destination planned.entry] t).tick v' →
        Q () (removeQuietly c.host (linkTemporary c planned number) v'.countLink) ∧
        ∀ e, Troubled c.host → E e (removeQuietly c.host (linkTemporary c planned number) v'))
    (refused : ∀ number target v, J number target v → planned.action ≠ .replace →
      v.tree (c.destination planned.entry) ≠ none →
      Q () (removeQuietly c.host (linkTemporary c planned number)
        (v.skip planned.entry.relativePath "destination appeared during restore")))
    (broken : ∀ number target v e, J number target v → Troubled c.host ∨
      Blocked v.tree c.root (parentComponents planned.entry.relativePath) ∨
      planned.action = .replace ∧ IsDirectory v.tree (c.destination planned.entry) →
      E e (removeQuietly c.host (linkTemporary c planned number) v))
    (failed : ∀ e w', Still w w' → Troubled c.host ∨ (planned.entry.type = .symbolicLink ∧
      planned.action ≠ .skip ∧
      (Blocked w.tree c.root (parentComponents planned.entry.relativePath) ∨
        ¬ IsDirectory w.tree (c.parent planned.entry) ∨
        planned.entry.symlinkTarget = none ∨ planned.entry.symlinkTarget = some [] ∨
        ∀ j, j < 100 → w.tree (linkTemporary c planned (w.sequence + j)) ≠ none)) → E e w') :
    (restoreLink c planned).wp Q E w := by
  unfold restoreLink
  simp only [wp_ite]
  split
  · exact other ‹_›
  rename_i htype
  have htype : planned.entry.type = .symbolicLink := by simpa using htype
  have hv := ready.safe (by simp [htype])
  rw [wp_bind]
  refine wp_checkCancelled ?_ (fun e w' ht hq => failed e w' hq.still (Or.inl ht))
  intro w₁ hq₁
  rw [wp_ite]
  split
  · exact skipped w₁ hq₁ htype ‹_›
  rename_i hskip
  cases htarget : planned.entry.symlinkTarget with
  | none =>
    exact failed _ w₁ hq₁.still (Or.inr ⟨htype, hskip, Or.inr (Or.inr (Or.inl htarget))⟩)
  | some target =>
    dsimp only
    rw [wp_bind]
    apply (Ready.steady w w₁ hq₁ ready).check
    case failed =>
      intro e w₂ hq₂ hx
      rw [hq₁.tree] at hx
      refine failed e w₂ (hq₁.trans hq₂).still ?_
      rcases hx with ht | hb
      · exact Or.inl ht
      · exact Or.inr ⟨htype, hskip, Or.inl hb⟩
    intro w₂ hq₂ hclear
    have hq := hq₁.trans hq₂
    rw [hq₁.tree] at hclear
    have ready₂ := Ready.steady w w₂ hq ready
    rw [wp_bind]
    have hdrop := destination_dropLast (c := c) hv
    apply wp_uniqueTemporaryPath
    case hv =>
      intro n
      rw [hdrop, hq.tree]
      exact hclear.visible ready.wellFormed (ready.plain_parent.append (by simpa [Plain] using
        (sequenceName_temporary n).plain))
    case failed =>
      intro e w₃ hs hx
      rw [hdrop, hq.tree, hq.sequence] at hx
      refine failed e w₃ (hq.still.trans hs) ?_
      rcases hx with ht | hfull
      · exact Or.inl ht
      · exact Or.inr ⟨htype, hskip, Or.inr (Or.inr (Or.inr (Or.inr hfull)))⟩
    intro k w₃ hdrawn hk hbefore hfree
    rw [hdrop, hq.tree, hq.sequence] at hbefore hfree
    rw [hdrop, hq.sequence]
    have hdrawn' : Drawn w w₃ k :=
      ⟨hq.still.trans hdrawn.toStill, by rw [hdrawn.sequence, hq.sequence],
        hdrawn.result.trans hq.result, hdrawn.reports.trans hq.reports⟩
    rw [wp_ensure]
    have hresolve : ∀ (v : World), v.tree = w.tree →
        ∀ q, entryPath v.tree (linkTemporary c planned (w.sequence + k)) = .ok q →
          q = linkTemporary c planned (w.sequence + k) := by
      intro v hv' q hq'
      rw [hv'] at hq'
      have := (hclear.direct ready.wellFormed ready.plain_parent ⟨q, hq'⟩).2
      unfold Direct at this
      rw [hq'] at this
      exact Except.ok.inj this
    -- a link that was not made leaves nothing to remove
    have hunmade : ∀ e v, Still w v → (Troubled c.host ∨
        ¬ IsDirectory w.tree (c.parent planned.entry) ∨ target = []) →
        E e (removeQuietly c.host (linkTemporary c planned (w.sequence + k)) v) := by
      intro e v hs hx
      have hquiet := removeQuietly_missing (h := c.host) (w := v)
        (p := linkTemporary c planned (w.sequence + k)) (by rw [hs.tree]; exact hfree)
        (hresolve v hs.tree)
      refine failed e _ (hs.trans hquiet.still) ?_
      rcases hx with ht | hd | he
      · exact Or.inl ht
      · exact Or.inr ⟨htype, hskip, Or.inr (Or.inl hd)⟩
      · exact Or.inr ⟨htype, hskip, Or.inr (Or.inr (Or.inr (Or.inl (by rw [htarget, he]))))⟩
    unfold produceLink createRestoredSymlink
    simp only [wp_bind]
    apply wp_mutate
    · intro t ht
      rw [hdrawn'.tree] at ht
      have hcreate := createLink_ok ht
      have hdir := (hclear.direct ready.wellFormed ready.plain_parent (create_ok_path hcreate)).1
      have hj := made k target w₃ t _ htype hskip htarget hk hbefore hfree hdir hdrawn' hcreate
      generalize w.sequence + k = number at *
      dsimp only [wp_pure]
      obtain ⟨ready₄, hdir₄, hlink⟩ := good _ _ _ hj
      generalize hu : (w₃.mutate [linkTemporary c planned number] t).tick = u at *
      simp only [wp_pure, ↓reduceIte]
      unfold publishLink
      rw [wp_bind]
      apply ready₄.check
      case failed =>
        intro e v hqv hx
        rw [← hqv.tree] at hx
        refine broken number target v e (steady _ _ u v hqv hj) ?_
        rcases hx with ht' | hb
        · exact Or.inl ht'
        · exact Or.inr (Or.inl hb)
      intro v hqv _
      have hjv := steady _ _ u v hqv hj
      obtain ⟨readyv, hdirv, hlinkv⟩ := good _ _ _ hjv
      obtain ⟨last, hlast, _⟩ := destination_eq (c := c) hv
      rw [wp_bind]
      apply wp_publishRestoredPath (n := .link target) (readyv.direct hdirv _)
        (by rw [hlast]; exact readyv.direct hdirv last) hlinkv (by simp)
      · intro t' now ht'
        dsimp only
        rw [wp_bind]
        apply wp_flush
        · intro v' hq'
          exact (published number target v t' now hjv htarget ht' v' hq').1
        · intro e v' htr hq'
          exact (published number target v t' now hjv htarget ht' v' hq').2 e htr
      · intro v' hq' hr hx
        rw [← hq'.tree] at hx
        exact refused number target v' (steady _ _ v v' hq' hjv) (by simpa using hr) hx
      · intro e v' hq' hx
        rw [← hq'.tree] at hx
        refine broken number target v' e (steady _ _ v v' hq' hjv) ?_
        rcases hx with ht' | ⟨hr, hd⟩
        · exact Or.inl ht'
        · exact Or.inr (Or.inr ⟨by simpa using hr, hd⟩)
    · intro e w₄ he hq₄
      rw [hdrawn'.tree] at he
      refine hunmade _ w₄ (hdrawn'.toStill.trans hq₄.still) (Or.inr ?_)
      unfold createLink at he
      split at he
      · exact Or.inr ‹_›
      · rcases create_refused ready.wellFormed ready.plain_parent he with hd | ⟨_, hx⟩
        · exact Or.inl hd
        · exact absurd hfree hx
    · intro _ w₄ ht hq₄
      exact hunmade _ w₄ (hdrawn'.toStill.trans hq₄.still) (Or.inl ht)

end Link
end LocalVault.Restore
