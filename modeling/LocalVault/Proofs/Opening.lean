import LocalVault.Proofs.Laying

namespace LocalVault.Repository
open Library Library.FileTree Library.Program

/-- Surroundings in which no call fails. -/
structure Calm (h : Surroundings) : Prop where
  fault : ∀ n, h.fault n = none
  raises : ∀ n, h.raises n = none

section Opening

variable {h : Surroundings} {s : Making} {E : Raised → Making → Prop} {path root : Path}

theorem wp_look_calm (calm : Calm h) {α : Type} {f : Disk → Except Errno α}
    {Q : Except Errno α → Making → Prop} (hq : Q (f s.disk) s.tick) : (look h f).wp Q E s := by
  unfold wp look
  rw [calm.fault]
  exact hq

theorem requireDirectory_calm (calm : Calm h) {description : String} {st : Stamp}
    (hp : symlinkStatus s.disk.tree path = .ok (.directory st)) {Q : Unit → Making → Prop}
    (hq : Q () s.tick) : (requireDirectory h path description).wp Q E s := by
  unfold requireDirectory
  rw [wp_bind]
  apply wp_look_calm calm
  rw [hp]
  exact hq

theorem requireRegularFile_calm (calm : Calm h) {description : String} {content : Bytes}
    {st : Stamp} (hp : symlinkStatus s.disk.tree path = .ok (.file content st))
    {Q : Unit → Making → Prop} (hq : Q () s.tick) :
    (requireRegularFile h path description).wp Q E s := by
  unfold requireRegularFile
  rw [wp_bind]
  apply wp_look_calm calm
  rw [hp]
  exact hq

theorem regularFileExistsNoFollow_calm (calm : Calm h) {content : Bytes} {st : Stamp}
    (hp : symlinkStatus s.disk.tree path = .ok (.file content st)) {Q : Bool → Making → Prop}
    (hq : Q true s.tick) : (regularFileExistsNoFollow h path).wp Q E s := by
  unfold regularFileExistsNoFollow
  rw [wp_bind]
  apply wp_look_calm calm
  rw [hp]
  exact hq

/-- A layout that `Repository::open` finds complete. -/
structure Openable (root : Path) (t : Tree) : Prop where
  found : ∃ st, symlinkStatus t root = .ok (.directory st)
  directories : ∀ d ∈ layoutDirectories, ∃ st, symlinkStatus t (bare root ++ d) = .ok (.directory st)
  files : ∀ name ∈ [lockName, databaseName, walName, shmName],
    ∃ content st, symlinkStatus t (bare root ++ [name]) = .ok (.file content st)

theorem validateLayout_calm (calm : Calm h) (ho : Openable root s.disk.tree) {Q : Unit → Making → Prop}
    (hq : ∀ s', Ticked s s' → Q () s') : (validateLayout h root).wp Q E s := by
  have hdir : ∀ d ∈ layoutDirectories, ∀ {description v} {Q : Unit → Making → Prop}, Ticked s v →
      Q () v.tick → (requireDirectory h (bare root ++ d) description).wp Q E v := by
    intro d hd description v Q hv
    obtain ⟨st, hst⟩ := ho.directories d hd
    exact requireDirectory_calm calm (hv.disk ▸ hst)
  have hfile : ∀ name ∈ [lockName, databaseName, walName, shmName], ∀ {description v}
      {Q : Unit → Making → Prop}, Ticked s v → Q () v.tick →
      (requireRegularFile h (bare root ++ [name]) description).wp Q E v := by
    intro name hm description v Q hv
    obtain ⟨content, st, hst⟩ := ho.files name hm
    exact requireRegularFile_calm calm (hv.disk ▸ hst)
  have hv := Ticked.refl s
  unfold validateLayout
  simp only [wp_bind]
  apply hdir _ (by simp [layoutDirectories]) hv
  replace hv := hv.trans (Ticked.tick _)
  apply hdir _ (by simp [layoutDirectories]) hv
  replace hv := hv.trans (Ticked.tick _)
  apply hdir _ (by simp [layoutDirectories]) hv
  replace hv := hv.trans (Ticked.tick _)
  apply hdir _ (by simp [layoutDirectories]) hv
  replace hv := hv.trans (Ticked.tick _)
  apply hdir _ (by simp [layoutDirectories]) hv
  replace hv := hv.trans (Ticked.tick _)
  apply hfile _ (by simp) hv
  replace hv := hv.trans (Ticked.tick _)
  apply hfile _ (by simp) hv
  exact hq _ (hv.trans (Ticked.tick _))

theorem databaseAccessForOpen_calm (calm : Calm h) (ho : Openable root s.disk.tree) {mode : OpenMode}
    {Q : DatabaseAccess → Making → Prop} (hq : ∀ access s', Ticked s s' → Q access s') :
    (databaseAccessForOpen h root mode).wp Q E s := by
  obtain ⟨_, _, hwal⟩ := ho.files walName (by simp)
  obtain ⟨_, _, hshm⟩ := ho.files shmName (by simp)
  unfold databaseAccessForOpen
  rw [wp_bind]
  apply regularFileExistsNoFollow_calm calm hwal
  rw [wp_bind]
  apply regularFileExistsNoFollow_calm (s := s.tick) calm hshm
  have hticked : Ticked s s.tick.tick := (Ticked.tick s).trans (Ticked.tick _)
  cases mode with
  | readWrite => exact hq _ _ hticked
  | readOnly => exact hq _ _ hticked

theorem openAt_accepts (calm : Calm h) (ho : Openable root s.disk.tree) {info : RepositoryInfo}
    (hload : loadRepositoryInfo s.db = .ok info) (mode : OpenMode) :
    (openAt h root mode).wp (fun found _ => found = info) (fun _ _ => False) s := by
  obtain ⟨st, hst⟩ := ho.found
  unfold openAt
  rw [wp_bind]
  apply wp_look_calm calm
  rw [hst]
  dsimp only
  rw [wp_bind]
  apply validateLayout_calm (s := s.tick) calm ho
  rintro s₁ ⟨n₁, rfl⟩
  rw [wp_bind]
  apply databaseAccessForOpen_calm (s := { s.tick with calls := n₁ }) calm ho
  rintro access s₂ ⟨n₂, rfl⟩
  simp only [wp_bind, wp_rescue, openDatabase]
  unfold wp sqlite
  simp only [calm.raises, Making.onDisk, Making.tick, hload]

end Opening

section Result

variable {c : Site} {root rel : Path} {changed : Bool} {s : Making} {h : Surroundings}

theorem symlinkStatus_untrailed {t : Tree} {p q : Path} {node : Node} (hp : trailing p = false)
    (he : entryPath t p = .ok q) (hn : t q = some node) : symlinkStatus t p = .ok node := by
  unfold symlinkStatus lstat
  rw [hp, he]
  simp only [hn]
  rfl

theorem symlinkStatus_extends {t u : Tree} (h : Extends t u) {p : Path} {st : Stamp}
    (hs : symlinkStatus t p = .ok (.directory st)) :
    ∃ st', symlinkStatus u p = .ok (.directory st') := by
  unfold symlinkStatus stat lstat at *
  split
  · rw [if_pos ‹_›] at hs
    cases hr : realPath t (bare p) with
    | error e => simp [hr] at hs
    | ok q =>
      have hq : t q = some (.directory st) := by
        cases hn : t q with
        | none => simp [hr, hn] at hs
        | some m => cases m <;> simp_all
      obtain ⟨st', hst⟩ := h.directory q ⟨st, hq⟩
      exact ⟨st', by simp [realPath_extends h hr, hst]⟩
  · rw [if_neg ‹_›] at hs
    cases he : entryPath t p with
    | error e => simp [he] at hs
    | ok q =>
      have hq : t q = some (.directory st) := by
        cases hn : t q with
        | none => simp [he, hn] at hs
        | some m => simpa [he, hn] using hs
      obtain ⟨st', hst⟩ := h.directory q ⟨st, hq⟩
      exact ⟨st', by simp [entryPath_extends h he, hst]⟩

theorem trailing_concat {p : Path} {x : Name} (hx : x ≠ []) : trailing (p ++ [x]) = false := by
  simp [trailing, hx]

/-- The root is made by the run, or was found as a directory. -/
def RootKnown (c : Site) (root rel : Path) : Prop :=
  rel ≠ [] ∧ bare root = root ∨ ∃ st, symlinkStatus c.before root = .ok (.directory st)

/-- A layout whose database files were left in place opens. -/
theorem Laid.openable (hs : Laid c rel changed s) (hroot : bare root = c.anchor ++ rel)
    (hord : ∀ x ∈ bare root, Ordinary x) (hknown : RootKnown c root rel)
    (hfiles : ∀ name ∈ [databaseName, walName, shmName],
      ∃ content st, s.disk.tree (c.base ++ (rel ++ [name])) = some (.file content st)) :
    Openable root s.disk.tree := by
  obtain ⟨standing, hacc, hrel, hdirs⟩ := hs.accounted
  have hadded := hacc.added
  have hlayout : ∀ d ∈ layoutDirectories, ∃ e x, d = e ++ [x] ∧ x ≠ [] ∧
      (e = [] ∨ e ∈ layoutDirectories) := by
    intro d hd
    simp only [layoutDirectories, List.mem_cons, List.not_mem_nil, or_false] at hd
    rcases hd with rfl | rfl | rfl | rfl | rfl
    · exact ⟨[], objectsName, rfl, by decide, Or.inl rfl⟩
    · exact ⟨[], temporaryName, rfl, by decide, Or.inl rfl⟩
    · exact ⟨[temporaryName], objectsName, rfl, by decide, Or.inr (by simp [layoutDirectories])⟩
    · exact ⟨[temporaryName], restoresName, rfl, by decide, Or.inr (by simp [layoutDirectories])⟩
    · exact ⟨[], logsName, rfl, by decide, Or.inl rfl⟩
  have hentry : ∀ {e : Path} {x : Name} {node : Node}, standing (rel ++ e) → x ≠ [] →
      s.disk.tree (c.base ++ (rel ++ (e ++ [x]))) = some node →
      symlinkStatus s.disk.tree (bare root ++ (e ++ [x])) = .ok node := by
    intro e x node he hx hn
    rw [hroot, List.append_assoc, ← List.append_assoc rel]
    refine symlinkStatus_untrailed ?_ (hadded.entry he x) (by simpa using hn)
    rw [← List.append_assoc]
    exact trailing_concat hx
  refine ⟨?_, ?_, ?_⟩
  · rcases hknown with ⟨hne, hbare⟩ | ⟨st, hst⟩
    · obtain ⟨st, hst⟩ := hadded.directory hrel
      have hown := (hadded.known rel hrel).resolve_left hne
      obtain ⟨d, x, hsplit, _, he⟩ := hadded.owned hown
      refine ⟨st, symlinkStatus_untrailed ?_ (by rw [← hbare, hroot]; exact he) hst⟩
      have hx : Ordinary x := by
        apply hord x
        rw [hroot, hsplit]
        simp
      rw [← hbare, hroot, hsplit, ← List.append_assoc]
      exact trailing_concat hx.1
    · exact symlinkStatus_extends hadded.grown hst
  · intro d hd
    obtain ⟨e, x, hsplit, hx, he⟩ := hlayout d hd
    obtain ⟨st, hst⟩ := hadded.directory (hdirs d hd)
    refine ⟨st, ?_⟩
    rw [hsplit] at hst ⊢
    refine hentry ?_ hx hst
    rcases he with rfl | he
    · simpa using hrel
    · exact hdirs e he
  · intro name hm
    have hx : name ≠ [] := by
      revert name
      decide
    have hfile : ∃ content st, s.disk.tree (c.base ++ (rel ++ [name])) = some (.file content st) := by
      rcases List.mem_cons.mp hm with rfl | hm
      · exact hs.lock
      · exact hfiles name hm
    obtain ⟨content, st, hf⟩ := hfile
    exact ⟨content, st, hentry (e := []) (by simpa using hrel) hx hf⟩

end Result

end LocalVault.Repository
