import LocalVault.Library.Additions
import LocalVault.Repository.Creation

namespace LocalVault.Repository
open Library Library.FileTree

section Sqlite

variable {files : Name → Option (Bytes × Stamp)} {q : Path}

def sqliteFile (files : Name → Option (Bytes × Stamp)) (name : Name) : Option Node :=
  (files name).map (fun f => .file f.1 f.2)

theorem sqliteFile_plain (name : Name) (st : Stamp) :
    sqliteFile files name ≠ some (.directory st) := by
  unfold sqliteFile
  cases files name <;> simp

theorem putFiles_edit (files : Name → Option (Bytes × Stamp)) (names : List Name) (d : Disk) (hd : IsDirectory d.tree q)
    (hfree : ∀ name ∈ names, ¬ IsDirectory d.tree (q ++ [name])) :
    Edit (names.map (fun name => q ++ [name])) d.tree
      (names.foldl (fun d name => d.put (q ++ [name]) (sqliteFile files name)) d).tree := by
  induction names generalizing d with
  | nil => exact Edit.refl _ _
  | cons name names ih =>
    have hone : Edit [q ++ [name]] d.tree (d.put (q ++ [name]) (sqliteFile files name)).tree := by
      rw [Disk.tree_put]
      exact Edit.set (hfree name (by simp)) _ (fun _ => ⟨by simp, by simpa using hd⟩)
    have hrest := ih (d.put (q ++ [name]) (sqliteFile files name)) (hone.directories q hd) ?_
    · exact hone.trans hrest
    · rintro other hmem ⟨st, hst⟩
      rw [Disk.tree_put] at hst
      by_cases he : q ++ [other] = q ++ [name]
      · rw [he, set_same] at hst
        exact sqliteFile_plain name st hst
      · rw [set_other _ _ he] at hst
        exact hfree other (List.mem_cons_of_mem _ hmem) ⟨st, hst⟩

theorem putFiles_at (names : List Name) (d : Disk) (name : Name) :
    (names.foldl (fun d name => d.put (q ++ [name]) (sqliteFile files name)) d).tree (q ++ [name]) =
      if name ∈ names then sqliteFile files name else d.tree (q ++ [name]) := by
  induction names generalizing d with
  | nil => simp
  | cons first names ih =>
    rw [List.foldl_cons, ih]
    by_cases hm : name ∈ names
    · simp [hm]
    · by_cases he : name = first
      · simp [he, Disk.tree_put]
      · rw [Disk.tree_put, set_other _ _ (by simpa using he)]
        simp [hm, he]

variable {root : Path} {d : Disk}

/-- SQLite changes its own files and nothing else. -/
theorem sqliteTouch_edit (files : Name → Option (Bytes × Stamp)) (time : Int)
    (hr : realPath d.tree (bare root) = .ok q) (hd : IsDirectory d.tree q)
    (hfree : ∀ name ∈ sqliteNames, ¬ IsDirectory d.tree (q ++ [name])) :
    Edit (sqliteNames.map (fun name => q ++ [name])) d.tree
        (sqliteTouch root files time d).tree ∧
      ∀ name ∈ sqliteNames,
        (sqliteTouch root files time d).tree (q ++ [name]) = sqliteFile files name := by
  obtain ⟨st, hst⟩ := hd
  unfold sqliteTouch
  simp only [hr, hst]
  change Edit _ d.tree ((sqliteNames.foldl (fun d name =>
    d.put (q ++ [name]) (sqliteFile files name)) d).touch q time).tree ∧ ∀ name ∈ sqliteNames,
      ((sqliteNames.foldl (fun d name => d.put (q ++ [name]) (sqliteFile files name)) d).touch
        q time).tree (q ++ [name]) = sqliteFile files name
  rw [Disk.tree_touch]
  constructor
  · have h := (putFiles_edit files sqliteNames d ⟨st, hst⟩ hfree).trans
      (Edit.touch _ q time)
    rwa [List.append_nil] at h
  · intro name hm
    rw [touch_other _ _ (by simp), putFiles_at, if_pos hm]

end Sqlite

/-- What a record says of the order of the clean-up. -/
def CreationRecord.place (r : CreationRecord) : Path × Bool := (bare r.path, r.protectedWhileLocked)

/-- The paths that the ledger says were made, below an anchor. -/
def Owned (anchor : Path) (ledger : List CreationRecord) (k : Path) : Prop :=
  ∃ r ∈ ledger, r.created = true ∧ bare r.path = anchor ++ k

/-- A later record lies nowhere above an earlier one, and what lies above a
protected path is protected. -/
structure Layered (places : List (Path × Bool)) : Prop where
  ordered : places.Pairwise (fun a b => b.1 <+: a.1 → a.1 = b.1)
  guarded : ∀ a ∈ places, ∀ b ∈ places, a.1 <+: b.1 → b.2 = true → a.2 = true

/-- The ledger and the disk agree: what was made is what the ledger owns. -/
structure Accounted (anchor base : Path) (before : Tree) (standing : Path → Prop)
    (ledger : List CreationRecord) (t : Tree) : Prop where
  added : Added anchor base before t (Owned anchor ledger) standing
  bound : ∀ r ∈ ledger, r.created = true → ∃ k, bare r.path = anchor ++ k
  layered : Layered (ledger.map CreationRecord.place)

section Cleaning

variable {h : Surroundings} {anchor base : Path} {before : Tree}

theorem cleanRecord_added (calm : ∀ n, h.cleanupFails n = false) {held : Bool}
    {front back : List CreationRecord} {r : CreationRecord} {s : Making} {standing : Path → Prop}
    (ha : Accounted anchor base before standing (front ++ r :: back) s.disk.tree)
    (hdone : ∀ b ∈ back, b.created = true → held = true ∧ b.protectedWhileLocked = true) :
    ∃ standing', Accounted anchor base before standing'
        (front ++ (cleanRecord h held r s).1 :: back) (cleanRecord h held r s).2.disk.tree ∧
      (cleanRecord h held r s).1.place = r.place ∧
      ((cleanRecord h held r s).1.created = true →
        held = true ∧ (cleanRecord h held r s).1.protectedWhileLocked = true) ∧
      (cleanRecord h held r s).2.permissionsChanged = s.permissionsChanged ∧
      (cleanRecord h held r s).2.published = s.published := by
  by_cases hskip : r.created = false ∨ (held = true ∧ r.protectedWhileLocked = true)
  · have he : cleanRecord h held r s = (r, s) := by rw [cleanRecord, if_pos hskip]
    rw [he]
    refine ⟨standing, ha, rfl, fun hc => ?_, rfl, rfl⟩
    rcases hskip with hs | hs
    · rw [hs] at hc
      cases hc
    · exact hs
  simp only [not_or, Bool.not_eq_false] at hskip
  obtain ⟨hcreated, hfree⟩ := hskip
  have hmem : r ∈ front ++ r :: back := by simp
  obtain ⟨k, hk⟩ := ha.bound r hmem hcreated
  have hown : Owned anchor (front ++ r :: back) k := ⟨r, hmem, hcreated, hk⟩
  -- the record is the last of its branch
  have hleaf : ∀ j, Owned anchor (front ++ r :: back) j → k <+: j → j = k := by
    rintro j ⟨a, ha', hac, haj⟩ hpre
    have hbelow : bare r.path <+: bare a.path := by
      rw [hk, haj]
      exact (List.prefix_append_right_inj _).mpr hpre
    have hsame : bare a.path = bare r.path → j = k := by
      intro he
      rw [haj, hk] at he
      exact List.append_cancel_left he
    rcases List.mem_append.mp ha' with hf | hb
    · apply hsame
      have hord := ha.layered.ordered
      rw [List.map_append, List.pairwise_append] at hord
      exact hord.2.2 _ (List.mem_map_of_mem hf) _ (List.mem_map_of_mem (by simp)) hbelow
    · rcases List.mem_cons.mp hb with rfl | hb
      · exact hsame rfl
      · obtain ⟨hheld, hprot⟩ := hdone a hb hac
        have := ha.layered.guarded _ (List.mem_map_of_mem hmem) _ (List.mem_map_of_mem ha') hbelow hprot
        exact absurd ⟨hheld, this⟩ hfree
  obtain ⟨d, x, _, _, hentry⟩ := ha.added.owned hown
  have hne : base ++ k ≠ [] := by
    have := (ha.added.fresh k hown).1
    simp [this]
  have hresult : ∀ t, (t = (s.disk.tree.set (base ++ k) none).touch (base ++ k).dropLast
        (h.clock s.calls) ∨ s.disk.tree (base ++ k) = none ∧ t = s.disk.tree) →
      Accounted anchor base before (fun j => standing j ∧ j ≠ k)
        (front ++ { r with created := false } :: back) t := by
    intro t ht
    refine ⟨ha.added.erase hown hleaf ?_ ?_ ht, ?_, ?_⟩
    · rintro j ⟨a, hm, hc, haj⟩
      rcases List.mem_append.mp hm with hm | hm
      · exact ⟨a, by simp [hm], hc, haj⟩
      · rcases List.mem_cons.mp hm with rfl | hm
        · cases hc
        · exact ⟨a, by simp [hm], hc, haj⟩
    · rintro j ⟨a, hm, hc, haj⟩ hj
      refine ⟨a, ?_, hc, haj⟩
      have har : a ≠ r := by
        rintro rfl
        exact hj (List.append_cancel_left (haj.symm.trans hk))
      simp only [List.mem_append, List.mem_cons] at hm ⊢
      rcases hm with hm | hm | hm
      · exact Or.inl hm
      · exact absurd hm har
      · exact Or.inr (Or.inr hm)
    · intro a hm hc
      rcases List.mem_append.mp hm with hm | hm
      · exact ha.bound a (by simp [hm]) hc
      · rcases List.mem_cons.mp hm with rfl | hm
        · cases hc
        · exact ha.bound a (by simp [hm]) hc
    · simpa [CreationRecord.place] using ha.layered
  rw [← hk] at hentry
  rw [cleanRecord, if_neg (by simp [hcreated, hfree]), calm, if_neg Bool.false_ne_true]
  rcases Disk.remove_leaf (h.clock s.calls) hentry hne (ha.added.leaf hown hleaf) with
    ⟨hn, he⟩ | ⟨d', he, ht⟩
  · rw [he]
    exact ⟨_, hresult _ (Or.inr ⟨hn, rfl⟩), rfl, (fun hc => by cases hc), rfl, rfl⟩
  · rw [he]
    exact ⟨_, hresult _ (Or.inl ht), rfl, (fun hc => by cases hc), rfl, rfl⟩

theorem cleanRecords_added (calm : ∀ n, h.cleanupFails n = false) (held : Bool)
    (records front : List CreationRecord) {s : Making} {standing : Path → Prop}
    (ha : Accounted anchor base before standing (front ++ records) s.disk.tree) :
    ∃ standing', Accounted anchor base before standing'
        (front ++ (cleanRecords h held records s).1) (cleanRecords h held records s).2.disk.tree ∧
      (∀ b ∈ (cleanRecords h held records s).1, b.created = true →
        held = true ∧ b.protectedWhileLocked = true) ∧
      (cleanRecords h held records s).2.permissionsChanged = s.permissionsChanged ∧
      (cleanRecords h held records s).2.published = s.published := by
  induction records generalizing front s standing with
  | nil => exact ⟨standing, ha, by simp [cleanRecords], rfl, rfl⟩
  | cons r records ih =>
    have ha' : Accounted anchor base before standing ((front ++ [r]) ++ records) s.disk.tree := by
      simpa using ha
    obtain ⟨standing₁, ha₁, hdone₁, hp₁, hpub₁⟩ := ih (front ++ [r]) ha'
    rw [List.append_assoc, List.singleton_append] at ha₁
    obtain ⟨standing₂, ha₂, _, hdone₂, hp₂, hpub₂⟩ := cleanRecord_added calm ha₁ hdone₁
    refine ⟨standing₂, ha₂, ?_, hp₂.trans hp₁, hpub₂.trans hpub₁⟩
    intro b hb
    rcases List.mem_cons.mp hb with rfl | hb
    · exact hdone₂
    · exact hdone₁ b hb

/-- After both passes everything that was made is gone. -/
theorem cleanLedger_same (calm : ∀ n, h.cleanupFails n = false) {s : Making}
    {standing : Path → Prop}
    (ha : Accounted anchor base before standing s.ledger s.disk.tree) :
    (∀ p, SameAt before (cleanLedger h false
        { cleanLedger h s.writerLock s with writerLock := false }).disk.tree p) ∧
      (cleanLedger h false { cleanLedger h s.writerLock s with writerLock := false }).permissionsChanged
        = s.permissionsChanged := by
  obtain ⟨standing₁, ha₁, _, hp₁, _⟩ := cleanRecords_added calm s.writerLock s.ledger []
    (by simpa using ha)
  rw [List.nil_append] at ha₁
  obtain ⟨standing₂, ha₂, hdone, hp₂, _⟩ := cleanRecords_added calm false
    (s := { cleanLedger h s.writerLock s with writerLock := false })
    (cleanRecords h s.writerLock s.ledger s).1 [] (by simpa [cleanLedger] using ha₁)
  refine ⟨fun p => ?_, hp₂.trans hp₁⟩
  apply ha₂.added.elsewhere
  rintro k ⟨r, hm, hc, _⟩
  exact absurd (hdone r (by simpa using hm) hc).1 (by simp)

end Cleaning

/-- The permissions of the root in front of the run, and the tree with them
changed. -/
def PermissionsKept (root : Path) (original : Option Nat) (changed : Bool) (t₀ t₁ : Tree) : Prop :=
  (changed = false ∧ t₁ = t₀) ∨
    ∃ q st mode, changed = true ∧ original = some st.mode ∧ realPath t₀ (bare root) = .ok q ∧
      t₀ q = some (.directory st) ∧ t₁ = t₀.set q (some (.directory (setMode mode st)))

/-- A state from which the clean-up leads back to the first tree. -/
def Undoable (root : Path) (original : Option Nat) (t₀ : Tree) (s : Making) : Prop :=
  ∃ anchor base before standing,
    Accounted anchor base before standing s.ledger s.disk.tree ∧
    PermissionsKept root original s.permissionsChanged t₀ before

theorem cleanup_undoes {h : Surroundings} {root : Path} {original : Option Nat} {t₀ : Tree}
    {s : Making} (calm : ∀ n, h.cleanupFails n = false) (hu : Undoable root original t₀ s) :
    ∀ p, SameAt t₀ (cleanup h root original s).disk.tree p := by
  obtain ⟨anchor, base, before, standing, ha, hkept⟩ := hu
  obtain ⟨hsame, hperm⟩ := cleanLedger_same calm ha
  unfold cleanup
  generalize hs' : cleanLedger h false { cleanLedger h s.writerLock s with writerLock := false } = s'
    at hsame hperm
  rcases hkept with ⟨hchanged, rfl⟩ | ⟨q, st, mode, hchanged, horig, hreal, hdir, rfl⟩
  · have he : restorePermissions h root original s' = s' := by
      unfold restorePermissions
      cases original with
      | none => rfl
      | some mode => simp [hperm, hchanged]
    simpa [hs', he] using hsame
  · have hext : Extends t₀ s'.disk.tree := by
      refine Extends.trans ?_ (Extends.of_same (fun p _ => hsame p))
      constructor
      · intro p hd
        by_cases hp : p = q
        · exact ⟨_, by rw [hp, set_same]⟩
        · exact (set_sameAt _ _ hp).directory hd
      · intro p n hn hplain
        rw [set_other]
        · exact hn
        · rintro rfl
          rw [hdir] at hn
          exact hplain st (Option.some.inj hn).symm
    have hreal' := realPath_extends hext hreal
    obtain ⟨now, hnow⟩ := hext.directory q ⟨st, hdir⟩
    have he : restorePermissions h root original s' =
        s'.onDisk (s'.disk.put q (some (.directory (setMode st.mode now)))) := by
      unfold restorePermissions
      rw [horig]
      simp only [hperm, hchanged, calm, Disk.restamp, hreal', hnow]
      rfl
    intro p
    have htree : (restorePermissions h root original s').disk.tree =
        s'.disk.tree.set q (some (.directory (setMode st.mode now))) := by
      rw [he]
      exact Disk.tree_put _ _ _
    change SameAt t₀ (restorePermissions h root original (cleanLedger h false
      { cleanLedger h s.writerLock s with writerLock := false })).disk.tree p
    rw [hs', htree]
    by_cases hp : p = q
    · rw [hp]
      exact Or.inr ⟨_, _, hdir, set_same _ _ _, rfl⟩
    · have hset : SameAt t₀ (t₀.set q (some (.directory (setMode mode st)))) p := set_sameAt _ _ hp
      exact (hset.trans (hsame p)).trans (set_sameAt _ _ hp)

end LocalVault.Repository
