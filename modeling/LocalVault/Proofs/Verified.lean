import LocalVault.Proofs.Confined

namespace LocalVault.Restore
open Library Library.FileTree Library.Program

/-- The path of a file entry holds what it held before, or the whole verified
file. -/
def Holds (x : Externals) (root : Path) (chunks : List ChunkReferenceInfo) (t₀ t : Tree)
    (e : EntryInfo) : Prop :=
  SameAt t₀ t (root ++ components e.relativePath) ∨
    ∃ content st, t (root ++ components e.relativePath) = some (.file content st) ∧
      VerifiedContent x chunks e content

/-- An object that an entry of the snapshot describes. -/
def Belongs (x : Externals) (chunks : List ChunkReferenceInfo) (e : EntryInfo) (n : Node) : Prop :=
  match e.type with
  | .directory => ∃ st, n = .directory st
  | .regularFile => ∃ content st, n = .file content st ∧ VerifiedContent x chunks e content
  | .symbolicLink => ∃ target, e.symlinkTarget = some target ∧ n = .link target

theorem Belongs.like {x : Externals} {chunks : List ChunkReferenceInfo} {e : EntryInfo} {n m : Node}
    (h : Belongs x chunks e n) (hl : n.Like m) : Belongs x chunks e m := by
  unfold Belongs at *
  cases he : e.type with
  | directory =>
    simp only [he] at h ⊢
    obtain ⟨st, rfl⟩ := h
    cases m <;> simp [Node.Like] at hl ⊢
  | regularFile =>
    simp only [he] at h ⊢
    obtain ⟨content, st, rfl, hv⟩ := h
    cases m <;> simp [Node.Like] at hl
    obtain ⟨rfl, rfl⟩ := hl
    exact ⟨_, _, rfl, hv⟩
  | symbolicLink =>
    simp only [he] at h ⊢
    obtain ⟨target, ht, rfl⟩ := h
    cases m <;> simp [Node.Like] at hl
    subst hl
    exact ⟨_, ht, rfl⟩

/-- What the run relies on: valid entries, file destinations nobody else of the
selection shares, and random names that are not the name of a file. -/
structure Setting (c : Context) (selected : List EntryInfo) : Prop where
  root : Plain c.root
  valid : ∀ e ∈ selected, ValidEntry e
  lone : ∀ e ∈ selected, e.type = .regularFile → ∀ d ∈ selected,
    components d.relativePath = components e.relativePath → d = e
  unguessed : ∀ e ∈ selected, e.type = .regularFile → ∀ n,
    (components e.relativePath).getLast? ≠ some (randomTemporaryName (c.host.entropy n))

/-- Where an object may stand that was not there before: on the way to the
destination, or at the place of the entry that describes it. -/
def Placed (c : Context) (selected : List EntryInfo) (t₀ : Tree) (p : Path) (n : Node) : Prop :=
  t₀ p ≠ none ∨ p <+: c.root ∨
    ∃ e ∈ selected, p = c.destination e ∧ Belongs c.x (c.chunksAt e.id) e n

/-- The invariant of a run, in every state: the moments so far, the files that
already stand, and where new objects are. `spare` is the temporary of the moment. -/
structure Sound (c : Context) (selected : List EntryInfo) (t₀ : Tree) (directories : List Path)
    (present : EntryInfo → Prop) (spare : List Path) (w : World) : Prop where
  safe : SafeAt c.root selected directories w
  holds : ∀ t ∈ w.moments, ∀ e ∈ selected, e.type = .regularFile →
    Holds c.x c.root (c.chunksAt e.id) t₀ t e
  present : ∀ e ∈ selected, e.type = .regularFile → present e → w.tree (c.destination e) ≠ none
  tidy : (∀ n, c.host.removalFails n = false) → ∀ p n, p ∉ spare → w.tree p = some n →
    Placed c selected t₀ p n

section Sound

variable {c : Context} {selected : List EntryInfo} {t₀ : Tree} {directories : List Path}
  {present : EntryInfo → Prop} {spare : List Path} {w : World}

theorem Sound.stable : Stable (Sound c selected t₀ directories present spare) := by
  intro w w' hs hw
  refine ⟨SafeAt.stable w w' hs hw.safe, ?_, ?_, ?_⟩
  · unfold World.moments
    rw [hs.tree, hs.mutations]
    exact hw.holds
  · rw [hs.tree]
    exact hw.present
  · rw [hs.tree]
    exact hw.tidy

theorem Sound.weaken {ds : List Path} {present' : EntryInfo → Prop}
    (hs : Sound c selected t₀ directories present spare w) (hd : ∀ d ∈ ds, d ∈ directories)
    (hp : ∀ e, present' e → present e) : Sound c selected t₀ ds present' spare w :=
  { hs with
    safe := hs.safe.weaken hd
    present := fun e hm ht h => hs.present e hm ht (hp e h) }

theorem Sound.now (hs : Sound c selected t₀ directories present spare w) {e : EntryInfo}
    (he : e ∈ selected) (ht : e.type = .regularFile) :
    Holds c.x c.root (c.chunksAt e.id) t₀ w.tree e :=
  hs.holds w.tree (by simp [World.moments]) e he ht

theorem Holds.elsewhere {x : Externals} {root : Path} {chunks : List ChunkReferenceInfo}
    {t t' : Tree} {e : EntryInfo} {paths : List Path} (h : Holds x root chunks t₀ t e)
    (he : Edit paths t t') (hp : root ++ components e.relativePath ∉ paths) :
    Holds x root chunks t₀ t' e := by
  have hsame := he.elsewhere _ hp
  rcases h with h | ⟨content, st, hn, hv⟩
  · exact Or.inl (h.trans hsame)
  · exact Or.inr ⟨content, st, hsame.plain hn (by simp), hv⟩

theorem Placed.like {p : Path} {n m : Node} (h : Placed c selected t₀ p n) (hl : n.Like m) :
    Placed c selected t₀ p m := by
  rcases h with h | h | ⟨e, he, hp, hb⟩
  · exact Or.inl h
  · exact Or.inr (Or.inl h)
  · exact Or.inr (Or.inr ⟨e, he, hp, hb.like hl⟩)

/-- One mutation, and what it owes at the paths it names. -/
theorem Sound.mutate (hs : Sound c selected t₀ directories present spare w) {paths : List Path}
    {t : Tree} {s : List Path} (he : Edit paths w.tree t)
    (hp : ∀ p ∈ paths, Permitted c.root selected w.tree p ∧ Direct w.tree p)
    (hh : ∀ e ∈ selected, e.type = .regularFile → c.destination e ∈ paths →
      Holds c.x c.root (c.chunksAt e.id) t₀ t e ∧ t (c.destination e) ≠ none)
    (hsub : ∀ p, p ∉ s → p ∉ paths → p ∉ spare)
    (ht : ∀ p ∈ paths, p ∉ s → ∀ n, t p = some n → Placed c selected t₀ p n) :
    Sound c selected t₀ directories present s (w.mutate paths t).tick where
  safe := hs.safe.mutate he hp
  holds u hu e hm htype := by
    rcases List.mem_cons.mp hu with rfl | hu
    · by_cases hd : c.destination e ∈ paths
      · exact (hh e hm htype hd).1
      · exact (hs.now hm htype).elsewhere he hd
    · exact hs.holds u (by simpa [World.moments, World.mutate, World.tick] using hu) e hm htype
  present e hm htype hpres := by
    by_cases hd : c.destination e ∈ paths
    · exact (hh e hm htype hd).2
    · exact fun hn => hs.present e hm htype hpres ((he.elsewhere _ hd).none_iff.mpr hn)
  tidy hr p n hsp hn := by
    by_cases hd : p ∈ paths
    · exact ht p hd hsp n hn
    · rcases he.elsewhere p hd with ⟨_, hnone⟩ | ⟨a, b, ha, hb, hl⟩
      · rw [show (w.mutate paths t).tick.tree = t from rfl, hnone] at hn
        cases hn
      · rw [show (w.mutate paths t).tick.tree = t from rfl, hb] at hn
        cases hn
        exact (hs.tidy hr p a (hsub p hsp hd) ha).like hl

theorem destination_inj {d e : EntryInfo} (h : c.destination d = c.destination e) :
    components d.relativePath = components e.relativePath :=
  List.append_cancel_left h

/-- The invariant inside the scope of a temporary. -/
structure SoundScope (c : Context) (selected : List EntryInfo) (t₀ : Tree)
    (present : EntryInfo → Prop) (e : EntryInfo) (name : Name) (w : World) : Prop where
  sound : Sound c selected t₀ [c.root, c.parent e] present [c.parent e ++ [name]] w
  plain : ¬ IsDirectory w.tree (c.parent e ++ [name])

theorem SoundScope.stable {e : EntryInfo} {name : Name} :
    Stable (SoundScope c selected t₀ present e name) := by
  intro w w' hs h
  refine ⟨Sound.stable w w' hs h.sound, ?_⟩
  rw [hs.tree]
  exact h.plain

/-- The name of a temporary that is the name of no file entry next to it. -/
structure FreshName (c : Context) (selected : List EntryInfo) (e : EntryInfo) (name : Name) :
    Prop where
  temporary : TemporaryName name
  unused : ∀ d ∈ selected, d.type = .regularFile → c.destination d ≠ c.parent e ++ [name]

section Entry

variable {e : EntryInfo} {name : Name} (setting : Setting c selected) (hmem : e ∈ selected)
  (hv : isSafeStoredPath e.relativePath = true) (hname : FreshName c selected e name)
include setting hmem hv hname

theorem soundScope_created {t : Tree} {node : Node} {now : Int} {v : World}
    (hs : Sound c selected t₀ [c.root] present [] w) (hw : Still w v)
    (hd : IsDirectory w.tree (c.parent e)) (hnode : ∀ st, node ≠ .directory st)
    (ht : create w.tree (c.parent e ++ [name]) node now = .ok t) :
    SoundScope c selected t₀ present e name (v.mutate [c.parent e ++ [name]] t).tick := by
  have hs' := Sound.stable w v hw hs
  have hsafe := scoped_created (e := e) hmem (setting.valid e hmem)
    setting.root hv hname.temporary hs.safe hw hd hnode ht
  rw [← hw.tree] at ht hd
  have hdir := Direct.entry hs'.safe.1.wellFormed
    (hs'.safe.ready (e := e) (by simp) setting.root
      (setting.valid e hmem)).plain_parent hd name
  have hm := hs'.mutate (s := [c.parent e ++ [name]])
    (create_edit hs'.safe.1.wellFormed hdir ht) ?_ ?_ ?_ ?_
  · exact ⟨{ hm with safe := hsafe.safe }, hsafe.plain⟩
  · intro p hp
    rw [List.mem_singleton.mp hp]
    exact ⟨.temporary hmem hv hname.temporary, hdir⟩
  · exact fun d hdm htype hx => absurd (List.mem_singleton.mp hx) (hname.unused d hdm htype)
  · exact fun _ _ _ => List.not_mem_nil
  · exact fun p hp hn => absurd hp hn

theorem soundScope_edited {t : Tree} (hs : SoundScope c selected t₀ present e name w)
    (he : Edit [c.parent e ++ [name]] w.tree t) (hn : ¬ IsDirectory t (c.parent e ++ [name])) :
    SoundScope c selected t₀ present e name (w.mutate [c.parent e ++ [name]] t).tick := by
  have hdir := (hs.sound.safe.ready (e := e) (by simp) setting.root
    (setting.valid e hmem)).direct (hs.sound.safe.2 _ (by simp)) name
  refine ⟨hs.sound.mutate he ?_ ?_ (fun _ h _ => h) (fun p hp hx => absurd hp hx), hn⟩
  · intro p hp
    rw [List.mem_singleton.mp hp]
    exact ⟨.temporary hmem hv hname.temporary, hdir⟩
  · exact fun d hdm htype hx => absurd (List.mem_singleton.mp hx) (hname.unused d hdm htype)

/-- The publication of an object that belongs to the entry. -/
theorem soundScope_renamed {t : Tree} {now : Int} {replace : Bool} {n : Node}
    (hs : SoundScope c selected t₀ present e name w)
    (hn : w.tree (c.parent e ++ [name]) = some n)
    (hb : Belongs c.x (c.chunksAt e.id) e n) (htype : e.type ≠ .directory)
    (ht : rename w.tree (c.parent e ++ [name]) (c.destination e) replace now = .ok t) :
    SoundScope c selected t₀ (fun d => present d ∨ d = e) e name
      (w.mutate [c.parent e ++ [name], c.destination e] t).tick := by
  have hsafe := scoped_renamed (e := e) hmem (setting.valid e hmem)
    setting.root hv hname.temporary ⟨hs.sound.safe, hs.plain⟩ ht
  obtain ⟨last, hlast, _⟩ := destination_eq (c := c) hv
  have ready := hs.sound.safe.ready (e := e) (by simp) setting.root
    (setting.valid e hmem)
  have hdir := ready.direct (hs.sound.safe.2 _ (by simp)) name
  have hdest : Direct w.tree (c.destination e) := by
    rw [hlast]
    exact ready.direct (hs.sound.safe.2 _ (by simp)) last
  have hnew := renamed_node hdir hdest hn ht
  -- a file entry is named here only by its own publication
  have hown : ∀ d ∈ selected, d.type = .regularFile →
      c.destination d ∈ [c.parent e ++ [name], c.destination e] → d = e := by
    intro d hdm hdt hx
    simp only [List.mem_cons, List.not_mem_nil, or_false] at hx
    rcases hx with hx | hx
    · exact absurd hx (hname.unused d hdm hdt)
    · exact (setting.lone d hdm hdt e hmem (destination_inj hx.symm)).symm
  have hm := hs.sound.mutate (s := [c.parent e ++ [name]])
    (rename_edit hs.sound.safe.1.wellFormed hdir hdest ht) ?_ ?_ (fun _ h _ => h) ?_
  · refine ⟨{ hm with safe := hsafe.safe, present := ?_ }, hsafe.plain⟩
    rintro d hdm hdt (hpres | rfl)
    · exact hm.present d hdm hdt hpres
    · exact fun hnone => by
        rw [show (w.mutate _ t).tick.tree = t from rfl, hnew] at hnone
        cases hnone
  · intro p hp
    refine ⟨sibling_permitted (e := e) hmem hv hname.temporary _ p hp, ?_⟩
    simp only [List.mem_cons, List.not_mem_nil, or_false] at hp
    rcases hp with rfl | rfl
    · exact hdir
    · exact hdest
  · intro d hdm hdt hx
    obtain rfl := hown d hdm hdt hx
    refine ⟨Or.inr ?_, by simp [hnew]⟩
    unfold Belongs at hb
    simp only [hdt] at hb
    obtain ⟨content, st, rfl, hver⟩ := hb
    exact ⟨content, st, hnew, hver⟩
  · intro p hp hx m hmn
    simp only [List.mem_cons, List.not_mem_nil, or_false] at hp hx
    rcases hp with hp | rfl
    · exact absurd hp hx
    · rw [hnew] at hmn
      cases hmn
      exact Or.inr (Or.inr ⟨e, hmem, rfl, hb⟩)

theorem soundScope_closed (hs : SoundScope c selected t₀ present e name w) :
    Sound c selected t₀ [c.root] present [] (removeQuietly c.host (c.parent e ++ [name]) w) := by
  have ready := hs.sound.safe.ready (e := e) (by simp) setting.root
    (setting.valid e hmem)
  have hdir := ready.direct (hs.sound.safe.2 _ (by simp)) name
  have hweak : Sound c selected t₀ [c.root] present _ w :=
    hs.sound.weaken (by simp) (fun _ h => h)
  rcases removeQuietly_cases (h := c.host) hdir hs.plain with ⟨hq, hx⟩ | ⟨t, now, ht, he⟩
  · apply Sound.stable w _ hq.still
    refine { hweak with tidy := ?_ }
    intro hr p n _ hn
    rcases hx with ⟨k, hk⟩ | hnone
    · rw [hr k] at hk
      cases hk
    · refine hweak.tidy hr p n ?_ hn
      intro hp
      rw [List.mem_singleton.mp hp, hnone] at hn
      cases hn
  · rw [he]
    refine hweak.mutate (unlink_edit hdir ht) ?_ ?_ ?_ ?_
    · intro p hp
      rw [List.mem_singleton.mp hp]
      exact ⟨.temporary hmem hv hname.temporary, hdir⟩
    · exact fun d hdm htype hx => absurd (List.mem_singleton.mp hx) (hname.unused d hdm htype)
    · exact fun _ _ h => h
    · intro p hp _ n hn
      rw [List.mem_singleton.mp hp, unlinked_none hdir ht] at hn
      cases hn

end Entry

section Phases

variable {planned : PlannedEntry} (setting : Setting c selected) (hmem : planned.entry ∈ selected)
include setting hmem

/-- A mutation at the place of an entry that is not a file touches no file. -/
theorem other_destination (htype : planned.entry.type ≠ .regularFile) {d : EntryInfo}
    (hd : d ∈ selected) (ht : d.type = .regularFile) :
    c.destination d ∉ [c.destination planned.entry] := by
  intro hx
  have hx := List.mem_singleton.mp hx
  have := setting.lone d hd ht planned.entry hmem (destination_inj hx.symm)
  rw [this] at htype
  exact htype ht

omit setting in
theorem destination_permitted (hvalid : ValidEntry planned.entry) (t : Tree) :
    Permitted c.root selected t (c.destination planned.entry) := by
  rcases hvalid with ⟨hr, _⟩ | hv
  · rw [destination_root hr]
    exact .root
  · exact .entry hmem hv

theorem restoreDirectory_sound :
    Maintains (Sound c selected t₀ [c.root] present []) (restoreDirectory c planned) := by
  intro w hw
  have hvalid := setting.valid _ hmem
  have ready := hw.safe.ready (e := planned.entry) (by simp) setting.root hvalid
  apply wp_restoreDirectory ready
  · exact fun w' hq _ => Sound.stable w w' hq.still hw
  · exact fun w' hq _ _ => Sound.stable w _ ⟨hq.tree, hq.mutations⟩ hw
  · exact fun w' hq _ _ _ => Sound.stable w _ ⟨hq.tree, hq.mutations⟩ hw
  · intro w' t now hq htype _ hdir ht
    have hw' := Sound.stable w w' hq.still hw
    rw [← hq.tree] at hdir ht
    refine Sound.stable (w'.mutate [c.destination planned.entry] t).tick _ ⟨rfl, rfl⟩
      (hw'.mutate (create_edit hw'.safe.1.wellFormed hdir ht) ?_ ?_ (fun _ _ _ => by simp) ?_)
    · intro p hp
      rw [List.mem_singleton.mp hp]
      exact ⟨destination_permitted hmem hvalid _, hdir⟩
    · exact fun d hd hdt hx =>
        absurd hx (other_destination setting hmem (by simp [htype]) hd hdt)
    · intro p hp _ n hn
      obtain ⟨st, hst⟩ := create_isDirectory hdir ht
      rw [List.mem_singleton.mp hp, hst] at hn
      cases hn
      refine Or.inr (Or.inr ⟨planned.entry, hmem, List.mem_singleton.mp hp, ?_⟩)
      unfold Belongs
      rw [htype]
      exact ⟨st, rfl⟩
  · exact fun _ w' hq _ => Sound.stable w w' hq.still hw

omit hmem in
theorem random_fresh (n : Nat) :
    FreshName c selected planned.entry (randomTemporaryName (c.host.entropy n)) := by
  refine ⟨randomTemporaryName_temporary _, ?_⟩
  intro d hd hdt hx
  have hcomp : components d.relativePath = parentComponents planned.entry.relativePath ++
      [randomTemporaryName (c.host.entropy n)] := by
    simpa [Context.destination, Context.parent] using hx
  exact setting.unguessed d hd hdt n (by simp [hcomp])

theorem restoreFile_sound (hw : Sound c selected t₀ [c.root] present [] w) :
    (restoreFile c planned).wp
      (fun _ => Sound c selected t₀ [c.root]
        (fun d => present d ∨ (d = planned.entry ∧ planned.action ≠ .skip)) [])
      (fun _ => Sound c selected t₀ [c.root] present []) w := by
  have hvalid := setting.valid _ hmem
  have ready := hw.safe.ready (e := planned.entry) (by simp) setting.root hvalid
  -- an entry of another type, and a skipped one, add nothing to the files that stand
  have hskip : (planned.action = .skip ∨ planned.entry.type ≠ .regularFile) → ∀ v, Still w v →
      Sound c selected t₀ [c.root]
        (fun d => present d ∨ (d = planned.entry ∧ planned.action ≠ .skip)) [] v := by
    intro hx v hst
    have := Sound.stable w v hst hw
    refine { this with present := ?_ }
    rintro d hd hdt (hp | ⟨rfl, ha⟩)
    · exact this.present d hd hdt hp
    · rcases hx with hx | hx
      · exact absurd hx ha
      · exact absurd hdt hx
  by_cases htype : planned.entry.type = .regularFile
  case neg =>
    unfold restoreFile
    simp only [ne_eq, htype, not_false_eq_true, ↓reduceIte, wp_pure]
    exact hskip (Or.inr htype) w (Still.refl w)
  have hv := ready.safe (by simp [htype])
  apply wp_restoreFile ready (J := fun name content st v =>
    FreshName c selected planned.entry name ∧
    v.tree (c.parent planned.entry ++ [name]) = some (.file content st) ∧
    SoundScope c selected t₀ present planned.entry name v ∧ planned.action ≠ .skip)
  case isOpen =>
    intro name
    refine ⟨?_, ?_, ?_, ?_⟩
    · rintro content st v v' hq ⟨hn, hf, hs, ha⟩
      exact ⟨hn, by rw [hq.tree]; exact hf, SoundScope.stable v v' hq.still hs, ha⟩
    · exact fun content st v hj => hj.2.1
    · rintro content st v t bytes now ⟨hn, hf, hs, ha⟩ ht
      have hfile := append_file hf ht
      exact ⟨hn, hfile, soundScope_edited setting hmem hv hn hs (append_edit ht)
        (not_directory_file hfile), ha⟩
    · rintro content st v t f ⟨hn, hf, hs, ha⟩ ht
      have hfile := restamped_file hf ht
      exact ⟨hn, hfile, soundScope_edited setting hmem hv hn hs (restamp_edit ht)
        (not_directory_file hfile), ha⟩
  case good =>
    rintro name content st v ⟨_, _, hs, _⟩
    exact ⟨hs.sound.safe.ready (by simp) setting.root hvalid, hs.sound.safe.2 _ (by simp)⟩
  case other => exact fun hne => absurd htype hne
  case skipped => exact fun w' hq _ ha => hskip (Or.inl ha) _ ⟨hq.tree, hq.mutations⟩
  case opened =>
    intro w' t n now hq _ ha hd ht
    have hname : FreshName c selected planned.entry _ := random_fresh setting n
    exact ⟨hname, created_file (ready.direct hd _) ht,
      soundScope_created setting hmem hv hname hw hq.still hd (by simp) ht, ha⟩
  case published =>
    rintro name parts st warning v t now ⟨hn, hf, hs, ha⟩ _ hread _ ht
    have hbelongs : Belongs c.x (c.chunksAt planned.entry.id) planned.entry
        (.file parts.flatten st) := by
      unfold Belongs
      rw [htype]
      exact ⟨_, st, rfl, hread.verified⟩
    have hren := soundScope_renamed setting hmem hv hn hs hf hbelongs (by simp [htype]) ht
    constructor
    · intro v' hr
      have := soundScope_closed setting hmem hv hn
        (SoundScope.stable _ v' ⟨hr.tree, hr.mutations⟩ hren)
      exact this.weaken (by simp) (fun d hd => hd.imp id (·.1))
    · intro e v' hst _
      have := soundScope_closed setting hmem hv hn
        (SoundScope.stable _ v' ⟨hst.tree, hst.mutations⟩ hren)
      exact this.weaken (by simp) (fun d hd => Or.inl hd)
  case refused =>
    rintro name content st v ⟨hn, _, hs, ha⟩ _ _ hx
    have hthere : SoundScope c selected t₀
        (fun d => present d ∨ (d = planned.entry ∧ planned.action ≠ .skip)) planned.entry name v := by
      refine ⟨{ hs.sound with present := ?_ }, hs.plain⟩
      rintro d hd hdt (hp | ⟨rfl, _⟩)
      · exact hs.sound.present d hd hdt hp
      · exact hx
    exact soundScope_closed setting hmem hv hn (SoundScope.stable v _ ⟨rfl, rfl⟩ hthere)
  case broken =>
    rintro name content st v e ⟨hn, _, hs, _⟩ _ _
    exact soundScope_closed setting hmem hv hn hs
  case failed => exact fun _ w' hq _ => Sound.stable w w' hq.still hw

/-- In the link phase every file next to the link already stands, so that a
free name is never the name of a file. -/
theorem restoreLink_sound
    (hfiles : planned.entry.type = .symbolicLink → planned.action ≠ .skip → ∀ d ∈ selected,
      d.type = .regularFile →
      parentComponents d.relativePath = parentComponents planned.entry.relativePath → present d) :
    Maintains (Sound c selected t₀ [c.root] present []) (restoreLink c planned) := by
  intro w hw
  have hvalid := setting.valid _ hmem
  have ready := hw.safe.ready (e := planned.entry) (by simp) setting.root hvalid
  by_cases htype : planned.entry.type = .symbolicLink
  case neg =>
    unfold restoreLink
    simp [htype, hw]
  have hv := ready.safe (by simp [htype])
  apply wp_restoreLink ready (J := fun number target v =>
    FreshName c selected planned.entry (sequenceName number) ∧
    v.tree (linkTemporary c planned number) = some (.link target) ∧
    SoundScope c selected t₀ present planned.entry (sequenceName number) v)
  case steady =>
    rintro number target v v' hq ⟨hn, hf, hs⟩
    exact ⟨hn, by rw [hq.tree]; exact hf, SoundScope.stable v v' hq.still hs⟩
  case good =>
    rintro number target v ⟨_, hf, hs⟩
    exact ⟨hs.sound.safe.ready (by simp) setting.root hvalid, hs.sound.safe.2 _ (by simp), hf⟩
  case other => exact fun hne => absurd htype hne
  case skipped => exact fun w' hq _ _ => Sound.stable w _ ⟨hq.tree, hq.mutations⟩ hw
  case made =>
    intro k target v t now _ ha _ _ _ hfree hd hdrawn ht
    have hname : FreshName c selected planned.entry (sequenceName (w.sequence + k)) := by
      refine ⟨sequenceName_temporary _, ?_⟩
      intro d hdm hdt hx
      have hpar : parentComponents d.relativePath =
          parentComponents planned.entry.relativePath := by
        have hcomp : components d.relativePath =
            parentComponents planned.entry.relativePath ++ [sequenceName (w.sequence + k)] := by
          simpa [Context.destination, Context.parent] using hx
        simp [parentComponents, hcomp]
      have := hw.present d hdm hdt (hfiles htype ha d hdm hdt hpar)
      rw [hx] at this
      exact this hfree
    exact ⟨hname, created_link (ready.direct hd _) ht,
      soundScope_created setting hmem hv hname hw hdrawn.toStill hd (by simp) ht⟩
  case published =>
    rintro number target v t now ⟨hn, hf, hs⟩ htarget ht v' hq
    have hbelongs : Belongs c.x (c.chunksAt planned.entry.id) planned.entry (.link target) := by
      unfold Belongs
      rw [htype]
      exact ⟨target, htarget, rfl⟩
    have hren := soundScope_renamed setting hmem hv hn hs hf hbelongs (by simp [htype]) ht
    have hclose : ∀ u, Still
        (v.mutate [linkTemporary c planned number, c.destination planned.entry] t).tick u →
        Sound c selected t₀ [c.root] present []
          (removeQuietly c.host (linkTemporary c planned number) u) := by
      intro u hst
      exact (soundScope_closed setting hmem hv hn
        (SoundScope.stable _ u hst hren)).weaken (by simp) (fun _ h => Or.inl h)
    exact ⟨hclose _ ⟨hq.tree, hq.mutations⟩, fun _ _ => hclose _ hq.still⟩
  case refused =>
    rintro number target v ⟨hn, _, hs⟩ _ _
    exact soundScope_closed setting hmem hv hn (SoundScope.stable v _ ⟨rfl, rfl⟩ hs)
  case broken =>
    rintro number target v e ⟨hn, _, hs⟩ _
    exact soundScope_closed setting hmem hv hn hs
  case failed => exact fun _ w' hs _ => Sound.stable w w' hs hw

theorem restoreDirectoryMetadata_sound :
    Maintains (Sound c selected t₀ [c.root] present []) (restoreDirectoryMetadata c planned) := by
  intro w hw
  have hvalid := setting.valid _ hmem
  have ready := hw.safe.ready (e := planned.entry) (by simp) setting.root hvalid
  apply wp_restoreDirectoryMetadata ready (J := fun st v =>
    v.tree (c.destination planned.entry) = some (.directory st) ∧
    planned.entry.type = .directory ∧ Sound c selected t₀ [c.root] present [] v)
  case steady =>
    rintro st v v' hq ⟨hf, ht, hs⟩
    exact ⟨by rw [hq.tree]; exact hf, ht, Sound.stable v v' hq.still hs⟩
  case good => exact fun st v hj => ⟨hj.2.2.safe.ready (by simp) setting.root hvalid, hj.1⟩
  case other => exact fun _ => hw
  case begun =>
    exact fun st w' hq ht _ hst => ⟨by rw [hq.tree]; exact hst, ht, Sound.stable w w' hq.still hw⟩
  case stamped =>
    rintro st f v t ⟨hst, htype, hs⟩ ht
    have he := restamp_edit ht
    rw [restamp_directory hst f] at ht
    cases ht
    have hready := hs.safe.ready (e := planned.entry) (by simp) setting.root hvalid
    refine ⟨set_same _ _ _, htype, hs.mutate he ?_ ?_ (fun _ _ _ => by simp) ?_⟩
    · intro p hp
      rw [List.mem_singleton.mp hp]
      exact ⟨destination_permitted hmem hvalid _,
        Direct.directory hready.wellFormed hready.plain_destination ⟨st, hst⟩⟩
    · exact fun d hd hdt hx =>
        absurd hx (other_destination setting hmem (by simp [htype]) hd hdt)
    · intro p hp _ n hn
      rw [List.mem_singleton.mp hp, set_same] at hn
      cases hn
      refine Or.inr (Or.inr ⟨planned.entry, hmem, List.mem_singleton.mp hp, ?_⟩)
      unfold Belongs
      rw [htype]
      exact ⟨_, rfl⟩
  case done => exact fun _ _ _ _ hj => hj.2.2
  case warned => exact fun _ v _ hj _ => Sound.stable v _ ⟨rfl, rfl⟩ hj.2.2
  case failed => exact fun _ w' hq _ => Sound.stable w w' hq.still hw

end Phases

/-- When the links are restored, a file next to one of them stands, unless both
are below a directory that was skipped. -/
theorem files_stand {request : RestoreRequest} {plan : List PlannedEntry} {t : Tree}
    (setting : Setting c selected)
    (hplan : Planned request c.root t [] (selected.insertionSort shallowFirst) plan)
    {link : PlannedEntry} (hlink : link ∈ plan) (htype : link.entry.type = .symbolicLink)
    (hskip : link.action ≠ .skip) {d : EntryInfo} (hd : d ∈ selected) (hfile : d.type = .regularFile)
    (hparent : parentComponents d.relativePath = parentComponents link.entry.relativePath) :
    t (c.destination d) ≠ none ∨ ∃ p ∈ plan, d = p.entry ∧ p.action ≠ .skip := by
  have hlm := (List.mem_insertionSort shallowFirst).mp (hplan.mem_entries hlink)
  have hsafe : ∀ e ∈ selected, e.type ≠ .directory → isSafeStoredPath e.relativePath = true := by
    intro e he hne
    rcases setting.valid e he with ⟨_, hdir⟩ | hv
    · exact absurd hdir hne
    · exact hv
  obtain ⟨p, hp, rfl⟩ : ∃ p ∈ plan, p.entry = d := by
    have hm := (List.mem_insertionSort shallowFirst).mpr hd
    rw [← hplan.map_entry] at hm
    exact List.mem_map.mp hm
  rcases hplan.decisions (fun _ h => h) (by simp) p hp with
    ⟨hr, _, _⟩ | ⟨s, _, hs, hsa, hst, hpre, _, _⟩ | ⟨_, _, _, ha, _⟩ | ⟨node, _, _, hn, _, _⟩
  · have := hsafe _ hd (by simp [hfile])
    rw [hr] at this
    exact absurd this (by decide)
  · exfalso
    have hsm := (List.mem_insertionSort shallowFirst).mp (hplan.mem_entries hs)
    have hlinkc := destination_eq (c := c) (hsafe _ hlm (by simp [htype]))
    obtain ⟨ln, _, hlc⟩ := hlinkc
    obtain ⟨pn, _, hpc⟩ := destination_eq (c := c) (hsafe _ hd (by simp [hfile]))
    -- the skipped directory is above the file itself, so it is above its parent
    have habove : components s.entry.relativePath <+: parentComponents p.entry.relativePath := by
      rw [hpc] at hpre
      rcases List.prefix_concat_iff.mp hpre with he | hpre
      · have := setting.lone p.entry hd hfile s.entry hsm (by rw [he, hpc])
        rw [this, hfile] at hst
        cases hst
      · exact hpre
    have hbelow : components s.entry.relativePath <+: components link.entry.relativePath := by
      rw [hlc, ← hparent]
      exact habove.trans (List.prefix_append _ _)
    have hdepth : pathDepth s.entry.relativePath < pathDepth link.entry.relativePath := by
      have := habove.length_le
      unfold pathDepth
      rw [hlc, ← hparent]
      simp only [List.length_append, List.length_cons, List.length_nil]
      omega
    obtain ⟨before, after, heq, hafter⟩ := shallow_before hplan.map_entry hs hlink hdepth
    refine hskip (hplan.skip_below heq hsa hst hafter ?_ hbelow)
    intro hnil
    have := hsafe _ hlm (by simp [htype])
    rw [hnil] at this
    exact absurd this (by decide)
  · exact Or.inr ⟨p, hp, rfl, by simp [ha]⟩
  · exact Or.inl (by simp [Context.destination, hn])

theorem runPlan_sound {request : RestoreRequest} {plan : List PlannedEntry}
    (setting : Setting c selected)
    (hplan : Planned request c.root w.tree [] (selected.insertionSort shallowFirst) plan)
    (hw : Sound c selected t₀ [c.root] (fun d => w.tree (c.destination d) ≠ none) [] w) :
    (runPlan c plan).wp (fun _ => Sound c selected t₀ [c.root] (fun _ => False) [])
      (fun _ => Sound c selected t₀ [c.root] (fun _ => False) []) w := by
  have hmem : ∀ p ∈ plan, p.entry ∈ selected := fun p hp =>
    (List.mem_insertionSort shallowFirst).mp (hplan.mem_entries hp)
  have drop : ∀ {present : EntryInfo → Prop} (v : World), Sound c selected t₀ [c.root] present [] v →
      Sound c selected t₀ [c.root] (fun _ => False) [] v :=
    fun v hs => hs.weaken (by simp) (fun _ h => h.elim)
  unfold runPlan
  rw [wp_bind]
  refine wp_mono (maintains_reportProgress Sound.stable _ _ _ w hw) ?_ (fun _ v hs => drop v hs)
  intro _ w₁ hw₁
  rw [wp_bind]
  refine wp_mono (Maintains.each (fun p hp => restoreDirectory_sound setting (hmem p hp)) w₁ hw₁)
    ?_ (fun _ v hs => drop v hs)
  intro _ w₂ hw₂
  rw [wp_bind]
  have hfiles := wp_each (f := restoreFile c) (s := w₂)
    (E := fun _ => Sound c selected t₀ [c.root] (fun _ => False) [])
    (fun done _ v => Sound c selected t₀ [c.root] (fun d => w.tree (c.destination d) ≠ none ∨
      ∃ p ∈ done, d = p.entry ∧ p.action ≠ .skip) [] v) plan
    (hw₂.weaken (by simp) (fun d hd => by simpa using hd)) ?_
  case refine_1 =>
    intro done p rest heq v hv
    have hp : p ∈ plan := by simp [heq]
    refine wp_mono (restoreFile_sound setting (hmem p hp) hv) ?_ (fun _ u hs => drop u hs)
    intro _ u hu
    refine hu.weaken (by simp) ?_
    rintro d (hd | ⟨q, hq, hdq, ha⟩)
    · exact Or.inl (Or.inl hd)
    · rcases List.mem_append.mp hq with hq | hq
      · exact Or.inl (Or.inr ⟨q, hq, hdq, ha⟩)
      · rw [List.mem_singleton.mp hq] at hdq ha
        exact Or.inr ⟨hdq, ha⟩
  refine wp_mono hfiles ?_ (fun _ _ hs => hs)
  intro _ w₃ hw₃
  rw [wp_bind]
  refine wp_mono (Maintains.each (fun p hp => restoreLink_sound setting (hmem p hp)
    (fun htype ha d hd hdt hpar => files_stand setting hplan hp htype ha hd hdt hpar)) w₃ hw₃)
    ?_ (fun _ v hs => drop v hs)
  intro _ w₄ hw₄
  rw [wp_bind]
  refine wp_mono (Maintains.each (fun p hp => restoreDirectoryMetadata_sound setting
    (hmem p ((List.mem_insertionSort _).mp hp))) w₄ hw₄) ?_ (fun _ v hs => drop v hs)
  intro _ w₅ hw₅
  rw [wp_bind]
  refine wp_mono (maintains_reportProgress Sound.stable _ _ _ w₅ hw₅) ?_ (fun _ v hs => drop v hs)
  exact fun _ w₆ hw₆ => drop w₆ hw₆

end Sound

/-- Each file destination belongs to one entry of the selection. -/
def LoneFiles (selected : List EntryInfo) : Prop :=
  ∀ e ∈ selected, e.type = .regularFile → ∀ d ∈ selected,
    components d.relativePath = components e.relativePath → d = e

/-- No random temporary name is the name of a file of the selection. -/
def Unguessed (h : Host) (selected : List EntryInfo) : Prop :=
  ∀ e ∈ selected, e.type = .regularFile → ∀ n,
    (components e.relativePath).getLast? ≠ some (randomTemporaryName (h.entropy n))

section Run

variable {x : Externals} {h : Host} {repository : RepositoryView} {request : RestoreRequest}

theorem restoreSelected_sound {c : Context} {selected : List EntryInfo} {w : World}
    (hx : c.x = x) (hh : c.host = h) (ho : c.objects = repository.objects)
    (hs : c.chunkSize = repository.chunkSizeBytes) (setting : Setting c selected)
    (hw : WellFormed w.tree) (hm : w.mutations = []) (hc : Clear w.tree [] c.root) :
    (restoreSelected x h repository request c.root selected c.chunks).wp
      (fun _ => Sound c selected w.tree [] (fun _ => False) [])
      (fun _ => Sound c selected w.tree [] (fun _ => False) []) w := by
  subst hx hh
  have hstart : Sound c selected w.tree [] (fun _ => False) [] w := by
    refine ⟨⟨⟨hw, by rw [hm]; trivial, by simp [hm]⟩, by simp⟩, ?_, by simp, ?_⟩
    · intro t ht e _ _
      simp only [World.moments, hm, List.map_nil, List.mem_singleton] at ht
      exact Or.inl (ht ▸ SameAt.refl _ _)
    · exact fun _ p n _ hn => Or.inl (by simp [hn])
  unfold restoreSelected
  rw [wp_bind]
  refine wp_mono (wp_createRoot (I := Sound c selected w.tree [] (fun _ => False) [])
    Sound.stable.steady (fun _ h => h.safe.1.wellFormed) ?_ setting.root hstart hc) ?_
    (fun _ _ he => he.1)
  case refine_1 =>
    intro v t p now hs hp hdir ht
    refine hs.mutate (create_edit hs.safe.1.wellFormed hdir ht) ?_ ?_ (fun _ _ _ => by simp) ?_
    · intro q hq
      rw [List.mem_singleton.mp hq]
      exact ⟨.ancestor hp (create_direct hdir ht).1, hdir⟩
    · intro e he htype hx
      exfalso
      rcases setting.valid e he with ⟨_, hd⟩ | hv
      · simp [hd] at htype
      · have hlen := (List.mem_singleton.mp hx ▸ hp).length_le
        simp only [Context.destination, List.length_append] at hlen
        exact (safe_components hv).2.1 (List.length_eq_zero_iff.mp (by omega))
    · intro q hq _ n _
      rw [List.mem_singleton.mp hq]
      exact Or.inr (Or.inl hp)
  rintro _ w' ⟨hs', hd⟩
  rw [wp_bind]
  have hvalid' : ∀ e ∈ selected.insertionSort shallowFirst, ValidEntry e :=
    fun e he => setting.valid e ((List.mem_insertionSort shallowFirst).mp he)
  refine wp_mono (planFrom_planned hs'.safe.1.wellFormed setting.root hd _ hvalid' [])
    ?_ (fun _ w'' he => Sound.stable w' w'' he.1.still hs')
  rintro plan w'' ⟨hq, hplan⟩
  have hs'' := Sound.stable w' w'' hq.still hs'
  rw [← hq.tree] at hplan
  -- the context of the run differs in the number of entries only
  let c' : Context := { c with totalEntries := plan.length }
  have setting' : Setting c' selected :=
    ⟨setting.root, setting.valid, setting.lone, setting.unguessed⟩
  have hs₀ : Sound c' selected w.tree [c'.root] (fun d => w''.tree (c'.destination d) ≠ none) []
      w'' :=
    ⟨⟨hs''.safe.1, by simpa [hq.tree] using hd⟩, hs''.holds, fun _ _ _ hp => hp, hs''.tidy⟩
  have hrun := runPlan_sound (c := c') setting' hplan hs₀
  have back : ∀ v, Sound c' selected w.tree [c'.root] (fun _ => False) [] v →
      Sound c selected w.tree [] (fun _ => False) [] v :=
    fun v hv => ⟨⟨hv.safe.1, by simp⟩, hv.holds, by simp, hv.tidy⟩
  rw [← ho, ← hs]
  exact wp_mono hrun (fun _ v hv => back v hv) (fun _ v hv => back v hv)

end Run

def emptyHash : Option Bytes :=
  some (ascii "af1349b9f5f9a1a6a0404dea36dcc9499bcb25c9adc112b7cc9a93cae41f3262")

def fileRows : List EntryRow :=
  [sampleEntry 1 [] .directory none none,
   sampleEntry 2 (ascii "a") .directory none none,
   sampleEntry 3 (ascii "a/b") .regularFile emptyHash none]

/-- The same file, and a directory whose stored path is another spelling of the
file's. -/
def clashingRows : List EntryRow :=
  fileRows ++ [sampleEntry 4 (ascii "a//b") .directory none none]

end LocalVault.Restore
