import LocalVault.Proofs.Cleanup

namespace LocalVault.Repository
open Library

/-- The same outside, but the process dies in front of a call. -/
def Outside.cut (o : Outside) (n : Nat) : Outside :=
  { o with fate := fun i => if i < n then o.fate i else .dies }

theorem Outside.cut_fate {o : Outside} {n i : Nat} (h : i < n) : (o.cut n).fate i = o.fate i :=
  if_pos h

theorem Outside.cut_dies {o : Outside} {n i : Nat} (h : n ≤ i) : (o.cut n).fate i = .dies :=
  if_neg (by omega)

/-- A program that meets the outside at its calls and nowhere else. -/
structure Interruptible {α : Type} (m : Outside → SessionM α) : Prop where
  counts : ∀ o s, s.calls ≤ (m o s).2.calls
  agrees : ∀ o o' s, (∀ i < (m o s).2.calls, o'.fate i = o.fate i) → m o' s = m o s
  frozen : ∀ (o : Outside) n s, n ≤ s.calls → (m (o.cut n) s).2.vault = s.vault

/-- Between two calls a program changes the database by one step, if at all. -/
def Stepwise {α : Type} (Step : Database → Database → Prop) (m : Outside → SessionM α)
    (s : Session) : Prop :=
  ∀ (o : Outside) n, (m (o.cut (n + 1)) s).2.vault.db = (m (o.cut n) s).2.vault.db ∨
    Step (m (o.cut n) s).2.vault.db (m (o.cut (n + 1)) s).2.vault.db

variable {α β : Type} {Step : Database → Database → Prop} {s : Session}

namespace Interruptible

/-- A program without calls that leaves the session alone. -/
theorem quiet {m : SessionM α} (hm : ∀ s, (m s).2 = s) : Interruptible (fun _ => m) where
  counts _ s := by rw [hm]
  agrees _ _ _ _ := rfl
  frozen _ _ s _ := by rw [hm]

theorem pure (a : α) : Interruptible (fun _ => Pure.pure a) := quiet (fun _ => rfl)

theorem read (f : Session → α) : Interruptible (fun _ => Program.read f) := quiet (fun _ => rfl)

theorem transaction (body : Sql α) : Interruptible (fun o => transaction o body) where
  counts o s := by
    unfold Repository.transaction calling committing
    cases o.fate s.calls <;> rcases body s.vault.db with ⟨_ | _, _⟩ <;> exact Nat.le_succ _
  agrees o o' s h := by
    have hcalled : s.calls < (Repository.transaction o body s).2.calls := by
      unfold Repository.transaction calling committing
      cases o.fate s.calls <;> rcases body s.vault.db with ⟨_ | _, _⟩ <;> exact Nat.lt_succ_self _
    unfold Repository.transaction calling
    rw [h s.calls hcalled]
  frozen o n s h := by
    unfold Repository.transaction calling
    rw [Outside.cut_dies h]
    rfl

section Bind

variable {m : Outside → SessionM α} {f : Outside → α → SessionM β}

theorem bind (hm : Interruptible m) (hf : ∀ a, Interruptible (fun o => f o a)) :
    Interruptible (fun o => m o >>= f o) where
  counts o s := by
    change s.calls ≤ (Program.andThen (m o) (f o) s).2.calls
    have hc := hm.counts o s
    unfold Program.andThen
    rcases hr : m o s with ⟨r, t⟩
    rw [hr] at hc
    cases r with
    | error e => exact hc
    | ok a => exact hc.trans ((hf a).counts o t)
  agrees o o' s h := by
    change ∀ i < (Program.andThen (m o) (f o) s).2.calls, _ at h
    change Program.andThen (m o') (f o') s = Program.andThen (m o) (f o) s
    unfold Program.andThen at h ⊢
    rcases hr : m o s with ⟨r, t⟩
    simp only [hr] at h
    cases r with
    | error e =>
      rw [hm.agrees o o' s (by rw [hr]; exact h), hr]
    | ok a =>
      have hearly : ∀ i < (m o s).2.calls, o'.fate i = o.fate i := by
        rw [hr]
        exact fun i hi => h i (hi.trans_le ((hf a).counts o t))
      rw [hm.agrees o o' s hearly, hr]
      exact (hf a).agrees o o' t h
  frozen o n s h := by
    change (Program.andThen (m (o.cut n)) (f (o.cut n)) s).2.vault = s.vault
    have hfrozen := hm.frozen o n s h
    have hc := hm.counts (o.cut n) s
    unfold Program.andThen
    rcases hr : m (o.cut n) s with ⟨r, t⟩
    rw [hr] at hfrozen hc
    cases r with
    | error e => exact hfrozen
    | ok a => exact ((hf a).frozen o n t (h.trans hc)).trans hfrozen

/-- What follows a part that met the cut changes nothing any more. -/
theorem bind_frozen (hf : ∀ a, Interruptible (fun o => f o a)) {o : Outside} {n : Nat}
    (h : n ≤ (m (o.cut n) s).2.calls) :
    ((m (o.cut n) >>= f (o.cut n)) s).2.vault = (m (o.cut n) s).2.vault := by
  change (Program.andThen (m (o.cut n)) (f (o.cut n)) s).2.vault = _
  unfold Program.andThen
  rcases hr : m (o.cut n) s with ⟨r, t⟩
  rw [hr] at h
  cases r with
  | error e => rfl
  | ok a => exact (hf a).frozen o n t h

end Bind

theorem rounds {body : Outside → SessionM Bool} (hb : Interruptible body) (k : Nat) :
    Interruptible (fun o => rounds (body o) k) := by
  induction k with
  | zero => exact quiet (fun _ => rfl)
  | succ k ih =>
    apply hb.bind
    intro last
    cases last with
    | true => exact pure ()
    | false => exact ih

/-- A run that ended before the cut is the run without it. -/
theorem cut_late {m : Outside → SessionM α} (hm : Interruptible m) {o : Outside} {n : Nat}
    (h : (m o s).2.calls ≤ n) : m (o.cut n) s = m o s :=
  hm.agrees o _ s (fun _ hi => Outside.cut_fate (Nat.lt_of_lt_of_le hi h))

end Interruptible

namespace Stepwise

theorem quiet {m : SessionM α} : Stepwise Step (fun _ => m) s := fun _ _ => Or.inl rfl

theorem transaction {body : Sql α}
    (hb : body.wp (fun _ db => Step s.vault.db db) (fun _ _ => True) s.vault.db) :
    Stepwise Step (fun o => transaction o body) s := by
  intro o n
  change (Repository.transaction (o.cut (n + 1)) body s).2.vault.db =
    (Repository.transaction (o.cut n) body s).2.vault.db ∨
    Step (Repository.transaction (o.cut n) body s).2.vault.db
      (Repository.transaction (o.cut (n + 1)) body s).2.vault.db
  rcases Nat.lt_trichotomy s.calls n with hearly | rfl | hlate
  · left
    unfold Repository.transaction calling
    rw [Outside.cut_fate hearly, Outside.cut_fate (Nat.lt_succ_of_lt hearly)]
  · have hdead : (Repository.transaction (o.cut s.calls) body s).2.vault = s.vault :=
      (Interruptible.transaction body).frozen o _ s (Nat.le_refl _)
    rw [hdead]
    unfold Program.wp at hb
    unfold Repository.transaction calling committing
    rw [Outside.cut_fate (Nat.lt_succ_self _)]
    rcases hrun : body s.vault.db with ⟨r, db⟩
    rw [hrun] at hb
    cases r with
    | error e => cases o.fate s.calls <;> exact Or.inl rfl
    | ok a => cases o.fate s.calls <;> first | exact Or.inl rfl | exact Or.inr hb
  · left
    have hfrozen := (Interruptible.transaction body).frozen o
    rw [hfrozen n s (Nat.le_of_lt hlate), hfrozen (n + 1) s hlate]

/-- Where the cut falls decides which part of a sequence takes the step. -/
theorem bind {m : Outside → SessionM α} {f : Outside → α → SessionM β} (hm : Stepwise Step m s)
    (im : Interruptible m) (hf : ∀ a, Interruptible (fun o => f o a))
    (next : ∀ o, (m o).wp (fun a t => Stepwise Step (fun o => f o a) t) (fun _ _ => True) s) :
    Stepwise Step (fun o => m o >>= f o) s := by
  intro o n
  by_cases hcalls : (m (o.cut (n + 1)) s).2.calls ≤ n
  · have hsame : m (o.cut n) s = m (o.cut (n + 1)) s := by
      apply im.agrees
      intro i hi
      rw [Outside.cut_fate (by omega), Outside.cut_fate (by omega)]
    have hnext := next (o.cut (n + 1))
    change (Program.andThen (m _) _ s).2.vault.db = (Program.andThen (m _) _ s).2.vault.db ∨
      Step (Program.andThen (m _) _ s).2.vault.db (Program.andThen (m _) _ s).2.vault.db
    unfold Program.wp at hnext
    unfold Program.andThen
    rw [hsame]
    rcases hr : m (o.cut (n + 1)) s with ⟨r, t⟩
    rw [hr] at hnext
    cases r with
    | error e => exact Or.inl rfl
    | ok a => exact hnext o n
  · have hmet : n ≤ (m (o.cut n) s).2.calls := by
      by_contra hfew
      have hsame : m (o.cut (n + 1)) s = m (o.cut n) s := by
        apply im.agrees
        intro i hi
        rw [Outside.cut_fate (by omega), Outside.cut_fate (by omega)]
      rw [hsame] at hcalls
      omega
    rw [Interruptible.bind_frozen hf (by omega : n + 1 ≤ (m (o.cut (n + 1)) s).2.calls),
      Interruptible.bind_frozen hf hmet]
    exact hm o n

/-- The loop rule, with an invariant that every round but the last keeps. -/
theorem rounds {body : Outside → SessionM Bool} (hb : Interruptible body) (I : Session → Prop)
    (step : ∀ s, I s → Stepwise Step body s ∧
      ∀ o, (body o).wp (fun last t => last = false → I t) (fun _ _ => True) s) :
    ∀ k s, I s → Stepwise Step (fun o => rounds (body o) k) s := by
  intro k
  induction k with
  | zero => exact fun s _ => quiet
  | succ k ih =>
    intro s hs
    obtain ⟨hbody, hkeep⟩ := step s hs
    apply hbody.bind hb
    · intro last
      cases last with
      | true => exact Interruptible.pure ()
      | false => exact hb.rounds k
    · intro o
      refine Program.wp_mono (hkeep o) ?_ (fun _ _ h => h)
      intro last t ht
      cases last with
      | true => exact quiet
      | false => exact ih t (ht rfl)

end Stepwise

/-- Runs that were all interrupted, each begun on what the one before left. -/
inductive Interrupted (m : Outside → SessionM Unit) : List Outside → Vault → Vault → Prop
  | none (v : Vault) : Interrupted m [] v v
  | again {o : Outside} {os : List Outside} {v w : Vault} {stop : Stop} {t : Session}
      (run : m o (Session.start v) = (.error stop, t)) (rest : Interrupted m os t.vault w) :
      Interrupted m (o :: os) v w

end LocalVault.Repository
