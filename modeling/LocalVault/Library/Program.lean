import Mathlib.Algebra.BigOperators.Ring.Finset
import Mathlib.Algebra.Order.BigOperators.Group.List
import Mathlib.Algebra.Order.Ring.Int
import Mathlib.Data.List.Sort

namespace LocalVault.Library

/-- A sequence of fallible steps that succeeds has succeeded at each of them. -/
theorem bind_ok {ε α β : Type} {r : Except ε α} {f : α → Except ε β} {b : β} :
    (r >>= f) = .ok b ↔ ∃ a, r = .ok a ∧ f a = .ok b := by
  cases r with
  | error e => simp [bind, Except.bind]
  | ok a => simp [bind, Except.bind]

section Outcomes

variable {σ ε α : Type} {run : Except ε α × σ} {p : α → σ → Bool} {q : ε → σ → Bool}

/-- Whether a run returns a value and a state of a kind. -/
def gives (p : α → σ → Bool) : Except ε α × σ → Bool
  | (.ok a, s) => p a s
  | (.error _, _) => false

/-- Whether a run raises an error of a kind, and in a state of a kind. -/
def raises (q : ε → σ → Bool) : Except ε α × σ → Bool
  | (.ok _, _) => false
  | (.error e, s) => q e s

theorem gives_iff : gives p run = true ↔ ∃ a s, run = (.ok a, s) ∧ p a s = true := by
  rcases run with ⟨_ | _, _⟩ <;> simp [gives]

theorem raises_iff : raises q run = true ↔ ∃ e s, run = (.error e, s) ∧ q e s = true := by
  rcases run with ⟨_ | _, _⟩ <;> simp [raises]

end Outcomes

/-- A sequential program over a state, with exceptions. The state reached
before a raise is kept, as it is when a C++ exception unwinds. -/
def Program (σ ε α : Type) : Type := σ → Except ε α × σ

namespace Program

variable {σ ε α β : Type}

def ret (a : α) : Program σ ε α := fun s => (.ok a, s)

def andThen (m : Program σ ε α) (f : α → Program σ ε β) : Program σ ε β := fun s =>
  match m s with
  | (.ok a, t) => f a t
  | (.error e, t) => (.error e, t)

instance : Monad (Program σ ε) where
  pure := ret
  bind := andThen

def raise (e : ε) : Program σ ε α := fun s => (.error e, s)

def read (f : σ → α) : Program σ ε α := fun s => (.ok (f s), s)

def update (f : σ → σ) : Program σ ε Unit := fun s => (.ok (), f s)

/-- A `catch` clause: the handler starts from the state of the raise. -/
def rescue (m : Program σ ε α) (handler : ε → Program σ ε α) : Program σ ε α := fun s =>
  match m s with
  | (.ok a, t) => (.ok a, t)
  | (.error e, t) => handler e t

/-- A destructor that cannot raise, run on both ways out of a scope. -/
def ensure (m : Program σ ε α) (cleanup : σ → σ) : Program σ ε α := fun s =>
  match m s with
  | (r, t) => (r, cleanup t)

def ofExcept : Except ε α → Program σ ε α
  | .ok a => ret a
  | .error e => raise e

/-- A loop over a list; an exception leaves it at once. -/
def each (f : α → Program σ ε Unit) : List α → Program σ ε Unit
  | [] => pure ()
  | a :: as => do
    f a
    each f as

/-- The weakest precondition of a program for a normal and an exceptional
postcondition. -/
def wp (m : Program σ ε α) (Q : α → σ → Prop) (E : ε → σ → Prop) (s : σ) : Prop :=
  match m s with
  | (.ok a, t) => Q a t
  | (.error e, t) => E e t

variable {Q : α → σ → Prop} {E : ε → σ → Prop} {s : σ}

@[simp] theorem wp_pure (a : α) : (pure a : Program σ ε α).wp Q E s ↔ Q a s := Iff.rfl

@[simp] theorem wp_raise (e : ε) : (raise e : Program σ ε α).wp Q E s ↔ E e s := Iff.rfl

@[simp] theorem wp_read (f : σ → α) : (read f : Program σ ε α).wp Q E s ↔ Q (f s) s := Iff.rfl

@[simp] theorem wp_update (f : σ → σ) {Q : Unit → σ → Prop} :
    (update f : Program σ ε Unit).wp Q E s ↔ Q () (f s) := Iff.rfl

@[simp] theorem wp_bind (m : Program σ ε α) (f : α → Program σ ε β) {Q : β → σ → Prop} :
    (m >>= f).wp Q E s ↔ m.wp (fun a t => (f a).wp Q E t) E s := by
  change (andThen m f).wp Q E s ↔ _
  unfold wp andThen
  rcases h : m s with ⟨r, t⟩
  cases r <;> simp

@[simp] theorem wp_rescue (m : Program σ ε α) (handler : ε → Program σ ε α) :
    (m.rescue handler).wp Q E s ↔ m.wp Q (fun e t => (handler e).wp Q E t) s := by
  unfold wp rescue
  rcases h : m s with ⟨r, t⟩
  cases r <;> simp

@[simp] theorem wp_ensure (m : Program σ ε α) (cleanup : σ → σ) :
    (m.ensure cleanup).wp Q E s ↔
      m.wp (fun a t => Q a (cleanup t)) (fun e t => E e (cleanup t)) s := by
  unfold wp ensure
  rcases h : m s with ⟨r, t⟩
  cases r <;> simp

theorem wp_mono {m : Program σ ε α} {Q' : α → σ → Prop} {E' : ε → σ → Prop}
    (h : m.wp Q E s) (hq : ∀ a t, Q a t → Q' a t) (he : ∀ e t, E e t → E' e t) :
    m.wp Q' E' s := by
  unfold wp at h ⊢
  rcases hm : m s with ⟨r, t⟩
  cases r <;> simp only [hm] at h ⊢
  · exact he _ _ h
  · exact hq _ _ h

/-- A program whatever it does. -/
theorem wp_any {m : Program σ ε α} (hq : ∀ a t, Q a t) (he : ∀ e t, E e t) : m.wp Q E s := by
  unfold wp
  rcases m s with ⟨r, t⟩
  cases r
  · exact he _ _
  · exact hq _ _

theorem wp_and {m : Program σ ε α} {Q' : α → σ → Prop} {E' : ε → σ → Prop}
    (h : m.wp Q E s) (h' : m.wp Q' E' s) :
    m.wp (fun a t => Q a t ∧ Q' a t) (fun e t => E e t ∧ E' e t) s := by
  unfold wp at *
  rcases hm : m s with ⟨r, t⟩
  cases r <;> simp only [hm] at h h' ⊢ <;> exact ⟨h, h'⟩

@[simp] theorem wp_ite (c : Prop) [Decidable c] (m n : Program σ ε α) :
    (if c then m else n).wp Q E s ↔ if c then m.wp Q E s else n.wp Q E s := by
  split <;> rfl

@[simp] theorem wp_ofExcept (r : Except ε α) :
    (ofExcept r : Program σ ε α).wp Q E s ↔
      match r with
      | .ok a => Q a s
      | .error e => E e s := by
  cases r <;> rfl

/-- The loop rule: the invariant speaks of the part of the list already done
and of the part still to do. -/
theorem wp_each {f : α → Program σ ε Unit} {E : ε → σ → Prop} (I : List α → List α → σ → Prop)
    (xs : List α) (hs : I [] xs s)
    (step : ∀ done x rest, xs = done ++ x :: rest → ∀ t, I done (x :: rest) t →
      (f x).wp (fun _ u => I (done ++ [x]) rest u) E t) :
    (each f xs).wp (fun _ t => I xs [] t) E s := by
  suffices h : ∀ done rest, xs = done ++ rest → ∀ t, I done rest t →
      (each f rest).wp (fun _ u => I xs [] u) E t from h [] xs rfl s hs
  intro done rest hx t ht
  induction rest generalizing done t with
  | nil =>
    simp only [List.append_nil] at hx
    subst hx
    exact ht
  | cons x rest ih =>
    unfold each
    rw [wp_bind]
    refine wp_mono (step done x rest hx t ht) ?_ (fun _ _ h => h)
    intro _ u hu
    exact ih (done ++ [x]) (by simp [hx]) u hu

/-- The loop rule for an invariant that does not count. -/
theorem wp_each_invariant {f : α → Program σ ε Unit} {E : ε → σ → Prop} (I : σ → Prop)
    (xs : List α) (hs : I s) (step : ∀ x ∈ xs, ∀ t, I t → (f x).wp (fun _ u => I u) E t) :
    (each f xs).wp (fun _ t => I t) E s := by
  apply wp_each (fun _ _ t => I t) xs hs
  intro done x rest hx t ht
  exact step x (by simp [hx]) t ht

/-- The loop rule for an invariant and a fact about every element passed. -/
theorem wp_each_all {f : α → Program σ ε Unit} {E : ε → σ → Prop} (I : σ → Prop) (P : α → Prop)
    (xs : List α) (hs : I s) (step : ∀ x ∈ xs, ∀ t, I t → (f x).wp (fun _ u => I u ∧ P x) E t) :
    (each f xs).wp (fun _ t => I t ∧ ∀ x ∈ xs, P x) E s := by
  apply wp_each (fun done _ t => I t ∧ ∀ x ∈ done, P x) xs ⟨hs, by simp⟩
  rintro done x rest hx t ⟨ht, hdone⟩
  refine wp_mono (step x (by simp [hx]) t ht) ?_ (fun _ _ h => h)
  rintro _ u ⟨hu, hp⟩
  refine ⟨hu, fun y hy => ?_⟩
  rcases List.mem_append.mp hy with hy | hy
  · exact hdone y hy
  · rw [List.mem_singleton.mp hy]
    exact hp

theorem wp_run {m : Program σ ε α} {a : α} {t : σ} (h : m s = (.ok a, t)) :
    m.wp Q E s ↔ Q a t := by
  unfold wp
  rw [h]

/-- A sequence that returns has returned from each of its parts. -/
theorem bind_returns {m : Program σ ε α} {f : α → Program σ ε β} {b : β} {t : σ} :
    (m >>= f) s = (.ok b, t) ↔ ∃ a u, m s = (.ok a, u) ∧ f a u = (.ok b, t) := by
  change andThen m f s = (.ok b, t) ↔ _
  unfold andThen
  rcases m s with ⟨r, u⟩
  cases r with
  | error e => simp
  | ok a =>
    constructor
    · intro h
      exact ⟨a, u, rfl, h⟩
    · rintro ⟨_, _, h, hf⟩
      cases h
      exact hf

/-- Two sequences that go on alike from whatever the first part returns are the same. -/
theorem bind_congr {m : Program σ ε α} {f g : α → Program σ ε β}
    (h : ∀ s a t, m s = (.ok a, t) → f a t = g a t) : m >>= f = m >>= g := by
  funext s
  change andThen m f s = andThen m g s
  unfold andThen
  rcases hm : m s with ⟨r, t⟩
  cases r with
  | error e => rfl
  | ok a => exact h s a t hm

theorem ofExcept_returns {r : Except ε α} {a : α} {t : σ} :
    (ofExcept r : Program σ ε α) s = (.ok a, t) ↔ r = .ok a ∧ s = t := by
  cases r <;> simp [ofExcept, ret, raise]

/-- A program whose exceptional postcondition is impossible returns. -/
theorem returns {m : Program σ ε α} (h : m.wp Q (fun _ _ => False) s) :
    ∃ a t, m s = (.ok a, t) ∧ Q a t := by
  unfold wp at h
  rcases hm : m s with ⟨r, t⟩
  cases r with
  | error e => simp [hm] at h
  | ok a => exact ⟨a, t, rfl, by simpa [hm] using h⟩

/-- What holds on both ways out holds in the final state. -/
theorem wp_final {m : Program σ ε α} {P : σ → Prop}
    (h : m.wp (fun _ t => P t) (fun _ t => P t) s) : P (m s).2 := by
  unfold wp at h
  rcases hm : m s with ⟨r, t⟩
  cases r <;> simpa [hm] using h

/-- A program that keeps a property of the state on both ways out. -/
def Maintains (I : σ → Prop) (m : Program σ ε α) : Prop :=
  ∀ s, I s → m.wp (fun _ t => I t) (fun _ t => I t) s

namespace Maintains

variable {I : σ → Prop}

theorem pure (a : α) : Maintains I (Pure.pure a : Program σ ε α) := fun _ h => h

theorem raise (e : ε) : Maintains I (Program.raise e : Program σ ε α) := fun _ h => h

theorem read (f : σ → α) : Maintains I (Program.read f : Program σ ε α) := fun _ h => h

theorem update {f : σ → σ} (h : ∀ s, I s → I (f s)) :
    Maintains I (Program.update f : Program σ ε Unit) := h

theorem ofExcept (r : Except ε α) : Maintains I (Program.ofExcept r : Program σ ε α) := by
  cases r
  · exact raise _
  · exact pure _

theorem bind {m : Program σ ε α} {f : α → Program σ ε β} (hm : Maintains I m)
    (hf : ∀ a, Maintains I (f a)) : Maintains I (m >>= f) := by
  intro s hs
  rw [wp_bind]
  exact wp_mono (hm s hs) (fun a t ht => hf a t ht) (fun _ _ h => h)

theorem ite {c : Prop} [Decidable c] {m n : Program σ ε α} (hm : c → Maintains I m)
    (hn : ¬ c → Maintains I n) : Maintains I (if c then m else n) := by
  split
  · exact hm ‹_›
  · exact hn ‹_›

theorem rescue {m : Program σ ε α} {handler : ε → Program σ ε α} (hm : Maintains I m)
    (hh : ∀ e, Maintains I (handler e)) : Maintains I (m.rescue handler) := by
  intro s hs
  rw [wp_rescue]
  exact wp_mono (hm s hs) (fun _ _ h => h) (fun e t ht => hh e t ht)

theorem each {f : α → Program σ ε Unit} {xs : List α} (hf : ∀ x ∈ xs, Maintains I (f x)) :
    Maintains I (Program.each f xs) := by
  intro s hs
  exact wp_each_invariant I xs hs (fun x hx t ht => hf x hx t ht)

theorem final {m : Program σ ε α} (hm : Maintains I m) {s t : σ} {r : Except ε α} (hs : I s)
    (h : m s = (r, t)) : I t := by
  have ht := wp_final (hm s hs)
  rwa [h] at ht

/-- Two kept properties are kept together. -/
theorem and {J : σ → Prop} {m : Program σ ε α} (hi : Maintains I m) (hj : Maintains J m) :
    Maintains (fun s => I s ∧ J s) m :=
  fun s hs => wp_and (hi s hs.1) (hj s hs.2)

end Maintains

/-- A program whose exceptions are all of a kind. -/
def Raises (P : ε → Prop) (m : Program σ ε α) : Prop :=
  ∀ s, m.wp (fun _ _ => True) (fun e _ => P e) s

namespace Raises

variable {P : ε → Prop}

theorem pure (a : α) : Raises P (Pure.pure a : Program σ ε α) := fun _ => trivial

theorem raise {e : ε} (h : P e) : Raises P (Program.raise e : Program σ ε α) := fun _ => h

theorem read (f : σ → α) : Raises P (Program.read f : Program σ ε α) := fun _ => trivial

theorem update (f : σ → σ) : Raises P (Program.update f : Program σ ε Unit) := fun _ => trivial

theorem mono {P' : ε → Prop} {m : Program σ ε α} (hm : Raises P' m) (h : ∀ e, P' e → P e) :
    Raises P m := fun s => wp_mono (hm s) (fun _ _ h => h) (fun e _ he => h e he)

theorem bind {m : Program σ ε α} {f : α → Program σ ε β} (hm : Raises P m)
    (hf : ∀ a, Raises P (f a)) : Raises P (m >>= f) := by
  intro s
  rw [wp_bind]
  exact wp_mono (hm s) (fun a t _ => hf a t) (fun _ _ h => h)

theorem ite {c : Prop} [Decidable c] {m n : Program σ ε α} (hm : c → Raises P m)
    (hn : ¬ c → Raises P n) : Raises P (if c then m else n) := by
  split
  · exact hm ‹_›
  · exact hn ‹_›

theorem each {f : α → Program σ ε Unit} {xs : List α} (hf : ∀ x ∈ xs, Raises P (f x)) :
    Raises P (Program.each f xs) := by
  intro s
  exact wp_each_invariant (fun _ => True) xs trivial (fun x hx t _ => hf x hx t)

theorem ensure {m : Program σ ε α} {cleanup : σ → σ} (hm : Raises P m) :
    Raises P (m.ensure cleanup) := by
  intro s
  rw [wp_ensure]
  exact hm s

theorem rescue {P' : ε → Prop} {m : Program σ ε α} {handler : ε → Program σ ε α}
    (hm : Raises P' m) (hh : ∀ e, P' e → Raises P (handler e)) : Raises P (m.rescue handler) := by
  intro s
  rw [wp_rescue]
  exact wp_mono (hm s) (fun _ _ h => h) (fun e t he => hh e he t)

end Raises

end Program
end LocalVault.Library
