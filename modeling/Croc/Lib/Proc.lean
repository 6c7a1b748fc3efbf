import Mathlib.Tactic.Common

/-! Computations with a state that survives an error, and what holds when they end. -/
namespace Croc.Lib

variable {σ ε α β : Type}

/-- Started in `s`, the computation returns a value and a state in `Q`, or fails with an error and
a state in `E`. -/
def Post (x : EStateM ε σ α) (s : σ) (Q : α → σ → Prop) (E : ε → σ → Prop) : Prop :=
  match x s with
  | .ok a t => Q a t
  | .error e t => E e t

/-- A computation that does not touch the state. -/
def lift (x : Except ε α) : EStateM ε σ α :=
  match x with
  | .ok a => pure a
  | .error e => throw e

@[simp] theorem lift_pure (a : α) : (lift (pure a) : EStateM ε σ α) = pure a := rfl

theorem lift_bind (x : Except ε α) (f : α → Except ε β) :
    (lift (x >>= f) : EStateM ε σ β) = lift x >>= fun a => lift (f a) := by
  cases x <;> rfl

section Rules
variable {s : σ} {E : ε → σ → Prop}

@[simp] theorem post_pure {a : α} {Q : α → σ → Prop} :
    Post (pure a : EStateM ε σ α) s Q E ↔ Q a s := Iff.rfl

@[simp] theorem post_throw {e : ε} {Q : α → σ → Prop} :
    Post (throw e : EStateM ε σ α) s Q E ↔ E e s := Iff.rfl

@[simp] theorem post_get {Q : σ → σ → Prop} :
    Post (get : EStateM ε σ σ) s Q E ↔ Q s s := Iff.rfl

@[simp] theorem post_modify {f : σ → σ} {Q : Unit → σ → Prop} :
    Post (modify f : EStateM ε σ Unit) s Q E ↔ Q () (f s) := Iff.rfl

@[simp] theorem post_bind {x : EStateM ε σ α} {f : α → EStateM ε σ β} {Q : β → σ → Prop} :
    Post (x >>= f) s Q E ↔ Post x s (fun a t => Post (f a) t Q E) E := by
  show (match EStateM.bind x f s with | .ok a t => Q a t | .error e t => E e t) ↔ _
  unfold Post EStateM.bind
  cases x s <;> rfl

@[simp] theorem post_map {x : EStateM ε σ α} {f : α → β} {Q : β → σ → Prop} :
    Post (f <$> x) s Q E ↔ Post x s (fun a t => Q (f a) t) E := by
  show (match EStateM.map f x s with | .ok a t => Q a t | .error e t => E e t) ↔ _
  unfold Post EStateM.map
  cases x s <;> rfl

@[simp] theorem post_lift {x : Except ε α} {Q : α → σ → Prop} :
    Post (lift x : EStateM ε σ α) s Q E ↔ (∀ a, x = .ok a → Q a s) ∧ ∀ e, x = .error e → E e s := by
  cases x <;> simp [lift]

theorem post_lift_ok {x : Except ε α} {a : α} (hx : x = .ok a) {Q : α → σ → Prop} :
    Post (lift x : EStateM ε σ α) s Q E ↔ Q a s := by
  subst hx
  exact Iff.rfl

theorem post_ite {p : Prop} [Decidable p] {x y : EStateM ε σ α} {Q : α → σ → Prop} :
    Post (if p then x else y) s Q E ↔ (p → Post x s Q E) ∧ (¬ p → Post y s Q E) := by
  split <;> simp_all

theorem Post.mono {x : EStateM ε σ α} {Q Q' : α → σ → Prop} {E' : ε → σ → Prop}
    (h : Post x s Q E) (hQ : ∀ a t, Q a t → Q' a t) (hE : ∀ e t, E e t → E' e t) :
    Post x s Q' E' := by
  unfold Post at h ⊢
  cases hx : x s with
  | ok a t => rw [hx] at h; exact hQ a t h
  | error e t => rw [hx] at h; exact hE e t h

theorem Post.and {x : EStateM ε σ α} {Q Q' : α → σ → Prop} {E' : ε → σ → Prop}
    (h : Post x s Q E) (h' : Post x s Q' E') :
    Post x s (fun a t => Q a t ∧ Q' a t) fun e t => E e t ∧ E' e t := by
  unfold Post at h h' ⊢
  cases hx : x s with
  | ok a t => rw [hx] at h h'; exact ⟨h, h'⟩
  | error e t => rw [hx] at h h'; exact ⟨h, h'⟩

/-- A computation that cannot return and cannot fail does not exist. -/
theorem Post.absurd {x : EStateM ε σ α} (h : Post x s (fun _ _ => False) fun _ _ => False) :
    False := by
  unfold Post at h
  split at h <;> exact h

end Rules

/-- A step for each element of a list, up to the first error. -/
def forEach (f : α → EStateM ε σ Unit) : List α → EStateM ε σ Unit
  | [] => pure ()
  | a :: as => do
    f a
    forEach f as

/-- A loop keeps what each of its rounds keeps. -/
theorem post_forEach {f : α → EStateM ε σ Unit} {I : σ → Prop} {E : ε → σ → Prop} {as : List α}
    (hf : ∀ a ∈ as, ∀ s, I s → Post (f a) s (fun _ => I) E) {s : σ} (hs : I s) :
    Post (forEach f as) s (fun _ => I) E := by
  induction as generalizing s with
  | nil => exact hs
  | cons a as ih =>
    refine post_bind.mpr ((hf a (List.mem_cons_self ..) s hs).mono (fun _ t ht => ?_)
      fun _ _ he => he)
    exact ih (fun b hb => hf b (List.mem_cons_of_mem a hb)) ht

/-- A loop over a list with an element whose round never succeeds does not succeed either. -/
theorem post_forEach_of_mem {f : α → EStateM ε σ Unit} {E : ε → σ → Prop} {as : List α}
    (hf : ∀ a ∈ as, ∀ s, Post (f a) s (fun _ _ => True) E) {b : α} (hb : b ∈ as)
    (hfail : ∀ s, Post (f b) s (fun _ _ => False) E) (s : σ) :
    Post (forEach f as) s (fun _ _ => False) E := by
  induction as generalizing s with
  | nil => cases hb
  | cons a as ih =>
    rw [forEach, post_bind]
    rcases List.mem_cons.mp hb with rfl | hb
    · exact (hfail s).mono (fun _ _ h => h.elim) fun _ _ h => h
    · apply (hf a (List.mem_cons_self ..) s).mono _ fun _ _ h => h
      exact fun _ t _ => ih (fun c hc => hf c (List.mem_cons_of_mem a hc)) hb t

end Croc.Lib
