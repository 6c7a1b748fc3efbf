import Mathlib.Logic.Function.Basic
import Croc.Lib.Machine

/-! Refinement between machines: steps that another machine can match, and steps that show as the
events of another machine; and machines that run side by side. -/
namespace Croc.Lib.Machine
variable {σ ε α β : Type*} {C : Machine σ ε} {A : Machine α β}

/-- Along `R`, a run of allowed steps of `A`, which may be empty, matches each allowed step of
`C`. -/
structure Simulates (C : Machine σ ε) (A : Machine α β) (okC : σ → ε → Prop) (okA : α → β → Prop)
    (R : σ → α → Prop) : Prop where
  init : R C.init A.init
  step : ∀ s e s' a, C.ReachableBy okC s → A.ReachableBy okA a → R s a → okC s e →
    C.step s e = some s' → ∃ a', Relation.ReflTransGen (A.Next okA) a a' ∧ R s' a'

section Simulates
variable {okC : σ → ε → Prop} {okA : α → β → Prop} {R : σ → α → Prop}

theorem ReachableBy.trans {a a' : α} (h : A.ReachableBy okA a)
    (hrun : Relation.ReflTransGen (A.Next okA) a a') : A.ReachableBy okA a' :=
  Relation.ReflTransGen.trans h hrun

/-- Every run of the one machine is matched by a run of the other one. -/
theorem Simulates.reachable (h : Simulates C A okC okA R) {s : σ} (hs : C.ReachableBy okC s) :
    ∃ a, A.ReachableBy okA a ∧ R s a := by
  apply hs.invariant (P := fun s => ∃ a, A.ReachableBy okA a ∧ R s a) ⟨A.init, .init, h.init⟩
  rintro s e s' hs ⟨a, ha, hR⟩ hok he
  obtain ⟨a', hrun, hR'⟩ := h.step s e s' a hs ha hR hok he
  exact ⟨a', ha.trans hrun, hR'⟩

end Simulates

section Tracks
variable {okC : σ → ε → Prop} {okA : α → β → Prop} {R : σ → α → Prop} {μ : σ → ℕ}

/-- Along `R`, each allowed step of `C` is one of `A` or takes something off a measure, and `C` does
not stop where `A` goes on. -/
structure Tracks (C : Machine σ ε) (A : Machine α β) (okC : σ → ε → Prop) (okA : α → β → Prop)
    (R : σ → α → Prop) (μ : σ → ℕ) : Prop where
  step : ∀ s e s' a, R s a → okC s e → C.step s e = some s' →
    (∃ b a', okA a b ∧ A.step a b = some a' ∧ R s' a') ∨ R s' a ∧ μ s' < μ s
  goes : ∀ s a, R s a → (∃ b a', okA a b ∧ A.step a b = some a') →
    ∃ e s', okC s e ∧ C.step s e = some s'

/-- What is inevitable for the one machine is inevitable for the other one. -/
theorem Tracks.inevitable (h : Tracks C A okC okA R μ) {P : α → Prop} {s : σ} {a : α}
    (ha : A.Inevitable okA P a) (hR : R s a) : C.Inevitable okC (fun s => ∃ a, R s a ∧ P a) s := by
  induction ha generalizing s with
  | @here a hP => exact .here ⟨a, hR, hP⟩
  | @step a hgo _ ih =>
    -- the steps that are none of the other machine run out
    induction hn : μ s using Nat.strongRecOn generalizing s with
    | _ n ihn =>
      refine .step (h.goes s a hR hgo) fun e s' hok he => ?_
      rcases h.step s e s' a hR hok he with ⟨b, a', hokA, hb, hR'⟩ | ⟨hR', hlt⟩
      · exact ih b a' hokA hb hR'
      · exact ihn (μ s') (hn ▸ hlt) hR' rfl

end Tracks

section Refines
variable {ok : σ → ε → Prop} {look : σ → ε → σ → Option β} {R : σ → α → Prop}

/-- Along `R`, each allowed step of `C` that shows as an event is that step of `A`, and each one
that does not show is none. -/
structure Refines (C : Machine σ ε) (A : Machine α β) (ok : σ → ε → Prop)
    (look : σ → ε → σ → Option β) (R : σ → α → Prop) : Prop where
  init : R C.init A.init
  step : ∀ s e s' a, C.ReachableBy ok s → R s a → ok s e → C.step s e = some s' →
    (look s e s').elim (R s' a) fun b => ∃ a', A.step a b = some a' ∧ R s' a'

/-- The record of what shows of the steps. -/
def showing (look : σ → ε → σ → Option β) (shown : List β) (s : σ) (e : ε) (s' : σ) : List β :=
  shown ++ (look s e s').toList

/-- The states along a list of events. -/
inductive Trace (A : Machine α β) : List β → α → Prop
  | start : Trace A [] A.init
  | step {shown a b a'} (h : Trace A shown a) (hstep : A.step a b = some a') :
      Trace A (shown ++ [b]) a'

/-- What shows of a run is a run of the other machine. -/
theorem Refines.trace (h : Refines C A ok look R) {s : σ} {shown : List β}
    (hs : (C.observe [] (showing look)).ReachableBy (fun p e => ok p.1 e) (s, shown)) :
    ∃ a, A.Trace shown a ∧ R s a := by
  apply hs.invariant (P := fun p => ∃ a, A.Trace p.2 a ∧ R p.1 a) ⟨A.init, .start, h.init⟩
  rintro p e p' hp ⟨a, ha, hR⟩ hok he
  obtain ⟨hstep, hshown⟩ := observe_step.mp he
  have hmatch := h.step _ _ _ a hp.forget hR hok hstep
  rw [hshown, showing]
  cases hlook : look p.1 e p'.1 with
  | none =>
    rw [hlook, Option.elim_none] at hmatch
    rw [Option.toList_none, List.append_nil]
    exact ⟨a, ha, hmatch⟩
  | some b =>
    rw [hlook, Option.elim_some] at hmatch
    obtain ⟨a', hb, hR'⟩ := hmatch
    exact ⟨a', ha.step hb, hR'⟩

end Refines

section Family
variable {κ : Type*} [DecidableEq κ]

/-- One machine for each name, of which each step moves one. -/
def family (κ : Type*) [DecidableEq κ] (A : Machine α β) : Machine (κ → α) (κ × β) where
  init _ := A.init
  step s e := (A.step (s e.1) e.2).map (Function.update s e.1)

/-- The events of the machine of one name. -/
def under (name : κ) (shown : List (κ × β)) : List β :=
  shown.filterMap fun e => if e.1 = name then some e.2 else none

theorem under_concat (name : κ) (shown : List (κ × β)) (e : κ × β) :
    under name (shown ++ [e]) = under name shown ++ if e.1 = name then [e.2] else [] := by
  rw [under, List.filterMap_append, ← under]
  split <;> simp_all

/-- What happens under one name is a run of its machine. -/
theorem Trace.under {shown : List (κ × β)} {s : κ → α} (h : (family κ A).Trace shown s)
    (name : κ) : A.Trace (under name shown) (s name) := by
  induction h with
  | start => exact .start
  | @step shown s e s' h hstep ih =>
    obtain ⟨a', ha, rfl⟩ := Option.map_eq_some_iff.mp hstep
    rw [under_concat]
    by_cases hname : e.1 = name
    · subst hname
      rw [if_pos rfl, Function.update_self]
      exact ih.step ha
    · rw [if_neg hname, List.append_nil, Function.update_of_ne (Ne.symm hname)]
      exact ih

end Family

end Croc.Lib.Machine
