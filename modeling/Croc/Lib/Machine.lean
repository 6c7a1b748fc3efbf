import Mathlib.Logic.Relation
import Mathlib.Tactic.Common

/-! Machines that take one event at a time, their runs, and the invariant rule. A run may be
restricted to steps that satisfy a condition on the state before the step. -/
namespace Croc.Lib

/-- An initial state and a partial step function; `none` means the event is not enabled. -/
structure Machine (σ ε : Type*) where
  init : σ
  step : σ → ε → Option σ

namespace Machine
variable {σ ε : Type*} (M : Machine σ ε)

/-- One enabled step whose event meets `ok` in the state before it. -/
def Next (ok : σ → ε → Prop) (s s' : σ) : Prop := ∃ e, ok s e ∧ M.step s e = some s'

/-- States reached by steps that all meet `ok`. -/
def ReachableBy (ok : σ → ε → Prop) (s : σ) : Prop :=
  Relation.ReflTransGen (M.Next ok) M.init s

/-- States reached by arbitrary steps. -/
def Reachable (s : σ) : Prop := M.ReachableBy (fun _ _ => True) s

/-- Execute a list of events, as long as they are enabled and meet `ok`. -/
def exec (ok : σ → ε → Prop) [∀ s e, Decidable (ok s e)] : σ → List ε → Option σ
  | s, [] => some s
  | s, e :: es => if ok s e then (M.step s e).bind fun s' => exec ok s' es else none

variable {M}

namespace ReachableBy
variable {ok : σ → ε → Prop}

theorem init : M.ReachableBy ok M.init := Relation.ReflTransGen.refl

theorem step {s s' : σ} {e : ε} (h : M.ReachableBy ok s) (hok : ok s e)
    (he : M.step s e = some s') : M.ReachableBy ok s' :=
  Relation.ReflTransGen.tail h ⟨e, hok, he⟩

theorem mono {ok' : σ → ε → Prop} (himp : ∀ s e, ok s e → ok' s e) {s : σ}
    (h : M.ReachableBy ok s) : M.ReachableBy ok' s :=
  Relation.ReflTransGen.mono (fun _ _ ⟨e, hok, he⟩ => ⟨e, himp _ _ hok, he⟩) _ _ h

theorem reachable {s : σ} (h : M.ReachableBy ok s) : M.Reachable s :=
  h.mono fun _ _ _ => trivial

/-- A predicate true at first and kept by every allowed step holds wherever the run gets.
The step may use that the state before it is reachable. -/
theorem invariant {P : σ → Prop} (hinit : P M.init)
    (hstep : ∀ s e s', M.ReachableBy ok s → P s → ok s e → M.step s e = some s' → P s')
    {s : σ} (h : M.ReachableBy ok s) : P s := by
  induction h with
  | refl => exact hinit
  | tail hs hn ih =>
    obtain ⟨e, hok, he⟩ := hn
    exact hstep _ e _ hs ih hok he

theorem exec [∀ s e, Decidable (ok s e)] {s t : σ} {es : List ε} (h : M.ReachableBy ok s)
    (he : M.exec ok s es = some t) : M.ReachableBy ok t := by
  induction es generalizing s with
  | nil => exact Option.some.inj he ▸ h
  | cons e es ih =>
    unfold Machine.exec at he
    split at he
    next hok =>
      obtain ⟨u, hu, he⟩ := Option.bind_eq_some_iff.mp he
      exact ih (h.step hok hu) he
    · simp at he

/-- What the evaluation of a run shows of some state that is reached. -/
theorem exists_of_exec (ok : σ → ε → Prop) [∀ s e, Decidable (ok s e)] (p : σ → Bool) (es : List ε)
    (h : (M.exec ok M.init es).any p = true) : ∃ s, M.ReachableBy ok s ∧ p s = true := by
  obtain ⟨s, hs, hp⟩ := (Option.any_eq_true _ _).mp h
  exact ⟨s, init.exec hs, hp⟩

end ReachableBy

theorem Reachable.init : M.Reachable M.init := ReachableBy.init

theorem Reachable.step {s s' : σ} {e : ε} (h : M.Reachable s) (he : M.step s e = some s') :
    M.Reachable s' := ReachableBy.step h trivial he

/-- The invariant rule for unrestricted runs. -/
theorem Reachable.invariant {P : σ → Prop} (hinit : P M.init)
    (hstep : ∀ s e s', M.Reachable s → P s → M.step s e = some s' → P s') {s : σ}
    (h : M.Reachable s) : P s :=
  ReachableBy.invariant hinit (fun s e s' hs hp _ he => hstep s e s' hs hp he) h

/-- If a measure can be made to drop wherever the goal is not yet reached, the goal is reached. -/
theorem exists_final {ok : σ → ε → Prop} {I P : σ → Prop} (μ : σ → ℕ)
    (hprogress : ∀ s, I s → ¬ P s → ∃ e s', ok s e ∧ M.step s e = some s' ∧ I s' ∧ μ s' < μ s)
    {s : σ} (hs : I s) : ∃ t, Relation.ReflTransGen (M.Next ok) s t ∧ I t ∧ P t := by
  induction hn : μ s using Nat.strongRecOn generalizing s with
  | _ n ih =>
    by_cases hp : P s
    · exact ⟨s, .refl, hs, hp⟩
    · obtain ⟨e, s', hok, he, hs', hlt⟩ := hprogress s hs hp
      obtain ⟨t, ht, hIt, hPt⟩ := ih (μ s') (hn ▸ hlt) hs' rfl
      exact ⟨t, .head ⟨e, hok, he⟩ ht, hIt, hPt⟩

/-- Every run goes on until it has come to the goal. -/
inductive Inevitable (M : Machine σ ε) (ok : σ → ε → Prop) (P : σ → Prop) : σ → Prop
  | here {s} (h : P s) : Inevitable M ok P s
  | step {s} (hgo : ∃ e s', ok s e ∧ M.step s e = some s')
      (hnext : ∀ e s', ok s e → M.step s e = some s' → Inevitable M ok P s') : Inevitable M ok P s

/-- Where only one event is allowed, it has to lead to the goal. -/
theorem Inevitable.only {ok : σ → ε → Prop} {P : σ → Prop} {s s' : σ} {e : ε} (hok : ok s e)
    (he : M.step s e = some s') (honly : ∀ e' t, ok s e' → M.step s e' = some t → e' = e)
    (h : M.Inevitable ok P s') : M.Inevitable ok P s := by
  refine .step ⟨e, s', hok, he⟩ fun e' t hok' he' => ?_
  obtain rfl := honly e' t hok' he'
  rw [he] at he'
  exact Option.some.inj he' ▸ h

/-- What every allowed step keeps and the goal rules out stands in the way of the goal. -/
theorem not_inevitable {ok : σ → ε → Prop} {I P : σ → Prop}
    (hstep : ∀ s e s', I s → ok s e → M.step s e = some s' → I s') (hP : ∀ s, I s → ¬ P s) {s : σ}
    (hs : I s) : ¬ M.Inevitable ok P s := by
  intro h
  induction h with
  | here h => exact hP _ hs h
  | step hgo _ ih =>
    obtain ⟨e, s', hok, he⟩ := hgo
    exact ih e s' hok he (hstep _ e s' hs hok he)

/-- A goal that is inevitable wherever another inevitable goal is reached. -/
theorem Inevitable.trans {ok : σ → ε → Prop} {P Q : σ → Prop} {s : σ} (h : M.Inevitable ok Q s)
    (hQ : ∀ t, Q t → M.Inevitable ok P t) : M.Inevitable ok P s := by
  induction h with
  | here h => exact hQ _ h
  | step hgo _ ih => exact .step hgo ih

/-- Where no run gets stuck before the goal, and every step on the way lowers a measure, the goal is
inevitable. -/
theorem inevitable_of_measure {ok : σ → ε → Prop} {I P : σ → Prop} (μ : σ → ℕ)
    (hgo : ∀ s, I s → ¬ P s → ∃ e s', ok s e ∧ M.step s e = some s')
    (hstep : ∀ s e s', I s → ok s e → M.step s e = some s' → P s' ∨ I s' ∧ μ s' < μ s) {s : σ}
    (hs : I s) : M.Inevitable ok P s := by
  induction hn : μ s using Nat.strongRecOn generalizing s with
  | _ n ih =>
    by_cases hp : P s
    · exact .here hp
    · refine .step (hgo s hs hp) fun e s' hok he => ?_
      rcases hstep s e s' hs hok he with hp' | ⟨hs', hlt⟩
      · exact .here hp'
      · exact ih (μ s') (hn ▸ hlt) hs' rfl

section Observe
variable {η : Type*} {start : η} {note : η → σ → ε → σ → η}

/-- The machine with a record of its run beside the state, to which each step adds a note. -/
def observe (M : Machine σ ε) (start : η) (note : η → σ → ε → σ → η) : Machine (σ × η) ε where
  init := (M.init, start)
  step p e := (M.step p.1 e).map fun s' => (s', note p.2 p.1 e s')

theorem observe_step {p p' : σ × η} {e : ε} :
    (M.observe start note).step p e = some p' ↔
      M.step p.1 e = some p'.1 ∧ p'.2 = note p.2 p.1 e p'.1 := by
  refine Option.map_eq_some_iff.trans ⟨?_, fun ⟨h, hn⟩ => ⟨p'.1, h, Prod.ext rfl hn.symm⟩⟩
  rintro ⟨s', h, rfl⟩
  exact ⟨h, rfl⟩

/-- A record keeps nothing from happening. -/
theorem ReachableBy.exists_record {ok : σ → ε → Prop} {s : σ} (h : M.ReachableBy ok s) :
    ∃ r, (M.observe start note).ReachableBy (fun p e => ok p.1 e) (s, r) := by
  induction h with
  | refl => exact ⟨start, ReachableBy.init⟩
  | tail _ hn ih =>
    obtain ⟨e, hok, he⟩ := hn
    obtain ⟨r, hr⟩ := ih
    exact ⟨note r _ e _, hr.step hok (observe_step.mpr ⟨he, rfl⟩)⟩

/-- A run with a record is a run. -/
theorem ReachableBy.forget {ok : σ → ε → Prop} {p : σ × η}
    (h : (M.observe start note).ReachableBy (fun p e => ok p.1 e) p) : M.ReachableBy ok p.1 := by
  apply ReachableBy.invariant (P := fun p => M.ReachableBy ok p.1) ReachableBy.init _ h
  exact fun _ _ _ _ hs hok he => hs.step hok (observe_step.mp he).1

end Observe

end Machine
end Croc.Lib
