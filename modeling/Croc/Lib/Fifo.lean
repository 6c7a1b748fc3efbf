import Croc.Lib.Simulation

/-! A queue: what is taken out of it is what was put into it, in order. Who takes an element may see
less of it than who puts it in. -/
namespace Croc.Lib
variable {α β : Type*} [DecidableEq β]

/-- All that was put into a queue, and how much of it has been taken. -/
structure Fifo (α : Type*) where
  items : List α
  taken : ℕ

namespace Fifo

inductive Move (α β : Type*) where
  | push (a : α)
  | pop (b : β)

variable (key : α → β)

def step (q : Fifo α) : Move α β → Option (Fifo α)
  | .push a => some { q with items := q.items ++ [a] }
  | .pop b =>
    if q.items[q.taken]?.map key = some b then some { q with taken := q.taken + 1 } else none

def machine : Machine (Fifo α) (Move α β) := ⟨⟨[], 0⟩, step key⟩

/-- What the moves put in. -/
def pushed (moves : List (Move α β)) : List α :=
  moves.filterMap fun m => match m with
    | .push a => some a
    | .pop _ => none

/-- What the moves take out. -/
def popped (moves : List (Move α β)) : List β :=
  moves.filterMap fun m => match m with
    | .push _ => none
    | .pop b => some b

variable {key} {moves : List (Move α β)} {q : Fifo α}

/-- What has been taken is what was put in first. -/
theorem order (h : (machine key).Trace moves q) :
    q.items = pushed moves ∧ q.taken ≤ q.items.length ∧
      popped moves = (q.items.take q.taken).map key := by
  induction h with
  | start => exact ⟨rfl, Nat.le_refl _, rfl⟩
  | @step moves q m q' _ hstep ih =>
    obtain ⟨hitems, hle, hpopped⟩ := ih
    cases m with
    | push a =>
      obtain rfl := Option.some.inj hstep
      refine ⟨by simp [pushed, hitems], by simp only [List.length_append]; omega, ?_⟩
      rw [List.take_append_of_le_length hle, ← hpopped]
      simp [popped]
    | pop b =>
      simp only [machine, step] at hstep
      split at hstep
      next hnext =>
        obtain rfl := Option.some.inj hstep
        obtain ⟨a, ha, rfl⟩ := Option.map_eq_some_iff.mp hnext
        obtain ⟨hlt, -⟩ := List.getElem?_eq_some_iff.mp ha
        refine ⟨by simp [pushed, hitems], hlt, ?_⟩
        rw [List.take_add_one, ha, List.map_append, ← hpopped]
        simp [popped]
      · simp at hstep

end Fifo
end Croc.Lib
