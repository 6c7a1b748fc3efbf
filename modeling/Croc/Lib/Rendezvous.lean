import Mathlib.Data.List.Basic
import Croc.Lib.Simulation

/-! A meeting place. The first party to come waits for a second one, the two are connected, and
nobody else gets an answer other than a refusal until they are done. -/
namespace Croc.Lib.Rendezvous
variable {τ : Type*}

/-- Who is there. -/
inductive Slot (τ : Type*) where
  | free
  | waiting (host : τ)
  | met (host guest : τ)
  | joined (host guest : τ)

inductive Move (τ : Type*) where
  | enter (t : τ)
  | refuse (t : τ)
  | connect (host guest : τ)
  | close
  deriving DecidableEq

/-- A party is let in if fewer than two are there, and refused while two wait to be connected. -/
def Slot.after [DecidableEq τ] : Slot τ → Move τ → Option (Slot τ)
  | .free, .enter t => some (.waiting t)
  | .waiting host, .enter t => some (.met host t)
  | .met host guest, .refuse _ => some (.met host guest)
  | .met host guest, .connect host' guest' =>
    if host = host' ∧ guest = guest' then some (.joined host guest) else none
  | .joined _ _, .close => some .free
  | _, _ => none

def place (τ : Type*) [DecidableEq τ] : Machine (Slot τ) (Move τ) := ⟨.free, Slot.after⟩

/-- Who has been let in, in order. -/
def entered (moves : List (Move τ)) : List τ :=
  moves.filterMap fun
    | .enter t => some t
    | _ => none

/-- Who has been connected, each host with its guest. -/
def connected (moves : List (Move τ)) : List (τ × τ) :=
  moves.filterMap fun
    | .connect host guest => some (host, guest)
    | _ => none

/-- How many pairs are done. -/
def closings (moves : List (Move τ)) : ℕ :=
  moves.countP fun
    | .close => true
    | _ => false

/-- Who has been let in and not been connected yet. -/
def Slot.pending : Slot τ → List τ
  | .waiting host => [host]
  | .met host guest => [host, guest]
  | .free | .joined .. => []

def Slot.busy : Slot τ → ℕ
  | .joined .. => 1
  | .free | .waiting _ | .met .. => 0

section Concat
variable (moves : List (Move τ)) (t host guest : τ)

@[simp] theorem entered_enter : entered (moves ++ [.enter t]) = entered moves ++ [t] := by
  simp [entered]

@[simp] theorem entered_refuse : entered (moves ++ [.refuse t]) = entered moves := by
  simp [entered]

@[simp] theorem entered_connect : entered (moves ++ [.connect host guest]) = entered moves := by
  simp [entered]

@[simp] theorem entered_close : entered (moves ++ [.close]) = entered moves := by
  simp [entered]

@[simp] theorem connected_enter : connected (moves ++ [.enter t]) = connected moves := by
  simp [connected]

@[simp] theorem connected_refuse : connected (moves ++ [.refuse t]) = connected moves := by
  simp [connected]

@[simp] theorem connected_connect :
    connected (moves ++ [.connect host guest]) = connected moves ++ [(host, guest)] := by
  simp [connected]

@[simp] theorem connected_close : connected (moves ++ [.close]) = connected moves := by
  simp [connected]

@[simp] theorem closings_enter : closings (moves ++ [.enter t]) = closings moves := by
  simp [closings]

@[simp] theorem closings_refuse : closings (moves ++ [.refuse t]) = closings moves := by
  simp [closings]

@[simp] theorem closings_connect : closings (moves ++ [.connect host guest]) = closings moves := by
  simp [closings]

@[simp] theorem closings_close : closings (moves ++ [.close]) = closings moves + 1 := by
  simp [closings]

end Concat

/-- The parties are connected two by two, in the order in which they were let in. -/
structure Balance (moves : List (Move τ)) (slot : Slot τ) : Prop where
  pairs : entered moves = (connected moves).flatMap (fun p => [p.1, p.2]) ++ slot.pending
  closed : (connected moves).length = closings moves + slot.busy

/-- When a move may come, told from the moves before it: a party is let in where a pair is not yet
complete, and refused where one is complete and not connected. -/
def Due (before : List (Move τ)) : Move τ → Prop
  | .enter _ => (entered before).length < 2 * (closings before + 1)
  | .refuse _ => (connected before).length = closings before ∧
      (entered before).length = 2 * (closings before + 1)
  | .connect host guest =>
    (connected before).length = closings before ∧
      entered before = (connected before).flatMap (fun p => [p.1, p.2]) ++ [host, guest]
  | .close => (connected before).length = closings before + 1 ∧
      (entered before).length = 2 * (closings before + 1)

/-- Every move comes when it is due. -/
def Orderly (moves : List (Move τ)) : Prop :=
  ∀ before m, before ++ [m] <+: moves → Due before m

variable {moves : List (Move τ)} {slot slot' : Slot τ} {m : Move τ}

/-- A pair is one host and one guest. -/
theorem Balance.length (h : Balance moves slot) :
    (entered moves).length = 2 * (connected moves).length + slot.pending.length := by
  rw [h.pairs, List.length_append, List.length_flatMap]
  simp [Nat.mul_comm]

variable [DecidableEq τ]

theorem Balance.step (h : Balance moves slot) (hm : slot.after m = some slot') :
    Balance (moves ++ [m]) slot' := by
  obtain ⟨hpairs, hclosed⟩ := h
  cases slot <;> cases m <;> simp only [Slot.after, Option.some.injEq, reduceCtorEq] at hm
  case free.enter t =>
    subst hm
    exact ⟨by simpa [Slot.pending] using hpairs, by simpa [Slot.busy] using hclosed⟩
  case waiting.enter host t =>
    subst hm
    exact ⟨by simp [Slot.pending, hpairs], by simpa [Slot.busy] using hclosed⟩
  case met.refuse host guest t =>
    subst hm
    exact ⟨by simpa using hpairs, by simpa using hclosed⟩
  case met.connect host guest host' guest' =>
    obtain ⟨⟨rfl, rfl⟩, heq⟩ := Option.ite_none_right_eq_some.mp hm
    obtain rfl := Option.some.inj heq
    exact ⟨by simp [Slot.pending, hpairs], by simp [Slot.busy, hclosed]⟩
  case joined.close host guest =>
    subst hm
    exact ⟨by simpa [Slot.pending] using hpairs, by simpa [Slot.busy] using hclosed⟩

theorem Balance.due (h : Balance moves slot) (hm : slot.after m = some slot') : Due moves m := by
  have hlength := h.length
  obtain ⟨hpairs, hclosed⟩ := h
  cases slot <;> cases m <;> simp only [Slot.after, Option.some.injEq, reduceCtorEq] at hm
  case met.connect host guest host' guest' =>
    obtain ⟨⟨rfl, rfl⟩, -⟩ := Option.ite_none_right_eq_some.mp hm
    exact ⟨hclosed, hpairs⟩
  all_goals
    simp only [Slot.pending, Slot.busy, List.length_nil, List.length_cons] at hlength hclosed
    unfold Due
    omega

/-- A run of the meeting place is in balance and in order. -/
theorem orderly (h : (place τ).Trace moves slot) : Balance moves slot ∧ Orderly moves := by
  induction h with
  | start => exact ⟨⟨rfl, rfl⟩, fun before m h => by simp at h⟩
  | @step moves slot m slot' _ hm ih =>
    obtain ⟨hbalance, horderly⟩ := ih
    refine ⟨hbalance.step hm, fun before m' h => ?_⟩
    rcases List.prefix_concat_iff.mp h with heq | h
    · obtain ⟨rfl, hlast⟩ := List.append_inj' heq rfl
      obtain rfl := List.singleton_inj.mp hlast
      exact hbalance.due hm
    · exact horderly before m' h

end Croc.Lib.Rendezvous
