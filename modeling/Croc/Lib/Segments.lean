import Mathlib.Tactic.Common

/-! Reading a fixed number of elements from a stream that arrives in segments. -/
namespace Croc.Lib
variable {α : Type*}

/-- Fill a buffer of `n` elements, in as many reads as that takes. A stream that ends before the
buffer is full is used up. -/
def readExact : ℕ → List (List α) → Option (List α) × List (List α)
  | 0, segments => (some [], segments)
  | _ + 1, [] => (none, [])
  | n + 1, segment :: segments =>
    if n + 1 < segment.length then
      (some (segment.take (n + 1)), segment.drop (n + 1) :: segments)
    else
      let (rest, left) := readExact (n + 1 - segment.length) segments
      (rest.map (segment ++ ·), left)

/-- Where the stream was cut does not matter to what is read from it, or to what is left. -/
theorem readExact_of_le {n : ℕ} {segments : List (List α)} (h : n ≤ segments.flatten.length) :
    ∃ left, readExact n segments = (some (segments.flatten.take n), left) ∧
      left.flatten = segments.flatten.drop n := by
  induction segments generalizing n with
  | nil =>
    obtain rfl : n = 0 := by simpa using h
    exact ⟨[], rfl, rfl⟩
  | cons segment segments ih =>
    cases n with
    | zero => exact ⟨segment :: segments, rfl, rfl⟩
    | succ n =>
      rw [List.flatten_cons] at h ⊢
      unfold readExact
      split
      next hlt =>
        refine ⟨segment.drop (n + 1) :: segments, ?_, ?_⟩
        · rw [List.take_append_of_le_length (Nat.le_of_lt hlt)]
        · rw [List.flatten_cons, List.drop_append_of_le_length (Nat.le_of_lt hlt)]
      next hge =>
        have hge := Nat.le_of_not_lt hge
        rw [List.length_append] at h
        obtain ⟨left, hread, hleft⟩ := ih (n := n + 1 - segment.length) (by omega)
        refine ⟨left, ?_, ?_⟩
        · rw [hread, List.take_append, List.take_of_length_le hge]
          rfl
        · rw [hleft, List.drop_append, List.drop_of_length_le hge, List.nil_append]

theorem readExact_of_lt {n : ℕ} {segments : List (List α)} (h : segments.flatten.length < n) :
    readExact n segments = (none, []) := by
  induction segments generalizing n with
  | nil =>
    cases n with
    | zero => simp at h
    | succ n => rfl
  | cons segment segments ih =>
    rw [List.flatten_cons, List.length_append] at h
    cases n with
    | zero => simp at h
    | succ n =>
      have hge : ¬ n + 1 < segment.length := by omega
      rw [readExact, if_neg hge, ih (n := n + 1 - segment.length) (by omega)]
      rfl

end Croc.Lib
