import Mathlib.Data.List.Induction
import Mathlib.Logic.Function.Basic
import Croc.Lib.Pieces

/-! Contents kept under names, with a journal of what was done to them: a name is given new contents
that are all padding, or data is written under it at an offset. -/
namespace Croc.Lib
variable {ι α : Type*}

inductive Entry (ι α : Type*) where
  | reset (name : ι) (length : ℕ)
  | put (name : ι) (offset : ℕ) (data : List α)

def Entry.name : Entry ι α → ι
  | .reset name _ => name
  | .put name _ _ => name

variable [DecidableEq ι]

/-- What an entry does to the contents. -/
def Entry.apply (pad : α) (contents : ι → List α) : Entry ι α → ι → List α
  | .reset name n => Function.update contents name (List.replicate n pad)
  | .put name offset data =>
    Function.update contents name (writeAt pad (contents name) offset data)

/-- The contents after all that a journal tells. -/
def replay (pad : α) (contents : ι → List α) (journal : List (Entry ι α)) : ι → List α :=
  journal.foldl (Entry.apply pad) contents

section Replay
variable {pad a : α} {contents : ι → List α} {journal : List (Entry ι α)} {name : ι} {i : ℕ}

theorem replay_concat (e : Entry ι α) :
    replay pad contents (journal ++ [e]) = e.apply pad (replay pad contents journal) :=
  List.foldl_concat ..

theorem Entry.apply_of_ne {e : Entry ι α} (h : e.name ≠ name) :
    e.apply pad contents name = contents name := by
  cases e with
  | reset => exact Function.update_of_ne h.symm ..
  | put => exact Function.update_of_ne h.symm ..

/-- A name that the journal does not mention keeps its contents. -/
theorem replay_of_ne (h : ∀ e ∈ journal, e.name ≠ name) :
    replay pad contents journal name = contents name := by
  induction journal using List.reverseRecOn with
  | nil => rfl
  | append_singleton journal e ih =>
    rw [List.forall_mem_append, List.forall_mem_singleton] at h
    rw [replay_concat, Entry.apply_of_ne h.2, ih h.1]

/-- What stands after a write stood there before, is padding, or has been written. -/
theorem getElem?_of_writeAt {content data : List α} {offset : ℕ}
    (h : (writeAt pad content offset data)[i]? = some a) :
    content[i]? = some a ∨ a = pad ∨ offset ≤ i ∧ data[i - offset]? = some a := by
  unfold writeAt at h
  split at h
  · exact Or.inl h
  rw [List.append_assoc, List.append_assoc] at h
  by_cases hlow : i < (content.take offset).length
  · rw [List.getElem?_append_left hlow, List.getElem?_take] at h
    split at h
    · exact Or.inl h
    · simp at h
  rw [List.getElem?_append_right (Nat.le_of_not_lt hlow)] at h
  have htake : (content.take offset).length = min offset content.length := List.length_take ..
  by_cases hpad : i - (content.take offset).length < offset - content.length
  · rw [List.getElem?_append_left (by rwa [List.length_replicate])] at h
    exact Or.inr (Or.inl (List.eq_of_mem_replicate (List.mem_of_getElem? h)))
  rw [List.getElem?_append_right (by rw [List.length_replicate]; omega),
    List.length_replicate] at h
  -- the padding ends where the data begins
  have hstart : i - (content.take offset).length - (offset - content.length) = i - offset := by
    omega
  rw [hstart] at h
  by_cases hdata : i - offset < data.length
  · rw [List.getElem?_append_left hdata] at h
    exact Or.inr (Or.inr ⟨by omega, h⟩)
  · rw [List.getElem?_append_right (Nat.le_of_not_lt hdata), List.getElem?_drop] at h
    have hrest : offset + data.length + (i - offset - data.length) = i := by omega
    exact Or.inl (hrest ▸ h)

/-- Everything that stands is padding, has been put there, or was there at first and has not been
reset. -/
theorem source_of_replay (h : (replay pad contents journal name)[i]? = some a) :
    a = pad ∨
      (∃ offset data, .put name offset data ∈ journal ∧ offset ≤ i ∧ data[i - offset]? = some a) ∨
      (∀ n, .reset name n ∉ journal) ∧ (contents name)[i]? = some a := by
  induction journal using List.reverseRecOn with
  | nil => exact Or.inr (Or.inr ⟨fun _ => List.not_mem_nil, h⟩)
  | append_singleton journal e ih =>
    have hkeep : (replay pad contents journal name)[i]? = some a → (∀ n, e ≠ .reset name n) →
        a = pad ∨
          (∃ offset data, .put name offset data ∈ journal ++ [e] ∧ offset ≤ i ∧
            data[i - offset]? = some a) ∨
          (∀ n, .reset name n ∉ journal ++ [e]) ∧ (contents name)[i]? = some a := by
      intro hold he
      rcases ih hold with hpad | ⟨offset, data, hput, hi⟩ | ⟨hnone, hat⟩
      · exact Or.inl hpad
      · exact Or.inr (Or.inl ⟨offset, data, List.mem_append_left _ hput, hi⟩)
      · refine Or.inr (Or.inr ⟨fun n hmem => ?_, hat⟩)
        rcases List.mem_append.mp hmem with hmem | hmem
        · exact hnone n hmem
        · exact he n (List.mem_singleton.mp hmem).symm
    rw [replay_concat] at h
    by_cases hname : e.name = name
    · subst hname
      cases e with
      | reset name n =>
        rw [Entry.apply, Entry.name, Function.update_self] at h
        exact Or.inl (List.eq_of_mem_replicate (List.mem_of_getElem? h))
      | put name offset data =>
        rw [Entry.apply, Entry.name, Function.update_self] at h
        rcases getElem?_of_writeAt h with hold | hpad | hi
        · exact hkeep hold (by simp)
        · exact Or.inl hpad
        · exact Or.inr (Or.inl ⟨offset, data, List.mem_append_right _ (by simp [Entry.name]), hi⟩)
    · rw [Entry.apply_of_ne hname] at h
      refine hkeep h fun n he => hname ?_
      rw [he]
      rfl

end Replay
end Croc.Lib
