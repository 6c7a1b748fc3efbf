import Mathlib.Logic.Function.Basic
import Mathlib.Data.List.Basic
import Mathlib.Tactic.Common

/-! A list that is merged from the lists of several sources, each of which keeps its order. -/
namespace Croc.Lib
variable {ι β : Type*} [DecidableEq ι]

/-- Every element of `xs` comes from one of the lists `f i`, and each of these lists is used up, in
its order. -/
def Interleaves (f : ι → List β) (xs : List β) : Prop :=
  ∃ tagged : List (ι × β), tagged.map Prod.snd = xs ∧
    ∀ i, (tagged.filter fun p => p.1 = i).map Prod.snd = f i

namespace Interleaves
variable {f : ι → List β} {xs : List β}

theorem nil : Interleaves (fun _ : ι => ([] : List β)) [] := ⟨[], rfl, fun _ => rfl⟩

/-- A source adds an element. -/
theorem snoc (h : Interleaves f xs) (i : ι) (x : β) :
    Interleaves (Function.update f i (f i ++ [x])) (xs ++ [x]) := by
  obtain ⟨tagged, rfl, hf⟩ := h
  refine ⟨tagged ++ [(i, x)], by rw [List.map_append]; rfl, fun j => ?_⟩
  rw [List.filter_append, List.map_append, hf j]
  by_cases hij : i = j
  · subst hij
    simp
  · simp [Function.update_of_ne (Ne.symm hij), hij]

end Interleaves
end Croc.Lib
