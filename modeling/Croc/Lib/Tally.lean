import Mathlib.Algebra.BigOperators.Group.List.Basic
import Mathlib.Data.List.Forall2
import Mathlib.Data.Multiset.AddSub
import Mathlib.Tactic.Abel

/-! What the elements of a list hold together, when one of them changes or leaves. -/
namespace Croc.Lib
variable {α β : Type*}

theorem modify_eq_set_of_some {l : List α} {i : ℕ} {a : α} (h : l[i]? = some a) (f : α → α) :
    l.modify i f = l.set i (f a) := by
  apply List.ext_getElem?
  intro j
  rw [List.getElem?_modify, List.getElem?_set]
  by_cases hij : i = j
  · subst hij
    obtain ⟨hlt, rfl⟩ := List.getElem?_eq_some_iff.mp h
    simp [hlt]
  · simp [hij]

/-- Replacing an element of a list moves the sum by the two values. -/
theorem sum_map_set [AddCommMonoid β] (f : α → β) {l : List α} {i : ℕ} {a : α}
    (h : l[i]? = some a) (b : α) :
    ((l.set i b).map f).sum + f a = (l.map f).sum + f b := by
  induction l generalizing i with
  | nil => simp at h
  | cons x l ih =>
    cases i with
    | zero =>
      obtain rfl : x = a := by simpa using h
      simp only [List.set_cons_zero, List.map_cons, List.sum_cons]
      abel
    | succ i =>
      have hl := ih (i := i) (by simpa using h)
      simp only [List.set_cons_succ, List.map_cons, List.sum_cons]
      rw [add_assoc, hl, add_assoc]

/-- Taking an element out of a list takes its image out of the multiset of images. -/
theorem coe_map_eraseIdx (f : α → β) {l : List α} {k : ℕ} {a : α} (h : l[k]? = some a) :
    Multiset.ofList (l.map f) = f a ::ₘ Multiset.ofList ((l.eraseIdx k).map f) := by
  induction l generalizing k with
  | nil => simp at h
  | cons x l ih =>
    cases k with
    | zero =>
      obtain rfl : x = a := by simpa using h
      rfl
    | succ k =>
      have hl := ih (k := k) (by simpa using h)
      rw [List.eraseIdx_cons_succ, List.map_cons, List.map_cons, ← Multiset.cons_coe,
        ← Multiset.cons_coe, hl, Multiset.cons_swap]

section Matched
variable {R : α → β → Prop} {xs : List α} {ys : List β}

theorem exists_matched (h : List.Forall₂ R xs ys) {k : ℕ} {y : β} (hy : ys[k]? = some y) :
    ∃ x, xs[k]? = some x ∧ R x y := by
  induction h generalizing k with
  | nil => simp at hy
  | @cons x y' xs ys hr _ ih =>
    cases k with
    | zero =>
      obtain rfl : y' = y := by simpa using hy
      exact ⟨x, rfl, hr⟩
    | succ k => exact ih (by simpa using hy)

theorem matched_eraseIdx (h : List.Forall₂ R xs ys) (k : ℕ) :
    List.Forall₂ R (xs.eraseIdx k) (ys.eraseIdx k) := by
  induction h generalizing k with
  | nil => exact .nil
  | cons hr htail ih =>
    cases k with
    | zero => exact htail
    | succ k => exact .cons hr (ih k)

theorem matched_concat (h : List.Forall₂ R xs ys) {x : α} {y : β} (hr : R x y) :
    List.Forall₂ R (xs ++ [x]) (ys ++ [y]) :=
  List.rel_append h (.cons hr .nil)

end Matched

end Croc.Lib
