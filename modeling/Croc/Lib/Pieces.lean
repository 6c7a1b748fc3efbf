import Mathlib.Data.List.Basic
import Mathlib.Tactic.Ring
import Mathlib.Tactic.Common

/-! A list that is rebuilt from its pieces, each written to its own place, in any order. -/
namespace Croc.Lib
variable {α : Type*}

/-- Write `data` at an offset. What is missing before the offset is padded, and writing nothing
changes nothing. -/
def writeAt (pad : α) (content : List α) (offset : ℕ) (data : List α) : List α :=
  if data.length = 0 then content
  else content.take offset ++ List.replicate (offset - content.length) pad ++ data ++
    content.drop (offset + data.length)

/-- `data` stands in `content` at an offset. -/
def StandsAt (content : List α) (offset : ℕ) (data : List α) : Prop :=
  ∀ k < data.length, content[offset + k]? = data[k]?

section WriteAt
variable {pad : α} {content data : List α} {offset : ℕ}

theorem length_writeAt (h : offset + data.length ≤ content.length) :
    (writeAt pad content offset data).length = content.length := by
  unfold writeAt
  split
  · rfl
  · simp only [List.length_append, List.length_take, List.length_replicate, List.length_drop]
    omega

theorem getElem?_writeAt (h : offset + data.length ≤ content.length) (k : ℕ) :
    (writeAt pad content offset data)[k]? =
      if offset ≤ k ∧ k < offset + data.length then data[k - offset]? else content[k]? := by
  unfold writeAt
  split
  · rw [if_neg (by omega)]
  · have hpad : offset - content.length = 0 := by omega
    have htake : (content.take offset).length = offset := by rw [List.length_take]; omega
    rw [hpad, List.replicate_zero, List.append_nil]
    by_cases hlow : k < offset
    · rw [if_neg (by omega), List.append_assoc, List.getElem?_append_left (by omega),
        List.getElem?_take_of_lt hlow]
    · by_cases hhigh : k < offset + data.length
      · rw [if_pos (by omega), List.getElem?_append_left (by rw [List.length_append]; omega),
          List.getElem?_append_right (by omega), htake]
      · have hlen : (content.take offset ++ data).length = offset + data.length := by
          rw [List.length_append, htake]
        rw [if_neg (by omega), List.getElem?_append_right (by omega), hlen, List.getElem?_drop]
        congr 1
        omega

theorem standsAt_writeAt (h : offset + data.length ≤ content.length) :
    StandsAt (writeAt pad content offset data) offset data := by
  intro k hk
  rw [getElem?_writeAt h, if_pos (by omega), Nat.add_sub_cancel_left]

/-- A write elsewhere leaves in place what stands. -/
theorem StandsAt.writeAt_of_disjoint (h : offset + data.length ≤ content.length) {o : ℕ}
    {d : List α} (hs : StandsAt content o d)
    (hd : o + d.length ≤ offset ∨ offset + data.length ≤ o) :
    StandsAt (writeAt pad content offset data) o d := by
  intro k hk
  rw [getElem?_writeAt h, if_neg (by omega)]
  exact hs k hk

end WriteAt

/-- The number of pieces of `width` elements that a list of `n` elements has. -/
def pieceCount (width n : ℕ) : ℕ := (n + (width - 1)) / width

/-- The piece with the number `j`. -/
def piece (width : ℕ) (source : List α) (j : ℕ) : List α := (source.drop (j * width)).take width

section Pieces
variable {width : ℕ} {source : List α}

theorem lt_pieceCount (hw : 0 < width) {j n : ℕ} : j < pieceCount width n ↔ j * width < n := by
  unfold pieceCount
  rw [Nat.lt_iff_add_one_le, Nat.le_div_iff_mul_le hw, Nat.succ_mul]
  omega

theorem length_piece (j : ℕ) :
    (piece width source j).length = min width (source.length - j * width) := by
  rw [piece, List.length_take, List.length_drop]

theorem piece_fits {j : ℕ} (h : j * width < source.length) :
    j * width + (piece width source j).length ≤ source.length := by
  rw [length_piece]
  omega

theorem pieces_disjoint {i j : ℕ} (h : i ≠ j) :
    i * width + (piece width source i).length ≤ j * width ∨
      j * width + (piece width source j).length ≤ i * width := by
  simp only [length_piece]
  rcases Nat.lt_or_gt_of_ne h with h | h
  · have : (i + 1) * width ≤ j * width := Nat.mul_le_mul_right width h
    rw [Nat.succ_mul] at this
    omega
  · have : (j + 1) * width ≤ i * width := Nat.mul_le_mul_right width h
    rw [Nat.succ_mul] at this
    omega

/-- A list of the right length in which every piece of another stands is that list. -/
theorem eq_of_pieces (hw : 0 < width) {content : List α}
    (hlen : content.length = source.length)
    (h : ∀ j < pieceCount width source.length,
      StandsAt content (j * width) (piece width source j)) : content = source := by
  apply List.ext_getElem?
  intro p
  by_cases hp : p < source.length
  · have hsplit : p / width * width + p % width = p := by rw [Nat.mul_comm, Nat.div_add_mod]
    have hmod : p % width < width := Nat.mod_lt p hw
    have hj : p / width < pieceCount width source.length := by rw [lt_pieceCount hw]; omega
    have hk : p % width < (piece width source (p / width)).length := by
      rw [length_piece]; omega
    have hget := h _ hj _ hk
    rw [hsplit] at hget
    rw [hget, piece, List.getElem?_take_of_lt hmod, List.getElem?_drop, hsplit]
  · rw [List.getElem?_eq_none (by omega), List.getElem?_eq_none (by omega)]

end Pieces

/-- Pieces, given by their offsets and lengths, that lie end to end from `start` to `stop`. -/
def Tiles : ℕ → List (ℕ × ℕ) → ℕ → Prop
  | start, [], stop => start = stop
  | start, p :: ps, stop => p.1 = start ∧ Tiles (start + p.2) ps stop

theorem Tiles.sum_eq {start stop : ℕ} {ps : List (ℕ × ℕ)} (h : Tiles start ps stop) :
    start + (ps.map Prod.snd).sum = stop := by
  induction ps generalizing start with
  | nil => simpa [Tiles] using h
  | cons p ps ih =>
    rw [List.map_cons, List.sum_cons, ← Nat.add_assoc]
    exact ih h.2

/-- The pieces of a list of `n` elements, from the one with the number `k` on. -/
def piecesFrom (width n k : ℕ) : List (ℕ × ℕ) :=
  (List.range' k (pieceCount width n - k)).map fun j => (j * width, min width (n - j * width))

theorem piecesFrom_cons {width n k : ℕ} (hw : 0 < width) (h : k * width < n) :
    piecesFrom width n k =
      (k * width, min width (n - k * width)) :: piecesFrom width n (k + 1) := by
  have hk : pieceCount width n - k = pieceCount width n - (k + 1) + 1 := by
    have := (lt_pieceCount hw).mpr h
    omega
  rw [piecesFrom, hk, List.range'_succ, List.map_cons, piecesFrom]

theorem piecesFrom_of_le {width n k : ℕ} (hw : 0 < width) (h : n ≤ k * width) :
    piecesFrom width n k = [] := by
  have hk : pieceCount width n - k = 0 := by
    have := (lt_pieceCount hw (j := k) (n := n)).not.mpr (Nat.not_lt.mpr h)
    omega
  rw [piecesFrom, hk, List.range'_zero, List.map_nil]

/-- The pieces lie end to end. -/
theorem tiles_piecesFrom {width : ℕ} (hw : 0 < width) (n k : ℕ) :
    Tiles (min (k * width) n) (piecesFrom width n k) n := by
  induction hm : n - k * width using Nat.strong_induction_on generalizing k with
  | _ m ih =>
    by_cases h : k * width < n
    · have hnext : k * width + min width (n - k * width) = min ((k + 1) * width) n := by
        rw [Nat.succ_mul]
        omega
      rw [piecesFrom_cons hw h, Nat.min_eq_left h.le]
      refine ⟨rfl, ?_⟩
      dsimp only
      rw [hnext]
      exact ih (n - (k + 1) * width) (by rw [← hm, Nat.succ_mul]; omega) (k + 1) rfl
    · have h := Nat.le_of_not_lt h
      rw [piecesFrom_of_le hw h, Nat.min_eq_right h]
      rfl

end Croc.Lib
