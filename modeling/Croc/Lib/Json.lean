import Mathlib.Data.List.Basic
import Mathlib.Data.Int.Notation
import Mathlib.Tactic.Common

/-! JSON values and their texts without white space. A text determines its value. -/
namespace Croc.Lib

inductive Json where
  | null
  | bool (b : Bool)
  | num (n : ℤ)
  | str (s : String)
  | arr (items : List Json)
  | obj (fields : List (String × Json))

/-- The characters with an escape of two characters, and its second one. -/
def shortEscapes : List (Char × Char) :=
  [('\x22', '\x22'), ('\x5c', '\x5c'), ('\x08', 'b'), ('\x09', 't'), ('\x0a', 'n'), ('\x0c', 'f'),
    ('\x0d', 'r')]

/-- A character of a string: other control characters are written with their code. -/
def escape (c : Char) : List Char :=
  match shortEscapes.lookup c with
  | some e => ['\x5c', e]
  | none =>
    if c.toNat < 32 then
      ['\x5c', 'u', '0', '0', Nat.digitChar (c.toNat / 16), Nat.digitChar (c.toNat % 16)]
    else [c]

def quoted (s : String) : List Char := '\x22' :: (s.toList.flatMap escape ++ ['\x22'])

def intChars : ℤ → List Char
  | .ofNat n => Nat.toDigits 10 n
  | .negSucc n => '-' :: Nat.toDigits 10 (n + 1)

namespace Json

mutual

def chars : Json → List Char
  | .null => ['n', 'u', 'l', 'l']
  | .bool true => ['t', 'r', 'u', 'e']
  | .bool false => ['f', 'a', 'l', 's', 'e']
  | .num n => intChars n
  | .str s => quoted s
  | .arr [] => ['[', ']']
  | .arr (item :: items) => '[' :: (chars item ++ restChars items)
  | .obj [] => ['\x7b', '\x7d']
  | .obj ((key, value) :: fields) =>
    '\x7b' :: (quoted key ++ (':' :: (chars value ++ fieldChars fields)))

/-- The rest of an array after an item. -/
def restChars : List Json → List Char
  | [] => [']']
  | item :: items => ',' :: (chars item ++ restChars items)

/-- The rest of an object after a field. -/
def fieldChars : List (String × Json) → List Char
  | [] => ['\x7d']
  | (key, value) :: fields =>
    ',' :: (quoted key ++ (':' :: (chars value ++ fieldChars fields)))

end

def text (j : Json) : String := String.ofList j.chars

end Json

/-- The text does not go on with a digit. -/
def NoDigit (r : List Char) : Prop := ∀ c ∈ r.head?, c.isDigit = false

section Escapes
variable {c d : Char} {r r' : List Char}

theorem shortEscapes_inj {e : Char} (hc : shortEscapes.lookup c = some e)
    (hd : shortEscapes.lookup d = some e) : c = d := by
  have hmem : ∀ {a : Char}, shortEscapes.lookup a = some e → (a, e) ∈ shortEscapes := by
    intro a ha
    obtain ⟨l, l', hl, -⟩ := List.lookup_eq_some_iff.mp ha
    rw [hl]
    simp
  have hall : ∀ p ∈ shortEscapes, ∀ q ∈ shortEscapes, p.2 = q.2 → p.1 = q.1 := by decide
  exact hall _ (hmem hc) _ (hmem hd) rfl

theorem digitChar_inj {a b : ℕ} (ha : a < 16) (hb : b < 16)
    (h : Nat.digitChar a = Nat.digitChar b) : a = b := by
  have hall : ∀ a < 16, ∀ b < 16, Nat.digitChar a = Nat.digitChar b → a = b := by decide
  exact hall a ha b hb h

/-- The three ways in which a character is written. -/
theorem escape_cases (c : Char) :
    (∃ e, shortEscapes.lookup c = some e ∧ e ≠ 'u' ∧ escape c = ['\x5c', e]) ∨
    (c.toNat < 32 ∧ escape c =
      ['\x5c', 'u', '0', '0', Nat.digitChar (c.toNat / 16), Nat.digitChar (c.toNat % 16)]) ∨
    (c ≠ '\x5c' ∧ c ≠ '\x22' ∧ escape c = [c]) := by
  unfold escape
  cases hc : shortEscapes.lookup c with
  | some e =>
    have hu : ∀ p ∈ shortEscapes, p.2 ≠ 'u' := by decide
    obtain ⟨l, l', hl, -⟩ := List.lookup_eq_some_iff.mp hc
    exact .inl ⟨e, rfl, hu (c, e) (by rw [hl]; simp), rfl⟩
  | none =>
    by_cases hlow : c.toNat < 32
    · exact .inr (.inl ⟨hlow, if_pos hlow⟩)
    · refine .inr (.inr ⟨?_, ?_, if_neg hlow⟩)
      · rintro rfl
        exact absurd hc (by decide)
      · rintro rfl
        exact absurd hc (by decide)

/-- A written character can be told from what follows. -/
theorem escape_append_inj (h : escape c ++ r = escape d ++ r') : c = d ∧ r = r' := by
  rcases escape_cases c with ⟨e, hc, heu, he⟩ | ⟨hc, he⟩ | ⟨hc, -, he⟩ <;>
    rcases escape_cases d with ⟨e', hd, heu', he'⟩ | ⟨hd, he'⟩ | ⟨hd, -, he'⟩ <;>
    rw [he, he'] at h <;> simp only [List.cons_append, List.nil_append, List.cons.injEq] at h
  · obtain ⟨-, rfl, hr⟩ := h
    exact ⟨shortEscapes_inj hc hd, hr⟩
  · exact absurd h.2.1 heu
  · exact absurd h.1.symm hd
  · exact absurd h.2.1.symm heu'
  · obtain ⟨-, -, -, -, hhigh, hlow, hr⟩ := h
    have hhigh := digitChar_inj (by omega) (by omega) hhigh
    have hlow := digitChar_inj (Nat.mod_lt _ (by omega)) (Nat.mod_lt _ (by omega)) hlow
    exact ⟨Char.toNat_inj.mp (by omega), hr⟩
  · exact absurd h.1.symm hd
  · exact absurd h.1 hc
  · exact absurd h.1 hc
  · exact h

/-- No written character starts like the end of a string. -/
theorem escape_ne_quote : escape c ++ r ≠ '\x22' :: r' := by
  intro h
  rcases escape_cases c with ⟨e, -, -, he⟩ | ⟨-, he⟩ | ⟨-, hc, he⟩ <;> rw [he] at h <;>
    simp only [List.cons_append, List.nil_append, List.cons.injEq] at h
  · exact absurd h.1 (by decide)
  · exact absurd h.1 (by decide)
  · exact hc h.1

theorem quoted_append_inj {s t : String} (h : quoted s ++ r = quoted t ++ r') :
    s = t ∧ r = r' := by
  have hbody : ∀ (cs ds : List Char), cs.flatMap escape ++ '\x22' :: r =
      ds.flatMap escape ++ '\x22' :: r' → cs = ds ∧ r = r' := by
    intro cs
    induction cs with
    | nil =>
      rintro (_ | ⟨d, ds⟩) h
      · exact ⟨rfl, List.tail_eq_of_cons_eq h⟩
      · rw [List.flatMap_nil, List.nil_append, List.flatMap_cons, List.append_assoc] at h
        exact absurd h.symm escape_ne_quote
    | cons c cs ih =>
      rintro (_ | ⟨d, ds⟩) h
      · rw [List.flatMap_nil, List.nil_append, List.flatMap_cons, List.append_assoc] at h
        exact absurd h escape_ne_quote
      · rw [List.flatMap_cons, List.flatMap_cons, List.append_assoc, List.append_assoc] at h
        obtain ⟨rfl, hrest⟩ := escape_append_inj h
        obtain ⟨rfl, hr⟩ := ih ds hrest
        exact ⟨rfl, hr⟩
  simp only [quoted, List.cons_append, List.cons.injEq, true_and, List.append_assoc,
    List.nil_append] at h
  obtain ⟨hs, hr⟩ := hbody _ _ h
  exact ⟨String.toList_injective hs, hr⟩

end Escapes

section Numbers
variable {r r' : List Char}

theorem takeWhile_toDigits (n : ℕ) (hr : NoDigit r) :
    (Nat.toDigits 10 n ++ r).takeWhile Char.isDigit = Nat.toDigits 10 n := by
  have hdigits : ∀ c ∈ Nat.toDigits 10 n, c.isDigit := fun c hc =>
    Nat.isDigit_of_mem_toDigits (by omega) (by omega) hc
  rw [List.takeWhile_append_of_pos hdigits]
  cases r with
  | nil => simp
  | cons c r => rw [List.takeWhile_cons_of_neg (by simp [hr c rfl]), List.append_nil]

theorem toDigits_append_inj {m n : ℕ} (hr : NoDigit r) (hr' : NoDigit r')
    (h : Nat.toDigits 10 m ++ r = Nat.toDigits 10 n ++ r') : m = n ∧ r = r' := by
  have hdigits : Nat.toDigits 10 m = Nat.toDigits 10 n := by
    rw [← takeWhile_toDigits m hr, h, takeWhile_toDigits n hr']
  have hmn : m = n := by
    rw [← Nat.ofDigitChars_ten_toDigits (n := m), hdigits, Nat.ofDigitChars_ten_toDigits]
  rw [hdigits] at h
  exact ⟨hmn, List.append_cancel_left h⟩

theorem intChars_append_inj {m n : ℤ} (hr : NoDigit r) (hr' : NoDigit r')
    (h : intChars m ++ r = intChars n ++ r') : m = n ∧ r = r' := by
  have hsign : ∀ (k : ℕ) (t t' : List Char), Nat.toDigits 10 k ++ t ≠ '-' :: t' := by
    intro k t t' h
    obtain ⟨c, cs, hc⟩ := List.exists_cons_of_ne_nil (Nat.toDigits_ne_nil (n := k) (b := 10))
    have hdigit : c.isDigit := Nat.isDigit_of_mem_toDigits (b := 10) (n := k) (by omega) (by omega)
      (by rw [hc]; exact List.mem_cons_self)
    rw [hc, List.cons_append, List.cons.injEq] at h
    rw [h.1] at hdigit
    exact absurd hdigit (by decide)
  rcases m with m | m <;> rcases n with n | n <;>
    simp only [intChars, List.cons_append] at h
  · obtain ⟨rfl, hr⟩ := toDigits_append_inj hr hr' h
    exact ⟨rfl, hr⟩
  · exact absurd h (hsign _ _ _)
  · exact absurd h.symm (hsign _ _ _)
  · obtain ⟨hmn, hr⟩ := toDigits_append_inj hr hr' (List.tail_eq_of_cons_eq h)
    obtain rfl : m = n := Nat.succ.inj hmn
    exact ⟨rfl, hr⟩

theorem exists_intChars (n : ℤ) : ∃ c cs, intChars n = c :: cs ∧ (c = '-' ∨ c.isDigit) := by
  rcases n with n | n
  · obtain ⟨c, cs, hc⟩ := List.exists_cons_of_ne_nil (Nat.toDigits_ne_nil (n := n) (b := 10))
    have hdigit : c.isDigit := Nat.isDigit_of_mem_toDigits (b := 10) (n := n) (by omega) (by omega)
      (by rw [hc]; exact List.mem_cons_self)
    exact ⟨c, cs, hc, .inr hdigit⟩
  · exact ⟨'-', _, rfl, .inl rfl⟩

end Numbers

namespace Json

/-- The kind of a value, and the kind that its first character shows. -/
def kind : Json → ℕ
  | .null => 0
  | .bool _ => 1
  | .num _ => 2
  | .str _ => 3
  | .arr _ => 4
  | .obj _ => 5

def kindOf (c : Char) : ℕ :=
  if c = 'n' then 0
  else if c = 't' ∨ c = 'f' then 1
  else if c = '-' ∨ c.isDigit then 2
  else if c = '\x22' then 3
  else if c = '[' then 4
  else if c = '\x7b' then 5
  else 6

theorem exists_chars (j : Json) : ∃ c cs, j.chars = c :: cs ∧ kindOf c = j.kind := by
  cases j with
  | null => exact ⟨'n', _, rfl, by decide⟩
  | bool b => cases b <;> exact ⟨_, _, rfl, by decide⟩
  | num n =>
    obtain ⟨c, cs, hc, hsign⟩ := exists_intChars n
    refine ⟨c, cs, by rw [chars, hc], ?_⟩
    have hne : ∀ d : Char, d ≠ '-' → d.isDigit = false → c ≠ d := by
      rintro d hd hdigit rfl
      rcases hsign with rfl | h
      · exact hd rfl
      · simp [hdigit] at h
    simp [kindOf, kind, hsign, hne 'n' (by decide) (by decide), hne 't' (by decide) (by decide),
      hne 'f' (by decide) (by decide)]
  | str s => exact ⟨'\x22', _, rfl, rfl⟩
  | arr items => cases items <;> exact ⟨'[', _, rfl, rfl⟩
  | obj fields => rcases fields with _ | ⟨⟨key, value⟩, fields⟩ <;> exact ⟨'\x7b', _, rfl, rfl⟩

theorem kind_eq_of_append {a b : Json} {r r' : List Char} (h : a.chars ++ r = b.chars ++ r') :
    a.kind = b.kind := by
  obtain ⟨c, cs, hc, hkind⟩ := exists_chars a
  obtain ⟨d, ds, hd, hkind'⟩ := exists_chars b
  rw [hc, hd, List.cons_append, List.cons_append, List.cons.injEq] at h
  rw [← hkind, ← hkind', h.1]

/-- No value starts like the end of an array. -/
theorem chars_ne_close (j : Json) (r r' : List Char) : j.chars ++ r ≠ ']' :: r' := by
  intro h
  obtain ⟨c, cs, hc, hkind⟩ := exists_chars j
  rw [hc, List.cons_append, List.cons.injEq] at h
  have hclose : kindOf ']' = 6 := by decide
  rw [h.1, hclose] at hkind
  cases j <;> cases hkind

theorem noDigit_restChars (items : List Json) (r : List Char) : NoDigit (restChars items ++ r) := by
  cases items <;> rintro c hc <;> obtain rfl := Option.some.inj hc <;> decide

theorem noDigit_fieldChars (fields : List (String × Json)) (r : List Char) :
    NoDigit (fieldChars fields ++ r) := by
  rcases fields with _ | ⟨⟨key, value⟩, fields⟩ <;> rintro c hc <;>
    obtain rfl := Option.some.inj hc <;> decide

mutual

/-- A written value can be told from what follows. -/
theorem chars_append_inj : ∀ (a b : Json) {r r' : List Char}, NoDigit r → NoDigit r' →
    a.chars ++ r = b.chars ++ r' → a = b ∧ r = r'
  | .null, b, r, r', _, _, h => by
    have hk := kind_eq_of_append h
    cases b <;> simp [kind] at hk
    exact ⟨rfl, by simpa [chars] using h⟩
  | .bool x, b, r, r', _, _, h => by
    have hk := kind_eq_of_append h
    cases b <;> simp [kind] at hk
    next y => cases x <;> cases y <;> simp [chars] at h <;> exact ⟨rfl, h⟩
  | .num n, b, r, r', hr, hr', h => by
    have hk := kind_eq_of_append h
    cases b <;> simp [kind] at hk
    next m =>
      obtain ⟨rfl, hrest⟩ := intChars_append_inj hr hr' (by simpa [chars] using h)
      exact ⟨rfl, hrest⟩
  | .str s, b, r, r', _, _, h => by
    have hk := kind_eq_of_append h
    cases b <;> simp [kind] at hk
    next t =>
      obtain ⟨rfl, hrest⟩ := quoted_append_inj (s := s) (t := t) (by simpa [chars] using h)
      exact ⟨rfl, hrest⟩
  | .arr [], b, r, r', _, _, h => by
    have hk := kind_eq_of_append h
    cases b <;> simp [kind] at hk
    next items =>
      cases items with
      | nil => exact ⟨rfl, by simpa [chars] using h⟩
      | cons item items =>
        simp only [chars, List.cons_append, List.nil_append, List.cons.injEq, true_and,
          List.append_assoc] at h
        exact absurd h.symm (chars_ne_close _ _ _)
  | .arr (item :: items), b, r, r', _, _, h => by
    have hk := kind_eq_of_append h
    cases b <;> simp [kind] at hk
    next items' =>
      cases items' with
      | nil =>
        simp only [chars, List.cons_append, List.nil_append, List.cons.injEq, true_and,
          List.append_assoc] at h
        exact absurd h (chars_ne_close _ _ _)
      | cons item' items' =>
        simp only [chars, List.cons_append, List.cons.injEq, true_and, List.append_assoc] at h
        obtain ⟨rfl, hrest⟩ := chars_append_inj item item' (noDigit_restChars _ _)
          (noDigit_restChars _ _) h
        obtain ⟨rfl, hr⟩ := restChars_append_inj items items' hrest
        exact ⟨rfl, hr⟩
  | .obj [], b, r, r', _, _, h => by
    have hk := kind_eq_of_append h
    cases b <;> simp [kind] at hk
    next fields =>
      rcases fields with _ | ⟨⟨key, value⟩, fields⟩
      · exact ⟨rfl, by simpa [chars] using h⟩
      · simp [chars, quoted] at h
  | .obj ((key, value) :: fields), b, r, r', _, _, h => by
    have hk := kind_eq_of_append h
    cases b <;> simp [kind] at hk
    next fields' =>
      rcases fields' with _ | ⟨⟨key', value'⟩, fields'⟩
      · simp [chars, quoted] at h
      · simp only [chars, List.cons_append, List.cons.injEq, true_and, List.append_assoc] at h
        obtain ⟨rfl, hvalue⟩ := quoted_append_inj h
        obtain ⟨rfl, hfields⟩ := chars_append_inj value value' (noDigit_fieldChars _ _)
          (noDigit_fieldChars _ _) (List.tail_eq_of_cons_eq hvalue)
        obtain ⟨rfl, hr⟩ := fieldChars_append_inj fields fields' hfields
        exact ⟨rfl, hr⟩

theorem restChars_append_inj : ∀ (items items' : List Json) {r r' : List Char},
    restChars items ++ r = restChars items' ++ r' → items = items' ∧ r = r'
  | [], [], r, r', h => ⟨rfl, by simpa [restChars] using h⟩
  | [], _ :: _, r, r', h => by simp [restChars] at h
  | _ :: _, [], r, r', h => by simp [restChars] at h
  | item :: items, item' :: items', r, r', h => by
    simp only [restChars, List.cons_append, List.cons.injEq, true_and, List.append_assoc] at h
    obtain ⟨rfl, hrest⟩ := chars_append_inj item item' (noDigit_restChars _ _)
      (noDigit_restChars _ _) h
    obtain ⟨rfl, hr⟩ := restChars_append_inj items items' hrest
    exact ⟨rfl, hr⟩

theorem fieldChars_append_inj : ∀ (fields fields' : List (String × Json)) {r r' : List Char},
    fieldChars fields ++ r = fieldChars fields' ++ r' → fields = fields' ∧ r = r'
  | [], [], r, r', h => ⟨rfl, by simpa [fieldChars] using h⟩
  | [], (_, _) :: _, r, r', h => by simp [fieldChars] at h
  | (_, _) :: _, [], r, r', h => by simp [fieldChars] at h
  | (key, value) :: fields, (key', value') :: fields', r, r', h => by
    simp only [fieldChars, List.cons_append, List.cons.injEq, true_and, List.append_assoc] at h
    obtain ⟨rfl, hvalue⟩ := quoted_append_inj h
    obtain ⟨rfl, hfields⟩ := chars_append_inj value value' (noDigit_fieldChars _ _)
      (noDigit_fieldChars _ _) (List.tail_eq_of_cons_eq hvalue)
    obtain ⟨rfl, hr⟩ := fieldChars_append_inj fields fields' hfields
    exact ⟨rfl, hr⟩

end

theorem text_injective : Function.Injective text := by
  intro a b h
  have hnil : NoDigit [] := by rintro c ⟨⟩
  refine (chars_append_inj a b hnil hnil ?_).1
  rw [List.append_nil, List.append_nil]
  exact String.ofList_injective h

end Json
end Croc.Lib
