import Croc.Lib.Bytes

/-! Where a text can be cut: at its end, and before each byte that starts a character. -/
namespace Croc.Lib

/-- A byte that does not continue a character. -/
def StartsChar (b : UInt8) : Prop := b < 128 ∨ 192 ≤ b

instance (b : UInt8) : Decidable (StartsChar b) := inferInstanceAs (Decidable (_ ∨ _))

/-- The text can be cut after `n` bytes. -/
def CutsAt (s : String) (n : ℕ) : Prop :=
  n ≤ (asBytes s).length ∧ ∀ b ∈ (asBytes s)[n]?, StartsChar b

instance (s : String) (n : ℕ) : Decidable (CutsAt s n) :=
  inferInstanceAs (Decidable (_ ∧ ∀ b ∈ (asBytes s)[n]?, StartsChar b))

theorem lt_of_mem_utf8EncodeChar {c : Char} {b : UInt8} (h : b ∈ String.utf8EncodeChar c) :
    b.toNat < 248 := by
  unfold String.utf8EncodeChar at h
  dsimp only at h
  split_ifs at h <;> simp only [List.mem_cons, List.not_mem_nil, or_false] at h
  · subst h
    rw [UInt8.toNat_ofNat']
    omega
  · rcases h with rfl | rfl <;> rw [UInt8.toNat_ofNat'] <;> omega
  · rcases h with rfl | rfl | rfl <;> rw [UInt8.toNat_ofNat'] <;> omega
  · rcases h with rfl | rfl | rfl | rfl <;> rw [UInt8.toNat_ofNat'] <;> omega

theorem lt_of_mem_asBytes {s : String} {b : UInt8} (h : b ∈ asBytes s) : b.toNat < 248 := by
  rw [← String.ofList_toList (s := s), asBytes_ofList] at h
  obtain ⟨c, -, hb⟩ := List.mem_flatMap.mp h
  exact lt_of_mem_utf8EncodeChar hb

/-- Among the bytes of a text, the first bytes of characters are those that do not continue one. -/
theorem isUTF8FirstByte_iff {s : String} {b : UInt8} (h : b ∈ asBytes s) :
    b.IsUTF8FirstByte ↔ StartsChar b := by
  have hall : ∀ n < 248, (UInt8.ofNat n).IsUTF8FirstByte ↔ StartsChar (UInt8.ofNat n) := by
    decide +kernel
  simpa using hall b.toNat (lt_of_mem_asBytes h)

theorem length_asBytes (s : String) : (asBytes s).length = s.utf8ByteSize := by
  rw [asBytes, Array.length_toList]
  rfl

theorem isValid_iff_cutsAt (s : String) (n : ℕ) :
    String.Pos.Raw.IsValid s ⟨n⟩ ↔ CutsAt s n := by
  rw [String.Pos.Raw.isValid_iff_isUTF8FirstByte, CutsAt]
  have hlt : (⟨n⟩ : String.Pos.Raw) < s.rawEndPos ↔ n < (asBytes s).length := by
    rw [String.Pos.Raw.lt_iff, length_asBytes, String.byteIdx_rawEndPos]
  have hend : (⟨n⟩ : String.Pos.Raw) = s.rawEndPos ↔ n = (asBytes s).length := by
    rw [String.Pos.Raw.ext_iff, length_asBytes, String.byteIdx_rawEndPos]
  rw [hend]
  rcases lt_trichotomy n (asBytes s).length with h | h | h
  · have hget : (asBytes s)[n]? = some (s.getUTF8Byte ⟨n⟩ (hlt.mpr h)) := by
      rw [List.getElem?_eq_getElem h]
      simp only [asBytes, String.getUTF8Byte, Array.getElem_toList]
      rfl
    have hfirst := isUTF8FirstByte_iff (List.mem_of_getElem? hget)
    simp [hget, h.ne, hfirst, h.le, hlt.mpr h]
  · simp [← h]
  · have hnot : ¬ (⟨n⟩ : String.Pos.Raw) < s.rawEndPos := fun hp => (hlt.mp hp).not_gt h
    simp [h.ne', hnot, h.not_ge]

/-- The bytes before a place are a text if and only if the text can be cut there. -/
theorem isSome_fromUtf8_take {s : String} {n : ℕ} (h : n ≤ (asBytes s).length) :
    (fromUtf8 ((asBytes s).take n)).isSome ↔ CutsAt s n := by
  have hbytes : (⟨((asBytes s).take n).toArray⟩ : ByteArray) = s.toByteArray.extract 0 n := by
    apply ByteArray.ext
    rw [ByteArray.data_extract]
    apply Array.toList_inj.mp
    simp [asBytes]
  have hle : (⟨n⟩ : String.Pos.Raw) ≤ s.rawEndPos := by
    rwa [String.Pos.Raw.le_iff, String.byteIdx_rawEndPos, ← length_asBytes]
  rw [← isValid_iff_cutsAt, String.Pos.Raw.isValid_iff_isValidUTF8_extract_zero, fromUtf8, hbytes,
    String.fromUTF8?]
  split
  next hv => simpa [hle] using hv
  next hv => simpa [hle] using hv

/-- One byte for each character of an ASCII text. -/
theorem asBytes_of_ascii {cs : List Char} (h : ∀ c ∈ cs, c.toNat < 128) :
    asBytes (String.ofList cs) = cs.map fun c => UInt8.ofNat c.toNat := by
  rw [asBytes_ofList, List.map_eq_flatMap]
  refine List.flatMap_congr fun c hc => ?_
  have hc : c.val.toNat ≤ 127 := Nat.lt_succ_iff.mp (h c hc)
  simp only [String.utf8EncodeChar, if_pos hc]
  rfl

/-- An ASCII text can be cut everywhere. -/
theorem cutsAt_of_ascii {cs : List Char} (h : ∀ c ∈ cs, c.toNat < 128) {n : ℕ}
    (hn : n ≤ cs.length) : CutsAt (String.ofList cs) n := by
  rw [CutsAt, asBytes_of_ascii h, List.length_map]
  refine ⟨hn, fun b hb => Or.inl ?_⟩
  obtain ⟨c, hc, rfl⟩ := List.mem_map.mp (List.mem_of_getElem? hb)
  have := h c hc
  rw [UInt8.lt_iff_toNat_lt, UInt8.toNat_ofNat']
  have : (128 : UInt8).toNat = 128 := rfl
  omega

end Croc.Lib
