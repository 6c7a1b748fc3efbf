import Croc.Session.Fs

/-! The chunks of a file as `send_file` counts them out in 64 bits, and the number of them that the
receive loop computes. -/
namespace Croc
open Lib

/-- `+` on `u64`, where an overflow panics. -/
def checkedAdd (a b : UInt64) : Option UInt64 :=
  if a.toNat + b.toNat < 2 ^ 64 then some (a + b) else none

/-- `-` on `u64`, where an underflow panics. -/
def checkedSub (a b : UInt64) : Option UInt64 := if b ≤ a then some (a - b) else none

/-- `TCP_BUFFER_SIZE as u64` -/
def bufferSize : UInt64 := 65536

/-- What `(0..stop).step_by(TCP_BUFFER_SIZE as usize)` has yet to yield at an offset. An offset
that does not fit in 64 bits ends it. -/
def stepBy (stop chunkOffset : UInt64) : List UInt64 :=
  if chunkOffset < stop then
    chunkOffset ::
      if chunkOffset.toNat + bufferSize.toNat < 2 ^ 64 then stepBy stop (chunkOffset + bufferSize)
      else []
  else []
termination_by stop.toNat - chunkOffset.toNat
decreasing_by
  have hlt : chunkOffset.toNat < stop.toNat := UInt64.lt_iff_toNat_lt.mp ‹_›
  have hadd : (chunkOffset + bufferSize).toNat = chunkOffset.toNat + bufferSize.toNat := by
    rw [UInt64.toNat_add, Nat.mod_eq_of_lt ‹_›]
  have hbuffer : bufferSize.toNat = 65536 := rfl
  omega

/-- The size of the chunk at an offset. -/
def chunkSize (fileSize chunkOffset : UInt64) : Option UInt64 := do
  let chunkEnd ← checkedAdd chunkOffset bufferSize
  if chunkEnd > fileSize then checkedSub fileSize chunkOffset else some bufferSize

/-- The chunks that `send_file` hands to the reader task; `none` is an overflow on the way. -/
def sendChunks (fileSize : UInt64) : Option (List (UInt64 × UInt64)) :=
  (stepBy fileSize 0).mapM fun chunkOffset =>
    (chunkSize fileSize chunkOffset).map (chunkOffset, ·)

/-- The size of a chunk inside the file, in which nothing overflows. -/
theorem chunkSize_eq {fileSize chunkOffset : UInt64} (hfile : fileSize.toNat < 2 ^ 63)
    (h : chunkOffset < fileSize) : ∃ size, chunkSize fileSize chunkOffset = some size ∧
      size.toNat = min tcpBufferSize (fileSize.toNat - chunkOffset.toNat) := by
  have hlt : chunkOffset.toNat < fileSize.toNat := UInt64.lt_iff_toNat_lt.mp h
  have hbuffer : bufferSize.toNat = tcpBufferSize := rfl
  have htcp : tcpBufferSize = 65536 := rfl
  have hfits : chunkOffset.toNat + bufferSize.toNat < 2 ^ 64 := by omega
  have hend : (chunkOffset + bufferSize).toNat = chunkOffset.toNat + tcpBufferSize := by
    rw [UInt64.toNat_add, Nat.mod_eq_of_lt hfits, hbuffer]
  have hadd : checkedAdd chunkOffset bufferSize = some (chunkOffset + bufferSize) := if_pos hfits
  rw [chunkSize, hadd, Option.bind_eq_bind, Option.bind_some]
  split
  next hlast =>
    have hlast : fileSize.toNat < (chunkOffset + bufferSize).toNat :=
      UInt64.lt_iff_toNat_lt.mp hlast
    refine ⟨_, if_pos (UInt64.le_of_lt h), ?_⟩
    rw [UInt64.toNat_sub_of_le _ _ (UInt64.le_of_lt h)]
    omega
  next hwhole =>
    have hwhole : ¬ fileSize.toNat < (chunkOffset + bufferSize).toNat :=
      fun hlt => hwhole (UInt64.lt_iff_toNat_lt.mpr hlt)
    refine ⟨_, rfl, ?_⟩
    omega

/-- The offset and the size of a chunk as numbers. -/
def place (chunk : UInt64 × UInt64) : ℕ × ℕ := (chunk.1.toNat, chunk.2.toNat)

/-- From the `k`-th offset on, the loop goes through the pieces of the file. -/
theorem mapM_stepBy {fileSize : UInt64} (hfile : fileSize.toNat < 2 ^ 63) {k : ℕ}
    {chunkOffset : UInt64} (hk : chunkOffset.toNat = k * tcpBufferSize) :
    ∃ chunks, ((stepBy fileSize chunkOffset).mapM fun chunkOffset =>
        (chunkSize fileSize chunkOffset).map (chunkOffset, ·)) = some chunks ∧
      chunks.map place = piecesFrom tcpBufferSize fileSize.toNat k := by
  have htcp : tcpBufferSize = 65536 := rfl
  have hpos : 0 < tcpBufferSize := by omega
  have hbuffer : bufferSize.toNat = tcpBufferSize := rfl
  induction hm : fileSize.toNat - k * tcpBufferSize using Nat.strong_induction_on
    generalizing k chunkOffset with
  | _ m ih =>
    by_cases hlt : chunkOffset < fileSize
    · have hlt' : chunkOffset.toNat < fileSize.toNat := UInt64.lt_iff_toNat_lt.mp hlt
      have hfits : chunkOffset.toNat + bufferSize.toNat < 2 ^ 64 := by omega
      have hnext : (chunkOffset + bufferSize).toNat = (k + 1) * tcpBufferSize := by
        rw [UInt64.toNat_add, Nat.mod_eq_of_lt hfits, hbuffer, hk, Nat.succ_mul]
      obtain ⟨size, hsize, hsize'⟩ := chunkSize_eq hfile hlt
      obtain ⟨chunks, hchunks, hmap⟩ := ih (fileSize.toNat - (k + 1) * tcpBufferSize)
        (by rw [Nat.succ_mul]; omega) hnext rfl
      refine ⟨(chunkOffset, size) :: chunks, ?_, ?_⟩
      · rw [stepBy, if_pos hlt, if_pos hfits, List.mapM_cons, hsize, hchunks]
        rfl
      · rw [List.map_cons, hmap, piecesFrom_cons (k := k) hpos (by omega), place, hsize', hk]
    · have hge : fileSize.toNat ≤ k * tcpBufferSize := by
        rw [← hk]
        exact Nat.le_of_not_lt fun h => hlt (UInt64.lt_iff_toNat_lt.mpr h)
      refine ⟨[], ?_, ?_⟩
      · rw [stepBy, if_neg hlt]
        rfl
      · rw [piecesFrom_of_le hpos hge, List.map_nil]

/-- What the chunks of a file of `n` bytes have to be. -/
structure CoversFile (n : ℕ) (chunks : List (UInt64 × UInt64)) : Prop where
  offsets : ∀ k < chunks.length, chunks[k]?.map (fun chunk => chunk.1.toNat) =
    some (k * tcpBufferSize)
  sizes : ∀ chunk ∈ chunks, 1 ≤ chunk.2.toNat ∧ chunk.2.toNat ≤ tcpBufferSize
  tiles : Tiles 0 (chunks.map place) n
  total : (chunks.map fun chunk => chunk.2.toNat).sum = n
  /-- The receive loop waits for as many. -/
  counted : ∀ file : FileInfo, file.size.toInt = n → totalChunks file = chunks.length
  /-- The reader task is handed these chunks. -/
  planned : ∀ file, chunkPlan file n = chunks.map fun chunk =>
    ⟨file, chunk.2.toNat, chunk.1.toNat⟩

theorem chunkPlan_eq (file n : ℕ) : chunkPlan file n =
    (piecesFrom tcpBufferSize n 0).map fun p => ⟨file, p.2, p.1⟩ := by
  rw [chunkPlan, piecesFrom, List.map_map, Nat.sub_zero, ← List.range_eq_range']
  apply List.map_congr_left
  intro k _
  simp only [Function.comp, FileChunkInfo.mk.injEq, true_and, and_true]
  split <;> omega

/-- `send_file` cuts every file into consecutive chunks, and the receive loop counts as many. -/
theorem sendChunks_coversFile (fileSize : UInt64) (hfile : fileSize.toNat < 2 ^ 63) :
    ∃ chunks, sendChunks fileSize = some chunks ∧ CoversFile fileSize.toNat chunks := by
  have hpos : 0 < tcpBufferSize := by decide
  have hzero : (0 : UInt64).toNat = 0 * tcpBufferSize := by simp
  obtain ⟨chunks, hchunks, hmap⟩ := mapM_stepBy hfile hzero
  have hlen : chunks.length = pieceCount tcpBufferSize fileSize.toNat := by
    rw [← List.length_map place, hmap, piecesFrom, List.length_map, List.length_range',
      Nat.sub_zero]
  have htiles : Tiles 0 (chunks.map place) fileSize.toNat := by
    have h := tiles_piecesFrom hpos fileSize.toNat 0
    rwa [← hmap, Nat.zero_mul, Nat.zero_min] at h
  refine ⟨chunks, hchunks, fun k hk => ?_, fun chunk hchunk => ?_, htiles, ?_, fun file hsize => ?_,
    fun file => ?_⟩
  · have hget : (chunks.map place)[k]?.map Prod.fst = some (k * tcpBufferSize) := by
      rw [hmap, piecesFrom, List.getElem?_map, List.getElem?_range' (by omega), Option.map_map]
      simp
    rwa [List.getElem?_map, Option.map_map] at hget
  · have hmem : place chunk ∈ piecesFrom tcpBufferSize fileSize.toNat 0 :=
      hmap ▸ List.mem_map_of_mem hchunk
    obtain ⟨j, hj, hplace⟩ := List.mem_map.mp hmem
    have hj : j < pieceCount tcpBufferSize fileSize.toNat := by
      simpa using hj
    have hlt := (lt_pieceCount hpos).mp hj
    have hsize : min tcpBufferSize (fileSize.toNat - j * tcpBufferSize) = chunk.2.toNat :=
      congrArg Prod.snd hplace
    omega
  · have h := htiles.sum_eq
    rwa [Nat.zero_add, List.map_map] at h
  · rw [totalChunks, hsize, divCeil_eq_pieceCount, hlen]
  · rw [chunkPlan_eq, ← hmap, List.map_map]
    rfl

theorem coversFile_twoChunks : (100000 : UInt64).toNat < 2 ^ 63 ∧
    ∃ chunks, sendChunks 100000 = some chunks ∧ CoversFile 100000 chunks :=
  ⟨by decide, sendChunks_coversFile 100000 (by decide)⟩

end Croc
