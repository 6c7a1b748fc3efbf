import Croc.Lib.Path
import Croc.Lib.Pieces
import Croc.Proto.CrocEnc
import Croc.Proto.CrocMsg

/-! The file tasks of a session: the jobs they are handed, and the chunks that travel. -/
namespace Croc
open Lib

def tcpBufferSize : ℕ := 1024 * 64

/-- A chunk to read. `file` is the index of the source file. -/
structure FileChunkInfo where
  file : ℕ
  chunkSize : ℕ
  chunkOffset : ℕ
  deriving DecidableEq

/-- The chunks of `send_file` for a file of `size` bytes. -/
def chunkPlan (file size : ℕ) : List FileChunkInfo :=
  (List.range (pieceCount tcpBufferSize size)).map fun k =>
    let chunkOffset := k * tcpBufferSize
    ⟨file, if chunkOffset + tcpBufferSize > size then size - chunkOffset else tcpBufferSize,
      chunkOffset⟩

/-- `i64::div_ceil`. -/
def divCeil (n d : ℤ) : ℤ :=
  let q := n.tdiv d
  let r := n.tmod d
  if (0 < r ∧ 0 < d) ∨ (r < 0 ∧ d < 0) then q + 1 else q

/-- The number of frames that the receive loop waits for. -/
def totalChunks (file : FileInfo) : ℤ := divCeil file.size.toInt tcpBufferSize

/-- The plain text of a chunk: its offset and its bytes. -/
def chunkBuffer (offset : ℕ) (chunk : Bytes) : Bytes := leBytes 8 offset ++ chunk

/-- A frame on the data connection. `origin` is not on the wire: it is the source file that a
reader task took the bytes from, if one did. -/
structure DataFrame where
  payload : Bytes
  origin : Option ℕ
  deriving DecidableEq

/-- A spawned task that encrypts a chunk and sends it. -/
structure EncryptJob where
  enc : EncryptedSession
  file : ℕ
  buffer : Bytes
  deriving DecidableEq

/-- A spawned task that decrypts a frame and writes it to the `dest`-th destination file. -/
structure WriteJob where
  enc : EncryptedSession
  dest : ℕ
  loc : Location
  frame : DataFrame
  deriving DecidableEq

/-- What a writer task has put into a destination file. -/
structure Written where
  dest : ℕ
  origin : Option ℕ
  offset : ℕ
  data : Bytes
  deriving DecidableEq

/-- The reader task of a `CrocFsInterface`. -/
structure ReaderTask where
  enc : EncryptedSession
  queue : List FileChunkInfo
  ended : Bool
  deriving DecidableEq

/-- The two channels of a `CrocFsInterface`; `id` is the number of its reader task. -/
structure FsInterface where
  id : ℕ
  enc : EncryptedSession
  deriving DecidableEq

/-- A writer task opens a frame and takes the offset off. -/
def openChunk (X : External) (enc : EncryptedSession) (payload : Bytes) :
    Except Halt (ℕ × Bytes) := do
  let data ← enc.encryptor.decrypt X payload
  if data.length < 8 then throw (.panic .offsetSlice)
  return (leNat (data.take 8), data.drop 8)

theorem openChunk_of_decrypt {X : External} {enc : EncryptedSession} {payload chunk : Bytes}
    {offset : ℕ} (hoff : offset < 256 ^ 8)
    (h : enc.encryptor.decrypt X payload = .ok (chunkBuffer offset chunk)) :
    openChunk X enc payload = .ok (offset, chunk) := by
  have hlen : (leBytes 8 offset).length = 8 := leBytes_length 8 offset
  have hge : ¬ (chunkBuffer offset chunk).length < 8 := by
    rw [chunkBuffer, List.length_append, hlen]
    omega
  have htake : (chunkBuffer offset chunk).take 8 = leBytes 8 offset := List.take_left' hlen
  have hdrop : (chunkBuffer offset chunk).drop 8 = chunk := List.drop_left' hlen
  simp only [openChunk, h, bind, Except.bind, if_neg hge, htake, hdrop, leNat_leBytes hoff]
  rfl

theorem chunkPlan_length (file size : ℕ) :
    (chunkPlan file size).length = pieceCount tcpBufferSize size := by
  rw [chunkPlan, List.length_map, List.length_range]

theorem file_of_mem_chunkPlan {file size : ℕ} {info : FileChunkInfo}
    (h : info ∈ chunkPlan file size) : info.file = file := by
  obtain ⟨k, -, rfl⟩ := List.mem_map.mp h
  rfl

/-- For a size that is not negative, the two ends count the same chunks. -/
theorem divCeil_eq_pieceCount (n : ℕ) : divCeil n tcpBufferSize = pieceCount tcpBufferSize n := by
  have hd : Int.tdiv (n : ℤ) (tcpBufferSize : ℤ) = ((n / tcpBufferSize : ℕ) : ℤ) := rfl
  have hm : Int.tmod (n : ℤ) (tcpBufferSize : ℤ) = ((n % tcpBufferSize : ℕ) : ℤ) := rfl
  unfold divCeil pieceCount
  simp only [hd, hm]
  unfold tcpBufferSize
  split <;> omega

end Croc
