import Croc.Session.Runs

/-! The tasks that `fs_writer_task` spawns, one for each frame. -/
namespace Croc
open Lib

/-- How a task that `fs_writer_task` has spawned ends. -/
inductive WriterEnd where
  | finished
  | logged (e : Error)
  | panicked (p : Panic)
  deriving DecidableEq

/-- A spawned task: its session, the place of its file, and its frame. -/
structure WriterTask where
  enc : EncryptedSession
  loc : Location
  payload : Bytes
  deriving DecidableEq

def WriteJob.task (job : WriteJob) : WriterTask := ⟨job.enc, job.loc, job.frame.payload⟩

/-- A task that has ended, and the bytes that it has written at an offset. -/
structure WriterRun where
  task : WriterTask
  ending : WriterEnd
  offset : ℕ
  data : Bytes
  deriving DecidableEq

/-- The file after the task. -/
def WriterRun.writeTo (run : WriterRun) (content : Bytes) : Bytes :=
  writeAt 0 content run.offset run.data

/-- What becomes of a write: how many bytes reach the file, and whether `write_all` succeeds. It
returns before the bytes are written, so that the next task may be told of a failure. -/
structure WriteAnswer where
  done : ℕ
  ok : Bool
  deriving DecidableEq

/-- A spawned task from the frame that it is given to its end. `seeks` is whether the operating
system can seek to an offset of a file. -/
def runWriter (X : External) (seeks : Location → ℕ → Bool) (task : WriterTask)
    (answer : WriteAnswer) : WriterRun :=
  match task.enc.encryptor.decrypt X task.payload with
  | .error (.err e) => ⟨task, .logged e, 0, []⟩
  | .error (.panic p) => ⟨task, .panicked p, 0, []⟩
  | .ok data =>
    if data.length < 8 then ⟨task, .panicked .offsetSlice, 0, []⟩
    else
      let offset := leNat (data.take 8)
      let chunk := data.drop 8
      -- the operating system takes the offset for an `i64`
      if 2 ^ 63 ≤ offset ∨ seeks task.loc offset = false then
        ⟨task, .panicked .seekUnwrap, 0, []⟩
      -- of an empty chunk nothing is written
      else if answer.ok = false ∧ chunk ≠ [] then
        ⟨task, .panicked .writeUnwrap, offset, chunk.take answer.done⟩
      else ⟨task, .finished, offset, chunk.take answer.done⟩

/-- Every byte of `data`, written at `offset`, is inside a file of `size` bytes. -/
def FitsIn (size offset : ℕ) (data : Bytes) : Prop := data = [] ∨ offset + data.length ≤ size

/-- If the frame opens to a chunk, its bytes end inside a file of `size` bytes, or it has none and
its task can seek to the offset. -/
def Placed (X : External) (seeks : Location → ℕ → Bool) (size : ℕ) (task : WriterTask) : Prop :=
  ∀ offset data, openChunk X task.enc task.payload = .ok (offset, data) →
    offset + data.length ≤ size ∨ data = [] ∧ offset < 2 ^ 63 ∧ seeks task.loc offset = true

section Task
variable {X : External} {seeks : Location → ℕ → Bool} {task : WriterTask} {answer : WriteAnswer}
  {enc : EncryptedSession} {payload : Bytes}

theorem openChunk_ok {offset : ℕ} {data : Bytes} :
    openChunk X enc payload = .ok (offset, data) ↔ ∃ plain,
      enc.encryptor.decrypt X payload = .ok plain ∧ ¬ plain.length < 8 ∧
        offset = leNat (plain.take 8) ∧ data = plain.drop 8 := by
  simp only [openChunk, bind_eq_ok]
  constructor
  · rintro ⟨plain, hplain, h⟩
    refine ⟨plain, hplain, ?_⟩
    split at h
    · simp [throw, throwThe, MonadExceptOf.throw] at h
    next hlen =>
      obtain ⟨rfl, rfl⟩ := Prod.mk.inj (Except.ok.inj h)
      exact ⟨hlen, rfl, rfl⟩
  · rintro ⟨plain, hplain, hlen, rfl, rfl⟩
    exact ⟨plain, hplain, by rw [if_neg hlen]; rfl⟩

/-- A task that is given a chunk seeks, writes, and does not look at the size. -/
theorem runWriter_of_openChunk {offset : ℕ} {data : Bytes}
    (h : openChunk X task.enc task.payload = .ok (offset, data)) :
    runWriter X seeks task answer =
      if 2 ^ 63 ≤ offset ∨ seeks task.loc offset = false then ⟨task, .panicked .seekUnwrap, 0, []⟩
      else if answer.ok = false ∧ data ≠ [] then
        ⟨task, .panicked .writeUnwrap, offset, data.take answer.done⟩
      else ⟨task, .finished, offset, data.take answer.done⟩ := by
  obtain ⟨plain, hplain, hlen, rfl, rfl⟩ := openChunk_ok.mp h
  simp only [runWriter, hplain, if_neg hlen]

/-- A task that is given no chunk writes nothing. -/
theorem runWriter_data_of_error {e : Halt}
    (h : openChunk X task.enc task.payload = .error e) :
    (runWriter X seeks task answer).data = [] := by
  unfold runWriter
  split
  · rfl
  · rfl
  next plain hplain =>
    have hlen : plain.length < 8 := by
      by_contra hlen
      simp [openChunk_ok.mpr ⟨plain, hplain, hlen, rfl, rfl⟩] at h
    rw [if_pos hlen]

@[simp] theorem runWriter_task : (runWriter X seeks task answer).task = task := by
  unfold runWriter
  split
  · rfl
  · rfl
  · dsimp only
    repeat' split
    all_goals rfl

theorem FitsIn.take {size offset : ℕ} {data : Bytes} (h : FitsIn size offset data) (n : ℕ) :
    FitsIn size offset (data.take n) := by
  rcases h with rfl | h
  · exact .inl List.take_nil
  · refine .inr ?_
    rw [List.length_take]
    omega

/-- What a task does with a frame that is placed. -/
theorem Placed.runWriter {size : ℕ} (h : Placed X seeks size task) (answer : WriteAnswer) :
    FitsIn size (runWriter X seeks task answer).offset (runWriter X seeks task answer).data ∧
    ∀ offset data, openChunk X task.enc task.payload = .ok (offset, data) →
      size < offset + data.length → (runWriter X seeks task answer).data = [] ∧
        ∀ p, (runWriter X seeks task answer).ending ≠ .panicked p := by
  cases hopen : openChunk X task.enc task.payload with
  | error e =>
    exact ⟨.inl (runWriter_data_of_error hopen), fun offset data h => nomatch h⟩
  | ok chunk =>
    obtain ⟨offset, data⟩ := chunk
    have hplaced := h offset data hopen
    have hfits : FitsIn size offset data := hplaced.symm.imp_left And.left
    rw [runWriter_of_openChunk hopen]
    constructor
    · split
      · exact .inl rfl
      · split
        · exact hfits.take _
        · exact hfits.take _
    · rintro offset' data' h hlt
      obtain ⟨rfl, rfl⟩ := Prod.mk.inj (Except.ok.inj h)
      obtain ⟨rfl, hseek, hseeks⟩ := hplaced.resolve_left (by omega)
      rw [if_neg (by simp [hseeks]; omega), if_neg (by simp)]
      exact ⟨List.take_nil, fun p => nofun⟩

/-- Nothing is out of place that a task rejects when all of its bytes could reach the file. -/
theorem placed_of_runWriter {size : ℕ}
    (h : ∀ answer offset data, openChunk X task.enc task.payload = .ok (offset, data) →
      size < offset + data.length → (runWriter X seeks task answer).data = [] ∧
        ∀ p, (runWriter X seeks task answer).ending ≠ .panicked p) :
    Placed X seeks size task := by
  intro offset data hopen
  refine (Nat.lt_or_ge size (offset + data.length)).symm.imp id fun hlt => ?_
  obtain ⟨hdata, hpanic⟩ := h ⟨data.length, true⟩ offset data hopen hlt
  rw [runWriter_of_openChunk hopen] at hdata hpanic
  by_cases hseek : 2 ^ 63 ≤ offset ∨ seeks task.loc offset = false
  · rw [if_pos hseek] at hpanic
    exact absurd rfl (hpanic _)
  · rw [if_neg hseek, if_neg (by simp)] at hdata
    simp only [List.take_length] at hdata
    simp only [not_or, Bool.not_eq_false, not_le] at hseek
    exact ⟨hdata, hseek⟩

end Task

end Croc
