import Croc.Session.Writer

/-! The receive loop, which creates the files of an offer and counts their frames, with the writer
tasks of all of them. -/
namespace Croc
open Lib

/-- The length that `set_len(size as u64)` gives to the file. That of a negative size is refused,
and no chunk is read then. -/
def FileInfo.fileLength (file : FileInfo) : ℕ := file.size.toInt.toNat

theorem FileInfo.fileLength_eq {file : FileInfo} (h : file.size.toUInt64.toNat < 2 ^ 63) :
    0 ≤ file.size ∧ file.size.toUInt64.toNat = file.fileLength := by
  have hcond : file.size.toInt = _ := BitVec.toInt_eq_toNat_cond file.size.toBitVec
  have hnat : file.size.toBitVec.toNat = file.size.toUInt64.toNat := rfl
  rw [hnat, if_pos (by omega)] at hcond
  refine ⟨Int64.le_iff_toInt_le.mpr ?_, ?_⟩
  · rw [hcond]
    exact Int.natCast_nonneg _
  · rw [fileLength, hcond, Int.toNat_natCast]

/-- An entry whose file the receive loop creates: the place that its path leads to, the session
that opens its chunks, and whether the operating system gives the file its length. -/
structure Destination where
  file : FileInfo
  loc : Location
  enc : EncryptedSession
  sized : Bool
  deriving DecidableEq

/-- `set_len` succeeds, and the loop goes on to request the file. -/
def Destination.opens (d : Destination) : Bool := d.sized && decide (0 ≤ d.file.size)

/-- How many frames the loop takes for the file. -/
def Destination.chunks (d : Destination) : ℕ := (totalChunks d.file).toNat

def Destination.task (d : Destination) (payload : Bytes) : WriterTask := ⟨d.enc, d.loc, payload⟩

/-- A task that has ended, and the announced size of the file that it found at its place. -/
structure Ended extends WriterRun where
  size : ℕ
  deriving DecidableEq

/-- The receive loop: the files, the entries that are still to come, the one that is received with
its `current_amount`, the payloads that are still to be read from the data connection, the tasks
that have not run yet, and those that have. `holder` is the entry that the file at a place has been
created for last. -/
structure Receiving where
  disk : Location → Bytes
  entries : List Destination
  current : Option (Destination × ℕ)
  frames : List Bytes
  tasks : List WriterTask
  runs : List Ended
  holder : Location → Option Destination

inductive ReceivingEvent where
  /-- `File::create` for the next entry, which truncates, and `set_len`. -/
  | create
  /-- The receive loop hands a frame to the writer, which spawns a task for it. -/
  | take
  /-- The receive loop is done with a file, or the data connection has ended. -/
  | leave
  /-- A task gets hold of its file, and runs to its end. -/
  | run (k : ℕ) (answer : WriteAnswer)

namespace Receiving

def start (disk : Location → Bytes) (entries : List Destination) (frames : List Bytes) :
    Receiving :=
  ⟨disk, entries, none, frames, [], [], fun _ => none⟩

/-- The announced size of the file at a place. -/
def sizeAt (s : Receiving) (loc : Location) : ℕ :=
  ((s.holder loc).map fun d => d.file.fileLength).getD 0

/-- The file of the next entry is created; where it does not get its length, the loop ends. -/
def create (s : Receiving) (d : Destination) (entries : List Destination) : Receiving :=
  { s with
    disk := Function.update s.disk d.loc
      (if d.opens then List.replicate d.file.fileLength 0 else [])
    entries := if d.opens then entries else []
    current := if d.opens then some (d, 0) else none
    holder := Function.update s.holder d.loc (some d) }

/-- A frame is taken for the current file. -/
def take (s : Receiving) (d : Destination) (amount : ℕ) (payload : Bytes) (frames : List Bytes) :
    Receiving :=
  { s with
    current := some (d, amount + 1)
    frames := frames
    tasks := s.tasks ++ [d.task payload] }

def leave (s : Receiving) : Receiving := { s with current := none }

variable (X : External) (seeks : Location → ℕ → Bool)

/-- The `k`-th task that waits runs. -/
def run (s : Receiving) (k : ℕ) (task : WriterTask) (answer : WriteAnswer) : Receiving :=
  { s with
    disk := Function.update s.disk task.loc
      ((runWriter X seeks task answer).writeTo (s.disk task.loc))
    tasks := s.tasks.eraseIdx k
    runs := s.runs ++ [⟨runWriter X seeks task answer, s.sizeAt task.loc⟩] }

def step (s : Receiving) : ReceivingEvent → Option Receiving
  | .create =>
    match s.current, s.entries with
    | none, d :: entries => some (s.create d entries)
    | _, _ => none
  | .take =>
    match s.current, s.frames with
    | some (d, amount), payload :: frames =>
      if (amount : ℤ) < totalChunks d.file then some (s.take d amount payload frames) else none
    | _, _ => none
  | .leave =>
    match s.current with
    | some (d, amount) =>
      if totalChunks d.file ≤ amount ∨ s.frames = [] then some s.leave else none
    | none => none
  | .run k answer => (s.tasks[k]?).map fun task => s.run X seeks k task answer

def machine (disk : Location → Bytes) (entries : List Destination) (frames : List Bytes) :
    Machine Receiving ReceivingEvent :=
  ⟨start disk entries frames, step X seeks⟩

/-- The entries that the loop gets to: up to the first whose file does not get its length. -/
def reached : List Destination → List Destination
  | [] => []
  | d :: entries => d :: if d.opens then reached entries else []

/-- The tasks of the frames that the loop may take. With each stand the entries that the loop may
have got to when the task runs, from its own on. -/
def handed : List Destination → List Bytes → List (WriterTask × List Destination)
  | [], _ => []
  | d :: entries, frames =>
    if d.opens then
      ((frames.take d.chunks).map fun payload => (d.task payload, reached (d :: entries))) ++
        handed entries (frames.drop d.chunks)
    else []

end Receiving

/-- The files have the lengths that they were announced with, every byte that was written to one is
inside, and a chunk that does not end inside is rejected without a panic. -/
structure KeepsToFile (X : External) (s : Receiving) : Prop where
  length : ∀ loc d, s.holder loc = some d → d.opens → (s.disk loc).length = d.file.fileLength
  inside : ∀ run ∈ s.runs, FitsIn run.size run.offset run.data
  rejects : ∀ run ∈ s.runs, ∀ offset data,
    openChunk X run.task.enc run.task.payload = .ok (offset, data) →
    run.size < offset + data.length → run.data = [] ∧ ∀ p, run.ending ≠ .panicked p

namespace Receiving
variable {X : External} {seeks : Location → ℕ → Bool} {disk : Location → Bytes}
  {entries : List Destination} {frames : List Bytes} {s s' : Receiving} {d : Destination}

section Steps

@[simp] theorem create_holder (rest : List Destination) :
    (s.create d rest).holder = Function.update s.holder d.loc (some d) := rfl

@[simp] theorem create_disk (rest : List Destination) :
    (s.create d rest).disk = Function.update s.disk d.loc
      (if d.opens then List.replicate d.file.fileLength 0 else []) := rfl

@[simp] theorem run_disk (k : ℕ) (task : WriterTask) (answer : WriteAnswer) :
    (s.run X seeks k task answer).disk = Function.update s.disk task.loc
      ((runWriter X seeks task answer).writeTo (s.disk task.loc)) := rfl

@[simp] theorem run_holder (k : ℕ) (task : WriterTask) (answer : WriteAnswer) :
    (s.run X seeks k task answer).holder = s.holder := rfl

theorem sizeAt_of_holder {loc : Location} (h : s.holder loc = some d) :
    s.sizeAt loc = d.file.fileLength := by
  rw [sizeAt, h]
  rfl

theorem step_create : s.step X seeks .create = some s' ↔
    ∃ d rest, s.current = none ∧ s.entries = d :: rest ∧ s' = s.create d rest := by
  constructor
  · intro h
    simp only [step] at h
    split at h
    next d rest hcurrent hentries =>
      exact ⟨d, rest, hcurrent, hentries, (Option.some.inj h).symm⟩
    next => nomatch h
  · rintro ⟨d, rest, hcurrent, hentries, rfl⟩
    simp only [step, hcurrent, hentries]

theorem step_take : s.step X seeks .take = some s' ↔
    ∃ d amount payload rest, s.current = some (d, amount) ∧ s.frames = payload :: rest ∧
      (amount : ℤ) < totalChunks d.file ∧ s' = s.take d amount payload rest := by
  constructor
  · intro h
    simp only [step] at h
    split at h
    next d amount payload rest hcurrent hframes =>
      obtain ⟨hlt, hs'⟩ := Option.ite_none_right_eq_some.mp h
      exact ⟨d, amount, payload, rest, hcurrent, hframes, hlt, (Option.some.inj hs').symm⟩
    next => nomatch h
  · rintro ⟨d, amount, payload, rest, hcurrent, hframes, hlt, rfl⟩
    simp only [step, hcurrent, hframes, if_pos hlt]

theorem step_leave : s.step X seeks .leave = some s' ↔ ∃ d amount,
    s.current = some (d, amount) ∧ (totalChunks d.file ≤ amount ∨ s.frames = []) ∧
      s' = s.leave := by
  constructor
  · intro h
    simp only [step] at h
    split at h
    next d amount hcurrent =>
      obtain ⟨hdone, hs'⟩ := Option.ite_none_right_eq_some.mp h
      exact ⟨d, amount, hcurrent, hdone, (Option.some.inj hs').symm⟩
    next => nomatch h
  · rintro ⟨d, amount, hcurrent, hdone, rfl⟩
    simp only [step, hcurrent, if_pos hdone]

end Steps

/-- What the loop may still hand over, with the entries as in `handed`. -/
def pending (s : Receiving) : List (WriterTask × List Destination) :=
  match s.current with
  | none => handed s.entries s.frames
  | some (d, amount) =>
    ((s.frames.take (d.chunks - amount)).map fun payload =>
        (d.task payload, d :: reached s.entries)) ++
      handed s.entries (s.frames.drop (d.chunks - amount))

/-- Where the tasks come from, and whose file they find at their place. -/
structure Traced (X : External) (seeks : Location → ℕ → Bool) (entries : List Destination)
    (frames : List Bytes) (s : Receiving) : Prop where
  pending : ∀ x ∈ s.pending, x ∈ handed entries frames
  placed : ∀ loc d, s.holder loc = some d → d.loc = loc
  current : ∀ d amount, s.current = some (d, amount) → s.holder d.loc = some d
  tasks : ∀ task ∈ s.tasks, ∃ later, (task, later) ∈ handed entries frames ∧
    (∃ d ∈ later, s.holder task.loc = some d) ∧ ∀ d ∈ reached s.entries, d ∈ later
  runs : ∀ run ∈ s.runs, ∃ later answer, (run.task, later) ∈ handed entries frames ∧
    run.toWriterRun = runWriter X seeks run.task answer ∧
    ∃ d ∈ later, d.loc = run.task.loc ∧ run.size = d.file.fileLength

theorem Traced.start (disk : Location → Bytes) :
    Traced X seeks entries frames (start disk entries frames) where
  pending _ h := h
  placed _ _ h := nomatch h
  current _ _ h := nomatch h
  tasks _ h := nomatch h
  runs _ h := nomatch h

theorem reached_cons : reached (d :: entries) = d :: if d.opens then reached entries else [] := rfl

/-- The next file is created: of the tasks that wait, those of its place find it there. -/
theorem Traced.create (h : Traced X seeks entries frames s) {rest : List Destination}
    (hcurrent : s.current = none) (hentries : s.entries = d :: rest) :
    Traced X seeks entries frames (s.create d rest) where
  pending := by
    intro x hx
    apply h.pending
    rw [Receiving.pending, hcurrent, hentries, handed]
    cases ho : d.opens with
    | false => simp [ho, Receiving.pending, Receiving.create, handed] at hx
    | true => simpa [ho, Receiving.pending, Receiving.create, reached_cons] using hx
  placed loc e he := by
    by_cases hl : loc = d.loc
    · rw [hl, create_holder, Function.update_self] at he
      rw [hl, ← Option.some.inj he]
    · rw [create_holder, Function.update_of_ne hl] at he
      exact h.placed loc e he
  current e amount he := by
    simp only [Receiving.create] at he
    split at he
    next =>
      obtain ⟨rfl, -⟩ := Prod.mk.inj (Option.some.inj he)
      exact Function.update_self ..
    next => nomatch he
  tasks task htask := by
    obtain ⟨later, hmem, ⟨e, he, hholder⟩, hlater⟩ := h.tasks task htask
    rw [hentries, reached_cons] at hlater
    refine ⟨later, hmem, ?_, fun e he => hlater e (List.mem_cons_of_mem _ ?_)⟩
    · rw [create_holder]
      by_cases hl : task.loc = d.loc
      · exact ⟨d, hlater d List.mem_cons_self, by rw [hl, Function.update_self]⟩
      · exact ⟨e, he, by rw [Function.update_of_ne hl, hholder]⟩
    · simp only [Receiving.create] at he
      split at he
      next ho => rwa [if_pos ho]
      next => nomatch he
  runs := h.runs

/-- The loop takes a frame for the file that it has created last. -/
theorem Traced.take (h : Traced X seeks entries frames s) {amount : ℕ} {payload : Bytes}
    {rest : List Bytes} (hcurrent : s.current = some (d, amount))
    (hframes : s.frames = payload :: rest) (hlt : (amount : ℤ) < totalChunks d.file) :
    Traced X seeks entries frames (s.take d amount payload rest) := by
  have hleft : d.chunks - amount = d.chunks - (amount + 1) + 1 := by
    unfold Destination.chunks
    omega
  have hpending : s.pending =
      (d.task payload, d :: reached s.entries) :: (s.take d amount payload rest).pending := by
    simp [Receiving.pending, Receiving.take, hcurrent, hframes, hleft]
  refine ⟨fun x hx => h.pending x ?_, h.placed, fun e n he => ?_, fun task htask => ?_, h.runs⟩
  · rw [hpending]
    exact List.mem_cons_of_mem _ hx
  · obtain ⟨rfl, -⟩ := Prod.mk.inj (Option.some.inj he)
    exact h.current d amount hcurrent
  · rcases List.mem_append.mp htask with htask | htask
    · exact h.tasks task htask
    · rw [List.mem_singleton.mp htask]
      refine ⟨d :: reached s.entries, h.pending _ ?_, ⟨d, List.mem_cons_self, ?_⟩,
        fun e he => List.mem_cons_of_mem _ he⟩
      · rw [hpending]
        exact List.mem_cons_self
      · exact h.current d amount hcurrent

theorem Traced.leave (h : Traced X seeks entries frames s) {amount : ℕ}
    (hcurrent : s.current = some (d, amount))
    (hdone : totalChunks d.file ≤ amount ∨ s.frames = []) :
    Traced X seeks entries frames s.leave := by
  refine ⟨fun x hx => h.pending x ?_, h.placed, fun _ _ he => (nomatch he), h.tasks, h.runs⟩
  rw [Receiving.pending, hcurrent]
  refine List.mem_append_right _ ?_
  rcases hdone with hdone | hdone
  · have hzero : d.chunks - amount = 0 := by
      unfold Destination.chunks
      omega
    rwa [hzero, List.drop_zero]
  · simp only [Receiving.pending, Receiving.leave, hdone] at hx
    rwa [hdone, List.drop_nil]

/-- The size that a task finds is that of one of the entries that stand with it. -/
theorem Traced.sizeAt (h : Traced X seeks entries frames s) {task : WriterTask}
    (htask : task ∈ s.tasks) : ∃ later, (task, later) ∈ handed entries frames ∧
      ∃ d ∈ later, d.loc = task.loc ∧ s.holder task.loc = some d ∧
        s.sizeAt task.loc = d.file.fileLength := by
  obtain ⟨later, hmem, ⟨d, hd, hholder⟩, -⟩ := h.tasks task htask
  exact ⟨later, hmem, d, hd, h.placed _ d hholder, hholder, sizeAt_of_holder hholder⟩

theorem Traced.run (h : Traced X seeks entries frames s) {k : ℕ} {task : WriterTask}
    (htask : s.tasks[k]? = some task) (answer : WriteAnswer) :
    Traced X seeks entries frames (s.run X seeks k task answer) := by
  refine ⟨h.pending, h.placed, h.current,
    fun t ht => h.tasks t (List.mem_of_mem_eraseIdx ht), fun run hrun => ?_⟩
  rcases List.mem_append.mp hrun with hrun | hrun
  · exact h.runs run hrun
  · obtain ⟨later, hmem, d, hd, hloc, -, hsize⟩ := h.sizeAt (List.mem_of_getElem? htask)
    rw [List.mem_singleton.mp hrun]
    refine ⟨later, answer, ?_, ?_, d, hd, ?_, hsize⟩
    · rwa [runWriter_task]
    · rw [runWriter_task]
    · rwa [runWriter_task]

theorem Traced.step {e : ReceivingEvent} (h : Traced X seeks entries frames s)
    (he : s.step X seeks e = some s') : Traced X seeks entries frames s' := by
  cases e with
  | create =>
    obtain ⟨d, rest, hcurrent, hentries, rfl⟩ := step_create.mp he
    exact h.create hcurrent hentries
  | take =>
    obtain ⟨d, amount, payload, rest, hcurrent, hframes, hlt, rfl⟩ := step_take.mp he
    exact h.take hcurrent hframes hlt
  | leave =>
    obtain ⟨d, amount, hcurrent, hdone, rfl⟩ := step_leave.mp he
    exact h.leave hcurrent hdone
  | run k answer =>
    obtain ⟨task, htask, rfl⟩ := Option.map_eq_some_iff.mp he
    exact h.run htask answer

theorem reachable_traced (hs : (machine X seeks disk entries frames).Reachable s) :
    Traced X seeks entries frames s :=
  hs.invariant (P := Traced X seeks entries frames) (Traced.start disk)
    fun _ _ _ _ h he => h.step he

end Receiving

section Keeps
open Receiving
variable {X : External} {seeks : Location → ℕ → Bool} {disk : Location → Bytes}
  {entries : List Destination} {frames : List Bytes} {s : Receiving} {d : Destination}

theorem KeepsToFile.start : KeepsToFile X (start disk entries frames) where
  length _ _ h := nomatch h
  inside _ h := nomatch h
  rejects _ h := nomatch h

/-- A file that gets its length has it, and the other files are what they were. -/
theorem KeepsToFile.create (h : KeepsToFile X s) (rest : List Destination) :
    KeepsToFile X (s.create d rest) where
  length loc e he hopens := by
    rw [create_holder] at he
    rw [create_disk]
    by_cases hl : loc = d.loc
    · rw [hl, Function.update_self] at he
      obtain rfl := Option.some.inj he
      rw [hl, Function.update_self, if_pos hopens, List.length_replicate]
    · rw [Function.update_of_ne hl] at he
      rw [Function.update_of_ne hl]
      exact h.length loc e he hopens
  inside := h.inside
  rejects := h.rejects

/-- The end of a task keeps the files, if its frame is placed in the file that it finds. -/
theorem KeepsToFile.run (h : KeepsToFile X s) {task : WriterTask} {answer : WriteAnswer}
    (hplaced : Placed X seeks (s.sizeAt task.loc) task) (k : ℕ) :
    KeepsToFile X (s.run X seeks k task answer) where
  length loc d hd hopens := by
    rw [run_holder] at hd
    rw [run_disk]
    by_cases hl : loc = task.loc
    · subst hl
      have hlen := h.length _ d hd hopens
      have hinside : FitsIn (s.sizeAt task.loc) (runWriter X seeks task answer).offset
          (runWriter X seeks task answer).data := (hplaced.runWriter answer).1
      rw [Function.update_self, WriterRun.writeTo]
      rcases hinside with hempty | hfits
      · rw [hempty]
        exact hlen
      · have hsize := sizeAt_of_holder hd
        rw [length_writeAt (by omega), hlen]
    · rw [Function.update_of_ne hl]
      exact h.length loc d hd hopens
  inside := by
    rintro run hrun
    rcases List.mem_append.mp hrun with hrun | hrun
    · exact h.inside run hrun
    · rw [List.mem_singleton.mp hrun]
      exact (hplaced.runWriter answer).1
  rejects := by
    rintro run hrun
    rcases List.mem_append.mp hrun with hrun | hrun
    · exact h.rejects run hrun
    · rw [List.mem_singleton.mp hrun, runWriter_task]
      exact (hplaced.runWriter answer).2

/-- While every frame that the loop may take has its place in whatever it may find there, the files
are kept. -/
theorem keepsToFile_of_placed
    (hplaced : ∀ x ∈ handed entries frames, ∀ d ∈ x.2, d.loc = x.1.loc →
      Placed X seeks d.file.fileLength x.1)
    (hs : (machine X seeks disk entries frames).Reachable s) : KeepsToFile X s := by
  have hboth : Traced X seeks entries frames s ∧ KeepsToFile X s := by
    refine hs.invariant (P := fun s => Traced X seeks entries frames s ∧ KeepsToFile X s)
      ⟨Traced.start disk, KeepsToFile.start⟩ ?_
    rintro s e s' - ⟨htraced, hkeeps⟩ he
    refine ⟨htraced.step he, ?_⟩
    replace he : s.step X seeks e = some s' := he
    cases e with
    | create =>
      obtain ⟨d, rest, -, -, rfl⟩ := step_create.mp he
      exact hkeeps.create rest
    | take =>
      obtain ⟨d, amount, payload, rest, -, -, -, rfl⟩ := step_take.mp he
      exact ⟨hkeeps.length, hkeeps.inside, hkeeps.rejects⟩
    | leave =>
      obtain ⟨d, amount, -, -, rfl⟩ := step_leave.mp he
      exact ⟨hkeeps.length, hkeeps.inside, hkeeps.rejects⟩
    | run k answer =>
      obtain ⟨task, htask, rfl⟩ := Option.map_eq_some_iff.mp he
      obtain ⟨later, hmem, d, hd, hloc, -, hsize⟩ := htraced.sizeAt (List.mem_of_getElem? htask)
      apply hkeeps.run
      rw [hsize]
      exact hplaced _ hmem d hd hloc
  exact hboth.2

end Keeps

namespace Receiving
variable {X : External} {seeks : Location → ℕ → Bool} {disk : Location → Bytes}
  {entries : List Destination} {frames : List Bytes} {d : Destination}
  {content : Location → Bytes} {later : List Destination} {unread : List Bytes}
  {tasks : List WriterTask} {runs : List Ended} {holder : Location → Option Destination}

/-- The loop takes all the frames of a file that there are, before any task runs. -/
theorem exists_taken {n : ℕ} (hs : (machine X seeks disk entries frames).Reachable
      ⟨content, later, some (d, n), unread, tasks, runs, holder⟩) :
    ∃ m : ℕ, (totalChunks d.file ≤ m ∨ unread.drop (d.chunks - n) = []) ∧
      (machine X seeks disk entries frames).Reachable
        ⟨content, later, some (d, m), unread.drop (d.chunks - n),
          tasks ++ (unread.take (d.chunks - n)).map d.task, runs, holder⟩ := by
  induction unread generalizing n tasks with
  | nil => exact ⟨n, .inr List.drop_nil, by simpa using hs⟩
  | cons payload unread ih =>
    by_cases hlt : (n : ℤ) < totalChunks d.file
    · have hleft : d.chunks - n = d.chunks - (n + 1) + 1 := by
        unfold Destination.chunks
        omega
      obtain ⟨m, hdone, hm⟩ := ih (hs.step (e := .take) (if_pos hlt))
      refine ⟨m, ?_, ?_⟩
      · rwa [hleft, List.drop_succ_cons]
      · simpa [hleft] using hm
    · have hzero : d.chunks - n = 0 := by
        unfold Destination.chunks
        omega
      exact ⟨n, .inl (Int.not_lt.mp hlt), by simpa [hzero] using hs⟩

/-- A file is created, its frames are taken, and the loop goes on to the next. -/
theorem exists_passed (hs : (machine X seeks disk entries frames).Reachable
      ⟨content, d :: later, none, unread, tasks, runs, holder⟩) (ho : d.opens) :
    ∃ content', (machine X seeks disk entries frames).Reachable
        ⟨content', later, none, unread.drop d.chunks,
          tasks ++ (unread.take d.chunks).map d.task, runs,
          Function.update holder d.loc (some d)⟩ ∧
      ∃ n, (machine X seeks disk entries frames).Reachable
        ⟨content', later, some (d, n), unread.drop d.chunks,
          tasks ++ (unread.take d.chunks).map d.task, runs,
          Function.update holder d.loc (some d)⟩ := by
  have hcreated := hs.step (e := .create) rfl
  simp only [create, ho, if_true] at hcreated
  obtain ⟨m, hdone, hm⟩ := exists_taken hcreated
  exact ⟨_, hm.step (e := .leave) (if_pos hdone), m, hm⟩

/-- The loop gets to an entry while a task waits. -/
theorem exists_holder {task : WriterTask} {e : Destination} (htask : task ∈ tasks)
    (he : e ∈ reached later) (hs : (machine X seeks disk entries frames).Reachable
      ⟨content, later, none, unread, tasks, runs, holder⟩) :
    ∃ s, (machine X seeks disk entries frames).Reachable s ∧ task ∈ s.tasks ∧
      s.holder e.loc = some e := by
  induction later generalizing content unread tasks holder with
  | nil => nomatch he
  | cons d later ih =>
    rcases List.mem_cons.mp he with rfl | he
    · exact ⟨_, hs.step (e := .create) rfl, htask, Function.update_self ..⟩
    · cases ho : d.opens with
      | false => simp [ho] at he
      | true =>
        obtain ⟨content', hnext, -⟩ := exists_passed hs ho
        exact ih (List.mem_append_left _ htask) (by simpa [ho] using he) hnext

/-- The first entry that stands with a task is its own. -/
theorem exists_own {x : WriterTask × List Destination} (hx : x ∈ handed entries frames) :
    ∃ d ∈ x.2, d.loc = x.1.loc := by
  induction entries generalizing frames with
  | nil => nomatch hx
  | cons d entries ih =>
    rw [handed] at hx
    split at hx
    next =>
      rcases List.mem_append.mp hx with hx | hx
      · obtain ⟨payload, -, rfl⟩ := List.mem_map.mp hx
        exact ⟨d, List.mem_cons_self, rfl⟩
      · exact ih hx
    next => nomatch hx

/-- Every task that may be handed over may wait until the loop has got to any entry from its own
on. -/
theorem exists_handed {x : WriterTask × List Destination} {e : Destination}
    (hx : x ∈ handed later unread) (he : e ∈ x.2)
    (hs : (machine X seeks disk entries frames).Reachable
      ⟨content, later, none, unread, tasks, runs, holder⟩) :
    ∃ s, (machine X seeks disk entries frames).Reachable s ∧ x.1 ∈ s.tasks ∧
      s.holder e.loc = some e := by
  induction later generalizing content unread tasks holder with
  | nil => nomatch hx
  | cons d later ih =>
    rw [handed] at hx
    split at hx
    next ho =>
      obtain ⟨content', hnext, n, hlast⟩ := exists_passed hs ho
      rcases List.mem_append.mp hx with hx | hx
      · obtain ⟨payload, hpayload, rfl⟩ := List.mem_map.mp hx
        have htask : d.task payload ∈ tasks ++ (unread.take d.chunks).map d.task :=
          List.mem_append_right _ (List.mem_map_of_mem hpayload)
        rw [reached_cons, if_pos ho] at he
        rcases List.mem_cons.mp he with rfl | he
        · exact ⟨_, hlast, htask, Function.update_self ..⟩
        · exact exists_holder htask he hnext
      · exact ih hx hnext
    next => nomatch hx

/-- It may run there, with any answer to its write. -/
theorem exists_run {x : WriterTask × List Destination} {e : Destination}
    (hx : x ∈ handed entries frames) (he : e ∈ x.2) (hloc : e.loc = x.1.loc)
    (answer : WriteAnswer) : ∃ s, (machine X seeks disk entries frames).Reachable s ∧
      ⟨runWriter X seeks x.1 answer, e.file.fileLength⟩ ∈ s.runs := by
  obtain ⟨s, hs, htask, hholder⟩ : ∃ s, (machine X seeks disk entries frames).Reachable s ∧
    x.1 ∈ s.tasks ∧ s.holder e.loc = some e := exists_handed hx he .init
  obtain ⟨k, hk⟩ := List.mem_iff_getElem?.mp htask
  refine ⟨_, hs.step (e := .run k answer) (Option.map_eq_some_iff.mpr ⟨x.1, hk, rfl⟩), ?_⟩
  rw [← sizeAt_of_holder (hloc ▸ hholder)]
  exact List.mem_append_right _ (List.mem_singleton_self _)

end Receiving

/-- The tasks write only inside the files that the user has confirmed if and only if every chunk
that the loop may hand over lies inside whichever file may stand at its place: they take the offset
as it comes. -/
theorem keepsToFile_iff (X : External) (seeks : Location → ℕ → Bool) (disk : Location → Bytes)
    (entries : List Destination) (frames : List Bytes) :
    (∀ s, (Receiving.machine X seeks disk entries frames).Reachable s → KeepsToFile X s) ↔
    ∀ x ∈ Receiving.handed entries frames, ∀ d ∈ x.2, d.loc = x.1.loc →
      Placed X seeks d.file.fileLength x.1 := by
  refine ⟨fun h x hx d hd hloc => placed_of_runWriter fun answer offset data hopen hlt => ?_,
    fun h s hs => keepsToFile_of_placed h hs⟩
  obtain ⟨s, hs, hrun⟩ : ∃ s, (Receiving.machine X seeks disk entries frames).Reachable s ∧
    ⟨runWriter X seeks x.1 answer, d.file.fileLength⟩ ∈ s.runs :=
    Receiving.exists_run hx hd hloc answer
  exact (h s hs).rejects _ hrun offset data (by rwa [runWriter_task]) hlt

section Example

def zeroSession : EncryptedSession := ⟨⟨External.padBlock 32 [], External.padBlock 8 []⟩⟩

/-- A sealed chunk of one byte for the offset 100. -/
def farChunk : Bytes := List.replicate 12 0 ++ chunkBuffer 100 [1] ++ List.replicate 16 0

/-- An offer of one file of five bytes. -/
def fiveBytes : Destination := ⟨.plain "a.txt" "./" 5, [], zeroSession, true⟩

/-- It makes a file of five bytes longer. -/
theorem farChunk_not_kept :
    zeroSession.encryptor.decrypt .transparent farChunk = .ok (chunkBuffer 100 [1]) ∧
    ∃ s, (Receiving.machine .transparent (fun _ _ => true) (fun _ => []) [fiveBytes]
        [farChunk]).Reachable s ∧ (s.disk fiveBytes.loc).length = 101 ∧
      ¬ KeepsToFile .transparent s := by
  refine ⟨by decide +kernel, ?_⟩
  obtain ⟨s, hs, hp⟩ := Machine.ReachableBy.exists_of_exec
    (M := Receiving.machine .transparent (fun _ _ => true) (fun _ => []) [fiveBytes] [farChunk])
    (fun _ _ => True)
    (fun s => (s.disk fiveBytes.loc).length == 101 && s.holder fiveBytes.loc == some fiveBytes)
    [.create, .take, .run 0 ⟨1, true⟩] (by decide +kernel)
  obtain ⟨hlen, hholder⟩ := Bool.and_eq_true_iff.mp hp
  have hlen : (s.disk fiveBytes.loc).length = 101 := beq_iff_eq.mp hlen
  refine ⟨s, hs, hlen, fun h => ?_⟩
  have hkept := h.length _ _ (beq_iff_eq.mp hholder) (by decide)
  have hsize : fiveBytes.file.fileLength = 5 := by decide
  omega

end Example

end Croc
