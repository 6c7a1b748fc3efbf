import Croc.Lib.Interleave
import Croc.Lib.Machine
import Croc.Proto.ReadTask

/-! The writing task of `MpscCrocProto::from_stream`, and the tasks that hold clones of its
`OwnedSender`. -/
namespace Croc
open Lib

theorem OwnedSender.write_eq_ok {msg : Bytes} {channel channel' : Channel} :
    OwnedSender.write msg channel = .ok channel' ↔ msg.length < 2 ^ 32 ∧ channel.closed = false ∧
      channel' = { channel with queue := channel.queue ++ [frame msg] } := by
  simp only [OwnedSender.write, bind_eq_ok, CrocProto.write_eq_ok, Channel.send]
  constructor
  · rintro ⟨buffer, ⟨hlt, rfl⟩, h⟩
    split at h
    · simp at h
    next hopen => exact ⟨hlt, by simpa using hopen, (Except.ok.inj h).symm⟩
  · rintro ⟨hlt, hopen, rfl⟩
    exact ⟨_, ⟨hlt, rfl⟩, by simp [hopen]⟩

theorem CrocProto.frames_concat (msgs : List Bytes) (msg : Bytes) :
    frames (msgs ++ [msg]) = frames msgs ++ frame msg := by
  simp [frames]

namespace MpscCrocProto

abbrev TaskId := ℕ

/-- Where the writing task is: in `write_receiver.recv()`, in `write.write_all` with the bytes that
are left of a buffer, or over, possibly by an error of the socket. -/
inductive WritePc where
  | recv
  | writeAll (buffer : Bytes)
  | ended (failed : Bool)
  deriving DecidableEq

/-- The holders of a sender, the messages of their writes that wait for the channel, the messages
of their writes that have returned `Ok`, the channel, and the writing task with its socket. -/
structure Outbound where
  holders : List TaskId
  writing : TaskId → Option Bytes
  returned : TaskId → List Bytes
  channel : Channel
  pc : WritePc
  socket : Bytes

inductive WriteEvent where
  /-- `t` gives a clone of its sender to a new task. -/
  | clone (t new : TaskId)
  /-- `t` drops its sender, also in the middle of a write. -/
  | drop (t : TaskId)
  /-- `t` calls `OwnedSender::write`. -/
  | write (t : TaskId) (msg : Bytes)
  /-- The write of `t` goes on. -/
  | resume (t : TaskId)
  | recv
  /-- The socket takes some of the bytes. -/
  | writeSome (n : ℕ)
  | writeFails
  /-- `recv` returns `None`. -/
  | stop

namespace Outbound

def start : Outbound where
  holders := [0]
  writing _ := none
  returned _ := []
  channel := ⟨[], false⟩
  pc := .recv
  socket := []

def step (s : Outbound) : WriteEvent → Option Outbound
  | .clone t new =>
    if t ∈ s.holders ∧ new ∉ s.holders then some { s with holders := new :: s.holders } else none
  | .drop t =>
    if t ∈ s.holders then some { s with
      holders := s.holders.erase t
      writing := Function.update s.writing t none }
    else none
  | .write t msg =>
    if t ∈ s.holders ∧ s.writing t = none then
      some { s with writing := Function.update s.writing t (some msg) }
    else none
  | .resume t => (s.writing t).bind fun msg =>
    -- a channel that is full makes the task wait
    if s.channel.closed = false ∧ channelSize ≤ s.channel.queue.length then none
    else
      let s := { s with writing := Function.update s.writing t none }
      match OwnedSender.write msg s.channel with
      | .ok channel => some { s with
          channel := channel
          returned := Function.update s.returned t (s.returned t ++ [msg]) }
      | .error _ => some s
  | .recv =>
    match s.pc, s.channel.queue with
    | .recv, buffer :: queue => some { s with
        channel := { s.channel with queue := queue }
        pc := .writeAll buffer }
    | _, _ => none
  | .writeSome n =>
    match s.pc with
    | .writeAll buffer =>
      if 0 < n ∧ n ≤ buffer.length then some { s with
        socket := s.socket ++ buffer.take n
        pc := if n = buffer.length then .recv else .writeAll (buffer.drop n) }
      else none
    | _ => none
  | .writeFails =>
    match s.pc with
    | .writeAll _ => some { s with channel := ⟨[], true⟩, pc := .ended true }
    | _ => none
  | .stop =>
    match s.pc with
    | .recv =>
      if s.channel.queue = [] ∧ s.holders = [] then
        some { s with channel := ⟨[], true⟩, pc := .ended false }
      else none
    | _ => none

/-- The tasks of one connection, from the moment its stream is split. -/
def machine : Machine Outbound WriteEvent := ⟨start, step⟩

/-- The bytes that the writing task has yet to write. -/
def left (s : Outbound) : Bytes :=
  (match s.pc with
    | .writeAll buffer => buffer
    | _ => []) ++ s.channel.queue.flatten

/-- The frames that were accepted, in the order in which they were: they are on the socket, or
about to be. -/
structure Ordered (s : Outbound) (msgs : List Bytes) : Prop where
  merged : Interleaves s.returned msgs
  short : ∀ msg ∈ msgs, msg.length < 2 ^ 32
  within : s.socket <+: CrocProto.frames msgs
  covered : s.pc ≠ .ended true → s.socket ++ s.left = CrocProto.frames msgs
  stopped : (∃ failed, s.pc = .ended failed) → s.channel.closed = true ∧ s.channel.queue = []
  filled : (∀ buffer ∈ s.channel.queue, buffer ≠ []) ∧ s.pc ≠ .writeAll []

theorem ordered_start : Ordered start [] where
  merged := .nil
  short := List.forall_mem_nil _
  within := List.prefix_rfl
  covered _ := rfl
  stopped h := by
    obtain ⟨failed, h⟩ := h
    cases h
  filled := ⟨List.forall_mem_nil _, by simp [start]⟩

variable {s s' : Outbound} {msgs : List Bytes}

/-- What the holders do among themselves does not touch the frames. -/
theorem Ordered.congr (h : Ordered s msgs) (hret : s'.returned = s.returned)
    (hch : s'.channel = s.channel) (hpc : s'.pc = s.pc) (hsock : s'.socket = s.socket) :
    Ordered s' msgs := by
  have hleft : s'.left = s.left := by rw [left, left, hch, hpc]
  refine ⟨hret ▸ h.merged, h.short, hsock ▸ h.within, ?_, ?_, ?_⟩
  · rw [hpc, hsock, hleft]
    exact h.covered
  · rw [hpc, hch]
    exact h.stopped
  · rw [hpc, hch]
    exact h.filled

/-- A write that goes through adds its frame at the end. -/
theorem Ordered.accept (h : Ordered s msgs) {t : TaskId} {msg : Bytes} {channel : Channel}
    (hw : OwnedSender.write msg s.channel = .ok channel) :
    Ordered { s with
      writing := Function.update s.writing t none
      channel := channel
      returned := Function.update s.returned t (s.returned t ++ [msg]) } (msgs ++ [msg]) := by
  obtain ⟨hshort, hopen, rfl⟩ := OwnedSender.write_eq_ok.mp hw
  have hgoing : s.pc ≠ .ended true := fun hpc => by
    simp [(h.stopped ⟨true, hpc⟩).1] at hopen
  have hcovered := h.covered hgoing
  refine ⟨h.merged.snoc t msg, ?_, ?_, fun _ => ?_, fun hover => ?_, ⟨?_, h.filled.2⟩⟩
  · intro m hm
    rcases List.mem_append.mp hm with hm | hm
    · exact h.short m hm
    · rwa [List.mem_singleton.mp hm]
  · rw [CrocProto.frames_concat]
    exact h.within.trans (List.prefix_append _ _)
  · rw [CrocProto.frames_concat, ← hcovered]
    simp [left]
  · simp [(h.stopped hover).1] at hopen
  · intro buffer hb
    rcases List.mem_append.mp hb with hb | hb
    · exact h.filled.1 buffer hb
    · rw [List.mem_singleton.mp hb]
      simp [frame, crocMagic]

theorem Ordered.recv (h : Ordered s msgs) (he : s.step .recv = some s') : Ordered s' msgs := by
  simp only [Outbound.step] at he
  split at he
  next buffer queue hpc hqueue =>
    obtain rfl := Option.some.inj he
    have hcovered := h.covered (by simp [hpc])
    have hfilled := h.filled.1
    rw [hqueue, List.forall_mem_cons] at hfilled
    refine ⟨h.merged, h.short, h.within, fun _ => ?_, fun hover => ?_, ⟨hfilled.2, ?_⟩⟩
    · simpa [left, hpc, hqueue] using hcovered
    · obtain ⟨failed, hf⟩ := hover
      cases hf
    · simpa using hfilled.1
  · simp at he

theorem Ordered.writeSome (h : Ordered s msgs) {n : ℕ} (he : s.step (.writeSome n) = some s') :
    Ordered s' msgs := by
  simp only [Outbound.step] at he
  split at he
  next buffer hpc =>
    split at he
    next hn =>
      obtain rfl := Option.some.inj he
      have hcovered : s.socket ++ (buffer ++ s.channel.queue.flatten) = CrocProto.frames msgs := by
        simpa [left, hpc] using h.covered (by simp [hpc])
      have hsplit : s.socket ++ buffer.take n ++ (buffer.drop n ++ s.channel.queue.flatten) =
          CrocProto.frames msgs := by
        rw [← hcovered, List.append_assoc, ← List.append_assoc (buffer.take n),
          List.take_append_drop]
      refine ⟨h.merged, h.short, ⟨_, hsplit⟩, fun _ => ?_, fun hover => ?_, ⟨h.filled.1, ?_⟩⟩
      · by_cases hall : n = buffer.length
        · subst hall
          simpa [left] using hsplit
        · simpa [left, hall] using hsplit
      · obtain ⟨failed, hf⟩ := hover
        dsimp only at hf
        split at hf <;> cases hf
      · dsimp only
        split
        · simp
        next hall => simpa using by omega
    · simp at he
  · simp at he

theorem Ordered.writeFails (h : Ordered s msgs) (he : s.step .writeFails = some s') :
    Ordered s' msgs := by
  simp only [Outbound.step] at he
  split at he
  · obtain rfl := Option.some.inj he
    exact ⟨h.merged, h.short, h.within, fun hpc => absurd rfl hpc, fun _ => ⟨rfl, rfl⟩,
      ⟨List.forall_mem_nil _, by simp⟩⟩
  · simp at he

theorem Ordered.stop (h : Ordered s msgs) (he : s.step .stop = some s') : Ordered s' msgs := by
  simp only [Outbound.step] at he
  split at he
  next hpc =>
    split at he
    next hend =>
      obtain rfl := Option.some.inj he
      have hcovered := h.covered (by simp [hpc])
      refine ⟨h.merged, h.short, h.within, fun _ => ?_, fun _ => ⟨rfl, rfl⟩,
        ⟨List.forall_mem_nil _, by simp⟩⟩
      simpa [left, hpc, hend.1] using hcovered
    · simp at he
  · simp at he

theorem Ordered.step (h : Ordered s msgs) {e : WriteEvent} (he : s.step e = some s') :
    ∃ msgs', Ordered s' msgs' := by
  cases e with
  | clone | drop | write =>
    simp only [Outbound.step] at he
    split at he
    · obtain rfl := Option.some.inj he
      exact ⟨msgs, h.congr rfl rfl rfl rfl⟩
    · simp at he
  | resume t =>
    obtain ⟨msg, -, he⟩ := Option.bind_eq_some_iff.mp he
    split at he
    · simp at he
    dsimp only at he
    split at he
    next channel hw =>
      obtain rfl := Option.some.inj he
      exact ⟨msgs ++ [msg], h.accept hw⟩
    · obtain rfl := Option.some.inj he
      exact ⟨msgs, h.congr rfl rfl rfl rfl⟩
  | recv => exact ⟨msgs, h.recv he⟩
  | writeSome n => exact ⟨msgs, h.writeSome he⟩
  | writeFails => exact ⟨msgs, h.writeFails he⟩
  | stop => exact ⟨msgs, h.stop he⟩

theorem reachable_ordered (h : machine.Reachable s) : ∃ msgs, Ordered s msgs :=
  h.invariant (P := fun s => ∃ msgs, Ordered s msgs) ⟨[], ordered_start⟩
    fun _ _ _ _ ⟨_, hs⟩ he => hs.step he

/-- Steps that are left to the writing task while no holder moves. -/
def work (s : Outbound) : ℕ :=
  s.left.length + s.channel.queue.length + if s.pc = .ended false then 0 else 1

/-- A step of the writing task, with a socket that does not fail. -/
def Writes (_ : Outbound) (e : WriteEvent) : Prop := e = .recv ∨ (∃ n, e = .writeSome n) ∨ e = .stop

theorem progress (h : Ordered s msgs) (hpc : s.pc ≠ .ended true)
    (hleft : ¬ (s.left = [] ∧ (s.holders = [] → s.pc = .ended false))) :
    ∃ e s', Writes s e ∧ s.step e = some s' ∧
      (Ordered s' msgs ∧ s'.pc ≠ .ended true ∧ s'.returned = s.returned ∧
        s'.holders = s.holders) ∧ s'.work < s.work := by
  cases hp : s.pc with
  | writeAll buffer =>
    have hpos : 0 < buffer.length :=
      List.length_pos_of_ne_nil fun hnil => h.filled.2 (hp.trans (congrArg _ hnil))
    have he : s.step (.writeSome buffer.length) = some { s with
        socket := s.socket ++ buffer
        pc := .recv } := by simp [Outbound.step, hp, hpos]
    refine ⟨_, _, Or.inr (Or.inl ⟨_, rfl⟩), he, ⟨h.writeSome he, by simp, rfl, rfl⟩, ?_⟩
    simp only [work, left, hp, List.length_append, List.nil_append]
    simp
    omega
  | recv =>
    cases hqueue : s.channel.queue with
    | cons buffer queue =>
      have he : s.step .recv = some { s with
          channel := { s.channel with queue := queue }
          pc := .writeAll buffer } := by simp [Outbound.step, hp, hqueue]
      refine ⟨_, _, Or.inl rfl, he, ⟨h.recv he, by simp, rfl, rfl⟩, ?_⟩
      simp [work, left, hp, hqueue]
    | nil =>
      have hnil : s.left = [] := by simp [left, hp, hqueue]
      have hnone : s.holders = [] := by
        by_contra hsome
        exact hleft ⟨hnil, fun hnone => absurd hnone hsome⟩
      have he : s.step .stop = some { s with channel := ⟨[], true⟩, pc := .ended false } := by
        simp [Outbound.step, hp, hqueue, hnone]
      refine ⟨_, _, Or.inr (Or.inr rfl), he, ⟨h.stop he, by simp, rfl, rfl⟩, ?_⟩
      simp [work, left, hp, hqueue]
  | ended failed =>
    cases failed with
    | true => exact absurd hp hpc
    | false =>
      refine absurd ⟨?_, fun _ => hp⟩ hleft
      rw [left, hp, (h.stopped ⟨false, hp⟩).2]
      rfl

end Outbound

/-- What the socket has of the messages of the tasks that share a sender. -/
structure SendersAgree : Prop where
  /-- The socket has whole frames of the messages whose writes returned `Ok`, merged, up to where it
  has come. -/
  whole : ∀ s, Outbound.machine.Reachable s → ∃ msgs, Interleaves s.returned msgs ∧
    s.socket <+: CrocProto.frames msgs ∧ CrocProto.readAll s.socket <+: msgs ∧
    (s.pc ≠ .ended true → s.left = [] → s.socket = CrocProto.frames msgs ∧
      CrocProto.readAll s.socket = msgs)
  /-- Nothing is left when the writing task ends, unless the socket has failed. -/
  ends : ∀ s, Outbound.machine.Reachable s → s.pc = .ended false → s.left = []
  /-- Unless the socket fails, the writing task can write all that was accepted, and when all
  senders have been dropped it ends. -/
  drains : ∀ s, Outbound.machine.Reachable s → s.pc ≠ .ended true →
    ∃ t, Relation.ReflTransGen (Outbound.machine.Next Outbound.Writes) s t ∧
      t.returned = s.returned ∧ t.left = [] ∧ t.pc ≠ .ended true ∧
      (s.holders = [] → t.pc = .ended false)

theorem sendersAgree : SendersAgree where
  whole s hs := by
    obtain ⟨msgs, h⟩ := Outbound.reachable_ordered hs
    have hread := CrocProto.readAll_frames h.short
    refine ⟨msgs, h.merged, h.within, hread ▸ CrocProto.readAll_mono h.within,
      fun hpc hleft => ?_⟩
    have hall := h.covered hpc
    rw [hleft, List.append_nil] at hall
    exact ⟨hall, by rw [hall, hread]⟩
  ends s hs hpc := by
    obtain ⟨msgs, h⟩ := Outbound.reachable_ordered hs
    rw [Outbound.left, hpc, (h.stopped ⟨false, hpc⟩).2]
    rfl
  drains s hs hpc := by
    obtain ⟨msgs, h⟩ := Outbound.reachable_ordered hs
    obtain ⟨t, hst, ⟨-, htpc, hret, hholders⟩, hleft, hend⟩ := Machine.exists_final
      (M := Outbound.machine)
      (I := fun u => Outbound.Ordered u msgs ∧ u.pc ≠ .ended true ∧ u.returned = s.returned ∧
        u.holders = s.holders) Outbound.work (fun u ⟨hu, hupc, hr, hh⟩ hnot => by
          obtain ⟨e, u', hw, he, ⟨hu', hpc', hr', hh'⟩, hlt⟩ := Outbound.progress hu hupc hnot
          exact ⟨e, u', hw, he, ⟨hu', hpc', hr'.trans hr, hh'.trans hh⟩, hlt⟩)
      ⟨h, hpc, rfl, rfl⟩
    exact ⟨t, hst, hret, hleft, htpc, fun hnone => hend (hholders.trans hnone)⟩

end MpscCrocProto
end Croc
