import Croc.Lib.Machine
import Croc.Proto.Stream

/-! The reading task of `MpscCrocProto::from_stream`: its rounds, the bounded channel that it fills,
and the reader at the other end of the channel. -/
namespace Croc
open Lib

namespace CrocProto

/-- The results of successive reads from a socket, up to the first error. -/
def readSocketAll (segments : List Bytes) : List Bytes :=
  match _h : readSocket segments with
  | (.ok msg, left) => msg :: readSocketAll left
  | (.error _, _) => []
termination_by segments.flatten.length
decreasing_by exact read_ok_length (readSocket_ok ‹_›)

theorem readSocketAll_ok {segments left : List Bytes} {msg : Bytes}
    (h : readSocket segments = (.ok msg, left)) :
    readSocketAll segments = msg :: readSocketAll left := by
  rw [readSocketAll]
  split
  next heq => rw [heq] at h; simp_all
  next heq => rw [heq] at h; simp at h

theorem readSocketAll_error {segments left : List Bytes} {e : Halt}
    (h : readSocket segments = (.error e, left)) : readSocketAll segments = [] := by
  rw [readSocketAll]
  split
  next heq => rw [heq] at h; simp at h
  next => rfl

/-- The reads do not depend on how the network has cut the stream. -/
theorem readSocketAll_eq (segments : List Bytes) :
    readSocketAll segments = readAll segments.flatten := by
  induction hs : segments.flatten using read_induction generalizing segments with
  | herror input e rest hr =>
    obtain ⟨hmsg, -⟩ := readSocket_eq segments
    rw [hs, hr] at hmsg
    rw [readSocketAll_error (Prod.ext hmsg rfl), readAll_error hr]
  | hok input msg rest hr ih =>
    obtain ⟨left, hread, hleft⟩ := readSocket_of_read (hs.symm ▸ hr)
    rw [readSocketAll_ok hread, readAll_ok hr, ih left hleft]

/-- What is read are frames at the front of the stream. -/
theorem frames_readAll (input : Bytes) : frames (readAll input) <+: input := by
  induction input using read_induction with
  | herror input e rest hr =>
    rw [readAll_error hr]
    exact List.nil_prefix
  | hok input msg rest hr ih =>
    rw [readAll_ok hr, frames_cons, (read_ok hr).1]
    exact (List.prefix_append_right_inj _).mpr ih

theorem readAll_short {input : Bytes} : ∀ msg ∈ readAll input, msg.length < 2 ^ 32 := by
  induction input using read_induction with
  | herror input e rest hr => simp [readAll_error hr]
  | hok input msg rest hr ih =>
    rw [readAll_ok hr]
    exact List.forall_mem_cons.mpr ⟨(read_ok hr).2, ih⟩

/-- The payloads of the longest sequence of whole frames that a stream starts with. -/
structure IsLongest (msgs : List Bytes) (input : Bytes) : Prop where
  starts : frames msgs <+: input
  short : ∀ msg ∈ msgs, msg.length < 2 ^ 32
  longest : ∀ msgs' : List Bytes, (∀ msg ∈ msgs', msg.length < 2 ^ 32) →
    frames msgs' <+: input → msgs' <+: msgs

theorem isLongest_readAll (input : Bytes) : IsLongest (readAll input) input where
  starts := frames_readAll input
  short := readAll_short
  longest msgs hshort h := by
    obtain ⟨rest, rfl⟩ := h
    rw [readAll_frames_append hshort]
    exact List.prefix_append _ _

end CrocProto

namespace MpscCrocProto

/-- How many messages the channels of `from_stream` hold. -/
def channelSize : ℕ := 100

/-- One round of the reading task up to the channel; `none` is a `break`. -/
def readRound (segments : List Bytes) : Option Bytes × List Bytes :=
  match readExact 4 segments with
  | (none, segments) => (none, segments)
  | (some headerMagic, segments) =>
    if headerMagic ≠ crocMagic then (none, segments)
    else match readExact 4 segments with
      | (none, segments) => (none, segments)
      | (some msgLen, segments) => readExact (leNat msgLen) segments

/-- Where the reading task is: before a round, in `read_sender.send(message)`, or over. -/
inductive ReadPc where
  | round
  | send (message : Bytes)
  | ended
  deriving DecidableEq

/-- The reading task and its channel. `put` are the payloads that have been put on the channel,
`received` those that its reader has taken. -/
structure Inbound where
  segments : List Bytes
  pc : ReadPc
  channel : Channel
  put : List Bytes
  received : List Bytes
  deriving DecidableEq

inductive ReadEvent where
  | round
  | send
  /-- `MpscCrocProto::read` or `OwnedReceiver::read` returns a message. -/
  | recv
  /-- The reader drops its end of the channel, with what is in it. -/
  | drop
  deriving DecidableEq

namespace Inbound

def start (segments : List Bytes) : Inbound := ⟨segments, .round, ⟨[], false⟩, [], []⟩

def step (s : Inbound) : ReadEvent → Option Inbound
  | .round =>
    match s.pc with
    | .round =>
      match readRound s.segments with
      | (some message, segments) => some { s with segments := segments, pc := .send message }
      | (none, segments) => some { s with segments := segments, pc := .ended }
    | _ => none
  | .send =>
    match s.pc with
    | .send message =>
      -- a channel that is full makes the task wait
      if s.channel.closed = false ∧ channelSize ≤ s.channel.queue.length then none
      else match s.channel.send message with
        | .ok channel =>
          some { s with pc := .round, channel := channel, put := s.put ++ [message] }
        | .error _ => some { s with pc := .ended }
    | _ => none
  | .recv =>
    match s.channel.queue with
    | message :: queue => some { s with
        channel := { s.channel with queue := queue }
        received := s.received ++ [message] }
    | [] => none
  | .drop => some { s with channel := ⟨[], true⟩ }

/-- A connection that brings `segments`, and then ends. -/
def machine (segments : List Bytes) : Machine Inbound ReadEvent := ⟨start segments, step⟩

/-- What the task has yet to put on the channel, were it read by successive reads. -/
def rest (s : Inbound) : List Bytes :=
  match s.pc with
  | .round => CrocProto.readSocketAll s.segments
  | .send message => message :: CrocProto.readSocketAll s.segments
  | .ended => []

/-- What holds between the stream, the channel and its reader. -/
structure InStep (segments : List Bytes) (s : Inbound) : Prop where
  within : s.put <+: CrocProto.readSocketAll segments
  covered : s.pc ≠ .ended ∨ s.channel.closed = false →
    s.put ++ s.rest = CrocProto.readSocketAll segments
  received : s.received <+: s.put
  queued : s.channel.closed = false → s.put = s.received ++ s.channel.queue
  emptied : s.channel.closed = true → s.channel.queue = []
  bounded : s.channel.queue.length ≤ channelSize

variable {segments : List Bytes} {s s' : Inbound}

theorem inStep_start (segments : List Bytes) : InStep segments (start segments) where
  within := List.nil_prefix
  covered _ := rfl
  received := List.prefix_rfl
  queued _ := rfl
  emptied _ := rfl
  bounded := Nat.zero_le _

end Inbound

/-- A round of the task decodes as a read does; a `break` stands for each error. -/
theorem readRound_eq (segments : List Bytes) : readRound segments =
    ((CrocProto.readSocket segments).1.toOption, (CrocProto.readSocket segments).2) := by
  unfold readRound CrocProto.readSocket
  cases readExact 4 segments with
  | mk headerMagic left =>
    cases headerMagic with
    | none => rfl
    | some headerMagic =>
      dsimp only
      split
      · rfl
      cases readExact 4 left with
      | mk msgLen left' =>
        cases msgLen with
        | none => rfl
        | some msgLen =>
          dsimp only
          cases readExact (leNat msgLen) left' with
          | mk message left'' => cases message <;> rfl

theorem readRound_some {segments left : List Bytes} {message : Bytes}
    (h : readRound segments = (some message, left)) :
    CrocProto.readSocketAll segments = message :: CrocProto.readSocketAll left := by
  rw [readRound_eq] at h
  obtain ⟨hm, hl⟩ := Prod.mk.inj h
  cases hr : CrocProto.readSocket segments with
  | mk res left' =>
    rw [hr] at hm hl
    obtain rfl : left' = left := hl
    cases res with
    | error e => simp [Except.toOption] at hm
    | ok msg =>
      obtain rfl : msg = message := by simpa [Except.toOption] using hm
      exact CrocProto.readSocketAll_ok hr

theorem readRound_none {segments left : List Bytes} (h : readRound segments = (none, left)) :
    CrocProto.readSocketAll segments = [] := by
  rw [readRound_eq] at h
  cases hr : CrocProto.readSocket segments with
  | mk res left' =>
    cases res with
    | error e => exact CrocProto.readSocketAll_error hr
    | ok msg => simp [hr, Except.toOption] at h

namespace Inbound
variable {segments : List Bytes} {s s' : Inbound}

/-- A round takes one message from the stream, or finds that there is none. -/
theorem InStep.round (h : InStep segments s) (he : s.step .round = some s') :
    InStep segments s' := by
  simp only [Inbound.step] at he
  split at he
  next hpc =>
    have hcovered := h.covered (Or.inl (by simp [hpc]))
    split at he
    next message left hround =>
      obtain rfl := Option.some.inj he
      refine ⟨h.within, fun _ => ?_, h.received, h.queued, h.emptied, h.bounded⟩
      simpa [rest, hpc, readRound_some hround] using hcovered
    next left hround =>
      obtain rfl := Option.some.inj he
      refine ⟨h.within, fun _ => ?_, h.received, h.queued, h.emptied, h.bounded⟩
      simpa [rest, hpc, readRound_none hround] using hcovered
  · simp at he

theorem InStep.send (h : InStep segments s) (he : s.step .send = some s') :
    InStep segments s' := by
  simp only [Inbound.step, Channel.send] at he
  split at he
  next message hpc =>
    have hcovered := h.covered (Or.inl (by simp [hpc]))
    cases hclosed : s.channel.closed with
    | true =>
      obtain rfl : _ = s' := by simpa [hclosed] using he
      exact ⟨h.within, by simp [hclosed], h.received, h.queued, h.emptied, h.bounded⟩
    | false =>
      have hroom : s.channel.queue.length < channelSize := by
        by_contra hfull
        simp [hclosed, Nat.le_of_not_lt hfull] at he
      obtain rfl : _ = s' := by simpa [hclosed, Nat.not_le.mpr hroom] using he
      have hput : s.put ++ [message] ++ CrocProto.readSocketAll s.segments =
          CrocProto.readSocketAll segments := by
        simpa [rest, hpc] using hcovered
      refine ⟨hput ▸ List.prefix_append _ _, fun _ => hput,
        h.received.trans (List.prefix_append _ _), fun _ => ?_, fun hc => ?_, ?_⟩
      · simp [h.queued hclosed]
      · exact Bool.noConfusion hc
      · simpa using Nat.succ_le_of_lt hroom
  · simp at he

theorem InStep.recv (h : InStep segments s) (he : s.step .recv = some s') :
    InStep segments s' := by
  simp only [Inbound.step] at he
  split at he
  next message queue hqueue =>
    obtain rfl := Option.some.inj he
    have hopen : s.channel.closed = false := by
      by_contra hclosed
      rw [h.emptied (Bool.eq_true_of_not_eq_false hclosed)] at hqueue
      simp at hqueue
    have hput := h.queued hopen
    have hbounded := h.bounded
    rw [hqueue] at hput hbounded
    refine ⟨h.within, h.covered, ?_, fun _ => by simp [hput], fun hc => ?_,
      Nat.le_of_succ_le hbounded⟩
    · rw [hput]
      exact (List.prefix_append_right_inj _).mpr (by simp)
    · exact Bool.noConfusion (hopen.symm.trans hc)
  · simp at he

theorem InStep.drop (h : InStep segments s) : InStep segments { s with channel := ⟨[], true⟩ } where
  within := h.within
  covered hopen := h.covered (hopen.imp id fun h => Bool.noConfusion h)
  received := h.received
  queued h := Bool.noConfusion h
  emptied _ := rfl
  bounded := Nat.zero_le _

theorem InStep.step (h : InStep segments s) {e : ReadEvent} (he : s.step e = some s') :
    InStep segments s' := by
  cases e with
  | round => exact h.round he
  | send => exact h.send he
  | recv => exact h.recv he
  | drop => exact Option.some.inj he ▸ h.drop

theorem reachable_inStep (h : (machine segments).Reachable s) : InStep segments s :=
  h.invariant (inStep_start segments) fun _ _ _ _ hs he => hs.step he

/-- Steps that are left to the task and its reader while the channel is open. -/
def work (s : Inbound) : ℕ :=
  3 * s.rest.length + s.channel.queue.length + if s.pc = .round then 1 else 0

/-- A step that does not close the channel. -/
def Goes (_ : Inbound) (e : ReadEvent) : Prop := e ≠ .drop

theorem progress (h : InStep segments s) (hopen : s.channel.closed = false)
    (hleft : ¬ (s.pc = .ended ∧ s.channel.queue = [])) :
    ∃ e s', Goes s e ∧ s.step e = some s' ∧ (InStep segments s' ∧ s'.channel.closed = false) ∧
      s'.work < s.work := by
  cases hqueue : s.channel.queue with
  | cons message queue =>
    have he : s.step .recv = some { s with
        channel := { s.channel with queue := queue }
        received := s.received ++ [message] } := by simp [Inbound.step, hqueue]
    exact ⟨.recv, _, by simp [Goes], he, ⟨h.step he, hopen⟩, by simp [work, hqueue, rest]⟩
  | nil =>
    cases hpc : s.pc with
    | ended => exact absurd ⟨hpc, hqueue⟩ hleft
    | send message =>
      have he : s.step .send = some { s with
          pc := .round
          channel := ⟨[message], false⟩
          put := s.put ++ [message] } := by
        simp [Inbound.step, hpc, hopen, hqueue, Channel.send, channelSize]
      refine ⟨.send, _, by simp [Goes], he, ⟨h.step he, rfl⟩, ?_⟩
      simp only [work, rest, hpc, hqueue, List.length_cons, List.length_nil]
      simp
      omega
    | round =>
      cases hround : readRound s.segments with
      | mk message left =>
        cases message with
        | none =>
          have he : s.step .round = some { s with segments := left, pc := .ended } := by
            simp [Inbound.step, hpc, hround]
          refine ⟨.round, _, by simp [Goes], he, ⟨h.step he, hopen⟩, ?_⟩
          simp [work, rest, hpc, readRound_none hround]
        | some message =>
          have he : s.step .round = some { s with segments := left, pc := .send message } := by
            simp [Inbound.step, hpc, hround]
          refine ⟨.round, _, by simp [Goes], he, ⟨h.step he, hopen⟩, ?_⟩
          simp [work, rest, hpc, readRound_some hround]

end Inbound

/-- What the reading task makes of a stream that arrives in `segments`, whatever the channel and its
reader do: what successive reads make of it. -/
structure ReadsAgree (segments : List Bytes) : Prop where
  direct : CrocProto.IsLongest (CrocProto.readSocketAll segments) segments.flatten
  /-- Nothing else is ever put on the channel, and its reader is given it in order. -/
  within : ∀ s, (Inbound.machine segments).Reachable s →
    s.put <+: CrocProto.readSocketAll segments ∧ s.received <+: s.put ∧
      (s.channel.closed = false → s.put = s.received ++ s.channel.queue)
  /-- If the reader stays, nothing is missing when the task ends. -/
  complete : ∀ s, (Inbound.machine segments).Reachable s → s.pc = .ended →
    s.channel.closed = false → s.put = CrocProto.readSocketAll segments
  /-- If the reader stays, the task can come to its end, and the reader is given everything. -/
  ends : ∀ s, (Inbound.machine segments).Reachable s → s.channel.closed = false →
    ∃ t, Relation.ReflTransGen ((Inbound.machine segments).Next Inbound.Goes) s t ∧
      t.pc = .ended ∧ t.received = CrocProto.readSocketAll segments

theorem readsAgree (segments : List Bytes) : ReadsAgree segments where
  direct := by
    rw [CrocProto.readSocketAll_eq]
    exact CrocProto.isLongest_readAll _
  within s hs := by
    have h := Inbound.reachable_inStep hs
    exact ⟨h.within, h.received, h.queued⟩
  complete s hs hended hopen := by
    have h := (Inbound.reachable_inStep hs).covered (Or.inr hopen)
    rwa [Inbound.rest, hended, List.append_nil] at h
  ends s hs hopen := by
    obtain ⟨t, hst, ⟨ht, htopen⟩, hended, hqueue⟩ := Machine.exists_final
      (M := Inbound.machine segments) Inbound.work
      (fun s h hleft => Inbound.progress h.1 h.2 hleft) ⟨Inbound.reachable_inStep hs, hopen⟩
    refine ⟨t, hst, hended, ?_⟩
    have hcovered := ht.covered (Or.inr htopen)
    have hqueued := ht.queued htopen
    rw [Inbound.rest, hended, List.append_nil] at hcovered
    rw [hqueue, List.append_nil] at hqueued
    rw [← hqueued, hcovered]

end MpscCrocProto
end Croc
