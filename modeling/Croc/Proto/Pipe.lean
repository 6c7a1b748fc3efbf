import Croc.Lib.Fifo
import Croc.Proto.WriteTask

/-! Two `MpscCrocProto` with a network between them: the tasks that share a sender at the one end,
its writing task, a stream that is cut where the network likes, the reading task and the reader at
the other end. Together they are a queue. -/
namespace Croc
open Lib

theorem CrocProto.frames_append (msgs more : List Bytes) :
    frames (msgs ++ more) = frames msgs ++ frames more := by
  simp [frames]

namespace MpscCrocProto

/-- A read of these segments would wait for more. -/
def waits (segments : List Bytes) : Bool :=
  match (CrocProto.readSocket segments).1 with
  | .ok _ | .error (.err (.badMagic _)) => false
  | .error _ => true

/-- The two ends. `arrived` counts the bytes of the sender's socket that the receiver's has got;
no more of them come when it is `shut`. -/
structure Pipe where
  sender : Outbound
  arrived : ℕ
  shut : Bool
  receiver : Inbound

inductive PipeEvent where
  | sender (e : WriteEvent)
  /-- The network brings the next `n` bytes. -/
  | arrive (n : ℕ)
  /-- The stream ends for the receiver. -/
  | cut
  | receiver (e : ReadEvent)

namespace Pipe

def start : Pipe := ⟨.start, 0, false, .start []⟩

def step (p : Pipe) : PipeEvent → Option Pipe
  | .sender e => (p.sender.step e).map fun s => { p with sender := s }
  | .arrive n =>
    if p.shut = false ∧ 0 < n ∧ p.arrived + n ≤ p.sender.socket.length then
      let segment := (p.sender.socket.drop p.arrived).take n
      some { p with
        arrived := p.arrived + n
        receiver := { p.receiver with segments := p.receiver.segments ++ [segment] } }
    else none
  | .cut => some { p with shut := true }
  | .receiver e =>
    if e = .round ∧ p.shut = false ∧ waits p.receiver.segments then none
    else (p.receiver.step e).map fun r => { p with receiver := r }

def machine : Machine Pipe PipeEvent := ⟨start, step⟩

/-- What shows of a step: a write returns `Ok`, or the reader is given a message. -/
def look (p : Pipe) (e : PipeEvent) (_ : Pipe) : Option (Fifo.Move (TaskId × Bytes) Bytes) :=
  match e with
  | .sender (.resume t) => (p.sender.writing t).bind fun msg =>
    match OwnedSender.write msg p.sender.channel with
    | .ok _ => some (.push (t, msg))
    | .error _ => none
  | .receiver .recv => p.receiver.channel.queue.head?.map .pop
  | _ => none

end Pipe

section Sender
variable {s s' : Outbound} {msgs : List Bytes}

/-- Only a write that returns `Ok` adds to the messages. -/
theorem Outbound.Ordered.step_quiet (h : s.Ordered msgs) {e : WriteEvent}
    (he : s.step e = some s') (hquiet : ∀ t, e ≠ .resume t) :
    s'.Ordered msgs ∧ s'.returned = s.returned := by
  cases e with
  | clone | drop | write =>
    simp only [Outbound.step] at he
    split at he
    · obtain rfl := Option.some.inj he
      exact ⟨h.congr rfl rfl rfl rfl, rfl⟩
    · simp at he
  | resume t => exact absurd rfl (hquiet t)
  | recv =>
    refine ⟨h.recv he, ?_⟩
    simp only [Outbound.step] at he
    split at he
    · exact Option.some.inj he ▸ rfl
    · simp at he
  | writeSome n =>
    refine ⟨h.writeSome he, ?_⟩
    simp only [Outbound.step] at he
    split at he
    · split at he
      · exact Option.some.inj he ▸ rfl
      · simp at he
    · simp at he
  | writeFails =>
    refine ⟨h.writeFails he, ?_⟩
    simp only [Outbound.step] at he
    split at he
    · exact Option.some.inj he ▸ rfl
    · simp at he
  | stop =>
    refine ⟨h.stop he, ?_⟩
    simp only [Outbound.step] at he
    split at he
    · split at he
      · exact Option.some.inj he ▸ rfl
      · simp at he
    · simp at he

/-- A write goes on: it is accepted, or it fails. -/
theorem Outbound.Ordered.step_resume (h : s.Ordered msgs) {t : TaskId}
    (he : s.step (.resume t) = some s') : ∃ msg, s.writing t = some msg ∧
      ((∃ channel, OwnedSender.write msg s.channel = .ok channel ∧ s'.Ordered (msgs ++ [msg]) ∧
        s'.returned = Function.update s.returned t (s.returned t ++ [msg])) ∨
      (∃ e, OwnedSender.write msg s.channel = .error e) ∧ s'.Ordered msgs ∧
        s'.returned = s.returned) := by
  obtain ⟨msg, hmsg, he⟩ := Option.bind_eq_some_iff.mp he
  refine ⟨msg, hmsg, ?_⟩
  split at he
  · simp at he
  dsimp only at he
  split at he
  next channel hw =>
    obtain rfl := Option.some.inj he
    exact Or.inl ⟨channel, hw, h.accept hw, rfl⟩
  next e hw =>
    obtain rfl := Option.some.inj he
    exact Or.inr ⟨⟨e, hw⟩, h.congr rfl rfl rfl rfl, rfl⟩

/-- What is on the socket stays there. -/
theorem Outbound.socket_mono {e : WriteEvent} (he : s.step e = some s') :
    s.socket <+: s'.socket := by
  cases e with
  | clone | drop | write =>
    simp only [Outbound.step] at he
    split at he
    · exact Option.some.inj he ▸ List.prefix_rfl
    · simp at he
  | resume t =>
    obtain ⟨msg, -, he⟩ := Option.bind_eq_some_iff.mp he
    split at he
    · simp at he
    dsimp only at he
    split at he <;> exact Option.some.inj he ▸ List.prefix_rfl
  | recv =>
    simp only [Outbound.step] at he
    split at he
    · exact Option.some.inj he ▸ List.prefix_rfl
    · simp at he
  | writeSome n =>
    simp only [Outbound.step] at he
    split at he
    · split at he
      · exact Option.some.inj he ▸ List.prefix_append _ _
      · simp at he
    · simp at he
  | writeFails =>
    simp only [Outbound.step] at he
    split at he
    · exact Option.some.inj he ▸ List.prefix_rfl
    · simp at he
  | stop =>
    simp only [Outbound.step] at he
    split at he
    · split at he
      · exact Option.some.inj he ▸ List.prefix_rfl
      · simp at he
    · simp at he

/-- What is left to write can be written. -/
theorem Outbound.Ordered.exists_write (h : s.Ordered msgs) (hleft : s.left ≠ []) :
    ∃ e s', (e = .recv ∨ ∃ n, e = .writeSome n) ∧ s.step e = some s' := by
  cases hpc : s.pc with
  | recv =>
    cases hqueue : s.channel.queue with
    | nil => exact absurd (by simp [Outbound.left, hpc, hqueue]) hleft
    | cons buffer queue =>
      obtain ⟨s', he⟩ : ∃ s', s.step .recv = some s' := by
        simp [Outbound.step, hpc, hqueue]
      exact ⟨.recv, s', Or.inl rfl, he⟩
  | writeAll buffer =>
    have hpos : 0 < buffer.length :=
      List.length_pos_of_ne_nil fun hnil => h.filled.2 (hpc.trans (congrArg _ hnil))
    obtain ⟨s', he⟩ : ∃ s', s.step (.writeSome buffer.length) = some s' := by
      simp [Outbound.step, hpc, hpos]
    exact ⟨.writeSome buffer.length, s', Or.inr ⟨_, rfl⟩, he⟩
  | ended failed =>
    refine absurd ?_ hleft
    rw [Outbound.left, hpc, (h.stopped ⟨failed, hpc⟩).2]
    rfl

end Sender

section Receiver
variable {msgs : List Bytes} {p p' : Pipe}

/-- The message that the reading task holds. -/
def Inbound.pending (r : Inbound) : List Bytes :=
  match r.pc with
  | .send message => [message]
  | .round | .ended => []

namespace Pipe

/-- `msgs` are on their way: some have been received, some are on the receiver's channel, one may
be held by the reading task, and the rest is in what has arrived, on the network, or still with the
sender. -/
structure Carries (msgs : List Bytes) (p : Pipe) : Prop where
  ordered : p.sender.Ordered msgs
  arrived : p.arrived ≤ p.sender.socket.length
  put : p.receiver.put ++ p.receiver.pending <+: msgs
  stream : p.receiver.pc ≠ .ended → p.sender.socket.take p.arrived =
    CrocProto.frames (p.receiver.put ++ p.receiver.pending) ++ p.receiver.segments.flatten
  received : p.receiver.received <+: p.receiver.put
  queued : p.receiver.channel.closed = false →
    p.receiver.put = p.receiver.received ++ p.receiver.channel.queue
  emptied : p.receiver.channel.closed = true → p.receiver.channel.queue = []
  stays : p.receiver.pc = .ended → p.shut = true ∨ p.receiver.channel.closed = true

theorem carries_start : Carries [] start where
  ordered := Outbound.ordered_start
  arrived := le_rfl
  put := List.prefix_rfl
  stream _ := rfl
  received := List.prefix_rfl
  queued _ := rfl
  emptied _ := rfl
  stays h := by cases h

/-- The sender goes on; what has arrived stays as it is. -/
theorem Carries.sender (h : Carries msgs p) {msgs' : List Bytes} {s : Outbound}
    (hs : s.Ordered msgs') (hmsgs : msgs <+: msgs') (hsocket : p.sender.socket <+: s.socket) :
    Carries msgs' { p with sender := s } where
  ordered := hs
  arrived := h.arrived.trans hsocket.length_le
  put := h.put.trans hmsgs
  stream hpc := by
    obtain ⟨more, hmore⟩ := hsocket
    have htake : s.socket.take p.arrived = p.sender.socket.take p.arrived := by
      rw [← hmore, List.take_append_of_le_length h.arrived]
    exact htake.trans (h.stream hpc)
  received := h.received
  queued := h.queued
  emptied := h.emptied
  stays := h.stays

/-- What has been read are messages of the sender, in order, and what is left of the stream is part
of the frames of the messages after them. -/
theorem Carries.exists_rest (h : Carries msgs p) (hpc : p.receiver.pc ≠ .ended) :
    ∃ more rest, msgs = p.receiver.put ++ p.receiver.pending ++ more ∧
      CrocProto.frames more = p.receiver.segments.flatten ++ rest := by
  obtain ⟨more, hmore⟩ := h.put
  obtain ⟨later, hlater⟩ := h.ordered.within
  refine ⟨more, p.sender.socket.drop p.arrived ++ later, hmore.symm, ?_⟩
  have hall : CrocProto.frames (p.receiver.put ++ p.receiver.pending ++ more) =
      p.sender.socket.take p.arrived ++ (p.sender.socket.drop p.arrived ++ later) := by
    rw [← List.append_assoc, List.take_append_drop, hlater, hmore]
  rw [h.stream hpc, CrocProto.frames_append, List.append_assoc] at hall
  exact List.append_cancel_left hall

/-- A read that fails on part of a stream of frames fails because there is no more of it. -/
theorem waits_of_error {more : List Bytes} {segments left : List Bytes} {rest : Bytes} {e : Halt}
    (hframes : CrocProto.frames more = segments.flatten ++ rest)
    (hread : CrocProto.readSocket segments = (.error e, left)) : waits segments = true := by
  obtain ⟨hres, hleft⟩ := CrocProto.readSocket_eq segments
  rw [hread] at hres hleft
  have hread' : CrocProto.read segments.flatten = (.error e, left.flatten) :=
    Prod.ext hres.symm hleft.symm
  unfold waits
  rw [hread]
  dsimp only
  split
  next heq => cases heq
  next found heq =>
    obtain rfl := Except.error.inj heq
    exact absurd hread' (CrocProto.read_frames_ne_badMagic hframes found)
  · rfl

/-- A round takes the next message, or finds that the stream has ended. -/
theorem Carries.round (h : Carries msgs p) {r : Inbound} (hr : p.receiver.step .round = some r)
    (hwait : ¬ (p.shut = false ∧ waits p.receiver.segments)) :
    Carries msgs { p with receiver := r } := by
  simp only [Inbound.step] at hr
  split at hr
  next hpc =>
    obtain ⟨more, rest, hmsgs, hframes⟩ := h.exists_rest (by simp [hpc])
    have hstream := h.stream (by simp [hpc])
    have hpending : p.receiver.pending = [] := by simp [Inbound.pending, hpc]
    rw [hpending, List.append_nil] at hmsgs hstream
    have hshort : ∀ m ∈ more, m.length < 2 ^ 32 :=
      fun m hm => h.ordered.short m (hmsgs ▸ List.mem_append_right _ hm)
    rw [readRound_eq] at hr
    cases hread : CrocProto.readSocket p.receiver.segments with
    | mk res left =>
      rw [hread] at hr
      cases res with
      | ok message =>
        obtain rfl := Option.some.inj hr
        have hok := CrocProto.readSocket_ok hread
        obtain ⟨more', rfl, -⟩ := CrocProto.read_of_frames hshort hframes hok
        refine ⟨h.ordered, h.arrived, ⟨more', ?_⟩, fun _ => ?_, h.received, h.queued, h.emptied,
          fun hended => ?_⟩
        · rw [hmsgs, List.append_assoc]
          rfl
        · rw [hstream, (CrocProto.read_ok hok).1]
          simp [CrocProto.frames, Inbound.pending]
        · cases hended
      | error e =>
        obtain rfl := Option.some.inj hr
        have hover : p.shut = true := by
          by_contra hover
          exact hwait ⟨Bool.eq_false_iff.mpr hover, waits_of_error hframes hread⟩
        refine ⟨h.ordered, h.arrived, ?_, fun hpc' => absurd rfl hpc', h.received, h.queued,
          h.emptied, fun _ => Or.inl hover⟩
        rw [hmsgs]
        exact (List.prefix_append_right_inj _).mpr List.nil_prefix
  · simp at hr

/-- The message goes onto the channel, or its reader has gone. -/
theorem Carries.send (h : Carries msgs p) {r : Inbound} (hr : p.receiver.step .send = some r) :
    Carries msgs { p with receiver := r } := by
  simp only [Inbound.step, Channel.send] at hr
  split at hr
  next message hpc =>
    have hpending : p.receiver.pending = [message] := by simp [Inbound.pending, hpc]
    have hput := h.put
    have hstream := h.stream (by simp [hpc])
    rw [hpending] at hput hstream
    cases hclosed : p.receiver.channel.closed with
    | true =>
      obtain rfl : _ = r := by simpa [hclosed] using hr
      refine ⟨h.ordered, h.arrived, ?_, fun hpc' => absurd rfl hpc', h.received, h.queued,
        h.emptied, fun _ => Or.inr hclosed⟩
      exact List.append_nil _ ▸ (List.prefix_append _ _).trans hput
    | false =>
      obtain rfl : _ = r := by
        split at hr
        · simp at hr
        · simpa [hclosed] using hr
      refine ⟨h.ordered, h.arrived, ?_, fun _ => ?_, h.received.trans (List.prefix_append _ _),
        fun _ => ?_, fun hc => ?_, fun hended => ?_⟩
      · exact (List.append_nil _).symm ▸ hput
      · exact hstream.trans (by simp [Inbound.pending])
      · dsimp only
        rw [h.queued hclosed, List.append_assoc]
      · exact Bool.noConfusion hc
      · cases hended
  · simp at hr

/-- The reader is given the message that is next. -/
theorem Carries.recv (h : Carries msgs p) {r : Inbound} (hr : p.receiver.step .recv = some r) :
    Carries msgs { p with receiver := r } ∧ ∃ message queue,
      p.receiver.channel.queue = message :: queue ∧
      r.received = p.receiver.received ++ [message] := by
  simp only [Inbound.step] at hr
  split at hr
  next message queue hqueue =>
    obtain rfl := Option.some.inj hr
    have hopen : p.receiver.channel.closed = false := by
      by_contra hclosed
      rw [h.emptied (Bool.eq_true_of_not_eq_false hclosed)] at hqueue
      cases hqueue
    have hput := h.queued hopen
    rw [hqueue] at hput
    refine ⟨⟨h.ordered, h.arrived, h.put, h.stream, ?_, fun _ => ?_, fun hc => ?_, h.stays⟩,
      message, queue, hqueue, rfl⟩
    · exact ⟨queue, by rw [List.append_assoc]; exact hput.symm⟩
    · exact hput.trans (by simp)
    · exact absurd (hopen.symm.trans hc) (by simp)
  · simp at hr

/-- A reader that drops its end is given nothing more. -/
theorem Carries.drop (h : Carries msgs p) :
    Carries msgs { p with receiver := { p.receiver with channel := ⟨[], true⟩ } } :=
  ⟨h.ordered, h.arrived, h.put, h.stream, h.received, fun hc => Bool.noConfusion hc, fun _ => rfl,
    fun _ => Or.inr rfl⟩

/-- The network brings what the sender's socket has next. -/
theorem Carries.arrive (h : Carries msgs p) {n : ℕ} (he : p.step (.arrive n) = some p') :
    Carries msgs p' ∧ p'.receiver.received = p.receiver.received ∧ p'.sender = p.sender := by
  simp only [Pipe.step] at he
  split at he
  next hn =>
    obtain rfl := Option.some.inj he
    refine ⟨⟨h.ordered, hn.2.2, h.put, fun hpc => ?_, h.received, h.queued, h.emptied, h.stays⟩,
      rfl,
      rfl⟩
    have hstream := h.stream hpc
    show p.sender.socket.take (p.arrived + n) = _
    rw [List.take_add, hstream]
    simp [Inbound.pending]
  · simp at he

/-- The messages of one task among those that were accepted. -/
def byTask (t : TaskId) (accepted : List (TaskId × Bytes)) : List Bytes :=
  (accepted.filter fun a => a.1 = t).map Prod.snd

theorem byTask_concat (t t' : TaskId) (accepted : List (TaskId × Bytes)) (msg : Bytes) :
    byTask t (accepted ++ [(t', msg)]) = byTask t accepted ++ if t' = t then [msg] else [] := by
  unfold byTask
  rw [List.filter_append, List.map_append]
  by_cases h : t' = t <;> simp [h]

/-- The queue that a pipe is: the messages that it has accepted, and how many of them its reader has
been given. -/
structure IsQueue (p : Pipe) (q : Fifo (TaskId × Bytes)) : Prop where
  carries : Carries (q.items.map Prod.snd) p
  given : p.receiver.received.length = q.taken
  returned : ∀ t, p.sender.returned t = byTask t q.items

theorem IsQueue.received {q : Fifo (TaskId × Bytes)} (h : IsQueue p q) :
    p.receiver.received = (q.items.take q.taken).map Prod.snd := by
  have hput : p.receiver.put <+: q.items.map Prod.snd :=
    (List.prefix_append _ _).trans h.carries.put
  rw [List.map_take, ← h.given]
  exact List.prefix_iff_eq_take.mp (h.carries.received.trans hput)

theorem IsQueue.sender {q : Fifo (TaskId × Bytes)} (h : IsQueue p q) {e : WriteEvent} {s : Outbound}
    (hs : p.sender.step e = some s) :
    (look p (.sender e) { p with sender := s }).elim (IsQueue { p with sender := s } q) fun b =>
      ∃ q', (Fifo.machine Prod.snd).step q b = some q' ∧ IsQueue { p with sender := s } q' := by
  by_cases hquiet : ∀ t, e ≠ .resume t
  · obtain ⟨hord, hret⟩ := h.carries.ordered.step_quiet hs hquiet
    have hlook : look p (.sender e) { p with sender := s } = none := by
      cases e with
      | resume t => exact absurd rfl (hquiet t)
      | _ => rfl
    rw [hlook]
    exact ⟨h.carries.sender hord List.prefix_rfl (Outbound.socket_mono hs), h.given,
      fun t => hret ▸ h.returned t⟩
  · obtain ⟨t, rfl⟩ : ∃ t, e = .resume t := by simpa using hquiet
    have hsocket := Outbound.socket_mono hs
    obtain ⟨msg, hmsg, ⟨channel, hw, hord, hret⟩ | ⟨⟨err, hw⟩, hord, hret⟩⟩ :=
      h.carries.ordered.step_resume hs
    · have hlook : look p (.sender (.resume t)) { p with sender := s } = some (.push (t, msg)) := by
        simp [look, hmsg, hw]
      rw [hlook]
      refine ⟨_, rfl, ?_, h.given, fun t' => ?_⟩
      · dsimp only
        rw [List.map_append]
        exact h.carries.sender hord (List.prefix_append _ _) hsocket
      · dsimp only
        rw [hret, byTask_concat, ← h.returned t']
        by_cases ht : t = t'
        · subst ht
          simp
        · simp [ht, Function.update_of_ne (Ne.symm ht)]
    · have hlook : look p (.sender (.resume t)) { p with sender := s } = none := by
        simp [look, hmsg, hw]
      rw [hlook]
      exact ⟨h.carries.sender hord List.prefix_rfl hsocket, h.given, fun t => hret ▸ h.returned t⟩

theorem IsQueue.receiver {q : Fifo (TaskId × Bytes)} (h : IsQueue p q) {e : ReadEvent} {r : Inbound}
    (hr : p.receiver.step e = some r)
    (hwait : ¬ (e = .round ∧ p.shut = false ∧ waits p.receiver.segments)) :
    (look p (.receiver e) { p with receiver := r }).elim (IsQueue { p with receiver := r } q)
      fun b => ∃ q', (Fifo.machine Prod.snd).step q b = some q' ∧
        IsQueue { p with receiver := r } q' := by
  cases e with
  | round =>
    have hsame : r.received = p.receiver.received := by
      simp only [Inbound.step] at hr
      split at hr
      · split at hr <;> exact Option.some.inj hr ▸ rfl
      · simp at hr
    exact ⟨h.carries.round hr fun hw => hwait ⟨rfl, hw⟩, hsame ▸ h.given, h.returned⟩
  | send =>
    have hsame : r.received = p.receiver.received := by
      simp only [Inbound.step] at hr
      split at hr
      · split at hr
        · simp at hr
        · split at hr <;> exact Option.some.inj hr ▸ rfl
      · simp at hr
    exact ⟨h.carries.send hr, hsame ▸ h.given, h.returned⟩
  | recv =>
    obtain ⟨hc, message, queue, hqueue, hrec⟩ := h.carries.recv hr
    have hlook : look p (.receiver .recv) { p with receiver := r } = some (.pop message) := by
      simp [look, hqueue]
    rw [hlook]
    -- the message is the next one that was accepted
    have hnext : (q.items[q.taken]?).map Prod.snd = some message := by
      have hput : r.received <+: q.items.map Prod.snd :=
        hc.received.trans ((List.prefix_append _ _).trans hc.put)
      obtain ⟨more, hmore⟩ := hput
      rw [← List.getElem?_map, ← hmore, hrec, ← h.given]
      simp
    refine ⟨{ q with taken := q.taken + 1 }, if_pos hnext, hc, ?_, h.returned⟩
    rw [hrec, List.length_append, h.given]
    rfl
  | drop =>
    obtain rfl := Option.some.inj hr
    exact ⟨h.carries.drop, h.given, h.returned⟩

/-- The pipe is a queue: what shows of it are the moves of one. -/
theorem refines_fifo :
    Machine.Refines machine (Fifo.machine Prod.snd) (fun _ _ => True) look IsQueue where
  init := ⟨carries_start, rfl, fun _ => rfl⟩
  step p e p' q _ h _ he := by
    cases e with
    | sender e =>
      obtain ⟨s, hs, rfl⟩ := Option.map_eq_some_iff.mp he
      exact h.sender hs
    | arrive n =>
      obtain ⟨hc, hrec, hsender⟩ := h.carries.arrive he
      exact ⟨hc, hrec ▸ h.given, hsender ▸ h.returned⟩
    | cut =>
      obtain rfl := Option.some.inj he
      have hc := h.carries
      exact ⟨⟨hc.ordered, hc.arrived, hc.put, hc.stream, hc.received, hc.queued, hc.emptied,
        fun _ => Or.inl rfl⟩, h.given, h.returned⟩
    | receiver e =>
      simp only [machine, Pipe.step] at he
      split at he
      · simp at he
      next hwait =>
        obtain ⟨r, hr, rfl⟩ := Option.map_eq_some_iff.mp he
        exact h.receiver hr hwait

/-- Neither end of the pipe has failed or gone. -/
structure Alive (p : Pipe) : Prop where
  written : p.sender.pc ≠ .ended true
  going : p.shut = false
  heard : p.receiver.channel.closed = false

/-- What the two tasks, the network and the reader do with the messages that have been accepted. -/
def Flows (_ : Pipe) : PipeEvent → Prop
  | .sender .recv | .sender (.writeSome _) | .arrive _ => True
  | .receiver .round | .receiver .send | .receiver .recv => True
  | _ => False

/-- What is left to do for `total` messages: a byte is written and arrives, a message is put on the
channel after a round and taken from it. -/
def work (total : ℕ) (p : Pipe) : ℕ :=
  2 * p.sender.left.length + p.sender.channel.queue.length +
    (p.sender.socket.length - p.arrived) + 3 * (total - p.receiver.put.length) +
    p.receiver.channel.queue.length + if p.receiver.pc = .round then 1 else 0

/-- The reading task does not end while the stream goes on and its reader stays. -/
theorem Carries.not_ended (h : Carries msgs p) (ha : Alive p) : p.receiver.pc ≠ .ended := by
  intro hended
  rcases h.stays hended with hover | hclosed
  · exact Bool.noConfusion (ha.going.symm.trans hover)
  · exact Bool.noConfusion (ha.heard.symm.trans hclosed)

theorem Carries.flow_sender (h : Carries msgs p) (ha : Alive p) {e : WriteEvent} {s : Outbound}
    (he : e = .recv ∨ ∃ n, e = .writeSome n) (hs : p.sender.step e = some s) :
    Carries msgs { p with sender := s } ∧ Alive { p with sender := s } ∧
      work msgs.length { p with sender := s } < work msgs.length p := by
  have hquiet : ∀ t, e ≠ .resume t := by
    rcases he with rfl | ⟨n, rfl⟩ <;> simp
  have hc := h.sender (h.ordered.step_quiet hs hquiet).1 List.prefix_rfl (Outbound.socket_mono hs)
  refine ⟨hc, ?_⟩
  have harrived := h.arrived
  rcases he with rfl | ⟨n, rfl⟩
  · simp only [Outbound.step] at hs
    split at hs
    next buffer queue hpc hqueue =>
      obtain rfl := Option.some.inj hs
      refine ⟨⟨by simp, ha.going, ha.heard⟩, ?_⟩
      simp only [work, Outbound.left, hpc, hqueue, List.nil_append, List.flatten_cons,
        List.length_append, List.length_cons]
      omega
    · simp at hs
  · simp only [Outbound.step] at hs
    split at hs
    next buffer hpc =>
      split at hs
      next hn =>
        obtain rfl := Option.some.inj hs
        refine ⟨⟨?_, ha.going, ha.heard⟩, ?_⟩
        · dsimp only
          split <;> simp
        · by_cases hall : n = buffer.length
          · simp only [work, Outbound.left, hpc, hall, if_true, List.nil_append,
              List.length_append, List.take_length]
            omega
          · simp only [work, Outbound.left, hpc, hall, if_false, List.length_append,
              List.length_take, List.length_drop]
            omega
      · simp at hs
    · simp at hs

theorem Carries.flow_receiver (h : Carries msgs p) (ha : Alive p) {e : ReadEvent} {r : Inbound}
    (he : e ≠ .drop) (hr : p.receiver.step e = some r)
    (hwait : ¬ (e = .round ∧ p.shut = false ∧ waits p.receiver.segments)) :
    Carries msgs { p with receiver := r } ∧ Alive { p with receiver := r } ∧
      work msgs.length { p with receiver := r } < work msgs.length p := by
  cases e with
  | round =>
    have hc := h.round hr fun hw => hwait ⟨rfl, hw⟩
    refine ⟨hc, ?_⟩
    simp only [Inbound.step] at hr
    split at hr
    next hpc =>
      split at hr
      · obtain rfl := Option.some.inj hr
        exact ⟨⟨ha.written, ha.going, ha.heard⟩, by simp [work, hpc]⟩
      · obtain rfl := Option.some.inj hr
        exact absurd rfl (hc.not_ended ⟨ha.written, ha.going, ha.heard⟩)
    · simp at hr
  | send =>
    refine ⟨h.send hr, ?_⟩
    simp only [Inbound.step, Channel.send] at hr
    split at hr
    next message hpc =>
      have hput := h.put.length_le
      have hpending : p.receiver.pending = [message] := by simp [Inbound.pending, hpc]
      rw [hpending, List.length_append, List.length_singleton] at hput
      have hheard := ha.heard
      obtain rfl : _ = r := by
        split at hr
        · simp at hr
        · simpa [hheard] using hr
      refine ⟨⟨ha.written, ha.going, rfl⟩, ?_⟩
      simp only [work, hpc, List.length_append, List.length_singleton]
      simp
      omega
    · simp at hr
  | recv =>
    refine ⟨(h.recv hr).1, ?_⟩
    simp only [Inbound.step] at hr
    split at hr
    next message queue hqueue =>
      obtain rfl := Option.some.inj hr
      refine ⟨⟨ha.written, ha.going, ha.heard⟩, ?_⟩
      simp only [work, hqueue, List.length_cons]
      omega
    · simp at hr
  | drop => exact absurd rfl he

/-- Every step on the way takes work off. -/
theorem Carries.flow (h : Carries msgs p) (ha : Alive p) {e : PipeEvent} (hf : Flows p e)
    (he : p.step e = some p') :
    Carries msgs p' ∧ Alive p' ∧ work msgs.length p' < work msgs.length p := by
  cases e with
  | sender e =>
    obtain ⟨s, hs, rfl⟩ := Option.map_eq_some_iff.mp he
    refine h.flow_sender ha ?_ hs
    cases e with
    | recv => exact Or.inl rfl
    | writeSome n => exact Or.inr ⟨n, rfl⟩
    | _ => exact hf.elim
  | arrive n =>
    refine ⟨(h.arrive he).1, ?_⟩
    simp only [Pipe.step] at he
    split at he
    next hn =>
      obtain rfl := Option.some.inj he
      refine ⟨⟨ha.written, ha.going, ha.heard⟩, ?_⟩
      simp only [work]
      omega
    · simp at he
  | cut => exact hf.elim
  | receiver e =>
    simp only [Pipe.step] at he
    split at he
    · simp at he
    next hwait =>
      obtain ⟨r, hr, rfl⟩ := Option.map_eq_some_iff.mp he
      refine h.flow_receiver ha ?_ hr hwait
      rintro rfl
      exact hf

/-- Where everything has arrived, the reading task and the reader can go on until nothing is
missing. -/
theorem Carries.exists_read (h : Carries msgs p) (ha : Alive p) (hleft : p.sender.left = [])
    (harrived : p.arrived = p.sender.socket.length) (hmissing : p.receiver.received ≠ msgs) :
    ∃ e p', Flows p (.receiver e) ∧ p.step (.receiver e) = some p' := by
  cases hqueue : p.receiver.channel.queue with
  | cons message queue =>
    obtain ⟨p', he⟩ : ∃ p', p.step (.receiver .recv) = some p' := by
      simp [Pipe.step, Inbound.step, hqueue]
    exact ⟨.recv, p', trivial, he⟩
  | nil =>
    cases hpc : p.receiver.pc with
    | send message =>
      obtain ⟨p', he⟩ : ∃ p', p.step (.receiver .send) = some p' := by
        simp [Pipe.step, Inbound.step, hpc, hqueue, Channel.send, ha.heard, channelSize]
      exact ⟨.send, p', trivial, he⟩
    | ended => exact absurd hpc (h.not_ended ha)
    | round =>
      have hput := h.queued ha.heard
      rw [hqueue, List.append_nil] at hput
      obtain ⟨more, hmore⟩ := h.put
      have hpending : p.receiver.pending = [] := by simp [Inbound.pending, hpc]
      rw [hpending, List.append_nil] at hmore
      -- the whole stream has arrived, and starts with a message that has not been read
      have hall : CrocProto.frames msgs = CrocProto.frames p.receiver.put ++
          p.receiver.segments.flatten := by
        have hstream := h.stream (by simp [hpc])
        have hcovered := h.ordered.covered ha.written
        rw [hleft, List.append_nil] at hcovered
        rwa [harrived, List.take_length, hcovered, hpending, List.append_nil] at hstream
      have hframes : CrocProto.frames more = p.receiver.segments.flatten := by
        rw [← hmore, CrocProto.frames_append] at hall
        exact List.append_cancel_left hall
      cases more with
      | nil => exact absurd (by rw [← hmore, List.append_nil, hput]) hmissing
      | cons msg more =>
        have hshort : msg.length < 2 ^ 32 := h.ordered.short msg (by simp [← hmore])
        have hread : CrocProto.read p.receiver.segments.flatten =
            (.ok msg, CrocProto.frames more) := by
          rw [← hframes, CrocProto.frames_cons, CrocProto.read_frame hshort]
        obtain ⟨left, hsocket, -⟩ := CrocProto.readSocket_of_read hread
        have hwaits : waits p.receiver.segments = false := by simp [waits, hsocket]
        obtain ⟨p', he⟩ : ∃ p', p.step (.receiver .round) = some p' := by
          simp [Pipe.step, Inbound.step, hpc, hwaits, readRound_eq, hsocket, Except.toOption]
        exact ⟨.round, p', trivial, he⟩

/-- While something is missing, something can go on. -/
theorem Carries.progress (h : Carries msgs p) (ha : Alive p)
    (hmissing : p.receiver.received ≠ msgs) : ∃ e p', Flows p e ∧ p.step e = some p' := by
  by_cases hleft : p.sender.left = []
  · by_cases harrived : p.arrived = p.sender.socket.length
    · obtain ⟨e, p', hf, he⟩ := h.exists_read ha hleft harrived hmissing
      exact ⟨.receiver e, p', hf, he⟩
    · have hlt : p.arrived < p.sender.socket.length := lt_of_le_of_ne h.arrived harrived
      exact ⟨.arrive 1, _, trivial, if_pos ⟨ha.going, Nat.one_pos, hlt⟩⟩
  · obtain ⟨e, s, he, hs⟩ := h.ordered.exists_write hleft
    refine ⟨.sender e, { p with sender := s }, ?_, by simp [Pipe.step, hs]⟩
    rcases he with rfl | ⟨n, rfl⟩ <;> trivial

/-- What holds of a pipe, and of the writes and the reads that have shown of it. -/
structure Conveys (p : Pipe) (shown : List (Fifo.Move (TaskId × Bytes) Bytes)) : Prop where
  /-- The reader is given the messages whose writes have returned `Ok`, each of them once, in the
  order in which they were accepted. -/
  inOrder : Fifo.popped shown <+: (Fifo.pushed shown).map Prod.snd
  received : p.receiver.received = Fifo.popped shown
  returned : ∀ t, p.sender.returned t = byTask t (Fifo.pushed shown)
  /-- While neither end fails or goes they all get there, however the two tasks, the network and the
  reader go on, and wherever the network cuts the stream. -/
  arrives : Alive p → machine.Inevitable Flows
    (fun p' => p'.receiver.received = (Fifo.pushed shown).map Prod.snd) p

/-- Every interleaving of the tasks that write, the writing task, the network, the reading task and
the reader, with failures at either end, is that of a queue. -/
theorem reachable_conveys {shown : List (Fifo.Move (TaskId × Bytes) Bytes)}
    (h : (machine.observe [] (Machine.showing look)).Reachable (p, shown)) : Conveys p shown := by
  obtain ⟨q, htrace, hq⟩ := refines_fifo.trace h
  obtain ⟨hitems, -, hpopped⟩ := Fifo.order htrace
  have hreceived : p.receiver.received = Fifo.popped shown := hq.received.trans hpopped.symm
  refine ⟨?_, hreceived, fun t => hitems ▸ hq.returned t, fun ha => ?_⟩
  · rw [hpopped, List.map_take, hitems]
    exact List.take_prefix _ _
  · refine Machine.inevitable_of_measure
      (I := fun p' => Carries ((Fifo.pushed shown).map Prod.snd) p' ∧ Alive p')
      (work ((Fifo.pushed shown).map Prod.snd).length)
      (fun p' hp' hmissing => hp'.1.progress hp'.2 hmissing)
      (fun p' e p'' hp' hf he => ?_) ⟨hitems ▸ hq.carries, ha⟩
    obtain ⟨hc, hAlive, hlt⟩ := hp'.1.flow hp'.2 hf he
    exact Or.inr ⟨⟨hc, hAlive⟩, hlt⟩

/-- Two tasks write, and the network cuts their frames in the middle. -/
def twoTasksRun : List PipeEvent :=
  [.sender (.clone 0 1), .sender (.write 0 [1, 1]), .sender (.write 1 [2]), .sender (.resume 1),
    .sender (.resume 0), .sender .recv, .sender (.writeSome 9), .sender .recv,
    .sender (.writeSome 4), .arrive 3, .arrive 9, .receiver .round, .receiver .send,
    .receiver .recv]

/-- The reader has the one message, and the other one will get there. -/
theorem twoTasks_conveyed : ∃ p shown,
    (machine.observe [] (Machine.showing look)).Reachable (p, shown) ∧
      Fifo.popped shown = [[2]] ∧
      machine.Inevitable Flows (fun p' => p'.receiver.received = [[2], [1, 1]]) p := by
  obtain ⟨⟨p, shown⟩, hp, h⟩ := Machine.ReachableBy.exists_of_exec
    (M := machine.observe [] (Machine.showing look)) (fun _ _ => True)
    (fun r => (decide (Fifo.popped r.2 = [[2]]) &&
      decide ((Fifo.pushed r.2).map Prod.snd = [[2], [1, 1]])) &&
        (decide (r.1.sender.pc ≠ .ended true) && (!r.1.shut && !r.1.receiver.channel.closed)))
    twoTasksRun (by decide +kernel)
  simp only [Bool.and_eq_true, decide_eq_true_eq, Bool.not_eq_true'] at h
  obtain ⟨⟨hpopped, hpushed⟩, hwritten, hgoing, hheard⟩ := h
  refine ⟨p, shown, hp, hpopped, ?_⟩
  rw [← hpushed]
  exact (reachable_conveys hp).arrives ⟨hwritten, hgoing, hheard⟩

end Pipe
end Receiver
end MpscCrocProto
end Croc
