import Croc.Lib.Simulation
import Croc.Relay.Bridge
import Croc.Session.Completed
import Croc.Session.Link
import Croc.Session.Moves

/-! Two ends whose control connections are bridged by a relay: every message is a frame on a stream
of bytes, which the copy loops move on in pieces of any size. -/
namespace Croc
open Lib

/-- The side of the sender is `a`. `inbox` is what has arrived at a side and not been read. -/
structure Wired (X : External) where
  session : Server.Side → Session X
  bridge : Server.Bridge
  inbox : Server.Side → Bytes
  inFlight : List DataFrame

def Meeting.setup (M : Meeting) : Server.Side → Setup
  | .a => M.sender
  | .b => M.receiver

def Meeting.world (M : Meeting) : Server.Side → World
  | .a => M.senderWorld
  | .b => M.receiverWorld

/-- Bytes that a peer has written to its socket. -/
def Server.Bridge.feed (b : Bridge) (x : Side) (bytes : Bytes) : Bridge :=
  let l : CopyLoop := { b.loop x with unread := (b.loop x).unread ++ bytes }
  { b with loop := Function.update b.loop x l }

/-- What `Message::recv` makes of a frame. `parse` is `serde_json::from_str`. -/
def Message.ofFrame (parse : String → Option Message) (data : Bytes) : Except Halt Message := do
  let text ← orErr .utf8 (fromUtf8 data)
  orErr (.unparsable data) (parse text)

namespace Wired
open Session Server
variable {X : External}

inductive Event where
  | task (x : Side) (t : Task)
  | copy (x : Side) (e : CopyEvent)
  /-- `Message::recv` on side `x`, when a whole frame or a wrong magic has arrived. -/
  | recv (x : Side)
  | recvFailed (x : Side) (e : Error)
  | deliver (k : ℕ)
  | lose (k : ℕ)
  | keepalive
  | dataClosed
  deriving DecidableEq

/-- The frames of the messages of a session. -/
def stream (msgs : List Message) : Bytes := CrocProto.frames (msgs.map Message.payload)

/-- A session has gone on, and what it has said is on its socket. -/
def say (w : Wired X) (x : Side) (s : Session X) : Wired X :=
  { w with
    session := Function.update w.session x s
    bridge := w.bridge.feed x (stream (s.sent.drop (w.session x).sent.length)) }

/-- An end that has returned has closed its connection. -/
def closed (w : Wired X) (x : Side) : Bool :=
  match (w.session x).phase with
  | .ended _ => true
  | _ => false

/-- The step of a pair that an event is. -/
def Event.asPair : Event → Option Pair.Event
  | .task .a t => some (.sender t)
  | .task .b t => some (.receiver t)
  | .copy _ _ => none
  | .recv .a => some .toSender
  | .recv .b => some .toReceiver
  | .recvFailed .a e => some (.senderRecvFailed e)
  | .recvFailed .b e => some (.receiverRecvFailed e)
  | .deliver k => some (.deliver k)
  | .lose k => some (.lose k)
  | .keepalive => some .keepalive
  | .dataClosed => some .dataClosed

section Step
variable (parse : String → Option Message) (M : Meeting)

def stepSession (w : Wired X) (x : Side) (e : Session.Event) : Option (Session X) :=
  Session.step (M.world x) (M.setup x) (w.session x) e

/-- The read of `Message::recv`: it waits for a whole frame, and fails at a wrong magic. -/
def hear (w : Wired X) (x : Side) : Option (Session.Event × Bytes) :=
  match CrocProto.read (w.inbox x) with
  | (.ok data, rest) =>
    match Message.ofFrame parse data with
    | .ok m => some (.message m, rest)
    | .error (.err e) => some (.recvFailed e, rest)
    | .error (.panic _) => none
  | (.error (.err (.badMagic found)), rest) => some (.recvFailed (.badMagic found), rest)
  | (.error _, _) => none

def init (X : External) (M : Meeting) : Wired X where
  session x := Session.init X (M.world x) (M.setup x)
  bridge := .start fun x => ⟨stream (Session.init X (M.world x) (M.setup x)).sent, false⟩
  inbox _ := []
  inFlight := []

def step (w : Wired X) : Event → Option (Wired X)
  | .task x t => (w.stepSession M x (.task t)).map fun s =>
      { w.say x s with
        inFlight := if x = .a then w.inFlight ++ s.dataSent.drop (w.session .a).dataSent.length
          else w.inFlight }
  | .copy x e =>
      (w.bridge.step (fun y => ⟨[], w.closed y⟩) (x, e)).map fun b =>
        { w with
          bridge := b
          inbox := Function.update w.inbox x.other
            (w.inbox x.other ++ (b.loop x).written.drop (w.bridge.loop x).written.length) }
  | .recv x => (w.hear parse x).bind fun (e, rest) =>
      (w.stepSession M x e).map fun s =>
        { w.say x s with inbox := Function.update w.inbox x rest }
  | .recvFailed x e => (w.stepSession M x (.recvFailed e)).map fun s => w.say x s
  | .deliver k => (w.inFlight[k]?).bind fun frame =>
      (w.stepSession M .b (.chunk frame)).map fun s =>
        { w.say .b s with inFlight := w.inFlight.eraseIdx k }
  | .lose k => (w.inFlight[k]?).map fun _ => { w with inFlight := w.inFlight.eraseIdx k }
  | .keepalive => (w.stepSession M .b (.chunk Pair.keepaliveFrame)).map fun s => w.say .b s
  | .dataClosed => (w.stepSession M .b .dataClosed).map fun s => w.say .b s

def machine (X : External) (M : Meeting) : Machine (Wired X) Event where
  init := init X M
  step := step parse M

end Step

/-- No message is too long for a frame. -/
def Short (msgs : List Message) : Prop := ∀ m ∈ msgs, m.payload.length < 2 ^ 32

instance (msgs : List Message) : Decidable (Short msgs) :=
  inferInstanceAs (Decidable (∀ m ∈ msgs, m.payload.length < 2 ^ 32))

/-- The first `n` messages that side `x` has sent have been received. The others are under way, in
what has arrived at the other side, in the buffer of the copy loop, and on the socket. -/
structure Flows (w : Wired X) (x : Side) (n : ℕ) : Prop where
  le : n ≤ (w.session x).sent.length
  bytes : ∃ rest, stream ((w.session x).sent.drop n) = w.inbox x.other ++ rest ∧
    (w.bridge.result = none → rest = (w.bridge.loop x).held ++ (w.bridge.loop x).unread)

section Flows
variable {w w' : Wired X} {x y : Side} {n : ℕ}

theorem stream_append (a b : List Message) : stream (a ++ b) = stream a ++ stream b := by
  simp [stream, CrocProto.frames]

/-- A stream of messages can be taken apart in one way only, and no message of it begins to be
understood before it is whole: the streams that another one begins with are those of its first
messages. -/
theorem stream_prefix_iff {ms ms' : List Message} (h : Short ms) (h' : Short ms') :
    stream ms <+: stream ms' ↔ ms <+: ms' := by
  have hread : ∀ l : List Message, Short l →
      CrocProto.readAll (stream l) = l.map Message.payload := by
    intro l hl
    refine CrocProto.readAll_frames fun msg hmsg => ?_
    obtain ⟨m, hm, rfl⟩ := List.mem_map.mp hmsg
    exact hl m hm
  constructor
  · intro hprefix
    have hpayloads := CrocProto.readAll_mono hprefix
    rw [hread ms h, hread ms' h', List.prefix_iff_eq_take, List.length_map, ← List.map_take]
      at hpayloads
    exact List.prefix_iff_eq_take.mpr
      (List.map_injective_iff.mpr Message.payload_injective hpayloads)
  · rintro ⟨more, rfl⟩
    exact stream_append ms more ▸ List.prefix_append _ _

/-- The stream of an address is where the stream of an address and a farewell begins. -/
theorem stream_prefix_farewell : stream [.externalIP ⟨"10.0.0.1"⟩] <+:
    stream [.externalIP ⟨"10.0.0.1"⟩, .finished] :=
  (stream_prefix_iff (by decide +kernel) (by decide +kernel)).mpr (List.prefix_append _ _)

/-- What does not concern the messages of a side leaves them on their way. -/
theorem Flows.congr (h : Flows w x n) (hs : (w'.session x).sent = (w.session x).sent)
    (hinbox : w'.inbox x.other = w.inbox x.other) (hloop : w'.bridge.loop x = w.bridge.loop x)
    (hresult : w'.bridge.result = none → w.bridge.result = none) : Flows w' x n := by
  obtain ⟨hle, rest, hstream, hrest⟩ := h
  refine ⟨hs ▸ hle, rest, ?_, fun hnone => ?_⟩
  · rw [hs, hinbox]
    exact hstream
  · rw [hloop]
    exact hrest (hresult hnone)

theorem Flows.say (h : Flows w x n) {s : Session X} {l : List Message}
    (hs : s.sent = (w.session x).sent ++ l) : Flows (w.say x s) x n := by
  obtain ⟨hle, rest, hstream, hrest⟩ := h
  have hsent : ((w.say x s).session x).sent = (w.session x).sent ++ l := by
    simpa [Wired.say] using hs
  refine ⟨?_, rest ++ stream l, ?_, fun hnone => ?_⟩
  · rw [hsent, List.length_append]
    omega
  · rw [hsent, List.drop_append_of_le_length hle, stream_append, hstream, List.append_assoc]
    rfl
  · have hloop : (w.say x s).bridge.loop x =
        { w.bridge.loop x with unread := (w.bridge.loop x).unread ++ stream l } := by
      simp [Wired.say, Bridge.feed, hs]
    rw [hrest hnone, hloop, List.append_assoc]
    rfl

theorem Flows.say_other (h : Flows w x n) (hxy : x ≠ y) (s : Session X) : Flows (w.say y s) x n :=
  h.congr (by simp [Wired.say, hxy]) rfl (by simp [Wired.say, Bridge.feed, hxy]) id

/-- A step of a bridge is one of a loop, after which the bridge goes on only if that has not
failed. -/
theorem bridge_step {feed : Side → Feed} {b b' : Bridge} {e : CopyEvent}
    (he : b.step feed (y, e) = some b') : b.result = none ∧ ∃ l,
      (b.loop y).step (feed y).ends e = some l ∧ b'.loop = Function.update b.loop y l ∧
        (b'.result = none → l.pc ≠ .failed) := by
  obtain ⟨hresult, he⟩ := Option.ite_none_right_eq_some.mp he
  obtain ⟨l, hl, rfl⟩ := Option.map_eq_some_iff.mp he
  refine ⟨hresult, l, hl, Bridge.join_loop _, fun hnone hfailed => ?_⟩
  have hany : (Function.update b.loop y l .a).pc = .failed ∨
      (Function.update b.loop y l .b).pc = .failed := by
    cases y <;> simp [hfailed]
  rw [Bridge.join, if_pos hany] at hnone
  cases hnone

/-- The loop of a side brings its bytes closer to the other side. -/
theorem Flows.copied {b : Bridge} {l : CopyLoop} {ends : Bool} {e : CopyEvent}
    (h : Flows w x n) (hresult : w.bridge.result = none)
    (hl : (w.bridge.loop x).step ends e = some l)
    (hloop : b.loop = Function.update w.bridge.loop x l)
    (hfailed : b.result = none → l.pc ≠ .failed) :
    Flows { w with
      bridge := b
      inbox := Function.update w.inbox x.other
        (w.inbox x.other ++ (b.loop x).written.drop (w.bridge.loop x).written.length) } x n := by
  obtain ⟨hle, rest, hstream, hrest⟩ := h
  have hrest := hrest hresult
  have hself : b.loop x = l := by rw [hloop, Function.update_self]
  subst hrest
  obtain ⟨k, hpc, -, -, -, rfl⟩ | ⟨hpc, -, -, rfl⟩ | rfl | ⟨buffer, k, hpc, -, hk, rfl⟩ :=
    CopyLoop.step_cases hl
  · refine ⟨hle, _, ?_, fun _ => rfl⟩
    simpa [hself, CopyLoop.held, hpc] using hstream
  · refine ⟨hle, _, ?_, fun _ => rfl⟩
    simpa [hself, CopyLoop.held, hpc] using hstream
  · refine ⟨hle, (w.bridge.loop x).held ++ (w.bridge.loop x).unread, ?_,
      fun hnone => absurd rfl (hfailed hnone)⟩
    simpa [hself] using hstream
  · refine ⟨hle, buffer.drop k ++ (w.bridge.loop x).unread, ?_, fun _ => ?_⟩
    · have hsplit := List.take_append_drop k buffer
      rw [CopyLoop.held, hpc] at hstream
      simp only [hself, Function.update_self, List.drop_left, List.append_assoc]
      rw [hstream, ← List.append_assoc (buffer.take k), hsplit]
    · rw [hself]
      by_cases hall : k = buffer.length <;> simp [CopyLoop.held, hall]

theorem Flows.copy {e : CopyEvent} {feed : Side → Feed} {b : Bridge} (h : Flows w x n)
    (he : w.bridge.step feed (y, e) = some b) :
    Flows { w with
      bridge := b
      inbox := Function.update w.inbox y.other
        (w.inbox y.other ++ (b.loop y).written.drop (w.bridge.loop y).written.length) } x n := by
  obtain ⟨hresult, l, hl, hloop, hfailed⟩ := bridge_step he
  by_cases hxy : x = y
  · subst hxy
    exact h.copied hresult hl hloop hfailed
  · have hother : x.other ≠ y.other := fun he => hxy (by simpa using congrArg Side.other he)
    exact h.congr rfl (by simp [hother]) (by simp [hloop, hxy]) fun _ => hresult

/-- The next frame that a side reads is the next message of the other one. -/
theorem Flows.received (h : Flows w x n) (hshort : Short (w.session x).sent) {data left : Bytes}
    (hr : CrocProto.read (w.inbox x.other) = (.ok data, left)) :
    ∃ m, (w.session x).sent[n]? = some m ∧ data = m.payload ∧
      Flows { w with inbox := Function.update w.inbox x.other left } x (n + 1) := by
  obtain ⟨hle, rest, hstream, hrest⟩ := h
  have hmsgs : ∀ msg ∈ ((w.session x).sent.drop n).map Message.payload, msg.length < 2 ^ 32 := by
    intro msg hmsg
    obtain ⟨m, hm, rfl⟩ := List.mem_map.mp hmsg
    exact hshort m (List.mem_of_mem_drop hm)
  obtain ⟨more, hmore, hleft⟩ := CrocProto.read_of_frames hmsgs hstream hr
  obtain ⟨m, msgs, hdrop, hm, rfl⟩ := List.map_eq_cons_iff.mp hmore
  obtain ⟨hget, htail⟩ : (w.session x).sent[n]? = some m ∧
      (w.session x).sent.drop (n + 1) = msgs := by
    refine ⟨?_, ?_⟩
    · rw [← List.head?_drop, hdrop, List.head?_cons]
    · rw [← List.tail_drop, hdrop, List.tail_cons]
  refine ⟨m, hget, hm.symm, ?_, rest, ?_, hrest⟩
  · exact (List.getElem?_eq_some_iff.mp hget).1
  · dsimp only
    rw [Function.update_self]
    exact (congrArg stream htail).trans hleft

/-- What a side says goes on its way behind what it has said before. -/
theorem Flows.step {M : Meeting} {e : Session.Event} {s : Session X} (h : Flows w y n)
    (he : w.stepSession M x e = some s) : Flows (w.say x s) y n := by
  by_cases hyx : y = x
  · subst hyx
    obtain ⟨l, hl, -⟩ := (step_logged he).sent
    exact h.say hl
  · exact h.say_other hyx s

end Flows

/-- The pair that the ends make up, when the messages between them are counted as they are
received. -/
structure Shows (w : Wired X) (p : Pair X) : Prop where
  sender : w.session .a = p.sender
  receiver : w.session .b = p.receiver
  inFlight : w.inFlight = p.inFlight
  toSender : Flows w .b p.toSender
  toReceiver : Flows w .a p.toReceiver

section Shows
variable {parse : String → Option Message} {M : Meeting} {w w' : Wired X} {p : Pair X}

theorem ofFrame_payload (hparse : ∀ m : Message, parse m.text = some m) (m : Message) :
    Message.ofFrame parse m.payload = .ok m :=
  bind_eq_ok.mpr ⟨m.text, by rw [Message.payload, fromUtf8_asBytes, orErr_some], by
    rw [hparse, orErr_some]⟩

/-- A side hears the next message of the other one. -/
theorem Flows.hear {x : Side} {n : ℕ} {e : Session.Event} {rest : Bytes}
    (hparse : ∀ m : Message, parse m.text = some m) (h : Flows w x n)
    (hshort : Short (w.session x).sent) (he : w.hear parse x.other = some (e, rest)) :
    ∃ m, (w.session x).sent[n]? = some m ∧ e = .message m ∧
      Flows { w with inbox := Function.update w.inbox x.other rest } x (n + 1) := by
  unfold Wired.hear at he
  split at he
  next data left hr =>
    obtain ⟨m, hm, rfl, hflows⟩ := h.received hshort hr
    rw [ofFrame_payload hparse] at he
    obtain ⟨rfl, rfl⟩ := Prod.mk.inj (Option.some.inj he)
    exact ⟨m, hm, rfl, hflows⟩
  next found left hr =>
    obtain ⟨-, rest, hstream, -⟩ := h
    exact absurd hr (CrocProto.read_frames_ne_badMagic hstream found)
  · cases he

section Ends
variable {e : Session.Event} {s : Session X}

theorem Shows.at_sender (h : Shows w p) (hs : w.stepSession M .a e = some s) :
    p.stepSender M e = some s ∧ Shows (w.say .a s) { p with sender := s } := by
  refine ⟨?_, rfl, h.receiver, h.inFlight, h.toSender.step hs, h.toReceiver.step hs⟩
  rw [Pair.stepSender, ← h.sender]
  exact hs

theorem Shows.at_receiver (h : Shows w p) (hs : w.stepSession M .b e = some s) :
    p.stepReceiver M e = some s ∧ Shows (w.say .b s) { p with receiver := s } := by
  refine ⟨?_, h.sender, rfl, h.inFlight, h.toSender.step hs, h.toReceiver.step hs⟩
  rw [Pair.stepReceiver, ← h.receiver]
  exact hs

theorem Shows.frames (h : Shows w p) (inFlight : List DataFrame) :
    Shows { w with inFlight := inFlight } { p with inFlight := inFlight } :=
  ⟨h.sender, h.receiver, rfl, h.toSender.congr rfl rfl rfl id, h.toReceiver.congr rfl rfl rfl id⟩

end Ends

/-- A step of the ends and of the bridge between them is one of the pair, or nothing to it. -/
theorem Shows.step (hparse : ∀ m : Message, parse m.text = some m) (h : Shows w p)
    (hshort : ∀ x, Short (w.session x).sent) {e : Event} (he : step parse M w e = some w') :
    e.asPair = none ∧ Shows w' p ∨
      ∃ e' p', e.asPair = some e' ∧ Pair.step M p e' = some p' ∧ Shows w' p' := by
  cases e with
  | task x t =>
    obtain ⟨s, hs, rfl⟩ := Option.map_eq_some_iff.mp he
    cases x with
    | a =>
      obtain ⟨hp, h'⟩ := h.at_sender hs
      refine Or.inr ⟨.sender t, _, rfl, Option.map_eq_some_iff.mpr ⟨s, hp, rfl⟩, ?_⟩
      simpa [h.inFlight, h.sender] using
        h'.frames (p.inFlight ++ s.dataSent.drop p.sender.dataSent.length)
    | b =>
      obtain ⟨hp, h'⟩ := h.at_receiver hs
      exact Or.inr ⟨.receiver t, _, rfl, Option.map_eq_some_iff.mpr ⟨s, hp, rfl⟩, h'⟩
  | copy x e =>
    obtain ⟨b, hb, rfl⟩ := Option.map_eq_some_iff.mp he
    exact Or.inl ⟨rfl, h.sender, h.receiver, h.inFlight, h.toSender.copy hb, h.toReceiver.copy hb⟩
  | recv x =>
    obtain ⟨⟨e, rest⟩, hear, he⟩ := Option.bind_eq_some_iff.mp he
    obtain ⟨s, hs, rfl⟩ := Option.map_eq_some_iff.mp he
    cases x with
    | a =>
      obtain ⟨m, hm, rfl, hflows⟩ := h.toSender.hear hparse (hshort .b) hear
      rw [h.receiver] at hm
      have h1 : Shows { w with inbox := Function.update w.inbox .a rest }
          { p with toSender := p.toSender + 1 } :=
        ⟨h.sender, h.receiver, h.inFlight, hflows, h.toReceiver.congr rfl rfl rfl id⟩
      obtain ⟨hp, h'⟩ := h1.at_sender hs
      refine Or.inr ⟨.toSender, _, rfl, Option.bind_eq_some_iff.mpr ⟨m, hm, ?_⟩, h'⟩
      exact Option.map_eq_some_iff.mpr ⟨s, hp, rfl⟩
    | b =>
      obtain ⟨m, hm, rfl, hflows⟩ := h.toReceiver.hear hparse (hshort .a) hear
      rw [h.sender] at hm
      have h1 : Shows { w with inbox := Function.update w.inbox .b rest }
          { p with toReceiver := p.toReceiver + 1 } :=
        ⟨h.sender, h.receiver, h.inFlight, h.toSender.congr rfl rfl rfl id, hflows⟩
      obtain ⟨hp, h'⟩ := h1.at_receiver hs
      refine Or.inr ⟨.toReceiver, _, rfl, Option.bind_eq_some_iff.mpr ⟨m, hm, ?_⟩, h'⟩
      exact Option.map_eq_some_iff.mpr ⟨s, hp, rfl⟩
  | recvFailed x err =>
    obtain ⟨s, hs, rfl⟩ := Option.map_eq_some_iff.mp he
    cases x with
    | a =>
      obtain ⟨hp, h'⟩ := h.at_sender hs
      exact Or.inr ⟨.senderRecvFailed err, _, rfl, Option.map_eq_some_iff.mpr ⟨s, hp, rfl⟩, h'⟩
    | b =>
      obtain ⟨hp, h'⟩ := h.at_receiver hs
      exact Or.inr ⟨.receiverRecvFailed err, _, rfl, Option.map_eq_some_iff.mpr ⟨s, hp, rfl⟩, h'⟩
  | deliver k =>
    obtain ⟨frame, hframe, he⟩ := Option.bind_eq_some_iff.mp he
    obtain ⟨s, hs, rfl⟩ := Option.map_eq_some_iff.mp he
    obtain ⟨hp, h'⟩ := h.at_receiver hs
    rw [h.inFlight] at hframe
    refine Or.inr ⟨.deliver k, _, rfl, Option.bind_eq_some_iff.mpr ⟨frame, hframe,
      Option.map_eq_some_iff.mpr ⟨s, hp, rfl⟩⟩, ?_⟩
    simpa [h.inFlight] using h'.frames (p.inFlight.eraseIdx k)
  | lose k =>
    obtain ⟨frame, hframe, rfl⟩ := Option.map_eq_some_iff.mp he
    rw [h.inFlight] at hframe
    refine Or.inr ⟨.lose k, _, rfl, Option.map_eq_some_iff.mpr ⟨frame, hframe, rfl⟩, ?_⟩
    simpa [h.inFlight] using h.frames (p.inFlight.eraseIdx k)
  | keepalive =>
    obtain ⟨s, hs, rfl⟩ := Option.map_eq_some_iff.mp he
    obtain ⟨hp, h'⟩ := h.at_receiver hs
    exact Or.inr ⟨.keepalive, _, rfl, Option.map_eq_some_iff.mpr ⟨s, hp, rfl⟩, h'⟩
  | dataClosed =>
    have he : (w.stepSession M .b .dataClosed).map (fun s => w.say .b s) = some w' := he
    obtain ⟨s, hs, rfl⟩ := Option.map_eq_some_iff.mp he
    obtain ⟨hp, h'⟩ := h.at_receiver hs
    have hstep : Pair.step M p .dataClosed =
        (p.stepReceiver M .dataClosed).map fun r => { p with receiver := r } := rfl
    exact Or.inr ⟨.dataClosed, _, rfl, hstep.trans (by rw [hp, Option.map_some]), h'⟩

end Shows

section Sessions
variable {parse : String → Option Message} {M : Meeting} {w w' : Wired X} {p p' : Pair X}

/-- A session stays as it is or takes a step. -/
theorem session_step {e : Event} (he : step parse M w e = some w') (y : Side) :
    w'.session y = w.session y ∨ ∃ e', w.stepSession M y e' = some (w'.session y) := by
  have hsay : ∀ x e' s, w.stepSession M x e' = some s → Function.update w.session x s y =
      w.session y ∨ ∃ e', w.stepSession M y e' = some (Function.update w.session x s y) := by
    intro x e' s hs
    by_cases hyx : y = x
    · subst hyx
      rw [Function.update_self]
      exact Or.inr ⟨e', hs⟩
    · exact Or.inl (Function.update_of_ne hyx _ _)
  cases e with
  | task x t | recvFailed x e | keepalive =>
    obtain ⟨s, hs, rfl⟩ := Option.map_eq_some_iff.mp he
    exact hsay _ _ s hs
  | dataClosed =>
    have he : (w.stepSession M .b .dataClosed).map (fun s => w.say .b s) = some w' := he
    obtain ⟨s, hs, rfl⟩ := Option.map_eq_some_iff.mp he
    exact hsay _ _ s hs
  | copy x e | lose k =>
    obtain ⟨b, -, rfl⟩ := Option.map_eq_some_iff.mp he
    exact Or.inl rfl
  | recv x =>
    obtain ⟨⟨e, rest⟩, -, he⟩ := Option.bind_eq_some_iff.mp he
    obtain ⟨s, hs, rfl⟩ := Option.map_eq_some_iff.mp he
    exact hsay _ _ s hs
  | deliver k =>
    obtain ⟨frame, -, he⟩ := Option.bind_eq_some_iff.mp he
    obtain ⟨s, hs, rfl⟩ := Option.map_eq_some_iff.mp he
    exact hsay _ _ s hs

theorem Short.of_step {W : World} {c : Setup} {s t : Session X} {e : Session.Event}
    (he : Session.step W c s e = some t) (h : Short t.sent) : Short s.sent := by
  obtain ⟨l, hl, -⟩ := (step_logged he).sent
  exact fun m hm => h m (hl ▸ List.mem_append_left _ hm)

/-- Messages that are short in the end have been so all along. -/
theorem short_of_step {e : Event} (he : step parse M w e = some w')
    (h : ∀ x, Short (w'.session x).sent) (x : Side) : Short (w.session x).sent := by
  rcases session_step he x with hx | ⟨e', hx⟩
  · exact hx ▸ h x
  · exact Short.of_step hx (h x)

theorem short_of_pairStep {e : Pair.Event} (he : Pair.step M p e = some p')
    (h : Short p'.sender.sent ∧ Short p'.receiver.sent) :
    Short p.sender.sent ∧ Short p.receiver.sent := by
  rcases Pair.step_ends he with ⟨e', s, hs, hps, hpr, -⟩ | ⟨e', r, hr, hpr, hps, -⟩ |
    ⟨hps, hpr, -⟩
  · exact ⟨Short.of_step hs (hps ▸ h.1), hpr ▸ h.2⟩
  · exact ⟨hps ▸ h.1, Short.of_step hr (hpr ▸ h.2)⟩
  · exact ⟨hps ▸ h.1, hpr ▸ h.2⟩

end Sessions

/-- The bridge is up, and has written all that it has read. -/
structure Quiet (w : Wired X) : Prop where
  up : w.bridge.result = none
  reading : ∀ x, (w.bridge.loop x).pc = .read

section Carry
variable {parse : String → Option Message} {M : Meeting} {w w' : Wired X} {p p' : Pair X}
  {x : Side}

theorem Quiet.say (h : Quiet w) (x : Side) (s : Session X) : Quiet (w.say x s) where
  up := h.up
  reading y := by
    by_cases hyx : y = x
    · subst hyx
      simpa [Wired.say, Bridge.feed] using h.reading y
    · simpa [Wired.say, Bridge.feed, hyx] using h.reading y

theorem Quiet.drained (h : Quiet w) (hnil : (w.bridge.loop x).unread = []) :
    (w.bridge.loop x).held ++ (w.bridge.loop x).unread = [] := by
  rw [CopyLoop.held, h.reading x, hnil]
  rfl

variable (parse M)

/-- A turn of a loop whose bridge stays up. -/
theorem exists_turn (h : Shows w p) {e : CopyEvent} {l : CopyLoop} (hup : w.bridge.result = none)
    (hl : (w.bridge.loop x).step (w.closed x) e = some l) (hpc : l.pc ≠ .failed)
    (hother : (w.bridge.loop x.other).pc = .read) : ∃ w', step parse M w (.copy x e) = some w' ∧
      Shows w' p ∧ w'.bridge = { w.bridge with loop := Function.update w.bridge.loop x l } := by
  have hb : w.bridge.step (fun y => ⟨[], w.closed y⟩) (x, e) =
      some { w.bridge with loop := Function.update w.bridge.loop x l } :=
    Bridge.step_of_reading hup hl hpc hother
  exact ⟨_, Option.map_eq_some_iff.mpr ⟨_, hb, rfl⟩, ⟨h.sender, h.receiver, h.inFlight,
    h.toSender.copy hb, h.toReceiver.copy hb⟩, rfl⟩

/-- The loop of a side copies its next byte. -/
theorem exists_copied (h : Shows w p) (hq : Quiet w) {byte : UInt8} {more : Bytes}
    (hunread : (w.bridge.loop x).unread = byte :: more) : ∃ w',
      Relation.ReflTransGen ((machine parse X M).Next fun _ _ => True) w w' ∧ Shows w' p ∧
        Quiet w' ∧ (w'.bridge.loop x).unread = more := by
  have hother := hq.reading x.other
  obtain ⟨w₁, he₁, h₁, hb₁⟩ := exists_turn parse M h (e := .read 1) (l := {
    w.bridge.loop x with
      unread := more
      taken := (w.bridge.loop x).taken ++ [byte]
      pc := .writeAll [byte] }) hq.up (by simp [CopyLoop.step, hq.reading x, hunread]) (by simp)
      hother
  have hloop₁ : w₁.bridge.loop x.other = w.bridge.loop x.other := by simp [hb₁, x.other_ne]
  obtain ⟨w₂, he₂, h₂, hb₂⟩ := exists_turn parse M h₁ (x := x) (e := .writeSome 1)
    (l := { w₁.bridge.loop x with
      written := (w₁.bridge.loop x).written ++ [byte]
      pc := .read }) (by simp [hb₁, hq.up]) (by simp [CopyLoop.step, hb₁]) (by simp)
      (hloop₁ ▸ hother)
  refine ⟨w₂, .tail (.single ⟨.copy x (.read 1), trivial, he₁⟩)
    ⟨.copy x (.writeSome 1), trivial, he₂⟩, h₂, ⟨?_, fun y => ?_⟩, ?_⟩
  · simp [hb₂, hb₁, hq.up]
  · rcases x.eq_or_eq_other y with rfl | rfl
    · simp [hb₂]
    · simp [hb₂, x.other_ne, hloop₁, hother]
  · simp [hb₂, hb₁]

/-- All that is on a socket can be brought to the other side. -/
theorem exists_drained (h : Shows w p) (hq : Quiet w) (x : Side) : ∃ w',
    Relation.ReflTransGen ((machine parse X M).Next fun _ _ => True) w w' ∧ Shows w' p ∧
      Quiet w' ∧ (w'.bridge.loop x).unread = [] := by
  induction hunread : (w.bridge.loop x).unread generalizing w with
  | nil => exact ⟨w, .refl, h, hq, hunread⟩
  | cons byte more ih =>
    obtain ⟨w₁, hrun, h₁, hq₁, hmore⟩ := exists_copied parse M h hq hunread
    obtain ⟨w₂, hrun₂, h₂, hq₂, hnil⟩ := ih h₁ hq₁ hmore
    exact ⟨w₂, hrun.trans hrun₂, h₂, hq₂, hnil⟩

variable {parse M}

/-- A message that has come through is the next one to be heard. -/
theorem Flows.hear_drained {n : ℕ} {m : Message} (hparse : ∀ m : Message, parse m.text = some m)
    (h : Flows w x n) (hup : w.bridge.result = none)
    (hnil : (w.bridge.loop x).held ++ (w.bridge.loop x).unread = [])
    (hm : (w.session x).sent[n]? = some m) (hshort : Short (w.session x).sent) :
    w.hear parse x.other = some (.message m, stream ((w.session x).sent.drop (n + 1))) := by
  obtain ⟨-, rest, hstream, hrest⟩ := h
  rw [hrest hup, hnil, List.append_nil] at hstream
  obtain ⟨hlt, hget⟩ := List.getElem?_eq_some_iff.mp hm
  have hdrop : (w.session x).sent.drop n = m :: (w.session x).sent.drop (n + 1) := by
    rw [List.drop_eq_getElem_cons hlt, hget]
  have hread : CrocProto.read (w.inbox x.other) =
      (.ok m.payload, stream ((w.session x).sent.drop (n + 1))) := by
    rw [← hstream, hdrop, stream, List.map_cons, CrocProto.frames_cons,
      CrocProto.read_frame (hshort m (List.mem_of_getElem? hm))]
    rfl
  rw [Wired.hear, hread]
  simp only [ofFrame_payload hparse]

theorem Shows.sender_goes (h : Shows w p) {e : Session.Event} {s : Session X}
    (hs : p.stepSender M e = some s) :
    w.stepSession M .a e = some s ∧ Shows (w.say .a s) { p with sender := s } := by
  have hw : w.stepSession M .a e = some s := by
    rw [stepSession, h.sender]
    exact hs
  exact ⟨hw, (h.at_sender hw).2⟩

theorem Shows.receiver_goes (h : Shows w p) {e : Session.Event} {s : Session X}
    (hs : p.stepReceiver M e = some s) :
    w.stepSession M .b e = some s ∧ Shows (w.say .b s) { p with receiver := s } := by
  have hw : w.stepSession M .b e = some s := by
    rw [stepSession, h.receiver]
    exact hs
  exact ⟨hw, (h.at_receiver hw).2⟩

/-- A step of a pair is taken over a bridge by a few steps. -/
theorem exists_run (hparse : ∀ m : Message, parse m.text = some m) (h : Shows w p) (hq : Quiet w)
    (hs : Short p.sender.sent) (hr : Short p.receiver.sent) {e : Pair.Event}
    (he : Pair.step M p e = some p') : ∃ w',
      Relation.ReflTransGen ((machine parse X M).Next fun _ _ => True) w w' ∧ Shows w' p' ∧
        Quiet w' := by
  cases e with
  | sender t =>
    obtain ⟨s, hs, rfl⟩ := Option.map_eq_some_iff.mp he
    obtain ⟨hw, h'⟩ := h.sender_goes hs
    refine ⟨_, .single ⟨.task .a t, trivial, Option.map_eq_some_iff.mpr ⟨s, hw, rfl⟩⟩, ?_, ?_⟩
    · simpa [h.inFlight, h.sender] using
        h'.frames (p.inFlight ++ s.dataSent.drop p.sender.dataSent.length)
    · exact ⟨(hq.say .a s).up, (hq.say .a s).reading⟩
  | receiver t =>
    obtain ⟨s, hs, rfl⟩ := Option.map_eq_some_iff.mp he
    obtain ⟨hw, h'⟩ := h.receiver_goes hs
    exact ⟨_, .single ⟨.task .b t, trivial, Option.map_eq_some_iff.mpr ⟨s, hw, rfl⟩⟩, h',
      (hq.say .b s).up, (hq.say .b s).reading⟩
  | toSender =>
    obtain ⟨m, hm, he⟩ := Option.bind_eq_some_iff.mp he
    obtain ⟨s, hs, rfl⟩ := Option.map_eq_some_iff.mp he
    obtain ⟨w₁, hrun, h₁, hq₁, hnil⟩ := exists_drained parse M h hq .b
    rw [← h₁.receiver] at hm hr
    have hear := h₁.toSender.hear_drained hparse hq₁.up (hq₁.drained hnil) hm hr
    obtain ⟨m', hm', hsame, hflows⟩ := h₁.toSender.hear hparse hr hear
    have h₂ : Shows { w₁ with inbox := Function.update w₁.inbox .a _ }
        { p with toSender := p.toSender + 1 } :=
      ⟨h₁.sender, h₁.receiver, h₁.inFlight, hflows, h₁.toReceiver.congr rfl rfl rfl id⟩
    obtain ⟨hw, h'⟩ := h₂.sender_goes hs
    refine ⟨_, hrun.tail ⟨.recv .a, trivial, Option.bind_eq_some_iff.mpr ⟨_, hear, ?_⟩⟩, h',
      (hq₁.say .a s).up, (hq₁.say .a s).reading⟩
    exact Option.map_eq_some_iff.mpr ⟨s, hw, rfl⟩
  | toReceiver =>
    obtain ⟨m, hm, he⟩ := Option.bind_eq_some_iff.mp he
    obtain ⟨s, hs', rfl⟩ := Option.map_eq_some_iff.mp he
    obtain ⟨w₁, hrun, h₁, hq₁, hnil⟩ := exists_drained parse M h hq .a
    rw [← h₁.sender] at hm hs
    have hear := h₁.toReceiver.hear_drained hparse hq₁.up (hq₁.drained hnil) hm hs
    obtain ⟨m', hm', hsame, hflows⟩ := h₁.toReceiver.hear hparse hs hear
    have h₂ : Shows { w₁ with inbox := Function.update w₁.inbox .b _ }
        { p with toReceiver := p.toReceiver + 1 } :=
      ⟨h₁.sender, h₁.receiver, h₁.inFlight, h₁.toSender.congr rfl rfl rfl id, hflows⟩
    obtain ⟨hw, h'⟩ := h₂.receiver_goes hs'
    refine ⟨_, hrun.tail ⟨.recv .b, trivial, Option.bind_eq_some_iff.mpr ⟨_, hear, ?_⟩⟩, h',
      (hq₁.say .b s).up, (hq₁.say .b s).reading⟩
    exact Option.map_eq_some_iff.mpr ⟨s, hw, rfl⟩
  | senderRecvFailed err =>
    obtain ⟨s, hs, rfl⟩ := Option.map_eq_some_iff.mp he
    obtain ⟨hw, h'⟩ := h.sender_goes hs
    exact ⟨_, .single ⟨.recvFailed .a err, trivial, Option.map_eq_some_iff.mpr ⟨s, hw, rfl⟩⟩, h',
      hq.say .a s⟩
  | receiverRecvFailed err =>
    obtain ⟨s, hs, rfl⟩ := Option.map_eq_some_iff.mp he
    obtain ⟨hw, h'⟩ := h.receiver_goes hs
    exact ⟨_, .single ⟨.recvFailed .b err, trivial, Option.map_eq_some_iff.mpr ⟨s, hw, rfl⟩⟩, h',
      hq.say .b s⟩
  | deliver k =>
    obtain ⟨frame, hframe, he⟩ := Option.bind_eq_some_iff.mp he
    obtain ⟨s, hs, rfl⟩ := Option.map_eq_some_iff.mp he
    obtain ⟨hw, h'⟩ := h.receiver_goes hs
    rw [← h.inFlight] at hframe
    refine ⟨_, .single ⟨.deliver k, trivial, Option.bind_eq_some_iff.mpr ⟨frame, hframe,
      Option.map_eq_some_iff.mpr ⟨s, hw, rfl⟩⟩⟩, ?_, (hq.say .b s).up, (hq.say .b s).reading⟩
    simpa [h.inFlight] using h'.frames (p.inFlight.eraseIdx k)
  | lose k =>
    obtain ⟨frame, hframe, rfl⟩ := Option.map_eq_some_iff.mp he
    rw [← h.inFlight] at hframe
    refine ⟨_, .single ⟨.lose k, trivial, Option.map_eq_some_iff.mpr ⟨frame, hframe, rfl⟩⟩, ?_,
      hq.up, hq.reading⟩
    simpa [h.inFlight] using h.frames (p.inFlight.eraseIdx k)
  | keepalive =>
    obtain ⟨s, hs, rfl⟩ := Option.map_eq_some_iff.mp he
    obtain ⟨hw, h'⟩ := h.receiver_goes hs
    exact ⟨_, .single ⟨.keepalive, trivial, Option.map_eq_some_iff.mpr ⟨s, hw, rfl⟩⟩, h',
      hq.say .b s⟩
  | dataClosed =>
    have he : (p.stepReceiver M .dataClosed).map (fun r => { p with receiver := r }) = some p' := he
    obtain ⟨s, hs, rfl⟩ := Option.map_eq_some_iff.mp he
    obtain ⟨hw, h'⟩ := h.receiver_goes hs
    have hstep : step parse M w .dataClosed =
        (w.stepSession M .b .dataClosed).map fun s => w.say .b s := rfl
    exact ⟨_, .single ⟨.dataClosed, trivial, hstep.trans (by rw [hw, Option.map_some])⟩, h',
      hq.say .b s⟩

end Carry

section Main
variable {parse : String → Option Message} {M : Meeting}

theorem shows_init (X : External) (M : Meeting) : Shows (init X M) (Pair.init X M) ∧
    Quiet (init X M) := by
  refine ⟨⟨rfl, rfl, rfl, ⟨Nat.zero_le _, _, rfl, fun _ => ?_⟩, ⟨Nat.zero_le _, _, rfl,
    fun _ => ?_⟩⟩, rfl, fun _ => rfl⟩
  · rfl
  · rfl

/-- The bridge adds nothing to what can happen to a pair. -/
theorem simulates_pair (hparse : ∀ m : Message, parse m.text = some m) :
    (machine parse X M).Simulates (Pair.machine X M) (fun _ _ => True) (fun _ _ => True)
      fun w p => (∀ x, Short (w.session x).sent) → Shows w p where
  init _ := (shows_init X M).1
  step := by
    intro w e w' p _ _ h _ he
    by_cases hshort : ∀ x, Short (w'.session x).sent
    · have hold := short_of_step he hshort
      rcases (h hold).step hparse hold he with ⟨-, h'⟩ | ⟨e', p', -, he', h'⟩
      · exact ⟨p, .refl, fun _ => h'⟩
      · exact ⟨p', .single ⟨e', trivial, he'⟩, fun _ => h'⟩
    · exact ⟨p, .refl, fun hs => absurd hs hshort⟩

/-- The bridge takes nothing from what can happen to a pair. -/
theorem pair_simulates (hparse : ∀ m : Message, parse m.text = some m) :
    (Pair.machine X M).Simulates (machine parse X M) (fun _ _ => True) (fun _ _ => True)
      fun p w => Short p.sender.sent ∧ Short p.receiver.sent → Shows w p ∧ Quiet w where
  init _ := shows_init X M
  step := by
    intro p e p' w _ _ h _ he
    by_cases hshort : Short p'.sender.sent ∧ Short p'.receiver.sent
    · have hold := short_of_pairStep he hshort
      obtain ⟨hw, hq⟩ := h hold
      obtain ⟨w', hrun, h', hq'⟩ := exists_run hparse hw hq hold.1 hold.2 he
      exact ⟨w', hrun, fun _ => ⟨h', hq'⟩⟩
    · exact ⟨w, .refl, fun hs => absurd hs hshort⟩

/-- Over a bridge that copies their bytes in pieces of any size, two ends get exactly as far as over
a connection that hands them whole messages in order. -/
theorem reachable_iff (hparse : ∀ m : Message, parse m.text = some m) {s r : Session X}
    (hs : Short s.sent) (hr : Short r.sent) :
    (∃ w, (machine parse X M).Reachable w ∧ w.session .a = s ∧ w.session .b = r) ↔
      ∃ p, (Pair.machine X M).Reachable p ∧ p.sender = s ∧ p.receiver = r := by
  constructor
  · rintro ⟨w, hw, rfl, rfl⟩
    obtain ⟨p, hp, h⟩ := (simulates_pair hparse).reachable hw
    have h := h fun x => by
      cases x
      exacts [hs, hr]
    exact ⟨p, hp, h.sender.symm, h.receiver.symm⟩
  · rintro ⟨p, hp, rfl, rfl⟩
    obtain ⟨w, hw, h⟩ := (pair_simulates hparse).reachable hp
    obtain ⟨h, -⟩ := h ⟨hs, hr⟩
    exact ⟨w, hw, h.sender, h.receiver⟩

/-- Two files are sent over a bridge. -/
theorem twoFiles_wired : ∃ w,
    (machine Pair.parseText .transparent (Pair.sharing "12345abc")).Reachable w ∧
      returnedOk (w.session .a).phase = true ∧ returnedOk (w.session .b).phase = true := by
  obtain ⟨p, hp, h⟩ := Machine.ReachableBy.exists_of_exec
    (M := Pair.machine .transparent (Pair.sharing "12345abc")) (fun _ _ => True)
    (fun p => decide (Short p.sender.sent) && decide (Short p.receiver.sent) &&
      (returnedOk p.sender.phase && returnedOk p.receiver.phase)) Pair.twoFilesRun
    (by decide +kernel)
  obtain ⟨hshort, hended⟩ := Bool.and_eq_true_iff.mp h
  obtain ⟨hs, hr⟩ := Bool.and_eq_true_iff.mp hshort
  obtain ⟨w, hw, ha, hb⟩ := (reachable_iff Pair.parseText_text (of_decide_eq_true hs)
    (of_decide_eq_true hr)).mpr ⟨p, hp, rfl, rfl⟩
  exact ⟨w, hw, by rw [ha, hb]; exact Bool.and_eq_true_iff.mp hended⟩

end Main
end Wired
end Croc
