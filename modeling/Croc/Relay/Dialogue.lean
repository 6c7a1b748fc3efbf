import Croc.Relay.Client
import Croc.Relay.Password
import Croc.Relay.Pairing

/-! A client that runs `RelayClient::negotiate_info` against a relay in any state. The two halves
of the negotiation take turns of their own, while the relay serves whoever else is connected, and
agree in the end on whether the client was let in. -/
namespace Croc.Server
open Lib

/-- A relay, and the client behind one of its connections: where its call has got to, how many
frames of the relay it has heard, and the ports and the address that it was told. -/
structure Dialogue where
  relay : State
  call : Call
  heard : ℕ
  info : Option (List String × String)

namespace Dialogue
variable (cfg : Config) (a : Caller) (t : ClientId)

/-- The payloads that are on their way to the client. -/
def unheard (d : Dialogue) : List Bytes := (d.relay.conn t).replies.drop d.heard

/-- The client writes to the connection, or gives up. -/
def say (d : Dialogue) (out : Except Halt Bytes) (next : Call) : Dialogue :=
  match out with
  | .ok bytes => { d with
      relay := d.relay.setConn t
        { d.relay.conn t with unread := (d.relay.conn t).unread ++ bytes }
      call := next }
  | .error h => { d with call := .done (.error h) }

/-- `enc.read` of the client: the next frame, or the end of the stream once the relay has dropped
the session. -/
def hear (d : Dialogue) : Option (Except Halt Bytes) :=
  match d.unheard t with
  | reply :: _ => some ((a.session cfg.ext).read cfg.ext (frame reply)).1
  | [] =>
    match d.relay.pc t with
    | .done _ => some ((a.session cfg.ext).read cfg.ext []).1
    | _ => none

/-- The client goes on from one await point to the next; `none` while it has to wait. -/
def turn (d : Dialogue) : Option Dialogue :=
  match d.call with
  | .writeSalt => some (d.say t (CrocProto.write a.salt.toList) .writePassword)
  | .writePassword => some (d.say t (a.sealed cfg.ext 0 a.password) .readInfo)
  | .readInfo => (d.hear cfg a t).map fun data =>
    match Caller.hearInfo data with
    | .ok info => { d with call := .writeRoom, heard := d.heard + 1, info := some info }
    | .error h => { d with call := .done (.error h), heard := d.heard + 1 }
  | .writeRoom => some (d.say t (a.sealed cfg.ext 1 a.room) .readResponse)
  | .readResponse => (d.hear cfg a t).map fun data =>
    { d with call := .done (a.hearResponse data), heard := d.heard + 1 }
  | .done _ => none

inductive Event where
  | relay (e : Server.Event)
  | client

def step (d : Dialogue) : Event → Option Dialogue
  | .relay e => (Server.step cfg d.relay e).map fun s => { d with relay := s }
  | .client => d.turn cfg a t

/-- The client calls when it has read the public key of the relay. -/
def start (s : State) : Dialogue := ⟨s, .writeSalt, (s.conn t).replies.length, none⟩

def machine (s : State) : Machine Dialogue Event := ⟨start t s, step cfg a t⟩

end Dialogue

/-- The negotiation awaits a message of the client. -/
def Nego.reads : Nego → Prop
  | .pakeRead | .saltRead _ | .passwordRead _ | .roomRead _ => True
  | _ => False

/-- A connection that loses nothing. As long as the client is there and has not been answered, the
relay's writes go through, and a read ends when a whole frame has arrived. -/
def Reliable (t : ClientId) (d : Dialogue) : Dialogue.Event → Prop
  | .relay (.resume u io) => u = t → (d.relay.pc t).unanswered → (∀ r, d.call ≠ .done r) →
      io.ok = true ∧ ∀ n, d.relay.pc t = .nego n → n.reads →
        ∃ msg rest, CrocProto.read (d.relay.conn t).unread = (.ok msg, rest)
  | _ => True

/-- The relay has got to the negotiation of `t`, which has sent nothing but its public key so far
and calls with the relay's key and password. -/
structure Calls (cfg : Config) (a : Caller) (t : ClientId) (s : State) : Prop where
  reachable : (machine cfg).Reachable s
  pc : s.pc t = .nego (.saltRead a.symKey)
  unread : (s.conn t).unread = []
  password : a.password = cfg.password t

/-- The client and the relay agree on what has become of the client. -/
structure Agree (cfg : Config) (a : Caller) (t : ClientId) (d : Dialogue) : Prop where
  ok : d.call = .done (.ok ()) → Joined d.relay t ∧ (Ended d.relay t ∨ ∃ p, Holds d.relay t p)
  joined : Joined d.relay t → ∀ r, d.call = .done r → r = .ok ()
  named : ∀ name, d.relay.pc t = .findRooms name → name = a.room
  full : ∀ name, d.call = .done (.error (.err (.roomFull name))) → .refused t ∈ d.relay.log
  refused : .refused t ∈ d.relay.log → ∀ r, d.call = .done r → r = .error (.err (.roomFull a.room))
  response : ∀ message, d.call ≠ .done (.error (.err (.badResponse message)))
  negotiation : d.call ≠ .done (.error (.err .roomNegotiationFailed))
  /-- The client hears of its answer. -/
  answer : Joined d.relay t ∨ .refused t ∈ d.relay.log →
    (∃ r, d.call = .done r) ∨ (d.turn cfg a t).isSome

section Frame
variable {cfg : Config} {s s' : State} {t u : ClientId}

/-- A step answers nobody but the client of its task, and that only once. -/
theorem Step.notes (hs : Step cfg s u s') : ∃ notes, s'.log = s.log ++ notes ∧
    ∀ n ∈ notes, n.joins = some t ∨ n = .refused t → t = u ∧ (s.pc u).unanswered := by
  cases hs with
  | refuse hpc =>
    refine ⟨[.refused u], rfl, fun n hn ht => ?_⟩
    obtain rfl := List.mem_singleton.mp hn
    simpa [Note.joins, hpc, Pc.unanswered, eq_comm] using ht
  | join hpc | create hpc =>
    refine ⟨[_], rfl, fun n hn ht => ?_⟩
    obtain rfl := List.mem_singleton.mp hn
    simpa [Note.joins, hpc, Pc.unanswered, eq_comm] using ht
  | startBridge | endBridge | remove =>
    refine ⟨[_], rfl, fun n hn ht => ?_⟩
    obtain rfl := List.mem_singleton.mp hn
    simp [Note.joins] at ht
  | _ => exact ⟨[], (List.append_nil _).symm, by simp⟩

/-- Nothing has happened to the client `t` and to the part of its task that negotiates. -/
structure Unmoved (s s' : State) (t : ClientId) : Prop where
  pc : s'.pc t = s.pc t ∨ ¬ (s.pc t).unanswered ∧ ¬ (s'.pc t).unanswered ∧
    (∀ name, s'.pc t ≠ .findRooms name) ∧ ∀ r, s.pc t ≠ .done r
  unread : (s.pc t).unanswered → (s'.conn t).unread = (s.conn t).unread
  replies : (s'.conn t).replies = (s.conn t).replies
  joined : Joined s' t ↔ Joined s t
  refused : .refused t ∈ s'.log ↔ .refused t ∈ s.log

theorem Step.answers_same (hs : Step cfg s u s') (h : t = u → ¬ (s.pc u).unanswered) :
    (Joined s' t ↔ Joined s t) ∧ (.refused t ∈ s'.log ↔ .refused t ∈ s.log) := by
  obtain ⟨notes, hlog, hn⟩ := hs.notes (t := t)
  have hnone : ∀ n ∈ notes, ¬ (n.joins = some t ∨ n = .refused t) := by
    intro n hmem hn'
    obtain ⟨htu, hun⟩ := hn n hmem hn'
    exact h htu hun
  constructor
  · simp only [joined_iff, hlog, List.mem_append]
    constructor
    · rintro ⟨n, hmem | hmem, hj⟩
      · exact ⟨n, hmem, hj⟩
      · exact absurd (Or.inl hj) (hnone n hmem)
    · rintro ⟨n, hmem, hj⟩
      exact ⟨n, Or.inl hmem, hj⟩
  · rw [hlog, List.mem_append]
    exact ⟨fun hmem => hmem.resolve_right fun hm => hnone _ hm (Or.inr rfl), Or.inl⟩

/-- What a client hears once it is in a room changes nothing that it has sent or been answered. -/
theorem heard_same (sender : ClientId) (live : List Live) :
    (Function.update s.conn sender { s.conn sender with live := live } t).unread =
        (s.conn t).unread ∧
      (Function.update s.conn sender { s.conn sender with live := live } t).replies =
        (s.conn t).replies := by
  by_cases ht : t = sender
  · simp [ht]
  · simp [ht]

/-- A step of another task, or of its own task once the client is answered. -/
theorem Step.unmoved (hs : Step cfg s u s') (h : t = u → ¬ (s.pc u).unanswered) :
    Unmoved s s' t := by
  obtain ⟨hj, hr⟩ := hs.answers_same h
  by_cases htu : t = u
  · subst htu
    have hun := h rfl
    refine ⟨Or.inr ?_, fun hun' => absurd hun' hun, ?_, hj, hr⟩
    · cases hs <;> simp_all [Pc.unanswered]
    · cases hs with
      | ping hpc => exact (heard_same _ _).2
      | _ => simp_all [Pc.unanswered]
  · refine ⟨Or.inl ?_, fun _ => ?_, ?_, hj, hr⟩
    · exact hs.others t htu
    · cases hs with
      | ping hpc => exact (heard_same _ _).1
      | _ => simp [htu]
    · cases hs with
      | ping hpc => exact (heard_same _ _).2
      | _ => simp [htu]

/-- A bridge takes nothing from a client that has not been answered. -/
theorem Pumped.unmoved (hi : SessionInv s) (hp : Pumped s u s') : Unmoved s s' t := by
  have heq := hp.eq
  obtain ⟨name, r, receiver, sender, hpc, src, dst, n, hsd, hc⟩ := hp.bridge
  have hsrc : Joined s src :=
    hi.holds src (.bridge u) ⟨name, r, receiver, sender, hpc, hsd.imp And.left And.left⟩
  obtain ⟨hunread, hreplies⟩ := copy_others hc t
  refine ⟨Or.inl (by rw [heq]), fun hun => hunread ?_, hreplies, by rw [heq]; rfl, by rw [heq]⟩
  rintro rfl
  exact (hi.unanswered t hun).1 hsrc

end Frame

end Croc.Server
