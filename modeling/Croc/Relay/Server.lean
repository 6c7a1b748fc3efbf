import Mathlib.Data.Option.Basic
import Croc.Lib.Machine
import Croc.Lib.Mutex
import Croc.Relay.Negotiate

/-! The relay as a machine: the tasks that run `handle` (with `negotiate_info` and `do_keepalive`
inside it), the map of rooms, the rooms and their mutexes. A step runs one task from the point
where it awaits to its next await. -/
namespace Croc.Server
open Lib

abbrev RoomId := ℕ

structure JoinHandle where
  isFinished : Bool
  deriving DecidableEq

structure Room where
  first : Option ClientId
  second : Option ClientId
  handle : Option JoinHandle
  deriving DecidableEq

namespace Room

def isRunning (r : Room) : Bool := r.handle.elim false fun h => !h.isFinished

def isFull (r : Room) : Bool := (r.first.isSome && r.second.isSome) || r.isRunning

def empty : Room := ⟨none, none, none⟩

end Room

/-- The mutex of the room map and the mutex of each room. -/
inductive LockId where
  | rooms
  | room (r : RoomId)
  deriving DecidableEq

/-- The await points of a `handle` task. A task keeps the room name and, until it has answered
its client, the encrypted session. -/
inductive Pc where
  | nego (n : Nego)
  /-- `negotiate_info`: `rooms.lock()` -/
  | awaitRooms (name : String) (enc : EncryptedSession)
  /-- `negotiate_info`: `room.lock()` under the map lock -/
  | awaitRoom (name : String) (r : RoomId) (enc : EncryptedSession)
  | writeFull (name : String) (r : RoomId) (enc : EncryptedSession)
  | writeJoin (name : String) (r : RoomId) (enc : EncryptedSession)
  | writeCreate (name : String) (enc : EncryptedSession)
  /-- `handle`: `rooms.lock()` to look the room up again -/
  | findRooms (name : String)
  | findRoom (name : String) (r : RoomId)
  /-- `handle`: `relay(receiver, sender).await` under the room lock -/
  | bridging (name : String) (r : RoomId) (receiver sender : ClientId)
  | removeRooms (name : String) (r : RoomId)
  /-- `do_keepalive`: `rooms.lock()` -/
  | keepRooms (name : String)
  | sleep (room : Option RoomId)
  | keepRoom (r : RoomId)
  | keepPing (r : RoomId) (sender : ClientId)
  | done (result : Except Halt Unit)

/-- What the relay has done so far, for the statements about runs. -/
inductive Note where
  | joinedFirst (c : ClientId) (r : RoomId)
  | joinedSecond (c : ClientId) (r : RoomId)
  | refused (c : ClientId)
  | bridged (r : RoomId) (receiver sender : ClientId)
  | bridgeEnded (r : RoomId) (receiver sender : ClientId)
  | removed (bridged : RoomId) (entry : Option RoomId)
  deriving DecidableEq

structure State where
  rooms : String → Option RoomId
  room : RoomId → Room
  lock : LockId → Mutex ClientId
  fresh : RoomId
  pc : ClientId → Pc
  conn : ClientId → Conn
  log : List Note

namespace State

def setPc (t : ClientId) (p : Pc) (s : State) : State :=
  { s with pc := Function.update s.pc t p }

def setConn (t : ClientId) (c : Conn) (s : State) : State :=
  { s with conn := Function.update s.conn t c }

def setRoom (r : RoomId) (x : Room) (s : State) : State :=
  { s with room := Function.update s.room r x }

def setEntry (name : String) (x : Option RoomId) (s : State) : State :=
  { s with rooms := Function.update s.rooms name x }

def acquire (i : LockId) (t : ClientId) (s : State) : State :=
  { s with lock := Function.update s.lock i ((s.lock i).acquire t) }

def release (i : LockId) (s : State) : State :=
  { s with lock := Function.update s.lock i (s.lock i).release }

def note (n : Note) (s : State) : State := { s with log := s.log ++ [n] }

/-- `Arc::new(Mutex::new(Room { first: Some(session), .. }))`, entered in the map. The mutex of
a room that does not exist yet is free. -/
def createRoom (name : String) (t : ClientId) (s : State) : State :=
  { s with
    rooms := Function.update s.rooms name (some s.fresh)
    room := Function.update s.room s.fresh ⟨some t, none, none⟩
    fresh := s.fresh + 1 }

def owns (s : State) (i : LockId) (t : ClientId) : Bool := (s.lock i).owner == some t

end State

/-- A connection that has just been accepted. -/
def freshConn (cfg : Config) (t : ClientId) : Conn := ⟨(cfg.client t).input, [], []⟩

def start (cfg : Config) : State where
  rooms _ := none
  room _ := Room.empty
  lock _ := Mutex.free
  fresh := 0
  pc _ := .nego .peek
  conn := freshConn cfg
  log := []

/-- Run task `t` from its await point to the next one; `none` while it has to wait. -/
def resume (cfg : Config) (s : State) (t : ClientId) (io : Io) : Option State :=
  match s.pc t with
  | .nego n =>
    (negotiate cfg t io (s.conn t) n).map fun (p, c) =>
      match p with
      | .next n' => (s.setConn t c).setPc t (.nego n')
      | .ask name enc => ((s.setConn t c).acquire .rooms t).setPc t (.awaitRooms name enc)
      | .stop r => (s.setConn t c).setPc t (.done r)
  | .awaitRooms name enc =>
    if s.owns .rooms t then
      match s.rooms name with
      | some r => some ((s.acquire (.room r) t).setPc t (.awaitRoom name r enc))
      | none => some (s.setPc t (.writeCreate name enc))
    else none
  | .awaitRoom name r enc =>
    if s.owns (.room r) t then
      if (s.room r).isFull then some (s.setPc t (.writeFull name r enc))
      else some (s.setPc t (.writeJoin name r enc))
    else none
  | .writeFull _ r enc =>
    match (s.conn t).send cfg t enc (asBytes "room full") io with
    | .ok c =>
      some (((((s.setConn t c).note (.refused t)).release (.room r)).release .rooms).setPc t
        (.done (.ok ())))
    | .error e => some (((s.release (.room r)).release .rooms).setPc t (.done (.error e)))
  | .writeJoin name r enc =>
    match (s.conn t).send cfg t enc (asBytes "ok") io with
    | .ok c =>
      some ((((((s.setConn t c).setRoom r { s.room r with second := some t }).note
        (.joinedSecond t r)).release (.room r)).release .rooms).acquire .rooms t |>.setPc t
          (.findRooms name))
    | .error e => some (((s.release (.room r)).release .rooms).setPc t (.done (.error e)))
  | .writeCreate name enc =>
    match (s.conn t).send cfg t enc (asBytes "ok") io with
    | .ok c =>
      some ((((((s.setConn t c).createRoom name t).note (.joinedFirst t s.fresh)).release
        .rooms).acquire .rooms t).setPc t (.findRooms name))
    | .error e => some ((s.release .rooms).setPc t (.done (.error e)))
  | .findRooms name =>
    if s.owns .rooms t then
      match s.rooms name with
      | some r => some (((s.release .rooms).acquire (.room r) t).setPc t (.findRoom name r))
      | none => some ((s.release .rooms).setPc t (.done (.ok ())))
    else none
  | .findRoom name r =>
    if s.owns (.room r) t then
      if (s.room r).isFull then
        match (s.room r).second, (s.room r).first with
        | some receiver, some sender =>
          some (((s.setRoom r { s.room r with first := none, second := none }).note
            (.bridged r receiver sender)).setPc t (.bridging name r receiver sender))
        | _, _ => some ((s.release (.room r)).setPc t (.done (.error (.panic .roomTake))))
      else some (((s.release (.room r)).acquire .rooms t).setPc t (.keepRooms name))
    else none
  | .bridging name r receiver sender =>
    -- the bridge has ended, with whatever result
    some ((((s.setRoom r { s.room r with first := none, second := none }).note
      (.bridgeEnded r receiver sender)).acquire .rooms t).setPc t (.removeRooms name r))
  | .removeRooms name r =>
    if s.owns .rooms t then
      some (((((s.setEntry name none).note (.removed r (s.rooms name))).release .rooms).release
        (.room r)).setPc t (.done (.ok ())))
    else none
  | .keepRooms name =>
    if s.owns .rooms t then some ((s.release .rooms).setPc t (.sleep (s.rooms name))) else none
  | .sleep none => some (s.setPc t (.done (.ok ())))
  | .sleep (some r) => some ((s.acquire (.room r) t).setPc t (.keepRoom r))
  | .keepRoom r =>
    if s.owns (.room r) t then
      match (s.room r).first with
      | some sender => some (s.setPc t (.keepPing r sender))
      | none => some ((s.release (.room r)).setPc t (.done (.ok ())))
    else none
  | .keepPing r sender =>
    if io.ok then
      some (((s.setConn sender
        { s.conn sender with live := (s.conn sender).live ++ [.ping] }).release
        (.room r)).setPc t (.sleep (some r)))
    -- the error is logged and the loop left; the room stays as it is
    else some ((s.release (.room r)).setPc t (.done (.ok ())))
  | .done _ => none

/-- One turn of a copy loop of a running bridge: `n` bytes read from `src` and written to `dst`. -/
def copy (s : State) (src dst : ClientId) (n : ℕ) : Option State :=
  if 0 < n ∧ n ≤ 1024 ∧ n ≤ (s.conn src).unread.length then
    let bytes := (s.conn src).unread.take n
    let s' := s.setConn src { s.conn src with unread := (s.conn src).unread.drop n }
    some (s'.setConn dst { s'.conn dst with live := (s'.conn dst).live ++ [.relayed bytes] })
  else none

/-- `asymmetric_bridge_sockets` in one of its two directions, inside the bridge that `t` awaits. -/
def pump (s : State) (t : ClientId) (fromReceiver : Bool) (n : ℕ) : Option State :=
  match s.pc t with
  | .bridging _ _ receiver sender =>
    if fromReceiver then copy s receiver sender n else copy s sender receiver n
  | _ => none

inductive Event where
  | resume (t : ClientId) (io : Io)
  | pump (t : ClientId) (fromReceiver : Bool) (n : ℕ)

def step (cfg : Config) (s : State) : Event → Option State
  | .resume t io => resume cfg s t io
  | .pump t fromReceiver n => pump s t fromReceiver n

/-- The relay with its clients, from the moment it listens. -/
def machine (cfg : Config) : Machine State Event := ⟨start cfg, step cfg⟩

end Croc.Server
