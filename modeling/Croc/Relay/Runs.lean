import Croc.Relay.Handshake

/-! Runs of the relay in which one client at a time gets its way: it opens a room and waits in it,
it joins a room and starts the bridge, it is sent a keepalive. -/
namespace Croc.Server
open Lib

/-- The relay can read the password and the room of a client, and can answer it. -/
structure Speaks (cfg : Config) (t : ClientId) (name : String) (data : Bytes) : Prop where
  answerable : Answerable cfg t
  sent : ∃ enc rest password rest', sentSession cfg t = some (enc, rest) ∧
    readText cfg.ext enc rest = some (password, rest') ∧
    readText cfg.ext enc rest' = some (name, data)

theorem speaks_of_sentRoom {cfg : Config} {t : ClientId} {name : String} (ha : Answerable cfg t)
    (h : sentRoom cfg t = some name) : ∃ data, Speaks cfg t name data := by
  obtain ⟨enc, rest, password, rest', data, hs, hp, hn⟩ := sentRoom_eq_some h
  exact ⟨data, ha, enc, rest, password, rest', hs, hp, hn⟩

theorem visitor_speaks {relayPassword password room : String} {client : ClientId → Client}
    {t : ClientId} {listener : Listener} {data : Bytes}
    (h : client t = visitor listener password room data)
    (hp : (asBytes password).length + 28 < 2 ^ 32) (hr : (asBytes room).length + 28 < 2 ^ 32) :
    Speaks (visited relayPassword client) t room data := by
  obtain ⟨enc, rest, rest', hs, hpw, hn⟩ := sent_visitor relayPassword client h hp hr
  exact ⟨visited_answerable (by rw [h]; rfl), enc, rest, password, rest', hs, hpw, hn⟩

variable {cfg : Config} {ok : State → Event → Prop} {s : State} {t : ClientId} {name : String}
  {data : Bytes}

/-- The task of `t` has not run yet and no mutex of the map is taken. -/
structure Ready (cfg : Config) (ok : State → Event → Prop) (s : State) (t : ClientId) : Prop where
  reachable : (machine cfg).ReachableBy ok s
  pc : s.pc t = .nego .peek
  unread : (s.conn t).unread = (cfg.client t).input
  rooms_free : s.lock .rooms = Mutex.free

theorem ready_start (cfg : Config) (ok : State → Event → Prop) (t : ClientId) :
    Ready cfg ok (start cfg) t :=
  ⟨Machine.ReachableBy.init, rfl, rfl, rfl⟩

/-- A client gets the map mutex. -/
theorem Ready.ask (hX : cfg.ext.WritesShort) (hok : Lenient cfg ok) (h : Ready cfg ok s t)
    (hs : Speaks cfg t name data) : ∃ enc replies, (machine cfg).ReachableBy ok { s with
      conn := Function.update s.conn t ⟨data, replies, (s.conn t).live⟩
      lock := Function.update s.lock .rooms ⟨some t, []⟩
      pc := Function.update s.pc t (.awaitRooms name enc) } := by
  obtain ⟨enc, rest, password, rest', hss, hp, hn⟩ := hs.sent
  obtain ⟨replies, hr⟩ := reach_ask hX hok h.reachable h.pc h.unread hs.answerable hss hp hn
  refine ⟨enc, replies, ?_⟩
  simpa [h.rooms_free, Mutex.acquire_free, Mutex.free] using hr

/-- A step that is neither a lookup nor a keepalive. -/
theorem reach_resume (hok : Lenient cfg ok) {s' : State} (h : (machine cfg).ReachableBy ok s)
    (hlookup : ∀ name enc, s.pc t ≠ .awaitRooms name enc)
    (hping : ∀ r u, s.pc t ≠ .keepPing r u) (he : resume cfg s t Io.fine = some s') :
    (machine cfg).ReachableBy ok s' :=
  h.step (e := .resume t Io.fine) (hok.free s t Io.fine hlookup hping) he

/-- The first client of a room opens it. -/
theorem Ready.create (hX : cfg.ext.WritesShort) (hok : Lenient cfg ok) (h : Ready cfg ok s t)
    (hs : Speaks cfg t name data) (hnone : s.rooms name = none) :
    ∃ replies, (machine cfg).ReachableBy ok { s with
      rooms := Function.update s.rooms name (some s.fresh)
      room := Function.update s.room s.fresh ⟨some t, none, none⟩
      fresh := s.fresh + 1
      conn := Function.update s.conn t ⟨data, replies, (s.conn t).live⟩
      lock := Function.update s.lock .rooms ⟨some t, []⟩
      pc := Function.update s.pc t (.findRooms name)
      log := s.log ++ [.joinedFirst t s.fresh] } := by
  obtain ⟨enc, replies, h1⟩ := h.ask hX hok hs
  have h2 := h1.step (e := .resume t Io.fine)
    (hok.lookup _ _ _ name enc h1.reachable (by simp) (by simp [hnone]))
    (by simp [machine, step, resume, State.owns, hnone]; rfl)
  obtain ⟨d, hd⟩ := Conn.send_ok hX t (asBytes "ok") (by decide +kernel) enc
    ⟨data, replies, (s.conn t).live⟩
  have h3 := reach_resume (t := t) hok h2 (by simp) (by simp)
    (by simp [resume, hd]; rfl)
  refine ⟨replies ++ [d], ?_⟩
  simpa [Mutex.acquire_free] using h3

/-- A mutex that was free before and is free again. -/
theorem lock_restored {lock : LockId → Mutex ClientId} {i : LockId} (h : lock i = Mutex.free) :
    Function.update lock i ⟨none, []⟩ = lock := by
  rw [show (⟨none, []⟩ : Mutex ClientId) = lock i from h.symm, Function.update_eq_self]

/-- It finds the room not full, and its task sleeps until the next keepalive. -/
theorem Ready.wait (hX : cfg.ext.WritesShort) (hok : Lenient cfg ok) (h : Ready cfg ok s t)
    (hs : Speaks cfg t name data) (hnone : s.rooms name = none)
    (hfree : s.lock (.room s.fresh) = Mutex.free) :
    ∃ replies, (machine cfg).ReachableBy ok { s with
      rooms := Function.update s.rooms name (some s.fresh)
      room := Function.update s.room s.fresh ⟨some t, none, none⟩
      fresh := s.fresh + 1
      conn := Function.update s.conn t ⟨data, replies, (s.conn t).live⟩
      pc := Function.update s.pc t (.sleep (some s.fresh))
      log := s.log ++ [.joinedFirst t s.fresh] } := by
  obtain ⟨replies, h1⟩ := h.create hX hok hs hnone
  have h2 := reach_resume (t := t) hok h1 (by simp) (by simp)
    (by simp [resume, State.owns, hfree, Mutex.acquire_free, Mutex.free]; rfl)
  have h3 := reach_resume (t := t) hok h2 (by simp) (by simp)
    (by simp [resume, State.owns, Room.isFull, Room.isRunning, Mutex.acquire_free]
        rfl)
  have h4 := reach_resume (t := t) hok h3 (by simp) (by simp)
    (by simp [resume, State.owns]; rfl)
  have hlock : Function.update (Function.update (Function.update s.lock .rooms ⟨none, []⟩)
      (.room s.fresh) ⟨none, []⟩) .rooms ⟨none, []⟩ = s.lock := by
    rw [lock_restored h.rooms_free, lock_restored hfree, lock_restored h.rooms_free]
  rw [hlock] at h4
  exact ⟨replies, by simpa using h4⟩

/-- The second client joins the room. -/
theorem Ready.join (hX : cfg.ext.WritesShort) (hok : Lenient cfg ok) (h : Ready cfg ok s t)
    (hs : Speaks cfg t name data) {r : RoomId} {u : ClientId} (hr : s.rooms name = some r)
    (hroom : s.room r = ⟨some u, none, none⟩) (hfree : s.lock (.room r) = Mutex.free) :
    ∃ replies, (machine cfg).ReachableBy ok { s with
      room := Function.update s.room r ⟨some u, some t, none⟩
      conn := Function.update s.conn t ⟨data, replies, (s.conn t).live⟩
      lock := Function.update s.lock .rooms ⟨some t, []⟩
      pc := Function.update s.pc t (.findRooms name)
      log := s.log ++ [.joinedSecond t r] } := by
  obtain ⟨enc, replies, h1⟩ := h.ask hX hok hs
  have h2 := h1.step (e := .resume t Io.fine)
    (hok.lookup _ _ _ name enc h1.reachable (by simp) (by simp [hr, hfree, hroom]))
    (by simp [machine, step, resume, State.owns, hr, hfree, Mutex.acquire_free, Mutex.free]; rfl)
  have h3 := reach_resume (t := t) hok h2 (by simp) (by simp)
    (by simp [resume, State.owns, hroom, Room.isFull, Room.isRunning]; rfl)
  obtain ⟨d, hd⟩ := Conn.send_ok hX t (asBytes "ok") (by decide +kernel) enc
    ⟨data, replies, (s.conn t).live⟩
  have h4 := reach_resume (t := t) hok h3 (by simp) (by simp)
    (by simp [resume, hd, hroom, Mutex.acquire_free]; rfl)
  have hne : LockId.room r ≠ .rooms := by simp
  have hlock : Function.update (Function.update s.lock .rooms ⟨some t, []⟩) (.room r) ⟨none, []⟩ =
      Function.update s.lock .rooms ⟨some t, []⟩ :=
    lock_restored (by rw [Function.update_of_ne hne, hfree])
  refine ⟨replies ++ [d], ?_⟩
  simp only [Function.update_idem, hlock] at h4
  simpa using h4

/-- The second client joins the room, takes both sessions and starts the bridge. -/
theorem Ready.bridge (hX : cfg.ext.WritesShort) (hok : Lenient cfg ok) (h : Ready cfg ok s t)
    (hs : Speaks cfg t name data) {r : RoomId} {u : ClientId} (hr : s.rooms name = some r)
    (hroom : s.room r = ⟨some u, none, none⟩) (hfree : s.lock (.room r) = Mutex.free) :
    ∃ replies, (machine cfg).ReachableBy ok { s with
      room := Function.update s.room r Room.empty
      conn := Function.update s.conn t ⟨data, replies, (s.conn t).live⟩
      lock := Function.update s.lock (.room r) ⟨some t, []⟩
      pc := Function.update s.pc t (.bridging name r t u)
      log := s.log ++ [.joinedSecond t r, .bridged r t u] } := by
  obtain ⟨replies, h1⟩ := h.join hX hok hs hr hroom hfree
  have h2 := reach_resume (t := t) hok h1 (by simp) (by simp)
    (by simp [resume, State.owns, hr, hfree, Mutex.acquire_free, Mutex.free]; rfl)
  have h3 := reach_resume (t := t) hok h2 (by simp) (by simp)
    (by simp [resume, State.owns, Room.isFull, Room.isRunning]; rfl)
  have hlock : Function.update (Function.update s.lock .rooms ⟨none, []⟩) (.room r) ⟨some t, []⟩ =
      Function.update s.lock (.room r) ⟨some t, []⟩ := by rw [lock_restored h.rooms_free]
  refine ⟨replies, ?_⟩
  simp only [hlock] at h3
  simpa [Room.empty] using h3

/-- Two clients of one room are bridged, and of the others nobody has run. -/
structure Bridging (cfg : Config) (ok : State → Event → Prop) (name : String)
    (receiver sender : ClientId) (s : State) : Prop where
  reachable : (machine cfg).ReachableBy ok s
  entry : s.rooms name = some 0
  pc : s.pc receiver = .bridging name 0 receiver sender
  lock : s.lock (.room 0) = ⟨some receiver, []⟩
  log : s.log = [.joinedFirst sender 0, .joinedSecond receiver 0, .bridged 0 receiver sender]
  ready : ∀ u, u ≠ receiver → u ≠ sender → Ready cfg ok s u

/-- Two clients that ask for one room can be bridged. -/
theorem exists_bridging (hX : cfg.ext.WritesShort) (hok : Lenient cfg ok)
    {receiver sender : ClientId} {data' : Bytes} (hne : receiver ≠ sender)
    (hs : Speaks cfg sender name data) (hr : Speaks cfg receiver name data') :
    ∃ s, Bridging cfg ok name receiver sender s := by
  obtain ⟨_, h0⟩ := (ready_start cfg ok sender).wait hX hok hs rfl rfl
  have hready : Ready cfg ok _ receiver :=
    ⟨h0, by simp [hne, start], by simp [hne, start, freshConn], rfl⟩
  obtain ⟨_, h1⟩ := Ready.bridge (r := 0) (u := sender) hX hok hready hr (by simp [start])
    (by simp [start]) rfl
  refine ⟨_, h1, by simp [start], by simp, by simp, by simp [start], fun u hu hu' => ?_⟩
  exact ⟨h1, by simp [hu, hu', start], by simp [hu, hu', start, freshConn], by simp [start]⟩

/-- A third client asks for the room: it has the map, and waits for the room. -/
theorem Bridging.third (hX : cfg.ext.WritesShort) (hok : Lenient cfg ok)
    {receiver sender : ClientId} (h : Bridging cfg ok name receiver sender s)
    (ht : Speaks cfg t name data) (hr : t ≠ receiver)
    (hs : t ≠ sender) : ∃ enc s', (machine cfg).Reachable s' ∧ s'.pc t = .awaitRoom name 0 enc ∧
      s'.lock .rooms = ⟨some t, []⟩ ∧ s'.lock (.room 0) = ⟨some receiver, [t]⟩ ∧
        s'.pc receiver = .bridging name 0 receiver sender := by
  obtain ⟨enc, _, h1⟩ := (h.ready t hr hs).ask hX hok ht
  have h2 := h1.reachable.step (e := .resume t Io.fine)
    (by simp [machine, step, resume, State.owns, h.entry]; rfl)
  exact ⟨enc, _, h2, by simp, by simp, by simp [h.lock, Mutex.acquire], by simp [hr.symm, h.pc]⟩

/-- The task that waits in a room wakes up and sends a keepalive to the first session. -/
theorem reach_ping (hok : Lenient cfg ok) (h : (machine cfg).ReachableBy ok s) {r : RoomId}
    {u : ClientId} (hpc : s.pc t = .sleep (some r)) (hfree : s.lock (.room r) = Mutex.free)
    (hfirst : (s.room r).first = some u)
    (hping : ∀ s' : State, s'.pc t = .keepPing r u → ok s' (.resume t Io.fine)) :
    (machine cfg).ReachableBy ok { s with
      conn := Function.update s.conn u { s.conn u with live := (s.conn u).live ++ [.ping] } } := by
  have h1 := reach_resume (t := t) hok h (by simp [hpc]) (by simp [hpc])
    (by simp [resume, hpc, hfree, Mutex.acquire_free, Mutex.free]; rfl)
  have h2 := reach_resume (t := t) hok h1 (by simp) (by simp)
    (by simp [resume, State.owns, hfirst]; rfl)
  have h3 := h2.step (e := .resume t Io.fine) (hping _ (by simp))
    (by simp [machine, step, resume, Io.fine]; rfl)
  simpa [lock_restored hfree, ← hpc] using h3

end Croc.Server
