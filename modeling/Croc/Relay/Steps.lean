import Croc.Relay.Server

/-! What one step of a relay task can do, said once, and the locks that it holds while it does
it. -/
namespace Croc.Server
open Lib

attribute [simp] State.setPc State.setConn State.setRoom State.setEntry State.acquire State.release
  State.note State.createRoom

/-- The steps of task `t`, one constructor for each way from an await point to the next. -/
inductive Step (cfg : Config) (s : State) (t : ClientId) : State → Prop
  | negoNext {n n' c io} (hpc : s.pc t = .nego n)
      (hn : negotiate cfg t io (s.conn t) n = some (.next n', c)) :
      Step cfg s t ((s.setConn t c).setPc t (.nego n'))
  | negoAsk {n name enc c io} (hpc : s.pc t = .nego n)
      (hn : negotiate cfg t io (s.conn t) n = some (.ask name enc, c)) :
      Step cfg s t (((s.setConn t c).acquire .rooms t).setPc t (.awaitRooms name enc))
  | negoStop {n r c io} (hpc : s.pc t = .nego n)
      (hn : negotiate cfg t io (s.conn t) n = some (.stop r, c)) :
      Step cfg s t ((s.setConn t c).setPc t (.done r))
  | lookup {name enc r} (hpc : s.pc t = .awaitRooms name enc)
      (ho : (s.lock .rooms).owner = some t) (hr : s.rooms name = some r) :
      Step cfg s t ((s.acquire (.room r) t).setPc t (.awaitRoom name r enc))
  | lookupNone {name enc} (hpc : s.pc t = .awaitRooms name enc)
      (ho : (s.lock .rooms).owner = some t) (hr : s.rooms name = none) :
      Step cfg s t (s.setPc t (.writeCreate name enc))
  | seeFull {name r enc} (hpc : s.pc t = .awaitRoom name r enc)
      (ho : (s.lock (.room r)).owner = some t) (hf : (s.room r).isFull = true) :
      Step cfg s t (s.setPc t (.writeFull name r enc))
  | seeSpace {name r enc} (hpc : s.pc t = .awaitRoom name r enc)
      (ho : (s.lock (.room r)).owner = some t) (hf : (s.room r).isFull = false) :
      Step cfg s t (s.setPc t (.writeJoin name r enc))
  | refuse {name r enc c io} (hpc : s.pc t = .writeFull name r enc)
      (hc : (s.conn t).send cfg t enc (asBytes "room full") io = .ok c) :
      Step cfg s t (((((s.setConn t c).note (.refused t)).release (.room r)).release .rooms).setPc t
        (.done (.ok ())))
  | refuseFail {name r enc e io} (hpc : s.pc t = .writeFull name r enc)
      (hc : (s.conn t).send cfg t enc (asBytes "room full") io = .error e) :
      Step cfg s t (((s.release (.room r)).release .rooms).setPc t (.done (.error e)))
  | join {name r enc c io} (hpc : s.pc t = .writeJoin name r enc)
      (hc : (s.conn t).send cfg t enc (asBytes "ok") io = .ok c) :
      Step cfg s t (((((((s.setConn t c).setRoom r { s.room r with second := some t }).note
        (.joinedSecond t r)).release (.room r)).release .rooms).acquire .rooms t).setPc t
          (.findRooms name))
  | joinFail {name r enc e io} (hpc : s.pc t = .writeJoin name r enc)
      (hc : (s.conn t).send cfg t enc (asBytes "ok") io = .error e) :
      Step cfg s t (((s.release (.room r)).release .rooms).setPc t (.done (.error e)))
  | create {name enc c io} (hpc : s.pc t = .writeCreate name enc)
      (hc : (s.conn t).send cfg t enc (asBytes "ok") io = .ok c) :
      Step cfg s t ((((((s.setConn t c).createRoom name t).note (.joinedFirst t s.fresh)).release
        .rooms).acquire .rooms t).setPc t (.findRooms name))
  | createFail {name enc e io} (hpc : s.pc t = .writeCreate name enc)
      (hc : (s.conn t).send cfg t enc (asBytes "ok") io = .error e) :
      Step cfg s t ((s.release .rooms).setPc t (.done (.error e)))
  | find {name r} (hpc : s.pc t = .findRooms name) (ho : (s.lock .rooms).owner = some t)
      (hr : s.rooms name = some r) :
      Step cfg s t (((s.release .rooms).acquire (.room r) t).setPc t (.findRoom name r))
  | findNone {name} (hpc : s.pc t = .findRooms name) (ho : (s.lock .rooms).owner = some t)
      (hr : s.rooms name = none) :
      Step cfg s t ((s.release .rooms).setPc t (.done (.ok ())))
  | startBridge {name r receiver sender} (hpc : s.pc t = .findRoom name r)
      (ho : (s.lock (.room r)).owner = some t) (hf : (s.room r).isFull = true)
      (h2 : (s.room r).second = some receiver) (h1 : (s.room r).first = some sender) :
      Step cfg s t (((s.setRoom r { s.room r with first := none, second := none }).note
        (.bridged r receiver sender)).setPc t (.bridging name r receiver sender))
  | takePanic {name r} (hpc : s.pc t = .findRoom name r)
      (ho : (s.lock (.room r)).owner = some t) (hf : (s.room r).isFull = true)
      (hn : (s.room r).second = none ∨ (s.room r).first = none) :
      Step cfg s t ((s.release (.room r)).setPc t (.done (.error (.panic .roomTake))))
  | wait {name r} (hpc : s.pc t = .findRoom name r)
      (ho : (s.lock (.room r)).owner = some t) (hf : (s.room r).isFull = false) :
      Step cfg s t (((s.release (.room r)).acquire .rooms t).setPc t (.keepRooms name))
  | endBridge {name r receiver sender} (hpc : s.pc t = .bridging name r receiver sender) :
      Step cfg s t ((((s.setRoom r { s.room r with first := none, second := none }).note
        (.bridgeEnded r receiver sender)).acquire .rooms t).setPc t (.removeRooms name r))
  | remove {name r} (hpc : s.pc t = .removeRooms name r)
      (ho : (s.lock .rooms).owner = some t) :
      Step cfg s t (((((s.setEntry name none).note (.removed r (s.rooms name))).release
        .rooms).release (.room r)).setPc t (.done (.ok ())))
  | keepFind {name} (hpc : s.pc t = .keepRooms name) (ho : (s.lock .rooms).owner = some t) :
      Step cfg s t ((s.release .rooms).setPc t (.sleep (s.rooms name)))
  | sleepNone (hpc : s.pc t = .sleep none) : Step cfg s t (s.setPc t (.done (.ok ())))
  | tick {r} (hpc : s.pc t = .sleep (some r)) :
      Step cfg s t ((s.acquire (.room r) t).setPc t (.keepRoom r))
  | seeFirst {r sender} (hpc : s.pc t = .keepRoom r) (ho : (s.lock (.room r)).owner = some t)
      (hf : (s.room r).first = some sender) :
      Step cfg s t (s.setPc t (.keepPing r sender))
  | seeTaken {r} (hpc : s.pc t = .keepRoom r) (ho : (s.lock (.room r)).owner = some t)
      (hf : (s.room r).first = none) :
      Step cfg s t ((s.release (.room r)).setPc t (.done (.ok ())))
  | ping {r sender} (hpc : s.pc t = .keepPing r sender) :
      Step cfg s t (((s.setConn sender
        { s.conn sender with live := (s.conn sender).live ++ [.ping] }).release (.room r)).setPc t
          (.sleep (some r)))
  | pingFail {r sender} (hpc : s.pc t = .keepPing r sender) :
      Step cfg s t ((s.release (.room r)).setPc t (.done (.ok ())))

theorem owns_iff {s : State} {i : LockId} {t : ClientId} :
    s.owns i t = true ↔ (s.lock i).owner = some t := by simp [State.owns]

theorem resume_step {cfg : Config} {s s' : State} {t : ClientId} {io : Io}
    (h : resume cfg s t io = some s') : Step cfg s t s' := by
  unfold resume at h
  split at h
  case h_1 n hpc =>
    obtain ⟨⟨p, c⟩, hn, hs⟩ := Option.map_eq_some_iff.mp h
    cases p with
    | next n' => exact hs ▸ .negoNext hpc hn
    | ask name enc => exact hs ▸ .negoAsk hpc hn
    | stop r => exact hs ▸ .negoStop hpc hn
  case h_2 name enc hpc =>
    split at h
    next ho =>
      split at h
      next r hr => exact Option.some.inj h ▸ .lookup hpc (owns_iff.mp ho) hr
      next hr => exact Option.some.inj h ▸ .lookupNone hpc (owns_iff.mp ho) hr
    next => simp at h
  case h_3 name r enc hpc =>
    split at h
    next ho =>
      split at h
      next hf => exact Option.some.inj h ▸ .seeFull hpc (owns_iff.mp ho) hf
      next hf => exact Option.some.inj h ▸ .seeSpace hpc (owns_iff.mp ho) (by simpa using hf)
    next => simp at h
  case h_4 name r enc hpc =>
    split at h
    next c hc => exact Option.some.inj h ▸ .refuse hpc hc
    next e hc => exact Option.some.inj h ▸ .refuseFail hpc hc
  case h_5 name r enc hpc =>
    split at h
    next c hc => exact Option.some.inj h ▸ .join hpc hc
    next e hc => exact Option.some.inj h ▸ .joinFail hpc hc
  case h_6 name enc hpc =>
    split at h
    next c hc => exact Option.some.inj h ▸ .create hpc hc
    next e hc => exact Option.some.inj h ▸ .createFail hpc hc
  case h_7 name hpc =>
    split at h
    next ho =>
      split at h
      next r hr => exact Option.some.inj h ▸ .find hpc (owns_iff.mp ho) hr
      next hr => exact Option.some.inj h ▸ .findNone hpc (owns_iff.mp ho) hr
    next => simp at h
  case h_8 name r hpc =>
    split at h
    next ho =>
      have ho := owns_iff.mp ho
      split at h
      next hf =>
        split at h
        next receiver sender h2 h1 => exact Option.some.inj h ▸ .startBridge hpc ho hf h2 h1
        next hn =>
          refine Option.some.inj h ▸ .takePanic hpc ho hf ?_
          cases h2 : (s.room r).second with
          | none => exact Or.inl rfl
          | some receiver =>
            cases h1 : (s.room r).first with
            | none => exact Or.inr rfl
            | some sender => exact absurd h1 (hn receiver sender h2)
      next hf => exact Option.some.inj h ▸ .wait hpc ho (by simpa using hf)
    next => simp at h
  case h_9 name r receiver sender hpc => exact Option.some.inj h ▸ .endBridge hpc
  case h_10 name r hpc =>
    split at h
    next ho => exact Option.some.inj h ▸ .remove hpc (owns_iff.mp ho)
    next => simp at h
  case h_11 name hpc =>
    split at h
    next ho => exact Option.some.inj h ▸ .keepFind hpc (owns_iff.mp ho)
    next => simp at h
  case h_12 hpc => exact Option.some.inj h ▸ .sleepNone hpc
  case h_13 r hpc => exact Option.some.inj h ▸ .tick hpc
  case h_14 r hpc =>
    split at h
    next ho =>
      split at h
      next sender hf => exact Option.some.inj h ▸ .seeFirst hpc (owns_iff.mp ho) hf
      next hf => exact Option.some.inj h ▸ .seeTaken hpc (owns_iff.mp ho) hf
    next => simp at h
  case h_15 r sender hpc =>
    split at h
    next => exact Option.some.inj h ▸ .ping hpc
    next => exact Option.some.inj h ▸ .pingFail hpc
  case h_16 => simp at h

/-- What a task at an await point has to do with the map mutex. -/
@[simp] def Pc.roomsStake : Pc → Stake
  | .awaitRooms .. | .findRooms .. | .removeRooms .. | .keepRooms .. => .waiting
  | .awaitRoom .. | .writeFull .. | .writeJoin .. | .writeCreate .. => .holding
  | _ => .idle

/-- The room whose mutex a task at an await point uses. -/
@[simp] def Pc.usedRoom : Pc → Option RoomId
  | .awaitRoom _ r _ | .findRoom _ r | .keepRoom r | .writeFull _ r _ | .writeJoin _ r _
  | .bridging _ r _ _ | .removeRooms _ r | .keepPing r _ => some r
  | _ => none

@[simp] def Pc.roomStake : Pc → Stake
  | .awaitRoom .. | .findRoom .. | .keepRoom .. => .waiting
  | .writeFull .. | .writeJoin .. | .bridging .. | .removeRooms .. | .keepPing .. => .holding
  | _ => .idle

@[simp] def Pc.stake (p : Pc) : LockId → Stake
  | .rooms => p.roomsStake
  | .room r => if p.usedRoom = some r then p.roomStake else .idle

/-- The mutexes agree with the await points of the tasks. -/
def LockInv (s : State) : Prop := CoherentAll (fun t => (s.pc t).stake) s.lock

theorem LockInv.owner_of_holding {s : State} (h : LockInv s) {t : ClientId} {i : LockId}
    (hs : (s.pc t).stake i = .holding) : (s.lock i).owner = some t := (h i).holding_owner t hs

theorem lockInv_start (cfg : Config) : LockInv (start cfg) := fun i => by
  have hs : (fun t => ((start cfg).pc t).stake i) = fun _ => Stake.idle := by
    funext t
    cases i <;> rfl
  rw [hs]
  exact Mutex.coherent_free

/-- A step that uses at most the map mutex and the mutex of room `r`. -/
theorem move_all {lock lock' : LockId → Mutex ClientId} {t : ClientId} {p p' : Pc} (r : RoomId)
    (hrooms : Mutex.Move t (lock .rooms) p.roomsStake p'.roomsStake (lock' .rooms))
    (hroom : Mutex.Move t (lock (.room r)) (p.stake (.room r)) (p'.stake (.room r))
      (lock' (.room r)))
    (hp : ∀ j, p.usedRoom = some j → j = r) (hp' : ∀ j, p'.usedRoom = some j → j = r)
    (hlock : ∀ j, j ≠ r → lock' (.room j) = lock (.room j)) (i : LockId) :
    Mutex.Move t (lock i) (p.stake i) (p'.stake i) (lock' i) := by
  cases i with
  | rooms => exact hrooms
  | room j =>
    by_cases hj : j = r
    · exact hj ▸ hroom
    · have h := fun he => hj (hp j he)
      have h' := fun he => hj (hp' j he)
      simp only [Pc.stake, if_neg h, if_neg h', hlock j hj]
      exact .keep _

/-- A step moves no other task. -/
theorem Step.others {cfg : Config} {s s' : State} {t : ClientId} (hs : Step cfg s t s') :
    ∀ u, u ≠ t → s'.pc u = s.pc u := by
  intro u hu
  cases hs <;> simp [hu]

theorem LockInv.step {cfg : Config} {s s' : State} {t : ClientId} (h : LockInv s)
    (hs : Step cfg s t s') : LockInv s' := by
  have hown : ∀ i, (s.pc t).stake i = .holding → (s.lock i).owner = some t :=
    fun i hi => h.owner_of_holding hi
  have hrooms := hown .rooms
  have hroom := fun r => hown (.room r)
  refine CoherentAll.move (t := t) h (fun u hu => by rw [hs.others u hu]) ?_
  show ∀ i, Mutex.Move t (s.lock i) ((s.pc t).stake i) ((s'.pc t).stake i) (s'.lock i)
  cases hs with
  | negoNext hpc | negoStop hpc | sleepNone hpc =>
    simpa [hpc] using move_all (p := s.pc t) 0 (.keep _) (.keep _)
  | negoAsk hpc =>
    apply move_all 0 <;> simp [hpc, Mutex.Move.acquire, Mutex.Move.keep]
  | @lookup _ _ r hpc ho =>
    apply move_all r <;> simp +contextual [hpc, Mutex.Move.acquire, Mutex.Move.grant, ho]
  | lookupNone hpc ho =>
    apply move_all 0 <;> simp [hpc, Mutex.Move.grant, ho, Mutex.Move.keep]
  | @seeFull _ r _ hpc ho | @seeSpace _ r _ hpc ho =>
    apply move_all r <;> simp [hpc, Mutex.Move.grant, ho, Mutex.Move.keep]
  | @refuse _ r _ _ _ hpc | @refuseFail _ r _ _ _ hpc | @joinFail _ r _ _ _ hpc =>
    have hm := hrooms (by simp [hpc])
    have hr := hroom r (by simp [hpc])
    apply move_all r <;> simp +contextual [hpc, Mutex.Move.release, hm, hr]
  | @join _ r _ _ _ hpc =>
    have hm := hrooms (by simp [hpc])
    have hr := hroom r (by simp [hpc])
    apply move_all r <;> simp +contextual [hpc, Mutex.Move.release, Mutex.Move.reacquire, hm, hr]
  | create hpc =>
    have hm := hrooms (by simp [hpc])
    apply move_all 0 <;> simp [hpc, Mutex.Move.reacquire, Mutex.Move.keep, hm]
  | createFail hpc =>
    have hm := hrooms (by simp [hpc])
    apply move_all 0 <;> simp [hpc, Mutex.Move.release, Mutex.Move.keep, hm]
  | @find _ r hpc ho =>
    apply move_all r <;> simp +contextual [hpc, Mutex.Move.acquire, Mutex.Move.release, ho]
  | findNone hpc ho | keepFind hpc ho =>
    apply move_all 0 <;> simp [hpc, Mutex.Move.release, ho, Mutex.Move.keep]
  | @startBridge _ r _ _ hpc ho =>
    apply move_all r <;> simp [hpc, Mutex.Move.grant, ho, Mutex.Move.keep]
  | @takePanic _ r hpc ho | @seeTaken r hpc ho =>
    apply move_all r <;> simp +contextual [hpc, Mutex.Move.release, ho, Mutex.Move.keep]
  | @wait _ r hpc ho =>
    apply move_all r <;> simp +contextual [hpc, Mutex.Move.acquire, Mutex.Move.release, ho]
  | @endBridge _ r _ _ hpc =>
    apply move_all r <;> simp [hpc, Mutex.Move.acquire, Mutex.Move.keep]
  | @remove _ r hpc ho =>
    have hr := hroom r (by simp [hpc])
    apply move_all r <;> simp +contextual [hpc, Mutex.Move.release, ho, hr]
  | @tick r hpc =>
    apply move_all r <;> simp +contextual [hpc, Mutex.Move.acquire, Mutex.Move.keep]
  | @seeFirst r _ hpc ho =>
    apply move_all r <;> simp [hpc, Mutex.Move.grant, ho, Mutex.Move.keep]
  | @ping r _ hpc | @pingFail r _ hpc =>
    have hr := hroom r (by simp [hpc])
    apply move_all r <;> simp +contextual [hpc, Mutex.Move.release, hr, Mutex.Move.keep]

/-- A turn of a copy loop moves bytes from one session of the bridge to the other. -/
structure Pumped (s : State) (t : ClientId) (s' : State) : Prop where
  bridge : ∃ name r receiver sender, s.pc t = .bridging name r receiver sender ∧
    ∃ src dst n, (src = receiver ∧ dst = sender ∨ src = sender ∧ dst = receiver) ∧
      copy s src dst n = some s'

theorem pump_pumped {s s' : State} {t : ClientId} {b : Bool} {n : ℕ}
    (h : pump s t b n = some s') : Pumped s t s' := by
  unfold pump at h
  split at h
  next name r receiver sender hpc =>
    split at h
    · exact ⟨name, r, receiver, sender, hpc, receiver, sender, n, Or.inl ⟨rfl, rfl⟩, h⟩
    · exact ⟨name, r, receiver, sender, hpc, sender, receiver, n, Or.inr ⟨rfl, rfl⟩, h⟩
  next => simp at h

theorem copy_eq {s s' : State} {src dst : ClientId} {n : ℕ} (h : copy s src dst n = some s') :
    s' = { s with conn := s'.conn } := by
  unfold copy at h
  split at h
  · obtain rfl := Option.some.inj h
    rfl
  · simp at h

/-- The bytes leave one socket and arrive at the other. -/
theorem copy_conn {s s' : State} {src dst : ClientId} {n : ℕ} (hne : dst ≠ src)
    (h : copy s src dst n = some s') :
    s'.conn src = { s.conn src with unread := (s.conn src).unread.drop n } ∧
      s'.conn dst = { s.conn dst with
        live := (s.conn dst).live ++ [.relayed ((s.conn src).unread.take n)] } ∧
      ∀ u, u ≠ src → u ≠ dst → s'.conn u = s.conn u := by
  unfold copy at h
  split at h
  · obtain rfl := Option.some.inj h
    refine ⟨?_, ?_, fun u hus hud => ?_⟩
    · simp [hne.symm]
    · simp [hne]
    · simp [hus, hud]
  · simp at h

/-- Only the source of a copy loses bytes, and nothing is said that belongs to a negotiation. -/
theorem copy_others {s s' : State} {src dst : ClientId} {n : ℕ} (h : copy s src dst n = some s')
    (u : ClientId) : (u ≠ src → (s'.conn u).unread = (s.conn u).unread) ∧
      (s'.conn u).replies = (s.conn u).replies := by
  unfold copy at h
  split at h
  · obtain rfl := Option.some.inj h
    by_cases hd : u = dst <;> by_cases hs : u = src <;> by_cases hds : dst = src <;> simp_all
  · simp at h

/-- Copying touches nothing but the sockets. -/
theorem Pumped.eq {s s' : State} {t : ClientId} (h : Pumped s t s') :
    s' = { s with conn := s'.conn } := by
  obtain ⟨_, _, _, _, _, _, _, _, _, hc⟩ := h.bridge
  exact copy_eq hc

/-- Every event is a step of one task or a turn of a copy loop. -/
theorem step_cases {cfg : Config} {s s' : State} {e : Event} (h : step cfg s e = some s') :
    ∃ t, Step cfg s t s' ∨ Pumped s t s' := by
  cases e with
  | resume t io => exact ⟨t, Or.inl (resume_step h)⟩
  | pump t b n => exact ⟨t, Or.inr (pump_pumped h)⟩

/-- The invariant rule for a condition on what a task does: enough that every step of a task
that meets it keeps `P`, and that `P` does not look at the sockets. -/
theorem invariant_by {cfg : Config} {ok : State → Event → Prop} {P : State → Prop}
    (hinit : P (start cfg))
    (hstep : ∀ s t io s', (machine cfg).ReachableBy ok s → ok s (.resume t io) →
      resume cfg s t io = some s' → P s → Step cfg s t s' → P s')
    (hconn : ∀ (s : State) conn, P s → P { s with conn := conn }) {s : State}
    (h : (machine cfg).ReachableBy ok s) : P s := by
  refine h.invariant hinit fun s e s' hs hp hok he => ?_
  cases e with
  | resume t io => exact hstep s t io s' hs hok he hp (resume_step he)
  | pump t b n =>
    rw [(pump_pumped he).eq]
    exact hconn s _ hp

/-- The same for unrestricted runs. -/
theorem invariant {cfg : Config} {P : State → Prop} (hinit : P (start cfg))
    (hstep : ∀ s t s', (machine cfg).Reachable s → P s → Step cfg s t s' → P s')
    (hconn : ∀ (s : State) conn, P s → P { s with conn := conn }) {s : State}
    (h : (machine cfg).Reachable s) : P s :=
  invariant_by hinit (fun s t _ s' hs _ _ hp hst => hstep s t s' hs hp hst) hconn h

theorem reachable_lockInv {cfg : Config} {s : State} (h : (machine cfg).Reachable s) :
    LockInv s :=
  invariant (lockInv_start cfg) (fun _ _ _ _ hi hs => hi.step hs) (fun _ _ hi => hi) h

end Croc.Server
