import Croc.Relay.Pairing

/-! What one call of `negotiate_info` does to the room map and to the rooms: nothing, up to the
step in which it puts its session into a room. -/
namespace Croc.Server
open Lib

/-- What the tasks of the relay share. -/
structure Shared where
  rooms : String → Option RoomId
  room : RoomId → Room
  fresh : RoomId

def State.shared (s : State) : Shared := ⟨s.rooms, s.room, s.fresh⟩

/-- The room that the map holds under a name. -/
def Shared.entry (m : Shared) (name : String) : Option Room := (m.rooms name).map m.room

/-- The await points of `negotiate_info`. -/
def Nego.inInfo : Nego → Bool
  | .saltRead _ | .passwordRead _ | .badPasswordWrite _ | .bannerWrite .. | .roomRead _ => true
  | _ => false

def Pc.inInfo : Pc → Bool
  | .nego n => n.inInfo
  | .awaitRooms .. | .awaitRoom .. | .writeFull .. | .writeJoin .. | .writeCreate .. => true
  | _ => false

/-- What `negotiate_info` has returned, if its task has come to this await point from inside. -/
def Pc.returned : Pc → Option (Except Halt (Option String))
  | .findRooms name => some (.ok (some name))
  | .done (.error h) => some (.error h)
  | .done (.ok ()) => some (.ok none)
  | _ => none

/-- What is shared before and after one step of a task. -/
structure Effect where
  before : Shared
  after : Shared

/-- A call of `negotiate_info`: the effects of its steps, and what it has returned. -/
structure InfoCall where
  effects : List Effect
  result : Option (Except Halt (Option String))

/-- What a step adds to the record of the call that the task of `t` makes. -/
def noteInfo (t : ClientId) (call : InfoCall) (s : State) (e : Event) (s' : State) : InfoCall :=
  match e with
  | .resume u _ =>
    if u = t ∧ (s.pc t).inInfo then
      ⟨call.effects ++ [⟨s.shared, s'.shared⟩], (s'.pc t).returned⟩
    else call
  | .pump .. => call

/-- The relay with the record of one call. -/
def observed (cfg : Config) (t : ClientId) : Machine (State × InfoCall) Event :=
  (machine cfg).observe ⟨[], none⟩ (noteInfo t)

/-- The session of `t` has got its place under `name`, and nothing else has changed. -/
structure Enters (t : ClientId) (name : String) (e : Effect) : Prop where
  others : ∀ name' ≠ name, e.after.rooms name' = e.before.rooms name' ∧
    e.after.entry name' = e.before.entry name'
  place : (e.before.rooms name = none ∧ e.after.rooms name = some e.before.fresh ∧
      e.after.entry name = some ⟨some t, none, none⟩ ∧
      ∀ r < e.before.fresh, e.after.room r = e.before.room r) ∨
    ∃ r x, e.before.rooms name = some r ∧ e.before.room r = x ∧ x.isFull = false ∧
      e.after.rooms name = some r ∧ e.after.room r = { x with second := some t } ∧
      ∀ r' ≠ r, e.after.room r' = e.before.room r'

/-- Up to now the call has changed nothing, or it has returned `Ok(Some(name))` from the step in
which its session has entered the room `name`. -/
structure InfoCall.Atomic (t : ClientId) (call : InfoCall) : Prop where
  unchanged : (∀ name, call.result ≠ some (.ok (some name))) →
    ∀ e ∈ call.effects, e.after = e.before
  entered : ∀ name, call.result = some (.ok (some name)) → ∃ effects e,
    call.effects = effects ++ [e] ∧ (∀ e' ∈ effects, e'.after = e'.before) ∧ Enters t name e

/-- In every run, the calls of `negotiate_info` are atomic. -/
def NegotiatesAtomically (cfg : Config) (t : ClientId) : Prop :=
  ∀ s call, (observed cfg t).Reachable (s, call) → call.Atomic t

section Effects
variable {cfg : Config} {s s' : State} {t u : ClientId} {name : String}

/-- The writer of `ok` finds the room under its name, with a place that is free. -/
theorem enters_join {r : RoomId} (h : RoomInv s) {enc : EncryptedSession}
    (hpc : s.pc t = .writeJoin name r enc) :
    Enters t name ⟨s.shared, ⟨s.rooms,
      Function.update s.room r { s.room r with second := some t }, s.fresh⟩⟩ := by
  obtain ⟨hname, hfirst, hsecond⟩ : s.rooms name = some r ∧ (s.room r).first.isSome ∧
    (s.room r).second = none := by simpa [hpc] using h.task t
  have hspace : (s.room r).isFull = false := by
    simp [Room.isFull, Room.isRunning, h.shared.handle_none r, hsecond]
  refine ⟨fun name' hne => ⟨rfl, ?_⟩, .inr ⟨r, _, hname, rfl, hspace, hname,
    by simp [State.shared], ?_⟩⟩
  · cases hr' : s.rooms name' with
    | none => simp [Shared.entry, State.shared, hr']
    | some r' =>
      have hrr : r' ≠ r := by
        rintro rfl
        exact hne (h.shared.entry_inj name' name r' hr' hname)
      simp [Shared.entry, State.shared, hr', hrr]
  · intro r' hrr
    simp [State.shared, hrr]

/-- It finds no room under its name, and the one that it enters is new. -/
theorem enters_create (h : RoomInv s) {enc : EncryptedSession}
    (hpc : s.pc t = .writeCreate name enc) :
    Enters t name ⟨s.shared, (s.createRoom name t).shared⟩ := by
  have hname : s.rooms name = none := by simpa [hpc] using h.task t
  refine ⟨fun name' hne => ?_, .inl ⟨hname, by simp [State.shared], ?_, fun r hr => ?_⟩⟩
  · have hrooms : (s.createRoom name t).shared.rooms name' = s.rooms name' := by
      simp [State.shared, hne]
    refine ⟨hrooms, ?_⟩
    rw [Shared.entry, hrooms, Shared.entry]
    cases hr : s.rooms name' with
    | none => simp [State.shared, hr]
    | some r =>
      have hlt := h.shared.entry_fresh name' r hr
      simp [State.shared, hr, hlt.ne]
  · simp [Shared.entry, State.shared]
  · simp [State.shared, (show r < s.fresh from hr).ne]

/-- What one step from inside `negotiate_info` does to what is shared. -/
theorem Step.effect (hs : Step cfg s t s') (h : RoomInv s) (hin : (s.pc t).inInfo) :
    ((∀ name, (s'.pc t).returned ≠ some (.ok (some name))) → s'.shared = s.shared) ∧
    ∀ name, (s'.pc t).returned = some (.ok (some name)) →
      Enters t name ⟨s.shared, s'.shared⟩ := by
  cases hs with
  | @join name r enc c io hpc hc =>
    refine ⟨fun hnot => absurd (by simp [Pc.returned]) (hnot name), fun name' hname => ?_⟩
    obtain rfl : name = name' := by simpa [Pc.returned] using hname
    exact enters_join h hpc
  | @create name enc c io hpc hc =>
    refine ⟨fun hnot => absurd (by simp [Pc.returned]) (hnot name), fun name' hname => ?_⟩
    obtain rfl : name = name' := by simpa [Pc.returned] using hname
    exact enters_create h hpc
  | @negoStop n r =>
    refine ⟨fun _ => rfl, fun name hname => ?_⟩
    cases r <;> simp [Pc.returned] at hname
  | negoNext | negoAsk | lookup | lookupNone | seeFull | seeSpace | refuse | refuseFail | joinFail
  | createFail =>
    exact ⟨fun _ => rfl, fun name hname => by simp [Pc.returned] at hname⟩
  | find hpc | findNone hpc | startBridge hpc | takePanic hpc | wait hpc | endBridge hpc
  | remove hpc | keepFind hpc | sleepNone hpc | tick hpc | seeFirst hpc | seeTaken hpc | ping hpc
  | pingFail hpc =>
    simp [hpc, Pc.inInfo] at hin

/-- A task does not come back to a negotiation, and has left it when it has returned. -/
theorem Step.unanswered (hs : Step cfg s t s') :
    ((s'.pc t).unanswered → (s.pc t).unanswered) ∧
    ((s'.pc t).returned.isSome → ¬ (s'.pc t).unanswered) := by
  cases hs <;> simp_all [Pc.unanswered, Pc.returned]

theorem Pc.unanswered_of_inInfo {p : Pc} (h : p.inInfo) : p.unanswered := by
  cases p <;> simp_all [Pc.inInfo, Pc.unanswered]

/-- A call that has returned is over. -/
structure Called (t : ClientId) (p : State × InfoCall) : Prop where
  atomic : p.2.Atomic t
  answered : p.2.result.isSome → ¬ (p.1.pc t).unanswered

theorem Called.note {e : Event} {p p' : State × InfoCall} (h : Called t p) (hi : RoomInv p.1)
    (he : (observed cfg t).step p e = some p') : Called t p' := by
  obtain ⟨s, call⟩ := p
  obtain ⟨s', call'⟩ := p'
  obtain ⟨hstep, hnote⟩ := Machine.observe_step.mp he
  dsimp only at hstep hnote hi
  cases e with
  | pump v b n =>
    obtain rfl : call' = call := hnote
    refine ⟨h.atomic, fun hres => ?_⟩
    rw [(pump_pumped hstep).eq]
    exact h.answered hres
  | resume v io =>
    have hs : Step cfg s v s' := resume_step hstep
    by_cases hvt : v = t
    · subst hvt
      by_cases hin : (s.pc v).inInfo
      · obtain rfl : call' = ⟨call.effects ++ [⟨s.shared, s'.shared⟩], (s'.pc v).returned⟩ := by
          rw [hnote, noteInfo, if_pos ⟨rfl, hin⟩]
        have hnone : ∀ name, call.result ≠ some (.ok (some name)) := fun name hres =>
          h.answered (by rw [hres]; rfl) (Pc.unanswered_of_inInfo hin)
        have hbefore := h.atomic.unchanged hnone
        obtain ⟨hsame, henters⟩ := hs.effect hi hin
        refine ⟨⟨fun hnot e he => ?_, fun name hname => ?_⟩, fun hres => hs.unanswered.2 hres⟩
        · rcases List.mem_append.mp he with he | he
          · exact hbefore e he
          · rw [List.mem_singleton.mp he]
            exact hsame hnot
        · exact ⟨call.effects, _, rfl, hbefore, henters name hname⟩
      · obtain rfl : call' = call := by rw [hnote, noteInfo, if_neg fun hand => hin hand.2]
        exact ⟨h.atomic, fun hres hun => h.answered hres (hs.unanswered.1 hun)⟩
    · obtain rfl : call' = call := by rw [hnote, noteInfo, if_neg fun hand => hvt hand.1]
      refine ⟨h.atomic, fun hres => ?_⟩
      rw [hs.others t fun htv => hvt htv.symm]
      exact h.answered hres

/-- `negotiate_info` writes to the map and to the rooms once, in the step in which it returns
`Ok(Some(name))`, and only under that name. -/
theorem negotiatesAtomically (cfg : Config) (t : ClientId) : NegotiatesAtomically cfg t := by
  intro s call hs
  have hcalled : RoomInv s ∧ Called t (s, call) := by
    refine Machine.Reachable.invariant (M := observed cfg t)
      (P := fun p => RoomInv p.1 ∧ Called t p) ⟨roomInv_start cfg, ⟨?_, ?_⟩, ?_⟩ ?_ hs
    · exact fun _ e he => nomatch he
    · exact fun name hname => nomatch hname
    · exact fun hres => nomatch hres
    · rintro p e p' hp ⟨hi, hc⟩ he
      refine ⟨?_, hc.note hi he⟩
      exact reachable_roomInv (Machine.ReachableBy.forget (hp.step he))
  exact hcalled.2.atomic

end Effects
end Croc.Server
