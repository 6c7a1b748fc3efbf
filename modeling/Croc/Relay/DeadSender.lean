import Croc.Relay.Pairing

/-! Dead senders. Only `do_keepalive` can find out that the client that waits in a room has gone;
what becomes of the room after that. -/
namespace Croc.Server
open Lib

/-- A keepalive that could not be written: the map at that moment, the room, and the session whose
socket has failed. -/
structure DeadSender where
  rooms : String → Option RoomId
  room : RoomId
  session : ClientId

/-- `do_keepalive` of some task ends with "Sender's socket stopped". -/
def noteDead (dead : List DeadSender) (s : State) (e : Event) (_ : State) : List DeadSender :=
  match e with
  | .resume t io =>
    match s.pc t with
    | .keepPing r sender => if io.ok then dead else dead ++ [⟨s.rooms, r, sender⟩]
    | _ => dead
  | .pump .. => dead

/-- The relay with the record of the keepalives that have failed. -/
def watched (cfg : Config) : Machine (State × List DeadSender) Event :=
  (machine cfg).observe [] noteDead

namespace DeadSender

/-- The room of a dead sender is closed. -/
structure Closed (d : DeadSender) (cfg : Config) (s : State) : Prop where
  /-- It is not in the map any more. -/
  gone : ∀ name, s.rooms name ≠ some d.room
  /-- A client that asks for its name gets a fresh room, or one that somebody else has opened. -/
  next : ∀ t name enc io s', d.rooms name = some d.room → s.pc t = .awaitRooms name enc →
    resume cfg s t io = some s' →
      s'.pc t = .writeCreate name enc ∨ ∃ r, r ≠ d.room ∧ s'.pc t = .awaitRoom name r enc
  /-- Nobody has been bridged to the dead session. -/
  apart : ∀ receiver, .bridged d.room receiver d.session ∉ s.log

/-- The room is as it was when the keepalive failed, or somebody has been bridged to the dead
session. -/
def Lingers (d : DeadSender) (s : State) : Prop :=
  (∃ name, d.rooms name = some d.room ∧ s.rooms name = some d.room ∧
    (s.room d.room).first = some d.session) ∨
  ∃ receiver, .bridged d.room receiver d.session ∈ s.log

section
variable {d : DeadSender} {cfg : Config} {s s' : State} {t : ClientId}

theorem Lingers.not_closed (h : d.Lingers s) : ¬ d.Closed cfg s := by
  rintro ⟨gone, -, apart⟩
  rcases h with ⟨name, -, hentry, -⟩ | ⟨receiver, hb⟩
  · exact gone name hentry
  · exact apart receiver hb

/-- The next client that asks for the name is sent into the room of the dead sender. -/
theorem asked {name : String} {enc : EncryptedSession} {io : Io} (hn : s.rooms name = some d.room)
    (hpc : s.pc t = .awaitRooms name enc) (hs : resume cfg s t io = some s') :
    s'.pc t = .awaitRoom name d.room enc := by
  simp only [resume, hpc, hn] at hs
  split at hs
  · rw [← Option.some.inj hs]
    simp
  · simp at hs

/-- A step that leaves the entry and the first session of the room where they are. -/
theorem Lingers.keep (h : d.Lingers s)
    (hmap : ∀ name, s.rooms name = some d.room → (s.room d.room).first = some d.session →
      s'.rooms name = some d.room)
    (hfirst : (s.room d.room).first = some d.session → (s'.room d.room).first = some d.session)
    (hlog : s.log <+: s'.log) : d.Lingers s' := by
  rcases h with ⟨name, hd, hn, h1⟩ | ⟨receiver, hb⟩
  · exact Or.inl ⟨name, hd, hmap name hn h1, hfirst h1⟩
  · exact Or.inr ⟨receiver, hlog.subset hb⟩

theorem Lingers.step (h : d.Lingers s) (hr : RoomInv s) (hs : Step cfg s t s') :
    d.Lingers s' := by
  have ht := hr.task t
  cases hs with
  | negoNext hpc | negoAsk hpc | negoStop hpc | lookup hpc | lookupNone hpc | seeFull hpc
  | seeSpace hpc | refuseFail hpc | joinFail hpc | createFail hpc | find hpc | findNone hpc
  | takePanic hpc | wait hpc | keepFind hpc | sleepNone hpc | tick hpc | seeFirst hpc
  | seeTaken hpc | ping hpc | pingFail hpc =>
    exact h.keep (fun _ hn _ => hn) id (List.prefix_refl _)
  | refuse hpc => exact h.keep (fun _ hn _ => hn) id (List.prefix_append _ _)
  | @join name r enc c io hpc hc =>
    refine h.keep (fun _ hn _ => hn) (fun h1 => ?_) (List.prefix_append _ _)
    by_cases hd : d.room = r
    · simpa [← hd] using h1
    · simpa [hd] using h1
  | @create name enc c io hpc hc =>
    have hnone : s.rooms name = none := by simpa [hpc] using ht
    refine h.keep (fun n hn _ => ?_) (fun h1 => ?_) (List.prefix_append _ _)
    · have hne : n ≠ name := by
        rintro rfl
        simp [hnone] at hn
      simpa [hne] using hn
    · have hne : d.room ≠ s.fresh := fun hd => by
        simp [hr.shared.unborn d.room hd.ge] at h1
      simpa [hne] using h1
  | @startBridge name r receiver sender hpc ho hf h2 h1 =>
    rcases h with ⟨n, hd, hn, hfirst⟩ | ⟨receiver', hb⟩
    · by_cases hdr : d.room = r
      · obtain rfl : d.session = sender := Option.some.inj (hfirst.symm.trans (hdr ▸ h1))
        exact Or.inr ⟨receiver, by simp [hdr]⟩
      · exact Or.inl ⟨n, hd, hn, by simpa [hdr] using hfirst⟩
    · exact Or.inr ⟨receiver', by simp [hb]⟩
  | @endBridge name r receiver sender hpc =>
    obtain ⟨-, hnone, -⟩ : s.rooms name = some r ∧ (s.room r).first = none ∧
        (s.room r).second = none := by simpa [hpc] using ht
    refine h.keep (fun _ hn _ => hn) (fun h1 => ?_) (List.prefix_append _ _)
    have hne : d.room ≠ r := fun hd => by simp [hd, hnone] at h1
    simpa [hne] using h1
  | @remove name r hpc ho =>
    obtain ⟨hentry, hnone, -⟩ : s.rooms name = some r ∧ (s.room r).first = none ∧
        (s.room r).second = none := by simpa [hpc] using ht
    refine h.keep (fun n hn h1 => ?_) id (List.prefix_append _ _)
    -- what is removed is the entry of a room whose sessions have been taken
    have hne : n ≠ name := by
      rintro rfl
      obtain rfl := Option.some.inj (hn.symm.trans hentry)
      simp [hnone] at h1
    simpa [hne] using hn

end

/-- When a keepalive fails, its room is in the map with the dead session. -/
theorem lingers_of_fail {s : State} {t : ClientId} {r : RoomId} {sender : ClientId}
    (hr : RoomInv s) (hpc : s.pc t = .keepPing r sender) :
    Lingers ⟨s.rooms, r, sender⟩ s := by
  obtain ⟨-, h1⟩ : r < s.fresh ∧ (s.room r).first = some sender := by simpa [hpc] using hr.task t
  obtain ⟨name, hn⟩ := hr.shared.first_entry r (by simp [h1])
  exact Or.inl ⟨name, hn, hn, h1⟩

theorem lingers_step {cfg : Config} {s s' : State} {e : Event} {d : DeadSender}
    (h : d.Lingers s) (hr : RoomInv s) (he : step cfg s e = some s') : d.Lingers s' := by
  obtain ⟨t, hs | hs⟩ := step_cases he
  · exact h.step hr hs
  · rw [hs.eq]
    exact h

theorem reachable_lingers {cfg : Config} {s : State} {dead : List DeadSender}
    (h : (watched cfg).Reachable (s, dead)) : ∀ d ∈ dead, d.Lingers s := by
  refine Machine.Reachable.invariant (M := watched cfg) (P := fun p => ∀ d ∈ p.2, d.Lingers p.1)
    (by simp [watched, Machine.observe]) (fun p e p' hp ih he d hd => ?_) h
  have hr : RoomInv p.1 := reachable_roomInv (Machine.ReachableBy.forget hp)
  obtain ⟨hstep, hnote⟩ := Machine.observe_step.mp he
  suffices hd' : d.Lingers p.1 from lingers_step hd' hr hstep
  rw [hnote] at hd
  unfold noteDead at hd
  split at hd
  · split at hd
    next r sender hpc =>
      split at hd
      · exact ih d hd
      · rcases List.mem_append.mp hd with hd | hd
        · exact ih d hd
        · obtain rfl := List.mem_singleton.mp hd
          exact lingers_of_fail hr hpc
    · exact ih d hd
  · exact ih d hd

theorem reachable_step {cfg : Config} {s s' : State} {dead : List DeadSender} {e : Event}
    (h : (watched cfg).Reachable (s, dead)) (he : (machine cfg).step s e = some s') :
    (watched cfg).Reachable (s', noteDead dead s e s') :=
  h.step (e := e) (Machine.observe_step.mpr ⟨he, rfl⟩)

/-- The task that waits in a room wakes up and cannot write to the first session. -/
theorem reach_fail {cfg : Config} {s : State} {dead : List DeadSender} {t u : ClientId}
    {r : RoomId} (h : (watched cfg).Reachable (s, dead)) (hpc : s.pc t = .sleep (some r))
    (hfree : s.lock (.room r) = Mutex.free) (hfirst : (s.room r).first = some u) :
    (watched cfg).Reachable ({ s with pc := Function.update s.pc t (.done (.ok ())) },
      dead ++ [⟨s.rooms, r, u⟩]) := by
  have h1 := reachable_step (e := .resume t Io.fine) h
    (by simp [machine, step, resume, hpc, hfree, Mutex.acquire_free, Mutex.free]; rfl)
  have h2 := reachable_step (e := .resume t Io.fine) h1
    (by simp [machine, step, resume, State.owns, hfirst]; rfl)
  have h3 := reachable_step (e := .resume t ⟨false, 0⟩) h2
    (by simp [machine, step, resume]; rfl)
  simpa [noteDead, hpc, lock_restored hfree] using h3

/-- A client waits in the room "abc", and then a keepalive cannot be written to its socket. -/
theorem lost_visitor : ∃ s dead d,
    (watched (visited "pass123" fun _ => visitor .main "pass123" "abc" [])).Reachable (s, dead) ∧
      d ∈ dead ∧ s.pc 0 = .done (.ok ()) ∧ s.rooms "abc" = some d.room ∧
      (s.room d.room).first = some d.session := by
  have hs : Speaks (visited "pass123" fun _ => visitor .main "pass123" "abc" []) 0 "abc" [] :=
    visitor_speaks rfl (by decide +kernel) (by decide +kernel)
  obtain ⟨_, h0⟩ := (ready_start _ _ 0).wait External.transparent_writesShort (lenient_any _) hs
    rfl rfl
  obtain ⟨_, h1⟩ : ∃ dead, (watched _).Reachable (_, dead) := h0.exists_record
  exact ⟨_, _, _, reach_fail (t := 0) (r := 0) (u := 0) h1 rfl rfl rfl,
    List.mem_append_right _ (List.mem_singleton_self _), rfl, rfl, rfl⟩

/-- As long as nobody has been bridged to the dead session, every client that asks for the name of
its room is sent there. -/
theorem reachable_asked {cfg : Config} {s : State} {dead : List DeadSender} {d : DeadSender}
    (h : (watched cfg).Reachable (s, dead)) (hd : d ∈ dead)
    (hapart : ∀ receiver, .bridged d.room receiver d.session ∉ s.log) :
    ∃ name, d.rooms name = some d.room ∧ ∀ t enc io s', s.pc t = .awaitRooms name enc →
      resume cfg s t io = some s' → s'.pc t = .awaitRoom name d.room enc := by
  rcases reachable_lingers h d hd with ⟨name, hname, hn, -⟩ | ⟨receiver, hb⟩
  · exact ⟨name, hname, fun t enc io s' hpc hs => asked hn hpc hs⟩
  · exact absurd hb (hapart receiver)

/-- Whenever a keepalive has failed, the room of the dead sender is not closed, in any state that
the run comes to: it is still in the map, or somebody has been bridged to the dead session. -/
theorem reachable_not_closed {cfg : Config} {s : State} {dead : List DeadSender} {d : DeadSender}
    (h : (watched cfg).Reachable (s, dead)) (hd : d ∈ dead) : ¬ d.Closed cfg s :=
  (reachable_lingers h d hd).not_closed

theorem lostVisitor_not_closed : ∃ s dead d,
    (watched (visited "pass123" fun _ => visitor .main "pass123" "abc" [])).Reachable (s, dead) ∧
      d ∈ dead ∧
        ¬ d.Closed (visited "pass123" fun _ => visitor .main "pass123" "abc" []) s := by
  obtain ⟨s, dead, d, h, hd, -⟩ := lost_visitor
  exact ⟨s, dead, d, h, hd, reachable_not_closed h hd⟩

/-- The keepalives of its room have ended, and the room is still in the map. -/
theorem lostVisitor_in_map : ∃ s dead d,
    (watched (visited "pass123" fun _ => visitor .main "pass123" "abc" [])).Reachable (s, dead) ∧
      d ∈ dead ∧ s.pc 0 = .done (.ok ()) ∧ s.rooms "abc" = some d.room ∧
        (s.room d.room).first = some d.session ∧
          ¬ d.Closed (visited "pass123" fun _ => visitor .main "pass123" "abc" []) s := by
  obtain ⟨s, dead, d, h, hd, hpc, hmap, hfirst⟩ := lost_visitor
  exact ⟨s, dead, d, h, hd, hpc, hmap, hfirst, fun hc => hc.gone "abc" hmap⟩

end DeadSender

end Croc.Server
