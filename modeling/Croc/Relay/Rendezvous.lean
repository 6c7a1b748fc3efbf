import Croc.Lib.Rendezvous
import Croc.Relay.Pairing

/-! The relay as a meeting place: under every name, what it tells its clients and whom it connects
is a run of a meeting place of its own. -/
namespace Croc.Server
open Lib

/-- The name for which a task has something to say. -/
def Pc.named : Pc → Option String
  | .writeFull name _ _ | .writeJoin name _ _ | .writeCreate name _ | .findRoom name _
  | .removeRooms name _ => some name
  | _ => none

def Note.move : Note → Option (Rendezvous.Move ClientId)
  | .joinedFirst c _ | .joinedSecond c _ => some (.enter c)
  | .refused c => some (.refuse c)
  | .bridged _ receiver sender => some (.connect sender receiver)
  | .bridgeEnded .. => none
  | .removed .. => some .close

/-- What a step means to those who meet under a name. -/
def shows (s : State) (e : Event) (s' : State) : Option (String × Rendezvous.Move ClientId) :=
  match e with
  | .resume t _ => do
    let name ← (s.pc t).named
    let n ← s'.log[s.log.length]?
    let m ← n.move
    return (name, m)
  | .pump .. => none

/-- The room of a name has in it who is there. -/
def Seats (s : State) (name : String) : Rendezvous.Slot ClientId → Prop
  | .free => s.rooms name = none
  | .waiting host => ∃ r, s.rooms name = some r ∧ s.room r = ⟨some host, none, none⟩
  | .met host guest => ∃ r, s.rooms name = some r ∧ s.room r = ⟨some host, some guest, none⟩
  | .joined host guest =>
    ∃ r, s.rooms name = some r ∧ s.room r = Room.empty ∧ .bridged r guest host ∈ s.log

/-- A meeting place for each name. -/
def meetings : Machine (String → Rendezvous.Slot ClientId) (String × Rendezvous.Move ClientId) :=
  .family String (Rendezvous.place ClientId)

def Seated (s : State) (slots : String → Rendezvous.Slot ClientId) : Prop :=
  ∀ name, Seats s name (slots name)

/-- A step that shows is a move of the meeting places, and one that does not show is none. -/
def Follows (slots : String → Rendezvous.Slot ClientId) (s' : State) :
    Option (String × Rendezvous.Move ClientId) → Prop
  | none => Seated s' slots
  | some b => ∃ slots', meetings.step slots b = some slots' ∧ Seated s' slots'

variable {cfg : Config} {s s' : State} {t : ClientId}

section Full

/-- A client is told that its room is full while it is. -/
def FullWhileTold (s : State) : Prop :=
  ∀ t name r enc, s.pc t = .writeFull name r enc →
    (s.room r).first.isSome ∧ (s.room r).second.isSome

theorem FullWhileTold.step (h : FullWhileTold s) (hr : RoomInv s) (hs : Step cfg s t s') :
    FullWhileTold s' := by
  intro u name r enc hu
  by_cases hut : u = t
  · subst hut
    cases hs with
    | @seeFull name' r' enc' hpc ho hf =>
      simp only [State.setPc, Function.update_self, Pc.writeFull.injEq] at hu
      obtain ⟨-, rfl, -⟩ := hu
      exact (isFull_iff (hr.shared.handle_none _)).mp hf
    | _ => simp at hu
  · rw [hs.others u hut] at hu
    have hentry : s.rooms name = some r := by simpa [hu] using hr.task u
    have hown := hr.locks.owner_of_holding (t := u) (i := .room r) (by simp [hu])
    rw [hr.room_kept hs (hr.shared.entry_fresh name r hentry)
      fun ht => hut (Option.some.inj (hown.symm.trans ht))]
    exact h u name r enc hu

theorem reachable_fullWhileTold (h : (machine cfg).Reachable s) : FullWhileTold s :=
  invariant (fun t name r enc ht => by simp [start] at ht)
    (fun _ _ _ hs hi hst => hi.step (reachable_roomInv hs) hst) (fun _ _ hi => hi) h

end Full

section Seats
variable {name : String} {slot : Rendezvous.Slot ClientId}
  {slots : String → Rendezvous.Slot ClientId}
  {m : Rendezvous.Move ClientId} {io : Io}

theorem Seats.mono (h : Seats s name slot) (hentry : s'.rooms name = s.rooms name)
    (hroom : ∀ r, s.rooms name = some r → s'.room r = s.room r)
    (hlog : ∀ n ∈ s.log, n ∈ s'.log) : Seats s' name slot := by
  cases slot with
  | free => exact hentry.trans h
  | waiting host =>
    obtain ⟨r, hr, hx⟩ := h
    exact ⟨r, hentry.trans hr, (hroom r hr).trans hx⟩
  | met host guest =>
    obtain ⟨r, hr, hx⟩ := h
    exact ⟨r, hentry.trans hr, (hroom r hr).trans hx⟩
  | joined host guest =>
    obtain ⟨r, hr, hx, hb⟩ := h
    exact ⟨r, hentry.trans hr, (hroom r hr).trans hx, hlog _ hb⟩

theorem shows_quiet (hlog : s'.log = s.log) : shows s (.resume t io) s' = none := by
  simp [shows, hlog]

theorem shows_noted (name : String) (n : Note) (hname : (s.pc t).named = some name)
    (hlog : s'.log = s.log ++ [n]) :
    shows s (.resume t io) s' = n.move.map fun m => (name, m) := by
  cases hm : n.move <;> simp [shows, hname, hlog, hm]

/-- A move under a name leaves the other names alone. -/
theorem follows_move (slot : Rendezvous.Slot ClientId) (hm : (slots name).after m = some slot)
    (hself : Seats s' name slot)
    (hother : ∀ n, n ≠ name → Seats s' n (slots n)) : Follows slots s' (some (name, m)) := by
  refine ⟨Function.update slots name slot, ?_, fun n => ?_⟩
  · show ((slots name).after m).map (Function.update slots name) = _
    rw [hm, Option.map_some]
  · by_cases hn : n = name
    · subst hn
      rwa [Function.update_self]
    · rw [Function.update_of_ne hn]
      exact hother n hn

/-- Where a name has a room, it shows which of the three it is. -/
theorem Seats.occupied {r : RoomId} (h : Seats s name slot) (hr : s.rooms name = some r) :
    (∃ host, slot = .waiting host ∧ s.room r = ⟨some host, none, none⟩) ∨
      (∃ host guest, slot = .met host guest ∧ s.room r = ⟨some host, some guest, none⟩) ∨
      ∃ host guest, slot = .joined host guest ∧ s.room r = Room.empty := by
  cases slot with
  | free => exact absurd (h.symm.trans hr) (by simp)
  | waiting host =>
    obtain ⟨i, hi, hx⟩ := h
    obtain rfl := Option.some.inj (hi.symm.trans hr)
    exact Or.inl ⟨host, rfl, hx⟩
  | met host guest =>
    obtain ⟨i, hi, hx⟩ := h
    obtain rfl := Option.some.inj (hi.symm.trans hr)
    exact Or.inr (Or.inl ⟨host, guest, rfl, hx⟩)
  | joined host guest =>
    obtain ⟨i, hi, hx, -⟩ := h
    obtain rfl := Option.some.inj (hi.symm.trans hr)
    exact Or.inr (Or.inr ⟨host, guest, rfl, hx⟩)

/-- Another name has another room. -/
theorem SharedOk.other {n : String} {r i : RoomId} (h : SharedOk s) (hr : s.rooms name = some r)
    (hn : n ≠ name) (hi : s.rooms n = some i) : i ≠ r :=
  fun he => hn (h.entry_inj n name r (he ▸ hi) hr)

theorem Seated.quiet (h : Seated s slots) (hrooms : s'.rooms = s.rooms) (hroom : s'.room = s.room)
    (hlog : s'.log = s.log) : Follows slots s' (shows s (.resume t io) s') := by
  rw [shows_quiet hlog]
  exact fun n => (h n).mono (by rw [hrooms]) (fun _ _ => by rw [hroom]) fun _ hn => hlog ▸ hn

/-- Every step of a task that shows is a move of the meeting place under its name. -/
theorem Seated.step (h : Seated s slots) (hr : RoomInv s) (hfull : FullWhileTold s)
    (hs : Step cfg s t s') : Follows slots s' (shows s (.resume t io) s') := by
  have ht := hr.task t
  have hshared := hr.shared
  have hhandle := hshared.handle_none
  cases hs with
  | negoNext hpc | negoAsk hpc | negoStop hpc | lookup hpc | lookupNone hpc | seeFull hpc
  | seeSpace hpc | refuseFail hpc | joinFail hpc | createFail hpc | find hpc | findNone hpc
  | takePanic hpc | wait hpc | keepFind hpc | sleepNone hpc | tick hpc | seeFirst hpc
  | seeTaken hpc | ping hpc | pingFail hpc => exact h.quiet rfl rfl rfl
  | @refuse name r enc c io' hpc hc =>
    rw [shows_noted name (.refused t) (by simp [Pc.named, hpc]) rfl]
    have hentry : s.rooms name = some r := by simpa [hpc] using ht
    obtain ⟨h1, h2⟩ := hfull t name r enc hpc
    have hlog : ∀ n ∈ s.log, n ∈ s.log ++ [.refused t] := fun n hn => List.mem_append_left _ hn
    rcases (h name).occupied hentry with ⟨host, -, hx⟩ | ⟨host, guest, hslot, -⟩ |
      ⟨host, guest, -, hx⟩
    · simp [hx] at h2
    · exact follows_move (slots name) (by rw [hslot]; rfl)
        ((h name).mono rfl (fun _ _ => rfl) hlog) fun n _ => (h n).mono rfl (fun _ _ => rfl) hlog
    · simp [hx, Room.empty] at h1
  | @join name r enc c io' hpc hc =>
    rw [shows_noted name (.joinedSecond t r) (by simp [Pc.named, hpc]) rfl]
    obtain ⟨hentry, h1, h2⟩ : s.rooms name = some r ∧ (s.room r).first.isSome ∧
        (s.room r).second = none := by simpa [hpc] using ht
    rcases (h name).occupied hentry with ⟨host, hslot, hx⟩ | ⟨host, guest, -, hx⟩ |
      ⟨host, guest, -, hx⟩
    · refine follows_move (.met host t) (by rw [hslot]; rfl) ⟨r, hentry, by simp [hx]⟩
        fun n hn => (h n).mono rfl (fun i hi => ?_) fun _ hn => List.mem_append_left _ hn
      simp [hshared.other hentry hn hi]
    · simp [hx] at h2
    · simp [hx, Room.empty] at h1
  | @create name enc c io' hpc hc =>
    rw [shows_noted name (.joinedFirst t s.fresh) (by simp [Pc.named, hpc]) rfl]
    have hnone : s.rooms name = none := by simpa [hpc] using ht
    have hslot : slots name = .free := by
      cases hslot : slots name with
      | free => rfl
      | waiting host | met host guest | joined host guest =>
        have hname := h name
        rw [hslot] at hname
        obtain ⟨r, hr, -⟩ := hname
        rw [hnone] at hr
        cases hr
    refine follows_move (.waiting t) (by rw [hslot]; rfl) ⟨s.fresh, by simp, by simp⟩
      fun n hn => (h n).mono (by simp [hn]) (fun i hi => ?_) fun _ hn => List.mem_append_left _ hn
    simp [(hshared.entry_fresh n i hi).ne]
  | @startBridge name r receiver sender hpc ho hf h2 h1 =>
    rw [shows_noted name (.bridged r receiver sender) (by simp [Pc.named, hpc]) rfl]
    obtain ⟨-, hn⟩ : r < s.fresh ∧ ∀ n, s.rooms n = some r → n = name := by simpa [hpc] using ht
    obtain ⟨n, hentry⟩ := hshared.first_entry r (by simp [h1])
    obtain rfl := hn n hentry
    rcases (h n).occupied hentry with ⟨host, -, hx⟩ | ⟨host, guest, hslot, hx⟩ |
      ⟨host, guest, -, hx⟩
    · simp [hx] at h2
    · obtain ⟨rfl, rfl⟩ : host = sender ∧ guest = receiver := by simpa [hx] using And.intro h1 h2
      refine follows_move (.joined host guest) ?_ ⟨r, hentry, ?_, by simp⟩
        fun i hi => (h i).mono rfl (fun j hj => ?_) fun _ hn => List.mem_append_left _ hn
      · rw [hslot]
        exact if_pos ⟨rfl, rfl⟩
      · simp [hx, Room.empty]
      · simp [hshared.other hentry hi hj]
    · simp [hx, Room.empty] at h1
  | @endBridge name r receiver sender hpc =>
    have hshow : ∀ s', shows s (.resume t io) s' = none := fun s' => by
      simp [shows, hpc, Pc.named]
    obtain ⟨-, h1, h2⟩ : s.rooms name = some r ∧ (s.room r).first = none ∧
        (s.room r).second = none := by simpa [hpc] using ht
    have hsame : ({ s.room r with first := none, second := none } : Room) = s.room r := by
      cases hx : s.room r
      simp_all
    rw [hshow]
    refine fun n => (h n).mono rfl (fun i _ => ?_) fun _ hn => List.mem_append_left _ hn
    simp only [State.setPc, State.acquire, State.note, State.setRoom, hsame,
      Function.update_eq_self]
  | @remove name r hpc ho =>
    rw [shows_noted name (.removed r (s.rooms name)) (by simp [Pc.named, hpc]) rfl]
    obtain ⟨hentry, h1, -⟩ : s.rooms name = some r ∧ (s.room r).first = none ∧
        (s.room r).second = none := by simpa [hpc] using ht
    rcases (h name).occupied hentry with ⟨host, -, hx⟩ | ⟨host, guest, -, hx⟩ |
      ⟨host, guest, hslot, -⟩
    · simp [hx] at h1
    · simp [hx] at h1
    · refine follows_move .free (by rw [hslot]; rfl) ?_
        fun n hn => (h n).mono ?_ (fun _ _ => rfl) fun _ hn => List.mem_append_left _ hn
      · simp [Seats]
      · simp [hn]

end Seats

theorem seated_start (cfg : Config) : Seated (start cfg) meetings.init := fun _ => rfl

/-- The relay refines a meeting place for each name. -/
theorem refines_meetings (cfg : Config) :
    (machine cfg).Refines meetings (fun _ _ => True) shows Seated where
  init := seated_start cfg
  step s e s' slots hs hseated _ he := by
    have hfollows : Follows slots s' (shows s e s') := by
      cases e with
      | resume t io =>
        exact hseated.step (reachable_roomInv hs) (reachable_fullWhileTold hs) (resume_step he)
      | pump t fromReceiver n =>
        have heq := (pump_pumped he).eq
        rw [heq]
        exact fun n => (hseated n).mono rfl (fun _ _ => rfl) fun _ hn => hn
    cases hshow : shows s e s' <;> rw [hshow] at hfollows <;> exact hfollows

/-- All that is said about who is there shows. -/
theorem Step.shows_notes (hs : Step cfg s t s') (io : Io) : s'.log.filterMap Note.move =
    s.log.filterMap Note.move ++ (shows s (.resume t io) s').toList.map Prod.snd := by
  cases hs with
  | negoNext hpc | negoAsk hpc | negoStop hpc | lookup hpc | lookupNone hpc | seeFull hpc
  | seeSpace hpc | refuseFail hpc | joinFail hpc | createFail hpc | find hpc | findNone hpc
  | takePanic hpc | wait hpc | keepFind hpc | sleepNone hpc | tick hpc | seeFirst hpc
  | seeTaken hpc | ping hpc | pingFail hpc => simp [shows_quiet]
  | refuse hpc | join hpc | create hpc | startBridge hpc | endBridge hpc | remove hpc =>
    simp [shows, hpc, Pc.named, Note.move]

/-- What the clients of a name are told, whom they are connected with, and who is there now. -/
structure Hosts (s : State) (name : String) (moves : List (Rendezvous.Move ClientId)) : Prop where
  seats : ∃ slot, Seats s name slot ∧ Rendezvous.Balance moves slot
  orderly : Rendezvous.Orderly moves

/-- What shows of a run of the relay. -/
structure Meets (s : State) (shown : List (String × Rendezvous.Move ClientId)) : Prop where
  notes : shown.map Prod.snd = s.log.filterMap Note.move
  hosts : ∀ name, Hosts s name (Machine.under name shown)

/-- Whatever the order of its steps, the relay brings the clients of a name together two by two, in
the order in which it lets them in. It lets in the next one when the two before are done, and
refuses those that it answers while two wait to be connected. -/
theorem reachable_meets {shown : List (String × Rendezvous.Move ClientId)}
    (h : ((machine cfg).observe [] (Machine.showing shows)).Reachable (s, shown)) :
    Meets s shown := by
  refine ⟨?_, fun name => ?_⟩
  · apply h.invariant (P := fun p => p.2.map Prod.snd = p.1.log.filterMap Note.move) rfl
    rintro p e p' - hp he
    obtain ⟨hstep, hshown⟩ := Machine.observe_step.mp he
    rw [hshown, Machine.showing, List.map_append, hp]
    cases e with
    | resume t io => exact ((resume_step hstep).shows_notes io).symm
    | pump t fromReceiver n =>
      rw [(pump_pumped hstep).eq]
      exact List.append_nil _
  · obtain ⟨slots, htrace, hseated⟩ := (refines_meetings cfg).trace h
    obtain ⟨hbalance, horderly⟩ := Rendezvous.orderly (htrace.under name)
    exact ⟨⟨slots name, hseated name, hbalance⟩, horderly⟩

/-- Two clients that name the same room are let in and connected. -/
theorem visitors_meet : ∃ s shown,
    ((machine (visited "pass123" fun _ => visitor .main "pass123" "abc" [])).observe []
      (Machine.showing shows)).Reachable (s, shown) ∧ Meets s shown ∧
    shown.map Prod.snd = [.enter 0, .enter 1, .connect 0 1] := by
  have hX : External.transparent.WritesShort := External.transparent_writesShort
  have hs : ∀ t, Speaks (visited "pass123" fun _ => visitor .main "pass123" "abc" []) t "abc" [] :=
    fun t => visitor_speaks rfl (by decide +kernel) (by decide +kernel)
  obtain ⟨s, h⟩ := exists_bridging hX (lenient_any _) Nat.one_ne_zero (hs 0) (hs 1)
  obtain ⟨shown, hshown⟩ : ∃ shown,
      ((machine (visited "pass123" fun _ => visitor .main "pass123" "abc" [])).observe []
        (Machine.showing shows)).Reachable (s, shown) := h.reachable.exists_record
  have hmeets := reachable_meets hshown
  refine ⟨s, shown, hshown, hmeets, ?_⟩
  rw [hmeets.notes, h.log]
  rfl

end Croc.Server
