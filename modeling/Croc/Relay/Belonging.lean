import Croc.Relay.Live

/-! Which room a task has to do with: the one that its client has asked for, together with the
clients that have asked for the same. -/
namespace Croc.Server
open Lib

/-- The name that a task goes by. -/
def Pc.name : Pc → Option String
  | .awaitRooms name _ | .awaitRoom name _ _ | .writeFull name _ _ | .writeJoin name _ _
  | .writeCreate name _ | .findRooms name | .findRoom name _ | .bridging name _ _ _
  | .removeRooms name _ | .keepRooms name => some name
  | .nego _ | .sleep _ | .keepRoom _ | .keepPing _ _ | .done _ => none

/-- The room that a task uses, or will use when it has slept. -/
def Pc.room : Pc → Option RoomId
  | .sleep room => room
  | p => p.usedRoom

/-- Tasks keep to the name that their client has sent. -/
structure Belongs (cfg : Config) (s : State) : Prop where
  named : ∀ t name, (s.pc t).name = some name → sentRoom cfg t = some name
  uses : ∀ t r c, (s.pc t).room = some r → .joinedFirst c r ∈ s.log →
    sentRoom cfg c = sentRoom cfg t
  born : ∀ r < s.fresh, ∃ c, .joinedFirst c r ∈ s.log

variable {cfg : Config} {s s' : State} {t : ClientId}

theorem belongs_start (cfg : Config) : Belongs cfg (start cfg) := by
  constructor <;> simp [start, Pc.name, Pc.room]

/-- The rooms of tasks exist. -/
theorem RoomInv.room_fresh (h : RoomInv s) {r : RoomId} (hr : (s.pc t).room = some r) :
    r < s.fresh := by
  have ht := h.task t
  cases hpc : s.pc t with
  | sleep room =>
    rw [hpc] at ht hr
    obtain rfl : room = some r := hr
    exact ht
  | _ =>
    rw [hpc] at ht hr
    exact h.shared.used_fresh ht hr

theorem Belongs.quiet (h : Belongs cfg s) (hpc : ∀ u, u ≠ t → s'.pc u = s.pc u)
    (hname : ∀ name, (s'.pc t).name = some name → sentRoom cfg t = some name)
    (hroom : ∀ r, (s'.pc t).room = some r → ∀ c, .joinedFirst c r ∈ s.log →
      sentRoom cfg c = sentRoom cfg t)
    (hfresh : s'.fresh = s.fresh)
    (hlog : ∀ c r, .joinedFirst c r ∈ s'.log ↔ .joinedFirst c r ∈ s.log) : Belongs cfg s' := by
  refine ⟨fun u name hu => ?_, fun u r c hu hc => ?_, fun r hr => ?_⟩
  · by_cases hut : u = t
    · exact hut ▸ hname name (hut ▸ hu)
    · exact h.named u name (hpc u hut ▸ hu)
  · have hc := (hlog c r).mp hc
    by_cases hut : u = t
    · exact hut ▸ hroom r (hut ▸ hu) c hc
    · exact h.uses u r c (hpc u hut ▸ hu) hc
  · obtain ⟨c, hc⟩ := h.born r (hfresh ▸ hr)
    exact ⟨c, (hlog c r).mpr hc⟩

theorem Belongs.step (h : Belongs cfg s) (hr : RoomInv s)
    (hl : LiveInv cfg s) (hl' : LiveInv cfg s') (hs : Step cfg s t s') : Belongs cfg s' := by
  have hne := hs.others
  have hname : ∀ name, (s.pc t).name = some name → sentRoom cfg t = some name := h.named t
  have huses : ∀ r, (s.pc t).room = some r → ∀ c, .joinedFirst c r ∈ s.log →
      sentRoom cfg c = sentRoom cfg t := fun r hr c => h.uses t r c hr
  have hentry : ∀ name r, (s.pc t).name = some name → s.rooms name = some r → ∀ c,
      .joinedFirst c r ∈ s.log → sentRoom cfg c = sentRoom cfg t := fun name r hn hr c hc =>
    (hl.entry name r c hr hc).trans (h.named t name hn).symm
  cases hs with
  | negoNext hpc | negoStop hpc | refuse hpc | refuseFail hpc | joinFail hpc | createFail hpc
  | findNone hpc | takePanic hpc | remove hpc | sleepNone hpc | seeTaken hpc | pingFail hpc =>
    exact h.quiet hne (by simp [Pc.name]) (by simp [Pc.room]) rfl (by simp)
  | @negoAsk n name enc c io hpc hn =>
    have hask := (hl'.asking t name (by simp [Pc.asksFor])).sentRoom
    exact h.quiet hne (by simpa [Pc.name] using hask) (by simp [Pc.room]) rfl (by simp)
  | @lookup name enc r hpc ho hr =>
    rw [hpc] at hname hentry
    exact h.quiet hne (by simpa [Pc.name] using hname name rfl)
      (by simpa [Pc.room] using hentry name r rfl hr) rfl (by simp)
  | @lookupNone name enc hpc | @wait name r hpc =>
    rw [hpc] at hname
    exact h.quiet hne (by simpa [Pc.name] using hname name rfl) (by simp [Pc.room]) rfl (by simp)
  | @seeFull name r enc hpc | @seeSpace name r enc hpc | @startBridge name r receiver sender hpc
  | @endBridge name r receiver sender hpc =>
    rw [hpc] at hname huses
    exact h.quiet hne (by simpa [Pc.name] using hname name rfl)
      (by simpa [Pc.room] using huses r rfl) rfl (by simp)
  | @join name r enc c io hpc =>
    rw [hpc] at hname
    exact h.quiet hne (by simpa [Pc.name] using hname name rfl) (by simp [Pc.room]) rfl (by simp)
  | @create name enc c io hpc hc =>
    rw [hpc] at hname
    refine ⟨fun u n hu => ?_, fun u r c hu hc => ?_, fun r hlt => ?_⟩
    · by_cases hut : u = t
      · subst hut
        exact hname n (by simpa [Pc.name] using hu)
      · exact h.named u n (by simpa [hut] using hu)
    · by_cases hut : u = t
      · simp [hut, Pc.room] at hu
      · have hu : (s.pc u).room = some r := by simpa [hut] using hu
        -- the room of another task is older than the one that is opened
        have hold := (hr.room_fresh hu).ne
        exact h.uses u r c hu (by simpa [hold] using hc)
    · rcases Nat.lt_succ_iff_lt_or_eq.mp hlt with hlt | rfl
      · obtain ⟨c, hc⟩ := h.born r hlt
        exact ⟨c, List.mem_append_left _ hc⟩
      · exact ⟨t, List.mem_append_right _ (List.mem_singleton_self _)⟩
  | @find name r hpc ho hr =>
    rw [hpc] at hname hentry
    exact h.quiet hne (by simpa [Pc.name] using hname name rfl)
      (by simpa [Pc.room] using hentry name r rfl hr) rfl (by simp)
  | @keepFind name hpc ho =>
    rw [hpc] at hentry
    exact h.quiet hne (by simp [Pc.name])
      (by simpa [Pc.room] using fun r hr => hentry name r rfl hr) rfl (by simp)
  | @tick r hpc | @seeFirst r sender hpc | @ping r sender hpc =>
    rw [hpc] at huses
    exact h.quiet hne (by simp [Pc.name]) (by simpa [Pc.room] using huses r rfl) rfl (by simp)

theorem reachable_belongs (hX : cfg.ext.WritesShort) (h : (machine cfg).Reachable s) :
    Belongs cfg s := by
  refine h.invariant (belongs_start cfg) fun s e s' hs hi he => ?_
  cases e with
  | resume t io =>
    exact hi.step (reachable_roomInv hs) (reachable_liveInv hX hs)
      (reachable_liveInv hX (hs.step (e := .resume t io) he)) (resume_step he)
  | pump t fromReceiver n =>
    rw [(pump_pumped he).eq]
    exact ⟨hi.named, hi.uses, hi.born⟩

/-- A client that asks for a name of the group. -/
def Asks (cfg : Config) (names : String → Prop) (t : ClientId) : Prop :=
  ∃ name, sentRoom cfg t = some name ∧ names name

/-- A room that a client of the group has opened. -/
def Theirs (cfg : Config) (names : String → Prop) (s : State) (r : RoomId) : Prop :=
  ∃ c, .joinedFirst c r ∈ s.log ∧ Asks cfg names c

section Group
variable {names : String → Prop} {name : String} {r : RoomId} {c : ClientId}

theorem asks_iff (h : sentRoom cfg t = some name) : Asks cfg names t ↔ names name := by
  simp [Asks, h]

theorem Asks.congr (h : sentRoom cfg c = sentRoom cfg t) :
    Asks cfg names c ↔ Asks cfg names t := by
  simp [Asks, h]

theorem theirs_iff (hlog : LogInv s) (hc : .joinedFirst c r ∈ s.log) :
    Theirs cfg names s r ↔ Asks cfg names c := by
  refine ⟨fun ⟨d, hd, hasks⟩ => ?_, fun h => ⟨c, hc, h⟩⟩
  rwa [hlog.first_once r c d hc hd]

theorem Theirs.lt (hlog : LogInv s) (h : Theirs cfg names s r) : r < s.fresh := by
  obtain ⟨c, hc, -⟩ := h
  exact hlog.first_born r c hc

/-- What tells the group from the others in a state that is reached. -/
structure Grouped (cfg : Config) (names : String → Prop) (s : State) : Prop where
  name : ∀ t name, (s.pc t).name = some name → (Asks cfg names t ↔ names name)
  room : ∀ t r, (s.pc t).room = some r → (Asks cfg names t ↔ Theirs cfg names s r)
  entry : ∀ name r, s.rooms name = some r → (names name ↔ Theirs cfg names s r)
  first : ∀ r c, .joinedFirst c r ∈ s.log → (Asks cfg names c ↔ Theirs cfg names s r)
  second : ∀ r c, .joinedSecond c r ∈ s.log → (Asks cfg names c ↔ Theirs cfg names s r)

theorem reachable_grouped (hX : cfg.ext.WritesShort) (h : (machine cfg).Reachable s)
    (names : String → Prop) : Grouped cfg names s := by
  have hroom := reachable_roomInv h
  have hlog := reachable_logInv h
  have hlive := reachable_liveInv hX h
  have hbelongs := reachable_belongs hX h
  refine ⟨fun t name ht => asks_iff (hbelongs.named t name ht), fun t r ht => ?_,
    fun name r hr => ?_, fun r c hc => (theirs_iff hlog hc).symm, fun r c hc => ?_⟩
  · obtain ⟨d, hd⟩ := hbelongs.born r (hroom.room_fresh ht)
    rw [theirs_iff hlog hd]
    exact (Asks.congr (hbelongs.uses t r d ht hd)).symm
  · obtain ⟨d, hd⟩ := hbelongs.born r (hroom.shared.entry_fresh name r hr)
    rw [theirs_iff hlog hd, asks_iff (hlive.entry name r d hr hd)]
  · obtain ⟨d, hd⟩ := hbelongs.born r (hlog.second_born hroom.shared r c hc)
    rw [theirs_iff hlog hd]
    exact (Asks.congr (hlive.names r d c hd hc)).symm

end Group
end Croc.Server
