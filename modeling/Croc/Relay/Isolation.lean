import Croc.Lib.Simulation
import Croc.Relay.Belonging

/-! The clients of some rooms do not notice the clients of the others: whatever happens to them on a
relay could also happen if nobody else had come. -/
namespace Croc.Server
open Lib

/-- The same await point, with other numbers for the rooms. -/
def Pc.rename (ρ : RoomId → RoomId) : Pc → Pc
  | .awaitRoom name r enc => .awaitRoom name (ρ r) enc
  | .writeFull name r enc => .writeFull name (ρ r) enc
  | .writeJoin name r enc => .writeJoin name (ρ r) enc
  | .findRoom name r => .findRoom name (ρ r)
  | .bridging name r receiver sender => .bridging name (ρ r) receiver sender
  | .removeRooms name r => .removeRooms name (ρ r)
  | .sleep room => .sleep (room.map ρ)
  | .keepRoom r => .keepRoom (ρ r)
  | .keepPing r sender => .keepPing (ρ r) sender
  | .nego n => .nego n
  | .awaitRooms name enc => .awaitRooms name enc
  | .writeCreate name enc => .writeCreate name enc
  | .findRooms name => .findRooms name
  | .keepRooms name => .keepRooms name
  | .done r => .done r

theorem Pc.rename_congr {ρ ρ' : RoomId → RoomId} {p : Pc} (h : ∀ r, p.room = some r → ρ' r = ρ r) :
    p.rename ρ' = p.rename ρ := by
  cases p with
  | sleep room => cases room <;> simp_all [rename, room]
  | _ => simp_all [rename, room]

/-- `a` is to a group of clients what `s` is, apart from the numbers of their rooms, and holds
nothing of the others. -/
structure Alike (group : ClientId → Prop) (names : String → Prop) (theirs : RoomId → Prop)
    (ρ : RoomId → RoomId) (s a : State) : Prop where
  conn : ∀ t, group t → a.conn t = s.conn t
  pc : ∀ t, group t → a.pc t = (s.pc t).rename ρ
  rooms : ∀ name, names name → a.rooms name = (s.rooms name).map ρ
  room : ∀ r, theirs r → a.room (ρ r) = s.room r
  mapLock : Mutex.PartOf group (a.lock .rooms) (s.lock .rooms)
  roomLock : ∀ r, theirs r → a.lock (.room (ρ r)) = s.lock (.room r)
  injective : ∀ r i, theirs r → theirs i → ρ r = ρ i → r = i
  born : ∀ r, theirs r → ρ r < a.fresh

namespace Alike
variable {group : ClientId → Prop} {names : String → Prop} {theirs : RoomId → Prop}
  {ρ : RoomId → RoomId} {s a : State} {t : ClientId} {r : RoomId}

section Both

theorem setPc (h : Alike group names theirs ρ s a) (t : ClientId) (p : Pc) :
    Alike group names theirs ρ (s.setPc t p) (a.setPc t (p.rename ρ)) :=
  { h with
    pc := fun u hu => by
      by_cases hut : u = t
      · simp [hut]
      · simpa [hut] using h.pc u hu }

theorem setConn (h : Alike group names theirs ρ s a) (t : ClientId) (c : Conn) :
    Alike group names theirs ρ (s.setConn t c) (a.setConn t c) :=
  { h with
    conn := fun u hu => by
      by_cases hut : u = t
      · simp [hut]
      · simpa [hut] using h.conn u hu }

theorem acquireMap (h : Alike group names theirs ρ s a) (ht : group t) :
    Alike group names theirs ρ (s.acquire .rooms t) (a.acquire .rooms t) :=
  { h with
    mapLock := by simpa using h.mapLock.acquire ht
    roomLock := fun i hi => by simpa using h.roomLock i hi }

theorem releaseMap (h : Alike group names theirs ρ s a) (ho : (s.lock .rooms).owner = some t)
    (ht : group t) : Alike group names theirs ρ (s.release .rooms) (a.release .rooms) :=
  { h with
    mapLock := by simpa using h.mapLock.release ho ht
    roomLock := fun i hi => by simpa using h.roomLock i hi }

theorem lockRoom (h : Alike group names theirs ρ s a) (hr : theirs r)
    (f : Mutex ClientId → Mutex ClientId) : Alike group names theirs ρ
      { s with lock := Function.update s.lock (.room r) (f (s.lock (.room r))) }
      { a with lock := Function.update a.lock (.room (ρ r)) (f (a.lock (.room (ρ r)))) } :=
  { h with
    mapLock := by simpa using h.mapLock
    roomLock := fun i hi => by
      by_cases hir : i = r
      · simp [hir, h.roomLock r hr]
      · have hρ : ρ i ≠ ρ r := fun he => hir (h.injective i r hi hr he)
        simpa [hir, hρ] using h.roomLock i hi }

theorem acquireRoom (h : Alike group names theirs ρ s a) (hr : theirs r) (t : ClientId) :
    Alike group names theirs ρ (s.acquire (.room r) t) (a.acquire (.room (ρ r)) t) :=
  h.lockRoom hr fun m => m.acquire t

theorem releaseRoom (h : Alike group names theirs ρ s a) (hr : theirs r) :
    Alike group names theirs ρ (s.release (.room r)) (a.release (.room (ρ r))) :=
  h.lockRoom hr Mutex.release

theorem setRoom (h : Alike group names theirs ρ s a) (hr : theirs r) (x : Room) :
    Alike group names theirs ρ (s.setRoom r x) (a.setRoom (ρ r) x) :=
  { h with
    room := fun i hi => by
      by_cases hir : i = r
      · simp [hir]
      · have hρ : ρ i ≠ ρ r := fun he => hir (h.injective i r hi hr he)
        simpa [hir, hρ] using h.room i hi }

theorem setEntry (h : Alike group names theirs ρ s a) (name : String) (x : Option RoomId) :
    Alike group names theirs ρ (s.setEntry name x) (a.setEntry name (x.map ρ)) :=
  { h with
    rooms := fun n hn => by
      by_cases hname : n = name
      · simp [hname]
      · simpa [hname] using h.rooms n hn }

theorem note (h : Alike group names theirs ρ s a) (n n' : Note) :
    Alike group names theirs ρ (s.note n) (a.note n') := { h with }

/-- A room that is opened gets a number on either side. -/
theorem createRoom (h : Alike group names theirs ρ s a) {theirs' : RoomId → Prop}
    (htheirs : ∀ i, theirs' i ↔ theirs i ∨ i = s.fresh) (hnew : ¬ theirs s.fresh)
    (hlock : a.lock (.room a.fresh) = s.lock (.room s.fresh))
    (hpc : ∀ u, group u → (s.pc u).room ≠ some s.fresh)
    (hrooms : ∀ name, names name → s.rooms name ≠ some s.fresh) (name : String) (t : ClientId) :
    Alike group names theirs' (Function.update ρ s.fresh a.fresh) (s.createRoom name t)
      (a.createRoom name t) := by
  have hold : ∀ i, i ≠ s.fresh → Function.update ρ s.fresh a.fresh i = ρ i := fun i hi =>
    Function.update_of_ne hi _ _
  have hcases : ∀ i, theirs' i → i = s.fresh ∨ i ≠ s.fresh ∧ theirs i ∧ ρ i ≠ a.fresh := by
    intro i hi
    rcases (htheirs i).mp hi with hi | hi
    · exact Or.inr ⟨fun he => hnew (he ▸ hi), hi, (h.born i hi).ne⟩
    · exact Or.inl hi
  refine ⟨h.conn, fun u hu => ?_, fun n hn => ?_, fun i hi => ?_, h.mapLock, fun i hi => ?_,
    fun i j hi hj he => ?_, fun i hi => ?_⟩
  · exact (h.pc u hu).trans (Pc.rename_congr fun i hi =>
      hold i fun he => hpc u hu (hi.trans (congrArg some he))).symm
  · by_cases hname : n = name
    · simp [hname]
    · have hmap : (s.rooms n).map (Function.update ρ s.fresh a.fresh) = (s.rooms n).map ρ :=
        Option.map_congr fun i hi => hold i fun he => hrooms n hn (he ▸ hi)
      simpa [hname, hmap] using h.rooms n hn
  · rcases hcases i hi with rfl | ⟨hne, hi, hρ⟩
    · simp
    · simpa [hne, hρ] using h.room i hi
  · rcases hcases i hi with rfl | ⟨hne, hi, hρ⟩
    · simpa using hlock
    · simpa [hne] using h.roomLock i hi
  · rcases hcases i hi with rfl | ⟨hne, hi, hρ⟩ <;> rcases hcases j hj with rfl | ⟨hne', hj, hρ'⟩
    · rfl
    · simp [hne', hρ'.symm] at he
    · simp [hne, hρ] at he
    · exact h.injective i j hi hj (by simpa [hne, hne'] using he)
  · rcases hcases i hi with rfl | ⟨hne, hi, -⟩
    · simp
    · simpa [hne] using (h.born i hi).trans (Nat.lt_succ_self _)

end Both

section Other

theorem setPc_other (h : Alike group names theirs ρ s a) (ht : ¬ group t) (p : Pc) :
    Alike group names theirs ρ (s.setPc t p) a :=
  { h with
    pc := fun u hu => by
      have hut : u ≠ t := fun he => ht (he ▸ hu)
      simpa [hut] using h.pc u hu }

theorem setConn_other (h : Alike group names theirs ρ s a) (ht : ¬ group t) (c : Conn) :
    Alike group names theirs ρ (s.setConn t c) a :=
  { h with
    conn := fun u hu => by
      have hut : u ≠ t := fun he => ht (he ▸ hu)
      simpa [hut] using h.conn u hu }

theorem acquireMap_other (h : Alike group names theirs ρ s a) (ht : ¬ group t) :
    Alike group names theirs ρ (s.acquire .rooms t) a :=
  { h with
    mapLock := by simpa using h.mapLock.acquire_other ht
    roomLock := fun i hi => by simpa using h.roomLock i hi }

theorem releaseMap_other (h : Alike group names theirs ρ s a)
    (ho : (s.lock .rooms).owner = some t) (ht : ¬ group t) :
    Alike group names theirs ρ (s.release .rooms) a :=
  { h with
    mapLock := by simpa using h.mapLock.release_other ho ht
    roomLock := fun i hi => by simpa using h.roomLock i hi }

theorem lockRoom_other (h : Alike group names theirs ρ s a) (hr : ¬ theirs r)
    (m : Mutex ClientId) :
    Alike group names theirs ρ { s with lock := Function.update s.lock (.room r) m } a :=
  { h with
    mapLock := by simpa using h.mapLock
    roomLock := fun i hi => by
      have hir : i ≠ r := fun he => hr (he ▸ hi)
      simpa [hir] using h.roomLock i hi }

theorem setRoom_other (h : Alike group names theirs ρ s a) (hr : ¬ theirs r) (x : Room) :
    Alike group names theirs ρ (s.setRoom r x) a :=
  { h with
    room := fun i hi => by
      have hir : i ≠ r := fun he => hr (he ▸ hi)
      simpa [hir] using h.room i hi }

theorem setEntry_other (h : Alike group names theirs ρ s a) {name : String} (hname : ¬ names name)
    (x : Option RoomId) : Alike group names theirs ρ (s.setEntry name x) a :=
  { h with
    rooms := fun n hn => by
      have hne : n ≠ name := fun he => hname (he ▸ hn)
      simpa [hne] using h.rooms n hn }

theorem note_other (h : Alike group names theirs ρ s a) (n : Note) :
    Alike group names theirs ρ (s.note n) a := { h with }

theorem createRoom_other (h : Alike group names theirs ρ s a) (hnew : ¬ theirs s.fresh)
    {name : String} (hname : ¬ names name) (t : ClientId) :
    Alike group names theirs ρ (s.createRoom name t) a :=
  { h with
    rooms := fun n hn => by
      have hne : n ≠ name := fun he => hname (he ▸ hn)
      simpa [hne] using h.rooms n hn
    room := fun i hi => by
      have hne : i ≠ s.fresh := fun he => hnew (he ▸ hi)
      simpa [hne] using h.room i hi }

end Other

theorem congr (h : Alike group names theirs ρ s a) {theirs' : RoomId → Prop}
    (htheirs : ∀ r, theirs' r ↔ theirs r) : Alike group names theirs' ρ s a := by
  rwa [show theirs' = theirs from funext fun r => propext (htheirs r)]

end Alike

/-- A step of a task is taken with some luck of its reads and writes. -/
theorem Step.exists_resume {cfg : Config} {s s' : State} {t : ClientId} (hs : Step cfg s t s') :
    ∃ io, resume cfg s t io = some s' := by
  cases hs with
  | @negoNext n n' c io hpc hn | @negoAsk n name enc c io hpc hn | @negoStop n r c io hpc hn =>
    exact ⟨io, by simp only [resume, hpc, hn, Option.map_some]⟩
  | lookup hpc ho hr | lookupNone hpc ho hr | find hpc ho hr | findNone hpc ho hr =>
    exact ⟨Io.fine, by simp only [resume, hpc, owns_iff.mpr ho, hr, if_true]⟩
  | seeFull hpc ho hf | seeSpace hpc ho hf | wait hpc ho hf =>
    exact ⟨Io.fine, by simp [resume, hpc, owns_iff.mpr ho, hf]⟩
  | @refuse _ _ _ _ io hpc hc | @refuseFail _ _ _ _ io hpc hc | @join _ _ _ _ io hpc hc
  | @joinFail _ _ _ _ io hpc hc | @create _ _ _ io hpc hc | @createFail _ _ _ io hpc hc =>
    exact ⟨io, by simp only [resume, hpc, hc]⟩
  | startBridge hpc ho hf h2 h1 =>
    exact ⟨Io.fine, by simp only [resume, hpc, owns_iff.mpr ho, hf, h2, h1, if_true]⟩
  | takePanic hpc ho hf hn =>
    exact ⟨Io.fine, by rcases hn with hn | hn <;> simp [resume, hpc, owns_iff.mpr ho, hf, hn]⟩
  | endBridge hpc | sleepNone hpc | tick hpc => exact ⟨Io.fine, by simp only [resume, hpc]⟩
  | remove hpc ho | keepFind hpc ho =>
    exact ⟨Io.fine, by simp only [resume, hpc, owns_iff.mpr ho, if_true]⟩
  | seeFirst hpc ho hf | seeTaken hpc ho hf =>
    exact ⟨Io.fine, by simp only [resume, hpc, owns_iff.mpr ho, hf, if_true]⟩
  | ping hpc => exact ⟨Io.fine, by simp only [resume, hpc]; rfl⟩
  | pingFail hpc => exact ⟨{ Io.fine with ok := false }, by simp only [resume, hpc]; rfl⟩

section Steps
variable {cfg : Config} {names : String → Prop} {ρ : RoomId → RoomId} {s s' a : State}
  {t : ClientId} {r : RoomId}

/-- What a task of another client does goes unnoticed. -/
theorem Alike.step_other (h : Alike (Asks cfg names) names (Theirs cfg names s) ρ s a)
    (hg : Grouped cfg names s) (hr : RoomInv s) (hl : LogInv s) (ht : ¬ Asks cfg names t)
    (hs : Step cfg s t s') : Alike (Asks cfg names) names (Theirs cfg names s) ρ s' a := by
  have hroom : ∀ r, (s.pc t).room = some r → ¬ Theirs cfg names s r := fun r hr hth =>
    ht ((hg.room t r hr).mpr hth)
  have hname : ∀ name, (s.pc t).name = some name → ¬ names name := fun name hn hnames =>
    ht ((hg.name t name hn).mpr hnames)
  have hentry : ∀ name r, (s.pc t).name = some name → s.rooms name = some r →
      ¬ Theirs cfg names s r := fun name r hn hr hth => hname name hn ((hg.entry name r hr).mpr hth)
  have hmap : (s.pc t).stake .rooms = .holding → (s.lock .rooms).owner = some t :=
    hr.locks.owner_of_holding
  have htask := hr.task t
  cases hs with
  | negoNext hpc | negoStop hpc => exact (h.setConn_other ht _).setPc_other ht _
  | negoAsk hpc => exact ((h.setConn_other ht _).acquireMap_other ht).setPc_other ht _
  | @lookup name enc r hpc ho hr =>
    rw [hpc] at hentry
    exact (h.lockRoom_other (hentry name r rfl hr) _).setPc_other ht _
  | lookupNone hpc | seeFull hpc | seeSpace hpc | sleepNone hpc | seeFirst hpc =>
    exact h.setPc_other ht _
  | @refuse name r enc c io hpc hc =>
    rw [hpc] at hroom hmap
    have h1 := ((h.setConn_other ht c).note_other (.refused t)).lockRoom_other (hroom r rfl)
      (s.lock (.room r)).release
    exact (h1.releaseMap_other (by simpa using hmap rfl) ht).setPc_other ht _
  | @refuseFail name r enc e io hpc hc | @joinFail name r enc e io hpc hc =>
    rw [hpc] at hroom hmap
    have h1 := h.lockRoom_other (hroom r rfl) (s.lock (.room r)).release
    exact (h1.releaseMap_other (by simpa using hmap rfl) ht).setPc_other ht _
  | @join name r enc c io hpc hc =>
    rw [hpc] at hroom hmap
    have h1 := (((h.setConn_other ht c).setRoom_other (hroom r rfl)
      { s.room r with second := some t }).note_other (.joinedSecond t r)).lockRoom_other
        (hroom r rfl) (s.lock (.room r)).release
    exact ((h1.releaseMap_other (by simpa using hmap rfl) ht).acquireMap_other ht).setPc_other ht _
  | @create name enc c io hpc hc =>
    rw [hpc] at hname hmap
    have h1 := ((h.setConn_other ht c).createRoom_other (fun hth => lt_irrefl _ (hth.lt hl))
      (hname name rfl) t).note_other (.joinedFirst t s.fresh)
    exact ((h1.releaseMap_other (by simpa using hmap rfl) ht).acquireMap_other ht).setPc_other ht _
  | createFail hpc hc =>
    rw [hpc] at hmap
    exact (h.releaseMap_other (hmap rfl) ht).setPc_other ht _
  | @find name r hpc ho hr =>
    rw [hpc] at hentry
    exact ((h.releaseMap_other ho ht).lockRoom_other (hentry name r rfl hr) _).setPc_other ht _
  | findNone hpc ho | keepFind hpc ho => exact (h.releaseMap_other ho ht).setPc_other ht _
  | @startBridge name r receiver sender hpc ho =>
    rw [hpc] at hroom
    exact ((h.setRoom_other (hroom r rfl) _).note_other _).setPc_other ht _
  | @takePanic name r hpc ho | @seeTaken r hpc ho =>
    rw [hpc] at hroom
    exact (h.lockRoom_other (hroom r rfl) _).setPc_other ht _
  | @wait name r hpc ho =>
    rw [hpc] at hroom
    exact ((h.lockRoom_other (hroom r rfl) _).acquireMap_other ht).setPc_other ht _
  | @endBridge name r receiver sender hpc =>
    rw [hpc] at hroom
    exact (((h.setRoom_other (hroom r rfl) _).note_other _).acquireMap_other ht).setPc_other ht _
  | @remove name r hpc ho =>
    rw [hpc] at hroom hname
    have h1 := ((h.setEntry_other (hname name rfl) none).note_other
      (.removed r (s.rooms name))).releaseMap_other ho ht
    exact (h1.lockRoom_other (hroom r rfl) _).setPc_other ht _
  | @tick r hpc =>
    rw [hpc] at hroom
    exact (h.lockRoom_other (hroom r rfl) _).setPc_other ht _
  | @ping r sender hpc =>
    rw [hpc] at hroom htask
    have hsender : ¬ Asks cfg names sender := fun hasks =>
      hroom r rfl ((hg.first r sender (hl.first r sender htask.2)).mp hasks)
    exact ((h.setConn_other hsender _).lockRoom_other (hroom r rfl) _).setPc_other ht _
  | @pingFail r sender hpc =>
    rw [hpc] at hroom
    exact (h.lockRoom_other (hroom r rfl) _).setPc_other ht _

/-- Another client opens no room of the group. -/
theorem Step.theirs_other (hs : Step cfg s t s') (ht : ¬ Asks cfg names t) :
    Theirs cfg names s' r ↔ Theirs cfg names s r := by
  cases hs with
  | create hpc hc =>
    refine ⟨fun ⟨c, hc, hasks⟩ => ?_, fun ⟨c, hc, hasks⟩ => ⟨c, List.mem_append_left _ hc, hasks⟩⟩
    rcases List.mem_append.mp hc with hc | hc
    · exact ⟨c, hc, hasks⟩
    · obtain ⟨rfl, -⟩ := Note.joinedFirst.inj (List.mem_singleton.mp hc)
      exact absurd hasks ht
  | _ => simp [Theirs]

/-- The mutex of a room that is not there yet is free. -/
theorem RoomInv.unborn_lock (h : RoomInv s) (hr : s.fresh ≤ r) : s.lock (.room r) = Mutex.free := by
  have hidle : ∀ u, (s.pc u).stake (.room r) = .idle := fun u =>
    if_neg fun hu => absurd (h.shared.used_fresh (h.task u) hu) (Nat.not_lt.mpr hr)
  have hcoherent := h.locks (.room r)
  have howner : (s.lock (.room r)).owner = none := by
    by_contra hne
    obtain ⟨u, hu⟩ := Option.ne_none_iff_exists'.mp hne
    exact hcoherent.owner_stake u hu (hidle u)
  have hwaiters := hcoherent.free_unqueued howner
  cases hm : s.lock (.room r) with
  | mk owner waiters =>
    rw [hm] at howner hwaiters
    obtain rfl : owner = none := howner
    obtain rfl : waiters = [] := hwaiters
    rfl

/-- What a task of the group does it can do without the others as well. -/
theorem Alike.step_group (h : Alike (Asks cfg names) names (Theirs cfg names s) ρ s a)
    (hg : Grouped cfg names s) (hr : RoomInv s) (hra : RoomInv a) (hl : LogInv s)
    (ht : Asks cfg names t) (hs : Step cfg s t s') :
    ∃ a' ρ', Step cfg a t a' ∧ Alike (Asks cfg names) names (Theirs cfg names s') ρ' s' a' := by
  have hroom : ∀ r, (s.pc t).room = some r → Theirs cfg names s r := fun r hr =>
    (hg.room t r hr).mp ht
  have hname : ∀ name, (s.pc t).name = some name → names name := fun name hn =>
    (hg.name t name hn).mp ht
  have hentry : ∀ name r, (s.pc t).name = some name → s.rooms name = some r →
      Theirs cfg names s r := fun name r hn hr => (hg.entry name r hr).mp (hname name hn)
  have hmap : (s.pc t).stake .rooms = .holding → (s.lock .rooms).owner = some t :=
    hr.locks.owner_of_holding
  have howner : (s.lock .rooms).owner = some t → (a.lock .rooms).owner = some t := fun ho =>
    h.mapLock.owner ho ht
  have hroomOwner : ∀ r, Theirs cfg names s r → (s.lock (.room r)).owner = some t →
      (a.lock (.room (ρ r))).owner = some t := fun r hth ho => by rw [h.roomLock r hth, ho]
  have hconn := h.conn t ht
  have hpca := h.pc t ht
  have htask := hr.task t
  have keep : ∀ {s₁ a₁ : State}, Step cfg a t a₁ →
      Alike (Asks cfg names) names (Theirs cfg names s) ρ s₁ a₁ →
      (∀ c r, .joinedFirst c r ∈ s₁.log ↔ .joinedFirst c r ∈ s.log) →
      ∃ a' ρ', Step cfg a t a' ∧ Alike (Asks cfg names) names (Theirs cfg names s₁) ρ' s₁ a' :=
    fun {s₁ a₁} hsa h' hlog => ⟨a₁, ρ, hsa, h'.congr fun r => by simp only [Theirs, hlog]⟩
  cases hs with
  | @negoNext n n' c io hpc hn =>
    rw [hpc] at hpca
    rw [← hconn] at hn
    exact keep (.negoNext hpca hn) ((h.setConn t c).setPc t (.nego n')) (by simp)
  | @negoAsk n name enc c io hpc hn =>
    rw [hpc] at hpca
    rw [← hconn] at hn
    exact keep (.negoAsk hpca hn)
      (((h.setConn t c).acquireMap ht).setPc t (.awaitRooms name enc)) (by simp)
  | @negoStop n result c io hpc hn =>
    rw [hpc] at hpca
    rw [← hconn] at hn
    exact keep (.negoStop hpca hn) ((h.setConn t c).setPc t (.done result)) (by simp)
  | @lookup name enc r hpc ho hrooms =>
    rw [hpc] at hpca hname hentry
    have hra : a.rooms name = some (ρ r) := by rw [h.rooms name (hname name rfl), hrooms]; rfl
    exact keep (.lookup hpca (howner ho) hra)
      ((h.acquireRoom (hentry name r rfl hrooms) t).setPc t (.awaitRoom name r enc)) (by simp)
  | @lookupNone name enc hpc ho hrooms =>
    rw [hpc] at hpca hname
    have hra : a.rooms name = none := by rw [h.rooms name (hname name rfl), hrooms]; rfl
    exact keep (.lookupNone hpca (howner ho) hra) (h.setPc t (.writeCreate name enc)) (by simp)
  | @seeFull name r enc hpc ho hf =>
    rw [hpc] at hpca hroom
    have hth := hroom r rfl
    rw [← h.room r hth] at hf
    exact keep (.seeFull hpca (hroomOwner r hth ho) hf) (h.setPc t (.writeFull name r enc))
      (by simp)
  | @seeSpace name r enc hpc ho hf =>
    rw [hpc] at hpca hroom
    have hth := hroom r rfl
    rw [← h.room r hth] at hf
    exact keep (.seeSpace hpca (hroomOwner r hth ho) hf) (h.setPc t (.writeJoin name r enc))
      (by simp)
  | @refuse name r enc c io hpc hc =>
    rw [hpc] at hpca hroom hmap
    rw [← hconn] at hc
    have h1 := ((h.setConn t c).note (.refused t) (.refused t)).releaseRoom (hroom r rfl)
    exact keep (.refuse hpca hc)
      ((h1.releaseMap (by simpa using hmap rfl) ht).setPc t (.done (.ok ()))) (by simp)
  | @refuseFail name r enc e io hpc hc =>
    rw [hpc] at hpca hroom hmap
    rw [← hconn] at hc
    have h1 := h.releaseRoom (hroom r rfl)
    exact keep (.refuseFail hpca hc)
      ((h1.releaseMap (by simpa using hmap rfl) ht).setPc t (.done (.error e))) (by simp)
  | @join name r enc c io hpc hc =>
    rw [hpc] at hpca hroom hmap
    rw [← hconn] at hc
    have hth := hroom r rfl
    have hstep : Step cfg a t _ := .join hpca hc
    rw [h.room r hth] at hstep
    have h1 := ((((h.setConn t c).setRoom hth { s.room r with second := some t }).note
      (.joinedSecond t r) (.joinedSecond t (ρ r))).releaseRoom hth).releaseMap
        (by simpa using hmap rfl) ht
    exact keep hstep ((h1.acquireMap ht).setPc t (.findRooms name)) (by simp)
  | @joinFail name r enc e io hpc hc =>
    rw [hpc] at hpca hroom hmap
    rw [← hconn] at hc
    have h1 := h.releaseRoom (hroom r rfl)
    exact keep (.joinFail hpca hc)
      ((h1.releaseMap (by simpa using hmap rfl) ht).setPc t (.done (.error e))) (by simp)
  | @create name enc c io hpc hc =>
    rw [hpc] at hpca hname hmap
    rw [← hconn] at hc
    have hnew : ∀ i, Theirs cfg names s i → i ≠ s.fresh := fun i hi => (hi.lt hl).ne
    have h1 := (h.setConn t c).createRoom (fun i => Iff.rfl) (fun hth => hnew _ hth rfl)
      ((hra.unborn_lock le_rfl).trans (hr.unborn_lock le_rfl).symm)
      (fun u hu hroom => hnew _ ((hg.room u _ hroom).mp hu) rfl)
      (fun n hn hroom => hnew _ ((hg.entry n _ hroom).mp hn) rfl) name t
    have h2 := (h1.note (.joinedFirst t s.fresh) (.joinedFirst t a.fresh)).releaseMap
      (by simpa using hmap rfl) ht
    refine ⟨_, _, .create hpca hc, ((h2.acquireMap ht).setPc t (.findRooms name)).congr
      fun r => ⟨?_, ?_⟩⟩
    · rintro ⟨d, hd, hasks⟩
      rcases List.mem_append.mp hd with hd | hd
      · exact Or.inl ⟨d, hd, hasks⟩
      · exact Or.inr (by simpa using (Note.joinedFirst.inj (List.mem_singleton.mp hd)).2)
    · rintro (⟨d, hd, hasks⟩ | rfl)
      · exact ⟨d, List.mem_append_left _ hd, hasks⟩
      · exact ⟨t, List.mem_append_right _ (List.mem_singleton_self _), ht⟩
  | @createFail name enc e io hpc hc =>
    rw [hpc] at hpca hmap
    rw [← hconn] at hc
    exact keep (.createFail hpca hc) ((h.releaseMap (hmap rfl) ht).setPc t (.done (.error e)))
      (by simp)
  | @find name r hpc ho hrooms =>
    rw [hpc] at hpca hname hentry
    have hra : a.rooms name = some (ρ r) := by rw [h.rooms name (hname name rfl), hrooms]; rfl
    exact keep (.find hpca (howner ho) hra)
      (((h.releaseMap ho ht).acquireRoom (hentry name r rfl hrooms) t).setPc t (.findRoom name r))
      (by simp)
  | @findNone name hpc ho hrooms =>
    rw [hpc] at hpca hname
    have hra : a.rooms name = none := by rw [h.rooms name (hname name rfl), hrooms]; rfl
    exact keep (.findNone hpca (howner ho) hra) ((h.releaseMap ho ht).setPc t (.done (.ok ())))
      (by simp)
  | @startBridge name r receiver sender hpc ho hf h2 h1 =>
    rw [hpc] at hpca hroom
    have hth := hroom r rfl
    rw [← h.room r hth] at hf h2 h1
    have hstep : Step cfg a t _ := .startBridge hpca (hroomOwner r hth ho) hf h2 h1
    rw [h.room r hth] at hstep
    exact keep hstep (((h.setRoom hth { s.room r with first := none, second := none }).note
      (.bridged r receiver sender) (.bridged (ρ r) receiver sender)).setPc t
        (.bridging name r receiver sender)) (by simp)
  | @takePanic name r hpc ho hf hn =>
    rw [hpc] at hpca hroom
    have hth := hroom r rfl
    rw [← h.room r hth] at hf hn
    exact keep (.takePanic hpca (hroomOwner r hth ho) hf hn)
      ((h.releaseRoom hth).setPc t (.done (.error (.panic .roomTake)))) (by simp)
  | @wait name r hpc ho hf =>
    rw [hpc] at hpca hroom
    have hth := hroom r rfl
    rw [← h.room r hth] at hf
    exact keep (.wait hpca (hroomOwner r hth ho) hf)
      (((h.releaseRoom hth).acquireMap ht).setPc t (.keepRooms name)) (by simp)
  | @endBridge name r receiver sender hpc =>
    rw [hpc] at hpca hroom
    have hth := hroom r rfl
    have hstep : Step cfg a t _ := .endBridge hpca
    rw [h.room r hth] at hstep
    exact keep hstep ((((h.setRoom hth { s.room r with first := none, second := none }).note
      (.bridgeEnded r receiver sender) (.bridgeEnded (ρ r) receiver sender)).acquireMap ht).setPc t
        (.removeRooms name r)) (by simp)
  | @remove name r hpc ho =>
    rw [hpc] at hpca hroom
    have h1 := ((h.setEntry name none).note (.removed r (s.rooms name))
      (.removed (ρ r) (a.rooms name))).releaseMap ho ht
    exact keep (.remove hpca (howner ho))
      ((h1.releaseRoom (hroom r rfl)).setPc t (.done (.ok ()))) (by simp)
  | @keepFind name hpc ho =>
    rw [hpc] at hpca hname
    have hstep : Step cfg a t _ := .keepFind hpca (howner ho)
    rw [h.rooms name (hname name rfl)] at hstep
    exact keep hstep ((h.releaseMap ho ht).setPc t (.sleep (s.rooms name))) (by simp)
  | sleepNone hpc =>
    rw [hpc] at hpca
    exact keep (.sleepNone hpca) (h.setPc t (.done (.ok ()))) (by simp)
  | @tick r hpc =>
    rw [hpc] at hpca hroom
    exact keep (.tick hpca) ((h.acquireRoom (hroom r rfl) t).setPc t (.keepRoom r)) (by simp)
  | @seeFirst r sender hpc ho hf =>
    rw [hpc] at hpca hroom
    have hth := hroom r rfl
    rw [← h.room r hth] at hf
    exact keep (.seeFirst hpca (hroomOwner r hth ho) hf) (h.setPc t (.keepPing r sender)) (by simp)
  | @seeTaken r hpc ho hf =>
    rw [hpc] at hpca hroom
    have hth := hroom r rfl
    rw [← h.room r hth] at hf
    exact keep (.seeTaken hpca (hroomOwner r hth ho) hf)
      ((h.releaseRoom hth).setPc t (.done (.ok ()))) (by simp)
  | @ping r sender hpc =>
    rw [hpc] at hpca hroom htask
    have hsender : Asks cfg names sender :=
      (hg.first r sender (hl.first r sender htask.2)).mpr (hroom r rfl)
    have hstep : Step cfg a t _ := .ping hpca
    rw [h.conn sender hsender] at hstep
    exact keep hstep (((h.setConn sender
      { s.conn sender with live := (s.conn sender).live ++ [.ping] }).releaseRoom
        (hroom r rfl)).setPc t (.sleep (some r))) (by simp)
  | @pingFail r sender hpc =>
    rw [hpc] at hpca hroom
    exact keep (.pingFail hpca) ((h.releaseRoom (hroom r rfl)).setPc t (.done (.ok ()))) (by simp)

/-- Bytes are copied among the clients of the group alike. -/
theorem Alike.copy {group : ClientId → Prop} {theirs : RoomId → Prop} {src dst : ClientId} {n : ℕ}
    (h : Alike group names theirs ρ s a) (hsrc : group src) (hdst : group dst)
    (hc : copy s src dst n = some s') :
    ∃ a', Server.copy a src dst n = some a' ∧ Alike group names theirs ρ s' a' := by
  unfold Server.copy at hc
  obtain ⟨hn, heq⟩ := Option.ite_none_right_eq_some.mp hc
  obtain rfl := Option.some.inj heq
  have h1 := h.setConn src { s.conn src with unread := (s.conn src).unread.drop n }
  have hread := h.conn src hsrc
  have hwrite := h1.conn dst hdst
  refine ⟨_, ?_, h1.setConn dst { (s.setConn src _).conn dst with
    live := ((s.setConn src _).conn dst).live ++ [.relayed ((s.conn src).unread.take n)] }⟩
  unfold Server.copy
  rw [hread, if_pos hn, ← hwrite]

theorem Alike.copy_other {group : ClientId → Prop} {theirs : RoomId → Prop} {src dst : ClientId}
    {n : ℕ} (h : Alike group names theirs ρ s a) (hsrc : ¬ group src) (hdst : ¬ group dst)
    (hc : Server.copy s src dst n = some s') : Alike group names theirs ρ s' a := by
  unfold Server.copy at hc
  obtain ⟨-, heq⟩ := Option.ite_none_right_eq_some.mp hc
  obtain rfl := Option.some.inj heq
  exact (h.setConn_other hsrc _).setConn_other hdst _

theorem pump_bridging {name : String} {receiver sender : ClientId} {fromReceiver : Bool} {n : ℕ}
    (hpc : s.pc t = .bridging name r receiver sender) : pump s t fromReceiver n =
      Server.copy s (if fromReceiver then receiver else sender)
        (if fromReceiver then sender else receiver) n := by
  unfold pump
  rw [hpc]
  cases fromReceiver <;> rfl

/-- A bridge joins clients of the group only, or none of them. -/
theorem Grouped.bridged {name : String} {receiver sender : ClientId} (hg : Grouped cfg names s)
    (hl : LogInv s) (hpc : s.pc t = .bridging name r receiver sender) :
    (Asks cfg names receiver ↔ Asks cfg names t) ∧ (Asks cfg names sender ↔ Asks cfg names t) := by
  obtain ⟨hsender, hreceiver, -⟩ := hl.bridged r receiver sender (hl.running t _ _ _ _ hpc)
  rw [hg.first r sender hsender, hg.second r receiver hreceiver, hg.room t r (by rw [hpc]; rfl)]
  exact ⟨Iff.rfl, Iff.rfl⟩

end Steps

/-- The client whose task takes the step. -/
def Event.client : Event → ClientId
  | .resume t _ | .pump t _ _ => t

section Isolation
variable {cfg : Config} {s : State}

/-- Steps of other clients are nothing to the clients that ask for these names, and their own steps
they can take alone. -/
theorem simulates_group (hX : cfg.ext.WritesShort) (names : String → Prop) :
    (machine cfg).Simulates (machine cfg) (fun _ _ => True) (fun _ e => Asks cfg names e.client)
      fun s a => ∃ ρ, Alike (Asks cfg names) names (Theirs cfg names s) ρ s a where
  init := ⟨id, fun _ _ => rfl, fun _ _ => rfl, fun _ _ => rfl, fun _ _ => rfl, .free,
    fun _ _ => rfl, fun _ _ _ _ he => he, fun r ⟨c, hc, _⟩ => absurd hc List.not_mem_nil⟩
  step := by
    rintro s e s' a hs ha ⟨ρ, h⟩ - he
    have hg := reachable_grouped hX hs names
    have hr := reachable_roomInv hs
    have hl := reachable_logInv hs
    cases e with
    | resume t io =>
      have hstep := resume_step he
      by_cases ht : Asks cfg names t
      · obtain ⟨a', ρ', hstep', h'⟩ :=
          h.step_group hg hr (reachable_roomInv ha.reachable) hl ht hstep
        obtain ⟨io', he'⟩ := hstep'.exists_resume
        exact ⟨a', .single ⟨.resume t io', ht, he'⟩, ρ', h'⟩
      · exact ⟨a, .refl, ρ, (h.step_other hg hr hl ht hstep).congr fun r => hstep.theirs_other ht⟩
    | pump t fromReceiver n =>
      have hlog : s'.log = s.log := by rw [(pump_pumped he).eq]
      have htheirs : ∀ r, Theirs cfg names s' r ↔ Theirs cfg names s r := fun r => by
        simp only [Theirs, hlog]
      obtain ⟨name, r, receiver, sender, hpc, -⟩ := (pump_pumped he).bridge
      obtain ⟨hreceiver, hsender⟩ := hg.bridged hl hpc
      have hcopy : pump s t fromReceiver n = some s' := he
      rw [pump_bridging hpc] at hcopy
      have hends : ∀ c, c = receiver ∨ c = sender → (Asks cfg names c ↔ Asks cfg names t) := by
        rintro c (rfl | rfl)
        exacts [hreceiver, hsender]
      have hsrc := hends (if fromReceiver then receiver else sender)
        (by cases fromReceiver <;> simp)
      have hdst := hends (if fromReceiver then sender else receiver)
        (by cases fromReceiver <;> simp)
      by_cases ht : Asks cfg names t
      · obtain ⟨a', ha', h'⟩ := h.copy (hsrc.mpr ht) (hdst.mpr ht) hcopy
        have hpca : a.pc t = .bridging name (ρ r) receiver sender := by rw [h.pc t ht, hpc]; rfl
        exact ⟨a', .single ⟨.pump t fromReceiver n, ht, (pump_bridging hpca).trans ha'⟩, ρ,
          h'.congr htheirs⟩
      · exact ⟨a, .refl, ρ, (h.copy_other (fun hc => ht (hsrc.mp hc)) (fun hc => ht (hdst.mp hc))
          hcopy).congr htheirs⟩

/-- Whatever the clients that ask for some names go through among all others, they can go through
alone: on a relay that nobody else comes to they get as far, with the same bytes read and written,
and the same in their rooms. -/
theorem reachable_isolated (hX : cfg.ext.WritesShort) (names : String → Prop)
    (h : (machine cfg).Reachable s) :
    ∃ a ρ, (machine cfg).ReachableBy (fun _ e => Asks cfg names e.client) a ∧
      Alike (Asks cfg names) names (Theirs cfg names s) ρ s a := by
  obtain ⟨a, ha, ρ, hs⟩ := (simulates_group hX names).reachable h
  exact ⟨a, ρ, ha, hs⟩

/-- Clients that ask for one of two rooms. -/
def twoRooms : Config :=
  visited "pass123" fun t => visitor .main "pass123" (if t < 2 then "abc" else "xyz") []

theorem twoRooms_speaks (t : ClientId) : Speaks twoRooms t (if t < 2 then "abc" else "xyz") [] := by
  refine visitor_speaks rfl (by decide +kernel) ?_
  split <;> decide +kernel

/-- A client that takes no step stays where it began. -/
theorem pc_of_not_asked {cfg : Config} {names : String → Prop} {a : State} {t : ClientId}
    (h : (machine cfg).ReachableBy (fun _ e => Asks cfg names e.client) a)
    (ht : ¬ Asks cfg names t) : a.pc t = .nego .peek := by
  apply h.invariant (P := fun a => a.pc t = .nego .peek) rfl
  rintro a e a' - ih hok he
  have hne : t ≠ e.client := by
    rintro rfl
    exact ht hok
  cases e with
  | resume u io => exact ((resume_step he).others t hne).trans ih
  | pump u b n =>
    obtain ⟨_, _, _, _, -, _, _, _, -, hcopy⟩ := (pump_pumped he).bridge
    rw [copy_eq hcopy]
    exact ih

/-- A client has opened a room of another name before two clients are bridged. In the relay that
only these two come to, they are bridged in a room of another number. -/
theorem bridged_alone : ∃ s a ρ, (machine twoRooms).Reachable s ∧ s.pc 2 = .sleep (some 0) ∧
    s.pc 1 = .bridging "abc" 1 1 0 ∧
    (machine twoRooms).ReachableBy (fun _ e => Asks twoRooms (· = "abc") e.client) a ∧
    Alike (Asks twoRooms (· = "abc")) (· = "abc") (Theirs twoRooms (· = "abc") s) ρ s a ∧
    a.pc 2 = .nego .peek ∧ a.pc 1 = .bridging "abc" (ρ 1) 1 0 := by
  have hX : twoRooms.ext.WritesShort := External.transparent_writesShort
  have hok := lenient_any twoRooms
  obtain ⟨_, h0⟩ := (ready_start twoRooms _ 2).wait hX hok (twoRooms_speaks 2) rfl rfl
  obtain ⟨_, h1⟩ := Ready.wait (t := 0) hX hok ⟨h0, rfl, rfl, rfl⟩ (twoRooms_speaks 0) rfl rfl
  obtain ⟨_, h2⟩ := Ready.bridge (t := 1) (r := 1) (u := 0) hX hok ⟨h1, rfl, rfl, rfl⟩
    (twoRooms_speaks 1) rfl rfl rfl
  obtain ⟨a, ρ, ha, hs⟩ := reachable_isolated hX (· = "abc") h2.reachable
  have hasks : Asks twoRooms (· = "abc") 1 := ⟨"abc", (twoRooms_speaks 1).sentRoom, rfl⟩
  have hnot : ¬ Asks twoRooms (· = "abc") 2 := by
    rw [asks_iff (twoRooms_speaks 2).sentRoom]
    decide
  exact ⟨_, a, ρ, h2.reachable, rfl, rfl, ha, hs, pc_of_not_asked ha hnot, hs.pc 1 hasks⟩

end Isolation
end Croc.Server
