import Croc.Relay.Steps

/-! The invariant of the room map: what a room in the map, a room outside it and the task that
holds a room's mutex know of each other. -/
namespace Croc.Server
open Lib

/-- A task that has taken both sessions of room `r` and has not removed its entry yet. -/
@[simp] def Pc.relays : Pc → RoomId → Prop
  | .bridging _ r _ _, i | .removeRooms _ r, i => i = r
  | _, _ => False

/-- What a task at an await point knows of the map and of its room. -/
@[simp] def TaskOk (s : State) : Pc → Prop
  | .awaitRoom name r _ | .writeFull name r _ => s.rooms name = some r
  | .writeJoin name r _ =>
      s.rooms name = some r ∧ (s.room r).first.isSome ∧ (s.room r).second = none
  | .writeCreate name _ => s.rooms name = none
  | .findRoom name r => r < s.fresh ∧ ∀ name', s.rooms name' = some r → name' = name
  | .bridging name r _ _ | .removeRooms name r =>
      s.rooms name = some r ∧ (s.room r).first = none ∧ (s.room r).second = none
  | .sleep (some r) | .keepRoom r => r < s.fresh
  | .keepPing r sender => r < s.fresh ∧ (s.room r).first = some sender
  | _ => True

/-- The map and the rooms, apart from what single tasks know. -/
structure SharedOk (s : State) : Prop where
  handle_none : ∀ r, (s.room r).handle = none
  unborn : ∀ r, s.fresh ≤ r → (s.room r).first = none
  entry_fresh : ∀ name r, s.rooms name = some r → r < s.fresh
  entry_inj : ∀ name name' r, s.rooms name = some r → s.rooms name' = some r → name = name'
  first_entry : ∀ r, (s.room r).first.isSome → ∃ name, s.rooms name = some r
  second_first : ∀ r, (s.room r).second.isSome → (s.room r).first.isSome
  entry_first : ∀ name r, s.rooms name = some r →
    (s.room r).first.isSome ∨ ∃ t, (s.pc t).relays r

structure RoomInv (s : State) : Prop where
  locks : LockInv s
  shared : SharedOk s
  task : ∀ t, TaskOk s (s.pc t)

theorem isFull_iff {r : Room} (h : r.handle = none) :
    r.isFull = true ↔ r.first.isSome ∧ r.second.isSome := by
  simp [Room.isFull, Room.isRunning, h]

/-- Two tasks that hold the same mutex are one. -/
theorem LockInv.same {s : State} (h : LockInv s) {t u : ClientId} {i : LockId}
    (ht : (s.pc t).stake i = .holding) (hu : (s.pc u).stake i = .holding) : t = u :=
  (h i).holding_unique ht hu

theorem LockInv.same_owner {s : State} (h : LockInv s) {t u : ClientId} {i : LockId}
    (ht : (s.lock i).owner = some t) (hu : (s.pc u).stake i = .holding) : t = u :=
  (h i).owner_unique ht (h.owner_of_holding hu)

/-- A task that relays room `r` holds its mutex. -/
theorem Pc.relays_holding {p : Pc} {r : RoomId} (h : p.relays r) :
    p.stake (.room r) = .holding := by
  cases p <;> simp_all

/-- A task with a stake in a room's mutex uses that room. -/
theorem Pc.room_of_stake {p : Pc} {r : RoomId} {x : Stake} (h : p.stake (.room r) = x)
    (hx : x ≠ .idle) : p.usedRoom = some r ∧ p.roomStake = x := by
  by_cases hr : p.usedRoom = some r
  · simp only [Pc.stake, if_pos hr] at h
    exact ⟨hr, h⟩
  · simp only [Pc.stake, if_neg hr] at h
    exact absurd h.symm hx

theorem roomInv_start (cfg : Config) : RoomInv (start cfg) where
  locks := lockInv_start cfg
  shared := by
    constructor <;> simp [start, Room.empty]
  task t := by simp [start]

/-- What a task knows survives changes to rooms whose mutex it does not hold, and changes to the
map that it cannot see: under the map mutex it sees all of it, while it relays a room it sees the
entry of that room, otherwise only that no old room gets a new name. -/
theorem TaskOk.mono {s s' : State} {p : Pc} (h : TaskOk s p) (hfresh : s.fresh ≤ s'.fresh)
    (hroom : ∀ r, p.stake (.room r) = .holding → s'.room r = s.room r)
    (hmap : p.roomsStake = .holding → s'.rooms = s.rooms)
    (hrelay : ∀ name r, p.relays r → s.rooms name = some r → s'.rooms name = some r)
    (hold : ∀ name r, r < s.fresh → s'.rooms name = some r → s.rooms name = some r) :
    TaskOk s' p := by
  cases p with
  | awaitRoom name r enc => simpa [hmap rfl] using h
  | writeFull name r enc => simpa [hmap rfl] using h
  | writeJoin name r enc => simpa [hmap rfl, hroom r (by simp)] using h
  | writeCreate name enc => simpa [hmap rfl] using h
  | findRoom name r =>
    obtain ⟨hr, hn⟩ := h
    exact ⟨hr.trans_le hfresh, fun name' he => hn name' (hold name' r hr he)⟩
  | bridging name r receiver sender =>
    obtain ⟨he, h1, h2⟩ := h
    exact ⟨hrelay name r rfl he, by rw [hroom r (by simp)]; exact ⟨h1, h2⟩⟩
  | removeRooms name r =>
    obtain ⟨he, h1, h2⟩ := h
    exact ⟨hrelay name r rfl he, by rw [hroom r (by simp)]; exact ⟨h1, h2⟩⟩
  | sleep room =>
    cases room with
    | none => trivial
    | some r => exact lt_of_lt_of_le h hfresh
  | keepRoom r => exact lt_of_lt_of_le h hfresh
  | keepPing r sender => exact ⟨h.1.trans_le hfresh, by rw [hroom r (by simp)]; exact h.2⟩
  | _ => trivial

/-- The rooms that tasks use exist. -/
theorem SharedOk.used_fresh {s : State} (hs : SharedOk s) {p : Pc} (hp : TaskOk s p) {r : RoomId}
    (hr : p.usedRoom = some r) : r < s.fresh := by
  cases p with
  | awaitRoom name i enc | writeFull name i enc =>
    obtain rfl := Option.some.inj hr
    exact hs.entry_fresh name i hp
  | writeJoin name i enc | bridging name i receiver sender | removeRooms name i =>
    obtain rfl := Option.some.inj hr
    exact hs.entry_fresh name i hp.1
  | findRoom name i | keepPing i sender =>
    obtain rfl := Option.some.inj hr
    exact hp.1
  | keepRoom i =>
    obtain rfl := Option.some.inj hr
    exact hp
  | _ => simp at hr

/-- A step that changes neither the map nor a room keeps the invariant if the task was not
relaying and its next await point is in order. -/
theorem RoomInv.quiet {s s' : State} {t : ClientId} (h : RoomInv s) (hl : LockInv s')
    (hrooms : s'.rooms = s.rooms) (hroom : s'.room = s.room) (hfresh : s'.fresh = s.fresh)
    (hpc : ∀ u, u ≠ t → s'.pc u = s.pc u) (hrel : ∀ r, ¬ (s.pc t).relays r)
    (hp : TaskOk s (s'.pc t)) : RoomInv s' := by
  have hmono : ∀ p, TaskOk s p → TaskOk s' p := fun p hp =>
    hp.mono hfresh.ge (fun r _ => by rw [hroom]) (fun _ => hrooms)
      (fun name r _ he => by rwa [hrooms]) (fun name r _ he => by rwa [← hrooms])
  obtain ⟨_, hs, ht⟩ := h
  refine ⟨hl, ⟨?_, ?_, ?_, ?_, ?_, ?_, ?_⟩, fun u => ?_⟩
  · exact fun r => by rw [hroom]; exact hs.handle_none r
  · exact fun r hr => by rw [hroom]; exact hs.unborn r (hfresh ▸ hr)
  · exact fun name r hr => by rw [hfresh]; exact hs.entry_fresh name r (hrooms ▸ hr)
  · exact fun name name' r hr hr' => hs.entry_inj name name' r (hrooms ▸ hr) (hrooms ▸ hr')
  · exact fun r hr => by rw [hrooms]; exact hs.first_entry r (hroom ▸ hr)
  · exact fun r hr => by rw [hroom] at hr ⊢; exact hs.second_first r hr
  · intro name r hr
    rw [hroom]
    rcases hs.entry_first name r (hrooms ▸ hr) with hf | ⟨u, hu⟩
    · exact Or.inl hf
    · have hut : u ≠ t := fun he => hrel r (he ▸ hu)
      exact Or.inr ⟨u, by rwa [hpc u hut]⟩
  · by_cases hut : u = t
    · exact hut ▸ hmono _ hp
    · exact hmono _ (hpc u hut ▸ ht u)

/-- A step of the holder of room `r` that changes only that room, and nothing about its entry. -/
theorem RoomInv.change {s s' : State} {t : ClientId} {r : RoomId} {x : Room} (h : RoomInv s)
    (hl : LockInv s') (hown : (s.lock (.room r)).owner = some t) (hrooms : s'.rooms = s.rooms)
    (hroom : s'.room = Function.update s.room r x) (hfresh : s'.fresh = s.fresh)
    (hpc : ∀ u, u ≠ t → s'.pc u = s.pc u) (hx : x.handle = none) (hborn : r < s.fresh)
    (hentry : x.first.isSome → (s.room r).first.isSome) (hsecond : x.second.isSome → x.first.isSome)
    (hfirst : x.first.isSome ∨ (s'.pc t).relays r)
    (hrel : ∀ i, (s.pc t).relays i → i = r) (hp : TaskOk s' (s'.pc t)) : RoomInv s' := by
  obtain ⟨hlock, hs, ht⟩ := h
  have hother : ∀ i, i ≠ r → s'.room i = s.room i := fun i hi => by
    rw [hroom, Function.update_of_ne hi]
  have hself : s'.room r = x := by rw [hroom, Function.update_self]
  refine ⟨hl, ⟨?_, ?_, ?_, ?_, ?_, ?_, ?_⟩, fun u => ?_⟩
  · intro i
    by_cases hi : i = r
    · rw [hi, hself, hx]
    · rw [hother i hi]; exact hs.handle_none i
  · intro i hi
    have hi : s.fresh ≤ i := hfresh ▸ hi
    rw [hother i (hborn.trans_le hi).ne']
    exact hs.unborn i hi
  · exact fun name i hi => by rw [hfresh]; exact hs.entry_fresh name i (hrooms ▸ hi)
  · exact fun name name' i hi hi' => hs.entry_inj name name' i (hrooms ▸ hi) (hrooms ▸ hi')
  · intro i hi
    rw [hrooms]
    by_cases hir : i = r
    · rw [hir, hself] at hi
      exact hir ▸ hs.first_entry r (hentry hi)
    · rw [hother i hir] at hi
      exact hs.first_entry i hi
  · intro i hi
    by_cases hir : i = r
    · rw [hir, hself] at hi ⊢
      exact hsecond hi
    · rw [hother i hir] at hi ⊢
      exact hs.second_first i hi
  · intro name i hi
    by_cases hir : i = r
    · rw [hir, hself]
      exact hfirst.imp_right fun hr => ⟨t, hr⟩
    · rw [hother i hir]
      rcases hs.entry_first name i (hrooms ▸ hi) with hf | ⟨u, hu⟩
      · exact Or.inl hf
      · have hut : u ≠ t := fun he => hir (hrel i (he ▸ hu))
        exact Or.inr ⟨u, by rwa [hpc u hut]⟩
  · by_cases hut : u = t
    · exact hut ▸ hp
    · rw [hpc u hut]
      refine (ht u).mono hfresh.ge (fun i hi => ?_) (fun _ => hrooms)
        (fun name i _ he => by rwa [hrooms]) (fun name i _ he => by rwa [← hrooms])
      have hir : i ≠ r := fun he => hut (hlock.same_owner hown (he ▸ hi)).symm
      exact hother i hir

theorem RoomInv.create {s s' : State} {t : ClientId} (h : RoomInv s) (hl : LockInv s')
    {name enc} (hpc : s.pc t = .writeCreate name enc)
    (hrooms : s'.rooms = Function.update s.rooms name (some s.fresh))
    (hroom : s'.room = Function.update s.room s.fresh ⟨some t, none, none⟩)
    (hfresh : s'.fresh = s.fresh + 1) (hpc' : s'.pc = Function.update s.pc t (.findRooms name)) :
    RoomInv s' := by
  obtain ⟨hlock, hs, ht⟩ := h
  have hnone : s.rooms name = none := by simpa [hpc] using ht t
  have hold : ∀ n r, r < s.fresh → s'.rooms n = some r → s.rooms n = some r := by
    intro n r hr hn
    by_cases he : n = name
    · rw [hrooms, he, Function.update_self] at hn
      exact absurd (Option.some.inj hn) hr.ne'
    · rwa [hrooms, Function.update_of_ne he] at hn
  have hnew : ∀ n, s'.rooms n = some s.fresh → n = name := by
    intro n hn
    by_contra he
    rw [hrooms, Function.update_of_ne he] at hn
    exact lt_irrefl _ (hs.entry_fresh n _ hn)
  have hcases : ∀ n r, s'.rooms n = some r → r = s.fresh ∨ (r ≠ s.fresh ∧ s.rooms n = some r) := by
    intro n r hn
    by_cases he : n = name
    · rw [hrooms, he, Function.update_self] at hn
      exact Or.inl (Option.some.inj hn).symm
    · rw [hrooms, Function.update_of_ne he] at hn
      exact Or.inr ⟨(hs.entry_fresh n r hn).ne, hn⟩
  have hother : ∀ i, i ≠ s.fresh → s'.room i = s.room i := fun i hi => by
    rw [hroom, Function.update_of_ne hi]
  have hself : s'.room s.fresh = ⟨some t, none, none⟩ := by rw [hroom, Function.update_self]
  refine ⟨hl, ⟨?_, ?_, ?_, ?_, ?_, ?_, ?_⟩, fun u => ?_⟩
  · intro i
    by_cases hi : i = s.fresh
    · rw [hi, hself]
    · rw [hother i hi]; exact hs.handle_none i
  · intro i hi
    have hi : s.fresh < i := by rwa [hfresh] at hi
    rw [hother i hi.ne']
    exact hs.unborn i hi.le
  · intro n r hn
    rw [hfresh]
    rcases hcases n r hn with rfl | ⟨_, hn⟩
    · exact Nat.lt_succ_self _
    · exact (hs.entry_fresh n r hn).trans (Nat.lt_succ_self _)
  · intro n n' r hn hn'
    rcases hcases n r hn with rfl | ⟨hr, hn⟩
    · rw [hnew n hn, hnew n' hn']
    · rcases hcases n' r hn' with rfl | ⟨_, hn'⟩
      · exact absurd rfl hr
      · exact hs.entry_inj n n' r hn hn'
  · intro i hi
    by_cases hif : i = s.fresh
    · exact ⟨name, by rw [hif, hrooms, Function.update_self]⟩
    · rw [hother i hif] at hi
      obtain ⟨n, hn⟩ := hs.first_entry i hi
      have hne : n ≠ name := fun he => by rw [he, hnone] at hn; simp at hn
      exact ⟨n, by rw [hrooms, Function.update_of_ne hne]; exact hn⟩
  · intro i hi
    by_cases hif : i = s.fresh
    · rw [hif, hself] at hi
      simp at hi
    · rw [hother i hif] at hi ⊢
      exact hs.second_first i hi
  · intro n r hn
    rcases hcases n r hn with rfl | ⟨hr, hn⟩
    · exact Or.inl (by rw [hself]; rfl)
    · rw [hother r hr]
      rcases hs.entry_first n r hn with hf | ⟨u, hu⟩
      · exact Or.inl hf
      · have hut : u ≠ t := fun he => by simp [he, hpc] at hu
        exact Or.inr ⟨u, by rw [hpc', Function.update_of_ne hut]; exact hu⟩
  · by_cases hut : u = t
    · rw [hut, hpc', Function.update_self]
      trivial
    · rw [hpc', Function.update_of_ne hut]
      refine (ht u).mono (hfresh ▸ Nat.le_succ _) (fun i hi => ?_) (fun hu => ?_)
        (fun n r _ hn => ?_) hold
      · exact hother i (hs.used_fresh (ht u) (Pc.room_of_stake hi (by simp)).1).ne
      · exact absurd (hlock.same (i := .rooms) hu (by simp [hpc])) hut
      · have hne : n ≠ name := fun he => by rw [he, hnone] at hn; simp at hn
        rw [hrooms, Function.update_of_ne hne]
        exact hn

theorem RoomInv.remove {s s' : State} {t : ClientId} (h : RoomInv s) (hl : LockInv s')
    {name r} (hpc : s.pc t = .removeRooms name r) (hown : (s.lock .rooms).owner = some t)
    (hrooms : s'.rooms = Function.update s.rooms name none) (hroom : s'.room = s.room)
    (hfresh : s'.fresh = s.fresh) (hpc' : s'.pc = Function.update s.pc t (.done (.ok ()))) :
    RoomInv s' := by
  obtain ⟨hlock, hs, ht⟩ := h
  obtain ⟨hentry, hfirst, _⟩ : s.rooms name = some r ∧ (s.room r).first = none ∧
      (s.room r).second = none := by simpa [hpc] using ht t
  have hold : ∀ n i, s'.rooms n = some i → n ≠ name ∧ s.rooms n = some i := by
    intro n i hn
    by_cases he : n = name
    · rw [hrooms, he, Function.update_self] at hn
      simp at hn
    · exact ⟨he, by rwa [hrooms, Function.update_of_ne he] at hn⟩
  have hkeep : ∀ n i, i ≠ r → s.rooms n = some i → s'.rooms n = some i := by
    intro n i hi hn
    have hne : n ≠ name := fun he => hi (Option.some.inj (hn.symm.trans (he ▸ hentry)))
    rwa [hrooms, Function.update_of_ne hne]
  have hrelay : ∀ u i, u ≠ t → (s.pc u).relays i → i ≠ r := fun u i hu hi he =>
    hu (hlock.same (i := .room r) (he ▸ Pc.relays_holding hi) (by simp [hpc]))
  refine ⟨hl, ⟨?_, ?_, ?_, ?_, ?_, ?_, ?_⟩, fun u => ?_⟩
  · exact fun i => by rw [hroom]; exact hs.handle_none i
  · exact fun i hi => by rw [hroom]; exact hs.unborn i (hfresh ▸ hi)
  · exact fun n i hn => by rw [hfresh]; exact hs.entry_fresh n i (hold n i hn).2
  · exact fun n n' i hn hn' => hs.entry_inj n n' i (hold n i hn).2 (hold n' i hn').2
  · intro i hi
    rw [hroom] at hi
    obtain ⟨n, hn⟩ := hs.first_entry i hi
    have hir : i ≠ r := fun he => by rw [he, hfirst] at hi; simp at hi
    exact ⟨n, hkeep n i hir hn⟩
  · exact fun i hi => by rw [hroom] at hi ⊢; exact hs.second_first i hi
  · intro n i hn
    obtain ⟨hne, hn⟩ := hold n i hn
    rw [hroom]
    rcases hs.entry_first n i hn with hf | ⟨u, hu⟩
    · exact Or.inl hf
    · have hut : u ≠ t := by
        rintro rfl
        have hir : i = r := by simpa [hpc] using hu
        exact hne (hs.entry_inj n name r (hir ▸ hn) hentry)
      exact Or.inr ⟨u, by rw [hpc', Function.update_of_ne hut]; exact hu⟩
  · by_cases hut : u = t
    · rw [hut, hpc', Function.update_self]
      trivial
    · rw [hpc', Function.update_of_ne hut]
      refine (ht u).mono hfresh.ge (fun i _ => by rw [hroom]) (fun hu => ?_)
        (fun n i hi hn => hkeep n i (hrelay u i hut hi) hn) fun n i _ hn => (hold n i hn).2
      exact absurd (hlock.same_owner hown hu).symm hut

theorem RoomInv.step {cfg : Config} {s s' : State} {t : ClientId} (h : RoomInv s)
    (hs : Step cfg s t s') : RoomInv s' := by
  have hl := h.locks.step hs
  have ht := h.task t
  have hshared := h.shared
  have hne := hs.others
  cases hs with
  | negoNext hpc | negoAsk hpc | negoStop hpc | refuse hpc | refuseFail hpc | joinFail hpc
  | createFail hpc | findNone hpc | sleepNone hpc | takePanic hpc | wait hpc | seeTaken hpc
  | pingFail hpc =>
    exact h.quiet hl rfl rfl rfl hne (by simp [hpc]) (by simp)
  | @lookup name enc r hpc ho hr | @seeFull name r enc hpc ho hf =>
    exact h.quiet hl rfl rfl rfl hne (by simp [hpc]) (by simp_all)
  | lookupNone hpc ho hr => exact h.quiet hl rfl rfl rfl hne (by simp [hpc]) (by simpa using hr)
  | @seeSpace name r enc hpc ho hf =>
    have hn : s.rooms name = some r := by simpa [hpc] using ht
    -- the room is in the map and its mutex is not held by a relay, so only `second` is missing
    have h1 : (s.room r).first.isSome := by
      rcases hshared.entry_first name r hn with h1 | ⟨u, hu⟩
      · exact h1
      · have := h.locks.same_owner ho (Pc.relays_holding hu)
        simp [← this, hpc] at hu
    have h2 : (s.room r).second = none := by
      by_contra h2
      have := (isFull_iff (hshared.handle_none r)).mpr ⟨h1, Option.isSome_iff_ne_none.mpr h2⟩
      simp [this] at hf
    exact h.quiet hl rfl rfl rfl hne (by simp [hpc]) (by simpa using ⟨hn, h1, h2⟩)
  | @join name r enc c io hpc hc =>
    obtain ⟨hn, h1, -⟩ : s.rooms name = some r ∧ (s.room r).first.isSome ∧
        (s.room r).second = none := by simpa [hpc] using ht
    have ho := h.locks.owner_of_holding (t := t) (i := .room r) (by simp [hpc])
    exact h.change hl ho rfl rfl rfl hne (hshared.handle_none r) (hshared.entry_fresh name r hn)
      id (fun _ => h1) (Or.inl h1) (by simp [hpc]) (by simp)
  | create hpc hc => exact h.create hl hpc rfl rfl rfl rfl
  | @find name r hpc ho hr =>
    refine h.quiet hl rfl rfl rfl hne (by simp [hpc]) ?_
    simpa using ⟨hshared.entry_fresh name r hr, fun n hn => hshared.entry_inj n name r hn hr⟩
  | @startBridge name r receiver sender hpc ho hf h2 h1 =>
    obtain ⟨hr, hn⟩ : r < s.fresh ∧ ∀ n, s.rooms n = some r → n = name := by simpa [hpc] using ht
    obtain ⟨n, hentry⟩ := hshared.first_entry r (by simp [h1])
    obtain rfl := hn n hentry
    exact h.change hl ho rfl rfl rfl hne (hshared.handle_none r) hr (by simp) (by simp)
      (Or.inr (by simp)) (by simp [hpc]) (by simpa using hentry)
  | @endBridge name r receiver sender hpc =>
    have ht : s.rooms name = some r ∧ (s.room r).first = none ∧ (s.room r).second = none := by
      simpa [hpc] using ht
    have ho := h.locks.owner_of_holding (t := t) (i := .room r) (by simp [hpc])
    exact h.change hl ho rfl rfl rfl hne (hshared.handle_none r)
      (hshared.entry_fresh name r ht.1) (by simp) (by simp) (Or.inr (by simp)) (by simp [hpc])
      (by simpa using ht.1)
  | remove hpc ho => exact h.remove hl hpc ho rfl rfl rfl rfl
  | @keepFind name hpc ho =>
    refine h.quiet hl rfl rfl rfl hne (by simp [hpc]) ?_
    cases hr : s.rooms name with
    | none => simp
    | some r => simpa using hshared.entry_fresh name r hr
  | @tick r hpc =>
    exact h.quiet hl rfl rfl rfl hne (by simp [hpc]) (by simpa [hpc] using ht)
  | @seeFirst r sender hpc ho hf =>
    exact h.quiet hl rfl rfl rfl hne (by simp [hpc]) (by simpa [hpc, hf] using ht)
  | @ping r sender hpc =>
    have ht : r < s.fresh ∧ (s.room r).first = some sender := by simpa [hpc] using ht
    exact h.quiet hl rfl rfl rfl hne (by simp [hpc]) (by simpa using ht.1)

/-- A step changes no room that is there, apart from one whose mutex its task has. -/
theorem RoomInv.room_kept {cfg : Config} {s s' : State} {t : ClientId} (h : RoomInv s)
    (hs : Step cfg s t s') {i : RoomId} (hi : i < s.fresh)
    (hown : (s.lock (.room i)).owner ≠ some t) : s'.room i = s.room i := by
  have hne : ∀ r, (s.lock (.room r)).owner = some t → i ≠ r := fun r ho hir => hown (hir ▸ ho)
  have hholds : ∀ r, (s.pc t).stake (.room r) = .holding → i ≠ r := fun r hr =>
    hne r (h.locks.owner_of_holding hr)
  cases hs with
  | @join name r enc c io hpc hc =>
    simp [hholds r (by simp [hpc])]
  | create hpc hc => simp [hi.ne]
  | @startBridge name r receiver sender hpc ho hf h2 h1 => simp [hne r ho]
  | @endBridge name r receiver sender hpc => simp [hholds r (by simp [hpc])]
  | _ => rfl

/-- The invariant does not look at the sockets. -/
theorem RoomInv.sockets {s : State} (h : RoomInv s) (conn : ClientId → Conn) :
    RoomInv { s with conn := conn } := by
  have htask : ∀ p, TaskOk s p → TaskOk { s with conn := conn } p := fun p hp =>
    hp.mono le_rfl (fun _ _ => rfl) (fun _ => rfl) (fun _ _ _ he => he) fun _ _ _ he => he
  exact ⟨h.locks, ⟨h.shared.1, h.shared.2, h.shared.3, h.shared.4, h.shared.5, h.shared.6,
    h.shared.7⟩, fun t => htask _ (h.task t)⟩

theorem reachable_roomInv {cfg : Config} {s : State} (h : (machine cfg).Reachable s) :
    RoomInv s :=
  invariant (roomInv_start cfg) (fun _ _ _ _ hi hs => hi.step hs)
    (fun _ conn hi => hi.sockets conn) h

end Croc.Server
