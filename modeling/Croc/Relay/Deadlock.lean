import Croc.Relay.Pairing

/-! Waiting for locks. A client that names a room queues for the room's mutex while it holds the
mutex of the map; a bridge keeps the room's mutex and asks for the map at its end. Runs in which
no client asks for a room that is being relayed never deadlock. -/
namespace Croc.Server
open Lib

/-- Room `r` is being relayed, or it has both sessions and a task is about to relay it. -/
def SpokenFor (s : State) (r : RoomId) : Prop :=
  (∃ u, (s.pc u).relays r) ∨
    ((s.room r).second ≠ none ∧ ∃ u name, s.pc u = .findRoom name r)

/-- The lookup of `negotiate_info` does not find a room that is spoken for. -/
def LookupClear (s : State) : Event → Prop
  | .resume t _ => ∀ name enc r, s.pc t = .awaitRooms name enc → s.rooms name = some r →
      ¬ SpokenFor s r
  | .pump .. => True

/-- No task that gets the mutex of a room before a client that asks for the room will relay it. -/
def ClearAhead (s : State) : Prop :=
  ∀ t name r enc, s.pc t = .awaitRoom name r enc → t ∈ (s.lock (.room r)).waiters →
    ∀ u ∈ (s.lock (.room r)).ahead t, ¬ (s.pc u).relays r ∧
      ((s.room r).second = none ∨ ∀ n, s.pc u ≠ .findRoom n r)

theorem clearAhead_start (cfg : Config) : ClearAhead (start cfg) := by
  simp [ClearAhead, start]

/-- A step of the task that has the map: nobody else asks for a room. -/
theorem ClearAhead.alone {s s' : State} {a : ClientId} (hl : LockInv s)
    (ho : (s.lock .rooms).owner = some a) (hpc : ∀ u, u ≠ a → s'.pc u = s.pc u)
    (ha : ∀ name r enc, s'.pc a ≠ .awaitRoom name r enc) : ClearAhead s' := by
  intro t name r enc ht
  have hta : t ≠ a := by
    rintro rfl
    exact ha name r enc ht
  have ht := hpc t hta ▸ ht
  exact absurd (hl.same_owner ho (by simp [ht])).symm hta

/-- What a step of a task that does not have the map may do to the mutex of a room. -/
inductive RoomMove (a : ClientId) (m : Mutex ClientId) : Mutex ClientId → Prop
  | keep : RoomMove a m m
  | acquire : RoomMove a m (m.acquire a)
  | release : RoomMove a m m.release

theorem ClearAhead.other {s s' : State} {a : ClientId} (h : ClearAhead s) (hl : LockInv s)
    (hpc : ∀ u, u ≠ a → s'.pc u = s.pc u)
    (hlock : ∀ r, RoomMove a (s.lock (.room r)) (s'.lock (.room r)))
    (hsecond : ∀ r, (s.room r).second = none → (s'.room r).second = none)
    (ha : ∀ name r enc, s'.pc a ≠ .awaitRoom name r enc) (hfind : ∀ n r, s'.pc a ≠ .findRoom n r)
    (hrel : ∀ r, (s'.pc a).relays r → (s.pc a).relays r ∨
      ((s.room r).second ≠ none ∧ ∃ n, s.pc a = .findRoom n r)) : ClearAhead s' := by
  intro t name r enc ht hq u hu
  have hta : t ≠ a := by
    rintro rfl
    exact ha name r enc ht
  have ht := hpc t hta ▸ ht
  -- the tasks ahead of `t` were ahead of it before
  obtain ⟨hq, hu⟩ : t ∈ (s.lock (.room r)).waiters ∧ u ∈ (s.lock (.room r)).ahead t := by
    have hm := hlock r
    generalize s'.lock (.room r) = m at hm hq hu
    cases hm with
    | keep => exact ⟨hq, hu⟩
    | acquire =>
      have hq' : t ∈ (s.lock (.room r)).waiters := by
        unfold Mutex.acquire at hq
        split at hq
        · exact hq
        · simpa [hta] using hq
      have hown : (s.lock (.room r)).owner ≠ none := fun hn => by
        simp [(hl (.room r)).free_unqueued hn] at hq'
      exact ⟨hq', Mutex.ahead_acquire hown hq' ▸ hu⟩
    | release =>
      have hq' : t ∈ (s.lock (.room r)).waiters := by
        unfold Mutex.release at hq
        split at hq
        · simp at hq
        next w ws he => exact he ▸ List.mem_cons_of_mem w hq
      exact ⟨hq', (hl (.room r)).mem_ahead_of_release hq hu⟩
  obtain ⟨h1, h2⟩ := h t name r enc ht hq u hu
  by_cases hua : u = a
  · subst hua
    refine ⟨fun hr => ?_, Or.inr fun n => hfind n r⟩
    rcases hrel r hr with hr | ⟨hne, n, hn⟩
    · exact h1 hr
    · exact h2.elim hne fun hf => hf n hn
  · rw [hpc u hua]
    exact ⟨h1, h2.imp_left (hsecond r)⟩

theorem roomMove_update {a : ClientId} {lock : LockId → Mutex ClientId} {i : LockId}
    {m : Mutex ClientId} (h : ∀ r, i = .room r → RoomMove a (lock (.room r)) m) (r : RoomId) :
    RoomMove a (lock (.room r)) (Function.update lock i m (.room r)) := by
  by_cases hi : i = .room r
  · rw [← hi, Function.update_self]
    exact hi ▸ h r hi
  · rw [Function.update_of_ne (Ne.symm hi)]
    exact .keep

theorem ClearAhead.step {cfg : Config} {s s' : State} {a : ClientId} (h : ClearAhead s)
    (hr : RoomInv s) (hs : Step cfg s a s')
    (hok : ∀ name enc r, s.pc a = .awaitRooms name enc → s.rooms name = some r → ¬ SpokenFor s r) :
    ClearAhead s' := by
  have hl := hr.locks
  have hl' := hl.step hs
  have hne := hs.others
  have hhold := fun i => hl.owner_of_holding (t := a) (i := i)
  cases hs with
  | @lookup name enc r hpc ho hroom =>
    intro t n i e ht hq u hu
    by_cases hta : t = a
    · subst hta
      obtain ⟨rfl, rfl, rfl⟩ : name = n ∧ r = i ∧ enc = e := by simpa using ht
      have hclear := hok name enc r hpc hroom
      have hut : u ≠ t := by
        rintro rfl
        exact (hl' (.room r)).owner_not_queued u (Mutex.owner_of_self_mem_ahead hu) hq
      rw [hne u hut]
      refine ⟨fun hrel => hclear (Or.inl ⟨u, hrel⟩), ?_⟩
      by_contra hn
      push Not at hn
      obtain ⟨h2, n, hn⟩ := hn
      exact hclear (Or.inr ⟨h2, u, n, hn⟩)
    · have ht : s.pc t = .awaitRoom n i e := hne t hta ▸ ht
      exact absurd (hl.same_owner ho (by simp [ht])).symm hta
  | lookupNone hpc ho | find hpc ho | findNone hpc ho | remove hpc ho | keepFind hpc ho =>
    exact ClearAhead.alone hl ho hne (by simp)
  | seeFull hpc | seeSpace hpc | refuse hpc | refuseFail hpc | join hpc | joinFail hpc
  | create hpc | createFail hpc =>
    exact ClearAhead.alone hl (hhold .rooms (by simp [hpc])) hne (by simp)
  | negoNext hpc | negoStop hpc | sleepNone hpc | seeFirst hpc =>
    exact h.other hl hne (fun _ => .keep) (fun _ => id) (by simp) (by simp) (by simp)
  | negoAsk hpc =>
    exact h.other hl hne (fun _ => by simpa using RoomMove.keep) (fun _ => id) (by simp) (by simp)
      (by simp)
  | @tick r hpc =>
    refine h.other hl hne (roomMove_update ?_) (fun _ => id) (by simp) (by simp) (by simp)
    rintro _ ⟨⟩
    exact .acquire
  | takePanic hpc ho | seeTaken hpc ho | ping hpc | pingFail hpc =>
    refine h.other hl hne (roomMove_update ?_) (fun _ => id) (by simp) (by simp) (by simp)
    rintro _ ⟨⟩
    exact .release
  | @wait name r hpc ho =>
    refine h.other hl hne (fun i => ?_) (fun _ => id) (by simp) (by simp) (by simp)
    by_cases hi : i = r
    · simpa [hi] using RoomMove.release
    · simpa [hi] using RoomMove.keep
  | @startBridge name r receiver sender hpc ho hf h2 h1 =>
    refine h.other hl hne (fun _ => .keep) (fun i hi => ?_) (by simp) (by simp) (fun i hi => ?_)
    · by_cases hir : i = r <;> simp [hir, hi]
    · obtain rfl : i = r := by simpa using hi
      exact Or.inr ⟨by simp [h2], name, hpc⟩
  | @endBridge name r receiver sender hpc =>
    refine h.other hl hne (fun _ => by simpa using RoomMove.keep) (fun i hi => ?_)
      (by simp) (by simp)
      (fun i hi => Or.inl ?_)
    · by_cases hir : i = r <;> simp [hir, hi]
    · simpa [hpc] using hi

theorem reachable_clearAhead {cfg : Config} {s : State}
    (h : (machine cfg).ReachableBy LookupClear s) : ClearAhead s :=
  invariant_by (clearAhead_start cfg)
    (fun _ _ _ _ hs hok _ hi hst => hi.step (reachable_roomInv hs.reachable) hst hok)
    (fun _ _ hi => hi) h

/-- How many waits can follow the wait of a task at this await point. -/
def Pc.waits : Pc → ℕ
  | .awaitRoom .. => 1
  | .awaitRooms .. | .findRooms .. | .removeRooms .. | .keepRooms .. => 2
  | _ => 3

open Classical in
/-- The same for a state: a task that is in no queue waits for nobody. -/
noncomputable def waitRank (s : State) (t : ClientId) : ℕ :=
  if ∃ i, t ∈ (s.lock i).waiters then (s.pc t).waits else 0

theorem waitRank_queued {s : State} {t : ClientId} {i : LockId} (h : t ∈ (s.lock i).waiters) :
    waitRank s t = (s.pc t).waits := if_pos ⟨i, h⟩

/-- A task waits for one mutex at a time, and not for one that it owns. -/
theorem waitRank_owner {s : State} (hl : LockInv s) {u : ClientId} {i : LockId} {n : ℕ}
    (ho : (s.lock i).owner = some u) (hn : 0 < n)
    (hw : ∀ j, j ≠ i → (s.pc u).stake j = .waiting → (s.pc u).waits < n) : waitRank s u < n := by
  unfold waitRank
  split
  next hq =>
    obtain ⟨j, hj⟩ := hq
    have hji : j ≠ i := by
      rintro rfl
      exact (hl j).owner_not_queued u ho hj
    exact hw j hji ((hl j).queued_waiting u hj)
  next => exact hn

theorem Pc.waits_of_rooms {p : Pc} (h : p.roomsStake = .waiting) : p.waits = 2 := by
  cases p <;> simp_all [Pc.waits]

/-- A task that has the map can only wait for the room that it is about to join. -/
theorem Pc.waits_of_map {p : Pc} {r : RoomId} (h : p.roomsStake ≠ .idle)
    (hw : p.stake (.room r) = .waiting) : p.waits = 1 := by
  have hw := (Pc.room_of_stake hw (by simp)).2
  cases p <;> simp_all [Pc.waits]

/-- The owner of a room's mutex can only wait for the map, at the end of a bridge. -/
theorem Pc.waits_of_room {p : Pc} {r : RoomId} {j : LockId} (hs : p.stake (.room r) ≠ .idle)
    (hj : j ≠ .room r) (hw : p.stake j = .waiting) : p.relays r ∧ p.waits = 2 := by
  obtain ⟨hr, -⟩ := Pc.room_of_stake rfl hs
  cases j with
  | rooms => cases p <;> simp_all [Pc.waits]
  | room i =>
    obtain ⟨hi, -⟩ := Pc.room_of_stake hw (by simp)
    exact absurd (Option.some.inj (hi.symm.trans hr) ▸ rfl) hj

/-- In runs whose lookups find no room that is spoken for, no tasks wait for each other in a
cycle. -/
theorem lookupClear_not_deadlocked {cfg : Config} {s : State}
    (h : (machine cfg).ReachableBy LookupClear s) : ¬ Deadlocked s.lock := by
  have hl := reachable_lockInv h.reachable
  have hc := reachable_clearAhead h
  refine not_deadlocked_of_rank (waitRank s) fun t u ⟨i, ht, ho⟩ => ?_
  have hu := (hl i).owner_stake u ho
  have hwt := (hl i).queued_waiting t ht
  rw [waitRank_queued ht]
  cases i with
  | rooms =>
    rw [Pc.waits_of_rooms hwt]
    refine waitRank_owner hl ho (by norm_num) fun j hj hw => ?_
    cases j with
    | rooms => exact absurd rfl hj
    | room r => rw [Pc.waits_of_map hu hw]; norm_num
  | room r =>
    obtain ⟨hr, hwt⟩ := Pc.room_of_stake hwt (by simp)
    have hrelay := fun j => Pc.waits_of_room (j := j) hu
    cases hp : s.pc t with
    | awaitRoom name r' enc =>
      obtain rfl : r' = r := by simpa [hp] using hr
      refine waitRank_owner hl ho (by simp [Pc.waits]) fun j hj hw => ?_
      exact absurd (hrelay j hj hw).1 (hc t name r' enc hp ht u (Mutex.owner_mem_ahead ho t)).1
    | findRoom | keepRoom =>
      refine waitRank_owner hl ho (by simp [Pc.waits]) fun j hj hw => ?_
      rw [(hrelay j hj hw).2]
      simp [Pc.waits]
    | _ => simp_all

/-- A room that a client finds alone and unlocked is not spoken for. -/
theorem lenient_lookupClear (cfg : Config) : Lenient cfg LookupClear where
  free s t io hlookup _ name enc _ hpc := absurd hpc (hlookup name enc)
  lookup s t io name enc hs hpc hfind := by
    rintro name' enc' r hpc' hr
    obtain ⟨rfl, -⟩ : name = name' ∧ enc = enc' := by simpa [hpc] using hpc'
    obtain ⟨hfree, hsecond⟩ := hfind r hr
    rintro (⟨u, hu⟩ | ⟨hsome, -⟩)
    · have howner := (reachable_lockInv hs).owner_of_holding (Pc.relays_holding hu)
      simp [hfree, Mutex.free] at howner
    · exact hsome hsecond

/-- Two visitors of a room are bridged: each has looked the room up, and the second one keeps its
mutex. -/
theorem bridging_not_deadlocked :
    ∃ s, (machine (visited "pass123" fun _ => visitor .main "pass123" "abc" [])).ReachableBy
        LookupClear s ∧
      s.pc 1 = .bridging "abc" 0 1 0 ∧ s.lock (.room 0) = ⟨some 1, []⟩ ∧ ¬ Deadlocked s.lock := by
  have hs : ∀ t, Speaks (visited "pass123" fun _ => visitor .main "pass123" "abc" []) t "abc" [] :=
    fun t => visitor_speaks rfl (by decide +kernel) (by decide +kernel)
  obtain ⟨s, h⟩ := exists_bridging External.transparent_writesShort (lenient_lookupClear _)
    Nat.one_ne_zero (hs 0) (hs 1)
  exact ⟨s, h.reachable, h.pc, h.lock, lookupClear_not_deadlocked h.reachable⟩

/-- The deadlock of a third client: it looks the room up while the room is being relayed, and the
bridge ends. -/
theorem deadlocked_by_third_visitor :
    ∃ s, (machine (visited "pass123" fun _ => visitor .main "pass123" "abc" [])).Reachable s ∧
      Deadlocked s.lock := by
  have hX : External.transparent.WritesShort := External.transparent_writesShort
  have hs : ∀ t, Speaks (visited "pass123" fun _ => visitor .main "pass123" "abc" []) t "abc" [] :=
    fun t => visitor_speaks rfl (by decide +kernel) (by decide +kernel)
  obtain ⟨_, h⟩ := exists_bridging hX (lenient_any _) Nat.one_ne_zero (hs 0) (hs 1)
  obtain ⟨_, s, hthird, -, hmap, hroom, hpc⟩ :=
    h.third (t := 2) hX (lenient_any _) (hs 2) (by decide) (by decide)
  have hended := hthird.step (e := .resume 1 Io.fine) (by simp [machine, step, resume, hpc]; rfl)
  exact ⟨_, hended, deadlocked_of_pair (t := 2) (u := 1)
    ⟨.room 0, by simp [hroom], by simp [hroom]⟩
    ⟨.rooms, by simp [hmap, Mutex.acquire], by simp [hmap, Mutex.acquire]⟩⟩

end Croc.Server
