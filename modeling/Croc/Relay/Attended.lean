import Croc.Relay.Pairing

/-! Full rooms. Nobody is told when the second client of a room arrives; that its two sessions are
bridged rests on the task of the second client, which tests the room after it has joined it. -/
namespace Croc.Server
open Lib

/-- The task of every second session is on its way to test whether its room is full. -/
def Attended (s : State) : Prop :=
  ∀ r t, (s.room r).second = some t →
    ∃ name, (s.pc t = .findRooms name ∧ s.rooms name = some r) ∨ s.pc t = .findRoom name r

theorem attended_start (cfg : Config) : Attended (start cfg) :=
  fun r t h => by simp [start, Room.empty] at h

/-- A step of a task that is not on its way to test a room puts nobody in a second slot, and leaves
the entries of full rooms in the map. -/
theorem Attended.keep {s s' : State} {t : ClientId} (h : Attended s)
    (hpc : ∀ u, u ≠ t → s'.pc u = s.pc u) (hf : ∀ name, s.pc t ≠ .findRooms name)
    (hf' : ∀ name r, s.pc t ≠ .findRoom name r)
    (hroom : ∀ r u, (s'.room r).second = some u → (s.room r).second = some u)
    (hmap : ∀ name r u, (s.room r).second = some u → s.rooms name = some r →
      s'.rooms name = some r) : Attended s' := by
  intro r u hu
  obtain ⟨name, hfind⟩ := h r u (hroom r u hu)
  have hut : u ≠ t := by
    rintro rfl
    rcases hfind with ⟨hpu, -⟩ | hpu
    · exact hf name hpu
    · exact hf' name r hpu
  refine ⟨name, ?_⟩
  rw [hpc u hut]
  exact hfind.imp_left fun ⟨hpu, hn⟩ => ⟨hpu, hmap name r u (hroom r u hu) hn⟩

/-- A task that has found the room that it tests has joined no other. -/
theorem Attended.tested {s : State} (h : Attended s) {t : ClientId} {name : String} {r i : RoomId}
    (hpc : s.pc t = .findRoom name r) (hi : (s.room i).second = some t) : i = r := by
  obtain ⟨name', ⟨hpt, -⟩ | hpt⟩ := h i t hi
  · simp [hpc] at hpt
  · exact (by simpa [hpc] using hpt : name = name' ∧ r = i).2.symm

/-- A step at the end of which the task is not the second session of any room. -/
theorem Attended.leave {s s' : State} {t : ClientId} (h : Attended s)
    (hpc : ∀ u, u ≠ t → s'.pc u = s.pc u) (hrooms : s'.rooms = s.rooms)
    (hroom : ∀ r u, (s'.room r).second = some u → (s.room r).second = some u ∧ u ≠ t) :
    Attended s' := by
  intro r u hu
  obtain ⟨hu, hut⟩ := hroom r u hu
  rw [hpc u hut, hrooms]
  exact h r u hu

theorem Attended.step {cfg : Config} {s s' : State} {t : ClientId} (h : Attended s)
    (hr : RoomInv s) (hs : Step cfg s t s') : Attended s' := by
  have ht := hr.task t
  have hne := hs.others
  cases hs with
  | negoNext hpc | negoAsk hpc | negoStop hpc | lookup hpc | lookupNone hpc | seeFull hpc
  | seeSpace hpc | refuse hpc | refuseFail hpc | joinFail hpc | createFail hpc | keepFind hpc
  | sleepNone hpc | tick hpc | seeFirst hpc | seeTaken hpc | ping hpc | pingFail hpc =>
    exact h.keep hne (by simp [hpc]) (by simp [hpc]) (fun _ _ hu => hu) fun _ _ _ _ hn => hn
  | @join name r enc c io hpc hc =>
    obtain ⟨hn, -⟩ : s.rooms name = some r ∧ (s.room r).first.isSome ∧
        (s.room r).second = none := by simpa [hpc] using ht
    intro i u hu
    by_cases hi : i = r
    · obtain rfl : t = u := by simpa [hi] using hu
      exact ⟨name, Or.inl ⟨by simp, by simpa [hi] using hn⟩⟩
    · have hu : (s.room i).second = some u := by simpa [hi] using hu
      obtain ⟨name', hfind⟩ := h i u hu
      have hut : u ≠ t := by
        rintro rfl
        simp [hpc] at hfind
      exact ⟨name', by simpa [hut] using hfind⟩
  | @create name enc c io hpc hc =>
    have hnone : s.rooms name = none := by simpa [hpc] using ht
    refine h.keep hne (by simp [hpc]) (by simp [hpc]) (fun i u hu => ?_) fun name' i u _ hn => ?_
    · by_cases hi : i = s.fresh
      · simp [hi] at hu
      · simpa [hi] using hu
    · have hname : name' ≠ name := by
        rintro rfl
        simp [hnone] at hn
      simpa [hname] using hn
  | @find name r hpc ho hn =>
    intro i u hu
    by_cases hut : u = t
    · subst hut
      obtain ⟨name', ⟨hpu, hn'⟩ | hpu⟩ := h i u hu
      · obtain rfl : name = name' := by simpa [hpc] using hpu
        obtain rfl : r = i := Option.some.inj (hn.symm.trans hn')
        exact ⟨name, Or.inr (by simp)⟩
      · simp [hpc] at hpu
    · obtain ⟨name', hfind⟩ := h i u hu
      exact ⟨name', by simpa [hut] using hfind⟩
  | @findNone name hpc ho hn =>
    refine h.leave hne rfl fun i u hu => ⟨hu, ?_⟩
    rintro rfl
    obtain ⟨name', ⟨hpu, hn'⟩ | hpu⟩ := h i u hu
    · obtain rfl : name = name' := by simpa [hpc] using hpu
      simp [hn] at hn'
    · simp [hpc] at hpu
  | @startBridge name r receiver sender hpc ho hf h2 h1 =>
    refine h.leave hne rfl fun i u hu => ?_
    by_cases hi : i = r
    · simp [hi] at hu
    · have hu : (s.room i).second = some u := by simpa [hi] using hu
      exact ⟨hu, fun hut => hi (h.tested hpc (hut ▸ hu))⟩
  | @takePanic name r hpc ho hf hn =>
    -- a full room has both sessions
    obtain ⟨h1, h2⟩ := (isFull_iff (hr.shared.handle_none r)).mp hf
    rcases hn with hn | hn <;> simp [hn] at h1 h2
  | @wait name r hpc ho hf =>
    refine h.leave hne rfl fun i u hu => ⟨hu, ?_⟩
    rintro rfl
    -- the room of a second session is full
    obtain rfl := h.tested hpc hu
    have hu : (s.room i).second = some u := hu
    have h1 := hr.shared.second_first i (by simp [hu])
    have := (isFull_iff (hr.shared.handle_none i)).mpr ⟨h1, by simp [hu]⟩
    simp [this] at hf
  | @endBridge name r receiver sender hpc =>
    refine h.keep hne (by simp [hpc]) (by simp [hpc]) (fun i u hu => ?_) fun _ _ _ _ hn => hn
    by_cases hi : i = r
    · simp [hi] at hu
    · simpa [hi] using hu
  | @remove name r hpc ho =>
    obtain ⟨hn, -, h2⟩ : s.rooms name = some r ∧ (s.room r).first = none ∧
        (s.room r).second = none := by simpa [hpc] using ht
    refine h.keep hne (by simp [hpc]) (by simp [hpc]) (fun _ _ hu => hu) fun name' i u hu hn' => ?_
    have hname : name' ≠ name := by
      rintro rfl
      obtain rfl : r = i := Option.some.inj (hn.symm.trans hn')
      simp [h2] at hu
    simpa [hname] using hn'

theorem reachable_attended {cfg : Config} {s : State} (h : (machine cfg).Reachable s) :
    Attended s :=
  invariant (attended_start cfg) (fun _ _ _ hr hi hs => hi.step (reachable_roomInv hr) hs)
    (fun _ _ hi => hi) h

/-- A task that keeps its client alive, or is about to. -/
def Pc.keepsAlive : Pc → Prop
  | .keepRooms _ | .sleep _ | .keepRoom _ | .keepPing .. => True
  | _ => False

/-- Full rooms are not abandoned. -/
structure NoneAbandoned (cfg : Config) (s : State) : Prop where
  /-- A task that has joined a full room of the map has yet to test it. -/
  tested : ∀ name r first second, s.rooms name = some r → (s.room r).first = some first →
    (s.room r).second = some second →
      ∃ t, (.joinedFirst t r ∈ s.log ∨ .joinedSecond t r ∈ s.log) ∧
        (s.pc t = .findRooms name ∨ s.pc t = .findRoom name r)
  /-- A task that tests a full room bridges its two sessions. -/
  bridged : ∀ name r first second t io s', (s.room r).first = some first →
    (s.room r).second = some second → s.pc t = .findRoom name r → resume cfg s t io = some s' →
      s'.pc t = .bridging name r second first
  /-- The tasks of the two sessions of a room do not both settle for keepalives. -/
  settled : ∀ r first second, (s.room r).first = some first → (s.room r).second = some second →
    ¬ ((s.pc first).keepsAlive ∧ (s.pc second).keepsAlive)

/-- In every reachable state of the relay, full rooms are not abandoned. -/
theorem reachable_noneAbandoned {cfg : Config} {s : State} (h : (machine cfg).Reachable s) :
    NoneAbandoned cfg s where
  tested name r first second hn _ h2 := by
    obtain ⟨name', hfind⟩ := reachable_attended h r second h2
    refine ⟨second, Or.inr ((reachable_logInv h).second r second h2), ?_⟩
    rcases hfind with ⟨hpc, hn'⟩ | hpc
    · exact Or.inl ((reachable_roomInv h).shared.entry_inj name name' r hn hn' ▸ hpc)
    · have htask := (reachable_roomInv h).task second
      obtain ⟨-, hname⟩ : r < s.fresh ∧ ∀ n, s.rooms n = some r → n = name' := by
        simpa [hpc] using htask
      exact Or.inr (hname name hn ▸ hpc)
  bridged name r first second t io s' h1 h2 hpc hs := by
    have hf : (s.room r).isFull = true :=
      (isFull_iff ((reachable_roomInv h).shared.handle_none r)).mpr ⟨by simp [h1], by simp [h2]⟩
    unfold resume at hs
    simp only [hpc, hf, h1, h2, if_true] at hs
    split at hs
    · rw [← Option.some.inj hs]
      simp
    · simp at hs
  settled r first second _ h2 := by
    rintro ⟨-, hkeep⟩
    obtain ⟨name, ⟨hpc, -⟩ | hpc⟩ := reachable_attended h r second h2 <;>
      simp [hpc, Pc.keepsAlive] at hkeep

/-- A room that has just become full. -/
theorem noneAbandoned_of_two_visitors :
    ∃ s, (machine (visited "pass123" fun _ => visitor .main "pass123" "abc" [])).Reachable s ∧
      s.room 0 = ⟨some 0, some 1, none⟩ ∧
      NoneAbandoned (visited "pass123" fun _ => visitor .main "pass123" "abc" []) s := by
  have hX : External.transparent.WritesShort := External.transparent_writesShort
  have hs : ∀ t, Speaks (visited "pass123" fun _ => visitor .main "pass123" "abc" []) t "abc" [] :=
    fun t => visitor_speaks rfl (by decide +kernel) (by decide +kernel)
  obtain ⟨_, h0⟩ := (ready_start _ _ 0).wait hX (lenient_any _) (hs 0) rfl rfl
  obtain ⟨_, h1⟩ := Ready.join (t := 1) (r := 0) (u := 0) hX (lenient_any _)
    ⟨h0, rfl, rfl, rfl⟩ (hs 1) rfl rfl rfl
  exact ⟨_, h1, rfl, reachable_noneAbandoned h1⟩

end Croc.Server
