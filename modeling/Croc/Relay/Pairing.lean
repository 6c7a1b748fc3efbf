import Croc.Relay.Rooms
import Croc.Relay.Runs

/-! Sessions and rooms: where a session that was let into a room is, what a bridge joins, and
which entry is removed after it. -/
namespace Croc.Server
open Lib

/-- A place that holds a session: a slot of a room, or the bridge that a task awaits. -/
inductive Place where
  | first (r : RoomId)
  | second (r : RoomId)
  | bridge (t : ClientId)
  deriving DecidableEq

def Holds (s : State) (c : ClientId) : Place → Prop
  | .first r => (s.room r).first = some c
  | .second r => (s.room r).second = some c
  | .bridge t => ∃ name r receiver sender,
      s.pc t = .bridging name r receiver sender ∧ (c = receiver ∨ c = sender)

/-- `negotiate_info` has put the session of `c` in a room and returned its name. -/
def Joined (s : State) (c : ClientId) : Prop :=
  ∃ r, Note.joinedFirst c r ∈ s.log ∨ Note.joinedSecond c r ∈ s.log

/-- The bridge of `c` has ended. -/
def Ended (s : State) (c : ClientId) : Prop :=
  ∃ r receiver sender, Note.bridgeEnded r receiver sender ∈ s.log ∧ (c = receiver ∨ c = sender)

def Note.bridgedRoom : Note → Option RoomId
  | .bridged r _ _ => some r
  | _ => none

/-- The pairing laws of a state. -/
structure Paired (s : State) : Prop where
  /-- A session that was let in is in exactly one place until its bridge ends. -/
  held : ∀ c, Joined s c → ¬ Ended s c → ∃! p, Holds s c p
  /-- A session that was told "room full" is nowhere. -/
  refused : ∀ c, .refused c ∈ s.log → ∀ p, ¬ Holds s c p
  /-- A room in the map whose mutex is free has its first session. -/
  first : ∀ name r, s.rooms name = some r → (s.lock (.room r)).owner = none →
    (s.room r).first.isSome
  /-- A bridge joins the one first and the one second session of its room. -/
  bridge : ∀ r receiver sender, .bridged r receiver sender ∈ s.log →
    (∀ c, .joinedFirst c r ∈ s.log ↔ c = sender) ∧ (∀ c, .joinedSecond c r ∈ s.log ↔ c = receiver)
  /-- A running bridge is one of those. -/
  running : ∀ t name r receiver sender, s.pc t = .bridging name r receiver sender →
    .bridged r receiver sender ∈ s.log
  once : (s.log.filterMap Note.bridgedRoom).Nodup
  /-- The two `take().unwrap()` have not failed. -/
  take : ∀ t, s.pc t ≠ .done (.error (.panic .roomTake))
  /-- What is removed after a bridge is the entry of the room that was bridged. -/
  removed : ∀ r entry, .removed r entry ∈ s.log → entry = some r

/-- The client of a task has not been answered yet. -/
def Pc.unanswered : Pc → Prop
  | .nego _ | .awaitRooms .. | .awaitRoom .. | .writeFull .. | .writeJoin ..
  | .writeCreate .. => True
  | _ => False

/-- Where sessions are. -/
structure SessionInv (s : State) : Prop where
  unanswered : ∀ c, (s.pc c).unanswered → ¬ Joined s c ∧ .refused c ∉ s.log
  holds : ∀ c p, Holds s c p → Joined s c
  unique : ∀ c p q, Holds s c p → Holds s c q → p = q
  kept : ∀ c, Joined s c → Ended s c ∨ ∃ p, Holds s c p
  refused : ∀ c, .refused c ∈ s.log → ¬ Joined s c

/-- What the record of the run says about rooms. -/
structure LogInv (s : State) : Prop where
  first : ∀ r c, (s.room r).first = some c → .joinedFirst c r ∈ s.log
  second : ∀ r c, (s.room r).second = some c → .joinedSecond c r ∈ s.log
  first_born : ∀ r c, .joinedFirst c r ∈ s.log → r < s.fresh
  first_once : ∀ r c d, .joinedFirst c r ∈ s.log → .joinedFirst d r ∈ s.log → c = d
  second_kept : ∀ r c, .joinedSecond c r ∈ s.log →
    (s.room r).second = some c ∨ (r < s.fresh ∧ (s.room r).first = none)
  second_once : ∀ r c d, .joinedSecond c r ∈ s.log → .joinedSecond d r ∈ s.log → c = d
  bridged : ∀ r receiver sender, .bridged r receiver sender ∈ s.log →
    .joinedFirst sender r ∈ s.log ∧ .joinedSecond receiver r ∈ s.log ∧ (s.room r).first = none
  once : (s.log.filterMap Note.bridgedRoom).Nodup
  running : ∀ t name r receiver sender, s.pc t = .bridging name r receiver sender →
    .bridged r receiver sender ∈ s.log
  removed : ∀ r entry, .removed r entry ∈ s.log → entry = some r
  take : ∀ t, s.pc t ≠ .done (.error (.panic .roomTake))

theorem sessionInv_start (cfg : Config) : SessionInv (start cfg) where
  unanswered c _ := by simp [Joined, start]
  holds c p h := by cases p <;> simp [Holds, start, Room.empty] at h
  unique c p q h := by cases p <;> simp [Holds, start, Room.empty] at h
  kept c h := by simp [Joined, start] at h
  refused c h := by simp [start] at h

theorem logInv_start (cfg : Config) : LogInv (start cfg) := by
  constructor <;> simp [start, Room.empty]

/-- A step that moves no session. It may refuse a client that was waiting for its answer. -/
theorem SessionInv.keep {s s' : State} (h : SessionInv s)
    (hH : ∀ c p, Holds s' c p ↔ Holds s c p) (hJ : ∀ c, Joined s' c ↔ Joined s c)
    (hE : ∀ c, Ended s' c ↔ Ended s c) (hU : ∀ c, (s'.pc c).unanswered → (s.pc c).unanswered)
    (hR : ∀ c, .refused c ∈ s'.log →
      .refused c ∈ s.log ∨ ((s.pc c).unanswered ∧ ¬ (s'.pc c).unanswered)) : SessionInv s' := by
  constructor
  · intro c hc
    obtain ⟨hj, hr⟩ := h.unanswered c (hU c hc)
    refine ⟨fun hj' => hj ((hJ c).mp hj'), fun hr' => ?_⟩
    rcases hR c hr' with hr' | ⟨-, hn⟩
    · exact hr hr'
    · exact hn hc
  · exact fun c p hp => (hJ c).mpr (h.holds c p ((hH c p).mp hp))
  · exact fun c p q hp hq => h.unique c p q ((hH c p).mp hp) ((hH c q).mp hq)
  · intro c hc
    rcases h.kept c ((hJ c).mp hc) with he | ⟨p, hp⟩
    · exact Or.inl ((hE c).mpr he)
    · exact Or.inr ⟨p, (hH c p).mpr hp⟩
  · intro c hc hj
    have hj := (hJ c).mp hj
    rcases hR c hc with hc | ⟨hu, -⟩
    · exact h.refused c hc hj
    · exact (h.unanswered c hu).1 hj

/-- A step that puts the session of a waiting client in a place that was empty. -/
theorem SessionInv.settle {s s' : State} {t : ClientId} (h : SessionInv s) (place : Place)
    (ht : (s.pc t).unanswered) (hH : ∀ c p, Holds s' c p ↔ Holds s c p ∨ (c = t ∧ p = place))
    (hJ : ∀ c, Joined s' c ↔ Joined s c ∨ c = t) (hE : ∀ c, Ended s' c ↔ Ended s c)
    (hU : ∀ c, (s'.pc c).unanswered → c ≠ t ∧ (s.pc c).unanswered)
    (hR : ∀ c, .refused c ∈ s'.log ↔ .refused c ∈ s.log) : SessionInv s' := by
  obtain ⟨hjt, hrt⟩ := h.unanswered t ht
  have hnot : ∀ p, ¬ Holds s t p := fun p hp => hjt (h.holds t p hp)
  constructor
  · intro c hc
    obtain ⟨hct, hc⟩ := hU c hc
    obtain ⟨hj, hr⟩ := h.unanswered c hc
    exact ⟨fun hj' => ((hJ c).mp hj').elim hj hct, fun hr' => hr ((hR c).mp hr')⟩
  · intro c p hp
    rcases (hH c p).mp hp with hp | ⟨rfl, -⟩
    · exact (hJ c).mpr (Or.inl (h.holds c p hp))
    · exact (hJ c).mpr (Or.inr rfl)
  · intro c p q hp hq
    rcases (hH c p).mp hp with hp | ⟨rfl, rfl⟩ <;> rcases (hH c q).mp hq with hq | ⟨hc, rfl⟩
    · exact h.unique c p q hp hq
    · exact absurd (hc ▸ hp) (hnot p)
    · exact absurd hq (hnot q)
    · rfl
  · intro c hc
    rcases (hJ c).mp hc with hc | rfl
    · rcases h.kept c hc with he | ⟨p, hp⟩
      · exact Or.inl ((hE c).mpr he)
      · exact Or.inr ⟨p, (hH c p).mpr (Or.inl hp)⟩
    · exact Or.inr ⟨place, (hH c place).mpr (Or.inr ⟨rfl, rfl⟩)⟩
  · intro c hc hj
    have hc := (hR c).mp hc
    rcases (hJ c).mp hj with hj | rfl
    · exact h.refused c hc hj
    · exact hrt hc

/-- A step that takes both sessions of a room into a bridge. -/
theorem SessionInv.take {s s' : State} {t : ClientId} {r : RoomId} {receiver sender : ClientId}
    (h : SessionInv s) (h1 : (s.room r).first = some sender)
    (h2 : (s.room r).second = some receiver)
    (hH : ∀ c p, Holds s' c p ↔ (Holds s c p ∧ p ≠ .first r ∧ p ≠ .second r) ∨
      (p = .bridge t ∧ (c = receiver ∨ c = sender)))
    (hJ : ∀ c, Joined s' c ↔ Joined s c) (hE : ∀ c, Ended s' c ↔ Ended s c)
    (hU : ∀ c, (s'.pc c).unanswered → (s.pc c).unanswered)
    (hR : ∀ c, .refused c ∈ s'.log ↔ .refused c ∈ s.log) : SessionInv s' := by
  have hr2 : Holds s receiver (.second r) := h2
  have hr1 : Holds s sender (.first r) := h1
  have hgone : ∀ c p, Holds s c p → (c = receiver ∨ c = sender) → p = .first r ∨ p = .second r := by
    rintro c p hp (rfl | rfl)
    · exact Or.inr (h.unique c p _ hp hr2)
    · exact Or.inl (h.unique c p _ hp hr1)
  constructor
  · intro c hc
    obtain ⟨hj, hr⟩ := h.unanswered c (hU c hc)
    exact ⟨fun hj' => hj ((hJ c).mp hj'), fun hr' => hr ((hR c).mp hr')⟩
  · intro c p hp
    rcases (hH c p).mp hp with ⟨hp, -⟩ | ⟨-, rfl | rfl⟩
    · exact (hJ c).mpr (h.holds c p hp)
    · exact (hJ c).mpr (h.holds c _ hr2)
    · exact (hJ c).mpr (h.holds c _ hr1)
  · intro c p q hp hq
    rcases (hH c p).mp hp with ⟨hp, hp1, hp2⟩ | ⟨rfl, hc⟩ <;>
      rcases (hH c q).mp hq with ⟨hq, hq1, hq2⟩ | ⟨rfl, hc'⟩
    · exact h.unique c p q hp hq
    · exact (hgone c p hp hc').elim (absurd · hp1) (absurd · hp2)
    · exact (hgone c q hq hc).elim (absurd · hq1) (absurd · hq2)
    · rfl
  · intro c hc
    rcases h.kept c ((hJ c).mp hc) with he | ⟨p, hp⟩
    · exact Or.inl ((hE c).mpr he)
    · by_cases hp1 : p = .first r
      · subst hp1
        have hc : c = sender := Option.some.inj (Eq.trans (Eq.symm hp) h1)
        exact Or.inr ⟨.bridge t, (hH c _).mpr (Or.inr ⟨rfl, Or.inr hc⟩)⟩
      by_cases hp2 : p = .second r
      · subst hp2
        have hc : c = receiver := Option.some.inj (Eq.trans (Eq.symm hp) h2)
        exact Or.inr ⟨.bridge t, (hH c _).mpr (Or.inr ⟨rfl, Or.inl hc⟩)⟩
      exact Or.inr ⟨p, (hH c p).mpr (Or.inl ⟨hp, hp1, hp2⟩)⟩
  · exact fun c hc hj => h.refused c ((hR c).mp hc) ((hJ c).mp hj)

/-- A step that ends a bridge. -/
theorem SessionInv.endBridge {s s' : State} {t : ClientId} (h : SessionInv s)
    (receiver sender : ClientId) (hb : ∀ c, Holds s c (.bridge t) → c = receiver ∨ c = sender)
    (hH : ∀ c p, Holds s' c p ↔ Holds s c p ∧ p ≠ .bridge t)
    (hJ : ∀ c, Joined s' c ↔ Joined s c)
    (hE : ∀ c, Ended s' c ↔ Ended s c ∨ c = receiver ∨ c = sender)
    (hU : ∀ c, (s'.pc c).unanswered → (s.pc c).unanswered)
    (hR : ∀ c, .refused c ∈ s'.log ↔ .refused c ∈ s.log) : SessionInv s' := by
  constructor
  · intro c hc
    obtain ⟨hj, hr⟩ := h.unanswered c (hU c hc)
    exact ⟨fun hj' => hj ((hJ c).mp hj'), fun hr' => hr ((hR c).mp hr')⟩
  · exact fun c p hp => (hJ c).mpr (h.holds c p ((hH c p).mp hp).1)
  · exact fun c p q hp hq => h.unique c p q ((hH c p).mp hp).1 ((hH c q).mp hq).1
  · intro c hc
    rcases h.kept c ((hJ c).mp hc) with he | ⟨p, hp⟩
    · exact Or.inl ((hE c).mpr (Or.inl he))
    · by_cases hpt : p = .bridge t
      · exact Or.inl ((hE c).mpr (Or.inr (hb c (hpt ▸ hp))))
      · exact Or.inr ⟨p, (hH c p).mpr ⟨hp, hpt⟩⟩
  · exact fun c hc hj => h.refused c ((hR c).mp hc) ((hJ c).mp hj)

/-- A step that changes no slot and notes nothing, outside a bridge. -/
theorem SessionInv.quiet {s s' : State} {t : ClientId} (h : SessionInv s)
    (hroom : s'.room = s.room) (hlog : s'.log = s.log) (hpc : ∀ u, u ≠ t → s'.pc u = s.pc u)
    (hb : ∀ name r receiver sender, s.pc t ≠ .bridging name r receiver sender)
    (hb' : ∀ name r receiver sender, s'.pc t ≠ .bridging name r receiver sender)
    (hun : (s'.pc t).unanswered → (s.pc t).unanswered) : SessionInv s' := by
  refine h.keep (fun c p => ?_) (fun c => by simp only [Joined, hlog])
    (fun c => by simp only [Ended, hlog]) (fun c hc => ?_) fun c hc => Or.inl (hlog ▸ hc)
  · cases p with
    | first r => simp only [Holds, hroom]
    | second r => simp only [Holds, hroom]
    | bridge u =>
      by_cases hu : u = t
      · simp only [Holds, hu, hb, hb', false_and, exists_const]
      · simp only [Holds, hpc u hu]
  · by_cases hct : c = t
    · exact hct ▸ hun (hct ▸ hc)
    · exact hpc c hct ▸ hc

/-- A note that lets nobody in, starts no bridge and removes no wrong entry. -/
def Note.silent : Note → Prop
  | .refused _ | .bridgeEnded .. => True
  | .removed r entry => entry = some r
  | _ => False

/-- The part of the invariant that is about bridges, after a step that starts none. -/
theorem LogInv.unbridged {s s' : State} {t : ClientId} (h : LogInv s) {notes : List Note}
    (hlog : s'.log = s.log ++ notes) (hnone : ∀ n ∈ notes, n.bridgedRoom = none)
    (hremoved : ∀ r entry, .removed r entry ∈ notes → entry = some r)
    (hpc : ∀ u, u ≠ t → s'.pc u = s.pc u)
    (hb' : ∀ name r receiver sender, s'.pc t ≠ .bridging name r receiver sender)
    (htake : s'.pc t ≠ .done (.error (.panic .roomTake))) :
    (s'.log.filterMap Note.bridgedRoom).Nodup ∧
      (∀ u name r receiver sender, s'.pc u = .bridging name r receiver sender →
        .bridged r receiver sender ∈ s'.log) ∧
      (∀ r entry, .removed r entry ∈ s'.log → entry = some r) ∧
      ∀ u, s'.pc u ≠ .done (.error (.panic .roomTake)) := by
  refine ⟨?_, ?_, ?_, ?_⟩
  · rw [hlog, List.filterMap_append, List.filterMap_eq_nil_iff.mpr hnone, List.append_nil]
    exact h.once
  · intro u name r receiver sender hu
    have hut : u ≠ t := fun he => hb' name r receiver sender (he ▸ hu)
    rw [hlog]
    exact List.mem_append_left _ (h.running u name r receiver sender (hpc u hut ▸ hu))
  · intro r entry hr
    rcases List.mem_append.mp (hlog ▸ hr) with hm | hm
    · exact h.removed r entry hm
    · exact hremoved r entry hm
  · intro u
    by_cases hut : u = t
    · exact hut ▸ htake
    · exact hpc u hut ▸ h.take u

/-- A step that changes no room and adds only silent notes. -/
theorem LogInv.quiet {s s' : State} {t : ClientId} (h : LogInv s) {notes : List Note}
    (hroom : s'.room = s.room) (hfresh : s'.fresh = s.fresh) (hlog : s'.log = s.log ++ notes)
    (hn : ∀ n ∈ notes, n.silent) (hpc : ∀ u, u ≠ t → s'.pc u = s.pc u)
    (hb' : ∀ name r receiver sender, s'.pc t ≠ .bridging name r receiver sender)
    (htake : s'.pc t ≠ .done (.error (.panic .roomTake))) : LogInv s' := by
  have hf : ∀ c r, .joinedFirst c r ∈ s'.log ↔ .joinedFirst c r ∈ s.log := fun c r => by
    have : .joinedFirst c r ∉ notes := fun hm => hn _ hm
    simp [hlog, this]
  have hs : ∀ c r, .joinedSecond c r ∈ s'.log ↔ .joinedSecond c r ∈ s.log := fun c r => by
    have : .joinedSecond c r ∉ notes := fun hm => hn _ hm
    simp [hlog, this]
  have hb : ∀ r receiver sender,
      .bridged r receiver sender ∈ s'.log ↔ .bridged r receiver sender ∈ s.log :=
    fun r receiver sender => by
      have : .bridged r receiver sender ∉ notes := fun hm => hn _ hm
      simp [hlog, this]
  have hnone : ∀ n ∈ notes, n.bridgedRoom = none := fun n hm => by
    have := hn n hm
    cases n <;> simp_all [Note.silent, Note.bridgedRoom]
  obtain ⟨honce, hrunning, hremoved, htakes⟩ :=
    h.unbridged hlog hnone (fun r entry hm => hn _ hm) hpc hb' htake
  refine ⟨?_, ?_, ?_, ?_, ?_, ?_, ?_, honce, hrunning, hremoved, htakes⟩
  · simpa only [hroom, hf] using h.first
  · simpa only [hroom, hs] using h.second
  · simpa only [hfresh, hf] using h.first_born
  · simpa only [hf] using h.first_once
  · simpa only [hroom, hfresh, hs] using h.second_kept
  · simpa only [hs] using h.second_once
  · simpa only [hroom, hf, hs, hb] using h.bridged

/-- The client that a note lets into a room. -/
def Note.joins : Note → Option ClientId
  | .joinedFirst c _ | .joinedSecond c _ => some c
  | _ => none

theorem joined_iff (s : State) (c : ClientId) : Joined s c ↔ ∃ n ∈ s.log, n.joins = some c := by
  constructor
  · rintro ⟨r, h | h⟩
    · exact ⟨_, h, rfl⟩
    · exact ⟨_, h, rfl⟩
  · rintro ⟨n, hn, hc⟩
    cases n with
    | joinedFirst d r => exact ⟨r, Or.inl (Option.some.inj hc ▸ hn)⟩
    | joinedSecond d r => exact ⟨r, Or.inr (Option.some.inj hc ▸ hn)⟩
    | _ => simp [Note.joins] at hc

theorem joined_snoc (s : State) (c : ClientId) (n : Note) :
    Joined { s with log := s.log ++ [n] } c ↔ Joined s c ∨ n.joins = some c := by
  simp [joined_iff, or_and_right, exists_or]

theorem ended_snoc (s : State) (c : ClientId) (r : RoomId) (receiver sender : ClientId) :
    Ended { s with log := s.log ++ [.bridgeEnded r receiver sender] } c ↔
      Ended s c ∨ c = receiver ∨ c = sender := by
  simp only [Ended, List.mem_append, List.mem_singleton]
  constructor
  · rintro ⟨r', receiver', sender', hm | hm, hc⟩
    · exact Or.inl ⟨r', receiver', sender', hm, hc⟩
    · obtain ⟨-, rfl, rfl⟩ := Note.bridgeEnded.inj hm
      exact Or.inr hc
  · rintro (⟨r', receiver', sender', hm, hc⟩ | hc)
    · exact ⟨r', receiver', sender', Or.inl hm, hc⟩
    · exact ⟨r, receiver, sender, Or.inr rfl, hc⟩

theorem SessionInv.step {cfg : Config} {s s' : State} {t : ClientId} (h : SessionInv s)
    (hr : RoomInv s) (hs : Step cfg s t s') : SessionInv s' := by
  have ht := hr.task t
  have hne := hs.others
  cases hs with
  | negoNext hpc | negoAsk hpc | negoStop hpc | lookup hpc | lookupNone hpc | seeFull hpc
  | seeSpace hpc | refuseFail hpc | joinFail hpc | createFail hpc | find hpc | findNone hpc
  | takePanic hpc | wait hpc | keepFind hpc | sleepNone hpc | tick hpc | seeFirst hpc
  | seeTaken hpc | ping hpc | pingFail hpc =>
    exact h.quiet rfl rfl hne (by simp [hpc]) (by simp) (by simp [hpc, Pc.unanswered])
  | refuse hpc | remove hpc =>
    refine h.keep ?_ ?_ ?_ ?_ ?_
    · rintro c (i | i | u)
      · simp [Holds]
      · simp [Holds]
      · by_cases hu : u = t <;> simp [Holds, hu, hpc]
    · simp [Joined]
    · simp [Ended]
    · intro c
      by_cases hc : c = t <;> simp [hc, hpc, Pc.unanswered]
    · intro c
      by_cases hc : c = t <;> simp [hc, hpc, Pc.unanswered]
  | @join name r enc c io hpc hc =>
    obtain ⟨-, -, h2⟩ : s.rooms name = some r ∧ (s.room r).first.isSome ∧
        (s.room r).second = none := by simpa [hpc] using ht
    refine h.settle (t := t) (.second r) (by simp [hpc, Pc.unanswered]) ?_ ?_ ?_ ?_ ?_
    · rintro d (i | i | u)
      · by_cases hi : i = r <;> simp [Holds, hi]
      · by_cases hi : i = r
        · simp [Holds, hi, h2, eq_comm]
        · simp [Holds, hi]
      · by_cases hu : u = t <;> simp [Holds, hu, hpc]
    · exact fun d => (joined_snoc s d (.joinedSecond t r)).trans (by simp [Note.joins, eq_comm])
    · simp [Ended]
    · intro d
      by_cases hd : d = t <;> simp [hd, Pc.unanswered]
    · simp
  | create hpc hc =>
    have h1 := hr.shared.unborn s.fresh le_rfl
    have h2 : (s.room s.fresh).second = none := by
      by_contra h2
      have := hr.shared.second_first s.fresh (Option.isSome_iff_ne_none.mpr h2)
      simp [h1] at this
    refine h.settle (t := t) (.first s.fresh) (by simp [hpc, Pc.unanswered]) ?_ ?_ ?_ ?_ ?_
    · rintro d (i | i | u)
      · by_cases hi : i = s.fresh
        · simp [Holds, hi, h1, eq_comm]
        · simp [Holds, hi]
      · by_cases hi : i = s.fresh
        · simp [Holds, hi, h2]
        · simp [Holds, hi]
      · by_cases hu : u = t <;> simp [Holds, hu, hpc]
    · exact fun d => (joined_snoc s d (.joinedFirst t s.fresh)).trans
        (by simp [Note.joins, eq_comm])
    · simp [Ended]
    · intro d
      by_cases hd : d = t <;> simp [hd, Pc.unanswered]
    · simp
  | @startBridge name r receiver sender hpc ho hf h2 h1 =>
    refine h.take (t := t) h1 h2 ?_ ?_ ?_ ?_ ?_
    · rintro c (i | i | u)
      · by_cases hi : i = r <;> simp [Holds, hi]
      · by_cases hi : i = r <;> simp [Holds, hi]
      · by_cases hu : u = t <;> simp [Holds, hu, hpc]
    · simp [Joined]
    · simp [Ended]
    · intro c
      by_cases hc : c = t <;> simp [hc, hpc, Pc.unanswered]
    · simp
  | @endBridge name r receiver sender hpc =>
    obtain ⟨-, h1, h2⟩ : s.rooms name = some r ∧ (s.room r).first = none ∧
        (s.room r).second = none := by simpa [hpc] using ht
    refine SessionInv.endBridge (t := t) h receiver sender ?_ ?_ ?_ ?_ ?_ ?_
    · rintro c ⟨_, _, _, _, hb, hc⟩
      simp only [hpc, Pc.bridging.injEq] at hb
      obtain ⟨-, -, rfl, rfl⟩ := hb
      exact hc
    · rintro c (i | i | u)
      · by_cases hi : i = r <;> simp [Holds, hi, h1]
      · by_cases hi : i = r <;> simp [Holds, hi, h2]
      · by_cases hu : u = t <;> simp [Holds, hu]
    · simp [Joined]
    · exact fun c => ended_snoc s c r receiver sender
    · intro c
      by_cases hc : c = t <;> simp [hc, Pc.unanswered]
    · simp

theorem LogInv.second_born {s : State} (h : LogInv s) (hs : SharedOk s) (r : RoomId)
    (c : ClientId) (hc : .joinedSecond c r ∈ s.log) : r < s.fresh := by
  rcases h.second_kept r c hc with h2 | ⟨hr, -⟩
  · obtain ⟨d, hd⟩ := Option.isSome_iff_exists.mp (hs.second_first r (by simp [h2]))
    exact h.first_born r d (h.first r d hd)
  · exact hr

/-- A session enters the second slot of a room. -/
theorem LogInv.join {s s' : State} {t : ClientId} {r : RoomId} {x : Room} (h : LogInv s)
    (hr : r < s.fresh) (h1 : (s.room r).first.isSome) (h2 : (s.room r).second = none)
    (hx1 : x.first = (s.room r).first) (hx2 : x.second = some t)
    (hroom : s'.room = Function.update s.room r x) (hfresh : s'.fresh = s.fresh)
    (hlog : s'.log = s.log ++ [.joinedSecond t r])
    (hpc : ∀ u, u ≠ t → s'.pc u = s.pc u)
    (hb' : ∀ name r receiver sender, s'.pc t ≠ .bridging name r receiver sender)
    (htake : s'.pc t ≠ .done (.error (.panic .roomTake))) : LogInv s' := by
  have hself : s'.room r = x := by rw [hroom, Function.update_self]
  have hother : ∀ i, i ≠ r → s'.room i = s.room i := fun i hi => by
    rw [hroom, Function.update_of_ne hi]
  have hfirst : ∀ i, (s'.room i).first = (s.room i).first := fun i => by
    by_cases hi : i = r
    · rw [hi, hself, hx1]
    · rw [hother i hi]
  have hs : ∀ c i, .joinedSecond c i ∈ s'.log ↔ .joinedSecond c i ∈ s.log ∨ (c = t ∧ i = r) := by
    simp [hlog]
  -- nobody was let into the second slot before: it would still be there, or the room emptied
  have hnew : ∀ c, .joinedSecond c r ∉ s.log := by
    intro c hc
    rcases h.second_kept r c hc with hc | ⟨-, hc⟩
    · simp [h2] at hc
    · simp [hc] at h1
  obtain ⟨honce, hrunning, hremoved, htakes⟩ :=
    h.unbridged hlog (by simp [Note.bridgedRoom]) (by simp) hpc hb' htake
  refine ⟨?_, ?_, ?_, ?_, ?_, ?_, ?_, honce, hrunning, hremoved, htakes⟩
  · simpa [hfirst, hlog] using h.first
  · intro i c hc
    by_cases hi : i = r
    · rw [hi, hself, hx2] at hc
      exact (hs c i).mpr (Or.inr ⟨(Option.some.inj hc).symm, hi⟩)
    · rw [hother i hi] at hc
      exact (hs c i).mpr (Or.inl (h.second i c hc))
  · simpa [hfresh, hlog] using h.first_born
  · simpa [hlog] using h.first_once
  · intro i c hc
    rcases (hs c i).mp hc with hc | ⟨rfl, rfl⟩
    · have hi : i ≠ r := fun he => hnew c (he ▸ hc)
      rw [hother i hi, hfresh]
      exact h.second_kept i c hc
    · rw [hself, hx2]
      exact Or.inl rfl
  · intro i c d hc hd
    rcases (hs c i).mp hc with hc | ⟨rfl, rfl⟩ <;> rcases (hs d i).mp hd with hd | ⟨rfl, hi⟩
    · exact h.second_once i c d hc hd
    · exact absurd (hi ▸ hc) (hnew c)
    · exact absurd hd (hnew d)
    · rfl
  · intro i receiver sender hm
    obtain ⟨hf, hs', hn⟩ := h.bridged i receiver sender (by simpa [hlog] using hm)
    exact ⟨by simpa [hlog] using hf, (hs _ _).mpr (Or.inl hs'), by rw [hfirst]; exact hn⟩

/-- A session enters the first slot of a new room. -/
theorem LogInv.create {s s' : State} {t : ClientId} (h : LogInv s)
    (hroom : s'.room = Function.update s.room s.fresh ⟨some t, none, none⟩)
    (hfresh : s'.fresh = s.fresh + 1) (hlog : s'.log = s.log ++ [.joinedFirst t s.fresh])
    (hpc : ∀ u, u ≠ t → s'.pc u = s.pc u)
    (hb' : ∀ name r receiver sender, s'.pc t ≠ .bridging name r receiver sender)
    (htake : s'.pc t ≠ .done (.error (.panic .roomTake)))
    (h2 : ∀ r c, .joinedSecond c r ∈ s.log → r < s.fresh) : LogInv s' := by
  have hself : s'.room s.fresh = ⟨some t, none, none⟩ := by rw [hroom, Function.update_self]
  have hother : ∀ i, i ≠ s.fresh → s'.room i = s.room i := fun i hi => by
    rw [hroom, Function.update_of_ne hi]
  have hf : ∀ c i, .joinedFirst c i ∈ s'.log ↔
      .joinedFirst c i ∈ s.log ∨ (c = t ∧ i = s.fresh) := by
    simp [hlog]
  have hnew : ∀ c, .joinedFirst c s.fresh ∉ s.log := fun c hc =>
    lt_irrefl _ (h.first_born _ c hc)
  obtain ⟨honce, hrunning, hremoved, htakes⟩ :=
    h.unbridged hlog (by simp [Note.bridgedRoom]) (by simp) hpc hb' htake
  refine ⟨?_, ?_, ?_, ?_, ?_, ?_, ?_, honce, hrunning, hremoved, htakes⟩
  · intro i c hc
    by_cases hi : i = s.fresh
    · rw [hi, hself] at hc
      exact (hf c i).mpr (Or.inr ⟨(Option.some.inj hc).symm, hi⟩)
    · rw [hother i hi] at hc
      exact (hf c i).mpr (Or.inl (h.first i c hc))
  · intro i c hc
    by_cases hi : i = s.fresh
    · simp [hi, hself] at hc
    · rw [hother i hi] at hc
      simpa [hlog] using h.second i c hc
  · intro i c hc
    rw [hfresh]
    rcases (hf c i).mp hc with hc | ⟨-, rfl⟩
    · exact (h.first_born i c hc).trans (Nat.lt_succ_self _)
    · exact Nat.lt_succ_self _
  · intro i c d hc hd
    rcases (hf c i).mp hc with hc | ⟨rfl, rfl⟩ <;> rcases (hf d _).mp hd with hd | ⟨rfl, hi⟩
    · exact h.first_once i c d hc hd
    · exact absurd (hi ▸ hc) (hnew c)
    · exact absurd hd (hnew d)
    · rfl
  · intro i c hc
    have hc : .joinedSecond c i ∈ s.log := by simpa [hlog] using hc
    rw [hother i (h2 i c hc).ne, hfresh]
    exact (h.second_kept i c hc).imp_right fun hk => ⟨hk.1.trans (Nat.lt_succ_self _), hk.2⟩
  · simpa [hlog] using h.second_once
  · intro i receiver sender hm
    obtain ⟨hb, hs, hn⟩ := h.bridged i receiver sender (by simpa [hlog] using hm)
    refine ⟨(hf _ _).mpr (Or.inl hb), by simpa [hlog] using hs, ?_⟩
    rw [hother i (h.first_born i sender hb).ne]
    exact hn

/-- Both sessions of a room are taken into a bridge. -/
theorem LogInv.startBridge {s s' : State} {t : ClientId} {r : RoomId}
    {receiver sender : ClientId} {x : Room} (h : LogInv s)
    (h1 : (s.room r).first = some sender) (h2 : (s.room r).second = some receiver)
    (hx1 : x.first = none) (hx2 : x.second = none)
    (hroom : s'.room = Function.update s.room r x) (hfresh : s'.fresh = s.fresh)
    (hlog : s'.log = s.log ++ [.bridged r receiver sender])
    (hpc : ∀ u, u ≠ t → s'.pc u = s.pc u)
    (ht : ∃ name, s'.pc t = .bridging name r receiver sender) : LogInv s' := by
  obtain ⟨name, ht⟩ := ht
  have hself : s'.room r = x := by rw [hroom, Function.update_self]
  have hother : ∀ i, i ≠ r → s'.room i = s.room i := fun i hi => by
    rw [hroom, Function.update_of_ne hi]
  have hb : ∀ i u v, .bridged i u v ∈ s'.log ↔
      .bridged i u v ∈ s.log ∨ (i = r ∧ u = receiver ∧ v = sender) := by
    simp [hlog]
  have hr := h.first_born r sender (h.first r sender h1)
  constructor
  · intro i c hc
    by_cases hi : i = r
    · simp [hi, hself, hx1] at hc
    · rw [hother i hi] at hc
      simpa [hlog] using h.first i c hc
  · intro i c hc
    by_cases hi : i = r
    · simp [hi, hself, hx2] at hc
    · rw [hother i hi] at hc
      simpa [hlog] using h.second i c hc
  · simpa [hfresh, hlog] using h.first_born
  · simpa [hlog] using h.first_once
  · intro i c hc
    have hc : .joinedSecond c i ∈ s.log := by simpa [hlog] using hc
    by_cases hi : i = r
    · exact Or.inr ⟨by rw [hi, hfresh]; exact hr, by rw [hi, hself, hx1]⟩
    · rw [hother i hi, hfresh]
      exact h.second_kept i c hc
  · simpa [hlog] using h.second_once
  · intro i u v hm
    rcases (hb i u v).mp hm with hm | ⟨rfl, rfl, rfl⟩
    · obtain ⟨hf, hs, hn⟩ := h.bridged i u v hm
      have hi : i ≠ r := fun he => by simp [he, h1] at hn
      rw [hother i hi]
      exact ⟨by simpa [hlog] using hf, by simpa [hlog] using hs, hn⟩
    · rw [hself]
      exact ⟨by simpa [hlog] using h.first i v h1, by simpa [hlog] using h.second i u h2, hx1⟩
  · have hnew : r ∉ s.log.filterMap Note.bridgedRoom := by
      intro hm
      obtain ⟨n, hn, hnr⟩ := List.mem_filterMap.mp hm
      cases n with
      | bridged i u v =>
        obtain rfl := Option.some.inj hnr
        simp [(h.bridged _ u v hn).2.2] at h1
      | _ => simp [Note.bridgedRoom] at hnr
    rw [hlog, List.filterMap_append]
    exact h.once.append (by simp [Note.bridgedRoom]) (by simpa [Note.bridgedRoom] using hnew)
  · intro u n i a b hu
    by_cases hut : u = t
    · rw [hut, ht] at hu
      obtain ⟨-, rfl, rfl, rfl⟩ := Pc.bridging.inj hu
      exact (hb _ _ _).mpr (Or.inr ⟨rfl, rfl, rfl⟩)
    · exact (hb _ _ _).mpr (Or.inl (h.running u n i a b (hpc u hut ▸ hu)))
  · simpa [hlog] using h.removed
  · intro u
    by_cases hut : u = t
    · rw [hut, ht]
      simp
    · exact hpc u hut ▸ h.take u

theorem Halt.negotiation_ne_roomTake {h : Halt} (hh : Halt.negotiation h) :
    h ≠ .panic .roomTake := by
  rcases hh with ⟨e, rfl⟩ | rfl | rfl <;> simp

theorem LogInv.step {cfg : Config} {s s' : State} {t : ClientId} (h : LogInv s)
    (hr : RoomInv s) (hs : Step cfg s t s') : LogInv s' := by
  have ht := hr.task t
  have hne := hs.others
  cases hs with
  | negoNext hpc | negoAsk hpc | lookup hpc | lookupNone hpc | seeFull hpc | seeSpace hpc
  | find hpc | findNone hpc | wait hpc | keepFind hpc | sleepNone hpc | tick hpc | seeFirst hpc
  | seeTaken hpc | ping hpc | pingFail hpc =>
    exact h.quiet rfl rfl (List.append_nil _).symm (by simp) hne (by simp) (by simp)
  | negoStop hpc hn =>
    refine h.quiet rfl rfl (List.append_nil _).symm (by simp) hne (by simp) ?_
    cases negotiate_move hn with
    | fail hh => simpa using Halt.negotiation_ne_roomTake hh
    | pong => simp
  | refuseFail hpc hc | joinFail hpc hc | createFail hpc hc =>
    obtain ⟨e, rfl⟩ := Conn.send_error hc
    exact h.quiet rfl rfl (List.append_nil _).symm (by simp) hne (by simp) (by simp)
  | refuse hpc => exact h.quiet rfl rfl rfl (by simp [Note.silent]) hne (by simp) (by simp)
  | @takePanic name r hpc ho hf hn =>
    obtain ⟨h1, h2⟩ := (isFull_iff (hr.shared.handle_none r)).mp hf
    rcases hn with hn | hn
    · simp [hn] at h2
    · simp [hn] at h1
  | @join name r enc c io hpc hc =>
    obtain ⟨hn, h1, h2⟩ : s.rooms name = some r ∧ (s.room r).first.isSome ∧
        (s.room r).second = none := by simpa [hpc] using ht
    exact h.join (x := { s.room r with second := some t }) (hr.shared.entry_fresh name r hn) h1 h2
      rfl rfl rfl rfl rfl hne (by simp) (by simp)
  | create hpc hc =>
    exact h.create rfl rfl rfl hne (by simp) (by simp) (h.second_born hr.shared)
  | @startBridge name r receiver sender hpc ho hf h2 h1 =>
    exact h.startBridge (x := { s.room r with first := none, second := none }) h1 h2
      rfl rfl rfl rfl rfl hne ⟨name, by simp⟩
  | @endBridge name r receiver sender hpc =>
    obtain ⟨-, h1, h2⟩ : s.rooms name = some r ∧ (s.room r).first = none ∧
        (s.room r).second = none := by simpa [hpc] using ht
    have hsame : ({ s.room r with first := none, second := none } : Room) = s.room r := by
      cases hx : s.room r
      simp_all
    refine h.quiet ?_ rfl rfl (by simp [Note.silent]) hne (by simp) (by simp)
    simp only [State.setPc, State.acquire, State.note, State.setRoom, hsame,
      Function.update_eq_self]
  | @remove name r hpc ho =>
    have hn : s.rooms name = some r ∧ (s.room r).first = none ∧ (s.room r).second = none := by
      simpa [hpc] using ht
    exact h.quiet rfl rfl rfl (by simp [Note.silent, hn.1]) hne (by simp) (by simp)

/-- The invariant does not look at the sockets. -/
theorem SessionInv.sockets {s : State} (h : SessionInv s) (conn : ClientId → Conn) :
    SessionInv { s with conn := conn } := by
  have hplace : ∀ c p, Holds { s with conn := conn } c p ↔ Holds s c p := fun c p => by
    cases p <;> exact Iff.rfl
  exact h.keep hplace (fun _ => Iff.rfl) (fun _ => Iff.rfl) (fun _ hc => hc) fun _ => Or.inl

theorem reachable_sessionInv {cfg : Config} {s : State} (h : (machine cfg).Reachable s) :
    SessionInv s :=
  invariant (sessionInv_start cfg)
    (fun _ _ _ hs hi hst => hi.step (reachable_roomInv hs) hst) (fun _ conn hi => hi.sockets conn) h

theorem reachable_logInv {cfg : Config} {s : State} (h : (machine cfg).Reachable s) :
    LogInv s :=
  invariant (logInv_start cfg) (fun _ _ _ hs hi hst => hi.step (reachable_roomInv hs) hst)
    (fun _ _ hi => ⟨hi.1, hi.2, hi.3, hi.4, hi.5, hi.6, hi.7, hi.8, hi.9, hi.10, hi.11⟩) h

/-- The pairing laws hold in every reachable state of the relay. -/
theorem reachable_paired {cfg : Config} {s : State} (h : (machine cfg).Reachable s) :
    Paired s := by
  have hroom := reachable_roomInv h
  have hsession := reachable_sessionInv h
  have hlog := reachable_logInv h
  refine ⟨fun c hj he => ?_, fun c hc p hp => ?_, fun name r hr hfree => ?_,
    fun r receiver sender hb => ?_, hlog.running, hlog.once, hlog.take, hlog.removed⟩
  · obtain ⟨p, hp⟩ := (hsession.kept c hj).resolve_left he
    exact ⟨p, hp, fun q hq => hsession.unique c q p hq hp⟩
  · exact hsession.refused c hc (hsession.holds c p hp)
  · rcases hroom.shared.entry_first name r hr with hf | ⟨t, ht⟩
    · exact hf
    · have := hroom.locks.owner_of_holding (Pc.relays_holding ht)
      simp [hfree] at this
  · obtain ⟨hf, hs, -⟩ := hlog.bridged r receiver sender hb
    exact ⟨fun c => ⟨fun hc => hlog.first_once r c sender hc hf, fun hc => hc ▸ hf⟩,
      fun c => ⟨fun hc => hlog.second_once r c receiver hc hs, fun hc => hc ▸ hs⟩⟩

/-- Two clients that name the same room, with one bridge between them. -/
theorem paired_of_two_visitors :
    ∃ s, (machine (visited "pass123" fun _ => visitor .main "pass123" "abc" [])).Reachable s ∧
      Paired s ∧
      s.log = [.joinedFirst 0 0, .joinedSecond 1 0, .bridged 0 1 0] := by
  have hX : External.transparent.WritesShort := External.transparent_writesShort
  have hs : ∀ t, Speaks (visited "pass123" fun _ => visitor .main "pass123" "abc" []) t "abc" [] :=
    fun t => visitor_speaks rfl (by decide +kernel) (by decide +kernel)
  obtain ⟨s, h⟩ := exists_bridging hX (lenient_any _) Nat.one_ne_zero (hs 0) (hs 1)
  exact ⟨s, h.reachable, reachable_paired h.reachable, h.log⟩

end Croc.Server
