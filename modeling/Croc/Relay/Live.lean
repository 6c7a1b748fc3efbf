import Croc.Relay.Password

/-! What a client hears once it has been let into a room: keepalives while it waits, and then the
bytes of the other session of its room, in order. -/
namespace Croc.Server
open Lib

/-- The bytes on the wire. -/
def Live.bytes : Live → Bytes
  | .ping => frame [1]
  | .relayed bs => bs

/-- All that was written to a client after its negotiation. -/
def Conn.stream (c : Conn) : Bytes := (c.live.map Live.bytes).flatten

/-- A bridge between `c` and `p` has been started. -/
def Bridged (s : State) (c p : ClientId) : Prop :=
  ∃ r, .bridged r c p ∈ s.log ∨ .bridged r p c ∈ s.log

/-- `c` has heard some keepalives and then what `p` has said so far after its hello. -/
def Fed (cfg : Config) (s : State) (c p : ClientId) : Prop :=
  ∃ (n : ℕ) (pieces : List Bytes) (name : String) (data : Bytes),
    (s.conn c).live = List.replicate n .ping ++ pieces.map .relayed ∧
    Speaks cfg p name data ∧ sentRoom cfg c = some name ∧
    pieces.flatten ++ (s.conn p).unread = data

/-- The task of a client that waits for an answer asks for this room. -/
def Pc.asksFor : Pc → Option String
  | .awaitRooms name _ | .awaitRoom name _ _ | .writeFull name _ _ | .writeJoin name _ _
  | .writeCreate name _ => some name
  | _ => none

/-- The session of `c` waits in a slot. -/
def InSlot (s : State) (c : ClientId) : Prop :=
  ∃ r, (s.room r).first = some c ∨ (s.room r).second = some c

structure LiveInv (cfg : Config) (s : State) : Prop where
  asking : ∀ t name, (s.pc t).asksFor = some name → Speaks cfg t name (s.conn t).unread
  entry : ∀ name r c, s.rooms name = some r → .joinedFirst c r ∈ s.log →
    sentRoom cfg c = some name
  slot : ∀ c, InSlot s c → ∃ name, Speaks cfg c name (s.conn c).unread
  names : ∀ r c d, .joinedFirst c r ∈ s.log → .joinedSecond d r ∈ s.log →
    sentRoom cfg c = sentRoom cfg d
  heard : ∀ c, (∃ n, (s.conn c).live = List.replicate n .ping) ∨ ∃ p, Bridged s c p
  fed : ∀ c p, Bridged s c p → c ≠ p ∧ Fed cfg s c p
  apart : ∀ c p, Bridged s c p → ¬ InSlot s c
  once : ∀ c p q, Bridged s c p → Bridged s c q → p = q

theorem Bridged.symm {s : State} {c p : ClientId} (h : Bridged s c p) : Bridged s p c :=
  h.imp fun _ => Or.symm

theorem Bridged.joined {s : State} {c p : ClientId} (hl : LogInv s) (h : Bridged s c p) :
    Joined s c := by
  obtain ⟨r, h | h⟩ := h
  · exact ⟨r, Or.inr (hl.bridged r c p h).2.1⟩
  · exact ⟨r, Or.inl (hl.bridged r p c h).1⟩

theorem Pc.unanswered_of_asksFor {p : Pc} {name : String} (h : p.asksFor = some name) :
    p.unanswered := by
  cases p <;> simp_all [Pc.asksFor, Pc.unanswered]

theorem InSlot.joined {s : State} {c : ClientId} (hi : SessionInv s) (h : InSlot s c) :
    Joined s c := by
  obtain ⟨r, h | h⟩ := h
  · exact hi.holds c (.first r) h
  · exact hi.holds c (.second r) h

/-- A client says one thing only. -/
theorem Speaks.unique {cfg : Config} {t : ClientId} {name name' : String} {data data' : Bytes}
    (h : Speaks cfg t name data) (h' : Speaks cfg t name' data') : name = name' ∧ data = data' := by
  obtain ⟨enc, rest, password, rest', hs, hp, hn⟩ := h.sent
  obtain ⟨enc', r, password', r', hs', hp', hn'⟩ := h'.sent
  obtain ⟨rfl, rfl⟩ := Prod.mk.inj (Option.some.inj (hs.symm.trans hs'))
  obtain ⟨rfl, rfl⟩ := Prod.mk.inj (Option.some.inj (hp.symm.trans hp'))
  exact Prod.mk.inj (Option.some.inj (hn.symm.trans hn'))

theorem Speaks.sentRoom {cfg : Config} {t : ClientId} {name : String} {data : Bytes}
    (h : Speaks cfg t name data) : Server.sentRoom cfg t = some name := by
  obtain ⟨enc, rest, password, rest', hs, hp, hn⟩ := h.sent
  exact sentRoom_eq hs hp hn

theorem liveInv_start (cfg : Config) : LiveInv cfg (start cfg) := by
  constructor <;> simp [start, Pc.asksFor, InSlot, Bridged, Room.empty, freshConn]

/-- What a client has heard depends on its own connection and on the unread bytes of the other. -/
theorem Fed.congr {cfg : Config} {s s' : State} {c p : ClientId} (h : Fed cfg s c p)
    (hc : (s'.conn c).live = (s.conn c).live) (hp : (s'.conn p).unread = (s.conn p).unread) :
    Fed cfg s' c p := by
  obtain ⟨n, pieces, name, data, hl, hs, hr, hd⟩ := h
  exact ⟨n, pieces, name, data, by rw [hc, hl], hs, hr, by rw [hp, hd]⟩

theorem Bridged.mono {s s' : State} {c p : ClientId} {notes : List Note}
    (hlog : s'.log = s.log ++ notes) (h : Bridged s c p) : Bridged s' c p := by
  obtain ⟨r, h⟩ := h
  simp only [Bridged, hlog, List.mem_append]
  exact ⟨r, h.imp Or.inl Or.inl⟩

theorem Bridged.of_silent {s s' : State} {c p : ClientId} {notes : List Note}
    (hlog : s'.log = s.log ++ notes) (hn : ∀ r a b, .bridged r a b ∉ notes)
    (h : Bridged s' c p) : Bridged s c p := by
  obtain ⟨r, h⟩ := h
  simp only [hlog, List.mem_append, hn, or_false] at h
  exact ⟨r, h⟩

/-- A step that leaves the sockets alone up to the answers of the negotiation, puts nobody in a
slot and starts no bridge. -/
theorem LiveInv.quiet {cfg : Config} {s s' : State} {t : ClientId} (h : LiveInv cfg s)
    {notes : List Note} (hpc : ∀ u, u ≠ t → s'.pc u = s.pc u)
    (hask : ∀ name, (s'.pc t).asksFor = some name → (s.pc t).asksFor = some name)
    (hconn : ∀ u, (s'.conn u).unread = (s.conn u).unread ∧ (s'.conn u).live = (s.conn u).live)
    (hrooms : ∀ name r, s'.rooms name = some r → s.rooms name = some r)
    (hslot : ∀ u, InSlot s' u → InSlot s u)
    (hlog : s'.log = s.log ++ notes) (hn : ∀ n ∈ notes, n.silent) : LiveInv cfg s' := by
  have hf : ∀ c r, .joinedFirst c r ∉ notes := fun c r hm => hn _ hm
  have hs : ∀ c r, .joinedSecond c r ∉ notes := fun c r hm => hn _ hm
  have hb : ∀ c p, Bridged s' c p → Bridged s c p := fun c p =>
    Bridged.of_silent hlog fun r a b hm => hn _ hm
  constructor
  · intro u name hu
    rw [(hconn u).1]
    by_cases hut : u = t
    · exact hut ▸ h.asking t name (hask name (hut ▸ hu))
    · exact h.asking u name (hpc u hut ▸ hu)
  · exact fun name r c hr hc => h.entry name r c (hrooms name r hr) (by simpa [hlog, hf] using hc)
  · intro c hc
    rw [(hconn c).1]
    exact h.slot c (hslot c hc)
  · exact fun r c d hc hd => h.names r c d (by simpa [hlog, hf] using hc)
      (by simpa [hlog, hs] using hd)
  · intro c
    rw [(hconn c).2]
    exact (h.heard c).imp_right fun ⟨p, hp⟩ => ⟨p, hp.mono hlog⟩
  · intro c p hcp
    obtain ⟨hne, hfed⟩ := h.fed c p (hb c p hcp)
    exact ⟨hne, hfed.congr (hconn c).2 (hconn p).1⟩
  · exact fun c p hcp hc => h.apart c p (hb c p hcp) (hslot c hc)
  · exact fun c p q hp hq => h.once c p q (hb c p hp) (hb c q hq)

/-- A step of the negotiation: only the connection of `t` changes, and `t` has not been let in. -/
theorem LiveInv.nego {cfg : Config} {s s' : State} {t : ClientId} {c : Conn} (h : LiveInv cfg s)
    (hi : SessionInv s) (hl : LogInv s) (hun : (s.pc t).unanswered)
    (hpc : ∀ u, u ≠ t → s'.pc u = s.pc u)
    (hask : ∀ name, (s'.pc t).asksFor = some name → Speaks cfg t name c.unread)
    (hlive : c.live = (s.conn t).live) (hconn : s'.conn = Function.update s.conn t c)
    (hrooms : s'.rooms = s.rooms) (hroom : s'.room = s.room) (hlog : s'.log = s.log) :
    LiveInv cfg s' := by
  have hnot := (hi.unanswered t hun).1
  have hslot : ∀ u, InSlot s' u → InSlot s u := fun u hu => by simpa only [InSlot, hroom] using hu
  have hb : ∀ c p, Bridged s' c p → Bridged s c p := fun c p hb => by
    simpa only [Bridged, hlog] using hb
  have hother : ∀ u, u ≠ t → s'.conn u = s.conn u := fun u hu => by
    rw [hconn, Function.update_of_ne hu]
  have hlives : ∀ u, (s'.conn u).live = (s.conn u).live := fun u => by
    by_cases hut : u = t
    · rw [hut, hconn, Function.update_self, hlive]
    · rw [hother u hut]
  constructor
  · intro u name hu
    by_cases hut : u = t
    · subst hut
      rw [hconn, Function.update_self]
      exact hask name hu
    · rw [hother u hut]
      exact h.asking u name (hpc u hut ▸ hu)
  · simpa only [hrooms, hlog] using h.entry
  · intro u hu
    have hut : u ≠ t := fun he => hnot (he ▸ (hslot u hu).joined hi)
    rw [hother u hut]
    exact h.slot u (hslot u hu)
  · simpa only [hlog] using h.names
  · intro u
    rw [hlives u]
    simpa only [Bridged, hlog] using h.heard u
  · intro u p hup
    have hup := hb u p hup
    have hpt : p ≠ t := fun he => hnot (he ▸ hup.symm.joined hl)
    obtain ⟨hne, hfed⟩ := h.fed u p hup
    exact ⟨hne, hfed.congr (hlives u) (by rw [hother p hpt])⟩
  · exact fun u p hup hu => h.apart u p (hb u p hup) (hslot u hu)
  · exact fun u p q hp hq => h.once u p q (hb u p hp) (hb u q hq)

/-- A client that was waiting for its answer is put in a slot of room `r`. -/
theorem LiveInv.settle {cfg : Config} {s s' : State} {t : ClientId} {r : RoomId} {name : String}
    {n : Note} (h : LiveInv cfg s) (hi : SessionInv s) (hl : LogInv s)
    (hask : (s.pc t).asksFor = some name) (hpc : ∀ u, u ≠ t → s'.pc u = s.pc u)
    (hask' : (s'.pc t).asksFor = none)
    (hconn : ∀ u, (s'.conn u).unread = (s.conn u).unread ∧ (s'.conn u).live = (s.conn u).live)
    (hslot : ∀ u, InSlot s' u → InSlot s u ∨ u = t) (hlog : s'.log = s.log ++ [n])
    (hn : n = .joinedFirst t r ∨ n = .joinedSecond t r)
    (hentry : ∀ name r c, s'.rooms name = some r → .joinedFirst c r ∈ s'.log →
      sentRoom cfg c = some name)
    (hnames : ∀ r c d, .joinedFirst c r ∈ s'.log → .joinedSecond d r ∈ s'.log →
      sentRoom cfg c = sentRoom cfg d) : LiveInv cfg s' := by
  have hnot := (hi.unanswered t (Pc.unanswered_of_asksFor hask)).1
  have hb : ∀ c p, Bridged s' c p → Bridged s c p := fun c p =>
    Bridged.of_silent hlog fun r a b hm => by rcases hn with rfl | rfl <;> simp at hm
  refine ⟨fun u name' hu => ?_, hentry, fun u hu => ?_, hnames, fun u => ?_, fun u p hup => ?_,
    fun u p hup hu => ?_, fun u p q hp hq => h.once u p q (hb u p hp) (hb u q hq)⟩
  · have hut : u ≠ t := fun he => by
      rw [he, hask'] at hu
      simp at hu
    rw [(hconn u).1]
    exact h.asking u name' (hpc u hut ▸ hu)
  · rw [(hconn u).1]
    rcases hslot u hu with hu | rfl
    · exact h.slot u hu
    · exact ⟨name, h.asking u name hask⟩
  · rw [(hconn u).2]
    exact (h.heard u).imp_right fun ⟨p, hp⟩ => ⟨p, hp.mono hlog⟩
  · obtain ⟨hne, hfed⟩ := h.fed u p (hb u p hup)
    exact ⟨hne, hfed.congr (hconn u).2 (hconn p).1⟩
  · rcases hslot u hu with hu | rfl
    · exact h.apart u p (hb u p hup) hu
    · exact hnot ((hb u p hup).joined hl)

/-- Both sessions of a room are taken into a bridge. -/
theorem LiveInv.startBridge {cfg : Config} {s s' : State} {t : ClientId}
    {r : RoomId} {receiver sender : ClientId} (h : LiveInv cfg s) (hi : SessionInv s)
    (hl : LogInv s) (h1 : (s.room r).first = some sender) (h2 : (s.room r).second = some receiver)
    (hpc : ∀ u, u ≠ t → s'.pc u = s.pc u) (hask : (s'.pc t).asksFor = none)
    (hconn : s'.conn = s.conn) (hrooms : s'.rooms = s.rooms)
    (hslot : ∀ u, InSlot s' u → InSlot s u ∧ u ≠ receiver ∧ u ≠ sender)
    (hlog : s'.log = s.log ++ [.bridged r receiver sender]) : LiveInv cfg s' := by
  have hin1 : InSlot s sender := ⟨r, Or.inl h1⟩
  have hin2 : InSlot s receiver := ⟨r, Or.inr h2⟩
  have hne : receiver ≠ sender := by
    rintro rfl
    have := hi.unique receiver (.first r) (.second r) h1 h2
    simp at this
  have hb : ∀ c p, Bridged s' c p ↔ Bridged s c p ∨ (c = receiver ∧ p = sender) ∨
      (c = sender ∧ p = receiver) := by
    intro c p
    constructor
    · rintro ⟨i, hm⟩
      simp only [hlog, List.mem_append, List.mem_singleton, Note.bridged.injEq] at hm
      rcases hm with (hm | ⟨-, rfl, rfl⟩) | (hm | ⟨-, rfl, rfl⟩)
      · exact Or.inl ⟨i, Or.inl hm⟩
      · exact Or.inr (Or.inl ⟨rfl, rfl⟩)
      · exact Or.inl ⟨i, Or.inr hm⟩
      · exact Or.inr (Or.inr ⟨rfl, rfl⟩)
    · rintro (hcp | ⟨rfl, rfl⟩ | ⟨rfl, rfl⟩)
      · exact hcp.mono hlog
      · exact ⟨r, Or.inl (by simp [hlog])⟩
      · exact ⟨r, Or.inr (by simp [hlog])⟩
  have hsent : sentRoom cfg sender = sentRoom cfg receiver :=
    h.names r sender receiver (hl.first r sender h1) (hl.second r receiver h2)
  -- so far both have heard keepalives only
  have hfed : ∀ c p, InSlot s c → InSlot s p → sentRoom cfg c = sentRoom cfg p →
      Fed cfg s' c p := by
    intro c p hc hp hcp
    obtain ⟨n, hn⟩ := (h.heard c).resolve_right fun ⟨q, hq⟩ => h.apart c q hq hc
    obtain ⟨name, hs⟩ := h.slot p hp
    exact ⟨n, [], name, _, by rw [hconn, hn]; simp, hs,
      by rw [hcp, hs.sentRoom], by rw [hconn]; rfl⟩
  constructor
  · intro u name' hu
    have hut : u ≠ t := fun he => by
      rw [he, hask] at hu
      simp at hu
    rw [hconn]
    exact h.asking u name' (hpc u hut ▸ hu)
  · exact fun name i c hr hc => h.entry name i c (hrooms ▸ hr) (by simpa [hlog] using hc)
  · intro u hu
    rw [hconn]
    exact h.slot u (hslot u hu).1
  · exact fun i c d hc hd => h.names i c d (by simpa [hlog] using hc) (by simpa [hlog] using hd)
  · intro u
    rw [hconn]
    exact (h.heard u).imp_right fun ⟨p, hp⟩ => ⟨p, hp.mono hlog⟩
  · intro c p hcp
    rcases (hb c p).mp hcp with hcp | ⟨rfl, rfl⟩ | ⟨rfl, rfl⟩
    · obtain ⟨hne, hf⟩ := h.fed c p hcp
      exact ⟨hne, hf.congr (by rw [hconn]) (by rw [hconn])⟩
    · exact ⟨hne, hfed c p hin2 hin1 hsent.symm⟩
    · exact ⟨hne.symm, hfed c p hin1 hin2 hsent⟩
  · intro c p hcp hc
    obtain ⟨hc, hcr, hcs⟩ := hslot c hc
    rcases (hb c p).mp hcp with hcp | ⟨rfl, -⟩ | ⟨rfl, -⟩
    · exact h.apart c p hcp hc
    · exact hcr rfl
    · exact hcs rfl
  · intro c p q hp hq
    rcases (hb c p).mp hp with hp | ⟨rfl, rfl⟩ | ⟨rfl, rfl⟩ <;>
      rcases (hb _ q).mp hq with hq | ⟨hc, rfl⟩ | ⟨hc, rfl⟩
    · exact h.once c p q hp hq
    · exact absurd hin2 (hc ▸ h.apart c p hp)
    · exact absurd hin1 (hc ▸ h.apart c p hp)
    · exact absurd hin2 (h.apart _ q hq)
    · rfl
    · exact absurd hc hne
    · exact absurd hin1 (h.apart _ q hq)
    · exact absurd hc.symm hne
    · rfl

/-- A keepalive is written to a session that waits in a slot. -/
theorem LiveInv.ping {cfg : Config} {s s' : State} {t c : ClientId} (h : LiveInv cfg s)
    (hc : InSlot s c) (hpc : ∀ u, u ≠ t → s'.pc u = s.pc u) (hask : (s'.pc t).asksFor = none)
    (hconn : s'.conn = Function.update s.conn c
      { s.conn c with live := (s.conn c).live ++ [.ping] })
    (hrooms : s'.rooms = s.rooms) (hroom : s'.room = s.room) (hlog : s'.log = s.log) :
    LiveInv cfg s' := by
  have hunread : ∀ u, (s'.conn u).unread = (s.conn u).unread := fun u => by
    by_cases hu : u = c <;> simp [hconn, hu]
  have hlive : ∀ u, u ≠ c → (s'.conn u).live = (s.conn u).live := fun u hu => by
    rw [hconn, Function.update_of_ne hu]
  have hslot : ∀ u, InSlot s' u → InSlot s u := fun u hu => by simpa only [InSlot, hroom] using hu
  have hb : ∀ c p, Bridged s' c p → Bridged s c p := fun c p hb => by
    simpa only [Bridged, hlog] using hb
  constructor
  · intro u name hu
    have hut : u ≠ t := fun he => by
      rw [he, hask] at hu
      simp at hu
    rw [hunread]
    exact h.asking u name (hpc u hut ▸ hu)
  · simpa only [hrooms, hlog] using h.entry
  · intro u hu
    rw [hunread]
    exact h.slot u (hslot u hu)
  · simpa only [hlog] using h.names
  · intro u
    by_cases hu : u = c
    · obtain ⟨n, hn⟩ := (h.heard c).resolve_right fun ⟨q, hq⟩ => h.apart c q hq hc
      refine Or.inl ⟨n + 1, ?_⟩
      rw [hu, hconn, Function.update_self, hn, List.replicate_succ']
    · rw [hlive u hu]
      simpa only [Bridged, hlog] using h.heard u
  · intro u p hup
    obtain ⟨hne, hfed⟩ := h.fed u p (hb u p hup)
    have hu : u ≠ c := fun he => h.apart u p (hb u p hup) (he ▸ hc)
    exact ⟨hne, hfed.congr (hlive u hu) (hunread p)⟩
  · exact fun u p hup hu => h.apart u p (hb u p hup) (hslot u hu)
  · exact fun u p q hp hq => h.once u p q (hb u p hp) (hb u q hq)

/-- A bridge moves the next bytes of one session to the other. -/
theorem LiveInv.pump {cfg : Config} {s s' : State} {t : ClientId} (h : LiveInv cfg s)
    (hi : SessionInv s) (hl : LogInv s) (hp : Pumped s t s') : LiveInv cfg s' := by
  have heq := hp.eq
  obtain ⟨name, r, receiver, sender, hpc, src, dst, n, hsd, hc⟩ := hp.bridge
  have hrun := hl.running t name r receiver sender hpc
  have hb : Bridged s dst src := by
    rcases hsd with ⟨rfl, rfl⟩ | ⟨rfl, rfl⟩
    · exact ⟨r, Or.inr hrun⟩
    · exact ⟨r, Or.inl hrun⟩
  obtain ⟨hne, n', pieces, name', data, hlive, hspeaks, hroom, hdata⟩ := h.fed dst src hb
  have hsrc : Joined s src := hb.symm.joined hl
  obtain ⟨hcsrc, hcdst, hother⟩ := copy_conn hne hc
  have hunread : ∀ u, u ≠ src → (s'.conn u).unread = (s.conn u).unread := fun u hu => by
    by_cases hud : u = dst
    · rw [hud, hcdst]
    · rw [hother u hu hud]
  have hlives : ∀ u, u ≠ dst → (s'.conn u).live = (s.conn u).live := fun u hu => by
    by_cases hus : u = src
    · rw [hus, hcsrc]
    · rw [hother u hus hu]
  rw [heq]
  constructor
  · intro u name hu
    have hus : u ≠ src := by
      rintro rfl
      exact (hi.unanswered u (Pc.unanswered_of_asksFor hu)).1 hsrc
    exact hunread u hus ▸ h.asking u name hu
  · exact h.entry
  · intro u hu
    have hus : u ≠ src := by
      rintro rfl
      exact h.apart u dst hb.symm hu
    exact hunread u hus ▸ h.slot u hu
  · exact h.names
  · intro u
    by_cases hud : u = dst
    · exact Or.inr ⟨src, hud ▸ hb⟩
    · exact hlives u hud ▸ h.heard u
  · intro u p hup
    obtain ⟨hup', hfed⟩ := h.fed u p hup
    refine ⟨hup', ?_⟩
    by_cases hud : u = dst
    · subst hud
      obtain rfl := h.once u p src hup hb
      refine ⟨n', pieces ++ [(s.conn p).unread.take n], name', data, ?_, hspeaks, hroom, ?_⟩
      · simp [hcdst, hlive]
      · simp [hcsrc, ← hdata]
    · have hps : p ≠ src := fun he => hud (h.once src u dst (he ▸ hup.symm) hb.symm)
      exact hfed.congr (hlives u hud) (hunread p hps)
  · exact h.apart
  · exact h.once

theorem Conn.write_live {msg : Bytes} {io : Io} {c c' : Conn} (h : c.write msg io = .ok c') :
    c'.live = c.live := by
  unfold Conn.write at h
  obtain ⟨_, -, h⟩ := bind_eq_ok.mp h
  split at h
  · obtain rfl := Except.ok.inj h
    rfl
  · simp at h

theorem Conn.send_live {cfg : Config} {t : ClientId} {enc : EncryptedSession} {msg : Bytes}
    {io : Io} {c c' : Conn} (h : c.send cfg t enc msg io = .ok c') : c'.live = c.live := by
  obtain ⟨data, -, hw⟩ := bind_eq_ok.mp h
  exact Conn.write_live hw

/-- A negotiation writes no keepalives. -/
theorem negotiate_live {cfg : Config} {t : ClientId} {io : Io} {c c' : Conn} {n : Nego}
    {p : Progress} (h : negotiate cfg t io c n = some (p, c')) : c'.live = c.live := by
  have hrecv : ∀ {α : Type} {read : Bytes → Except Halt α × Bytes} {a : Except Halt α} {c' : Conn},
      recv io c read = (a, c') → c'.live = c.live := by
    intro α read a c' hr
    unfold recv at hr
    split at hr <;> obtain ⟨-, rfl⟩ := Prod.mk.inj hr <;> rfl
  have out : ∀ {r : Progress × Conn}, some r = some (p, c') → r.2.live = c.live →
      c'.live = c.live := by
    intro r hr hlive
    rw [Option.some.inj hr] at hlive
    exact hlive
  unfold negotiate at h
  cases n with
  | peek =>
    dsimp only at h
    split at h
    · exact out h rfl
    split at h
    · simp at h
    split at h <;> exact out h rfl
  | pong =>
    dsimp only at h
    split at h
    next hw => exact out h (Conn.write_live hw)
    next => exact out h rfl
  | pakeRead =>
    dsimp only at h
    split at h
    next hr => exact out h (hrecv hr)
    next hr => split at h <;> exact out h (hrecv hr)
  | pakeWrite reply k =>
    dsimp only at h
    split at h
    next => exact out h rfl
    next hw => split at h <;> exact out h (Conn.write_live hw)
  | saltRead k =>
    dsimp only at h
    split at h <;> exact out h (hrecv (by assumption))
  | passwordRead enc =>
    dsimp only at h
    split at h
    next hr => exact out h (hrecv hr)
    next hr =>
      split at h
      next => exact out h (hrecv hr)
      next => split at h <;> exact out h (hrecv hr)
  | badPasswordWrite enc =>
    dsimp only at h
    split at h
    next hw => exact out h (Conn.send_live hw)
    next => exact out h rfl
  | bannerWrite enc addr =>
    dsimp only at h
    split at h
    next hw => exact out h (Conn.send_live hw)
    next => exact out h rfl
  | roomRead enc =>
    dsimp only at h
    split at h
    next hr => exact out h (hrecv hr)
    next hr => split at h <;> exact out h (hrecv hr)

/-- A step adds to what a client has heard one keepalive, or nothing. -/
theorem Step.live {cfg : Config} {s s' : State} {t : ClientId} (hs : Step cfg s t s')
    (c : ClientId) : (s'.conn c).live = (s.conn c).live ∨ ∃ r, s.pc t = .keepPing r c := by
  have hself : ∀ {x : Conn}, x.live = (s.conn t).live →
      (Function.update s.conn t x c).live = (s.conn c).live := fun {x} hx => by
    by_cases hct : c = t
    · rw [hct, Function.update_self, hx]
    · rw [Function.update_of_ne hct]
  cases hs with
  | negoNext hpc hn | negoAsk hpc hn | negoStop hpc hn => exact Or.inl (hself (negotiate_live hn))
  | refuse hpc hc | join hpc hc | create hpc hc => exact Or.inl (hself (Conn.send_live hc))
  | @ping r sender hpc =>
    by_cases hc : c = sender
    · exact Or.inr ⟨r, hc ▸ hpc⟩
    · exact Or.inl (by simp [hc])
  | _ => exact Or.inl rfl

theorem resume_live {cfg : Config} {s s' : State} {t : ClientId} {io : Io}
    (h : resume cfg s t io = some s') (c : ClientId) : (s'.conn c).live = (s.conn c).live ∨
      (io.ok = true ∧ ∃ r, s.pc t = .keepPing r c) := by
  rcases (resume_step h).live c with hl | ⟨r, hpc⟩
  · exact Or.inl hl
  · cases hio : io.ok with
    | true => exact Or.inr ⟨rfl, r, hpc⟩
    | false =>
      simp only [resume, hpc, hio] at h
      obtain rfl := Option.some.inj h
      exact Or.inl rfl

theorem Pumped.live {s s' : State} {t : ClientId} (h : Pumped s t s') (c : ClientId) :
    (s'.conn c).live = (s.conn c).live ∨
      ∃ bytes, (s'.conn c).live = (s.conn c).live ++ [.relayed bytes] := by
  obtain ⟨_, _, _, _, -, src, dst, n, -, hc⟩ := h.bridge
  unfold copy at hc
  split at hc
  · obtain rfl := Option.some.inj hc
    by_cases hcd : c = dst
    · refine Or.inr ⟨(s.conn src).unread.take n, ?_⟩
      by_cases hcs : dst = src <;> simp [hcd, hcs]
    · refine Or.inl ?_
      by_cases hcs : c = src
      · subst hcs
        simp [hcd]
      · simp [hcd, hcs]
  · simp at hc

theorem LiveInv.step {cfg : Config} {s s' : State} {t : ClientId} (h : LiveInv cfg s)
    (hX : cfg.ext.WritesShort) (hspoken : SpokenInv cfg s) (hi : SessionInv s) (hl : LogInv s)
    (hr : RoomInv s) (hs : Step cfg s t s') : LiveInv cfg s' := by
  have ht := hr.task t
  have hne := hs.others
  have hsend : ∀ {enc : EncryptedSession} {msg : Bytes} {io : Io} {c : Conn},
      (s.conn t).send cfg t enc msg io = .ok c → ∀ u,
        (Function.update s.conn t c u).unread = (s.conn u).unread ∧
          (Function.update s.conn t c u).live = (s.conn u).live := by
    intro enc msg io c hc u
    by_cases hut : u = t
    · rw [hut, Function.update_self]
      exact ⟨(Conn.send_unread hX hc).1, Conn.send_live hc⟩
    · rw [Function.update_of_ne hut]
      exact ⟨rfl, rfl⟩
  cases hs with
  | negoNext hpc hn | negoStop hpc hn =>
    exact h.nego hi hl (by simp [hpc, Pc.unanswered]) hne (by simp [Pc.asksFor]) (negotiate_live hn)
      rfl rfl rfl rfl
  | @negoAsk n name enc c io hpc hn =>
    have hp : Speaks cfg t name c.unread := (negotiate_move hn).ok hX (hspoken.nego t _ hpc)
    exact h.nego hi hl (by simp [hpc, Pc.unanswered]) hne
      (by simpa [Pc.asksFor] using hp) (negotiate_live hn) rfl rfl rfl rfl
  | lookup hpc | lookupNone hpc | seeFull hpc | seeSpace hpc | refuseFail hpc | joinFail hpc
  | createFail hpc | find hpc | findNone hpc | takePanic hpc | wait hpc | keepFind hpc
  | sleepNone hpc | tick hpc | seeFirst hpc | seeTaken hpc | pingFail hpc =>
    exact h.quiet hne (by simp [hpc, Pc.asksFor]) (fun _ => ⟨rfl, rfl⟩) (fun _ _ => id)
      (fun _ => id) (List.append_nil _).symm (by simp)
  | refuse hpc hc =>
    exact h.quiet hne (by simp [Pc.asksFor]) (hsend hc) (fun _ _ => id)
      (fun _ => id) rfl (by simp [Note.silent])
  | @endBridge name r receiver sender hpc =>
    refine h.quiet hne (by simp [Pc.asksFor]) (fun _ => ⟨rfl, rfl⟩) (fun _ _ => id)
      (fun u hu => ?_) rfl (by simp [Note.silent])
    obtain ⟨i, hu⟩ := hu
    have hir : i ≠ r := by
      rintro rfl
      simp at hu
    exact ⟨i, by simpa [hir] using hu⟩
  | @remove name r hpc ho =>
    have hn : s.rooms name = some r ∧ (s.room r).first = none ∧ (s.room r).second = none := by
      simpa [hpc] using ht
    refine h.quiet hne (by simp [Pc.asksFor]) (fun _ => ⟨rfl, rfl⟩) (fun name' i hi => ?_)
      (fun _ => id) rfl (by simp [Note.silent, hn.1])
    by_cases hnn : name' = name
    · simp [hnn] at hi
    · simpa [hnn] using hi
  | @join name r enc c io hpc hc =>
    obtain ⟨hn, h1, h2⟩ : s.rooms name = some r ∧ (s.room r).first.isSome ∧
        (s.room r).second = none := by simpa [hpc] using ht
    have hask : (s.pc t).asksFor = some name := by simp [hpc, Pc.asksFor]
    refine h.settle (r := r) hi hl hask hne (by simp [Pc.asksFor]) (hsend hc)
      (fun u hu => ?_) rfl (Or.inr rfl) (fun n i c hni hc => ?_) (fun i c d hc hd => ?_)
    · obtain ⟨i, hu⟩ := hu
      by_cases hir : i = r
      · subst hir
        rcases hu with hu | hu
        · exact Or.inl ⟨i, Or.inl (by simpa using hu)⟩
        · exact Or.inr (by simpa [eq_comm] using hu)
      · exact Or.inl ⟨i, by simpa [hir] using hu⟩
    · exact h.entry n i c hni (by simpa using hc)
    · have hfirst : .joinedFirst c i ∈ s.log := by simpa using hc
      have hsecond : .joinedSecond d i ∈ s.log ∨ (d = t ∧ i = r) := by simpa using hd
      rcases hsecond with hsecond | ⟨rfl, rfl⟩
      · exact h.names i c d hfirst hsecond
      · rw [h.entry name i c hn hfirst, (h.asking d name hask).sentRoom]
  | @create name enc c io hpc hc =>
    have hnone : s.rooms name = none := by simpa [hpc] using ht
    have hask : (s.pc t).asksFor = some name := by simp [hpc, Pc.asksFor]
    have hsent := (h.asking t name hask).sentRoom
    refine h.settle (r := s.fresh) hi hl hask hne (by simp [Pc.asksFor]) (hsend hc)
      (fun u hu => ?_) rfl (Or.inl rfl) (fun n i c hni hc => ?_) (fun i c d hc hd => ?_)
    · obtain ⟨i, hu⟩ := hu
      by_cases hir : i = s.fresh
      · subst hir
        exact Or.inr (by simpa [eq_comm] using hu)
      · exact Or.inl ⟨i, by simpa [hir] using hu⟩
    · have hfirst : .joinedFirst c i ∈ s.log ∨ (c = t ∧ i = s.fresh) := by simpa using hc
      by_cases hnn : n = name
      · obtain rfl : s.fresh = i := by simpa [hnn] using hni
        rcases hfirst with hfirst | ⟨rfl, -⟩
        · exact absurd (hl.first_born _ c hfirst) (lt_irrefl _)
        · rw [hnn, hsent]
      · have hni : s.rooms n = some i := by simpa [hnn] using hni
        rcases hfirst with hfirst | ⟨-, rfl⟩
        · exact h.entry n i c hni hfirst
        · exact absurd (hr.shared.entry_fresh n _ hni) (lt_irrefl _)
    · have hfirst : .joinedFirst c i ∈ s.log ∨ (c = t ∧ i = s.fresh) := by simpa using hc
      have hsecond : .joinedSecond d i ∈ s.log := by simpa using hd
      rcases hfirst with hfirst | ⟨-, rfl⟩
      · exact h.names i c d hfirst hsecond
      · exact absurd (hl.second_born hr.shared _ d hsecond) (lt_irrefl _)
  | @startBridge name r receiver sender hpc ho hf h2 h1 =>
    refine h.startBridge hi hl h1 h2 hne (by simp [Pc.asksFor]) rfl rfl (fun u hu => ?_) rfl
    obtain ⟨i, hu⟩ := hu
    have hir : i ≠ r := by
      rintro rfl
      simp at hu
    have hold : (s.room i).first = some u ∨ (s.room i).second = some u := by simpa [hir] using hu
    refine ⟨⟨i, hold⟩, ?_, ?_⟩
    · rintro rfl
      rcases hold with hold | hold
      · simpa using hi.unique u (.first i) (.second r) hold h2
      · simpa [hir] using hi.unique u (.second i) (.second r) hold h2
    · rintro rfl
      rcases hold with hold | hold
      · simpa [hir] using hi.unique u (.first i) (.first r) hold h1
      · simpa using hi.unique u (.second i) (.first r) hold h1
  | @ping r sender hpc =>
    have hfirst : r < s.fresh ∧ (s.room r).first = some sender := by simpa [hpc] using ht
    exact h.ping ⟨r, Or.inl hfirst.2⟩ hne (by simp [Pc.asksFor]) rfl rfl rfl rfl

theorem reachable_liveInv {cfg : Config} (hX : cfg.ext.WritesShort) {s : State}
    (h : (machine cfg).Reachable s) : LiveInv cfg s := by
  refine h.invariant (liveInv_start cfg) fun s e s' hs hi he => ?_
  have hsession := reachable_sessionInv hs
  have hlog := reachable_logInv hs
  obtain ⟨t, hst | hp⟩ := step_cases he
  · exact hi.step hX (reachable_spokenInv hX hs) hsession hlog (reachable_roomInv hs) hst
  · exact hi.pump hsession hlog hp

end Croc.Server
