import Croc.Relay.Keepalive

/-! From keepalives to the peer: what a client that waits in its room hears, and what
`handle_keepalive` makes of it, when another client joins the room and starts with a handshake. -/
namespace Croc.Server
open Lib

/-- A session is let into one room, once. -/
def JoinsOnce (s : State) : Prop :=
  ∀ c n m, n ∈ s.log → m ∈ s.log → n.joins = some c → m.joins = some c → n = m

/-- A step that lets nobody in. -/
theorem JoinsOnce.quiet {s s' : State} (h : JoinsOnce s) {notes : List Note}
    (hlog : s'.log = s.log ++ notes) (hn : ∀ n ∈ notes, n.joins = none) : JoinsOnce s' := by
  have hold : ∀ c n, n ∈ s'.log → n.joins = some c → n ∈ s.log := by
    intro c n hmem hc
    rw [hlog] at hmem
    rcases List.mem_append.mp hmem with hmem | hmem
    · exact hmem
    · simp [hn n hmem] at hc
  exact fun c n m hmem hmem' hc hc' => h c n m (hold c n hmem hc) (hold c m hmem' hc') hc hc'

/-- A client that has not been let in before. -/
theorem JoinsOnce.settle {s s' : State} (h : JoinsOnce s) {t : ClientId} {note : Note}
    (hlog : s'.log = s.log ++ [note]) (hn : note.joins = some t) (ht : ¬ Joined s t) :
    JoinsOnce s' := by
  have hcases : ∀ c n, n ∈ s'.log → n.joins = some c → n ∈ s.log ∧ c ≠ t ∨ n = note ∧ c = t := by
    intro c n hmem hc
    rw [hlog] at hmem
    rcases List.mem_append.mp hmem with hmem | hmem
    · refine Or.inl ⟨hmem, ?_⟩
      rintro rfl
      exact ht ((joined_iff s c).mpr ⟨n, hmem, hc⟩)
    · obtain rfl := List.mem_singleton.mp hmem
      exact Or.inr ⟨rfl, Option.some.inj (hc.symm.trans hn)⟩
  intro c n m hmem hmem' hc hc'
  rcases hcases c n hmem hc with ⟨hin, hne⟩ | ⟨rfl, rfl⟩ <;>
    rcases hcases c m hmem' hc' with ⟨hin', hne'⟩ | ⟨rfl, he⟩
  · exact h c n m hin hin' hc hc'
  · exact absurd he hne
  · exact absurd rfl hne'
  · rfl

theorem JoinsOnce.step {cfg : Config} {s s' : State} {t : ClientId} (h : JoinsOnce s)
    (hi : SessionInv s) (hs : Step cfg s t s') : JoinsOnce s' := by
  have hun := hi.unanswered t
  cases hs with
  | join hpc hc => exact h.settle (t := t) rfl rfl (hun (by simp [hpc, Pc.unanswered])).1
  | create hpc hc => exact h.settle (t := t) rfl rfl (hun (by simp [hpc, Pc.unanswered])).1
  | refuse hpc hc => exact h.quiet rfl (by simp [Note.joins])
  | startBridge hpc => exact h.quiet rfl (by simp [Note.joins])
  | endBridge hpc => exact h.quiet rfl (by simp [Note.joins])
  | remove hpc => exact h.quiet rfl (by simp [Note.joins])
  | _ => exact h.quiet (List.append_nil _).symm (by simp)

theorem reachable_joinsOnce {cfg : Config} {s : State} (h : (machine cfg).Reachable s) :
    JoinsOnce s :=
  invariant (fun c n m hmem => by simp [start] at hmem)
    (fun _ _ _ hr hi hs => hi.step (reachable_sessionInv hr) hs) (fun _ _ hi => hi) h

/-- The first session of a room is bridged with the second one of the same room, if at all. -/
theorem bridged_with_second {cfg : Config} {s : State} (h : (machine cfg).Reachable s)
    {first second p : ClientId} {r : RoomId} (h1 : .joinedFirst first r ∈ s.log)
    (h2 : .joinedSecond second r ∈ s.log) (hb : Bridged s first p) : p = second := by
  have hl := reachable_logInv h
  have honce := reachable_joinsOnce h
  obtain ⟨r', hb | hb⟩ := hb
  · obtain ⟨-, hjoined, -⟩ := hl.bridged r' first p hb
    have := honce first _ _ h1 hjoined rfl rfl
    simp at this
  · obtain ⟨hjoined, hsecond, -⟩ := hl.bridged r' p first hb
    have := honce first _ _ h1 hjoined rfl rfl
    obtain rfl : r = r' := by simpa using this
    exact hl.second_once r p second hsecond h2

/-- What the client that waits in a room hears from the relay, and what it makes of it, when the
second client of the room sends a handshake and then `w`. -/
structure HandedOver (X : External) (w : Bytes) (c : Conn) : Prop where
  /-- Some keepalives, each a whole frame, and then bytes of the second client in order. -/
  heard : ∃ (n : ℕ) (pieces : List Bytes),
    c.live = List.replicate n .ping ++ pieces.map .relayed ∧
      pieces.flatten <+: frame (asBytes "handshake") ++ w
  /-- `handle_keepalive` returns exactly at the handshake, and leaves bytes of `w`. -/
  returns : ∀ client replies rest, handleKeepalive X client c.stream = .ok (replies, rest) ↔
    replies = [] ∧ rest <+: w ∧ ∃ n, c.stream =
      CrocProto.frames (List.replicate n [1]) ++ (frame (asBytes "handshake") ++ rest)

theorem handedOver_of_heard {X : External} {w : Bytes} {c : Conn} {n : ℕ} {pieces : List Bytes}
    (hlive : c.live = List.replicate n .ping ++ pieces.map .relayed)
    (hsaid : pieces.flatten <+: frame (asBytes "handshake") ++ w) : HandedOver X w c where
  heard := ⟨n, pieces, hlive, hsaid⟩
  returns client replies rest := by
    have hstream : c.stream = CrocProto.frames (List.replicate n [1]) ++ pieces.flatten := by
      rw [Conn.stream, hlive, stream_pings]
    have htail : ∀ rest, pieces.flatten = frame (asBytes "handshake") ++ rest → rest <+: w :=
      fun rest he => (List.prefix_append_right_inj _).mp (he ▸ hsaid)
    constructor
    · intro h
      rw [hstream, handleKeepalive_pings] at h
      obtain ⟨hreplies, he⟩ := handleKeepalive_prefix hsaid h
      exact ⟨hreplies, htail rest he, n, by rw [hstream, he]⟩
    · rintro ⟨rfl, -, m, hm⟩
      rw [hm, handleKeepalive_pings, handleKeepalive_handshake]

/-- The client that has opened a room hears keepalives and then the second client of its room,
whose handshake ends its wait. -/
theorem first_handedOver {cfg : Config} (hX : cfg.ext.WritesShort) {s : State}
    (h : (machine cfg).Reachable s) {first second : ClientId} {r : RoomId} {name : String}
    {w : Bytes} (h1 : .joinedFirst first r ∈ s.log) (h2 : .joinedSecond second r ∈ s.log)
    (hs : Speaks cfg second name (frame (asBytes "handshake") ++ w)) :
    HandedOver cfg.ext w (s.conn first) := by
  have hlive := reachable_liveInv hX h
  rcases hlive.heard first with ⟨n, hn⟩ | ⟨p, hb⟩
  · have hn' : (s.conn first).live = List.replicate n .ping ++ [].map .relayed := by simpa using hn
    exact handedOver_of_heard hn' List.nil_prefix
  · obtain rfl := bridged_with_second h h1 h2 hb
    obtain ⟨-, n, pieces, name', data, hlive, hspeaks, -, hdata⟩ := hlive.fed first p hb
    obtain ⟨-, rfl⟩ := hspeaks.unique hs
    exact handedOver_of_heard hlive ⟨_, hdata⟩

/-- A client hears one keepalive, then the handshake of the second client and its first byte. -/
theorem handedOver_of_two_visitors :
    ∃ s : State, (s.conn 0).live = [.ping, .relayed (frame (asBytes "handshake") ++ [7])] ∧
      HandedOver .transparent [7] (s.conn 0) := by
  have hX : External.transparent.WritesShort := External.transparent_writesShort
  have hs : ∀ t, Speaks (visited "pass123" fun _ => visitor .main "pass123" "abc"
      (frame (asBytes "handshake") ++ [7])) t "abc" (frame (asBytes "handshake") ++ [7]) :=
    fun t => visitor_speaks rfl (by decide +kernel) (by decide +kernel)
  obtain ⟨_, h0⟩ := (ready_start _ _ 0).wait hX (lenient_any _) (hs 0) rfl rfl
  have h1 := reach_ping (t := 0) (r := 0) (u := 0) (lenient_any _) h0 rfl rfl rfl
    fun _ _ => trivial
  obtain ⟨_, h2⟩ := Ready.bridge (t := 1) (r := 0) (u := 0) hX (lenient_any _)
    ⟨h1, rfl, rfl, rfl⟩ (hs 1) rfl rfl rfl
  have h3 := h2.reachable.step (e := .pump 1 true 18) rfl
  refine ⟨_, ?_, @first_handedOver _ hX _ h3 0 1 0 "abc" [7] List.mem_cons_self
    (List.mem_cons_of_mem _ List.mem_cons_self) (hs 1)⟩
  simp [start, freshConn, frame, crocMagic, asBytes_handshake, leBytes]

end Croc.Server
