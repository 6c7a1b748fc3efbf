import Croc.Proto.Stream
import Croc.Relay.Dialogue

/-! What `handle` makes of a connection: it looks at the first bytes without taking them, and
answers a ping or goes on to the key negotiation. Which of the two it is may depend on how much of
the stream the network has brought by then. -/
namespace Croc.Server
open Lib External

/-- A way of the network to bring a stream: the pieces in the order in which they arrive, and how
many of them are there when the relay looks. -/
structure Delivery (stream : Bytes) where
  pieces : List Bytes
  whole : pieces.flatten = stream
  full : ∀ piece ∈ pieces, piece ≠ []
  early : ℕ
  early_pos : 0 < early

namespace Delivery
variable {stream : Bytes} (d : Delivery stream)

/-- What a peek can see. -/
def arrived : Bytes := (d.pieces.take d.early).flatten

theorem prefix_arrived : d.arrived <+: stream := by
  refine ⟨(d.pieces.drop d.early).flatten, ?_⟩
  rw [arrived, ← List.flatten_append, List.take_append_drop, d.whole]

theorem arrived_ne_nil (h : stream ≠ []) : d.arrived ≠ [] := by
  rcases hp : d.pieces with - | ⟨piece, pieces⟩
  · have hw := d.whole
    rw [hp] at hw
    exact absurd hw.symm h
  · obtain ⟨n, hn⟩ : ∃ n, d.early = n + 1 := ⟨d.early - 1, by have := d.early_pos; omega⟩
    have hpiece := d.full piece (by simp [hp])
    rw [arrived, hp, hn, List.take_succ_cons, List.flatten_cons]
    exact List.append_ne_nil_of_left_ne_nil hpiece _

/-- A peek may see any non-empty part of the front of the stream. -/
theorem exists_arrived {front : Bytes} (hfront : front ≠ []) (h : front <+: stream) :
    ∃ d : Delivery stream, d.arrived = front := by
  obtain ⟨back, rfl⟩ := h
  by_cases hback : back = []
  · exact ⟨⟨[front], by simp [hback], by simpa using hfront, 1, one_pos⟩, by simp [arrived]⟩
  · refine ⟨⟨[front, back], by simp, by simp [hfront, hback], 1, one_pos⟩, by simp [arrived]⟩

/-- The branch of `handle` that the peek leads to. -/
def branch : Nego :=
  if peeked stream d.arrived.length = asBytes "ping" then .pong else .pakeRead

end Delivery

/-- A buffer that the peek has not filled ends in a zero. -/
theorem peeked_eq_ping {stream : Bytes} {n : ℕ} (hn : n ≤ stream.length) :
    peeked stream n = asBytes "ping" ↔ asBytes "ping" <+: stream ∧ 4 ≤ n := by
  have hping : asBytes "ping" = [112, 105, 110, 103] := by decide +kernel
  rw [hping, List.prefix_iff_eq_take]
  unfold peeked
  by_cases h4 : 4 ≤ n
  · have hlen : (stream.take 4).length = 4 := by simp; omega
    simp [h4, hlen, eq_comm]
  · have hmin : min n 4 = n := by omega
    have hlen : (stream.take n).length = n := by simp [hn]
    obtain ⟨m, hm⟩ : ∃ m, 4 - n = m + 1 := ⟨3 - n, by omega⟩
    simp only [h4, and_false, iff_false]
    intro h
    have hlast := congrArg List.getLast? h
    rw [hmin, hlen, hm, List.replicate_succ', ← List.append_assoc] at hlast
    simp at hlast

namespace Delivery
variable {stream : Bytes} {d : Delivery stream}

theorem branch_eq_pong :
    d.branch = .pong ↔ asBytes "ping" <+: stream ∧ 4 ≤ d.arrived.length := by
  rw [← peeked_eq_ping d.prefix_arrived.length_le, branch]
  split <;> simp_all

theorem branch_eq_pakeRead :
    d.branch = .pakeRead ↔ ¬ (asBytes "ping" <+: stream ∧ 4 ≤ d.arrived.length) := by
  rw [← branch_eq_pong, branch]
  split <;> simp

end Delivery

section Run
variable {cfg : Config} {s s' : State} {t : ClientId}

/-- No move of the negotiation leads back to the peek. -/
theorem NegoMove.ne_peek {c c' : Conn} {n : Nego} (h : NegoMove cfg t c n (.next .peek) c') :
    False := by
  cases h

theorem Step.unpeeked (hs : Step cfg s t s') : s'.pc t ≠ .nego .peek := by
  intro h
  cases hs with
  | @negoNext n n' c io hpc hn =>
    obtain rfl : n' = .peek := by simpa using h
    exact (negotiate_move hn).ne_peek
  | _ => simp at h

/-- Before the peek nothing has been read from the client. -/
theorem reachable_unread (h : (machine cfg).Reachable s) (hpc : s.pc t = .nego .peek) :
    (s.conn t).unread = (cfg.client t).input := by
  refine h.invariant (P := fun s => s.pc t = .nego .peek → (s.conn t).unread = (cfg.client t).input)
    (fun _ => rfl) (fun s e s' hr ih he hpc => ?_) hpc
  have hmoved : Unmoved s s' t := by
    obtain ⟨u, hs | hs⟩ := step_cases he
    · have htu : t ≠ u := by
        rintro rfl
        exact hs.unpeeked hpc
      exact hs.unmoved fun h => absurd h htu
    · exact hs.unmoved (reachable_sessionInv hr)
  have hbefore : s.pc t = .nego .peek := by
    rcases hmoved.pc with heq | ⟨-, hun, -⟩
    · rw [← heq, hpc]
    · exact absurd (by simp [hpc, Pc.unanswered]) hun
  rw [hmoved.unread (by simp [hbefore, Pc.unanswered]), ih hbefore]

end Run

/-- In every run of the relay, the peek of task `t` leads to `n`, and takes no byte from the
client. -/
def Takes (cfg : Config) (t : ClientId) (d : Delivery (cfg.client t).input) (n : Nego) : Prop :=
  ∀ s, (machine cfg).Reachable s → s.pc t = .nego .peek →
    ∃ s', (machine cfg).step s (.resume t ⟨true, d.arrived.length⟩) = some s' ∧
      s'.pc t = .nego n ∧ (s'.conn t).unread = (cfg.client t).input

/-- The first bytes of the stream decide. -/
structure Dispatched (cfg : Config) (t : ClientId) (d : Delivery (cfg.client t).input) : Prop where
  pong : Takes cfg t d .pong ↔ asBytes "ping" <+: (cfg.client t).input
  negotiation : ¬ asBytes "ping" <+: (cfg.client t).input → Takes cfg t d .pakeRead
  /-- What the negotiation reads from the pieces is what the client has sent. -/
  complete : ∀ k, (CrocProto.readMany k d.pieces).1 =
      (CrocProto.readMany k [(cfg.client t).input]).1 ∧
    (CrocProto.readMany k d.pieces).2.flatten =
      (CrocProto.readMany k [(cfg.client t).input]).2.flatten

/-- Two ways to bring the same stream make no difference. -/
structure DispatchedAlike (cfg : Config) (t : ClientId) (d₁ d₂ : Delivery (cfg.client t).input) :
    Prop where
  first : Dispatched cfg t d₁
  second : Dispatched cfg t d₂
  same : ∀ n, Takes cfg t d₁ n ↔ Takes cfg t d₂ n

section Dispatch
variable {cfg : Config} {t : ClientId} {d : Delivery (cfg.client t).input}

theorem takes_branch (h : (cfg.client t).input ≠ []) : Takes cfg t d d.branch := by
  intro s hs hpc
  have hunread := reachable_unread hs hpc
  have hseen : d.arrived.length ≠ 0 := List.length_eq_zero_iff.not.mpr (d.arrived_ne_nil h)
  refine ⟨negoAt s t d.branch (s.conn t), ?_, by simp [negoAt], by simpa [negoAt] using hunread⟩
  by_cases hping : peeked (cfg.client t).input d.arrived.length = asBytes "ping"
  · simp [machine, step, resume, hpc, negotiate, hunread, hseen, hping, negoAt, Delivery.branch]
  · simp [machine, step, resume, hpc, negotiate, hunread, hseen, hping, negoAt, Delivery.branch]

theorem takes_iff (h : (cfg.client t).input ≠ []) {n : Nego} :
    Takes cfg t d n ↔ d.branch = n := by
  constructor
  · intro hn
    obtain ⟨s', hs, hpc, -⟩ := hn (start cfg) Machine.Reachable.init rfl
    obtain ⟨s'', hs', hpc', -⟩ := takes_branch (d := d) h (start cfg) Machine.Reachable.init rfl
    obtain rfl := Option.some.inj (hs.symm.trans hs')
    rw [hpc] at hpc'
    exact (Pc.nego.inj hpc').symm
  · rintro rfl
    exact takes_branch h

/-- A ping is answered once the peek sees all of it, and everything else is negotiated with. -/
theorem dispatched_iff (h : (cfg.client t).input ≠ []) :
    Dispatched cfg t d ↔
      ¬ asBytes "ping" <+: (cfg.client t).input ∨ 4 ≤ d.arrived.length := by
  constructor
  · intro hd
    by_cases hping : asBytes "ping" <+: (cfg.client t).input
    · have hpong := (takes_iff h).mp (hd.pong.mpr hping)
      exact Or.inr (Delivery.branch_eq_pong.mp hpong).2
    · exact Or.inl hping
  · intro hcond
    refine ⟨?_, fun hping => ?_, fun k => CrocProto.readMany_congr k (by simp [d.whole])⟩
    · rw [takes_iff h, Delivery.branch_eq_pong]
      exact ⟨And.left, fun hping => ⟨hping, hcond.resolve_left (not_not_intro hping)⟩⟩
    · rw [takes_iff h, Delivery.branch_eq_pakeRead]
      exact fun hp => hping hp.1

end Dispatch

/-- A ping that the peek has not seen all of is read as the magic of a frame, and is refused. -/
theorem ping_refused {cfg : Config} {s : State} {t : ClientId} (hpc : s.pc t = .nego .pakeRead)
    (hping : asBytes "ping" <+: (s.conn t).unread) :
    ∃ s', (machine cfg).step s (.resume t Io.fine) = some s' ∧
      s'.pc t = .done (.error (.err (.badMagic (asBytes "ping")))) ∧
      (s'.conn t).replies = (s.conn t).replies := by
  obtain ⟨rest, hrest⟩ := hping
  have hread : CrocProto.read (s.conn t).unread =
      (.error (.err (.badMagic (asBytes "ping"))), rest) := by
    have hbytes : asBytes "ping" = [112, 105, 110, 103] := by decide +kernel
    rw [← hrest, hbytes]
    simp [CrocProto.read, crocMagic]
  refine ⟨((s.setConn t { s.conn t with unread := rest }).setPc t
    (.done (.error (.err (.badMagic (asBytes "ping")))))), ?_, by simp, by simp⟩
  simp [machine, step, resume, hpc, negotiate, recv, Io.fine, hread]

/-- Dispatch does not depend on packet boundaries if and only if the client does not send a ping,
or four bytes have arrived at either peek. -/
theorem dispatchedAlike_iff (cfg : Config) (t : ClientId) (h : 4 ≤ (cfg.client t).input.length)
    (d₁ d₂ : Delivery (cfg.client t).input) :
    DispatchedAlike cfg t d₁ d₂ ↔ ¬ asBytes "ping" <+: (cfg.client t).input ∨
      4 ≤ d₁.arrived.length ∧ 4 ≤ d₂.arrived.length := by
  have hne : (cfg.client t).input ≠ [] := List.ne_nil_of_length_pos (by omega)
  constructor
  · intro hd
    rcases (dispatched_iff hne).mp hd.first with hping | h₁
    · exact Or.inl hping
    · exact ((dispatched_iff hne).mp hd.second).imp_right fun h₂ => ⟨h₁, h₂⟩
  · intro hcond
    have hfirst : Dispatched cfg t d₁ := (dispatched_iff hne).mpr (hcond.imp_right And.left)
    have hsecond : Dispatched cfg t d₂ := (dispatched_iff hne).mpr (hcond.imp_right And.right)
    refine ⟨hfirst, hsecond, fun n => ?_⟩
    rw [takes_iff hne, takes_iff hne]
    suffices hb : d₁.branch = d₂.branch by rw [hb]
    by_cases hping : asBytes "ping" <+: (cfg.client t).input
    · rw [(takes_iff hne).mp (hfirst.pong.mpr hping), (takes_iff hne).mp (hsecond.pong.mpr hping)]
    · rw [(takes_iff hne).mp (hfirst.negotiation hping),
        (takes_iff hne).mp (hsecond.negotiation hping)]

/-- A client that sends nothing but a ping. -/
def pinger : Client where
  listener := .main
  input := asBytes "ping"
  peerAddr := some "127.0.0.1:50000"
  seed := 0
  rnd := padBlock 8 []
  nonce _ := padBlock 12 []

/-- A relay whose clients all do so. -/
def pinged : Config := visited "pass123" fun _ => pinger

theorem pinged_sends : asBytes "ping" <+: (pinged.client 0).input := List.prefix_refl _

theorem exists_half : ∃ d : Delivery (pinged.client 0).input, d.arrived = asBytes "pi" := by
  have hpi : asBytes "pi" <+: asBytes "ping" := by decide +kernel
  exact Delivery.exists_arrived (by decide +kernel) (hpi.trans pinged_sends)

theorem exists_ping : ∃ d : Delivery (pinged.client 0).input, d.arrived = asBytes "ping" :=
  Delivery.exists_arrived (by decide +kernel) pinged_sends

/-- A client that pings twice in a row, and visitors of one room. -/
def greeted : Config := visited "pass123" fun t =>
  if t = 0 then { pinger with input := asBytes "pingping" }
  else visitor .main "pass123" "abc" []

/-- The first ping alone is answered like both at once, and the first byte of a key negotiation is
taken like all of it. -/
theorem pinged_dispatchedAlike :
    (∃ d₁ d₂ : Delivery (greeted.client 0).input, d₁.arrived = asBytes "ping" ∧
      d₂.arrived = asBytes "pingping" ∧ DispatchedAlike greeted 0 d₁ d₂) ∧
    ∃ d₁ d₂ : Delivery (greeted.client 1).input, d₁.arrived = asBytes "c" ∧
      d₂.arrived = (greeted.client 1).input ∧ DispatchedAlike greeted 1 d₁ d₂ := by
  have hping : asBytes "ping" <+: (greeted.client 0).input := by decide +kernel
  have hmagic : asBytes "croc" <+: (greeted.client 1).input := by decide +kernel
  constructor
  · obtain ⟨d₁, h₁⟩ := Delivery.exists_arrived (by decide +kernel) hping
    obtain ⟨d₂, h₂⟩ : ∃ d : Delivery (greeted.client 0).input, d.arrived = asBytes "pingping" :=
      Delivery.exists_arrived (by decide +kernel) (List.prefix_refl _)
    refine ⟨d₁, d₂, h₁, h₂, (dispatchedAlike_iff greeted 0 (by decide +kernel) d₁ d₂).mpr ?_⟩
    rw [h₁, h₂]
    exact .inr ⟨by decide +kernel, by decide +kernel⟩
  · have hfirst : asBytes "c" <+: asBytes "croc" := by decide +kernel
    obtain ⟨d₁, h₁⟩ := Delivery.exists_arrived (by decide +kernel) (hfirst.trans hmagic)
    obtain ⟨d₂, h₂⟩ := Delivery.exists_arrived (by decide +kernel)
      (List.prefix_refl (greeted.client 1).input)
    refine ⟨d₁, d₂, h₁, h₂, (dispatchedAlike_iff greeted 1 (by decide +kernel) d₁ d₂).mpr
      (.inl fun hping => ?_)⟩
    have heq := List.prefix_of_prefix_length_le hping hmagic (by decide +kernel)
    exact absurd heq (by decide +kernel)

/-- The network brings half of the ping first, or all of it at once. -/
theorem pinged_not_alike : ∃ d₁ d₂ : Delivery (pinged.client 0).input,
    d₁.arrived = asBytes "pi" ∧ d₂.arrived = asBytes "ping" ∧ Takes pinged 0 d₁ .pakeRead ∧
      Takes pinged 0 d₂ .pong ∧ ¬ DispatchedAlike pinged 0 d₁ d₂ := by
  have hne : (pinged.client 0).input ≠ [] := by decide +kernel
  obtain ⟨d₁, h₁⟩ := exists_half
  obtain ⟨d₂, h₂⟩ := exists_ping
  have hlen₁ : ¬ 4 ≤ d₁.arrived.length := by
    rw [h₁]
    decide +kernel
  have hlen₂ : 4 ≤ d₂.arrived.length := by
    rw [h₂]
    decide +kernel
  refine ⟨d₁, d₂, h₁, h₂, ?_, ?_, fun h => ?_⟩
  · rw [takes_iff hne, Delivery.branch_eq_pakeRead]
    exact fun hp => hlen₁ hp.2
  · rw [takes_iff hne, Delivery.branch_eq_pong]
    exact ⟨pinged_sends, hlen₂⟩
  · rcases (dispatched_iff hne).mp h.first with hping | h4
    · exact hping pinged_sends
    · exact hlen₁ h4

end Croc.Server
