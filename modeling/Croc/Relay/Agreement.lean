import Croc.Relay.Stages

/-! The passwords for which a client and the relay agree at the end of the negotiation. -/
namespace Croc.Server
open Lib

variable {cfg : Config} {a : Caller} {t : ClientId} {s : State} {d d' : Dialogue}

/-- The relay's invariants and the stage of the two. -/
structure Together (cfg : Config) (a : Caller) (t : ClientId) (d : Dialogue) : Prop where
  rooms : RoomInv d.relay
  sessions : SessionInv d.relay
  inStep : InStep cfg a t d

/-- What happens to others leaves the two at their stage. -/
theorem InStep.unmoved {s' : State} (h : InStep cfg a t d) (hm : Unmoved d.relay s' t) :
    InStep cfg a t { d with relay := s' } := by
  have hl : (s'.conn t).replies.drop d.heard = d.unheard t := by rw [hm.replies]; rfl
  exact ⟨by rw [Dialogue.unheard, hl]; exact h.stage.unmoved hm,
    fun hne => by rw [hm.replies]; exact h.heard hne⟩

/-- The client touches nothing of the relay but its connection. -/
theorem Dialogue.turn_relay (hd : d.turn cfg a t = some d') :
    ∃ conn, d'.relay = { d.relay with conn := conn } := by
  unfold Dialogue.turn at hd
  have hsay : ∀ out next, ∃ conn, (d.say t out next).relay = { d.relay with conn := conn } := by
    intro out next
    cases out <;> exact ⟨_, rfl⟩
  split at hd
  · exact Option.some.inj hd ▸ hsay _ _
  · exact Option.some.inj hd ▸ hsay _ _
  · obtain ⟨data, -, rfl⟩ := Option.map_eq_some_iff.mp hd
    split <;> exact ⟨_, rfl⟩
  · exact Option.some.inj hd ▸ hsay _ _
  · obtain ⟨data, -, rfl⟩ := Option.map_eq_some_iff.mp hd
    exact ⟨_, rfl⟩
  · simp at hd

theorem Together.step (hX : cfg.ext.WritesShort) (hdec : cfg.ext.DecryptInverts)
    (hp : (asBytes a.password).length + 28 < 2 ^ 32 → a.password = trim (cfg.password t))
    (h : Together cfg a t d) {e : Dialogue.Event} (hok : Reliable t d e)
    (hs : Dialogue.step cfg a t d e = some d') : Together cfg a t d' := by
  cases e with
  | client =>
    obtain ⟨conn, hrelay⟩ := Dialogue.turn_relay hs
    exact ⟨hrelay ▸ h.rooms.sockets conn, hrelay ▸ h.sessions.sockets conn, h.inStep.turn hs⟩
  | relay e =>
    obtain ⟨s', hstep, rfl⟩ := Option.map_eq_some_iff.mp hs
    cases e with
    | resume u io =>
      have hmove := resume_step hstep
      refine ⟨h.rooms.step hmove, h.sessions.step h.rooms hmove, ?_⟩
      by_cases hmine : t = u ∧ (d.relay.pc u).unanswered
      · obtain ⟨rfl, hun⟩ := hmine
        exact h.inStep.resume hX hdec h.sessions hp hok hun hstep
      · exact h.inStep.unmoved (hmove.unmoved fun htu hun => hmine ⟨htu, hun⟩)
    | pump u b n =>
      have hmove := pump_pumped hstep
      have hrelay := hmove.eq
      exact ⟨hrelay ▸ h.rooms.sockets _, hrelay ▸ h.sessions.sockets _,
        h.inStep.unmoved (hmove.unmoved h.sessions)⟩

theorem Calls.together (h : Calls cfg a t s) : Together cfg a t (Dialogue.start t s) where
  rooms := reachable_roomInv h.reachable
  sessions := reachable_sessionInv h.reachable
  inStep := by
    refine ⟨?_, fun _ => le_rfl⟩
    rw [Dialogue.unheard, Dialogue.start, List.drop_length]
    exact .salt h.pc h.unread

theorem GaveUp.eq {h : Halt} (hh : GaveUp h) :
    (∀ name, h ≠ .err (.roomFull name)) ∧ (∀ message, h ≠ .err (.badResponse message)) ∧
      h ≠ .err .roomNegotiationFailed := by
  rcases hh with rfl | rfl | rfl <;> simp

/-- A client that has had no answer has not returned, or has given up. -/
theorem Agree.of_unanswered (hj : ¬ Joined d.relay t) (hr : .refused t ∉ d.relay.log)
    (hn : ∀ name, d.relay.pc t ≠ .findRooms name)
    (hc : ∀ r, d.call = .done r → ∃ h, GaveUp h ∧ r = .error h) : Agree cfg a t d where
  ok h := by
    obtain ⟨_, -, he⟩ := hc _ h
    simp at he
  joined h := absurd h hj
  named name h := absurd h (hn name)
  full name h := by
    obtain ⟨_, hh, he⟩ := hc _ h
    exact absurd (Except.error.inj he).symm (hh.eq.1 name)
  refused h := absurd h hr
  response message h := by
    obtain ⟨_, hh, he⟩ := hc _ h
    exact hh.eq.2.1 message (Except.error.inj he).symm
  negotiation h := by
    obtain ⟨_, hh, he⟩ := hc _ h
    exact hh.eq.2.2 (Except.error.inj he).symm
  answer h := (h.elim hj hr).elim

/-- At every stage the two agree on what has become of the client so far. -/
theorem Together.agree (h : Together cfg a t d) : Agree cfg a t d := by
  obtain ⟨-, hi, ⟨hst, -⟩⟩ := h
  generalize hl : d.unheard t = l at hst
  generalize hc : d.call = c at hst
  have early : (d.relay.pc t).unanswered → (∀ r, c = .done r → ∃ h, GaveUp h ∧ r = .error h) →
      Agree cfg a t d := fun hun hdone =>
    .of_unanswered (hi.unanswered t hun).1 (hi.unanswered t hun).2
      (fun name hpc => by simp [hpc, Pc.unanswered] at hun) (hc ▸ hdone)
  cases hst with
  | salt hpc => exact early (by simp [hpc, Pc.unanswered]) (by simp)
  | salted h => exact early h.unanswered (by simp)
  | password h => exact early h.unanswered (by simp)
  | banner hpc => exact early (by simp [hpc, Pc.unanswered]) (by simp)
  | info h => exact early h.unanswered (by simp)
  | greeted h => exact early h.unanswered (by simp)
  | room h => exact early h.unanswered (by simp)
  | asking h => exact early (Pc.unanswered_of_asks h) (by simp)
  | @hungUp h hpc hh =>
    have hdone : ∀ r, Call.done (.error h) = .done r → ∃ h, GaveUp h ∧ r = .error h :=
      fun r hr => ⟨h, hh, (Call.done.inj hr).symm⟩
    exact hpc.elim (fun hp => early hp.unanswered hdone) fun hp => early hp.unanswered hdone
  | failed hpc hj hr hcall =>
    refine .of_unanswered hj hr (by simp [hpc]) fun r hdone => ?_
    rcases hcall with rfl | ⟨h, hh, rfl⟩
    · simp [hc] at hdone
    · exact ⟨h, hh, (Call.done.inj (hc.symm.trans hdone)).symm⟩
  | joined hj hun hn ht =>
    have hturn : (d.turn cfg a t).isSome := by
      simp [Dialogue.turn, hc, Dialogue.hear_of_tells hl ht]
    exact ⟨by simp [hc], fun _ => by simp [hc], hn, by simp [hc], fun _ => by simp [hc],
      by simp [hc], by simp [hc], fun _ => Or.inr hturn⟩
  | welcomed hj hun hn =>
    exact ⟨fun _ => ⟨hj, hi.kept t hj⟩, fun _ r hr => (Call.done.inj (hc.symm.trans hr)).symm, hn,
      by simp [hc], fun hr => absurd hj (hi.refused t hr), by simp [hc], by simp [hc],
      fun _ => Or.inl ⟨_, hc⟩⟩
  | refused hr hpc ht =>
    have hturn : (d.turn cfg a t).isSome := by
      simp [Dialogue.turn, hc, Dialogue.hear_of_tells hl ht]
    exact ⟨by simp [hc], fun _ => by simp [hc], by simp [hpc], by simp [hc], fun _ => by simp [hc],
      by simp [hc], by simp [hc], fun _ => Or.inr hturn⟩
  | turnedAway hr hpc =>
    exact ⟨by simp [hc], fun hj => absurd hj (hi.refused t hr), by simp [hpc], fun _ _ => hr,
      fun _ r he => (Call.done.inj (hc.symm.trans he)).symm, by simp [hc], by simp [hc],
      fun _ => Or.inl ⟨_, hc⟩⟩

/-- With a password that is its own trimmed self, or that never gets to the relay, the two agree
whatever happens. -/
theorem Calls.agree (hX : cfg.ext.WritesShort) (hdec : cfg.ext.DecryptInverts)
    (h : Calls cfg a t s)
    (hp : trim a.password = a.password ∨ 2 ^ 32 ≤ (asBytes a.password).length + 28)
    (hd : (Dialogue.machine cfg a t s).ReachableBy (Reliable t) d) : Agree cfg a t d := by
  have hown : (asBytes a.password).length + 28 < 2 ^ 32 → a.password = trim (cfg.password t) := by
    intro hlt
    rw [← h.password]
    exact (hp.resolve_right (by omega)).symm
  have htogether : Together cfg a t d := hd.invariant (P := Together cfg a t) h.together
    fun _ _ _ _ hi hok hs => hi.step hX hdec hown hok hs
  exact htogether.agree

/-- The relay's task has got to `n` with connection `c`, and nobody else has moved. -/
def Dialogue.at (s : State) (t : ClientId) (n : Nego) (c : Conn) (call : Call) (heard : ℕ) :
    Dialogue := ⟨negoAt s t n c, call, heard, none⟩

theorem State.follow_conn (c : Conn) (p : Progress) : (s.follow t c p).conn t = c := by
  cases p <;> simp [State.follow]

section Reach
variable {s₀ : State} {n n' : Nego} {c c' : Conn} {call next : Call} {heard : ℕ}
  {bytes : Bytes} {replies : List Bytes} {live : List Live}

theorem reach_say (h : (Dialogue.machine cfg a t s₀).ReachableBy (Reliable t)
      (.at s t n ⟨[], replies, live⟩ call heard))
    (hd : ∀ d : Dialogue, d.call = call → d.turn cfg a t = some (d.say t (.ok bytes) next)) :
    (Dialogue.machine cfg a t s₀).ReachableBy (Reliable t)
      (.at s t n ⟨bytes, replies, live⟩ next heard) := by
  have h' := h.step (e := Dialogue.Event.client) trivial (hd _ rfl)
  have he : (Dialogue.at s t n ⟨[], replies, live⟩ call heard).say t (.ok bytes) next =
      .at s t n ⟨bytes, replies, live⟩ next heard := by
    simp [Dialogue.at, Dialogue.say, negoAt]
  rwa [he] at h'

theorem reach_follow {p : Progress}
    (h : (Dialogue.machine cfg a t s₀).ReachableBy (Reliable t) (.at s t n c call heard))
    (hread : n.reads → ∃ msg rest, CrocProto.read c.unread = (.ok msg, rest))
    (hn : negotiate cfg t Io.fine c n = some (p, c')) :
    (Dialogue.machine cfg a t s₀).ReachableBy (Reliable t)
      ⟨(negoAt s t n c).follow t c' p, call, heard, none⟩ := by
  refine h.step (e := .relay (.resume t Io.fine)) (fun _ _ _ => ⟨rfl, fun m hm hr => ?_⟩) ?_
  · obtain rfl : n = m := by simpa [Dialogue.at, negoAt] using hm
    simpa [Dialogue.at, negoAt] using hread hr
  · cases p <;>
      simp [Dialogue.machine, Dialogue.step, Dialogue.at, Server.step, resume, negoAt, hn,
        State.follow]

theorem reach_next
    (h : (Dialogue.machine cfg a t s₀).ReachableBy (Reliable t) (.at s t n c call heard))
    (hread : n.reads → ∃ msg rest, CrocProto.read c.unread = (.ok msg, rest))
    (hn : negotiate cfg t Io.fine c n = some (.next n', c')) :
    (Dialogue.machine cfg a t s₀).ReachableBy (Reliable t) (.at s t n' c' call heard) := by
  have h' := reach_follow h hread hn
  have he : (negoAt s t n c).follow t c' (.next n') = negoAt s t n' c' := by
    simp [State.follow, negoAt]
  rwa [he] at h'

end Reach

/-- What the relay says of a wrong password is no info message. -/
theorem hearInfo_badPassword : Caller.hearInfo (.ok (asBytes "bad password")) =
    .error (.err (.badResponse "bad password")) := by
  have hparse : parseInfo "bad password" = none := by decide +kernel
  simp [Caller.hearInfo, bind, Except.bind, fromUtf8_asBytes, hparse]

/-- A password with blanks around it is refused by the relay that it was taken from. -/
theorem Calls.exists_badResponse (hX : cfg.ext.WritesShort) (hdec : cfg.ext.DecryptInverts)
    (h : Calls cfg a t s) (hp : trim a.password ≠ a.password)
    (hlen : (asBytes a.password).length + 28 < 2 ^ 32) :
    ∃ d, (Dialogue.machine cfg a t s).ReachableBy (Reliable t) d ∧
      d.call = .done (.error (.err (.badResponse "bad password"))) := by
  rcases hc : s.conn t with ⟨unread, replies, live⟩
  obtain rfl : unread = [] := by simpa [hc] using h.unread
  have h0 : (Dialogue.machine cfg a t s).ReachableBy (Reliable t)
      (.at s t (.saltRead a.symKey) ⟨[], replies, live⟩ .writeSalt replies.length) := by
    have hstart : Dialogue.start t s =
        .at s t (.saltRead a.symKey) ⟨[], replies, live⟩ .writeSalt replies.length := by
      rw [Dialogue.start, Dialogue.at, negoAt, ← hc, ← h.pc, hc]
      simp [← hc]
    exact hstart ▸ Machine.ReachableBy.init
  obtain ⟨bytes, hbytes⟩ := Caller.exists_sealed (a := a) (i := 0) hX hlen
  obtain ⟨-, hframe, hread⟩ := Caller.sealed_ok hX hdec hbytes
  have hsalt : CrocProto.write a.salt.toList = .ok (frame a.salt.toList) :=
    CrocProto.write_eq_ok.mpr ⟨by rw [a.salt.toList_length]; norm_num, rfl⟩
  have hframe₀ : CrocProto.read (frame a.salt.toList ++ []) = (.ok a.salt.toList, []) :=
    CrocProto.read_frame (by rw [a.salt.toList_length]; norm_num) []
  have hnew := @newReciever_salt cfg a (cfg.client t).rnd []
  rw [List.append_nil] at hframe₀ hnew
  have h1 : (Dialogue.machine cfg a t s).ReachableBy (Reliable t) (.at s t (.saltRead a.symKey)
      ⟨frame a.salt.toList, replies, live⟩ .writePassword replies.length) :=
    reach_say h0 fun d hd => by rw [Dialogue.turn, hd]; simp only [hsalt]
  have h2 : (Dialogue.machine cfg a t s).ReachableBy (Reliable t)
      (.at s t (.passwordRead (a.session cfg.ext)) ⟨[], replies, live⟩
        .writePassword replies.length) :=
    reach_next h1 (fun _ => ⟨_, _, hframe₀⟩) (by simp [negotiate, recv, Io.fine, hnew])
  have h3 : (Dialogue.machine cfg a t s).ReachableBy (Reliable t)
      (.at s t (.passwordRead (a.session cfg.ext)) ⟨bytes, replies, live⟩
        .readInfo replies.length) :=
    reach_say h2 fun d hd => by rw [Dialogue.turn, hd]; simp only [hbytes]
  have hne : a.password ≠ trim (cfg.password t) := h.password ▸ hp.symm
  have h4 : (Dialogue.machine cfg a t s).ReachableBy (Reliable t) (.at s t
      (.badPasswordWrite (a.session cfg.ext)) ⟨[], replies, live⟩ .readInfo replies.length) :=
    reach_next h3 (fun _ => hframe)
      (by simp [negotiate, recv, Io.fine, hread, fromUtf8_asBytes, hne])
  obtain ⟨_, hd⟩ := Conn.send_ok hX t (asBytes "bad password") (by decide +kernel)
    (a.session cfg.ext) ⟨[], replies, live⟩
  obtain ⟨data, hsend, ht⟩ := Conn.send_tells hdec hd
  -- whether or not the relay still knows the address of the client
  have hn : negotiate cfg t Io.fine ⟨[], replies, live⟩ (.badPasswordWrite (a.session cfg.ext)) =
      some (afterPassword cfg t (a.session cfg.ext), ⟨[], replies ++ [data], live⟩) := by
    simp [negotiate, hd, hsend]
  obtain ⟨d, hreach, hcall, hl⟩ : ∃ d, (Dialogue.machine cfg a t s).ReachableBy (Reliable t) d ∧
      d.call = .readInfo ∧ d.unheard t = [data] := by
    refine ⟨_, reach_follow h4 (fun hr => hr.elim) hn, rfl, ?_⟩
    rw [Dialogue.unheard, State.follow_conn, List.drop_left]
  have hturn : d.turn cfg a t = some { d with
      call := .done (.error (.err (.badResponse "bad password"))), heard := d.heard + 1 } := by
    rw [Dialogue.turn, hcall]
    simp only [Dialogue.hear_of_tells hl ht, Option.map_some, hearInfo_badPassword]
  exact ⟨_, hreach.step (e := Dialogue.Event.client) trivial hturn, rfl⟩

/-- The client and the relay agree in every dialogue exactly when the password is its own trimmed
self, or too long to be sent. -/
theorem agree_iff (hX : cfg.ext.WritesShort) (hdec : cfg.ext.DecryptInverts)
    (h : Calls cfg a t s) :
    (∀ d, (Dialogue.machine cfg a t s).ReachableBy (Reliable t) d → Agree cfg a t d) ↔
      trim a.password = a.password ∨ 2 ^ 32 ≤ (asBytes a.password).length + 28 := by
  constructor
  · intro hagree
    by_contra hp
    push Not at hp
    obtain ⟨d, hd, hcall⟩ := h.exists_badResponse hX hdec hp.1 hp.2
    exact (hagree d hd).response _ hcall
  · exact fun hp d hd => h.agree hX hdec hp hd

/-- A connection that has sent its public key to a relay with this password. -/
def knocked (password : String) : Config :=
  visited password fun _ => { visitor .main password "abc" [] with input := frame (asBytes "{}") }

def knocker (password : String) : Caller :=
  ⟨External.padBlock 32 [], password, "abc", External.padBlock 8 [],
    fun _ => External.padBlock 12 []⟩

theorem exists_calls (password : String) :
    ∃ s, Calls (knocked password) (knocker password) 0 s := by
  have hread : CrocProto.read (frame (asBytes "{}") ++ []) = (.ok (asBytes "{}"), []) :=
    CrocProto.read_frame (by decide +kernel) []
  rw [List.append_nil] at hread
  have hk : answerKey (knocked password) 0 (asBytes "{}") =
      .ok (asBytes "{}", some (External.padBlock 32 [])) := by
    simp [answerKey, knocked, visited, External.transparent, bind, Except.bind, pure, Except.pure]
  have h := reach_salt (s := start (knocked password)) External.transparent_writesShort
    (lenient_any _)
    .init rfl rfl hread hk
  exact ⟨_, h, by simp [negoAt, knocker], by simp [negoAt], rfl⟩

/-- With a plain password the client and the relay agree. -/
theorem agree_plain : ∃ s, Calls (knocked "pass123") (knocker "pass123") 0 s ∧
    ∀ d, (Dialogue.machine (knocked "pass123") (knocker "pass123") 0 s).ReachableBy (Reliable 0) d →
      Agree (knocked "pass123") (knocker "pass123") 0 d := by
  obtain ⟨s, h⟩ := exists_calls "pass123"
  exact ⟨s, h, (agree_iff External.transparent_writesShort
    External.transparent_decryptInverts h).mpr
    (Or.inl (by decide +kernel))⟩

/-- The password of the relay starts with a blank, and the client gives it as it is. -/
theorem not_agree_blank : ∃ s, Calls (knocked " pass123") (knocker " pass123") 0 s ∧
    ¬ ∀ d, (Dialogue.machine (knocked " pass123") (knocker " pass123") 0 s).ReachableBy
      (Reliable 0) d → Agree (knocked " pass123") (knocker " pass123") 0 d := by
  obtain ⟨s, h⟩ := exists_calls " pass123"
  obtain ⟨d, hd, hcall⟩ := h.exists_badResponse External.transparent_writesShort
    External.transparent_decryptInverts (by decide +kernel) (by decide +kernel)
  exact ⟨s, h, fun hagree => (hagree d hd).response _ hcall⟩

end Croc.Server
