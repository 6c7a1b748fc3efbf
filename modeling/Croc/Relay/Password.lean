import Croc.Relay.Pairing

/-! What the password check of the relay is worth: a client is let into a room exactly when the
relay could read a password and a room name from it, whatever the password was. -/
namespace Croc.Server
open Lib

/-- What the relay has read so far from a client that is still negotiating. -/
def NegoOk (cfg : Config) (t : ClientId) (unread : Bytes) : Nego → Prop
  | .peek | .pakeRead => unread = (cfg.client t).input
  | .pong => True
  | .pakeWrite reply k => ∃ msg, CrocProto.read (cfg.client t).input = (.ok msg, unread) ∧
      answerKey cfg t msg = .ok (reply, k)
  | .saltRead k => ∃ msg reply, CrocProto.read (cfg.client t).input = (.ok msg, unread) ∧
      answerKey cfg t msg = .ok (reply, some k)
  | .passwordRead enc => sentSession cfg t = some (enc, unread)
  | .badPasswordWrite enc => ∃ rest password, sentSession cfg t = some (enc, rest) ∧
      readText cfg.ext enc rest = some (password, unread)
  | .bannerWrite enc addr => (cfg.client t).peerAddr = some addr ∧
      ∃ rest password, sentSession cfg t = some (enc, rest) ∧
        readText cfg.ext enc rest = some (password, unread)
  | .roomRead enc => Answerable cfg t ∧ ∃ rest password, sentSession cfg t = some (enc, rest) ∧
      readText cfg.ext enc rest = some (password, unread)

/-- The same for where a step of the negotiation leads. -/
def ProgressOk (cfg : Config) (t : ClientId) (unread : Bytes) : Progress → Prop
  | .next n => NegoOk cfg t unread n
  | .ask name _ => Speaks cfg t name unread
  | .stop _ => True

theorem Conn.write_unread {msg : Bytes} {io : Io} {c c' : Conn} (h : c.write msg io = .ok c') :
    c'.unread = c.unread ∧ msg.length < 2 ^ 32 := by
  unfold Conn.write at h
  obtain ⟨_, hw, h⟩ := bind_eq_ok.mp h
  split at h
  · obtain rfl := Except.ok.inj h
    exact ⟨rfl, (CrocProto.write_eq_ok.mp hw).1⟩
  · simp at h

theorem Conn.send_unread {cfg : Config} {t : ClientId} {enc : EncryptedSession} {msg : Bytes}
    {io : Io} {c c' : Conn} (hX : cfg.ext.WritesShort) (h : c.send cfg t enc msg io = .ok c') :
    c'.unread = c.unread ∧ msg.length + 28 < 2 ^ 32 := by
  obtain ⟨data, he, hw⟩ := bind_eq_ok.mp h
  obtain ⟨sealed, hs, rfl⟩ := AesEncryptor.encrypt_ok.mp he
  obtain ⟨hu, hl⟩ := Conn.write_unread hw
  have hn := ((cfg.client t).nonce c.replies.length).toList_length
  have hlen := hX.sealed_length _ _ _ _ hs
  rw [List.length_append] at hl
  exact ⟨hu, by omega⟩

theorem NegoMove.ok {cfg : Config} {t : ClientId} {c c' : Conn} {n : Nego} {p : Progress}
    (hX : cfg.ext.WritesShort) (h : NegoMove cfg t c n p c') (hn : NegoOk cfg t c.unread n) :
    ProgressOk cfg t c'.unread p := by
  cases h with
  | fail => trivial
  | pong => trivial
  | peekPing => trivial
  | peekOther => exact hn
  | pakeRead hr hk =>
    have hn : c.unread = (cfg.client t).input := hn
    exact ⟨_, hn ▸ hr, hk⟩
  | pakeWrite hw =>
    obtain ⟨msg, hr, hk⟩ := hn
    exact ⟨msg, _, (Conn.write_unread hw).1 ▸ hr, hk⟩
  | saltRead hr =>
    obtain ⟨msg, reply, hread, hk⟩ := hn
    exact sentSession_eq_some.mpr ⟨msg, _, reply, _, hread, hk, hr⟩
  | wrongPassword hr hu =>
    exact ⟨_, _, hn, readText_eq_some.mpr ⟨_, hr, hu⟩⟩
  | rightPassword hr hu he ha =>
    exact ⟨ha, _, _, hn, readText_eq_some.mpr ⟨_, hr, hu⟩⟩
  | badPasswordWrite hw ha =>
    obtain ⟨rest, password, hs, hp⟩ := hn
    exact ⟨ha, rest, password, hs, (Conn.send_unread hX hw).1 ▸ hp⟩
  | bannerWrite hw =>
    obtain ⟨ha, rest, password, hs, hp⟩ := hn
    obtain ⟨hu, hl⟩ := Conn.send_unread hX hw
    exact ⟨⟨_, ha, hl⟩, rest, password, hs, hu ▸ hp⟩
  | roomRead hr hu =>
    obtain ⟨ha, rest, password, hs, hp⟩ := hn
    exact ⟨ha, _, rest, password, _, hs, hp, readText_eq_some.mpr ⟨_, hr, hu⟩⟩

/-- The relay could read a password and a room name from `t`. -/
def Spoke (cfg : Config) (t : ClientId) : Prop := ∃ name data, Speaks cfg t name data

/-- The task has left the negotiation and has not ended. -/
def Pc.asked : Pc → Prop
  | .nego _ | .done _ => False
  | _ => True

structure SpokenInv (cfg : Config) (s : State) : Prop where
  nego : ∀ t n, s.pc t = .nego n → NegoOk cfg t (s.conn t).unread n
  asked : ∀ t, (s.pc t).asked → Spoke cfg t
  joined : ∀ t, Joined s t → Spoke cfg t

theorem spokenInv_start (cfg : Config) : SpokenInv cfg (start cfg) where
  nego t n h := by
    obtain rfl : Nego.peek = n := by simpa [start] using h
    rfl
  asked t h := by simp [start, Pc.asked] at h
  joined t h := by simp [Joined, start] at h

/-- A step of `t` that leaves every unread byte alone, lets nobody in but `t`, and does not lead
back into the negotiation. -/
theorem SpokenInv.keep {cfg : Config} {s s' : State} {t : ClientId} (h : SpokenInv cfg s)
    (hpc : ∀ u, u ≠ t → s'.pc u = s.pc u)
    (hconn : ∀ u, (s'.conn u).unread = (s.conn u).unread) (hn : ∀ n, s'.pc t ≠ .nego n)
    (ha : (s'.pc t).asked → (s.pc t).asked)
    (hj : ∀ u, Joined s' u → Joined s u ∨ (u = t ∧ (s.pc t).asked)) : SpokenInv cfg s' where
  nego u n hu := by
    have hut : u ≠ t := fun he => hn n (he ▸ hu)
    rw [hconn]
    exact h.nego u n (hpc u hut ▸ hu)
  asked u hu := by
    by_cases hut : u = t
    · exact hut ▸ h.asked t (ha (hut ▸ hu))
    · exact h.asked u (hpc u hut ▸ hu)
  joined u hu := by
    rcases hj u hu with hu | ⟨rfl, hu⟩
    · exact h.joined u hu
    · exact h.asked u hu

theorem SpokenInv.nego_step {cfg : Config} {s s' : State} {t : ClientId} {c : Conn} {n : Nego}
    {p : Progress} (h : SpokenInv cfg s) (hpn : s.pc t = .nego n)
    (hp : ProgressOk cfg t c.unread p)
    (hpc : ∀ u, u ≠ t → s'.pc u = s.pc u) (hconn : s'.conn = Function.update s.conn t c)
    (hlog : s'.log = s.log) (hn : ∀ n, s'.pc t = .nego n → p = .next n)
    (ha : (s'.pc t).asked → ∃ name enc, p = .ask name enc) : SpokenInv cfg s' where
  nego u n hu := by
    by_cases hut : u = t
    · subst hut
      obtain rfl := hn n hu
      rw [hconn, Function.update_self]
      exact hp
    · rw [hconn, Function.update_of_ne hut]
      exact h.nego u n (hpc u hut ▸ hu)
  asked u hu := by
    by_cases hut : u = t
    · subst hut
      obtain ⟨name, enc, rfl⟩ := ha hu
      exact ⟨name, _, hp⟩
    · exact h.asked u (hpc u hut ▸ hu)
  joined u hu := h.joined u (by simpa only [Joined, hlog] using hu)

theorem SpokenInv.step {cfg : Config} {s s' : State} {t : ClientId} (hX : cfg.ext.WritesShort)
    (h : SpokenInv cfg s) (hs : Step cfg s t s') : SpokenInv cfg s' := by
  have hne := hs.others
  have hsend : ∀ {enc : EncryptedSession} {msg : Bytes} {io : Io} {c : Conn},
      (s.conn t).send cfg t enc msg io = .ok c →
      ∀ u, (Function.update s.conn t c u).unread = (s.conn u).unread := by
    intro enc msg io c hc u
    by_cases hut : u = t
    · rw [hut, Function.update_self, (Conn.send_unread hX hc).1]
    · rw [Function.update_of_ne hut]
  cases hs with
  | negoNext hpc hn | negoAsk hpc hn | negoStop hpc hn =>
    have hp := (negotiate_move hn).ok hX (h.nego t _ hpc)
    exact h.nego_step hpc hp hne rfl rfl (by simp) (by simp [Pc.asked])
  | refuse hpc hc =>
    exact h.keep hne (hsend hc) (by simp) (by simp [Pc.asked])
      fun u hu => Or.inl (by simpa [Joined] using hu)
  | join hpc hc =>
    refine h.keep hne (hsend hc) (by simp) (by simp [hpc, Pc.asked]) fun u hu => ?_
    refine ((joined_snoc s u _).mp hu).imp_right fun hu => ?_
    exact ⟨by simpa [Note.joins, eq_comm] using hu, by simp [hpc, Pc.asked]⟩
  | create hpc hc =>
    refine h.keep hne (hsend hc) (by simp) (by simp [hpc, Pc.asked]) fun u hu => ?_
    refine ((joined_snoc s u _).mp hu).imp_right fun hu => ?_
    exact ⟨by simpa [Note.joins, eq_comm] using hu, by simp [hpc, Pc.asked]⟩
  | @ping r sender hpc =>
    refine h.keep hne (fun u => ?_) (by simp) (by simp [hpc, Pc.asked]) fun _ => Or.inl
    by_cases hu : u = sender <;> simp [hu]
  | lookup hpc | lookupNone hpc | seeFull hpc | seeSpace hpc | refuseFail hpc | joinFail hpc
  | createFail hpc | find hpc | findNone hpc | startBridge hpc | takePanic hpc | wait hpc
  | endBridge hpc | remove hpc | keepFind hpc | sleepNone hpc | tick hpc | seeFirst hpc
  | seeTaken hpc | pingFail hpc =>
    exact h.keep hne (fun _ => rfl) (by simp) (by simp [hpc, Pc.asked])
      fun u hu => Or.inl (by simpa [Joined] using hu)

/-- Copying reads from clients that have been let in. -/
theorem SpokenInv.pump {cfg : Config} {s s' : State} {t : ClientId} (h : SpokenInv cfg s)
    (hi : SessionInv s) (hp : Pumped s t s') : SpokenInv cfg s' := by
  have heq := hp.eq
  obtain ⟨name, r, receiver, sender, hpc, src, dst, n, hsd, hc⟩ := hp.bridge
  have hsrc : ¬ (s.pc src).unanswered := fun hu => (hi.unanswered src hu).1
    (hi.holds src (.bridge t) ⟨name, r, receiver, sender, hpc, hsd.imp And.left And.left⟩)
  rw [heq]
  refine ⟨fun u m hu => ?_, h.asked, h.joined⟩
  have hus : u ≠ src := by
    rintro rfl
    exact hsrc (by rw [show s.pc u = .nego m from hu]; trivial)
  exact (copy_others hc u).1 hus ▸ h.nego u m hu

theorem reachable_spokenInv {cfg : Config} (hX : cfg.ext.WritesShort) {s : State}
    (h : (machine cfg).Reachable s) : SpokenInv cfg s := by
  refine h.invariant (spokenInv_start cfg) fun s e s' hs hi he => ?_
  obtain ⟨t, hst | hp⟩ := step_cases he
  · exact hi.step hX hst
  · exact hi.pump (reachable_sessionInv hs) hp

/-- The authentication law: only sessions with the right password are stored, and a client with
another one changes neither the map nor a room. -/
structure Authenticated (cfg : Config) : Prop where
  stored : ∀ s, (machine cfg).Reachable s → ∀ r c,
    (s.room r).first = some c ∨ (s.room r).second = some c →
      sentPassword cfg c = some (trim (cfg.password c))
  unchanged : ∀ s, (machine cfg).Reachable s → ∀ c password,
    sentPassword cfg c = some password → password ≠ trim (cfg.password c) →
      ∀ io s', resume cfg s c io = some s' → s'.rooms = s.rooms ∧ s'.room = s.room

theorem Spoke.sentRoom {cfg : Config} {t : ClientId} (h : Spoke cfg t) :
    Answerable cfg t ∧ (∃ password, sentPassword cfg t = some password) ∧
      ∃ name, Server.sentRoom cfg t = some name := by
  obtain ⟨name, data, ha, enc, rest, password, rest', hs, hp, hn⟩ := h
  exact ⟨ha, ⟨password, sentPassword_eq hs hp⟩, name, sentRoom_eq hs hp hn⟩

/-- A task that has not left the negotiation changes no room. -/
theorem Step.rooms_of_not_asked {cfg : Config} {s s' : State} {t : ClientId}
    (hs : Step cfg s t s') (h : ¬ (s.pc t).asked) : s'.rooms = s.rooms ∧ s'.room = s.room := by
  cases hs with
  | negoNext | negoAsk | negoStop => exact ⟨rfl, rfl⟩
  | _ => simp_all [Pc.asked]

/-- The relay authenticates its clients exactly when none that sent a wrong password goes on to
name a room. -/
theorem authenticated_iff {cfg : Config} (hX : cfg.ext.WritesShort) :
    Authenticated cfg ↔ ∀ c password, sentPassword cfg c = some password →
      password ≠ trim (cfg.password c) → Answerable cfg c → sentRoom cfg c = none := by
  constructor
  · intro h c password hp hne ha
    by_contra hr
    obtain ⟨name, hr⟩ := Option.ne_none_iff_exists'.mp hr
    obtain ⟨data, hspeaks⟩ := speaks_of_sentRoom ha hr
    obtain ⟨replies, hs⟩ := (ready_start cfg _ c).create hX (lenient_any cfg) hspeaks rfl
    have hstored := h.stored _ hs 0 c (Or.inl (by simp [start]))
    exact hne (Option.some.inj (hp.symm.trans hstored))
  · intro h
    have key : ∀ c, Spoke cfg c → sentPassword cfg c = some (trim (cfg.password c)) := by
      intro c hc
      obtain ⟨ha, ⟨password, hp⟩, name, hr⟩ := hc.sentRoom
      by_cases he : password = trim (cfg.password c)
      · rw [hp, he]
      · simp [h c password hp he ha] at hr
    refine ⟨fun s hs r c hc => ?_, fun s hs c password hp hne io s' hst => ?_⟩
    · have hi := reachable_sessionInv hs
      have hj : Joined s c := hc.elim (hi.holds c (.first r)) (hi.holds c (.second r))
      exact key c ((reachable_spokenInv hX hs).joined c hj)
    · refine (resume_step hst).rooms_of_not_asked fun hask => hne ?_
      have := key c ((reachable_spokenInv hX hs).asked c hask)
      exact Option.some.inj (hp.symm.trans this)

/-- With clients that send the right password the law holds. -/
theorem authenticated_right_password :
    Authenticated (visited "pass123" fun _ => visitor .main "pass123" "abc" []) := by
  refine (authenticated_iff External.transparent_writesShort).mpr fun c password hp hne _ => ?_
  obtain ⟨enc, rest, rest', hs, hpw, -⟩ := sent_visitor "pass123"
    (fun _ => visitor .main "pass123" "abc" []) (t := c) rfl (by decide +kernel) (by decide +kernel)
  obtain rfl := Option.some.inj ((sentPassword_eq hs hpw).symm.trans hp)
  have htrim : trim "pass123" = "pass123" := by decide +kernel
  exact absurd htrim.symm hne

/-- A client that sends `wrong` and then names a room is stored in it. -/
theorem not_authenticated_wrong_password :
    ¬ Authenticated (visited "pass123" fun _ => visitor .main "wrong" "abc" []) := by
  intro h
  have hspeaks : Speaks (visited "pass123" fun _ => visitor .main "wrong" "abc" []) 0 "abc" [] :=
    visitor_speaks rfl (by decide +kernel) (by decide +kernel)
  obtain ⟨replies, hs⟩ := (ready_start _ _ 0).create External.transparent_writesShort
    (lenient_any _) hspeaks rfl
  have hstored := h.stored _ hs 0 0 (Or.inl (by simp [start]))
  obtain ⟨enc, rest, rest', hss, hpw, -⟩ := sent_visitor "pass123"
    (fun _ => visitor .main "wrong" "abc" []) (t := 0) rfl (by decide +kernel) (by decide +kernel)
  have := Option.some.inj ((sentPassword_eq hss hpw).symm.trans hstored)
  exact absurd this (by decide +kernel)

end Croc.Server
