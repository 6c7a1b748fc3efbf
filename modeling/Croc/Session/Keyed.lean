import Croc.Lib.Tally
import Croc.Session.Spec

/-! The keys of a session. Whatever the peer says, its tasks seal and open chunks under keys that
come out of an exchange with the session's own secret. -/
namespace Croc
open Lib

/-- The role of a session in the key exchange. -/
def Setup.role (c : Setup) : Role := if c.isSender then .reciever else .sender

namespace Session
variable {X : External} {W : World} {c : Setup} {s t : Session X}

/-- A key that was made from the secret and has taken in what the peer sent. -/
inductive FromSecret (X : External) (c : Setup) : X.Pake → Prop where
  | new {pw : Bytes} (seed : ℕ) (hpw : c.secretTail = .ok pw) :
    FromSecret X c (X.newPake c.role (some pw) seed)
  | update {key key' : X.Pake} {q : X.PubKey} (h : FromSecret X c key)
      (hq : X.update key q = .ok key') : FromSecret X c key'

/-- An encrypted session whose key comes from the secret. -/
def Keyed (X : External) (c : Setup) (enc : EncryptedSession) : Prop :=
  ∃ key k salt, FromSecret X c key ∧ X.pakeKey key = some k ∧
    enc = ⟨AesEncryptor.new X k (some salt) salt⟩

/-- The key of the session comes from the secret. -/
def OwnKey (c : Setup) (s : Session X) : Prop := ∀ key, s.key = some key → FromSecret X c key

/-- The key of a session meets `K`, and those that its tasks use meet `P`. -/
structure Uses (K : X.Pake → Prop) (P : EncryptedSession → Prop) (s : Session X) : Prop where
  own : ∀ key, s.key = some key → K key
  rw : ∀ rw, s.rw = some rw → P rw.enc
  readers : ∀ r ∈ s.readers, P r.enc
  encrypting : ∀ job ∈ s.encrypting, P job.enc
  writers : ∀ job ∈ s.writers, P job.enc

/-- All keys of a session, and those of its tasks, come from the secret. -/
abbrev HoldsKeys (c : Setup) (s : Session X) : Prop := Uses (FromSecret X c) (Keyed X c) s

section Exchange

theorem answerKey_own (hs : c.isSender = true) (h : OwnKey c s) (msg : PakeMessage) :
    Post (answerKey W c msg) s (fun _ t => OwnKey c t) (fun _ t => OwnKey c t) := by
  have hrole : c.role = .reciever := if_pos hs
  simp only [answerKey, post_bind, post_get, post_lift, post_modify, post_send, post_ite,
    post_pure, post_throw, orErr_eq_ok, orErr_eq_error, orPake_eq_ok, orPake_eq_error]
  refine ⟨fun _ => h, fun _ => ⟨fun pw hpw => ⟨fun text _ => ⟨fun q _ => ⟨fun key hkey => ?_,
    fun _ _ => h⟩, fun _ _ => h⟩, fun _ _ => h⟩, fun _ _ => h⟩⟩
  have hown : FromSecret X c key := .update (.new (W.seed s.sent.length) hpw) (hrole ▸ hkey)
  exact ⟨fun _ key' hk => Option.some.inj hk ▸ hown, fun _ _ key' hk => Option.some.inj hk ▸ hown⟩

theorem takeKey_own (h : OwnKey c s) (msg : PakeMessage) :
    Post (takeKey (X := X) msg) s (fun _ t => OwnKey c t) (fun _ t => OwnKey c t) := by
  simp only [takeKey, post_bind, post_get]
  cases hold : s.key with
  | none => exact h
  | some old =>
    simp only [post_bind, post_lift, post_modify, orErr_eq_ok, orErr_eq_error, orPake_eq_ok,
      orPake_eq_error]
    refine ⟨fun q _ => ⟨fun key hkey => ?_, fun _ _ => h⟩, fun _ _ => h⟩
    have hown : FromSecret X c key := (h old hold).update hkey
    exact ⟨fun _ _ key' hk => Option.some.inj hk ▸ hown,
      fun _ _ key' hk => Option.some.inj hk ▸ hown⟩

theorem agreeKey_own (h : OwnKey c s) (msg : PakeMessage) :
    Post (agreeKey W c msg) s (fun _ t => OwnKey c t) (fun _ t => OwnKey c t) := by
  rw [agreeKey, post_ite]
  exact ⟨fun hs => answerKey_own hs h msg, fun _ => takeKey_own h msg⟩

theorem enterSession_keyed (h : OwnKey c s) (salt : Block 8) :
    Post (enterSession W c salt) s
      (fun _ t => OwnKey c t ∧ ∃ enc, t.encryptedSession = some enc ∧ Keyed X c enc)
      (fun _ t => OwnKey c t) := by
  simp only [enterSession, post_bind, post_get, post_lift, post_modify, post_ite, post_send]
  refine ⟨fun k hk => ?_, fun _ _ => h⟩
  have hkeyed : Keyed X c ⟨AesEncryptor.new X k (some salt) salt⟩ := by
    unfold sessionKey at hk
    split at hk
    next k' hbind =>
      obtain rfl := Except.ok.inj hk
      obtain ⟨key, hkey, hpake⟩ := Option.bind_eq_some_iff.mp hbind
      exact ⟨key, k', salt, h key hkey, hpake, rfl⟩
    · simp at hk
  exact ⟨fun _ => ⟨h, _, rfl, hkeyed⟩, fun _ => ⟨fun _ => ⟨h, _, rfl, hkeyed⟩, fun _ _ => h⟩⟩

/-- The encrypted session that a key message leaves comes from the secret. -/
theorem onPake_own (h : OwnKey c s) (msg : PakeMessage) :
    Post (onMessage W c (.pake msg)) s
      (fun _ t => OwnKey c t ∧ ∃ enc, t.encryptedSession = some enc ∧ Keyed X c enc)
      (fun _ t => OwnKey c t) := by
  unfold onMessage processKeyExchange
  rw [post_bind, post_bind]
  apply (agreeKey_own h msg).mono _ fun _ _ ht => ht
  intro salt t ht
  apply (enterSession_keyed ht salt).mono _ fun _ _ hu => hu
  rintro _ u ⟨hown, enc, henc, hkeyed⟩
  have hleft : OwnKey c { u with
      rw := some ⟨u.readers.length, enc⟩
      readers := u.readers ++ [⟨enc, [], false⟩] } := hown
  simp only [startFsTask, post_bind, post_modify, henc]
  apply afterMessage_spec.mono
  · rintro p v (⟨-, rfl, -⟩ | ⟨-, -, -, files, -, rfl⟩ | ⟨-, -, -, -, rfl⟩)
    · exact ⟨hleft, enc, rfl, hkeyed⟩
    · exact ⟨hleft, enc, rfl, hkeyed⟩
    · exact ⟨hleft, enc, rfl, hkeyed⟩
  · rintro e v ⟨rfl, -⟩
    exact hleft

end Exchange

section Uses
variable {K K' : X.Pake → Prop} {P : EncryptedSession → Prop}

/-- A step that makes no key and starts no task. -/
theorem Uses.of_same (h : Uses K P s) (hk : t.key = s.key) (hrw : t.rw = s.rw)
    (hr : t.readers = s.readers) (he : t.encrypting = s.encrypting)
    (hw : t.writers = s.writers) : Uses K P t := by
  refine ⟨fun key hkey => h.own key (hk ▸ hkey), ?_, ?_, ?_, ?_⟩
  · rw [hrw]
    exact h.rw
  · rw [hr]
    exact h.readers
  · rw [he]
    exact h.encrypting
  · rw [hw]
    exact h.writers

/-- Before a session has a key. -/
theorem Uses.of_none (hk : ∀ key, s.key = some key → K key) (hrw : s.rw = none)
    (hr : s.readers = []) (he : s.encrypting = []) (hw : s.writers = []) : Uses K P s := by
  refine ⟨hk, fun rw h => ?_, ?_, ?_, ?_⟩
  · rw [hrw] at h
    cases h
  · rw [hr]
    exact List.forall_mem_nil _
  · rw [he]
    exact List.forall_mem_nil _
  · rw [hw]
    exact List.forall_mem_nil _

/-- A key message gives the tasks the key that the exchange has led to. -/
theorem Uses.pake (h : Uses K' P s) {msg : PakeMessage}
    (hpost : Post (onMessage W c (.pake msg)) s
      (fun _ t => (∀ key, t.key = some key → K key) ∧ ∃ enc, t.encryptedSession = some enc ∧ P enc)
      (fun _ t => ∀ key, t.key = some key → K key)) :
    Uses K P (run (onMessage W c (.pake msg)) s) := by
  apply run_of_post
  apply ((onPake_spec msg).and hpost).mono
  · rintro p t ⟨⟨-, key, enc, m, -, -, rfl⟩, hown, enc', henc, hP⟩
    obtain rfl : enc = enc' := Option.some.inj henc
    refine ⟨hown, fun rw hrw => ?_, ?_, h.encrypting, h.writers⟩
    · rw [← Option.some.inj hrw]
      exact hP
    · rw [List.forall_mem_append, List.forall_mem_singleton]
      exact ⟨h.readers, hP⟩
  · rintro e t ⟨⟨-, k, enc, l, -, rfl⟩, hown⟩
    exact ⟨hown, h.rw, h.readers, h.encrypting, h.writers⟩

/-- No other message makes a key. -/
theorem Uses.message (h : Uses K P s) {m : Message} (hm : ∀ msg, m ≠ .pake msg) :
    Uses K P (run (onMessage W c m) s) := by
  cases m with
  | pake msg => exact absurd rfl (hm msg)
  | externalIP msg =>
    apply run_of_post
    apply (onExternalIP_spec msg).mono
    · rintro p t ⟨-, -, ⟨-, rfl⟩ | ⟨-, files, -, rfl⟩⟩
      · exact h.of_same rfl rfl rfl rfl rfl
      · exact h.of_same rfl rfl rfl rfl rfl
    · rintro e t ⟨-, ⟨rfl, -⟩ | ⟨-, -, rfl⟩⟩
      · exact h.of_same rfl rfl rfl rfl rfl
      · exact h.of_same rfl rfl rfl rfl rfl
  | filesInfo files =>
    apply run_onFilesInfo
    · exact fun _ => h.of_same rfl rfl rfl rfl rfl
    · exact fun _ _ => h.of_same rfl rfl rfl rfl rfl
    · intro hs hst
      apply (onFilesInfo_spec hs hst files).mono
      · rintro p t ⟨u, ⟨n, q, l, -, rfl⟩, ⟨-, -, rfl⟩ | ⟨-, -, rfl⟩⟩
        · exact h.of_same rfl rfl rfl rfl rfl
        · exact h.of_same rfl rfl rfl rfl rfl
      · rintro e t ⟨-, u, l', ⟨n, q, l, -, rfl⟩, -, rfl⟩
        exact h.of_same rfl rfl rfl rfl rfl
  | typeRecipientReady msg =>
    apply run_of_post
    apply (onRequest_spec msg).mono
    · rintro p t ⟨rw, files, jobs, -, -, -, -, -, ⟨-, -, rfl⟩ | ⟨-, -, -, -, -, -, -, rfl⟩⟩
      · exact h.of_same rfl rfl rfl rfl rfl
      · exact h.of_same rfl rfl rfl rfl rfl
    · rintro e t ⟨-, n, rfl⟩
      exact h.of_same rfl rfl rfl rfl rfl
  | typeError msg => exact h.of_same rfl rfl rfl rfl rfl
  | finished =>
    apply run_finished
    · exact h.of_same rfl rfl rfl rfl rfl
    · exact fun e => h.of_same rfl rfl rfl rfl rfl

theorem Uses.proceed (h : Uses K P s) {x : Proc X Phase} (hx : proceed W c s = some x) :
    Uses K P (run x s) := by
  rcases proceed_cases hx with ⟨rw, -, rfl⟩ | ⟨rw, job, jobs, -, rfl⟩ | ⟨index, -, rfl⟩ |
    ⟨index, loc, total, got, -, -, rfl⟩
  · apply run_of_post
    apply afterMessage_spec.mono
    · rintro p t (⟨-, rfl, -⟩ | ⟨-, -, -, files, -, rfl⟩ | ⟨-, -, -, -, rfl⟩)
      · exact h.of_same rfl rfl rfl rfl rfl
      · exact h.of_same rfl rfl rfl rfl rfl
      · exact h.of_same rfl rfl rfl rfl rfl
    · rintro e t ⟨rfl, -⟩
      exact h.of_same rfl rfl rfl rfl rfl
  · apply run_handChunk
    · refine ⟨h.own, h.rw, fun r hr => ?_, h.encrypting, h.writers⟩
      cases hid : s.readers[rw.id]? with
      | none =>
        rw [List.modify_eq_self (List.getElem?_eq_none_iff.mp hid)] at hr
        exact h.readers r hr
      | some r' =>
        rw [modify_eq_set_of_some hid] at hr
        rcases List.mem_or_eq_of_mem_set hr with hr | rfl
        · exact h.readers r hr
        · exact h.readers r' (List.mem_of_getElem? hid)
    · exact fun e => h.of_same rfl rfl rfl rfl rfl
  · apply run_of_post
    apply (requestFile_spec index).mono
    · rintro p t (⟨-, -, rfl⟩ | ⟨file, loc, -, -, -, rfl⟩)
      · exact h.of_same rfl rfl rfl rfl rfl
      · exact h.of_same rfl rfl rfl rfl rfl
    · rintro e t ⟨-, rfl | ⟨file, -, n, disk, dests, rfl⟩⟩
      · exact h.of_same rfl rfl rfl rfl rfl
      · exact h.of_same rfl rfl rfl rfl rfl
  · exact h.of_same rfl rfl rfl rfl rfl

/-- The tasks of a session use the keys that they were started with. -/
theorem Background.uses {e : Task} (he : Background s e t) (h : Uses K P s) : Uses K P t := by
  cases he with
  | @read id data enc job queue hr hd =>
    have henc : P enc := h.readers _ (List.mem_of_getElem? hr)
    refine ⟨h.own, h.rw, fun r hr' => ?_, ?_, h.writers⟩
    · rcases List.mem_or_eq_of_mem_set hr' with hr' | rfl
      · exact h.readers r hr'
      · exact henc
    · rw [List.forall_mem_append, List.forall_mem_singleton]
      exact ⟨h.encrypting, henc⟩
  | @readFailed id enc job queue hr =>
    have henc : P enc := h.readers _ (List.mem_of_getElem? hr)
    refine ⟨h.own, h.rw, fun r hr' => ?_, h.encrypting, h.writers⟩
    rcases List.mem_or_eq_of_mem_set hr' with hr' | rfl
    · exact h.readers r hr'
    · exact henc
  | encrypt =>
    exact ⟨h.own, h.rw, h.readers,
      fun job hjob => h.encrypting job (List.mem_of_mem_eraseIdx hjob), h.writers⟩
  | unsent =>
    exact ⟨h.own, h.rw, h.readers,
      fun job hjob => h.encrypting job (List.mem_of_mem_eraseIdx hjob), h.writers⟩
  | write =>
    exact ⟨h.own, h.rw, h.readers, h.encrypting,
      fun job hjob => h.writers job (List.mem_of_mem_eraseIdx hjob)⟩
  | unopened =>
    exact ⟨h.own, h.rw, h.readers, h.encrypting,
      fun job hjob => h.writers job (List.mem_of_mem_eraseIdx hjob)⟩

/-- A step makes no key but where it takes a key message. -/
theorem Uses.step (h : Uses K P s) {e : Event} (he : step W c s e = some t)
    (hpake : ∀ msg, e = .message (.pake msg) → Uses K P t) : Uses K P t := by
  rcases step_cases he with ⟨m, rfl, -, rfl⟩ | ⟨err, rfl, -, rfl⟩ |
    ⟨frame, index, loc, total, got, rfl, -, -, -, rfl⟩ | ⟨rfl, rfl⟩ | ⟨x, rfl, hx, rfl⟩ |
    ⟨t', rfl, ht, he⟩
  · by_cases hm : ∃ msg, m = .pake msg
    · obtain ⟨msg, rfl⟩ := hm
      exact hpake msg rfl
    · exact h.message fun msg heq => hm ⟨msg, heq⟩
  · exact h.of_same rfl rfl rfl rfl rfl
  · apply run_of_post
    apply (takeChunk_spec index loc total got frame).mono
    · rintro p t ⟨-, rw, hrw, rfl⟩
      refine ⟨h.own, h.rw, h.readers, h.encrypting, ?_⟩
      rw [List.forall_mem_append, List.forall_mem_singleton]
      exact ⟨h.writers, h.rw rw hrw⟩
    · rintro e t ⟨-, -, rfl⟩
      exact h.of_same rfl rfl rfl rfl rfl
  · exact h.of_same rfl rfl rfl rfl rfl
  · exact h.proceed hx
  · exact (background_of_stepTask ht he).uses h

end Uses

section Secret

theorem step_holdsKeys (h : HoldsKeys c s) {e : Event} (he : step W c s e = some t) :
    HoldsKeys c t := by
  refine h.step he ?_
  rintro msg rfl
  obtain ⟨-, rfl⟩ := message_of_step he
  exact h.pake (onPake_own h.own msg)

theorem init_holdsKeys : HoldsKeys c (init X W c) := by
  have hnew : OwnKey c (new W : Session X) := fun key hkey => by simp [new] at hkey
  apply run_of_post
  have hown : Post (start W c) (new W : Session X) (fun _ t => OwnKey c t)
      (fun _ t => OwnKey c t) := by
    simp only [start, post_bind, post_lift, post_ite, orErr_eq_ok, orErr_eq_error]
    refine ⟨fun port _ => ⟨fun _ => hnew, fun _ => ?_⟩, fun _ _ => hnew⟩
    split
    · exact hnew
    · simp only [post_bind, post_pure, post_ite, post_lift, post_modify, post_send]
      refine ⟨fun _ => hnew, fun hs => ⟨fun pw hpw => ?_, fun _ _ => hnew⟩⟩
      have hrole : c.role = .sender := if_neg hs
      have hkey : FromSecret X c (X.newPake .sender (some pw) (W.seed 0)) :=
        hrole ▸ FromSecret.new (W.seed 0) hpw
      exact ⟨fun _ key hk => Option.some.inj hk ▸ hkey,
        fun _ _ key hk => Option.some.inj hk ▸ hkey⟩
  apply (start_spec.and hown).mono
  · rintro p t ⟨⟨-, ⟨-, rfl⟩ | ⟨-, key, msg, rfl⟩⟩, ht⟩
    · exact .of_none ht rfl rfl rfl rfl
    · exact .of_none ht rfl rfl rfl rfl
  · rintro e t ⟨⟨-, k, rfl⟩, ht⟩
    exact .of_none ht rfl rfl rfl rfl

end Secret
end Session
end Croc
