import Croc.Session.Delivery
import Croc.Session.Wired

/-! An honest session over the bridge of a relay, down to the end of its connections: the bridge is
not lost before both ends have returned, and every file is delivered. -/
namespace Croc
open Lib

namespace Session
variable {X : External} {W : World} {c : Setup} {s t : Session X}

/-- A session that is over says no more. -/
theorem over_of_step {r : Except Halt Unit} (hp : s.phase = .ended r) {e : Event}
    (he : step W c s e = some t) : t.phase = .ended r ∧ t.sent = s.sent := by
  rcases step_cases he with ⟨m, -, hp', -⟩ | ⟨err, -, hp', -⟩ |
    ⟨frame, index, loc, total, got, -, hp', -⟩ | ⟨-, rfl⟩ | ⟨x, -, hx, -⟩ | ⟨t', -, htick, he⟩
  · simp [hp] at hp'
  · simp [hp] at hp'
  · simp [hp] at hp'
  · exact ⟨hp, rfl⟩
  · simp [proceed, hp] at hx
  · obtain ⟨readers, encrypting, dataSent, writers, written, disk, rfl⟩ :=
      stepTask_background htick he
    exact ⟨hp, rfl⟩

end Session

theorem utf8Size_sum_le (cs : List Char) : (cs.map Char.utf8Size).sum ≤ 4 * cs.length := by
  induction cs with
  | nil => exact Nat.le_refl 0
  | cons c cs ih =>
    have := c.utf8Size_le_four
    rw [List.map_cons, List.sum_cons, List.length_cons]
    omega

/-- A number of 64 bits has no more than twenty characters. -/
theorem intChars_length_le (n : Int64) : (intChars n.toInt).length ≤ 20 := by
  have hlt := n.toInt_lt
  have hle := n.le_toInt
  cases hn : n.toInt with
  | ofNat k =>
    rw [hn, Int.ofNat_eq_natCast] at hlt
    exact (Nat.length_toDigits_le_iff (by omega) (by omega)).mpr (by omega)
  | negSucc k =>
    rw [hn] at hle
    have hdigits : (Nat.toDigits 10 (k + 1)).length ≤ 19 :=
      (Nat.length_toDigits_le_iff (by omega) (by omega)).mpr (by omega)
    exact Nat.succ_le_succ hdigits

/-- Requests fit frames. -/
theorem Session.fileRequest_short (i : ℕ) : (fileRequest i).payload.length < 2 ^ 32 := by
  have hle := intChars_length_le (Int64.ofNat i)
  have hkeys : (quoted "t").length + (quoted "recipientready").length +
      (quoted "CurrentFileChunkRanges").length + (quoted "FilesToTransferCurrentNum").length +
      (quoted "MachineID").length + (quoted "").length < 100 := by decide +kernel
  rw [Message.payload_length]
  refine (utf8Size_sum_le _).trans_lt ?_
  simp only [Message.toJson, Message.tag, Message.fields, fileRequest, RemoteFileRequest.fields,
    Json.chars, Json.fieldChars, List.length_cons, List.length_append, List.length_nil,
    List.map_nil]
  omega

namespace Pair
open Session
variable {X : External} {M : Meeting} {p p' : Pair X} {x : Exchange X M}
  {files : FilesInformation} {list : List FileInfo} {source : ℕ → Bytes}

/-- An honest session, from its start. -/
structure GoesWell (x : Exchange X M) (files : FilesInformation) (list : List FileInfo)
    (p : Pair X) : Prop where
  account : ∃ n, Account x files list p n
  sender : ∀ m ∈ p.sender.sent, m ∈ (x.offeringSender files).sent ∨ m = .finished

theorem goesWell_init (hM : M.Honest files list) : GoesWell x files list (init X M) := by
  refine ⟨⟨_, Or.inl ⟨x.opening_init hM, rfl⟩⟩, fun m hm => ?_⟩
  rw [x.init_eq hM.connected] at hm
  exact absurd hm List.not_mem_nil

theorem opening_said (h : x.Opening files p) : ∀ m ∈ p.sender.sent,
    m ∈ (x.offeringSender files).sent := by
  cases h with
  | started => exact fun m hm => absurd hm List.not_mem_nil
  | answered | agreed => exact fun m hm => List.mem_append_left _ hm
  | offered | introduced => exact fun m hm => hm

theorem GoesWell.step (hJ : X.KeyJsonRoundTrip) (hX : X.DecryptInverts) (hW : X.WritesShort)
    (hM : M.Honest files list) {total : Int64}
    (htotal : files.totalSize M.receiverWorld.overflowChecks = some total)
    (h : GoesWell x files list p) {e : Event} (hok : Smooth p e) (he : Pair.step M p e = some p') :
    GoesWell x files list p' := by
  obtain ⟨⟨n, haccount⟩, hsaid⟩ := h
  refine ⟨⟨n + 1, haccount.step hJ hX hW hM htotal hok he⟩, ?_⟩
  rcases haccount with ⟨hopen, -⟩ | ⟨hproceeds, -⟩
  · rcases hopen.step hJ hM hok he with hopen' | rfl
    · exact fun m hm => Or.inl (opening_said hopen' m hm)
    · exact fun m hm => Or.inl hm
  · cases (hproceeds.step hX hW hM hok he).2 with
    | last =>
      rw [List.forall_mem_append, List.forall_mem_singleton]
      exact ⟨hsaid, Or.inr rfl⟩
    | _ => exact hsaid

/-- What the receiver says after the offer are requests, and that it has finished. -/
theorem Talk.said {n q : ℕ} {hello : List Message} (h : Talk n hello q p) : ∃ r tail,
    p.receiver.sent = Pair.said hello r tail ∧ ∀ m ∈ tail, m = .finished := by
  cases h with
  | next r _ ha => exact ⟨r, [], ha.said, List.forall_mem_nil _⟩
  | chunks i _ _ _ _ ha => exact ⟨i + 1, [], ha.said, List.forall_mem_nil _⟩
  | asked _ ha => exact ⟨n, _, ha.said, by simp⟩
  | answered _ ha => exact ⟨n, _, ha.said, by simp⟩
  | returned _ ha => exact ⟨n, _, ha.said, by simp⟩

/-- The messages of an honest session fit frames if those of its opening do. -/
theorem GoesWell.short (h : GoesWell x files list p)
    (hs : Wired.Short (x.offeringSender files).sent)
    (hr : Wired.Short x.keyedReceiver.sent) : Wired.Short p.sender.sent ∧
      Wired.Short p.receiver.sent := by
  have hfinished : Message.finished.payload.length < 2 ^ 32 := by decide +kernel
  refine ⟨fun m hm => ?_, ?_⟩
  · rcases h.sender m hm with hm | rfl
    · exact hs m hm
    · exact hfinished
  · obtain ⟨n, ⟨hopen, -⟩ | ⟨⟨⟨q, seen, hserves⟩, -⟩, -⟩⟩ := h.account
    · cases hopen with
      | started | answered => exact fun m hm => hr m (List.mem_append_left _ hm)
      | agreed | offered | introduced => exact hr
    · obtain ⟨r, tail, hsaid, htail⟩ := hserves.talk.said
      rw [hsaid]
      intro m hm
      rcases List.mem_append.mp hm with hm | hm
      · rcases List.mem_append.mp hm with hm | hm
        · exact hr m hm
        · obtain ⟨i, -, rfl⟩ := List.mem_map.mp hm
          exact fileRequest_short i
      · exact htail m hm ▸ hfinished

/-- If the sender has returned with something left to hear, the receiver has returned too. -/
theorem GoesWell.receiver_over (h : GoesWell x files list p) {r : Except Halt Unit}
    (hp : p.sender.phase = .ended r) (hlt : p.toSender < p.receiver.sent.length) :
    p.receiver.phase = .ended (.ok ()) := by
  obtain ⟨n, ⟨hopen, -⟩ | ⟨⟨⟨q, seen, hserves⟩, hheard⟩, -⟩⟩ := h.account
  · exact absurd ((opening_quiet hopen).1.phase.symm.trans hp) (by simp)
  · have hserving := hserves.supplies.phase
    rw [hp] at hserving
    cases hserving
    have hall := hheard hp
    cases hserves.talk with
    | next _ _ ha | chunks _ _ _ _ _ ha | asked _ ha => exact absurd hp ha.goesOn
    | answered _ ha =>
      rw [ha.said, said, List.length_append, List.length_append, List.length_map,
        List.length_range, List.length_singleton] at hlt
      omega
    | returned hr => exact hr

/-- A receiver that has returned has heard everything. -/
theorem GoesWell.heard (h : GoesWell x files list p) {r : Except Halt Unit}
    (hp : p.receiver.phase = .ended r) : p.sender.sent.length = p.toReceiver := by
  obtain ⟨n, ⟨hopen, -⟩ | ⟨⟨⟨q, seen, hserves⟩, -⟩, -⟩⟩ := h.account
  · exact absurd ((opening_quiet hopen).2.1.phase.symm.trans hp) (by simp)
  · cases hserves.talk with
    | next _ hr | chunks _ _ _ _ hr | asked hr | answered hr =>
      exact absurd (hr.symm.trans hp) (by simp)
    | returned _ _ hlen => exact hlen

end Pair

namespace Wired
open Session Server
variable {X : External} {M : Meeting} {parse : String → Option Message} {w w' : Wired X}
  {p p' : Pair X} {x : Exchange X M} {files : FilesInformation} {list : List FileInfo}
  {source : ℕ → Bytes} {y z : Side}

/-- Steps in which nothing fails but what the end of a connection makes fail: a write to an end that
has returned. -/
def Faithful (source : ℕ → Bytes) (w : Wired X) : Event → Prop
  | .task .a (.read id data) => Pair.ReadsSource source (w.session .a) id data
  | .task .b (.write k done) => WritesAll X done (w.session .b).writers[k]?
  | .task _ t => t.Succeeds
  | .copy _ .readFails => False
  | .copy y .writeFails => w.closed y.other = true
  | .copy _ _ | .recv _ | .deliver _ => True
  | .recvFailed _ _ | .lose _ | .keepalive | .dataClosed => False

theorem closed_iff : w.closed y = true ↔ ∃ r, (w.session y).phase = .ended r := by
  unfold closed
  cases (w.session y).phase <;> simp

/-- The bridge is up as long as an end goes on, and its loops have left nothing behind. -/
structure Upright (w : Wired X) : Prop where
  up : w.bridge.result = none ∨ ∀ y, w.closed y = true
  returned : ∀ y, (w.bridge.loop y).pc = .returned →
    w.closed y = true ∧ (w.bridge.loop y).unread = []
  failed : w.bridge.result = none → ∀ y, (w.bridge.loop y).pc ≠ .failed
  filled : ∀ y, (w.bridge.loop y).pc ≠ .writeAll []

theorem upright_init : Upright (init X M) where
  up := Or.inl rfl
  returned y h := by cases h
  failed _ y h := by cases h
  filled y h := by cases h

/-- What is said goes to sockets of loops that read on. -/
theorem Upright.say (h : Upright w) {e : Session.Event} {s : Session X}
    (hs : w.stepSession M y e = some s) : Upright (w.say y s) := by
  have hclosed : ∀ z, w.closed z = true → (w.say y s).closed z = true := by
    intro z hz
    obtain ⟨r, hr⟩ := closed_iff.mp hz
    refine closed_iff.mpr ⟨r, ?_⟩
    by_cases hzy : z = y
    · subst hzy
      simpa [Wired.say] using (over_of_step hr hs).1
    · simpa [Wired.say, hzy] using hr
  have hpc : ∀ z, ((w.say y s).bridge.loop z).pc = (w.bridge.loop z).pc := by
    intro z
    by_cases hzy : z = y
    · subst hzy
      simp [Wired.say, Bridge.feed]
    · simp [Wired.say, Bridge.feed, hzy]
  refine ⟨h.up.imp id fun hall z => hclosed z (hall z), fun z hz => ?_, fun hnone z => ?_,
    fun z => ?_⟩
  · rw [hpc] at hz
    obtain ⟨hover, hunread⟩ := h.returned z hz
    refine ⟨hclosed z hover, ?_⟩
    by_cases hzy : z = y
    · subst hzy
      obtain ⟨r, hr⟩ := closed_iff.mp hover
      have hsent := (over_of_step hr hs).2
      simpa [Wired.say, Bridge.feed, hsent, stream, CrocProto.frames] using hunread
    · simpa [Wired.say, Bridge.feed, hzy] using hunread
  · rw [hpc]
    exact h.failed hnone z
  · rw [hpc]
    exact h.filled z

/-- A bridge is over when a loop has failed or both have returned. -/
theorem bridge_over {feed : Side → Feed} {b b' : Bridge} {e : Side × CopyEvent}
    (he : b.step feed e = some b') (hover : b'.result ≠ none) :
    (∃ z, (b'.loop z).pc = .failed) ∨ ∀ z, (b'.loop z).pc = .returned := by
  obtain ⟨hresult, he⟩ := Option.ite_none_right_eq_some.mp he
  obtain ⟨l, -, rfl⟩ := Option.map_eq_some_iff.mp he
  unfold Bridge.join at hover ⊢
  split at hover
  next hfailed =>
    rw [if_pos hfailed]
    rcases hfailed with hfailed | hfailed
    exacts [Or.inl ⟨.a, hfailed⟩, Or.inl ⟨.b, hfailed⟩]
  next hfailed =>
    split at hover
    next hboth =>
      rw [if_neg hfailed, if_pos hboth]
      refine Or.inr fun z => ?_
      cases z
      exacts [hboth.1, hboth.2]
    · exact absurd hresult hover

/-- What a step of a loop leaves. A write that fails had something to write. -/
theorem loop_after {l l' : CopyLoop} {ends : Bool} {e : CopyEvent} (hl : l.step ends e = some l')
    (hfilled : l.pc ≠ .writeAll []) (he : e ≠ .readFails) : l'.pc ≠ .writeAll [] ∧
      (l'.pc = .returned → ends = true ∧ l'.unread = []) ∧ (l'.pc = .failed → e = .writeFails) ∧
      l'.work < l.work := by
  cases e with
  | read n =>
    simp only [CopyLoop.step] at hl
    split at hl
    next hpc =>
      obtain ⟨⟨hpos, -, hlen⟩, hl⟩ := Option.ite_none_right_eq_some.mp hl
      obtain rfl := Option.some.inj hl
      refine ⟨fun hnil => ?_, by simp, by simp, ?_⟩
      · have hzero := congrArg List.length (CopyPc.writeAll.inj hnil)
        rw [List.length_take, List.length_nil] at hzero
        omega
      · simp only [CopyLoop.work, CopyLoop.held, hpc, List.length_take, List.length_drop]
        simp
        omega
    · cases hl
  | eof =>
    simp only [CopyLoop.step] at hl
    split at hl
    next hpc =>
      obtain ⟨⟨hunread, hends⟩, hl⟩ := Option.ite_none_right_eq_some.mp hl
      obtain rfl := Option.some.inj hl
      refine ⟨by simp, fun _ => ⟨hends, hunread⟩, by simp, ?_⟩
      simp [CopyLoop.work, CopyLoop.held, hpc]
    · cases hl
  | readFails => exact absurd rfl he
  | writeSome n =>
    simp only [CopyLoop.step] at hl
    split at hl
    next buffer hpc =>
      obtain ⟨⟨hpos, hlen⟩, hl⟩ := Option.ite_none_right_eq_some.mp hl
      obtain rfl := Option.some.inj hl
      by_cases hall : n = buffer.length
      · refine ⟨by simp [hall], by simp [hall], by simp [hall], ?_⟩
        simp [CopyLoop.work, CopyLoop.held, hpc, hall]
        omega
      · refine ⟨by simpa [hall] using by omega, by simp [hall], by simp [hall], ?_⟩
        simp [CopyLoop.work, CopyLoop.held, hpc, hall]
        omega
    · cases hl
  | writeFails =>
    simp only [CopyLoop.step] at hl
    split at hl
    next buffer hpc =>
      obtain rfl := Option.some.inj hl
      have hpos : 0 < buffer.length :=
        List.length_pos_of_ne_nil fun hnil => hfilled (hpc.trans (congrArg _ hnil))
      refine ⟨by simp, by simp, fun _ => rfl, ?_⟩
      simp only [CopyLoop.work, CopyLoop.held, hpc, List.length_nil, reduceCtorEq, if_false]
      omega
    · cases hl

theorem Upright.copy (h : Upright w) {e : CopyEvent} {b : Bridge} (he : e ≠ .readFails)
    (hover : e = .writeFails → ∀ z, w.closed z = true)
    (hb : w.bridge.step (fun z => ⟨[], w.closed z⟩) (y, e) = some b) (inbox : Side → Bytes) :
    Upright { w with bridge := b, inbox := inbox } := by
  obtain ⟨hresult, l, hl, hloop, hfailed⟩ := bridge_step hb
  obtain ⟨hfilled, hreturned, hfails, -⟩ := loop_after hl (h.filled y) he
  have hret : ∀ z, (b.loop z).pc = .returned → w.closed z = true ∧ (b.loop z).unread = [] := by
    intro z hz
    rw [hloop] at hz ⊢
    by_cases hzy : z = y
    · subst hzy
      rw [Function.update_self] at hz ⊢
      exact hreturned hz
    · rw [Function.update_of_ne hzy] at hz ⊢
      exact h.returned z hz
  refine ⟨?_, hret, fun hnone z => ?_, fun z => ?_⟩
  · by_cases hnone : b.result = none
    · exact Or.inl hnone
    · rcases bridge_over hb hnone with ⟨z, hz⟩ | hboth
      · rw [hloop] at hz
        by_cases hzy : z = y
        · subst hzy
          rw [Function.update_self] at hz
          exact Or.inr (hover (hfails hz))
        · rw [Function.update_of_ne hzy] at hz
          exact absurd hz (h.failed hresult z)
      · exact Or.inr fun z => (hret z (hboth z)).1
  · rw [hloop]
    by_cases hzy : z = y
    · subst hzy
      rw [Function.update_self]
      exact hfailed hnone
    · rw [Function.update_of_ne hzy]
      exact h.failed hresult z
  · rw [hloop]
    by_cases hzy : z = y
    · subst hzy
      rw [Function.update_self]
      exact hfilled
    · rw [Function.update_of_ne hzy]
      exact h.filled z

/-- When a write to an end that has returned fails, the other end has returned too. -/
theorem all_over (h : Shows w p) (hg : Pair.GoesWell x files list p) (hu : Upright w)
    {feed : Side → Feed} {b : Bridge} (hb : w.bridge.step feed (y, .writeFails) = some b)
    (hclosed : w.closed y.other = true) (z : Side) : w.closed z = true := by
  obtain ⟨hresult, l, hl, -⟩ := bridge_step hb
  have hheld : (w.bridge.loop y).held ≠ [] := by
    simp only [CopyLoop.step] at hl
    split at hl
    next buffer hpc =>
      rw [CopyLoop.held, hpc]
      exact fun hnil => hu.filled y (hpc.trans (congrArg _ hnil))
    · cases hl
  have hmore : ∀ n, Flows w y n → n < (w.session y).sent.length := by
    rintro n ⟨hle, rest, hstream, hrest⟩
    rcases Nat.lt_or_eq_of_le hle with hlt | rfl
    · exact hlt
    · rw [hrest hresult, List.drop_length] at hstream
      have hnil := (List.append_eq_nil_iff.mp hstream.symm).2
      exact absurd (List.append_eq_nil_iff.mp hnil).1 hheld
  obtain ⟨r, hr⟩ := closed_iff.mp hclosed
  cases y with
  | a =>
    have hlt := hmore _ h.toReceiver
    rw [Side.other, h.receiver] at hr
    rw [h.sender, hg.heard hr] at hlt
    exact absurd hlt (Nat.lt_irrefl _)
  | b =>
    have hlt := hmore _ h.toSender
    rw [Side.other, h.sender] at hr
    rw [h.receiver] at hlt
    have hover := hg.receiver_over hr hlt
    cases z with
    | a => exact closed_iff.mpr ⟨r, h.sender ▸ hr⟩
    | b => exact closed_iff.mpr ⟨_, h.receiver ▸ hover⟩

/-- A message that is under way can be heard, or the bridge can bring it closer. -/
theorem Flows.arrives {n : ℕ} {m : Message} (hparse : ∀ m : Message, parse m.text = some m)
    (h : Flows w y n) (hu : Upright w) (hup : w.bridge.result = none)
    (hm : (w.session y).sent[n]? = some m) (hshort : Short (w.session y).sent)
    (feed : Side → Feed) : (∃ rest, w.hear parse y.other = some (.message m, rest)) ∨
      ∃ e b, e ≠ .readFails ∧ e ≠ .writeFails ∧ w.bridge.step feed (y, e) = some b := by
  by_cases hnil : (w.bridge.loop y).held ++ (w.bridge.loop y).unread = []
  · exact Or.inl ⟨_, h.hear_drained hparse hup hnil hm hshort⟩
  refine Or.inr ?_
  suffices hgo : ∃ e l, e ≠ .readFails ∧ e ≠ .writeFails ∧
      (w.bridge.loop y).step (feed y).ends e = some l by
    obtain ⟨e, l, hread, hwrite, hl⟩ := hgo
    exact ⟨e, _, hread, hwrite, by rw [Bridge.step, if_pos hup, hl, Option.map_some]⟩
  cases hpc : (w.bridge.loop y).pc with
  | read =>
    rw [CopyLoop.held, hpc] at hnil
    have hpos : 1 ≤ (w.bridge.loop y).unread.length := List.length_pos_of_ne_nil hnil
    obtain ⟨l, hl⟩ : ∃ l, (w.bridge.loop y).step (feed y).ends (.read 1) = some l := by
      simp [CopyLoop.step, hpc, hpos]
    exact ⟨.read 1, l, by simp, by simp, hl⟩
  | writeAll buffer =>
    have hpos : 0 < buffer.length :=
      List.length_pos_of_ne_nil fun he => hu.filled y (hpc.trans (congrArg _ he))
    obtain ⟨l, hl⟩ : ∃ l,
        (w.bridge.loop y).step (feed y).ends (.writeSome buffer.length) = some l := by
      simp [CopyLoop.step, hpc, hpos]
    exact ⟨.writeSome buffer.length, l, by simp, by simp, hl⟩
  | returned =>
    rw [CopyLoop.held, hpc] at hnil
    exact absurd (hu.returned y hpc).2 hnil
  | failed => exact absurd hpc (hu.failed hup y)

/-- What a faithful step of the ends is for the pair. -/
theorem Faithful.asPair {e : Event} {e' : Pair.Event} (hok : Faithful source w e) (h : Shows w p)
    (he : e.asPair = some e') : Pair.Faithful source p e' := by
  cases e with
  | task y t =>
    cases y with
    | a =>
      obtain rfl := Option.some.inj he
      cases t with
      | read id data => exact (h.sender ▸ hok : Pair.ReadsSource source p.sender id data)
      | _ => exact hok
    | b =>
      obtain rfl := Option.some.inj he
      cases t with
      | write k done => exact (h.receiver ▸ hok : WritesAll X done p.receiver.writers[k]?)
      | _ => exact hok
  | copy => cases he
  | recv y => cases y <;> exact Option.some.inj he ▸ trivial
  | deliver => exact Option.some.inj he ▸ trivial
  | recvFailed | lose | keepalive | dataClosed => exact hok.elim

/-- A step of an end keeps the bridge up. -/
theorem Upright.step (h : Upright w) {e : Event} {e' : Pair.Event} (has : e.asPair = some e')
    (hok : Faithful source w e) (he : Wired.step parse M w e = some w') : Upright w' := by
  cases e with
  | task y t =>
    obtain ⟨s, hs, rfl⟩ := Option.map_eq_some_iff.mp he
    have hu := h.say hs
    exact ⟨hu.up, hu.returned, hu.failed, hu.filled⟩
  | copy => cases has
  | recv y =>
    obtain ⟨⟨e, rest⟩, -, he⟩ := Option.bind_eq_some_iff.mp he
    obtain ⟨s, hs, rfl⟩ := Option.map_eq_some_iff.mp he
    have hu := h.say hs
    exact ⟨hu.up, hu.returned, hu.failed, hu.filled⟩
  | deliver k =>
    obtain ⟨frame, -, he⟩ := Option.bind_eq_some_iff.mp he
    obtain ⟨s, hs, rfl⟩ := Option.map_eq_some_iff.mp he
    have hu := h.say hs
    exact ⟨hu.up, hu.returned, hu.failed, hu.filled⟩
  | recvFailed | lose | keepalive | dataClosed => exact hok.elim

/-- What the loops have left to do while nothing new is said. -/
def work (w : Wired X) : ℕ := (w.bridge.loop .a).work + (w.bridge.loop .b).work

theorem work_lt {l : CopyLoop} {b : Bridge} {inbox : Side → Bytes}
    (hloop : b.loop = Function.update w.bridge.loop y l) (hlt : l.work < (w.bridge.loop y).work) :
    work { w with bridge := b, inbox := inbox } < work w := by
  unfold work
  cases y <;> simpa [hloop] using hlt

/-- An honest session over a bridge, and the pair that its ends make up. -/
structure Follows (x : Exchange X M) (files : FilesInformation) (list : List FileInfo)
    (w : Wired X) (p : Pair X) : Prop where
  shows : Shows w p
  goes : Pair.GoesWell x files list p
  upright : Upright w

/-- A step of the bridge is nothing to the pair. -/
theorem Follows.copy (h : Follows x files list w p) {e : CopyEvent}
    (hok : Faithful source w (.copy y e)) (hshows : Shows w' p)
    (he : Wired.step parse M w (.copy y e) = some w') :
    Follows x files list w' p ∧ work w' < work w := by
  obtain ⟨b, hb, rfl⟩ := Option.map_eq_some_iff.mp he
  have hread : e ≠ .readFails := by
    rintro rfl
    exact hok
  obtain ⟨-, l, hl, hloop, -⟩ := bridge_step hb
  refine ⟨⟨hshows, h.goes, h.upright.copy hread ?_ hb _⟩,
    work_lt hloop (loop_after hl (h.upright.filled y) hread).2.2.2⟩
  rintro rfl
  exact all_over h.shows h.goes h.upright hb hok

section Tracks
variable (hparse : ∀ m : Message, parse m.text = some m) (hM : M.Honest files list)
  (hs : Short (x.offeringSender files).sent) (hr : Short x.keyedReceiver.sent)
include hparse hs hr

/-- Where a message can be taken up, it can be heard or the bridge can go on. -/
theorem Follows.exists_recv (h : Follows x files list w p) {n : ℕ} {m : Message}
    {s : Session X} (hflows : Flows w y n) (hm : (w.session y).sent[n]? = some m)
    (hstep : w.stepSession M y.other (.message m) = some s) :
    ∃ e w', Faithful source w e ∧ Wired.step parse M w e = some w' := by
  have hup : w.bridge.result = none := by
    rcases h.upright.up with hup | hall
    · exact hup
    · obtain ⟨r, hr⟩ := closed_iff.mp (hall y.other)
      exact absurd ((message_of_step hstep).1.symm.trans hr) (by simp)
  have hshort : Short (w.session y).sent := by
    obtain ⟨hsender, hreceiver⟩ := h.goes.short hs hr
    cases y with
    | a => exact h.shows.sender ▸ hsender
    | b => exact h.shows.receiver ▸ hreceiver
  rcases hflows.arrives hparse h.upright hup hm hshort (fun z => ⟨[], w.closed z⟩) with
    ⟨rest, hear⟩ | ⟨e, b, hread, hwrite, hb⟩
  · exact ⟨.recv y.other, _, trivial, Option.bind_eq_some_iff.mpr ⟨_, hear,
      Option.map_eq_some_iff.mpr ⟨s, hstep, rfl⟩⟩⟩
  · refine ⟨.copy y e, _, ?_, Option.map_eq_some_iff.mpr ⟨b, hb, rfl⟩⟩
    cases e with
    | readFails => exact absurd rfl hread
    | writeFails => exact absurd rfl hwrite
    | read | eof | writeSome => trivial

theorem Follows.exists_step (h : Follows x files list w p) {e : Pair.Event}
    (hok : Pair.Faithful source p e) (he : Pair.step M p e = some p') :
    ∃ e' w', Faithful source w e' ∧ Wired.step parse M w e' = some w' := by
  cases e with
  | sender t =>
    obtain ⟨s, hstep, -⟩ := Option.map_eq_some_iff.mp he
    refine ⟨.task .a t, _, ?_, Option.map_eq_some_iff.mpr ⟨s, (h.shows.sender_goes hstep).1, rfl⟩⟩
    cases t with
    | read id data =>
      exact (h.shows.sender.symm ▸ hok : Pair.ReadsSource source (w.session .a) id data)
    | _ => exact hok
  | receiver t =>
    obtain ⟨s, hstep, -⟩ := Option.map_eq_some_iff.mp he
    refine ⟨.task .b t, _, ?_, Option.map_eq_some_iff.mpr ⟨s, (h.shows.receiver_goes hstep).1, rfl⟩⟩
    cases t with
    | write k done =>
      exact (h.shows.receiver.symm ▸ hok : WritesAll X done (w.session .b).writers[k]?)
    | _ => exact hok
  | toSender =>
    obtain ⟨m, hm, he⟩ := Option.bind_eq_some_iff.mp he
    obtain ⟨s, hstep, -⟩ := Option.map_eq_some_iff.mp he
    exact h.exists_recv hparse hs hr h.shows.toSender (h.shows.receiver.symm ▸ hm)
      (h.shows.sender_goes hstep).1
  | toReceiver =>
    obtain ⟨m, hm, he⟩ := Option.bind_eq_some_iff.mp he
    obtain ⟨s, hstep, -⟩ := Option.map_eq_some_iff.mp he
    exact h.exists_recv hparse hs hr h.shows.toReceiver (h.shows.sender.symm ▸ hm)
      (h.shows.receiver_goes hstep).1
  | deliver k =>
    obtain ⟨frame, hframe, he⟩ := Option.bind_eq_some_iff.mp he
    obtain ⟨s, hstep, -⟩ := Option.map_eq_some_iff.mp he
    rw [← h.shows.inFlight] at hframe
    exact ⟨.deliver k, _, trivial, Option.bind_eq_some_iff.mpr ⟨frame, hframe,
      Option.map_eq_some_iff.mpr ⟨s, (h.shows.receiver_goes hstep).1, rfl⟩⟩⟩
  | senderRecvFailed | receiverRecvFailed | lose | keepalive | dataClosed => exact hok.elim

variable (hJ : X.KeyJsonRoundTrip) (hX : X.DecryptInverts) (hW : X.WritesShort)
include hM hJ hX hW

theorem tracks_pair {total : Int64}
    (htotal : files.totalSize M.receiverWorld.overflowChecks = some total) :
    (machine parse X M).Tracks (Pair.machine X M) (Faithful source) (Pair.Faithful source)
      (Follows x files list) work where
  step w e w' p h hok he := by
    have hshort : ∀ z, Short (w.session z).sent := by
      obtain ⟨hsender, hreceiver⟩ := h.goes.short hs hr
      intro z
      cases z with
      | a => exact h.shows.sender ▸ hsender
      | b => exact h.shows.receiver ▸ hreceiver
    rcases h.shows.step hparse hshort he with ⟨has, h'⟩ | ⟨e', p', has, he', h'⟩
    · cases e with
      | copy y e =>
      have he : Wired.step parse M w (.copy y e) = some w' := he
      exact Or.inr (h.copy hok h' he)
      | task y | recv y | recvFailed y => cases y <;> cases has
      | deliver | lose | keepalive | dataClosed => cases has
    · have hfaithful := hok.asPair h.shows has
      exact Or.inl ⟨e', p', hfaithful, he', h',
        h.goes.step hJ hX hW hM htotal hfaithful.smooth he', h.upright.step has hok he⟩
  goes w p h := by
    rintro ⟨e, p', hok, he⟩
    exact h.exists_step hparse hs hr hok he

/-- Every run of an honest session over a relay's bridge, whose loops copy its bytes in pieces of
any size and may fail to write to an end that has returned, comes to its end with every file
delivered. -/
theorem bridged_delivers (hsum : M.receiverWorld.overflowChecks = true →
      (list.map fun file => file.size.toInt).sum < 2 ^ 63) (hsource : M.Holds list source) :
    (machine parse X M).Inevitable (Faithful source)
      (fun w => ∃ p, Shows w p ∧ Pair.Delivered M source list p) (init X M) := by
  obtain ⟨total, htotal⟩ :=
    Option.isSome_iff_exists.mp ((Pair.totalSize_isSome_iff hM _).mpr hsum)
  have hfollows : Follows x files list (init X M) (Pair.init X M) :=
    ⟨(shows_init X M).1, Pair.goesWell_init hM, upright_init⟩
  refine ((tracks_pair hparse hM hs hr hJ hX hW htotal).inevitable
    (Pair.inevitable_delivered x hJ hX hW hM hsum hsource) hfollows).trans ?_
  rintro w ⟨p, h, hdelivered⟩
  exact .here ⟨p, h.shows, hdelivered⟩

end Tracks

/-- The keys of a session about two files. -/
def sharedKeys : Exchange .transparent (Pair.sharing "12345abc") where
  pw := asBytes "abc"
  senderKey := (asBytes "abc", true)
  receiverKey := (asBytes "abc", true)
  key := External.padBlock 32 (asBytes "abc")
  senderSecret := by decide +kernel
  receiverSecret := by decide +kernel
  answers := rfl
  takes := rfl
  senderAgrees := rfl
  receiverAgrees := rfl

theorem twoFiles_bridged : (machine Pair.parseText .transparent
    (Pair.sharing "12345abc")).Inevitable (Faithful Pair.greetings)
      (fun w => ∃ p, Shows w p ∧
        Pair.Delivered (Pair.sharing "12345abc") Pair.greetings Pair.twoFiles p)
      (init .transparent (Pair.sharing "12345abc")) :=
  bridged_delivers (x := sharedKeys) Pair.parseText_text (Pair.sharing_honest "12345abc")
    (by decide +kernel) (by decide +kernel) External.transparent_keyJson
    External.transparent_decryptInverts External.transparent_writesShort
    (fun h => absurd h (by decide)) Pair.greetings_held

end Wired
end Croc
