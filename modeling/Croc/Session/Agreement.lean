import Croc.Session.Service

/-! What the two ends of an honest session agree on, in every run: the requests, the frames that are
counted, and how it ends. -/
namespace Croc
open Lib

/-- The shared secret has five bytes before its password, which starts a character. -/
def Setup.Splits (c : Setup) : Prop :=
  5 ≤ (asBytes c.sharedSecret).length ∧ ∀ b ∈ (asBytes c.sharedSecret)[5]?, b < 128 ∨ 192 ≤ b

theorem Setup.splits_iff {c : Setup} : c.Splits ↔ ∃ pw, c.secretTail = .ok pw := by
  unfold Splits secretTail
  simp only [Option.all_eq_true, decide_eq_true_eq]
  split
  next h => simpa using h
  next h => simpa using h

namespace Pair
open Session
variable {X : External} {M : Meeting} {p p' : Pair X} {files : FilesInformation}
  {list : List FileInfo} {seen : List (ℕ × DataFrame)}

/-- What the ends of an honest session agree on, with the record of the frames that are counted. -/
structure Agreement (M : Meeting) (list : List FileInfo) (p : Pair X)
    (seen : List (ℕ × DataFrame)) : Prop where
  /-- Neither end has failed. -/
  sound : (∀ h, p.sender.phase ≠ .ended (.error h)) ∧ ∀ h, p.receiver.phase ≠ .ended (.error h)
  /-- The files are requested in order, all of them by the end. -/
  asks : ∃ k ≤ list.length, requests p.receiver.sent = (List.range k).map fileRequest ∧
    (.finished ∈ p.receiver.sent ∨ p.receiver.phase = .ended (.ok ()) → k = list.length)
  /-- The record has the frames that the receive loop counts. -/
  current : ∀ i loc total got, p.receiver.phase = .chunks i loc total got → countedFor i seen = got
  /-- Nothing is counted for a file but what was produced for it, each frame once. -/
  counts : ∀ i, (countedFor i seen).Subperm (producedFor i p.sender)
  /-- Of a file that has been requested and left, everything has been counted. -/
  complete : ∀ i < (requests p.receiver.sent).length,
    (∀ loc total got, p.receiver.phase ≠ .chunks i loc total got) →
      (countedFor i seen).Perm (producedFor i p.sender) ∧
        (countedFor i seen).length = chunksOf list i
  /-- The receiver can open what it has counted. -/
  opens : ∀ job ∈ p.receiver.writers, job.frame.Opens X job.enc
  /-- The session gets stuck only when both ends have returned. -/
  settled : ¬ GoesOn M p →
    p.sender.phase = .ended (.ok ()) ∧ p.receiver.phase = .ended (.ok ())

/-- In every run in which nothing around the two ends fails, they agree. -/
def Agrees (X : External) (M : Meeting) (list : List FileInfo) : Prop :=
  ∀ p seen, ((machine X M).observe [] noteCounted).ReachableBy (fun y e => Smooth y.1 e) (p, seen) →
    Agreement M list p seen

section Silence

/-- Ends that have said nothing, and will not. -/
structure Mute (p : Pair X) : Prop where
  sender : p.sender.state = .keyExchange ∧ p.sender.sent = [] ∧ Idle p.sender.phase
  receiver : p.receiver.state = .keyExchange ∧ p.receiver.sent = [] ∧ Idle p.receiver.phase

theorem Mute.step (h : Mute p) {e : Event} (he : Pair.step M p e = some p') : Mute p' := by
  obtain ⟨⟨hst, hsent, hidle⟩, hst', hsent', hidle'⟩ := h
  rcases step_ends he with ⟨e', s, hs, hps, hpr, -, hts⟩ | ⟨e', r, hr, hpr, hps, -, htr⟩ |
    ⟨hps, hpr, -, -⟩
  · rcases hts with ⟨hmsg, -⟩ | ⟨m, -, hget, -⟩
    · obtain ⟨h₁, h₂, h₃⟩ := idle_step hst hidle hs hmsg
      exact ⟨by rw [hps]; exact ⟨h₁, h₂.trans hsent, h₃⟩, by rw [hpr]; exact ⟨hst', hsent', hidle'⟩⟩
    · simp [hsent'] at hget
  · rcases htr with ⟨hmsg, -⟩ | ⟨m, -, hget, -⟩
    · obtain ⟨h₁, h₂, h₃⟩ := idle_step hst' hidle' hr hmsg
      exact ⟨by rw [hps]; exact ⟨hst, hsent, hidle⟩, by rw [hpr]; exact ⟨h₁, h₂.trans hsent', h₃⟩⟩
    · simp [hsent] at hget
  · exact ⟨by rw [hps]; exact ⟨hst, hsent, hidle⟩, by rw [hpr]; exact ⟨hst', hsent', hidle'⟩⟩

/-- A secret that cannot be split silences the receiver, and then the sender. -/
theorem mute_init (hsecret : M.sender.sharedSecret = M.receiver.sharedSecret)
    (hsplits : ¬ M.sender.Splits) : Mute (init X M) := by
  refine ⟨sender_init M.isSender, ?_⟩
  have hpw : ∀ pw, M.receiver.secretTail ≠ .ok pw := by
    intro pw hpw
    rw [Setup.secretTail, ← hsecret] at hpw
    exact hsplits (Setup.splits_iff.mpr ⟨pw, hpw⟩)
  apply run_of_post (I := fun t : Session X =>
    t.state = .keyExchange ∧ t.sent = [] ∧ Idle t.phase)
  unfold start
  cases hports : M.receiver.relayPorts.head? with
  | none => simp [Session.new, Idle]
  | some port =>
    cases hconnect : M.receiverWorld.connectError with
    | some e => simp [post_ite, Session.new, Idle]
    | none => simp [M.isReceiver, post_ite, Session.new, Idle, hpw]

end Silence

section Loop
variable {enc : EncryptedSession} {hello : List Message} {q : ℕ}

/-- Apart from the requests, a receiver sends none. -/
theorem requests_of_said (hh : requests hello = []) {r : ℕ} {sent tail : List Message}
    (ht : requests tail = []) (hs : sent = said hello r tail) :
    requests sent = (List.range r).map fileRequest := by
  have hall : requests ((List.range r).map fileRequest) = (List.range r).map fileRequest := by
    refine List.filter_eq_self.mpr fun m hm => ?_
    obtain ⟨i, -, rfl⟩ := List.mem_map.mp hm
    rfl
  rw [hs, said, requests_append, requests_append, hh, ht, hall, List.nil_append, List.append_nil]

theorem finished_notMem_said (hh : .finished ∉ hello) (r : ℕ) : .finished ∉ said hello r [] := by
  simp [said, hh, fileRequest]

/-- How many requests there are, by where the two ends are. -/
theorem Serves.asks (h : Serves enc list hello q p seen) (hr : requests hello = [])
    (hf : .finished ∉ hello) : ∃ k ≤ list.length,
      requests p.receiver.sent = (List.range k).map fileRequest ∧
      (.finished ∈ p.receiver.sent ∨ p.receiver.phase = .ended (.ok ()) → k = list.length) ∧
      ∀ i < k, (∃ loc total got, p.receiver.phase = .chunks i loc total got) ∨
        i < p.receiver.phase.left list.length := by
  cases h.talk with
  | next r hp ha =>
    have hgoing : .finished ∈ p.receiver.sent ∨ p.receiver.phase = .ended (.ok ()) →
        r = list.length := by
      rw [ha.said, hp]
      simp [finished_notMem_said hf]
    exact ⟨r, ha.within, requests_of_said hr rfl ha.said, hgoing, fun i hi =>
      Or.inr (by rw [hp]; exact hi)⟩
  | chunks i loc total got hp ha =>
    have hgoing : .finished ∈ p.receiver.sent ∨ p.receiver.phase = .ended (.ok ()) →
        i + 1 = list.length := by
      rw [ha.said, hp]
      simp [finished_notMem_said hf]
    refine ⟨i + 1, ha.within, requests_of_said hr rfl ha.said, hgoing, fun j hj => ?_⟩
    rcases Nat.lt_or_eq_of_le (Nat.le_of_lt_succ hj) with hlt | rfl
    · exact Or.inr (by rw [hp]; exact hlt)
    · exact Or.inl ⟨loc, total, got, hp⟩
  | asked hp ha =>
    exact ⟨_, le_rfl, requests_of_said hr rfl ha.said, fun _ => rfl, fun i hi =>
      Or.inr (by rw [hp]; exact hi)⟩
  | answered hp ha =>
    exact ⟨_, le_rfl, requests_of_said hr rfl ha.said, fun _ => rfl, fun i hi =>
      Or.inr (by rw [hp]; exact hi)⟩
  | returned hp ha =>
    exact ⟨_, le_rfl, requests_of_said hr rfl ha.said, fun _ => rfl, fun i hi =>
      Or.inr (by rw [hp]; exact hi)⟩

/-- Of a file that has been left every chunk has been counted. -/
theorem Serves.complete (h : Serves enc list hello q p seen) {i : ℕ}
    (hi : i < p.receiver.phase.left list.length) :
    (countedFor i seen).Perm (producedFor i p.sender) ∧
      (countedFor i seen).length = chunksOf list i := by
  have hzero := h.balance.count_eq_zero hi
  rw [outstanding, Multiset.count_add] at hzero
  have hflight : (p.inFlight.filter fun frame => frame.origin = some i) = [] := by
    apply List.eq_nil_of_length_eq_zero
    rw [length_filter_origin]
    omega
  have hperm := h.books.split i
  rw [hflight, List.append_nil] at hperm
  refine ⟨hperm, ?_⟩
  have hproduced := h.books.produced i
  rw [Multiset.count_add] at hproduced
  rw [hperm.length_eq, producedFor, length_filter_origin]
  split at hproduced
  · omega
  next hq =>
    have := h.balance.behind i (by omega) hi
    omega

/-- The invariant holds the agreement. -/
theorem Serves.agreement (h : Serves enc list hello q p seen) (hr : requests hello = [])
    (hf : .finished ∉ hello) : Agreement M list p seen := by
  obtain ⟨k, hk, hreq, hall, hwhere⟩ := h.asks hr hf
  have hlen : (requests p.receiver.sent).length = k := by
    rw [hreq, List.length_map, List.length_range]
  refine ⟨⟨fun e hp => ?_, fun e hp => ?_⟩, ⟨k, hk, hreq, hall⟩,
    fun i loc total got hp => (h.books.current i loc total got hp).2, fun i => ?_,
    fun i hi hp => ?_, fun job hjob => ?_, fun hstuck => h.progress.resolve_left hstuck⟩
  · have hph := h.supplies.phase
    rw [hp] at hph
    cases hph
  · cases h.talk with
    | next _ hp' | chunks _ _ _ _ hp' | asked hp' | answered hp' | returned hp' => simp [hp] at hp'
  · exact (List.sublist_append_left _ _).subperm.trans (h.books.split i).subperm
  · rcases hwhere i (hlen ▸ hi) with ⟨loc, total, got, hp'⟩ | hleft
    · exact absurd hp' (hp loc total got)
    · exact h.complete hleft
  · obtain ⟨rfl, hopens⟩ := h.collects.opens job hjob
    exact hopens

end Loop

section Opening
variable {x : Exchange X M} (hM : M.Honest files list)

theorem requests_keyedReceiver : requests x.keyedReceiver.sent = [] := rfl

theorem finished_notMem_keyedReceiver : .finished ∉ x.keyedReceiver.sent := by
  simp [Exchange.keyedReceiver, Exchange.startingReceiver, withKey, pakeMessage]

/-- Quiet ends that can go on and have exchanged no request agree. -/
theorem agreement_of_quiet (hgoes : GoesOn M p) (hs : p.sender.Quiet) (hr : p.receiver.Quiet)
    (hreq : requests p.receiver.sent = []) (hfin : .finished ∉ p.receiver.sent) :
    Agreement M list p [] := by
  refine ⟨⟨by simp [hs.phase], by simp [hr.phase]⟩, ⟨0, Nat.zero_le _, hreq, ?_⟩,
    by simp [hr.phase], fun i => List.nil_subperm, ?_, ?_, fun h => absurd hgoes h⟩
  · simp [hfin, hr.phase]
  · simp [hreq]
  · simp [hr.writers]

/-- Before the offer there is nothing to disagree on. -/
theorem agreement_of_opening (hJ : X.KeyJsonRoundTrip) (hM : M.Honest files list)
    (h : x.Opening files p) : Agreement M list p [] := by
  have hgoes : GoesOn M p := by
    obtain ⟨e, p', hok, he⟩ := h.progress hJ hM
    exact ⟨e, hok, by rw [he]; rfl⟩
  have hfin : .finished ∉ x.startingReceiver.sent := by
    simp [Exchange.startingReceiver, pakeMessage]
  cases h with
  | started =>
    exact agreement_of_quiet hgoes (new_quiet M.senderWorld) x.startingReceiver_quiet rfl hfin
  | answered => exact agreement_of_quiet hgoes x.keyedSender_quiet x.startingReceiver_quiet rfl hfin
  | agreed =>
    exact agreement_of_quiet hgoes x.keyedSender_quiet x.keyedReceiver_quiet rfl
      finished_notMem_keyedReceiver
  | offered =>
    exact agreement_of_quiet hgoes (x.offeringSender_quiet files) x.keyedReceiver_quiet rfl
      finished_notMem_keyedReceiver
  | introduced =>
    exact agreement_of_quiet hgoes (x.offeringSender_quiet files) x.waitingReceiver_quiet rfl
      finished_notMem_keyedReceiver

theorem supplies_afterOffer : Supplies x.enc (x.afterOffer files).sender :=
  ⟨rfl, rfl, .recv, ⟨[], rfl, List.forall_mem_nil _⟩, List.forall_mem_nil _, rfl,
    List.forall_mem_nil _⟩

/-- A receiver that accepts the offer goes for the first file. -/
theorem collects_afterOffer (hM : M.Honest files list) {total : Int64}
    (htotal : files.totalSize M.receiverWorld.overflowChecks = some total) :
    Collects x.enc list (x.afterOffer files).receiver ∧
      (x.afterOffer files).receiver.phase = .nextFile 0 ∧
      (x.afterOffer files).receiver.sent = x.keyedReceiver.sent := by
  have hrun := run_eq_of_post (onFilesInfo_ok (s := x.waitingReceiver) M.isReceiver rfl hM.lists
    hM.folders htotal hM.accepts)
  unfold Exchange.afterOffer
  rw [hrun]
  have hcol := x.waitingReceiver_quiet.readers
  exact ⟨⟨rfl, hM.lists, hcol, rfl, rfl, List.forall_mem_nil _⟩, rfl, rfl⟩

/-- With the offer accepted the invariant holds. -/
theorem serves_afterOffer (hM : M.Honest files list) {total : Int64}
    (htotal : files.totalSize M.receiverWorld.overflowChecks = some total) :
    Serves x.enc list x.keyedReceiver.sent 0 (x.afterOffer files) [] := by
  obtain ⟨hcol, hp, hsent⟩ := collects_afterOffer (x := x) hM htotal
  have hzero : (x.afterOffer files).outstanding = 0 := rfl
  refine ⟨supplies_afterOffer, hcol, .next 0 hp ⟨le_rfl, Nat.zero_le _, ?_, rfl, ?_, rfl⟩,
    ⟨?_, fun _ => hzero, ?_⟩, ⟨fun i => ?_, .refl _, by simp, ?_⟩⟩
  · simp [hsent, said]
  · simp [Exchange.afterOffer, Exchange.offeringSender, Exchange.keyedSender, withKey, Session.new]
  · simp [hp]
  · simp [hp, Phase.left]
  · rw [if_neg (Nat.not_lt_zero i)]
    rfl
  · simp [hp]

end Opening

section Runs
variable {x : Exchange X M}

/-- The invariant of an honest session. -/
def Course (x : Exchange X M) (files : FilesInformation) (list : List FileInfo) (p : Pair X)
    (seen : List (ℕ × DataFrame)) : Prop :=
  (x.Opening files p ∧ seen = []) ∨ ∃ q, Serves x.enc list x.keyedReceiver.sent q p seen

theorem noteCounted_of_recv (hp : p.receiver.phase = .recv) (e : Event) :
    noteCounted seen p e p' = seen := by
  cases e <;> simp [noteCounted, hp]

theorem receiver_of_opening (h : x.Opening files p) : p.receiver.phase = .recv := by
  cases h <;> rfl

theorem Course.step (hJ : X.KeyJsonRoundTrip) (hX : X.DecryptInverts) (hW : X.WritesShort)
    (hM : M.Honest files list) {total : Int64}
    (htotal : files.totalSize M.receiverWorld.overflowChecks = some total)
    (h : Course x files list p seen) {e : Event} (hok : Smooth p e)
    (he : Pair.step M p e = some p') : Course x files list p' (noteCounted seen p e p') := by
  rcases h with ⟨hopen, rfl⟩ | ⟨q, hserves⟩
  · rw [noteCounted_of_recv (receiver_of_opening hopen)]
    rcases hopen.step hJ hM hok he with hopen' | rfl
    · exact Or.inl ⟨hopen', rfl⟩
    · exact Or.inr ⟨0, serves_afterOffer hM htotal⟩
  · exact Or.inr (hserves.step hX hW hM hok he)

/-- An honest session whose secret can be split and whose sizes can be added up keeps its ends in
agreement. -/
theorem agrees_of_exchange (x : Exchange X M) (hJ : X.KeyJsonRoundTrip) (hX : X.DecryptInverts)
    (hW : X.WritesShort) (hM : M.Honest files list) {total : Int64}
    (htotal : files.totalSize M.receiverWorld.overflowChecks = some total) : Agrees X M list := by
  intro p seen hreach
  have hcourse : Course x files list p seen :=
    hreach.invariant (P := fun y => Course x files list y.1 y.2) (Or.inl ⟨x.opening_init hM, rfl⟩)
      fun y e y' _ h hok he => by
        obtain ⟨hstep, hnote⟩ := Machine.observe_step.mp he
        rw [hnote]
        exact h.step hJ hX hW hM htotal hok hstep
  rcases hcourse with ⟨hopen, rfl⟩ | ⟨q, hserves⟩
  · exact agreement_of_opening hJ hM hopen
  · exact hserves.agreement requests_keyedReceiver finished_notMem_keyedReceiver

/-- A secret that cannot be split makes the receiver panic. -/
theorem not_agrees_of_secret (hM : M.Honest files list) (hsecret : ¬ M.sender.Splits) :
    ¬ Agrees X M list := by
  intro h
  have hpw : ∀ pw, M.receiver.secretTail ≠ .ok pw := by
    intro pw hpw
    rw [Setup.secretTail, ← hM.secret] at hpw
    exact hsecret (Setup.splits_iff.mpr ⟨pw, hpw⟩)
  have hend : (init X M).receiver.phase = .ended (.error (.panic .secretSlice)) :=
    start_receiver_panics M.isReceiver hM.ports.2 hpw hM.connects.2
  exact (h (init X M) [] .init).sound.2 _ hend

/-- Sizes that cannot be added up make the receiver return an error. -/
theorem not_agrees_of_total (x : Exchange X M) (hJ : X.KeyJsonRoundTrip) (hM : M.Honest files list)
    (htotal : files.totalSize M.receiverWorld.overflowChecks = none) : ¬ Agrees X M list := by
  intro h
  obtain ⟨seen, hreach⟩ : ∃ seen, ((machine X M).observe [] noteCounted).ReachableBy
      (fun y e => Smooth y.1 e) (x.afterOffer files, seen) :=
    (x.reachable_afterOffer hJ hM).exists_record
  exact (h _ seen hreach).sound.2 _ (onFilesInfo_overflow M.isReceiver rfl htotal)

theorem totalSize_isSome_iff (hM : M.Honest files list) (overflowChecks : Bool) :
    (files.totalSize overflowChecks).isSome = true ↔ (overflowChecks = true →
      (list.map fun file => file.size.toInt).sum < 2 ^ 63) := by
  have hsizes : ∀ size ∈ list.map FileInfo.size, 0 ≤ size.toInt := by
    intro size hsize
    obtain ⟨file, hfile, rfl⟩ := List.mem_map.mp hsize
    exact (hM.sizes file hfile).1
  rw [FilesInformation.totalSize, hM.lists, Option.elim_some,
    FilesInformation.sumSizes_isSome_iff le_rfl hsizes, List.map_map]
  simp [Function.comp_def]

/-- The ends of an honest session agree, in every run, exactly if the secret can be split after five
bytes and nothing checks the sum of the announced sizes, or it fits. -/
theorem agrees_iff (hJ : X.KeyJsonRoundTrip) (hK : X.KeysAgree) (hX : X.DecryptInverts)
    (hW : X.WritesShort) (hM : M.Honest files list) : Agrees X M list ↔
      M.sender.Splits ∧ (M.receiverWorld.overflowChecks = true →
        (list.map fun file => file.size.toInt).sum < 2 ^ 63) := by
  constructor
  · intro h
    have hsplits : M.sender.Splits := by_contra fun hs => not_agrees_of_secret hM hs h
    refine ⟨hsplits, (totalSize_isSome_iff hM _).mp ?_⟩
    obtain ⟨pw, hpw⟩ := Setup.splits_iff.mp hsplits
    obtain ⟨x⟩ := exists_exchange hK hM.secret hpw
    by_contra hnone
    exact not_agrees_of_total x hJ hM (Option.not_isSome_iff_eq_none.mp hnone) h
  · rintro ⟨hsplits, hfits⟩
    obtain ⟨pw, hpw⟩ := Setup.splits_iff.mp hsplits
    obtain ⟨x⟩ := exists_exchange hK hM.secret hpw
    obtain ⟨total, htotal⟩ := Option.isSome_iff_exists.mp ((totalSize_isSome_iff hM _).mpr hfits)
    exact agrees_of_exchange x hJ hX hW hM htotal

/-- Two ends that share a secret, and two files of five bytes. -/
def twoFiles : List FileInfo := [.plain "a.txt" "./" 5, .plain "b.txt" "./" 5]

def sharing (secret : String) : Meeting :=
  .calm (.plain [] 5) (.sender secret twoFiles) (.receiver secret)
    (Setup.sender_isSender secret twoFiles) (Setup.receiver_isSender secret)
    (by rintro _ ⟨⟩ _ ⟨⟩; decide)

/-- A meeting around which nothing fails, about files of five bytes. -/
theorem calm_honest {sender : Setup} {secret : String} {list : List FileInfo}
    {hs : sender.isSender = true} {hr : (Setup.receiver secret).isSender = false}
    {hfits : ∀ files ∈ sender.files, ∀ list ∈ files.filesToTransfare, list.length < 2 ^ 63}
    (hfiles : sender.files = some (.plain list)) (hsecret : sender.sharedSecret = secret)
    (hports : sender.relayPorts ≠ []) (hsize : ∀ file ∈ list, file.size = 5) :
    (Meeting.calm (.plain [] 5) sender (.receiver secret) hs hr hfits).Honest (.plain list)
      list where
  offer := hfiles
  lists := rfl
  folders := rfl
  secret := hsecret
  ports := ⟨hports, List.cons_ne_nil _ _⟩
  connects := ⟨rfl, rfl⟩
  sends := ⟨fun _ => rfl, fun _ => rfl⟩
  accepts _ := rfl
  sizes := by
    intro file hfile
    rw [hsize file hfile]
    exact ⟨by decide, fun _ => rfl⟩
  creates := ⟨fun _ _ => rfl, fun _ _ _ => rfl⟩

theorem twoFiles_size : ∀ file ∈ twoFiles, file.size = 5 := by
  intro file hfile
  simp only [twoFiles, FileInfo.plain, List.mem_cons, List.not_mem_nil, or_false] at hfile
  rcases hfile with rfl | rfl <;> rfl

theorem sharing_honest (secret : String) : (sharing secret).Honest (.plain twoFiles) twoFiles :=
  calm_honest rfl rfl (List.cons_ne_nil _ _) twoFiles_size

theorem sharing_agrees : (sharing "12345abc").Honest (.plain twoFiles) twoFiles ∧
    Agrees .transparent (sharing "12345abc") twoFiles := by
  refine ⟨sharing_honest _, (agrees_iff External.transparent_keyJson External.transparent_keysAgree
    External.transparent_decryptInverts External.transparent_writesShort (sharing_honest _)).mpr
    ⟨Setup.splits_iff.mpr ⟨asBytes "abc", by decide +kernel⟩, ?_⟩⟩
  exact fun h => absurd h (by decide)

/-- The shortest secret that `connect` takes makes the receiver panic. -/
theorem short_secret_disagrees :
    (External.transparent.KeyJsonRoundTrip ∧ External.transparent.KeysAgree ∧
      External.transparent.DecryptInverts) ∧
    (sharing "1234").Honest (.plain twoFiles) twoFiles ∧
    ¬ Agrees .transparent (sharing "1234") twoFiles := by
  refine ⟨⟨External.transparent_keyJson, External.transparent_keysAgree,
    External.transparent_decryptInverts⟩, sharing_honest _, ?_⟩
  have hlen : ¬ 5 ≤ (asBytes "1234").length := by decide +kernel
  exact not_agrees_of_secret (sharing_honest _) fun h => hlen h.1

end Runs
end Pair
end Croc
