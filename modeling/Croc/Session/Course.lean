import Croc.Session.Crossing
import Croc.Session.Smooth

/-! The course of an honest session: one secret, connections that lose nothing, files of the
announced lengths, and operations that succeed. -/
namespace Croc
open Lib

/-- What the two ends are given, and what surrounds them, in an honest session. -/
structure Meeting.Honest (M : Meeting) (files : FilesInformation) (list : List FileInfo) :
    Prop where
  offer : M.sender.files = some files
  lists : files.filesToTransfare = some list
  folders : files.emptyFoldersToTransfare.getD [] = []
  secret : M.sender.sharedSecret = M.receiver.sharedSecret
  ports : M.sender.relayPorts ≠ [] ∧ M.receiver.relayPorts ≠ []
  connects : M.senderWorld.connectError = none ∧ M.receiverWorld.connectError = none
  sends : (∀ n, M.senderWorld.sendError n = none) ∧ ∀ n, M.receiverWorld.sendError n = none
  accepts : ∀ n, M.receiverWorld.confirm n = some true
  /-- The announced sizes are the lengths on disk. -/
  sizes : ∀ file ∈ list, 0 ≤ file.size.toInt ∧ ∀ n,
    M.senderWorld.os.openLen n (Path.join file.sourceFolder file.name) = some file.size.toInt.toNat
  creates : (∀ n loc, M.receiverWorld.os.create n loc = true) ∧
    ∀ n loc size, M.receiverWorld.os.setLen n loc size = true

/-- The number of chunks of the `i`-th file. -/
def chunksOf (list : List FileInfo) (i : ℕ) : ℕ :=
  list[i]?.elim 0 fun file => pieceCount tcpBufferSize file.size.toInt.toNat

theorem totalChunks_eq {list : List FileInfo} {i : ℕ} {file : FileInfo} (h : list[i]? = some file)
    (hsize : 0 ≤ file.size.toInt) : totalChunks file = chunksOf list i := by
  rw [totalChunks, chunksOf, h, Option.elim_some, ← divCeil_eq_pieceCount,
    Int.toNat_of_nonneg hsize]

section Counting
variable {N : ℕ → ℕ} {n q r : ℕ} {phase phase' : Phase} {out out' : Multiset (Option ℕ)}

/-- The number of files, of `n`, that the receiver has left behind. -/
def Phase.left (n : ℕ) : Phase → ℕ
  | .chunks j .. | .nextFile j => j
  | _ => n

/-- What is outstanding when the sender has taken up `q` requests: the chunks that the receiver
still waits for. -/
structure Balance (N : ℕ → ℕ) (n q : ℕ) (phase : Phase) (out : Multiset (Option ℕ)) : Prop where
  inside : ∀ j loc total got, phase = .chunks j loc total got →
    q = j + 1 ∧ out = Multiset.replicate (N j - got.length) (some j) ∨ q ≤ j ∧ out = 0 ∧ got = []
  outside : (∀ j loc total got, phase ≠ .chunks j loc total got) → out = 0
  /-- Only a file without chunks is left before its request is taken up. -/
  behind : ∀ i, q ≤ i → i < phase.left n → N i = 0

/-- The sender takes up a request. -/
theorem Balance.request (h : Balance N n q phase out) (hq : q < phase.left n ∨
    ∃ loc total got, phase = .chunks q loc total got)
    (hout : out' = out + Multiset.replicate (N q) (some q)) : Balance N n (q + 1) phase out' := by
  have hbehind : ∀ i, q + 1 ≤ i → i < phase.left n → N i = 0 := fun i hi => h.behind i (by omega)
  rcases hq with hq | ⟨loc, total, got, rfl⟩
  · -- the receiver did not wait for it, for it has no chunks
    have hN := h.behind q le_rfl hq
    obtain rfl : out' = out := by rw [hout, hN, Multiset.replicate_zero, add_zero]
    refine ⟨fun j loc total got hp => ?_, h.outside, hbehind⟩
    subst hp
    have hqj : q < j := hq
    rcases h.inside j loc total got rfl with ⟨rfl, -⟩ | ⟨-, hz, hg⟩
    · omega
    · exact Or.inr ⟨hqj, hz, hg⟩
  · refine ⟨fun j loc' total' got' hp => ?_, fun hp => absurd rfl (hp q loc total got), hbehind⟩
    obtain ⟨rfl, rfl, rfl, rfl⟩ := Phase.chunks.inj hp
    rcases h.inside q loc total got rfl with ⟨hlt, -⟩ | ⟨-, hz, hg⟩
    · omega
    · exact Or.inl ⟨rfl, by rw [hout, hz, hg, zero_add, List.length_nil, Nat.sub_zero]⟩

/-- A frame that arrives is one that the receiver waits for. -/
theorem Balance.take {j : ℕ} {loc : Location} {total : ℤ} {got : List DataFrame}
    (h : Balance N n q (.chunks j loc total got) out) {frame : DataFrame}
    (ho : out = frame.origin ::ₘ out') :
    frame.origin = some j ∧ Balance N n q (.chunks j loc total (got ++ [frame])) out' := by
  rcases h.inside j loc total got rfl with ⟨rfl, hr⟩ | ⟨-, hz, -⟩
  · have hmem : frame.origin ∈ out := by rw [ho]; exact Multiset.mem_cons_self _ _
    have horigin : frame.origin = some j := Multiset.eq_of_mem_replicate (hr ▸ hmem)
    refine ⟨horigin, fun j' loc' total' got' hp => ?_, fun hp => absurd rfl (hp _ _ _ _), h.behind⟩
    obtain ⟨rfl, rfl, rfl, rfl⟩ := Phase.chunks.inj hp
    have hcard := congrArg Multiset.card ho
    rw [hr, Multiset.card_replicate, Multiset.card_cons] at hcard
    have hsucc : N j - got.length = N j - (got ++ [frame]).length + 1 := by
      rw [List.length_append, List.length_singleton]
      omega
    rw [hr, hsucc, Multiset.replicate_succ, horigin] at ho
    exact Or.inl ⟨rfl, ((Multiset.cons_inj_right _).mp ho).symm⟩
  · rw [hz] at ho
    exact absurd ho.symm (Multiset.cons_ne_zero)

/-- A file is left when all its chunks have been counted. -/
theorem Balance.leave {j : ℕ} {loc : Location} {total : ℤ} {got : List DataFrame}
    (h : Balance N n q (.chunks j loc total got) out) (hall : N j ≤ got.length) :
    Balance N n q (.nextFile (j + 1)) out := by
  have hzero : out = 0 := by
    rcases h.inside j loc total got rfl with ⟨-, hr⟩ | ⟨-, hz, -⟩
    · rw [hr, Nat.sub_eq_zero_of_le hall, Multiset.replicate_zero]
    · exact hz
  refine ⟨fun _ _ _ _ hp => by simp at hp, fun _ => hzero, fun i hi hlt => ?_⟩
  have hlt : i < j + 1 := hlt
  rcases Nat.lt_or_eq_of_le (Nat.le_of_lt_succ hlt) with hij | rfl
  · exact h.behind i hi hij
  · rcases h.inside i loc total got rfl with ⟨hq, -⟩ | ⟨-, -, hg⟩
    · omega
    · rw [hg] at hall
      exact Nat.le_zero.mp hall

/-- The next file is requested. -/
theorem Balance.ask {j : ℕ} (h : Balance N n q (.nextFile j) out) (hq : q ≤ j) (loc : Location)
    (total : ℤ) : Balance N n q (.chunks j loc total []) out := by
  have hzero : out = 0 := h.outside (by simp)
  refine ⟨fun j' loc' total' got' hp => ?_, fun hp => absurd rfl (hp _ _ _ _), h.behind⟩
  obtain ⟨rfl, rfl, rfl, rfl⟩ := Phase.chunks.inj hp
  exact Or.inr ⟨hq, hzero, rfl⟩

/-- Of a file that has been left nothing is outstanding. -/
theorem Balance.count_eq_zero (h : Balance N n q phase out) {i : ℕ} (hi : i < phase.left n) :
    out.count (some i) = 0 := by
  by_cases hp : ∃ j loc total got, phase = .chunks j loc total got
  · obtain ⟨j, loc, total, got, rfl⟩ := hp
    have hij : i < j := hi
    rcases h.inside j loc total got rfl with ⟨-, hout⟩ | ⟨-, hout, -⟩
    · have hne : ¬ some j = some i := fun he => hij.ne' (Option.some.inj he)
      rw [hout, Multiset.count_replicate, if_neg hne]
    · rw [hout, Multiset.count_zero]
  · rw [h.outside fun j loc total got he => hp ⟨j, loc, total, got, he⟩, Multiset.count_zero]

/-- After the last file nothing is outstanding. -/
theorem Balance.finish (h : Balance N n q phase out)
    (hp : ∀ j loc total got, phase ≠ .chunks j loc total got) (hleft : phase.left n = n)
    (hp' : ∀ j loc total got, phase' ≠ .chunks j loc total got) (hleft' : phase'.left n = n) :
    Balance N n q phase' out := by
  refine ⟨fun j loc total got he => absurd he (hp' j loc total got), fun _ => h.outside hp,
    fun i hi hlt => h.behind i hi ?_⟩
  rw [hleft]
  rwa [hleft'] at hlt

end Counting
end Croc
