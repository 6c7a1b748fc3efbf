import Mathlib.Algebra.Order.BigOperators.Group.List
import Croc.Failure

/-! The messages of a session. -/
namespace Croc
open Lib

structure PakeMessage where
  bytes : Bytes
  bytes2 : Bytes
  deriving DecidableEq

structure ExternalIPMessage where
  externalIp : String
  deriving DecidableEq

structure RemoteFileRequest where
  currentFileChunkRanges : List Int64
  filesToTransferCurrentNum : Int64
  machineId : String
  deriving DecidableEq

structure FileInfo where
  name : String
  remoteFolder : String
  sourceFolder : String
  hash : Bytes
  size : Int64
  modificationTime : String
  isCompressed : Bool
  isEncrypted : Bool
  symlink : String
  mode : UInt32
  tempFile : Bool
  deriving DecidableEq

structure FilesInformation where
  filesToTransfare : Option (List FileInfo)
  emptyFoldersToTransfare : Option (List FileInfo)
  totalFoldersNumber : UInt64
  machineId : String
  ask : Bool
  sendingText : Bool
  noCompress : Bool
  hashAlgorithm : String
  deriving DecidableEq

namespace FilesInformation

def totalItems (files : FilesInformation) : ℕ :=
  files.filesToTransfare.elim 0 List.length + files.emptyFoldersToTransfare.elim 0 List.length

/-- The sum of `i64` sizes from left to right; with overflow checks it may panic, without them it
wraps. -/
def sumSizes (overflowChecks : Bool) : Int64 → List Int64 → Option Int64
  | acc, [] => some acc
  | acc, size :: sizes =>
    if overflowChecks ∧ (acc + size).toInt ≠ acc.toInt + size.toInt then none
    else sumSizes overflowChecks (acc + size) sizes

theorem toInt_add_of_lt {a b : Int64} (ha : 0 ≤ a.toInt) (hb : 0 ≤ b.toInt)
    (h : a.toInt + b.toInt < 2 ^ 63) : (a + b).toInt = a.toInt + b.toInt := by
  rw [Int64.toInt_add]
  exact Int.bmod_eq_of_le_mul_two (by omega) (by omega)

theorem sumSizes_unchecked (acc : Int64) (sizes : List Int64) :
    (sumSizes false acc sizes).isSome = true := by
  induction sizes generalizing acc with
  | nil => rfl
  | cons size sizes ih =>
    unfold sumSizes
    simpa using ih (acc + size)

/-- Sizes that are not negative can be added up if the sum fits, or if nobody checks. -/
theorem sumSizes_isSome_iff {overflowChecks : Bool} {acc : Int64} {sizes : List Int64}
    (hacc : 0 ≤ acc.toInt) (hsizes : ∀ size ∈ sizes, 0 ≤ size.toInt) :
    (sumSizes overflowChecks acc sizes).isSome = true ↔
      (overflowChecks = true → acc.toInt + (sizes.map Int64.toInt).sum < 2 ^ 63) := by
  cases overflowChecks with
  | false => simp [sumSizes_unchecked]
  | true =>
    induction sizes generalizing acc with
    | nil => simpa [sumSizes] using acc.toInt_lt
    | cons size sizes ih =>
      rw [List.forall_mem_cons] at hsizes
      obtain ⟨hsize, hsizes⟩ := hsizes
      have hrest : 0 ≤ (sizes.map Int64.toInt).sum :=
        List.sum_nonneg (by simpa using hsizes)
      rw [List.map_cons, List.sum_cons, ← add_assoc]
      by_cases hfits : acc.toInt + size.toInt < 2 ^ 63
      · have hadd := toInt_add_of_lt hacc hsize hfits
        rw [sumSizes, if_neg (by simp [hadd]), ih (by omega) hsizes, hadd]
      · have hne : (acc + size).toInt ≠ acc.toInt + size.toInt := by
          have := (acc + size).toInt_lt
          omega
        rw [sumSizes, if_pos ⟨rfl, hne⟩]
        simp only [Option.isSome_none, Bool.false_eq_true, forall_const, false_iff]
        omega

def totalSize (overflowChecks : Bool) (files : FilesInformation) : Option Int64 :=
  files.filesToTransfare.elim (some 0) fun list =>
    sumSizes overflowChecks 0 (list.map FileInfo.size)

end FilesInformation

structure TypeErrorMessage where
  message : String
  deriving DecidableEq

inductive Message where
  | pake (msg : PakeMessage)
  | externalIP (msg : ExternalIPMessage)
  | filesInfo (msg : FilesInformation)
  | typeRecipientReady (msg : RemoteFileRequest)
  | typeError (msg : TypeErrorMessage)
  | finished
  deriving DecidableEq

end Croc
