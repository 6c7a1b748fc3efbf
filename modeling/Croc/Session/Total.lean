import Croc.Session.Consent

/-! The number in the question to the user, and the bytes that the receive loop reserves for the
files of the offer: a sum of signed sizes, and a length without sign for each of them. -/
namespace Croc
open Lib

/-- What the receive loop passes to `set_len` for a file: `size as u64`. -/
def FileInfo.reserved (file : FileInfo) : ℕ := file.size.toUInt64.toNat

theorem FileInfo.reserved_cond (file : FileInfo) :
    file.size.toInt = if 2 * file.reserved < 2 ^ 64 then (file.reserved : ℤ)
      else (file.reserved : ℤ) - 2 ^ 64 := BitVec.toInt_eq_toNat_cond file.size.toBitVec

theorem FileInfo.reserved_of_nonneg {file : FileInfo} (h : 0 ≤ file.size.toInt) :
    (file.reserved : ℤ) = file.size.toInt := by
  have hcond := file.reserved_cond
  have hlt : file.reserved < 2 ^ 64 := file.size.toUInt64.toNat_lt
  split at hcond <;> omega

/-- A size below zero becomes a length that no file can have. -/
theorem FileInfo.le_reserved_of_neg {file : FileInfo} (h : file.size.toInt < 0) :
    2 ^ 63 ≤ file.reserved := by
  have hcond := file.reserved_cond
  split at hcond <;> omega

/-- The sizes of a list are exact numbers of bytes, and so is their sum. -/
def Countable (list : List FileInfo) : Prop :=
  (∀ file ∈ list, 0 ≤ file.size.toInt) ∧ (list.map fun file => file.size.toInt).sum < 2 ^ 63

theorem sum_reserved {list : List FileInfo} (h : ∀ file ∈ list, 0 ≤ file.size.toInt) :
    ((list.map FileInfo.reserved).sum : ℤ) = (list.map fun file => file.size.toInt).sum := by
  induction list with
  | nil => rfl
  | cons file list ih =>
    rw [List.forall_mem_cons] at h
    rw [List.map_cons, List.map_cons, List.sum_cons, List.sum_cons, Nat.cast_add,
      FileInfo.reserved_of_nonneg h.1, ih h.2]

/-- The lengths add up to less than `i64::MAX` for countable sizes only. -/
theorem countable_iff (list : List FileInfo) :
    Countable list ↔ (list.map FileInfo.reserved).sum < 2 ^ 63 := by
  constructor
  · rintro ⟨hnonneg, hsum⟩
    have := sum_reserved hnonneg
    omega
  · intro h
    have hnonneg : ∀ file ∈ list, 0 ≤ file.size.toInt := by
      intro file hfile
      by_contra hneg
      have hmem := List.mem_map_of_mem (f := FileInfo.reserved) hfile
      have hle := List.single_le_sum (by simp) _ hmem
      have := FileInfo.le_reserved_of_neg (not_le.mp hneg)
      omega
    have := sum_reserved hnonneg
    exact ⟨hnonneg, by omega⟩

instance (list : List FileInfo) : Decidable (Countable list) :=
  decidable_of_iff' _ (countable_iff list)

namespace FilesInformation

/-- Sizes that are countable together are added up exactly. -/
theorem sumSizes_exact (overflowChecks : Bool) (acc : Int64) (sizes : List Int64)
    (hacc : 0 ≤ acc.toInt) (hsizes : ∀ size ∈ sizes, 0 ≤ size.toInt)
    (hfits : acc.toInt + (sizes.map Int64.toInt).sum < 2 ^ 63) :
    ∃ total, sumSizes overflowChecks acc sizes = some total ∧
      total.toInt = acc.toInt + (sizes.map Int64.toInt).sum := by
  induction sizes generalizing acc with
  | nil => exact ⟨acc, rfl, by simp⟩
  | cons size sizes ih =>
    rw [List.forall_mem_cons] at hsizes
    obtain ⟨hsize, hsizes⟩ := hsizes
    have hrest : 0 ≤ (sizes.map Int64.toInt).sum := List.sum_nonneg (by simpa using hsizes)
    rw [List.map_cons, List.sum_cons] at hfits ⊢
    have hadd := toInt_add_of_lt hacc hsize (by omega)
    obtain ⟨total, htotal, heq⟩ := ih (acc + size) (by omega) hsizes (by omega)
    refine ⟨total, ?_, by omega⟩
    rw [sumSizes, if_neg (by simp [hadd]), htotal]

/-- The total of an offer is what is reserved for its files, if the sizes are countable. -/
theorem totalSize_exact {files : FilesInformation}
    (h : Countable (files.filesToTransfare.getD [])) (overflowChecks : Bool) :
    ∃ total, files.totalSize overflowChecks = some total ∧
      total.toInt = ((files.filesToTransfare.getD []).map FileInfo.reserved).sum := by
  obtain ⟨hnonneg, hsum⟩ := h
  rw [sum_reserved hnonneg]
  unfold totalSize
  cases hfiles : files.filesToTransfare with
  | none => exact ⟨0, rfl, rfl⟩
  | some list =>
    rw [hfiles, Option.getD_some] at hnonneg hsum
    have hmap : (list.map FileInfo.size).map Int64.toInt = list.map fun file => file.size.toInt :=
      List.map_map
    obtain ⟨total, htotal, heq⟩ := sumSizes_exact overflowChecks 0 (list.map FileInfo.size) le_rfl
      (by simpa using hnonneg) (by rw [hmap]; simpa using hsum)
    refine ⟨total, htotal, ?_⟩
    rw [heq, hmap]
    exact zero_add _

end FilesInformation

namespace Session
variable {X : External} {W : World} {c : Setup} {s : Session X}

/-- The bytes that the receive loop is going to reserve, one file after the other. -/
def toReserve (s : Session X) : ℕ := ((s.toReceive.getD []).map FileInfo.reserved).sum

/-- The user has been asked about an offer after `asked` other questions, and the number in the
question is what the receive loop reserves for the files of the offer. -/
def ShownExactly (asked : ℕ) (files : FilesInformation) (s : Session X) : Prop :=
  ∃ total, s.prompts[asked]? = some (.receive files.totalItems total) ∧
    total.toInt = s.toReserve

/-- The receive loop gives the file at `index` its length. -/
theorem requestFile_reserves (index : ℕ) :
    Post (requestFile W index) s
      (fun p t => p = .recv ∨ ∃ file loc, s.toReceive.bind (·[index]?) = some file ∧
        p = .chunks index loc (totalChunks file) [] ∧ (t.disk loc).length = file.reserved)
      (fun _ _ => True) := by
  apply (requestFile_spec index).mono _ fun _ _ _ => trivial
  rintro p t (⟨-, rfl, -⟩ | ⟨file, loc, hfile, -, rfl, rfl⟩)
  · exact Or.inl rfl
  · exact Or.inr ⟨file, loc, hfile, rfl, by simp [FileInfo.reserved]⟩

/-- The question about the total is asked if the total can be computed. -/
theorem onFilesInfo_asked (hs : c.isSender = false) (hst : s.state = .fileInfoTransfare)
    {files : FilesInformation} {total : Int64}
    (htotal : files.totalSize W.overflowChecks = some total) :
    Post (onMessage W c (.filesInfo files)) s
      (fun _ t => s.prompts ++ [.receive files.totalItems total] <+: t.prompts)
      (fun _ t => s.prompts ++ [.receive files.totalItems total] <+: t.prompts) := by
  have hafter : ∀ {u : Session X}, s.prompts ++ [.receive files.totalItems total] <+: u.prompts →
      Post (afterMessage W c) u
        (fun _ t => s.prompts ++ [.receive files.totalItems total] <+: t.prompts)
        (fun _ t => s.prompts ++ [.receive files.totalItems total] <+: t.prompts) :=
    fun hu => afterMessage_quietly.mono (fun _ t ht => ht.1 ▸ hu) fun _ t ht => ht.1 ▸ hu
  have hask : Post (createEmptyFolders W files)
      { s with
        filesToReceive := some files, prompts := s.prompts ++ [.receive files.totalItems total] }
      (fun _ t => s.prompts ++ [.receive files.totalItems total] <+: t.prompts)
      (fun _ t => s.prompts ++ [.receive files.totalItems total] <+: t.prompts) :=
    createEmptyFolders_prompts files
  unfold onMessage
  simp only [processFilesInfo, post_bind, post_get, post_ite, post_lift, post_modify, post_ask,
    post_send, post_throw, orErr_eq_ok, orErr_eq_error, htotal]
  refine ⟨fun h => by simp [hs] at h, fun _ => ⟨fun h => absurd hst h, fun _ => ⟨?_, ?_⟩⟩⟩
  · rintro _ ⟨⟩
    refine ⟨fun yes _ => ⟨fun _ => ⟨fun _ => List.prefix_rfl, fun _ _ => List.prefix_rfl⟩,
      fun _ => hask.mono (fun _ u hu => ?_) fun _ _ hu => hu⟩, fun _ => List.prefix_rfl⟩
    exact ⟨fun _ => ⟨fun _ => hafter hu, fun _ _ => hu⟩, fun _ => hafter hu⟩
  · rintro _ ⟨h, -⟩
    simp at h

/-- If it cannot, the user is not asked. -/
theorem onFilesInfo_unasked (hs : c.isSender = false) (hst : s.state = .fileInfoTransfare)
    {files : FilesInformation} (htotal : files.totalSize W.overflowChecks = none) :
    Post (onMessage W c (.filesInfo files)) s (fun _ _ => False)
      (fun _ t => t.prompts = s.prompts) := by
  unfold onMessage processFilesInfo
  simp [hs, hst, htotal]

theorem toReserve_of_offer (hs : c.isSender = false) (hst : s.state = .fileInfoTransfare)
    (files : FilesInformation) :
    (run (onMessage W c (.filesInfo files)) s).toReserve =
      ((files.filesToTransfare.getD []).map FileInfo.reserved).sum := by
  have hfiles : (run (onMessage W c (.filesInfo files)) s).filesToReceive = some files := by
    apply run_of_post (I := fun t : Session X => t.filesToReceive = some files)
    apply (onFilesInfo_spec hs hst files).mono
    · rintro p t ⟨u, -, ⟨rfl, -, rfl⟩ | ⟨rfl, -, rfl⟩⟩ <;> rfl
    · rintro h t ⟨-, u, l, -, -, rfl⟩
      rfl
  rw [toReserve, toReceive, hfiles]
  rfl

/-- When an offer comes to a receiver, the number in the question to the user is the number of bytes
that are reserved if and only if the sizes are countable. -/
theorem shownExactly_iff {files : FilesInformation} {t : Session X} (hs : c.isSender = false)
    (hst : s.state = .fileInfoTransfare) (he : step W c s (.message (.filesInfo files)) = some t) :
    ShownExactly s.prompts.length files t ↔ Countable (files.filesToTransfare.getD []) := by
  obtain ⟨-, rfl⟩ := message_of_step he
  have hreserve := toReserve_of_offer (W := W) hs hst files
  rw [ShownExactly, hreserve]
  cases htotal : files.totalSize W.overflowChecks with
  | none =>
    have hprompts : (run (onMessage W c (.filesInfo files)) s).prompts = s.prompts := by
      apply run_of_post (I := fun t : Session X => t.prompts = s.prompts)
      exact (onFilesInfo_unasked hs hst htotal).mono (fun _ _ h => h.elim) fun _ _ h => h
    constructor
    · rintro ⟨total, hq, -⟩
      simp [hprompts] at hq
    · intro hcount
      obtain ⟨total, hsome, -⟩ := FilesInformation.totalSize_exact hcount W.overflowChecks
      simp [htotal] at hsome
  | some total =>
    have hq : (run (onMessage W c (.filesInfo files)) s).prompts[s.prompts.length]? =
        some (.receive files.totalItems total) := by
      obtain ⟨more, hmore⟩ := run_of_post (I := fun t : Session X =>
        s.prompts ++ [Prompt.receive files.totalItems total] <+: t.prompts)
        (onFilesInfo_asked hs hst htotal)
      rw [← hmore, List.append_assoc, List.getElem?_append_right le_rfl, Nat.sub_self]
      rfl
    constructor
    · rintro ⟨shown, hshown, heq⟩
      have := shown.toInt_lt
      exact (countable_iff _).mpr (by omega)
    · intro hcount
      obtain ⟨exact, hsome, heq⟩ := FilesInformation.totalSize_exact hcount W.overflowChecks
      obtain rfl : total = exact := Option.some.inj (htotal.symm.trans hsome)
      exact ⟨total, hq, heq⟩

/-- The receiver of a plain offer has come to the point where it waits for it, and what the offer
then leads to passes the test `p`. -/
def awaitsOffer (list : List FileInfo) (p : Session .transparent → Bool)
    (s : Session .transparent) : Bool :=
  s.state == .fileInfoTransfare && (step (.calm (.plain [[104]] 5)) (.receiver "12345abc") s
    (.message (.filesInfo (.plain list)))).any p

theorem of_awaitsOffer {list : List FileInfo} {p : Session .transparent → Bool}
    {s : Session .transparent} (h : awaitsOffer list p s = true) :
    s.state = .fileInfoTransfare ∧ ∃ t, step (.calm (.plain [[104]] 5)) (.receiver "12345abc") s
      (.message (.filesInfo (.plain list))) = some t ∧ p t = true := by
  obtain ⟨hst, ht⟩ := Bool.and_eq_true_iff.mp h
  exact ⟨eq_of_beq hst, (Option.any_eq_true _ _).mp ht⟩

/-- For sizes 5 and 7 the user is asked about 12 bytes, and 12 bytes are reserved. -/
theorem twoSizes_shownExactly : ∃ s t : Session .transparent,
    (machine .transparent (.calm (.plain [[104]] 5)) (.receiver "12345abc")).Reachable s ∧
      step (.calm (.plain [[104]] 5)) (.receiver "12345abc") s
        (.message (.filesInfo (.plain [.plain "a.txt" "./" 5, .plain "b.txt" "./" 7]))) = some t ∧
      t.prompts = [.receive 2 12] ∧
      ShownExactly s.prompts.length (.plain [.plain "a.txt" "./" 5, .plain "b.txt" "./" 7]) t := by
  obtain ⟨s, hs, hp⟩ := Machine.ReachableBy.exists_of_exec
    (M := machine .transparent (.calm (.plain [[104]] 5)) (.receiver "12345abc"))
    (fun _ _ => True) (awaitsOffer [.plain "a.txt" "./" 5, .plain "b.txt" "./" 7]
      fun t => decide (t.prompts = [.receive 2 12]))
    (senderHello []).dropLast (by decide +kernel)
  obtain ⟨hst, t, he, hprompts⟩ := of_awaitsOffer hp
  have hcount : Countable [.plain "a.txt" "./" 5, .plain "b.txt" "./" 7] := by decide
  exact ⟨s, t, hs, he, of_decide_eq_true hprompts,
    (shownExactly_iff (Setup.receiver_isSender _) hst he).mpr hcount⟩

/-- For sizes 10 and -7 the user is asked about 3 bytes. -/
theorem negativeSize_shown : ∃ s t : Session .transparent,
    (machine .transparent (.calm (.plain [[104]] 5)) (.receiver "12345abc")).Reachable s ∧
      step (.calm (.plain [[104]] 5)) (.receiver "12345abc") s
        (.message (.filesInfo (.plain [.plain "a.txt" "./" 10, .plain "b.txt" "./" (-7)]))) =
          some t ∧
      t.prompts = [.receive 2 3] ∧ t.toReserve = 2 ^ 64 + 3 ∧
      ∀ asked, ¬ ShownExactly asked
        (.plain [.plain "a.txt" "./" 10, .plain "b.txt" "./" (-7)]) t := by
  obtain ⟨s, hs, hp⟩ := Machine.ReachableBy.exists_of_exec
    (M := machine .transparent (.calm (.plain [[104]] 5)) (.receiver "12345abc"))
    (fun _ _ => True) (awaitsOffer [.plain "a.txt" "./" 10, .plain "b.txt" "./" (-7)]
      fun t => decide (t.prompts = [.receive 2 3] ∧ t.toReserve = 2 ^ 64 + 3))
    (senderHello []).dropLast (by decide +kernel)
  obtain ⟨-, t, he, hp⟩ := of_awaitsOffer hp
  obtain ⟨hprompts, hreserve⟩ := of_decide_eq_true hp
  refine ⟨s, t, hs, he, hprompts, hreserve, ?_⟩
  rintro asked ⟨total, -, htotal⟩
  have := total.toInt_lt
  omega

end Session

end Croc
