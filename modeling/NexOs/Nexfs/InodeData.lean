import NexOs.Nexfs.Shrink

/-! Reading and writing the data of an inode. The loops go block by block;
together they read and overwrite a range of the inode's data blocks. -/
namespace NexOs.Nexfs
open List Bytes Storage Function Exec

section
variable {sb : Superblock} {V : View} {I : Inode} {i : Nat} {x : List UInt8}

section
variable (h : Intact sb V I) (hs : Sized sb V) (hi : i < I.blockCount)
include h hs hi

theorem Intact.pointer_ne : V.pointer I i ≠ I.indirectBlock := by
  by_cases hz : I.indirectBlock = 0
  · rw [hz]
    exact h.pointer_ne_zero hs hi
  · exact h.pointer_ne_indirect hi (.inr hz)

theorem Intact.overwrite_pointer :
    ({ V with data := update V.data (V.pointer I i) x } : View).pointer I = V.pointer I :=
  View.pointer_congr rfl (update_of_ne (h.pointer_ne hs hi).symm ..)

theorem Intact.overwrite_owned :
    ({ V with data := update V.data (V.pointer I i) x } : View).owned I = V.owned I := by
  simp only [View.owned, View.blocks, h.overwrite_pointer hs hi]

theorem Intact.overwrite_edit :
    Edit sb V I { V with data := update V.data (V.pointer I i) x } I := by
  have howned := h.overwrite_owned hs hi (x := x)
  refine ⟨h, ⟨h.fits, h.count_le, ?_, ?_, ?_, ?_⟩, rfl, rfl, ?_, ?_, fun _ _ _ => rfl, ?_⟩
  · rw [h.overwrite_pointer hs hi]
    exact h.unused
  · rw [howned]
    exact h.range
  · rw [howned]
    exact h.nodup
  · rw [howned]
    exact h.bits
  · intro b hb
    rw [howned] at hb
    exact .inl hb
  · intro b hb hn
    rw [howned] at hn
    exact absurd hb hn
  · intro b hb _
    exact update_of_ne (by rintro rfl; exact hb (View.pointer_mem_owned hi)) ..

end

theorem Intact.nodup_blocks (h : Intact sb V I) : (V.blocks I).Nodup :=
  (nodup_append.mp h.nodup).1

theorem Intact.overwrite_bytes (h : Intact sb V I) (hs : Sized sb V) (hi : i < I.blockCount)
    (hx : x.length = 4096) :
    ({ V with data := update V.data (V.pointer I i) x } : View).fileBytes I =
      splice (V.fileBytes I) (4096 * i) x := by
  simp only [View.fileBytes, View.blocks, h.overwrite_pointer hs hi]
  exact flatMap_update (h.data_length hs) h.nodup_blocks (View.getElem?_blocks hi) hx

end

namespace NexFs
variable {fs : NexFs} {I : Inode}

theorem readInodeDataFrom_run (h : Mounted fs) (hI : Intact fs.superblock fs.view I)
    {offset length : Nat} (hend : offset + length ≤ 4096 * I.blockCount) (completed : Nat)
    (output : List UInt8) (hc : completed ≤ length) (ho : length ≤ output.length) :
    readInodeDataFrom I offset length completed output fs =
      (.ok (splice output completed
        (slice (fs.view.fileBytes I) (offset + completed) (length - completed))), fs) := by
  have hle := hI.count_le
  have hbytes := hI.length_fileBytes h.sized
  induction hk : length - completed using Nat.strong_induction_on generalizing completed output
    with
  | _ k ih =>
    rw [readInodeDataFrom]
    by_cases hlt : completed < length
    · have hi : (offset + completed) / 4096 < I.blockCount := by omega
      have hr := hI.pointer_range hi
      have hslice := hI.slice_fileBytes h.sized hi
      rw [if_pos hlt, addU64_eq (by omega), lift_ok_bind]
      simp only [blockSize]
      rw [bind_of_ok (dataBlock_run h hI hi), okOr_some, pure_bind_run,
        bind_of_ok (readData_run h hr.1 hr.2), ← hslice]
      obtain ⟨amount, hamount⟩ :
          ∃ a, a = min (4096 - (offset + completed) % 4096) (length - completed) := ⟨_, rfl⟩
      have hchunk : slice (slice (fs.view.fileBytes I) (4096 * ((offset + completed) / 4096)) 4096)
          ((offset + completed) % 4096) amount =
          slice (fs.view.fileBytes I) (offset + completed) amount := by
        rw [slice_slice (by omega), Nat.div_add_mod]
      have hlen : (slice (fs.view.fileBytes I) (offset + completed) amount).length = amount :=
        length_slice (by omega)
      rw [← hamount, rangeOf_eq (by rw [length_slice (by omega)]; omega), lift_ok_bind,
        Nat.add_sub_cancel_left, hchunk, copyInto_eq (by omega), lift_ok_bind,
        ih (length - (completed + amount)) (by omega) (completed + amount) _ (by omega)
          (by rw [length_splice (by omega)]; exact ho) rfl]
      have hk' : k = amount + (length - (completed + amount)) := by omega
      rw [hk', slice_add, ← splice_splice_append (by omega), hlen, Nat.add_assoc]
    · rw [if_neg hlt, show k = 0 by omega]
      simp [slice, splice_nil]

theorem readInodeData_run (h : Mounted fs) (hI : Intact fs.superblock fs.view I)
    (hsize : I.size ≤ 4096 * I.blockCount) (offset : Nat) (output : List UInt8) :
    readInodeData I offset output fs =
      (.ok (min output.length (I.size - offset),
        slice (fs.view.content I) offset (min output.length (I.size - offset)) ++
          output.drop (min output.length (I.size - offset))), fs) := by
  unfold readInodeData
  by_cases hskip : offset ≥ I.size ∨ output = []
  · have hzero : min output.length (I.size - offset) = 0 := by
      rcases hskip with hge | rfl
      · omega
      · exact Nat.zero_min _
    rw [if_pos hskip, hzero]
    rfl
  · rw [if_neg hskip]
    rw [bind_of_ok (readInodeDataFrom_run h hI (by omega) 0 output (by omega) (by omega))]
    obtain ⟨n, hn⟩ : ∃ n, n = min output.length (I.size - offset) := ⟨_, rfl⟩
    have hlen : (slice (fs.view.fileBytes I) offset n).length = n :=
      length_slice (by rw [hI.length_fileBytes h.sized]; omega)
    rw [← hn, Nat.add_zero, Nat.sub_zero, View.content, slice_take (by omega)]
    simp only [splice, Nat.zero_add, hlen]
    rfl

theorem writeChunk_run (h : Mounted fs) (hI : Intact fs.superblock fs.view I) (ht : Tight I) {chunk : List UInt8} (hi : i < I.blockCount)
    (hfit : start + chunk.length ≤ 4096) :
    ∃ fs', writeBlock (fs.view.pointer I i)
        (splice (fs.view.data (fs.view.pointer I i)) start chunk) fs = (.ok (), fs') ∧
      Extends fs I fs' I (splice (fs.view.fileBytes I) (4096 * i + start) chunk) := by
  have hr := hI.pointer_range hi
  have hblock := h.sized.inside _ hr
  have hlen : (splice (fs.view.data (fs.view.pointer I i)) start chunk).length = 4096 := by
    rw [length_splice (by omega), hblock]
  have hbytes := hI.length_fileBytes h.sized
  obtain ⟨fs', hrun, hw⟩ := writeData_run h hr.1 hr.2 hlen
  refine ⟨fs', hrun, ⟨hw.steps, hw.superblock, rfl⟩, ?_, .refl I, ht, le_rfl, ?_⟩
  · rw [hw.view]
    exact hI.overwrite_edit h.sized hi
  · rw [hw.view]
    refine (hI.overwrite_bytes h.sized hi hlen).trans ?_
    rw [← hI.slice_fileBytes h.sized hi, splice_range (by omega) hfit]

variable {offset n length : Nat} {input : List UInt8}

theorem writeInodeDataFrom_run (h : Mounted fs) (hI : Intact fs.superblock fs.view I) (ht : Tight I)
    (hend : offset + input.length ≤ 4096 * I.blockCount) (completed : Nat)
    (hc : completed ≤ input.length) :
    ∃ fs', writeInodeDataFrom I offset input completed fs = (.ok (), fs') ∧
      Extends fs I fs' I
        (splice (fs.view.fileBytes I) (offset + completed) (input.drop completed)) := by
  have hle := hI.count_le
  induction hk : input.length - completed using Nat.strong_induction_on
    generalizing completed fs with
  | _ k ih =>
    rw [writeInodeDataFrom]
    by_cases hlt : completed < input.length
    · have hi : (offset + completed) / 4096 < I.blockCount := by omega
      have hr := hI.pointer_range hi
      have hblock := h.sized.inside _ hr
      have hbytes := hI.length_fileBytes h.sized
      obtain ⟨amount, hamount⟩ : ∃ a, a =
          min (4096 - (offset + completed) % 4096) (input.length - completed) := ⟨_, rfl⟩
      have hlen : (slice input completed amount).length = amount := length_slice (by omega)
      obtain ⟨fs₁, hrun₁, hext₁⟩ := writeChunk_run h hI ht hi
        (show (offset + completed) % 4096 + (slice input completed amount).length ≤ 4096 by omega)
      rw [Nat.div_add_mod] at hext₁
      obtain ⟨fs₂, hrun₂, hext₂⟩ := ih (input.length - (completed + amount)) (by omega)
        (hext₁.mounted h) hext₁.intact (completed + amount) (by omega) rfl
      refine ⟨fs₂, ?_, ?_⟩
      · rw [if_pos hlt, addU64_eq (by omega), lift_ok_bind]
        simp only [blockSize]
        rw [bind_of_ok (dataBlock_run h hI hi), okOr_some, pure_bind_run,
          ← hamount, rangeOf_eq (by omega)]
        split
        · rw [bind_of_ok (readData_run h hr.1 hr.2), lift_ok_bind, Nat.add_sub_cancel_left,
            copyInto_eq (by omega), lift_ok_bind, bind_of_ok hrun₁, hrun₂]
        · -- A block that is overwritten whole is not read first.
          have hfull : (slice input completed amount).length = 4096 := by omega
          have hzero : (replicate 4096 (0 : UInt8)).length = 4096 := length_replicate
          rw [show (offset + completed) % 4096 = 0 by omega,
            splice_full (hfull.trans hblock.symm)] at hrun₁
          rw [pure_bind_run, lift_ok_bind, Nat.add_sub_cancel_left, copyInto_eq (by omega),
            lift_ok_bind, show (offset + completed) % 4096 = 0 by omega,
            splice_full (hfull.trans hzero.symm), bind_of_ok hrun₁, hrun₂]
      · have hdrop : input.drop completed =
            slice input completed amount ++ input.drop (completed + amount) := by
          rw [slice, ← drop_drop, take_append_drop]
        have hall := hext₁.trans hext₂
        rw [hext₁.bytes] at hall
        rw [hdrop, ← splice_splice_append (by omega), hlen, Nat.add_assoc]
        exact hall
    · rw [if_neg hlt, drop_of_length_le (by omega), splice_nil]
      exact ⟨fs, rfl, .refl h hI ht⟩

theorem ensureDataBlocks_enough (hn : n ≤ I.blockCount) (hle : I.blockCount ≤ 524) :
    ensureDataBlocks I n fs = (.ok I, fs) := by
  unfold ensureDataBlocks
  rw [ensure_bind_pos
    (by simp only [maxFileBlocks, directBlocks, indirectPointers, blockSize]; omega),
    show n - I.blockCount = 0 by omega]
  rfl

theorem ensureFileSizeSupported_run (hn : n ≤ 524 * 4096) :
    ensureFileSizeSupported n fs = (.ok (), fs) := by
  unfold ensureFileSizeSupported ensure
  rw [lift_run, Result.ensure_pos]
  simp only [dataBlocksForSize, divCeil, maxFileBlocks, directBlocks, indirectPointers, blockSize]
  omega

theorem ensureFileSizeSupported_tooLarge (hn : 524 * 4096 < n) :
    ensureFileSizeSupported n fs = (.error (.error .fileTooLarge), fs) := by
  unfold ensureFileSizeSupported ensure
  rw [Result.ensure_neg]
  · rfl
  simp only [dataBlocksForSize, divCeil, maxFileBlocks, directBlocks, indirectPointers, blockSize]
  omega

theorem writeInodeData_inside (h : Mounted fs) (hI : Intact fs.superblock fs.view I) (ht : Tight I)
    (hend : offset + input.length ≤ 4096 * I.blockCount) :
    ∃ fs', writeInodeData I offset input fs = (.ok I, fs') ∧
      Extends fs I fs' I (splice (fs.view.fileBytes I) offset input) := by
  have hle := hI.count_le
  unfold writeInodeData
  by_cases hne : input = []
  · rw [hne, splice_nil]
    exact ⟨fs, rfl, .refl h hI ht⟩
  · obtain ⟨fs', hrun, hext⟩ := writeInodeDataFrom_run h hI ht hend 0 (Nat.zero_le _)
    rw [if_neg hne, checkedAdd_eq (by omega), okOr_some, pure_bind_run,
      bind_of_ok (ensureFileSizeSupported_run (by omega)),
      bind_of_ok (ensureDataBlocks_enough
        (by simp only [dataBlocksForSize, divCeil, blockSize]; omega) hle),
      bind_of_ok hrun]
    exact ⟨fs', rfl, hext⟩

theorem ensureDataBlocks_then (h : Mounted fs) (hI : Intact fs.superblock fs.view I) (ht : Tight I)
    (hn : n ≤ 524) {body : Inode → Method Inode} {bytes : List UInt8}
    (hbody : ∀ I₁ fs₁, Grows fs I fs₁ I₁ (n - I.blockCount) →
      ∃ fs₂, body I₁ fs₁ = (.ok I₁, fs₂) ∧ Extends fs₁ I₁ fs₂ I₁ bytes) :
    Rationed fs I (max I.blockCount n) (ensureDataBlocks I n >>= body) fun I' fs' =>
      I'.blockCount = max I.blockCount n ∧ Extends fs I fs' I' bytes := by
  rcases ensureDataBlocks_run h hI ht hn with ⟨hle, I₁, fs₁, hrun₁, hg⟩ | ⟨hlt, fs₁, hrun₁⟩
  · have hcount := hg.count
    obtain ⟨fs₂, hrun₂, hext⟩ := hbody I₁ fs₁ hg
    exact .inl ⟨hle, I₁, fs₂, (bind_of_ok hrun₁).trans hrun₂, by omega,
      hg.toExtends.trans hext⟩
  · exact .inr ⟨hlt, fs₁, bind_of_error hrun₁⟩

theorem dataBlocksForSize_le (h : n ≤ 524 * 4096) : dataBlocksForSize n ≤ 524 := by
  simp only [dataBlocksForSize, divCeil, blockSize]
  omega

theorem Grows.size_le
    (h : Grows fs I fs' I' (dataBlocksForSize n - I.blockCount)) : n ≤ 4096 * I'.blockCount := by
  have hcount := h.count
  simp only [dataBlocksForSize, divCeil, blockSize] at hcount
  omega

variable (h : Mounted fs) (hI : Intact fs.superblock fs.view I) (ht : Tight I)
include h hI ht

theorem writeInodeData_run (hne : input ≠ []) (hend : offset + input.length ≤ 524 * 4096) :
    Rationed fs I (max I.blockCount (dataBlocksForSize (offset + input.length)))
      (writeInodeData I offset input) fun I' fs' =>
        I'.blockCount = max I.blockCount (dataBlocksForSize (offset + input.length)) ∧
        Extends fs I fs' I' (splice (fs.view.fileBytes I ++ replicate
          (4096 * (dataBlocksForSize (offset + input.length) - I.blockCount)) 0) offset input) := by
  unfold Rationed writeInodeData
  rw [if_neg hne, checkedAdd_eq (by omega), okOr_some, pure_bind_run,
    bind_of_ok (ensureFileSizeSupported_run hend)]
  apply ensureDataBlocks_then h hI ht (dataBlocksForSize_le hend)
  intro I₁ fs₁ hg
  obtain ⟨fs₂, hrun₂, hext⟩ := writeInodeDataFrom_run (hg.mounted h) hg.intact hg.tight
    (Grows.size_le hg) 0 (Nat.zero_le _)
  rw [hg.bytes] at hext
  exact ⟨fs₂, by rw [bind_of_ok hrun₂]; rfl, hext⟩

theorem zeroRangeFrom_run (hend : offset + length ≤ 4096 * I.blockCount) (completed : Nat)
    (hc : completed ≤ length) :
    ∃ fs', zeroRangeFrom I offset length completed fs = (.ok I, fs') ∧
      Extends fs I fs' I (splice (fs.view.fileBytes I) (offset + completed)
        (replicate (length - completed) 0)) := by
  have hle := hI.count_le
  induction hk : length - completed using Nat.strong_induction_on generalizing completed fs with
  | _ k ih =>
    rw [zeroRangeFrom]
    by_cases hlt : completed < length
    · obtain ⟨amount, hamount⟩ : ∃ a, a = min (length - completed) 4096 := ⟨_, rfl⟩
      have hlen : (replicate amount (0 : UInt8)).length = amount := length_replicate
      obtain ⟨fs₁, hrun₁, hext₁⟩ := writeInodeData_inside h hI ht
        (show offset + completed + (replicate amount (0 : UInt8)).length ≤
          4096 * I.blockCount by omega)
      obtain ⟨fs₂, hrun₂, hext₂⟩ := ih (length - (completed + amount)) (by omega)
        (hext₁.mounted h) hext₁.intact (completed + amount) (by omega) rfl
      have hbytes := hI.length_fileBytes h.sized
      refine ⟨fs₂, ?_, ?_⟩
      · rw [if_pos hlt]
        rw [addU64_eq (by omega), lift_ok_bind, ← hamount, bind_of_ok hrun₁, hrun₂]
      · have hall := hext₁.trans hext₂
        have hk' : k = amount + (length - (completed + amount)) := by omega
        rw [hext₁.bytes] at hall
        rw [hk', replicate_add, ← splice_splice_append (by omega), hlen, Nat.add_assoc]
        exact hall
    · rw [if_neg hlt, show k = 0 by omega, replicate_zero, splice_nil]
      exact ⟨fs, rfl, .refl h hI ht⟩

theorem zeroRange_run (hpos : 0 < length) (hend : offset + length ≤ 524 * 4096) :
    Rationed fs I (max I.blockCount (dataBlocksForSize (offset + length)))
      (zeroRange I offset length) fun I' fs' =>
        I'.blockCount = max I.blockCount (dataBlocksForSize (offset + length)) ∧
        Extends fs I fs' I' (splice (fs.view.fileBytes I ++ replicate
          (4096 * (dataBlocksForSize (offset + length) - I.blockCount)) 0) offset
          (replicate length 0)) := by
  unfold Rationed zeroRange
  rw [if_neg (by omega), checkedAdd_eq (by omega), okOr_some, pure_bind_run,
    bind_of_ok (ensureFileSizeSupported_run hend)]
  apply ensureDataBlocks_then h hI ht (dataBlocksForSize_le hend)
  intro I₁ fs₁ hg
  obtain ⟨fs₂, hrun₂, hext⟩ := zeroRangeFrom_run (hg.mounted h) hg.intact hg.tight
    (Grows.size_le hg) 0 (Nat.zero_le _)
  rw [hg.bytes] at hext
  exact ⟨fs₂, hrun₂, hext⟩

end NexFs

end NexOs.Nexfs
