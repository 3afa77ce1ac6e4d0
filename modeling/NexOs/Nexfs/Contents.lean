import NexOs.Nexfs.InodeData
import NexOs.Nexfs.Spec

/-! The data parts of the operations on files, as changes of the contents. -/
namespace NexOs.Nexfs
open List Bytes Storage Function Exec

/-- The inode holds `content` now, once its size is set accordingly. -/
structure Rewrites (fs : NexFs) (I : Inode) (fs' : NexFs) (I' : Inode) (content : List UInt8) :
    Prop where
  writes : Writes fs fs' fs'.view
  edit : Edit fs.superblock fs.view I fs'.view I'
  kind : I'.kind = I.kind
  tight : Tight I'
  count : I'.blockCount = dataBlocksForSize content.length
  bytes : (fs'.view.fileBytes I').take content.length = content

theorem le_dataBlocksForSize (n : Nat) : n ≤ 4096 * dataBlocksForSize n := by
  simp only [dataBlocksForSize, divCeil, blockSize]
  omega

theorem size_le_of_count {I : Inode} (h : I.blockCount = dataBlocksForSize I.size) :
    I.size ≤ 4096 * I.blockCount := by
  rw [h]
  exact le_dataBlocksForSize I.size

theorem Intact.length_content (h : Intact sb V I)
    (hs : Sized sb V) (hc : I.blockCount = dataBlocksForSize I.size) :
    (V.content I).length = I.size := by
  have := size_le_of_count hc
  rw [View.content, length_take, h.length_fileBytes hs]
  omega

theorem dataBlocksForSize_mono (h : n ≤ m) : dataBlocksForSize n ≤ dataBlocksForSize m := by
  simp only [dataBlocksForSize, divCeil, blockSize]
  omega

theorem dataBlocksForSize_max (n m : Nat) :
    dataBlocksForSize (max n m) = max (dataBlocksForSize n) (dataBlocksForSize m) := by
  simp only [dataBlocksForSize, divCeil, blockSize]
  omega

namespace NexFs
variable {fs : NexFs} {I : Inode}

variable (h : Mounted fs) (hI : Intact fs.superblock fs.view I) (ht : Tight I)
include h hI ht

variable {input : List UInt8}

theorem writeContents_behind (hc : I.blockCount = dataBlocksForSize I.size)
    (hlt : I.size < offset) (hend : offset + input.length ≤ 524 * 4096) :
    Rationed fs I (max I.blockCount (dataBlocksForSize (offset + input.length)))
      (writeContents I offset input) fun I' fs' => I'.size = I.size ∧
        Rewrites fs I fs' I' (overwrite (fs.view.content I) offset input) := by
  have hsize := size_le_of_count hc
  have hlen := hI.length_fileBytes h.sized
  have hcontent := hI.length_content h.sized hc
  have hmono : dataBlocksForSize offset ≤ dataBlocksForSize (offset + input.length) :=
    dataBlocksForSize_mono (by omega)
  have hceil : offset ≤ 4096 * dataBlocksForSize offset := le_dataBlocksForSize offset
  have hrun : ∀ {r}, (do
        let inode ← zeroRange I I.size (offset - I.size)
        writeInodeData inode offset input : Method Inode) fs = r →
      writeContents I offset input fs = r := by
    intro r hr
    unfold writeContents
    rw [if_pos hlt, hr]
  have hzero := zeroRange_run h hI ht (show 0 < offset - I.size by omega)
    (show I.size + (offset - I.size) ≤ 524 * 4096 by omega)
  rw [show I.size + (offset - I.size) = offset by omega] at hzero
  rcases hzero with ⟨-, I₁, fs₁, hrun₁, hcount₁, hext₁⟩ | ⟨hfail, fs₁, hrun₁⟩
  · have hlen₁ := hext₁.length h
    have hfree₁ := hext₁.free_add ht
    have hsb := hext₁.writes.superblock
    have hbytes : fs₁.view.fileBytes I₁ = splice (fs.view.fileBytes I ++ replicate
        (4096 * (dataBlocksForSize offset - I.blockCount)) 0) I.size
        (replicate (offset - I.size) 0) := hext₁.bytes
    rw [← hbytes] at hlen₁
    have htake : (fs₁.view.fileBytes I₁).take offset =
        fs.view.content I ++ replicate (offset - I.size) 0 := by
      rw [hbytes, take_splice_end (by rw [length_append]; omega)
        (by rw [length_replicate]; omega), take_append_of_le_length (by omega),
        View.content]
    have hmax : max I₁.blockCount (dataBlocksForSize (offset + input.length)) =
        max I.blockCount (dataBlocksForSize (offset + input.length)) := by omega
    by_cases hne : input = []
    · have hrun₂ : writeInodeData I₁ offset input fs₁ = (.ok I₁, fs₁) := by
        unfold writeInodeData
        rw [if_pos hne]
        rfl
      subst hne
      refine .inl ⟨?_, I₁, fs₁, hrun (by rw [bind_of_ok hrun₁, hrun₂]), hext₁.record.size,
        hext₁.writes, hext₁.edit, hext₁.record.kind, hext₁.tight, ?_, ?_⟩
      · rw [length_nil, Nat.add_zero, ← hcount₁]
        omega
      · rw [hcount₁, length_overwrite, hcontent, dataBlocksForSize_max, hc, length_nil,
          Nat.add_zero]
      · rw [length_overwrite, length_nil, Nat.add_zero, Nat.max_eq_right (by omega),
          htake, overwrite_behind (by omega), hcontent, append_nil]
    · rcases writeInodeData_run (hext₁.mounted h) hext₁.intact hext₁.tight hne hend with
        ⟨hle₂, I₂, fs₂, hrun₂, hcount₂, hext₂⟩ | ⟨hlt₂, fs₂, hrun₂⟩
      · rw [hsb] at hle₂
        have hall := hext₁.trans hext₂
        refine .inl ⟨?_, I₂, fs₂, hrun (by rw [bind_of_ok hrun₁, hrun₂]), hall.record.size,
          hall.writes, hall.edit, hall.record.kind, hall.tight, ?_, ?_⟩
        · rw [hmax] at hle₂
          omega
        · rw [hcount₂, hmax, length_overwrite, hcontent, dataBlocksForSize_max, hc]
        · rw [length_overwrite, Nat.max_eq_right (by omega), hall.bytes,
            take_splice_end (by rw [length_append]; omega) rfl,
            take_append_of_le_length (by omega), htake, overwrite_behind (by omega), hcontent]
      · rw [hsb, hmax] at hlt₂
        exact .inr ⟨by omega, fs₂, hrun (by rw [bind_of_ok hrun₁, hrun₂])⟩
  · refine .inr ⟨?_, fs₁, hrun (bind_of_error hrun₁)⟩
    have := footprint_mono (show max I.blockCount (dataBlocksForSize offset) ≤
      max I.blockCount (dataBlocksForSize (offset + input.length)) by omega)
    omega

theorem writeContents_run (hc : I.blockCount = dataBlocksForSize I.size)
    (hend : offset + input.length ≤ 524 * 4096) :
    Rationed fs I (max I.blockCount (dataBlocksForSize (offset + input.length)))
      (writeContents I offset input) fun I' fs' => I'.size = I.size ∧
        Rewrites fs I fs' I' (overwrite (fs.view.content I) offset input) := by
  by_cases hlt : I.size < offset
  · exact writeContents_behind h hI ht hc hlt hend
  have hsize := size_le_of_count hc
  have hlen := hI.length_fileBytes h.sized
  have hcontent := hI.length_content h.sized hc
  have hmax := dataBlocksForSize_max I.size (offset + input.length)
  have hrun : writeContents I offset input fs = writeInodeData I offset input fs := by
    unfold writeContents
    rw [if_neg hlt, pure_bind_run]
  rw [Rationed, hrun]
  by_cases hne : input = []
  · subst hne
    rw [length_nil, Nat.add_zero]
    have hsame : max I.blockCount (dataBlocksForSize offset) = I.blockCount := by
      have := dataBlocksForSize_mono (show offset ≤ I.size by omega)
      omega
    have hover : overwrite (fs.view.content I) offset [] = fs.view.content I := by
      rw [overwrite_inside (by omega), splice_nil]
    rw [hsame, hover]
    refine .inl ⟨by omega, I, fs, ?_, rfl, .refl h, .refl hI, rfl, ht, by rw [hcontent, hc], ?_⟩
    · rfl
    · rw [hcontent, View.content]
  · rcases writeInodeData_run h hI ht hne hend with
      ⟨hle, I', fs', hrun', hcount, hext⟩ | hfail
    · refine .inl ⟨hle, I', fs', hrun', hext.record.size, hext.writes, hext.edit, hext.record.kind,
        hext.tight, ?_, ?_⟩
      · rw [hcount, length_overwrite, hcontent, hmax, hc]
      · rw [length_overwrite, hcontent, hext.bytes, take_splice_append (by omega) (by omega),
          overwrite_inside (by omega)]
        rfl
    · exact .inr hfail

theorem clearTail_run (hc : I.blockCount = dataBlocksForSize newSize) :
    ∃ fs' bytes, clearTail I newSize fs = (.ok (), fs') ∧ Extends fs I fs' I bytes ∧
      bytes.take newSize = (fs.view.fileBytes I).take newSize := by
  unfold clearTail
  by_cases hcut : newSize ≠ 0 ∧ newSize % 4096 ≠ 0
  · have hi : newSize / 4096 < I.blockCount := by
      rw [hc]
      simp only [dataBlocksForSize, divCeil, blockSize]
      omega
    have hr := hI.pointer_range hi
    have hblock := h.sized.inside _ hr
    have hlen : (replicate (4096 - newSize % 4096) (0 : UInt8)).length =
        4096 - newSize % 4096 := length_replicate
    obtain ⟨fs', hrun, hext⟩ := writeChunk_run h hI ht hi
      (show newSize % 4096 + (replicate (4096 - newSize % 4096) (0 : UInt8)).length ≤ 4096 by
        omega)
    rw [Nat.div_add_mod] at hext
    refine ⟨fs', _, ?_, hext, ?_⟩
    · rw [if_pos hcut, bind_of_ok (dataBlock_run h hI hi), okOr_some, pure_bind_run,
        bind_of_ok (readData_run h hr.1 hr.2)]
      simp only [blockSize, hblock]
      rw [copyInto_eq (by omega), lift_ok_bind, hrun]
    · have hbytes := hI.length_fileBytes h.sized
      rw [splice, append_assoc, take_append_of_le_length, take_take, Nat.min_self]
      rw [length_take]
      omega
  · rw [if_neg hcut]
    exact ⟨fs, _, rfl, .refl h hI ht, rfl⟩

theorem resizeContents_run (hc : I.blockCount = dataBlocksForSize I.size)
    (hend : newSize ≤ 524 * 4096) :
    Rationed fs I (max I.blockCount (dataBlocksForSize newSize)) (resizeContents I newSize)
      fun I' fs' => Rewrites fs I fs' I' (resize (fs.view.content I) newSize) := by
  have hsize := size_le_of_count hc
  have hlen := hI.length_fileBytes h.sized
  have hcontent := hI.length_content h.sized hc
  unfold Rationed resizeContents
  rcases Nat.lt_trichotomy I.size newSize with hgt | heq | hlt
  · rw [if_pos hgt]
    have hzero := zeroRange_run h hI ht (show 0 < newSize - I.size by omega)
      (show I.size + (newSize - I.size) ≤ 524 * 4096 by omega)
    rw [show I.size + (newSize - I.size) = newSize by omega] at hzero
    rcases hzero with ⟨hle, I', fs', hrun, hcount, hext⟩ | hfail
    · have hmono := dataBlocksForSize_mono hgt.le
      refine .inl ⟨hle, I', fs', hrun, hext.writes, hext.edit, hext.record.kind, hext.tight, ?_, ?_⟩
      · rw [length_resize, hcount, hc, Nat.max_eq_right hmono]
      · rw [length_resize, hext.bytes, take_splice_end (by rw [length_append]; omega)
          (by rw [length_replicate]; omega), take_append_of_le_length (by omega), resize,
          hcontent, View.content, take_take, Nat.min_eq_right hgt.le]
    · exact .inr hfail
  · subst heq
    rw [if_neg (by omega), if_neg (by omega)]
    have hsame : resize (fs.view.content I) I.size = fs.view.content I := by
      rw [resize, hcontent, Nat.sub_self, replicate_zero, append_nil, take_of_length_le hcontent.le]
    rw [hsame, ← hc, Nat.max_self]
    exact .inl ⟨by omega, I, fs, rfl, .refl h, .refl hI, rfl, ht, by rw [hcontent, hc],
      by rw [hcontent, View.content]⟩
  · have hmono := dataBlocksForSize_mono hlt.le
    have hceil := le_dataBlocksForSize newSize
    rw [if_neg (by omega), if_pos hlt, Nat.max_eq_left (by omega)]
    obtain ⟨I₁, fs₁, hrun₁, hcut, htight, hcount⟩ := truncateInodeBlocks_run h hI
      (show dataBlocksForSize newSize ≤ I.blockCount by omega)
    have hI₁ : Intact fs₁.superblock fs₁.view I₁ := by
      rw [hcut.writes.superblock]
      exact hcut.edit.after
    obtain ⟨fs₂, bytes, hrun₂, hext, htake⟩ :=
      clearTail_run (hcut.writes.steps.mounted h) hI₁ htight hcount
    refine .inl ⟨by omega, I₁, fs₂, ?_, hcut.writes.trans hext.writes,
      hcut.edit.trans (hcut.writes.superblock ▸ hext.edit), hcut.record.kind, htight, ?_, ?_⟩
    · rw [bind_of_ok hrun₁, bind_of_ok hrun₂]
      rfl
    · rw [length_resize, hcount]
    · rw [length_resize, hext.bytes, htake, hcut.bytes, take_take,
        Nat.min_eq_left (by omega), resize, Nat.sub_eq_zero_of_le (by omega), replicate_zero,
        append_nil, View.content, take_take, Nat.min_eq_left (by omega)]

end NexFs

end NexOs.Nexfs
