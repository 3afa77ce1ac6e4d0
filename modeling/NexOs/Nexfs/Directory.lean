import NexOs.Nexfs.Contents

/-! Directories: the entries in the data of an inode, and replacing them. -/
namespace NexOs.Nexfs
open List Bytes Storage Function Exec

def decodeEntries (contents : List UInt8) : Result FsError (List DirectoryEntry) :=
  (entryChunks contents).mapM DirectoryEntry.decode

def encodeEntries (entries : List DirectoryEntry) : List UInt8 :=
  entries.flatMap DirectoryEntry.record

variable {entries : List DirectoryEntry} {I : Inode}

section
variable (h : ∀ e ∈ entries, e.Valid)
include h

theorem length_encodeEntries : (encodeEntries entries).length = 256 * entries.length :=
  length_flatMap_chunks fun e he => e.length_record (h e he).name

theorem entryChunks_encodeEntries :
    entryChunks (encodeEntries entries) = entries.map DirectoryEntry.record := by
  have hlen := length_encodeEntries h
  apply ext_getElem?
  intro i
  simp only [entryChunks, hlen, getElem?_map]
  rw [Nat.mul_div_cancel_left _ (by decide)]
  by_cases hi : i < entries.length
  · rw [getElem?_range hi, getElem?_eq_getElem hi]
    simp only [Option.map_some]
    rw [Nat.mul_comm, encodeEntries, slice_flatMap_chunks
      (fun e he => e.length_record (h e he).name) (getElem?_eq_getElem hi)]
  · rw [getElem?_eq_none (by simpa using hi), getElem?_eq_none (by omega)]
    rfl

theorem decodeEntries_encodeEntries : decodeEntries (encodeEntries entries) = .ok entries := by
  rw [decodeEntries, entryChunks_encodeEntries h]
  induction entries with
  | nil => rfl
  | cons e rest ih =>
    rw [map_cons, mapM_cons, e.decode_record (h e mem_cons_self),
      ih fun x hx => h x (mem_cons_of_mem _ hx)]
    rfl

end

section
variable {sb : Superblock} {n : Nat}

theorem Intact.with_size (h : Intact sb V I) (hn : n < 2 ^ 64) : Intact sb V { I with size := n } :=
  ⟨{ h.fits with size := hn }, h.count_le, h.unused, h.range, h.nodup, h.bits⟩

theorem Edit.with_size (h : Edit sb V I V' I') (hn : n < 2 ^ 64) :
    Edit sb V I V' { I' with size := n } :=
  ⟨h.before, Intact.with_size h.after hn, h.slot, h.inodeBit, h.fresh, h.lost, h.bits, h.data⟩

end

namespace NexFs
variable {fs : NexFs}

theorem readEntriesFrom_run (h : Mounted fs) (hI : Intact fs.superblock fs.view I)
    (hsize : I.size ≤ 4096 * I.blockCount) (hl : ∀ i ∈ l, 256 * (i + 1) ≤ I.size) :
    readEntriesFrom I l fs =
      (l.mapM fun i => DirectoryEntry.decode (slice (fs.view.content I) (i * 256) 256), fs) := by
  induction l with
  | nil => rfl
  | cons i l ih =>
    have hi := hl i mem_cons_self
    have hz : (replicate 256 (0 : UInt8)).length = 256 := length_replicate
    have hread := readInodeData_run h hI hsize (i * 256) (replicate 256 0)
    rw [hz, show min 256 (I.size - i * 256) = 256 by omega,
      drop_of_length_le hz.le, append_nil] at hread
    rw [readEntriesFrom, mapM_cons]
    rw [bind_of_ok hread, ensure_bind_pos rfl]
    cases DirectoryEntry.decode (slice (fs.view.content I) (i * 256) 256) with
    | error e => rfl
    | ok entry =>
      have ih := ih fun k hk => hl k (mem_cons_of_mem _ hk)
      rw [lift_ok_bind]
      cases hrest : l.mapM fun i =>
          DirectoryEntry.decode (slice (fs.view.content I) (i * 256) 256) with
      | error e =>
        rw [hrest] at ih
        rw [bind_of_error ih]
        rfl
      | ok rest =>
        rw [hrest] at ih
        rw [bind_of_ok ih]
        rfl

theorem readDirectory_run (h : Mounted fs) (hI : Intact fs.superblock fs.view I)
    (hc : I.blockCount = dataBlocksForSize I.size) (hk : I.kind = .directory)
    (hm : I.size % 256 = 0) :
    readDirectory I fs = (decodeEntries (fs.view.content I), fs) := by
  have hlen := hI.length_content h.sized hc
  unfold readDirectory
  rw [ensure_bind_pos hk, ensure_bind_pos hm]
  simp only [dirEntrySize]
  rw [readEntriesFrom_run h hI (size_le_of_count hc)
    (fun i hi => by have := mem_range.mp hi; omega), decodeEntries, entryChunks,
    mapM_map, hlen]
  rfl

theorem readDirectory_file (hk : I.kind = .regular) :
    readDirectory I fs = (.error (.error .notDirectory), fs) := by
  unfold readDirectory
  rw [ensure_bind_neg (by rw [hk]; decide)]

theorem writeEntries_run (h : Mounted fs) (hI : Intact fs.superblock fs.view I) (ht : Tight I)
    (hc : I.blockCount = dataBlocksForSize I.size) (hm : I.size % 256 = 0)
    (hv : ∀ e ∈ entries, e.Valid) (hend : I.size + 256 * entries.length ≤ 524 * 4096) :
    Rationed fs I (dataBlocksForSize (I.size + 256 * entries.length)) (writeEntries entries I)
      fun I' fs' => I'.size = I.size + 256 * entries.length ∧
        Rewrites fs I fs' I' (fs.view.content I ++ encodeEntries entries) := by
  induction entries generalizing fs I with
  | nil =>
    have hcontent := hI.length_content h.sized hc
    simp only [length_nil, Nat.mul_zero, Nat.add_zero, encodeEntries, flatMap_nil, append_nil]
    exact .inl ⟨by rw [← hc]; omega, I, fs, rfl, rfl, .refl h, .refl hI, rfl, ht,
      by rw [hcontent, hc], by rw [hcontent, View.content]⟩
  | cons e rest ih =>
    have hbytes := hI.length_fileBytes h.sized
    have hsize := size_le_of_count hc
    have he := hv e mem_cons_self
    have hrec := e.length_record he.name
    have hne : e.record ≠ [] := by
      rw [← length_pos_iff, hrec]
      decide
    rw [length_cons, Nat.mul_succ, ← Nat.add_assoc] at hend ⊢
    have hgrow : I.blockCount ≤ dataBlocksForSize (I.size + 256) := by
      rw [hc]
      exact dataBlocksForSize_mono (by omega)
    have hmono : footprint (dataBlocksForSize (I.size + 256)) ≤
        footprint (dataBlocksForSize (I.size + 256 * rest.length + 256)) :=
      footprint_mono (dataBlocksForSize_mono (by omega))
    have hrun : ∀ {r}, (do
          let inode ← writeInodeData I I.size e.record
          writeEntries rest { inode with size := inode.size + 256 } : Method Inode) fs = r →
        writeEntries (e :: rest) I fs = r := by
      intro r hr
      rw [writeEntries]
      rw [e.encode_eq he.name length_replicate, lift_ok_bind, hr]
    have hwrite := writeInodeData_run h hI ht hne (show I.size + _ ≤ _ by rw [hrec]; omega)
    rw [hrec, Nat.max_eq_right hgrow] at hwrite
    rcases hwrite with ⟨-, I₁, fs₁, hrun₁, hcount₁, hext⟩ | ⟨hlt, fs₁, hrun₁⟩
    · have hsize₁ := hext.record.size
      have hsb := hext.writes.superblock
      have hfree := hext.free_add ht
      have hedit := Edit.with_size hext.edit (show I₁.size + 256 < 2 ^ 64 by omega)
      have hcontent₁ : fs₁.view.content { I₁ with size := I₁.size + 256 } =
          fs.view.content I ++ e.record := by
        change (fs₁.view.fileBytes I₁).take (I₁.size + 256) = _
        rw [hext.bytes, take_splice_end (by rw [length_append]; omega) (by omega),
          take_append_of_le_length (by omega), View.content]
      have hsum : I₁.size + 256 + 256 * rest.length = I.size + 256 * rest.length + 256 := by omega
      have hih := ih (I := { I₁ with size := I₁.size + 256 }) (hext.mounted h)
        (by rw [hsb]; exact hedit.after) hext.tight (by rw [hcount₁, hsize₁])
        (by simp only; omega) (fun x hx => hv x (mem_cons_of_mem _ hx))
        (by simp only; omega)
      simp only [Rationed, hcontent₁, hsum, hsb, append_assoc] at hih
      rcases hih with ⟨hle, I₂, fs₂, hrun₂, hsize₂, hrw⟩ | ⟨hlt, fs₂, hrun₂⟩
      · refine .inl ⟨by omega, I₂, fs₂, hrun (by rw [bind_of_ok hrun₁, hrun₂]), hsize₂,
          hext.writes.trans hrw.writes, hedit.trans (hsb ▸ hrw.edit),
          hrw.kind.trans hext.record.kind, hrw.tight, ?_, ?_⟩
        · exact hrw.count
        · exact hrw.bytes
      · exact .inr ⟨by omega, fs₂, hrun (by rw [bind_of_ok hrun₁, hrun₂])⟩
    · exact .inr ⟨by omega, fs₁, hrun (bind_of_error hrun₁)⟩

theorem replaceDirectory_tooLarge (hk : I.kind = .directory) (hn : entries.length * 256 < 2 ^ 64)
    (hend : 524 * 4096 < 256 * entries.length) :
    replaceDirectory I entries fs = (.error (.error .fileTooLarge), fs) := by
  unfold replaceDirectory
  rw [ensure_bind_pos hk, checkedMul_eq hn, okOr_some, pure_bind_run,
    bind_of_error (ensureFileSizeSupported_tooLarge (hend.trans_eq (Nat.mul_comm _ _)))]

/-- Replacing the entries of a directory works exactly when there is room for
the new ones in the free blocks and in those the directory has. -/
theorem replaceDirectory_run (h : Mounted fs) (hI : Intact fs.superblock fs.view I) (ht : Tight I)
    (hk : I.kind = .directory) (hv : ∀ e ∈ entries, e.Valid)
    (hend : 256 * entries.length ≤ 524 * 4096) :
    Rationed fs I (dataBlocksForSize (256 * entries.length)) (replaceDirectory I entries)
      fun I' fs' => I'.size = 256 * entries.length ∧
        Rewrites fs I fs' I' (encodeEntries entries) := by
  obtain ⟨I₁, fs₁, hrun₁, hcut, htight, hcount⟩ := truncateInodeBlocks_run h hI (Nat.zero_le _)
  have hsb := hcut.writes.superblock
  have hfree := hcut.edit.free_add
  rw [View.length_owned htight, View.length_owned ht] at hfree
  have hedit := Edit.with_size hcut.edit (Nat.two_pow_pos 64)
  have hrun : ∀ {r}, writeEntries entries { I₁ with size := 0 } fs₁ = r →
      replaceDirectory I entries fs = r := by
    intro r hr
    unfold replaceDirectory
    rw [ensure_bind_pos hk, dirEntrySize, checkedMul_eq (by omega), okOr_some, pure_bind_run,
      bind_of_ok (ensureFileSizeSupported_run (by omega)), bind_of_ok hrun₁, hr]
  have hwrite := writeEntries_run (I := { I₁ with size := 0 }) (hcut.writes.steps.mounted h)
    (by rw [hsb]; exact hedit.after) htight
    (hcount.trans (show 0 = dataBlocksForSize 0 by decide)) (Nat.zero_mod _) hv (by simp only; omega)
  simp only [Rationed, hsb, Nat.zero_add] at hwrite
  rcases hwrite with ⟨hle, I₂, fs₂, hrun₂, hsize, hrw⟩ | ⟨hlt, fs₂, hrun₂⟩
  · exact .inl ⟨by omega, I₂, fs₂, hrun hrun₂, hsize, hcut.writes.trans hrw.writes,
      hedit.trans (hsb ▸ hrw.edit), hrw.kind.trans hcut.record.kind, hrw.tight, hrw.count,
      hrw.bytes⟩
  · exact .inr ⟨by omega, fs₂, hrun hrun₂⟩

end NexFs

end NexOs.Nexfs
