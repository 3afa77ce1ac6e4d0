import NexOs.Nexfs.Codec
import NexOs.Storage.GptEncode

/-! A short change of a checksummed record makes its decoder refuse it. -/
namespace NexOs.Storage
open List Bytes

/-- A change of a record whose first `size` bytes are checksummed while the checksum field at
`offset` counts as zero. It stays within four consecutive bytes outside that field, or within the
field. -/
structure Burst (size offset : Nat) (input changed : List UInt8) : Prop where
  length : changed.length = input.length
  ne : changed ≠ input
  within : (∃ start, ∀ i, changed[i]? ≠ input[i]? →
      start ≤ i ∧ i < start + 4 ∧ i < size ∧ (i < offset ∨ offset + 4 ≤ i)) ∨
    ∀ i, changed[i]? ≠ input[i]? → offset ≤ i ∧ i < offset + 4

def masked (size offset : Nat) (bytes : List UInt8) : List UInt8 :=
  splice (bytes.take size) offset (List.replicate 4 0)

variable {size offset : Nat} {bytes input changed : List UInt8}

theorem getElem?_masked (hsize : offset + 4 ≤ size) (h : size ≤ bytes.length) (i : Nat) :
    (masked size offset bytes)[i]? =
      if offset ≤ i ∧ i < offset + 4 then some 0 else if i < size then bytes[i]? else none := by
  have hlen : (bytes.take size).length = size := length_take_of_le h
  rw [masked, getElem?_splice (by rw [hlen]; exact hsize),
    length_replicate, getElem?_take, getElem?_replicate]
  split_ifs <;> first | rfl | omega

theorem Burst.checksum_ne (h : Burst size offset input changed) (hsize : offset + 4 ≤ size)
    (hlen : size ≤ input.length)
    (hsum : (crc32 (masked size offset input)).toNat = le input offset 4) :
    (crc32 (masked size offset changed)).toNat ≠ le changed offset 4 := by
  have hlen' : size ≤ changed.length := h.length ▸ hlen
  have hmask := getElem?_masked hsize hlen
  have hmask' := getElem?_masked hsize hlen'
  intro hsum'
  apply h.ne
  apply ext_getElem?
  intro i
  by_contra hne
  rcases h.within with ⟨start, hout⟩ | hin
  · have hfield : slice changed offset 4 = slice input offset 4 := by
      apply ext_getElem?
      intro j
      rw [getElem?_slice, getElem?_slice]
      split
      · by_contra hj
        have := hout _ hj
        omega
      · rfl
    rw [le, hfield, ← le, ← hsum] at hsum'
    have heq : masked size offset changed = masked size offset input := by
      apply eq_of_crc32_eq start _ _ (UInt32.toNat_inj.mp hsum')
      · simp only [masked, splice, length_append, length_take, length_drop, h.length]
      · intro j hj
        rw [hmask, hmask'] at hj
        split_ifs at hj with h1 h2
        · exact absurd rfl hj
        · have := hout j hj
          exact ⟨this.1, this.2.1⟩
        · exact absurd rfl hj
    have hi := hout i hne
    have hnot : ¬(offset ≤ i ∧ i < offset + 4) := by omega
    have hself := hmask i
    rw [← heq, hmask', if_neg hnot, if_neg hnot, if_pos hi.2.2.1, if_pos hi.2.2.1] at hself
    exact hne hself
  · have heq : masked size offset changed = masked size offset input := by
      apply ext_getElem?
      intro j
      rw [hmask, hmask']
      split_ifs with h1 h2
      · rfl
      · by_contra hj
        exact h1 (hin j hj)
      · rfl
    rw [heq, hsum] at hsum'
    have hi := hin i hne
    have hfield := congrArg (fun value => (leBytes 4 value)[i - offset]?) hsum'
    simp only [leBytes_le (hsize.trans hlen), leBytes_le (hsize.trans hlen'), getElem?_slice,
      if_pos (show i - offset < 4 by omega), Nat.add_sub_cancel' hi.1] at hfield
    exact hne hfield.symm

end NexOs.Storage

namespace NexOs.Nexfs
open List Bytes Storage

theorem not_recorded {fields fields' : List (Nat × List UInt8)}
    {input changed : List UInt8} (hrecorded : Recorded offset fields input)
    (hlen : offset + 4 ≤ input.length) (h : Burst (offset + 4) offset input changed) :
    ¬Recorded offset fields' changed :=
  fun hrecorded' => h.checksum_ne le_rfl hlen hrecorded.checksum hrecorded'.checksum

/-- Every decoder of a checksummed record refuses an accepted one after a short change. The size
of a GPT header is itself a field, which the change must leave alone. -/
theorem decoders_refuse_bursts :
    (∀ (input changed : List UInt8) (inode : Inode), Inode.decode input = .ok inode →
      Burst 256 252 input changed → ∃ e, Inode.decode changed = Result.fail e) ∧
    (∀ (input changed : List UInt8) (entry : DirectoryEntry),
      DirectoryEntry.decode input = .ok entry → Burst 256 252 input changed →
      ∃ e, DirectoryEntry.decode changed = Result.fail e) ∧
    (∀ (input changed : List UInt8) (sb : Superblock), Superblock.decode input = .ok sb →
      Burst 100 96 input changed → ∃ e, Superblock.decode changed = Result.fail e) ∧
    (∀ (sector changed : List UInt8) (header : GptHeader), parseGptHeader sector = .ok header →
      Burst header.headerSize 16 sector changed → slice changed 12 4 = slice sector 12 4 →
      ∃ e, parseGptHeader changed = Result.fail e) := by
  refine ⟨?_, ?_, ?_, ?_⟩
  · intro input changed inode hd h
    obtain ⟨hlen, -, hrecorded⟩ := Inode.decode_eq_ok.mp hd
    exact (Inode.decode_decides (h.length ▸ hlen)).fails (not_recorded hrecorded hlen h)
  · intro input changed entry hd h
    obtain ⟨hlen, -, hrecorded⟩ := DirectoryEntry.decode_eq_ok.mp hd
    exact (DirectoryEntry.decode_decides (h.length ▸ hlen)).fails
      fun hc => not_recorded hrecorded hlen h hc.2
  · intro input changed sb hd h
    obtain ⟨hlen, -, hrecorded⟩ := Superblock.decode_eq_ok.mp hd
    exact (Superblock.decode_decides (h.length ▸ hlen)).fails
      fun hc => not_recorded hrecorded (by omega) h hc.2
  · intro sector changed header hparse h hsize
    have hlen : 92 ≤ sector.length := by
      by_contra hlt
      rw [parseGptHeader, Result.ensure_neg (by omega)] at hparse
      cases hparse
    obtain ⟨hfine, rfl⟩ := (parseGptHeader_decides hlen).of_eq_ok hparse
    apply (parseGptHeader_decides (h.length ▸ hlen)).fails
    intro hfine'
    have hge := hfine.size_ge
    have hle := hfine.size_le
    have hlength := h.length
    have hsum := hfine.checksum
    have hsum' := hfine'.checksum
    rw [show le changed 12 4 = le sector 12 4 by rw [le, hsize, le]] at hsum'
    rw [gptHeaderCrc32_eq (by rw [length_slice] <;> omega)] at hsum hsum'
    exact h.checksum_ne (show 16 + 4 ≤ le sector 12 4 by omega) hle hsum hsum'

end NexOs.Nexfs
