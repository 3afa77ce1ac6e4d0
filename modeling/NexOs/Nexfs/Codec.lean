import NexOs.Nexfs.Layout

/-! Laws of the record codecs: a decoder accepts exactly the bytes that hold the fields of a record
and its checksum, so what an encoder writes, its decoder reads back. -/
namespace NexOs.Nexfs
open List hiding Vector
open Bytes Storage Text Result

/-! ## Checksummed records -/

/-- `body` with the checksum of its first `length` bytes stored at `offset`. -/
def sealed (length offset : Nat) (body : List UInt8) : List UInt8 :=
  splice body offset (leBytes 4 (checksumAt (body.take length) offset))

/-- Each field stands at its place, and behind them the checksum of the bytes before it. -/
structure Recorded (offset : Nat) (fields : List (Nat × List UInt8)) (input : List UInt8) : Prop where
  checksum : checksumAt (input.take (offset + 4)) offset = le input offset 4
  fields : ∀ f ∈ fields, slice input f.1 f.2.length = f.2

theorem checksumAt_lt (bytes : List UInt8) (offset : Nat) : checksumAt bytes offset < 256 ^ 4 :=
  UInt32.toNat_lt _

variable {input output : List UInt8} {offset : Nat} {kind : FileType} {name : String}

theorem checksumAt_take :
    checksumAt (input.take (offset + 4)) offset =
      (crc32 (input.take offset ++ leBytes 4 0)).toNat := by
  rw [checksumAt, splice, length_leBytes, take_take, Nat.min_eq_left (by omega),
    drop_eq_nil_of_le (by rw [length_take]; omega), append_nil]

theorem le_of_slice
    (h : slice input offset (leBytes width value).length = leBytes width value)
    (hv : value < 256 ^ width) : le input offset width = value := by
  rw [length_leBytes] at h
  rw [le, h, ofLe_leBytes_of_lt hv]

theorem slice_byte (h : i < input.length) : slice input i 1 = [byteAt input i] := by
  rw [slice, byteAt, drop_eq_getElem_cons h, getElem?_eq_getElem h]
  rfl

variable {fields : List (Nat × List UInt8)}

namespace Recorded

theorem append (h : Recorded offset fields input) (hlaid : Laid offset fields)
    (hlen : offset + 4 ≤ input.length) (rest : List UInt8) : Recorded offset fields (input ++ rest) where
  checksum := by
    rw [take_append_of_le_length hlen, le, slice_append_left hlen]
    exact h.checksum
  fields := by
    intro f hf
    rw [slice_append_left (hlaid.fit (by omega) f hf)]
    exact h.fields f hf

end Recorded

section
variable {size offset : Nat} (h : Laid offset fields) (hsize : offset + 4 ≤ size)

include h hsize

theorem length_body : (writeFields (replicate size 0) fields).length = size := by
  rw [length_writeFields (h.fit (by rw [length_replicate]; omega)), length_replicate]

theorem length_sealed :
    (sealed (offset + 4) offset (writeFields (replicate size 0) fields)).length = size := by
  have hlen := length_body h hsize
  rw [sealed, length_splice (by rw [length_leBytes]; omega), hlen]

theorem take_sealed :
    (sealed (offset + 4) offset (writeFields (replicate size 0) fields)).take offset =
      (writeFields (replicate size 0) fields).take offset := by
  have hlen := length_body h hsize
  rw [sealed, splice, append_assoc, take_left' (by rw [length_take]; omega)]

theorem recorded_sealed :
    Recorded offset fields (sealed (offset + 4) offset (writeFields (replicate size 0) fields)) where
  checksum := by
    have hlen := length_body h hsize
    rw [checksumAt_take, take_sealed h hsize, ← checksumAt_take]
    exact (le_splice_self (by omega) (checksumAt_lt _ _)).symm
  fields := by
    intro f hf
    have hlen := length_body h hsize
    rw [sealed, slice_splice_of_disjoint (by rw [length_leBytes]; omega) (.inl (h.bound f hf)),
      h.slice_eq (by rw [length_replicate]; omega) hf]

theorem sealed_append (rest : List UInt8) :
    sealed (offset + 4) offset (writeFields (replicate size 0 ++ rest) fields) =
      sealed (offset + 4) offset (writeFields (replicate size 0) fields) ++ rest := by
  have hlen := length_body h hsize
  rw [sealed, writeFields_append_left (h.fit (by rw [length_replicate]; omega)),
    take_append_of_le_length (by omega), splice_append_left (by rw [length_leBytes]; omega), sealed]

theorem Recorded.take_sealed_eq (hholds : Recorded offset fields input)
    (hlen : offset + 4 ≤ input.length)
    (hzero : ∀ i < offset, (∀ f ∈ fields, i < f.1 ∨ f.1 + f.2.length ≤ i) → input[i]? = some 0) :
    (sealed (offset + 4) offset (writeFields (replicate size 0) fields)).take (offset + 4) =
      input.take (offset + 4) := by
  have hbody := length_body h hsize
  have htake : (writeFields (replicate size 0) fields).take offset = input.take offset := by
    apply ext_getElem?
    intro i
    rw [getElem?_take, getElem?_take]
    split
    · rename_i hi
      apply h.getElem?_eq (by rw [length_replicate]; omega) hholds.fields
      intro hgap
      rw [hzero i hi hgap, getElem?_replicate_of_lt (by omega)]
    · rfl
  have hsum := hholds.checksum
  rw [checksumAt_take, ← htake, ← checksumAt_take] at hsum
  have hend : offset + (leBytes 4 (le input offset 4)).length ≤
      (writeFields (replicate size 0) fields).length := by
    rw [length_leBytes]
    omega
  have hself := slice_splice_self hend
  rw [← hsum, ← sealed, hsum, length_leBytes, leBytes_le hlen] at hself
  rw [take_add, take_add, take_sealed h hsize, htake]
  exact congrArg _ hself

end

/-! ## File types -/

def FileType.ofCode (value : UInt8) : FileType := if value = 2 then directory else regular

@[simp] theorem FileType.ofCode_code : ofCode kind.code = kind := by
  cases kind <;> rfl

theorem FileType.decode_decides (value : UInt8) :
    Decides (decode value) (value = (ofCode value).code) (ofCode value) := by
  unfold decode ofCode
  by_cases h1 : value = 1
  · subst h1
    exact .inl ⟨rfl, rfl⟩
  · by_cases h2 : value = 2
    · subst h2
      exact .inl ⟨rfl, rfl⟩
    · rw [if_neg h1, if_neg h2, if_neg h2]
      exact .inr ⟨h1, _, rfl⟩

/-! ## Inodes -/

namespace Inode

def record (inode : Inode) : List UInt8 :=
  sealed 256 252 (writeFields (List.replicate 256 0) inode.fields)

section
variable (inode : Inode)
include inode

theorem fields_laid : Laid 252 inode.fields := by
  have hpointers : (inode.directBlocks.toList.zipIdx.map
      (fun p => (32 + p.2 * 8, leBytes 8 p.1))).Pairwise Apart := by
    rw [pairwise_iff_getElem]
    intro i j hi hj hij
    simp only [getElem_map, getElem_zipIdx, Apart, length_leBytes]
    omega
  have hrange : ∀ f ∈ inode.directBlocks.toList.zipIdx.map
      (fun p => (32 + p.2 * 8, leBytes 8 p.1)), 32 ≤ f.1 ∧ f.1 + f.2.length ≤ 128 := by
    simp only [forall_mem_map, length_leBytes]
    rintro ⟨b, i⟩ hi
    have := (mem_zipIdx hi).2.1
    simp only [Vector.length_toList] at this
    omega
  constructor
  · unfold fields
    rw [forall_mem_append, forall_mem_append]
    exact ⟨⟨by simp [inodeMagic], fun f hf => (hrange f hf).2.trans (by decide)⟩, by simp⟩
  · unfold fields
    rw [pairwise_append, pairwise_append]
    refine ⟨⟨by simp [Apart, inodeMagic], hpointers, ?_⟩, by simp [Apart], ?_⟩
    · intro f hf g hg
      have hg := (hrange g hg).1
      refine .inl (le_trans ?_ hg)
      revert f
      simp [inodeMagic]
    · intro f hf g hg
      have hg : 128 ≤ g.1 := by
        revert g
        simp
      refine .inl (le_trans ?_ hg)
      rcases mem_append.mp hf with hleft | hright
      · clear hf
        revert f
        simp [inodeMagic]
      · exact (hrange f hright).2

theorem encode_append (h : 256 ≤ output.length) :
    inode.encode output = .ok (inode.record ++ output.drop 256) := by
  rw [record, ← sealed_append inode.fields_laid (by decide)]
  simp only [encode, ensure_pos h, splice, length_replicate]
  rfl

theorem encode_eq (h : output.length = 256) : inode.encode output = .ok inode.record := by
  rw [inode.encode_append h.ge, drop_of_length_le h.le, append_nil]

@[simp] theorem length_record : inode.record.length = 256 :=
  length_sealed inode.fields_laid (by decide)

theorem recorded_record : Recorded 252 inode.fields inode.record :=
  recorded_sealed inode.fields_laid (by decide)

end

/-- The fields of a record, apart from its kind. -/
def ofBytes (kind : FileType) (input : List UInt8) : Inode where
  kind := kind
  permissions := le input 6 2
  size := le input 8 8
  created := le input 16 8
  modified := le input 24 8
  directBlocks := Vector.ofFn fun i : Fin 12 => le input (32 + i.val * 8) 8
  indirectBlock := le input 128 8
  blockCount := le input 136 8
  generation := le input 144 8

theorem ofBytes_fits : (ofBytes kind input).Fits where
  permissions := le_lt _ _ _
  size := le_lt _ _ _
  created := le_lt _ _ _
  modified := le_lt _ _ _
  directBlocks := by
    intro b hb
    simp only [ofBytes, Vector.mem_ofFn] at hb
    obtain ⟨i, rfl⟩ := hb
    exact le_lt _ _ _
  indirectBlock := le_lt _ _ _
  blockCount := le_lt _ _ _
  generation := le_lt _ _ _

variable {inode : Inode}

theorem fields_ofBytes (h : 256 ≤ input.length) :
    (∀ f ∈ (ofBytes kind input).fields, slice input f.1 f.2.length = f.2) ↔
      slice input 0 4 = inodeMagic ∧ byteAt input 4 = kind.code := by
  have hle {offset width : Nat} (hend : offset + width ≤ 256) :
      slice input offset width = leBytes width (le input offset width) :=
    (leBytes_le (hend.trans h)).symm
  have hpointers : ∀ p ∈ (ofBytes kind input).directBlocks.toList.zipIdx,
      slice input (32 + p.2 * 8) 8 = leBytes 8 p.1 := by
    rintro ⟨b, i⟩ hp
    rw [mem_zipIdx_iff_getElem?, Vector.getElem?_toList, Vector.getElem?_eq_some_iff] at hp
    obtain ⟨hi, hb⟩ := hp
    rw [← hb, ofBytes, Vector.getElem_ofFn]
    exact hle (by dsimp only at hi ⊢; omega)
  simp only [fields, forall_mem_append, forall_mem_cons, forall_mem_map,
    length_leBytes, not_mem_nil, false_implies, implies_true, and_true]
  constructor
  · rintro ⟨⟨⟨hmagic, hkind, -⟩, -⟩, -⟩
    exact ⟨hmagic, byteAt_of_slice hkind⟩
  · rintro ⟨hmagic, hkind⟩
    refine ⟨⟨⟨hmagic, ?_, hle (by decide), hle (by decide), hle (by decide), hle (by decide)⟩,
      hpointers⟩, hle (by decide), hle (by decide), hle (by decide)⟩
    exact (slice_byte (by omega)).trans (by rw [hkind]; rfl)

theorem decode_decides (h : 256 ≤ input.length) :
    Decides (decode input)
      (Recorded 252 (ofBytes (.ofCode (byteAt input 4)) input).fields input)
      (ofBytes (.ofCode (byteAt input 4)) input) := by
  have heq : decode input =
      (ensure (inodeSize ≤ input.length ∧ slice input 0 4 = inodeMagic) .corruptInode >>=
        fun _ => ensure (checksumAt (input.take 256) 252 = le input 252 4)
          .checksumMismatch >>= fun _ =>
        FileType.decode (byteAt input 4) >>= fun kind => .ok (ofBytes kind input)) := by
    unfold decode getU16 getU32 getU64
    congr 1
    funext _
    rw [getLe_eq (by dsimp only [inodeChecksumOffset]; omega), bind_ok]
    congr 1
    funext _
    rw [rangeOf_eq (by omega), bind_ok, index_byte (by omega), bind_ok]
    congr 1
    funext kind
    iterate 7 rw [getLe_eq (by omega), bind_ok]
    congr 2
    apply Vector.ext
    intro i hi
    rw [Vector.getElem_ofFn, Vector.getElem_ofFn, le_slice (by dsimp only; omega)]
  rw [heq]
  refine Decides.congr (.guard fun _ => .guard fun _ =>
    (FileType.decode_decides _).bind fun _ => .of_ok rfl) ?_ fun _ => rfl
  constructor
  · rintro ⟨⟨_, hmagic⟩, hsum, hkind, -⟩
    exact ⟨hsum, (fields_ofBytes h).mpr ⟨hmagic, hkind⟩⟩
  · rintro ⟨hsum, hfields⟩
    have ⟨hmagic, hkind⟩ := (fields_ofBytes h).mp hfields
    exact ⟨⟨h, hmagic⟩, hsum, hkind, trivial⟩

theorem decode_eq_ok :
    decode input = .ok inode ↔ 256 ≤ input.length ∧ inode.Fits ∧ Recorded 252 inode.fields input := by
  by_cases h : 256 ≤ input.length
  case neg =>
    refine ⟨fun hd => ?_, fun hd => absurd hd.1 h⟩
    rw [decode, ensure_neg fun hc => h hc.1] at hd
    cases hd
  rw [and_iff_right h]
  have hdecides := decode_decides h
  constructor
  · intro hd
    obtain ⟨hholds, rfl⟩ := hdecides.of_eq_ok hd
    exact ⟨ofBytes_fits, hholds⟩
  · rintro ⟨hfits, hholds⟩
    have hkind : byteAt input 4 = inode.kind.code :=
      byteAt_of_slice (hholds.fields (4, [inode.kind.code]) (by simp [fields]))
    have hle {offset width value : Nat} (hf : (offset, leBytes width value) ∈ inode.fields) :=
      le_of_slice (hholds.fields _ hf)
    have hdirect : (Vector.ofFn fun i : Fin 12 => le input (32 + i.val * 8) 8) =
        inode.directBlocks := by
      apply Vector.ext
      intro i hi
      rw [Vector.getElem_ofFn]
      apply hle
      · simp only [fields, mem_append, mem_map]
        refine .inl (.inr ⟨(inode.directBlocks[i], i), ?_, rfl⟩)
        rw [mem_zipIdx_iff_getElem?]
        simp [hi]
      · exact hfits.directBlocks _ (by simp)
    have heq : ofBytes (.ofCode (byteAt input 4)) input = inode := by
      rw [hkind, FileType.ofCode_code, ofBytes, hdirect, hle (by simp [fields]) hfits.permissions,
        hle (by simp [fields]) hfits.size, hle (by simp [fields]) hfits.created,
        hle (by simp [fields]) hfits.modified, hle (by simp [fields]) hfits.indirectBlock,
        hle (by simp [fields]) hfits.blockCount, hle (by simp [fields]) hfits.generation]
    rw [heq] at hdecides
    exact hdecides.eq_ok hholds

theorem decode_record (h : inode.Fits) : decode inode.record = .ok inode :=
  decode_eq_ok.mpr ⟨inode.length_record.ge, h, inode.recorded_record⟩

theorem decode_total (h : input.length = 256) : (decode input).Total :=
  (decode_decides h.ge).total

theorem fits_of_decode (h : decode input = .ok inode) : inode.Fits :=
  (decode_eq_ok.mp h).2.1

theorem decode_zeros : decode (replicate 256 0) = fail .corruptInode := by
  have hmagic : slice (replicate 256 0) 0 4 ≠ inodeMagic := by
    decide
  rw [decode, ensure_neg fun h => hmagic h.2]
  rfl

end Inode

/-! ## Directory entries -/

theorem ValidName.length_pos (h : ValidName name) : 0 < (utf8 name).length :=
  length_utf8_pos fun hn => h (.inl hn)

theorem ValidName.length_le (h : ValidName name) : (utf8 name).length ≤ 240 :=
  Nat.le_of_not_lt fun hn => h (.inr (.inl hn))

namespace DirectoryEntry

def record (entry : DirectoryEntry) : List UInt8 :=
  sealed 256 252 (writeFields (List.replicate 256 0) entry.fields)

structure Valid (entry : DirectoryEntry) : Prop where
  inode_ne : entry.inode ≠ 0
  inode_lt : entry.inode < 2 ^ 64
  name : ValidName entry.name

section
variable (entry : DirectoryEntry) (hn : ValidName entry.name)
include entry hn

theorem fields_laid : Laid 252 entry.fields := by
  have hl := hn.length_le
  constructor
  · simp only [fields, directoryNameOffset, forall_mem_cons, length_leBytes, length_cons,
      length_nil, not_mem_nil, false_implies, implies_true, and_true]
    omega
  · simp [fields, Apart, directoryNameOffset]

theorem encode_append (h : 256 ≤ output.length) :
    entry.encode output = .ok (entry.record ++ output.drop 256) := by
  have hl := hn.length_le
  rw [record, ← sealed_append (entry.fields_laid hn) (by decide)]
  simp only [encode, validateName, ensure_pos hn, ensure_pos h, splice, length_replicate]
  rw [ensure_pos (by omega)]
  rfl

theorem encode_eq (h : output.length = 256) : entry.encode output = .ok entry.record := by
  rw [entry.encode_append hn h.ge, drop_of_length_le h.le, append_nil]

theorem length_record : entry.record.length = 256 :=
  length_sealed (entry.fields_laid hn) (by decide)

theorem recorded_record : Recorded 252 entry.fields entry.record :=
  recorded_sealed (entry.fields_laid hn) (by decide)

end

def ofBytes (input : List UInt8) : DirectoryEntry where
  inode := le input 0 8
  kind := .ofCode (byteAt input 8)
  name := (fromUtf8 (slice input 12 (byteAt input 9).toNat)).getD ""

variable {entry : DirectoryEntry}

section
variable (h : 256 ≤ input.length)
include h

theorem decode_name_decides :
    Decides
      (match fromUtf8 (slice input 12 (byteAt input 9).toNat) with
        | none => fail .invalidName
        | some name => do
          validateName name
          match FileType.decode (← index input 8) with
          | .ok kind => .ok { inode := le input 0 8, kind := kind, name := name }
          | .error _ => fail .corruptDirectory)
      (utf8 (ofBytes input).name = slice input 12 (byteAt input 9).toNat ∧
        ValidName (ofBytes input).name ∧ byteAt input 8 = (ofBytes input).kind.code)
      (ofBytes input) := by
  unfold ofBytes
  cases hname : fromUtf8 (slice input 12 (byteAt input 9).toNat) with
  | none => exact .fail _ _ fun h => h.2.1 (.inl rfl)
  | some name =>
    rw [Option.getD_some, utf8_of_fromUtf8 hname]
    rw [index_byte (by omega)]
    refine Decides.congr (.guard fun _ => ?_) (and_iff_right rfl).symm fun _ => rfl
    rw [bind_ok]
    rcases FileType.decode_decides (byteAt input 8) with ⟨hkind, hd⟩ | ⟨hkind, e, hd⟩
    · rw [hd]
      exact .inl ⟨hkind, rfl⟩
    · rw [hd]
      exact .inr ⟨hkind, _, rfl⟩

theorem length_name (hn : ValidName (ofBytes input).name)
    (hname : utf8 (ofBytes input).name = slice input 12 (byteAt input 9).toNat) :
    (utf8 (ofBytes input).name).length = (byteAt input 9).toNat := by
  have hle := hn.length_le
  have hlen := congrArg length hname
  rw [slice, length_take, length_drop] at hlen
  omega

theorem fields_ofBytes (hn : ValidName (ofBytes input).name) :
    (∀ f ∈ (ofBytes input).fields, slice input f.1 f.2.length = f.2) ↔
      utf8 (ofBytes input).name = slice input 12 (byteAt input 9).toNat ∧
        byteAt input 8 = (ofBytes input).kind.code := by
  have hle := hn.length_le
  simp only [fields, forall_mem_cons, length_leBytes, not_mem_nil,
    false_implies, implies_true, and_true]
  constructor
  · rintro ⟨-, hkind, hlength, hname⟩
    have hnat : (byteAt input 9).toNat = (utf8 (ofBytes input).name).length := by
      rw [byteAt_of_slice hlength, UInt8.toNat_ofNat']
      omega
    exact ⟨by rw [hnat, hname], byteAt_of_slice hkind⟩
  · rintro ⟨hname, hkind⟩
    have hlength := length_name h hn hname
    refine ⟨(leBytes_le (by omega)).symm, ?_, ?_, by rw [hlength, hname]⟩
    · exact (slice_byte (by omega)).trans (by rw [hkind])
    · exact (slice_byte (by omega)).trans (by rw [hlength, UInt8.ofNat_toNat])

theorem decode_decides :
    Decides (decode input) ((ofBytes input).Valid ∧ Recorded 252 (ofBytes input).fields input)
      (ofBytes input) := by
  refine Decides.congr (.guard fun _ => .bind_ok (getLe_eq (by omega)) (.guard fun _ =>
    .bind_ok (getLe_eq (by omega)) (.guard fun _ => .bind_ok (index_byte (by omega))
      (.guard fun hlen => .bind_ok ?_ (decode_name_decides h))))) ?_ fun _ => rfl
  · have hle : (byteAt input 9).toNat ≤ 240 := Nat.le_of_not_lt fun hlt => hlen (.inr hlt)
    rw [directoryNameOffset, rangeOf_eq (by omega), Nat.add_sub_cancel_left]
  constructor
  · rintro ⟨-, hsum, hinode, -, hname, hn, hkind⟩
    exact ⟨⟨hinode, le_lt _ _ _, hn⟩, hsum, (fields_ofBytes h hn).mpr ⟨hname, hkind⟩⟩
  · rintro ⟨⟨hinode, -, hn⟩, hsum, hfields⟩
    have ⟨hname, hkind⟩ := (fields_ofBytes h hn).mp hfields
    have hlength := length_name h hn hname
    have hpos := hn.length_pos
    have hle := hn.length_le
    exact ⟨h, hsum, hinode, by simp only [maxNameLength]; omega, hname, hn, hkind⟩

end

theorem decode_eq_ok :
    decode input = .ok entry ↔ 256 ≤ input.length ∧ entry.Valid ∧ Recorded 252 entry.fields input := by
  by_cases h : 256 ≤ input.length
  case neg =>
    refine ⟨fun hd => ?_, fun hd => absurd hd.1 h⟩
    rw [decode, ensure_neg h] at hd
    cases hd
  rw [and_iff_right h]
  have hdecides := decode_decides h
  constructor
  · intro hd
    obtain ⟨hvalid, rfl⟩ := hdecides.of_eq_ok hd
    exact hvalid
  · rintro ⟨hvalid, hholds⟩
    have hle := hvalid.name.length_le
    have hkind : byteAt input 8 = entry.kind.code :=
      byteAt_of_slice (hholds.fields (8, [entry.kind.code]) (by simp [fields]))
    have hlength : (byteAt input 9).toNat = (utf8 entry.name).length := by
      rw [byteAt_of_slice (hholds.fields (9, [UInt8.ofNat (utf8 entry.name).length])
        (by simp [fields])), UInt8.toNat_ofNat']
      omega
    have hname : slice input 12 (utf8 entry.name).length = utf8 entry.name :=
      hholds.fields (12, utf8 entry.name) (by simp [fields])
    have heq : ofBytes input = entry := by
      rw [ofBytes, le_of_slice (hholds.fields (0, leBytes 8 entry.inode) (by simp [fields]))
        hvalid.inode_lt, hkind, hlength, hname, fromUtf8_utf8, FileType.ofCode_code,
        Option.getD_some]
    rw [heq] at hdecides
    exact hdecides.eq_ok ⟨hvalid, hholds⟩

theorem decode_record (entry : DirectoryEntry) (h : entry.Valid) : decode entry.record = .ok entry :=
  decode_eq_ok.mpr ⟨(entry.length_record h.name).ge, h, entry.recorded_record h.name⟩

theorem decode_total (h : input.length = 256) : (decode input).Total :=
  (decode_decides h.ge).total

theorem valid_of_decode (h : decode input = .ok entry) : entry.Valid :=
  (decode_eq_ok.mp h).2.1

end DirectoryEntry

/-! ## The superblock -/

namespace Superblock

/-- The layout relations that `validate` asks for. -/
structure Valid (sb : Superblock) : Prop where
  version_eq : sb.version = 1
  blockSize_eq : sb.blockSize = 4096
  total_ge : 32 ≤ sb.totalBlocks
  inodeBitmap_eq : sb.inodeBitmapBlock = 2
  blockBitmap_eq : sb.blockBitmapBlock = 3
  table_eq : sb.inodeTableBlock = 3 + (sb.totalBlocks + 32767) / 32768
  table_lt : sb.inodeTableBlock < sb.dataStartBlock
  table_le : sb.dataStartBlock ≤ sb.inodeTableBlock + 2048
  data_lt : sb.dataStartBlock < sb.totalBlocks
  root_eq : sb.rootInode = 1

theorem validate_decides (sb : Superblock) (ht : sb.totalBlocks < 2 ^ 64) :
    Decides sb.validate sb.Valid () := by
  have hadd : sb.blockBitmapBlock = 3 → (addU64 sb.blockBitmapBlock sb.blockBitmapBlocks :
      Result FsError Nat) = .ok (3 + (sb.totalBlocks + 32767) / 32768) := by
    intro h3
    rw [h3, addU64_eq] <;> simp only [blockBitmapBlocks, divCeil, bitmapBitsPerBlock,
      Nexfs.blockSize]
    · rfl
    · omega
  unfold validate
  by_cases hsub : sb.inodeTableBlock ≤ sb.dataStartBlock
  · simp only [checkedSub_eq hsub]
    refine Decides.congr (.guard fun _ => .guard fun _ => .guard fun _ => .guard fun _ =>
      .guard fun h3 => .bind_ok (hadd h3) (.guard fun _ => .guard fun _ => .guard fun _ =>
      .guard fun _ => .ensure _ _)) ?_ fun _ => rfl
    constructor
    · rintro ⟨h1, h2, h3, h4, h5, h6, h7, h8, h9, h10⟩
      simp only [maxInodeTableBlocks, bitmapBitsPerBlock, inodesPerBlock, Nexfs.blockSize,
        inodeSize] at h8
      exact ⟨h1, h2, h3, h4, h5, h6, by omega, by omega, h9, h10⟩
    · rintro ⟨h1, h2, h3, h4, h5, h6, h7, h8, h9, h10⟩
      refine ⟨h1, h2, h3, h4, h5, h6, by omega, ?_, h9, h10⟩
      simp only [maxInodeTableBlocks, bitmapBitsPerBlock, inodesPerBlock, Nexfs.blockSize,
        inodeSize]
      omega
  · simp only [checkedSub, if_neg hsub]
    refine Decides.congr (.guard fun _ => .guard fun _ => .fail _ _ (P := False) id) ?_
      fun _ => rfl
    constructor
    · rintro ⟨-, -, h⟩
      exact h.elim
    · intro h
      exact absurd h.table_lt.le hsub

theorem inodeCount_eq {sb : Superblock} (h : sb.Valid) :
    sb.inodeCount = .ok ((sb.dataStartBlock - sb.inodeTableBlock) * 16) := by
  have h1 := h.table_lt
  have h2 := h.table_le
  have hmul : checkedMul (sb.dataStartBlock - sb.inodeTableBlock) inodesPerBlock =
      some ((sb.dataStartBlock - sb.inodeTableBlock) * 16) := by
    rw [checkedMul_eq] <;> simp only [inodesPerBlock, Nexfs.blockSize, inodeSize]
    omega
  simp only [inodeCount, checkedSub_eq h1.le, Option.bind_some, hmul, h.root_eq,
    bitmapBitsPerBlock, Nexfs.blockSize]
  rw [if_pos (by omega)]

def record (sb : Superblock) : List UInt8 :=
  sealed 100 96 (writeFields (List.replicate 4096 0) sb.fields)

section
variable (sb : Superblock)
include sb

theorem fields_laid : Laid 96 sb.fields :=
  ⟨by simp [fields, magic], by simp [fields, Apart, magic]⟩

theorem encode_append (h : 4096 ≤ output.length) :
    sb.encode output = .ok (sb.record ++ output.drop 4096) := by
  rw [record, ← sealed_append sb.fields_laid (by decide)]
  simp only [encode, ensure_pos h, splice, length_replicate]
  rfl

theorem encode_eq (h : output.length = 4096) : sb.encode output = .ok sb.record := by
  rw [sb.encode_append h.ge, drop_of_length_le h.le, append_nil]

@[simp] theorem length_record : sb.record.length = 4096 :=
  length_sealed sb.fields_laid (by decide)

theorem recorded_record : Recorded 96 sb.fields sb.record :=
  recorded_sealed sb.fields_laid (by decide)

end

def ofBytes (input : List UInt8) : Superblock where
  version := le input 8 4
  blockSize := le input 12 4
  totalBlocks := le input 16 8
  inodeBitmapBlock := le input 24 8
  blockBitmapBlock := le input 32 8
  inodeTableBlock := le input 40 8
  dataStartBlock := le input 48 8
  rootInode := le input 56 8
  flags := le input 64 4
  generation := le input 72 8
  uuid := Vector.ofFn fun i : Fin 16 => (slice input 80 16)[i.val]?.getD 0

theorem ofBytes_fits : (ofBytes input).Fits where
  version := le_lt _ _ _
  blockSize := le_lt _ _ _
  totalBlocks := le_lt _ _ _
  inodeBitmapBlock := le_lt _ _ _
  blockBitmapBlock := le_lt _ _ _
  inodeTableBlock := le_lt _ _ _
  dataStartBlock := le_lt _ _ _
  rootInode := le_lt _ _ _
  flags := le_lt _ _ _
  generation := le_lt _ _ _

variable {sb : Superblock}

theorem fields_ofBytes (h : 4096 ≤ input.length) :
    (∀ f ∈ (ofBytes input).fields, slice input f.1 f.2.length = f.2) ↔
      slice input 0 8 = magic := by
  have hle {offset width : Nat} (hend : offset + width ≤ 4096) :
      slice input offset width = leBytes width (le input offset width) :=
    (leBytes_le (hend.trans h)).symm
  have huuid : slice input 80 16 =
      (Vector.ofFn fun i : Fin 16 => (slice input 80 16)[i.val]?.getD 0).toList := by
    have hlen : (slice input 80 16).length = 16 := length_slice (by omega)
    apply ext_getElem (by rw [hlen, Vector.length_toList])
    intro i hi _
    simp [getElem?_eq_getElem hi]
  simp only [fields, forall_mem_cons, length_leBytes,
    not_mem_nil, false_implies, implies_true, and_true]
  refine ⟨fun hfields => hfields.1, fun hmagic => ⟨hmagic, ?_⟩⟩
  exact ⟨hle (by decide), hle (by decide), hle (by decide), hle (by decide), hle (by decide),
    hle (by decide), hle (by decide), hle (by decide), hle (by decide), hle (by decide), huuid⟩

theorem ofBytes_eq (hfits : sb.Fits) (h : ∀ f ∈ sb.fields, slice input f.1 f.2.length = f.2) :
    ofBytes input = sb := by
  have hle {offset width value : Nat} (hf : (offset, leBytes width value) ∈ sb.fields) :=
    le_of_slice (h _ hf)
  have huuid : (Vector.ofFn fun i : Fin 16 => (slice input 80 16)[i.val]?.getD 0) = sb.uuid := by
    have hs := h (80, sb.uuid.toList) (by simp [fields])
    simp only [Vector.length_toList] at hs
    apply Vector.ext
    intro i hi
    simp [hs]
  rw [ofBytes, huuid, hle (by simp [fields]) hfits.version, hle (by simp [fields]) hfits.blockSize,
    hle (by simp [fields]) hfits.totalBlocks, hle (by simp [fields]) hfits.inodeBitmapBlock,
    hle (by simp [fields]) hfits.blockBitmapBlock, hle (by simp [fields]) hfits.inodeTableBlock,
    hle (by simp [fields]) hfits.dataStartBlock, hle (by simp [fields]) hfits.rootInode,
    hle (by simp [fields]) hfits.flags, hle (by simp [fields]) hfits.generation]

theorem decode_eq (h : 4096 ≤ input.length) :
    decode input =
      (ensure (slice input 0 8 = magic) .invalidMagic >>= fun _ =>
        ensure (checksumAt (input.take 100) 96 = le input 96 4) .checksumMismatch >>= fun _ =>
          (ofBytes input).validate >>= fun _ => .ok (ofBytes input)) := by
  simp only [decode, getU32, getU64, ensure_pos h, bind_ok]
  congr 1
  funext _
  rw [getLe_eq (by omega), bind_ok]
  congr 1
  funext _
  rw [rangeOf_eq (by omega)]
  iterate 10 rw [getLe_eq (by omega)]
  rfl

theorem decode_decides (h : 4096 ≤ input.length) :
    Decides (decode input) ((ofBytes input).Valid ∧ Recorded 96 (ofBytes input).fields input)
      (ofBytes input) := by
  rw [decode_eq h]
  refine Decides.congr (.guard fun _ => .guard fun _ => ((ofBytes input).validate_decides
    ofBytes_fits.totalBlocks).bind fun _ => .of_ok rfl) ?_ fun _ => rfl
  constructor
  · rintro ⟨hmagic, hsum, hvalid, -⟩
    exact ⟨hvalid, hsum, (fields_ofBytes h).mpr hmagic⟩
  · rintro ⟨hvalid, hsum, hfields⟩
    exact ⟨(fields_ofBytes h).mp hfields, hsum, hvalid, trivial⟩

theorem decode_eq_ok :
    decode input = .ok sb ↔ 4096 ≤ input.length ∧ (sb.Valid ∧ sb.Fits) ∧ Recorded 96 sb.fields input := by
  by_cases h : 4096 ≤ input.length
  case neg =>
    refine ⟨fun hd => ?_, fun hd => absurd hd.1 h⟩
    rw [decode, ensure_neg h] at hd
    cases hd
  rw [and_iff_right h]
  have hdecides := decode_decides h
  constructor
  · intro hd
    obtain ⟨⟨hvalid, hholds⟩, rfl⟩ := hdecides.of_eq_ok hd
    exact ⟨⟨hvalid, ofBytes_fits⟩, hholds⟩
  · rintro ⟨⟨hvalid, hfits⟩, hholds⟩
    rw [ofBytes_eq hfits hholds.fields] at hdecides
    exact hdecides.eq_ok ⟨hvalid, hholds⟩

theorem valid_of_decode (h : decode input = .ok sb) : sb.Valid ∧ sb.Fits :=
  (decode_eq_ok.mp h).2.1

theorem decode_record (hf : sb.Fits) (hv : sb.Valid) : decode sb.record = .ok sb :=
  decode_eq_ok.mpr ⟨sb.length_record.ge, ⟨hv, hf⟩, sb.recorded_record⟩

end Superblock

/-! ## Round trips -/

/-- The bytes in front of the checksum that belong to no field are zero. -/
def ZeroGaps (offset : Nat) (fields : List (Nat × List UInt8)) (input : List UInt8) : Prop :=
  ∀ i < offset, (∀ f ∈ fields, i < f.1 ∨ f.1 + f.2.length ≤ i) → input[i]? = some 0

theorem Inode.decode_encode {inode : Inode} (hfits : inode.Fits) (h : 256 ≤ output.length) :
    ∃ bytes, inode.encode output = .ok bytes ∧ decode bytes = .ok inode := by
  refine ⟨_, inode.encode_append h, decode_eq_ok.mpr ⟨?_, hfits, ?_⟩⟩
  · rw [length_append, inode.length_record]
    exact Nat.le_add_right ..
  · exact inode.recorded_record.append inode.fields_laid inode.length_record.ge _

theorem Inode.encode_decode {inode : Inode} (hd : decode input = .ok inode)
    (hgaps : ZeroGaps 252 inode.fields input) (h : 256 ≤ output.length) :
    ∃ bytes, inode.encode output = .ok bytes ∧ bytes.take 256 = input.take 256 := by
  obtain ⟨hlen, -, hrecorded⟩ := decode_eq_ok.mp hd
  refine ⟨_, inode.encode_append h, ?_⟩
  rw [take_append_of_le_length inode.length_record.ge]
  exact hrecorded.take_sealed_eq inode.fields_laid (by decide) hlen hgaps

theorem DirectoryEntry.decode_encode {entry : DirectoryEntry} (hvalid : entry.Valid)
    (h : 256 ≤ output.length) :
    ∃ bytes, entry.encode output = .ok bytes ∧ decode bytes = .ok entry := by
  have hlen := entry.length_record hvalid.name
  refine ⟨_, entry.encode_append hvalid.name h, decode_eq_ok.mpr ⟨?_, hvalid, ?_⟩⟩
  · rw [length_append, hlen]
    exact Nat.le_add_right ..
  · exact (entry.recorded_record hvalid.name).append (entry.fields_laid hvalid.name) hlen.ge _

theorem DirectoryEntry.encode_decode {entry : DirectoryEntry} (hd : decode input = .ok entry)
    (hgaps : ZeroGaps 252 entry.fields input) (h : 256 ≤ output.length) :
    ∃ bytes, entry.encode output = .ok bytes ∧ bytes.take 256 = input.take 256 := by
  have ⟨hlen, hvalid, hrecorded⟩ := decode_eq_ok.mp hd
  refine ⟨_, entry.encode_append hvalid.name h, ?_⟩
  rw [take_append_of_le_length (entry.length_record hvalid.name).ge]
  exact hrecorded.take_sealed_eq (entry.fields_laid hvalid.name) (by decide) hlen hgaps

theorem Superblock.decode_encode (hfits : sb.Fits) (h : 4096 ≤ output.length) :
    ∃ bytes, sb.encode output = .ok bytes ∧
      decode bytes = (sb.validate >>= fun _ => .ok sb) := by
  have hlen : 4096 ≤ (sb.record ++ output.drop 4096).length := by
    rw [length_append, sb.length_record]
    exact Nat.le_add_right ..
  have hrecorded := sb.recorded_record.append sb.fields_laid
    (by rw [sb.length_record]; decide) (output.drop 4096)
  refine ⟨_, sb.encode_append h, ?_⟩
  have hself := ofBytes_eq hfits hrecorded.fields
  have hmagic := (fields_ofBytes hlen).mp (by rw [hself]; exact hrecorded.fields)
  rw [decode_eq hlen, ensure_pos hmagic, bind_ok, ensure_pos hrecorded.checksum, bind_ok, hself]

theorem Superblock.encode_decode (hd : decode input = .ok sb)
    (hgaps : ZeroGaps 96 sb.fields input) (h : 4096 ≤ output.length) :
    ∃ bytes, sb.encode output = .ok bytes ∧ bytes.take 100 = input.take 100 := by
  obtain ⟨hlen, -, hrecorded⟩ := decode_eq_ok.mp hd
  refine ⟨_, sb.encode_append h, ?_⟩
  rw [take_append_of_le_length (by rw [sb.length_record]; decide)]
  exact hrecorded.take_sealed_eq sb.fields_laid (by decide) (by omega) hgaps

/-- The records round-trip: what an encoder writes into a buffer that holds it, its decoder reads
back, a superblock as far as `validate` allows. Bytes that a decoder accepts and that are zero
where no field lies are the ones its encoder writes. -/
theorem records_round_trip :
    (∀ (inode : Inode) (output : List UInt8), inode.Fits → 256 ≤ output.length →
      ∃ bytes, inode.encode output = .ok bytes ∧ Inode.decode bytes = .ok inode) ∧
    (∀ (entry : DirectoryEntry) (output : List UInt8), entry.inode ≠ 0 → entry.inode < 2 ^ 64 →
      validateName entry.name = .ok () → 256 ≤ output.length →
      ∃ bytes, entry.encode output = .ok bytes ∧ DirectoryEntry.decode bytes = .ok entry) ∧
    (∀ (sb : Superblock) (output : List UInt8), sb.Fits → 4096 ≤ output.length →
      ∃ bytes, sb.encode output = .ok bytes ∧
        (Superblock.decode bytes = .ok sb ↔ sb.validate = .ok ()) ∧
        ∀ e, sb.validate = .error e → Superblock.decode bytes = .error e) ∧
    (∀ (inode : Inode) (input output : List UInt8), Inode.decode input = .ok inode →
      ZeroGaps 252 inode.fields input → 256 ≤ output.length →
      ∃ bytes, inode.encode output = .ok bytes ∧ bytes.take 256 = input.take 256) ∧
    (∀ (entry : DirectoryEntry) (input output : List UInt8), DirectoryEntry.decode input = .ok entry →
      ZeroGaps 252 entry.fields input → 256 ≤ output.length →
      ∃ bytes, entry.encode output = .ok bytes ∧ bytes.take 256 = input.take 256) ∧
    (∀ (sb : Superblock) (input output : List UInt8), Superblock.decode input = .ok sb →
      ZeroGaps 96 sb.fields input → 4096 ≤ output.length →
      ∃ bytes, sb.encode output = .ok bytes ∧ bytes.take 100 = input.take 100) := by
  refine ⟨fun _ _ => Inode.decode_encode, ?_, ?_, fun _ _ _ => Inode.encode_decode,
    fun _ _ _ => DirectoryEntry.encode_decode, fun _ _ _ => Superblock.encode_decode⟩
  · intro entry output hne hlt hname h
    have hvalid := ((Decides.ensure (ValidName entry.name) _).of_eq_ok hname).1
    exact DirectoryEntry.decode_encode ⟨hne, hlt, hvalid⟩ h
  · intro sb output hfits h
    obtain ⟨bytes, hencode, hdecode⟩ := Superblock.decode_encode hfits h
    refine ⟨bytes, hencode, ?_, ?_⟩
    · rw [hdecode]
      cases hv : sb.validate with
      | ok u => exact iff_of_true rfl rfl
      | error e => exact iff_of_false nofun nofun
    · intro e he
      rw [hdecode, he]
      rfl

/-! What a record is made of matters to the lemmas above only. -/

attribute [irreducible] Inode.record DirectoryEntry.record Superblock.record

end NexOs.Nexfs
