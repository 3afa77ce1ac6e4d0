import NexOs.Fat.FormatSizes
import NexOs.Fat.Mount

/-! Formatting a device, and what a mount of it finds afterwards. -/
namespace NexOs.Storage
open List Bytes Exec

/-! ## The sectors that are written -/

section
variable {spc total spf id : Nat}

theorem bootFields_laid : Laid 512 (bootFields spc total spf id) := by
  constructor <;> simp [bootFields, mbrSignature, Apart]

@[simp] theorem length_bootSector (spc total spf id : Nat) :
    (bootSector spc total spf id).length = 512 := bootFields_laid.length_zeros

theorem le_bootSector
    (h : (offset, leBytes width value) ∈ bootFields spc total spf id) (hv : value < 256 ^ width) :
    le (bootSector spc total spf id) offset width = value :=
  bootFields_laid.le_zeros h hv

theorem le_bootSector_zero (hend : offset + width ≤ 512)
    (h : ∀ f ∈ bootFields spc total spf id,
      offset + width ≤ f.1 ∨ f.1 + f.2.length ≤ offset) :
    le (bootSector spc total spf id) offset width = 0 :=
  le_of_slice_zero (bootFields_laid.slice_gap hend h)

@[simp] theorem length_infoSector (free : Nat) : (infoSector free).length = 512 := by
  apply Laid.length_zeros
  constructor <;> simp [Apart]

def fatFields : List (Nat × List UInt8) :=
  [(0, leBytes 4 0x0ffffff8), (4, leBytes 4 0xffffffff), (8, leBytes 4 fatEoc)]

theorem fatFields_laid : Laid 512 fatFields := by
  constructor <;> simp [fatFields, Apart]

@[simp] theorem length_fatSector : fatSector.length = 512 := fatFields_laid.length_zeros

theorem le_fatSector_zero (hc : 3 ≤ c) (hlt : c < 128) : le fatSector (c * 4) 4 = 0 := by
  apply le_of_slice_zero
  apply fatFields_laid.slice_gap (by omega)
  intro f hf
  right
  have hle : ∀ f ∈ fatFields, f.1 + f.2.length ≤ 12 := by simp [fatFields]
  have hf := hle f hf
  omega

end

/-- What the sectors hold after formatting; `old` is what they held before. -/
def formattedSectors (total spc id : Nat) (old : Nat → List UInt8) (l : Nat) : List UInt8 :=
  if l = 32 ∨ l = 32 + fatSectorsFor total spc then fatSector
  else if 32 ≤ l ∧ l < overheadFor total spc + spc then List.replicate 512 0
  else if l = 1 ∨ l = 7 then infoSector (clustersFor total spc - 1)
  else if l = 0 ∨ l = 6 then bootSector spc total (fatSectorsFor total spc) id
  else old l

def formatInfo (total spc : Nat) : Fat32Info where
  bytesPerSector := 512
  sectorsPerCluster := spc
  totalSectors := total
  sectorsPerFat := fatSectorsFor total spc
  rootCluster := rootCluster
  totalClusters := clustersFor total spc

/-! ## The run -/

variable {d d' : Disk} {spc id : Nat}

section
variable {sectors : Nat → List UInt8}

theorem zeroRangeFrom_run (hsize : d.sectorSize = 512) {first count : Nat}
    (hinside : first + count ≤ d.sectorCount) {fuel completed : Nat}
    (hfuel : count - completed < fuel) (h : Rewritten d d' sectors) :
    ∃ d'', zeroRangeFrom first count 64 (replicate (512 * 64) 0) fuel completed d' =
        (.ok (), d'') ∧
      Rewritten d d'' fun l => if first + completed ≤ l ∧ l < first + count
        then replicate 512 0 else sectors l := by
  induction fuel generalizing d' completed sectors with
  | zero => exact absurd hfuel (Nat.not_lt_zero _)
  | succ fuel ih =>
    rw [zeroRangeFrom]
    by_cases hmore : completed < count
    · rw [if_pos hmore, get_bind]
      generalize hk : min (count - completed) 64 = k
      have hzeros : slice (replicate (512 * 64) (0 : UInt8)) 0 (k * 512 - 0) =
          replicate (k * d.sectorSize) 0 := by
        rw [slice_replicate 0 (by omega), hsize, Nat.sub_zero]
      obtain ⟨d₁, hrun, hd₁⟩ := h.writeZeros (show 0 < d.sectorSize by omega)
        (show first + completed + k ≤ d.sectorCount by omega)
      obtain ⟨d'', hrest, hd''⟩ := ih (show count - (completed + k) < fuel by omega) hd₁
      refine ⟨d'', ?_, hd''.congr ?_⟩
      · rw [h.size, hsize, checkedMul_eq (by omega), okOr_some, pure_bind_run,
          rangeOf_eq ⟨by omega, by rw [length_replicate]; omega⟩, lift_ok_bind, hzeros,
          bind_of_ok hrun]
        exact hrest
      · intro l
        rw [hsize]
        by_cases hl : first + completed ≤ l ∧ l < first + count
        · rw [if_pos hl]
          by_cases hnext : first + (completed + k) ≤ l ∧ l < first + count
          · rw [if_pos hnext]
          · rw [if_neg hnext, if_pos (by omega)]
        · rw [if_neg hl, if_neg (by omega), if_neg (by omega)]
    · rw [if_neg hmore]
      refine ⟨d', rfl, h.congr ?_⟩
      intro l
      rw [if_neg (by omega)]

theorem formatFat32_run (hsize : d.sectorSize = 512) (htotal : d.sectorCount < 2 ^ 32)
    (hspc : spc ∈ clusterSizes) (hsuits : Suits d.sectorCount spc)
    (hchoose : chooseFormatGeometry d.sectorCount 512 =
      .ok (spc, fatSectorsFor d.sectorCount spc, clustersFor d.sectorCount spc)) :
    ∃ d', formatFat32 id d = (.ok (formatInfo d.sectorCount spc), d') ∧
      Rewritten d d' (formattedSectors d.sectorCount spc id (sectorAt d)) := by
  have hclusters := hsuits.clusters_ge
  have hspc := clusterSizes_pos spc hspc
  have hpos : 0 < d.sectorSize := by omega
  have hdata : overheadFor d.sectorCount spc + spc ≤ d.sectorCount := by
    have hmul := Nat.div_mul_le_self (d.sectorCount - overheadFor d.sectorCount spc) spc
    have hone := Nat.mul_le_mul_right spc (show 1 ≤ clustersFor d.sectorCount spc by omega)
    unfold clustersFor at hone
    omega
  generalize hspf : fatSectorsFor d.sectorCount spc = spf at *
  have hoverhead : overheadFor d.sectorCount spc = 32 + 2 * spf := by rw [overheadFor, hspf]
  have hboot := (length_bootSector spc d.sectorCount spf id).trans hsize.symm
  have hinfo := (length_infoSector (clustersFor d.sectorCount spc - 1)).trans hsize.symm
  have hfat := length_fatSector.trans hsize.symm
  obtain ⟨d₁, h₁, hd₁⟩ := (Rewritten.refl d).writeSector hpos hboot
    (show 0 < d.sectorCount by omega)
  obtain ⟨d₂, h₂, hd₂⟩ := hd₁.writeSector hpos hboot (show 6 < d.sectorCount by omega)
  obtain ⟨d₃, h₃, hd₃⟩ := hd₂.writeSector hpos hinfo (show 1 < d.sectorCount by omega)
  obtain ⟨d₄, h₄, hd₄⟩ := hd₃.writeSector hpos hinfo (show 7 < d.sectorCount by omega)
  obtain ⟨d₅, h₅, hd₅⟩ := zeroRangeFrom_run hsize
    (show 32 + (2 * spf + spc) ≤ d.sectorCount by omega)
    (show 2 * spf + spc - 0 < 2 * spf + spc + 1 by omega) hd₄
  obtain ⟨d₆, h₆, hd₆⟩ := hd₅.writeSector hpos hfat (show 32 + 0 * spf < d.sectorCount by omega)
  obtain ⟨d₇, h₇, hd₇⟩ := hd₆.writeSector hpos hfat (show 32 + 1 * spf < d.sectorCount by omega)
  refine ⟨d₇.flushed, ?_, hd₇.flushed.congr ?_⟩
  · have hzero : zeroRange 32 (2 * spf + spc) (replicate (512 * 64) 0) d₄ = (.ok (), d₅) := by
      unfold zeroRange
      rw [get_bind, length_replicate, hd₄.size, hsize]
      exact h₅
    have hfats : (range 2).forM (fun fat => Disk.writeSectors (32 + fat * spf) fatSector) d₅ =
        (.ok (), d₇) := by
      have hrange : List.range 2 = [0, 1] := rfl
      rw [hrange, List.forM, List.forM, bind_of_ok h₆, bind_of_ok h₇]
      rfl
    have hfree : (subU64 (clustersFor d.sectorCount spc) 1 : Result StorageError Nat) =
        .ok (clustersFor d.sectorCount spc - 1) := subU64_eq (by omega)
    unfold formatFat32
    rw [get_bind, ensure_bind_pos hsize, ensure_bind_pos htotal, hchoose,
      lift_ok_bind, bind_of_ok h₁, bind_of_ok h₂, hfree, lift_ok_bind, bind_of_ok h₃, bind_of_ok h₄, bind_of_ok hzero,
      bind_of_ok hfats, formatInfo, hspf]
    rfl
  · intro l
    unfold formattedSectors
    rw [hspf, hoverhead]
    simp only [Function.update_apply, Nat.zero_mul, Nat.one_mul]
    by_cases hl : l = 32 ∨ l = 32 + spf
    · rcases hl with rfl | rfl
      · simp
      · simp
    · rw [if_neg hl, if_neg fun heq => hl (.inr heq), if_neg fun heq => hl (.inl heq)]
      by_cases hzero : 32 ≤ l ∧ l < 32 + 2 * spf + spc
      · rw [if_pos hzero, if_pos (by omega)]
      · rw [if_neg hzero, if_neg (by omega)]
        by_cases hinfo : l = 1 ∨ l = 7
        · rcases hinfo with rfl | rfl <;> simp
        · rw [if_neg hinfo, if_neg fun heq => hinfo (.inr heq), if_neg fun heq => hinfo (.inl heq)]
          by_cases hboot : l = 0 ∨ l = 6
          · rcases hboot with rfl | rfl <;> simp
          · rw [if_neg hboot, if_neg fun heq => hboot (.inr heq),
              if_neg fun heq => hboot (.inl heq)]

end

/-! ## The boot sector is accepted -/

def formatVolume (total spc : Nat) : Fat32 where
  bytesPerSector := 512
  sectorsPerCluster := spc
  reservedSectors := 32
  fatCount := 2
  sectorsPerFat := fatSectorsFor total spc
  totalSectors := total
  rootCluster := 2
  firstDataSector := overheadFor total spc
  totalClusters := clustersFor total spc

section
variable {total spc : Nat}

theorem clusterSizes_le : ∀ spc ∈ clusterSizes, spc ≤ 128 := by decide

theorem clusterSizes_power : ∀ spc ∈ clusterSizes, isPowerOfTwo spc = true := by decide

theorem slice_bootSector_signature (spc total spf id : Nat) :
    slice (bootSector spc total spf id) 510 2 = mbrSignature :=
  bootFields_laid.slice_zeros (f := (510, mbrSignature)) (by simp [bootFields])

variable (htotal : total < 2 ^ 32)
include htotal

theorem bootTotal_bootSector (spc spf id : Nat) :
    Fat32.bootTotal (bootSector spc total spf id) = total := by
  have hshort : le (bootSector spc total spf id) 19 2 = 0 :=
    le_bootSector_zero (by decide) (by simp [bootFields])
  rw [Fat32.bootTotal, if_pos hshort]
  exact le_bootSector (by simp [bootFields]) (by omega)

theorem bootVolume_bootSector (hspc : spc ∈ clusterSizes) (id : Nat) :
    Fat32.bootVolume (bootSector spc total (fatSectorsFor total spc) id) =
      formatVolume total spc := by
  have hle := clusterSizes_le spc hspc
  have hfat := (fatSectorsFor_le total spc).trans_lt (fatSectorsFor_one_lt htotal)
  have hsector : le (bootSector spc total (fatSectorsFor total spc) id) 11 2 = 512 :=
    le_bootSector (by simp [bootFields]) (by decide)
  have hcluster : le (bootSector spc total (fatSectorsFor total spc) id) 13 1 = spc :=
    le_bootSector (by simp [bootFields]) (by omega)
  have hreserved : le (bootSector spc total (fatSectorsFor total spc) id) 14 2 = 32 :=
    le_bootSector (by simp [bootFields]) (by decide)
  have hcount : le (bootSector spc total (fatSectorsFor total spc) id) 16 1 = 2 :=
    le_bootSector (by simp [bootFields]) (by decide)
  have hspf : le (bootSector spc total (fatSectorsFor total spc) id) 36 4 =
      fatSectorsFor total spc := le_bootSector (by simp [bootFields]) (by omega)
  have hroot : le (bootSector spc total (fatSectorsFor total spc) id) 44 4 = 2 :=
    le_bootSector (by simp [bootFields]) (by decide)
  rw [Fat32.bootVolume, Fat32.bootClusters, Fat32.bootFirstData, bootTotal_bootSector htotal,
    hsector, hcluster, hreserved, hcount, hspf, hroot]
  rfl

theorem bootFine_bootSector (hspc : spc ∈ clusterSizes) (hsuits : Suits total spc) (id : Nat) :
    Fat32.BootFine 512 total (bootSector spc total (fatSectorsFor total spc) id) := by
  have hsignature := slice_bootSector_signature spc total (fatSectorsFor total spc) id
  have hentries : le (bootSector spc total (fatSectorsFor total spc) id) 17 2 = 0 :=
    le_bootSector_zero (by decide) (by simp [bootFields])
  have hfat16 : le (bootSector spc total (fatSectorsFor total spc) id) 22 2 = 0 :=
    le_bootSector_zero (by decide) (by simp [bootFields])
  have hversion : le (bootSector spc total (fatSectorsFor total spc) id) 42 2 = 0 :=
    le_bootSector_zero (by decide) (by simp [bootFields])
  have hvolume := bootVolume_bootSector htotal hspc id
  generalize bootSector spc total (fatSectorsFor total spc) id = boot at *
  have hsector : le boot 11 2 = 512 := congrArg Fat32.bytesPerSector hvolume
  have hcluster : le boot 13 1 = spc := congrArg Fat32.sectorsPerCluster hvolume
  have hreserved : le boot 14 2 = 32 := congrArg Fat32.reservedSectors hvolume
  have hcount : le boot 16 1 = 2 := congrArg Fat32.fatCount hvolume
  have hspf : le boot 36 4 = fatSectorsFor total spc := congrArg Fat32.sectorsPerFat hvolume
  have hroot : le boot 44 4 = 2 := congrArg Fat32.rootCluster hvolume
  have hall : Fat32.bootTotal boot = total := congrArg Fat32.totalSectors hvolume
  have hdata : Fat32.bootFirstData boot = overheadFor total spc :=
    congrArg Fat32.firstDataSector hvolume
  have hclusters : Fat32.bootClusters boot = clustersFor total spc :=
    congrArg Fat32.totalClusters hvolume
  have hover := hsuits.overhead
  have hge := hsuits.clusters_ge
  have hcap := fatSectorsFor_capacity total spc
  have hpos := clusterSizes_pos spc hspc
  exact {
    signature := hsignature
    sector := hsector
    sector_power := by rw [hsector]; decide
    cluster_pos := by omega
    cluster_power := by rw [hcluster]; exact clusterSizes_power spc hspc
    cluster_le := by rw [hcluster]; exact clusterSizes_le spc hspc
    reserved_pos := by omega
    fats := by omega
    root_entries := hentries
    fat16 := hfat16
    fat_pos := by rw [hspf]; omega
    total_pos := by rw [hall]; unfold overheadFor at hover; omega
    version := hversion
    root_ge := hroot.ge
    total_le := hall.le
    data_le := by rw [hdata, hall]; exact hover
    clusters_ge := by rw [hclusters]; exact hge
    capacity := by rw [hclusters, hspf, hsector]; exact hcap
    root_lt := by rw [hclusters]; omega }

end

/-! ## What the new volume holds -/

section
open Fat32

section
variable (hsize : d.sectorSize = 512) (htotal : d.sectorCount < 2 ^ 32) (hspc : spc ∈ clusterSizes)
  (hsuits : Suits d.sectorCount spc)
  (h : Rewritten d d' (formattedSectors d.sectorCount spc id (sectorAt d)))
include hsize htotal hspc hsuits h

theorem mount_formatted :
    mount d' = (.ok (formatVolume d.sectorCount spc), d') ∧
      (formatVolume d.sectorCount spc).Geometry d' := by
  have hboot : sectorAt d' 0 =
      bootSector spc d.sectorCount (fatSectorsFor d.sectorCount spc) id := by
    rw [h.sector, formattedSectors, if_neg (by omega), if_neg (by omega), if_neg (by omega),
      if_pos (.inl rfl)]
  have hfine := bootFine_bootSector htotal hspc hsuits id
  have hvolume := bootVolume_bootSector htotal hspc id
  have hdecides := mount_decides d'
  rw [h.size, hsize, h.count, hboot, hvolume] at hdecides
  have hone : 1 ≤ d.sectorCount := by
    have hover := hsuits.overhead
    unfold overheadFor at hover
    omega
  have hrun := hdecides.accepts.run_ok ⟨⟨by decide, by decide⟩, hone, hfine⟩
  exact ⟨hrun, (geometry_of_mount hrun).2⟩

def freshFat (c : Nat) : Nat := if c = 2 then fatEoc else 0

def freshVolume (fs : Fat32) (d : Disk) : Volume := ⟨freshFat, fs.clusterBytes d⟩

theorem holds_formatted :
    (formatVolume d.sectorCount spc).Holds d' (freshVolume (formatVolume d.sectorCount spc) d') := by
  have hg := (mount_formatted hsize htotal hspc hsuits h).2
  refine ⟨hg, ?_, fun _ _ => rfl⟩
  intro copy hcopy c hc
  have hlba := hg.fatLba_lt hcopy hc
  have hquot := hg.fat_quotient_lt hc
  have hcopies : copy = 0 ∨ copy = 1 := by
    change copy < 2 at hcopy
    omega
  have hvalid : 2 ≤ c := hc.1
  rw [fatEntry, h.sector, formattedSectors]
  change _ = freshFat c
  have hwhere : (formatVolume d.sectorCount spc).fatLba copy c =
      32 + copy * fatSectorsFor d.sectorCount spc + c * 4 / 512 := rfl
  have hoff : (formatVolume d.sectorCount spc).fatOffset c = c * 4 % 512 := rfl
  change _ < overheadFor d.sectorCount spc at hlba
  change c * 4 / 512 < fatSectorsFor d.sectorCount spc at hquot
  rw [hoff]
  by_cases hfirst : c * 4 / 512 = 0
  · rw [if_pos (by rcases hcopies with rfl | rfl <;> omega), Nat.mod_eq_of_lt (by omega), freshFat]
    by_cases hc2 : c = 2
    · rw [hc2]
      rfl
    · rw [if_neg hc2, le_fatSector_zero (by omega) (by omega)]
      rfl
  · rw [if_neg (by rcases hcopies with rfl | rfl <;> omega), if_pos (by omega),
      le_replicate_zero (by omega), freshFat, if_neg (by omega)]
    rfl

end

theorem fresh_root_chain {fs : Fat32} (d : Disk) (hroot : fs.rootCluster = 2)
    (hvalid : fs.validCluster fs.rootCluster) :
    fs.IsChain (freshVolume fs d) fs.rootCluster [2] := by
  rw [hroot] at hvalid ⊢
  refine ⟨.last (if_pos ?_), fun x hx => (mem_singleton.mp hx).symm ▸ hvalid⟩
  change fatEocMin ≤ freshFat 2
  decide

variable (hsize : d.sectorSize = 512)
  (h : Rewritten d d' (formattedSectors d.sectorCount spc id (sectorAt d)))
include hsize h

theorem data_fresh_root :
    (formatVolume d.sectorCount spc).clusterBytes d' 2 = replicate (512 * spc) 0 := by
  have hslice := slice_eq_sectors d' (overheadFor d.sectorCount spc) spc
  have hzero : ∀ i ∈ range spc, sectorAt d' (overheadFor d.sectorCount spc + i) =
      replicate 512 0 := by
    intro i hi
    have hi := mem_range.mp hi
    have hover : overheadFor d.sectorCount spc = 32 + 2 * fatSectorsFor d.sectorCount spc := rfl
    have hfat : 0 < fatSectorsFor d.sectorCount spc := by
      unfold fatSectorsFor divCeil
      generalize (d.sectorCount - 32) / spc = q
      omega
    rw [h.sector, formattedSectors, if_neg (by omega), if_pos (by omega)]
  rw [flatMap_congr hzero, h.size, hsize] at hslice
  have hlba : (formatVolume d.sectorCount spc).dataLba 2 = overheadFor d.sectorCount spc := by
    rw [dataLba, Nat.zero_mul]
    rfl
  rw [clusterBytes, hlba]
  change slice d'.bytes (overheadFor d.sectorCount spc * 512) (512 * spc) = _
  rw [Nat.mul_comm 512, hslice, flatMap_def, map_const', length_range, flatten_replicate_replicate]

theorem entries_fresh_root :
    (formatVolume d.sectorCount spc).entries
      (freshVolume (formatVolume d.sectorCount spc) d') [2] = [] := by
  have hend : ∀ s ∈ (formatVolume d.sectorCount spc).slots [2],
      IsEnd ((freshVolume (formatVolume d.sectorCount spc) d').slot s) := by
    intro s hs
    have hcluster := mem_singleton.mp (mem_slots.mp hs).1
    have hdata : (freshVolume (formatVolume d.sectorCount spc) d').data s.1 =
        replicate (512 * spc) 0 := by
      rw [hcluster]
      exact data_fresh_root hsize h
    rw [IsEnd, Volume.slot, hdata, byteAt_slice (by decide), byteAt, getElem?_replicate]
    split <;> rfl
  rw [entries]
  cases hslots : (formatVolume d.sectorCount spc).slots [2] with
  | nil => rfl
  | cons s rest =>
    rw [hslots] at hend
    rw [takeWhile_cons, if_neg (by simpa using hend s (.head _))]
    rfl

end

/-! ## The result -/

theorem formatFat32_refused (hsize : d.sectorSize = 512)
    (h : ¬(d.sectorCount < 2 ^ 32 ∧ Formattable d.sectorCount)) :
    ∃ e, formatFat32 id d = (.error (.error e), d) := by
  unfold formatFat32
  rw [get_bind, ensure_bind_pos hsize]
  by_cases htotal : d.sectorCount < 2 ^ 32
  · rcases chooseFormatGeometry_result htotal with ⟨hformat, _⟩ | ⟨_, hfail⟩
    · exact absurd ⟨htotal, hformat⟩ h
    · rw [ensure_bind_pos htotal, hfail]
      exact ⟨_, rfl⟩
  · rw [ensure_bind_neg htotal]
    exact ⟨_, rfl⟩

/-- Formatting succeeds exactly on the devices with room for enough clusters behind FATs for
the whole device, and then a mount finds an empty volume of the returned geometry. -/
theorem formatFat32_mounts (d : Disk) (hsize : d.sectorSize = 512) (volumeId : Nat) :
    ((∃ info d', formatFat32 volumeId d = (.ok info, d')) ↔
      d.sectorCount < 2 ^ 32 ∧ Formattable d.sectorCount) ∧
    ∀ info d', formatFat32 volumeId d = (.ok info, d') →
      ∃ fs, Fat32.mount d' = (.ok fs, d') ∧ fs.info = info ∧
        fs.listDir ['/'] d' = (.ok [], d') ∧
        fs.clusterChain fs.rootCluster d' = (.ok [2], d') ∧
        (∀ copy < 2, ∀ c, fs.validCluster c → c ≠ 2 → fs.fatEntry d' copy c = 0) ∧
        ∃ events, d'.log = d.log ++ events ∧ ∀ lba data, .write lba data ∈ events →
          lba + data.length / 512 ≤ info.totalSectors := by
  by_cases h : d.sectorCount < 2 ^ 32 ∧ Formattable d.sectorCount
  · obtain ⟨htotal, hformat⟩ := h
    rcases chooseFormatGeometry_result htotal with ⟨_, spc, hspc, hsuits, hchoose⟩ | ⟨hnot, _⟩
    · obtain ⟨d', hrun, hd'⟩ := @formatFat32_run d spc volumeId hsize htotal hspc hsuits hchoose
      refine ⟨⟨fun _ => ⟨htotal, hformat⟩, fun _ => ⟨_, d', hrun⟩⟩, ?_⟩
      intro info d'' hok
      rw [hrun] at hok
      cases hok
      obtain ⟨hmount, hg⟩ := mount_formatted hsize htotal hspc hsuits hd'
      have hholds := holds_formatted hsize htotal hspc hsuits hd'
      have hchain := fresh_root_chain d' rfl hg.root
      refine ⟨formatVolume d.sectorCount spc, hmount, rfl, ?_, hholds.clusterChain_run hchain, ?_, ?_⟩
      · have hentries := entries_fresh_root hsize hd'
        have hread := hholds.readDirectory_run hchain
        rw [hentries] at hread
        change (Fat32.readDirectory _ _ >>= _) d' = _
        rw [bind_of_ok hread]
        rfl
      · intro copy hcopy c hc hne
        rw [hholds.fat copy hcopy c hc]
        exact if_neg hne
      · obtain ⟨events, hlog, hinside⟩ := hd'.log
        refine ⟨events, hlog, ?_⟩
        intro lba data hmem
        have hle := hinside lba data hmem
        rwa [hsize] at hle
    · exact absurd hformat hnot
  · obtain ⟨e, hrun⟩ := @formatFat32_refused d volumeId hsize h
    refine ⟨⟨?_, fun hand => absurd hand h⟩, ?_⟩
    · rintro ⟨info, d', hok⟩
      rw [hrun] at hok
      cases hok
    · intro info d' hok
      rw [hrun] at hok
      cases hok

/-- The smallest device that is accepted. -/
theorem formatFat32_mounts_smallest : (Disk.zeroed 66599 512).sectorSize = 512 ∧
    ∃ info d', formatFat32 0 (Disk.zeroed 66599 512) = (.ok info, d') := by
  refine ⟨rfl, (formatFat32_mounts (Disk.zeroed 66599 512) rfl 0).1.mpr ?_⟩
  rw [sectorCount_zeroed]
  exact ⟨by decide, by decide⟩

/-- A device that is refused although the clusters fit behind FATs sized for them: the
formatter makes the FATs larger. -/
theorem formatFat32_refuses_fitting :
    32 + 2 * divCeil ((65525 + 2) * 4) 512 + 65525 ≤ (Disk.zeroed 66581 512).sectorCount ∧
    (Disk.zeroed 66581 512).sectorCount < 2 ^ 32 ∧
    ∃ e, formatFat32 0 (Disk.zeroed 66581 512) =
      (.error (.error e), Disk.zeroed 66581 512) := by
  have hcount : (Disk.zeroed 66581 512).sectorCount = 66581 := sectorCount_zeroed _
  refine ⟨?_, ?_, formatFat32_refused rfl ?_⟩
  · rw [hcount]
    decide
  · rw [hcount]
    decide
  · rw [hcount]
    decide

end NexOs.Storage
