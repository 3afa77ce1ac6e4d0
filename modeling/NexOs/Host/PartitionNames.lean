import NexOs.Host.Edit

/-! The names of GPT partitions from a plan to the disk and back. They are written as UTF-16 and
read unit by unit, so a name comes back exactly if each of its characters is one unit. -/
namespace NexOs.Host
open List Bytes Storage Result

/-! ## Units -/

section
variable {name : List Char} {units : List Nat} {c : Char} {n : Nat}

theorem toNat_lt_max (c : Char) : c.toNat < 0x110000 := by
  have hvalid : c.toNat.isValidChar := c.valid
  omega

theorem utf16Units_lt (hu : u ∈ utf16Units c) : u < 256 ^ 2 := by
  have hlt := toNat_lt_max c
  unfold utf16Units at hu
  split at hu
  · simp at hu
    omega
  · simp at hu
    omega

theorem utf16Units_ne_zero (hc : c.toNat ≠ 0) : ∀ u ∈ utf16Units c, u ≠ 0 := by
  intro u hu
  unfold utf16Units at hu
  split at hu
  · simp at hu
    omega
  · simp at hu
    omega

theorem decodeGptName_zeros : decodeGptName (replicate n 0) = [] := by
  match n with
  | 0 => rfl
  | 1 => rfl
  | n + 2 => rfl

theorem decodeGptName_units (hlt : ∀ u ∈ units, u < 256 ^ 2) (hne : ∀ u ∈ units, u ≠ 0) :
    decodeGptName (units.flatMap (leBytes 2) ++ replicate n 0) = units.map charOfCode := by
  induction units with
  | nil => exact decodeGptName_zeros
  | cons u units ih =>
    have hu : ofLe (leBytes 2 u) = u := ofLe_leBytes_of_lt (hlt u mem_cons_self)
    have hrest := ih (fun v hv => hlt v (mem_cons_of_mem _ hv))
      fun v hv => hne v (mem_cons_of_mem _ hv)
    simp only [leBytes] at hu
    simp only [flatMap_cons, leBytes, cons_append, decodeGptName, hu,
      if_neg (hne u mem_cons_self), map_cons]
    rw [← hrest]
    rfl

theorem charOfCode_toNat (c : Char) : charOfCode c.toNat = c := by
  unfold charOfCode
  have hvalid : c.toNat.isValidChar := c.valid
  rw [if_pos hvalid, Char.ofNat_toNat]

theorem length_utf16Units_pos (c : Char) : 1 ≤ (utf16Units c).length := by
  unfold utf16Units
  split <;> simp

theorem length_le_encodeUtf16 (name : List Char) : name.length ≤ (encodeUtf16 name).length := by
  induction name with
  | nil => exact Nat.le_refl 0
  | cons c name ih =>
    have hc := length_utf16Units_pos c
    rw [encodeUtf16, flatMap_cons, length_append, length_cons]
    rw [encodeUtf16] at ih
    omega

theorem length_lt_encodeUtf16 (hc : c ∈ name) (hbeyond : ¬c.toNat < 0x10000) :
    name.length < (encodeUtf16 name).length := by
  obtain ⟨before, after, rfl⟩ := append_of_mem hc
  have hbefore := length_le_encodeUtf16 before
  have hafter := length_le_encodeUtf16 after
  have htwo : (utf16Units c).length = 2 := by
    rw [utf16Units, if_neg hbeyond]
    rfl
  unfold encodeUtf16 at hbefore hafter ⊢
  simp only [flatMap_append, flatMap_cons, length_append, length_cons]
  omega

/-- A character beyond the basic plane takes two units and becomes two characters. -/
theorem map_charOfCode_encodeUtf16 :
    (encodeUtf16 name).map charOfCode = name ↔ ∀ c ∈ name, c.toNat < 0x10000 := by
  constructor
  · intro hsame c hc
    by_contra hbeyond
    have hlength := congrArg length hsame
    rw [length_map] at hlength
    have hlonger := length_lt_encodeUtf16 hc hbeyond
    omega
  · intro hplane
    have hunits : encodeUtf16 name = name.map Char.toNat := by
      have hone : ∀ c ∈ name, utf16Units c = [c.toNat] := fun c hc => if_pos (hplane c hc)
      rw [encodeUtf16, flatMap_congr hone]
      exact map_eq_flatMap.symm
    rw [hunits, map_map]
    exact map_id'' charOfCode_toNat name

end

/-! ## Entries -/

structure NameFits (name : List Char) : Prop where
  length_le : (encodeUtf16 name).length ≤ 36
  zero : Char.ofNat 0 ∉ name

theorem NameFits.units_ne_zero {name : List Char} (h : NameFits name) :
    ∀ u ∈ encodeUtf16 name, u ≠ 0 := by
  intro u hu
  obtain ⟨c, hc, hu⟩ := mem_flatMap.mp hu
  apply utf16Units_ne_zero ?_ u hu
  intro hzero
  rw [← Char.ofNat_toNat c, hzero] at hc
  exact h.zero hc

theorem units_lt {name : List Char} : ∀ u ∈ encodeUtf16 name, u < 256 ^ 2 := by
  intro u hu
  obtain ⟨c, _, hu⟩ := mem_flatMap.mp hu
  exact utf16Units_lt hu

theorem slice_row_name {row : GptRow} (h : (encodeUtf16 row.name).length ≤ 36) :
    slice row.bytes 56 72 = (encodeUtf16 row.name).flatMap (leBytes 2) ++
      replicate (72 - 2 * (encodeUtf16 row.name).length) 0 := by
  have hchunk : ∀ u ∈ encodeUtf16 row.name, (leBytes 2 u).length = 2 :=
    fun u _ => length_leBytes
  have hlength := length_flatMap_chunks hchunk
  have hfields : row.fields = row.fields.take 4 ++ GptRow.nameFields row.name := rfl
  have hfixed : Laid 128 (row.fields.take 4) :=
    ⟨fun f hf => row.fields_laid.bound f (mem_of_mem_take hf),
      row.fields_laid.apart.sublist (take_sublist ..)⟩
  have hbase := hfixed.length_zeros
  have hbytes : row.bytes = splice (writeFields (replicate 128 0) (row.fields.take 4)) 56
      ((encodeUtf16 row.name).flatMap (leBytes 2)) := by
    rw [GptRow.bytes, hfields, writeFields_append, GptRow.nameFields, take_of_length_le h]
    exact writeFields_stride hchunk (by omega)
  have hsplit : 72 = ((encodeUtf16 row.name).flatMap (leBytes 2)).length +
      (72 - 2 * (encodeUtf16 row.name).length) := by omega
  rw [hbytes]
  nth_rewrite 1 [hsplit]
  rw [slice_add, slice_splice_self (by omega), slice_splice_of_disjoint (by omega) (by omega),
    hfixed.slice_gap (by omega)]
  intro f hf
  refine .inr (Nat.le_trans ?_ (Nat.le_add_right 56 _))
  revert f
  simp [GptRow.fields]

theorem decode_row_name {row : GptRow} (h : NameFits row.name) :
    decodeGptName (slice row.bytes 56 72) = (encodeUtf16 row.name).map charOfCode := by
  rw [slice_row_name h.length_le, decodeGptName_units units_lt h.units_ne_zero]

/-! ## Reports -/

def DiskReport.names (report : DiskReport) : List (List Char) :=
  report.partitions.map PartitionReport.name

def LayoutPlan.names (plan : LayoutPlan) : List (List Char) :=
  plan.partitions.map PartitionPlan.name

variable {plan : LayoutPlan} {image : List UInt8}

section
variable (hkind : plan.kind = .gpt) (hfits : ∀ p ∈ plan.partitions, NameFits p.name)
  (bytes : List UInt8)
include hkind hfits bytes

theorem names_planTable :
    (reportOf bytes (planTable plan)).names =
      plan.partitions.map fun p => (encodeUtf16 p.name).map charOfCode := by
  rw [planTable, hkind]
  dsimp only [DiskReport.names, reportOf, gptTable, rowPartitions]
  rw [zipIdx_map, map_map, map_map, map_map]
  rw [← map_zipIdx_fst (fun p : PartitionPlan => (encodeUtf16 p.name).map charOfCode)]
  apply map_congr_left
  intro p hp
  have hname : NameFits p.1.row.name := hfits p.1 (fst_mem_of_mem_zipIdx hp)
  exact decode_row_name hname

/-- The reported names are those of the plan exactly if all characters are of the basic plane. -/
theorem names_planTable_eq_iff :
    (reportOf bytes (planTable plan)).names = plan.names ↔
      ∀ p ∈ plan.partitions, ∀ c ∈ p.name, c.toNat < 0x10000 := by
  rw [names_planTable hkind hfits, LayoutPlan.names, map_inj_left]
  simp only [map_charOfCode_encodeUtf16]

end

/-! ## Writing -/

section
variable {image image' bytes : List UInt8}

theorem length_copyFromSlice {start length : Nat}
    (h : (copyFromSlice image start length bytes : Result DiskError (List UInt8)) = .ok image') :
    image'.length = image.length := by
  unfold copyFromSlice at h
  split at h
  · rename_i hfit
    cases h
    exact length_splice (hfit.2.symm ▸ hfit.1)
  · cases h

theorem length_copySectors
    (h : copySectors image firstLba sectorCount bytes = .ok image') :
    image'.length = image.length := by
  obtain ⟨range, _, h⟩ := bind_eq_ok h
  exact length_copyFromSlice h

theorem length_writeLayout (hkind : plan.kind = .gpt)
    (h : writeLayout image plan = .ok image') : image'.length = image.length := by
  unfold writeLayout at h
  rw [hkind] at h
  obtain ⟨_, _, h⟩ := bind_eq_ok h
  obtain ⟨_, _, h⟩ := bind_eq_ok h
  obtain ⟨image₀, h₀, h⟩ := bind_eq_ok h
  obtain ⟨_, _, h⟩ := bind_eq_ok h
  obtain ⟨_, _, h⟩ := bind_eq_ok h
  obtain ⟨_, _, h⟩ := bind_eq_ok h
  obtain ⟨_, _, h⟩ := bind_eq_ok h
  obtain ⟨image₁, h₁, h⟩ := bind_eq_ok h
  obtain ⟨image₂, h₂, h⟩ := bind_eq_ok h
  obtain ⟨image₃, h₃, h⟩ := bind_eq_ok h
  obtain ⟨image₄, h₄, h⟩ := bind_eq_ok h
  rw [length_copySectors h, length_copySectors h₄, length_copyFromSlice h₃, length_copySectors h₂,
    length_copySectors h₁, length_copyFromSlice h₀]

end

theorem unique_of_inspectable (hkind : plan.kind = .gpt) (hfine : plan.Fine)
    (hlen : image.length = 512 * plan.totalSectors) (hlt : image.length < 2 ^ 64)
    (h : Inspectable (layoutImage image plan)) : ∀ p ∈ plan.partitions, ¬p.uniqueGuid.isZero := by
  have himage := gptImage_layoutImage hfine hlen hkind
  have hge := hfine.total_ge
  have htable := h.table.table
  rw [if_pos himage.protected] at htable
  have hentries := htable.table.entries
  rw [himage.primaryHeader (by omega) (by omega), himage.entryArray_eq] at hentries
  intro p hp
  obtain ⟨i, hi⟩ := getElem?_of_mem hp
  have hrow : (plan.partitions.map PartitionPlan.row)[i]? = some p.row := by
    rw [getElem?_map, hi]
    rfl
  have hcount : i < gptEntryCount :=
    Nat.lt_of_lt_of_le (List.getElem?_eq_some_iff.mp hi).1 (hfine.gpt_count hkind)
  have hfineEntry := hentries i hcount
  simp only [entryAt, gptHeaderOf] at hfineEntry
  rw [slice_gptEntries_used hrow, GptRow.guidAt_type] at hfineEntry
  have hunique := (hfineEntry typeGuid_ne_zero).unique
  rwa [GptRow.guidAt_unique] at hunique

/-! ## Repeated edits -/

def rewriteLayout (source : GuidSource) (image : List UInt8) (counter : Nat) :
    Result DiskError (List UInt8) := do
  let report ← inspectBytes image
  writeLayout image (layoutFromReport source counter report)

def Place.Apart (x y : Place) : Prop :=
  x.firstLba + x.sectorCount ≤ y.firstLba ∨ y.firstLba + y.sectorCount ≤ x.firstLba

theorem PartitionPlan.Fits.of_place {p q : PartitionPlan} (h : p.Fits first last)
    (hplace : p.place = q.place) : q.Fits first last := by
  have hfirst : p.firstLba = q.firstLba := congrArg Place.firstLba hplace
  have hcount : p.sectorCount = q.sectorCount := congrArg Place.sectorCount hplace
  have hstop : p.stop = q.stop := by rw [PartitionPlan.stop, hfirst, hcount, PartitionPlan.stop]
  exact ⟨hstop ▸ h.stop_lt, hcount ▸ h.count_pos, hfirst ▸ h.first_ge, hstop ▸ h.stop_le⟩

theorem LayoutPlan.Fine.of_places {plan plan' : LayoutPlan} (h : plan.Fine)
    (hkind : plan'.kind = plan.kind) (htotal : plan'.totalSectors = plan.totalSectors)
    (hplaces : plan'.partitions.map PartitionPlan.place = plan.partitions.map PartitionPlan.place) :
    plan'.Fine := by
  have hlength : plan'.partitions.length = plan.partitions.length := by
    simpa using congrArg length hplaces
  have hfirst : plan'.firstUsable = plan.firstUsable := by
    rw [LayoutPlan.firstUsable, hkind, LayoutPlan.firstUsable]
  have hlast : plan'.last = plan.last := by
    rw [LayoutPlan.last, hkind, htotal, LayoutPlan.last]
  have hapart : (plan.partitions.map PartitionPlan.place).Pairwise Place.Apart :=
    pairwise_map.mpr h.plans.apart
  rw [← hplaces, pairwise_map] at hapart
  refine ⟨htotal ▸ h.total_ge, ?_, ?_, ?_, hapart⟩
  · rw [hkind, hlength]
    exact h.mbr_count
  · rw [hkind, hlength]
    exact h.gpt_count
  · intro p hp
    obtain ⟨q, hq, hplace⟩ := mem_map.mp (hplaces ▸ mem_map_of_mem hp)
    rw [hfirst, hlast]
    exact (h.plans.fits q hq).of_place hplace

structure LayoutPlan.Kept (plan : LayoutPlan) : Prop where
  gpt : plan.kind = .gpt
  fine : plan.Fine
  unique : ∀ p ∈ plan.partitions, ¬p.uniqueGuid.isZero
  fits : ∀ p ∈ plan.partitions, NameFits p.name
  plane : ∀ p ∈ plan.partitions, ∀ c ∈ p.name, c.toNat < 0x10000

section
variable {source : GuidSource}

variable (h : plan.Kept)
include h

theorem LayoutPlan.Kept.writable : plan.Writable where
  fine := h.fine
  short := fun hmbr => nomatch h.gpt.symm.trans hmbr

theorem LayoutPlan.Kept.inspect (hlen : image.length = 512 * plan.totalSectors)
    (hlt : image.length < 2 ^ 64) : ∃ report, inspectBytes (layoutImage image plan) = .ok report ∧
      report.names = plan.names ∧ report.table = .gpt ∧ report.sectors = plan.totalSectors ∧
      report.partitions.map PartitionReport.place = plan.partitions.map PartitionPlan.place := by
  have hlength := length_layoutImage h.fine hlen
  refine ⟨_, inspectBytes_layoutImage h.writable hlen hlt h.unique, ?_, ?_, ?_, ?_⟩
  · exact (names_planTable_eq_iff h.gpt h.fits _).mpr h.plane
  · exact tableKind_planTable.trans h.gpt
  · exact sectorCount_diskOf (hlength.trans hlen)
  · exact planTable_places h.fine

theorem LayoutPlan.Kept.again {report : DiskReport}
    (hnames : report.names = plan.names) (hgpt : report.table = .gpt)
    (hsectors : report.sectors = plan.totalSectors)
    (hplaces : report.partitions.map PartitionReport.place =
      plan.partitions.map PartitionPlan.place) (counter : Nat) :
    (layoutFromReport source counter report).Kept ∧
      (layoutFromReport source counter report).names = plan.names := by
  have hsame : (layoutFromReport source counter report).names = plan.names := by
    rw [← hnames, LayoutPlan.names, layoutFromReport, map_map]
    exact map_zipIdx_fst PartitionReport.name
  have hname : ∀ p ∈ (layoutFromReport source counter report).partitions,
      ∃ q ∈ plan.partitions, q.name = p.name := by
    intro p hp
    have hmem : p.name ∈ plan.names := hsame ▸ mem_map_of_mem hp
    exact mem_map.mp hmem
  refine ⟨⟨hgpt, ?_, unique_of_generated layoutFromReport_generated, ?_, ?_⟩, hsame⟩
  · exact h.fine.of_places (hgpt.trans h.gpt.symm) hsectors
      (layoutFromReport_places.trans hplaces)
  · intro p hp
    obtain ⟨q, hq, heq⟩ := hname p hp
    exact heq ▸ h.fits q hq
  · intro p hp
    obtain ⟨q, hq, heq⟩ := hname p hp
    exact heq ▸ h.plane q hq

theorem LayoutPlan.Kept.rounds (hlen : image.length = 512 * plan.totalSectors)
    (hlt : image.length < 2 ^ 64) (source : GuidSource) (counters : List Nat) :
    ∃ image' report, counters.foldlM (rewriteLayout source) (layoutImage image plan) = .ok image' ∧
      inspectBytes image' = .ok report ∧ report.names = plan.names := by
  obtain ⟨report, hinspect, hnames, hgpt, hsectors, hplaces⟩ := h.inspect hlen hlt
  induction counters generalizing image plan report with
  | nil => exact ⟨_, report, rfl, hinspect, hnames⟩
  | cons counter counters ih =>
    obtain ⟨hkept, hsame⟩ := h.again hnames hgpt hsectors hplaces counter
    have hlength := length_layoutImage h.fine hlen
    have hlen' : (layoutImage image plan).length =
        512 * (layoutFromReport source counter report).totalSectors := by
      rw [hlength, hlen, ← hsectors]
      rfl
    have hlt' : (layoutImage image plan).length < 2 ^ 64 := hlength ▸ hlt
    have hwrite := (writeLayout_decides hlen' hlt').eq_ok hkept.writable
    obtain ⟨report', hinspect', hnames', hgpt', hsectors', hplaces'⟩ := hkept.inspect hlen' hlt'
    have hround : rewriteLayout source (layoutImage image plan) counter =
        .ok (layoutImage (layoutImage image plan) (layoutFromReport source counter report)) := by
      rw [rewriteLayout, hinspect, bind_ok, hwrite]
    rw [foldlM_cons, hround, ← hsame]
    exact ih hkept hlen' hlt' report' hinspect' hnames' hgpt' hsectors' hplaces'

end

/-- The names of a GPT plan come back from the image, and stay through every number of edits,
exactly if the image is whole sectors, each partition has an identifier of its own and no name
has a character beyond the basic plane. -/
theorem partition_names_kept_iff {image image' : List UInt8} {plan : LayoutPlan}
    (hlt : image.length < 2 ^ 64) (hkind : plan.kind = .gpt)
    (hwrite : writeLayout image plan = .ok image')
    (hfits : ∀ p ∈ plan.partitions, (encodeUtf16 p.name).length ≤ 36 ∧ Char.ofNat 0 ∉ p.name) :
    ((∃ report, inspectBytes image' = .ok report ∧ report.names = plan.names) ∧
      ∀ (source : GuidSource) (counters : List Nat), ∃ image'' report,
        counters.foldlM (rewriteLayout source) image' = .ok image'' ∧
          inspectBytes image'' = .ok report ∧ report.names = plan.names) ↔
    image.length % 512 = 0 ∧
      ∀ p ∈ plan.partitions, ¬p.uniqueGuid.isZero ∧ ∀ c ∈ p.name, c.toNat < 0x10000 := by
  have hfits' : ∀ p ∈ plan.partitions, NameFits p.name :=
    fun p hp => ⟨(hfits p hp).1, (hfits p hp).2⟩
  have hsectors : image.length / 512 = plan.totalSectors := by
    by_contra hne
    unfold writeLayout at hwrite
    rw [ensure_neg hne] at hwrite
    cases hwrite
  constructor
  · rintro ⟨⟨report, hinspect, hnames⟩, -⟩
    obtain ⟨hinspectable, rfl⟩ := inspectBytes_decides.of_eq_ok hinspect
    have haligned : image.length % 512 = 0 := length_writeLayout hkind hwrite ▸ hinspectable.aligned
    have hlen : image.length = 512 * plan.totalSectors := by omega
    obtain ⟨hwritable, rfl⟩ := (writeLayout_decides hlen hlt).of_eq_ok hwrite
    have hunique := unique_of_inspectable hkind hwritable.fine hlen hlt hinspectable
    have hreport := inspectBytes_layoutImage hwritable hlen hlt hunique
    rw [hinspect] at hreport
    have hplane := (names_planTable_eq_iff hkind hfits' (layoutImage image plan)).mp
      (Except.ok.inj hreport ▸ hnames)
    exact ⟨haligned, fun p hp => ⟨hunique p hp, hplane p hp⟩⟩
  · rintro ⟨haligned, hplan⟩
    have hlen : image.length = 512 * plan.totalSectors := by omega
    obtain ⟨hwritable, rfl⟩ := (writeLayout_decides hlen hlt).of_eq_ok hwrite
    have hkept : plan.Kept :=
      { gpt := hkind
        fine := hwritable.fine
        unique := fun p hp => (hplan p hp).1
        fits := hfits'
        plane := fun p hp => (hplan p hp).2 }
    obtain ⟨report, hinspect, hnames, _⟩ := hkept.inspect hlen hlt
    exact ⟨⟨report, hinspect, hnames⟩, hkept.rounds hlen hlt⟩

theorem partition_names_kept_sample : ∃ image' report,
    writeLayout blankImage samplePlan = .ok image' ∧ inspectBytes image' = .ok report ∧
      report.names = [['E', 'S', 'P'], ['r', 'o', 'o', 't']] := by
  have hwrite := (writeLayout_decides length_blankImage length_blankImage_lt).eq_ok
    samplePlan_writable
  have haligned : blankImage.length % 512 = 0 := by
    rw [length_blankImage, Nat.mul_mod_right]
  obtain ⟨report, hinspect, hnames⟩ := ((partition_names_kept_iff length_blankImage_lt rfl hwrite
    (by decide)).mpr ⟨haligned, by simp [samplePlan]; decide⟩).1
  exact ⟨_, report, hwrite, hinspect, hnames⟩

def astralPlan : LayoutPlan :=
  { samplePlan with
    partitions := samplePlan.partitions.map fun p => { p with name := [Char.ofNat 0x1f600] } }

/-- The name comes back as two replacement characters. -/
theorem astral_names_lost : ∃ image' report, blankImage.length % 512 = 0 ∧
    writeLayout blankImage astralPlan = .ok image' ∧
    (∀ p ∈ astralPlan.partitions, ¬p.uniqueGuid.isZero ∧ (encodeUtf16 p.name).length ≤ 36 ∧
      Char.ofNat 0 ∉ p.name) ∧
    inspectBytes image' = .ok report ∧
    report.names = astralPlan.partitions.map fun _ => [Char.ofNat 0xfffd, Char.ofNat 0xfffd] := by
  have hfine : astralPlan.Fine := samplePlan_writable.fine.of_places rfl rfl rfl
  have hwritable : astralPlan.Writable := ⟨hfine, fun hmbr => nomatch hmbr⟩
  have hlen : blankImage.length = 512 * astralPlan.totalSectors := length_blankImage
  have hwrite := (writeLayout_decides hlen length_blankImage_lt).eq_ok hwritable
  have hfits : ∀ p ∈ astralPlan.partitions, ¬p.uniqueGuid.isZero ∧
      (encodeUtf16 p.name).length ≤ 36 ∧ Char.ofNat 0 ∉ p.name := by decide
  have haligned : blankImage.length % 512 = 0 := by
    rw [length_blankImage, Nat.mul_mod_right]
  have hinspect := inspectBytes_layoutImage hwritable hlen length_blankImage_lt
    fun p hp => (hfits p hp).1
  have hnames := names_planTable (show astralPlan.kind = .gpt from rfl)
    (fun p hp => ⟨(hfits p hp).2.1, (hfits p hp).2.2⟩) (layoutImage blankImage astralPlan)
  exact ⟨_, _, haligned, hwrite, hfits, hinspect, hnames.trans (by decide)⟩

end NexOs.Host
