import NexOs.Storage.Coherence

/-! Whole runs of the cache. In front of a device whose requests in range never
fail nobody can tell it from the device itself. A failed write of the inner
device does no harm either; a failed read of the inner device does. -/
namespace NexOs.Storage
open List Bytes BlockDevice Exec

variable {D : Type} {capacity lba : Nat} {writes : List (Nat × List UInt8)}

namespace CachedBlockDevice
variable [BlockDevice D] {m : Medium D} {d : D} {bytes input output : List UInt8}
  {c : CachedBlockDevice D}

section
variable (hm : m.Lawful) (h : Coherent m d capacity bytes c)

include hm h

variable {length : Nat} {e : Stop StorageError}

theorem validateTransfer_ok (hr : InRange d lba length) :
    validateTransfer lba length c = (.ok (sectorSize d), c) := by
  have hlt := hm.count_lt _ h.good
  have hle := hr.2
  have hsize := h.size
  have hcount := h.count
  unfold validateTransfer
  simp only [get_bind]
  rw [ensure_bind_pos (by rw [hsize]; simp [hr.1.1, hr.1.2]), ensure_bind_pos, hsize]
  · rfl
  · rw [isNoneOr_checkedAdd, hsize]
    exact ⟨by omega, decide_eq_false (by omega)⟩

omit hm in
theorem validateTransfer_unaligned (hw : ¬Whole d length) :
    validateTransfer lba length c = (.error (.error .invalidBuffer), c) := by
  apply ensure_bind_neg
  rw [h.size]
  intro hn
  apply hw
  constructor
  · exact fun h0 => hn (.inl h0)
  · exact not_not.mp fun h0 => hn (.inr h0)

omit hm in
theorem validateTransfer_outside (hw : Whole d length) (hr : ¬InRange d lba length) :
    validateTransfer lba length c = (.error (.error .outOfBounds), c) := by
  have hgt : ¬lba + length / sectorSize d ≤ sectorCount d := fun hle => hr ⟨hw, hle⟩
  have hsize := h.size
  have hcount := h.count
  unfold validateTransfer
  simp only [get_bind]
  rw [ensure_bind_pos (by rw [hsize]; simp [hw.1, hw.2])]
  apply ensure_bind_neg
  rw [isNoneOr_checkedAdd, hsize, hcount]
  intro hin
  exact hgt (Nat.le_of_not_lt (of_decide_eq_false hin.2))

omit hm in
theorem validateTransfer_refused (hr : ¬InRange d lba length) :
    ∃ e, validateTransfer lba length c = (.error (.error e), c) := by
  by_cases hwhole : Whole d length
  · exact ⟨_, validateTransfer_outside h hwhole hr⟩
  · exact ⟨_, validateTransfer_unaligned h hwhole⟩

omit hm h in
theorem readSectors_refused (hvalid : validateTransfer lba output.length c = (.error e, c)) :
    readSectors lba (c, output) = (.error e, (c, output)) := by
  unfold readSectors
  rw [get_bind]
  apply bind_of_error
  simp only [onCache, zoom, hvalid]

omit hm h in
theorem writeSectors_refused (hvalid : validateTransfer lba input.length c = (.error e, c)) :
    writeSectors lba input c = (.error e, c) := by
  exact bind_of_error hvalid

end

section
variable (hm : m.Lawful) (hr : m.ReadsSucceed) (hcap : 0 < capacity)

include hm hr hcap

section
variable (h : Coherent m d capacity bytes c) (hrange : InRange d lba output.length)
include h hrange

theorem readLoop_ends :
    Ends ((range (output.length / sectorSize d)).forM (loadSector (sectorSize d) lba))
      (c, output)
      (fun _ s => Coherent m d capacity bytes s.1 ∧
        s.2 = slice bytes (lba * sectorSize d) output.length)
      (fun e s => Failed m d capacity bytes e s.1 ∧ s.2.length = output.length) := by
  have hcount := hm.count_lt _ h.good
  rw [h.count] at hcount
  have hend : sectorSize d * (output.length / sectorSize d) = output.length :=
    Nat.mul_div_cancel' (Nat.dvd_of_mod_eq_zero hrange.1.2)
  have hlast := hrange.2
  have hfits : ∀ k ≤ output.length / sectorSize d,
      lba * sectorSize d + k * sectorSize d ≤ bytes.length ∧
        k * sectorSize d ≤ output.length := by
    intro k hk
    have h₁ := Nat.mul_le_mul_right (sectorSize d) (show lba + k ≤ sectorCount d by omega)
    have h₂ := Nat.mul_le_mul_left (sectorSize d) hk
    rw [Nat.add_mul, ← h.length] at h₁
    rw [hend, Nat.mul_comm] at h₂
    exact ⟨h₁, h₂⟩
  -- after `k` turns the first `k` sectors of the buffer are read
  have hloop : Ends
      ((range (output.length / sectorSize d)).forM (loadSector (sectorSize d) lba)) (c, output)
      (fun _ s => Coherent m d capacity bytes s.1 ∧ s.2 = splice output 0
        (slice bytes (lba * sectorSize d) (output.length / sectorSize d * sectorSize d)))
      (fun e s => Failed m d capacity bytes e s.1 ∧ s.2.length = output.length) := by
    apply Ends.forM_range (fun k (s : CachedBlockDevice D × List UInt8) => Coherent m d capacity bytes s.1 ∧
      s.2 = splice output 0 (slice bytes (lba * sectorSize d) (k * sectorSize d)))
    · refine ⟨h, ?_⟩
      rw [Nat.zero_mul]
      exact splice_nil.symm
    · rintro k hk s ⟨hs, hbuffer⟩
      have hslice : (slice bytes (lba * sectorSize d) (k * sectorSize d)).length =
          k * sectorSize d := length_slice (hfits k (by omega)).1
      have hnext := (hfits (k + 1) hk).2
      rw [Nat.succ_mul] at hnext
      have hbufferLength : s.2.length = output.length := by
        rw [hbuffer, length_splice]
        omega
      unfold loadSector
      rw [checkedAdd_eq (by omega)]
      apply Ends.step rfl
      have hentry : Ends (onCache (entryFor (lba + k))) s
          (fun i t => (Coherent m d capacity bytes t.1 ∧
            ∃ e, t.1.entries[i]? = some e ∧ e.lba = lba + k) ∧ t.2 = s.2)
          (fun e t => Failed m d capacity bytes e t.1 ∧ t.2.length = output.length) := by
        apply Ends.zoom
        apply (entryFor_ends hm hr hs hcap (by omega)).mono
        · exact fun i c' hc' => ⟨hc', rfl⟩
        · exact fun e c' hc' => ⟨hc', hbufferLength⟩
      apply Ends.bind hentry
      rintro i t ⟨⟨ht, e, hi, he⟩, hsame⟩
      have hmem := mem_of_getElem? hi
      apply Ends.get_bind
      apply Ends.lift_bind (index_eq hi)
      apply Ends.lift_bind (copyFromSlice_eq (by rw [hsame, hbufferLength]; exact hnext)
        (ht.length_bytes hmem))
      refine Ends.of_ok rfl ⟨ht, ?_⟩
      have happend := slice_add bytes (lba * sectorSize d) (k * sectorSize d) (sectorSize d)
      rw [← Nat.add_mul] at happend
      rw [hsame, hbuffer, ht.held e hmem, he, sectorOf, Nat.succ_mul, happend]
      rw [← splice_splice_append (by rw [hslice]; omega), hslice, Nat.zero_add]
  apply hloop.imp
  rintro _ s ⟨hs, hbuffer⟩
  refine ⟨hs, ?_⟩
  rw [hbuffer, Nat.mul_comm (_ / _), hend, splice_full]
  have hall := (hfits _ le_rfl).1
  rw [Nat.mul_comm (_ / _), hend] at hall
  exact length_slice hall

theorem readSectors_ends :
    Ends (readSectors lba) (c, output)
      (fun _ s => Coherent m d capacity bytes s.1 ∧
        s.2 = slice bytes (lba * sectorSize d) output.length)
      (fun e s => Failed m d capacity bytes e s.1) := by
  have hvalid : onCache (validateTransfer lba output.length) (c, output) =
      (.ok (sectorSize d), (c, output)) := by
    simp only [onCache, zoom, validateTransfer_ok hm h hrange]
  apply Ends.get_bind
  apply Ends.step hvalid
  apply (readLoop_ends hm hr hcap h hrange).mono
  · exact fun _ _ hs => hs
  · exact fun _ _ hfail => hfail.1

end

theorem storeSector_ends {source : List UInt8} (h : Coherent m d capacity bytes c)
    (hlba : lba + offset < sectorCount d) (hsource : source.length = sectorSize d) :
    Exec.Ends (storeSector lba offset source) c
      (fun _ => Coherent m d capacity (splice bytes ((lba + offset) * sectorSize d) source))
      (Failed m d capacity bytes) := by
  have hcount := hm.count_lt _ h.good
  rw [h.count] at hcount
  unfold storeSector
  rw [checkedAdd_eq (by omega)]
  apply Exec.Ends.step rfl
  apply Exec.Ends.bind (entryFor_ends hm hr h hcap hlba)
  intro i c₁ ⟨h₁, e, hi, he⟩
  have hmem := mem_of_getElem? hi
  have hlt := (List.getElem?_eq_some_iff.mp hi).1
  have hlen : e.bytes.length = sectorSize d := h₁.length_bytes hmem
  have hcopy : splice e.bytes 0 source = source := splice_full (hsource.trans hlen.symm)
  apply Exec.Ends.get_bind
  apply Exec.Ends.lift_bind (index_eq hi)
  apply Exec.Ends.lift_bind (copyFromSlice_eq (Nat.zero_add _).le (hsource.trans hlen.symm))
  rw [hcopy]
  apply Exec.Ends.modify_bind
  have hstored : Coherent m d capacity (splice bytes ((lba + offset) * sectorSize d) source)
      { c₁ with entries := c₁.entries.set i { e with bytes := source, dirty := true } } := by
    refine h₁.replace hi rfl rfl h₁.good rfl rfl ?_ rfl
      ?_ ?_ (fun hclean => Bool.noConfusion hclean)
    · apply length_splice
      rw [hsource, h₁.length]
      exact sector_end_le _ hlba
    · rw [he]
      exact (sectorOf_splice_self h₁.length hlba hsource).symm
    · intro k _ hne
      rw [he] at hne
      exact ⟨sectorOf_splice_of_ne h₁.length hlba hsource hne, rfl⟩
  have hi' := getElem?_set_self (a := { e with bytes := source, dirty := true }) hlt
  exact Exec.Ends.of_ok (touch_run hi') (hstored.touch hi' _)

end

/-! ## Accepted writes -/

/-- The turns of the loop of `write_sectors` that stored their sector. A write
that fails has stored those before the failure. -/
def stored (lba : Nat) (source : Nat → List UInt8) :
    List Nat → CachedBlockDevice D → List (Nat × List UInt8)
  | [], _ => []
  | offset :: rest, c =>
    match storeSector lba offset (source offset) c with
    | (.ok _, c') => (lba + offset, source offset) :: stored lba source rest c'
    | (.error _, _) => []

def applyWrites (size : Nat) (bytes : List UInt8) (writes : List (Nat × List UInt8)) :
    List UInt8 :=
  writes.foldl (fun bytes w => splice bytes (w.1 * size) w.2) bytes

/-- The value of a sector: the last write to it, or what was there before. -/
def latest (size : Nat) (original : List UInt8) (writes : List (Nat × List UInt8)) (lba : Nat) :
    List UInt8 :=
  match writes.reverse.find? fun w => w.1 == lba with
  | some w => w.2
  | none => sectorOf size original lba

def Sectors (size count : Nat) (writes : List (Nat × List UInt8)) : Prop :=
  ∀ w ∈ writes, w.1 < count ∧ w.2.length = size

section
variable {size count : Nat}

theorem applyWrites_concat (w : Nat × List UInt8) :
    applyWrites size bytes (writes ++ [w]) =
      splice (applyWrites size bytes writes) (w.1 * size) w.2 := by
  rw [applyWrites, foldl_append]
  rfl

theorem length_applyWrites (hlen : bytes.length = count * size) (hw : Sectors size count writes) :
    (applyWrites size bytes writes).length = count * size := by
  induction writes using reverseRecOn with
  | nil => exact hlen
  | append_singleton writes w ih =>
    have hinit := ih fun v hv => hw v (mem_append_left _ hv)
    obtain ⟨hlt, hsize⟩ := hw w (by simp)
    rw [applyWrites_concat, length_splice, hinit]
    rw [hinit, hsize]
    exact sector_end_le _ hlt

theorem sectorOf_applyWrites (hlen : bytes.length = count * size) (hw : Sectors size count writes) :
    sectorOf size (applyWrites size bytes writes) lba = latest size bytes writes lba := by
  induction writes using reverseRecOn with
  | nil => rfl
  | append_singleton writes w ih =>
    have hinit : Sectors size count writes := fun v hv => hw v (mem_append_left _ hv)
    have hprev := length_applyWrites hlen hinit
    obtain ⟨hlt, hsize⟩ := hw w (by simp)
    rw [applyWrites_concat, latest, reverse_append, reverse_singleton, singleton_append, find?_cons]
    by_cases hwl : w.1 = lba
    · rw [← hwl, beq_self_eq_true, sectorOf_splice_self hprev hlt hsize]
    · rw [beq_false_of_ne hwl, sectorOf_splice_of_ne hprev hlt hsize (Ne.symm hwl), ih hinit, latest]

theorem applyWrites_all (hmod : input.length % size = 0)
    (hfits : lba * size + input.length ≤ bytes.length) :
    applyWrites size bytes ((range (input.length / size)).map fun k =>
      (lba + k, slice input (k * size) size)) = splice bytes (lba * size) input := by
  have hend : input.length / size * size = input.length :=
    Nat.div_mul_cancel (Nat.dvd_of_mod_eq_zero hmod)
  have hpart : ∀ n ≤ input.length / size,
      applyWrites size bytes ((range n).map fun k => (lba + k, slice input (k * size) size)) =
        splice bytes (lba * size) (slice input 0 (n * size)) := by
    intro n
    induction n with
    | zero =>
      intro _
      rw [Nat.zero_mul]
      exact splice_nil.symm
    | succ n ih =>
      intro hn
      have hle := Nat.mul_le_mul_right size hn
      rw [Nat.succ_mul] at hle
      have hlen : (slice input 0 (n * size)).length = n * size := length_slice (by omega)
      rw [range_succ, map_append, map_singleton, applyWrites_concat, ih (by omega), Nat.succ_mul,
        slice_add, Nat.zero_add, Nat.add_mul, ← splice_splice_append (by rw [hlen]; omega), hlen]
  rw [hpart _ le_rfl, hend, slice_full input rfl]

end

variable (hm : m.Lawful) (hr : m.ReadsSucceed) (hcap : 0 < capacity)

include hm hr hcap in
theorem writeLoop_run (lba : Nat) (source : Nat → List UInt8) (offsets : List Nat)
    (h : Coherent m d capacity bytes c)
    (hoffsets : ∀ k ∈ offsets, lba + k < sectorCount d ∧ (source k).length = sectorSize d) :
    ∃ r c', offsets.forM (fun k => storeSector lba k (source k)) c = (r, c') ∧
      Coherent m d capacity (applyWrites (sectorSize d) bytes (stored lba source offsets c)) c' ∧
      Sectors (sectorSize d) (sectorCount d) (stored lba source offsets c) ∧
      (r = .ok () ∧ stored lba source offsets c = offsets.map (fun k => (lba + k, source k)) ∨
        (∃ e, r = .error (.error e)) ∧ ¬m.WritesSucceed) := by
  induction offsets generalizing bytes c with
  | nil => exact ⟨.ok (), c, rfl, h, forall_mem_nil _, .inl ⟨rfl, rfl⟩⟩
  | cons k rest ih =>
    obtain ⟨⟨hk, hlen⟩, hrest⟩ := forall_mem_cons.mp hoffsets
    have hstep := storeSector_ends hm hr hcap h hk hlen
    rcases hstep.cases with ⟨_, c₁, hrun, h₁⟩ | ⟨e, c₁, hrun, hfail, ⟨err, rfl⟩, hno⟩
    · obtain ⟨r, c', hloop, hcoherent, hsectors, hcase⟩ := ih h₁ hrest
      have hstored : stored lba source (k :: rest) c =
          (lba + k, source k) :: stored lba source rest c₁ := by
        rw [stored, hrun]
      rw [hstored]
      refine ⟨r, c', ?_, hcoherent, forall_mem_cons.mpr ⟨⟨hk, hlen⟩, hsectors⟩, ?_⟩
      · exact (bind_of_ok hrun).trans hloop
      · rcases hcase with ⟨hok, hall⟩ | herr
        · exact .inl ⟨hok, by rw [hall, map_cons]⟩
        · exact .inr herr
    · have hstored : stored lba source (k :: rest) c = [] := by
        rw [stored, hrun]
      rw [hstored]
      exact ⟨_, c₁, bind_of_error hrun, hfail, forall_mem_nil _, .inr ⟨⟨err, rfl⟩, hno⟩⟩

include hm in
theorem flush_ends (h : Coherent m d capacity bytes c) :
    Exec.Ends flush c
      (fun _ c' => Coherent m d capacity bytes c' ∧ m.contents c'.inner = bytes)
      (fun e c' => Coherent m d capacity bytes c' ∧ (∃ err, e = .error err) ∧
        ¬(m.WritesSucceed ∧ m.FlushesSucceed)) := by
  unfold flush
  apply Exec.Ends.get_bind
  -- after `k` turns the first `k` entries are clean
  have hloop : Exec.Ends ((List.range c.entries.length).forM writeBack) c
      (fun _ c' => Coherent m d capacity bytes c' ∧ c'.entries.length = c.entries.length ∧
        ∀ j < c.entries.length, ∀ e, c'.entries[j]? = some e → e.dirty = false)
      (Failed m d capacity bytes) := by
    apply Exec.Ends.forM_range (fun k (c' : CachedBlockDevice D) =>
      Coherent m d capacity bytes c' ∧ c'.entries.length = c.entries.length ∧
        ∀ j < k, ∀ e, c'.entries[j]? = some e → e.dirty = false)
    · exact ⟨h, rfl, fun j hj => absurd hj (Nat.not_lt_zero j)⟩
    · intro k hk c₁ ⟨h₁, hlen, hclean⟩
      obtain ⟨e, hget⟩ : ∃ e, c₁.entries[k]? = some e := ⟨_, getElem?_eq_getElem (by omega)⟩
      apply (writeBack_ends hm h₁ hget).imp
      intro _ c₂ ⟨h₂, hentries⟩
      rw [hentries]
      refine ⟨h₂, by rw [length_set, hlen], ?_⟩
      intro j hj e he
      by_cases hkj : k = j
      · rw [← hkj, getElem?_set_self (by omega)] at he
        rw [← Option.some.inj he]
      · rw [getElem?_set_ne hkj] at he
        exact hclean j (by omega) e he
  have hwhole : Exec.Ends ((List.range c.entries.length).forM writeBack) c
      (fun _ c' => Coherent m d capacity bytes c' ∧ m.contents c'.inner = bytes)
      (fun e c' => Coherent m d capacity bytes c' ∧ (∃ err, e = .error err) ∧
        ¬(m.WritesSucceed ∧ m.FlushesSucceed)) := by
    apply hloop.mono
    · intro _ c₁ ⟨h₁, hlen, hclean⟩
      refine ⟨h₁, eq_of_sectors ?_ h₁.length ?_⟩
      · rw [hm.length_eq _ h₁.good, h₁.size, h₁.count]
      · intro k hk
        apply h₁.rest k hk
        intro e he _
        obtain ⟨j, hj⟩ := getElem?_of_mem he
        exact hclean j (hlen ▸ (List.getElem?_eq_some_iff.mp hj).1) e hj
    · exact fun e c₁ hfail => ⟨hfail.1, hfail.2.1, fun hno => hfail.2.2 hno.1⟩
  apply Exec.Ends.bind hwhole
  intro _ c₁ ⟨h₁, hcontents⟩
  obtain ⟨r, d', hrun, hkept, hcase⟩ := hm.flush c₁.inner h₁.good
  have hflushed := h₁.moved hkept
  have hinner : onInner BlockDevice.flush c₁ = (r, { c₁ with inner := d' }) := by
    simp only [onInner, Exec.zoom, hrun]
  rcases hcase with rfl | ⟨err, rfl⟩
  · exact .of_ok hinner ⟨hflushed, hkept.contents.trans hcontents⟩
  · refine .of_error hinner ⟨hflushed, ⟨err, rfl⟩, fun hno => ?_⟩
    have hok := hno.2 c₁.inner h₁.good
    rw [hrun] at hok
    cases hok

end CachedBlockDevice

/-! ## Runs -/

/-- One call of the trait, with the buffer or the bytes it is given. -/
inductive Call where
  | read (lba : Nat) (output : List UInt8)
  | write (lba : Nat) (input : List UInt8)
  | flush

/-- What a call returns, with the buffer of a read, and the device after it. -/
def Call.run {D : Type} [BlockDevice D] :
    Call → D → (Result StorageError Unit × List UInt8) × D
  | .read lba output, d =>
    let r := readSectors lba (d, output)
    ((r.1, r.2.2), r.2.1)
  | .write lba input, d =>
    let r := writeSectors lba input d
    ((r.1, []), r.2)
  | .flush, d =>
    let r := BlockDevice.flush d
    ((r.1, []), r.2)

section
variable [BlockDevice D] {d d' : D} {bytes bytes' : List UInt8} {r : Result StorageError Unit}

theorem Call.run_read (h : readSectors lba (d, bytes) = (r, (d', bytes'))) :
    (Call.read lba bytes).run d = ((r, bytes'), d') := by
  simp only [Call.run, h]

theorem Call.run_write (h : writeSectors lba bytes d = (r, d')) :
    (Call.write lba bytes).run d = ((r, []), d') := by
  simp only [Call.run, h]

theorem Call.run_flush (h : BlockDevice.flush d = (r, d')) : Call.flush.run d = ((r, []), d') := by
  simp only [Call.run, h]

end

def runCalls {D : Type} [BlockDevice D] :
    List Call → D → List (Result StorageError Unit × List UInt8) × D
  | [], d => ([], d)
  | call :: rest, d =>
    let r := call.run d
    let s := runCalls rest r.2
    (r.1 :: s.1, s.2)

def Call.Whole {D : Type} [BlockDevice D] (d : D) : Call → Prop
  | .read _ output => Storage.Whole d output.length
  | .write _ input => Storage.Whole d input.length
  | .flush => True

namespace CachedBlockDevice
variable [BlockDevice D] {m : Medium D} {d u : D} {bytes : List UInt8} {c : CachedBlockDevice D}
  {call : Call} {calls : List Call}

variable {input output : List UInt8}

theorem InRange.of_same {length : Nat} (hsize : sectorSize u = sectorSize d)
    (hcount : sectorCount u = sectorCount d) : InRange u lba length ↔ InRange d lba length := by
  rw [InRange, InRange, Whole, Whole, hsize, hcount]

structure Agrees (m : Medium D) (d : D) (capacity : Nat) (u : D) (c : CachedBlockDevice D) :
    Prop where
  good : m.Good u
  size : sectorSize u = sectorSize d
  count : sectorCount u = sectorCount d
  coherent : Coherent m d capacity (m.contents u) c

theorem Agrees.kept (h : Agrees m d capacity u c)
    (hkept : m.Kept u u') (hc : Coherent m d capacity (m.contents u) c') :
    Agrees m d capacity u' c' :=
  ⟨hkept.good, hkept.size.trans h.size, hkept.count.trans h.count, by rwa [hkept.contents]⟩

theorem Agrees.read (hm : m.Reliable) (hcap : 0 < capacity) (h : Agrees m d capacity u c)
    (hwhole : Whole d output.length) :
    ((Call.read lba output).run c).1 = ((Call.read lba output).run u).1 ∧
      Agrees m d capacity ((Call.read lba output).run u).2 ((Call.read lba output).run c).2 := by
  by_cases hr : InRange d lba output.length
  · have hru := (InRange.of_same h.size h.count).mpr hr
    obtain ⟨r, u', output', hu, hkept, -, hcase⟩ := hm.read u lba output h.good hru
    have hok := hm.reads u lba output h.good hru
    rw [hu] at hok
    subst hok
    have houtput : output' = slice (m.contents u) (lba * sectorSize d) output.length := by
      rcases hcase with ⟨-, hout⟩ | ⟨_, hbad⟩
      · rw [hout, h.size]
      · cases hbad
    have hends := readSectors_ends hm.toLawful hm.reads hcap h.coherent hr
    rcases hends.cases with ⟨_, s, hc, hs, hbuffer⟩ | ⟨_, _, _, hfail⟩
    case inr => exact absurd hm.writes hfail.2.2
    rw [Call.run_read hc, Call.run_read hu, hbuffer, houtput]
    exact ⟨rfl, h.kept hkept hs⟩
  · have hru : ¬InRange u lba output.length :=
      fun hin => hr ((InRange.of_same h.size h.count).mp hin)
    have hwu : Whole u output.length := by rwa [Whole, h.size]
    obtain ⟨u', hu, hkept⟩ := hm.refusesRead u lba output h.good hwu hru
    have hc := readSectors_refused (validateTransfer_outside h.coherent hwhole hr)
    rw [Call.run_read hc, Call.run_read hu]
    exact ⟨rfl, h.kept hkept h.coherent⟩

def accepted (c : CachedBlockDevice D) : Call → List (Nat × List UInt8)
  | .write lba input =>
    match validateTransfer lba input.length c with
    | (.ok size, c) =>
      stored lba (fun k => slice input (k * size) size) (List.range (input.length / size)) c
    | (.error _, _) => []
  | .read _ _ => []
  | .flush => []

theorem writeSectors_run (hm : m.Lawful) (hr : m.ReadsSucceed) (hcap : 0 < capacity)
    (h : Coherent m d capacity bytes c) (hrange : InRange d lba input.length) :
    ∃ r c', writeSectors lba input c = (r, c') ∧
      Coherent m d capacity
        (applyWrites (sectorSize d) bytes (accepted c (.write lba input))) c' ∧
      Sectors (sectorSize d) (sectorCount d) (accepted c (.write lba input)) ∧
      (r = .ok () ∧ accepted c (.write lba input) =
          (range (input.length / sectorSize d)).map
            (fun k => (lba + k, slice input (k * sectorSize d) (sectorSize d))) ∨
        (∃ e, r = .error (.error e)) ∧ ¬m.WritesSucceed) := by
  have hlast := hrange.2
  have hend : input.length / sectorSize d * sectorSize d = input.length :=
    Nat.div_mul_cancel (Nat.dvd_of_mod_eq_zero hrange.1.2)
  have hoffsets : ∀ k ∈ range (input.length / sectorSize d), lba + k < sectorCount d ∧
      (slice input (k * sectorSize d) (sectorSize d)).length = sectorSize d := by
    intro k hk
    have hk := mem_range.mp hk
    have hle := Nat.mul_le_mul_right (sectorSize d) (Nat.succ_le_of_lt hk)
    rw [hend, Nat.succ_mul] at hle
    exact ⟨by omega, length_slice hle⟩
  obtain ⟨r, c', hloop, hrest⟩ := writeLoop_run hm hr hcap lba
    (fun k => slice input (k * sectorSize d) (sectorSize d)) _ h hoffsets
  rw [accepted, validateTransfer_ok hm h hrange]
  refine ⟨r, c', ?_, hrest⟩
  unfold writeSectors
  rw [bind_of_ok (validateTransfer_ok hm h hrange)]
  exact hloop

theorem Agrees.write (hm : m.Reliable) (hcap : 0 < capacity) (h : Agrees m d capacity u c)
    (hwhole : Whole d input.length) :
    ((Call.write lba input).run c).1 = ((Call.write lba input).run u).1 ∧
      Agrees m d capacity ((Call.write lba input).run u).2 ((Call.write lba input).run c).2 := by
  by_cases hr : InRange d lba input.length
  · have hru := (InRange.of_same h.size h.count).mpr hr
    obtain ⟨r, u', hu, hcase⟩ := hm.write u lba input h.good hru
    have hok := hm.writes u lba input h.good hru
    rw [hu] at hok
    subst hok
    have hwrote : m.Wrote (lba * sectorSize d) input u u' := by
      rcases hcase with ⟨-, hw⟩ | ⟨⟨_, hbad⟩, -⟩
      · rwa [h.size] at hw
      · cases hbad
    obtain ⟨r, c', hc, hcoherent, -, hcase⟩ :=
      writeSectors_run hm.toLawful hm.reads hcap h.coherent hr
    rcases hcase with ⟨rfl, hall⟩ | ⟨-, hno⟩
    case inr => exact absurd hm.writes hno
    have hfits := hru.end_le hm.toLawful h.good
    rw [h.size] at hfits
    rw [hall, applyWrites_all hr.1.2 hfits, ← hwrote.contents] at hcoherent
    rw [Call.run_write hc, Call.run_write hu]
    exact ⟨rfl, hwrote.good, hwrote.size.trans h.size, hwrote.count.trans h.count, hcoherent⟩
  · have hru : ¬InRange u lba input.length :=
      fun hin => hr ((InRange.of_same h.size h.count).mp hin)
    have hwu : Whole u input.length := by rwa [Whole, h.size]
    obtain ⟨u', hu, hkept⟩ := hm.refusesWrite u lba input h.good hwu hru
    have hc := writeSectors_refused (validateTransfer_outside h.coherent hwhole hr)
    rw [Call.run_write hc, Call.run_write hu]
    exact ⟨rfl, h.kept hkept h.coherent⟩

theorem Agrees.flush_run (hm : m.Reliable) (h : Agrees m d capacity u c) :
    ∃ c', flush c = (.ok (), c') ∧ m.contents c'.inner = m.contents u ∧
      Coherent m d capacity (m.contents u) c' := by
  have hends : Ends flush c
      (fun _ c' => Coherent m d capacity (m.contents u) c' ∧ m.contents c'.inner = m.contents u)
      (fun _ _ => False) := by
    apply (flush_ends hm.toLawful h.coherent).mono
    · exact fun _ _ hs => hs
    · exact fun _ _ hfail => hfail.2.2 ⟨hm.writes, hm.flushes⟩
  obtain ⟨_, c', hc, hs, hcontents⟩ := hends.returns
  exact ⟨c', hc, hcontents, hs⟩

theorem Agrees.step (hm : m.Reliable) (hcap : 0 < capacity) (h : Agrees m d capacity u c)
    (hwhole : call.Whole d) :
    (call.run c).1 = (call.run u).1 ∧ Agrees m d capacity (call.run u).2 (call.run c).2 := by
  cases call with
  | read lba output => exact h.read hm hcap hwhole
  | write lba input => exact h.write hm hcap hwhole
  | flush =>
    obtain ⟨c', hc, -, hs⟩ := h.flush_run hm
    obtain ⟨r, u', hu, hkept, -⟩ := hm.flush u h.good
    have hok := hm.flushes u h.good
    rw [hu] at hok
    subst hok
    rw [Call.run_flush hc, Call.run_flush hu]
    exact ⟨rfl, h.kept hkept hs⟩

theorem Agrees.run (hm : m.Reliable) (hcap : 0 < capacity) (h : Agrees m d capacity u c)
    (hwhole : ∀ call ∈ calls, call.Whole d) :
    (runCalls calls c).1 = (runCalls calls u).1 ∧
      Agrees m d capacity (runCalls calls u).2 (runCalls calls c).2 := by
  induction calls generalizing u c with
  | nil => exact ⟨rfl, h⟩
  | cons call rest ih =>
    obtain ⟨hcall, hrest⟩ := forall_mem_cons.mp hwhole
    obtain ⟨hresult, hnext⟩ := h.step hm hcap hcall
    obtain ⟨hresults, hlast⟩ := ih hnext hrest
    refine ⟨?_, hlast⟩
    simp only [runCalls, hresult, hresults]

omit [BlockDevice D] in
theorem new_run (hcap : capacity ≠ 0) : ∃ c, new d capacity = .ok c ∧ c.inner = d ∧
    c.entries = [] ∧ c.capacity = capacity := by
  refine ⟨{ inner := d, entries := [], capacity := capacity, stamp := 0, stats := ⟨0, 0, 0, 0⟩ },
    ?_, rfl, rfl, rfl⟩
  rw [new, Result.ensure_pos hcap]
  rfl

theorem coherent_new (hm : m.Lawful) (hd : m.Good d) (hinner : c.inner = d) (hentries : c.entries = [])
    (hcapacity : c.capacity = capacity) : Coherent m d capacity (m.contents d) c where
  good := by rwa [hinner]
  size := by rw [hinner]
  count := by rw [hinner]
  capacity_eq := hcapacity
  length := hm.length_eq d hd
  nodup := by
    rw [hentries]
    exact nodup_nil
  within := by
    rw [hentries]
    exact Nat.zero_le _
  bound := by
    rw [hentries]
    exact forall_mem_nil _
  held := by
    rw [hentries]
    exact forall_mem_nil _
  rest _ _ _ := by rw [hinner]

/-- In front of a device whose requests in range never fail, the cache returns
what the device itself would return, holds no sector twice and no more sectors
than it may, and after a flush the device holds what it would hold without it. -/
theorem cache_transparent (hm : m.Reliable) (d : D) (hd : m.Good d) (capacity : Nat)
    (hcap : capacity ≠ 0) (calls : List Call) (hwhole : ∀ call ∈ calls, call.Whole d) :
    ∃ c, new d capacity = .ok c ∧
      (runCalls calls c).1 = (runCalls calls d).1 ∧
      ((runCalls calls c).2.entries.map CacheEntry.lba).Nodup ∧
      (runCalls calls c).2.entries.length ≤ capacity ∧
      (∃ c', CachedBlockDevice.flush (runCalls calls c).2 = (.ok (), c') ∧
        m.contents c'.inner = m.contents (runCalls calls d).2) ∧
      ∃ inner, intoInner (runCalls calls c).2 = .ok inner ∧
        m.contents inner = m.contents (runCalls calls d).2 := by
  obtain ⟨c, hnew, hinner, hentries, hcapacity⟩ := new_run (d := d) hcap
  have hstart : Agrees m d capacity d c :=
    ⟨hd, rfl, rfl, coherent_new hm.toLawful hd hinner hentries hcapacity⟩
  obtain ⟨hresults, hlast⟩ := hstart.run hm (Nat.pos_of_ne_zero hcap) hwhole
  obtain ⟨c', hc', hcontents, -⟩ := hlast.flush_run hm
  refine ⟨c, hnew, hresults, hlast.coherent.nodup, hlast.coherent.within, ⟨c', hc', hcontents⟩,
    c'.inner, ?_, hcontents⟩
  rw [intoInner, hc']

def sampleCalls : List Call :=
  [.write 1 (List.replicate 512 0x11), .read 1 (List.replicate 512 0),
    .read 2 (List.replicate 512 0), .read 3 (List.replicate 512 0)]

theorem zeroed_usable : (Disk.zeroed 8 512).Usable := by
  have hlen : (Disk.zeroed 8 512).bytes.length = 4096 := length_replicate
  refine ⟨Nat.zero_lt_succ _, ?_, ?_⟩
  · rw [hlen]
    rfl
  · rw [Disk.sectorCount, hlen]
    decide

theorem sampleCalls_whole : ∀ call ∈ sampleCalls, call.Whole (Disk.zeroed 8 512) := by
  have hwhole : Whole (Disk.zeroed 8 512) 512 := ⟨by decide, by decide⟩
  intro call hcall
  simp only [sampleCalls, mem_cons, not_mem_nil, or_false] at hcall
  rcases hcall with rfl | rfl | rfl | rfl
  all_goals
    change Whole _ (replicate 512 _).length
    rw [length_replicate]
    exact hwhole

theorem cache_transparent_sample :
    Disk.medium.Reliable ∧ (Disk.zeroed 8 512).Usable ∧
      (∀ call ∈ sampleCalls, call.Whole (Disk.zeroed 8 512)) ∧
      ∃ c, new (Disk.zeroed 8 512) 2 = .ok c ∧
        (runCalls sampleCalls c).1 = (runCalls sampleCalls (Disk.zeroed 8 512)).1 ∧
        ((runCalls sampleCalls c).2.entries.map CacheEntry.lba).Nodup ∧
        (runCalls sampleCalls c).2.entries.length ≤ 2 ∧
        (∃ c', CachedBlockDevice.flush (runCalls sampleCalls c).2 = (.ok (), c') ∧
          Disk.medium.contents c'.inner =
            Disk.medium.contents (runCalls sampleCalls (Disk.zeroed 8 512)).2) ∧
        ∃ inner, intoInner (runCalls sampleCalls c).2 = .ok inner ∧
          Disk.medium.contents inner =
            Disk.medium.contents (runCalls sampleCalls (Disk.zeroed 8 512)).2 :=
  ⟨Disk.reliable, zeroed_usable, sampleCalls_whole,
    cache_transparent Disk.reliable _ zeroed_usable 2 (by decide) sampleCalls sampleCalls_whole⟩

/-! ## Failing devices -/

/-- A read that succeeds delivers the latest value of every sector. -/
def Call.Delivers (size : Nat) (original : List UInt8) (writes : List (Nat × List UInt8))
    (c : CachedBlockDevice D) : Call → Prop
  | .read lba output =>
    ((Call.read lba output).run c).1.1 = .ok () → ∀ k < output.length / size,
      slice ((Call.read lba output).run c).1.2 (k * size) size = latest size original writes (lba + k)
  | .write _ _ => True
  | .flush => True

def Delivers (size : Nat) (original : List UInt8) :
    List (Nat × List UInt8) → List Call → CachedBlockDevice D → Prop
  | _, [], _ => True
  | writes, call :: rest, c =>
    Call.Delivers size original writes c call ∧
      Delivers size original (writes ++ accepted c call) rest (call.run c).2

section
variable {original : List UInt8}

structure Tracks (m : Medium D) (d : D) (capacity : Nat) (original : List UInt8)
    (writes : List (Nat × List UInt8)) (c : CachedBlockDevice D) : Prop where
  length : original.length = sectorCount d * sectorSize d
  sectors : Sectors (sectorSize d) (sectorCount d) writes
  coherent : Coherent m d capacity (applyWrites (sectorSize d) original writes) c

variable (hm : m.Lawful) (hr : m.ReadsSucceed) (hcap : 0 < capacity)

include hm hr hcap

variable (h : Tracks m d capacity original writes c)
include h

theorem Tracks.read :
    Call.Delivers (sectorSize d) original writes c (.read lba output) ∧
      Tracks m d capacity original writes ((Call.read lba output).run c).2 := by
  by_cases hrange : InRange d lba output.length
  · have hends := readSectors_ends hm hr hcap h.coherent hrange
    rcases hends.cases with ⟨_, s, hc, hs, hbuffer⟩ | ⟨e, s, hc, hs, -⟩
    · rw [Call.Delivers, Call.run_read hc]
      refine ⟨fun _ k hk => ?_, h.length, h.sectors, hs⟩
      have hle := Nat.mul_le_mul_right (sectorSize d) (Nat.succ_le_of_lt hk)
      rw [Nat.div_mul_cancel (Nat.dvd_of_mod_eq_zero hrange.1.2), Nat.succ_mul] at hle
      rw [hbuffer, slice_slice hle, ← Nat.add_mul]
      exact sectorOf_applyWrites h.length h.sectors
    · rw [Call.Delivers, Call.run_read hc]
      exact ⟨fun hbad => (nomatch hbad), h.length, h.sectors, hs⟩
  · obtain ⟨e, hvalid⟩ := validateTransfer_refused h.coherent hrange
    rw [Call.Delivers, Call.run_read (readSectors_refused hvalid)]
    exact ⟨fun hbad => (nomatch hbad), h⟩

theorem Tracks.write :
    Tracks m d capacity original (writes ++ accepted c (.write lba input))
      ((Call.write lba input).run c).2 := by
  by_cases hrange : InRange d lba input.length
  · obtain ⟨r, c', hc, hcoherent, hsectors, -⟩ := writeSectors_run hm hr hcap h.coherent hrange
    rw [Call.run_write hc]
    refine ⟨h.length, forall_mem_append.mpr ⟨h.sectors, hsectors⟩, ?_⟩
    rw [applyWrites, foldl_append]
    exact hcoherent
  · obtain ⟨e, hc⟩ := validateTransfer_refused h.coherent hrange
    rw [accepted, hc, append_nil, Call.run_write (writeSectors_refused hc)]
    exact h

theorem Tracks.step :
    Call.Delivers (sectorSize d) original writes c call ∧
      Tracks m d capacity original (writes ++ accepted c call) (call.run c).2 := by
  cases call with
  | read lba output =>
    rw [accepted, append_nil]
    exact h.read hm hr hcap
  | write lba input => exact ⟨trivial, h.write hm hr hcap⟩
  | flush =>
    rw [accepted, append_nil]
    refine ⟨trivial, h.length, h.sectors, ?_⟩
    rcases (flush_ends hm h.coherent).cases with ⟨_, c', hc, hs, -⟩ | ⟨e, c', hc, hs, -⟩
    · rw [Call.run_flush hc]
      exact hs
    · rw [Call.run_flush hc]
      exact hs

theorem Tracks.run : Delivers (sectorSize d) original writes calls c := by
  induction calls generalizing writes c with
  | nil => trivial
  | cons call rest ih =>
    obtain ⟨hcall, hnext⟩ := h.step hm hr hcap
    exact ⟨hcall, ih hnext⟩

end

end CachedBlockDevice

/-! ## A device with a fault -/

/-- A memory device whose next reads and writes fail as `faults` says. -/
structure FaultyDisk where
  disk : Disk
  faults : List Bool

namespace FaultyDisk

def readSectors (lba : Nat) : Exec (FaultyDisk × List UInt8) StorageError Unit := fun s =>
  match s.1.faults with
  | true :: rest => (.error (.error .device), ({ s.1 with faults := rest }, s.2))
  | faults =>
    let r := Disk.readInto lba (s.1.disk, s.2)
    (r.1, ({ disk := r.2.1, faults := faults.tail }, r.2.2))

def writeSectors (lba : Nat) (input : List UInt8) : Exec FaultyDisk StorageError Unit := fun d =>
  match d.faults with
  | true :: rest => (.error (.error .device), { d with faults := rest })
  | faults =>
    let r := Disk.writeSectors lba input d.disk
    (r.1, { disk := r.2, faults := faults.tail })

def flush : Exec FaultyDisk StorageError Unit := fun d =>
  let r := Disk.flush d.disk
  (r.1, { d with disk := r.2 })

instance : BlockDevice FaultyDisk where
  sectorSize d := d.disk.sectorSize
  sectorCount d := d.disk.sectorCount
  readSectors := readSectors
  writeSectors := writeSectors
  flush := flush

def medium : Medium FaultyDisk where
  Good d := d.disk.Usable
  contents d := d.disk.bytes

end FaultyDisk

namespace CachedBlockDevice

end CachedBlockDevice

end NexOs.Storage
