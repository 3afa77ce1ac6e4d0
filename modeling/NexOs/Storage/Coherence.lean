import NexOs.Storage.Cache

/-! What the cache stands for: one list of sectors, those it holds and, for the
rest, those of the inner device. Every step of the cache keeps that list or
changes the one sector that is written. -/
namespace NexOs.Storage
open List Bytes BlockDevice Exec

def sectorOf (size : Nat) (bytes : List UInt8) (lba : Nat) : List UInt8 :=
  slice bytes (lba * size) size

section
variable {size count lba k : Nat} {bytes bytes' source : List UInt8}

theorem sector_end_le (size : Nat) (h : lba < count) : lba * size + size ≤ count * size := by
  have := Nat.mul_le_mul_right size (Nat.succ_le_of_lt h)
  rwa [Nat.succ_mul] at this

variable (hlen : bytes.length = count * size)
include hlen

theorem length_sectorOf (h : lba < count) : (sectorOf size bytes lba).length = size :=
  length_slice (by rw [hlen]; exact sector_end_le size h)

theorem sectorOf_splice_self (h : lba < count) (hs : source.length = size) :
    sectorOf size (splice bytes (lba * size) source) lba = source := by
  have hend := sector_end_le size h
  have hself : slice (splice bytes (lba * size) source) (lba * size) source.length = source :=
    slice_splice_self (by omega)
  rwa [hs] at hself

theorem sectorOf_splice_of_ne (h : lba < count) (hs : source.length = size) (hne : k ≠ lba) :
    sectorOf size (splice bytes (lba * size) source) k = sectorOf size bytes k := by
  have hend := sector_end_le size h
  apply slice_splice_of_disjoint (by omega)
  rw [hs]
  rcases Nat.lt_or_gt_of_ne hne with hlt | hgt
  · exact .inl (sector_end_le size hlt)
  · exact .inr (sector_end_le size hgt)

theorem eq_of_sectors (hlen' : bytes'.length = count * size)
    (h : ∀ lba < count, sectorOf size bytes lba = sectorOf size bytes' lba) : bytes = bytes' := by
  apply ext_getElem?
  intro i
  by_cases hi : i < count * size
  · have hpos : 0 < size := Nat.pos_of_ne_zero fun h0 => by simp [h0] at hi
    have hmod : i % size < size := Nat.mod_lt _ hpos
    have hdiv : i / size < count := Nat.div_lt_of_lt_mul (by rwa [Nat.mul_comm])
    have hsplit : i / size * size + i % size = i := by
      rw [Nat.mul_comm]
      exact Nat.div_add_mod i size
    have hget := congrArg (fun xs => xs[i % size]?) (h _ hdiv)
    simpa only [sectorOf, getElem?_slice, if_pos hmod, hsplit] using hget
  · rw [getElem?_eq_none (by omega), getElem?_eq_none (by omega)]

end

namespace CachedBlockDevice
variable {D : Type} [BlockDevice D]

/-- The cache `c`, in front of a device shaped like `d`, stands for `bytes`. -/
structure Coherent (m : Medium D) (d : D) (capacity : Nat) (bytes : List UInt8)
    (c : CachedBlockDevice D) : Prop where
  good : m.Good c.inner
  size : sectorSize c.inner = sectorSize d
  count : sectorCount c.inner = sectorCount d
  capacity_eq : c.capacity = capacity
  length : bytes.length = sectorCount d * sectorSize d
  nodup : (c.entries.map CacheEntry.lba).Nodup
  within : c.entries.length ≤ capacity
  bound : ∀ e ∈ c.entries, e.lba < sectorCount d
  held : ∀ e ∈ c.entries, e.bytes = sectorOf (sectorSize d) bytes e.lba
  rest : ∀ lba < sectorCount d, (∀ e ∈ c.entries, e.lba = lba → e.dirty = false) →
    sectorOf (sectorSize d) (m.contents c.inner) lba = sectorOf (sectorSize d) bytes lba

variable {m : Medium D} {d d' : D} {capacity : Nat} {bytes bytes' : List UInt8}
  {c c' : CachedBlockDevice D} {i lba : Nat} {e e' : CacheEntry}

section
variable (h : Coherent m d capacity bytes c)
include h

variable {f : CacheEntry}

theorem Coherent.index_unique (hi : c.entries[i]? = some e) (hj : c.entries[j]? = some f)
    (hlba : f.lba = e.lba) : i = j := by
  have hlt : i < (c.entries.map CacheEntry.lba).length := by
    rw [length_map]
    exact (List.getElem?_eq_some_iff.mp hi).1
  apply (getElem?_inj hlt h.nodup).mp
  rw [getElem?_map, getElem?_map, hi, hj, Option.map_some, Option.map_some, hlba]

theorem Coherent.unique (hi : c.entries[i]? = some e) (hf : f ∈ c.entries) (hlba : f.lba = e.lba) :
    f = e := by
  obtain ⟨j, hj⟩ := getElem?_of_mem hf
  rw [← h.index_unique hi hj hlba, hi] at hj
  exact (Option.some.inj hj).symm

theorem Coherent.moved (hkept : m.Kept c.inner d') :
    Coherent m d capacity bytes { c with inner := d' } :=
  { h with
    good := hkept.good
    size := hkept.size.trans h.size
    count := hkept.count.trans h.count
    rest := by
      change ∀ lba < sectorCount d, _ → sectorOf _ (m.contents d') lba = _
      rw [hkept.contents]
      exact h.rest }

theorem Coherent.mem_set (hi : c.entries[i]? = some e) :
    f ∈ c.entries.set i e' ↔ f = e' ∨ f ∈ c.entries ∧ f.lba ≠ e.lba := by
  have hlt : i < c.entries.length := (List.getElem?_eq_some_iff.mp hi).1
  constructor
  · intro hf
    obtain ⟨j, hj⟩ := getElem?_of_mem hf
    by_cases hji : i = j
    · rw [← hji, getElem?_set_self hlt] at hj
      exact .inl (Option.some.inj hj).symm
    · rw [getElem?_set_ne hji] at hj
      exact .inr ⟨mem_of_getElem? hj, fun hlba => hji (h.index_unique hi hj hlba)⟩
  · intro hf
    rcases hf with rfl | ⟨hf, hne⟩
    · exact mem_of_getElem? (getElem?_set_self hlt)
    · obtain ⟨j, hj⟩ := getElem?_of_mem hf
      apply mem_of_getElem? (i := j)
      rw [getElem?_set_ne, hj]
      intro hij
      rw [← hij, hi] at hj
      exact hne (congrArg CacheEntry.lba (Option.some.inj hj).symm)

theorem Coherent.replace (hi : c.entries[i]? = some e) (hentries : c'.entries = c.entries.set i e')
    (hcapacity : c'.capacity = c.capacity) (hgood : m.Good c'.inner)
    (hsize : sectorSize c'.inner = sectorSize c.inner)
    (hcount : sectorCount c'.inner = sectorCount c.inner) (hlen : bytes'.length = bytes.length)
    (hlba : e'.lba = e.lba) (hbytes : e'.bytes = sectorOf (sectorSize d) bytes' e.lba)
    (hother : ∀ k < sectorCount d, k ≠ e.lba →
      sectorOf (sectorSize d) bytes' k = sectorOf (sectorSize d) bytes k ∧
      sectorOf (sectorSize d) (m.contents c'.inner) k =
        sectorOf (sectorSize d) (m.contents c.inner) k)
    (hclean : e'.dirty = false → sectorOf (sectorSize d) (m.contents c'.inner) e.lba =
      sectorOf (sectorSize d) bytes' e.lba) : Coherent m d capacity bytes' c' where
  good := hgood
  size := hsize.trans h.size
  count := hcount.trans h.count
  capacity_eq := hcapacity.trans h.capacity_eq
  length := hlen.trans h.length
  nodup := by
    have hsame : (c.entries.set i e').map CacheEntry.lba = c.entries.map CacheEntry.lba := by
      apply ext_getElem?
      intro j
      rw [map_set, getElem?_set]
      by_cases hij : i = j
      · rw [← hij, if_pos rfl, getElem?_map, hi, hlba, Option.map_some, if_pos]
        rw [length_map]
        exact (List.getElem?_eq_some_iff.mp hi).1
      · rw [if_neg hij]
    rw [hentries, hsame]
    exact h.nodup
  within := by
    rw [hentries, length_set]
    exact h.within
  bound f hf := by
    rw [hentries, h.mem_set hi] at hf
    rcases hf with rfl | ⟨hf, -⟩
    · rw [hlba]
      exact h.bound e (mem_of_getElem? hi)
    · exact h.bound f hf
  held f hf := by
    rw [hentries, h.mem_set hi] at hf
    rcases hf with rfl | ⟨hf, hne⟩
    · rw [hbytes, hlba]
    · rw [h.held f hf, (hother f.lba (h.bound f hf) hne).1]
  rest k hk hdirty := by
    have hdirty : ∀ f, f = e' ∨ f ∈ c.entries ∧ f.lba ≠ e.lba → f.lba = k → f.dirty = false :=
      fun f hf => hdirty f (by rw [hentries, h.mem_set hi]; exact hf)
    by_cases hke : k = e.lba
    · rw [hke]
      exact hclean (hdirty e' (.inl rfl) (by rw [hlba, hke]))
    · rw [(hother k hk hke).1, (hother k hk hke).2]
      apply h.rest k hk
      intro f hf hfk
      exact hdirty f (.inr ⟨hf, fun hfe => hke (hfk.symm.trans hfe)⟩) hfk

/-- A sector comes in: the entries are old ones and the new one, and no change is dropped. -/
theorem Coherent.filled (hlba : lba < sectorCount d) (hcapacity : c'.capacity = c.capacity)
    (hkept : m.Kept c.inner c'.inner) (he : e'.lba = lba)
    (hbytes : e'.bytes = sectorOf (sectorSize d) bytes lba)
    (hnodup : (c'.entries.map CacheEntry.lba).Nodup) (hwithin : c'.entries.length ≤ capacity)
    (hmem : ∀ f ∈ c'.entries, f = e' ∨ f ∈ c.entries)
    (hleft : ∀ f ∈ c.entries, f ∈ c'.entries ∨ f.dirty = false) :
    Coherent m d capacity bytes c' where
  good := hkept.good
  size := hkept.size.trans h.size
  count := hkept.count.trans h.count
  capacity_eq := hcapacity.trans h.capacity_eq
  length := h.length
  nodup := hnodup
  within := hwithin
  bound f hf := by
    rcases hmem f hf with rfl | hf
    · rwa [he]
    · exact h.bound f hf
  held f hf := by
    rcases hmem f hf with rfl | hf
    · rw [hbytes, he]
    · exact h.held f hf
  rest k hk hclean := by
    rw [hkept.contents]
    apply h.rest k hk
    intro f hf hfk
    rcases hleft f hf with hf | hdirty
    · exact hclean f hf hfk
    · exact hdirty

theorem Coherent.reuse (hi : c.entries[i]? = some e) (hdirty : e.dirty = false)
    (hnew : ∀ f ∈ c.entries, f.lba ≠ lba) (hlba : lba < sectorCount d)
    (hentries : c'.entries = c.entries.set i e') (hcapacity : c'.capacity = c.capacity)
    (hkept : m.Kept c.inner c'.inner) (he : e'.lba = lba)
    (hbytes : e'.bytes = sectorOf (sectorSize d) bytes lba) : Coherent m d capacity bytes c' := by
  apply h.filled hlba hcapacity hkept he hbytes
  · rw [hentries, map_set, he]
    apply h.nodup.set
    rw [mem_map]
    rintro ⟨f, hf, hfl⟩
    exact hnew f hf hfl
  · rw [hentries, length_set]
    exact h.within
  · intro f hf
    rw [hentries, h.mem_set hi] at hf
    exact hf.imp_right And.left
  · intro f hf
    rw [hentries, h.mem_set hi]
    by_cases hfe : f.lba = e.lba
    · rw [h.unique hi hf hfe]
      exact .inr hdirty
    · exact .inl (.inr ⟨hf, hfe⟩)

theorem Coherent.push (hroom : c.entries.length < capacity) (hnew : ∀ f ∈ c.entries, f.lba ≠ lba)
    (hlba : lba < sectorCount d) (hentries : c'.entries = c.entries ++ [e'])
    (hcapacity : c'.capacity = c.capacity) (hkept : m.Kept c.inner c'.inner) (he : e'.lba = lba)
    (hbytes : e'.bytes = sectorOf (sectorSize d) bytes lba) : Coherent m d capacity bytes c' := by
  have hmem : ∀ f, f ∈ c'.entries ↔ f ∈ c.entries ∨ f = e' := by simp [hentries]
  apply h.filled hlba hcapacity hkept he hbytes
  · rw [hentries, map_append, map_singleton, he, nodup_append]
    refine ⟨h.nodup, nodup_singleton _, ?_⟩
    intro a ha b hb
    rw [mem_map] at ha
    obtain ⟨f, hf, rfl⟩ := ha
    rw [mem_singleton.mp hb]
    exact hnew f hf
  · rw [hentries, length_append]
    exact hroom
  · exact fun f hf => ((hmem f).mp hf).symm
  · exact fun f hf => .inl ((hmem f).mpr (.inl hf))

/-! ## Steps -/

/-- An error that only a failed write of the inner device can cause. -/
def Failed (m : Medium D) (d : D) (capacity : Nat) (bytes : List UInt8) (e : Stop StorageError)
    (c : CachedBlockDevice D) : Prop :=
  Coherent m d capacity bytes c ∧ (∃ err, e = .error err) ∧ ¬m.WritesSucceed

theorem Coherent.stats (stamp : Nat) (stats : CacheStats) :
    Coherent m d capacity bytes { c with stamp := stamp, stats := stats } :=
  { h with }

theorem Coherent.length_bytes (he : e ∈ c.entries) : e.bytes.length = sectorSize d := by
  rw [h.held e he]
  exact length_sectorOf h.length (h.bound e he)

theorem Coherent.inRange (hm : m.Lawful) (hlba : lba < sectorCount d) :
    InRange c.inner lba (sectorSize d) := by
  have hpos := hm.size_pos _ h.good
  rw [h.size] at hpos
  refine ⟨⟨by omega, by rw [h.size, Nat.mod_self]⟩, ?_⟩
  rw [h.size, h.count, Nat.div_self hpos]
  exact hlba

end

omit [BlockDevice D] in
theorem touch_run (hi : c.entries[i]? = some e) :
    touch i c = (.ok (), { c with
      stamp := (c.stamp + 1) % u64Limit
      entries := c.entries.set i { e with stamp := (c.stamp + 1) % u64Limit } }) := by
  unfold touch
  rw [modify_bind, get_bind, index_eq hi]
  rfl

theorem Coherent.touch (h : Coherent m d capacity bytes c) (hi : c.entries[i]? = some e)
    (stamp : Nat) : Coherent m d capacity bytes
      { c with stamp := stamp, entries := c.entries.set i { e with stamp := stamp } } := by
  have hmem := mem_of_getElem? hi
  refine h.replace hi rfl rfl h.good rfl rfl rfl rfl (h.held e hmem)
    (fun _ _ _ => ⟨rfl, rfl⟩) ?_
  intro hclean
  apply h.rest e.lba (h.bound e hmem)
  intro f hf hfe
  rw [h.unique hi hf hfe]
  exact hclean

theorem writeBack_ends (hm : m.Lawful) (h : Coherent m d capacity bytes c)
    (hi : c.entries[i]? = some e) :
    Ends (writeBack i) c
      (fun _ c' => Coherent m d capacity bytes c' ∧
        c'.entries = c.entries.set i { e with dirty := false })
      (Failed m d capacity bytes) := by
  have hmem := mem_of_getElem? hi
  have hlba := h.bound e hmem
  apply Ends.get_bind
  apply Ends.lift_bind (index_eq hi)
  cases hdirty : e.dirty with
  | false =>
    apply Ends.pure
    refine ⟨h, ?_⟩
    have hsame : { e with dirty := false } = e := by
      rw [← hdirty]
    rw [hsame]
    apply ext_getElem?
    intro j
    rw [getElem?_set]
    by_cases hij : i = j
    · rw [if_pos hij, if_pos (List.getElem?_eq_some_iff.mp hi).1, ← hij, hi]
    · rw [if_neg hij]
  | true =>
    have hrange : InRange c.inner e.lba e.bytes.length := by
      rw [h.length_bytes hmem]
      exact h.inRange hm hlba
    have hlen : (m.contents c.inner).length = sectorCount d * sectorSize d := by
      rw [hm.length_eq _ h.good, h.size, h.count]
    obtain ⟨r, d', hrun, hcase⟩ := hm.write c.inner e.lba e.bytes h.good hrange
    rcases hcase with ⟨rfl, hw⟩ | ⟨⟨err, rfl⟩, hk⟩
    · have hinner : onInner (BlockDevice.writeSectors e.lba e.bytes) c =
          (.ok (), { c with inner := d' }) := by
        simp only [onInner, Exec.zoom, hrun]
      have hcontents := hw.contents
      rw [h.size] at hcontents
      apply Ends.step hinner
      refine Ends.of_ok rfl ⟨?_, rfl⟩
      refine h.replace hi rfl rfl hw.good hw.size hw.count rfl rfl
        (h.held e hmem) ?_ ?_
      · intro k hk hne
        refine ⟨rfl, ?_⟩
        rw [hcontents, sectorOf_splice_of_ne hlen hlba (h.length_bytes hmem) hne]
      · intro _
        rw [hcontents, sectorOf_splice_self hlen hlba (h.length_bytes hmem), h.held e hmem]
    · apply Ends.of_error (e := .error err) (t := { c with inner := d' })
      · apply bind_of_error
        simp only [onInner, zoom, hrun]
      · refine ⟨h.moved hk, ⟨err, rfl⟩, fun hws => ?_⟩
        have hok := hws c.inner e.lba e.bytes h.good hrange
        rw [hrun] at hok
        cases hok

theorem oldest_eq_some {entries : List CacheEntry} (h : entries ≠ []) :
    ∃ i e, oldest entries = some i ∧ entries[i]? = some e := by
  have hmin : ∃ e ∈ entries, ∀ f ∈ entries, e.stamp ≤ f.stamp := by
    induction entries with
    | nil => exact absurd rfl h
    | cons a rest ih =>
      by_cases hrest : rest = []
      · subst hrest
        exact ⟨a, mem_singleton_self a, by simp⟩
      · obtain ⟨e, he, hle⟩ := ih hrest
        by_cases hae : a.stamp ≤ e.stamp
        · refine ⟨a, mem_cons_self, forall_mem_cons.mpr ⟨le_rfl, ?_⟩⟩
          exact fun f hf => hae.trans (hle f hf)
        · exact ⟨e, mem_cons_of_mem _ he, forall_mem_cons.mpr ⟨by omega, hle⟩⟩
  obtain ⟨e, he, hle⟩ := hmin
  cases hfind : oldest entries with
  | none =>
    have hnone := findIdx?_eq_none_iff.mp hfind e he
    rw [all_eq_false] at hnone
    obtain ⟨f, hf, hlt⟩ := hnone
    exact absurd (decide_eq_true (hle f hf)) hlt
  | some i =>
    obtain ⟨hi, -⟩ := findIdx?_eq_some_iff_getElem.mp hfind
    exact ⟨i, entries[i], rfl, getElem?_eq_getElem hi⟩

/-- Entry `i` is set aside for the sector `lba`: only its bytes are missing. -/
structure Placed (m : Medium D) (d : D) (capacity : Nat) (bytes : List UInt8) (lba i : Nat)
    (c : CachedBlockDevice D) : Prop where
  good : m.Good c.inner
  size : sectorSize c.inner = sectorSize d
  count : sectorCount c.inner = sectorCount d
  contents : sectorOf (sectorSize d) (m.contents c.inner) lba = sectorOf (sectorSize d) bytes lba
  entry : ∃ e, c.entries[i]? = some e ∧ e.lba = lba ∧ e.bytes.length = sectorSize d
  complete : ∀ (c' : CachedBlockDevice D) e', c'.entries = c.entries.set i e' →
    c'.capacity = c.capacity → m.Kept c.inner c'.inner → e'.lba = lba →
    e'.bytes = sectorOf (sectorSize d) bytes lba → Coherent m d capacity bytes c'

theorem placeFor_ends (hm : m.Lawful) (h : Coherent m d capacity bytes c) (hcap : 0 < capacity)
    (hlba : lba < sectorCount d) (hnew : ∀ f ∈ c.entries, f.lba ≠ lba) :
    Ends (placeFor lba) c (fun i => Placed m d capacity bytes lba i)
      (Failed m d capacity bytes) := by
  have habsent : ∀ {c' : CachedBlockDevice D}, Coherent m d capacity bytes c' →
      (∀ f ∈ c'.entries, f.lba ≠ lba) →
      sectorOf (sectorSize d) (m.contents c'.inner) lba = sectorOf (sectorSize d) bytes lba :=
    fun h' hnew' => h'.rest lba hlba fun f hf hfe => absurd hfe (hnew' f hf)
  apply Ends.get_bind
  apply Ends.ite
  · intro hroom
    rw [h.capacity_eq] at hroom
    have hsector := habsent h hnew
    refine Ends.of_ok rfl ⟨h.good, h.size, h.count, hsector, ?_, ?_⟩
    · refine ⟨_, getElem?_concat_length, rfl, ?_⟩
      rw [length_replicate, h.size]
    · intro c' e' hentries hcapacity hkept he hbytes
      apply h.push hroom hnew hlba _ hcapacity hkept he hbytes
      rw [hentries, set_append_right _ _ (le_refl _), Nat.sub_self]
      rfl
  · intro hfull
    rw [h.capacity_eq] at hfull
    have hne : c.entries ≠ [] := by
      intro hnil
      rw [hnil] at hfull
      exact hfull hcap
    obtain ⟨i, e, hold, hi⟩ := oldest_eq_some hne
    have hlt := (List.getElem?_eq_some_iff.mp hi).1
    rw [hold]
    apply Ends.step rfl
    apply Ends.bind (writeBack_ends hm h hi)
    intro _ c₁ ⟨h₁, hentries₁⟩
    have hi₁ : c₁.entries[i]? = some { e with dirty := false } := by
      rw [hentries₁, getElem?_set_self hlt]
    have hnew₁ : ∀ f ∈ c₁.entries, f.lba ≠ lba := by
      intro f hf
      rw [hentries₁, h.mem_set hi] at hf
      rcases hf with rfl | ⟨hf, -⟩
      · exact hnew e (mem_of_getElem? hi)
      · exact hnew f hf
    apply Ends.modify_bind
    apply Ends.get_bind
    apply Ends.lift_bind (index_eq hi₁)
    have hsector := habsent h₁ hnew₁
    have hlen := h₁.length_bytes (mem_of_getElem? hi₁)
    refine Ends.of_ok rfl ⟨h₁.good, h₁.size, h₁.count, hsector, ?_, ?_⟩
    · exact ⟨_, getElem?_set_self (by rwa [hentries₁, length_set]), rfl, hlen⟩
    · intro c' e' hentries hcapacity hkept he hbytes
      refine h₁.reuse hi₁ rfl hnew₁ hlba ?_ hcapacity hkept he hbytes
      rw [hentries]
      exact set_set _

theorem fill_run {output : List UInt8} (hi : c.entries[i]? = some e)
    (hread : BlockDevice.readSectors lba (c.inner, e.bytes) = (.ok (), (d', output))) :
    fill i lba c = (.ok (), { c with
      inner := d'
      entries := (c.entries.set i { e with bytes := output }).set i
        { e with bytes := output, dirty := false } }) := by
  unfold fill
  rw [get_bind, index_eq hi, lift_ok_bind]
  simp only [hread]
  rfl

theorem entryFor_ends (hm : m.Lawful) (hr : m.ReadsSucceed) (h : Coherent m d capacity bytes c)
    (hcap : 0 < capacity) (hlba : lba < sectorCount d) :
    Ends (entryFor lba) c
      (fun i c' => Coherent m d capacity bytes c' ∧ ∃ e, c'.entries[i]? = some e ∧ e.lba = lba)
      (Failed m d capacity bytes) := by
  apply Ends.get_bind
  cases hfind : c.entries.findIdx? fun entry => entry.lba == lba with
  | some i =>
    obtain ⟨hlt, heq, -⟩ := findIdx?_eq_some_iff_getElem.mp hfind
    have hi : c.entries[i]? = some c.entries[i] := getElem?_eq_getElem hlt
    apply Ends.modify_bind
    refine Ends.step (touch_run hi) ?_
    apply Ends.pure
    have hcounted := h.stats c.stamp { c.stats with hits := saturatingAdd c.stats.hits 1 }
    refine ⟨hcounted.touch hi _, _, getElem?_set_self hlt, ?_⟩
    exact beq_iff_eq.mp heq
  | none =>
    have hnew : ∀ f ∈ c.entries, f.lba ≠ lba := by
      intro f hf heq
      have hne := findIdx?_eq_none_iff.mp hfind f hf
      rw [heq, beq_self_eq_true] at hne
      cases hne
    apply Ends.modify_bind
    have hcounted := h.stats c.stamp { c.stats with misses := saturatingAdd c.stats.misses 1 }
    refine Ends.bind (placeFor_ends hm hcounted hcap hlba hnew) ?_
    intro i c₁ hplaced
    obtain ⟨e, hi, he, hlen⟩ := hplaced.entry
    have hlt := (List.getElem?_eq_some_iff.mp hi).1
    have hrange : InRange c₁.inner lba e.bytes.length := by
      have hpos := hm.size_pos _ hplaced.good
      rw [hplaced.size] at hpos
      rw [hlen]
      refine ⟨⟨by omega, by rw [hplaced.size, Nat.mod_self]⟩, ?_⟩
      rw [hplaced.size, hplaced.count, Nat.div_self hpos]
      exact hlba
    obtain ⟨r, d', output, hrun, hkept, -, hcase⟩ := hm.read _ lba e.bytes hplaced.good hrange
    have hok := hr _ lba e.bytes hplaced.good hrange
    rw [hrun] at hok
    dsimp only at hok
    rw [hok] at hrun hcase
    have houtput : output = sectorOf (sectorSize d) bytes lba := by
      rcases hcase with ⟨-, hout⟩ | ⟨_, hbad⟩
      · rw [hout, hlen, hplaced.size]
        exact hplaced.contents
      · cases hbad
    apply Ends.step (fill_run hi hrun)
    have hi' : ((c₁.entries.set i { e with bytes := output }).set i
        { e with bytes := output, dirty := false })[i]? =
        some { e with bytes := output, dirty := false } :=
      getElem?_set_self (by rwa [length_set])
    have hfilled := hplaced.complete { c₁ with
      inner := d'
      entries := (c₁.entries.set i { e with bytes := output }).set i
        { e with bytes := output, dirty := false } } _ (set_set _) rfl hkept he houtput
    refine Ends.step (touch_run hi') ?_
    apply Ends.pure
    refine ⟨hfilled.touch hi' _, _, getElem?_set_self ?_, he⟩
    simpa only [length_set] using hlt

end CachedBlockDevice

end NexOs.Storage
