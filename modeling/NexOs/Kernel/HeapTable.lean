import NexOs.Kernel.Heap

/-! The table of segments as a list: what the shifts in place do. -/
namespace NexOs.Kernel.KernelHeap
open List Bytes Exec

variable {ε : Type} {h : KernelHeap} {segments l before after replacement : List Segment}
  {s : Segment}

theorem shiftUp_eq {additional low count : Nat} (hfits : low + count + additional ≤ segments.length) :
    (shiftUp segments additional low count : Result ε (List Segment)) =
      .ok (splice segments (low + additional) (slice segments low count)) := by
  induction count generalizing segments with
  | zero =>
    rw [shiftUp, slice, take_zero, splice, append_nil, length_nil, Nat.add_zero, take_append_drop]
  | succ count ih =>
    have hlt : low + count < segments.length := by omega
    have hslice : (slice segments low (count + 1)).length = count + 1 := length_slice (by omega)
    have hset : low + count + additional < segments.length := by omega
    rw [shiftUp, index_eq (getElem?_eq_getElem hlt), Result.bind_ok, store_eq hset,
      Result.bind_ok, ih (by rw [length_set]; omega)]
    generalize hset' : segments.set (low + count + additional) segments[low + count] = next
    have hlength : next.length = segments.length := by rw [← hset', length_set]
    have hslice' : (slice next low count).length = count := length_slice (by omega)
    congr 1
    apply ext_getElem?
    intro i
    rw [getElem?_splice (by omega), getElem?_splice (by omega), getElem?_slice, getElem?_slice]
    grind

theorem shiftDown_eq {low count : Nat} (hfits : low + 1 + count ≤ segments.length) :
    (shiftDown segments low count : Result ε (List Segment)) =
      .ok (splice segments low (slice segments (low + 1) count)) := by
  induction count generalizing segments low with
  | zero =>
    rw [shiftDown, slice, take_zero, splice, append_nil, length_nil, Nat.add_zero, take_append_drop]
  | succ count ih =>
    have hlt : low + 1 < segments.length := by omega
    have hset : low < segments.length := by omega
    have hslice : (slice segments (low + 1) (count + 1)).length = count + 1 :=
      length_slice (by omega)
    rw [shiftDown, index_eq (getElem?_eq_getElem hlt), Result.bind_ok, store_eq hset,
      Result.bind_ok, ih (by rw [length_set]; omega)]
    generalize hset' : segments.set low segments[low + 1] = next
    have hlength : next.length = segments.length := by rw [← hset', length_set]
    have hslice' : (slice next (low + 1 + 1) count).length = count := length_slice (by omega)
    congr 1
    apply ext_getElem?
    intro i
    rw [getElem?_splice (by omega), getElem?_splice (by omega), getElem?_slice, getElem?_slice]
    grind

structure Lists (h : KernelHeap) (l : List Segment) : Prop where
  length : h.segments.length = 128
  count : h.segmentCount = l.length
  starts : l <+: h.segments

theorem Lists.take_eq (hl : h.Lists l) : h.segments.take h.segmentCount = l := by
  rw [hl.count]
  exact (prefix_iff_eq_take.mp hl.starts).symm

theorem Lists.length_le (hl : h.Lists l) : l.length ≤ 128 := by
  have hle := hl.starts.length_le
  rwa [hl.length] at hle

variable (hl : h.Lists (before ++ s :: after))
include hl

theorem Lists.index_eq : (index h.segments before.length : Result ε Segment) = .ok s := by
  obtain ⟨rest, hrest⟩ := hl.starts
  apply Bytes.index_eq
  rw [← hrest, append_assoc, getElem?_append_right (Nat.le_refl _), Nat.sub_self]
  rfl

theorem Lists.set (q : Segment) :
    (store h.segments before.length q : Result ε (List Segment)) =
      .ok (h.segments.set before.length q) ∧
    ({ h with segments := h.segments.set before.length q }).Lists (before ++ q :: after) := by
  obtain ⟨rest, hrest⟩ := hl.starts
  have hcount := hl.count
  have hle := hl.length_le
  rw [length_append, length_cons] at hle
  refine ⟨store_eq (by rw [hl.length]; omega), ?_, ?_, rest, ?_⟩
  · rw [← hl.length]
    exact length_set
  · rw [← hcount.trans (by simp : _ = (before ++ q :: after).length)]
  · rw [← hrest, append_assoc, append_assoc, set_append_right _ _ (Nat.le_refl _), Nat.sub_self]
    rfl

theorem replaceSegment_run (hne : replacement ≠ []) :
    (128 < (before ++ (replacement ++ after)).length ∧
      (replaceSegment before.length replacement h : Result ε Bool × KernelHeap) =
        (.ok false, h)) ∨
    ∃ table count, (replaceSegment before.length replacement h : Result ε Bool × KernelHeap) =
        (.ok true, { h with segments := table, segmentCount := count }) ∧
      ({ h with segments := table, segmentCount := count }).Lists
        (before ++ (replacement ++ after)) := by
  obtain ⟨rest, hrest⟩ := hl.starts
  have hpos : 1 ≤ replacement.length := length_pos_iff.mpr hne
  have hcount := hl.count
  rw [length_append, length_cons] at hcount
  have hlength : (before ++ (replacement ++ after)).length =
      h.segmentCount + (replacement.length - 1) := by
    rw [length_append, length_append]
    omega
  rw [replaceSegment, get_bind, subU64_eq hpos, lift_ok_bind]
  by_cases hfull : h.segmentCount + (replacement.length - 1) > maxSegments
  · rw [if_pos hfull]
    exact .inl ⟨hlength ▸ hfull, rfl⟩
  · rw [if_neg hfull]
    have hroom : h.segmentCount + (replacement.length - 1) ≤ 128 := Nat.le_of_not_lt hfull
    have hsize := hl.length
    have hmoved : h.segmentCount - (before.length + 1) = after.length := by omega
    have hslice : slice h.segments (before.length + 1) after.length = after := by
      rw [← hrest, slice]
      simp
    rw [hmoved, shiftUp_eq (by omega), lift_ok_bind, hslice]
    have hwhere : before.length + 1 + (replacement.length - 1) =
        before.length + replacement.length := by omega
    have hmiddle : (splice h.segments (before.length + replacement.length) after).length =
        h.segments.length := length_splice (by omega)
    rw [hwhere, copyFromSlice_eq (by omega) rfl]
    refine .inr ⟨_, _, rfl, ?_, ?_, ?_⟩
    · exact ((length_splice (by omega)).trans hmiddle).trans hsize
    · exact hlength.symm
    · have htake : h.segments.take before.length = before := by
        rw [← hrest, append_assoc, take_left]
      rw [splice_splice_adjacent rfl (by omega), htake]
      exact ⟨_, by rw [append_assoc, append_assoc]⟩

theorem removeSegment_run :
    ∃ table count, (removeSegment before.length h : Result ε Unit × KernelHeap) =
        (.ok (), { h with segments := table, segmentCount := count }) ∧
      ({ h with segments := table, segmentCount := count }).Lists (before ++ after) := by
  obtain ⟨rest, hrest⟩ := hl.starts
  have hcount := hl.count
  have hsize := hl.length
  have hle := hl.length_le
  rw [length_append, length_cons] at hcount hle
  have hmoved : h.segmentCount - 1 - before.length = after.length := by omega
  have hslice : slice h.segments (before.length + 1) after.length = after := by
    rw [← hrest, slice]
    simp
  have hlength : (splice h.segments before.length after).length = 128 :=
    (length_splice (by omega)).trans hsize
  rw [removeSegment, get_bind, subU64_eq (by omega), lift_ok_bind, hmoved,
    shiftDown_eq (by omega), lift_ok_bind, hslice, store_eq (by omega)]
  refine ⟨_, _, rfl, ?_, ?_, ?_⟩
  · exact length_set.trans hlength
  · dsimp only
    rw [length_append]
    omega
  · have htake : h.segments.take before.length = before := by
      rw [← hrest, append_assoc, take_left]
    have hlast : h.segmentCount - 1 = (before ++ after).length := by
      rw [length_append]
      omega
    rw [hlast, splice, htake, set_append_right _ _ (Nat.le_refl _)]
    exact prefix_append _ _

end NexOs.Kernel.KernelHeap
