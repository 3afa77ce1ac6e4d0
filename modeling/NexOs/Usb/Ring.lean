import NexOs.Lib.CycleRing
import NexOs.Usb.Trb

/-! The ring through which a driver hands blocks to an xHCI controller, and what the controller
reads from it while the driver goes on. -/
namespace NexOs.Usb
open List hiding Vector

inductive UsbError where
  | bufferTooShort
  | invalidDescriptor
  | invalidPacket
  | invalidSignature
  | invalidTag
  | invalidStatus
  | ringFull
  | unsupported
deriving DecidableEq, Repr

structure RingEntry where
  index : Nat
  trb : Trb
deriving DecidableEq, Repr

/-- The last entry of the ring is kept for the link back to the first one. -/
structure ProducerRing (N : Nat) where
  entries : Vector Trb N
  enqueue : Nat
  cycle : Bool
  enqueue_le : enqueue ≤ N - 1

/-- A link back to the first entry of a ring at `base`. -/
def linkTo (base : UInt64) : Trb := (Trb.command .link).withParameter base

namespace ProducerRing
variable {N : Nat} {link : Trb} {ring : ProducerRing N}

def new (N : Nat) : ProducerRing N where
  entries := Vector.replicate N Trb.zero
  enqueue := 0
  cycle := true
  enqueue_le := Nat.zero_le _

def endOfLap (link : Trb) (cycle : Bool) : Trb :=
  link.withControlBits (cycle.toUInt32 ||| ((1 : UInt32) <<< 1))

theorem endOfLap_linkTo (base : UInt64) (cycle : Bool) :
    (endOfLap (linkTo base) cycle).isLink = true ∧
      (endOfLap (linkTo base) cycle).cycle = cycle ∧
      (endOfLap (linkTo base) cycle).toggle = true := by
  have hcontrol : (endOfLap (linkTo base) cycle).control =
      (endOfLap (Trb.command .link) cycle).control := rfl
  rw [Trb.isLink, Trb.trbType, Trb.cycle, Trb.toggle, hcontrol]
  cases cycle <;> decide

/-- The first write of a push: at the last entry, the link, after which a new lap begins. -/
def wrap (link : Trb) (hN : 2 ≤ N) (ring : ProducerRing N) : ProducerRing N :=
  if ring.enqueue = N - 1 then
    { entries := ring.entries.set ring.enqueue (endOfLap link ring.cycle)
        (by have := ring.enqueue_le; omega)
      enqueue := 0
      cycle := !ring.cycle
      enqueue_le := Nat.zero_le _ }
  else ring

/-- The second write of a push: the block itself, with the cycle bit of the lap. -/
def place (trb : Trb) (ring : ProducerRing N) (hroom : ring.enqueue < N - 1) :
    RingEntry × ProducerRing N :=
  let trb := trb.withCycle ring.cycle
  (⟨ring.enqueue, trb⟩,
    { ring with
      entries := ring.entries.set ring.enqueue trb (by omega)
      enqueue := ring.enqueue + 1
      enqueue_le := hroom })

theorem enqueue_wrap_lt (hN : 2 ≤ N) : (ring.wrap link hN).enqueue < N - 1 := by
  rw [wrap]
  split
  · exact Nat.sub_pos_of_lt hN
  · rename_i hne
    exact Nat.lt_of_le_of_ne ring.enqueue_le hne

theorem wrap_of_last (hN : 2 ≤ N) (hlast : ring.enqueue = N - 1) :
    (ring.wrap link hN).entries =
        ring.entries.set ring.enqueue (endOfLap link ring.cycle) (by omega) ∧
      (ring.wrap link hN).enqueue = 0 ∧ (ring.wrap link hN).cycle = !ring.cycle := by
  rw [wrap, if_pos hlast]
  exact ⟨rfl, rfl, rfl⟩

theorem wrap_of_ne (link : Trb) (hN : 2 ≤ N)
    (hne : ring.enqueue ≠ N - 1) : ring.wrap link hN = ring := if_neg hne

def push (trb : Trb) (ring : ProducerRing N) : Except UsbError (RingEntry × ProducerRing N) :=
  if hN : N < 2 then .error .ringFull
  else
    let link := Trb.command .link
    .ok ((ring.wrap link (Nat.le_of_not_lt hN)).place trb (enqueue_wrap_lt _))

end ProducerRing

structure Reader where
  dequeue : Nat
  cycle : Bool
deriving DecidableEq, Repr

namespace Reader

def new : Reader := ⟨0, true⟩

/-- The entry that the controller accepts: the next one, if it has the controller's cycle bit. -/
def next {N : Nat} (entries : Vector Trb N) (reader : Reader) : Option Trb :=
  entries[reader.dequeue]?.filter fun entry => entry.cycle == reader.cycle

def advance (entry : Trb) (reader : Reader) : Reader :=
  if entry.isLink then ⟨0, reader.cycle ^^ entry.toggle⟩
  else ⟨reader.dequeue + 1, reader.cycle⟩

end Reader

/-- The driver and the controller at work on one ring. A push between its two writes is
`pending`. -/
structure Exchange (N : Nat) where
  ring : ProducerRing N
  pending : Option Trb
  reader : Reader
  pushed : List Trb
  consumed : List Trb
  room : ∀ trb, pending = some trb → ring.enqueue < N - 1

namespace Exchange
open CycleRing

variable {N : Nat} {base : UInt64} {hN : 2 ≤ N} {s s' : Exchange N} {stream : List Trb} {t : Nat}
  {trb entry : Trb}

def new (N : Nat) : Exchange N where
  ring := .new N
  pending := none
  reader := .new
  pushed := []
  consumed := []
  room := by
    intro trb htrb
    cases htrb

def startPush (base : UInt64) (hN : 2 ≤ N) (trb : Trb) (s : Exchange N) : Exchange N :=
  { s with
    ring := s.ring.wrap (linkTo base) hN
    pending := some trb
    room := fun _ _ => ProducerRing.enqueue_wrap_lt hN }

def finishPush (s : Exchange N) {trb : Trb} (hpending : s.pending = some trb) : Exchange N :=
  { s with
    ring := (s.ring.place trb (s.room trb hpending)).2
    pending := none
    pushed := s.pushed ++ [trb]
    room := fun _ htrb => nomatch htrb }

@[simp] theorem startPush_ring :
    (s.startPush base hN trb).ring = s.ring.wrap (linkTo base) hN := rfl

@[simp] theorem finishPush_pushed (hpending : s.pending = some trb) :
    (s.finishPush hpending).pushed = s.pushed ++ [trb] := rfl

theorem push_eq_finishPush :
    ∃ entry, s.ring.push trb = .ok (entry, ((s.startPush 0 hN trb).finishPush rfl).ring) := by
  rw [ProducerRing.push, dif_neg (Nat.not_lt_of_le hN)]
  exact ⟨_, rfl⟩

def take (entry : Trb) (s : Exchange N) : Exchange N :=
  { s with
    reader := s.reader.advance entry
    consumed := if entry.isLink then s.consumed else s.consumed ++ [entry] }

/-- The two writes of a push and the reads of the controller interleave. A push begins only while
fewer than `N - 1` blocks are unread, and never with a link of its own. -/
inductive Step (base : UInt64) (hN : 2 ≤ N) : Exchange N → Exchange N → Prop
  | start {s : Exchange N} {trb : Trb} (hidle : s.pending = none) (hlink : trb.isLink = false)
      (hspace : s.pushed.length < s.consumed.length + (N - 1)) :
      Step base hN s (s.startPush base hN trb)
  | finish {s : Exchange N} {trb : Trb} (hpending : s.pending = some trb) :
      Step base hN s (s.finishPush hpending)
  | read {s : Exchange N} {entry : Trb} (hnext : s.reader.next s.ring.entries = some entry) :
      Step base hN s (s.take entry)

/-- The entries written so far, links among them, are `stream`, and the controller has read the
first `t` of them. -/
structure Tracks (s : Exchange N) (stream : List Trb) (t : Nat) : Prop where
  holds : Holds Trb.cycle s.ring.entries stream
  writer : Located N s.ring.enqueue s.ring.cycle stream.length
  reader : Located N s.reader.dequeue s.reader.cycle t
  behind : t ≤ stream.length
  lap : stream.length ≤ t + N
  linked : Linked N Trb.isLink stream
  toggles : ∀ entry ∈ stream, entry.isLink = true → entry.toggle = true
  pushed : (payload Trb.isLink stream).map (Trb.withCycle false) = s.pushed.map (Trb.withCycle false)
  consumed : payload Trb.isLink (stream.take t) = s.consumed
  pending : ∀ trb, s.pending = some trb →
    trb.isLink = false ∧ s.pushed.length < s.consumed.length + (N - 1)

theorem tracks_new (hN : 2 ≤ N) : Tracks (new N) [] 0 where
  holds := holds_replicate rfl
  writer := located_zero (by omega)
  reader := located_zero (by omega)
  behind := Nat.le_refl _
  lap := Nat.zero_le _
  linked := linked_nil
  toggles := by simp
  pushed := rfl
  consumed := rfl
  pending := by
    intro trb htrb
    cases htrb

theorem Tracks.lt_lap (h : Tracks s stream t) (hN : 2 ≤ N)
    (hspace : s.pushed.length < s.consumed.length + (N - 1)) : stream.length < t + N := by
  apply h.linked.room (by omega) h.behind h.lap
  have hlength := congrArg length h.pushed
  rw [length_map, length_map] at hlength
  rwa [hlength, h.consumed]

theorem take_concat_of_le (h : t ≤ stream.length) :
    (stream ++ [entry]).take t = stream.take t := take_append_of_le_length h

theorem Tracks.start (h : Tracks s stream t) (hlink : trb.isLink = false)
    (hspace : s.pushed.length < s.consumed.length + (N - 1)) :
    ∃ stream', Tracks (s.startPush base hN trb) stream' t := by
  have hpending : ∀ other, some trb = some other →
      other.isLink = false ∧ s.pushed.length < s.consumed.length + (N - 1) := by
    intro other hother
    cases hother
    exact ⟨hlink, hspace⟩
  by_cases hlast : s.ring.enqueue = N - 1
  · obtain ⟨hentries, henqueue, hcycle⟩ :=
      ProducerRing.wrap_of_last hN hlast
    obtain ⟨hislink, hbit, htoggle⟩ := ProducerRing.endOfLap_linkTo base s.ring.cycle
    have hlt := h.lt_lap hN hspace
    refine ⟨stream ++ [ProducerRing.endOfLap (linkTo base) s.ring.cycle], ?_⟩
    exact
      { holds := by
          rw [startPush_ring, hentries]
          exact h.holds.write (hbit.symm ▸ h.writer) _
        writer := by
          rw [startPush_ring, henqueue, hcycle, length_append]
          exact h.writer.wrap (by omega) hlast
        reader := h.reader
        behind := by
          rw [length_append]
          exact Nat.le_add_right_of_le h.behind
        lap := by
          rw [length_append]
          exact hlt
        linked := by
          rw [linked_concat, hislink, ← h.writer.index_eq]
          exact ⟨h.linked, iff_of_true rfl hlast⟩
        toggles := by
          rw [forall_mem_append, forall_mem_singleton]
          exact ⟨h.toggles, fun _ => htoggle⟩
        pushed := by
          rw [payload_concat, if_pos hislink]
          exact h.pushed
        consumed := by
          rw [take_concat_of_le h.behind]
          exact h.consumed
        pending := hpending }
  · refine ⟨stream, ?_⟩
    have hring := ProducerRing.wrap_of_ne (linkTo base) hN hlast
    exact
      { h with
        holds := by
          rw [startPush_ring, hring]
          exact h.holds
        writer := by
          rw [startPush_ring, hring]
          exact h.writer
        pending := hpending }

theorem Tracks.finish (h : Tracks s stream t) (hN : 2 ≤ N) (hpending : s.pending = some trb) :
    Tracks (s.finishPush hpending) (stream ++ [trb.withCycle s.ring.cycle]) t := by
  obtain ⟨hlink, hspace⟩ := h.pending trb hpending
  have hroom : s.ring.enqueue < N - 1 := s.room trb hpending
  have hislink : (trb.withCycle s.ring.cycle).isLink = false := by
    rwa [Trb.isLink, Trb.trbType_withCycle]
  have hlt := h.lt_lap hN hspace
  exact
    { holds := h.holds.write (Trb.cycle_withCycle.symm ▸ h.writer) (by omega)
      writer := by
        rw [length_append]
        exact h.writer.succ (by omega) hroom.ne
      reader := h.reader
      behind := by
        rw [length_append]
        exact Nat.le_add_right_of_le h.behind
      lap := by
        rw [length_append]
        exact hlt
      linked := by
        rw [linked_concat, hislink, ← h.writer.index_eq]
        exact ⟨h.linked, iff_of_false Bool.false_ne_true hroom.ne⟩
      toggles := by
        rw [forall_mem_append, forall_mem_singleton, hislink]
        exact ⟨h.toggles, fun hfalse => nomatch hfalse⟩
      pushed := by
        rw [payload_concat, hislink, if_neg Bool.false_ne_true, finishPush_pushed, map_append,
          map_append, h.pushed, map_singleton, map_singleton, Trb.withCycle_withCycle]
      consumed := by
        rw [take_concat_of_le h.behind]
        exact h.consumed
      pending := fun _ htrb => nomatch htrb }

theorem Tracks.next_of_lt (h : Tracks s stream t) (hlt : t < stream.length) :
    s.reader.next s.ring.entries = some stream[t] := by
  obtain ⟨hcell, hbit⟩ := h.holds.fresh (getElem?_eq_getElem hlt) h.lap
  rw [Reader.next, h.reader.index_eq, hcell, Option.filter_some, hbit, h.reader.bit_eq, beq_self_eq_true,
    if_pos rfl]

theorem Tracks.next_of_eq (h : Tracks s stream stream.length) :
    s.reader.next s.ring.entries = none := by
  rw [Reader.next, h.reader.index_eq, Option.filter_eq_none_iff]
  intro entry hentry
  rw [h.holds.stale hentry, h.reader.bit_eq]
  simp

theorem Tracks.read (h : Tracks s stream t) (hN : 2 ≤ N)
    (hnext : s.reader.next s.ring.entries = some entry) :
    Tracks (s.take entry) stream (t + 1) := by
  have hlt : t < stream.length := by
    apply Nat.lt_of_le_of_ne h.behind
    rintro rfl
    rw [h.next_of_eq] at hnext
    cases hnext
  have hentry : stream[t]? = some entry := by
    rw [h.next_of_lt hlt] at hnext
    rw [getElem?_eq_getElem hlt, hnext]
  have htake : stream.take (t + 1) = stream.take t ++ [entry] := by
    rw [take_add_one, hentry]
    rfl
  have hlink := h.linked t entry hentry
  rw [← h.reader.index_eq] at hlink
  exact
    { h with
      reader := by
        rw [take, Reader.advance]
        split
        · rename_i hislink
          rw [h.toggles entry (mem_of_getElem? hentry) hislink, Bool.xor_true]
          exact h.reader.wrap (by omega) (hlink.mp hislink)
        · rename_i hislink
          exact h.reader.succ (by omega) (mt hlink.mpr hislink)
      behind := hlt
      lap := Nat.le_trans h.lap (by omega)
      consumed := by
        rw [htake, payload_concat, h.consumed, take]
      pending := by
        intro trb htrb
        obtain ⟨hislink, hspace⟩ := h.pending trb htrb
        refine ⟨hislink, Nat.lt_of_lt_of_le hspace ?_⟩
        rw [take]
        split
        · exact Nat.le_refl _
        · rw [length_append]
          omega }

theorem Tracks.step (h : Tracks s stream t) (hstep : Step base hN s s') :
    ∃ stream' t', Tracks s' stream' t' := by
  cases hstep with
  | start hidle hlink hspace =>
    obtain ⟨stream', h'⟩ := h.start hlink hspace
    exact ⟨stream', t, h'⟩
  | finish hpending => exact ⟨_, t, h.finish hN hpending⟩
  | read hnext => exact ⟨stream, t + 1, h.read hN hnext⟩

theorem tracks_run (hrun : Relation.ReflTransGen (Step base hN) (new N) s) :
    ∃ stream t, Tracks s stream t := by
  induction hrun with
  | refl => exact ⟨[], 0, tracks_new hN⟩
  | tail _ hstep ih =>
    obtain ⟨stream, t, h⟩ := ih
    exact h.step hstep

/-- At every moment the controller has read the first of the pushed blocks, each once and in
order, and all of them when it finds nothing to read. -/
theorem consumed_isPrefix (hrun : Relation.ReflTransGen (Step base hN) (new N) s) :
    s.consumed.map (Trb.withCycle false) <+: s.pushed.map (Trb.withCycle false) ∧
      (s.reader.next s.ring.entries = none →
        s.consumed.map (Trb.withCycle false) = s.pushed.map (Trb.withCycle false)) := by
  obtain ⟨stream, t, h⟩ := tracks_run hrun
  rw [← h.pushed, ← h.consumed]
  constructor
  · apply IsPrefix.map
    exact (List.take_prefix t stream).filter _
  · intro hnone
    have hcaught : t = stream.length := by
      apply Nat.le_antisymm h.behind
      by_contra hlt
      rw [h.next_of_lt (Nat.lt_of_not_le hlt)] at hnone
      cases hnone
    rw [hcaught, take_length]

/-- One block, written and not yet read. -/
theorem consumed_isPrefix_noOp :
    let s := ((new 2).startPush 0 (by decide) (Trb.command .noOpCommand)).finishPush rfl
    Relation.ReflTransGen (Step 0 (by decide)) (new 2) s ∧
      s.consumed.map (Trb.withCycle false) <+: s.pushed.map (Trb.withCycle false) ∧
      (s.reader.next s.ring.entries = none →
        s.consumed.map (Trb.withCycle false) = s.pushed.map (Trb.withCycle false)) := by
  have hstart : Step 0 (by decide) (new 2)
      ((new 2).startPush 0 (by decide) (Trb.command .noOpCommand)) :=
    .start rfl (by decide) (by decide)
  have hrun := (Relation.ReflTransGen.single hstart).tail (.finish rfl)
  exact ⟨hrun, consumed_isPrefix hrun⟩

end Exchange

end NexOs.Usb
