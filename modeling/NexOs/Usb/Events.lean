import NexOs.Lib.Bytes
import NexOs.Usb.Ring

/-! The ring through which an xHCI controller reports events, and the driver that takes them from
it. The controller writes while the driver reads. -/
namespace NexOs.Usb
open List hiding Vector
open Bytes CycleRing Exec

structure EventConsumer where
  dequeue : Nat
  cycle : Bool
deriving DecidableEq, Repr

variable {N : Nat} {trb : Trb}

namespace EventConsumer

def new : EventConsumer := ⟨0, true⟩

def advance (N : Nat) (consumer : EventConsumer) : EventConsumer :=
  if consumer.dequeue + 1 = N then ⟨0, !consumer.cycle⟩
  else ⟨consumer.dequeue + 1, consumer.cycle⟩

def consume {N : Nat} (entries : Vector Trb N) : Exec EventConsumer Empty (Option RingEntry) := do
  if N = 0 then
    pure none
  else do
    let consumer ← Exec.get
    let trb ← Exec.lift (index entries.toList consumer.dequeue)
    if trb.cycle ≠ consumer.cycle then
      pure none
    else do
      Exec.modify (advance N)
      pure (some ⟨consumer.dequeue, trb⟩)

variable {entries : Vector Trb N} {consumer : EventConsumer}
  (hentry : entries[consumer.dequeue]? = some trb)
include hentry

theorem index_entry : (index entries.toList consumer.dequeue : Result Empty Trb) = .ok trb := by
  apply index_eq
  rw [Vector.getElem?_toList]
  exact hentry

theorem ne_zero_of_entry : N ≠ 0 := by
  have hlt := (Vector.getElem?_eq_some_iff.mp hentry).1
  omega

theorem consume_fresh (hcycle : trb.cycle = consumer.cycle) :
    consume entries consumer = (.ok (some ⟨consumer.dequeue, trb⟩), consumer.advance N) := by
  rw [consume, if_neg (ne_zero_of_entry hentry), get_bind, index_entry hentry,
    lift_ok_bind, if_neg (not_not.mpr hcycle)]
  rfl

theorem consume_stale (hcycle : trb.cycle ≠ consumer.cycle) :
    consume entries consumer = (.ok none, consumer) := by
  rw [consume, if_neg (ne_zero_of_entry hentry), get_bind, index_entry hentry,
    lift_ok_bind, if_pos hcycle]
  rfl

end EventConsumer

structure EventProducer where
  enqueue : Nat
  cycle : Bool

namespace EventProducer

def new : EventProducer := ⟨0, true⟩

def advance (N : Nat) (producer : EventProducer) : EventProducer :=
  if producer.enqueue + 1 = N then ⟨0, !producer.cycle⟩
  else ⟨producer.enqueue + 1, producer.cycle⟩

end EventProducer

section
variable {N k : Nat}

theorem EventProducer.located_advance {producer : EventProducer} (hN : 0 < N)
    (h : Located N producer.enqueue producer.cycle k) :
    Located N (producer.advance N).enqueue (producer.advance N).cycle (k + 1) := by
  unfold advance
  split
  · exact h.wrap hN (by omega)
  · exact h.succ hN (by omega)

theorem EventConsumer.located_advance {consumer : EventConsumer} (hN : 0 < N)
    (h : Located N consumer.dequeue consumer.cycle k) :
    Located N (consumer.advance N).dequeue (consumer.advance N).cycle (k + 1) := by
  unfold advance
  split
  · exact h.wrap hN (by omega)
  · exact h.succ hN (by omega)

end

structure EventExchange (N : Nat) where
  entries : Vector Trb N
  producer : EventProducer
  consumer : EventConsumer
  produced : List Trb
  consumed : List Trb
  inside : producer.enqueue < N

namespace EventExchange
variable {hN : 0 < N} {entries : Vector Trb N} {s s' : EventExchange N}

theorem advance_lt {producer : EventProducer} (h : producer.enqueue < N) :
    (producer.advance N).enqueue < N := by
  rw [EventProducer.advance]
  split
  · exact Nat.zero_lt_of_lt h
  · dsimp only
    omega

def new (hN : 0 < N) (entries : Vector Trb N) : EventExchange N where
  entries := entries
  producer := .new
  consumer := .new
  produced := []
  consumed := []
  inside := hN

def produce (trb : Trb) (s : EventExchange N) : EventExchange N :=
  { s with
    entries := s.entries.set s.producer.enqueue (trb.withCycle s.producer.cycle) s.inside
    producer := s.producer.advance N
    produced := s.produced ++ [trb.withCycle s.producer.cycle]
    inside := advance_lt s.inside }

def took (s : EventExchange N) (taken : Option RingEntry) (consumer : EventConsumer) :
    EventExchange N :=
  { s with consumer := consumer, consumed := s.consumed ++ (taken.map RingEntry.trb).toList }

/-- The controller writes while at most `N - 1` events are unconsumed, and the driver calls
`consume` at any time. -/
inductive Step : EventExchange N → EventExchange N → Prop
  | produce {s : EventExchange N} {trb : Trb} (hspace : s.produced.length < s.consumed.length + N) :
      Step s (s.produce trb)
  | consume {s : EventExchange N} {taken : Option RingEntry} {consumer : EventConsumer}
      (hcall : EventConsumer.consume s.entries s.consumer = (.ok taken, consumer)) :
      Step s (s.took taken consumer)

structure Tracks (s : EventExchange N) : Prop where
  holds : Holds Trb.cycle s.entries s.produced
  writer : Located N s.producer.enqueue s.producer.cycle s.produced.length
  reader : Located N s.consumer.dequeue s.consumer.cycle s.consumed.length
  lap : s.produced.length ≤ s.consumed.length + N
  taken : s.consumed <+: s.produced

theorem tracks_new (hblank : ∀ trb ∈ entries, trb.cycle = false) : Tracks (new hN entries) where
  holds := by
    apply holds_blank
    intro i trb htrb
    exact hblank trb (Vector.mem_of_getElem? htrb)
  writer := located_zero hN
  reader := located_zero hN
  lap := Nat.zero_le _
  taken := nil_prefix

section
variable (h : Tracks s)
include h

theorem Tracks.produce (hspace : s.produced.length < s.consumed.length + N) :
    Tracks (s.produce trb) where
  holds := h.holds.write (Trb.cycle_withCycle.symm ▸ h.writer) s.inside
  writer := by
    rw [EventExchange.produce, length_append]
    exact EventProducer.located_advance (Nat.zero_lt_of_lt s.inside) h.writer
  reader := h.reader
  lap := by
    rw [EventExchange.produce, length_append]
    exact hspace
  taken := h.taken.trans (prefix_append _ _)

theorem Tracks.entry : ∃ trb, s.entries[s.consumer.dequeue]? = some trb ∧
    (trb.cycle = s.consumer.cycle ∧ s.consumed ++ [trb] <+: s.produced ∨
      trb.cycle ≠ s.consumer.cycle ∧ s.consumed = s.produced) := by
  have hN : 0 < N := Nat.zero_lt_of_lt s.inside
  obtain ⟨rest, hrest⟩ := h.taken
  cases rest with
  | nil =>
    rw [append_nil] at hrest
    have hlt : s.consumer.dequeue < N := h.reader.index_eq ▸ Nat.mod_lt _ hN
    obtain ⟨trb, htrb⟩ : ∃ trb, s.entries[s.consumer.dequeue]? = some trb :=
      ⟨_, Vector.getElem?_eq_getElem hlt⟩
    refine ⟨trb, htrb, .inr ⟨?_, hrest⟩⟩
    rw [h.reader.index_eq, hrest] at htrb
    rw [h.holds.stale htrb, h.reader.bit_eq, hrest]
    exact Bool.not_ne_self _
  | cons trb rest =>
    have hnext : s.produced[s.consumed.length]? = some trb := by
      rw [← hrest]
      simp
    obtain ⟨hcell, hbit⟩ := h.holds.fresh hnext h.lap
    refine ⟨trb, h.reader.index_eq ▸ hcell, .inl ⟨hbit.trans h.reader.bit_eq.symm, rest, ?_⟩⟩
    rw [append_assoc]
    exact hrest

theorem Tracks.consume_cases : (∃ trb, EventConsumer.consume s.entries s.consumer =
        (.ok (some ⟨s.consumer.dequeue, trb⟩), s.consumer.advance N) ∧
      s.consumed ++ [trb] <+: s.produced) ∨
    (EventConsumer.consume s.entries s.consumer = (.ok none, s.consumer) ∧
      s.consumed = s.produced) := by
  obtain ⟨trb, hentry, ⟨hcycle, hprefix⟩ | ⟨hcycle, hall⟩⟩ := h.entry
  · exact .inl ⟨trb, EventConsumer.consume_fresh hentry hcycle, hprefix⟩
  · exact .inr ⟨EventConsumer.consume_stale hentry hcycle, hall⟩

theorem Tracks.took {taken : Option RingEntry} {consumer : EventConsumer}
    (hcall : EventConsumer.consume s.entries s.consumer = (.ok taken, consumer)) :
    Tracks (s.took taken consumer) := by
  rcases h.consume_cases with ⟨trb, hrun, hprefix⟩ | ⟨hrun, _⟩
  · rw [hrun] at hcall
    cases hcall
    exact
      { holds := h.holds
        writer := h.writer
        reader := by
          rw [EventExchange.took, length_append]
          exact EventConsumer.located_advance (Nat.zero_lt_of_lt s.inside) h.reader
        lap := by
          rw [EventExchange.took, length_append]
          exact Nat.le_trans h.lap (by omega)
        taken := hprefix }
  · rw [hrun] at hcall
    cases hcall
    rw [EventExchange.took, Option.map_none, Option.toList_none, append_nil]
    exact h

theorem Tracks.step (hstep : Step s s') : Tracks s' := by
  cases hstep with
  | produce hspace => exact h.produce hspace
  | consume hcall => exact h.took hcall

end

theorem tracks_run (hblank : ∀ trb ∈ entries, trb.cycle = false)
    (hrun : Relation.ReflTransGen Step (new hN entries) s) : Tracks s := by
  induction hrun with
  | refl => exact tracks_new hblank
  | tail _ hstep ih => exact ih.step hstep

/-- At every moment the driver has taken the first of the events, each once and in order; a call
returns, and it returns nothing only when all of them have been taken. -/
theorem events_exact (hblank : ∀ trb ∈ entries, trb.cycle = false)
    (hrun : Relation.ReflTransGen Step (new hN entries) s) :
    s.consumed <+: s.produced ∧
      ∃ taken consumer, EventConsumer.consume s.entries s.consumer = (.ok taken, consumer) ∧
        (taken = none → s.consumed = s.produced) := by
  have h := tracks_run hblank hrun
  refine ⟨h.taken, ?_⟩
  rcases h.consume_cases with ⟨trb, hcall, _⟩ | ⟨hcall, hall⟩
  · exact ⟨_, _, hcall, fun hnone => nomatch hnone⟩
  · exact ⟨_, _, hcall, fun _ => hall⟩

/-- A ring of one entry, with an event that is not yet taken. -/
theorem events_exact_single :
    let s := (new Nat.one_pos #v[Trb.zero]).produce (Trb.command .portStatusChangeEvent)
    Relation.ReflTransGen Step (new Nat.one_pos #v[Trb.zero]) s ∧ s.consumed <+: s.produced ∧
      ∃ taken consumer, EventConsumer.consume s.entries s.consumer = (.ok taken, consumer) ∧
        (taken = none → s.consumed = s.produced) := by
  have hstep : Step (new Nat.one_pos #v[Trb.zero])
      ((new Nat.one_pos #v[Trb.zero]).produce (Trb.command .portStatusChangeEvent)) :=
    .produce (by decide)
  have hrun := Relation.ReflTransGen.single hstep
  exact ⟨hrun, events_exact (by decide) hrun⟩

end EventExchange

/-! ## The kernel's driver -/

abbrev trbsPerPage : Nat := 4096 / 16

/-- What `next_event` of the kernel works on; `erdp` is the register that tells the controller
how far the driver has come. -/
structure XhciController where
  eventRingPhysical : Nat
  eventDequeue : Nat
  eventCycle : Bool
  erdp : Nat

namespace XhciController

def eventConsumer (controller : XhciController) : EventConsumer :=
  ⟨controller.eventDequeue, controller.eventCycle⟩

def advance (controller : XhciController) : XhciController :=
  let moved :=
    if controller.eventDequeue + 1 = trbsPerPage then
      { controller with eventDequeue := 0, eventCycle := !controller.eventCycle }
    else { controller with eventDequeue := controller.eventDequeue + 1 }
  { moved with erdp := (moved.eventRingPhysical + moved.eventDequeue * 16) ||| (1 <<< 3) }

def nextEvent (entries : Vector Trb trbsPerPage) : Exec XhciController Empty (Option Trb) := do
  let controller ← Exec.get
  let event ← Exec.lift (index entries.toList controller.eventDequeue)
  if event.cycle ≠ controller.eventCycle then
    pure none
  else do
    Exec.modify advance
    pure (some event)

variable {controller : XhciController}

theorem eventConsumer_advance :
    controller.advance.eventConsumer = controller.eventConsumer.advance trbsPerPage := by
  rw [advance, EventConsumer.advance, eventConsumer, eventConsumer]
  split <;> rfl

theorem nextEvent_consumes (entries : Vector Trb trbsPerPage)
    (hentry : entries[controller.eventDequeue]? = some trb) :
    ∃ entry controller', nextEvent entries controller = (.ok (entry.map RingEntry.trb), controller') ∧
      EventConsumer.consume entries controller.eventConsumer =
        (.ok entry, controller'.eventConsumer) ∧
      (controller' = controller ∨ controller' = controller.advance) := by
  have hconsumer : entries[controller.eventConsumer.dequeue]? = some trb := hentry
  have hindex := EventConsumer.index_entry hconsumer
  change ∃ entry controller', (lift (index entries.toList controller.eventConsumer.dequeue) >>=
    _) controller = _ ∧ _
  rw [hindex, lift_ok_bind]
  by_cases hcycle : trb.cycle = controller.eventCycle
  · rw [if_neg (not_not.mpr hcycle)]
    refine ⟨some ⟨controller.eventDequeue, trb⟩, controller.advance, rfl, ?_, .inr rfl⟩
    rw [eventConsumer_advance]
    exact EventConsumer.consume_fresh hconsumer hcycle
  · rw [if_pos hcycle]
    exact ⟨none, controller, rfl, EventConsumer.consume_stale hconsumer hcycle, .inl rfl⟩

theorem advance_register : controller.advance.eventRingPhysical = controller.eventRingPhysical ∧
      controller.advance.erdp =
        (controller.eventRingPhysical + controller.advance.eventDequeue * 16) ||| 8 := by
  rw [advance]
  split <;> exact ⟨rfl, rfl⟩

/-- The driver of a ring in the frame `ring`, as it comes out of `initialize`. -/
def initial (ring : Nat) : XhciController := ⟨ring, 0, true, ring⟩

/-- The controller writes, and the kernel calls `next_event` at any time. -/
inductive DriverStep : EventExchange trbsPerPage × XhciController →
    EventExchange trbsPerPage × XhciController → Prop
  | produce (hspace : s.produced.length < s.consumed.length + trbsPerPage) :
      DriverStep (s, driver) (s.produce event, driver)
  | nextEvent (hcall : nextEvent s.entries driver = (.ok taken, driver')) :
      DriverStep (s, driver) ({ s with
        consumer := driver'.eventConsumer
        consumed := s.consumed ++ taken.toList }, driver')

/-- The driver stands where a consumer of the ring would, and up to its busy bit the register
says so. -/
structure Drives (ring : Nat) (s : EventExchange trbsPerPage) (driver : XhciController) : Prop where
  tracks : s.Tracks
  consumer : s.consumer = driver.eventConsumer
  base : driver.eventRingPhysical = ring
  register : driver.erdp ||| 8 = (ring + driver.eventDequeue * 16) ||| 8

variable {ring : Nat} {s : EventExchange trbsPerPage} {driver : XhciController}

theorem Drives.next (h : Drives ring s driver) : ∃ taken driver',
    nextEvent s.entries driver = (.ok taken, driver') ∧ (taken = none → s.consumed = s.produced) ∧
      Drives ring { s with
        consumer := driver'.eventConsumer
        consumed := s.consumed ++ taken.toList } driver' := by
  obtain ⟨trb, hentry, -⟩ := h.tracks.entry
  rw [h.consumer] at hentry
  obtain ⟨entry, driver', hcall, hconsume, hmoved⟩ := nextEvent_consumes s.entries hentry
  rw [← h.consumer] at hconsume
  have hnone : entry.map RingEntry.trb = none → s.consumed = s.produced := by
    intro hnone
    rcases h.tracks.consume_cases with ⟨trb, htaken, -⟩ | ⟨-, hall⟩
    · rw [Except.ok.inj (congrArg Prod.fst (hconsume.symm.trans htaken))] at hnone
      cases hnone
    · exact hall
  refine ⟨_, driver', hcall, hnone, ?_⟩
  have htracks := h.tracks.took hconsume
  rcases hmoved with rfl | rfl
  · exact ⟨htracks, rfl, h.base, h.register⟩
  · obtain ⟨hbase, herdp⟩ := @advance_register driver
    refine ⟨htracks, rfl, hbase.trans h.base, ?_⟩
    rw [herdp, h.base, Nat.or_assoc, Nat.or_self]

theorem Drives.step
    (h : Drives ring p.1 p.2) (hstep : DriverStep p p') : Drives ring p'.1 p'.2 := by
  cases hstep with
  | produce hspace => exact { h with tracks := h.tracks.produce hspace }
  | nextEvent hcall =>
    obtain ⟨taken, driver', hnext, -, hdrives⟩ := h.next
    cases hnext.symm.trans hcall
    exact hdrives

theorem drives_run (hrun : Relation.ReflTransGen DriverStep
      (.new (by decide) (.replicate trbsPerPage .zero), initial ring) p) :
    Drives ring p.1 p.2 := by
  induction hrun with
  | refl => exact ⟨EventExchange.tracks_new (by simp [Trb.zero, Trb.cycle]), rfl, rfl, rfl⟩
  | tail _ hstep ih => exact ih.step hstep

/-- However the controller's writes and the calls of `next_event` mix, the kernel has taken the
first of the events, each once and in order. The register says how many, counted around the ring;
a call returns, and it finds nothing only when all events have been taken. -/
theorem driver_exact (hrun : Relation.ReflTransGen DriverStep
      (.new (by decide) (.replicate trbsPerPage .zero), initial ring) (s, driver)) :
    s.consumed <+: s.produced ∧
      driver.erdp ||| 8 = (ring + s.consumed.length % trbsPerPage * 16) ||| 8 ∧
      ∃ taken driver', nextEvent s.entries driver = (.ok taken, driver') ∧
        (taken = none → s.consumed = s.produced) := by
  have h := drives_run hrun
  obtain ⟨taken, driver', hcall, hall, -⟩ := h.next
  have hindex := h.tracks.reader.index_eq
  rw [h.consumer] at hindex
  exact ⟨h.tracks.taken, hindex ▸ h.register, taken, driver', hcall, hall⟩

/-- One event is in the ring. -/
theorem driver_exact_single :
    let s := (EventExchange.new (by decide) (.replicate trbsPerPage .zero)).produce
      (Trb.command .portStatusChangeEvent)
    s.consumed <+: s.produced ∧ ∃ taken driver, nextEvent s.entries (initial 4096) =
      (.ok taken, driver) ∧ (taken = none → s.consumed = s.produced) := by
  obtain ⟨htaken, -, hcall⟩ := @driver_exact 4096 _ _ (.single (.produce (by decide)))
  exact ⟨htaken, hcall⟩

end XhciController

end NexOs.Usb
