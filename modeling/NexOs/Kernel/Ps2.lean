import NexOs.Lib.SlotQueue

/-! The queues through which the interrupt handlers of keyboard and mouse pass bytes to the
monitor. One handler puts bytes in while the monitor takes them out, and the loads and stores of
the two interleave in any order. -/
namespace NexOs.Kernel.Ps2
open List hiding Vector
open SlotQueue

abbrev queueCapacity : Nat := 256

abbrev Position := Fin queueCapacity

def next (position : Position) : Position :=
  ⟨(position + 1) % queueCapacity, Nat.mod_lt _ (by decide)⟩

structure ScancodeQueue where
  bytes : Vector UInt8 queueCapacity
  head : Position
  tail : Position

namespace ScancodeQueue

def new : ScancodeQueue := ⟨Vector.replicate queueCapacity 0, 0, 0⟩

def enqueue (byte : UInt8) (queue : ScancodeQueue) : ScancodeQueue :=
  let tail := queue.tail
  let next := next tail
  if next = queue.head then queue
  else { queue with bytes := queue.bytes.set tail byte, tail := next }

def dequeue (queue : ScancodeQueue) : Option UInt8 × ScancodeQueue :=
  let head := queue.head
  if head = queue.tail then (none, queue)
  else (some queue.bytes[head], { queue with head := next head })

end ScancodeQueue

/-! ## Single loads and stores -/

/-- How far a call of `enqueue` is, with what it has loaded. -/
inductive Producer where
  | idle
  | loaded (byte : UInt8) (tail : Position)
  | tested (byte : UInt8) (tail : Position)
  | written (byte : UInt8) (tail : Position)
deriving DecidableEq

/-- How far a call of `dequeue` is, with what it has loaded. -/
inductive Consumer where
  | idle
  | loaded (head : Position)
  | tested (head : Position)
  | read (head : Position) (byte : UInt8)
deriving DecidableEq

def Producer.writes : Producer → Option Position
  | .tested _ tail => some tail
  | .idle | .loaded _ _ | .written _ _ => none

def Consumer.reads : Consumer → Option Position
  | .tested head | .read head _ => some head
  | .idle | .loaded _ => none

/-- The queue between the two, with what has happened: the bytes that passed the test of
`enqueue`, those whose slot has been published, and those that `dequeue` has returned. -/
structure Exchange where
  queue : ScancodeQueue
  producer : Producer
  consumer : Consumer
  accepted : List UInt8
  published : List UInt8
  dequeued : List UInt8

namespace Exchange

def new : Exchange where
  queue := .new
  producer := .idle
  consumer := .idle
  accepted := []
  published := []
  dequeued := []

/-- The next load or store of `enqueue`. Between two calls the handler is called with a byte. -/
def produce (byte : UInt8) (s : Exchange) : Exchange :=
  match s.producer with
  | .idle => { s with producer := .loaded byte s.queue.tail }
  | .loaded byte tail =>
    if next tail = s.queue.head then { s with producer := .idle }
    else { s with producer := .tested byte tail, accepted := s.accepted ++ [byte] }
  | .tested byte tail =>
    { s with
      producer := .written byte tail
      queue := { s.queue with bytes := s.queue.bytes.set tail byte } }
  | .written byte tail =>
    { s with
      producer := .idle
      queue := { s.queue with tail := next tail }
      published := s.published ++ [byte] }

def consume (s : Exchange) : Exchange :=
  match s.consumer with
  | .idle => { s with consumer := .loaded s.queue.head }
  | .loaded head =>
    if head = s.queue.tail then { s with consumer := .idle }
    else { s with consumer := .tested head }
  | .tested head => { s with consumer := .read head s.queue.bytes[head] }
  | .read head byte =>
    { s with
      consumer := .idle
      queue := { s.queue with head := next head }
      dequeued := s.dequeued ++ [byte] }

inductive Turn where
  | producer (byte : UInt8)
  | consumer

def step (s : Exchange) : Turn → Exchange
  | .producer byte => s.produce byte
  | .consumer => s.consume

def run (turns : List Turn) : Exchange := turns.foldl step new

theorem produce_eq_enqueue (byte : UInt8) (s : Exchange) (hidle : s.producer = .idle) :
    let turns := replicate (if next s.queue.tail = s.queue.head then 2 else 4)
      (Turn.producer byte)
    (turns.foldl step s).queue = s.queue.enqueue byte ∧ (turns.foldl step s).producer = .idle := by
  rcases s with ⟨queue, producer, consumer, accepted, published, dequeued⟩
  cases hidle
  by_cases hfull : next queue.tail = queue.head
  · simp [step, produce, ScancodeQueue.enqueue, hfull]
  · simp [step, produce, ScancodeQueue.enqueue, hfull]

theorem consume_eq_dequeue (s : Exchange) (hidle : s.consumer = .idle) :
    let turns := replicate (if s.queue.head = s.queue.tail then 2 else 4) Turn.consumer
    (turns.foldl step s).queue = s.queue.dequeue.2 ∧
      (turns.foldl step s).dequeued = s.dequeued ++ s.queue.dequeue.1.toList ∧
      (turns.foldl step s).consumer = .idle := by
  rcases s with ⟨queue, producer, consumer, accepted, published, dequeued⟩
  cases hidle
  by_cases hempty : queue.head = queue.tail
  · simp [step, consume, ScancodeQueue.dequeue, hempty]
  · simp [step, consume, ScancodeQueue.dequeue, hempty]

end Exchange

/-! ## What holds at every moment -/

/-- What a producer has loaded is still true: only the consumer moves on meanwhile. -/
def Producer.Fits (s : Exchange) : Producer → Prop
  | .idle => s.accepted = s.published
  | .loaded _ tail => s.accepted = s.published ∧ tail = s.queue.tail
  | .tested byte tail =>
    s.accepted = s.published ++ [byte] ∧ tail = s.queue.tail ∧
      s.published.length + 1 < s.dequeued.length + queueCapacity
  | .written byte tail =>
    (s.accepted = s.published ++ [byte] ∧ tail = s.queue.tail ∧
      s.published.length + 1 < s.dequeued.length + queueCapacity) ∧
      s.queue.bytes[tail] = byte

/-- What a consumer has loaded is still true: only the producer moves on meanwhile. -/
def Consumer.Fits (s : Exchange) : Consumer → Prop
  | .idle => True
  | .loaded head => head = s.queue.head
  | .tested head => head = s.queue.head ∧ s.dequeued.length < s.published.length
  | .read head byte => head = s.queue.head ∧ s.published[s.dequeued.length]? = some byte

namespace Exchange

structure Sound (s : Exchange) : Prop where
  holds : Holds s.queue.bytes s.published s.dequeued.length
  head : (s.queue.head : Nat) = s.dequeued.length % queueCapacity
  tail : (s.queue.tail : Nat) = s.published.length % queueCapacity
  taken : s.dequeued <+: s.published
  producer : s.producer.Fits s
  consumer : s.consumer.Fits s

theorem sound_new : Sound new where
  holds := holds_nil (by decide)
  head := rfl
  tail := rfl
  taken := nil_prefix
  producer := rfl
  consumer := trivial

theorem next_val {position : Position} (h : (position : Nat) = k % queueCapacity) :
    (next position : Nat) = (k + 1) % queueCapacity := by
  simp only [next, h, Nat.mod_add_mod]

variable {s : Exchange} {tail : Position}

theorem Sound.next_eq_head_iff (h : Sound s) : next s.queue.tail = s.queue.head ↔
    s.published.length + 1 = s.dequeued.length + queueCapacity := by
  rw [← h.holds.succ_mod_eq_iff, Fin.ext_iff, next_val h.tail, h.head]

theorem Sound.head_eq_tail_iff (h : Sound s) :
    s.queue.head = s.queue.tail ↔ s.dequeued.length = s.published.length := by
  rw [← h.holds.mod_eq_iff, Fin.ext_iff, h.head, h.tail]

theorem Consumer.Fits.publish {consumer : Consumer} (h : consumer.Fits s) (phase : Producer)
    (byte : UInt8) : consumer.Fits { s with
        producer := phase
        queue := { s.queue with tail := tail }
        published := s.published ++ [byte] } := by
  cases consumer with
  | idle => trivial
  | loaded head => exact h
  | tested head =>
    refine ⟨h.1, Nat.lt_of_lt_of_le h.2 ?_⟩
    simp
  | read head byte =>
    have hlt := (List.getElem?_eq_some_iff.mp h.2).1
    exact ⟨h.1, (getElem?_append_left hlt).trans h.2⟩

theorem Producer.Fits.release {producer : Producer} (h : producer.Fits s) (phase : Consumer)
    (head : Position) (byte : UInt8) :
    producer.Fits
      { s with
        consumer := phase
        queue := { s.queue with head := head }
        dequeued := s.dequeued ++ [byte] } := by
  have hmore (n : Nat) (hroom : n < s.dequeued.length + queueCapacity) :
      n < (s.dequeued ++ [byte]).length + queueCapacity := by
    rw [length_append]
    omega
  cases producer with
  | idle => exact h
  | loaded _ tail => exact h
  | tested _ tail => exact ⟨h.1, h.2.1, hmore _ h.2.2⟩
  | written _ tail => exact ⟨⟨h.1.1, h.1.2.1, hmore _ h.1.2.2⟩, h.2⟩

theorem Sound.produce (h : Sound s) (byte : UInt8) : Sound (s.produce byte) := by
  have hproducer := h.producer
  rw [Exchange.produce]
  cases hphase : s.producer with
  | idle =>
    rw [hphase] at hproducer
    exact { h with producer := ⟨hproducer, rfl⟩ }
  | loaded byte tail =>
    rw [hphase] at hproducer
    obtain ⟨haccepted, rfl⟩ := hproducer
    dsimp only
    split
    · exact { h with producer := haccepted }
    · rename_i hroom
      rw [h.next_eq_head_iff] at hroom
      have hlt : s.published.length + 1 < s.dequeued.length + queueCapacity :=
        Nat.lt_of_le_of_ne h.holds.room hroom
      exact { h with producer := ⟨congrArg (· ++ [byte]) haccepted, rfl, hlt⟩ }
  | tested byte tail =>
    rw [hphase] at hproducer
    obtain ⟨haccepted, rfl, hroom⟩ := hproducer
    exact
      { h with
        holds := h.holds.set h.tail s.queue.tail.isLt
        producer := ⟨⟨haccepted, rfl, hroom⟩, Vector.getElem_set_self _⟩
        consumer := h.consumer }
  | written byte tail =>
    rw [hphase] at hproducer
    obtain ⟨⟨haccepted, rfl, hroom⟩, hbyte⟩ := hproducer
    have hcell : s.queue.bytes[s.published.length % queueCapacity]? = some byte := by
      rw [← h.tail, ← hbyte]
      exact Vector.getElem?_eq_getElem s.queue.tail.isLt
    exact
      { holds := h.holds.push hcell hroom
        head := h.head
        tail := by
          rw [length_append]
          exact next_val h.tail
        taken := h.taken.trans (prefix_append _ _)
        producer := haccepted
        consumer := Consumer.Fits.publish h.consumer _ byte }

theorem Sound.consume (h : Sound s) : Sound s.consume := by
  have hconsumer := h.consumer
  rw [Exchange.consume]
  cases hphase : s.consumer with
  | idle => exact { h with consumer := rfl }
  | loaded head =>
    rw [hphase] at hconsumer
    obtain rfl := hconsumer
    dsimp only
    split
    · exact { h with consumer := trivial }
    · rename_i hsome
      rw [h.head_eq_tail_iff] at hsome
      exact { h with consumer := ⟨rfl, Nat.lt_of_le_of_ne h.holds.behind hsome⟩ }
  | tested head =>
    rw [hphase] at hconsumer
    obtain ⟨rfl, hsome⟩ := hconsumer
    have hcell := h.holds.entry _ _ (getElem?_eq_getElem hsome) (Nat.le_refl _)
    simp only [← h.head] at hcell
    have hbyte : s.queue.bytes[s.queue.head] = s.published[s.dequeued.length] :=
      Option.some.inj (Vector.getElem?_eq_getElem s.queue.head.isLt ▸ hcell)
    have hread : s.published[s.dequeued.length]? = some s.queue.bytes[s.queue.head] :=
      hbyte ▸ getElem?_eq_getElem hsome
    exact { h with consumer := ⟨rfl, hread⟩ }
  | read head byte =>
    rw [hphase] at hconsumer
    obtain ⟨rfl, hread⟩ := hconsumer
    have hsome : s.dequeued.length < s.published.length :=
      (List.getElem?_eq_some_iff.mp hread).1
    have hlength : (s.dequeued ++ [byte]).length = s.dequeued.length + 1 := length_append
    exact
      { holds := hlength ▸ h.holds.pop hsome
        head := by
          rw [hlength]
          exact next_val h.head
        tail := h.tail
        taken := CycleRing.concat_isPrefix h.taken hread
        producer := Producer.Fits.release h.producer _ _ byte
        consumer := trivial }

theorem Sound.step (h : Sound s) (turn : Turn) : Sound (s.step turn) := by
  cases turn with
  | producer byte => exact h.produce byte
  | consumer => exact h.consume

theorem sound_run (turns : List Turn) : Sound (run turns) :=
  foldlRecOn turns step sound_new fun _ h turn _ => h.step turn

section
variable (h : Sound s)
include h

theorem Sound.accepted_eq {byte : UInt8} (hphase : s.producer = .loaded byte tail) :
    s.accepted = s.published ∧ tail = s.queue.tail := by
  have hproducer := h.producer
  rwa [hphase] at hproducer

theorem Sound.dequeued_isPrefix : s.dequeued <+: s.accepted := by
  have hproducer := h.producer
  cases hphase : s.producer with
  | idle =>
    rw [hphase] at hproducer
    exact hproducer ▸ h.taken
  | loaded byte tail =>
    rw [hphase] at hproducer
    exact hproducer.1 ▸ h.taken
  | tested byte tail =>
    rw [hphase] at hproducer
    exact hproducer.1 ▸ h.taken.trans (prefix_append _ _)
  | written byte tail =>
    rw [hphase] at hproducer
    exact hproducer.1.1 ▸ h.taken.trans (prefix_append _ _)

theorem Sound.full_of_drop {byte : UInt8} {byte' : UInt8}
    (hphase : s.producer = .loaded byte tail) (hdrop : (s.produce byte').producer = .idle) :
    s.accepted.length = s.dequeued.length + 255 := by
  obtain ⟨haccepted, rfl⟩ := h.accepted_eq hphase
  have hfull : next s.queue.tail = s.queue.head := by
    by_contra hroom
    simp [Exchange.produce, hphase, hroom] at hdrop
  rw [h.next_eq_head_iff] at hfull
  rw [haccepted]
  exact Nat.succ.inj hfull

theorem Sound.empty_of_none {head : Position}
    (hphase : s.consumer = .loaded head) (hnone : s.consume.consumer = .idle) :
    s.queue.head = s.queue.tail ∧ s.dequeued = s.published := by
  have hconsumer := h.consumer
  rw [hphase] at hconsumer
  obtain rfl := hconsumer
  have hempty : s.queue.head = s.queue.tail := by
    by_contra hsome
    simp [Exchange.consume, hphase, hsome] at hnone
  exact ⟨hempty, h.taken.eq_of_length (h.head_eq_tail_iff.mp hempty)⟩

theorem Sound.slot_ne {slot : Position} (hwrites : s.producer.writes = some slot) :
    s.consumer.reads ≠ some slot := by
  intro hreads
  have htail : slot = s.queue.tail := by
    have hproducer := h.producer
    cases hphase : s.producer with
    | tested byte tail =>
      rw [hphase] at hproducer hwrites
      cases hwrites
      exact hproducer.2.1
    | idle | loaded | written =>
      rw [hphase] at hwrites
      cases hwrites
  have hhead : slot = s.queue.head ∧ s.dequeued.length < s.published.length := by
    have hconsumer := h.consumer
    cases hphase : s.consumer with
    | tested head =>
      rw [hphase] at hconsumer hreads
      cases hreads
      exact hconsumer
    | read head byte =>
      rw [hphase] at hconsumer hreads
      cases hreads
      exact ⟨hconsumer.1, (List.getElem?_eq_some_iff.mp hconsumer.2).1⟩
    | idle | loaded =>
      rw [hphase] at hreads
      cases hreads
  have heq : s.queue.head = s.queue.tail := hhead.1.symm.trans htail
  exact hhead.2.ne (h.head_eq_tail_iff.mp heq)

end

/-- The queue loses no accepted byte, drops one only when it is full, and the two sides never
work on one slot. -/
theorem queue_lossless (turns : List Turn) :
    let s := run turns
    s.dequeued <+: s.accepted ∧
    (∀ byte byte' tail, s.producer = .loaded byte tail → (s.produce byte').producer = .idle →
      s.accepted.length = s.dequeued.length + 255) ∧
    (∀ head, s.consumer = .loaded head → s.consume.consumer = .idle →
      s.queue.head = s.queue.tail ∧ s.dequeued = s.published) ∧
    (∀ slot, s.producer.writes = some slot → s.consumer.reads ≠ some slot) := by
  intro s
  have h : Sound s := sound_run turns
  exact ⟨h.dequeued_isPrefix, fun _ _ _ => h.full_of_drop, fun _ => h.empty_of_none,
    fun _ => h.slot_ne⟩

/-- A handler that is called with byte after byte fills the queue while the monitor looks at it
only at the start. -/
theorem queue_lossless_full : let s := run (.consumer :: replicate 1021 (.producer 7))
    s.dequeued <+: s.accepted ∧ s.accepted.length = s.dequeued.length + 255 := by
  have h := queue_lossless (.consumer :: replicate 1021 (.producer 7))
  have hloaded : (run (.consumer :: replicate 1021 (.producer 7))).producer =
      .loaded 7 255 := by decide +kernel
  have hdrop : ((run (.consumer :: replicate 1021 (.producer 7))).produce 7).producer =
      .idle := by decide +kernel
  exact ⟨h.1, h.2.1 7 7 255 hloaded hdrop⟩

end Exchange

end NexOs.Kernel.Ps2
