import Vmars.BoundedQueue
import Vmars.SpscRbInterleaving

/-!
# The ring is a bounded queue

The calls of both threads overlap, and each looks at a cached copy of the other's position
first.  Still every call behaves as if it took effect at one moment between its beginning and
its end: a claim when it reads the head, or the tail where the cached head is enough; a poll
when it reads the tail, or the head; publish and release at their stores.

* `System.observe`: what is decided in a step of an interleaving;
* `ring_linearizable`: **in every interleaving the ring is a bounded queue**.
-/

namespace Vmars

open CMemory ByteRing BoundedQueue

/-! ## What is decided in a step -/

/-- The room of a record in the ring. -/
def recordSize (payload : List UInt8) : Nat := payload.length + sizeofRbRecord

/-- The room that the producer has claimed. -/
def Producer.reserved : Producer → Option Nat
  | .idle => none
  | .loadHead _ _ => none
  | .writeLength _ length _ => some (length + sizeofRbRecord)
  | .writePayload _ slots => some (slots.length + sizeofRbRecord)
  | .readLength _ _ _ payload => some (recordSize payload)
  | .storeTail _ payload => some (recordSize payload)

namespace System

/-- What is decided in a step: whether a claim finds room, whether a poll finds a record, and
the records that are published and released. -/
def observe (s : System) : Action → List (QueueEvent (List UInt8))
  | .claim length =>
      match s.producer with
      | .idle =>
          match claimTest s.rb.capacity length s.rb.tailPosition s.rb.headCachePosition with
          | .invalid => [.refuse (length + sizeofRbRecord)]
          | .loadHead => []
          | .granted => [.reserve (length + sizeofRbRecord)]
      | _ => []
  | .producer =>
      match s.producer with
      | .loadHead length tail =>
          if claimFits s.rb.capacity length tail s.rb.headPosition then
            [.reserve (length + sizeofRbRecord)]
          else [.refuse (length + sizeofRbRecord)]
      | .storeTail _ payload => [.push payload]
      | _ => []
  | .poll =>
      match s.consumer with
      | .idle =>
          if hasRecord s.rb.tailCachePosition s.rb.headPosition then [.hold] else []
      | _ => []
  | .consumer =>
      match s.consumer with
      | .loadTail head => if hasRecord s.rb.tailPosition head then [.hold] else [.empty]
      | .storeHead _ _ payload => [.pop payload]
      | _ => []
  | _ => []

/-- What is decided in the steps of an interleaving. -/
def observed (s : System) : List Action → List (QueueEvent (List UInt8))
  | [] => []
  | action :: actions => s.observe action ++ (s.step action).observed actions

/-- The ring as a queue: the records that are published and not released. -/
def queue (s : System) : Queue (List UInt8) where
  items := s.published.drop s.released.length
  reserved := s.producer.reserved
  held := s.consumer.polled.isSome

end System

/-! ## A step of the ring is a step of the queue -/

/-- The load of the queue is the length of its encoded records. -/
theorem load_eq (q : Queue (List UInt8)) : q.load recordSize = (encodeRecords q.items).length := by
  unfold Queue.load
  induction q.items with
  | nil => rfl
  | cons payload records ih =>
      rw [List.map_cons, List.sum_cons, ih, encodeRecords_cons, List.length_append,
        recordBytes_length]
      rfl

/-- A step that decides what the queue decides. -/
def System.Decides (s : System) (action : Action) : Prop :=
  s.queue.run recordSize s.rb.capacity (s.observe action) = some (s.step action).queue

/-- Nothing is decided, and the queue is as before. -/
theorem System.decides_nothing {s : System} {action : Action} (hnone : s.observe action = [])
    (hsame : (s.step action).queue = s.queue) : s.Decides action := by
  rw [Decides, hnone, hsame, Queue.run_nil]

/-- One thing is decided. -/
theorem System.decides_event {s : System} {action : Action} {event : QueueEvent (List UInt8)}
    (hevent : s.observe action = [event])
    (hstep : s.queue.step recordSize s.rb.capacity event = some (s.step action).queue) :
    s.Decides action := by
  rw [Decides, hevent, Queue.run_singleton, hstep]

namespace System.Inv

variable {s : System} {records : List (List UInt8)}

/-- The items of the queue are the records of the ring. -/
theorem items (h : s.Inv records) : s.queue.items = records := by
  show s.published.drop s.released.length = records
  rw [h.queue, List.drop_left]

theorem load (h : s.Inv records) : s.queue.load recordSize = (encodeRecords records).length := by
  rw [load_eq, h.items]

/-- What the fast test of a claim refuses would fit into no ring. -/
theorem claimTest_invalid {capacity length : Nat} {tail headCache : Int}
    (h : claimTest capacity length tail headCache = .invalid) : capacity < length := by
  unfold claimTest at h
  split at h
  · next hlength => exact hlength
  · split at h
    · cases h
    · cases h

/-- A claim decides at once where the cached head grants it the room, and else has to load the
head. -/
theorem decides_claim (h : s.Inv records) (length : Nat) : s.Decides (.claim length) := by
  cases hproducer : s.producer with
  | idle =>
      have hring := h.ring
      rw [hproducer, Producer.pending] at hring
      have hreserved : s.queue.reserved = none := by rw [System.queue, hproducer, Producer.reserved]
      cases htest : claimTest s.rb.capacity length s.rb.tailPosition s.rb.headCachePosition with
      | invalid =>
          have hlong := claimTest_invalid htest
          apply @decides_event _ _ (.refuse (length + sizeofRbRecord))
          · simp only [System.observe, hproducer, htest]
          · have hfull : ¬ s.queue.load recordSize + (length + sizeofRbRecord) ≤ s.rb.capacity := by
              omega
            rw [Queue.step, if_pos ⟨hreserved, hfull⟩]
            simp only [System.step, System.claim, hproducer, htest]
      | loadHead =>
          apply decides_nothing
          · simp only [System.observe, hproducer, htest]
          · simp only [System.step, System.claim, hproducer, htest, System.queue, Producer.reserved]
      | granted =>
          have hfits := (hring.reserve htest).2.length_le
          rw [List.length_replicate, ← h.load] at hfits
          apply @decides_event _ _ (.reserve (length + sizeofRbRecord))
          · simp only [System.observe, hproducer, htest]
          · rw [Queue.step, if_pos ⟨hreserved, hfits⟩]
            simp only [System.step, System.claim, hproducer, htest, System.queue, Producer.reserved]
  | _ =>
      apply decides_nothing
      · simp only [System.observe, hproducer]
      · simp only [System.step, System.claim, hproducer]

/-- Writing the bytes of a record decides nothing. -/
theorem decides_write (s : System) (j : Nat) (b : UInt8) : s.Decides (.write j b) := by
  apply decides_nothing rfl
  show (s.write j b).queue = s.queue
  unfold System.write
  split
  · next record slots hproducer =>
    split
    · simp only [System.queue, hproducer, Producer.reserved, List.length_set]
    · rfl
  · rfl

/-- A publish decides nothing before it stores the tail. -/
theorem decides_publish (h : s.Inv records) : s.Decides .publish := by
  apply decides_nothing rfl
  show s.publish.queue = s.queue
  unfold System.publish
  split
  · next record slots hproducer =>
    have hrecord : record = tailIndex s.rb.capacity s.rb.tailPosition := by
      have hinv := h.producer
      rwa [hproducer] at hinv
    split
    · rfl
    · next payload hknown =>
      dsimp only
      rw [if_neg (not_not_intro hrecord)]
      simp only [System.queue, hproducer, Producer.reserved, allKnown_eq_some hknown,
        List.length_map, recordSize]
  · rfl

/-- **The producer** decides with its load of the head and its store of the tail. -/
theorem decides_producer (h : s.Inv records) : s.Decides .producer := by
  have hring := h.ring
  have hinv := h.producer
  cases hproducer : s.producer with
  | idle =>
      apply decides_nothing
      · simp only [System.observe, hproducer]
      · simp only [System.step, System.stepProducer, hproducer]
  | loadHead length tail =>
      rw [hproducer] at hring hinv
      obtain ⟨rfl, hlength⟩ := hinv
      have hreserved : s.queue.reserved = none := by rw [System.queue, hproducer, Producer.reserved]
      have hiff := hring.claimFits_iff hlength
      rw [← h.load] at hiff
      by_cases hfits : claimFits s.rb.capacity length s.rb.tailPosition s.rb.headPosition = true
      · apply @decides_event _ _ (.reserve (length + sizeofRbRecord))
        · simp only [System.observe, hproducer, hfits, if_true]
        · rw [Queue.step, if_pos ⟨hreserved, hiff.mp hfits⟩]
          simp only [System.step, System.stepProducer, hproducer, hfits, if_true, System.queue,
            Producer.reserved]
      · apply @decides_event _ _ (.refuse (length + sizeofRbRecord))
        · simp only [System.observe, hproducer, hfits, Bool.false_eq_true, if_false]
        · rw [Queue.step, if_pos ⟨hreserved, fun hroom => hfits (hiff.mpr hroom)⟩]
          simp only [System.step, System.stepProducer, hproducer, hfits, Bool.false_eq_true,
            if_false, System.queue, Producer.reserved]
  | writeLength record length done =>
      apply decides_nothing
      · simp only [System.observe, hproducer]
      · simp only [System.step, System.stepProducer, hproducer, System.queue]
        split
        · rfl
        · simp only [Producer.reserved, List.length_replicate]
  | writePayload record slots =>
      apply decides_nothing
      · simp only [System.observe, hproducer]
      · simp only [System.step, System.stepProducer, hproducer]
  | readLength record tail bytes payload =>
      apply decides_nothing
      · simp only [System.observe, hproducer]
      · simp only [System.step, System.stepProducer, hproducer, System.queue]
        split
        · rfl
        · rfl
  | storeTail newTail payload =>
      apply @decides_event _ _ (.push payload)
      · simp only [System.observe, hproducer]
      · have hreserved : s.queue.reserved = some (recordSize payload) := by
          rw [System.queue, hproducer, Producer.reserved]
        rw [Queue.step, if_pos hreserved]
        have hle : s.released.length ≤ s.published.length := by
          rw [h.queue, List.length_append]
          exact Nat.le_add_right _ _
        simp only [System.step, System.stepProducer, hproducer, System.queue, Producer.reserved,
          List.drop_append_of_le_length hle]

/-- A poll decides at once where the cached tail shows a record, and else has to load the
tail. -/
theorem decides_poll (h : s.Inv records) : s.Decides .poll := by
  cases hconsumer : s.consumer with
  | idle =>
      have hheld : s.queue.held = false := by rw [System.queue, hconsumer]; rfl
      by_cases hcached : hasRecord s.rb.tailCachePosition s.rb.headPosition = true
      · have hne : s.queue.items ≠ [] := by
          rw [h.items]
          exact h.ring.ne_nil_of_polled hcached
        apply @decides_event _ _ .hold
        · simp only [System.observe, hconsumer, hcached, if_true]
        · rw [Queue.step, if_pos ⟨hheld, hne⟩]
          simp only [System.step, System.poll, hconsumer, hcached, if_true, System.queue]
          rfl
      · apply decides_nothing
        · simp only [System.observe, hconsumer, hcached, Bool.false_eq_true, if_false]
        · simp only [System.step, System.poll, hconsumer, hcached, Bool.false_eq_true, if_false,
            System.queue]
          rfl
  | _ =>
      apply decides_nothing
      · simp only [System.observe, hconsumer]
      · simp only [System.step, System.poll, hconsumer]

/-- Reading the bytes of a record decides nothing. -/
theorem decides_read (s : System) (j : Nat) : s.Decides (.read j) := by
  apply decides_nothing rfl
  show (s.read j).queue = s.queue
  unfold System.read
  split
  · next record slots hconsumer =>
    split
    · simp only [System.queue, hconsumer, Consumer.polled]
    · rfl
  · rfl

/-- A record that is released was polled, so it is not refused. -/
theorem decides_release (h : s.Inv records) : s.Decides .release := by
  apply decides_nothing rfl
  show s.release.queue = s.queue
  unfold System.release
  split
  · next record slots hconsumer =>
    obtain ⟨payload, hpolled, -⟩ : ∃ payload, Polled s.rb records record payload ∧
        Agrees slots payload := by
      have hinv := h.consumer
      rwa [hconsumer] at hinv
    split
    · rfl
    · dsimp only
      rw [if_neg (not_not_intro hpolled.record_eq)]
      simp only [System.queue, hconsumer, Consumer.polled, Option.isSome_some]
  · rfl

/-- **The consumer** decides with its load of the tail and its store of the head. -/
theorem decides_consumer (h : s.Inv records) : s.Decides .consumer := by
  have hinv := h.consumer
  cases hconsumer : s.consumer with
  | idle =>
      apply decides_nothing
      · simp only [System.observe, hconsumer]
      · simp only [System.step, System.stepConsumer, hconsumer]
  | loadTail head =>
      rw [hconsumer] at hinv
      obtain rfl : head = s.rb.headPosition := hinv
      have hheld : s.queue.held = false := by rw [System.queue, hconsumer]; rfl
      have hiff := h.ring.hasRecord_iff
      rw [← h.items] at hiff
      by_cases hthere : hasRecord s.rb.tailPosition s.rb.headPosition = true
      · apply @decides_event _ _ .hold
        · simp only [System.observe, hconsumer, hthere, if_true]
        · rw [Queue.step, if_pos ⟨hheld, hiff.mp hthere⟩]
          simp only [System.step, System.stepConsumer, hconsumer, hthere, if_true, System.queue]
          rfl
      · have hempty : s.queue.items = [] := by
          apply Decidable.of_not_not
          exact fun hne => hthere (hiff.mpr hne)
        apply @decides_event _ _ .empty
        · simp only [System.observe, hconsumer, hthere, Bool.false_eq_true, if_false]
        · rw [Queue.step, if_pos ⟨hheld, hempty⟩]
          simp only [System.step, System.stepConsumer, hconsumer, hthere, Bool.false_eq_true,
            if_false, System.queue]
          rfl
  | readLength record bytes =>
      apply decides_nothing
      · simp only [System.observe, hconsumer]
      · simp only [System.step, System.stepConsumer, hconsumer, System.queue]
        split
        · rfl
        · rfl
  | readPayload record slots =>
      apply decides_nothing
      · simp only [System.observe, hconsumer]
      · simp only [System.step, System.stepConsumer, hconsumer]
  | releaseLength record head bytes payload =>
      apply decides_nothing
      · simp only [System.observe, hconsumer]
      · simp only [System.step, System.stepConsumer, hconsumer, System.queue]
        split
        · rfl
        · rfl
  | storeHead record newHead payload =>
      rw [hconsumer] at hinv
      obtain ⟨hpolled, -⟩ := hinv
      obtain ⟨rest, rfl⟩ := hpolled.oldest
      have hheld : s.queue.held = true := by rw [System.queue, hconsumer]; rfl
      have holdest : s.queue.items.head? = some payload := by
        rw [h.items]
        rfl
      apply @decides_event _ _ (.pop payload)
      · simp only [System.observe, hconsumer]
      · rw [Queue.step, if_pos ⟨hheld, holdest⟩]
        simp only [System.step, System.stepConsumer, hconsumer, System.queue, List.tail_drop,
          List.length_append, List.length_singleton]
        rfl

/-- **A step of the ring is a step of the queue.** -/
theorem decides (h : s.Inv records) (action : Action) : s.Decides action := by
  cases action with
  | claim length => exact h.decides_claim length
  | write j b => exact decides_write s j b
  | publish => exact h.decides_publish
  | producer => exact h.decides_producer
  | poll => exact h.decides_poll
  | read j => exact decides_read s j
  | release => exact h.decides_release
  | consumer => exact h.decides_consumer

end System.Inv

/-! ## Interleavings -/

/-- The ring keeps its capacity. -/
theorem System.step_capacity (s : System) (action : Action) :
    (s.step action).rb.capacity = s.rb.capacity := by
  cases action <;>
    simp only [step, claim, write, publish, stepProducer, poll, read, release, stepConsumer,
      SpscRb.store] <;>
    repeat' split
  all_goals rfl

/-- From a state that keeps the invariant, an interleaving is a run of the queue. -/
theorem System.Inv.linearizable {s : System} {records : List (List UInt8)} (h : s.Inv records)
    (actions : List Action) :
    s.queue.run recordSize s.rb.capacity (s.observed actions) = some (s.run actions).queue := by
  induction actions generalizing s records with
  | nil => rfl
  | cons action actions ih =>
      obtain ⟨records', hnext⟩ := h.step action
      have hrest := ih hnext
      rw [s.step_capacity] at hrest
      rw [System.observed, Queue.run_append _ _ (h.decides action), System.run_cons, hrest]

/-- **The ring is a bounded queue**, in every interleaving of its two threads.  Every claim
takes or refuses room as the queue of the records that are published and not released has it at
that moment, every poll finds a record exactly when there is one, and publish and release put
the records in and take them out in order; each decision falls between the first and the last
access of its call. -/
theorem ring_linearizable (k : Nat) (hk : k ≤ 30) (actions : List Action) :
    Queue.init.run recordSize (2 ^ k) ((System.initial (2 ^ k)).observed actions) =
      some ((System.initial (2 ^ k)).run actions).queue :=
  (System.Inv.initial ⟨k, hk, rfl⟩).linearizable actions

example : (System.initial 8).observed twoRecords =
    [.reserve 5, .push [7], .hold, .pop [7], .reserve 5, .push [9], .hold] := by
  decide +kernel

/-- The run of two records in a ring of eight bytes. -/
theorem ring_linearizable_twoRecords :
    Queue.init.run recordSize (2 ^ 3) ((System.initial (2 ^ 3)).observed twoRecords) =
      some ((System.initial (2 ^ 3)).run twoRecords).queue :=
  ring_linearizable 3 (by decide) twoRecords

end Vmars
