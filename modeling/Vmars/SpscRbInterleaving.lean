import Vmars.SpscRb

/-!
# Interleavings of the two parties of the ring buffer

The producer repeats claim, write the payload bytes, publish; the consumer
repeats poll, read the record, release.  A step of `System` is one access to a
shared position or to one byte of the buffer, with the private arithmetic around
it; any list of actions is an interleaving, and an action that its party cannot
take leaves the system unchanged.  The payload bytes are written and read in any
order and any number of times.

`published` and `released` record what the parties did: the producer adds the
payload it wrote when it stores the tail, the consumer adds the payload it read
when it stores the head.  **`released_prefix`** is the guarantee of the ring over
every interleaving.
-/

namespace Vmars

open CMemory ByteRing

/-- Where the producer stands. -/
inductive Producer where
  | idle
  /-- In claim, before the load of `head_position`. -/
  | loadHead (length : Nat) (tail : Int)
  /-- In claim, with `done` bytes of the length written. -/
  | writeLength (record length done : Nat)
  /-- Between claim and publish; a slot is known once it is written. -/
  | writePayload (record : Nat) (slots : List (Option UInt8))
  /-- In publish, with some bytes of the length read. -/
  | readLength (record : Nat) (tail : Int) (bytes payload : List UInt8)
  /-- In publish, before the store of `tail_position`. -/
  | storeTail (newTail : Int) (payload : List UInt8)

/-- Where the consumer stands. -/
inductive Consumer where
  | idle
  /-- In poll, before the load of `tail_position`. -/
  | loadTail (head : Int)
  /-- Behind poll, with some bytes of the length read. -/
  | readLength (record : Nat) (bytes : List UInt8)
  /-- Between poll and release; a slot is known once it is read. -/
  | readPayload (record : Nat) (slots : List (Option UInt8))
  /-- In release, with some bytes of the length read. -/
  | releaseLength (record : Nat) (head : Int) (bytes payload : List UInt8)
  /-- In release, before the store of `head_position`. -/
  | storeHead (record : Nat) (newHead : Int) (payload : List UInt8)

/-- The record that the consumer has polled and not released. -/
def Consumer.polled : Consumer → Option Nat
  | .idle => none
  | .loadTail _ => none
  | .readLength record _ => some record
  | .readPayload record _ => some record
  | .releaseLength record _ _ _ => some record
  | .storeHead record _ _ => some record

/-- The ring, both parties and what they did so far. -/
structure System where
  rb : SpscRb
  producer : Producer
  consumer : Consumer
  published : List (List UInt8)
  released : List (List UInt8)

/-- The next access: a call of an operation with its first access, an access of
the payload, or the next access inside the current operation. -/
inductive Action where
  | claim (length : Nat)
  | write (j : Nat) (b : UInt8)
  | publish
  | producer
  | poll
  | read (j : Nat)
  | release
  | consumer
  deriving DecidableEq, Repr

namespace System

/-! ## Steps of the producer -/

/-- `vmars_spsc_rb_claim` up to its first branch: reads `tail_position`. -/
def claim (s : System) (length : Nat) : System :=
  match s.producer with
  | .idle =>
      let tail := s.rb.tailPosition
      match claimTest s.rb.capacity length tail s.rb.headCachePosition with
      | .invalid => s
      | .loadHead => { s with producer := .loadHead length tail }
      | .granted => { s with producer := .writeLength (tailIndex s.rb.capacity tail) length 0 }
  | _ => s

/-- A store of the producer into the claimed payload. -/
def write (s : System) (j : Nat) (b : UInt8) : System :=
  match s.producer with
  | .writePayload record slots =>
      if j < slots.length then
        { s with
          rb := s.rb.store (record + (sizeofRbRecord + j)) b
          producer := .writePayload record (slots.set j (some b)) }
      else s
  | _ => s

/-- `vmars_spsc_rb_publish` of a completely written record, up to the comparison
of the record with the tail: reads `tail_position`. -/
def publish (s : System) : System :=
  match s.producer with
  | .writePayload record slots =>
      match allKnown slots with
      | none => s
      | some payload =>
          let tail := s.rb.tailPosition
          if record ≠ tailIndex s.rb.capacity tail then { s with producer := .idle }
          else { s with producer := .readLength record tail [] payload }
  | _ => s

/-- The next access of the producer inside claim or publish. -/
def stepProducer (s : System) : System :=
  match s.producer with
  | .loadHead length tail =>
      let head := s.rb.headPosition
      if claimFits s.rb.capacity length tail head then
        { s with
          rb := { s.rb with headCachePosition := head }
          producer := .writeLength (tailIndex s.rb.capacity tail) length 0 }
      else { s with producer := .idle }
  | .writeLength record length done =>
      { s with
        rb := s.rb.store (record + done) ((lengthBytes length).getD done 0)
        producer :=
          if done + 1 < sizeofRbRecord then .writeLength record length (done + 1)
          else .writePayload record (List.replicate length none) }
  | .readLength record tail bytes payload =>
      let bytes := bytes ++ [s.rb.load (record + bytes.length)]
      { s with
        producer :=
          if bytes.length < sizeofRbRecord then .readLength record tail bytes payload
          else .storeTail (advance tail (lengthOf bytes)) payload }
  | .storeTail newTail payload =>
      { s with
        rb := { s.rb with tailPosition := newTail }
        producer := .idle
        published := s.published ++ [payload] }
  | _ => s

/-! ## Steps of the consumer -/

/-- `vmars_spsc_rb_poll` up to its first branch: reads `head_position`. -/
def poll (s : System) : System :=
  match s.consumer with
  | .idle =>
      let head := s.rb.headPosition
      if hasRecord s.rb.tailCachePosition head then
        { s with consumer := .readLength (headIndex s.rb.capacity head) [] }
      else { s with consumer := .loadTail head }
  | _ => s

/-- A read of the consumer from the polled payload. -/
def read (s : System) (j : Nat) : System :=
  match s.consumer with
  | .readPayload record slots =>
      if j < slots.length then
        { s with
          consumer := .readPayload record
            (slots.set j (some (s.rb.load (record + (sizeofRbRecord + j))))) }
      else s
  | _ => s

/-- `vmars_spsc_rb_release` of a completely read record, up to the comparison of
the record with the head: reads `head_position`. -/
def release (s : System) : System :=
  match s.consumer with
  | .readPayload record slots =>
      match allKnown slots with
      | none => s
      | some payload =>
          let head := s.rb.headPosition
          if record ≠ headIndex s.rb.capacity head then { s with consumer := .idle }
          else { s with consumer := .releaseLength record head [] payload }
  | _ => s

/-- The next access of the consumer inside poll, inside release or to the length
of the polled record. -/
def stepConsumer (s : System) : System :=
  match s.consumer with
  | .loadTail head =>
      let tail := s.rb.tailPosition
      if hasRecord tail head then
        { s with
          rb := { s.rb with tailCachePosition := tail }
          consumer := .readLength (headIndex s.rb.capacity head) [] }
      else { s with consumer := .idle }
  | .readLength record bytes =>
      let bytes := bytes ++ [s.rb.load (record + bytes.length)]
      { s with
        consumer :=
          if bytes.length < sizeofRbRecord then .readLength record bytes
          else .readPayload record (List.replicate (lengthOf bytes).toNat none) }
  | .releaseLength record head bytes payload =>
      let bytes := bytes ++ [s.rb.load (record + bytes.length)]
      { s with
        consumer :=
          if bytes.length < sizeofRbRecord then .releaseLength record head bytes payload
          else .storeHead record (advance head (lengthOf bytes)) payload }
  | .storeHead _ newHead payload =>
      { s with
        rb := { s.rb with headPosition := newHead }
        consumer := .idle
        released := s.released ++ [payload] }
  | _ => s

/-! ## Runs -/

/-- One step of the system. -/
def step (s : System) : Action → System
  | .claim length => s.claim length
  | .write j b => s.write j b
  | .publish => s.publish
  | .producer => s.stepProducer
  | .poll => s.poll
  | .read j => s.read j
  | .release => s.release
  | .consumer => s.stepConsumer

/-- The state after the steps of an interleaving. -/
def run (s : System) (actions : List Action) : System := actions.foldl step s

/-- Both parties idle on a new ring, whose file and descriptor are zero. -/
def initial (capacity : Nat) : System where
  rb := { capacity, buffer := fun _ => 0, tailCachePosition := 0, tailPosition := 0
          headCachePosition := 0, headPosition := 0 }
  producer := .idle
  consumer := .idle
  published := []
  released := []

end System

/-! ## The operations as uninterrupted runs -/

namespace System

theorem run_cons (s : System) (action : Action) (actions : List Action) :
    s.run (action :: actions) = (s.step action).run actions := rfl

theorem run_append (s : System) (xs ys : List Action) : s.run (xs ++ ys) = (s.run xs).run ys :=
  List.foldl_append

/-- Four stores of the producer write the length. -/
theorem run_writeLength {s : System} {record length : Nat}
    (h : s.producer = .writeLength record length 0) :
    s.run (List.replicate 4 .producer) =
      { s with
        rb := s.rb.storeBytes record (lengthBytes length)
        producer := .writePayload record (List.replicate length none) } := by
  obtain ⟨rb, producer, consumer, published, released⟩ := s
  cases h
  rfl

/-- Undisturbed, the steps of claim are `vmarsSpscRbClaim`. -/
theorem run_claim {s : System} (h : s.producer = .idle) (length : Nat) :
    s.run (.claim length :: List.replicate 5 .producer) =
      { s with
        rb := (vmarsSpscRbClaim s.rb length).1
        producer :=
          match (vmarsSpscRbClaim s.rb length).2 with
          | none => .idle
          | some record => .writePayload record (List.replicate length none) } := by
  obtain ⟨rb, producer, consumer, published, released⟩ := s
  cases h
  rw [run_cons, step, claim, vmarsSpscRbClaim]
  dsimp only
  cases claimTest rb.capacity length rb.tailPosition rb.headCachePosition with
  | invalid => rfl
  | granted =>
      rw [show List.replicate 5 Action.producer = List.replicate 4 .producer ++ [.producer] from rfl,
        run_append, run_writeLength rfl]
      rfl
  | loadHead =>
      rw [show List.replicate 5 Action.producer = .producer :: List.replicate 4 .producer from rfl,
        run_cons, step, stepProducer]
      dsimp only
      cases claimFits rb.capacity length rb.tailPosition rb.headPosition with
      | false => rfl
      | true =>
          rw [if_pos rfl, run_writeLength rfl]
          rfl

/-- Undisturbed, the steps of publish are `vmarsSpscRbPublish`. -/
theorem run_publish {s : System} {record : Nat} {slots : List (Option UInt8)}
    {payload : List UInt8} (h : s.producer = .writePayload record slots)
    (hknown : allKnown slots = some payload) :
    s.run (.publish :: List.replicate 5 .producer) =
      { s with
        rb := (vmarsSpscRbPublish s.rb record).1
        producer := .idle
        published :=
          if (vmarsSpscRbPublish s.rb record).2 = 0 then s.published ++ [payload]
          else s.published } := by
  obtain ⟨rb, producer, consumer, published, released⟩ := s
  cases h
  rw [run_cons, step, publish, vmarsSpscRbPublish]
  simp only [hknown]
  by_cases hrecord : record = tailIndex rb.capacity rb.tailPosition
  · simp only [if_neg (not_not_intro hrecord), if_true]
    rfl
  · simp only [if_pos hrecord]
    rfl

/-- Undisturbed, the steps of poll are `vmarsSpscRbPoll`. -/
theorem run_poll {s : System} (h : s.consumer = .idle) :
    s.run (.poll :: List.replicate
        (if hasRecord s.rb.tailCachePosition s.rb.headPosition then 0 else 1) .consumer) =
      { s with
        rb := (vmarsSpscRbPoll s.rb).1
        consumer :=
          match (vmarsSpscRbPoll s.rb).2 with
          | none => .idle
          | some record => .readLength record [] } := by
  obtain ⟨rb, producer, consumer, published, released⟩ := s
  cases h
  rw [run_cons, step, poll, vmarsSpscRbPoll]
  dsimp only
  cases hasRecord rb.tailCachePosition rb.headPosition with
  | true => rfl
  | false =>
      simp only [Bool.false_eq_true, if_false]
      rw [List.replicate_one, run_cons, step, stepConsumer]
      dsimp only
      cases hasRecord rb.tailPosition rb.headPosition with
      | true => rfl
      | false => rfl

/-- Undisturbed, the steps of release are `vmarsSpscRbRelease`. -/
theorem run_release {s : System} {record : Nat} {slots : List (Option UInt8)}
    {payload : List UInt8} (h : s.consumer = .readPayload record slots)
    (hknown : allKnown slots = some payload) :
    s.run (.release :: List.replicate 5 .consumer) =
      { s with
        rb := (vmarsSpscRbRelease s.rb record).1
        consumer := .idle
        released :=
          if (vmarsSpscRbRelease s.rb record).2 = 0 then s.released ++ [payload]
          else s.released } := by
  obtain ⟨rb, producer, consumer, published, released⟩ := s
  cases h
  rw [run_cons, step, release, vmarsSpscRbRelease]
  simp only [hknown]
  by_cases hrecord : record = headIndex rb.capacity rb.headPosition
  · simp only [if_neg (not_not_intro hrecord), if_true]
    rfl
  · simp only [if_pos hrecord]
    rfl

end System

/-! ## The invariant of the system -/

/-- The claimed record, as far as the producer has written it. -/
def Producer.pending : Producer → List (Option UInt8)
  | .idle => []
  | .loadHead _ _ => []
  | .writeLength _ length done =>
      ((lengthBytes length).take done).map some ++ List.replicate (4 - done + length) none
  | .writePayload _ slots => (lengthBytes slots.length).map some ++ slots
  | .readLength _ _ _ payload => (recordBytes payload).map some
  | .storeTail _ payload => (recordBytes payload).map some

/-- What the producer keeps in its local variables. -/
def Producer.Inv (rb : SpscRb) : Producer → Prop
  | .idle => True
  | .loadHead length tail => tail = rb.tailPosition ∧ length ≤ rb.capacity
  | .writeLength record _ done => record = tailIndex rb.capacity rb.tailPosition ∧ done < 4
  | .writePayload record _ => record = tailIndex rb.capacity rb.tailPosition
  | .readLength record tail bytes payload =>
      record = tailIndex rb.capacity rb.tailPosition ∧ tail = rb.tailPosition ∧
        bytes <+: lengthBytes payload.length ∧ bytes.length < 4
  | .storeTail newTail payload => newTail = advance rb.tailPosition payload.length

/-- The consumer has polled the oldest record. -/
structure Polled (rb : SpscRb) (records : List (List UInt8)) (record : Nat)
    (payload : List UInt8) : Prop where
  record_eq : record = headIndex rb.capacity rb.headPosition
  cached : hasRecord rb.tailCachePosition rb.headPosition = true
  oldest : [payload] <+: records

/-- What the consumer keeps in its local variables: whatever it has read of the
polled record is what was published. -/
def Consumer.Inv (rb : SpscRb) (records : List (List UInt8)) : Consumer → Prop
  | .idle => True
  | .loadTail head => head = rb.headPosition
  | .readLength record bytes =>
      ∃ payload, Polled rb records record payload ∧ bytes <+: lengthBytes payload.length ∧
        bytes.length < 4
  | .readPayload record slots => ∃ payload, Polled rb records record payload ∧ Agrees slots payload
  | .releaseLength record head bytes payload =>
      Polled rb records record payload ∧ head = rb.headPosition ∧
        bytes <+: lengthBytes payload.length ∧ bytes.length < 4
  | .storeHead record newHead payload =>
      Polled rb records record payload ∧ newHead = advance rb.headPosition payload.length

/-- **The invariant of the system**: the ring carries what is published and not
released, and the record in progress. -/
structure System.Inv (s : System) (records : List (List UInt8)) : Prop where
  queue : s.published = s.released ++ records
  ring : s.rb.Inv (encodeRecords s.released).length records s.producer.pending
  producer : s.producer.Inv s.rb
  consumer : s.consumer.Inv s.rb records

/-! ### What a party may assume about the other -/

/-- The producer changes neither the head nor the cached tail. -/
theorem Consumer.Inv.frame {rb rb' : SpscRb} {records records' : List (List UInt8)}
    {consumer : Consumer} (h : consumer.Inv rb records) (hcapacity : rb'.capacity = rb.capacity)
    (hhead : rb'.headPosition = rb.headPosition)
    (hcache : rb'.tailCachePosition = rb.tailCachePosition) (hrecords : records <+: records') :
    consumer.Inv rb' records' := by
  have hpolled : ∀ {record payload}, Polled rb records record payload →
      Polled rb' records' record payload := by
    intro record payload hp
    exact ⟨by rw [hp.record_eq, hcapacity, hhead], by rw [hcache, hhead]; exact hp.cached,
      hp.oldest.trans hrecords⟩
  cases consumer with
  | idle => trivial
  | loadTail head => exact h.trans hhead.symm
  | readLength record bytes =>
      obtain ⟨payload, hp, hbytes⟩ := h
      exact ⟨payload, hpolled hp, hbytes⟩
  | readPayload record slots =>
      obtain ⟨payload, hp, hslots⟩ := h
      exact ⟨payload, hpolled hp, hslots⟩
  | releaseLength record head bytes payload =>
      obtain ⟨hp, heq, hbytes⟩ := h
      exact ⟨hpolled hp, heq.trans hhead.symm, hbytes⟩
  | storeHead record newHead payload =>
      obtain ⟨hp, heq⟩ := h
      exact ⟨hpolled hp, by rw [heq, hhead]⟩

/-- The consumer changes neither the tail nor the capacity. -/
theorem Producer.Inv.frame {rb rb' : SpscRb} {producer : Producer} (h : producer.Inv rb)
    (hcapacity : rb'.capacity = rb.capacity) (htail : rb'.tailPosition = rb.tailPosition) :
    producer.Inv rb' := by
  cases producer with
  | idle => trivial
  | _ => simpa only [Producer.Inv, hcapacity, htail] using h

/-- A further byte of the length, read where the record begins. -/
theorem isPrefix_concat {bytes all : List UInt8} {b : UInt8} (h : bytes <+: all)
    (hb : all[bytes.length]? = some b) : bytes ++ [b] <+: all := by
  obtain ⟨rest, rfl⟩ := h
  rw [List.getElem?_append_right (Nat.le_refl _), Nat.sub_self] at hb
  cases rest with
  | nil => cases hb
  | cons c rest =>
      obtain rfl : c = b := by simpa using hb
      exact ⟨rest, by simp⟩

/-- All four bytes of the length of a record that fits the ring. -/
theorem lengthOf_of_isPrefix {bytes : List UInt8} {length : Nat} (h : bytes <+: lengthBytes length)
    (hfull : ¬ bytes.length < sizeofRbRecord) (hle : length ≤ intMax) :
    lengthOf bytes = length := by
  have hlen := h.length_le
  rw [lengthBytes_length] at hlen
  unfold sizeofRbRecord at hfull
  rw [h.eq_of_length (by rw [lengthBytes_length]; omega), lengthOf_lengthBytes hle]

/-! ### The steps keep the invariant -/

namespace System.Inv

variable {s : System} {records : List (List UInt8)}

/-- A claim that the fast test decides. -/
theorem claim (h : s.Inv records) (length : Nat) : (s.claim length).Inv records := by
  unfold System.claim
  split
  case h_2 => exact h
  next hproducer =>
  have hring := h.ring
  rw [hproducer, Producer.pending] at hring
  dsimp only
  split
  · exact h
  · next htest =>
    refine { h with ring := hring, producer := ⟨rfl, ?_⟩ }
    unfold claimTest at htest
    split at htest
    · cases htest
    · next hlength => exact Nat.le_of_not_gt hlength
  · next htest =>
    refine { h with ring := ?_, producer := ⟨rfl, by decide⟩ }
    have := (hring.reserve htest).2
    rwa [Nat.add_comm] at this

/-- A store into the payload. -/
theorem write (h : s.Inv records) (j : Nat) (b : UInt8) : (s.write j b).Inv records := by
  unfold System.write
  split
  case h_2 => exact h
  next record slots hproducer =>
  split
  case isFalse => exact h
  next hj =>
  have hrecord : record = tailIndex s.rb.capacity s.rb.tailPosition := by
    have := h.producer
    rwa [hproducer] at this
  have hring := h.ring
  rw [hproducer, Producer.pending] at hring
  refine { queue := h.queue, ring := ?_, producer := hrecord,
           consumer := h.consumer.frame rfl rfl rfl (List.prefix_refl _) }
  have hstore := hring.store (j := sizeofRbRecord + j) (by simp [sizeofRbRecord]; omega) b
  rw [List.set_append_right _ _ (by simp [sizeofRbRecord]), List.length_map, lengthBytes_length,
    sizeofRbRecord, Nat.add_sub_cancel_left, ← hrecord] at hstore
  simp only [Producer.pending, List.length_set]
  exact hstore

/-- The record handed to publish is the claimed one, so it is not refused. -/
theorem publish (h : s.Inv records) : s.publish.Inv records := by
  unfold System.publish
  split
  case h_2 => exact h
  next record slots hproducer =>
  split
  · exact h
  next payload hknown =>
  have hrecord : record = tailIndex s.rb.capacity s.rb.tailPosition := by
    have := h.producer
    rwa [hproducer] at this
  have hring := h.ring
  rw [hproducer, Producer.pending, allKnown_eq_some hknown, List.length_map,
    ← List.map_append] at hring
  dsimp only
  rw [if_neg (not_not_intro hrecord)]
  exact { h with ring := hring, producer := ⟨hrecord, rfl, List.nil_prefix, by decide⟩ }

/-- An access of the producer inside claim or publish.  The store of the tail
publishes the record. -/
theorem stepProducer (h : s.Inv records) : ∃ records', s.stepProducer.Inv records' := by
  unfold System.stepProducer
  split
  case h_5 => exact ⟨records, h⟩
  · next length tail hproducer =>
    obtain ⟨rfl, hlength⟩ : tail = s.rb.tailPosition ∧ length ≤ s.rb.capacity := by
      have := h.producer
      rwa [hproducer] at this
    have hring := h.ring
    rw [hproducer, Producer.pending] at hring
    refine ⟨records, ?_⟩
    dsimp only
    split
    · next hfits =>
      refine { queue := h.queue, ring := ?_, producer := ⟨rfl, by decide⟩,
               consumer := h.consumer.frame rfl rfl rfl (List.prefix_refl _) }
      have := hring.reserve_loaded ((hring.claimFits_iff hlength).mp hfits)
      rwa [Nat.add_comm] at this
    · exact { h with ring := hring, producer := trivial }
  · next record length done hproducer =>
    obtain ⟨hrecord, hdone⟩ : record = tailIndex s.rb.capacity s.rb.tailPosition ∧ done < 4 := by
      have := h.producer
      rwa [hproducer] at this
    have hring := h.ring
    rw [hproducer, Producer.pending] at hring
    refine ⟨records, { queue := h.queue, ring := ?_, producer := ?_,
                       consumer := h.consumer.frame rfl rfl rfl (List.prefix_refl _) }⟩
    · -- one more byte of the length is known
      have hstore := hring.store (j := done) (by simp; omega) ((lengthBytes length).getD done 0)
      have hknown : ((lengthBytes length).take done).length = done := by simp; omega
      have hbyte : (lengthBytes length).take done ++ [(lengthBytes length).getD done 0] =
          (lengthBytes length).take (done + 1) := by
        rw [List.take_add_one, List.getD_eq_getElem?_getD,
          List.getElem?_eq_getElem (by simpa using hdone)]
        rfl
      have hset := set_first_unknown ((lengthBytes length).take done) (3 - done + length)
        ((lengthBytes length).getD done 0)
      rw [hknown, hbyte, show 3 - done + length + 1 = 4 - done + length by omega] at hset
      rw [hset, ← hrecord] at hstore
      split
      · rwa [Producer.pending, show 4 - (done + 1) = 3 - done by omega]
      · next hlast =>
        obtain rfl : done = 3 := by unfold sizeofRbRecord at hlast; omega
        rw [List.take_of_length_le (by simp), Nat.sub_self, Nat.zero_add] at hstore
        rwa [Producer.pending, List.length_replicate]
    · split
      · next hmore => exact ⟨hrecord, hmore⟩
      · exact hrecord
  · next record tail bytes payload hproducer =>
    obtain ⟨hrecord, rfl, hbytes, hlt⟩ : record = tailIndex s.rb.capacity s.rb.tailPosition ∧
        tail = s.rb.tailPosition ∧ bytes <+: lengthBytes payload.length ∧ bytes.length < 4 := by
      have := h.producer
      rwa [hproducer] at this
    have hring := h.ring
    rw [hproducer, Producer.pending] at hring
    have hmax := hring.capacity.range.2
    have hle := hring.length_le
    rw [List.length_map, recordBytes_length] at hle
    -- the byte that is read is the one that claim wrote
    have hbyte : (lengthBytes payload.length)[bytes.length]? =
        some (s.rb.load (record + bytes.length)) := by
      have hin : bytes.length < (lengthBytes payload.length).length := by simpa using hlt
      rw [List.getElem?_eq_getElem hin, hrecord, hring.load_pending]
      rw [List.getElem?_map, recordBytes, List.getElem?_append_left hin,
        List.getElem?_eq_getElem hin]
      rfl
    have hbytes' := isPrefix_concat hbytes hbyte
    refine ⟨records, ?_⟩
    dsimp only
    split
    · next hmore => exact { h with ring := hring, producer := ⟨hrecord, rfl, hbytes', hmore⟩ }
    · next hfull =>
      refine { h with ring := hring, producer := ?_ }
      rw [lengthOf_of_isPrefix hbytes' hfull (by unfold intMax; omega)]
      rfl
  · next newTail payload hproducer =>
    obtain rfl : newTail = advance s.rb.tailPosition payload.length := by
      have := h.producer
      rwa [hproducer] at this
    have hring := h.ring
    rw [hproducer, Producer.pending] at hring
    refine ⟨records ++ [payload],
      { queue := ?_, ring := hring.publish, producer := trivial,
        consumer := h.consumer.frame rfl rfl rfl (List.prefix_append _ _) }⟩
    show s.published ++ [payload] = s.released ++ (records ++ [payload])
    rw [← List.append_assoc, ← h.queue]

/-- What the ring knows about a polled record. -/
theorem polled (h : s.Inv records) {record : Nat} {payload : List UInt8}
    (hp : Polled s.rb records record payload) :
    payload.length ≤ intMax ∧ ∀ j b, (recordBytes payload)[j]? = some b →
      s.rb.load (record + j) = b := by
  obtain ⟨rest, rfl⟩ := hp.oldest
  have hmax := h.ring.capacity.range.2
  have hle := h.ring.length_le
  simp only [List.singleton_append, encodeRecords_cons, List.length_append,
    recordBytes_length] at hle
  refine ⟨by unfold intMax; omega, fun j b hb => ?_⟩
  rw [hp.record_eq]
  exact h.ring.load_record hb

/-- The next byte of the length of a polled record. -/
theorem polled_length (h : s.Inv records) {record : Nat} {bytes payload : List UInt8}
    (hp : Polled s.rb records record payload) (hbytes : bytes <+: lengthBytes payload.length)
    (hlt : bytes.length < 4) :
    bytes ++ [s.rb.load (record + bytes.length)] <+: lengthBytes payload.length := by
  refine isPrefix_concat hbytes ?_
  have hin : bytes.length < (lengthBytes payload.length).length := by simpa using hlt
  rw [List.getElem?_eq_getElem hin, (h.polled hp).2]
  rw [recordBytes, List.getElem?_append_left hin, List.getElem?_eq_getElem hin]

/-- A poll that finds the cached tail ahead takes the oldest record. -/
theorem poll (h : s.Inv records) : s.poll.Inv records := by
  unfold System.poll
  split
  case h_2 => exact h
  dsimp only
  split
  · next hcached =>
    refine { h with consumer := ?_ }
    obtain ⟨payload, rest, rfl⟩ := List.exists_cons_of_ne_nil (h.ring.ne_nil_of_polled hcached)
    exact ⟨payload, ⟨rfl, hcached, ⟨rest, rfl⟩⟩, List.nil_prefix, by decide⟩
  · exact { h with consumer := rfl }

/-- A read of the payload finds what was published. -/
theorem read (h : s.Inv records) (j : Nat) : (s.read j).Inv records := by
  unfold System.read
  split
  case h_2 => exact h
  next record slots hconsumer =>
  split
  case isFalse => exact h
  next hj =>
  obtain ⟨payload, hp, hslots⟩ : ∃ payload, Polled s.rb records record payload ∧
      Agrees slots payload := by
    have := h.consumer
    rwa [hconsumer] at this
  have hlt : j < payload.length := hslots.length_eq ▸ hj
  refine { h with consumer := ⟨payload, hp, hslots.set ?_⟩ }
  rw [List.getElem?_eq_getElem hlt, (h.polled hp).2]
  rw [recordBytes, List.getElem?_append_right (by simp [sizeofRbRecord])]
  simp [sizeofRbRecord, List.getElem?_eq_getElem hlt]

/-- The record handed to release is the polled one, so it is not refused. -/
theorem release (h : s.Inv records) : s.release.Inv records := by
  unfold System.release
  split
  case h_2 => exact h
  next record slots hconsumer =>
  split
  · exact h
  next known hknown =>
  obtain ⟨payload, hp, hslots⟩ : ∃ payload, Polled s.rb records record payload ∧
      Agrees slots payload := by
    have := h.consumer
    rwa [hconsumer] at this
  obtain rfl := hslots.eq_of_allKnown hknown
  dsimp only
  rw [if_neg (not_not_intro hp.record_eq)]
  exact { h with consumer := ⟨hp, rfl, List.nil_prefix, by decide⟩ }

/-- An access of the consumer inside poll, inside release or to the length.  The
store of the head releases the oldest record, with the payload that was read. -/
theorem stepConsumer (h : s.Inv records) : ∃ records', s.stepConsumer.Inv records' := by
  unfold System.stepConsumer
  split
  case h_5 => exact ⟨records, h⟩
  · next head hconsumer =>
    obtain rfl : head = s.rb.headPosition := by
      have := h.consumer
      rwa [hconsumer] at this
    refine ⟨records, ?_⟩
    dsimp only
    split
    · next hhas =>
      obtain ⟨payload, rest, rfl⟩ := List.exists_cons_of_ne_nil (h.ring.hasRecord_iff.mp hhas)
      exact { queue := h.queue, ring := h.ring.cacheTail, producer := h.producer.frame rfl rfl,
              consumer := ⟨payload, ⟨rfl, hhas, ⟨rest, rfl⟩⟩, List.nil_prefix, by decide⟩ }
    · exact { h with consumer := trivial }
  · next record bytes hconsumer =>
    obtain ⟨payload, hp, hbytes, hlt⟩ : ∃ payload, Polled s.rb records record payload ∧
        bytes <+: lengthBytes payload.length ∧ bytes.length < 4 := by
      have := h.consumer
      rwa [hconsumer] at this
    have hbytes' := h.polled_length hp hbytes hlt
    refine ⟨records, ?_⟩
    dsimp only
    split
    · next hmore => exact { h with consumer := ⟨payload, hp, hbytes', hmore⟩ }
    · next hfull =>
      refine { h with consumer := ⟨payload, hp, ?_⟩ }
      rw [lengthOf_of_isPrefix hbytes' hfull (h.polled hp).1, Int.toNat_natCast]
      exact agrees_replicate_none payload
  · next record head bytes payload hconsumer =>
    obtain ⟨hp, rfl, hbytes, hlt⟩ : Polled s.rb records record payload ∧
        head = s.rb.headPosition ∧ bytes <+: lengthBytes payload.length ∧ bytes.length < 4 := by
      have := h.consumer
      rwa [hconsumer] at this
    have hbytes' := h.polled_length hp hbytes hlt
    refine ⟨records, ?_⟩
    dsimp only
    split
    · next hmore => exact { h with consumer := ⟨hp, rfl, hbytes', hmore⟩ }
    · next hfull =>
      refine { h with consumer := ⟨hp, ?_⟩ }
      rw [lengthOf_of_isPrefix hbytes' hfull (h.polled hp).1]
  · next record newHead payload hconsumer =>
    obtain ⟨hp, rfl⟩ : Polled s.rb records record payload ∧
        newHead = advance s.rb.headPosition payload.length := by
      have := h.consumer
      rwa [hconsumer] at this
    obtain ⟨rest, rfl⟩ := hp.oldest
    refine ⟨rest,
      { queue := ?_, ring := ?_, producer := h.producer.frame rfl rfl, consumer := trivial }⟩
    · show s.published = s.released ++ [payload] ++ rest
      rw [h.queue, List.append_assoc]
    · have := h.ring.release hp.cached
      simpa using this

/-- A new ring carries nothing. -/
theorem initial {capacity : Nat} (h : IsRingCapacity capacity) :
    (System.initial capacity).Inv [] := by
  have hzero : (0 : Int) = wrap64 (0 : Nat) := by decide
  exact
    { queue := rfl
      ring :=
        { capacity := h
          headPosition := hzero
          tailPosition := hzero
          headCache := ⟨0, Nat.le_refl _, hzero, Nat.zero_le _⟩
          tailCache := ⟨0, Nat.le_refl _, hzero⟩
          holds := holds_nil }
      producer := trivial
      consumer := trivial }

/-- Every step keeps the invariant. -/
theorem step (h : s.Inv records) (action : Action) : ∃ records', (s.step action).Inv records' := by
  cases action with
  | claim length => exact ⟨records, h.claim length⟩
  | write j b => exact ⟨records, h.write j b⟩
  | publish => exact ⟨records, h.publish⟩
  | producer => exact h.stepProducer
  | poll => exact ⟨records, h.poll⟩
  | read j => exact ⟨records, h.read j⟩
  | release => exact ⟨records, h.release⟩
  | consumer => exact h.stepConsumer

/-- Every interleaving keeps the invariant. -/
theorem run (h : s.Inv records) (actions : List Action) :
    ∃ records', (s.run actions).Inv records' := by
  induction actions generalizing s records with
  | nil => exact ⟨records, h⟩
  | cons action actions ih =>
      obtain ⟨records', h'⟩ := h.step action
      exact ih h'

/-- The polled record lies in the ring as it was published. -/
theorem load_polled (h : s.Inv records) {record : Nat} (hp : s.consumer.polled = some record) :
    ∃ payload, s.published[s.released.length]? = some payload ∧
      ∀ j b, (recordBytes payload)[j]? = some b → s.rb.load (record + j) = b := by
  have hpolled : ∃ payload, Polled s.rb records record payload := by
    have hc := h.consumer
    cases hconsumer : s.consumer with
    | idle => simp [hconsumer, Consumer.polled] at hp
    | loadTail head => simp [hconsumer, Consumer.polled] at hp
    | readLength record' bytes =>
        rw [hconsumer] at hp hc
        obtain rfl : record' = record := Option.some.inj hp
        obtain ⟨payload, hp, -⟩ := hc
        exact ⟨payload, hp⟩
    | readPayload record' slots =>
        rw [hconsumer] at hp hc
        obtain rfl : record' = record := Option.some.inj hp
        obtain ⟨payload, hp, -⟩ := hc
        exact ⟨payload, hp⟩
    | releaseLength record' head bytes payload =>
        rw [hconsumer] at hp hc
        obtain rfl : record' = record := Option.some.inj hp
        exact ⟨payload, hc.1⟩
    | storeHead record' newHead payload =>
        rw [hconsumer] at hp hc
        obtain rfl : record' = record := Option.some.inj hp
        exact ⟨payload, hc.1⟩
  obtain ⟨payload, hpolled⟩ := hpolled
  refine ⟨payload, ?_, (h.polled hpolled).2⟩
  obtain ⟨rest, hrest⟩ := hpolled.oldest
  rw [h.queue, ← hrest]
  simp

end System.Inv

/-- **The ring loses, duplicates, reorders and tears nothing.**  After any
interleaving on a ring of `2 ^ k` bytes, the payloads that the consumer has read
and released are a prefix of those that the producer has written and published,
and the record that is polled lies in the ring, length and payload, as it was
published. -/
theorem released_prefix (k : Nat) (hk : k ≤ 30) (actions : List Action) :
    ((System.initial (2 ^ k)).run actions).released <+:
        ((System.initial (2 ^ k)).run actions).published ∧
      ∀ record, ((System.initial (2 ^ k)).run actions).consumer.polled = some record →
        ∃ payload,
          ((System.initial (2 ^ k)).run actions).published[
            ((System.initial (2 ^ k)).run actions).released.length]? = some payload ∧
          ∀ j b, (recordBytes payload)[j]? = some b →
            ((System.initial (2 ^ k)).run actions).rb.load (record + j) = b := by
  obtain ⟨records, h⟩ := (System.Inv.initial ⟨k, hk, rfl⟩).run actions
  exact ⟨⟨records, h.queue.symm⟩, fun record hp => h.load_polled hp⟩

/-- On a ring of eight bytes: the record `[7]` is published, polled and released,
then `[9]`, which crosses the end of the ring, is published and polled. -/
def twoRecords : List Action :=
  Action.claim 1 :: List.replicate 4 Action.producer ++ [Action.write 0 7, Action.publish] ++
    List.replicate 5 Action.producer ++ [Action.poll] ++ List.replicate 5 Action.consumer ++
    [Action.read 0, Action.release] ++ List.replicate 5 Action.consumer ++
    Action.claim 1 :: List.replicate 5 Action.producer ++ [Action.write 0 9, Action.publish] ++
    List.replicate 5 Action.producer ++ [Action.poll, Action.consumer]

example : ((System.initial 8).run twoRecords).released = [[7]] ∧
    ((System.initial 8).run twoRecords).published = [[7], [9]] ∧
    ((System.initial 8).run twoRecords).consumer.polled = some 5 := by
  decide +kernel

/-- Two records in a ring of eight bytes. -/
theorem released_prefix_twoRecords :
    ((System.initial (2 ^ 3)).run twoRecords).released <+:
        ((System.initial (2 ^ 3)).run twoRecords).published ∧
      ∀ record, ((System.initial (2 ^ 3)).run twoRecords).consumer.polled = some record →
        ∃ payload,
          ((System.initial (2 ^ 3)).run twoRecords).published[
            ((System.initial (2 ^ 3)).run twoRecords).released.length]? = some payload ∧
          ∀ j b, (recordBytes payload)[j]? = some b →
            ((System.initial (2 ^ 3)).run twoRecords).rb.load (record + j) = b :=
  released_prefix 3 (by decide) twoRecords

end Vmars
