import Vmars.SpscRb

/-!
# Whole records through the ring

The operations of one side, uninterrupted: a record that is claimed, written and
published stands behind the records in the ring, and the oldest record is polled,
read and released.  Every one of them keeps the invariant of the ring, and `claim`
grants what fits behind the true head, whatever the cached one says.
-/

namespace Vmars

open CMemory ByteRing

/-! ## What the calls leave -/

/-- A publication changes the tail only. -/
theorem vmarsSpscRbPublish_frame (rb : SpscRb) (record : Nat) :
    (vmarsSpscRbPublish rb record).1.capacity = rb.capacity ∧
      (vmarsSpscRbPublish rb record).1.tailCachePosition = rb.tailCachePosition ∧
      (vmarsSpscRbPublish rb record).1.headPosition = rb.headPosition := by
  unfold vmarsSpscRbPublish
  split
  · exact ⟨rfl, rfl, rfl⟩
  · exact ⟨rfl, rfl, rfl⟩

/-- A poll changes the cached tail only. -/
theorem vmarsSpscRbPoll_frame (rb : SpscRb) :
    (vmarsSpscRbPoll rb).1.capacity = rb.capacity ∧
      (vmarsSpscRbPoll rb).1.tailPosition = rb.tailPosition ∧
      (vmarsSpscRbPoll rb).1.headPosition = rb.headPosition := by
  unfold vmarsSpscRbPoll
  split
  · exact ⟨rfl, rfl, rfl⟩
  · split
    · exact ⟨rfl, rfl, rfl⟩
    · exact ⟨rfl, rfl, rfl⟩

/-- A release changes the head only. -/
theorem vmarsSpscRbRelease_frame (rb : SpscRb) (record : Nat) :
    (vmarsSpscRbRelease rb record).1.capacity = rb.capacity ∧
      (vmarsSpscRbRelease rb record).1.tailPosition = rb.tailPosition := by
  unfold vmarsSpscRbRelease
  split
  · exact ⟨rfl, rfl⟩
  · exact ⟨rfl, rfl⟩

namespace SpscRb

/-! ## Reading and writing runs of bytes -/

/-- Stores into the buffer do not move the tail. -/
theorem storeBytes_tailPosition (rb : SpscRb) (address : Nat) (bytes : List UInt8) :
    (rb.storeBytes address bytes).tailPosition = rb.tailPosition ∧
      (rb.storeBytes address bytes).capacity = rb.capacity := by
  induction bytes generalizing rb address with
  | nil => exact ⟨rfl, rfl⟩
  | cons b bytes ih => exact ih (rb.store address b) (address + 1)

/-- Bytes that are read one by one are read as a run. -/
theorem loadBytes_eq {rb : SpscRb} {address : Nat} {bytes : List UInt8}
    (h : ∀ j b, bytes[j]? = some b → rb.load (address + j) = b) :
    rb.loadBytes address bytes.length = bytes := by
  apply List.ext_getElem?
  intro j
  rw [loadBytes, List.getElem?_map]
  by_cases hj : j < bytes.length
  · rw [List.getElem?_range hj, Option.map_some, h j bytes[j] (List.getElem?_eq_getElem hj),
      List.getElem?_eq_getElem hj]
  · rw [List.getElem?_eq_none (by simpa using hj), List.getElem?_eq_none (by omega)]
    rfl

/-- A length field in the ring is read as the `int32_t` that was written. -/
theorem lengthOf_loadBytes {rb : SpscRb} {address length : Nat}
    (h : ∀ j b, (lengthBytes length)[j]? = some b → rb.load (address + j) = b) :
    lengthOf (rb.loadBytes address 4) = wrap32 length := by
  have hread := loadBytes_eq h
  rw [lengthBytes_length] at hread
  rw [hread, lengthOf_lengthBytes_wrap]

namespace Inv

variable {rb : SpscRb} {head : Nat} {records : List (List UInt8)} {pending : List (Option UInt8)}
  {payload : List UInt8}

/-! ## The producer -/

/-- The claimed record is filled in order. -/
theorem storeBytes {known bytes : List UInt8} {n : Nat}
    (h : rb.Inv head records (known.map some ++ List.replicate (bytes.length + n) none)) :
    (rb.storeBytes (tailIndex rb.capacity rb.tailPosition + known.length) bytes).Inv head records
      ((known ++ bytes).map some ++ List.replicate n none) := by
  induction bytes generalizing rb known with
  | nil =>
      rw [List.append_nil]
      rwa [List.length_nil, Nat.zero_add] at h
  | cons b bytes ih =>
      have hroom : (b :: bytes).length + n = (bytes.length + n) + 1 := by
        rw [List.length_cons]
        omega
      rw [hroom] at h
      have hstore := h.store (j := known.length) (by simp) b
      rw [set_first_unknown] at hstore
      have hrest := ih hstore
      rw [List.length_append, List.length_singleton, ← Nat.add_assoc, List.append_assoc] at hrest
      exact hrest

/-- `claim` grants what fits behind the true head, and writes the length. -/
theorem claim {length : Nat} (h : rb.Inv head records [])
    (hfits : (encodeRecords records).length + (length + 4) ≤ rb.capacity) :
    ∃ rb', vmarsSpscRbClaim rb length = (rb', some (tailIndex rb.capacity rb.tailPosition)) ∧
      rb'.capacity = rb.capacity ∧ rb'.tailPosition = rb.tailPosition ∧
      rb'.Inv head records ((lengthBytes length).map some ++ List.replicate length none) := by
  have hgranted : ∀ rb₁ : SpscRb, rb₁.capacity = rb.capacity → rb₁.tailPosition = rb.tailPosition →
      rb₁.Inv head records (List.replicate (length + 4) none) →
      ∃ rb', rb₁.claimRecord length = (rb', some (tailIndex rb.capacity rb.tailPosition)) ∧
        rb'.capacity = rb.capacity ∧ rb'.tailPosition = rb.tailPosition ∧
        rb'.Inv head records ((lengthBytes length).map some ++ List.replicate length none) := by
    intro rb₁ hcapacity htail hinv
    have hwritten := @storeBytes rb₁ head records [] (lengthBytes length) length
      (by rwa [lengthBytes_length, Nat.add_comm])
    obtain ⟨htail', hcapacity'⟩ := rb₁.storeBytes_tailPosition
      (tailIndex rb₁.capacity rb₁.tailPosition) (lengthBytes length)
    refine ⟨_, ?_, hcapacity'.trans hcapacity, htail'.trans htail, hwritten⟩
    rw [claimRecord, hcapacity, htail]
  have hlength : length ≤ rb.capacity := by omega
  unfold vmarsSpscRbClaim
  cases htest : claimTest rb.capacity length rb.tailPosition rb.headCachePosition with
  | invalid =>
      unfold claimTest at htest
      rw [if_neg (by omega)] at htest
      split at htest <;> cases htest
  | granted => exact hgranted rb rfl rfl (h.reserve htest).2
  | loadHead =>
      simp only [(h.claimFits_iff hlength).mpr hfits, if_true]
      exact hgranted _ rfl rfl (h.reserve_loaded hfits)

/-- The length of the claimed record is read back. -/
theorem length_claimed (h : rb.Inv head records ((recordBytes payload).map some)) :
    lengthOf (rb.loadBytes (tailIndex rb.capacity rb.tailPosition) 4) = payload.length := by
  have hread : lengthOf (rb.loadBytes (tailIndex rb.capacity rb.tailPosition) 4) =
      wrap32 payload.length := by
    apply lengthOf_loadBytes
    intro j b hj
    apply h.load_pending
    have hlt := (List.getElem?_eq_some_iff.mp hj).1
    rw [List.getElem?_map, recordBytes, List.getElem?_append_left hlt, hj]
    rfl
  have hfits := h.length_le
  have hmax := h.capacity.range.2
  rw [List.length_map, recordBytes_length] at hfits
  rw [hread]
  exact wrap32_of_range (by omega) (by omega)

/-- The record that is published is the one that was written. -/
theorem publish_record (h : rb.Inv head records ((recordBytes payload).map some)) :
    (vmarsSpscRbPublish rb (tailIndex rb.capacity rb.tailPosition)).1.Inv head
      (records ++ [payload]) [] := by
  rw [vmarsSpscRbPublish, if_neg (not_not_intro rfl)]
  simp only [h.length_claimed]
  exact h.publish

/-- **A record with room is published**: claim, write, publish. -/
theorem claim_write_publish (h : rb.Inv head records [])
    (hfits : (encodeRecords records).length + (payload.length + 4) ≤ rb.capacity) :
    ∃ rb' record, vmarsSpscRbClaim rb payload.length = (rb', some record) ∧
      (vmarsSpscRbPublish (rb'.storeBytes (record + sizeofRbRecord) payload) record).1.Inv head
        (records ++ [payload]) [] ∧
      (vmarsSpscRbPublish (rb'.storeBytes (record + sizeofRbRecord) payload) record).1.capacity =
        rb.capacity := by
  obtain ⟨rb', hclaim, hcapacity, htail, hinv⟩ := h.claim hfits
  refine ⟨rb', _, hclaim, ?_, ?_⟩
  · have hwritten := @storeBytes rb' head records (lengthBytes payload.length) payload 0
      (by rwa [Nat.add_zero])
    rw [lengthBytes_length, hcapacity, htail] at hwritten
    obtain ⟨htail', hcapacity'⟩ := rb'.storeBytes_tailPosition
      (tailIndex rb.capacity rb.tailPosition + 4) payload
    rw [List.replicate_zero, List.append_nil] at hwritten
    have hpublish := publish_record hwritten
    rw [htail', hcapacity', hcapacity, htail] at hpublish
    exact hpublish
  · obtain ⟨-, hcapacity'⟩ := rb'.storeBytes_tailPosition
      (tailIndex rb.capacity rb.tailPosition + sizeofRbRecord) payload
    rw [vmarsSpscRbPublish]
    split
    · exact hcapacity'.trans hcapacity
    · exact hcapacity'.trans hcapacity

/-! ## The consumer -/

/-- `poll` finds the oldest record. -/
theorem poll (h : rb.Inv head (payload :: records) pending) :
    ∃ rb', vmarsSpscRbPoll rb = (rb', some (headIndex rb'.capacity rb'.headPosition)) ∧
      rb'.Inv head (payload :: records) pending ∧
      hasRecord rb'.tailCachePosition rb'.headPosition = true := by
  have hthere := h.hasRecord_iff.mpr (List.cons_ne_nil payload records)
  unfold vmarsSpscRbPoll
  by_cases hcached : hasRecord rb.tailCachePosition rb.headPosition = true
  · exact ⟨rb, by simp only [hcached, if_true], h, hcached⟩
  · refine ⟨{ rb with tailCachePosition := rb.tailPosition }, ?_, h.cacheTail, hthere⟩
    simp only [hcached, hthere, if_true, Bool.false_eq_true, if_false]

/-- An empty ring has nothing to poll. -/
theorem poll_empty (h : rb.Inv head [] pending) : vmarsSpscRbPoll rb = (rb, none) := by
  have hcached : ¬ hasRecord rb.tailCachePosition rb.headPosition = true := fun hyes =>
    h.ne_nil_of_polled hyes rfl
  have hthere : ¬ hasRecord rb.tailPosition rb.headPosition = true := fun hyes =>
    h.hasRecord_iff.mp hyes rfl
  simp only [vmarsSpscRbPoll, hcached, hthere, Bool.false_eq_true, if_false]

/-- The polled record is read as it was published. -/
theorem loadBytes_payload (h : rb.Inv head (payload :: records) pending) :
    ∀ pre bytes post, payload = pre ++ bytes ++ post →
      rb.loadBytes (headIndex rb.capacity rb.headPosition + sizeofRbRecord + pre.length)
        bytes.length = bytes := by
  rintro pre bytes post rfl
  apply loadBytes_eq
  intro j b hj
  have hlt := (List.getElem?_eq_some_iff.mp hj).1
  rw [Nat.add_assoc, Nat.add_assoc]
  apply h.load_record
  rw [recordBytes, List.getElem?_append_right (by simp [sizeofRbRecord]), lengthBytes_length,
    sizeofRbRecord, Nat.add_sub_cancel_left, List.append_assoc,
    List.getElem?_append_right (Nat.le_add_right _ _), Nat.add_sub_cancel_left,
    List.getElem?_append_left hlt, hj]

/-- The length of the oldest record is read back. -/
theorem length_record (h : rb.Inv head (payload :: records) pending) :
    lengthOf (rb.loadBytes (headIndex rb.capacity rb.headPosition) 4) = payload.length := by
  have hread : lengthOf (rb.loadBytes (headIndex rb.capacity rb.headPosition) 4) =
      wrap32 payload.length := by
    apply lengthOf_loadBytes
    intro j b hj
    apply h.load_record
    have hlt := (List.getElem?_eq_some_iff.mp hj).1
    rw [recordBytes, List.getElem?_append_left hlt, hj]
  have hfits := h.length_le
  have hmax := h.capacity.range.2
  rw [encodeRecords_cons, List.length_append, recordBytes_length] at hfits
  rw [hread]
  exact wrap32_of_range (by omega) (by omega)

/-- `release` moves the head over the polled record. -/
theorem release_record (h : rb.Inv head (payload :: records) pending)
    (hpolled : hasRecord rb.tailCachePosition rb.headPosition = true) :
    (vmarsSpscRbRelease rb (headIndex rb.capacity rb.headPosition)).1.Inv
      (head + (payload.length + 4)) records pending := by
  rw [vmarsSpscRbRelease, if_neg (not_not_intro rfl)]
  simp only [h.length_record]
  exact h.release hpolled

end Inv

end SpscRb

end Vmars
