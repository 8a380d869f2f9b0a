import Vmars.AddressSpace
import Vmars.SpscRbInit
import Vmars.SpscRbSession

/-!
# The memory of the ring (`map_buffer`)

`map_buffer` maps a new file twice, the second time right behind the first, into a stretch of
anonymous memory that it has asked for before.  Every call may fail on its way.

The guard of `vmars_spsc_rb_init` lets capacities through that are no multiple of the page size.
The second mapping of such a one would start in the middle of a page, which the kernel refuses.

* `mapBuffer_closes`: however the calls end, no descriptor and no name of a file is left;
* `claimed_mapped`: a record that is claimed and filled through the mapping stays inside it;
* `mappedRing_exact`: **a ring that was set up is a ring of bytes**: its capacity is a power of
  two and a multiple of the page size, and through the mapping the bytes are those of `SpscRb`.
-/

namespace Vmars

open CMemory AddressSpace ByteRing

/-! ## The code -/

/-- What memory is mapped from: nothing, or the file in `/dev/shm`. -/
inductive Mapped where
  | anonymous
  | sharedFile
  deriving DecidableEq, Repr

/-- The memory of the process, its open descriptors and the number of its files in
`/dev/shm`. -/
structure Process where
  memory : Memory Mapped
  descriptors : List Int
  names : Nat

/-- How the system calls of `map_buffer` end. -/
structure SystemCalls where
  /-- `mmap` of anonymous memory of a length, where the kernel likes. -/
  mmap : UInt64 → Option UInt64
  /-- `mkstemp`: a descriptor, or a negative number. -/
  mkstemp : Int
  /-- `ftruncate` to a length. -/
  ftruncate : UInt64 → Bool
  /-- `mmap` with `MAP_FIXED`, of an address and a length. -/
  mmapFixed : UInt64 → UInt64 → Bool

namespace Process

/-- An object is mapped. -/
def map (p : Process) (page : Nat) (address length : UInt64) (object : Mapped) : Process :=
  { p with memory.space := p.memory.space.map page address.toNat length.toNat object }

/-- A new file, which is empty. -/
def create (p : Process) (fd : Int) : Process where
  memory :=
    { p.memory with
      size := Function.update p.memory.size .sharedFile 0
      bytes := Function.update p.memory.bytes .sharedFile fun _ => 0 }
  descriptors := fd :: p.descriptors
  names := p.names + 1

/-- The file gets a size; nothing looks at whether it does. -/
def truncate (p : Process) (done : Bool) (length : UInt64) : Process :=
  if done then { p with memory.size := Function.update p.memory.size .sharedFile length.toNat }
  else p

/-- `close` and `unlink`. -/
def cleanup (p : Process) (fd : Int) : Process :=
  { p with descriptors := p.descriptors.erase fd, names := p.names - 1 }

end Process

/-- `map_buffer` in a system with pages of `page` bytes: the address, `none` for `NULL`. -/
def mapBuffer (page : Nat) (calls : SystemCalls) (p : Process) (length : UInt64) :
    Option UInt64 × Process :=
  match calls.mmap (length * 2) with
  | none => (none, p)
  | some fullAddress =>
      let p := p.map page fullAddress (length * 2) .anonymous
      let fd := calls.mkstemp
      if fd < 0 then (none, p)
      else
        let p := (p.create fd).truncate (calls.ftruncate length) length
        if !calls.mmapFixed fullAddress length then (none, p.cleanup fd)
        else
          let p := p.map page fullAddress length .sharedFile
          if !calls.mmapFixed (fullAddress + length) length then (none, p.cleanup fd)
          else
            let p := p.map page (fullAddress + length) length .sharedFile
            (some fullAddress, p.cleanup fd)

/-- The bytes behind the buffer of `map_buffer`. -/
def mappedFile (page : Nat) (calls : SystemCalls) (p : Process) (length : UInt64) :
    Option (Nat → UInt8) :=
  (mapBuffer page calls p length).1.map fun _ =>
    (mapBuffer page calls p length).2.memory.bytes .sharedFile

/-! ## What is left behind -/

theorem Process.create_bytes (p : Process) (fd : Int) :
    (p.create fd).memory.bytes .sharedFile = fun _ => 0 := by simp [Process.create]

/-- A truncated file has the size of the buffer. -/
theorem Process.truncate_size (p : Process) (length : UInt64) :
    (p.truncate true length).memory.size .sharedFile = length.toNat := by
  simp [Process.truncate]

/-- Truncation changes nothing else. -/
theorem Process.truncate_rest (p : Process) (done : Bool) (length : UInt64) :
    (p.truncate done length).descriptors = p.descriptors ∧
      (p.truncate done length).names = p.names ∧
      (p.truncate done length).memory.space = p.memory.space ∧
      (p.truncate done length).memory.bytes = p.memory.bytes := by
  cases done with
  | false => exact ⟨rfl, rfl, rfl, rfl⟩
  | true => exact ⟨rfl, rfl, rfl, rfl⟩

/-- **No descriptor and no name is left**, whichever of the calls fails. -/
theorem mapBuffer_closes (page : Nat) (calls : SystemCalls) (p : Process) (length : UInt64) :
    (mapBuffer page calls p length).2.descriptors = p.descriptors ∧
      (mapBuffer page calls p length).2.names = p.names := by
  have hcleanup : ∀ q : Process, q.descriptors = calls.mkstemp :: p.descriptors →
      q.names = p.names + 1 →
      (q.cleanup calls.mkstemp).descriptors = p.descriptors ∧
        (q.cleanup calls.mkstemp).names = p.names := by
    intro q hdescriptors hnames
    unfold Process.cleanup
    rw [hdescriptors, hnames]
    exact ⟨List.erase_cons_head .., rfl⟩
  unfold mapBuffer
  cases calls.mmap (length * 2) with
  | none => exact ⟨rfl, rfl⟩
  | some fullAddress =>
      dsimp only
      split_ifs
      · exact ⟨rfl, rfl⟩
      all_goals
        apply hcleanup
        · exact (Process.truncate_rest ..).1
        · exact (Process.truncate_rest ..).2.1

/-! ## The mirror -/

/-- What the kernel promises: memory starts at a page and has a length, and it refuses to map
at an address inside a page. -/
structure SystemCalls.Contract (page : Nat) (calls : SystemCalls) : Prop where
  mmap : ∀ length address, calls.mmap length = some address →
    page ∣ address.toNat ∧ 0 < length.toNat ∧ address.toNat + length.toNat ≤ 2 ^ 64
  mmapFixed : ∀ address length, calls.mmapFixed address length = true → page ∣ address.toNat

section Mirror

variable {page : Nat} {calls : SystemCalls} {p : Process} {length address : UInt64}

/-- Every call of `map_buffer` that has to succeed does when it returns an address. -/
theorem mapBuffer_some (h : (mapBuffer page calls p length).1 = some address) :
    calls.mmap (length * 2) = some address ∧ calls.mmapFixed address length = true ∧
      calls.mmapFixed (address + length) length = true ∧
      ∃ space : Space Mapped,
        (mapBuffer page calls p length).2.memory.space =
            (space.map page address.toNat length.toNat .sharedFile).map page
              (address + length).toNat length.toNat .sharedFile ∧
          (calls.ftruncate length = true →
            (mapBuffer page calls p length).2.memory.size .sharedFile = length.toNat) ∧
          (mapBuffer page calls p length).2.memory.bytes .sharedFile = fun _ => 0 := by
  unfold mapBuffer at h ⊢
  cases hmmap : calls.mmap (length * 2) with
  | none =>
      rw [hmmap] at h
      cases h
  | some fullAddress =>
      rw [hmmap] at h
      dsimp only at h ⊢
      split_ifs at h ⊢ with hfd hfirst hsecond
      · obtain rfl := Option.some.inj h
        refine ⟨rfl, by simpa using hfirst, by simpa using hsecond,
          (((p.map page fullAddress (length * 2) .anonymous).create calls.mkstemp).truncate
            (calls.ftruncate length) length).memory.space, rfl, ?_, ?_⟩
        · intro htruncate
          rw [htruncate]
          exact Process.truncate_size
            ((p.map page fullAddress (length * 2) .anonymous).create calls.mkstemp) length
        · show (Process.truncate _ _ _).memory.bytes .sharedFile = _
          rw [(Process.truncate_rest ..).2.2.2]
          exact Process.create_bytes ..

/-- The second mapping starts at a page. -/
theorem mapBuffer_dvd (hcalls : calls.Contract page) (hpage : page ∣ 2 ^ 64)
    (h : (mapBuffer page calls p length).1 = some address) : page ∣ length.toNat := by
  obtain ⟨hmmap, -, hsecond, -⟩ := mapBuffer_some h
  have haligned := (hcalls.mmap _ _ hmmap).1
  have hbehind := hcalls.mmapFixed _ _ hsecond
  rw [UInt64.toNat_add, Nat.dvd_mod_iff hpage] at hbehind
  exact (Nat.dvd_add_right haligned).mp hbehind

/-- The buffer is a mirror of the file. -/
theorem mapBuffer_mirrored (hcalls : calls.Contract page) (hpos : 0 < page)
    (hpage : page ∣ 2 ^ 64) (h : (mapBuffer page calls p length).1 = some address)
    (hlength : length.toNat < 2 ^ 63) (htruncate : calls.ftruncate length = true) :
    Mirrored page (mapBuffer page calls p length).2.memory address.toNat length.toNat
      .sharedFile := by
  obtain ⟨hmmap, -, -, space, hspace, hsize, -⟩ := mapBuffer_some h
  obtain ⟨-, hlong, hfits⟩ := hcalls.mmap _ _ hmmap
  have htwice : (length * 2).toNat = length.toNat * 2 := by
    rw [UInt64.toNat_mul]
    apply Nat.mod_eq_of_lt
    show length.toNat * 2 < _
    omega
  have hsum : (address + length).toNat = address.toNat + length.toNat := by
    rw [UInt64.toNat_add]
    apply Nat.mod_eq_of_lt
    omega
  rw [hsum] at hspace
  exact mirrored_map hpos (mapBuffer_dvd hcalls hpage h) (hsize htruncate) hspace

end Mirror

/-! ## The ring -/

/-- Accesses to the buffer of the ring, at offsets: the bytes that were read. -/
def SpscRb.accesses (rb : SpscRb) : List Access → List UInt8 × SpscRb
  | [] => ([], rb)
  | .load offset :: rest => (rb.load offset :: (rb.accesses rest).1, (rb.accesses rest).2)
  | .store offset b :: rest => (rb.store offset b).accesses rest

/-- The accesses of a ring are those of its buffer. -/
theorem SpscRb.accesses_eq (rb : SpscRb) (rest : List Access) :
    (rb.accesses rest).1 = (ringRun rb.capacity rb.buffer rest).1 ∧
      (rb.accesses rest).2 =
        { rb with buffer := (ringRun rb.capacity rb.buffer rest).2 } := by
  induction rest generalizing rb with
  | nil => exact ⟨rfl, rfl⟩
  | cons access rest ih =>
      cases access with
      | load offset =>
          obtain ⟨hread, hleft⟩ := ih rb
          exact ⟨congrArg (rb.load offset :: ·) hread, hleft⟩
      | store offset b => exact ih (rb.store offset b)

/-- A record that was claimed lies inside the two mappings. -/
theorem SpscRb.Inv.claimed_inside {rb rb' : SpscRb} {head length record : Nat}
    {records : List (List UInt8)} (h : rb.Inv head records [])
    (hclaim : vmarsSpscRbClaim rb length = (rb', some record)) :
    record + (sizeofRbRecord + length) < 2 * rb.capacity := by
  have hfits : (encodeRecords records).length + (length + 4) ≤ rb.capacity := by
    apply Decidable.of_not_not
    intro hno
    rw [h.claim_none hno] at hclaim
    cases hclaim
  obtain ⟨rb₁, hclaim₁, -⟩ := h.claim hfits
  rw [hclaim] at hclaim₁
  obtain rfl := Option.some.inj (congrArg Prod.snd hclaim₁)
  rw [h.tailIndex_eq]
  have hlt := Nat.mod_lt (head + (encodeRecords records).length) h.capacity.range.1
  unfold sizeofRbRecord
  omega

/-- The accesses that write bytes one after the other. -/
def storeAccesses (offset : Nat) : List UInt8 → List Access
  | [] => []
  | b :: bytes => .store offset b :: storeAccesses (offset + 1) bytes

/-- The bytes of a store lie behind its offset. -/
theorem mem_storeAccesses {offset : Nat} {bytes : List UInt8} {access : Access}
    (h : access ∈ storeAccesses offset bytes) : access.offset < offset + bytes.length := by
  induction bytes generalizing offset with
  | nil => cases h
  | cons b bytes ih =>
      rw [List.length_cons]
      rcases List.mem_cons.mp h with rfl | h
      · show offset < _
        omega
      · have hrest := ih h
        omega

/-- Storing byte after byte is storing the bytes. -/
theorem ringRun_storeAccesses (rb : SpscRb) (offset : Nat) (bytes : List UInt8) :
    ringRun rb.capacity rb.buffer (storeAccesses offset bytes) =
      ([], (rb.storeBytes offset bytes).buffer) := by
  induction bytes generalizing rb offset with
  | nil => rfl
  | cons b bytes ih => exact ih (rb.store offset b) (offset + 1)

/-- Bytes are stored one part after the other. -/
theorem SpscRb.storeBytes_append (rb : SpscRb) (offset : Nat) (bytes bytes' : List UInt8) :
    rb.storeBytes offset (bytes ++ bytes') =
      (rb.storeBytes offset bytes).storeBytes (offset + bytes.length) bytes' := by
  induction bytes generalizing rb offset with
  | nil => rfl
  | cons b bytes ih =>
      rw [List.cons_append, storeBytes, ih, List.length_cons, Nat.add_right_comm, Nat.add_assoc]
      rfl

/-- What is stored depends on the bytes of the ring only. -/
theorem SpscRb.storeBytes_buffer {rb rb' : SpscRb} (hcapacity : rb'.capacity = rb.capacity)
    (hbuffer : rb'.buffer = rb.buffer) (offset : Nat) (bytes : List UInt8) :
    (rb'.storeBytes offset bytes).buffer = (rb.storeBytes offset bytes).buffer := by
  have hrun := ringRun_storeAccesses rb' offset bytes
  rw [hcapacity, hbuffer, ringRun_storeAccesses] at hrun
  exact (congrArg Prod.snd hrun).symm

/-- A claim writes the length of the record. -/
theorem vmarsSpscRbClaim_buffer {rb rb' : SpscRb} {length record : Nat}
    (hclaim : vmarsSpscRbClaim rb length = (rb', some record)) :
    rb'.capacity = rb.capacity ∧
      rb'.buffer = (rb.storeBytes record (lengthBytes length)).buffer := by
  have hrecord : ∀ rb₁ : SpscRb, rb₁.capacity = rb.capacity → rb₁.buffer = rb.buffer →
      rb₁.claimRecord length = (rb', some record) →
      rb'.capacity = rb.capacity ∧
        rb'.buffer = (rb.storeBytes record (lengthBytes length)).buffer := by
    intro rb₁ hcapacity hbuffer h
    obtain ⟨rfl, hindex⟩ := Prod.mk.inj h
    obtain rfl := Option.some.inj hindex
    exact ⟨(rb₁.storeBytes_tailPosition _ _).2.trans hcapacity,
      SpscRb.storeBytes_buffer hcapacity hbuffer _ _⟩
  unfold vmarsSpscRbClaim at hclaim
  split at hclaim
  · cases hclaim
  · exact hrecord rb rfl rfl hclaim
  · split at hclaim
    · exact hrecord { rb with headCachePosition := rb.headPosition } rfl rfl hclaim
    · cases hclaim

/-- **A record that is claimed and filled through the mapping** never leaves it, also where it
runs over the end of the ring, and the file has the bytes of the ring. -/
theorem claimed_mapped {page : Nat} {memory : Memory Mapped} {address : Nat} {rb rb' : SpscRb}
    {head record : Nat} {records : List (List UInt8)} {payload : List UInt8}
    (hmirror : Mirrored page memory address rb.capacity .sharedFile)
    (hbuffer : memory.bytes .sharedFile = rb.buffer) (h : rb.Inv head records [])
    (hclaim : vmarsSpscRbClaim rb payload.length = (rb', some record)) :
    ∃ memory', memory.run page address (storeAccesses record (recordBytes payload)) =
        some ([], memory') ∧
      Mirrored page memory' address rb'.capacity .sharedFile ∧
      memory'.bytes .sharedFile = (rb'.storeBytes (record + sizeofRbRecord) payload).buffer := by
  obtain ⟨hcapacity, hclaimed⟩ := vmarsSpscRbClaim_buffer hclaim
  have hlength : (recordBytes payload).length = sizeofRbRecord + payload.length := by
    rw [recordBytes, List.length_append, lengthBytes_length]
    rfl
  have hinside := h.claimed_inside hclaim
  have haccesses : ∀ access ∈ storeAccesses record (recordBytes payload),
      access.offset < 2 * rb.capacity := by
    intro access haccess
    have hlt := mem_storeAccesses haccess
    omega
  obtain ⟨memory', hrun, hkept, hbytes⟩ := hmirror.run haccesses
  rw [hbuffer, ringRun_storeAccesses] at hrun hbytes
  refine ⟨memory', hrun, hcapacity ▸ hkept, hbytes.trans ?_⟩
  have hsame : (rb.storeBytes record (lengthBytes payload.length)).capacity = rb'.capacity := by
    rw [hcapacity]
    exact (rb.storeBytes_tailPosition _ _).2
  rw [recordBytes, SpscRb.storeBytes_append, lengthBytes_length]
  exact SpscRb.storeBytes_buffer hsame hclaimed.symm _ _

section Init

variable {j : Nat} {calls : SystemCalls} {p : Process} {calloc : Bool} {capacity : UInt64}
  {rb : SpscRb}

/-- A ring that was set up has the buffer of `map_buffer`. -/
theorem init_mapped
    (h : vmarsSpscRbInit (2 ^ j : Nat) (mappedFile (2 ^ j) calls p) calloc capacity = .ok rb) :
    ∃ address, (mapBuffer (2 ^ j) calls p capacity).1 = some address ∧
      rb.capacity = capacity.toNat ∧
      rb.buffer = (mapBuffer (2 ^ j) calls p capacity).2.memory.bytes .sharedFile ∧
      (isPowerOfTwo capacity = true ∨ isMultipleOfPageSize (2 ^ j : Nat) capacity = false) := by
  unfold vmarsSpscRbInit at h
  split at h
  · cases h
  · next hguard =>
    have hpassed : isPowerOfTwo capacity = true ∨
        isMultipleOfPageSize (2 ^ j : Nat) capacity = false := by
      cases hpower : isPowerOfTwo capacity with
      | true => exact .inl rfl
      | false =>
          rw [hpower] at hguard
          exact .inr (by simpa using hguard)
    split at h
    · next buffer hbuffer =>
      obtain ⟨address, haddress, rfl⟩ := Option.map_eq_some_iff.mp hbuffer
      obtain rfl := Except.ok.inj h
      exact ⟨address, haddress, rfl, rfl, hpassed⟩
    · cases h

/-- **The slip of the guard is caught by the kernel**: a ring that was set up has a power of two
of bytes, in whole pages. -/
theorem init_usable (hj : j < 64) (hcalls : calls.Contract (2 ^ j))
    (h : vmarsSpscRbInit (2 ^ j : Nat) (mappedFile (2 ^ j) calls p) calloc capacity = .ok rb) :
    (∃ k ≤ 62, capacity.toNat = 2 ^ k) ∧ 2 ^ j ∣ capacity.toNat := by
  obtain ⟨address, haddress, -, -, hguard⟩ := init_mapped h
  have hpage : 2 ^ j ∣ 2 ^ 64 := Nat.pow_dvd_pow 2 (by omega)
  have hdvd := mapBuffer_dvd hcalls hpage haddress
  rw [(isMultipleOfPageSize_iff hj).mpr hdvd] at hguard
  obtain ⟨k, hk⟩ := isPowerOfTwo_iff.mp (hguard.resolve_right (by decide))
  refine ⟨⟨k, ?_, hk⟩, hdvd⟩
  have hk64 : k < 64 := by
    apply (Nat.pow_lt_pow_iff_right (a := 2) (by decide)).mp
    rw [← hk]
    exact capacity.toNat_lt
  have hlong := (hcalls.mmap _ _ (mapBuffer_some haddress).1).2.1
  -- twice the largest power of two is no length
  by_contra hlarge
  have hk63 : k = 63 := by omega
  rw [UInt64.toNat_mul, hk, hk63] at hlong
  revert hlong
  decide

/-- **A ring that was set up is a ring of bytes.**  Whatever `vmars_spsc_rb_init` lets through,
when it succeeds the capacity is a power of two in whole pages; and once the file has its size,
no sequence of accesses inside the two mappings faults, and each byte that is read is that of
the ring. -/
theorem mappedRing_exact (hj : j < 64) (hcalls : calls.Contract (2 ^ j))
    (h : vmarsSpscRbInit (2 ^ j : Nat) (mappedFile (2 ^ j) calls p) calloc capacity = .ok rb) :
    ((∃ k ≤ 62, rb.capacity = 2 ^ k) ∧ 2 ^ j ∣ rb.capacity) ∧
      ∃ address, (mapBuffer (2 ^ j) calls p capacity).1 = some address ∧
        (calls.ftruncate capacity = true → ∀ accesses : List Access,
          (∀ access ∈ accesses, access.offset < 2 * rb.capacity) →
          ∃ memory, (mapBuffer (2 ^ j) calls p capacity).2.memory.run (2 ^ j) address.toNat
              accesses = some ((rb.accesses accesses).1, memory) ∧
            memory.bytes .sharedFile = (rb.accesses accesses).2.buffer) := by
  obtain ⟨⟨k, hk, hpower⟩, hdvd⟩ := init_usable hj hcalls h
  obtain ⟨address, haddress, hcapacity, hbuffer, -⟩ := init_mapped h
  have hlt : capacity.toNat < 2 ^ 63 := by
    rw [hpower]
    exact Nat.pow_lt_pow_right (by decide) (by omega)
  rw [hcapacity]
  refine ⟨⟨⟨k, hk, hpower⟩, hdvd⟩, address, haddress, fun htruncate accesses hinside => ?_⟩
  have hmirror := mapBuffer_mirrored hcalls (Nat.two_pow_pos j) (Nat.pow_dvd_pow 2 (by omega))
    haddress hlt htruncate
  obtain ⟨memory, hrun, -, hbytes⟩ := hmirror.run hinside
  obtain ⟨hread, hleft⟩ := rb.accesses_eq accesses
  rw [hread, hleft, hcapacity, hbuffer]
  exact ⟨memory, hrun, hbytes⟩

end Init

/-- A kernel with pages of 4096 bytes and room for small mappings. -/
def pagedCalls : SystemCalls where
  mmap length := if 0 < length ∧ length ≤ 1048576 then some 139637976727552 else none
  mkstemp := 3
  ftruncate _ := true
  mmapFixed address length := address.toNat % 4096 == 0 && 0 < length

/-- Such a kernel keeps the contract. -/
theorem pagedCalls_contract : pagedCalls.Contract (2 ^ 12) where
  mmap := by
    intro length address h
    obtain ⟨⟨hpos, hle⟩, rfl⟩ : (0 < length ∧ length ≤ 1048576) ∧ 139637976727552 = address := by
      simpa [pagedCalls] using h
    rw [UInt64.lt_iff_toNat_lt] at hpos
    rw [UInt64.le_iff_toNat_le] at hle
    refine ⟨by decide, hpos, ?_⟩
    calc (139637976727552 : UInt64).toNat + length.toNat
        ≤ 139637976727552 + 1048576 := Nat.add_le_add (by decide) hle
      _ ≤ 2 ^ 64 := by decide
  mmapFixed := by
    intro address length h
    apply Nat.dvd_of_mod_eq_zero
    have hboth : address.toNat % 4096 = 0 ∧ 0 < length := by simpa [pagedCalls] using h
    exact hboth.1

def emptyProcess : Process where
  memory := { space := fun _ => none, size := fun _ => 0, bytes := fun _ _ => 0 }
  descriptors := [0, 1, 2]
  names := 0

/-- A ring of one page, mapped twice. -/
theorem mappedRing_exact_onePage :
    ((∃ k ≤ 62, 4096 = 2 ^ k) ∧ 2 ^ 12 ∣ 4096) ∧
      ∃ address, (mapBuffer (2 ^ 12) pagedCalls emptyProcess 4096).1 = some address ∧
        ∀ accesses : List Access, (∀ access ∈ accesses, access.offset < 2 * 4096) →
          ∃ memory, (mapBuffer (2 ^ 12) pagedCalls emptyProcess 4096).2.memory.run (2 ^ 12)
              address.toNat accesses =
                some (((System.initial 4096).rb.accesses accesses).1, memory) ∧
            memory.bytes .sharedFile = ((System.initial 4096).rb.accesses accesses).2.buffer := by
  obtain ⟨hcapacity, address, haddress, haccesses⟩ := @mappedRing_exact 12 pagedCalls emptyProcess
    true 4096 (System.initial 4096).rb (by decide) pagedCalls_contract rfl
  exact ⟨hcapacity, address, haddress, haccesses rfl⟩

end Vmars
