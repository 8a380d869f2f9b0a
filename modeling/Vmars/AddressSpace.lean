import Mathlib.Data.Nat.ModEq
import Mathlib.Logic.Function.Basic

/-!
# Address spaces and mapped objects

A library about memory that is mapped from objects such as files.  It names nothing of a
particular program.

A mapping consists of whole pages, and a byte of an object may stand behind several addresses.
An object that is mapped twice, the second time right behind the first, is a ring of bytes:

* `mirrored_map`: two mappings of whole pages one behind the other are such a mirror;
* `Mirrored.run`: accesses to a mirror never fault, and read and write the object as a ring.
-/

namespace AddressSpace

variable {F : Type} {page : Nat}

/-- The object and the offset behind each mapped address. -/
def Space (F : Type) := Nat → Option (F × Nat)

/-- A length, rounded up to whole pages. -/
def wholePages (page length : Nat) : Nat := (length + page - 1) / page * page

/-- A length of whole pages is not rounded. -/
theorem wholePages_of_dvd {length : Nat} (hpage : 0 < page) (h : page ∣ length) :
    wholePages page length = length := by
  obtain ⟨n, rfl⟩ := h
  have hdiv : (page * n + page - 1) / page = n := by
    rw [Nat.add_sub_assoc hpage, Nat.mul_add_div hpage, Nat.div_eq_of_lt (by omega), Nat.add_zero]
  rw [wholePages, hdiv, Nat.mul_comm]

/-- Maps an object at an address, in place of what is mapped there. -/
def Space.map (page : Nat) (space : Space F) (address length : Nat) (object : F) : Space F :=
  fun a =>
    if address ≤ a ∧ a < address + wholePages page length then some (object, a - address)
    else space a

/-- An address space with the sizes and the bytes of the objects. -/
structure Memory (F : Type) where
  space : Space F
  size : F → Nat
  bytes : F → Nat → UInt8

/-- The byte behind an address; there is none behind the last page of an object. -/
def Memory.locate (page : Nat) (m : Memory F) (address : Nat) : Option (F × Nat) :=
  (m.space address).filter fun place => place.2 < wholePages page (m.size place.1)

/-- Reads the byte at an address. -/
def Memory.load (page : Nat) (m : Memory F) (address : Nat) : Option UInt8 :=
  (m.locate page address).map fun place => m.bytes place.1 place.2

/-- Writes the byte at an address. -/
def Memory.store [DecidableEq F] (page : Nat) (m : Memory F) (address : Nat) (b : UInt8) :
    Option (Memory F) :=
  (m.locate page address).map fun place =>
    { m with
      bytes := Function.update m.bytes place.1 (Function.update (m.bytes place.1) place.2 b) }

/-! ## Accesses -/

/-- An access, at an offset from the start of a mapping. -/
inductive Access where
  | load (offset : Nat)
  | store (offset : Nat) (b : UInt8)

/-- Where the access is. -/
def Access.offset : Access → Nat
  | .load offset => offset
  | .store offset _ => offset

/-- Accesses to a mapping at an address: the bytes that were read, `none` after a fault. -/
def Memory.run [DecidableEq F] (page : Nat) (m : Memory F) (address : Nat) :
    List Access → Option (List UInt8 × Memory F)
  | [] => some ([], m)
  | .load offset :: accesses => do
      let b ← m.load page (address + offset)
      let (bs, m) ← m.run page address accesses
      some (b :: bs, m)
  | .store offset b :: accesses => do
      let m ← m.store page (address + offset) b
      m.run page address accesses

/-- The same accesses to a ring of bytes. -/
def ringRun (capacity : Nat) (cells : Nat → UInt8) :
    List Access → List UInt8 × (Nat → UInt8)
  | [] => ([], cells)
  | .load offset :: accesses =>
      let (bs, cells') := ringRun capacity cells accesses
      (cells (offset % capacity) :: bs, cells')
  | .store offset b :: accesses =>
      ringRun capacity (Function.update cells (offset % capacity) b) accesses

/-! ## Mirrors -/

/-- The object is mapped twice, the second time right behind the first. -/
def Mirrored (page : Nat) (m : Memory F) (address capacity : Nat) (object : F) : Prop :=
  ∀ i < 2 * capacity, m.locate page (address + i) = some (object, i % capacity)

/-- **Two mappings of whole pages**, one behind the other, are a mirror. -/
theorem mirrored_map {m : Memory F} {space : Space F} {address capacity : Nat} {object : F}
    (hpage : 0 < page) (hcapacity : page ∣ capacity) (hsize : m.size object = capacity)
    (hspace : m.space = (space.map page address capacity object).map page (address + capacity)
      capacity object) :
    Mirrored page m address capacity object := by
  intro i hi
  have hplace : m.space (address + i) = some (object, i % capacity) := by
    rw [hspace]
    unfold Space.map
    rw [wholePages_of_dvd hpage hcapacity]
    by_cases hlt : i < capacity
    · rw [if_neg (by omega), if_pos (by omega), Nat.mod_eq_of_lt hlt]
      congr 2
      omega
    · rw [if_pos (by omega), Nat.mod_eq_sub_mod (by omega), Nat.mod_eq_of_lt (by omega)]
      congr 2
      omega
  have hinside : i % capacity < wholePages page (m.size object) := by
    rw [hsize, wholePages_of_dvd hpage hcapacity]
    exact Nat.mod_lt _ (by omega)
  rw [Memory.locate, hplace, Option.filter_some, if_pos (decide_eq_true hinside)]

variable [DecidableEq F] {m : Memory F} {address capacity : Nat} {object : F}

omit [DecidableEq F] in
/-- A load from either mapping is one from the object. -/
theorem Mirrored.load (h : Mirrored page m address capacity object) {i : Nat}
    (hi : i < 2 * capacity) :
    m.load page (address + i) = some (m.bytes object (i % capacity)) := by
  rw [Memory.load, h i hi]
  rfl

/-- A write goes to the ring, and the mirror stays. -/
theorem Mirrored.store (h : Mirrored page m address capacity object) {i : Nat}
    (hi : i < 2 * capacity) (b : UInt8) :
    ∃ m', m.store page (address + i) b = some m' ∧ Mirrored page m' address capacity object ∧
      m'.bytes object = Function.update (m.bytes object) (i % capacity) b := by
  rw [Memory.store, h i hi]
  exact ⟨_, rfl, h, Function.update_self ..⟩

/-- **A mirror is a ring**: no sequence of accesses to it faults, what is read is what the same
accesses read from a ring, and the object is that ring in the end. -/
theorem Mirrored.run (h : Mirrored page m address capacity object) {accesses : List Access}
    (hinside : ∀ access ∈ accesses, access.offset < 2 * capacity) :
    ∃ m', m.run page address accesses =
        some ((ringRun capacity (m.bytes object) accesses).1, m') ∧
      Mirrored page m' address capacity object ∧
      m'.bytes object = (ringRun capacity (m.bytes object) accesses).2 := by
  induction accesses generalizing m with
  | nil => exact ⟨m, rfl, h, rfl⟩
  | cons access accesses ih =>
      have hfirst := hinside access (List.mem_cons_self ..)
      have hrest := fun access' hmem => hinside access' (List.mem_cons_of_mem _ hmem)
      cases access with
      | load offset =>
          have hload := h.load hfirst
          dsimp only [Access.offset] at hload
          obtain ⟨m', hrun, hmirror, hbytes⟩ := ih h hrest
          refine ⟨m', ?_, hmirror, hbytes⟩
          rw [Memory.run, hload, hrun]
          rfl
      | store offset b =>
          obtain ⟨m₁, hstore, hmirror₁, hbytes₁⟩ := h.store hfirst b
          obtain ⟨m', hrun, hmirror, hbytes⟩ := ih hmirror₁ hrest
          dsimp only [Access.offset] at hstore hbytes₁
          rw [hbytes₁] at hrun hbytes
          refine ⟨m', ?_, hmirror, hbytes⟩
          rw [Memory.run, hstore]
          exact hrun

end AddressSpace
