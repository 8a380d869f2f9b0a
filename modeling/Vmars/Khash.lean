import Vmars.CMemory

/-!
# The hash table of the handlers (`khash.h`)

The code that `KHASH_INIT` generates, for any type of keys with a hash function and an
equality.  Two bits for each bucket say whether it is empty, deleted or neither; sixteen
buckets share a word of `flags`.

A key or a value is `none` where nothing was written yet, and a key also after its owner
freed it: to compare or to hash such a key is a fault, as is every access outside the three
arrays.  What `kmalloc` and `krealloc` return is a parameter.
-/

namespace Vmars

open CMemory

/-! ## Flags -/

/-- The position of the two bits of a bucket in their word: `(i & 0xf) << 1`. -/
def acShift (i : UInt32) : UInt32 := (i &&& 0xf) <<< 1

/-- `flag[i >> 4]`. -/
def acWord (flags : List UInt32) (i : UInt32) : Checked UInt32 :=
  match flags[(i >>> 4).toNat]? with
  | some word => .ok word
  | none => .error (.outOfBounds (i >>> 4).toNat)

/-- The bits of a bucket that a mask selects are not all clear. -/
def acTest (mask : UInt32) (flags : List UInt32) (i : UInt32) : Checked Bool := do
  let word ← acWord flags i
  .ok ((word >>> acShift i) &&& mask != 0)

/-- `__ac_isempty`. -/
def acIsempty : List UInt32 → UInt32 → Checked Bool := acTest 2

/-- `__ac_isdel`. -/
def acIsdel : List UInt32 → UInt32 → Checked Bool := acTest 1

/-- `__ac_iseither`. -/
def acIseither : List UInt32 → UInt32 → Checked Bool := acTest 3

/-- The word of a bucket, rewritten. -/
def acEdit (edit : UInt32 → UInt32) (flags : List UInt32) (i : UInt32) :
    Checked (List UInt32) := do
  let word ← acWord flags i
  .ok (flags.set (i >>> 4).toNat (edit word))

/-- `__ac_set_isempty_false`. -/
def acSetIsemptyFalse (flags : List UInt32) (i : UInt32) : Checked (List UInt32) :=
  acEdit (fun word => word &&& ~~~(2 <<< acShift i)) flags i

/-- `__ac_set_isboth_false`. -/
def acSetIsbothFalse (flags : List UInt32) (i : UInt32) : Checked (List UInt32) :=
  acEdit (fun word => word &&& ~~~(3 <<< acShift i)) flags i

/-- `__ac_set_isdel_true`. -/
def acSetIsdelTrue (flags : List UInt32) (i : UInt32) : Checked (List UInt32) :=
  acEdit (fun word => word ||| (1 <<< acShift i)) flags i

/-- `__ac_fsize`: the words for the flags of `m` buckets. -/
def acFsize (m : UInt32) : UInt32 := if m < 16 then 1 else m >>> 4

/-- The flags of `m` buckets that are all empty: every byte is `0xaa`. -/
def acAllEmpty (m : UInt32) : List UInt32 := List.replicate (acFsize m).toNat 0xaaaaaaaa

/-- `kroundup32`. -/
def kroundup32 (x : UInt32) : UInt32 :=
  let x := x - 1
  let x := x ||| x >>> 1
  let x := x ||| x >>> 2
  let x := x ||| x >>> 4
  let x := x ||| x >>> 8
  let x := x ||| x >>> 16
  x + 1

/-- `(khint_t)(m * __ac_HASH_UPPER + 0.5)`: the `double` 0.77 is the fraction
`1733885856537641 / 2 ^ 51`, and for a power of two below `2 ^ 32` the product and the sum have
the same integer part in `double`s. -/
def acUpperBound (m : UInt32) : UInt32 :=
  UInt32.ofNat ((m.toNat * 1733885856537641 + 1125899906842624) / 2251799813685248)

/-! ## The table -/

/-- `kh_##name##_t`. -/
structure Khash (K V : Type) where
  nBuckets : UInt32
  size : UInt32
  nOccupied : UInt32
  upperBound : UInt32
  flags : List UInt32
  keys : List (Option K)
  vals : List (Option V)

/-- Which of the allocations of a resize succeed: the new flags, the larger arrays of keys and
values, and at the end the smaller arrays of keys and values. -/
structure Alloc where
  flags : Bool
  keys : Bool
  vals : Bool
  shrinkKeys : Bool
  shrinkVals : Bool

/-- Memory suffices. -/
def Alloc.ok : Alloc := ⟨true, true, true, true, true⟩

/-- The allocations whose result the code looks at succeed. -/
def Alloc.Granted (alloc : Alloc) : Prop :=
  alloc.flags = true ∧ alloc.keys = true ∧ alloc.vals = true

/-- The two that shrink the arrays succeed; the code stores their result unseen. -/
def Alloc.Shrinks (alloc : Alloc) : Prop := alloc.shrinkKeys = true ∧ alloc.shrinkVals = true

section Generated

variable {K V : Type} [DecidableEq K] (hash : K → UInt32)

/-- `kh_init`: a cleared structure. -/
def khInit : Khash K V where
  nBuckets := 0
  size := 0
  nOccupied := 0
  upperBound := 0
  flags := []
  keys := []
  vals := []

/-- The key in a bucket, as an operand of the hash function or the equality. -/
def khKeyAt (keys : List (Option K)) (i : UInt32) : Checked K :=
  match keys[i.toNat]? with
  | some (some key) => .ok key
  | _ => .error (.outOfBounds i.toNat)

/-- `a[i] = x` for the arrays of keys and values. -/
def khStore {α : Type} (a : List α) (i : UInt32) (x : α) : Checked (List α) :=
  if i.toNat < a.length then .ok (a.set i.toNat x) else .error (.outOfBounds i.toNat)

/-- The value in a bucket. -/
def khValAt (vals : List (Option V)) (i : UInt32) : Checked (Option V) :=
  match vals[i.toNat]? with
  | some val => .ok val
  | none => .error (.outOfBounds i.toNat)

/-- `kh_val(h, x)` as a value. -/
def khVal (h : Khash K V) (x : UInt32) : Checked (Option V) := khValAt h.vals x

/-- `kh_val(h, x) = val`. -/
def khSetVal (h : Khash K V) (x : UInt32) (val : Option V) : Checked (Khash K V) := do
  let vals ← khStore h.vals x val
  .ok { h with vals := vals }

/-- `kh_clear`. -/
def khClear (h : Khash K V) : Khash K V :=
  if h.flags = [] then h
  else { h with flags := acAllEmpty h.nBuckets, size := 0, nOccupied := 0 }

/-- The condition under which `kh_get` and `kh_put` go on to the next bucket: this one is
deleted or has another key. -/
def khPasses (h : Khash K V) (key : K) (i : UInt32) : Checked Bool := do
  if ← acIsempty h.flags i then .ok false
  else if ← acIsdel h.flags i then .ok true
  else do
    let stored ← khKeyAt h.keys i
    .ok (stored ≠ key)

/-- The loop of `kh_get`, for at most `fuel` rounds. -/
def khGetLoop (h : Khash K V) (key : K) (last : UInt32) :
    Nat → UInt32 → UInt32 → Checked UInt32
  | 0, _, _ => .error .diverged
  | fuel + 1, i, step => do
      if ← khPasses h key i then
        let step := step + 1
        let i := (i + step) &&& (h.nBuckets - 1)
        if i = last then .ok h.nBuckets
        else khGetLoop h key last fuel i step
      else if ← acIseither h.flags i then .ok h.nBuckets
      else .ok i

/-- `kh_get`.  After twice the number of buckets every sequence is back at its start. -/
def khGet (h : Khash K V) (key : K) : Checked UInt32 :=
  if h.nBuckets ≠ 0 then
    let i := hash key &&& (h.nBuckets - 1)
    khGetLoop h key i (2 * h.nBuckets.toNat) i 0
  else .ok 0

/-! ## Resizing -/

/-- What the loops of `kh_resize` change: both flags and the arrays they share. -/
structure Rehash (K V : Type) where
  flags : List UInt32
  newFlags : List UInt32
  keys : List (Option K)
  vals : List (Option V)

/-- The search for a bucket that is empty in the new table. -/
def khFreeBucket (newFlags : List UInt32) (newMask : UInt32) :
    Nat → UInt32 → UInt32 → Checked UInt32
  | 0, _, _ => .error .diverged
  | fuel + 1, i, step => do
      if ← acIsempty newFlags i then .ok i
      else
        let step := step + 1
        khFreeBucket newFlags newMask fuel ((i + step) &&& newMask) step

/-- The old table still has an entry in the bucket. -/
def khHasOld (nBuckets : UInt32) (flags : List UInt32) (i : UInt32) : Checked Bool :=
  if i < nBuckets then do
    let either ← acIseither flags i
    .ok !either
  else .ok false

/-- The existing element is kicked out and deleted in the old table. -/
def khKickOut (st : Rehash K V) (i : UInt32) (key : K) (val : Option V) :
    Checked (Rehash K V × Option (K × Option V)) := do
  let oldKey ← khKeyAt st.keys i
  let keys ← khStore st.keys i (some key)
  let oldVal ← khValAt st.vals i
  let vals ← khStore st.vals i val
  let flags ← acSetIsdelTrue st.flags i
  .ok ({ st with flags := flags, keys := keys, vals := vals }, some (oldKey, oldVal))

/-- The element is written. -/
def khWrite (st : Rehash K V) (i : UInt32) (key : K) (val : Option V) :
    Checked (Rehash K V × Option (K × Option V)) := do
  let keys ← khStore st.keys i (some key)
  let vals ← khStore st.vals i val
  .ok ({ st with keys := keys, vals := vals }, none)

/-- A round of the kick-out process: the entry goes to its bucket of the new table, and an
entry that the old table still has there comes out. -/
def khKick (nBuckets newNBuckets : UInt32) (st : Rehash K V) (key : K) (val : Option V) :
    Checked (Rehash K V × Option (K × Option V)) := do
  let newMask := newNBuckets - 1
  let i ← khFreeBucket st.newFlags newMask (2 * newNBuckets.toNat) (hash key &&& newMask) 0
  let newFlags ← acSetIsemptyFalse st.newFlags i
  let st := { st with newFlags := newFlags }
  if ← khHasOld nBuckets st.flags i then khKickOut st i key val
  else khWrite st i key val

/-- The kick-out process, for at most `fuel` rounds. -/
def khKickLoop (nBuckets newNBuckets : UInt32) :
    Nat → Rehash K V → K → Option V → Checked (Rehash K V)
  | 0, _, _, _ => .error .diverged
  | fuel + 1, st, key, val => do
      match ← khKick hash nBuckets newNBuckets st key val with
      | (st, none) => .ok st
      | (st, some (key, val)) => khKickLoop nBuckets newNBuckets fuel st key val

/-- The body of the loop over the old buckets.  Every round of the kick-out process deletes
an entry of the old table. -/
def khRehashBucket (nBuckets newNBuckets : UInt32) (st : Rehash K V) (j : UInt32) :
    Checked (Rehash K V) := do
  if ← acIseither st.flags j then .ok st
  else do
    let key ← khKeyAt st.keys j
    let val ← khValAt st.vals j
    let flags ← acSetIsdelTrue st.flags j
    khKickLoop hash nBuckets newNBuckets (nBuckets.toNat + 1) { st with flags := flags } key val

/-- The loop over the old buckets. -/
def khRehash (nBuckets newNBuckets : UInt32) (st : Rehash K V) : Checked (Rehash K V) :=
  (List.range nBuckets.toNat).foldlM
    (fun st j => khRehashBucket hash nBuckets newNBuckets st (UInt32.ofNat j)) st

/-- `krealloc` to a length: a longer array ends with unwritten elements. -/
def krealloc {α : Type} (a : List (Option α)) (length : Nat) : List (Option α) :=
  a.take length ++ List.replicate (length - a.length) none

/-- The allocations before the rehash: both arrays, grown where the table grows, and whether
all of them succeeded. -/
def khGrow (alloc : Alloc) (h : Khash K V) (newNBuckets : UInt32) : Khash K V × Bool :=
  if alloc.flags = false then (h, false)
  else if h.nBuckets < newNBuckets then
    if alloc.keys = false then (h, false)
    else
      let h := { h with keys := krealloc h.keys newNBuckets.toNat }
      if alloc.vals = false then (h, false)
      else ({ h with vals := krealloc h.vals newNBuckets.toNat }, true)
  else (h, true)

/-- `a = krealloc(a, length)`, with the outcome of the allocation: a null pointer is an array
without elements. -/
def khShrink {α : Type} (granted : Bool) (a : List (Option α)) (length : Nat) :
    List (Option α) :=
  if granted then krealloc a length else []

/-- The number of buckets that `kh_resize` makes of a requested one. -/
def khBucketCount (newNBuckets : UInt32) : UInt32 :=
  let newNBuckets := kroundup32 newNBuckets
  if newNBuckets < 4 then 4 else newNBuckets

/-- `kh_resize`: the table and the returned value.  The two `krealloc`s that shrink the arrays
at the end are not checked: it returns 0 also when they fail. -/
def khResize (alloc : Alloc) (h : Khash K V) (newNBuckets : UInt32) :
    Checked (Khash K V × Int) :=
  let newNBuckets := khBucketCount newNBuckets
  if h.size ≥ acUpperBound newNBuckets then .ok (h, 0)
  else
    match khGrow alloc h newNBuckets with
    | (h, false) => .ok (h, -1)
    | (h, true) => do
        let st ← khRehash hash h.nBuckets newNBuckets
          { flags := h.flags, newFlags := acAllEmpty newNBuckets, keys := h.keys, vals := h.vals }
        let shrinks := h.nBuckets > newNBuckets
        .ok ({ nBuckets := newNBuckets
               size := h.size
               nOccupied := h.size
               upperBound := acUpperBound newNBuckets
               flags := st.newFlags
               keys := if shrinks then khShrink alloc.shrinkKeys st.keys newNBuckets.toNat
                       else st.keys
               vals := if shrinks then khShrink alloc.shrinkVals st.vals newNBuckets.toNat
                       else st.vals }, 0)

/-! ## Insertion and deletion -/

/-- The loop of `kh_put`, for at most `fuel` rounds: `x`, `i` and `site` after it. -/
def khPutLoop (h : Khash K V) (key : K) (last : UInt32) :
    Nat → UInt32 → UInt32 → UInt32 → Checked (UInt32 × UInt32 × UInt32)
  | 0, _, _, _ => .error .diverged
  | fuel + 1, i, site, step => do
      if ← khPasses h key i then do
        let site := if ← acIsdel h.flags i then i else site
        let step := step + 1
        let i := (i + step) &&& (h.nBuckets - 1)
        if i = last then .ok (site, i, site)
        else khPutLoop h key last fuel i site step
      else .ok (h.nBuckets, i, site)

/-- The bucket that `kh_put` takes: that of the key, or else the last deleted one on the way,
or else the empty one. -/
def khPutBucket (h : Khash K V) (key : K) : Checked UInt32 := do
  let i := hash key &&& (h.nBuckets - 1)
  if ← acIsempty h.flags i then .ok i
  else do
    let (x, i, site) ← khPutLoop h key i (2 * h.nBuckets.toNat) i h.nBuckets 0
    if x = h.nBuckets then do
      if (← acIsempty h.flags i) ∧ site ≠ h.nBuckets then .ok site
      else .ok i
    else .ok x

/-- The key is written to a bucket without an entry. -/
def khTake (h : Khash K V) (key : K) (x : UInt32) : Checked (Khash K V) := do
  let keys ← khStore h.keys x (some key)
  let flags ← acSetIsbothFalse h.flags x
  .ok { h with keys := keys, flags := flags, size := h.size + 1 }

/-- `kh_put` after the resize: the table, the bucket and `*ret`. -/
def khPutAt (h : Khash K V) (key : K) : Checked (Khash K V × UInt32 × Int) := do
  let x ← khPutBucket hash h key
  if ← acIsempty h.flags x then do
    let h ← khTake h key x
    .ok ({ h with nOccupied := h.nOccupied + 1 }, x, 1)
  else if ← acIsdel h.flags x then do
    let h ← khTake h key x
    .ok (h, x, 2)
  else .ok (h, x, 0)

/-- The resize at the start of `kh_put`: to clear deleted buckets, or to expand. -/
def khPutResize (alloc : Alloc) (h : Khash K V) : Checked (Khash K V × Int) :=
  if h.nOccupied ≥ h.upperBound then
    if h.nBuckets > h.size <<< 1 then khResize hash alloc h (h.nBuckets - 1)
    else khResize hash alloc h (h.nBuckets + 1)
  else .ok (h, 0)

/-- `kh_put`: the table, the bucket and `*ret`. -/
def khPut (alloc : Alloc) (h : Khash K V) (key : K) : Checked (Khash K V × UInt32 × Int) := do
  let (h, r) ← khPutResize hash alloc h
  if r < 0 then .ok (h, h.nBuckets, -1) else khPutAt hash h key

/-- `kh_del`. -/
def khDel (h : Khash K V) (x : UInt32) : Checked (Khash K V) :=
  if x ≠ h.nBuckets then do
    if ← acIseither h.flags x then .ok h
    else do
      let flags ← acSetIsdelTrue h.flags x
      .ok { h with flags := flags, size := h.size - 1 }
  else .ok h

end Generated

/-! ## Hash functions -/

/-- `(khint_t)*s`: a `char` is signed. -/
def charKhint (c : UInt8) : UInt32 := UInt32.ofNat (charToInt c % 4294967296).toNat

/-- `__ac_X31_hash_string` of the characters before the NUL. -/
def acX31HashString : List UInt8 → UInt32
  | [] => 0
  | c :: s => s.foldl (fun h c => (h <<< 5) - h + charKhint c) (charKhint c)

end Vmars
