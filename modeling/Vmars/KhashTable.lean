import Mathlib.Data.Set.Card
import Mathlib.Tactic.NormNum
import Vmars.KhashResize

/-!
# The hash table is a finite map

Runs of the operations of `khash.h`, in any order, against a map from keys to values.  A value
is written to the bucket that `kh_put` returns, as the handlers do.

* `khPut_spec`: `kh_put` with its resize, under any outcome of the allocations;
* `khResize_keeps_map`: a resize keeps the map **exactly when no array is lost** as it shrinks;
* `khash_run_refines`: **every run from an empty table answers like the map** while
  memory suffices, resizes, clears and the reuse of deleted buckets included.

A table holds up to `2 ^ 29` entries: at twice that number of buckets `kroundup32` still has
room to double.
-/

namespace Vmars

open CMemory OpenAddressing

variable {K V : Type}

/-! ## Insertion -/

section Put

variable {hash : K → UInt32} {h : Khash K V}

theorem Alloc.ok_granted : Alloc.ok.Granted := ⟨rfl, rfl, rfl⟩

theorem Alloc.ok_shrinks : Alloc.ok.Shrinks := ⟨rfl, rfl⟩

/-- The number of entries below which every insertion finds room. -/
def khMaxEntries : Nat := 2 ^ 29

/-- A resize that grows or cleans the table makes room.  It shrinks no array. -/
theorem khPutResize_room (hinv : h.Inv hash) (alloc : Alloc) (r : UInt32)
    (hroom : h.size.toNat < (acUpperBound (khBucketCount r)).toNat)
    (hgrows : h.nBuckets.toNat ≤ (khBucketCount r).toNat) :
    ∃ h' ret, khResize hash alloc h r = .ok (h', ret) ∧ h'.Inv hash ∧
      h'.entries.Perm h.entries ∧
      ((ret = -1 ∧ ¬ alloc.Granted) ∨
        (ret = 0 ∧ h'.nBuckets ≠ 0 ∧ h'.nOccupied.toNat < h'.upperBound.toNat)) := by
  obtain ⟨h', ret, hresize, hkept, -, hret⟩ := khResize_spec hinv alloc r
  have hle : ¬ h'.nBuckets < h.nBuckets := by
    rw [UInt32.lt_iff_toNat_lt, Nat.not_lt]
    rcases hret with ⟨-, -, hsame⟩ | ⟨-, rfl, -⟩ | ⟨-, hbuckets, -⟩
    · rw [hsame]
    · exact Nat.le_refl _
    · rwa [hbuckets]
  obtain ⟨hinv', hperm⟩ := hkept fun hless => absurd hless hle
  refine ⟨h', ret, hresize, hinv', hperm, ?_⟩
  rcases hret with ⟨hret, hfailed, -⟩ | ⟨-, -, hsmall⟩ |
    ⟨hret, hbuckets, -, hoccupied, -, hbound⟩
  · exact .inl ⟨hret, hfailed⟩
  · exact absurd hroom (Nat.not_lt.mpr hsmall)
  · refine .inr ⟨hret, ?_, by rwa [hoccupied]⟩
    obtain ⟨k, -, hpow⟩ := khBucketCount_pow r
    rw [hbuckets, ne_eq, ← UInt32.toNat_inj, hpow]
    exact (Nat.two_pow_pos k).ne'

/-- The resize at the start of `kh_put`: afterwards a bucket is free. -/
theorem khPutResize_spec (hinv : h.Inv hash) (hsize : h.size.toNat ≤ khMaxEntries)
    (alloc : Alloc) :
    ∃ h' ret, khPutResize hash alloc h = .ok (h', ret) ∧ h'.Inv hash ∧
      h'.entries.Perm h.entries ∧
      ((ret = -1 ∧ ¬ alloc.Granted) ∨
        (ret = 0 ∧ h'.nBuckets ≠ 0 ∧ h'.nOccupied.toNat < h'.upperBound.toNat)) := by
  have hle := hinv.size_le
  have hmax : khMaxEntries = 536870912 := rfl
  have hdouble : (h.size <<< 1).toNat = 2 * h.size.toNat := by
    rw [UInt32.toNat_shiftLeft]
    simp only [UInt32.reduceToNat, Nat.shiftLeft_eq]
    norm_num
    omega
  unfold khPutResize
  by_cases hfull : h.nOccupied ≥ h.upperBound
  · rw [if_pos hfull]
    rcases hinv.buckets with hzero | ⟨k, hk, hbuckets⟩
    · -- the table has no buckets yet
      have hsize' : h.size.toNat = 0 := by
        rw [hinv.size, Khash.entries, hzero]
        rfl
      have hfew : ¬ h.nBuckets > h.size <<< 1 := by
        rw [gt_iff_lt, UInt32.lt_iff_toNat_lt, hzero]
        exact Nat.not_lt_zero _
      rw [if_neg hfew, hzero]
      refine khPutResize_room hinv alloc _ ?_ (by rw [hzero]; exact Nat.zero_le _)
      have hfour : (acUpperBound (khBucketCount (0 + 1))).toNat = 3 := by decide
      omega
    · have hupper := hinv.occupied_le
      have hhalf : 2 ^ k = 2 * 2 ^ (k - 1) := by
        rw [← Nat.pow_succ', Nat.succ_eq_add_one, Nat.sub_add_cancel (by omega)]
      have htwo : 2 ^ 1 ≤ 2 ^ (k - 1) := Nat.pow_le_pow_right (by decide) (by omega)
      by_cases hmany : h.nBuckets > h.size <<< 1
      · -- less than half of the buckets have an entry: the others are cleaned
        rw [if_pos hmany]
        rw [gt_iff_lt, UInt32.lt_iff_toNat_lt, hdouble] at hmany
        have hrequest : (h.nBuckets - 1).toNat = 2 ^ k - 1 := by
          rw [toNat_pred (n := 2 ^ k - 1) (by omega)]
        have hcount := khBucketCount_eq (r := h.nBuckets - 1) (m := k - 1) (by omega) (by omega)
          (by rw [Nat.sub_add_cancel (by omega)]; omega)
        rw [Nat.sub_add_cancel (by omega)] at hcount
        refine khPutResize_room hinv alloc _ (lt_acUpperBound ?_) (by rw [hcount, hbuckets])
        rw [hcount]
        omega
      · rw [if_neg hmany]
        rw [gt_iff_lt, UInt32.lt_iff_toNat_lt, hdouble] at hmany
        have hlarge : 2 ^ k ≤ 2 ^ 30 := by omega
        have hk' := (Nat.pow_le_pow_iff_right (by decide)).mp hlarge
        have hbound := acUpperBound_lt (m := h.nBuckets) (by omega)
        have hequal := congrArg UInt32.toNat hinv.upperBound
        have hrequest : (h.nBuckets + 1).toNat = 2 ^ k + 1 := toNat_succ hbuckets (by omega)
        have hcount := khBucketCount_eq (r := h.nBuckets + 1) (m := k) (by omega) (by omega)
          (by rw [Nat.pow_succ]; omega)
        rw [Nat.pow_succ] at hcount
        refine khPutResize_room hinv alloc _ (lt_acUpperBound ?_) (by rw [hcount]; omega)
        rw [hcount]
        omega
  · rw [if_neg hfull]
    rw [ge_iff_le, UInt32.le_iff_toNat_le, Nat.not_le] at hfull
    refine ⟨h, 0, rfl, hinv, List.Perm.refl _, .inr ⟨rfl, fun hzero => ?_, hfull⟩⟩
    have hequal := congrArg UInt32.toNat hinv.upperBound
    rw [hzero, show (acUpperBound 0).toNat = 0 by decide] at hequal
    omega

variable [DecidableEq K]

/-- **`kh_put`**: without memory it reports the failure and keeps the entries; otherwise the
bucket it returns has the key, which is new exactly when the result is not 0. -/
theorem khPut_spec (hinv : h.Inv hash) (hsize : h.size.toNat ≤ khMaxEntries) (alloc : Alloc)
    (key : K) :
    ∃ h' x ret, khPut hash alloc h key = .ok (h', x, ret) ∧ h'.Inv hash ∧
      ((ret = -1 ∧ ¬ alloc.Granted ∧ x = h'.nBuckets ∧ h'.entries.Perm h.entries) ∨
        (x.toNat < h'.nBuckets.toNat ∧ ∃ val, h'.slot x.toNat = .live key val ∧
          ((ret = 0 ∧ h'.entries.Perm h.entries) ∨
            ((ret = 1 ∨ ret = 2) ∧ (∀ val, (key, val) ∉ h.entries) ∧
              h'.entries.Perm ((key, val) :: h.entries))))) := by
  obtain ⟨h₁, ret, hresize, hinv₁, hperm₁, hret⟩ := khPutResize_spec hinv hsize alloc
  unfold khPut
  rw [hresize, ok_bind]
  rcases hret with ⟨rfl, halloc⟩ | ⟨rfl, hne, hroom⟩
  · exact ⟨h₁, h₁.nBuckets, -1, rfl, hinv₁, .inl ⟨rfl, halloc, rfl, hperm₁⟩⟩
  · obtain ⟨h', x, r, val, hput, hinv', hx, hlive, hr⟩ := khPutAt_spec hinv₁ hne hroom key
    refine ⟨h', x, r, hput, hinv', .inr ⟨hx, val, hlive, ?_⟩⟩
    rcases hr with ⟨rfl, rfl⟩ | ⟨hr, habsent, hperm⟩
    · exact .inl ⟨rfl, hperm₁⟩
    · refine .inr ⟨hr, fun val hmem => habsent val (hperm₁.mem_iff.mpr hmem), ?_⟩
      exact hperm.trans (hperm₁.cons _)

end Put

/-! ## The map of a table -/

/-- The entries are those of a map: each key once, with a value that is written. -/
def Holds (entries : List (K × Option V)) (map : K → Option V) : Prop :=
  ∀ key val, (key, val) ∈ entries ↔ ∃ v, val = some v ∧ map key = some v

/-- The table stands for the map. -/
structure Khash.Represents (hash : K → UInt32) (h : Khash K V) (map : K → Option V) : Prop where
  inv : h.Inv hash
  holds : Holds h.entries map

section Maps

variable {entries : List (K × Option V)} {map : K → Option V} {key : K}

theorem holds_nil : Holds ([] : List (K × Option V)) fun _ => none := by
  intro key val
  simp

theorem Holds.perm {entries' : List (K × Option V)} (h : Holds entries map)
    (hperm : entries'.Perm entries) : Holds entries' map :=
  fun key val => (hperm.mem_iff).trans (h key val)

/-- A key without an entry is not in the map. -/
theorem Holds.eq_none (h : Holds entries map) (habsent : ∀ val, (key, val) ∉ entries) :
    map key = none := by
  by_contra hne
  obtain ⟨v, hv⟩ := Option.ne_none_iff_exists'.mp hne
  exact habsent _ ((h key (some v)).mpr ⟨v, rfl, hv⟩)

variable [DecidableEq K]

/-- An entry for a key that had none. -/
theorem Holds.cons (h : Holds entries map) (habsent : map key = none) (v : V) :
    Holds ((key, some v) :: entries) (Function.update map key (some v)) := by
  intro key' val
  rw [List.mem_cons, h key' val]
  by_cases hkey : key' = key
  · subst hkey
    simp [habsent, Function.update_self]
  · simp [hkey]

/-- The other entries, without the one of a key. -/
theorem Holds.tail {val : Option V} (h : Holds ((key, val) :: entries) map)
    (hdistinct : (((key, val) :: entries).map Prod.fst).Nodup) :
    Holds entries (Function.update map key none) := by
  rw [List.map_cons, List.nodup_cons] at hdistinct
  intro key' val'
  by_cases hkey : key' = key
  · subst hkey
    have hnot : (key', val') ∉ entries := fun hmem =>
      hdistinct.1 (List.mem_map.mpr ⟨_, hmem, rfl⟩)
    simp [hnot, Function.update_self]
  · rw [Function.update_of_ne hkey, ← h key' val', List.mem_cons]
    simp [hkey]

/-- A new value for a key, in the place of its entry. -/
theorem Holds.replace {val : Option V} (h : Holds ((key, val) :: entries) map)
    (hdistinct : (((key, val) :: entries).map Prod.fst).Nodup) (v : V) :
    Holds ((key, some v) :: entries) (Function.update map key (some v)) := by
  have hnew := (h.tail hdistinct).cons (Function.update_self ..) v
  rwa [Function.update_idem] at hnew

end Maps

section Represents

variable {hash : K → UInt32} {h : Khash K V} {map : K → Option V}

theorem khInit_represents (hash : K → UInt32) :
    (khInit : Khash K V).Represents hash fun _ => none :=
  ⟨khInit_inv hash, holds_nil⟩

/-- The keys of the map are those of the entries. -/
theorem Khash.Represents.keys_eq [DecidableEq K] (hrep : h.Represents hash map) :
    {key | map key ≠ none} = ((h.entries.map Prod.fst).toFinset : Set K) := by
  ext key
  rw [Set.mem_ofPred_eq, Finset.mem_coe, List.mem_toFinset, List.mem_map,
    Option.ne_none_iff_exists']
  constructor
  · rintro ⟨v, hv⟩
    exact ⟨(key, some v), (hrep.holds key (some v)).mpr ⟨v, rfl, hv⟩, rfl⟩
  · rintro ⟨⟨key', val⟩, hmem, rfl⟩
    obtain ⟨v, -, hv⟩ := (hrep.holds key' val).mp hmem
    exact ⟨v, hv⟩

/-- A table stands for a finite map. -/
theorem Khash.Represents.finite (hrep : h.Represents hash map) :
    {key | map key ≠ none}.Finite := by
  classical
  rw [hrep.keys_eq]
  exact Finset.finite_toSet _

/-- The size field counts the keys of the map. -/
theorem Khash.Represents.size_eq (hrep : h.Represents hash map) :
    h.size.toNat = {key | map key ≠ none}.ncard := by
  classical
  have hdistinct : (h.entries.map Prod.fst).Nodup := hrep.inv.table.distinct
  rw [hrep.keys_eq, Set.ncard_coe_finset, List.toFinset_card_of_nodup hdistinct, List.length_map,
    hrep.inv.size]

/-- What a live bucket holds is in the map. -/
theorem Khash.Represents.of_live (hrep : h.Represents hash map) {x : UInt32} {key : K}
    {val : Option V} (hx : x.toNat < h.nBuckets.toNat)
    (hlive : h.slot x.toNat = .live key val) : ∃ v, val = some v ∧ map key = some v :=
  (hrep.holds key val).mp (mem_entries.mpr ⟨_, hx, hlive⟩)

/-- The distinct keys after a permutation of the entries. -/
theorem Khash.Inv.distinct_of_perm (hinv : h.Inv hash) {entries : List (K × Option V)}
    (hperm : h.entries.Perm entries) : (entries.map Prod.fst).Nodup :=
  (hperm.map Prod.fst).nodup_iff.mp hinv.table.distinct

variable [DecidableEq K]

/-- `kh_get` and `kh_val` look the key up in the map. -/
theorem Khash.Represents.get (hrep : h.Represents hash map) (key : K) :
    ∃ x, khGet hash h key = .ok x ∧
      ((x = h.nBuckets ∧ map key = none) ∨
        (x ≠ h.nBuckets ∧ x.toNat < h.nBuckets.toNat ∧
          ∃ v, h.slot x.toNat = .live key (some v) ∧ khVal h x = .ok (some v) ∧
            map key = some v)) := by
  obtain ⟨x, hget, hx⟩ := khGet_spec hrep.inv key
  refine ⟨x, hget, ?_⟩
  rcases hx with ⟨hend, habsent⟩ | ⟨hx, val, hlive⟩
  · exact .inl ⟨hend, hrep.holds.eq_none habsent⟩
  · obtain ⟨v, rfl, hv⟩ := hrep.of_live hx hlive
    refine .inr ⟨fun heq => ?_, hx, v, hlive, (hrep.inv.stored.reads hx hlive).2, hv⟩
    rw [heq] at hx
    exact Nat.lt_irrefl _ hx

/-- `kh_put` and a value for its bucket put the key into the map; the result is 0 exactly when
the map had it. -/
theorem Khash.Represents.put (hrep : h.Represents hash map)
    (hsize : {key | map key ≠ none}.ncard ≤ khMaxEntries) (key : K) :
    ∃ h₁ x ret, khPut hash Alloc.ok h key = .ok (h₁, x, ret) ∧
      (∀ v, ∃ h₂, khSetVal h₁ x (some v) = .ok h₂ ∧
        h₂.Represents hash (Function.update map key (some v))) ∧
      (ret = 0 ↔ map key ≠ none) := by
  obtain ⟨h₁, x, ret, hput, hinv₁, hret⟩ :=
    khPut_spec hrep.inv (by rwa [hrep.size_eq]) Alloc.ok key
  rcases hret with ⟨-, hfailed, -⟩ | ⟨hx, val, hlive, hret⟩
  · exact absurd Alloc.ok_granted hfailed
  · refine ⟨h₁, x, ret, hput, fun v => ?_, ?_⟩
    · obtain ⟨h₂, hset, hinv₂, -, -, rest, hold, hnew⟩ := khSetVal_spec hinv₁ hx hlive (some v)
      refine ⟨h₂, hset, hinv₂, ?_⟩
      rcases hret with ⟨-, hperm⟩ | ⟨-, habsent, hperm⟩
      · have hholds := hrep.holds.perm (hold.symm.trans hperm)
        exact (hholds.replace (hinv₁.distinct_of_perm hold) v).perm hnew
      · have hrest := (hold.symm.trans hperm).cons_inv
        exact ((hrep.holds.perm hrest).cons (hrep.holds.eq_none habsent) v).perm hnew
    · rcases hret with ⟨hzero, hperm⟩ | ⟨hret, habsent, -⟩
      · have hmem : (key, val) ∈ h.entries :=
          hperm.mem_iff.mp (mem_entries.mpr ⟨_, hx, hlive⟩)
        obtain ⟨w, -, hw⟩ := (hrep.holds key val).mp hmem
        exact iff_of_true hzero (by simp [hw])
      · exact iff_of_false (by omega) (not_not.mpr (hrep.holds.eq_none habsent))

/-- A new value for a live bucket. -/
theorem Khash.Represents.setVal (hrep : h.Represents hash map) {x : UInt32} {key : K}
    {val : Option V} (hx : x.toNat < h.nBuckets.toNat)
    (hlive : h.slot x.toNat = .live key val) (v : V) :
    ∃ h', khSetVal h x (some v) = .ok h' ∧
      h'.Represents hash (Function.update map key (some v)) := by
  obtain ⟨h', hset, hinv', -, -, rest, hold, hnew⟩ := khSetVal_spec hrep.inv hx hlive (some v)
  have hholds := hrep.holds.perm hold.symm
  exact ⟨h', hset, hinv', (hholds.replace (hrep.inv.distinct_of_perm hold) v).perm hnew⟩

/-- `kh_del` takes the key of a live bucket out of the map. -/
theorem Khash.Represents.del (hrep : h.Represents hash map) {x : UInt32} {key : K}
    {val : Option V} (hx : x.toNat < h.nBuckets.toNat)
    (hlive : h.slot x.toNat = .live key val) :
    ∃ h', khDel h x = .ok h' ∧ h'.Represents hash (Function.update map key none) ∧
      h'.nBuckets = h.nBuckets ∧ h'.slot x.toNat = .deleted := by
  obtain ⟨h', hdel, hinv', hbuckets, hslot, hperm⟩ := khDel_spec hrep.inv hx hlive
  refine ⟨h', hdel, ⟨hinv', ?_⟩, hbuckets, by rw [hslot, Function.update_self]⟩
  exact (hrep.holds.perm hperm.symm).tail (hrep.inv.distinct_of_perm hperm)

omit [DecidableEq K] in
/-- The value of a bucket without an entry does not matter. -/
theorem Khash.Represents.setVal_free (hrep : h.Represents hash map) {x : UInt32}
    (hx : x.toNat < h.nBuckets.toNat) (hfree : (h.slot x.toNat).held = none)
    (val : Option V) :
    ∃ h', khSetVal h x val = .ok h' ∧ h'.Represents hash map := by
  have hstored := hrep.inv.stored
  have hslots : ∀ i < h.nBuckets.toNat,
      slotAt h.flags h.keys (h.vals.set x.toNat val) i = h.slot i := by
    intro i hi
    by_cases hix : i = x.toNat
    · subst hix
      rcases hstored.slot_cases hx with
        ⟨hempty, hslot⟩ | ⟨hempty, hdel, hslot⟩ | ⟨-, -, _, -, hslot⟩
      · rw [Khash.slot, hslot, slotAt, hempty, if_pos rfl]
      · rw [Khash.slot, hslot, slotAt, hempty, hdel]
        rfl
      · rw [Khash.slot, hslot] at hfree
        cases hfree
    · exact slotAt_congr rfl rfl rfl (List.getElem?_set_ne (Ne.symm hix))
  have hstored' : Stored h.nBuckets.toNat h.flags h.keys (h.vals.set x.toNat val) :=
    hstored.of_agree hstored.keys_le (by rw [List.length_set]; exact hstored.vals_le)
      fun _ _ => rfl
  obtain ⟨hinv', hentries⟩ :=
    hrep.inv.of_agree { h with vals := h.vals.set x.toNat val } rfl hstored' hslots
  refine ⟨{ h with vals := h.vals.set x.toNat val }, ?_, hinv', ?_⟩
  · rw [khSetVal, khStore_eq (Nat.lt_of_lt_of_le hx hstored.vals_le)]
    rfl
  · rw [hentries]
    exact hrep.holds

end Represents

/-! ## Runs -/

/-- The operations of a table, as the handlers use them: a value is written into the bucket
that `kh_put` returns. -/
inductive TableOp (K V : Type) where
  | get (key : K)
  | put (key : K) (v : V)
  | del (key : K)
  | clear
  | resize (newNBuckets : UInt32)

/-- What the caller of an operation learns. -/
inductive Answer (V : Type) where
  | found (val : Option V)
  | placed (isNew : Bool)
  | done
  deriving DecidableEq

section Runs

variable [DecidableEq K] (hash : K → UInt32)

/-- An operation. -/
def Khash.step (h : Khash K V) : TableOp K V → Checked (Khash K V × Answer V)
  | .get key => do
      let k ← khGet hash h key
      if k ≠ h.nBuckets then do
        let val ← khVal h k
        .ok (h, .found val)
      else .ok (h, .found none)
  | .put key v => do
      let (h, k, ret) ← khPut hash Alloc.ok h key
      let h ← khSetVal h k (some v)
      .ok (h, .placed (ret ≠ 0))
  | .del key => do
      let k ← khGet hash h key
      let h ← khDel h k
      .ok (h, .done)
  | .clear => .ok (khClear h, .done)
  | .resize newNBuckets => do
      let (h, _) ← khResize hash Alloc.ok h newNBuckets
      .ok (h, .done)

/-- A run of operations, with the answers. -/
def Khash.run (h : Khash K V) : List (TableOp K V) → Checked (Khash K V × List (Answer V))
  | [] => .ok (h, [])
  | op :: ops => do
      let (h, answer) ← h.step hash op
      let (h, answers) ← h.run ops
      .ok (h, answer :: answers)

/-- An operation on a map. -/
def mapStep (map : K → Option V) : TableOp K V → (K → Option V) × Answer V
  | .get key => (map, .found (map key))
  | .put key v => (Function.update map key (some v), .placed (map key).isNone)
  | .del key => (Function.update map key none, .done)
  | .clear => (fun _ => none, .done)
  | .resize _ => (map, .done)

/-- A run of operations on a map. -/
def mapRun (map : K → Option V) : List (TableOp K V) → (K → Option V) × List (Answer V)
  | [] => (map, [])
  | op :: ops =>
      let (map, answer) := mapStep map op
      let (map, answers) := mapRun map ops
      (map, answer :: answers)

/-- The map never has more keys than a table holds. -/
def Fits (map : K → Option V) : List (TableOp K V) → Prop
  | [] => True
  | op :: ops =>
      {key | map key ≠ none}.ncard ≤ khMaxEntries ∧ Fits (mapStep map op).1 ops

variable {hash}

/-- An operation on the table is one on its map. -/
theorem Khash.Represents.step {h : Khash K V} {map : K → Option V}
    (hrep : h.Represents hash map) (hsize : {key | map key ≠ none}.ncard ≤ khMaxEntries)
    (op : TableOp K V) :
    ∃ h', h.step hash op = .ok (h', (mapStep map op).2) ∧
      h'.Represents hash (mapStep map op).1 := by
  cases op with
  | get key =>
      obtain ⟨x, hget, ⟨hend, hnone⟩ | ⟨hne, -, v, -, hval, hv⟩⟩ := hrep.get key
      · exact ⟨h, by simp [Khash.step, mapStep, hget, hend, hnone], hrep⟩
      · exact ⟨h, by simp [Khash.step, mapStep, hget, hne, hval, hv], hrep⟩
  | put key v =>
      obtain ⟨h₁, x, ret, hput, hsets, hret⟩ := hrep.put hsize key
      obtain ⟨h₂, hset, hrep'⟩ := hsets v
      refine ⟨h₂, ?_, hrep'⟩
      have hnew : decide (ret ≠ 0) = (map key).isNone := by
        rw [Bool.eq_iff_iff, decide_eq_true_eq, ne_eq, hret, not_not, Option.isNone_iff_eq_none]
      simp only [Khash.step, mapStep, hput, ok_bind, hset, hnew]
  | del key =>
      obtain ⟨x, hget, ⟨hend, hnone⟩ | ⟨-, hx, v, hlive, -⟩⟩ := hrep.get key
      · refine ⟨h, by simp [Khash.step, mapStep, hget, hend, khDel], ?_⟩
        have hkept : Function.update map key none = map := by
          rw [← hnone, Function.update_eq_self]
        rwa [mapStep, hkept]
      · obtain ⟨h', hdel, hrep', -⟩ := hrep.del hx hlive
        exact ⟨h', by simp only [Khash.step, mapStep, hget, ok_bind, hdel], hrep'⟩
  | clear =>
      obtain ⟨hinv, -, hnil⟩ := khClear_spec hrep.inv
      exact ⟨khClear h, rfl, hinv, by rw [hnil]; exact holds_nil⟩
  | resize newNBuckets =>
      obtain ⟨h', ret, hresize, hkept, -⟩ := khResize_spec hrep.inv Alloc.ok newNBuckets
      obtain ⟨hinv, hperm⟩ := hkept fun _ => Alloc.ok_shrinks
      exact ⟨h', by simp only [Khash.step, mapStep, hresize, ok_bind], hinv,
        hrep.holds.perm hperm⟩

/-- A run of the table is one of its map. -/
theorem Khash.Represents.run (ops : List (TableOp K V)) :
    ∀ {h : Khash K V} {map : K → Option V}, h.Represents hash map → Fits map ops →
      ∃ h', h.run hash ops = .ok (h', (mapRun map ops).2) ∧
        h'.Represents hash (mapRun map ops).1 := by
  induction ops with
  | nil => exact fun hrep _ => ⟨_, rfl, hrep⟩
  | cons op ops ih =>
      intro h map hrep hfits
      obtain ⟨h₁, hstep, hrep₁⟩ := hrep.step hfits.1 op
      obtain ⟨h₂, hrun, hrep₂⟩ := ih hrep₁ hfits.2
      exact ⟨h₂, by simp only [Khash.run, mapRun, hstep, hrun, ok_bind], hrep₂⟩

end Runs

/-! ## Short runs -/

section Fits

variable [DecidableEq K]

/-- An operation adds at most one key. -/
theorem mapStep_ncard {map : K → Option V} (hfinite : {key | map key ≠ none}.Finite)
    (op : TableOp K V) :
    {key | (mapStep map op).1 key ≠ none}.Finite ∧
      {key | (mapStep map op).1 key ≠ none}.ncard ≤ {key | map key ≠ none}.ncard + 1 := by
  have hshrinks : {key | (mapStep map op).1 key ≠ none} ⊆ {key | map key ≠ none} →
      {key | (mapStep map op).1 key ≠ none}.Finite ∧
        {key | (mapStep map op).1 key ≠ none}.ncard ≤ {key | map key ≠ none}.ncard + 1 :=
    fun hsubset => ⟨hfinite.subset hsubset, (Set.ncard_le_ncard hsubset hfinite).trans (by omega)⟩
  cases op with
  | get key => exact hshrinks fun key hkey => hkey
  | put key v =>
      have hsubset : {key' | Function.update map key (some v) key' ≠ none} ⊆
          insert key {key | map key ≠ none} := by
        intro key' hkey'
        by_cases hself : key' = key
        · exact .inl hself
        · rw [Set.mem_ofPred_eq, Function.update_of_ne hself] at hkey'
          exact .inr hkey'
      refine ⟨(hfinite.insert key).subset hsubset, ?_⟩
      exact (Set.ncard_le_ncard hsubset (hfinite.insert key)).trans (Set.ncard_insert_le ..)
  | del key =>
      refine hshrinks fun key' hkey' => ?_
      have hkept : Function.update map key none key' ≠ none := hkey'
      by_cases hself : key' = key
      · rw [hself, Function.update_self] at hkept
        exact absurd rfl hkept
      · rwa [Function.update_of_ne hself] at hkept
  | clear => exact hshrinks fun key hkey => absurd rfl hkey
  | resize newNBuckets => exact hshrinks fun key hkey => hkey

/-- A run fits when the keys at its start and its operations are not too many. -/
theorem fits_of_length (ops : List (TableOp K V)) :
    ∀ {map : K → Option V}, {key | map key ≠ none}.Finite →
      {key | map key ≠ none}.ncard + ops.length ≤ khMaxEntries → Fits map ops := by
  induction ops with
  | nil => exact fun _ _ => trivial
  | cons op ops ih =>
      intro map hfinite hlength
      rw [List.length_cons] at hlength
      obtain ⟨hfinite', hncard⟩ := mapStep_ncard hfinite op
      exact ⟨by omega, ih hfinite' (by omega)⟩

/-- A short run from an empty table fits. -/
theorem fits_start {ops : List (TableOp K V)} (h : ops.length ≤ khMaxEntries) :
    Fits (fun _ => none) ops := by
  have hnone : {key : K | (none : Option V) ≠ none} = ∅ := by simp
  apply fits_of_length
  · rw [hnone]
    exact Set.finite_empty
  · rwa [hnone, Set.ncard_empty, Nat.zero_add]

end Fits

/-! ## The refinement -/

section Refinement

/-- **Every run from an empty table answers like a run of a finite map** while memory suffices,
and the table ends up as that map, whatever hash function it has. -/
theorem khash_run_refines [DecidableEq K] (hash : K → UInt32) (ops : List (TableOp K V))
    (hfits : Fits (fun _ => none) ops) :
    ∃ h, (khInit : Khash K V).run hash ops = .ok (h, (mapRun (fun _ => none) ops).2) ∧
      h.Represents hash (mapRun (fun _ => none) ops).1 :=
  (khInit_represents hash).run ops hfits

/-- Colliding keys, a deletion, and a lookup past the deleted bucket. -/
theorem khash_run_refines_collision :
    (mapRun (fun _ => none) [.put 1 10, .put 5 50, .del 1, .get 5, .put 1 11, .resize 9, .get 1,
      .get 5]).2 =
        [.placed true, .placed true, .done, .found (some 50), .placed true, .done,
          .found (some 11), .found (some 50)] ∧
    ∃ h, (khInit : Khash Nat Nat).run UInt32.ofNat [.put 1 10, .put 5 50, .del 1, .get 5,
        .put 1 11, .resize 9, .get 1, .get 5] =
          .ok (h, (mapRun (fun _ => none) [.put 1 10, .put 5 50, .del 1, .get 5, .put 1 11,
            .resize 9, .get 1, .get 5]).2) ∧
      h.Represents UInt32.ofNat (mapRun (fun _ => none) [.put 1 10, .put 5 50, .del 1, .get 5,
        .put 1 11, .resize 9, .get 1, .get 5]).1 :=
  ⟨by decide, khash_run_refines _ _ (fits_start (by decide))⟩

end Refinement

/-! ## A resize without memory -/

section Resize

variable {hash : K → UInt32} {h : Khash K V} {map : K → Option V}

/-- **A resize keeps the map exactly when it loses no array**: whatever is requested, and
whichever allocation fails, unless the table became smaller and one of the two reallocations
did whose result the code does not look at.  The result is -1 only when one failed that it
looks at.  A resize that takes place leaves a power of two of buckets, no deleted ones among
them, and at least one of them empty. -/
theorem khResize_keeps_map (hrep : h.Represents hash map) (alloc : Alloc) (r : UInt32) :
    ∃ h' ret, khResize hash alloc h r = .ok (h', ret) ∧
      (h'.Represents hash map ↔ (h'.nBuckets < h.nBuckets → alloc.Shrinks)) ∧
      ((ret = -1 ∧ ¬ alloc.Granted ∧ h'.nBuckets = h.nBuckets) ∨ (ret = 0 ∧ h' = h) ∨
        (ret = 0 ∧ (∃ k, h'.nBuckets.toNat = 2 ^ k) ∧ h'.nOccupied = h'.size ∧
          h'.size.toNat < h'.nBuckets.toNat)) := by
  obtain ⟨h', ret, hresize, hkept, hlost, hret⟩ := khResize_spec hrep.inv alloc r
  refine ⟨h', ret, hresize, ⟨fun hrep' => hlost hrep'.inv, fun hgranted => ?_⟩, ?_⟩
  · obtain ⟨hinv, hperm⟩ := hkept hgranted
    exact ⟨hinv, hrep.holds.perm hperm⟩
  · rcases hret with hfailed | ⟨hret, hsame, -⟩ |
      ⟨hret, hbuckets, hupper, hoccupied, hsize, hbound⟩
    · exact .inl hfailed
    · exact .inr (.inl ⟨hret, hsame⟩)
    · obtain ⟨k, hk, hpow⟩ := khBucketCount_pow r
      have hfour : 2 ^ 2 ≤ 2 ^ k := Nat.pow_le_pow_right (by decide) hk.1
      rw [hupper, hbuckets] at hbound
      refine .inr (.inr ⟨hret, ⟨k, by rw [hbuckets, hpow]⟩, by rw [hoccupied, hsize], ?_⟩)
      rw [hsize, hbuckets]
      exact hbound.trans (acUpperBound_lt (by omega))

/-- Three colliding keys, one of them deleted again, in a table that is asked for 30 buckets. -/
def sparseOps : List (TableOp Nat Nat) :=
  [.put 1 10, .put 5 50, .put 9 90, .del 5, .resize 30]

/-- The table after these operations. -/
def sparseTable : Khash Nat Nat :=
  match (khInit : Khash Nat Nat).run UInt32.ofNat sparseOps with
  | .ok (h, _) => h
  | .error _ => khInit

/-- The table stands for the map that the operations make. -/
theorem sparseTable_represents :
    sparseTable.Represents UInt32.ofNat (mapRun (fun _ => none) sparseOps).1 := by
  obtain ⟨h, hrun, hrep⟩ := (khInit_represents UInt32.ofNat).run sparseOps
    (fits_start (by decide))
  rw [sparseTable, hrun]
  exact hrep

/-- From 32 to 8 buckets: the map is kept where both arrays are, although the larger arrays
that this resize does not ask for would fail, and it is lost without the values, although the
result is 0 as well. -/
theorem khResize_keeps_map_sparse :
    (∃ h' ret, khResize UInt32.ofNat ⟨true, false, false, true, true⟩ sparseTable 5 =
        .ok (h', ret) ∧ ret = 0 ∧ h'.nBuckets = 8 ∧
      h'.Represents UInt32.ofNat (mapRun (fun _ => none) sparseOps).1) ∧
    ∃ h' ret, khResize UInt32.ofNat ⟨true, true, true, true, false⟩ sparseTable 5 =
        .ok (h', ret) ∧ ret = 0 ∧ h'.nBuckets = 8 ∧
      ¬ h'.Represents UInt32.ofNat (mapRun (fun _ => none) sparseOps).1 := by
  constructor
  · obtain ⟨h', ret, hresize, hkept, -⟩ :=
      khResize_keeps_map sparseTable_represents ⟨true, false, false, true, true⟩ 5
    have hvalue :
        (khResize UInt32.ofNat ⟨true, false, false, true, true⟩ sparseTable 5).toOption.map
          (fun result => (result.2, result.1.nBuckets)) = some (0, 8) := by decide +kernel
    rw [hresize] at hvalue
    obtain ⟨hret, hbuckets⟩ := Prod.mk.inj (Option.some.inj hvalue)
    exact ⟨h', ret, hresize, hret, hbuckets, hkept.mpr fun _ => ⟨rfl, rfl⟩⟩
  · obtain ⟨h', ret, hresize, hkept, -⟩ :=
      khResize_keeps_map sparseTable_represents ⟨true, true, true, true, false⟩ 5
    have hvalue :
        (khResize UInt32.ofNat ⟨true, true, true, true, false⟩ sparseTable 5).toOption.map
          (fun result => (result.2, result.1.nBuckets)) = some (0, 8) := by decide +kernel
    have hstart : sparseTable.nBuckets = 32 := by decide +kernel
    rw [hresize] at hvalue
    obtain ⟨hret, hbuckets⟩ := Prod.mk.inj (Option.some.inj hvalue)
    refine ⟨h', ret, hresize, hret, hbuckets, fun hrep => ?_⟩
    have hless : h'.nBuckets < sparseTable.nBuckets := by
      rw [show h'.nBuckets = 8 from hbuckets, hstart]
      decide
    obtain ⟨-, hvals⟩ := hkept.mp hrep hless
    cases hvals

end Resize

end Vmars
