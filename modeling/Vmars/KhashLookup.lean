import Vmars.KhashFlags
import Vmars.OpenAddressing
import Vmars.TriangularProbing

/-!
# Lookups, insertions and deletions of the hash table

The three arrays of `khash.h` are a table of slots in the sense of `OpenAddressing`, with the
triangular probe sequence.  `Khash.Inv` is the invariant of a table between calls; under it

* `khGet_spec`: `kh_get` finds the bucket of the key or reports the end;
* `khPutAt_spec`: `kh_put`, once it has room, takes the bucket of the key or a free one, in
  which the key is found again;
* `khDel_spec`, `khSetVal_spec`: deletion and a new value.

None of them reads outside the arrays, reads an unwritten or freed key, or runs forever.
-/

namespace Vmars

open CMemory OpenAddressing

section Slots

variable {K V : Type}

/-! ## The slots of a table -/

/-- The slot that the flags and the arrays describe. -/
def slotAt (flags : List UInt32) (keys : List (Option K)) (vals : List (Option V)) (i : Nat) :
    Bucket K (Option V) :=
  if emptyBit flags i then .empty
  else if delBit flags i then .deleted
  else
    match (keys[i]?).join with
    | some key => .live key (vals[i]?).join
    | none => .deleted

/-- The slots of a table. -/
def Khash.slot (h : Khash K V) : Nat → Bucket K (Option V) := slotAt h.flags h.keys h.vals

/-- The entries of a table: keys, and values that may not be written yet. -/
def Khash.entries (h : Khash K V) : List (K × Option V) :=
  OpenAddressing.entries h.nBuckets.toNat h.slot

/-- The bucket after `s` steps of the search for a key. -/
def khSite (hash : K → UInt32) (n : Nat) (key : K) (s : Nat) : Nat :=
  TriangularProbing.site n (hash key).toNat s

/-- The arrays have room for `n` buckets, and a bucket that is neither empty nor deleted has a
key that can be read. -/
structure Stored (n : Nat) (flags : List UInt32) (keys : List (Option K))
    (vals : List (Option V)) : Prop where
  words : ∀ i < n, i / 16 < flags.length
  keys_le : n ≤ keys.length
  vals_le : n ≤ vals.length
  written : ∀ i < n, emptyBit flags i = false → delBit flags i = false →
    ∃ key, keys[i]? = some (some key)

/-- **The invariant** of a table between calls. -/
structure Khash.Inv (hash : K → UInt32) (h : Khash K V) : Prop where
  stored : Stored h.nBuckets.toNat h.flags h.keys h.vals
  buckets : h.nBuckets = 0 ∨ ∃ k, (2 ≤ k ∧ k ≤ 31) ∧ h.nBuckets.toNat = 2 ^ k
  upperBound : h.upperBound = acUpperBound h.nBuckets
  size : h.size.toNat = h.entries.length
  occupied : h.nOccupied.toNat = OpenAddressing.occupied h.nBuckets.toNat h.slot
  occupied_le : h.nOccupied.toNat ≤ h.upperBound.toNat
  table : OpenAddressing.Inv h.nBuckets.toNat (khSite hash h.nBuckets.toNat) h.slot

/-- The empty table of `kh_init`. -/
theorem khInit_inv (hash : K → UInt32) : (khInit : Khash K V).Inv hash where
  stored := ⟨by simp [khInit], by simp [khInit], by simp [khInit], by simp [khInit]⟩
  buckets := .inl rfl
  upperBound := by
    show (0 : UInt32) = acUpperBound 0
    decide
  size := rfl
  occupied := rfl
  occupied_le := Nat.le_refl 0
  table := ⟨List.nodup_nil, fun i hi => absurd hi (Nat.not_lt_zero i)⟩

section Reads

variable {n : Nat} {flags : List UInt32} {keys : List (Option K)} {vals : List (Option V)}
  {i : UInt32}

/-- The three kinds of buckets, as the flags and as the slots tell them apart. -/
theorem Stored.slot_cases (h : Stored n flags keys vals) {i : Nat} (hi : i < n) :
    (emptyBit flags i = true ∧ slotAt flags keys vals i = .empty) ∨
    (emptyBit flags i = false ∧ delBit flags i = true ∧
      slotAt flags keys vals i = .deleted) ∨
    (emptyBit flags i = false ∧ delBit flags i = false ∧
      ∃ key, keys[i]? = some (some key) ∧
        slotAt flags keys vals i = .live key (vals[i]?).join) := by
  cases hempty : emptyBit flags i with
  | true => exact .inl ⟨rfl, by simp [slotAt, hempty]⟩
  | false =>
      cases hdel : delBit flags i with
      | true => exact .inr (.inl ⟨rfl, rfl, by simp [slotAt, hempty, hdel]⟩)
      | false =>
          obtain ⟨key, hkey⟩ := h.written i hi hempty hdel
          exact .inr (.inr ⟨rfl, rfl, key, hkey, by simp [slotAt, hempty, hdel, hkey]⟩)

/-- `__ac_isempty` of a bucket of the table. -/
theorem Stored.acIsempty_eq (h : Stored n flags keys vals) (hi : i.toNat < n) :
    acIsempty flags i = .ok (slotAt flags keys vals i.toNat).isEmpty := by
  rw [Vmars.acIsempty_eq (h.words _ hi)]
  rcases h.slot_cases hi with ⟨hempty, hslot⟩ | ⟨hempty, -, hslot⟩ | ⟨hempty, -, _, -, hslot⟩
  all_goals rw [hempty, hslot]; rfl

/-- `__ac_iseither` says that a bucket has no entry. -/
theorem Stored.acIseither_eq (h : Stored n flags keys vals) (hi : i.toNat < n) :
    acIseither flags i = .ok (slotAt flags keys vals i.toNat).held.isNone := by
  rw [Vmars.acIseither_eq (h.words _ hi)]
  rcases h.slot_cases hi with ⟨hempty, hslot⟩ | ⟨hempty, hdel, hslot⟩ | ⟨hempty, hdel, _, -, hslot⟩
  · rw [hempty, hslot]
    rfl
  all_goals rw [hempty, hdel, hslot]; rfl

/-- Of a used bucket the second bit says whether its entry was deleted. -/
theorem Stored.acIsdel_eq (h : Stored n flags keys vals) (hi : i.toNat < n)
    (hused : slotAt flags keys vals i.toNat ≠ .empty) :
    acIsdel flags i = .ok (slotAt flags keys vals i.toNat).held.isNone := by
  rw [Vmars.acIsdel_eq (h.words _ hi)]
  rcases h.slot_cases hi with ⟨-, hslot⟩ | ⟨-, hdel, hslot⟩ | ⟨-, hdel, _, -, hslot⟩
  · exact absurd hslot hused
  all_goals rw [hdel, hslot]; rfl

/-- The key and the value of a live bucket. -/
theorem Stored.reads (h : Stored n flags keys vals) (hi : i.toNat < n) {key : K}
    {val : Option V} (hlive : slotAt flags keys vals i.toNat = .live key val) :
    khKeyAt keys i = .ok key ∧ khValAt vals i = .ok val := by
  rcases h.slot_cases hi with ⟨-, hslot⟩ | ⟨-, -, hslot⟩ | ⟨-, -, key', hkey, hslot⟩
  · rw [hslot] at hlive
    cases hlive
  · rw [hslot] at hlive
    cases hlive
  · rw [hslot] at hlive
    obtain ⟨rfl, rfl⟩ := Bucket.live.inj hlive
    have hval := List.getElem?_eq_getElem (Nat.lt_of_lt_of_le hi h.vals_le)
    rw [khKeyAt, hkey, khValAt, hval]
    exact ⟨rfl, rfl⟩

/-- Two bits for each bucket, and a key where they are clear: the arrays after an update of one
bucket. -/
theorem Stored.update {flags' : List UInt32} {keys' : List (Option K)}
    {vals' : List (Option V)} {x : Nat} (h : Stored n flags keys vals)
    (hflags : flags'.length = flags.length) (hkeys : keys'.length = keys.length)
    (hvals : vals'.length = vals.length)
    (hother : ∀ i, i ≠ x → emptyBit flags' i = emptyBit flags i ∧
      delBit flags' i = delBit flags i ∧ keys'[i]? = keys[i]?)
    (hself : emptyBit flags' x = false → delBit flags' x = false →
      ∃ key, keys'[x]? = some (some key)) : Stored n flags' keys' vals' := by
  refine ⟨?_, by rw [hkeys]; exact h.keys_le, by rw [hvals]; exact h.vals_le, ?_⟩
  · intro i hi
    rw [hflags]
    exact h.words i hi
  · intro i hi hempty hdel
    by_cases hix : i = x
    · subst hix
      exact hself hempty hdel
    · obtain ⟨hempty', hdel', hkey⟩ := hother i hix
      rw [hkey]
      exact h.written i hi (hempty' ▸ hempty) (hdel' ▸ hdel)

end Reads

/-! ## Updates of a slot -/

section Writes

variable {n : Nat} {flags : List UInt32} {keys : List (Option K)} {vals : List (Option V)}
  {i : UInt32}

theorem khStore_eq {α : Type} {a : List α} {i : UInt32} (h : i.toNat < a.length) (x : α) :
    khStore a i x = .ok (a.set i.toNat x) := if_pos h

/-- Everything that decides about the slot of a bucket. -/
theorem slotAt_congr {flags flags' : List UInt32} {keys keys' : List (Option K)}
    {vals vals' : List (Option V)} {i : Nat} (hempty : emptyBit flags' i = emptyBit flags i)
    (hdel : delBit flags' i = delBit flags i) (hkey : keys'[i]? = keys[i]?)
    (hval : vals'[i]? = vals[i]?) : slotAt flags' keys' vals' i = slotAt flags keys vals i := by
  rw [slotAt, slotAt, hempty, hdel, hkey, hval]

/-- A live entry is marked as deleted. -/
theorem Stored.setIsdelTrue (h : Stored n flags keys vals) (hi : i.toNat < n)
    (hlive : (slotAt flags keys vals i.toNat).held ≠ none) :
    ∃ flags', acSetIsdelTrue flags i = .ok flags' ∧ Stored n flags' keys vals ∧
      (∀ j, emptyBit flags' j = emptyBit flags j) ∧
      slotAt flags' keys vals = Function.update (slotAt flags keys vals) i.toNat .deleted := by
  obtain ⟨flags', hset, hlength, hempty, hdel⟩ := acSetIsdelTrue_spec (h.words _ hi)
  have hused : emptyBit flags i.toNat = false := by
    rcases h.slot_cases hi with ⟨-, hslot⟩ | ⟨hused, -⟩ | ⟨hused, -⟩
    · rw [hslot] at hlive
      exact absurd rfl hlive
    · exact hused
    · exact hused
  refine ⟨flags', hset, ?_, hempty, ?_⟩
  · refine h.update (x := i.toNat) hlength rfl rfl ?_ ?_
    · exact fun j hj => ⟨hempty j, by simp [hdel, hj], rfl⟩
    · intro _ hclear
      simp [hdel] at hclear
  · funext j
    by_cases hj : j = i.toNat
    · subst hj
      rw [Function.update_self]
      simp [slotAt, hempty, hused, hdel]
    · rw [Function.update_of_ne hj]
      exact slotAt_congr (hempty j) (by simp [hdel, hj]) rfl rfl

/-- An entry is written into a bucket whose flags are cleared. -/
theorem Stored.write {flags' : List UInt32} {key : K} {val : Option V} (hi : i.toNat < n)
    (hkeys : n ≤ keys.length) (hvals : n ≤ vals.length)
    (hempty : ∀ j, emptyBit flags' j = (emptyBit flags j && !decide (j = i.toNat)))
    (hdel : ∀ j, j ≠ i.toNat → delBit flags' j = delBit flags j)
    (hclear : delBit flags' i.toNat = false) :
    slotAt flags' (keys.set i.toNat (some key)) (vals.set i.toNat val) =
      Function.update (slotAt flags keys vals) i.toNat (.live key val) := by
  funext j
  by_cases hj : j = i.toNat
  · subst hj
    rw [Function.update_self]
    simp [slotAt, hempty, hclear, List.getElem?_set_self (Nat.lt_of_lt_of_le hi hkeys),
      List.getElem?_set_self (Nat.lt_of_lt_of_le hi hvals)]
  · rw [Function.update_of_ne hj]
    refine slotAt_congr ?_ (hdel j hj) ?_ ?_
    · simp [hempty, hj]
    · exact List.getElem?_set_ne (Ne.symm hj)
    · exact List.getElem?_set_ne (Ne.symm hj)

end Writes

/-! ## The probe sequence -/

section Sequence

variable (hash : K → UInt32) {m : UInt32} {k : Nat}

/-- **The probe sequence visits every bucket**: the number of buckets is a power of two. -/
theorem khSite_probing (hm : m.toNat = 2 ^ k) :
    Probing m.toNat (khSite hash m.toNat) where
  lt key s := by
    rw [hm]
    exact TriangularProbing.site_lt (Nat.two_pow_pos k) _ s
  covers key i hi := by
    rw [hm] at hi ⊢
    exact TriangularProbing.exists_site hi

/-- The mask of a number of buckets. -/
theorem toNat_and_mask (hm : m.toNat = 2 ^ k) (x : UInt32) :
    (x &&& (m - 1)).toNat = x.toNat % m.toNat := by
  have hlt := m.toNat_lt
  have hpos := Nat.two_pow_pos k
  have hmask : (m - 1).toNat = 2 ^ k - 1 := by
    rw [UInt32.toNat_sub]
    simp only [UInt32.reduceToNat]
    omega
  rw [UInt32.toNat_and, hmask, Nat.and_two_pow_sub_one_eq_mod, hm]

/-- The sequence of a key starts at its hash. -/
theorem khSite_start (hm : m.toNat = 2 ^ k) (key : K) :
    (hash key &&& (m - 1)).toNat = khSite hash m.toNat key 0 := toNat_and_mask hm _

/-- The next bucket of a search. -/
theorem khSite_step (hm : m.toNat = 2 ^ k) {key : K} {i step : UInt32} {t : Nat}
    (hi : i.toNat = khSite hash m.toNat key t) (hstep : step.toNat = t) (ht : t + 1 < m.toNat) :
    ((i + (step + 1)) &&& (m - 1)).toNat = khSite hash m.toNat key (t + 1) ∧
      (step + 1).toNat = t + 1 := by
  have hlt := m.toNat_lt
  have hsucc : (step + 1).toNat = t + 1 := by
    rw [UInt32.toNat_add, hstep]
    simp only [UInt32.reduceToNat]
    omega
  refine ⟨?_, hsucc⟩
  have hdvd : m.toNat ∣ 2 ^ 32 := by
    rw [hm] at hlt ⊢
    exact Nat.pow_dvd_pow 2 (Nat.le_of_lt ((Nat.pow_lt_pow_iff_right (by decide)).mp hlt))
  rw [toNat_and_mask hm, UInt32.toNat_add, hsucc, hi, Nat.mod_mod_of_dvd _ hdvd, khSite, khSite,
    TriangularProbing.site_succ]

/-- Within the first `m` steps a search does not come back to where it began. -/
theorem khSite_ne_start (hm : m.toNat = 2 ^ k) {key : K} {t : Nat} (hpos : 0 < t)
    (ht : t < m.toNat) : khSite hash m.toNat key t ≠ khSite hash m.toNat key 0 := by
  rw [hm] at ht ⊢
  exact (TriangularProbing.site_injective ht hpos).symm

end Sequence

/-! ## Lookup -/

section Lookup

variable {hash : K → UInt32} {h : Khash K V}

/-- A table with buckets: their number is a power of two, and one of them is empty. -/
theorem Khash.Inv.exists_empty (hinv : h.Inv hash) (hne : h.nBuckets ≠ 0) :
    ∃ k, h.nBuckets.toNat = 2 ^ k ∧
      ∃ i < h.nBuckets.toNat, h.slot i = .empty := by
  rcases hinv.buckets with hzero | ⟨k, hk, hbuckets⟩
  · exact absurd hzero hne
  · have hfour : 2 ^ 2 ≤ 2 ^ k := Nat.pow_le_pow_right (by decide) hk.1
    have hle := hinv.occupied_le
    have hbound := acUpperBound_lt (m := h.nBuckets) (by omega)
    rw [hinv.occupied, hinv.upperBound] at hle
    exact ⟨k, hbuckets, OpenAddressing.exists_empty (by omega)⟩

variable [DecidableEq K]

/-- The loop condition: the search for the key does not stop here. -/
theorem khPasses_spec (hstored : Stored h.nBuckets.toNat h.flags h.keys h.vals) (key : K)
    {i : UInt32} (hi : i.toNat < h.nBuckets.toNat) :
    ∃ passes, khPasses h key i = .ok passes ∧
      (passes = false ↔ Stops h.slot key i.toNat) := by
  have hisempty := hstored.acIsempty_eq hi
  cases hslot : slotAt h.flags h.keys h.vals i.toNat with
  | empty =>
      rw [hslot] at hisempty
      refine ⟨false, ?_, iff_of_true rfl (.inl hslot)⟩
      rw [khPasses, hisempty]
      rfl
  | deleted =>
      have hisdel := hstored.acIsdel_eq hi (by rw [hslot]; simp)
      rw [hslot] at hisempty hisdel
      refine ⟨true, ?_, iff_of_false (by simp) ?_⟩
      · rw [khPasses, hisempty, hisdel]
        rfl
      · rintro (hempty | ⟨val, hlive⟩)
        · exact nomatch hslot.symm.trans hempty
        · exact nomatch hslot.symm.trans hlive
  | live stored val =>
      have hisdel := hstored.acIsdel_eq hi (by rw [hslot]; simp)
      have hkey := (hstored.reads hi hslot).1
      rw [hslot] at hisempty hisdel
      refine ⟨decide (stored ≠ key), ?_, ?_⟩
      · rw [khPasses, hisempty, hisdel]
        simp only [Bucket.isEmpty_live, Bucket.held_live, Option.isNone_some, ok_bind, hkey,
          Bool.false_eq_true, if_false]
      · rw [decide_eq_false_iff_not, not_not]
        constructor
        · rintro rfl
          exact .inr ⟨val, hslot⟩
        · rintro (hempty | ⟨val', hlive⟩)
          · exact nomatch hslot.symm.trans hempty
          · exact (Bucket.live.inj (hslot.symm.trans hlive)).1

/-- The loop of `kh_get` from a bucket of the search, up to the one where it stops. -/
theorem khGetLoop_spec (hstored : Stored h.nBuckets.toNat h.flags h.keys h.vals) {k : Nat}
    (hbuckets : h.nBuckets.toNat = 2 ^ k) {key : K} {s : Nat} (hs : s < h.nBuckets.toNat)
    (hfirst : First (khSite hash h.nBuckets.toNat) (Stops h.slot key) key s) {last : UInt32}
    (hlast : last.toNat = khSite hash h.nBuckets.toNat key 0) :
    ∀ fuel t (i step : UInt32), i.toNat = khSite hash h.nBuckets.toNat key t →
      step.toNat = t → t ≤ s → s - t < fuel →
      ∃ x, khGetLoop h key last fuel i step = .ok x ∧
        ((x = h.nBuckets ∧ h.slot (khSite hash h.nBuckets.toNat key s) = .empty) ∨
          (x.toNat = khSite hash h.nBuckets.toNat key s ∧
            ∃ val, h.slot x.toNat = .live key val)) := by
  have hprobing := khSite_probing hash hbuckets
  intro fuel
  induction fuel with
  | zero => exact fun t i step _ _ _ hfuel => absurd hfuel (Nat.not_lt_zero _)
  | succ fuel ih =>
      intro t i step hi hstep hts hfuel
      have hlt : i.toNat < h.nBuckets.toNat := hi ▸ hprobing.lt key t
      obtain ⟨passes, hpasses, hiff⟩ := khPasses_spec hstored key hlt
      rw [khGetLoop, hpasses, ok_bind]
      rcases Nat.lt_or_eq_of_le hts with htlt | rfl
      · have hgoes : passes = true := by
          rw [← Bool.not_eq_false, hiff, hi]
          exact hfirst.passes t htlt
        obtain ⟨hnext, hsucc⟩ := khSite_step hash hbuckets hi hstep (by omega)
        have hwrap : ¬ (i + (step + 1)) &&& (h.nBuckets - 1) = last := by
          rw [← UInt32.toNat_inj, hnext, hlast]
          exact khSite_ne_start hash hbuckets (Nat.succ_pos t) (by omega)
        rw [hgoes, if_pos rfl, if_neg hwrap]
        exact ih (t + 1) _ _ hnext hsucc htlt (by omega)
      · have hstops : passes = false := by
          rw [hiff, hi]
          exact hfirst.stops
        rw [hstops, if_neg (by decide), hstored.acIseither_eq hlt, ok_bind]
        rcases hfirst.stops with hempty | ⟨val, hlive⟩
        · have hslot : slotAt h.flags h.keys h.vals i.toNat = .empty := by
            rw [hi]
            exact hempty
          exact ⟨h.nBuckets, by rw [hslot]; rfl, .inl ⟨rfl, hempty⟩⟩
        · have hslot : slotAt h.flags h.keys h.vals i.toNat = .live key val := by
            rw [hi]
            exact hlive
          exact ⟨i, by rw [hslot]; rfl, .inr ⟨hi, val, hslot⟩⟩

/-- **`kh_get` finds the entry of the key**, or returns the end when there is none. -/
theorem khGet_spec (hinv : h.Inv hash) (key : K) :
    ∃ x, khGet hash h key = .ok x ∧
      ((x = h.nBuckets ∧ ∀ val, (key, val) ∉ h.entries) ∨
        (x.toNat < h.nBuckets.toNat ∧ ∃ val, h.slot x.toNat = .live key val)) := by
  unfold khGet
  by_cases hzero : h.nBuckets = 0
  · refine ⟨0, if_neg (not_not.mpr hzero), .inl ⟨hzero.symm, fun val hmem => ?_⟩⟩
    obtain ⟨i, hi, -⟩ := mem_entries.mp hmem
    rw [hzero] at hi
    exact Nat.not_lt_zero i hi
  · obtain ⟨k, hbuckets, i, hi, hempty⟩ := hinv.exists_empty hzero
    have hprobing := khSite_probing hash hbuckets
    obtain ⟨s, hs, hfirst⟩ := hprobing.exists_first (Stops h.slot key) hi (.inl hempty) key
    have hstart := khSite_start hash hbuckets key
    obtain ⟨x, hget, hx⟩ := khGetLoop_spec hinv.stored hbuckets hs hfirst hstart
      (2 * h.nBuckets.toNat) 0 _ 0 hstart rfl (Nat.zero_le s) (by omega)
    rw [if_pos hzero]
    refine ⟨x, hget, ?_⟩
    rcases hx with ⟨hend, hempty⟩ | ⟨hx, val, hlive⟩
    · exact .inl ⟨hend, hinv.table.first_empty hprobing hfirst hempty⟩
    · exact .inr ⟨by rw [hx]; exact hprobing.lt key s, val, hlive⟩

end Lookup

/-! ## Insertion -/

section Insertion

variable {hash : K → UInt32} {h : Khash K V}

/-- A counter below `2 ^ 32 - 1` is increased without a wrap. -/
theorem toNat_succ {a : UInt32} {n : Nat} (h : a.toNat = n) (hn : n + 1 < 4294967296) :
    (a + 1).toNat = n + 1 := by
  rw [UInt32.toNat_add, h]
  simp only [UInt32.reduceToNat]
  omega

/-- There are not more entries than occupied buckets. -/
theorem Khash.Inv.size_le (hinv : h.Inv hash) : h.size.toNat ≤ h.nOccupied.toNat := by
  rw [hinv.size, hinv.occupied]
  exact length_entries_le_occupied _ _

/-- A key written to a bucket, over a value that may be an old one. -/
theorem khTake_spec (hinv : h.Inv hash) (key : K) {x : UInt32} (hx : x.toNat < h.nBuckets.toNat) :
    ∃ h' val, khTake h key x = .ok h' ∧
      h'.slot = Function.update h.slot x.toNat (.live key val) ∧
      Stored h.nBuckets.toNat h'.flags h'.keys h'.vals ∧
      h' = { h with flags := h'.flags, keys := h'.keys, size := h.size + 1 } := by
  have hstored := hinv.stored
  have hkeys := Nat.lt_of_lt_of_le hx hstored.keys_le
  have hvals := Nat.lt_of_lt_of_le hx hstored.vals_le
  obtain ⟨flags', hset, hlength, hempty, hdel⟩ := acSetIsbothFalse_spec (hstored.words _ hx)
  have hclear : delBit flags' x.toNat = false := by simp [hdel]
  have hvals' : h.vals = h.vals.set x.toNat h.vals[x.toNat] := (List.set_getElem_self hvals).symm
  refine ⟨{ h with flags := flags', keys := h.keys.set x.toNat (some key), size := h.size + 1 },
    h.vals[x.toNat], ?_, ?_, ?_, rfl⟩
  · rw [khTake, khStore_eq hkeys, ok_bind, hset]
    rfl
  · show slotAt flags' (h.keys.set x.toNat (some key)) h.vals = _
    conv_lhs => rw [hvals']
    exact Stored.write hx hstored.keys_le hstored.vals_le hempty
      (fun j hj => by simp [hdel, hj]) hclear
  · refine hstored.update (x := x.toNat) hlength List.length_set rfl ?_ ?_
    · exact fun j hj => ⟨by simp [hempty, hj], by simp [hdel, hj],
        List.getElem?_set_ne (Ne.symm hj)⟩
    · exact fun _ _ => ⟨key, List.getElem?_set_self hkeys⟩

/-- A table with a new entry, in a bucket on the way to the empty one where the search for its
key stopped. -/
theorem Khash.Inv.insert (hinv : h.Inv hash) (h' : Khash K V) (hbuckets : h'.nBuckets = h.nBuckets)
    (hupper : h'.upperBound = h.upperBound) (hsize : h'.size = h.size + 1)
    (hstored : Stored h.nBuckets.toNat h'.flags h'.keys h'.vals) {key : K} {val : Option V}
    {s t : Nat} (hprobing : Probing h.nBuckets.toNat (khSite hash h.nBuckets.toNat))
    (hfirst : First (khSite hash h.nBuckets.toNat) (Stops h.slot key) key s)
    (hempty : h.slot (khSite hash h.nBuckets.toNat key s) = .empty) (hts : t ≤ s)
    (hfree : (h.slot (khSite hash h.nBuckets.toNat key t)).held = none)
    (hslot : h'.slot =
      Function.update h.slot (khSite hash h.nBuckets.toNat key t) (.live key val))
    (hoccupied : h'.nOccupied.toNat = OpenAddressing.occupied h.nBuckets.toNat h'.slot)
    (hle : h'.nOccupied.toNat ≤ h.upperBound.toNat) :
    h'.Inv hash ∧ h'.entries.Perm ((key, val) :: h.entries) := by
  have hperm : h'.entries.Perm ((key, val) :: h.entries) := by
    rw [Khash.entries, hbuckets, hslot]
    exact entries_insert (hprobing.lt key t) hfree
  have hlt := h'.nOccupied.toNat_lt
  have hlength : h'.entries.length ≤ h'.nOccupied.toNat := by
    rw [hoccupied, Khash.entries, hbuckets]
    exact length_entries_le_occupied _ _
  refine ⟨⟨?_, ?_, ?_, ?_, ?_, ?_, ?_⟩, hperm⟩
  · rwa [hbuckets]
  · rw [hbuckets]
    exact hinv.buckets
  · rw [hupper, hbuckets]
    exact hinv.upperBound
  · have hcount := hperm.length_eq
    rw [List.length_cons] at hcount
    rw [hsize, hcount]
    exact toNat_succ hinv.size (by omega)
  · rw [hbuckets]
    exact hoccupied
  · rwa [hupper]
  · rw [hbuckets, hslot]
    exact hinv.table.insert hprobing hfirst hempty hts hfree

variable [DecidableEq K]

/-- The loop of `kh_put` stops where that of `kh_get` does, with the last deleted bucket it
saw. -/
theorem khPutLoop_spec (hstored : Stored h.nBuckets.toNat h.flags h.keys h.vals) {k : Nat}
    (hbuckets : h.nBuckets.toNat = 2 ^ k) {key : K} {s : Nat} (hs : s < h.nBuckets.toNat)
    (hfirst : First (khSite hash h.nBuckets.toNat) (Stops h.slot key) key s) {last : UInt32}
    (hlast : last.toNat = khSite hash h.nBuckets.toNat key 0) :
    ∀ fuel t (i site step : UInt32), i.toNat = khSite hash h.nBuckets.toNat key t →
      step.toNat = t → t ≤ s → s - t < fuel →
      (site = h.nBuckets ∨ ∃ u ≤ s, site.toNat = khSite hash h.nBuckets.toNat key u ∧
        h.slot site.toNat = .deleted) →
      ∃ i' site', khPutLoop h key last fuel i site step = .ok (h.nBuckets, i', site') ∧
        i'.toNat = khSite hash h.nBuckets.toNat key s ∧
        (site' = h.nBuckets ∨ ∃ u ≤ s, site'.toNat = khSite hash h.nBuckets.toNat key u ∧
          h.slot site'.toNat = .deleted) := by
  have hprobing := khSite_probing hash hbuckets
  intro fuel
  induction fuel with
  | zero => exact fun t i site step _ _ _ hfuel => absurd hfuel (Nat.not_lt_zero _)
  | succ fuel ih =>
      intro t i site step hi hstep hts hfuel hsite
      have hlt : i.toNat < h.nBuckets.toNat := hi ▸ hprobing.lt key t
      obtain ⟨passes, hpasses, hiff⟩ := khPasses_spec hstored key hlt
      rw [khPutLoop, hpasses, ok_bind]
      rcases Nat.lt_or_eq_of_le hts with htlt | rfl
      · have hpassed := hfirst.passes t htlt
        rw [← hi] at hpassed
        have hgoes : passes = true := by
          rw [← Bool.not_eq_false, hiff]
          exact hpassed
        have hused : h.slot i.toNat ≠ .empty := fun hempty => hpassed (.inl hempty)
        obtain ⟨hnext, hsucc⟩ := khSite_step hash hbuckets hi hstep (by omega)
        have hwrap : ¬ (i + (step + 1)) &&& (h.nBuckets - 1) = last := by
          rw [← UInt32.toNat_inj, hnext, hlast]
          exact khSite_ne_start hash hbuckets (Nat.succ_pos t) (by omega)
        rw [hgoes, if_pos rfl, hstored.acIsdel_eq hlt hused, ok_bind, if_neg hwrap]
        refine ih (t + 1) _ _ _ hnext hsucc htlt (by omega) ?_
        cases hslot : slotAt h.flags h.keys h.vals i.toNat with
        | empty => exact absurd hslot hused
        | deleted => exact .inr ⟨t, hts, hi, hslot⟩
        | live stored val => exact hsite
      · have hstops : passes = false := by
          rw [hiff, hi]
          exact hfirst.stops
        rw [hstops, if_neg (by decide)]
        exact ⟨i, site, rfl, hi, hsite⟩

/-- The bucket of `kh_put`: that of the key when it has one, and otherwise a bucket without an
entry on the way to the empty bucket where the search stopped. -/
theorem khPutBucket_spec (hinv : h.Inv hash) (hne : h.nBuckets ≠ 0) (key : K) :
    ∃ x, khPutBucket hash h key = .ok x ∧ x.toNat < h.nBuckets.toNat ∧
      ((∃ val, h.slot x.toNat = .live key val) ∨
        ∃ s t, First (khSite hash h.nBuckets.toNat) (Stops h.slot key) key s ∧
          h.slot (khSite hash h.nBuckets.toNat key s) = .empty ∧ t ≤ s ∧
          x.toNat = khSite hash h.nBuckets.toNat key t ∧ (h.slot x.toNat).held = none) := by
  obtain ⟨k, hbuckets, r, hr, hrempty⟩ := hinv.exists_empty hne
  have hprobing := khSite_probing hash hbuckets
  have hstored := hinv.stored
  have hstart := khSite_start hash hbuckets key
  have hlt : (hash key &&& (h.nBuckets - 1)).toNat < h.nBuckets.toNat :=
    hstart ▸ hprobing.lt key 0
  dsimp only [khPutBucket]
  rw [hstored.acIsempty_eq hlt, ok_bind]
  by_cases hfast : h.slot (hash key &&& (h.nBuckets - 1)).toNat = .empty
  · -- the first bucket is empty
    have hisempty : (slotAt h.flags h.keys h.vals
        (hash key &&& (h.nBuckets - 1)).toNat).isEmpty = true := Bucket.isEmpty_eq_true.mpr hfast
    rw [hisempty, if_pos rfl]
    refine ⟨_, rfl, hlt, .inr ⟨0, 0, ⟨.inl ?_, fun t ht => absurd ht (Nat.not_lt_zero t)⟩, ?_,
      Nat.le_refl 0, hstart, ?_⟩⟩
    · rw [← hstart]
      exact hfast
    · rw [← hstart]
      exact hfast
    · rw [hfast]
      rfl
  · have hisempty : (slotAt h.flags h.keys h.vals
        (hash key &&& (h.nBuckets - 1)).toNat).isEmpty = false := by
      rw [← Bool.not_eq_true, Bucket.isEmpty_eq_true]
      exact hfast
    obtain ⟨s, hs, hfirst⟩ :=
      hprobing.exists_first (Stops h.slot key) hr (.inl hrempty) key
    obtain ⟨i, site, hloop, hi, hsite⟩ := khPutLoop_spec hstored hbuckets hs hfirst hstart
      (2 * h.nBuckets.toNat) 0 _ h.nBuckets 0 hstart rfl (Nat.zero_le s) (by omega) (.inl rfl)
    have hilt : i.toNat < h.nBuckets.toNat := hi ▸ hprobing.lt key s
    rw [hisempty, if_neg (by decide), hloop, ok_bind]
    simp only [if_true]
    rw [hstored.acIsempty_eq hilt, ok_bind]
    rcases hfirst.stops with hempty | ⟨val, hlive⟩
    · have hslot : slotAt h.flags h.keys h.vals i.toNat = .empty := by
        rw [hi]
        exact hempty
      rw [hslot]
      rcases hsite with hnone | ⟨u, hu, hsite, hdeleted⟩
      · rw [if_neg (by simp [hnone])]
        exact ⟨i, rfl, hilt, .inr ⟨s, s, hfirst, hempty, Nat.le_refl s, hi, congrArg _ hslot⟩⟩
      · have hsitelt : site.toNat < h.nBuckets.toNat := hsite ▸ hprobing.lt key u
        have hsitene : site ≠ h.nBuckets := by
          rw [ne_eq, ← UInt32.toNat_inj]
          omega
        rw [if_pos ⟨rfl, hsitene⟩]
        exact ⟨site, rfl, hsitelt,
          .inr ⟨s, u, hfirst, hempty, hu, hsite, congrArg _ hdeleted⟩⟩
    · have hslot : slotAt h.flags h.keys h.vals i.toNat = .live key val := by
        rw [hi]
        exact hlive
      rw [hslot, if_neg (by simp)]
      exact ⟨i, rfl, hilt, .inl ⟨val, hslot⟩⟩

/-- **`kh_put` with room**: the bucket it returns has the key.  Either the table had it, or
it has one more entry. -/
theorem khPutAt_spec (hinv : h.Inv hash) (hne : h.nBuckets ≠ 0)
    (hroom : h.nOccupied.toNat < h.upperBound.toNat) (key : K) :
    ∃ h' x r val, khPutAt hash h key = .ok (h', x, r) ∧ h'.Inv hash ∧
      x.toNat < h'.nBuckets.toNat ∧ h'.slot x.toNat = .live key val ∧
      ((r = 0 ∧ h' = h) ∨
        ((r = 1 ∨ r = 2) ∧ (∀ val, (key, val) ∉ h.entries) ∧
          h'.entries.Perm ((key, val) :: h.entries))) := by
  have hstored := hinv.stored
  obtain ⟨k, hbuckets, -⟩ := hinv.exists_empty hne
  have hprobing := khSite_probing hash hbuckets
  obtain ⟨x, hbucket, hx, hkind⟩ := khPutBucket_spec hinv hne key
  unfold khPutAt
  rw [hbucket, ok_bind, hstored.acIsempty_eq hx]
  rcases hkind with ⟨val, hlive⟩ | ⟨s, t, hfirst, hempty, hts, hxt, hfree⟩
  · have hslot : slotAt h.flags h.keys h.vals x.toNat = .live key val := hlive
    have hisdel := hstored.acIsdel_eq hx (by rw [hslot]; simp)
    rw [hslot] at hisdel
    rw [hslot, hisdel]
    exact ⟨h, x, 0, val, rfl, hinv, hx, hlive, .inl ⟨rfl, rfl⟩⟩
  · have habsent := hinv.table.first_empty hprobing hfirst hempty
    obtain ⟨h', val, htake, hslot', hstored', hfields⟩ := khTake_spec hinv key hx
    have hlive : h'.slot x.toNat = .live key val := by
      rw [hslot', Function.update_self]
    have hlt := h.upperBound.toNat_lt
    have hfree' := hfree
    rw [hxt] at hslot' hfree'
    cases hslot : slotAt h.flags h.keys h.vals x.toNat with
    | live stored old =>
        have hslot' : h.slot x.toNat = .live stored old := hslot
        rw [hslot'] at hfree
        cases hfree
    | empty =>
        have hocc : (h.nOccupied + 1).toNat =
            OpenAddressing.occupied h.nBuckets.toNat h'.slot := by
          rw [hslot', occupied_insert_empty (hprobing.lt key t) (hxt ▸ hslot)]
          exact toNat_succ hinv.occupied (by rw [← hinv.occupied]; omega)
        have hupper : (h.nOccupied + 1).toNat ≤ h.upperBound.toNat := by
          rw [toNat_succ rfl (by omega)]
          exact hroom
        have hnew := hinv.insert { h' with nOccupied := h'.nOccupied + 1 }
          (by rw [hfields]) (by rw [hfields]) (by rw [hfields]) hstored' hprobing hfirst hempty
          hts hfree' hslot' (by rw [hfields]; rw [hfields] at hocc; exact hocc)
          (by rw [hfields]; exact hupper)
        refine ⟨{ h' with nOccupied := h'.nOccupied + 1 }, x, 1, val, ?_, hnew.1, ?_, hlive,
          .inr ⟨.inl rfl, habsent, hnew.2⟩⟩
        · simp only [Bucket.isEmpty_empty, ok_bind, if_true, htake]
        · rw [hfields]
          exact hx
    | deleted =>
        have hisdel := hstored.acIsdel_eq hx (by rw [hslot]; simp)
        rw [hslot] at hisdel
        have hocc : h'.nOccupied.toNat =
            OpenAddressing.occupied h.nBuckets.toNat h'.slot := by
          rw [hslot', occupied_update (hprobing.lt key t) (by rw [← hxt, Khash.slot, hslot]; rfl),
            ← hinv.occupied, hfields]
        have hnew := hinv.insert h' (by rw [hfields]) (by rw [hfields]) (by rw [hfields])
          hstored' hprobing hfirst hempty hts hfree' hslot' hocc
          (by rw [hfields]; exact Nat.le_of_lt hroom)
        refine ⟨h', x, 2, val, ?_, hnew.1, ?_, hlive, .inr ⟨.inr rfl, habsent, hnew.2⟩⟩
        · simp only [Bucket.isEmpty_deleted, ok_bind, Bool.false_eq_true, if_false, hisdel,
            Bucket.held_deleted, Option.isNone_none, if_true, htake]
        · rw [hfields]
          exact hx

end Insertion

/-! ## Deletion and values -/

section Deletion

variable {hash : K → UInt32} {h : Khash K V} {x : UInt32} {key : K} {val : Option V}

/-- A counter that is not 0 is decreased without one. -/
theorem toNat_pred {a : UInt32} {n : Nat} (h : a.toNat = n + 1) : (a - 1).toNat = n := by
  have hlt := a.toNat_lt
  rw [UInt32.toNat_sub, h]
  simp only [UInt32.reduceToNat]
  omega

/-- `kh_del` of a live bucket takes its entry out. -/
theorem khDel_spec (hinv : h.Inv hash) (hx : x.toNat < h.nBuckets.toNat)
    (hlive : h.slot x.toNat = .live key val) :
    ∃ h', khDel h x = .ok h' ∧ h'.Inv hash ∧ h'.nBuckets = h.nBuckets ∧
      h'.slot = Function.update h.slot x.toNat .deleted ∧
      h.entries.Perm ((key, val) :: h'.entries) := by
  have hstored := hinv.stored
  have hslot : slotAt h.flags h.keys h.vals x.toNat = .live key val := hlive
  have hne : x ≠ h.nBuckets := by
    rw [ne_eq, ← UInt32.toNat_inj]
    omega
  obtain ⟨flags', hset, hstored', -, hslot'⟩ := hstored.setIsdelTrue hx (by rw [hslot]; simp)
  have heither := hstored.acIseither_eq hx
  rw [hslot] at heither
  have hperm : h.entries.Perm
      ((key, val) :: ({ h with flags := flags', size := h.size - 1 } : Khash K V).entries) := by
    show h.entries.Perm ((key, val) ::
      OpenAddressing.entries h.nBuckets.toNat (slotAt flags' h.keys h.vals))
    rw [hslot']
    exact entries_delete hx hlive
  refine ⟨{ h with flags := flags', size := h.size - 1 }, ?_, ?_, rfl, hslot', hperm⟩
  · rw [khDel, if_pos hne, heither]
    simp only [Bucket.held_live, Option.isNone_some, ok_bind, Bool.false_eq_true, if_false, hset]
  · refine ⟨hstored', hinv.buckets, hinv.upperBound, ?_, ?_, hinv.occupied_le, ?_⟩
    · have hcount := hperm.length_eq
      rw [List.length_cons, ← hinv.size] at hcount
      exact toNat_pred hcount
    · rw [hinv.occupied]
      show _ = OpenAddressing.occupied _ (slotAt flags' h.keys h.vals)
      rw [hslot']
      exact (occupied_update hx (by rw [hlive]; rfl)).symm
    · show OpenAddressing.Inv _ _ (slotAt flags' h.keys h.vals)
      rw [hslot']
      exact hinv.table.delete hx hlive

/-- A new value for a live bucket. -/
theorem khSetVal_spec (hinv : h.Inv hash) (hx : x.toNat < h.nBuckets.toNat)
    (hlive : h.slot x.toNat = .live key val) (val' : Option V) :
    ∃ h', khSetVal h x val' = .ok h' ∧ h'.Inv hash ∧ h'.nBuckets = h.nBuckets ∧
      h'.slot = Function.update h.slot x.toNat (.live key val') ∧
      ∃ rest, h.entries.Perm ((key, val) :: rest) ∧ h'.entries.Perm ((key, val') :: rest) := by
  have hstored := hinv.stored
  have hvals := Nat.lt_of_lt_of_le hx hstored.vals_le
  have hslot' : slotAt h.flags h.keys (h.vals.set x.toNat val') =
      Function.update h.slot x.toNat (.live key val') := by
    funext j
    by_cases hj : j = x.toNat
    · subst hj
      rw [Function.update_self]
      rcases hstored.slot_cases hx with
        ⟨-, hslot⟩ | ⟨-, -, hslot⟩ | ⟨hempty, hdel, key', hkey, hslot⟩
      · exact nomatch hslot.symm.trans hlive
      · exact nomatch hslot.symm.trans hlive
      · rw [(Bucket.live.inj (hlive.symm.trans hslot)).1]
        simp [slotAt, hempty, hdel, hkey, List.getElem?_set_self hvals]
    · rw [Function.update_of_ne hj]
      exact slotAt_congr rfl rfl rfl (List.getElem?_set_ne (Ne.symm hj))
  have hstored' : Stored h.nBuckets.toNat h.flags h.keys (h.vals.set x.toNat val') :=
    ⟨hstored.words, hstored.keys_le, by rw [List.length_set]; exact hstored.vals_le,
      hstored.written⟩
  obtain ⟨rest, hrest⟩ := exists_entries_rest h.slot hx
  have hold := hrest (h.slot x.toNat)
  rw [Function.update_eq_self, hlive] at hold
  have hnew : ({ h with vals := h.vals.set x.toNat val' } : Khash K V).entries.Perm
      ((key, val') :: rest) := by
    show (OpenAddressing.entries _ (slotAt h.flags h.keys (h.vals.set x.toNat val'))).Perm _
    rw [hslot']
    exact hrest (.live key val')
  refine ⟨{ h with vals := h.vals.set x.toNat val' }, ?_, ?_, rfl, hslot', rest, hold, hnew⟩
  · rw [khSetVal, khStore_eq hvals]
    rfl
  · refine ⟨hstored', hinv.buckets, hinv.upperBound, ?_, ?_, hinv.occupied_le, ?_⟩
    · rw [hnew.length_eq, hinv.size, Khash.entries, hold.length_eq]
      rfl
    · rw [hinv.occupied]
      show _ = OpenAddressing.occupied _ (slotAt h.flags h.keys (h.vals.set x.toNat val'))
      rw [hslot']
      exact (occupied_update hx (by rw [hlive]; rfl)).symm
    · show OpenAddressing.Inv _ _ (slotAt h.flags h.keys (h.vals.set x.toNat val'))
      rw [hslot']
      exact hinv.table.setVal hx hlive

/-- `kh_clear` takes all entries out and keeps the buckets. -/
theorem khClear_spec (hinv : h.Inv hash) :
    (khClear h).Inv hash ∧ (khClear h).nBuckets = h.nBuckets ∧ (khClear h).entries = [] := by
  have hstored := hinv.stored
  unfold khClear
  by_cases hflags : h.flags = []
  · have hzero : h.nBuckets.toNat = 0 := by
      by_contra hpos
      have hword := hstored.words 0 (by omega)
      rw [hflags] at hword
      exact Nat.not_lt_zero _ hword
    rw [if_pos hflags]
    refine ⟨hinv, rfl, ?_⟩
    rw [Khash.entries, hzero]
    rfl
  · rw [if_neg hflags]
    rcases hinv.buckets with hzero | ⟨k, hk, hbuckets⟩
    · have hzero : h.nBuckets.toNat = 0 := congrArg UInt32.toNat hzero
      have hnone : ∀ i, ¬ i < h.nBuckets.toNat := by omega
      have hempty : ∀ i < h.nBuckets.toNat,
          slotAt (acAllEmpty h.nBuckets) h.keys h.vals i = .empty :=
        fun i hi => absurd hi (hnone i)
      obtain ⟨htable, hnil, hocc⟩ := inv_of_empty (khSite hash h.nBuckets.toNat) hempty
      refine ⟨⟨?_, hinv.buckets, hinv.upperBound, ?_, ?_, Nat.zero_le _, htable⟩, rfl, hnil⟩
      · exact ⟨fun i hi => absurd hi (hnone i), hstored.keys_le, hstored.vals_le,
          fun i hi => absurd hi (hnone i)⟩
      · exact (congrArg List.length hnil).symm
      · exact hocc.symm
    · have hempty : ∀ i < h.nBuckets.toNat,
          slotAt (acAllEmpty h.nBuckets) h.keys h.vals i = .empty := by
        intro i hi
        rw [slotAt, (acAllEmpty_bits hbuckets hi).1, if_pos rfl]
      obtain ⟨htable, hnil, hocc⟩ := inv_of_empty (khSite hash h.nBuckets.toNat) hempty
      refine ⟨⟨?_, hinv.buckets, hinv.upperBound, ?_, ?_, Nat.zero_le _, htable⟩, rfl, hnil⟩
      · refine ⟨fun i hi => ?_, hstored.keys_le, hstored.vals_le, fun i hi hused => ?_⟩
        · show i / 16 < (acAllEmpty h.nBuckets).length
          rw [acAllEmpty, List.length_replicate]
          exact div_sixteen_lt_acFsize hbuckets hi
        · rw [(acAllEmpty_bits hbuckets hi).1] at hused
          cases hused
      · exact (congrArg List.length hnil).symm
      · exact hocc.symm

end Deletion

end Slots

end Vmars
