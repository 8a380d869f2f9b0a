import Mathlib.Data.List.Nodup
import Mathlib.Data.List.Perm.Basic
import Mathlib.Data.Nat.Find
import Mathlib.Logic.Function.Basic

/-!
# Open addressing

A hash table as an array of slots that are empty, deleted or hold an entry, with a probe
sequence of buckets for every key.  The module names nothing of a particular program.

* `Inv.first_live`, `Inv.first_empty`: a search that stops at the first slot that is empty or
  holds the key finds the entry of the key, or the key has none;
* `Inv.insert`, `Inv.delete`, `Inv.setVal`: the updates, as updates of the list of entries;
* `Moving`: a rehash into a second array, entry by entry, which may kick entries out of the
  first array on its way.
-/

namespace OpenAddressing

variable {K V : Type}

/-! ## Slots -/

/-- A bucket. -/
inductive Bucket (K V : Type) where
  | empty
  | deleted
  | live (key : K) (val : V)

/-- The entry in a slot. -/
def Bucket.held : Bucket K V → Option (K × V)
  | .live key val => some (key, val)
  | _ => none

/-- The slot was never used. -/
def Bucket.isEmpty : Bucket K V → Bool
  | .empty => true
  | _ => false

@[simp] theorem Bucket.held_empty : (Bucket.empty : Bucket K V).held = none := rfl
@[simp] theorem Bucket.held_deleted : (Bucket.deleted : Bucket K V).held = none := rfl
@[simp] theorem Bucket.held_live (key : K) (val : V) :
    (Bucket.live key val).held = some (key, val) := rfl
@[simp] theorem Bucket.isEmpty_empty : (Bucket.empty : Bucket K V).isEmpty = true := rfl
@[simp] theorem Bucket.isEmpty_deleted : (Bucket.deleted : Bucket K V).isEmpty = false := rfl
@[simp] theorem Bucket.isEmpty_live (key : K) (val : V) :
    (Bucket.live key val).isEmpty = false := rfl

theorem Bucket.isEmpty_eq_true {slot : Bucket K V} : slot.isEmpty = true ↔ slot = .empty := by
  cases slot <;> simp

/-- A bucket holds what its live entry is. -/
theorem Bucket.held_eq_some {slot : Bucket K V} {entry : K × V} :
    slot.held = some entry ↔ slot = .live entry.1 entry.2 := by
  cases slot <;> simp [Prod.ext_iff]

/-- The entries of the first `n` buckets. -/
def entries (n : Nat) (slots : Nat → Bucket K V) : List (K × V) :=
  (List.range n).filterMap fun i => (slots i).held

/-- How many of the first `n` buckets were ever used. -/
def occupied (n : Nat) (slots : Nat → Bucket K V) : Nat :=
  (List.range n).countP fun i => !(slots i).isEmpty

/-- An entry is in the list exactly when a bucket holds it. -/
theorem mem_entries {n : Nat} {slots : Nat → Bucket K V} {key : K} {val : V} :
    (key, val) ∈ entries n slots ↔ ∃ i < n, slots i = .live key val := by
  simp [entries, Bucket.held_eq_some]

theorem range_perm_cons {n r : Nat} (hr : r < n) :
    (List.range n).Perm (r :: (List.range n).erase r) :=
  List.perm_cons_erase (List.mem_range.mpr hr)

theorem ne_of_mem_erase_range {n r i : Nat} (hi : i ∈ (List.range n).erase r) : i ≠ r :=
  ((List.nodup_range).mem_erase_iff.mp hi).1

/-- Apart from the entry of one bucket the list of entries depends on the others only. -/
theorem exists_entries_rest {n r : Nat} (slots : Nat → Bucket K V) (hr : r < n) :
    ∃ rest, ∀ slot,
      (entries n (Function.update slots r slot)).Perm (slot.held.toList ++ rest) := by
  refine ⟨((List.range n).erase r).filterMap fun i => (slots i).held, fun slot => ?_⟩
  have hsplit := (range_perm_cons hr).filterMap
    fun i => (Function.update slots r slot i).held
  have hrest : ((List.range n).erase r).filterMap
        (fun i => (Function.update slots r slot i).held) =
      ((List.range n).erase r).filterMap fun i => (slots i).held := by
    refine List.filterMap_congr fun i hi => ?_
    rw [Function.update_of_ne (ne_of_mem_erase_range hi)]
  rw [entries]
  refine hsplit.trans ?_
  rw [List.filterMap_cons, Function.update_self, hrest]
  cases slot.held <;> exact List.Perm.refl _

/-- The count of used buckets, in the same way. -/
theorem exists_occupied_rest {n r : Nat} (slots : Nat → Bucket K V) (hr : r < n) :
    ∃ rest, ∀ slot,
      occupied n (Function.update slots r slot) = rest + if slot.isEmpty then 0 else 1 := by
  refine ⟨((List.range n).erase r).countP fun i => !(slots i).isEmpty, fun slot => ?_⟩
  have hrest : ((List.range n).erase r).countP
        (fun i => !(Function.update slots r slot i).isEmpty) =
      ((List.range n).erase r).countP fun i => !(slots i).isEmpty := by
    refine List.countP_congr fun i hi => ?_
    rw [Function.update_of_ne (ne_of_mem_erase_range hi)]
  rw [occupied, (range_perm_cons hr).countP_eq, List.countP_cons, hrest, Function.update_self]
  cases slot.isEmpty <;> rfl

/-- A live entry taken into a bucket that held none. -/
theorem entries_insert {n r : Nat} {slots : Nat → Bucket K V} {key : K} {val : V} (hr : r < n)
    (hfree : (slots r).held = none) :
    (entries n (Function.update slots r (.live key val))).Perm
      ((key, val) :: entries n slots) := by
  obtain ⟨rest, hrest⟩ := exists_entries_rest slots hr
  have hold := hrest (slots r)
  rw [Function.update_eq_self, hfree] at hold
  exact (hrest (.live key val)).trans (hold.symm.cons _)

/-- The entry of a bucket, taken out of it. -/
theorem entries_delete {n r : Nat} {slots : Nat → Bucket K V} {key : K} {val : V} (hr : r < n)
    (hlive : slots r = .live key val) :
    (entries n slots).Perm
      ((key, val) :: entries n (Function.update slots r .deleted)) := by
  obtain ⟨rest, hrest⟩ := exists_entries_rest slots hr
  have hold := hrest (slots r)
  rw [Function.update_eq_self, hlive] at hold
  exact hold.trans ((hrest .deleted).symm.cons _)

/-- An entry in an empty bucket occupies one more. -/
theorem occupied_insert_empty {n r : Nat} {slots : Nat → Bucket K V} {key : K} {val : V}
    (hr : r < n) (hempty : slots r = .empty) :
    occupied n (Function.update slots r (.live key val)) = occupied n slots + 1 := by
  obtain ⟨rest, hrest⟩ := exists_occupied_rest slots hr
  have hold := hrest (slots r)
  rw [Function.update_eq_self, hempty] at hold
  rw [hrest, hold]
  rfl

/-- A used bucket stays one. -/
theorem occupied_update {n r : Nat} {slots : Nat → Bucket K V} {slot : Bucket K V}
    (hr : r < n) (hused : (slots r).isEmpty = slot.isEmpty) :
    occupied n (Function.update slots r slot) = occupied n slots := by
  obtain ⟨rest, hrest⟩ := exists_occupied_rest slots hr
  have hold := hrest (slots r)
  rw [Function.update_eq_self] at hold
  rw [hrest, hold, hused]

/-- While not all buckets are used there is an empty one. -/
theorem exists_empty {n : Nat} {slots : Nat → Bucket K V} (h : occupied n slots < n) :
    ∃ i < n, slots i = .empty := by
  by_contra hnone
  push Not at hnone
  have hall : occupied n slots = (List.range n).length := by
    refine List.countP_eq_length.mpr fun i hi => ?_
    have := hnone i (List.mem_range.mp hi)
    rw [← Bucket.isEmpty_eq_true.ne] at this
    simpa using this
  rw [List.length_range] at hall
  omega

/-- Without deleted buckets every used bucket holds an entry. -/
theorem occupied_eq_length {n : Nat} {slots : Nat → Bucket K V}
    (h : ∀ i < n, slots i ≠ .deleted) : occupied n slots = (entries n slots).length := by
  rw [entries, List.length_filterMap_eq_countP, occupied]
  refine List.countP_congr fun i hi => ?_
  have hi := h i (List.mem_range.mp hi)
  cases hslot : slots i <;> simp_all

/-- Every entry occupies a bucket. -/
theorem length_entries_le_occupied (n : Nat) (slots : Nat → Bucket K V) :
    (entries n slots).length ≤ occupied n slots := by
  rw [entries, List.length_filterMap_eq_countP, occupied]
  refine List.countP_mono_left fun i _ h => ?_
  cases hslot : slots i <;> simp_all

/-! ## Probing -/

/-- The probe sequences stay in the table, and each of them reaches every bucket. -/
structure Probing (n : Nat) (site : K → Nat → Nat) : Prop where
  lt : ∀ key s, site key s < n
  covers : ∀ key i, i < n → ∃ s < n, site key s = i

/-- The bucket after `s` steps is the first one of its kind in the sequence of the key. -/
structure First (site : K → Nat → Nat) (kind : Nat → Prop) (key : K) (s : Nat) : Prop where
  stops : kind (site key s)
  passes : ∀ t < s, ¬ kind (site key t)

/-- A search for a kind of bucket that exists ends, after less than `n` steps. -/
theorem Probing.exists_first {n : Nat} {site : K → Nat → Nat} (hprobing : Probing n site)
    (kind : Nat → Prop) {i : Nat} (hi : i < n) (h : kind i) (key : K) :
    ∃ s < n, First site kind key s := by
  classical
  obtain ⟨s, hs, rfl⟩ := hprobing.covers key i hi
  have hsome : ∃ s, kind (site key s) := ⟨s, h⟩
  refine ⟨Nat.find hsome, Nat.lt_of_le_of_lt (Nat.find_min' hsome h) hs, Nat.find_spec hsome,
    fun t ht => Nat.find_min hsome ht⟩

/-- A bucket at which the search for a key stops: empty, or with an entry of the key. -/
def Stops (slots : Nat → Bucket K V) (key : K) (i : Nat) : Prop :=
  slots i = .empty ∨ ∃ val, slots i = .live key val

/-- Every entry is found again: no empty bucket comes before it in its sequence. -/
def Reachable (n : Nat) (site : K → Nat → Nat) (slots : Nat → Bucket K V) : Prop :=
  ∀ i < n, ∀ key val, slots i = .live key val →
    ∃ s, site key s = i ∧ ∀ t < s, slots (site key t) ≠ .empty

/-- The invariant of a table: one entry for each key, and every entry is found. -/
structure Inv (n : Nat) (site : K → Nat → Nat) (slots : Nat → Bucket K V) : Prop where
  distinct : ((entries n slots).map Prod.fst).Nodup
  reachable : Reachable n site slots

section Updates

variable {n : Nat} {site : K → Nat → Nat} {slots : Nat → Bucket K V}

/-- Entries stay reachable when a used bucket takes another used slot without an entry, or an
empty one takes a reachable entry. -/
theorem Reachable.update {r : Nat} {slot : Bucket K V} (h : Reachable n site slots)
    (hused : slot ≠ .empty)
    (hslot : ∀ key val, slot = .live key val →
      ∃ s, site key s = r ∧ ∀ t < s, slots (site key t) ≠ .empty) :
    Reachable n site (Function.update slots r slot) := by
  have hmono : ∀ i, slots i ≠ .empty → Function.update slots r slot i ≠ .empty := by
    intro i hi
    by_cases hir : i = r
    · rw [hir, Function.update_self]
      exact hused
    · rwa [Function.update_of_ne hir]
  intro i hi key val hlive
  by_cases hir : i = r
  · rw [hir, Function.update_self] at hlive
    obtain ⟨s, hs, hbefore⟩ := hslot key val hlive
    exact ⟨s, hs.trans hir.symm, fun t ht => hmono _ (hbefore t ht)⟩
  · rw [Function.update_of_ne hir] at hlive
    obtain ⟨s, hs, hbefore⟩ := h i hi key val hlive
    exact ⟨s, hs, fun t ht => hmono _ (hbefore t ht)⟩

/-- The entry of a key is unique. -/
theorem Inv.val_unique {key : K} {val val' : V} (h : Inv n site slots)
    (hval : (key, val) ∈ entries n slots) (hval' : (key, val') ∈ entries n slots) :
    val = val' := by
  have heq := List.inj_on_of_nodup_map h.distinct hval hval' rfl
  exact congrArg Prod.snd heq

/-- **A search finds the entry of its key**: a key with an entry has it in the first bucket at
which the search stops. -/
theorem Inv.first_live {key : K} {val : V} {s : Nat} (h : Inv n site slots)
    (hprobing : Probing n site) (hfirst : First site (Stops slots key) key s) :
    slots (site key s) = .live key val ↔ (key, val) ∈ entries n slots := by
  constructor
  · intro hlive
    exact mem_entries.mpr ⟨_, hprobing.lt key s, hlive⟩
  · intro hmem
    obtain ⟨i, hi, hlive⟩ := mem_entries.mp hmem
    obtain ⟨t, ht, hbefore⟩ := h.reachable i hi key val hlive
    -- the search comes to that bucket at the latest, and to no empty one before
    have hst : s ≤ t := by
      by_contra hlt
      exact hfirst.passes t (by omega) (.inr ⟨val, ht ▸ hlive⟩)
    rcases hfirst.stops with hempty | ⟨val', hlive'⟩
    · rcases Nat.lt_or_eq_of_le hst with hlt | heq
      · exact absurd hempty (hbefore s hlt)
      · rw [heq, ht]
        exact hlive
    · have hmem' := mem_entries.mpr ⟨_, hprobing.lt key s, hlive'⟩
      rw [hlive', h.val_unique hmem hmem']

/-- A search that ends at an empty bucket: the key has no entry. -/
theorem Inv.first_empty {key : K} {s : Nat} (h : Inv n site slots)
    (hprobing : Probing n site) (hfirst : First site (Stops slots key) key s)
    (hempty : slots (site key s) = .empty) (val : V) : (key, val) ∉ entries n slots := by
  intro hmem
  have hlive := (h.first_live hprobing hfirst).mpr hmem
  rw [hempty] at hlive
  cases hlive

/-- **A new entry** goes into the bucket where the search for its key ended, or into one
without an entry that the search passed. -/
theorem Inv.insert {key : K} {val : V} {s t : Nat} (h : Inv n site slots)
    (hprobing : Probing n site) (hfirst : First site (Stops slots key) key s)
    (hempty : slots (site key s) = .empty) (hts : t ≤ s)
    (hfree : (slots (site key t)).held = none) :
    Inv n site (Function.update slots (site key t) (.live key val)) := by
  refine ⟨?_, ?_⟩
  · refine ((entries_insert (hprobing.lt key t) hfree).map Prod.fst).nodup_iff.mpr ?_
    rw [List.map_cons, List.nodup_cons]
    refine ⟨?_, h.distinct⟩
    intro hmem
    obtain ⟨⟨key', val'⟩, hmem, hkey⟩ := List.mem_map.mp hmem
    cases hkey
    exact h.first_empty hprobing hfirst hempty val' hmem
  · refine h.reachable.update (by simp) ?_
    intro key' val' hslot
    obtain ⟨rfl, rfl⟩ := Bucket.live.inj hslot
    exact ⟨t, rfl, fun u hu hpassed => hfirst.passes u (by omega) (.inl hpassed)⟩

/-- A deleted entry: the others stay found, since its bucket does not become empty. -/
theorem Inv.delete {r : Nat} {key : K} {val : V} (h : Inv n site slots) (hr : r < n)
    (hlive : slots r = .live key val) : Inv n site (Function.update slots r .deleted) := by
  refine ⟨?_, h.reachable.update (by simp) (by simp)⟩
  have hnodup := ((entries_delete hr hlive).map Prod.fst).nodup_iff.mp h.distinct
  rw [List.map_cons, List.nodup_cons] at hnodup
  exact hnodup.2

/-- Another value for an entry. -/
theorem Inv.setVal {r : Nat} {key : K} {val val' : V} (h : Inv n site slots) (hr : r < n)
    (hlive : slots r = .live key val) : Inv n site (Function.update slots r (.live key val')) := by
  obtain ⟨rest, hrest⟩ := exists_entries_rest slots hr
  have hold := hrest (slots r)
  rw [Function.update_eq_self, hlive] at hold
  refine ⟨?_, ?_⟩
  · refine ((hrest _).map Prod.fst).nodup_iff.mpr ?_
    exact (hold.map Prod.fst).nodup_iff.mp h.distinct
  · refine h.reachable.update (by simp) ?_
    intro key' val'' hslot
    obtain ⟨rfl, rfl⟩ := Bucket.live.inj hslot
    exact h.reachable r hr key val hlive

theorem entries_congr {slots' : Nat → Bucket K V} (h : ∀ i < n, slots' i = slots i) :
    entries n slots' = entries n slots :=
  List.filterMap_congr fun i hi => by rw [h i (List.mem_range.mp hi)]

theorem occupied_congr {slots' : Nat → Bucket K V} (h : ∀ i < n, slots' i = slots i) :
    occupied n slots' = occupied n slots :=
  List.countP_congr fun i hi => by rw [h i (List.mem_range.mp hi)]

/-- Only the first `n` buckets count. -/
theorem Inv.congr {slots' : Nat → Bucket K V} (hinv : Inv n site slots)
    (hsite : 0 < n → ∀ key s, site key s < n) (h : ∀ i < n, slots' i = slots i) :
    Inv n site slots' := by
  refine ⟨by rw [entries_congr h]; exact hinv.distinct, ?_⟩
  intro i hi key val hlive
  rw [h i hi] at hlive
  obtain ⟨s, hs, hbefore⟩ := hinv.reachable i hi key val hlive
  refine ⟨s, hs, fun t ht => ?_⟩
  rw [h _ (hsite (Nat.lt_of_le_of_lt (Nat.zero_le i) hi) key t)]
  exact hbefore t ht

/-- Only empty buckets: a table without entries. -/
theorem inv_of_empty (site : K → Nat → Nat) (h : ∀ i < n, slots i = .empty) :
    Inv n site slots ∧ entries n slots = [] ∧ occupied n slots = 0 := by
  have hnil : entries n slots = [] := by
    rw [entries, List.filterMap_eq_nil_iff]
    intro i hi
    rw [h i (List.mem_range.mp hi)]
    rfl
  refine ⟨⟨by rw [hnil]; exact List.nodup_nil, fun i hi key val hlive => ?_⟩, hnil, ?_⟩
  · rw [h i hi] at hlive
    cases hlive
  · rw [occupied, List.countP_eq_zero]
    intro i hi
    rw [h i (List.mem_range.mp hi)]
    simp

end Updates

/-! ## A rehash -/

/-- In the middle of a rehash: the entries are those that the old array still has, the one in
hand, and those that the new array has; the new array finds its own and has no deleted
buckets. -/
structure Moving (all : List (K × V)) (m n : Nat) (site : K → Nat → Nat)
    (old new : Nat → Bucket K V) (hand : Option (K × V)) : Prop where
  entries : (entries m old ++ hand.toList ++ entries n new).Perm all
  reachable : Reachable n site new
  clean : ∀ i < n, new i ≠ .deleted

namespace Moving

variable {all : List (K × V)} {m n : Nat} {site : K → Nat → Nat} {old new : Nat → Bucket K V}
  {key : K} {val : V}

/-- An entry of the old array is taken in hand. -/
theorem take {j : Nat} (h : Moving all m n site old new none) (hj : j < m)
    (hlive : old j = .live key val) :
    Moving all m n site (Function.update old j .deleted) new (some (key, val)) := by
  refine ⟨?_, h.reachable, h.clean⟩
  refine List.Perm.trans ?_ h.entries
  refine List.Perm.append_right _ ?_
  rw [Option.toList_none, List.append_nil]
  refine (List.perm_append_comm).trans ?_
  exact (entries_delete hj hlive).symm

/-- Only the buckets below the two lengths count. -/
theorem congr {old' new' : Nat → Bucket K V} {hand : Option (K × V)}
    (h : Moving all m n site old new hand) (hsite : ∀ key s, site key s < n)
    (hold : ∀ i < m, old' i = old i) (hnew : ∀ i < n, new' i = new i) :
    Moving all m n site old' new' hand := by
  refine ⟨?_, ?_, fun i hi => by rw [hnew i hi]; exact h.clean i hi⟩
  · rw [entries_congr hold, entries_congr hnew]
    exact h.entries
  · intro i hi key val hlive
    rw [hnew i hi] at hlive
    obtain ⟨s, hs, hbefore⟩ := h.reachable i hi key val hlive
    refine ⟨s, hs, fun t ht => ?_⟩
    rw [hnew _ (hsite key t)]
    exact hbefore t ht

/-- The entry in hand goes to the first empty bucket of its sequence. -/
theorem place {s : Nat} (h : Moving all m n site old new (some (key, val)))
    (hprobing : Probing n site) (hfirst : First site (fun i => new i = .empty) key s) :
    Moving all m n site old (Function.update new (site key s) (.live key val)) none := by
  refine ⟨?_, ?_, ?_⟩
  · refine List.Perm.trans ?_ h.entries
    rw [Option.toList_none, List.append_nil, List.append_assoc]
    refine List.Perm.append_left _ ?_
    exact entries_insert (hprobing.lt key s) (by rw [hfirst.stops]; rfl)
  · refine h.reachable.update (by simp) ?_
    intro key' val' hslot
    obtain ⟨rfl, rfl⟩ := Bucket.live.inj hslot
    exact ⟨s, rfl, hfirst.passes⟩
  · intro i hi
    by_cases his : i = site key s
    · rw [his, Function.update_self]
      simp
    · rw [Function.update_of_ne his]
      exact h.clean i hi

/-- The new array has room for the entry in hand when it is longer than the list of all
entries. -/
theorem exists_first (h : Moving all m n site old new (some (key, val)))
    (hprobing : Probing n site) (hroom : all.length < n) :
    ∃ s < n, First site (fun i => new i = .empty) key s := by
  have hlength := h.entries.length_eq
  have hused := occupied_eq_length h.clean
  simp only [List.length_append] at hlength
  have hfree : occupied n new < n := by omega
  obtain ⟨i, hi, hempty⟩ := exists_empty hfree
  exact hprobing.exists_first _ hi hempty key

/-- At the end, with nothing left in the old array, the new one is a table of all entries. -/
theorem finish (h : Moving all m n site old new none) (hold : ∀ i < m, (old i).held = none)
    (hdistinct : (all.map Prod.fst).Nodup) :
    (OpenAddressing.entries n new).Perm all ∧ Inv n site new := by
  have hnil : OpenAddressing.entries m old = [] := by
    rw [OpenAddressing.entries, List.filterMap_eq_nil_iff]
    exact fun i hi => hold i (List.mem_range.mp hi)
  have hentries := h.entries
  rw [hnil, Option.toList_none, List.nil_append, List.nil_append] at hentries
  exact ⟨hentries, (hentries.map Prod.fst).nodup_iff.mpr hdistinct, h.reachable⟩

end Moving

end OpenAddressing
