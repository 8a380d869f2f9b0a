import Vmars.KhashLookup

/-!
# Resizing the hash table

`kh_resize` moves the entries to a new table inside the same arrays: an entry goes to its
bucket of the new table, and the old entry it finds there is moved next.  `Moved` is the state
between two rounds, a rehash in the sense of `OpenAddressing.Moving` in which no bucket is
used by both tables.

* `khResize_spec`: **a resize keeps the entries**, whatever number of buckets is requested and
  whichever allocation fails.
-/

namespace Vmars

open CMemory OpenAddressing

variable {K V : Type}

/-! ## Rounds -/

/-- The slots that the old table still has. -/
def Rehash.oldSlot (st : Rehash K V) : Nat → Bucket K (Option V) := slotAt st.flags st.keys st.vals

/-- The slots of the new table. -/
def Rehash.newSlot (st : Rehash K V) : Nat → Bucket K (Option V) :=
  slotAt st.newFlags st.keys st.vals

/-- The invariant of the loops: no bucket of the new table still has an entry of the old
one. -/
structure Moved (hash : K → UInt32) (all : List (K × Option V)) (m n : Nat) (st : Rehash K V)
    (hand : Option (K × Option V)) : Prop where
  old : Stored m st.flags st.keys st.vals
  new : Stored n st.newFlags st.keys st.vals
  fresh : ∀ i < n, delBit st.newFlags i = false
  apart : ∀ i < m, i < n → emptyBit st.newFlags i = false → (st.oldSlot i).held = none
  moving : Moving all m n (khSite hash n) st.oldSlot st.newSlot hand

/-- A bucket without an entry keeps its slot when the arrays change there. -/
theorem slotAt_set_of_held_none {n : Nat} {flags : List UInt32} {keys : List (Option K)}
    {vals : List (Option V)} (h : Stored n flags keys vals) {i : Nat} (hi : i < n)
    (hfree : (slotAt flags keys vals i).held = none) (key : Option K) (val : Option V) :
    slotAt flags (keys.set i key) (vals.set i val) = slotAt flags keys vals := by
  funext j
  by_cases hj : j = i
  · subst hj
    rcases h.slot_cases hi with ⟨hempty, -⟩ | ⟨hempty, hdel, -⟩ | ⟨-, -, _, -, hslot⟩
    · simp [slotAt, hempty]
    · simp [slotAt, hempty, hdel]
    · rw [hslot] at hfree
      cases hfree
  · exact slotAt_congr rfl rfl (List.getElem?_set_ne (Ne.symm hj))
      (List.getElem?_set_ne (Ne.symm hj))

/-- A write into the arrays leaves them stored. -/
theorem Stored.set {n : Nat} {flags : List UInt32} {keys : List (Option K)}
    {vals : List (Option V)} (h : Stored n flags keys vals) (i : Nat) (key : K)
    (val : Option V) (hi : i < keys.length) :
    Stored n flags (keys.set i (some key)) (vals.set i val) :=
  h.update (x := i) rfl List.length_set List.length_set
    (fun _ hj => ⟨rfl, rfl, List.getElem?_set_ne (Ne.symm hj)⟩)
    fun _ _ => ⟨key, List.getElem?_set_self hi⟩

section Kick

variable {hash : K → UInt32} {all : List (K × Option V)} {m n : UInt32} {k : Nat}

/-- The search for an empty bucket of the new table. -/
theorem khFreeBucket_spec {st : Rehash K V} (hnew : Stored n.toNat st.newFlags st.keys st.vals)
    (hn : n.toNat = 2 ^ k) {key : K} {s : Nat} (hs : s < n.toNat)
    (hfirst : First (khSite hash n.toNat) (fun i => st.newSlot i = .empty) key s) :
    ∀ fuel t (i step : UInt32), i.toNat = khSite hash n.toNat key t → step.toNat = t → t ≤ s →
      s - t < fuel →
      ∃ i', khFreeBucket st.newFlags (n - 1) fuel i step = .ok i' ∧
        i'.toNat = khSite hash n.toNat key s := by
  have hprobing := khSite_probing hash hn
  intro fuel
  induction fuel with
  | zero => exact fun t i step _ _ _ hfuel => absurd hfuel (Nat.not_lt_zero _)
  | succ fuel ih =>
      intro t i step hi hstep hts hfuel
      have hlt : i.toNat < n.toNat := hi ▸ hprobing.lt key t
      rw [khFreeBucket, hnew.acIsempty_eq hlt, ok_bind]
      rcases Nat.lt_or_eq_of_le hts with htlt | rfl
      · have hused : (slotAt st.newFlags st.keys st.vals i.toNat).isEmpty = false := by
          rw [← Bool.not_eq_true, Bucket.isEmpty_eq_true, hi]
          exact hfirst.passes t htlt
        obtain ⟨hnext, hsucc⟩ := khSite_step hash hn hi hstep (by omega)
        rw [hused, if_neg (by decide)]
        exact ih (t + 1) _ _ hnext hsucc htlt (by omega)
      · have hempty : (slotAt st.newFlags st.keys st.vals i.toNat).isEmpty = true := by
          rw [Bucket.isEmpty_eq_true, hi]
          exact hfirst.stops
        rw [hempty, if_pos rfl]
        exact ⟨i, rfl, hi⟩

/-- What a round of the kick-out process may do to the old table: nothing, or delete an
entry. -/
structure KickEffect (m : Nat) (st st' : Rehash K V) (hand : Option (K × Option V)) : Prop where
  kept : ∀ i < m, (st.oldSlot i).held = none → (st'.oldSlot i).held = none
  fewer : hand ≠ none → (entries m st'.oldSlot).length < (entries m st.oldSlot).length

/-- A bucket of the new table for an entry, with the flags that say so: written there, the
entry is in the new table. -/
structure Placed (hash : K → UInt32) (all : List (K × Option V)) (m n : Nat) (st : Rehash K V)
    (key : K) (val : Option V) (i : Nat) (newFlags : List UInt32) : Prop where
  lt : i < n
  new : Stored n newFlags (st.keys.set i (some key)) (st.vals.set i val)
  fresh : ∀ j < n, delBit newFlags j = false
  other : ∀ j, j ≠ i → emptyBit newFlags j = emptyBit st.newFlags j
  moving : Moving all m n (khSite hash n) st.oldSlot
    (slotAt newFlags (st.keys.set i (some key)) (st.vals.set i val)) none

/-- The bucket for the entry in hand. -/
theorem Moved.exists_placed {st : Rehash K V} {key : K} {val : Option V}
    (h : Moved hash all m.toNat n.toNat st (some (key, val))) (hn : n.toNat = 2 ^ k)
    (hroom : all.length < n.toNat) :
    ∃ i newFlags,
      khFreeBucket st.newFlags (n - 1) (2 * n.toNat) (hash key &&& (n - 1)) 0 = .ok i ∧
      acSetIsemptyFalse st.newFlags i = .ok newFlags ∧
      Placed hash all m.toNat n.toNat st key val i.toNat newFlags := by
  have hprobing := khSite_probing hash hn
  obtain ⟨s, hs, hfirst⟩ := h.moving.exists_first hprobing hroom
  obtain ⟨i, hbucket, hi⟩ := khFreeBucket_spec h.new hn hs hfirst (2 * n.toNat) 0 _ 0
    (khSite_start hash hn key) rfl (Nat.zero_le s) (by omega)
  have hin : i.toNat < n.toNat := hi ▸ hprobing.lt key s
  obtain ⟨newFlags, hset, hlength, hempty, hdel⟩ := acSetIsemptyFalse_spec (h.new.words _ hin)
  have hslot : slotAt newFlags (st.keys.set i.toNat (some key)) (st.vals.set i.toNat val) =
      Function.update st.newSlot (khSite hash n.toNat key s) (.live key val) := by
    rw [← hi]
    exact Stored.write hin h.new.keys_le h.new.vals_le hempty (fun j _ => hdel j)
      (by rw [hdel]; exact h.fresh _ hin)
  refine ⟨i, newFlags, hbucket, hset, hin, ?_, ?_, ?_, ?_⟩
  · exact h.new.update (x := i.toNat) hlength List.length_set List.length_set
      (fun j hj => ⟨by simp [hempty, hj], hdel j, List.getElem?_set_ne (Ne.symm hj)⟩)
      fun _ _ => ⟨key, List.getElem?_set_self (Nat.lt_of_lt_of_le hin h.new.keys_le)⟩
  · intro j hj
    rw [hdel]
    exact h.fresh j hj
  · intro j hj
    simp [hempty, hj]
  · rw [hslot]
    exact h.moving.place hprobing hfirst

section Write

variable {st : Rehash K V} {hand : Option (K × Option V)} {key : K} {val : Option V} {i : UInt32}
  {newFlags : List UInt32}

/-- No bucket is used by both tables after the write, since the old one has nothing left in
the bucket that the new one takes. -/
theorem Placed.apart (h : Moved hash all m.toNat n.toNat st hand)
    (hplaced : Placed hash all m.toNat n.toNat st key val i.toNat newFlags)
    {old' : Nat → Bucket K (Option V)}
    (hother : ∀ j < m.toNat, j ≠ i.toNat → old' j = st.oldSlot j)
    (hself : i.toNat < m.toNat → (old' i.toNat).held = none) :
    ∀ j < m.toNat, j < n.toNat → emptyBit newFlags j = false → (old' j).held = none := by
  intro j hj hjn hused
  by_cases hji : j = i.toNat
  · rw [hji]
    exact hself (hji ▸ hj)
  · rw [hother j hj hji]
    rw [hplaced.other j hji] at hused
    exact h.apart j hj hjn hused

/-- An entry of the old table is kicked out. -/
theorem khKickOut_spec (h : Moved hash all m.toNat n.toNat st hand)
    (hplaced : Placed hash all m.toNat n.toNat st key val i.toNat newFlags)
    (him : i.toNat < m.toNat) {key' : K} {val' : Option V}
    (hlive : st.oldSlot i.toNat = .live key' val') :
    ∃ st', khKickOut { st with newFlags := newFlags } i key val =
        .ok (st', some (key', val')) ∧
      Moved hash all m.toNat n.toNat st' (some (key', val')) ∧
      KickEffect m.toNat st st' (some (key', val')) := by
  have hkeys := Nat.lt_of_lt_of_le him h.old.keys_le
  have hvals := Nat.lt_of_lt_of_le him h.old.vals_le
  obtain ⟨hkey', hval'⟩ := h.old.reads him hlive
  have hheld : (slotAt st.flags st.keys st.vals i.toNat).held ≠ none := by
    rw [show slotAt st.flags st.keys st.vals i.toNat = .live key' val' from hlive]
    simp
  obtain ⟨flags, hdeleted, hold, -, hslot⟩ := h.old.setIsdelTrue him hheld
  have hfree : (slotAt flags st.keys st.vals i.toNat).held = none := by
    rw [hslot, Function.update_self]
    rfl
  have hslot' : slotAt flags (st.keys.set i.toNat (some key)) (st.vals.set i.toNat val) =
      Function.update st.oldSlot i.toNat .deleted := by
    rw [slotAt_set_of_held_none hold him hfree, hslot]
    rfl
  refine ⟨{ flags := flags, newFlags := newFlags, keys := st.keys.set i.toNat (some key),
            vals := st.vals.set i.toNat val }, ?_, ?_, ?_, ?_⟩
  · simp only [khKickOut, hkey', hval', khStore_eq hkeys, khStore_eq hvals, hdeleted, ok_bind]
  · refine ⟨hold.set _ _ _ hkeys, hplaced.new, hplaced.fresh, ?_, ?_⟩
    · apply hplaced.apart h
      · intro j _ hji
        rw [Rehash.oldSlot, hslot', Function.update_of_ne hji]
      · intro _
        rw [Rehash.oldSlot, hslot', Function.update_self]
        rfl
    · show Moving all _ _ _ (slotAt flags _ _) _ _
      rw [hslot']
      exact hplaced.moving.take him hlive
  · intro j _ hnone
    rw [Rehash.oldSlot, hslot']
    by_cases hji : j = i.toNat
    · rw [hji, Function.update_self]
      rfl
    · rwa [Function.update_of_ne hji]
  · intro _
    have hcount := (entries_delete him hlive).length_eq
    rw [Rehash.oldSlot, hslot', hcount]
    exact Nat.lt_succ_self _

/-- The bucket has no entry of the old table. -/
theorem khWrite_spec (h : Moved hash all m.toNat n.toNat st hand)
    (hplaced : Placed hash all m.toNat n.toNat st key val i.toNat newFlags)
    (hn : n.toNat = 2 ^ k) (hfree : i.toNat < m.toNat → (st.oldSlot i.toNat).held = none) :
    ∃ st', khWrite { st with newFlags := newFlags } i key val = .ok (st', none) ∧
      Moved hash all m.toNat n.toNat st' none ∧ KickEffect m.toNat st st' none := by
  have hkeys := Nat.lt_of_lt_of_le hplaced.lt h.new.keys_le
  have hvals := Nat.lt_of_lt_of_le hplaced.lt h.new.vals_le
  have hsame : ∀ j < m.toNat,
      slotAt st.flags (st.keys.set i.toNat (some key)) (st.vals.set i.toNat val) j =
        st.oldSlot j := by
    intro j hj
    by_cases hji : j = i.toNat
    · rw [slotAt_set_of_held_none h.old (hji ▸ hj) (hfree (hji ▸ hj))]
      rfl
    · exact slotAt_congr rfl rfl (List.getElem?_set_ne (Ne.symm hji))
        (List.getElem?_set_ne (Ne.symm hji))
  refine ⟨{ flags := st.flags, newFlags := newFlags, keys := st.keys.set i.toNat (some key),
            vals := st.vals.set i.toNat val }, ?_, ?_, ?_, fun hne => absurd rfl hne⟩
  · simp only [khWrite, khStore_eq hkeys, khStore_eq hvals, ok_bind]
  · refine ⟨h.old.set _ _ _ hkeys, hplaced.new, hplaced.fresh, ?_, ?_⟩
    · apply hplaced.apart h
      · exact fun j hj _ => hsame j hj
      · intro him
        rw [Rehash.oldSlot, hsame _ him]
        exact hfree him
    · exact hplaced.moving.congr (khSite_probing hash hn).lt hsame fun _ _ => rfl
  · intro j hj hnone
    rw [Rehash.oldSlot, hsame j hj]
    exact hnone

end Write

/-- Whether the old table has an entry in a bucket. -/
theorem khHasOld_eq {flags : List UInt32} {keys : List (Option K)} {vals : List (Option V)}
    (h : Stored m.toNat flags keys vals) (i : UInt32) :
    khHasOld m flags i = .ok (decide (i.toNat < m.toNat) &&
      (slotAt flags keys vals i.toNat).held.isSome) := by
  unfold khHasOld
  by_cases him : i.toNat < m.toNat
  · rw [if_pos (UInt32.lt_iff_toNat_lt.mpr him), h.acIseither_eq him, decide_eq_true him]
    simp only [ok_bind, Bool.true_and, Option.not_isNone]
  · rw [if_neg (fun hlt => him (UInt32.lt_iff_toNat_lt.mp hlt)), decide_eq_false him]
    rfl

/-- **A round of the kick-out process** is a step of the rehash. -/
theorem khKick_spec {st : Rehash K V} {key : K} {val : Option V}
    (h : Moved hash all m.toNat n.toNat st (some (key, val))) (hn : n.toNat = 2 ^ k)
    (hroom : all.length < n.toNat) :
    ∃ st' hand, khKick hash m n st key val = .ok (st', hand) ∧
      Moved hash all m.toNat n.toNat st' hand ∧ KickEffect m.toNat st st' hand := by
  obtain ⟨i, newFlags, hbucket, hset, hplaced⟩ := h.exists_placed hn hroom
  dsimp only [khKick]
  rw [hbucket, ok_bind, hset, ok_bind, khHasOld_eq h.old, ok_bind]
  by_cases hlive : i.toNat < m.toNat ∧ (st.oldSlot i.toNat).held ≠ none
  · obtain ⟨him, hlive⟩ := hlive
    obtain ⟨⟨key', val'⟩, hheld⟩ := Option.ne_none_iff_exists'.mp hlive
    obtain ⟨st', hkick, hmoved, heffect⟩ :=
      khKickOut_spec h hplaced him (Bucket.held_eq_some.mp hheld)
    have hsome : (slotAt st.flags st.keys st.vals i.toNat).held.isSome = true :=
      Option.isSome_iff_ne_none.mpr hlive
    rw [decide_eq_true him, hsome, Bool.and_true, if_pos rfl]
    exact ⟨st', _, hkick, hmoved, heffect⟩
  · have hfree : i.toNat < m.toNat → (st.oldSlot i.toNat).held = none := by
      intro him
      by_contra hne
      exact hlive ⟨him, hne⟩
    have hfalse : (decide (i.toNat < m.toNat) &&
        (slotAt st.flags st.keys st.vals i.toNat).held.isSome) = false := by
      rw [Bool.and_eq_false_imp, decide_eq_true_eq]
      intro him
      rw [← Bool.not_eq_true, Option.isSome_iff_ne_none, not_not]
      exact hfree him
    obtain ⟨st', hwrite, hmoved, heffect⟩ := khWrite_spec h hplaced hn hfree
    rw [hfalse, if_neg (by decide)]
    exact ⟨st', none, hwrite, hmoved, heffect⟩

/-- The kick-out process ends, with nothing left in hand. -/
theorem khKickLoop_spec (hn : n.toNat = 2 ^ k) (hroom : all.length < n.toNat) :
    ∀ fuel (st : Rehash K V) (key : K) (val : Option V),
      Moved hash all m.toNat n.toNat st (some (key, val)) →
      (entries m.toNat st.oldSlot).length < fuel →
      ∃ st', khKickLoop hash m n fuel st key val = .ok st' ∧
        Moved hash all m.toNat n.toNat st' none ∧
        ∀ i < m.toNat, (st.oldSlot i).held = none → (st'.oldSlot i).held = none := by
  intro fuel
  induction fuel with
  | zero => exact fun st key val _ hfuel => absurd hfuel (Nat.not_lt_zero _)
  | succ fuel ih =>
      intro st key val h hfuel
      obtain ⟨st', hand, hkick, hmoved, heffect⟩ := khKick_spec h hn hroom
      rw [khKickLoop, hkick, ok_bind]
      cases hand with
      | none => exact ⟨st', rfl, hmoved, heffect.kept⟩
      | some entry =>
          have hfewer := heffect.fewer (Option.some_ne_none entry)
          obtain ⟨st'', hloop, hmoved', hkept⟩ :=
            ih st' entry.1 entry.2 hmoved (by omega)
          exact ⟨st'', hloop, hmoved', fun i hi hnone => hkept i hi (heffect.kept i hi hnone)⟩

/-- A bucket of the old table is done: it has no entry any more. -/
theorem khRehashBucket_spec {st : Rehash K V} (h : Moved hash all m.toNat n.toNat st none)
    (hn : n.toNat = 2 ^ k) (hroom : all.length < n.toNat) {j : UInt32}
    (hj : j.toNat < m.toNat) :
    ∃ st', khRehashBucket hash m n st j = .ok st' ∧
      Moved hash all m.toNat n.toNat st' none ∧ (st'.oldSlot j.toNat).held = none ∧
      ∀ i < m.toNat, (st.oldSlot i).held = none → (st'.oldSlot i).held = none := by
  unfold khRehashBucket
  rw [h.old.acIseither_eq hj, ok_bind]
  cases hentry : (slotAt st.flags st.keys st.vals j.toNat).held with
  | none =>
      rw [Option.isNone_none, if_pos rfl]
      exact ⟨st, rfl, h, hentry, fun _ _ hnone => hnone⟩
  | some entry =>
      have hlive := Bucket.held_eq_some.mp hentry
      obtain ⟨hkey, hval⟩ := h.old.reads hj hlive
      obtain ⟨flags, hset, hold, hempty, hslot⟩ :=
        h.old.setIsdelTrue hj (by rw [hentry]; simp)
      have hnone : ∀ i, (st.oldSlot i).held = none →
          (Function.update st.oldSlot j.toNat Bucket.deleted i).held = none := by
        intro i hi
        by_cases hij : i = j.toNat
        · rw [hij, Function.update_self]
          rfl
        · rwa [Function.update_of_ne hij]
      have hmoved : Moved hash all m.toNat n.toNat { st with flags := flags } (some entry) := by
        refine ⟨hold, h.new, h.fresh, fun i hi hin hused => ?_, ?_⟩
        · show (slotAt flags st.keys st.vals i).held = none
          rw [hslot]
          exact hnone i (h.apart i hi hin hused)
        · show Moving all _ _ _ (slotAt flags st.keys st.vals) _ _
          rw [hslot]
          exact h.moving.take hj hlive
      have hlength : (entries m.toNat ({ st with flags := flags } : Rehash K V).oldSlot).length <
          m.toNat + 1 :=
        Nat.lt_succ_of_le ((List.length_filterMap_le _ _).trans (List.length_range ..).le)
      obtain ⟨st', hloop, hmoved', hkept⟩ := khKickLoop_spec hn hroom (m.toNat + 1)
        { st with flags := flags } entry.1 entry.2 hmoved hlength
      have hslot' : ({ st with flags := flags } : Rehash K V).oldSlot =
          Function.update st.oldSlot j.toNat .deleted := hslot
      rw [hslot'] at hkept
      refine ⟨st', ?_, hmoved', hkept _ hj ?_, fun i hi hi' => hkept i hi (hnone i hi')⟩
      · simp only [Option.isNone_some, Bool.false_eq_true, if_false, hkey, hval, hset, ok_bind,
          hloop]
      · rw [Function.update_self]
        rfl

/-- **The loop over the old buckets** moves every entry to the new table. -/
theorem khRehash_spec {st : Rehash K V} (h : Moved hash all m.toNat n.toNat st none)
    (hn : n.toNat = 2 ^ k) (hroom : all.length < n.toNat) :
    ∃ st', khRehash hash m n st = .ok st' ∧ Moved hash all m.toNat n.toNat st' none ∧
      ∀ i < m.toNat, (st'.oldSlot i).held = none := by
  have hrun : ∀ count ≤ m.toNat, ∃ st',
      (List.range count).foldlM
        (fun st j => khRehashBucket hash m n st (UInt32.ofNat j)) st = .ok st' ∧
      Moved hash all m.toNat n.toNat st' none ∧
      ∀ i < count, (st'.oldSlot i).held = none := by
    intro count
    induction count with
    | zero => exact fun _ => ⟨st, rfl, h, fun i hi => absurd hi (Nat.not_lt_zero i)⟩
    | succ count ih =>
        intro hcount
        obtain ⟨st', hfold, hmoved, hdone⟩ := ih (by omega)
        have hj : (UInt32.ofNat count).toNat = count :=
          UInt32.toNat_ofNat_of_lt' (Nat.lt_trans hcount m.toNat_lt)
        obtain ⟨st'', hbucket, hmoved', hself, hkept⟩ :=
          khRehashBucket_spec hmoved hn hroom (j := UInt32.ofNat count) (by omega)
        refine ⟨st'', ?_, hmoved', fun i hi => ?_⟩
        · rw [List.range_succ, List.foldlM_append, hfold, ok_bind, List.foldlM_cons, hbucket]
          rfl
        · rcases Nat.lt_succ_iff_lt_or_eq.mp hi with hlt | rfl
          · exact hkept i (by omega) (hdone i hlt)
          · rwa [hj] at hself
  exact hrun m.toNat (Nat.le_refl _)

end Kick

/-! ## Arrays -/

section Arrays

/-- The new array has the length that was asked for. -/
theorem length_krealloc {α : Type} (a : List (Option α)) (length : Nat) :
    (krealloc a length).length = length := by
  rw [krealloc, List.length_append, List.length_take, List.length_replicate]
  omega

/-- An array that has elements after it was shrunk is no null pointer. -/
theorem granted_of_length {α : Type} {granted : Bool} {a : List (Option α)} {length : Nat}
    (h : 0 < (khShrink granted a length).length) : granted = true := by
  cases granted with
  | false => exact absurd h (Nat.lt_irrefl 0)
  | true => rfl

/-- `krealloc` keeps what fits into the new array. -/
theorem getElem?_krealloc {α : Type} {a : List (Option α)} {length i : Nat} (hi : i < length)
    (ha : i < a.length) : (krealloc a length)[i]? = a[i]? := by
  rw [krealloc, List.getElem?_append_left (by rw [List.length_take]; omega),
    List.getElem?_take_of_lt hi]

/-- Arrays that agree below the number of buckets. -/
theorem Stored.of_agree {n : Nat} {flags : List UInt32} {keys keys' : List (Option K)}
    {vals vals' : List (Option V)} (h : Stored n flags keys vals) (hkeys : n ≤ keys'.length)
    (hvals : n ≤ vals'.length) (hagree : ∀ i < n, keys'[i]? = keys[i]?) :
    Stored n flags keys' vals' := by
  refine ⟨h.words, hkeys, hvals, fun i hi hempty hdel => ?_⟩
  rw [hagree i hi]
  exact h.written i hi hempty hdel

/-- A longer array of keys has the same entries. -/
theorem Stored.krealloc_keys {n length : Nat} {flags : List UInt32} {keys : List (Option K)}
    {vals : List (Option V)} (h : Stored n flags keys vals) (hn : n ≤ length) :
    Stored n flags (krealloc keys length) vals ∧
      ∀ i < n, slotAt flags (krealloc keys length) vals i = slotAt flags keys vals i := by
  have hagree : ∀ i < n, (krealloc keys length)[i]? = keys[i]? := fun i hi =>
    getElem?_krealloc (by omega) (Nat.lt_of_lt_of_le hi h.keys_le)
  exact ⟨h.of_agree (by rwa [length_krealloc]) h.vals_le hagree,
    fun i hi => slotAt_congr rfl rfl (hagree i hi) rfl⟩

/-- So has a longer array of values. -/
theorem Stored.krealloc_vals {n length : Nat} {flags : List UInt32} {keys : List (Option K)}
    {vals : List (Option V)} (h : Stored n flags keys vals) (hn : n ≤ length) :
    Stored n flags keys (krealloc vals length) ∧
      ∀ i < n, slotAt flags keys (krealloc vals length) i = slotAt flags keys vals i := by
  have hagree : ∀ i < n, (krealloc vals length)[i]? = vals[i]? := fun i hi =>
    getElem?_krealloc (by omega) (Nat.lt_of_lt_of_le hi h.vals_le)
  exact ⟨h.of_agree h.keys_le (by rwa [length_krealloc]) (fun _ _ => rfl),
    fun i hi => slotAt_congr rfl rfl rfl (hagree i hi)⟩

variable {hash : K → UInt32} {h : Khash K V}

/-- The invariant looks at the arrays below the number of buckets only. -/
theorem Khash.Inv.of_agree (hinv : h.Inv hash) (h' : Khash K V)
    (hfields : h' = { h with keys := h'.keys, vals := h'.vals })
    (hstored : Stored h.nBuckets.toNat h'.flags h'.keys h'.vals)
    (hslot : ∀ i < h.nBuckets.toNat, h'.slot i = h.slot i) :
    h'.Inv hash ∧ h'.entries = h.entries := by
  have hbuckets : h'.nBuckets = h.nBuckets := by rw [hfields]
  have hsize : h'.size = h.size := by rw [hfields]
  have hoccupied : h'.nOccupied = h.nOccupied := by rw [hfields]
  have hupper : h'.upperBound = h.upperBound := by rw [hfields]
  have hentries : h'.entries = h.entries := by
    rw [Khash.entries, hbuckets]
    exact entries_congr hslot
  refine ⟨⟨?_, ?_, ?_, ?_, ?_, ?_, ?_⟩, hentries⟩
  · rwa [hbuckets]
  · rw [hbuckets]
    exact hinv.buckets
  · rw [hupper, hbuckets]
    exact hinv.upperBound
  · rw [hsize, hentries]
    exact hinv.size
  · rw [hoccupied, hbuckets, occupied_congr hslot]
    exact hinv.occupied
  · rw [hoccupied, hupper]
    exact hinv.occupied_le
  · rw [hbuckets]
    exact hinv.table.congr (fun hpos key s => TriangularProbing.site_lt hpos _ s) hslot

/-- The allocations keep the table; when all succeed the arrays have room for the new number of
buckets. -/
theorem khGrow_spec (hinv : h.Inv hash) (alloc : Alloc) (n : UInt32) :
    ∃ h' grown, khGrow alloc h n = (h', grown) ∧
      h' = { h with keys := h'.keys, vals := h'.vals } ∧
      Stored h.nBuckets.toNat h'.flags h'.keys h'.vals ∧
      (∀ i < h.nBuckets.toNat, h'.slot i = h.slot i) ∧
      (grown = true → n.toNat ≤ h'.keys.length ∧ n.toNat ≤ h'.vals.length) ∧
      (alloc.Granted → grown = true) := by
  have hstored := hinv.stored
  unfold khGrow
  by_cases hflags : alloc.flags = false
  · rw [if_pos hflags]
    exact ⟨h, false, rfl, rfl, hstored, fun _ _ => rfl, by simp,
      fun hok => absurd hok.1 (by rw [hflags]; decide)⟩
  rw [if_neg hflags]
  by_cases hlt : h.nBuckets < n
  · rw [if_pos hlt]
    have hle : h.nBuckets.toNat ≤ n.toNat := Nat.le_of_lt (UInt32.lt_iff_toNat_lt.mp hlt)
    obtain ⟨hkeys, hkeySlot⟩ := hstored.krealloc_keys hle
    obtain ⟨hvals, hvalSlot⟩ := hkeys.krealloc_vals hle
    by_cases hkeysOk : alloc.keys = false
    · rw [if_pos hkeysOk]
      exact ⟨h, false, rfl, rfl, hstored, fun _ _ => rfl, by simp,
        fun hok => absurd hok.2.1 (by rw [hkeysOk]; decide)⟩
    rw [if_neg hkeysOk]
    by_cases hvalsOk : alloc.vals = false
    · rw [if_pos hvalsOk]
      exact ⟨_, false, rfl, rfl, hkeys, hkeySlot, by simp,
        fun hok => absurd hok.2.2 (by rw [hvalsOk]; decide)⟩
    · rw [if_neg hvalsOk]
      refine ⟨_, true, rfl, rfl, hvals, fun i hi => (hvalSlot i hi).trans (hkeySlot i hi),
        fun _ => ⟨?_, ?_⟩, fun _ => rfl⟩
      · exact (length_krealloc ..).ge
      · exact (length_krealloc ..).ge
  · have hle : n.toNat ≤ h.nBuckets.toNat :=
      Nat.le_of_not_lt fun h => hlt (UInt32.lt_iff_toNat_lt.mpr h)
    rw [if_neg hlt]
    exact ⟨h, true, rfl, rfl, hstored, fun _ _ => rfl,
      fun _ => ⟨hle.trans hstored.keys_le, hle.trans hstored.vals_le⟩, fun _ => rfl⟩

end Arrays

/-! ## The resize -/

section Resize

variable {hash : K → UInt32} {h : Khash K V}

/-- The state before the first round: nothing is in the new table. -/
theorem moved_start (hash : K → UInt32) {m n : UInt32} {k : Nat} {flags : List UInt32}
    {keys : List (Option K)} {vals : List (Option V)} (hn : n.toNat = 2 ^ k)
    (hold : Stored m.toNat flags keys vals)
    (hkeys : n.toNat ≤ keys.length) (hvals : n.toNat ≤ vals.length) :
    Moved hash (entries m.toNat (slotAt flags keys vals)) m.toNat n.toNat
      { flags := flags, newFlags := acAllEmpty n, keys := keys, vals := vals } none := by
  have hempty : ∀ i < n.toNat, slotAt (acAllEmpty n) keys vals i = .empty := by
    intro i hi
    rw [slotAt, (acAllEmpty_bits hn hi).1, if_pos rfl]
  obtain ⟨htable, hnil, -⟩ := inv_of_empty (khSite hash n.toNat) hempty
  refine ⟨hold, ⟨fun i hi => ?_, hkeys, hvals, fun i hi hused => ?_⟩,
    fun i hi => (acAllEmpty_bits hn hi).2, fun i _ hi hused => ?_, ?_, htable.reachable,
    fun i hi => ?_⟩
  · rw [acAllEmpty, List.length_replicate]
    exact div_sixteen_lt_acFsize hn hi
  · rw [(acAllEmpty_bits hn hi).1] at hused
    cases hused
  · rw [(acAllEmpty_bits hn hi).1] at hused
    cases hused
  · show (entries m.toNat (slotAt flags keys vals) ++ [] ++
      entries n.toNat (slotAt (acAllEmpty n) keys vals)).Perm _
    rw [hnil, List.append_nil, List.append_nil]
  · show slotAt (acAllEmpty n) keys vals i ≠ _
    rw [hempty i hi]
    simp

/-- The state after the last round, with the arrays shrunk where the table shrinks: a table of
all entries without deleted buckets. -/
theorem moved_finish {m n size : UInt32} {k : Nat} {st : Rehash K V}
    {all : List (K × Option V)} (keys : List (Option K)) (vals : List (Option V))
    (hk : 2 ≤ k ∧ k ≤ 31) (hn : n.toNat = 2 ^ k)
    (hmoved : Moved hash all m.toNat n.toNat st none)
    (hdone : ∀ i < m.toNat, (st.oldSlot i).held = none)
    (hdistinct : (all.map Prod.fst).Nodup) (hsize : size.toNat = all.length)
    (hbound : size.toNat < (acUpperBound n).toNat) (hstored : Stored n.toNat st.newFlags keys vals)
    (hslot : ∀ i < n.toNat, slotAt st.newFlags keys vals i = st.newSlot i) :
    Khash.Inv hash { nBuckets := n, size := size, nOccupied := size,
                     upperBound := acUpperBound n, flags := st.newFlags, keys := keys,
                     vals := vals } ∧
      (entries n.toNat (slotAt st.newFlags keys vals)).Perm all := by
  obtain ⟨hperm, htable⟩ := hmoved.moving.finish hdone hdistinct
  rw [← entries_congr hslot] at hperm
  have hclean : ∀ i < n.toNat, slotAt st.newFlags keys vals i ≠ .deleted := by
    intro i hi
    rw [hslot i hi]
    exact hmoved.moving.clean i hi
  refine ⟨⟨hstored, .inr ⟨k, hk, hn⟩, rfl, ?_, ?_, Nat.le_of_lt hbound, ?_⟩, hperm⟩
  · exact hsize.trans hperm.length_eq.symm
  · exact hsize.trans (hperm.length_eq.symm.trans (occupied_eq_length hclean).symm)
  · exact htable.congr (fun hpos key s => TriangularProbing.site_lt hpos _ s) hslot

/-- **A resize keeps the entries**, for every requested number of buckets, unless it shrinks the
arrays without memory for it.  When the allocations that the code looks at succeed it returns
0; then either the requested table was too small and nothing changed, or the new table has no
deleted buckets. -/
theorem khResize_spec (hinv : h.Inv hash) (alloc : Alloc) (r : UInt32) :
    ∃ h' ret, khResize hash alloc h r = .ok (h', ret) ∧
      ((h'.nBuckets < h.nBuckets → alloc.Shrinks) → h'.Inv hash ∧ h'.entries.Perm h.entries) ∧
      (h'.Inv hash → h'.nBuckets < h.nBuckets → alloc.Shrinks) ∧
      ((ret = -1 ∧ ¬ alloc.Granted ∧ h'.nBuckets = h.nBuckets) ∨
        (ret = 0 ∧ h' = h ∧ (acUpperBound (khBucketCount r)).toNat ≤ h.size.toNat) ∨
        (ret = 0 ∧ h'.nBuckets = khBucketCount r ∧ h'.upperBound = acUpperBound h'.nBuckets ∧
          h'.nOccupied = h.size ∧ h'.size = h.size ∧ h.size.toNat < h'.upperBound.toNat)) := by
  obtain ⟨k, hk, hn⟩ := khBucketCount_pow r
  dsimp only [khResize]
  by_cases hsmall : h.size ≥ acUpperBound (khBucketCount r)
  · rw [if_pos hsmall]
    exact ⟨h, 0, rfl, fun _ => ⟨hinv, List.Perm.refl _⟩,
      fun _ hless => absurd hless (UInt32.lt_irrefl _),
      .inr (.inl ⟨rfl, rfl, UInt32.le_iff_toNat_le.mp hsmall⟩)⟩
  rw [if_neg hsmall]
  have hbound : h.size.toNat < (acUpperBound (khBucketCount r)).toNat :=
    Nat.lt_of_not_le fun hle => hsmall (UInt32.le_iff_toNat_le.mpr hle)
  obtain ⟨h', grown, hgrow, hfields, hstored, hslot, hroom, hok⟩ :=
    khGrow_spec hinv alloc (khBucketCount r)
  rw [hgrow]
  obtain ⟨hinv', hentries⟩ := hinv.of_agree h' hfields hstored hslot
  have hbuckets : h'.nBuckets = h.nBuckets := by rw [hfields]
  cases grown with
  | false =>
      exact ⟨h', -1, rfl, fun _ => ⟨hinv', by rw [hentries]⟩,
        fun _ hless => absurd (hbuckets ▸ hless) (UInt32.lt_irrefl _),
        .inl ⟨rfl, fun halloc => Bool.noConfusion (hok halloc), hbuckets⟩⟩
  | true =>
      obtain ⟨hkeys, hvals⟩ := hroom rfl
      have hsize : h'.size = h.size := by rw [hfields]
      have hfour : 2 ^ 2 ≤ 2 ^ k := Nat.pow_le_pow_right (by decide) hk.1
      have hupper := acUpperBound_lt (m := khBucketCount r) (by omega)
      have hlength := hinv'.size
      have hstart := moved_start hash hn hinv'.stored hkeys hvals
      obtain ⟨st, hrehash, hmoved, hdone⟩ := khRehash_spec hstart hn (by
        rw [hsize] at hlength
        exact Nat.lt_trans (hlength ▸ hbound) hupper)
      have hfinish := fun keys vals => moved_finish keys vals hk hn hmoved hdone
        hinv'.table.distinct hlength (by rwa [hsize])
      have hperm : (entries h'.nBuckets.toNat h'.slot).Perm h.entries := by
        rw [← hentries]
        exact List.Perm.refl _
      simp only [hrehash, ok_bind]
      by_cases hshrink : h'.nBuckets > khBucketCount r
      · simp only [if_pos hshrink]
        refine ⟨_, 0, rfl, fun hgranted => ?_, fun hinv'' _ => ?_,
          .inr (.inr ⟨rfl, rfl, rfl, hsize, hsize, hbound⟩)⟩
        · obtain ⟨hkeysOk, hvalsOk⟩ := hgranted (by rwa [← hbuckets])
          simp only [khShrink, hkeysOk, hvalsOk, if_true]
          obtain ⟨hstored₁, hslot₁⟩ := hmoved.new.krealloc_keys (Nat.le_refl _)
          obtain ⟨hstored₂, hslot₂⟩ := hstored₁.krealloc_vals (Nat.le_refl _)
          obtain ⟨hinv'', hperm'⟩ := hfinish _ _ hstored₂
            fun i hi => (hslot₂ i hi).trans (hslot₁ i hi)
          exact ⟨hinv'', hperm'.trans hperm⟩
        · -- an array that was lost is shorter than the table
          have hpos : 0 < (khBucketCount r).toNat := by omega
          exact ⟨granted_of_length (Nat.lt_of_lt_of_le hpos hinv''.stored.keys_le),
            granted_of_length (Nat.lt_of_lt_of_le hpos hinv''.stored.vals_le)⟩
      · simp only [if_neg hshrink]
        obtain ⟨hinv'', hperm'⟩ := hfinish _ _ hmoved.new fun _ _ => rfl
        exact ⟨_, 0, rfl, fun _ => ⟨hinv'', hperm'.trans hperm⟩,
          fun _ hless => absurd (hbuckets ▸ hless) hshrink,
          .inr (.inr ⟨rfl, rfl, rfl, hsize, hsize, hbound⟩)⟩

end Resize

end Vmars
