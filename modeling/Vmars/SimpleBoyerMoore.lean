import Vmars.CMemory
import Vmars.Occurrence

/-!
# The marker search (`simpleboyermoore.c`)

`boyermooreSearch` compares the pattern backwards under a window and moves the
window by the entry of the bad-match table for the letter under its end.  The
table is a safe shift in the sense of the occurrence library, so the search
returns the leftmost occurrence, reads only inside the haystack and stops.
-/

namespace Vmars

open CMemory Occurrence

/-- `struct boyermoore_s`. -/
structure BoyermooreS where
  pattern : List UInt8
  len : Nat
  badMatch : UInt8 → Nat

/-- The round of the second loop of `boyermoore_init` for index `i`. -/
def setBadMatch (pattern : List UInt8) (table : UInt8 → Nat) (i : Nat) : UInt8 → Nat :=
  match pattern[i]? with
  | some c => Function.update table c (pattern.length - i - 1)
  | none => table

/-- `boyermoore_init`: every letter shifts by the whole pattern, then the
letters of the pattern, its last one aside, by their distance from the end. -/
def boyermooreInit (pattern : List UInt8) : BoyermooreS where
  pattern := pattern
  len := pattern.length
  badMatch := (List.range (pattern.length - 1)).foldl (setBadMatch pattern)
    (fun _ => pattern.length)

/-- The inner loop of `boyermoore_search`: compare the rest of the pattern,
given backwards, with the text that ends at index `k`. -/
def matchBackward (haystack : List UInt8) : List UInt8 → Int → Checked Bool
  | [], _ => .ok true
  | c :: cs, k => do
      let b ← readAt haystack k
      if b = c then matchBackward haystack cs (k - 1) else .ok false

/-- The outer loop of `boyermoore_search`, for at most `fuel` windows. -/
def searchLoop (needle : BoyermooreS) (haystack : List UInt8) (length : Int) :
    Nat → Int → Checked (Option Nat)
  | 0, _ => .error .diverged
  | fuel + 1, i =>
      if i < length then do
        let found ← matchBackward haystack needle.pattern.reverse i
        if found then .ok (some (i - needle.len + 1).toNat)
        else do
          let b ← readAt haystack i
          searchLoop needle haystack length fuel (wrap32 (i + needle.badMatch b))
      else .ok none

/-- `boyermoore_search`: the index of the hit, or `none` for `NULL`.  The guard
compares `length` as a `size_t`, which a negative length passes. -/
def boyermooreSearch (needle : BoyermooreS) (haystack : List UInt8) (length : Int) :
    Checked (Option Nat) :=
  if 0 ≤ length ∧ length < needle.len then .ok none
  else searchLoop needle haystack length (length.toNat + 1) (needle.len - 1)

/-! ## The bad-match table is a safe shift -/

/-- What the table guarantees after the first `n` rounds of its loop. -/
structure BadMatchUpTo (pattern : List UInt8) (n : Nat) (table : UInt8 → Nat) : Prop where
  pos : ∀ c, 0 < table c
  le_length : ∀ c, table c ≤ pattern.length
  le_distance : ∀ c j, j < n → pattern[j]? = some c → table c ≤ pattern.length - 1 - j

/-- **The table** after some rounds of its loop, by induction on them. -/
theorem badMatchUpTo_loop {pattern : List UInt8} (hne : pattern ≠ []) {n : Nat}
    (hn : n ≤ pattern.length - 1) :
    BadMatchUpTo pattern n
      ((List.range n).foldl (setBadMatch pattern) (fun _ => pattern.length)) := by
  have hpos : 0 < pattern.length := List.length_pos_iff.mpr hne
  induction n with
  | zero => exact ⟨fun _ => hpos, fun _ => Nat.le_refl _, fun c j hj => by omega⟩
  | succ n ih =>
      have ih := ih (by omega)
      have hlt : n < pattern.length := by omega
      rw [List.range_succ, List.foldl_append]
      simp only [List.foldl_cons, List.foldl_nil, setBadMatch, List.getElem?_eq_getElem hlt]
      generalize (List.range n).foldl (setBadMatch pattern) (fun _ => pattern.length) = table at ih
      -- the round overwrites the entry of one letter and keeps all others
      have hupd : ∀ c, Function.update table pattern[n] (pattern.length - n - 1) c =
          if c = pattern[n] then pattern.length - n - 1 else table c := fun c => by
        rw [Function.update_apply]
      refine ⟨fun c => ?_, fun c => ?_, fun c j hj hc => ?_⟩
      · rw [hupd]
        have := ih.pos c
        split <;> omega
      · rw [hupd]
        have := ih.le_length c
        split <;> omega
      · rw [hupd]
        split
        · omega
        · next hcn =>
          have hjn : j ≠ n := by
            rintro rfl
            rw [List.getElem?_eq_getElem hlt, Option.some.injEq] at hc
            exact hcn hc.symm
          exact ih.le_distance c j (by omega) hc

/-- The table of `boyermoore_init` never skips an occurrence of its pattern. -/
theorem boyermooreInit_safeShift {pattern : List UInt8} (hne : pattern ≠ []) :
    SafeShift pattern (boyermooreInit pattern).badMatch := by
  have h := badMatchUpTo_loop hne (Nat.le_refl (pattern.length - 1))
  exact ⟨h.pos, h.le_length, fun c j hj hc => h.le_distance c j (by omega) hc⟩

/-! ## One window -/

/-- Comparing backwards from the end of a prefix of the haystack decides
whether that prefix ends in the pattern. -/
theorem matchBackward_eq {haystack rev : List UInt8} {n : Nat} (hlen : rev.length ≤ n)
    (hn : n ≤ haystack.length) :
    matchBackward haystack rev ((n : Int) - 1) =
      .ok (decide (rev.reverse <:+ haystack.take n)) := by
  induction rev generalizing n with
  | nil => simp [matchBackward]
  | cons c cs ih =>
      obtain ⟨k, rfl⟩ : ∃ k, n = k + 1 := ⟨n - 1, by simp at hlen; omega⟩
      have hk : k < haystack.length := by omega
      have htake : haystack.take (k + 1) = haystack.take k ++ [haystack[k]] :=
        List.take_succ_eq_append_getElem hk
      have hidx : ((k + 1 : Nat) : Int) - 1 = (k : Int) := by omega
      have hsuffix : (c :: cs).reverse <:+ haystack.take (k + 1) ↔
          haystack[k] = c ∧ cs.reverse <:+ haystack.take k := by
        rw [htake, List.reverse_cons, List.suffix_concat_iff]
        constructor
        · rintro (h | ⟨t, ht, hsuf⟩)
          · simp at h
          · obtain ⟨rfl, hc⟩ := List.append_inj' ht rfl
            exact ⟨by simpa using hc.symm, hsuf⟩
        · rintro ⟨rfl, hsuf⟩
          exact Or.inr ⟨_, rfl, hsuf⟩
      simp only [matchBackward, hidx, readAt_natCast hk, ok_bind, hsuffix]
      by_cases hc : haystack[k] = c
      · have hcs : cs.length ≤ k := by simpa using hlen
        simp [hc, ih hcs (by omega)]
      · simp [hc]

/-- A prefix of the text ends in the pattern when the pattern occurs there. -/
theorem suffix_take_iff_occursAt {pattern haystack : List UInt8} {s n : Nat}
    (hs : s + pattern.length ≤ n) (hn : n ≤ haystack.length) :
    pattern <:+ haystack.take (s + pattern.length) ↔ OccursAt pattern (haystack.take n) s := by
  rw [List.suffix_iff_eq_drop, OccursAt, List.prefix_iff_eq_take, List.drop_take, List.drop_take,
    List.take_take, List.length_take]
  have h1 : min (s + pattern.length) haystack.length - pattern.length = s := by omega
  have h2 : min pattern.length (n - s) = pattern.length := by omega
  rw [h1, h2, Nat.add_sub_cancel_left]

/-! ## The whole search -/

/-- From a window that no earlier occurrence precedes, the loop returns the
leftmost occurrence. -/
theorem searchLoop_eq {pattern haystack : List UInt8} {n : Nat} (hne : pattern ≠ [])
    (hn : n ≤ haystack.length) (hfit : n + pattern.length ≤ intMax) {fuel s : Nat}
    (hfuel : 0 < fuel) (hrounds : n < fuel + s)
    (hnone : ∀ t, t < s → ¬ OccursAt pattern (haystack.take n) t) :
    searchLoop (boyermooreInit pattern) haystack n fuel
        ((s + (pattern.length - 1) : Nat) : Int) =
      .ok (firstOccurrence pattern (haystack.take n)) := by
  have hpos : 0 < pattern.length := List.length_pos_iff.mpr hne
  have hsafe := boyermooreInit_safeShift hne
  -- past the end of the text there is no window left
  have hend : ∀ {s}, n ≤ s + (pattern.length - 1) →
      (∀ t, t < s → ¬ OccursAt pattern (haystack.take n) t) →
      firstOccurrence pattern (haystack.take n) = none := by
    intro s hns hnone
    rw [firstOccurrence_eq_none hne]
    intro t ht
    have hfits := ht.length_le hne
    rw [List.length_take] at hfits
    exact hnone t (by omega) ht
  induction fuel generalizing s with
  | zero => omega
  | succ fuel ih =>
      by_cases hlt : s + (pattern.length - 1) < n
      · have hi : s + (pattern.length - 1) < haystack.length := by omega
        have hwindow : ((s + (pattern.length - 1) : Nat) : Int) =
            ((s + pattern.length : Nat) : Int) - 1 := by omega
        have hmatch :
            matchBackward haystack pattern.reverse ((s + pattern.length : Nat) - 1 : Int) =
            .ok (decide (OccursAt pattern (haystack.take n) s)) := by
          rw [matchBackward_eq (by simp) (by omega), List.reverse_reverse]
          simp only [suffix_take_iff_occursAt (show s + pattern.length ≤ n by omega) hn]
        have hguard : ((s + (pattern.length - 1) : Nat) : Int) < (n : Int) := by omega
        simp only [searchLoop, hguard, if_true]
        rw [show (boyermooreInit pattern).pattern = pattern from rfl,
          show (boyermooreInit pattern).len = pattern.length from rfl]
        rw [hwindow, hmatch, ← hwindow, ok_bind]
        by_cases hocc : OccursAt pattern (haystack.take n) s
        · have hidx :
              (((s + (pattern.length - 1) : Nat) : Int) - pattern.length + 1).toNat = s := by
            omega
          simp only [hocc, decide_true, if_true, hidx,
            (firstOccurrence_eq_some hne).mpr ⟨hocc, hnone⟩]
        · have hc : (haystack.take n)[s + (pattern.length - 1)]? =
              some haystack[s + (pattern.length - 1)] := by
            rw [List.getElem?_take_of_lt hlt, List.getElem?_eq_getElem hi]
          have hshift := hsafe.pos haystack[s + (pattern.length - 1)]
          have hle := hsafe.le_length haystack[s + (pattern.length - 1)]
          have hnone' : ∀ t,
              t < s + (boyermooreInit pattern).badMatch haystack[s + (pattern.length - 1)] →
              ¬ OccursAt pattern (haystack.take n) t := by
            intro t ht hoct
            rcases Nat.lt_trichotomy t s with h | rfl | h
            · exact hnone t h hoct
            · exact hocc hoct
            · have := hsafe.le_of_occursAt hc h hoct
              omega
          have hnext : wrap32 (((s + (pattern.length - 1) : Nat) : Int) +
              ((boyermooreInit pattern).badMatch haystack[s + (pattern.length - 1)] : Nat)) =
              ((s + (boyermooreInit pattern).badMatch haystack[s + (pattern.length - 1)] +
                (pattern.length - 1) : Nat) : Int) := by
            unfold intMax at hfit
            rw [wrap32_of_range] <;> omega
          simp only [hocc, decide_false, Bool.false_eq_true, if_false, readAt_natCast hi, ok_bind,
            hnext]
          exact ih (by omega) (by omega) hnone'
      · have hguard : ¬ ((s + (pattern.length - 1) : Nat) : Int) < (n : Int) := by omega
        simp only [searchLoop, hguard, if_false, hend (Nat.le_of_not_lt hlt) hnone]

/-- **The search is exact.**  On `n` readable bytes it returns the leftmost
occurrence of the pattern and reads nothing else. -/
theorem boyermooreSearch_eq {pattern haystack : List UInt8} {n : Nat} (hne : pattern ≠ [])
    (hn : n ≤ haystack.length) (hfit : n + pattern.length ≤ intMax) :
    boyermooreSearch (boyermooreInit pattern) haystack n =
      .ok (firstOccurrence pattern (haystack.take n)) := by
  have hpos : 0 < pattern.length := List.length_pos_iff.mpr hne
  unfold boyermooreSearch
  rw [show (boyermooreInit pattern).len = pattern.length from rfl]
  split
  · next hshort =>
    congr 1
    symm
    rw [firstOccurrence_eq_none hne]
    intro i hi
    have hfits := hi.length_le hne
    rw [List.length_take] at hfits
    omega
  · have hstart : (pattern.length : Int) - 1 = ((0 + (pattern.length - 1) : Nat) : Int) := by omega
    rw [hstart, Int.toNat_natCast]
    exact searchLoop_eq hne hn hfit (by omega) (by omega) (fun t ht => by omega)

/-- **Search correctness.**  The search returns after reading bytes of the haystack
only, with the position of the leftmost occurrence, and with `NULL` when there is
none. -/
theorem boyermooreSearch_leftmost {pattern haystack : List UInt8} (hne : pattern ≠ [])
    (hfit : haystack.length + pattern.length ≤ intMax) :
    ∃ hit, boyermooreSearch (boyermooreInit pattern) haystack haystack.length = .ok hit ∧
      (∀ i, hit = some i ↔
        OccursAt pattern haystack i ∧ ∀ j, j < i → ¬ OccursAt pattern haystack j) ∧
      (hit = none ↔ ∀ i, ¬ OccursAt pattern haystack i) := by
  have hrun := boyermooreSearch_eq hne (Nat.le_refl haystack.length) hfit
  rw [List.take_length] at hrun
  refine ⟨_, hrun, ?_, ?_⟩
  · intro i
    exact firstOccurrence_eq_some hne
  · exact firstOccurrence_eq_none hne

/-- Two overlapping occurrences. -/
theorem boyermooreSearch_leftmost_overlap :
    ∃ hit, boyermooreSearch (boyermooreInit (ascii "aba")) (ascii "xababa") 6 = .ok hit ∧
      (∀ i, hit = some i ↔ OccursAt (ascii "aba") (ascii "xababa") i ∧
        ∀ j, j < i → ¬ OccursAt (ascii "aba") (ascii "xababa") j) ∧
      (hit = none ↔ ∀ i, ¬ OccursAt (ascii "aba") (ascii "xababa") i) :=
  @boyermooreSearch_leftmost (ascii "aba") (ascii "xababa") (by decide) (by decide)

/-! ## A search behind the end of the haystack -/

/-- What a comparison that returns has found out, whatever length was claimed for
the haystack. -/
theorem matchBackward_ok {pattern haystack : List UInt8} {s : Nat} {found : Bool}
    (hne : pattern ≠ [])
    (h : matchBackward haystack pattern.reverse ((s + (pattern.length - 1) : Nat) : Int) =
      .ok found) :
    s + pattern.length ≤ haystack.length ∧ found = decide (OccursAt pattern haystack s) := by
  have hpos : 0 < pattern.length := List.length_pos_iff.mpr hne
  -- the letter under the end of the window was read
  have hread : s + (pattern.length - 1) < haystack.length := by
    cases hrev : pattern.reverse with
    | nil => exact absurd (List.reverse_eq_nil_iff.mp hrev) hne
    | cons c cs =>
        rw [hrev] at h
        obtain ⟨b, hb, -⟩ := bind_eq_ok.mp h
        have := readAt_isOk_iff.mp ⟨b, hb⟩
        omega
  have hwindow : ((s + (pattern.length - 1) : Nat) : Int) =
      ((s + pattern.length : Nat) : Int) - 1 := by
    omega
  have hiff := @suffix_take_iff_occursAt pattern haystack s haystack.length (by omega)
    (Nat.le_refl _)
  rw [List.take_length] at hiff
  rw [hwindow, matchBackward_eq (by simp) (by omega), List.reverse_reverse, Except.ok.injEq] at h
  refine ⟨by omega, ?_⟩
  rw [← h]
  exact decide_eq_decide.mpr hiff

/-- The search from any position on, by induction on its fuel. -/
theorem searchLoop_ok {pattern haystack : List UInt8} {length : Nat} (hne : pattern ≠ [])
    (hlength : haystack.length ≤ length) (hfit : length + pattern.length ≤ intMax) {fuel s : Nat}
    {hit : Option Nat} (hnone : ∀ t, t < s → ¬ OccursAt pattern haystack t)
    (h : searchLoop (boyermooreInit pattern) haystack length fuel
      ((s + (pattern.length - 1) : Nat) : Int) = .ok hit) :
    hit = firstOccurrence pattern haystack := by
  have hpos : 0 < pattern.length := List.length_pos_iff.mpr hne
  induction fuel generalizing s with
  | zero => cases h
  | succ fuel ih =>
      rw [searchLoop] at h
      split at h
      · obtain ⟨found, hfound, h⟩ := bind_eq_ok.mp h
        obtain ⟨hin, rfl⟩ := matchBackward_ok hne hfound
        by_cases hocc : OccursAt pattern haystack s
        · simp only [hocc, decide_true, if_true, Except.ok.injEq] at h
          have hk : (((s + (pattern.length - 1) : Nat) : Int) -
              (boyermooreInit pattern).len + 1).toNat = s := by
            rw [show (boyermooreInit pattern).len = pattern.length from rfl]
            omega
          rw [hk] at h
          rw [← h, (firstOccurrence_eq_some hne).mpr ⟨hocc, hnone⟩]
        · simp only [hocc, decide_false, Bool.false_eq_true, if_false] at h
          have hi : s + (pattern.length - 1) < haystack.length := by omega
          rw [readAt_natCast hi, ok_bind] at h
          have hsafe := boyermooreInit_safeShift hne
          have hle := hsafe.le_length haystack[s + (pattern.length - 1)]
          have hnext : wrap32 (((s + (pattern.length - 1) : Nat) : Int) +
              ((boyermooreInit pattern).badMatch haystack[s + (pattern.length - 1)] : Nat)) =
              ((s + (boyermooreInit pattern).badMatch haystack[s + (pattern.length - 1)] +
                (pattern.length - 1) : Nat) : Int) := by
            unfold intMax at hfit
            rw [wrap32_of_range] <;> omega
          rw [hnext] at h
          refine ih (fun t ht hoct => ?_) h
          rcases Nat.lt_trichotomy t s with hlt | rfl | hgt
          · exact hnone t hlt hoct
          · exact hocc hoct
          · have := hsafe.le_of_occursAt (List.getElem?_eq_getElem hi) hgt hoct
            omega
      · next hguard =>
        rw [← Except.ok.inj h]
        symm
        rw [firstOccurrence_eq_none hne]
        intro t hoct
        have hfits := hoct.length_le hne
        exact hnone t (by omega) hoct

/-- A search that returns has found the leftmost occurrence, also when the claimed
length leads behind the end of the haystack. -/
theorem boyermooreSearch_ok {pattern haystack : List UInt8} {length : Nat} {hit : Option Nat}
    (hne : pattern ≠ []) (hlength : haystack.length ≤ length)
    (hfit : length + pattern.length ≤ intMax)
    (h : boyermooreSearch (boyermooreInit pattern) haystack length = .ok hit) :
    hit = firstOccurrence pattern haystack := by
  have hpos : 0 < pattern.length := List.length_pos_iff.mpr hne
  unfold boyermooreSearch at h
  rw [show (boyermooreInit pattern).len = pattern.length from rfl] at h
  split at h
  · next hshort =>
    rw [← Except.ok.inj h]
    symm
    rw [firstOccurrence_eq_none hne]
    intro t hoct
    have hfits := hoct.length_le hne
    omega
  · have hstart : (pattern.length : Int) - 1 = ((0 + (pattern.length - 1) : Nat) : Int) := by omega
    rw [hstart] at h
    exact searchLoop_ok hne hlength hfit (fun t ht => by omega) h

end Vmars
