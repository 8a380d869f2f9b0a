import Vmars.MainOptions

/-!
# The capture threads (`main.c`)

`main` starts `num_threads` capture threads for each interface.  The usage says how the
affinity list is dealt out: the first `num_threads` entries to the first interface, the
next ones to the second, and so on.

* `splitString_intercalate` — the lists of the command line are read as they are written;
* `startThreads_getElem?` — what the two nested loops leave in `thread_contexts`;
* `layoutFollowed_iff` — when that is the layout of the usage.
-/

namespace Vmars

open CMemory

/-! ## Reading the lists -/

/-- `split_string`: the tokens that `strtok` finds between commas, which are not empty. -/
def splitString (s : List UInt8) : List (List UInt8) :=
  (s.splitOn 44).filter fun token => token ≠ []

/-- A list of names is read as it is written. -/
theorem splitString_intercalate {names : List (List UInt8)} (hne : names ≠ [])
    (hnames : ∀ name ∈ names, name ≠ [] ∧ 44 ∉ name) :
    splitString ([44].intercalate names) = names := by
  rw [splitString, List.splitOn_intercalate 44 (fun name hname => (hnames name hname).2) hne,
    List.filter_eq_self]
  intro name hname
  simpa using (hnames name hname).1

/-- The digits that `strtol` finds in `rest` with a sign in front; without any the
conversion ends where it started. -/
def strtolDigits (s rest : List UInt8) (sign : Int) : Int × List UInt8 :=
  if rest.takeWhile isDigit = [] then (0, s)
  else (clampLong (sign * decimal (rest.takeWhile isDigit)), rest.dropWhile isDigit)

/-- `strtol` in base 10: the number, and where the conversion ends. -/
def strtol (s : List UInt8) : Int × List UInt8 :=
  match s.dropWhile isSpace with
  | 45 :: rest => strtolDigits s rest (-1)
  | 43 :: rest => strtolDigits s rest 1
  | rest => strtolDigits s rest 1

/-- `strtol` clamps the number that its digits write. -/
theorem strtolDigits_fst (s rest : List UInt8) (sign : Int) :
    (strtolDigits s rest sign).1 = clampLong (sign * decimal (rest.takeWhile isDigit)) := by
  unfold strtolDigits
  split
  next hnone =>
    rw [hnone, decimal, decimalFrom_nil, Int.ofNat_zero, Int.mul_zero]
    rfl
  next => rfl

/-- `atoi` is `strtol` without the end. -/
theorem atoi_eq_strtol (s : List UInt8) : atoi s = wrap32 (strtol s).1 := by
  unfold atoi strtol
  generalize s.dropWhile isSpace = text
  split
  · simp only [strtolDigits_fst, Int.neg_one_mul]
  · simp only [strtolDigits_fst, Int.one_mul]
  · simp only [strtolDigits_fst, Int.one_mul]

/-- `parse_cpu_id`: −1 unless the whole entry is a number. -/
def parseCpuId (s : List UInt8) : Int :=
  let (cpuId, endptr) := strtol s
  if endptr ≠ [] then -1 else wrap32 cpuId

example : parseCpuId (ascii "12") = 12 ∧ parseCpuId (ascii "2x") = -1 ∧
    parseCpuId (ascii "x") = -1 := by
  decide

/-! ## Starting the threads -/

/-- The fields of `vmars_capture_context_t` that `main` sets; `calloc` leaves zeros. -/
structure ThreadContext where
  threadNum : Int := 0
  fanoutId : Int := 0
  interface : Option (List UInt8) := none
  port : Int := 0
  cpuNum : Int := 0
  deriving DecidableEq, Repr

section Threads

variable (interfaces affinity : List (List UInt8)) (numThreads : Nat) (capturePort : Int)

/-- The entry of the affinity list that thread `i` of an interface uses. -/
def usedEntry (i : Nat) : Option Nat := if i < affinity.length then some i else none

/-- The CPU of thread `i` of an interface. -/
def threadCpu (i : Nat) : Int :=
  match usedEntry affinity i with
  | some entry => parseCpuId (affinity.getD entry [])
  | none => -1

/-- What the inner loop writes for thread `i` of interface `j`. -/
def threadContext (j i : Nat) : ThreadContext where
  threadNum := (j * numThreads + i : Nat)
  fanoutId := 1111 * ((j : Int) + 1)
  interface := interfaces[j]?
  port := capturePort
  cpuNum := threadCpu affinity i

/-- The inner loop, for interface `j`. -/
def interfaceLoop (contexts : List ThreadContext) (j : Nat) : List ThreadContext :=
  (List.range numThreads).foldl (fun contexts i =>
    contexts.set (j * numThreads + i)
      (threadContext interfaces affinity numThreads capturePort j i))
    contexts

/-- `thread_contexts` behind the two loops. -/
def startThreads : List ThreadContext :=
  (List.range interfaces.length).foldl (interfaceLoop interfaces affinity numThreads capturePort)
    (List.replicate (interfaces.length * numThreads) {})

/-- The threads of `main` for a configuration. -/
def mainThreads (config : VmarsConfig) : List ThreadContext :=
  startThreads (splitString (config.interfaces.getD [])) (splitString (config.affinity.getD []))
    config.numThreads.toNat config.capturePort

end Threads

/-- Writing `n` cells in a row from `base` on. -/
theorem getElem?_foldl_set {α : Type} (xs : List α) (base : Nat) (f : Nat → α) (n : Nat)
    (hfits : base + n ≤ xs.length) (k : Nat) :
    ((List.range n).foldl (fun xs i => xs.set (base + i) (f i)) xs)[k]? =
        (if base ≤ k ∧ k < base + n then some (f (k - base)) else xs[k]?) ∧
      ((List.range n).foldl (fun xs i => xs.set (base + i) (f i)) xs).length = xs.length := by
  induction n with
  | zero => simp
  | succ n ih =>
      obtain ⟨hget, hlength⟩ := ih (by omega)
      rw [List.range_succ, List.foldl_append, List.foldl_cons, List.foldl_nil, List.length_set]
      refine ⟨?_, hlength⟩
      rw [List.getElem?_set, hget, hlength]
      by_cases hk : base + n = k
      · subst hk
        rw [if_pos rfl, if_pos (by omega), if_pos (by omega), Nat.add_sub_cancel_left]
      · rw [if_neg hk]
        by_cases hin : base ≤ k ∧ k < base + n
        · rw [if_pos hin, if_pos (by omega)]
        · rw [if_neg hin, if_neg (by omega)]

section Layout

variable {interfaces affinity : List (List UInt8)} {numThreads : Nat} {capturePort : Int}

/-- What the two loops have written after `m` interfaces. -/
theorem foldl_interfaceLoop {m : Nat} (hm : m ≤ interfaces.length) :
    ((List.range m).foldl (interfaceLoop interfaces affinity numThreads capturePort)
        (List.replicate (interfaces.length * numThreads) {})).length =
        interfaces.length * numThreads ∧
      ∀ j < m, ∀ i < numThreads,
        ((List.range m).foldl (interfaceLoop interfaces affinity numThreads capturePort)
          (List.replicate (interfaces.length * numThreads) {}))[j * numThreads + i]? =
          some (threadContext interfaces affinity numThreads capturePort j i) := by
  induction m with
  | zero => exact ⟨by simp, fun j hj => absurd hj (Nat.not_lt_zero j)⟩
  | succ m ih =>
      obtain ⟨hlength, hget⟩ := ih (by omega)
      rw [List.range_succ, List.foldl_append, List.foldl_cons, List.foldl_nil]
      generalize (List.range m).foldl (interfaceLoop interfaces affinity numThreads capturePort)
        (List.replicate (interfaces.length * numThreads) {}) = contexts at hlength hget ⊢
      have hfits : m * numThreads + numThreads ≤ contexts.length := by
        rw [hlength, ← Nat.succ_mul]
        exact Nat.mul_le_mul_right _ hm
      have hwrite := getElem?_foldl_set contexts (m * numThreads)
        (threadContext interfaces affinity numThreads capturePort m) numThreads hfits
      refine ⟨(hwrite 0).2.trans hlength, ?_⟩
      intro j hj i hi
      rw [interfaceLoop, (hwrite _).1]
      by_cases hlast : j = m
      · subst hlast
        rw [if_pos (by omega), Nat.add_sub_cancel_left]
      · have hbefore : j * numThreads + i < m * numThreads := by
          have hle : (j + 1) * numThreads ≤ m * numThreads := Nat.mul_le_mul_right _ (by omega)
          rw [Nat.succ_mul] at hle
          omega
        rw [if_neg (by omega), hget j (by omega) i hi]

/-- **What the loops leave**: every thread of every interface finds its own context. -/
theorem startThreads_getElem? {j i : Nat} (hj : j < interfaces.length) (hi : i < numThreads) :
    (startThreads interfaces affinity numThreads capturePort)[j * numThreads + i]? =
      some (threadContext interfaces affinity numThreads capturePort j i) :=
  (foldl_interfaceLoop (Nat.le_refl _)).2 j hj i hi

/-- A configuration that passes the checks gives every interface a thread. -/
theorem mainThreads_of_checked {config config' : VmarsConfig}
    (h : checkConfig config = .ok config') {j : Nat}
    (hj : j < (splitString (config'.interfaces.getD [])).length) :
    ∃ ctx ∈ mainThreads config', ctx.interface = (splitString (config'.interfaces.getD []))[j]? ∧
      ctx.port = config'.capturePort := by
  obtain ⟨rfl, hthreads, -⟩ := checkConfig_ok h
  have hget := @startThreads_getElem? _ (splitString (config'.affinity.getD []))
    config'.numThreads.toNat config'.capturePort j 0 hj (by omega)
  exact ⟨_, List.mem_of_getElem? hget, rfl, rfl⟩

/-! ## The layout of the usage -/

/-- The CPU that an index of the affinity list stands for. -/
def entryCpu (affinity : List (List UInt8)) (index : Nat) : Int :=
  match affinity[index]? with
  | some entry => parseCpuId entry
  | none => -1

/-- **The documented layout**: thread `i` of interface `j` runs on the CPU of entry
`j * num_threads + i`, and no entry is used by two threads. -/
structure LayoutFollowed (interfaces affinity : List (List UInt8)) (numThreads : Nat)
    (capturePort : Int) : Prop where
  cpu : ∀ j < interfaces.length, ∀ i < numThreads, ∃ ctx,
    (startThreads interfaces affinity numThreads capturePort)[j * numThreads + i]? = some ctx ∧
      ctx.interface = interfaces[j]? ∧ ctx.cpuNum = entryCpu affinity (j * numThreads + i)
  distinct : ∀ j < interfaces.length, ∀ i < numThreads, ∀ j' < interfaces.length,
    ∀ i' < numThreads, ∀ entry, usedEntry affinity i = some entry →
      usedEntry affinity i' = some entry → j = j' ∧ i = i'

/-- The CPU of a thread is the one of the entry with its number in the interface. -/
theorem threadCpu_eq (affinity : List (List UInt8)) (i : Nat) :
    threadCpu affinity i = entryCpu affinity i := by
  unfold threadCpu usedEntry entryCpu
  by_cases hi : i < affinity.length
  · rw [if_pos hi, List.getElem?_eq_getElem hi]
    simp only [List.getD_eq_getElem?_getD, List.getElem?_eq_getElem hi, Option.getD_some]
  · rw [if_neg hi, List.getElem?_eq_none (by omega)]

/-- **The layout is followed exactly for a single interface** and for an empty affinity
list: every interface starts again with the first entry. -/
theorem layoutFollowed_iff (hthreads : 0 < numThreads) :
    LayoutFollowed interfaces affinity numThreads capturePort ↔
      interfaces.length ≤ 1 ∨ affinity = [] := by
  constructor
  · intro h
    by_contra hno
    rw [not_or] at hno
    have hentry : usedEntry affinity 0 = some 0 :=
      if_pos (List.length_pos_iff.mpr hno.2)
    have hsame := h.distinct 0 (by omega) 0 hthreads 1 (by omega) 0 hthreads 0 hentry hentry
    exact absurd hsame.1 (by decide)
  · intro h
    have hcpu : ∀ j < interfaces.length, ∀ i,
        entryCpu affinity (j * numThreads + i) = threadCpu affinity i := by
      intro j hj i
      rw [threadCpu_eq]
      rcases h with hone | rfl
      · obtain rfl : j = 0 := by omega
        rw [Nat.zero_mul, Nat.zero_add]
      · rfl
    refine { cpu := ?_, distinct := ?_ }
    · intro j hj i hi
      exact ⟨_, startThreads_getElem? hj hi, rfl, (hcpu j hj i).symm⟩
    · intro j hj i hi j' hj' i' hi' entry hentry hentry'
      unfold usedEntry at hentry hentry'
      rcases h with hone | rfl
      · split at hentry
        · split at hentry'
          · have hi := Option.some.inj hentry
            have hi' := Option.some.inj hentry'
            exact ⟨by omega, by omega⟩
          · cases hentry'
        · cases hentry
      · cases hentry

end Layout

/-- One interface with two threads, and three CPUs to choose from. -/
theorem layoutFollowed_iff_oneInterface :
    LayoutFollowed [ascii "eth0"] [ascii "0", ascii "2", ascii "4"] 2 9880 ↔
      [ascii "eth0"].length ≤ 1 ∨ [ascii "0", ascii "2", ascii "4"] = [] :=
  layoutFollowed_iff (by decide)

/-- The lists of the usage: the thread of the second interface gets CPU 0, not 2. -/
theorem not_layoutFollowed_usage :
    ¬ LayoutFollowed (splitString (ascii "eth0,eth1")) (splitString (ascii "0,2")) 1 9880 := by
  intro h
  obtain ⟨ctx, hget, -, hcpu⟩ := h.cpu 1 (by decide) 0 (by decide)
  have hcontext : (startThreads (splitString (ascii "eth0,eth1")) (splitString (ascii "0,2")) 1
      9880)[1 * 1 + 0]?.map ThreadContext.cpuNum = some 0 := by decide
  rw [hget, Option.map_some, hcpu] at hcontext
  revert hcontext
  decide

end Vmars
