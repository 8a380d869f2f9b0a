import Vmars.FixFraming

/-!
# A call as a list of rounds

The loop of `vmarsExtractFixMessages` on any packet, read off its runs.  Every
round hands the parser the bytes from one marker to the next, and the outcome
decides what is accepted, what is stored and what is counted.  `Rounds` is the
list of the rounds of a loop with these effects; it speaks about bytes only, so
later facts about a call are facts about lists.

* `searchNext_ok` — a search that returns has found the next marker;
* `extractRound_rounds` / `extractLoop_rounds` — a loop that returns is a list of
  rounds;
* `finishPacket_rounds` — with the bytes left over, the rest of a call;
* `leadingFragment_outcome` — what the bytes before the first marker do.
-/

namespace Vmars

open CMemory Occurrence

/-! ## What a call changes -/

section Observe

variable {R : Type}

/-- The bytes of the fragment of a stream. -/
def fragmentBytes (ctx : CaptureContext R) (streamId : Ipv4Stream) : Option (List UInt8) :=
  (getFragment ctx streamId).map Fragment.s

/-- The bytes of a stored fragment. -/
theorem fragmentBytes_of_fragment {ctx : CaptureContext R} {streamId : Ipv4Stream} {s : List UInt8}
    (h : ∃ fragment, getFragment ctx streamId = some fragment ∧ fragment.s = s) :
    fragmentBytes ctx streamId = some s := by
  obtain ⟨fragment, hget, hs⟩ := h
  rw [fragmentBytes, hget, Option.map_some, hs]

/-- They depend on the fragment of the stream only. -/
theorem fragmentBytes_congr {ctx ctx' : CaptureContext R} {streamId : Ipv4Stream}
    (h : getFragment ctx' streamId = getFragment ctx streamId) :
    fragmentBytes ctx' streamId = fragmentBytes ctx streamId := by
  rw [fragmentBytes, h, fragmentBytes]

/-- The sum of the three error counters. -/
def Counters.errors (counters : Counters) : Int :=
  counters.invalidChecksums + counters.parsingErrors + counters.corruptMessages

/-- A failed parse counts one error. -/
theorem countResult_errors {counters : Counters} {result : FixResult} (hok : result ≠ .ok)
    (hshort : result ≠ .messageTooShort) :
    (countResult counters result).errors = counters.errors + 1 := by
  unfold Counters.errors
  cases result with
  | ok => exact (hok rfl).elim
  | messageTooShort => exact (hshort rfl).elim
  | _ => simp only [countResult]; omega

/-- A removed fragment takes nothing else with it. -/
theorem removeFragment_frame (ctx : CaptureContext R) (streamId : Ipv4Stream) :
    (removeFragment ctx streamId).accepted = ctx.accepted ∧
      (removeFragment ctx streamId).counters = ctx.counters ∧
      fragmentBytes (removeFragment ctx streamId) streamId = none := by
  have hnone := getFragment_remove ctx streamId streamId
  rw [if_pos rfl] at hnone
  refine ⟨?_, ?_, congrArg (Option.map Fragment.s) hnone⟩ <;> unfold removeFragment <;> split <;> rfl

/-- What the end of the call changes. -/
theorem storeLeftover_ok {packet : Packet} {ctx ctx' : CaptureContext R} {left : Nat}
    (hle : left ≤ packet.data.length) (h : storeLeftover packet ctx left = .ok ctx') :
    ctx'.accepted = ctx.accepted ∧ ctx'.counters = ctx.counters ∧
      fragmentBytes ctx' packet.streamId =
        if left = 0 then fragmentBytes ctx packet.streamId
        else some (ncopy (packet.data.drop (packet.data.length - left))) := by
  unfold storeLeftover at h
  split at h
  · next hpos =>
    have hwhere : (packet.data.length : Int) - (left : Nat) =
        (packet.data.length - left : Nat) := by
      omega
    rw [hwhere, pointerAt_natCast (by omega), ok_bind] at h
    obtain ⟨copy, hcopy, hfragment, -, -, hcounters, haccepted⟩ := putFragment_ok h
    rw [Int.toNat_natCast, strncpy_take (by rw [List.length_drop]; omega), Except.ok.injEq,
      List.take_of_length_le (by rw [List.length_drop]; omega)] at hcopy
    subst hcopy
    rw [if_neg (by omega)]
    exact ⟨haccepted, hcounters, fragmentBytes_of_fragment hfragment⟩
  · next hzero =>
    cases h
    rw [if_pos (by omega)]
    exact ⟨rfl, rfl, rfl⟩

end Observe

/-! ## The parser's answer -/

/-- The parser accepts `n` of the `len` bytes. -/
def Accepts (buf : List UInt8) (len n : Nat) : Prop :=
  ∃ run, vmarsFixParseMsg buf len 0 = .ok run ∧ run.ret = { result := .ok, bytesConsumed := n }

/-- The parser finds the `len` bytes too short. -/
def TooShort (buf : List UInt8) (len : Nat) : Prop :=
  ∃ run, vmarsFixParseMsg buf len 0 = .ok run ∧ run.ret.result = .messageTooShort

/-- The parser rejects the message and consumes `n` of the `len` bytes. -/
def Fails (buf : List UInt8) (len n : Nat) : Prop :=
  ∃ run, vmarsFixParseMsg buf len 0 = .ok run ∧ run.ret.result ≠ .ok ∧
    run.ret.result ≠ .messageTooShort ∧ run.ret.bytesConsumed = n

/-- The parser consumes `n` of the `len` bytes, whatever the result. -/
def Consumed (buf : List UInt8) (len n : Nat) : Prop :=
  ∃ run, vmarsFixParseMsg buf len 0 = .ok run ∧ run.ret.bytesConsumed = n

section Parser

variable {buf : List UInt8} {len m n : Nat}

/-- The parser consumes one number of bytes. -/
theorem Consumed.unique (hm : Consumed buf len m) (hn : Consumed buf len n) : m = n := by
  obtain ⟨run, hrun, hm⟩ := hm
  obtain ⟨run', hrun', hn⟩ := hn
  rw [hrun] at hrun'
  obtain rfl := Except.ok.inj hrun'
  omega

/-- It consumes no more bytes than it is given. -/
theorem Consumed.le (h : Consumed buf len n) : n ≤ len := by
  obtain ⟨run, hrun, hn⟩ := h
  have := (vmarsFixParseMsg_consumes hrun).le_len
  omega

theorem Accepts.consumed (h : Accepts buf len n) : Consumed buf len n := by
  obtain ⟨run, hrun, hret⟩ := h
  exact ⟨run, hrun, by rw [hret]⟩

theorem TooShort.consumed (h : TooShort buf len) : Consumed buf len len := by
  obtain ⟨run, hrun, hshort⟩ := h
  exact ⟨run, hrun, (vmarsFixParseMsg_consumes hrun).all_of_tooShort hshort⟩

theorem Fails.consumed (h : Fails buf len n) : Consumed buf len n := by
  obtain ⟨run, hrun, -, -, hn⟩ := h
  exact ⟨run, hrun, hn⟩

/-- An accepted message has at least its headers, and no bytes behind the given ones. -/
theorem Accepts.le (h : Accepts buf len n) : 12 < n ∧ n ≤ len := by
  obtain ⟨run, hrun, hret⟩ := h
  have hconsumes := vmarsFixParseMsg_consumes hrun
  have hlo := hconsumes.lt_of_ok (by rw [hret])
  have hhi := hconsumes.le_len
  rw [hret] at hlo hhi
  unfold initialHeaderLen at hlo
  simp only at hlo hhi
  exact ⟨by omega, by omega⟩

theorem Fails.le (h : Fails buf len n) : n ≤ len := by
  obtain ⟨run, hrun, -, -, hn⟩ := h
  have := (vmarsFixParseMsg_consumes hrun).le_len
  omega

/-- A message is accepted with one length. -/
theorem Accepts.unique (hm : Accepts buf len m) (hn : Accepts buf len n) : m = n := by
  obtain ⟨run, hrun, hret⟩ := hm
  obtain ⟨run', hrun', hret'⟩ := hn
  rw [hrun] at hrun'
  obtain rfl := Except.ok.inj hrun'
  rw [hret] at hret'
  simp only [VmarsFixParseResult.mk.injEq, true_and] at hret'
  omega

/-- A message fails with one number of consumed bytes. -/
theorem Fails.unique (hm : Fails buf len m) (hn : Fails buf len n) : m = n := by
  obtain ⟨run, hrun, -, -, hm⟩ := hm
  obtain ⟨run', hrun', -, -, hn⟩ := hn
  rw [hrun] at hrun'
  obtain rfl := Except.ok.inj hrun'
  omega

/-- The three results of the parser exclude each other. -/
theorem Accepts.not_tooShort (h : Accepts buf len n) : ¬ TooShort buf len := by
  rintro ⟨run', hrun', hshort⟩
  obtain ⟨run, hrun, hret⟩ := h
  rw [hrun] at hrun'
  obtain rfl := Except.ok.inj hrun'
  rw [hret] at hshort
  cases hshort

/-- An accepted message does not fail. -/
theorem Accepts.not_fails (h : Accepts buf len n) : ¬ Fails buf len m := by
  rintro ⟨run', hrun', hne, -⟩
  obtain ⟨run, hrun, hret⟩ := h
  rw [hrun] at hrun'
  obtain rfl := Except.ok.inj hrun'
  exact hne (by rw [hret])

/-- Nor does one that is too short. -/
theorem TooShort.not_fails (h : TooShort buf len) : ¬ Fails buf len m := by
  rintro ⟨run', hrun', -, hne, -⟩
  obtain ⟨run, hrun, hshort⟩ := h
  rw [hrun] at hrun'
  obtain rfl := Except.ok.inj hrun'
  exact hne hshort

/-- A run of the parser that returns is one of the three. -/
theorem parse_cases {run : ParseRun} (h : vmarsFixParseMsg buf len 0 = .ok run) :
    ∃ n : Nat, run.ret.bytesConsumed = n ∧ n ≤ len ∧
      (run.ret.result = .ok ∧ Accepts buf len n ∨
        run.ret.result = .messageTooShort ∧ n = len ∧ TooShort buf len ∨
        run.ret.result ≠ .ok ∧ run.ret.result ≠ .messageTooShort ∧ Fails buf len n) := by
  have hconsumes := vmarsFixParseMsg_consumes h
  obtain ⟨n, hn⟩ := Int.eq_ofNat_of_zero_le hconsumes.nonneg
  have hle := hconsumes.le_len
  refine ⟨n, hn, by omega, ?_⟩
  by_cases hok : run.ret.result = .ok
  · refine .inl ⟨hok, run, h, ?_⟩
    cases hret : run.ret
    rw [hret] at hok hn
    simp only at hok hn
    rw [hok, hn]
  by_cases hshort : run.ret.result = .messageTooShort
  · have := hconsumes.all_of_tooShort hshort
    exact .inr (.inl ⟨hshort, by omega, run, h, hshort⟩)
  · exact .inr (.inr ⟨hok, hshort, run, h, hok, hshort, hn⟩)

/-- The parser returns exactly when BodyLength is in range. -/
theorem parse_isOk_iff (hlen : len ≤ buf.length) :
    (∃ run, vmarsFixParseMsg buf len 0 = .ok run) ↔ BodyLengthInRange (buf.take len) := by
  constructor
  · rintro ⟨run, hrun⟩
    refine Classical.byContradiction fun hrange => ?_
    obtain ⟨fault, hfault⟩ := @vmarsFixParseMsg_of_not_inRange _ _ 0 hlen hrange
    rw [hfault] at hrun
    cases hrun
  · intro hrange
    obtain ⟨run, hrun, -⟩ := @vmarsFixParseMsg_isOk _ _ 0 hlen hrange
    exact ⟨run, hrun⟩

/-- The calls of a run that returns can be collected. -/
theorem collect_of_parse {run : ParseRun} (hlen : len ≤ buf.length)
    (hrun : vmarsFixParseMsg buf len 0 = .ok run) :
    ∃ details, collect buf run.calls {} = .ok details := by
  obtain ⟨run', hrun', hcalls, -⟩ :=
    @vmarsFixParseMsg_isOk _ _ 0 hlen ((parse_isOk_iff hlen).mp ⟨run, hrun⟩)
  rw [hrun] at hrun'
  obtain rfl := Except.ok.inj hrun'
  exact collect_isOk fun c hc => (hcalls c hc).mono hlen

end Parser

/-! ## Rounds -/

/-- `strncpy` copies the bytes as they are: behind a NUL there are only NULs. -/
def CopiesExactly (bytes : List UInt8) : Prop := ncopy bytes = bytes

instance (bytes : List UInt8) : Decidable (CopiesExactly bytes) :=
  inferInstanceAs (Decidable (_ = _))

/-- The next marker behind the one at the start of the bytes. -/
def nextMarker (bytes : List UInt8) : Option Nat :=
  (firstOccurrence marker (bytes.drop 8)).map (8 + ·)

/-- The next marker is the first one behind the marker at the front. -/
theorem nextMarker_spec {bytes : List UInt8} {k : Nat} (h : nextMarker bytes = some k) :
    8 ≤ k ∧ OccursAt marker bytes k ∧ ∀ i, 8 ≤ i → i < k → ¬ OccursAt marker bytes i := by
  obtain ⟨j, hj, rfl⟩ := Option.map_eq_some_iff.mp h
  obtain ⟨hocc, hnone⟩ := (firstOccurrence_eq_some marker_ne_nil).mp hj
  refine ⟨Nat.le_add_right _ _, occursAt_drop.mp hocc, fun i hi hlt hocc => ?_⟩
  obtain ⟨d, rfl⟩ := Nat.exists_eq_add_of_le hi
  exact hnone d (by omega) (occursAt_drop.mpr hocc)

/-- Where the next marker of a packet stands. -/
theorem nextMarker_drop {data : List UInt8} {c k : Nat} (h : nextMarker (data.drop c) = some k) :
    8 ≤ k ∧ OccursAt marker data (c + k) ∧ c + k + 8 ≤ data.length := by
  obtain ⟨hk, hocc, -⟩ := nextMarker_spec h
  rw [occursAt_drop] at hocc
  have hroom := hocc.length_le marker_ne_nil
  exact ⟨hk, hocc, hroom⟩

/-- The rounds of a loop from the message at `c` with `br` bytes remaining: the
accepted messages, what was stored last, the number of failed parses, and the bytes
left.  A gap behind a message makes `br` too large for the rounds after it. -/
inductive Rounds (data : List UInt8) :
    Nat → Nat → List (List UInt8) → Option (List UInt8) → Nat → Nat → Prop where
  | lastAccepted {c br n : Nat} (hnext : nextMarker (data.drop c) = none)
      (h : Accepts (data.drop c) br n) :
      Rounds data c br [(data.drop c).take n] none 0 (br - n)
  | lastTooShort {c br : Nat} {copy : List UInt8} (hnext : nextMarker (data.drop c) = none)
      (h : TooShort (data.drop c) br) (hcopy : strncpy (data.drop c) br = .ok copy) :
      Rounds data c br [] (some copy) 0 0
  | lastFailed {c br n : Nat} (hnext : nextMarker (data.drop c) = none)
      (h : Fails (data.drop c) br n) : Rounds data c br [] none 1 (br - n)
  | accepted {c br k n failed left : Nat} {accepted : List (List UInt8)}
      {stored : Option (List UInt8)} (hnext : nextMarker (data.drop c) = some k)
      (h : Accepts (data.drop c) k n)
      (rest : Rounds data (c + k) (br - n) accepted stored failed left) :
      Rounds data c br ((data.drop c).take n :: accepted) stored failed left
  | tooShort {c br k failed left : Nat} {accepted : List (List UInt8)}
      {stored : Option (List UInt8)} {copy : List UInt8}
      (hnext : nextMarker (data.drop c) = some k) (h : TooShort (data.drop c) k)
      (hcopy : strncpy (data.drop c) k = .ok copy)
      (rest : Rounds data (c + k) (br - k) accepted stored failed left) :
      Rounds data c br accepted (some (stored.getD copy)) failed left
  | failed {c br k n failed left : Nat} {accepted : List (List UInt8)}
      {stored : Option (List UInt8)} (hnext : nextMarker (data.drop c) = some k)
      (h : Fails (data.drop c) k n)
      (rest : Rounds data (c + k) (br - n) accepted stored failed left) :
      Rounds data c br accepted stored (failed + 1) left

section Loop

variable {R : Type} [RingBuffer R] {packet : Packet} {ctx ctx' : CaptureContext R}

/-- A search behind `curr` that returns has found the next marker, also when a gap
has made `buf_remaining` too large. -/
theorem searchNext_ok {c br : Nat} {next : Option Nat} (hlo : packet.data.length ≤ c + br)
    (hhi : br ≤ packet.data.length) (h : searchNext packet.data c br = .ok next) :
    next = (nextMarker (packet.data.drop c)).map (c + ·) := by
  have hmax := packet.length_le
  rw [marker_length] at hmax
  unfold intMax at hmax
  have hcompose : (nextMarker (packet.data.drop c)).map (c + ·) =
      (firstOccurrence marker (packet.data.drop (c + 8))).map (c + 8 + ·) := by
    rw [nextMarker, List.drop_drop, Option.map_map]
    simp only [Function.comp_def, Nat.add_assoc]
  rw [hcompose]
  unfold searchNext at h
  rw [toSize_natCast, matcher_len] at h
  split at h
  · obtain ⟨haystack, hhaystack, h⟩ := bind_eq_ok.mp h
    obtain ⟨hit, hhit, hnext⟩ := bind_eq_ok.mp h
    obtain ⟨-, rfl⟩ := pointerAt_eq_ok hhaystack
    have hsize : 8 < br := by omega
    have hlength : wrap32 ((br : Int) - (8 : Nat)) = ((br - 8 : Nat) : Int) := by
      rw [wrap32_of_range (by omega) (by omega)]
      omega
    rw [hlength] at hhit
    have hfit : br - 8 + marker.length ≤ intMax := by
      rw [marker_length]
      unfold intMax
      omega
    rw [← Except.ok.inj hnext,
      boyermooreSearch_ok marker_ne_nil (by rw [List.length_drop]; omega) hfit hhit]
  · next hsmall =>
    have hnil : packet.data.drop (c + 8) = [] := List.drop_eq_nil_of_le (by omega)
    rw [← Except.ok.inj h, hnil]
    rfl

/-- A search from an exact start reads inside the packet. -/
theorem searchNext_isOk {c br : Nat} (hc : OccursAt marker packet.data c)
    (hexact : c + br = packet.data.length) : ∃ next, searchNext packet.data c br = .ok next := by
  have hroom := hc.length_le marker_ne_nil
  rw [marker_length] at hroom
  have hwhere : (br : Int) = ((packet.data.length - c : Nat) : Int) := by omega
  rw [hwhere, searchNext_eq hroom]
  exact ⟨_, rfl⟩

/-- The length of the message at the start of the bytes, as the loop takes it. -/
def messageLength (bytes : List UInt8) (br : Nat) : Nat := (nextMarker bytes).getD br

/-- The length that the parser is given is that of the message up to the next marker. -/
theorem fixMessageLen_nextMarker (data : List UInt8) (c br : Nat) :
    fixMessageLen c ((nextMarker (data.drop c)).map (c + ·)) br =
      (messageLength (data.drop c) br : Nat) := by
  unfold fixMessageLen messageLength
  cases nextMarker (data.drop c) with
  | none => rfl
  | some k => simp only [Option.map_some, Option.getD_some]; omega

/-- A message is no longer than what remains, also when that is too much. -/
theorem messageLength_le {data : List UInt8} {c br : Nat} (hlo : data.length ≤ c + br) :
    messageLength (data.drop c) br ≤ br := by
  unfold messageLength
  cases hnext : nextMarker (data.drop c) with
  | none => exact Nat.le_refl _
  | some k =>
      have := (nextMarker_drop hnext).2.2
      simp only [Option.getD_some]
      omega

/-- What a round does with the `len` bytes of its message, of which the parser
consumes `n`: what is accepted, stored and counted. -/
inductive RoundOutcome (packet : Packet) (ctx : CaptureContext R) (message : List UInt8)
    (len : Nat) : Nat → CaptureContext R → Prop where
  | accepted {n : Nat} {ctx' : CaptureContext R} (h : Accepts message len n)
      (haccepted : ctx'.accepted = ctx.accepted ++ [message.take n])
      (herrors : ctx'.counters.errors = ctx.counters.errors)
      (hfragment : fragmentBytes ctx' packet.streamId = fragmentBytes ctx packet.streamId) :
      RoundOutcome packet ctx message len n ctx'
  | tooShort {ctx' : CaptureContext R} {copy : List UInt8} (h : TooShort message len)
      (haccepted : ctx'.accepted = ctx.accepted)
      (herrors : ctx'.counters.errors = ctx.counters.errors)
      (hcopy : strncpy message len = .ok copy)
      (hfragment : fragmentBytes ctx' packet.streamId = some copy) :
      RoundOutcome packet ctx message len len ctx'
  | failed {n : Nat} {ctx' : CaptureContext R} (h : Fails message len n)
      (haccepted : ctx'.accepted = ctx.accepted)
      (herrors : ctx'.counters.errors = ctx.counters.errors + 1)
      (hfragment : fragmentBytes ctx' packet.streamId = fragmentBytes ctx packet.streamId) :
      RoundOutcome packet ctx message len n ctx'

/-- A delivered message is no error. -/
theorem deliver_errors (ctx : CaptureContext R) (tvSec tvNsec : UInt32) (bytes : List UInt8)
    (details : FixDetails) :
    (ctx.deliver tvSec tvNsec bytes details).counters.errors = ctx.counters.errors := by
  obtain ⟨-, hchecksums, hcorrupt, hparsing⟩ := deliver_counters ctx tvSec tvNsec bytes details
  simp only [Counters.errors, hchecksums, hcorrupt, hparsing]

/-- What a round does, by the result of the parser: a natural number of bytes is consumed. -/
theorem RoundEffect.outcome {message : List UInt8} {len : Nat} {run : ParseRun}
    {details : FixDetails} (hrun : vmarsFixParseMsg message len 0 = .ok run)
    (h : RoundEffect packet ctx message len run.ret details ctx') :
    ∃ n : Nat, run.ret.bytesConsumed = n ∧ n ≤ len ∧
      RoundOutcome packet ctx message len n ctx' := by
  obtain ⟨n, hn, hle, hcases⟩ := parse_cases hrun
  refine ⟨n, hn, hle, ?_⟩
  rcases hcases with ⟨hok, haccepts⟩ | ⟨hshort, rfl, htoo⟩ | ⟨hok, hshort, hfails⟩
  · cases h with
    | accepted _ =>
        refine .accepted haccepts ?_ (deliver_errors ..)
          (fragmentBytes_congr (getFragment_deliver ..))
        rw [deliver_accepted, hn]
        rfl
    | tooShort hshort _ => rw [hok] at hshort; cases hshort
    | failed hne _ => exact (hne hok).elim
  · cases h with
    | accepted hok => rw [hshort] at hok; cases hok
    | tooShort _ hput =>
        obtain ⟨copy, hcopy, hfragment, -, -, hcounters, haccepted⟩ := putFragment_ok hput
        exact .tooShort htoo haccepted (congrArg _ hcounters) hcopy
          (fragmentBytes_of_fragment hfragment)
    | failed _ hne => exact (hne hshort).elim
  · cases h with
    | accepted hok' => exact (hok hok').elim
    | tooShort hshort' _ => exact (hshort hshort').elim
    | failed _ _ => exact .failed hfails rfl (countResult_errors hok hshort) rfl

omit [RingBuffer R] in
/-- The outcome says what was consumed. -/
theorem RoundOutcome.consumed {message : List UInt8} {len n : Nat}
    (h : RoundOutcome packet ctx message len n ctx') : Consumed message len n := by
  cases h with
  | accepted h => exact h.consumed
  | tooShort h => exact h.consumed
  | failed h => exact h.consumed

omit [RingBuffer R] in
/-- A stored fragment fits its allocation. -/
theorem fragmentBytes_length_le {streamId : Ipv4Stream} {s : List UInt8}
    (h : fragmentBytes ctx streamId = some s) : s.length ≤ fragmentCapacity := by
  obtain ⟨fragment, -, rfl⟩ := Option.map_eq_some_iff.mp h
  exact fragment.length_le

omit [RingBuffer R] in
/-- A round that returns has stored a message that is too short, so it fits. -/
theorem RoundOutcome.fits {message : List UInt8} {len n : Nat}
    (h : RoundOutcome packet ctx message len n ctx') (hshort : TooShort message len) :
    len ≤ fragmentCapacity := by
  cases h with
  | accepted h => exact (h.not_tooShort hshort).elim
  | tooShort _ _ _ hcopy hfragment =>
      rw [← strncpy_length hcopy]
      exact fragmentBytes_length_le hfragment
  | failed h => exact (hshort.not_fails h).elim

/-- Everything that a round without a fault does. -/
theorem extractRound_rounds {c br : Nat} {next : Option Nat} {bufRemaining : Int}
    (h : extractRound packet ctx c br = .ok (ctx', next, bufRemaining))
    (hlo : packet.data.length ≤ c + br) (hhi : br ≤ packet.data.length) :
    ∃ n : Nat, next = (nextMarker (packet.data.drop c)).map (c + ·) ∧
      n ≤ messageLength (packet.data.drop c) br ∧
      messageLength (packet.data.drop c) br ≤ br ∧ bufRemaining = (br - n : Nat) ∧
      RoundOutcome packet ctx (packet.data.drop c) (messageLength (packet.data.drop c) br) n
        ctx' := by
  have hmax := packet.length_le
  unfold intMax at hmax
  obtain ⟨message, run, details, hsearch, hmessage, hrun, -, hleft, heffect⟩ := extractRound_ok h
  obtain ⟨-, rfl⟩ := pointerAt_eq_ok hmessage
  obtain rfl := searchNext_ok hlo hhi hsearch
  have hlen := fixMessageLen_nextMarker packet.data c br
  have hbr := messageLength_le hlo
  rw [hlen] at hrun heffect
  obtain ⟨n, hn, hle, houtcome⟩ := heffect.outcome hrun
  refine ⟨n, rfl, hle, hbr, ?_, houtcome⟩
  rw [hleft, hn, wrap32_of_range (by omega) (by omega)]
  omega

/-- A round whose message is parsed. -/
theorem extractRound_of_parse {ctx₁ : CaptureContext R} {curr : Nat} {next : Option Nat}
    {bufRemaining : Int} {message : List UInt8} {ret : VmarsFixParseResult} {details : FixDetails}
    (hsearch : searchNext packet.data curr bufRemaining = .ok next)
    (hmessage : pointerAt packet.data curr = .ok message)
    (hparse : tryParseFixMessage ctx message (fixMessageLen curr next bufRemaining) =
      .ok (ctx₁, ret, details)) :
    extractRound packet ctx curr bufRemaining =
      if ret.result = .ok then do
        let ctx ← processForLatencyMeasurement ctx₁ packet.tvSec packet.tvNsec details
        .ok (ctx, next, wrap32 (bufRemaining - ret.bytesConsumed))
      else if ret.result = .messageTooShort then do
        let ctx ← putFragment ctx₁ packet.streamId message (fixMessageLen curr next bufRemaining)
        .ok (ctx, next, wrap32 (bufRemaining - ret.bytesConsumed))
      else .ok (ctx₁, next, wrap32 (bufRemaining - ret.bytesConsumed)) := by
  rw [extractRound, hsearch, ok_bind]
  simp only [hmessage, ok_bind]
  change (tryParseFixMessage ctx message (fixMessageLen curr next bufRemaining) >>= _) = _
  rw [hparse]
  rfl

/-- A round returns when its search, its parser and, for a message that is too short,
its copy do. -/
theorem extractRound_returns {c br : Nat} {run : ParseRun} {details : FixDetails}
    (hlo : packet.data.length ≤ c + br) (hhi : br ≤ packet.data.length)
    (hc : c ≤ packet.data.length) (hsearch : ∃ next, searchNext packet.data c br = .ok next)
    (hrun : vmarsFixParseMsg (packet.data.drop c) (messageLength (packet.data.drop c) br) 0 =
      .ok run)
    (hdetails : collect (packet.data.drop c) run.calls {} = .ok details)
    (hput : run.ret.result = .messageTooShort → ∀ ctx₁ : CaptureContext R, ∃ ctx₂,
      putFragment ctx₁ packet.streamId (packet.data.drop c)
        (messageLength (packet.data.drop c) br : Nat) = .ok ctx₂) :
    ∃ round, extractRound packet ctx c br = .ok round := by
  obtain ⟨next, hsearch⟩ := hsearch
  obtain rfl := searchNext_ok hlo hhi hsearch
  have hlen := fixMessageLen_nextMarker packet.data c br
  have hparse : ∃ ctx₁, tryParseFixMessage ctx (packet.data.drop c)
      (fixMessageLen c ((nextMarker (packet.data.drop c)).map (c + ·)) br) =
      .ok (ctx₁, run.ret, details) := by
    rw [hlen, tryParseFixMessage, hrun, ok_bind, hdetails, ok_bind]
    exact ⟨_, rfl⟩
  obtain ⟨ctx₁, hparse⟩ := hparse
  rw [extractRound_of_parse hsearch (pointerAt_natCast hc) hparse]
  split
  · rw [processForLatencyMeasurement, summaryOf_eq, ok_bind]
    cases eventOf packet.tvSec packet.tvNsec details with
    | none => exact ⟨_, rfl⟩
    | some summary => exact ⟨_, rfl⟩
  split
  · next hshort =>
    obtain ⟨ctx₂, hput⟩ := hput hshort ctx₁
    rw [hlen, hput, ok_bind]
    exact ⟨_, rfl⟩
  · exact ⟨_, rfl⟩

/-- **A loop that returns is a list of rounds.** -/
theorem extractLoop_rounds {fuel c br : Nat} {bufRemaining : Int}
    (h : extractLoop packet fuel ctx (some c) br = .ok (ctx', bufRemaining))
    (hlo : packet.data.length ≤ c + br) (hhi : br ≤ packet.data.length) :
    ∃ accepted stored failed left, bufRemaining = (left : Nat) ∧
      Rounds packet.data c br accepted stored failed left ∧
      ctx'.accepted = ctx.accepted ++ accepted ∧
      ctx'.counters.errors = ctx.counters.errors + failed ∧
      fragmentBytes ctx' packet.streamId = stored.or (fragmentBytes ctx packet.streamId) := by
  induction fuel generalizing ctx c br with
  | zero => cases h
  | succ fuel ih =>
      obtain ⟨⟨ctx₁, next, bufRemaining₁⟩, hround, hrest⟩ := bind_eq_ok.mp h
      obtain ⟨n, rfl, hn, hlen, rfl, houtcome⟩ := extractRound_rounds hround hlo hhi
      cases hnext : nextMarker (packet.data.drop c) with
      | none =>
          rw [messageLength, hnext, Option.getD_none] at houtcome
          simp only [hnext, Option.map_none, extractLoop, Except.ok.injEq, Prod.mk.injEq] at hrest
          obtain ⟨rfl, rfl⟩ := hrest
          cases houtcome with
          | accepted haccepts haccepted herrors hfragment =>
              refine ⟨_, _, _, _, rfl, .lastAccepted hnext haccepts, haccepted, ?_, ?_⟩
              · rw [herrors]
                exact (Int.add_zero _).symm
              · rw [hfragment, Option.none_or]
          | tooShort hshort haccepted herrors hcopy hfragment =>
              refine ⟨_, _, _, _, ?_, .lastTooShort hnext hshort hcopy, ?_, ?_, ?_⟩
              · rw [Nat.sub_self]
              · rw [haccepted, List.append_nil]
              · rw [herrors]
                exact (Int.add_zero _).symm
              · rw [hfragment]
                rfl
          | failed hfails haccepted herrors hfragment =>
              refine ⟨_, _, _, _, rfl, .lastFailed hnext hfails, ?_, herrors, ?_⟩
              · rw [haccepted, List.append_nil]
              · rw [hfragment, Option.none_or]
      | some k =>
          obtain ⟨-, -, hroom⟩ := nextMarker_drop hnext
          rw [messageLength, hnext, Option.getD_some] at houtcome hn hlen
          rw [hnext, Option.map_some] at hrest
          obtain ⟨accepted, stored, failed, left, rfl, hrounds, haccepted', herrors', hfragment'⟩ :=
            ih hrest (by omega) (by omega)
          cases houtcome with
          | accepted haccepts haccepted herrors hfragment =>
              refine ⟨_, _, _, _, rfl, .accepted hnext haccepts hrounds, ?_, ?_, ?_⟩
              · rw [haccepted', haccepted, List.append_assoc, List.singleton_append]
              · rw [herrors', herrors]
              · rw [hfragment', hfragment]
          | tooShort hshort haccepted herrors hcopy hfragment =>
              refine ⟨_, _, _, _, rfl, .tooShort hnext hshort hcopy hrounds, ?_, ?_, ?_⟩
              · rw [haccepted', haccepted]
              · rw [herrors', herrors]
              · rw [hfragment', hfragment]
                cases stored <;> rfl
          | failed hfails haccepted herrors hfragment =>
              refine ⟨_, _, _, _, rfl, .failed hnext hfails hrounds, ?_, ?_, ?_⟩
              · rw [haccepted', haccepted]
              · rw [herrors', herrors]
                omega
              · rw [hfragment', hfragment]

end Loop

/-! ## The balance of the rounds -/

section Balance

variable {data : List UInt8} {c br failed left : Nat} {accepted : List (List UInt8)}
  {stored : Option (List UInt8)}

/-- The accepted messages lie one behind the other in what is left of the packet. -/
theorem Rounds.accepted_le (h : Rounds data c br accepted stored failed left) :
    accepted.flatten.length ≤ data.length - c := by
  induction h with
  | lastAccepted _ _ =>
      simp only [List.flatten_singleton, List.length_take, List.length_drop]
      omega
  | lastTooShort _ _ _ => simp
  | lastFailed _ _ => simp
  | accepted hnext haccepts _ ih =>
      have hroom := (nextMarker_drop hnext).2.2
      have hle := haccepts.le
      simp only [List.flatten_cons, List.length_append, List.length_take, List.length_drop]
      omega
  | tooShort hnext _ _ _ ih =>
      have hroom := (nextMarker_drop hnext).2.2
      omega
  | failed hnext _ _ ih =>
      have hroom := (nextMarker_drop hnext).2.2
      omega

/-- What is accepted, left over and stored last is no more than what remained. -/
theorem Rounds.balance (h : Rounds data c br accepted stored failed left)
    (hlo : data.length ≤ c + br) :
    accepted.flatten.length + left + (stored.getD []).length ≤ br := by
  induction h with
  | lastAccepted _ haccepts =>
      have hle := haccepts.le
      simp only [List.flatten_singleton, List.length_take, Option.getD_none, List.length_nil]
      omega
  | lastTooShort _ _ hcopy =>
      rw [Option.getD_some, strncpy_length hcopy]
      simp
  | lastFailed _ _ =>
      simp only [List.flatten_nil, List.length_nil, Option.getD_none]
      omega
  | accepted hnext haccepts _ ih =>
      have hroom := (nextMarker_drop hnext).2.2
      have hle := haccepts.le
      have hrest := ih (by omega)
      simp only [List.flatten_cons, List.length_append, List.length_take]
      omega
  | @tooShort c br k failed left accepted stored copy hnext _ hcopy _ ih =>
      have hroom := (nextMarker_drop hnext).2.2
      have hrest := ih (by omega)
      have hlength := strncpy_length hcopy
      cases stored with
      | none =>
          simp only [Option.getD_none, Option.getD_some, List.length_nil] at hrest ⊢
          omega
      | some s =>
          simp only [Option.getD_some] at hrest ⊢
          omega
  | failed hnext hfails _ ih =>
      have hroom := (nextMarker_drop hnext).2.2
      have hle := hfails.le
      have hrest := ih (by omega)
      omega

/-- The fragment in the end: the bytes left over, the message that was too short
last, or still the old one. -/
def finallyStored (data : List UInt8) (old stored : Option (List UInt8)) (left : Nat) :
    Option (List UInt8) :=
  if left = 0 then stored.or old else some (ncopy (data.drop (data.length - left)))

end Balance

/-! ## The rest of a call -/

section Call

variable {R : Type} [RingBuffer R] {packet : Packet} {ctx ctx' : CaptureContext R}

/-- From a marker on, a call that returns is a list of rounds and the bytes left. -/
theorem finishPacket_rounds {c : Nat} (hc : c ≤ packet.data.length)
    (h : finishPacket packet ctx (some c) (packet.data.length - c : Nat) = .ok ctx') :
    ∃ accepted stored failed left,
      Rounds packet.data c (packet.data.length - c) accepted stored failed left ∧
      ctx'.accepted = ctx.accepted ++ accepted ∧
      ctx'.counters.errors = ctx.counters.errors + failed ∧
      fragmentBytes ctx' packet.streamId =
        finallyStored packet.data (fragmentBytes ctx packet.streamId) stored left := by
  obtain ⟨⟨ctx₁, bufRemaining⟩, hloop, hleft⟩ := bind_eq_ok.mp h
  obtain ⟨accepted, stored, failed, left, rfl, hrounds, haccepted, herrors, hfragment⟩ :=
    extractLoop_rounds hloop (by omega) (by omega)
  have hbalance := hrounds.balance (by omega)
  obtain ⟨haccepted', hcounters, hfragment'⟩ := storeLeftover_ok (by omega) hleft
  refine ⟨accepted, stored, failed, left, hrounds, by rw [haccepted', haccepted],
    by rw [hcounters, herrors], ?_⟩
  rw [hfragment', hfragment, finallyStored]

/-- The rest of a call behind the leading bytes: nothing without a marker, else rounds. -/
theorem finishPacket_lead {first : Option Nat}
    (hfirst : firstOccurrence marker packet.data = first)
    (h : finishPacket packet ctx first
      (packet.data.length - first.getD packet.data.length : Nat) = .ok ctx') :
    (first = none ∧ ctx' = ctx) ∨
      ∃ k accepted stored failed left, first = some k ∧ OccursAt marker packet.data k ∧
        Rounds packet.data k (packet.data.length - k) accepted stored failed left ∧
        ctx'.accepted = ctx.accepted ++ accepted ∧
        ctx'.counters.errors = ctx.counters.errors + failed ∧
        fragmentBytes ctx' packet.streamId =
          finallyStored packet.data (fragmentBytes ctx packet.streamId) stored left := by
  cases first with
  | none =>
      rw [Option.getD_none, Nat.sub_self] at h
      exact .inl ⟨rfl, (Except.ok.inj h).symm⟩
  | some k =>
      have hc := ((firstOccurrence_eq_some marker_ne_nil).mp hfirst).1
      have hroom := hc.length_le marker_ne_nil
      obtain ⟨accepted, stored, failed, left, hrounds⟩ := finishPacket_rounds (by omega) h
      exact .inr ⟨k, accepted, stored, failed, left, rfl, hc, hrounds⟩

/-- What the leading bytes do with a stored fragment that has room for them. -/
inductive LeadOutcome (packet : Packet) (ctx : CaptureContext R) (s : List UInt8)
    (ctx' : CaptureContext R) : Prop where
  | accepted {n : Nat} (h : Accepts s s.length n)
      (haccepted : ctx'.accepted = ctx.accepted ++ [s.take n])
      (herrors : ctx'.counters.errors = ctx.counters.errors)
      (hfragment : fragmentBytes ctx' packet.streamId = none)
  | tooShort (h : TooShort s s.length) (haccepted : ctx'.accepted = ctx.accepted)
      (herrors : ctx'.counters.errors = ctx.counters.errors)
      (hfragment : fragmentBytes ctx' packet.streamId = some s)
  | failed {n : Nat} (h : Fails s s.length n) (haccepted : ctx'.accepted = ctx.accepted)
      (herrors : ctx'.counters.errors = ctx.counters.errors + 1)
      (hfragment : fragmentBytes ctx' packet.streamId = none)

omit [RingBuffer R] in
/-- An append never takes a counted error back. -/
theorem LeadOutcome.errors_le {s : List UInt8} (h : LeadOutcome packet ctx s ctx') :
    ctx.counters.errors ≤ ctx'.counters.errors := by
  cases h <;> omega

/-- The stored fragment with the bytes before the first marker is read, kept or removed. -/
theorem leadingFragment_outcome {fragment : Fragment} {n : Nat}
    (hget : getFragment ctx packet.streamId = some fragment) (hn : n ≤ packet.data.length)
    (hfits : fragment.s.length + n < fragmentCapacity)
    (h : leadingFragment packet ctx n = .ok ctx') :
    LeadOutcome packet ctx (fragment.s ++ ncopy (packet.data.take n)) ctx' := by
  obtain ⟨ctx₁, run, details, hstore, hrun, heffect⟩ := leadingFragment_ok hget hn hfits h
  obtain ⟨hfragment, -, -, hcounters, haccepted⟩ := storeFragment_ok hstore
  obtain ⟨m, hm, -, hcases⟩ := parse_cases hrun
  rcases hcases with ⟨hok, haccepts⟩ | ⟨hshort, -, htoo⟩ | ⟨hok, hshort, hfails⟩
  · cases heffect with
    | accepted _ =>
        obtain ⟨haccepted', hcounters', hnone⟩ := removeFragment_frame
          (ctx₁.deliver packet.tvSec packet.tvNsec
            ((fragment.s ++ ncopy (packet.data.take n)).take run.ret.bytesConsumed.toNat) details)
          packet.streamId
        refine .accepted haccepts ?_ ?_ hnone
        · rw [haccepted', deliver_accepted, haccepted, hm]
          rfl
        · rw [hcounters', deliver_errors, hcounters]
    | tooShort hshort => rw [hok] at hshort; cases hshort
    | failed hne _ => exact (hne hok).elim
  · cases heffect with
    | accepted hok => rw [hshort] at hok; cases hok
    | tooShort _ =>
        exact .tooShort htoo haccepted (congrArg _ hcounters) (fragmentBytes_of_fragment hfragment)
    | failed _ hne => exact (hne hshort).elim
  · cases heffect with
    | accepted hok' => exact (hok hok').elim
    | tooShort hshort' => exact (hshort hshort').elim
    | failed _ _ =>
        obtain ⟨haccepted', hcounters', hnone⟩ := removeFragment_frame
          { ctx₁ with counters := countResult ctx₁.counters run.ret.result } packet.streamId
        refine .failed hfails (haccepted'.trans haccepted) ?_ hnone
        rw [hcounters', ← hcounters]
        exact countResult_errors hok hshort

/-- BodyLength is in range in a message that the leading bytes continue. -/
def LeadInRange (fragment : Option Fragment) (lead : List UInt8) : Prop :=
  ∀ f ∈ fragment, f.s.length + lead.length < fragmentCapacity →
    BodyLengthInRange (f.s ++ ncopy lead)

/-- The leading bytes are a fault exactly when they continue a message whose
BodyLength is out of range. -/
theorem leadingFragment_isOk_iff {n : Nat} (hn : n ≤ packet.data.length) :
    (∃ ctx', leadingFragment packet ctx n = .ok ctx') ↔
      LeadInRange (getFragment ctx packet.streamId) (packet.data.take n) := by
  have hlength : (packet.data.take n).length = n := by
    rw [List.length_take]
    omega
  unfold LeadInRange
  rw [hlength]
  cases hget : getFragment ctx packet.streamId with
  | none =>
      refine iff_of_true ?_ (by simp)
      unfold leadingFragment
      rw [hget]
      simp only [matcher_len]
      split
      · next hshort =>
        exact putFragment_isOk (Nat.le_refl _)
          (Nat.le_trans (Nat.le_of_lt hshort) (by decide))
      · exact ⟨_, rfl⟩
  | some fragment =>
      simp only [Option.mem_def, Option.some.injEq, forall_eq']
      have hwhole : ∀ s : List UInt8, (∃ run, vmarsFixParseMsg s (s.length : Nat) 0 = .ok run) ↔
          BodyLengthInRange s := fun s => by
        rw [parse_isOk_iff (Nat.le_refl _), List.take_length]
      rw [← hwhole]
      constructor
      · rintro ⟨ctx', hrun⟩ hroom
        obtain ⟨ctx₁, run, details, -, hparse, -⟩ := leadingFragment_ok hget hn hroom hrun
        exact ⟨run, hparse⟩
      · intro hparse
        by_cases hroom : fragment.s.length + n < fragmentCapacity
        · obtain ⟨run, hparse⟩ := hparse hroom
          obtain ⟨details, hdetails⟩ := collect_of_parse (Nat.le_refl _) hparse
          obtain ⟨ctx₁, -, hlead⟩ := leadingFragment_append hget hn hroom
          rw [hlead, tryParseFixMessage, hparse, ok_bind, hdetails, ok_bind, ok_bind]
          simp only
          split
          · rw [processForLatencyMeasurement, summaryOf_eq, ok_bind]
            cases eventOf packet.tvSec packet.tvNsec details with
            | none => exact ⟨_, rfl⟩
            | some summary => exact ⟨_, rfl⟩
          · exact ⟨_, rfl⟩
        · refine ⟨ctx, ?_⟩
          rw [leadingFragment, hget]
          exact if_neg hroom

end Call

end Vmars
