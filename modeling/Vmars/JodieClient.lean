import Vmars.FixMessage

/-!
# The metrics client (`jodie_client.c`)

The log functions append one line each to a buffer that is sent as one datagram.
Before a line that would not fit a packet they flush the buffer, and they ignore
whether the flush succeeded: a failed one leaves the buffer as it is, and the line
is written behind what is there.

Outside the client are the clock and `sendto`; a step of a run says what they do.

* `jodieRun_inBounds`: while a line that goes past the buffer is only logged when
  its flush succeeds, nothing is written outside the buffer;
* `not_inBounds_unsent`: with three lines and no datagram sent something is.
-/

namespace Vmars

open CMemory

/-! ## The code -/

/-- `BUFFER_SIZE`. -/
def bufferSize : Nat := 2048

/-- `PACKET_SIZE`. -/
def packetSize : Nat := 1400

/-- `struct jodie`, without the address and the socket. -/
structure Jodie where
  sendIndex : Nat
  sendBuffer : List UInt8
  deriving DecidableEq, Repr

/-- `jodie_init`. -/
def jodieInit : Jodie where
  sendIndex := 0
  sendBuffer := List.replicate bufferSize 0

/-- `strlen` of the C string that starts the buffer. -/
def strlen (buf : List UInt8) : Checked Nat :=
  if 0 ∈ buf then .ok (cstr buf).length else .error (.outOfBounds buf.length)

/-- `jodie_flush`: the return value, the client, and the datagram if one is sent.  `sendto`
is given the C string in the buffer, and `sent` says that it does not return -1. -/
def jodieFlush (client : Jodie) (sent : Bool) : Checked (Int × Jodie × Option (List UInt8)) := do
  let size ← strlen client.sendBuffer
  if sent then
    .ok (0, { sendIndex := 0, sendBuffer := List.replicate bufferSize 0 },
      some (client.sendBuffer.take size))
  else .ok (-1, client, none)

/-- `sprintf` into `tmp_buf`: the text, if it fits with its NUL. -/
def sprintf (text : List UInt8) : Checked (List UInt8) :=
  if text.length < bufferSize then .ok text else .error (.overflow (text.length + 1))

/-- Copies the bytes to `buf + i`. -/
def copyTo (buf : List UInt8) (i : Nat) (bytes : List UInt8) : Checked (List UInt8) :=
  if i + bytes.length ≤ buf.length then .ok (buf.take i ++ bytes ++ buf.drop (i + bytes.length))
  else .error (.overflow (i + bytes.length))

/-- What the clock shows and whether `sendto` succeeds, should a call ask. -/
structure Outside where
  millis : Int
  sent : Bool

/-- A line: the datapath, the value, the time and the type. -/
def logText (datapath value : List UInt8) (timestamp : Int) (type : String) : List UInt8 :=
  cstr datapath ++ 32 :: value ++ 32 :: decimalDigits (toSize timestamp) ++ ascii " type=" ++
    ascii type ++ [10]

/-- The second half of the log functions: a line for the packet, which the packet
is flushed for when it has no room. -/
def jodieAppend (client : Jodie) (text : List UInt8) (sent : Bool) :
    Checked (Int × Jodie × Option (List UInt8)) := do
  let tmpBuf ← sprintf text
  let sizeEstimate := tmpBuf.length
  -- the result of the flush is ignored
  let (_, client, datagram) ←
    if sizeEstimate + client.sendIndex > packetSize then jodieFlush client sent
    else .ok (0, client, none)
  let sendBuffer ← copyTo client.sendBuffer client.sendIndex tmpBuf
  .ok (0, { sendIndex := client.sendIndex + sizeEstimate, sendBuffer }, datagram)

/-- The body of the log functions. -/
def jodieLog (client : Jodie) (datapath value : List UInt8) (type : String) (timestamp : Int)
    (outside : Outside) : Checked (Int × Jodie × Option (List UInt8)) :=
  if (cstr datapath).length > bufferSize / 2 then .ok (-1, client, none)
  else
    let timestamp := if timestamp = 0 then outside.millis else timestamp
    jodieAppend client (logText datapath value timestamp type) outside.sent

/-- `%lu` of a `long`. -/
def unsignedDigits (value : Int) : List UInt8 := decimalDigits (toSize value)

/-- `jodie_logGauge`. -/
def jodieLogGauge (client : Jodie) (datapath : List UInt8) (value timestamp : Int)
    (outside : Outside) : Checked (Int × Jodie × Option (List UInt8)) :=
  jodieLog client datapath (unsignedDigits value) "gauge" timestamp outside

/-- `jodie_logCounter`. -/
def jodieLogCounter (client : Jodie) (datapath : List UInt8) (value timestamp : Int)
    (outside : Outside) : Checked (Int × Jodie × Option (List UInt8)) :=
  jodieLog client datapath (unsignedDigits value) "counter" timestamp outside

/-- `jodie_logPercent`.  The value is limited to 100 after it has been printed. -/
def jodieLogPercent (client : Jodie) (datapath : List UInt8) (value timestamp : Int)
    (outside : Outside) : Checked (Int × Jodie × Option (List UInt8)) :=
  jodieLog client datapath (unsignedDigits value) "percent" timestamp outside

/-- `enum status`. -/
inductive Status where
  | ok
  | warning
  | critical
  | unknown
  | noresponse
  | exchangeclosed
  deriving DecidableEq, Repr

/-- The number of a status. -/
def Status.number : Status → Nat
  | .ok => 0
  | .warning => 1
  | .critical => 2
  | .unknown => 3
  | .noresponse => 4
  | .exchangeclosed => 5

/-- `jodie_logStatus`. -/
def jodieLogStatus (client : Jodie) (datapath : List UInt8) (value : Status) (timestamp : Int)
    (outside : Outside) : Checked (Int × Jodie × Option (List UInt8)) :=
  jodieLog client datapath (decimalDigits value.number) "enum" timestamp outside

/-! ## Runs -/

/-- A call on a client. -/
inductive JodieCall where
  | logGauge (datapath : List UInt8) (value timestamp : Int)
  | logCounter (datapath : List UInt8) (value timestamp : Int)
  | logPercent (datapath : List UInt8) (value timestamp : Int)
  | logStatus (datapath : List UInt8) (value : Status) (timestamp : Int)
  | flush

/-- The call of a step and what happens outside meanwhile. -/
structure JodieStep where
  call : JodieCall
  outside : Outside

/-- A step of a run. -/
def jodieStep (client : Jodie) (step : JodieStep) :
    Checked (Int × Jodie × Option (List UInt8)) :=
  match step.call with
  | .logGauge datapath value timestamp => jodieLogGauge client datapath value timestamp step.outside
  | .logCounter datapath value timestamp =>
      jodieLogCounter client datapath value timestamp step.outside
  | .logPercent datapath value timestamp =>
      jodieLogPercent client datapath value timestamp step.outside
  | .logStatus datapath value timestamp =>
      jodieLogStatus client datapath value timestamp step.outside
  | .flush => jodieFlush client step.outside.sent

/-- The client after a run. -/
def jodieRun (client : Jodie) : List JodieStep → Checked Jodie
  | [] => .ok client
  | step :: steps => do
      let (_, client, _) ← jodieStep client step
      jodieRun client steps

/-- The line that a log function writes, unless it refuses the datapath. -/
def acceptedLine (datapath value : List UInt8) (type : String) (timestamp : Int)
    (outside : Outside) : Option (List UInt8) :=
  if (cstr datapath).length > bufferSize / 2 then none
  else some (logText datapath value (if timestamp = 0 then outside.millis else timestamp) type)

/-- The line of a step, if it writes one. -/
def JodieStep.line (step : JodieStep) : Option (List UInt8) :=
  match step.call with
  | .logGauge datapath value timestamp =>
      acceptedLine datapath (unsignedDigits value) "gauge" timestamp step.outside
  | .logCounter datapath value timestamp =>
      acceptedLine datapath (unsignedDigits value) "counter" timestamp step.outside
  | .logPercent datapath value timestamp =>
      acceptedLine datapath (unsignedDigits value) "percent" timestamp step.outside
  | .logStatus datapath value timestamp =>
      acceptedLine datapath (decimalDigits value.number) "enum" timestamp step.outside
  | .flush => none

/-- The line of the step fits behind the index, or its flush succeeds. -/
def HasRoom (client : Jodie) (step : JodieStep) : Prop :=
  ∀ text, step.line = some text →
    step.outside.sent = true ∨ client.sendIndex + text.length ≤ bufferSize

/-! ## The length of a line -/

/-- A number below `10 ^ k` has at most `k` digits. -/
theorem decimalDigitsAux_length {k : Nat} (hk : 0 < k) (fuel n : Nat) (hn : n < 10 ^ k) :
    (decimalDigitsAux fuel n).length ≤ k := by
  induction fuel generalizing n k with
  | zero => exact hk
  | succ fuel ih =>
      unfold decimalDigitsAux
      split
      · exact hk
      · next hten =>
        obtain ⟨j, rfl⟩ : ∃ j, k = j + 1 := ⟨k - 1, by omega⟩
        have hj : 0 < j := by
          rcases Nat.eq_zero_or_pos j with rfl | hj
          · exact absurd hn hten
          · exact hj
        have hdiv : n / 10 < 10 ^ j := by
          rw [Nat.pow_succ] at hn
          omega
        have := ih hj (n / 10) hdiv
        rw [List.length_append, List.length_singleton]
        omega

/-- A `long` has at most 20 digits. -/
theorem unsignedDigits_length (value : Int) : (unsignedDigits value).length ≤ 20 := by
  refine decimalDigitsAux_length (by decide) _ _ ?_
  unfold toSize
  omega

theorem status_length (value : Status) : (decimalDigits value.number).length ≤ 20 := by
  cases value <;> decide

/-- A line fits a packet. -/
theorem logText_length_le {datapath value : List UInt8} {timestamp : Int} {type : String}
    (hdatapath : ¬ (cstr datapath).length > bufferSize / 2) (hvalue : value.length ≤ 20)
    (htype : (ascii type).length ≤ 7) :
    (logText datapath value timestamp type).length ≤ packetSize := by
  have htime := unsignedDigits_length timestamp
  have hmark : (ascii " type=").length = 6 := by decide
  simp only [logText, unsignedDigits, bufferSize, packetSize, List.length_append,
    List.length_cons, List.length_nil] at *
  omega

/-- What fits a packet fits the temporary buffer. -/
theorem lt_bufferSize {n : Nat} (h : n ≤ packetSize) : n < bufferSize :=
  Nat.lt_of_le_of_lt h (by decide)

/-- A line has no NUL, so its `strlen` is its length. -/
theorem logText_no_nul {datapath value : List UInt8} {timestamp : Int} {type : String}
    (hvalue : (0 : UInt8) ∉ value) (htype : (0 : UInt8) ∉ ascii type) :
    (0 : UInt8) ∉ logText datapath value timestamp type := by
  have hdatapath : (0 : UInt8) ∉ cstr datapath := fun h => by
    simpa using List.mem_takeWhile_imp h
  have htime : (0 : UInt8) ∉ decimalDigits (toSize timestamp) := fun h => by
    have := decimalDigitsAux_isDigit _ _ 0 h
    revert this
    decide
  have hmark : (0 : UInt8) ∉ ascii " type=" := by decide
  simp [logText, hdatapath, hvalue, htime, hmark, htype]

/-! ## Inside the buffer -/

/-- The buffer has its size and the index is inside it. -/
structure InBuffer (client : Jodie) : Prop where
  length_eq : client.sendBuffer.length = bufferSize
  index_le : client.sendIndex ≤ bufferSize

/-- A call writes nothing outside the buffers and leaves the index inside. -/
structure Stays (x : Checked (Int × Jodie × Option (List UInt8))) : Prop where
  noOverflow : NoOverflow x
  inBuffer : ∀ r, x = .ok r → InBuffer r.2.1

/-- A call that returns a client with its index inside. -/
theorem Stays.ok {ret : Int} {client : Jodie} {datagram : Option (List UInt8)}
    (h : InBuffer client) : Stays (.ok (ret, client, datagram)) := by
  refine ⟨noOverflow_ok _, fun r hr => ?_⟩
  obtain rfl := Except.ok.inj hr
  exact h

/-- What follows a call that overflows nothing decides. -/
theorem Stays.bind {α : Type} {x : Checked α}
    {f : α → Checked (Int × Jodie × Option (List UInt8))} (hx : NoOverflow x) (hf : ∀ a, x = .ok a → Stays (f a)) : Stays (x >>= f) := by
  refine ⟨hx.bind fun a ha => (hf a ha).noOverflow, fun r hr => ?_⟩
  obtain ⟨a, ha, hr⟩ := bind_eq_ok.mp hr
  exact (hf a ha).inBuffer r hr

theorem jodieInit_inBuffer : InBuffer jodieInit := ⟨List.length_replicate .., Nat.zero_le _⟩

/-- `strlen` reads the buffer. -/
theorem strlen_noOverflow (buf : List UInt8) : NoOverflow (strlen buf) := by
  unfold strlen
  split
  · exact noOverflow_ok _
  · exact noOverflow_outOfBounds _

/-- A flush leaves what it finds, or the empty buffer when it succeeds. -/
theorem jodieFlush_ok {client client' : Jodie} {sent : Bool} {ret : Int}
    {datagram : Option (List UInt8)} (h : jodieFlush client sent = .ok (ret, client', datagram)) :
    client' = if sent then jodieInit else client := by
  obtain ⟨_, -, h⟩ := bind_eq_ok.mp h
  cases sent with
  | true =>
      cases h
      rfl
  | false =>
      cases h
      rfl

/-- A flush writes nothing that was not there, or clears the buffer. -/
theorem jodieFlush_stays {client : Jodie} (h : InBuffer client) (sent : Bool) :
    Stays (jodieFlush client sent) := by
  constructor
  · refine (strlen_noOverflow _).bind fun _ _ => ?_
    split
    · exact noOverflow_ok _
    · exact noOverflow_ok _
  · rintro ⟨ret, client', datagram⟩ hr
    obtain rfl := jodieFlush_ok hr
    split
    · exact jodieInit_inBuffer
    · exact h

/-- **A line.**  It is written inside the buffer when its flush succeeds or it fits
behind the index. -/
theorem jodieAppend_stays {client : Jodie} (h : InBuffer client) {text : List UInt8} {sent : Bool}
    (htext : text.length < bufferSize)
    (hroom : sent = true ∨ client.sendIndex + text.length ≤ bufferSize) :
    Stays (jodieAppend client text sent) := by
  have hwrite : ∀ (client' : Jodie) (datagram : Option (List UInt8)), InBuffer client' →
      client'.sendIndex + text.length ≤ bufferSize → Stays (do
        let sendBuffer ← copyTo client'.sendBuffer client'.sendIndex text
        .ok (0, { sendIndex := client'.sendIndex + text.length, sendBuffer }, datagram)) := by
    intro client' datagram h' hfits
    rw [copyTo, if_pos (by rw [h'.length_eq]; exact hfits), ok_bind]
    refine Stays.ok ⟨?_, hfits⟩
    have hlen := h'.length_eq
    simp only [List.length_append, List.length_take, List.length_drop]
    omega
  rw [jodieAppend, sprintf, if_pos htext, ok_bind]
  by_cases hpacket : text.length + client.sendIndex > packetSize
  · simp only [if_pos hpacket]
    have hflush := jodieFlush_stays h sent
    refine Stays.bind hflush.noOverflow ?_
    rintro ⟨ret, client', datagram⟩ hr
    refine hwrite client' datagram (hflush.inBuffer _ hr) ?_
    obtain rfl := jodieFlush_ok hr
    cases sent with
    | true =>
        rw [if_pos rfl, jodieInit, Nat.zero_add]
        exact Nat.le_of_lt htext
    | false => exact hroom.resolve_left (by decide)
  · simp only [if_neg hpacket, ok_bind]
    refine hwrite client none h ?_
    unfold packetSize at hpacket
    unfold bufferSize
    omega

/-- The log functions refuse a datapath or append one line. -/
theorem jodieLog_stays {client : Jodie} (h : InBuffer client) {datapath value : List UInt8}
    {type : String} {timestamp : Int} {outside : Outside} (hvalue : value.length ≤ 20)
    (htype : (ascii type).length ≤ 7)
    (hroom : ∀ text, acceptedLine datapath value type timestamp outside = some text →
      outside.sent = true ∨ client.sendIndex + text.length ≤ bufferSize) :
    Stays (jodieLog client datapath value type timestamp outside) := by
  unfold jodieLog
  unfold acceptedLine at hroom
  split
  · exact .ok h
  · next hdatapath =>
    rw [if_neg hdatapath] at hroom
    exact jodieAppend_stays h (lt_bufferSize (logText_length_le hdatapath hvalue htype))
      (hroom _ rfl)

/-- **Every call** stays inside the buffers when it has room. -/
theorem jodieStep_stays {client : Jodie} (h : InBuffer client) {step : JodieStep}
    (hroom : HasRoom client step) : Stays (jodieStep client step) := by
  obtain ⟨call, outside⟩ := step
  cases call with
  | logGauge datapath value timestamp =>
      exact jodieLog_stays h (unsignedDigits_length value) (by decide) hroom
  | logCounter datapath value timestamp =>
      exact jodieLog_stays h (unsignedDigits_length value) (by decide) hroom
  | logPercent datapath value timestamp =>
      exact jodieLog_stays h (unsignedDigits_length value) (by decide) hroom
  | logStatus datapath value timestamp =>
      exact jodieLog_stays h (status_length value) (by decide) hroom
  | flush => exact jodieFlush_stays h outside.sent

/-! ## Runs inside the buffer -/

/-- Nothing is written outside the buffers, and in every state the index is inside. -/
def BufferInBounds (steps : List JodieStep) : Prop :=
  ∀ n, NoOverflow (jodieRun jodieInit (steps.take n)) ∧
    ∀ client, jodieRun jodieInit (steps.take n) = .ok client → client.sendIndex ≤ bufferSize

/-- Every step has room in the state it meets. -/
def RunHasRoom : Jodie → List JodieStep → Prop
  | _, [] => True
  | client, step :: steps =>
      HasRoom client step ∧
        ∀ ret client' datagram, jodieStep client step = .ok (ret, client', datagram) →
          RunHasRoom client' steps

/-- A prefix of a run has room as well. -/
theorem RunHasRoom.take {client : Jodie} {steps : List JodieStep} (h : RunHasRoom client steps)
    (n : Nat) : RunHasRoom client (steps.take n) := by
  induction n generalizing client steps with
  | zero => trivial
  | succ n ih =>
      cases steps with
      | nil => trivial
      | cons step steps =>
          exact ⟨h.1, fun ret client' datagram hstep => ih (h.2 ret client' datagram hstep)⟩

/-- So does every run, by induction on its steps. -/
theorem jodieRun_stays {client : Jodie} (h : InBuffer client) {steps : List JodieStep}
    (hroom : RunHasRoom client steps) :
    NoOverflow (jodieRun client steps) ∧
      ∀ client', jodieRun client steps = .ok client' → InBuffer client' := by
  induction steps generalizing client with
  | nil =>
      refine ⟨noOverflow_ok _, fun client' hrun => ?_⟩
      obtain rfl := Except.ok.inj hrun
      exact h
  | cons step steps ih =>
      have hstep := jodieStep_stays h hroom.1
      have hrest : ∀ r, jodieStep client step = .ok r → _ := fun r hr =>
        ih (hstep.inBuffer r hr) (hroom.2 r.1 r.2.1 r.2.2 hr)
      refine ⟨hstep.noOverflow.bind fun r hr => (hrest r hr).1, fun client' hrun => ?_⟩
      obtain ⟨r, hr, hrun⟩ := bind_eq_ok.mp hrun
      exact (hrest r hr).2 client' hrun

/-- **The send buffer.**  In a run in which every line fits behind the index or has
its flush succeed, nothing is written outside the buffer. -/
theorem jodieRun_inBounds {steps : List JodieStep} (h : RunHasRoom jodieInit steps) :
    BufferInBounds steps := by
  intro n
  obtain ⟨hno, hin⟩ := jodieRun_stays jodieInit_inBuffer (h.take n)
  exact ⟨hno, fun client hrun => (hin client hrun).index_le⟩

/-- A gauge with a datapath of 1000 characters. -/
def longGauge (sent : Bool) : JodieStep where
  call := .logGauge (List.replicate 1000 97) 1 1
  outside := { millis := 0, sent }

/-- Two lines that cannot be sent fit the buffer, and the third one is sent. -/
theorem jodieRun_inBounds_lastFlushSent :
    BufferInBounds [longGauge false, longGauge false, longGauge true] := by
  have hfits : ∀ client : Jodie, client.sendIndex ≤ 1016 → HasRoom client (longGauge false) := by
    intro client hindex text htext
    have hlen : (longGauge false).line.map List.length = some 1016 := by decide +kernel
    rw [htext] at hlen
    have := Option.some.inj hlen
    refine .inr ?_
    unfold bufferSize
    omega
  have hfirst : (jodieStep jodieInit (longGauge false)).map (·.2.1.sendIndex) = .ok 1016 := by
    decide +kernel
  refine jodieRun_inBounds ⟨hfits _ (Nat.zero_le _), fun ret client _ hstep => ?_⟩
  rw [hstep] at hfirst
  refine ⟨hfits _ (Nat.le_of_eq (Except.ok.inj hfirst)), fun _ _ _ _ => ⟨?_, ?_⟩⟩
  · exact fun _ _ => .inl rfl
  · exact fun _ _ _ _ => trivial

/-- When no datagram can be sent, the third line is written behind the buffer. -/
theorem not_inBounds_unsent :
    ¬ BufferInBounds [longGauge false, longGauge false, longGauge false] := by
  intro h
  refine (h 3).1 3048 ?_
  decide +kernel

end Vmars
