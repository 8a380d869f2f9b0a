import Vmars.Batching
import Vmars.JodieClient

/-!
# The datagrams of the metrics client

What a run of the client sends.  `sendto` is given the C string that starts the
buffer, so the length of a datagram comes from the first NUL, while lines are written
at the index.

* `datagrams_framing`: from `jodie_init` on, and while datagrams can be sent, the two
  agree: the datagrams and the front of the buffer are the lines, in their order and
  whole.  The client is a collector of batches (`jodieSession_refines`).
-/

namespace Vmars

open CMemory

/-! ## What is sent -/

/-- The step flushes the buffer when the index is `sendIndex`: it is a flush, or its
line would take the buffer over the packet size. -/
def JodieStep.flushes (step : JodieStep) (sendIndex : Nat) : Bool :=
  match step.call with
  | .flush => true
  | _ => step.line.any fun text => text.length + sendIndex > packetSize

/-- The datagrams of a run, and the client after it. -/
def jodieSession (client : Jodie) : List JodieStep → Checked (List (List UInt8) × Jodie)
  | [] => .ok ([], client)
  | step :: steps => do
      let (_, client, datagram) ← jodieStep client step
      let (rest, client) ← jodieSession client steps
      .ok (datagram.toList ++ rest, client)

/-- The lines that the log functions accept. -/
def acceptedLines (steps : List JodieStep) : List (List UInt8) := steps.filterMap JodieStep.line

/-! ## One step -/

/-- A log function appends its line, unless it refuses the datapath. -/
theorem jodieStep_log {client : Jodie} {step : JodieStep} (hcall : step.call ≠ .flush) :
    jodieStep client step = match step.line with
      | some text => jodieAppend client text step.outside.sent
      | none => .ok (-1, client, none) := by
  obtain ⟨call, outside⟩ := step
  have hlog : ∀ datapath value type timestamp,
      jodieLog client datapath value type timestamp outside =
        match acceptedLine datapath value type timestamp outside with
        | some text => jodieAppend client text outside.sent
        | none => .ok (-1, client, none) := by
    intro datapath value type timestamp
    unfold jodieLog acceptedLine
    split
    · rfl
    · rfl
  cases call with
  | logGauge datapath value timestamp => exact hlog ..
  | logCounter datapath value timestamp => exact hlog ..
  | logPercent datapath value timestamp => exact hlog ..
  | logStatus datapath value timestamp => exact hlog ..
  | flush => exact absurd rfl hcall

/-- A line has no NUL and fits a packet. -/
theorem line_fits {step : JodieStep} {text : List UInt8} (hline : step.line = some text) :
    (0 : UInt8) ∉ text ∧ text.length ≤ packetSize := by
  obtain ⟨call, outside⟩ := step
  have haccepted : ∀ datapath value type timestamp,
      acceptedLine datapath value type timestamp outside = some text →
      value.length ≤ 20 → (0 : UInt8) ∉ value →
      (ascii type).length ≤ 7 → (0 : UInt8) ∉ ascii type →
      (0 : UInt8) ∉ text ∧ text.length ≤ packetSize := by
    intro datapath value type timestamp hsome hvalue hnul htype hnul'
    unfold acceptedLine at hsome
    split at hsome
    · cases hsome
    · next hdatapath =>
      obtain rfl := Option.some.inj hsome
      exact ⟨logText_no_nul hnul hnul', logText_length_le hdatapath hvalue htype⟩
  have hdigits : ∀ n, (0 : UInt8) ∉ decimalDigits n := by
    intro n hzero
    exact absurd (decimalDigitsAux_isDigit _ _ 0 hzero) (by decide)
  cases call with
  | logGauge datapath value timestamp =>
      exact haccepted _ _ _ _ hline (unsignedDigits_length value) (hdigits _) (by decide) (by decide)
  | logCounter datapath value timestamp =>
      exact haccepted _ _ _ _ hline (unsignedDigits_length value) (hdigits _) (by decide) (by decide)
  | logPercent datapath value timestamp =>
      exact haccepted _ _ _ _ hline (unsignedDigits_length value) (hdigits _) (by decide) (by decide)
  | logStatus datapath value timestamp =>
      exact haccepted _ _ _ _ hline (status_length value) (hdigits _) (by decide) (by decide)
  | flush => cases hline

/-! ## The buffer before and behind the index -/

/-- The buffer is `front`, up to the index, and `back`. -/
structure Jodie.IsSplit (client : Jodie) (front back : List UInt8) : Prop where
  sendBuffer_eq : client.sendBuffer = front ++ back
  sendIndex_eq : client.sendIndex = front.length

namespace Jodie.IsSplit

variable {client : Jodie} {front back text : List UInt8}

/-- What `jodie_init` and a successful flush leave. -/
theorem init : jodieInit.IsSplit [] (List.replicate bufferSize 0) := ⟨rfl, rfl⟩

/-- Front and back determine the client. -/
theorem unique {client' : Jodie} (h : client.IsSplit front back) (h' : client'.IsSplit front back) :
    client = client' := by
  obtain ⟨sendIndex, sendBuffer⟩ := client
  obtain ⟨sendIndex', sendBuffer'⟩ := client'
  have hbuffer := h.sendBuffer_eq.trans h'.sendBuffer_eq.symm
  have hindex := h.sendIndex_eq.trans h'.sendIndex_eq.symm
  simp only at hbuffer hindex
  rw [hbuffer, hindex]

/-- A line is written behind the front. -/
theorem write (h : client.IsSplit front back) (hfits : text.length ≤ back.length) :
    copyTo client.sendBuffer client.sendIndex text =
        .ok (front ++ text ++ back.drop text.length) := by
  rw [h.sendBuffer_eq, h.sendIndex_eq, copyTo, List.length_append,
    if_pos (Nat.add_le_add_left hfits _), List.take_left, ← List.drop_drop, List.drop_left]

/-- A line with room in the packet. -/
theorem append (h : client.IsSplit front back) (htext : text.length ≤ packetSize)
    (hfits : text.length ≤ back.length) (hroom : ¬ text.length + front.length > packetSize)
    (sent : Bool) :
    ∃ client', jodieAppend client text sent = .ok (0, client', none) ∧
      client'.IsSplit (front ++ text) (back.drop text.length) := by
  have hno : ¬ text.length + client.sendIndex > packetSize := by rwa [h.sendIndex_eq]
  refine ⟨{ sendIndex := client.sendIndex + text.length
            sendBuffer := front ++ text ++ back.drop text.length }, ?_, rfl, ?_⟩
  · rw [jodieAppend, sprintf, if_pos (lt_bufferSize htext), ok_bind]
    simp only [if_neg hno, ok_bind, h.write hfits]
  · rw [List.length_append, h.sendIndex_eq]

/-- What a flush sends is the C string in the buffer. -/
theorem flush_sent (hnul : 0 ∈ client.sendBuffer) :
    jodieFlush client true = .ok (0, jodieInit, some (cstr client.sendBuffer)) := by
  have htake : client.sendBuffer.take (cstr client.sendBuffer).length = cstr client.sendBuffer :=
    (List.prefix_iff_eq_take.mp (List.takeWhile_prefix _)).symm
  rw [jodieFlush, strlen, if_pos hnul, ok_bind, htake]
  rfl

/-- A line without room: the buffer is sent before it. -/
theorem append_flush (hnul : 0 ∈ client.sendBuffer) (htext : text.length ≤ packetSize)
    (hroom : text.length + client.sendIndex > packetSize) :
    ∃ client', jodieAppend client text true = .ok (0, client', some (cstr client.sendBuffer)) ∧
      client'.IsSplit text ((List.replicate bufferSize 0).drop text.length) := by
  have hwrite := @write jodieInit [] (List.replicate bufferSize 0) text init (by
    rw [List.length_replicate]
    exact Nat.le_of_lt (lt_bufferSize htext))
  refine ⟨{ sendIndex := jodieInit.sendIndex + text.length
            sendBuffer := [] ++ text ++ (List.replicate bufferSize 0).drop text.length }, ?_, rfl, ?_⟩
  · rw [jodieAppend, sprintf, if_pos (lt_bufferSize htext), ok_bind]
    simp only [if_pos hroom, flush_sent hnul, ok_bind, hwrite]
  · exact Nat.zero_add _

end Jodie.IsSplit

/-- What a step writes. -/
def JodieStep.text (step : JodieStep) : List UInt8 := step.line.getD []

/-- A step writes no more than a packet holds. -/
theorem JodieStep.text_length_le (step : JodieStep) : step.text.length ≤ packetSize := by
  unfold text
  cases hline : step.line with
  | none => exact Nat.zero_le _
  | some text => exact (line_fits hline).2

/-- It writes no NUL. -/
theorem JodieStep.text_no_nul (step : JodieStep) : (0 : UInt8) ∉ step.text := by
  unfold text
  cases hline : step.line with
  | none => exact List.not_mem_nil
  | some text => exact (line_fits hline).1

/-- A flush always flushes, and writes no line. -/
theorem JodieStep.flushes_flush {step : JodieStep} (hcall : step.call = .flush) (n : Nat) :
    step.flushes n = true ∧ step.line = none := by
  obtain ⟨call, outside⟩ := step
  obtain rfl := hcall
  exact ⟨rfl, rfl⟩

/-- A log function flushes when its line has no room in the packet. -/
theorem JodieStep.flushes_log {step : JodieStep} (hcall : step.call ≠ .flush) (n : Nat) :
    step.flushes n = true ↔ ∃ text, step.line = some text ∧ text.length + n > packetSize := by
  obtain ⟨call, outside⟩ := step
  unfold flushes
  cases call with
  | flush => exact absurd rfl hcall
  | _ => simp only [Option.any_eq_true, decide_eq_true_iff]

/-- A line that joins the packet fits the buffer. -/
theorem JodieStep.length_of_keeps {step : JodieStep} {n : Nat} (hkeeps : step.flushes n = false)
    (hn : n ≤ bufferSize) : n + step.text.length ≤ bufferSize := by
  by_cases hcall : step.call = .flush
  · rw [(flushes_flush hcall n).1] at hkeeps
    cases hkeeps
  unfold text
  cases hline : step.line with
  | none => exact hn
  | some text =>
      have hroom : ¬ text.length + n > packetSize := by
        intro hroom
        rw [(flushes_log hcall n).mpr ⟨text, hline, hroom⟩] at hkeeps
        cases hkeeps
      rw [Option.getD_some]
      unfold packetSize at hroom
      unfold bufferSize
      omega

namespace Jodie.IsSplit

variable {client : Jodie} {front back : List UInt8} {step : JodieStep}

/-- **A step that flushes.**  It sends the C string in the buffer, and only its own
line is left. -/
theorem step_flushes (h : client.IsSplit front back) (hsent : step.outside.sent = true)
    (hflushes : step.flushes front.length = true) (hnul : 0 ∈ client.sendBuffer) :
    ∃ ret client', jodieStep client step = .ok (ret, client', some (cstr client.sendBuffer)) ∧
      client'.IsSplit step.text ((List.replicate bufferSize 0).drop step.text.length) := by
  by_cases hcall : step.call = .flush
  · refine ⟨0, jodieInit, ?_, ?_⟩
    · rw [jodieStep, hcall, hsent]
      exact flush_sent hnul
    · rw [JodieStep.text, (JodieStep.flushes_flush hcall 0).2]
      exact init
  · obtain ⟨text, hline, hroom⟩ := (JodieStep.flushes_log hcall _).mp hflushes
    obtain ⟨client', happend, hsplit⟩ := append_flush hnul (line_fits hline).2
      (by rwa [h.sendIndex_eq])
    refine ⟨0, client', ?_, ?_⟩
    · rw [jodieStep_log hcall, hline, hsent]
      exact happend
    · rw [JodieStep.text, hline]
      exact hsplit

/-- Without a NUL in the buffer it reads outside. -/
theorem step_unterminated (h : client.IsSplit front back)
    (hflushes : step.flushes front.length = true) (hnul : 0 ∉ client.sendBuffer) :
    jodieStep client step = .error (.outOfBounds client.sendBuffer.length) := by
  have hflush : ∀ sent, jodieFlush client sent =
      .error (.outOfBounds client.sendBuffer.length) := by
    intro sent
    rw [jodieFlush, strlen, if_neg hnul, error_bind]
  by_cases hcall : step.call = .flush
  · rw [jodieStep, hcall]
    exact hflush _
  · obtain ⟨text, hline, hroom⟩ := (JodieStep.flushes_log hcall _).mp hflushes
    rw [← h.sendIndex_eq] at hroom
    rw [jodieStep_log hcall, hline]
    simp only [jodieAppend, sprintf, if_pos (lt_bufferSize (line_fits hline).2), ok_bind,
      if_pos hroom, hflush, error_bind]

/-- **A step that does not flush.**  It sends nothing and writes behind the front. -/
theorem step_keeps (h : client.IsSplit front back) (hsize : front.length + back.length = bufferSize)
    (hkeeps : step.flushes front.length = false) :
    ∃ ret client', jodieStep client step = .ok (ret, client', none) ∧
      client'.IsSplit (front ++ step.text) (back.drop step.text.length) := by
  have hcall : step.call ≠ .flush := by
    intro hcall
    rw [(JodieStep.flushes_flush hcall _).1] at hkeeps
    cases hkeeps
  rw [jodieStep_log hcall, JodieStep.text]
  cases hline : step.line with
  | none =>
      refine ⟨-1, client, rfl, ?_⟩
      simpa using h
  | some text =>
      have hroom : ¬ text.length + front.length > packetSize := by
        intro hroom
        rw [(JodieStep.flushes_log hcall _).mpr ⟨text, hline, hroom⟩] at hkeeps
        cases hkeeps
      have hfits := JodieStep.length_of_keeps hkeeps (by omega)
      rw [JodieStep.text, hline, Option.getD_some] at hfits
      obtain ⟨client', happend, hsplit⟩ := h.append (line_fits hline).2 (by omega) hroom
        step.outside.sent
      exact ⟨0, client', happend, hsplit⟩

end Jodie.IsSplit

/-! ## Framing -/

/-- What a step asks of the batch of lines. -/
def JodieStep.ops (step : JodieStep) : List (Batching.Op (List UInt8)) :=
  match step.call with
  | .flush => [.flush]
  | _ => step.line.toList.map .push

theorem JodieStep.flatten_line (step : JodieStep) : step.line.toList.flatten = step.text := by
  unfold text
  cases step.line <;> simp

/-- A log function pushes its line. -/
theorem JodieStep.ops_log {step : JodieStep} (hcall : step.call ≠ .flush) :
    step.ops = step.line.toList.map .push := by
  obtain ⟨call, outside⟩ := step
  cases call with
  | flush => exact absurd rfl hcall
  | _ => rfl

/-- A step that flushes sends the batch and begins another. -/
theorem JodieStep.run_ops_flushes {step : JodieStep} {pending : List (List UInt8)}
    (hflushes : step.flushes pending.flatten.length = true) :
    Batching.run List.length packetSize pending step.ops = ([pending], step.line.toList) := by
  by_cases hcall : step.call = .flush
  · have hops : step.ops = [.flush] := by rw [ops, hcall]
    rw [hops, (flushes_flush hcall 0).2]
    rfl
  · obtain ⟨text, hline, hroom⟩ := (flushes_log hcall _).mp hflushes
    rw [List.length_flatten] at hroom
    have hpush : Batching.step List.length packetSize pending (.push text) =
        ([pending], [text]) := by
      rw [Batching.step_push]
      exact if_pos hroom
    rw [ops_log hcall, hline]
    simp [hpush]

/-- Any other step collects its line. -/
theorem JodieStep.run_ops_keeps {step : JodieStep} {pending : List (List UInt8)}
    (hkeeps : step.flushes pending.flatten.length = false) :
    Batching.run List.length packetSize pending step.ops = ([], pending ++ step.line.toList) := by
  have hcall : step.call ≠ .flush := by
    intro hcall
    rw [(flushes_flush hcall _).1] at hkeeps
    cases hkeeps
  rw [ops_log hcall]
  cases hline : step.line with
  | none => simp
  | some text =>
      have hroom : ¬ text.length + pending.flatten.length > packetSize := by
        intro hroom
        rw [(flushes_log hcall _).mpr ⟨text, hline, hroom⟩] at hkeeps
        cases hkeeps
      rw [List.length_flatten] at hroom
      have hpush : Batching.step List.length packetSize pending (.push text) =
          ([], pending ++ [text]) := by
        rw [Batching.step_push]
        exact if_neg hroom
      simp [hpush]

/-- The buffer carries these lines and is clear behind them. -/
structure Jodie.Carries (client : Jodie) (pending : List (List UInt8)) : Prop where
  isSplit : client.IsSplit pending.flatten
    (List.replicate (bufferSize - pending.flatten.length) 0)
  no_nul : (0 : UInt8) ∉ pending.flatten
  length_le : pending.flatten.length ≤ bufferSize

/-- A C string goes on behind bytes without a NUL. -/
theorem cstr_append {front : List UInt8} (h : (0 : UInt8) ∉ front) (back : List UInt8) :
    cstr (front ++ back) = front ++ cstr back := by
  apply List.takeWhile_append_of_pos
  intro b hb
  have hne : b ≠ 0 := by
    intro heq
    exact h (heq ▸ hb)
  simpa using hne

namespace Jodie.Carries

variable {client client' : Jodie} {pending : List (List UInt8)} {step : JodieStep}

/-- A new client carries no lines. -/
theorem init : jodieInit.Carries [] := ⟨Jodie.IsSplit.init, List.not_mem_nil, Nat.zero_le _⟩

/-- The lines and what is clear behind them fill the buffer. -/
theorem length_eq (h : client.Carries pending) :
    pending.flatten.length +
        (List.replicate (bufferSize - pending.flatten.length) (0 : UInt8)).length =
      bufferSize := by
  have hle := h.length_le
  rw [List.length_replicate]
  omega

/-- The C string in a buffer that is not full ends at the index. -/
theorem cstr_eq (h : client.Carries pending) (hlt : pending.flatten.length < bufferSize) :
    0 ∈ client.sendBuffer ∧ cstr client.sendBuffer = pending.flatten := by
  obtain ⟨n, hn⟩ : ∃ n, bufferSize - pending.flatten.length = n + 1 :=
    ⟨bufferSize - pending.flatten.length - 1, by omega⟩
  have hbuffer := h.isSplit.sendBuffer_eq
  rw [hn, List.replicate_succ] at hbuffer
  have hnul : 0 ∈ client.sendBuffer := by
    rw [hbuffer]
    exact List.mem_append_right _ (List.mem_cons_self ..)
  refine ⟨hnul, ?_⟩
  rw [hbuffer, cstr_append h.no_nul]
  simp [cstr]

/-- The line of a step is carried behind the others. -/
theorem push (h : client.Carries pending)
    (hsplit : client'.IsSplit (pending.flatten ++ step.text)
      ((List.replicate (bufferSize - pending.flatten.length) 0).drop step.text.length))
    (hfits : pending.flatten.length + step.text.length ≤ bufferSize) :
    client'.Carries (pending ++ step.line.toList) := by
  have hflatten : (pending ++ step.line.toList).flatten = pending.flatten ++ step.text := by
    rw [List.flatten_append, step.flatten_line]
  refine ⟨?_, ?_, ?_⟩
  · rw [hflatten, List.length_append, ← Nat.sub_sub, ← List.drop_replicate]
    exact hsplit
  · rw [hflatten]
    intro hmem
    rcases List.mem_append.mp hmem with hmem | hmem
    · exact h.no_nul hmem
    · exact step.text_no_nul hmem
  · rw [hflatten, List.length_append]
    exact hfits

/-- Behind a flush only the line of the step is carried. -/
theorem of_flush
    (hsplit : client'.IsSplit step.text ((List.replicate bufferSize 0).drop step.text.length)) :
    client'.Carries step.line.toList := by
  have hfits := Nat.le_of_lt (lt_bufferSize step.text_length_le)
  exact @push jodieInit client' [] step init (by simpa using hsplit) (by simpa using hfits)

/-- A step sends the batches of its operations. -/
theorem step_refines (h : client.Carries pending) (hsent : step.outside.sent = true)
    (hlimit : pending.flatten.length ≤ packetSize) :
    ∃ ret client' datagram, jodieStep client step = .ok (ret, client', datagram) ∧
      datagram.toList =
        (Batching.run List.length packetSize pending step.ops).1.map List.flatten ∧
      client'.Carries (Batching.run List.length packetSize pending step.ops).2 := by
  by_cases hflushes : step.flushes pending.flatten.length = true
  · obtain ⟨hnul, hstring⟩ := h.cstr_eq (lt_bufferSize hlimit)
    obtain ⟨ret, client', hstep, hsplit⟩ := h.isSplit.step_flushes hsent hflushes hnul
    rw [hstring] at hstep
    rw [JodieStep.run_ops_flushes hflushes]
    exact ⟨ret, client', _, hstep, rfl, of_flush hsplit⟩
  · rw [Bool.not_eq_true] at hflushes
    obtain ⟨ret, client', hstep, hsplit⟩ := h.isSplit.step_keeps h.length_eq hflushes
    have hfits := JodieStep.length_of_keeps hflushes h.length_le
    rw [JodieStep.run_ops_keeps hflushes]
    exact ⟨ret, client', none, hstep, rfl, h.push hsplit hfits⟩

end Jodie.Carries

/-- The items of the operations are the lines. -/
theorem items_ops (steps : List JodieStep) :
    Batching.items (steps.flatMap JodieStep.ops) = acceptedLines steps := by
  induction steps with
  | nil => rfl
  | cons step steps ih =>
      have happend : ∀ line : Option (List UInt8), ∀ ops : List (Batching.Op (List UInt8)),
          Batching.items (line.toList.map .push ++ ops) = line.toList ++ Batching.items ops := by
        intro line ops
        cases line <;> rfl
      have hstep : Batching.items (step.ops ++ steps.flatMap JodieStep.ops) =
          step.line.toList ++ Batching.items (steps.flatMap JodieStep.ops) := by
        by_cases hcall : step.call = .flush
        · rw [(JodieStep.flushes_flush hcall 0).2, JodieStep.ops, hcall]
          rfl
        · rw [JodieStep.ops_log hcall]
          exact happend _ _
      rw [List.flatMap_cons, hstep, ih, acceptedLines, acceptedLines, List.filterMap_cons]
      cases step.line <;> rfl

/-- A run sends the batches of its operations. -/
theorem jodieSession_refines {client : Jodie} {pending : List (List UInt8)} {steps : List JodieStep}
    (h : client.Carries pending) (hlimit : pending.flatten.length ≤ packetSize)
    (hsent : ∀ step ∈ steps, step.outside.sent = true) :
    ∃ client', jodieSession client steps = .ok
        ((Batching.run List.length packetSize pending (steps.flatMap JodieStep.ops)).1.map
          List.flatten, client') ∧
      client'.Carries (Batching.run List.length packetSize pending (steps.flatMap JodieStep.ops)).2 := by
  induction steps generalizing client pending with
  | nil => exact ⟨client, rfl, h⟩
  | cons step steps ih =>
      obtain ⟨ret, client', datagram, hstep, hdatagram, hcarries⟩ := h.step_refines
        (hsent step (List.mem_cons_self ..)) hlimit
      have hitems : ∀ item ∈ Batching.items step.ops, item.length ≤ packetSize := by
        intro item hitem
        have hops := items_ops [step]
        rw [List.flatMap_cons, List.flatMap_nil, List.append_nil] at hops
        rw [hops, acceptedLines, List.mem_filterMap] at hitem
        obtain ⟨_, -, hline⟩ := hitem
        exact (line_fits hline).2
      have hwithin := (@Batching.run_within _ List.length packetSize pending step.ops
        (by rwa [Batching.weight, ← List.length_flatten]) hitems).2
      rw [Batching.weight, ← List.length_flatten] at hwithin
      obtain ⟨client'', hrest, hcarries'⟩ := ih hcarries hwithin fun step' hmem =>
        hsent step' (List.mem_cons_of_mem _ hmem)
      rw [List.flatMap_cons, Batching.run_append]
      refine ⟨client'', ?_, hcarries'⟩
      rw [jodieSession, hstep, ok_bind]
      simp only [hrest, ok_bind, List.map_append, hdatagram]

/-- **Metrics framing.**  While datagrams can be sent, the datagrams followed by the
buffer up to the index are the accepted lines in their order, and every datagram is
whole lines that fit a packet. -/
theorem datagrams_framing {steps : List JodieStep}
    (hsent : ∀ step ∈ steps, step.outside.sent = true) :
    ∃ (datagrams : List (List UInt8)) (client : Jodie) (packets : List (List (List UInt8)))
        (pending : List (List UInt8)),
      jodieSession jodieInit steps = .ok (datagrams, client) ∧
      datagrams.flatten ++ client.sendBuffer.take client.sendIndex = (acceptedLines steps).flatten ∧
      (∀ datagram ∈ datagrams, datagram.length ≤ packetSize) ∧
      packets.flatten ++ pending = acceptedLines steps ∧
      datagrams = packets.map List.flatten ∧
      client.sendBuffer.take client.sendIndex = pending.flatten := by
  obtain ⟨client, hrun, hcarries⟩ := jodieSession_refines .init (Nat.zero_le _) hsent
  have hflatten := @Batching.run_flatten _ List.length packetSize [] (steps.flatMap JodieStep.ops)
  have hwithin := (@Batching.run_within _ List.length packetSize [] (steps.flatMap JodieStep.ops)
    (Nat.zero_le _) (by
      intro item hitem
      rw [items_ops, acceptedLines, List.mem_filterMap] at hitem
      obtain ⟨_, -, hline⟩ := hitem
      exact (line_fits hline).2)).1
  generalize Batching.run List.length packetSize [] (steps.flatMap JodieStep.ops) = run at *
  obtain ⟨packets, pending⟩ := run
  rw [items_ops, List.nil_append] at hflatten
  have hfront : client.sendBuffer.take client.sendIndex = pending.flatten := by
    rw [hcarries.isSplit.sendBuffer_eq, hcarries.isSplit.sendIndex_eq, List.take_left]
  refine ⟨_, client, packets, pending, hrun, ?_, ?_, hflatten, rfl, hfront⟩
  · rw [hfront, ← hflatten, List.flatten_append, List.flatten_flatten]
  · intro datagram hdatagram
    obtain ⟨packet, hpacket, rfl⟩ := List.mem_map.mp hdatagram
    have := hwithin packet hpacket
    rwa [Batching.weight, ← List.length_flatten] at this

/-- The second of two long lines sends the first. -/
theorem datagrams_framing_longGauges :
    ∃ (datagrams : List (List UInt8)) (client : Jodie) (packets : List (List (List UInt8)))
        (pending : List (List UInt8)),
      jodieSession jodieInit [longGauge true, longGauge true] = .ok (datagrams, client) ∧
      datagrams.flatten ++ client.sendBuffer.take client.sendIndex =
        (acceptedLines [longGauge true, longGauge true]).flatten ∧
      (∀ datagram ∈ datagrams, datagram.length ≤ packetSize) ∧
      packets.flatten ++ pending = acceptedLines [longGauge true, longGauge true] ∧
      datagrams = packets.map List.flatten ∧
      client.sendBuffer.take client.sendIndex = pending.flatten :=
  datagrams_framing (List.forall_mem_cons.mpr ⟨rfl, List.forall_mem_singleton.mpr rfl⟩)

end Vmars
