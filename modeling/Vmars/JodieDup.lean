import Vmars.JodieDatagrams

/-!
# A duplicated metrics client (`jodie_dup`)

`jodie_dup` copies the address, the socket and the index, and not the buffer.  So the
duplicate writes behind text that it does not have, and a flush sends what the
destination held there.

* `jodieDup_iff`: the duplicate sends what its source would exactly when nothing is
  flushed, or the destination happens to have the source's text in front of the index
  and a NUL behind the lines that are written before the first flush;
* `not_sameDatagrams_logged`: with one line logged at the source and a clear
  destination it does not.
-/

namespace Vmars

open CMemory

/-! ## The code -/

/-- `jodie_dup`: the return value and the destination afterwards. -/
def jodieDup (src dst : Jodie) : Int × Jodie := (0, { dst with sendIndex := src.sendIndex })

/-- Both clients can be used for the calls and send the same datagrams. -/
def SameDatagrams (client client' : Jodie) (steps : List JodieStep) : Prop :=
  ∃ datagrams end₁ end₂, jodieSession client steps = .ok (datagrams, end₁) ∧
    jodieSession client' steps = .ok (datagrams, end₂)

/-- The index at the first flush of a run from the index `sendIndex`. -/
def indexAtFlush (sendIndex : Nat) : List JodieStep → Option Nat
  | [] => none
  | step :: steps =>
      if step.flushes sendIndex then some sendIndex
      else indexAtFlush (sendIndex + step.text.length) steps

/-- Lines only move the index forward. -/
theorem le_indexAtFlush {n j : Nat} {steps : List JodieStep} (h : indexAtFlush n steps = some j) :
    n ≤ j := by
  induction steps generalizing n with
  | nil => cases h
  | cons step steps ih =>
      unfold indexAtFlush at h
      split at h
      · exact Nat.le_of_eq (Option.some.inj h)
      · exact Nat.le_trans (Nat.le_add_right _ _) (ih h)

/-- A C string that starts with a text without NUL is that text when a NUL follows. -/
theorem cstr_append_eq_iff {front front' back' : List UInt8}
    (hlength : front'.length = front.length)
    (hfront : (0 : UInt8) ∉ front) (hnul : 0 ∈ front' ++ back') :
    cstr (front' ++ back') = front ↔ front' = front ∧ back'[0]? = some 0 := by
  constructor
  · intro heq
    have hprefix : front <+: front' ++ back' := heq ▸ List.takeWhile_prefix _
    have hsame : front' = front :=
      ((List.prefix_iff_eq_take.mp hprefix).trans (by rw [← hlength, List.take_left])).symm
    subst hsame
    rw [cstr_append hfront] at heq
    have hrest : cstr back' = [] := List.append_cancel_left (heq.trans (List.append_nil _).symm)
    refine ⟨rfl, ?_⟩
    rcases List.mem_append.mp hnul with hmem | hmem
    · exact absurd hmem hfront
    · cases back' with
      | nil => cases hmem
      | cons b back' =>
          by_cases hb : b = 0
          · rw [hb]
            rfl
          · simp [cstr, hb] at hrest
  · intro hboth
    obtain ⟨rfl, hzero⟩ := hboth
    rw [cstr_append hfront]
    cases back' with
    | nil => cases hzero
    | cons b back' =>
        obtain rfl := Option.some.inj hzero
        simp [cstr]

/-- A session after its first step. -/
theorem jodieSession_cons {client client' : Jodie} {step : JodieStep}
    {datagram : Option (List UInt8)} {ret : Int}
    (hstep : jodieStep client step = .ok (ret, client', datagram)) (steps : List JodieStep) :
    jodieSession client (step :: steps) = (jodieSession client' steps).map fun r =>
      (datagram.toList ++ r.1, r.2) := by
  rw [jodieSession, hstep, ok_bind]
  cases hrest : jodieSession client' steps with
  | error e =>
      simp only [hrest]
      rfl
  | ok r =>
      simp only [hrest, ok_bind]
      rfl

/-- What the first step leaves decides, when it sends nothing. -/
theorem sameDatagrams_cons {client₁ client₂ end₁ end₂ : Jodie} {step : JodieStep}
    {ret₁ ret₂ : Int} (hstep₁ : jodieStep client₁ step = .ok (ret₁, end₁, none))
    (hstep₂ : jodieStep client₂ step = .ok (ret₂, end₂, none)) (steps : List JodieStep) :
    SameDatagrams client₁ client₂ (step :: steps) ↔ SameDatagrams end₁ end₂ steps := by
  unfold SameDatagrams
  rw [jodieSession_cons hstep₁, jodieSession_cons hstep₂]
  have hmap : ∀ x : Checked (List (List UInt8) × Jodie),
      (x.map fun r => ((none : Option (List UInt8)).toList ++ r.1, r.2)) = x := by
    intro x
    cases x <;> rfl
  rw [hmap, hmap]

/-- Without a NUL in the buffer a flush is outside it. -/
theorem not_sends {client client' : Jodie} {front back : List UInt8} {step : JodieStep}
    {datagrams : List (List UInt8)} (h : client.IsSplit front back)
    (hflushes : step.flushes front.length = true)
    (hnul : 0 ∉ client.sendBuffer) (steps : List JodieStep) :
    jodieSession client (step :: steps) ≠ .ok (datagrams, client') := by
  rw [jodieSession, h.step_unterminated hflushes hnul, error_bind]
  intro heq
  cases heq

/-- Two clients with the same index whose first step flushes. -/
theorem sameDatagrams_flush {client client' : Jodie} {pending : List (List UInt8)}
    {front' back' : List UInt8} {step : JodieStep} {steps : List JodieStep}
    (h : client.Carries pending) (h' : client'.IsSplit front' back')
    (hlength : front'.length = pending.flatten.length)
    (hsize : front'.length + back'.length = bufferSize) (hsent₀ : step.outside.sent = true)
    (hsent : ∀ step ∈ steps, step.outside.sent = true)
    (hflushes : step.flushes pending.flatten.length = true) :
    SameDatagrams client client' (step :: steps) ↔
      front' = pending.flatten ∧ back'[0]? = some 0 := by
  have hflushes' : step.flushes front'.length = true := by rwa [hlength]
  by_cases hnul' : 0 ∈ client'.sendBuffer
  · by_cases hfull : pending.flatten.length < bufferSize
    · obtain ⟨hnul, hstring⟩ := h.cstr_eq hfull
      obtain ⟨ret, client₁, hstep, hsplit⟩ := h.isSplit.step_flushes hsent₀ hflushes hnul
      obtain ⟨ret', client₂, hstep', hsplit'⟩ := h'.step_flushes hsent₀ hflushes' hnul'
      obtain rfl := hsplit.unique hsplit'
      -- behind the flush both clients are one
      obtain ⟨last, hrest, -⟩ := jodieSession_refines (Jodie.Carries.of_flush hsplit)
        (by rw [step.flatten_line]; exact step.text_length_le) hsent
      rw [hstring] at hstep
      rw [h'.sendBuffer_eq] at hstep'
      rw [← cstr_append_eq_iff hlength h.no_nul (h'.sendBuffer_eq ▸ hnul')]
      unfold SameDatagrams
      rw [jodieSession_cons hstep, jodieSession_cons hstep', hrest]
      constructor
      · intro hsame
        obtain ⟨datagrams, end₁, end₂, hleft, hright⟩ := hsame
        have hleft := congrArg Prod.fst (Except.ok.inj hleft)
        have hright := congrArg Prod.fst (Except.ok.inj hright)
        simp only [Option.toList_some, List.singleton_append] at hleft hright
        exact (List.cons.inj (hright.trans hleft.symm)).1
      · intro heq
        rw [heq]
        exact ⟨_, last, last, rfl, rfl⟩
    · -- the buffer is full
      have hback : back' = [] := by
        apply List.eq_nil_of_length_eq_zero
        have := h.length_le
        omega
      constructor
      · intro hsame
        obtain ⟨datagrams, end₁, end₂, hleft, -⟩ := hsame
        have hnul : 0 ∉ client.sendBuffer := by
          have hle := h.length_le
          rw [h.isSplit.sendBuffer_eq, show bufferSize - pending.flatten.length = 0 by omega]
          simpa using h.no_nul
        exact absurd hleft (not_sends h.isSplit hflushes hnul steps)
      · intro hboth
        rw [hback] at hboth
        cases hboth.2
  · constructor
    · intro hsame
      obtain ⟨datagrams, end₁, end₂, -, hright⟩ := hsame
      exact absurd hright (not_sends h' hflushes' hnul' steps)
    · intro hboth
      refine absurd ?_ hnul'
      rw [h'.sendBuffer_eq]
      exact List.mem_append_right _ (List.mem_of_getElem? hboth.2)

/-- **Two clients with the same index.**  The first carries its lines; the second sends
the same when nothing is flushed, or its front is the same text and a NUL stands behind
what is written before the first flush. -/
theorem sameDatagrams_iff {client client' : Jodie} {pending : List (List UInt8)}
    {front' back' : List UInt8} {steps : List JodieStep} (h : client.Carries pending)
    (h' : client'.IsSplit front' back') (hlength : front'.length = pending.flatten.length)
    (hsize : front'.length + back'.length = bufferSize)
    (hsent : ∀ step ∈ steps, step.outside.sent = true) :
    SameDatagrams client client' steps ↔
      ∀ j, indexAtFlush pending.flatten.length steps = some j →
        front' = pending.flatten ∧ back'[j - front'.length]? = some 0 := by
  induction steps generalizing client client' pending front' back' with
  | nil =>
      constructor
      · intro _ j hj
        cases hj
      · intro _
        exact ⟨[], client, client', rfl, rfl⟩
  | cons step steps ih =>
      have hsent₀ := hsent step (List.mem_cons_self ..)
      have hsent₁ : ∀ step ∈ steps, step.outside.sent = true :=
        fun step' hmem => hsent step' (List.mem_cons_of_mem _ hmem)
      unfold indexAtFlush
      by_cases hflushes : step.flushes pending.flatten.length = true
      · rw [if_pos hflushes, sameDatagrams_flush h h' hlength hsize hsent₀ hsent₁ hflushes]
        constructor
        · intro hboth j hj
          obtain rfl := Option.some.inj hj
          rwa [hlength, Nat.sub_self]
        · intro hall
          have hboth := hall _ rfl
          rwa [hlength, Nat.sub_self] at hboth
      · rw [if_neg hflushes]
        rw [Bool.not_eq_true] at hflushes
        obtain ⟨ret, end₁, hstep, hsplit⟩ := h.isSplit.step_keeps h.length_eq hflushes
        obtain ⟨ret', end₂, hstep', hsplit'⟩ := h'.step_keeps hsize (by rwa [hlength])
        have hfits := JodieStep.length_of_keeps hflushes h.length_le
        have hcarries := h.push hsplit hfits
        have hflatten : (pending ++ step.line.toList).flatten = pending.flatten ++ step.text := by
          rw [List.flatten_append, step.flatten_line]
        rw [sameDatagrams_cons hstep hstep',
          ih hcarries hsplit' (by rw [hflatten, List.length_append, List.length_append, hlength])
            (by rw [List.length_append, List.length_drop]; omega) hsent₁, hflatten,
          List.length_append]
        refine forall_congr' fun j => imp_congr_right fun hj => ?_
        have hle := le_indexAtFlush hj
        rw [List.append_left_inj, List.getElem?_drop, List.length_append]
        have hindex : step.text.length + (j - (front'.length + step.text.length)) =
            j - front'.length := by omega
        rw [hindex]

/-! ## The duplicate of a reachable client -/

/-- What a written line leaves, whether a flush before it succeeded or not. -/
theorem Jodie.Carries.jodieStep {client client' : Jodie} {pending : List (List UInt8)}
    {step : JodieStep} {ret : Int} {datagram : Option (List UInt8)} (h : client.Carries pending)
    (hstep : jodieStep client step = .ok (ret, client', datagram)) :
    ∃ pending', client'.Carries pending' := by
  have hflush : ∀ {ret' : Int} {client₁ : Jodie} {datagram₁ : Option (List UInt8)} {sent : Bool},
      jodieFlush client sent = .ok (ret', client₁, datagram₁) →
        ∃ pending', client₁.Carries pending' := by
    intro ret' client₁ datagram₁ sent hr
    rw [jodieFlush_ok hr]
    cases sent with
    | true => exact ⟨[], .init⟩
    | false => exact ⟨pending, h⟩
  by_cases hcall : step.call = .flush
  · rw [Vmars.jodieStep, hcall] at hstep
    exact hflush hstep
  rw [jodieStep_log hcall] at hstep
  cases hline : step.line with
  | none =>
      rw [hline] at hstep
      cases hstep
      exact ⟨pending, h⟩
  | some text =>
      rw [hline] at hstep
      have htext : step.text = text := by rw [JodieStep.text, hline, Option.getD_some]
      have hwritten : ∀ {client₁ : Jodie} {datagram₁ : Option (List UInt8)}
          {pending₁ : List (List UInt8)}, client₁.Carries pending₁ →
          (do
            let sendBuffer ← copyTo client₁.sendBuffer client₁.sendIndex text
            .ok ((0 : Int), { sendIndex := client₁.sendIndex + text.length, sendBuffer : Jodie },
              datagram₁)) =
              (.ok (ret, client', datagram) : Checked (Int × Jodie × Option (List UInt8))) →
          ∃ pending', client'.Carries pending' := by
        intro client₁ datagram₁ pending₁ h₁ hwrite
        obtain ⟨sendBuffer, hcopy, hwrite⟩ := bind_eq_ok.mp hwrite
        cases hwrite
        have hfits : pending₁.flatten.length + text.length ≤ bufferSize := by
          unfold copyTo at hcopy
          split at hcopy
          · next hle =>
            rwa [h₁.isSplit.sendBuffer_eq, h₁.isSplit.sendIndex_eq, List.length_append,
              h₁.length_eq] at hle
          · cases hcopy
        have hsplit := @Jodie.IsSplit.write _ _ _ text h₁.isSplit
          (by rw [List.length_replicate]; omega)
        rw [hcopy] at hsplit
        refine ⟨_, @Jodie.Carries.push client₁ _ pending₁ step h₁ ?_ (by rwa [htext])⟩
        rw [htext]
        exact ⟨Except.ok.inj hsplit, by rw [List.length_append, h₁.isSplit.sendIndex_eq]⟩
      simp only [jodieAppend, sprintf, if_pos (lt_bufferSize (line_fits hline).2), ok_bind] at hstep
      split at hstep
      · obtain ⟨r, hr, hstep⟩ := bind_eq_ok.mp hstep
        obtain ⟨pending₁, h₁⟩ := hflush hr
        exact hwritten h₁ hstep
      · exact hwritten h hstep

/-- A client that is reached by calls carries lines, whatever could be sent. -/
theorem Jodie.Carries.jodieRun {client client' : Jodie} {pending : List (List UInt8)}
    {steps : List JodieStep} (h : client.Carries pending)
    (hrun : jodieRun client steps = .ok client') : ∃ pending', client'.Carries pending' := by
  induction steps generalizing client pending with
  | nil =>
      obtain rfl := Except.ok.inj hrun
      exact ⟨pending, h⟩
  | cons step steps ih =>
      obtain ⟨r, hstep, hrest⟩ := bind_eq_ok.mp hrun
      obtain ⟨pending', h'⟩ := h.jodieStep hstep
      exact ih h' hrest

/-- **A duplicated client.**  It sends the datagrams of its source exactly when
nothing is flushed, or the destination had the source's text in front of the index and
a NUL where the lines before the first flush end. -/
theorem jodieDup_iff {before steps : List JodieStep} {src dst : Jodie}
    (hsrc : jodieRun jodieInit before = .ok src) (hdst : dst.sendBuffer.length = bufferSize)
    (hsent : ∀ step ∈ steps, step.outside.sent = true) :
    SameDatagrams src (jodieDup src dst).2 steps ↔
      ∀ j, indexAtFlush src.sendIndex steps = some j →
        dst.sendBuffer.take src.sendIndex = src.sendBuffer.take src.sendIndex ∧
          dst.sendBuffer[j]? = some 0 := by
  obtain ⟨pending, h⟩ := Jodie.Carries.init.jodieRun hsrc
  have hindex := h.isSplit.sendIndex_eq
  have hle : src.sendIndex ≤ dst.sendBuffer.length := by
    rw [hdst, hindex]
    exact h.length_le
  have hfront : (dst.sendBuffer.take src.sendIndex).length = pending.flatten.length := by
    rw [List.length_take, Nat.min_eq_left hle, hindex]
  have hsplit : (jodieDup src dst).2.IsSplit (dst.sendBuffer.take src.sendIndex)
      (dst.sendBuffer.drop src.sendIndex) := by
    refine ⟨(List.take_append_drop ..).symm, ?_⟩
    rw [hfront]
    exact hindex
  have htext : src.sendBuffer.take src.sendIndex = pending.flatten := by
    rw [h.isSplit.sendBuffer_eq, hindex, List.take_left]
  have hiff := sameDatagrams_iff h hsplit hfront
    (by rw [List.length_take, List.length_drop, Nat.min_eq_left hle]; omega) hsent
  rw [hiff, ← hindex, htext]
  refine forall_congr' fun j => imp_congr_right fun hj => ?_
  have hafter := le_indexAtFlush hj
  rw [List.getElem?_drop, hfront, ← hindex, Nat.add_sub_cancel' hafter]

/-- A gauge with a datapath of one character. -/
def shortGauge : JodieStep where
  call := .logGauge (ascii "a") 1 1
  outside := { millis := 0, sent := true }

/-- A flush that is sent. -/
def flushStep : JodieStep where
  call := .flush
  outside := { millis := 0, sent := true }

/-- The client that logged the gauge. -/
def shortGaugeClient : Jodie where
  sendIndex := 17
  sendBuffer := ascii "a 1 1 type=gauge\n" ++ List.replicate 2031 0

/-- A client that was never initialised: its buffer starts with the same line, and a NUL stands
where the next line of that length will end. -/
def staleClient : Jodie where
  sendIndex := 5
  sendBuffer := ascii "a 1 1 type=gauge\n" ++ List.replicate 17 88 ++ List.replicate 2014 0

/-- The source has a line waiting, the destination holds its text: after another line both send
the two lines. -/
theorem jodieDup_iff_stale :
    SameDatagrams shortGaugeClient (jodieDup shortGaugeClient staleClient).2
      [shortGauge, flushStep] := by
  have hrun : jodieRun jodieInit [shortGauge] = .ok shortGaugeClient := by decide +kernel
  have hsent : ∀ step ∈ [shortGauge, flushStep], step.outside.sent = true :=
    List.forall_mem_cons.mpr ⟨rfl, List.forall_mem_singleton.mpr rfl⟩
  refine (jodieDup_iff hrun (by decide +kernel) hsent).mpr fun j hj => ?_
  have hindex : indexAtFlush shortGaugeClient.sendIndex [shortGauge, flushStep] = some 34 := by
    decide +kernel
  obtain rfl := Option.some.inj (hindex.symm.trans hj)
  constructor
  · decide +kernel
  · decide +kernel

/-- The source sends its line; the duplicate, whose buffer is clear, does not. -/
theorem not_sameDatagrams_logged :
    ¬ ∀ (before steps : List JodieStep) (src dst : Jodie), jodieRun jodieInit before = .ok src →
      dst.sendBuffer.length = bufferSize → (∀ step ∈ steps, step.outside.sent = true) →
      SameDatagrams src (jodieDup src dst).2 steps := by
  intro h
  have hrun : jodieRun jodieInit [shortGauge] = .ok shortGaugeClient := by decide +kernel
  obtain ⟨datagrams, end₁, end₂, hsource, hduplicate⟩ := h [shortGauge] [flushStep]
    shortGaugeClient jodieInit hrun (List.length_replicate ..) (List.forall_mem_singleton.mpr rfl)
  have hne : (jodieSession shortGaugeClient [flushStep]).map Prod.fst ≠
      (jodieSession (jodieDup shortGaugeClient jodieInit).2 [flushStep]).map Prod.fst := by
    decide +kernel
  rw [hsource, hduplicate] at hne
  exact hne rfl

end Vmars
