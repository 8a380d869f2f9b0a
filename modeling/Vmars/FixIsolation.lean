import Vmars.FixCapacity
import Vmars.FixCursor
import Vmars.FixReassembly
import Vmars.FixSimulation
import Vmars.KeyedMachine

/-!
# Isolation of streams

All streams share one table of fragments.  A call reads and writes the entry of
its own stream only, so a capture of many streams is a machine of independent
cells, one for each stream: whatever the interleaving, the events of a stream and
its fragment in the end are those of a capture of that stream alone.

This needs calls that stay inside their memory.  One that copies a long message
past the end of its fragment, or reads outside its packet, takes all streams with
it (`isolated_iff`).
-/

namespace Vmars

open CMemory Occurrence KeyedMachine

/-! ## A call looks at its own stream only -/

section InStep

variable {streamId : Ipv4Stream} {start₁ start₂ : CaptureContext (List FixMessageSummary)}

/-- Two contexts that have done the same for a stream since they were `start₁` and
`start₂`: its fragment is the same in both, the same events were appended, and
nothing has changed for the other streams of the first. -/
structure InStep (streamId : Ipv4Stream)
    (start₁ start₂ ctx₁ ctx₂ : CaptureContext (List FixMessageSummary)) : Prop where
  fragment : getFragment ctx₁ streamId = getFragment ctx₂ streamId
  others : ∀ other, other ≠ streamId → getFragment ctx₁ other = getFragment start₁ other
  events : ∃ caused, ctx₁.rb = start₁.rb ++ caused ∧ ctx₂.rb = start₂.rb ++ caused

/-- Contexts that agree on the stream start in step. -/
theorem inStep_start (h : getFragment start₁ streamId = getFragment start₂ streamId) :
    InStep streamId start₁ start₂ start₁ start₂ :=
  ⟨h, fun _ _ => rfl, [], (List.append_nil _).symm, (List.append_nil _).symm⟩

/-- What a call does to two contexts keeps them in step. -/
theorem inStep_simulation (start₁ start₂ : CaptureContext (List FixMessageSummary))
    (streamId : Ipv4Stream) : Simulation streamId (InStep streamId start₁ start₂) where
  fragment h := h.fragment
  storeFragment := by
    intro ctx₁ ctx₂ h s
    by_cases hfits : s.length ≤ fragmentCapacity
    · rw [storeFragment_eq hfits, storeFragment_eq hfits]
      refine .ok ⟨?_, fun other hother => ?_, h.events⟩
      · simp only [getFragment, Function.update_self]
      · rw [← h.others other hother]
        exact (storeFragment_ok (@storeFragment_eq _ ctx₁ streamId s hfits)).2.1 other hother
    · rw [storeFragment, dif_neg hfits, storeFragment, dif_neg hfits]
      exact .error _
  removeFragment := by
    intro ctx₁ ctx₂ h
    refine ⟨?_, fun other hother => ?_, ?_⟩
    · rw [getFragment_remove, getFragment_remove, if_pos rfl, if_pos rfl]
    · rw [getFragment_remove, if_neg hother, h.others other hother]
    · rw [removeFragment_rb, removeFragment_rb]
      exact h.events
  corrupt h := ⟨h.fragment, h.others, h.events⟩
  count h _ := ⟨h.fragment, h.others, h.events⟩
  accept h _ := ⟨h.fragment, h.others, h.events⟩
  publish := by
    intro ctx₁ ctx₂ h messageType summary
    obtain ⟨caused, hrb₁, hrb₂⟩ := h.events
    refine ⟨h.fragment, h.others, caused ++ [summary], ?_, ?_⟩
    · rw [← List.append_assoc, ← hrb₁]
      rfl
    · rw [← List.append_assoc, ← hrb₂]
      rfl

/-- **A call looks at its own stream only**: contexts that agree on the stream of the
packet stay in step, and they fail alike. -/
theorem vmarsExtractFixMessages_inStep {packet : Packet}
    (h : getFragment start₁ packet.streamId = getFragment start₂ packet.streamId) :
    Related (InStep packet.streamId start₁ start₂) (vmarsExtractFixMessages start₁ packet)
      (vmarsExtractFixMessages start₂ packet) :=
  (inStep_simulation start₁ start₂ packet.streamId).extract (inStep_start h)

end InStep

/-! ## A capture is a machine of independent streams -/

/-- A context with the fragment of one stream and nothing else. -/
def streamContext (streamId : Ipv4Stream) (fragment : Option Fragment) :
    CaptureContext (List FixMessageSummary) :=
  { rb := [], state := some (Function.update (fun _ => none) streamId fragment) }

/-- The fragment of a stream and the events behind a call; a call that does not return
leaves the fragment. -/
def cellAfter (streamId : Ipv4Stream) (fragment : Option Fragment) :
    Checked (CaptureContext (List FixMessageSummary)) → Option Fragment × List FixMessageSummary
  | .ok ctx => (getFragment ctx streamId, ctx.rb)
  | .error _ => (fragment, [])

/-- What a packet makes of the fragment of its stream, and the events it causes. -/
def streamStep (fragment : Option Fragment) (packet : Packet) :
    Option Fragment × List FixMessageSummary :=
  cellAfter packet.streamId fragment
    (vmarsExtractFixMessages (streamContext packet.streamId fragment) packet)

/-- The capture with a cell for the fragment of each stream. -/
def captureMachine : Machine Ipv4Stream Packet (Option Fragment) FixMessageSummary where
  key := Packet.streamId
  step := streamStep

/-- The packets of a stream. -/
def ofStream (streamId : Ipv4Stream) (packets : List Packet) : List Packet :=
  packets.filter fun packet => packet.streamId = streamId

/-- The events that the packets of a stream cause in a capture of all packets. -/
def eventsOf (streamId : Ipv4Stream) :
    CaptureContext (List FixMessageSummary) → List Packet → List FixMessageSummary
  | _, [] => []
  | ctx, packet :: packets =>
      (vmarsExtractFixMessages ctx packet).toOption.elim [] fun ctx' =>
        (if packet.streamId = streamId then ctx'.rb.drop ctx.rb.length else []) ++
          eventsOf streamId ctx' packets

section Run

variable {ctx ctx' : CaptureContext (List FixMessageSummary)} {packet : Packet}
  {packets : List Packet} {streamId : Ipv4Stream}

/-- The context of a stream has its fragment. -/
theorem getFragment_streamContext (streamId : Ipv4Stream) (fragment : Option Fragment) :
    getFragment (streamContext streamId fragment) streamId = fragment := by
  unfold getFragment streamContext
  exact Function.update_self ..

theorem captureMachine_key : captureMachine.key = Packet.streamId := by rw [captureMachine]

theorem captureMachine_step : captureMachine.step = streamStep := by rw [captureMachine]

/-- A call that returns leaves its fragment and its events. -/
theorem streamStep_ok {fragment : Option Fragment} {own : CaptureContext (List FixMessageSummary)}
    (h : vmarsExtractFixMessages (streamContext packet.streamId fragment) packet = .ok own) :
    streamStep fragment packet = (getFragment own packet.streamId, own.rb) := by
  rw [streamStep, h]
  rfl

/-- **A call is a step of the machine** on the fragment of its stream. -/
theorem vmarsExtractFixMessages_step (h : vmarsExtractFixMessages ctx packet = .ok ctx') :
    getFragment ctx' = captureMachine.next (getFragment ctx) packet ∧
      ctx'.rb = ctx.rb ++ (captureMachine.step (getFragment ctx packet.streamId) packet).2 := by
  have hagree : getFragment ctx packet.streamId =
      getFragment (streamContext packet.streamId (getFragment ctx packet.streamId))
        packet.streamId := (getFragment_streamContext ..).symm
  obtain ⟨own, hown, hfragment, hothers, caused, hrb, hownRb⟩ :=
    (vmarsExtractFixMessages_inStep hagree).ok_right h
  have hstep : captureMachine.step (getFragment ctx packet.streamId) packet =
      (getFragment own packet.streamId, own.rb) := by
    rw [captureMachine_step, streamStep_ok hown]
  constructor
  · funext other
    by_cases hother : other = packet.streamId
    · subst hother
      rw [hfragment]
      have hself := captureMachine.next_self (getFragment ctx) packet
      rw [captureMachine_key, hstep] at hself
      exact hself.symm
    · rw [hothers other hother]
      exact (captureMachine.next_of_ne (getFragment ctx) (Ne.symm hother)).symm
  · rw [hstep, hrb, hownRb]
    rfl

/-- A capture that returns is a run of the machine. -/
theorem extractAll_run (h : extractAll ctx packets = .ok ctx') :
    getFragment ctx' = (captureMachine.run (getFragment ctx) packets).1 ∧
      ctx'.rb = ctx.rb ++ (captureMachine.run (getFragment ctx) packets).2.map Prod.snd := by
  induction packets generalizing ctx with
  | nil =>
      obtain rfl := Except.ok.inj h
      rw [Machine.run_nil, List.map_nil, List.append_nil]
      exact ⟨rfl, rfl⟩
  | cons packet packets ih =>
      obtain ⟨ctx₁, hcall, hrest⟩ := bind_eq_ok.mp h
      obtain ⟨hfragments, hrb⟩ := vmarsExtractFixMessages_step hcall
      obtain ⟨hfragments', hrb'⟩ := ih hrest
      rw [hfragments] at hfragments' hrb'
      rw [Machine.run]
      refine ⟨hfragments', ?_⟩
      rw [hrb', hrb, List.append_assoc, List.map_append, Machine.emitted_snd, captureMachine_key]

/-- The events of a stream, packet after packet. -/
theorem eventsOf_cons (h : vmarsExtractFixMessages ctx packet = .ok ctx') :
    eventsOf streamId ctx (packet :: packets) =
      (if packet.streamId = streamId then ctx'.rb.drop ctx.rb.length else []) ++
        eventsOf streamId ctx' packets := by
  rw [eventsOf, h]
  rfl

/-- The events of a stream are the outputs of the machine under it. -/
theorem eventsOf_run (h : extractAll ctx packets = .ok ctx') :
    eventsOf streamId ctx packets =
      (outputsOf streamId (captureMachine.run (getFragment ctx) packets).2).map Prod.snd := by
  induction packets generalizing ctx with
  | nil => rfl
  | cons packet packets ih =>
      obtain ⟨ctx₁, hcall, hrest⟩ := bind_eq_ok.mp h
      obtain ⟨hfragments, hrb⟩ := vmarsExtractFixMessages_step hcall
      have hsplit : outputsOf streamId
          (captureMachine.run (getFragment ctx) (packet :: packets)).2 =
          outputsOf streamId (captureMachine.emitted (getFragment ctx) packet) ++
            outputsOf streamId (captureMachine.run (getFragment ctx₁) packets).2 := by
        rw [hfragments]
        exact List.filter_append ..
      have hkey : captureMachine.key packet = packet.streamId := by rw [captureMachine_key]
      rw [hsplit, captureMachine.outputsOf_emitted, List.map_append, ← ih hrest,
        eventsOf_cons hcall]
      by_cases hstream : packet.streamId = streamId
      · rw [if_pos hstream, if_pos (hkey.trans hstream), hrb, List.drop_left, Machine.emitted_snd,
          hkey]
      · rw [if_neg hstream, if_neg (hkey ▸ hstream), List.map_nil]

end Run

/-! ## The condition -/

/-- The round for the message at `c`, with `br` bytes remaining, stays inside its memory:
the search and the parser read bytes of the packet, and a message that is too short
fits into a fragment. -/
structure RoundInside (data : List UInt8) (c br : Nat) : Prop where
  search : ∃ next, searchNext data c br = .ok next
  parse : ∃ run details, vmarsFixParseMsg (data.drop c) (messageLength (data.drop c) br) 0 =
    .ok run ∧ collect (data.drop c) run.calls {} = .ok details
  copy : TooShort (data.drop c) (messageLength (data.drop c) br) →
    messageLength (data.drop c) br ≤ fragmentCapacity ∧
      ∃ s, strncpy (data.drop c) (messageLength (data.drop c) br) = .ok s

/-- The rounds from the message at `c` on do, and what the last one leaves fits into a
fragment. -/
inductive RoundsInside (data : List UInt8) : Nat → Nat → Prop where
  | last {c br : Nat} (hround : RoundInside data c br) (hnext : nextMarker (data.drop c) = none)
      (hleft : ∀ n, Consumed (data.drop c) br n → br - n ≤ fragmentCapacity) :
      RoundsInside data c br
  | cons {c br k : Nat} (hround : RoundInside data c br)
      (hnext : nextMarker (data.drop c) = some k)
      (rest : ∀ n, Consumed (data.drop c) k n → RoundsInside data (c + k) (br - n)) :
      RoundsInside data c br

/-- **The condition** on a packet and the fragment that its call finds. -/
def CallInside (fragment : Option Fragment) (data : List UInt8) : Prop :=
  match firstOccurrence marker data with
  | none => LeadInRange fragment data
  | some c => (c ≠ 0 → LeadInRange fragment (data.take c)) ∧ RoundsInside data c (data.length - c)

/-- While no gap was met, a round stays inside its memory exactly when BodyLength is in
range and a message that is too short fits into a fragment. -/
theorem roundInside_iff {data : List UInt8} {c br : Nat} (hc : OccursAt marker data c)
    (hexact : c + br = data.length) (hmax : data.length + marker.length ≤ intMax) :
    RoundInside data c br ↔
      BodyLengthInRange ((data.drop c).take (messageLength (data.drop c) br)) ∧
        (TooShort (data.drop c) (messageLength (data.drop c) br) →
          messageLength (data.drop c) br ≤ fragmentCapacity) := by
  have hbr : messageLength (data.drop c) br ≤ (data.drop c).length := by
    have := @messageLength_le data c br (by omega)
    rw [List.length_drop]
    omega
  rw [← parse_isOk_iff hbr]
  constructor
  · intro h
    obtain ⟨run, -, hrun, -⟩ := h.parse
    exact ⟨⟨run, hrun⟩, fun hshort => (h.copy hshort).1⟩
  · rintro ⟨⟨run, hrun⟩, hfits⟩
    obtain ⟨details, hdetails⟩ := collect_of_parse hbr hrun
    have hsearch := @searchNext_isOk ⟨⟨0, 0, 0, 0⟩, 0, 0, data, hmax⟩ c br hc hexact
    exact ⟨hsearch, ⟨run, details, hrun, hdetails⟩, fun hshort =>
      ⟨hfits hshort, _, strncpy_take hbr⟩⟩

/-- While no gap was met, a round that fits copies what the parser on the message alone finds
too short. -/
theorem RoundFits.copy_le {data : List UInt8} {c br : Nat} {next : Option Nat} {run : ParseRun}
    (round : RoundFits data c br next run)
    (hnext : next = (nextMarker (data.drop c)).map (c + ·))
    (hshort : TooShort (data.drop c) (messageLength (data.drop c) br)) :
    messageLength (data.drop c) br ≤ fragmentCapacity := by
  obtain ⟨run', hrun, hresult⟩ := hshort
  have hlen := fixMessageLen_nextMarker data c br
  obtain ⟨-, hparse, hcopy⟩ := round
  rw [hnext, hlen] at hparse hcopy
  have hsame := (vmarsFixParseMsg_extends data c _ 0).eq_ok hrun
  rw [hparse, Except.ok.injEq] at hsame
  subst hsame
  have hle := (hcopy hresult).2
  omega

/-- What the parser on the message alone consumes is what it consumes in the packet. -/
theorem RoundFits.consumed_eq {data : List UInt8} {c br n : Nat} {next : Option Nat}
    {run : ParseRun} (round : RoundFits data c br next run)
    (hnext : next = (nextMarker (data.drop c)).map (c + ·))
    (hconsumed : Consumed (data.drop c) (messageLength (data.drop c) br) n) :
    run.ret.bytesConsumed = n := by
  obtain ⟨run', hrun, hn⟩ := hconsumed
  have hlen := fixMessageLen_nextMarker data c br
  have hparse := round.parse
  rw [hnext, hlen] at hparse
  have hsame := (vmarsFixParseMsg_extends data c _ 0).eq_ok hrun
  rw [hparse, Except.ok.injEq] at hsame
  rw [hsame, hn]

/-- While no gap is met, the rounds of a packet whose copies fit stay inside. -/
theorem roundsInside_of_kept {packet : Packet} {c br : Nat} (hc : OccursAt marker packet.data c)
    (hexact : c + br = packet.data.length)
    (hrange : ∀ c len, OccursAt marker packet.data c →
      BodyLengthInRange ((packet.data.drop c).take len))
    (hkept : CursorKept (packet.data.drop c)) (hfit : FragmentsFit packet.data c br) :
    RoundsInside packet.data c br := by
  have hmax := packet.length_le
  unfold intMax at hmax
  induction hn : br using Nat.strongRecOn generalizing c br with
  | ind _ ih =>
      subst hn
      have hround : ∀ {next run}, RoundFits packet.data c br next run →
          next = (nextMarker (packet.data.drop c)).map (c + ·) ∧ RoundInside packet.data c br := by
        intro next run round
        have hnext := searchNext_ok (by omega) (by omega) round.search
        exact ⟨hnext, (roundInside_iff hc hexact packet.length_le).mpr
          ⟨hrange c _ hc, round.copy_le hnext⟩⟩
      have hlength : ∀ {n : Nat}, n ≤ br → wrap32 ((br : Int) - n) = (br - n : Nat) := by
        intro n hle
        rw [wrap32_of_range (by omega) (by omega)]
        omega
      cases hfit with
      | last round hleft =>
          obtain ⟨hnext, hinside⟩ := hround round
          have hnone : nextMarker (packet.data.drop c) = none :=
            Option.map_eq_none_iff.mp hnext.symm
          refine .last hinside hnone fun n hconsumed => ?_
          have hle := hconsumed.le
          have hmessage : messageLength (packet.data.drop c) br = br := by
            rw [messageLength, hnone]
            rfl
          rw [round.consumed_eq hnext (by rwa [hmessage]), hlength hle] at hleft
          omega
      | cons round rest =>
          obtain ⟨hnext, hinside⟩ := hround round
          obtain ⟨k, hsome, rfl⟩ := Option.map_eq_some_iff.mp hnext.symm
          refine .cons hinside hsome fun n hconsumed => ?_
          obtain ⟨hk, hocc, hroom⟩ := nextMarker_drop hsome
          cases hkept with
          | last hnone _ => rw [hsome] at hnone; cases hnone
          | cons hsome' hwhole hkept =>
              rw [hsome, Option.some.injEq] at hsome'
              subst hsome'
              obtain rfl := hwhole n hconsumed
              have hmessage : messageLength (packet.data.drop c) br = n := by
                rw [messageLength, hsome]
                rfl
              have hkept := hkept (fun hshort => by
                have hle := round.copy_le hnext (by rwa [hmessage])
                rwa [hmessage] at hle) hconsumed
              rw [round.consumed_eq hnext (by rwa [hmessage]), hlength (by omega)] at rest
              rw [List.drop_drop] at hkept
              exact ih _ (by omega) hocc (by omega) hkept rest rfl

/-- Packets without a gap, whose BodyLengths are in range and whose copies fit, meet the
condition. -/
theorem callInside_of_noGap {packet : Packet} {fragment : Option Fragment}
    (hlead : firstOccurrence marker packet.data ≠ some 0 → LeadInRange fragment
      (packet.data.take ((firstOccurrence marker packet.data).getD packet.data.length)))
    (hrange : ∀ c len, OccursAt marker packet.data c →
      BodyLengthInRange ((packet.data.drop c).take len))
    (hgap : NoGap fragment packet.data) (hfit : CopiesFit packet.data) :
    CallInside fragment packet.data := by
  unfold CallInside
  cases hfirst : firstOccurrence marker packet.data with
  | none =>
      rw [hfirst, Option.getD_none, List.take_length] at hlead
      exact hlead fun h => by cases h
  | some c =>
      have hc := ((firstOccurrence_eq_some marker_ne_nil).mp hfirst).1
      have hroom := hc.length_le marker_ne_nil
      rw [hfirst, Option.getD_some] at hlead
      have hbefore : c ≠ 0 → LeadInRange fragment (packet.data.take c) := fun hne =>
        hlead fun h => hne (Option.some.inj h)
      exact ⟨hbefore, roundsInside_of_kept hc (by omega) hrange (hgap c hfirst hbefore)
        (hfit c hfirst)⟩

section Calls

variable {R : Type} [RingBuffer R] {packet : Packet} {ctx : CaptureContext R}

/-- **A round returns exactly when it stays inside its memory.** -/
theorem extractRound_isOk_iff {c br : Nat} (hlo : packet.data.length ≤ c + br)
    (hhi : br ≤ packet.data.length) (hc : c ≤ packet.data.length) :
    (∃ round, extractRound packet ctx c br = .ok round) ↔ RoundInside packet.data c br := by
  constructor
  · rintro ⟨⟨ctx', next, bufRemaining⟩, hround⟩
    obtain ⟨message, run, details, hsearch, hmessage, hrun, hdetails, -, -⟩ :=
      extractRound_ok hround
    obtain ⟨n, -, -, -, -, houtcome⟩ := extractRound_rounds hround hlo hhi
    obtain ⟨-, rfl⟩ := pointerAt_eq_ok hmessage
    have hnext := searchNext_ok hlo hhi hsearch
    rw [hnext, fixMessageLen_nextMarker] at hrun
    refine ⟨⟨_, hsearch⟩, ⟨run, details, hrun, hdetails⟩, fun hshort => ⟨houtcome.fits hshort, ?_⟩⟩
    cases houtcome with
    | accepted h => exact (h.not_tooShort hshort).elim
    | tooShort _ _ _ hcopy _ => exact ⟨_, hcopy⟩
    | failed h => exact (hshort.not_fails h).elim
  · intro h
    obtain ⟨run, details, hrun, hdetails⟩ := h.parse
    apply extractRound_returns hlo hhi hc h.search hrun hdetails
    intro hshort ctx₁
    obtain ⟨hfits, s, hcopy⟩ := h.copy ⟨run, hrun, hshort⟩
    rw [putFragment, if_pos ⟨Int.natCast_nonneg _, by omega⟩, Int.toNat_natCast, hcopy, ok_bind,
      storeFragment_eq (by rw [strncpy_length hcopy]; exact hfits)]
    exact ⟨_, rfl⟩

omit [RingBuffer R] in
/-- What is left is stored exactly when it fits. -/
theorem storeLeftover_isOk_iff {left : Nat} (hle : left ≤ packet.data.length) :
    (∃ ctx', storeLeftover packet ctx left = .ok ctx') ↔ left ≤ fragmentCapacity := by
  constructor
  · rintro ⟨ctx', h⟩
    obtain ⟨-, -, hfragment⟩ := storeLeftover_ok hle h
    by_cases hzero : left = 0
    · omega
    · rw [if_neg hzero] at hfragment
      have hfits := fragmentBytes_length_le hfragment
      rw [ncopy_length, List.length_drop] at hfits
      omega
  · intro hfits
    unfold storeLeftover
    split
    · have hwhere : (packet.data.length : Int) - (left : Nat) =
          (packet.data.length - left : Nat) := by
        omega
      rw [hwhere, pointerAt_natCast (by omega), ok_bind]
      exact putFragment_isOk (by rw [List.length_drop]; omega) hfits
    · exact ⟨ctx, rfl⟩

/-- The loop, and what it leaves, return exactly when the rounds stay inside their
memory. -/
theorem extractLoop_isOk_iff {fuel c br : Nat} (hlo : packet.data.length ≤ c + br)
    (hhi : br ≤ packet.data.length) (hc : OccursAt marker packet.data c)
    (hfuel : packet.data.length < fuel + c) :
    (∃ ctx₁ left ctx', extractLoop packet fuel ctx (some c) br = .ok (ctx₁, left) ∧
        storeLeftover packet ctx₁ left = .ok ctx') ↔ RoundsInside packet.data c br := by
  induction fuel generalizing ctx c br with
  | zero =>
      have hroom := hc.length_le marker_ne_nil
      omega
  | succ fuel ih =>
      have hroom := hc.length_le marker_ne_nil
      constructor
      · rintro ⟨ctx₁, left, ctx', hloop, hstore⟩
        obtain ⟨⟨ctx₂, next, bufRemaining⟩, hround, hrest⟩ := bind_eq_ok.mp hloop
        have hinside := (extractRound_isOk_iff hlo hhi (by omega)).mp ⟨_, hround⟩
        obtain ⟨n, rfl, hn, hlen, rfl, houtcome⟩ := extractRound_rounds hround hlo hhi
        have hconsumed := houtcome.consumed
        cases hnext : nextMarker (packet.data.drop c) with
        | none =>
            rw [messageLength, hnext, Option.getD_none] at hconsumed
            simp only [hnext, Option.map_none, extractLoop, Except.ok.injEq, Prod.mk.injEq] at hrest
            obtain ⟨rfl, rfl⟩ := hrest
            refine .last hinside hnext fun m hm => ?_
            obtain rfl := hm.unique hconsumed
            exact (storeLeftover_isOk_iff (by omega)).mp ⟨ctx', hstore⟩
        | some k =>
            obtain ⟨hk, hocc, -⟩ := nextMarker_drop hnext
            rw [messageLength, hnext, Option.getD_some] at hconsumed hn hlen
            rw [hnext, Option.map_some] at hrest
            refine .cons hinside hnext fun m hm => ?_
            obtain rfl := hm.unique hconsumed
            exact (ih (by omega) (by omega) hocc (by omega)).mp ⟨ctx₁, left, ctx', hrest, hstore⟩
      · intro hinside
        have hround : RoundInside packet.data c br := by
          cases hinside with
          | last hround _ _ => exact hround
          | cons hround _ _ => exact hround
        obtain ⟨⟨ctx₁, next, bufRemaining⟩, hcall⟩ :=
          (@extractRound_isOk_iff _ _ _ ctx _ _ hlo hhi (by omega)).mpr hround
        obtain ⟨n, rfl, hn, hlen, rfl, houtcome⟩ := extractRound_rounds hcall hlo hhi
        have hconsumed := houtcome.consumed
        cases hinside with
        | last _ hnext hleft =>
            rw [messageLength, hnext, Option.getD_none] at hconsumed
            obtain ⟨ctx', hstore⟩ := (@storeLeftover_isOk_iff _ packet ctx₁ (br - n) (by omega)).mpr
              (hleft n hconsumed)
            refine ⟨ctx₁, _, ctx', ?_, hstore⟩
            rw [extractLoop, hcall, ok_bind, hnext]
            cases fuel <;> rfl
        | @cons _ _ k _ hnext hrest =>
            obtain ⟨hk, hocc, -⟩ := nextMarker_drop hnext
            rw [messageLength, hnext, Option.getD_some] at hconsumed hn hlen
            obtain ⟨ctx₂, left, ctx', hloop, hstore⟩ :=
              (@ih ctx₁ _ _ (by omega) (by omega) hocc (by omega)).mpr (hrest n hconsumed)
            refine ⟨ctx₂, left, ctx', ?_, hstore⟩
            rw [extractLoop, hcall, ok_bind, hnext, Option.map_some]
            exact hloop

/-- From a marker on. -/
theorem finishPacket_isOk_iff {c : Nat} (hc : OccursAt marker packet.data c) :
    (∃ ctx', finishPacket packet ctx (some c) (packet.data.length - c : Nat) = .ok ctx') ↔
      RoundsInside packet.data c (packet.data.length - c) := by
  have hroom := hc.length_le marker_ne_nil
  rw [← @extractLoop_isOk_iff _ _ packet ctx (packet.data.length + 1) c _ (by omega) (by omega) hc
    (by omega)]
  constructor
  · rintro ⟨ctx', h⟩
    obtain ⟨⟨ctx₁, left⟩, hloop, hstore⟩ := bind_eq_ok.mp h
    exact ⟨ctx₁, left, ctx', hloop, hstore⟩
  · rintro ⟨ctx₁, left, ctx', hloop, hstore⟩
    exact ⟨ctx', bind_eq_ok.mpr ⟨(ctx₁, left), hloop, hstore⟩⟩

/-- A call returns exactly when it stays inside its memory. -/
theorem vmarsExtractFixMessages_isOk_iff :
    (∃ ctx', vmarsExtractFixMessages ctx packet = .ok ctx') ↔
      CallInside (getFragment ctx packet.streamId) packet.data := by
  unfold CallInside
  cases hfirst : firstOccurrence marker packet.data with
  | none =>
      have hlead := @leadingFragment_isOk_iff _ _ packet ctx packet.data.length (Nat.le_refl _)
      rw [List.take_length] at hlead
      rw [← hlead, extract_of_lead hfirst (fun h => by cases h), Option.getD_none, Nat.sub_self]
      constructor
      · rintro ⟨ctx', h⟩
        obtain ⟨ctx₁, hlead, -⟩ := bind_eq_ok.mp h
        exact ⟨ctx₁, hlead⟩
      · rintro ⟨ctx₁, hlead⟩
        exact ⟨ctx₁, bind_eq_ok.mpr ⟨ctx₁, hlead, rfl⟩⟩
  | some c =>
      have hc := ((firstOccurrence_eq_some marker_ne_nil).mp hfirst).1
      have hroom := hc.length_le marker_ne_nil
      simp only
      by_cases hzero : c = 0
      · subst hzero
        rw [extract_of_marker (occursAt_zero.mp hc)]
        exact (finishPacket_isOk_iff hc).trans ⟨fun h => ⟨fun hne => (hne rfl).elim, h⟩, And.right⟩
      · rw [extract_of_lead hfirst fun h => hzero (Option.some.inj h), Option.getD_some]
        constructor
        · rintro ⟨ctx', h⟩
          obtain ⟨ctx₁, hlead, hrest⟩ := bind_eq_ok.mp h
          exact ⟨fun _ => (leadingFragment_isOk_iff (by omega)).mp ⟨ctx₁, hlead⟩,
            (finishPacket_isOk_iff hc).mp ⟨ctx', hrest⟩⟩
        · rintro ⟨hlead, hrounds⟩
          obtain ⟨ctx₁, hlead⟩ :=
            (@leadingFragment_isOk_iff _ _ _ ctx _ (by omega)).mpr (hlead hzero)
          obtain ⟨ctx', hrest⟩ := (@finishPacket_isOk_iff _ _ _ ctx₁ _ hc).mpr hrounds
          exact ⟨ctx', bind_eq_ok.mpr ⟨ctx₁, hlead, hrest⟩⟩

end Calls

/-! ## Isolation -/

/-- Every call of the capture meets the condition, with the fragment it finds. -/
def CallsInside : CaptureContext (List FixMessageSummary) → List Packet → Prop
  | _, [] => True
  | ctx, packet :: packets =>
      CallInside (getFragment ctx packet.streamId) packet.data ∧
        ∀ ctx', vmarsExtractFixMessages ctx packet = .ok ctx' → CallsInside ctx' packets

/-- The capture returns, and for every stream so does the capture of its own packets:
with the events that its packets cause in the whole capture, and with the fragment
that the whole capture leaves. -/
def Isolated (ctx : CaptureContext (List FixMessageSummary)) (packets : List Packet) : Prop :=
  ∃ ctx', extractAll ctx packets = .ok ctx' ∧
    ∀ streamId, ∃ own, extractAll ctx (ofStream streamId packets) = .ok own ∧
      own.rb = ctx.rb ++ eventsOf streamId ctx packets ∧
      getFragment own streamId = getFragment ctx' streamId

section Isolation

variable {ctx ctx' ctx₁ : CaptureContext (List FixMessageSummary)} {packets : List Packet}
  {streamId : Ipv4Stream}

/-- A capture returns exactly when all of its calls stay inside their memory. -/
theorem extractAll_isOk_iff :
    (∃ ctx', extractAll ctx packets = .ok ctx') ↔ CallsInside ctx packets := by
  induction packets generalizing ctx with
  | nil => exact ⟨fun _ => trivial, fun _ => ⟨ctx, rfl⟩⟩
  | cons packet packets ih =>
      constructor
      · rintro ⟨ctx', h⟩
        obtain ⟨ctx₁, hcall, hrest⟩ := bind_eq_ok.mp h
        refine ⟨vmarsExtractFixMessages_isOk_iff.mp ⟨ctx₁, hcall⟩, fun ctx₂ hcall₂ => ?_⟩
        rw [hcall] at hcall₂
        obtain rfl := Except.ok.inj hcall₂
        exact ih.mp ⟨ctx', hrest⟩
      · rintro ⟨hinside, hrest⟩
        obtain ⟨ctx₁, hcall⟩ := vmarsExtractFixMessages_isOk_iff.mpr hinside
        obtain ⟨ctx', hrun⟩ := ih.mpr (hrest ctx₁ hcall)
        exact ⟨ctx', bind_eq_ok.mpr ⟨ctx₁, hcall, hrun⟩⟩

/-- The packets of a stream meet the condition also without the others. -/
theorem CallsInside.ofStream (h : CallsInside ctx packets)
    (hagree : getFragment ctx streamId = getFragment ctx₁ streamId) :
    CallsInside ctx₁ (ofStream streamId packets) := by
  induction packets generalizing ctx ctx₁ with
  | nil => trivial
  | cons packet packets ih =>
      obtain ⟨hinside, hrest⟩ := h
      obtain ⟨ctx', hcall⟩ := vmarsExtractFixMessages_isOk_iff.mpr hinside
      by_cases hstream : packet.streamId = streamId
      · subst hstream
        have hof : Vmars.ofStream packet.streamId (packet :: packets) =
            packet :: Vmars.ofStream packet.streamId packets :=
          List.filter_cons_of_pos (by simp)
        rw [hof]
        refine ⟨hagree ▸ hinside, fun own hown => ih (hrest ctx' hcall) ?_⟩
        obtain ⟨own', hown', hsame⟩ := (vmarsExtractFixMessages_inStep hagree).ok_right hcall
        rw [hown] at hown'
        obtain rfl := Except.ok.inj hown'
        exact hsame.fragment
      · have hof : Vmars.ofStream streamId (packet :: packets) = Vmars.ofStream streamId packets :=
          List.filter_cons_of_neg (by simpa using hstream)
        rw [hof]
        apply ih (hrest ctx' hcall)
        rw [(vmarsExtractFixMessages_step hcall).1,
          captureMachine.next_of_ne _ (by rw [captureMachine_key]; exact hstream), hagree]

/-- What the whole capture and that of one stream have in common. -/
theorem extractAll_ofStream (h : extractAll ctx packets = .ok ctx')
    (hown : extractAll ctx (ofStream streamId packets) = .ok ctx₁) :
    ctx₁.rb = ctx.rb ++ eventsOf streamId ctx packets ∧
      getFragment ctx₁ streamId = getFragment ctx' streamId := by
  have hof : captureMachine.of streamId packets = ofStream streamId packets := by
    rw [Machine.of, captureMachine_key]
    rfl
  have hkey : ∀ packet ∈ ofStream streamId packets, captureMachine.key packet = streamId := by
    intro packet hpacket
    rw [← hof] at hpacket
    exact (captureMachine.mem_of.mp hpacket).2
  have hofof : captureMachine.of streamId (ofStream streamId packets) = ofStream streamId packets :=
    List.filter_eq_self.mpr fun packet hpacket => decide_eq_true (hkey packet hpacket)
  obtain ⟨hfragments, -⟩ := extractAll_run h
  obtain ⟨hownFragments, hownRb⟩ := extractAll_run hown
  constructor
  · rw [hownRb, eventsOf_run h, captureMachine.run_outputs, hof, captureMachine.run_single hkey]
  · rw [hfragments, hownFragments, captureMachine.run_cell, captureMachine.run_cell, hof, hofof]

/-- **Isolation**: a capture of many streams is isolated exactly when every call stays
inside its memory. -/
theorem isolated_iff : Isolated ctx packets ↔ CallsInside ctx packets := by
  constructor
  · rintro ⟨ctx', hrun, -⟩
    exact extractAll_isOk_iff.mp ⟨ctx', hrun⟩
  · intro hinside
    obtain ⟨ctx', hrun⟩ := extractAll_isOk_iff.mpr hinside
    refine ⟨ctx', hrun, fun streamId => ?_⟩
    obtain ⟨own, hown⟩ := extractAll_isOk_iff.mpr (@CallsInside.ofStream _ _ _ streamId hinside rfl)
    obtain ⟨hevents, hfragment⟩ := extractAll_ofStream hrun hown
    exact ⟨own, hown, hevents, hfragment⟩

end Isolation

/-- A stream to another port. -/
def otherStream : Ipv4Stream := { exampleStream with dport := 1 }

/-- An incomplete message longer than a fragment, and an order on another stream. -/
def longStartAndOrder : List Packet :=
  [longStartPacket, ⟨otherStream, 1, 3, newOrderExample.encode, newOrderExample_fits⟩]

/-- Alone, the second stream causes the event of its order. -/
theorem not_isolated_longStart :
    ((extractAll { rb := ([] : List FixMessageSummary) }
      (ofStream otherStream longStartAndOrder)).map fun own => own.rb.length) = .ok 1 ∧
      ¬ Isolated { rb := [] } longStartAndOrder := by
  constructor
  · decide +kernel
  · rintro ⟨ctx', hrun, -⟩
    rw [longStartAndOrder, extractAll, extract_longStart] at hrun
    cases hrun

end Vmars
