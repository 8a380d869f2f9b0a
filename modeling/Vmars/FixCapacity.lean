import Vmars.FixPacketReads
import Vmars.FixRounds

/-!
# The capacity of a fragment

`put_fragment` copies without a look at the capacity; only the append of leading
bytes is guarded.  A packet whose too-short messages and whose leftover are no
longer than a fragment makes no copy past an allocation, whatever is stored and
whatever the other packets were (`extractAll_inside`).  This is said of the extraction that has
the bytes in front of a message in sight: a negative BodyLength leaves more bytes than there
are, which are copied too.  A capture that returns has no other packets
(`copiesFit_of_extractAll`).

Everything else that a call does only reads: one lemma for each function of the
parser and its callbacks.
-/

namespace Vmars

open CMemory Occurrence

/-! ## What only reads -/

section Parser

variable {buf : List UInt8}

theorem psadbw_noOverflow {n pointer : Nat} : NoOverflow (psadbw buf n pointer) := by
  induction n generalizing pointer with
  | zero => exact noOverflow_ok _
  | succ n ih =>
      exact readAt_noOverflow.bind fun _ _ => ih.bind fun _ _ => noOverflow_ok _

/-- The loop over the blocks, by induction on their number. -/
theorem checksumBlocks_noOverflow {ii pointer : Nat} {sum : Int} :
    NoOverflow (checksumBlocks buf ii pointer sum) := by
  induction ii generalizing pointer sum with
  | zero => exact noOverflow_ok _
  | succ ii ih => exact psadbw_noOverflow.bind fun _ _ => ih

/-- The loop over the last bytes. -/
theorem checksumTail_noOverflow {n : Nat} {ii sum : Int} :
    NoOverflow (checksumTail buf n ii sum) := by
  induction n generalizing ii sum with
  | zero => exact noOverflow_ok _
  | succ n ih => exact readAt_noOverflow.bind fun _ _ => ih

theorem calculateChecksum_noOverflow {bufLen : Int} : NoOverflow (calculateChecksum buf bufLen) :=
  checksumBlocks_noOverflow.bind fun _ _ => checksumTail_noOverflow.bind fun _ _ => noOverflow_ok _

theorem suppliedChecksum_noOverflow {expected : Int} :
    NoOverflow (suppliedChecksum buf expected) :=
  readAt_noOverflow.bind fun _ _ => readAt_noOverflow.bind fun _ _ =>
    readAt_noOverflow.bind fun _ _ => noOverflow_ok _

/-- The comparison with a header, by induction on the header. -/
theorem strncmpEq_noOverflow {header : List UInt8} {i : Nat} :
    NoOverflow (strncmpEq buf header i) := by
  induction header generalizing i with
  | nil => exact noOverflow_ok _
  | cons c cs ih =>
      refine readAt_noOverflow.bind fun b _ => ?_
      split
      · exact ih
      · exact noOverflow_ok _

/-- The scan of a number, by induction on its fuel. -/
theorem numberLoop_noOverflow {terminator : UInt8} {n position : Nat} {number : Int} :
    NoOverflow (numberLoop terminator buf n position number) := by
  induction n generalizing position number with
  | zero => exact noOverflow_ok _
  | succ n ih =>
      refine readAt_noOverflow.bind fun b _ => ?_
      split
      · exact ih
      split
      · exact noOverflow_ok _
      · exact noOverflow_ok _

/-- The scan of a value. -/
theorem valueLoop_noOverflow {n position : Nat} : NoOverflow (valueLoop buf n position) := by
  induction n generalizing position with
  | zero => exact noOverflow_ok _
  | succ n ih =>
      refine readAt_noOverflow.bind fun b _ => ?_
      split
      · exact noOverflow_ok _
      · exact ih

/-- One field: two scans, and the text of a checksum. -/
theorem fieldRound_noOverflow {len calculated : Int} {options : Int32} {position : Nat} :
    NoOverflow (fieldRound buf len options calculated position) := by
  refine numberLoop_noOverflow.bind fun tag _ => ?_
  split
  · exact noOverflow_ok _
  · refine valueLoop_noOverflow.bind fun value _ => ?_
    split
    · exact noOverflow_ok _
    split
    · exact noOverflow_ok _
    · exact noOverflow_ok _

/-- The loop over the fields, by induction on its fuel. -/
theorem fieldLoop_noOverflow {len calculated : Int} {options : Int32} {fuel position : Nat} :
    NoOverflow (fieldLoop buf len options calculated fuel position) := by
  induction fuel generalizing position with
  | zero => exact noOverflow_diverged
  | succ fuel ih =>
      refine fieldRound_noOverflow.bind fun round _ => ?_
      split
      · exact noOverflow_ok _
      split
      · exact ih.bind fun _ _ => noOverflow_ok _
      · exact noOverflow_ok _

/-- The parser behind BodyLength. -/
theorem parseBody_noOverflow {len fixType msgLen : Int} {options : Int32} {position : Nat} :
    NoOverflow (parseBody buf len fixType options msgLen position) := by
  unfold parseBody
  split
  · exact noOverflow_ok _
  refine calculateChecksum_noOverflow.bind fun calculated _ => ?_
  refine suppliedChecksum_noOverflow.bind fun checksum _ => ?_
  split
  · exact noOverflow_ok _
  · exact fieldLoop_noOverflow.bind fun _ _ => noOverflow_ok _

/-- **The parser** copies nothing. -/
theorem vmarsFixParseMsg_noOverflow {len : Int} {options : Int32} :
    NoOverflow (vmarsFixParseMsg buf len options) := by
  unfold vmarsFixParseMsg
  split
  · exact noOverflow_ok _
  refine strncmpEq_noOverflow.bind fun is42 _ => ?_
  refine strncmpEq_noOverflow.bind fun is44 _ => ?_
  simp only
  generalize (if is44 = true then (44 : Int) else if is42 = true then 42 else -1) = fixType
  split
  · exact noOverflow_ok _
  refine numberLoop_noOverflow.bind fun scan _ => ?_
  split
  · exact noOverflow_ok _
  · exact parseBody_noOverflow

end Parser

section Details

variable {buf : List UInt8}

/-- The callback for a field keeps a pointer and a length. -/
theorem handleTag_noOverflow {details : FixDetails} {fixTag : Int} {fixValue : List UInt8}
    {len : Nat} : NoOverflow (handleTag details fixTag fixValue len) := by
  unfold handleTag
  split
  · split
    · exact readAt_noOverflow.bind fun _ _ => noOverflow_ok _
    split
    · exact readAt_noOverflow.bind fun _ _ => readAt_noOverflow.bind fun _ _ =>
        noOverflow_ok _
    · exact noOverflow_ok _
  split
  · exact readAt_noOverflow.bind fun _ _ => noOverflow_ok _
  split
  · have hstatus : NoOverflow (str2int fixValue len) := by
      unfold str2int
      split
      · exact noOverflow_ok _
      · exact strncpy_noOverflow.bind fun _ _ => noOverflow_ok _
    exact hstatus.bind fun _ _ => noOverflow_ok _
  · exact noOverflow_ok _

/-- So do the callbacks of a message together. -/
theorem collect_noOverflow {calls : List Callback} {details : FixDetails} :
    NoOverflow (collect buf calls details) := by
  induction calls generalizing details with
  | nil => exact noOverflow_ok _
  | cons call calls ih =>
      have hcall : NoOverflow (call.handle buf details) := by
        unfold Callback.handle
        split
        · exact handleTag_noOverflow
        · exact handleTag_noOverflow
        · exact noOverflow_ok _
      exact hcall.bind fun _ _ => ih

end Details

/-! ## The condition -/

/-- A round for the message at `curr`: the search and the parser read inside the packet, and a
message that the parser finds too short is no longer than a fragment. -/
structure RoundFits (data : List UInt8) (curr : Nat) (br : Int) (next : Option Nat)
    (run : ParseRun) : Prop where
  search : searchNext data curr br = .ok next
  parse : vmarsFixParseMsgAt data curr (fixMessageLen curr next br) 0 = .ok run
  copy : run.ret.result = .messageTooShort →
    0 ≤ fixMessageLen curr next br ∧ fixMessageLen curr next br ≤ fragmentCapacity

/-- From a marker on, with `br` bytes remaining: every round fits, and so does what is left
behind the last one.  Where the parser consumes a negative number of bytes, more is left. -/
inductive FragmentsFit (data : List UInt8) : Nat → Int → Prop where
  | last {curr : Nat} {br : Int} {run : ParseRun} (round : RoundFits data curr br none run)
      (hleft : wrap32 (br - run.ret.bytesConsumed) ≤ fragmentCapacity) : FragmentsFit data curr br
  | cons {curr next : Nat} {br : Int} {run : ParseRun}
      (round : RoundFits data curr br (some next) run)
      (rest : FragmentsFit data next (wrap32 (br - run.ret.bytesConsumed))) :
      FragmentsFit data curr br

/-- **The condition** on the data of a packet. -/
def CopiesFit (data : List UInt8) : Prop :=
  ∀ c, firstOccurrence marker data = some c → FragmentsFit data c (data.length - c : Nat)

/-! ## The copies of a call -/

section Calls

variable {R : Type} [RingBuffer R] {packet : Packet} {ctx : CaptureContext R}

omit [RingBuffer R] in
/-- `put_fragment` of no more bytes than a fragment holds. -/
theorem putFragment_noOverflow {streamId : Ipv4Stream} {message : List UInt8} {n : Nat}
    (h : n ≤ fragmentCapacity) : NoOverflow (putFragment ctx streamId message n) := by
  rw [putFragment, if_pos ⟨Int.natCast_nonneg _, by omega⟩, Int.toNat_natCast]
  refine strncpy_noOverflow.bind fun s hs => ?_
  rw [storeFragment_eq (by rw [strncpy_length hs]; exact h)]
  exact noOverflow_ok _

omit [RingBuffer R] in
theorem tryParse_noOverflow {message : List UInt8} {len : Int} :
    NoOverflow (tryParseFixMessage ctx message len) :=
  vmarsFixParseMsg_noOverflow.bind fun _ _ => collect_noOverflow.bind fun _ _ => noOverflow_ok _

/-- The publication of a summary writes no fragment. -/
theorem process_noOverflow {tvSec tvNsec : UInt32} {details : FixDetails} :
    NoOverflow (processForLatencyMeasurement ctx tvSec tvNsec details) := by
  rw [processForLatencyMeasurement, summaryOf_eq, ok_bind]
  cases eventOf tvSec tvNsec details with
  | none => exact noOverflow_ok _
  | some summary => exact noOverflow_ok _

omit [RingBuffer R] in
/-- What the end of a call leaves fits. -/
theorem storeLeftover_noOverflow {left : Int} (h : left ≤ fragmentCapacity) :
    NoOverflow (storeLeftover packet ctx left) := by
  unfold storeLeftover
  split
  · next hpos =>
    obtain ⟨n, rfl⟩ := Int.eq_ofNat_of_zero_le (Int.le_of_lt hpos)
    exact pointerAt_noOverflow.bind fun _ _ => putFragment_noOverflow (by omega)
  · exact noOverflow_ok _

/-- A round that fits copies inside its fragment. -/
theorem extractRoundAt_noOverflow {curr : Nat} {br : Int} {next : Option Nat} {run : ParseRun}
    (round : RoundFits packet.data curr br next run) :
    NoOverflow (extractRoundAt packet ctx curr br) := by
  unfold extractRoundAt
  rw [round.search, ok_bind]
  refine pointerAt_noOverflow.bind fun message hmessage => ?_
  obtain ⟨-, rfl⟩ := pointerAt_eq_ok hmessage
  change NoOverflow (tryParseFixMessageAt ctx packet.data curr (fixMessageLen curr next br) >>= _)
  rw [tryParseFixMessageAt, round.parse, ok_bind]
  refine NoOverflow.bind (collect_noOverflow.bind fun _ _ => noOverflow_ok _) fun parsed hparse => ?_
  obtain ⟨details, -, hparse⟩ := bind_eq_ok.mp hparse
  cases hparse
  dsimp only
  split
  · exact process_noOverflow.bind fun _ _ => noOverflow_ok _
  split
  · next hshort =>
    obtain ⟨hlo, hhi⟩ := round.copy hshort
    obtain ⟨n, hn⟩ := Int.eq_ofNat_of_zero_le hlo
    refine NoOverflow.bind ?_ fun _ _ => noOverflow_ok _
    change NoOverflow (putFragment _ packet.streamId (packet.data.drop curr)
      (fixMessageLen curr next br))
    rw [hn]
    exact putFragment_noOverflow (by omega)
  · exact noOverflow_ok _

/-- A round that returns fits. -/
theorem extractRoundAt_ok {ctx' : CaptureContext R} {curr : Nat} {next : Option Nat}
    {br left : Int} (h : extractRoundAt packet ctx curr br = .ok (ctx', next, left)) :
    ∃ run, RoundFits packet.data curr br next run ∧
      left = wrap32 (br - run.ret.bytesConsumed) := by
  obtain ⟨next', hsearch, h⟩ := bind_eq_ok.mp h
  obtain ⟨message, -, h⟩ := bind_eq_ok.mp h
  obtain ⟨⟨ctx₁, ret, details⟩, hparse, h⟩ := bind_eq_ok.mp h
  obtain ⟨run, hrun, hparse⟩ := bind_eq_ok.mp hparse
  obtain ⟨details', -, hparse⟩ := bind_eq_ok.mp hparse
  cases hparse
  dsimp only at h
  split at h
  · next hok =>
    obtain ⟨ctx₂, -, h⟩ := bind_eq_ok.mp h
    cases h
    exact ⟨run, ⟨hsearch, hrun, fun hshort => by rw [hok] at hshort; cases hshort⟩, rfl⟩
  split at h
  · obtain ⟨ctx₂, hput, h⟩ := bind_eq_ok.mp h
    cases h
    refine ⟨run, ⟨hsearch, hrun, fun _ => ?_⟩, rfl⟩
    change putFragment _ packet.streamId message (fixMessageLen curr next br) = _ at hput
    unfold putFragment at hput
    split at hput
    · next hfits => exact hfits
    · cases hput
  · next hshort =>
    cases h
    exact ⟨run, ⟨hsearch, hrun, fun hshort' => absurd hshort' hshort⟩, rfl⟩

/-- The loop copies inside its fragments and leaves no more than one holds. -/
theorem extractLoopAt_noOverflow {fuel curr : Nat} {br : Int}
    (hfit : FragmentsFit packet.data curr br) :
    NoOverflow (extractLoopAt packet fuel ctx (some curr) br) ∧
      ∀ ctx' left, extractLoopAt packet fuel ctx (some curr) br = .ok (ctx', left) →
        left ≤ fragmentCapacity := by
  induction fuel generalizing ctx curr br with
  | zero => exact ⟨noOverflow_diverged, fun _ _ h => by cases h⟩
  | succ fuel ih =>
      -- the round that runs is the one of the condition
      have hsame : ∀ {next : Option Nat} {run : ParseRun} (_ : RoundFits packet.data curr br next run)
          {ctx₁ : CaptureContext R} {next' : Option Nat} {left : Int},
          extractRoundAt packet ctx curr br = .ok (ctx₁, next', left) →
            next' = next ∧ left = wrap32 (br - run.ret.bytesConsumed) := by
        intro next run round ctx₁ next' left hround
        obtain ⟨run', round', hleft⟩ := extractRoundAt_ok hround
        obtain rfl : next' = next := by
          have hsearch := round.search
          rwa [round'.search, Except.ok.injEq] at hsearch
        obtain rfl : run' = run := by
          have hparse := round.parse
          rwa [round'.parse, Except.ok.injEq] at hparse
        exact ⟨rfl, hleft⟩
      cases hfit with
      | last round hleft =>
          constructor
          · refine (extractRoundAt_noOverflow round).bind fun result hround => ?_
            obtain ⟨ctx₁, next, left⟩ := result
            obtain ⟨rfl, -⟩ := hsame round hround
            dsimp only
            rw [extractLoopAt_none]
            exact noOverflow_ok _
          · intro ctx' left h
            obtain ⟨⟨ctx₁, next, left₁⟩, hround, h⟩ := bind_eq_ok.mp h
            obtain ⟨rfl, rfl⟩ := hsame round hround
            dsimp only at h
            rw [extractLoopAt_none] at h
            cases h
            exact hleft
      | cons round rest =>
          constructor
          · refine (extractRoundAt_noOverflow round).bind fun result hround => ?_
            obtain ⟨ctx₁, next, left⟩ := result
            obtain ⟨rfl, rfl⟩ := hsame round hround
            exact (ih rest).1
          · intro ctx' left h
            obtain ⟨⟨ctx₁, next, left₁⟩, hround, h⟩ := bind_eq_ok.mp h
            obtain ⟨rfl, rfl⟩ := hsame round hround
            exact (ih rest).2 ctx' left h

/-- A loop that returns and leaves no more than a fragment holds fits. -/
theorem fragmentsFit_of_ok {ctx' : CaptureContext R} {fuel curr : Nat} {br left : Int}
    (h : extractLoopAt packet fuel ctx (some curr) br = .ok (ctx', left))
    (hleft : left ≤ fragmentCapacity) : FragmentsFit packet.data curr br := by
  induction fuel generalizing ctx curr br with
  | zero => cases h
  | succ fuel ih =>
      obtain ⟨⟨ctx₁, next, left₁⟩, hround, h⟩ := bind_eq_ok.mp h
      obtain ⟨run, round, rfl⟩ := extractRoundAt_ok hround
      cases next with
      | none =>
          dsimp only at h
          rw [extractLoopAt_none] at h
          cases h
          exact .last round hleft
      | some next => exact .cons round (ih h)

/-- **The bytes before the first marker**: the append is guarded, and what is stored as it is
has fewer bytes than a marker. -/
theorem leadingFragment_noOverflow {n : Nat} (hn : n ≤ packet.data.length) :
    NoOverflow (leadingFragment packet ctx n) := by
  cases hget : getFragment ctx packet.streamId with
  | none =>
      rw [leadingFragment, hget]
      simp only [matcher_len]
      split
      · next hshort =>
        exact putFragment_noOverflow (Nat.le_trans (Nat.le_of_lt hshort) (by decide))
      · exact noOverflow_ok _
  | some fragment =>
      by_cases hroom : fragment.s.length + n < fragmentCapacity
      · obtain ⟨ctx₁, -, hlead⟩ := leadingFragment_append hget hn hroom
        rw [hlead]
        refine tryParse_noOverflow.bind fun parsed _ => ?_
        simp only
        split
        · exact process_noOverflow.bind fun _ _ => noOverflow_ok _
        · exact noOverflow_ok _
      · rw [leadingFragment, hget]
        simp only [if_neg hroom]
        exact noOverflow_ok _

/-- A call from its loop on. -/
theorem finishPacketAt_noOverflow {curr : Option Nat} {br : Int}
    (hfit : ∀ c, curr = some c → FragmentsFit packet.data c br)
    (hbr : curr = none → br ≤ fragmentCapacity) :
    NoOverflow (finishPacketAt packet ctx curr br) := by
  unfold finishPacketAt
  cases curr with
  | none =>
      rw [extractLoopAt, ok_bind]
      exact storeLeftover_noOverflow (hbr rfl)
  | some c =>
      obtain ⟨hloop, hleft⟩ := @extractLoopAt_noOverflow _ _ _ ctx (packet.data.length + 1) _ _
        (hfit c rfl)
      refine hloop.bind fun result hresult => ?_
      obtain ⟨ctx₁, left⟩ := result
      exact storeLeftover_noOverflow (hleft ctx₁ left hresult)

/-- **A call for a packet that meets the condition** makes no copy past a fragment. -/
theorem vmarsExtractFixMessagesAt_noOverflow (hfit : CopiesFit packet.data) :
    NoOverflow (vmarsExtractFixMessagesAt ctx packet) := by
  have hin := @firstOccurrence_getD_le packet.data _ rfl
  have hfinish : ∀ ctx₁ : CaptureContext R, NoOverflow
      (finishPacketAt packet ctx₁ (firstOccurrence marker packet.data)
        (packet.data.length -
          (firstOccurrence marker packet.data).getD packet.data.length : Nat)) := by
    intro ctx₁
    apply finishPacketAt_noOverflow
    · intro c hc
      rw [hc]
      exact hfit c hc
    · intro hnone
      rw [hnone, Option.getD_none, Nat.sub_self]
      decide
  rw [extractAt_eq]
  dsimp only
  split
  · exact (leadingFragment_noOverflow hin).bind fun ctx₁ _ => hfinish ctx₁
  · exact hfinish ctx

/-- **A call that returns meets the condition**: other packets are copied past a fragment, or
make the code read outside of them. -/
theorem copiesFit_of_ok {ctx' : CaptureContext R}
    (h : vmarsExtractFixMessagesAt ctx packet = .ok ctx') : CopiesFit packet.data := by
  intro c hc
  have hfinish : ∃ ctx₁ : CaptureContext R,
      finishPacketAt packet ctx₁ (some c) (packet.data.length - c : Nat) = .ok ctx' := by
    rw [extractAt_eq, hc] at h
    dsimp only [Option.getD_some] at h
    split at h
    · obtain ⟨ctx₁, -, h⟩ := bind_eq_ok.mp h
      exact ⟨ctx₁, h⟩
    · exact ⟨ctx, h⟩
  obtain ⟨ctx₁, hfinish⟩ := hfinish
  obtain ⟨⟨ctx₂, left⟩, hloop, hstore⟩ := bind_eq_ok.mp hfinish
  apply fragmentsFit_of_ok hloop
  change storeLeftover packet ctx₂ left = .ok ctx' at hstore
  unfold storeLeftover at hstore
  split at hstore
  · obtain ⟨rest, -, hput⟩ := bind_eq_ok.mp hstore
    unfold putFragment at hput
    split at hput
    · next hfits => exact hfits.2
    · cases hput
  · next hnone =>
    have hcapacity : (0 : Int) ≤ fragmentCapacity := by decide
    omega

/-- No copy of the run writes past an allocation, and in the end, as after each of
its calls, every fragment lies within its allocation. -/
def InsideAllocations (ctx : CaptureContext R) (packets : List Packet) : Prop :=
  NoOverflow (extractAllAt ctx packets) ∧
    ∀ ctx', extractAllAt ctx packets = .ok ctx' →
      ∀ streamId s, fragmentBytes ctx' streamId = some s → s.length ≤ fragmentCapacity

/-- **No copy leaves its allocation** in a run whose packets all meet the condition. -/
theorem extractAll_inside {packets : List Packet} (h : ∀ packet ∈ packets, CopiesFit packet.data) :
    InsideAllocations ctx packets := by
  refine ⟨?_, fun ctx' _ streamId s hs => fragmentBytes_length_le hs⟩
  induction packets generalizing ctx with
  | nil => exact noOverflow_ok _
  | cons packet packets ih =>
      have hcall := @vmarsExtractFixMessagesAt_noOverflow _ _ _ ctx (h packet List.mem_cons_self)
      exact hcall.bind fun ctx' _ => ih fun p hp => h p (List.mem_cons_of_mem _ hp)

/-- The packets of a capture that returns meet the condition. -/
theorem copiesFit_of_extractAll {ctx' : CaptureContext R} {packets : List Packet}
    (h : extractAllAt ctx packets = .ok ctx') : ∀ packet ∈ packets, CopiesFit packet.data := by
  induction packets generalizing ctx with
  | nil =>
      intro packet hpacket
      cases hpacket
  | cons packet packets ih =>
      obtain ⟨ctx₁, hcall, hrest⟩ := bind_eq_ok.mp h
      intro p hp
      rcases List.mem_cons.mp hp with rfl | hp
      · exact copiesFit_of_ok hcall
      · exact ih hrest p hp

/-! ## The copy that leaves it -/

/-- A message that is too short, the only one of its packet, is copied whatever its
length. -/
theorem overflow_of_tooShort (hmarker : marker <+: packet.data)
    (hnext : nextMarker packet.data = none)
    (hshort : vmarsFixParseMsg packet.data packet.data.length 0 =
      .ok (rejected .messageTooShort packet.data.length))
    (hlong : fragmentCapacity < packet.data.length) :
    vmarsExtractFixMessages ctx packet = .error (.overflow packet.data.length) := by
  have hlen := hmarker.length_le
  rw [marker_length] at hlen
  have hsearch : searchNext packet.data 0 packet.data.length = .ok none := by
    have heq := @searchNext_eq packet 0 (by omega)
    rw [Nat.sub_zero, Nat.zero_add, Option.map_eq_none_iff.mp hnext] at heq
    exact heq
  have hparse : tryParseFixMessage ctx packet.data (fixMessageLen 0 none packet.data.length) =
      .ok (ctx, { result := .messageTooShort, bytesConsumed := packet.data.length }, {}) := by
    rw [fixMessageLen, tryParseFixMessage, hshort]
    rfl
  have hput : putFragment ctx packet.streamId packet.data packet.data.length =
      .error (.overflow packet.data.length) := by
    rw [putFragment, if_neg (by omega)]
  have hround : extractRound packet ctx 0 packet.data.length =
      .error (.overflow packet.data.length) := by
    have hpoint : pointerAt packet.data (0 : Nat) = .ok packet.data :=
      pointerAt_natCast (Nat.zero_le _)
    rw [extractRound_of_parse hsearch hpoint hparse, if_neg (fun h => by cases h), if_pos rfl,
      fixMessageLen, hput, error_bind]
  rw [extract_of_marker hmarker, finishPacket, extractLoop, hround]
  rfl

end Calls

/-- A packet with a new order and the start of another one. -/
def orderThenStart : Packet :=
  ⟨exampleStream, 1, 2, newOrderExample.encode ++ newOrderExample.encode.take 20, by decide⟩

/-- A message that is read and one whose start goes to a fragment meet the condition. -/
theorem extractAll_inside_newOrder :
    InsideAllocations { rb := ([] : List FixMessageSummary) } [orderThenStart] :=
  extractAll_inside (copiesFit_of_extractAll (eq_ok_get
    (x := extractAllAt { rb := ([] : List FixMessageSummary) } [orderThenStart])
    (by decide +kernel)))

/-- The start of a message with BodyLength 9999. -/
def longHeader : List UInt8 := ascii "8=FIX.4.2" ++ SOH :: ascii "9=9999" ++ [SOH]

/-- That message up to the first 5000 bytes of its body. -/
def longStart : List UInt8 := longHeader ++ List.replicate 5000 65

theorem longStart_length : longStart.length = 5017 := by
  rw [longStart, List.length_append, List.length_replicate]
  decide

/-- A packet with an incomplete message that is longer than a fragment. -/
def longStartPacket : Packet :=
  ⟨exampleStream, 1, 2, longStart, by rw [longStart_length]; decide⟩

/-- The parser waits for the rest of the body. -/
theorem longStart_tooShort : vmarsFixParseMsg longStart longStart.length 0 =
    .ok (rejected .messageTooShort longStart.length) := by
  have hheader : HasFixHeader longStart := .inl ((List.prefix_append _ _).trans
    (show longHeader.take 12 ++ (longHeader.drop 12 ++ List.replicate 5000 65) <+: longStart by
      rw [← List.append_assoc, List.take_append_drop]; exact List.prefix_rfl))
  have hoffset : bodyOffset longStart = some 17 := rfl
  have hdigits : bodyLengthDigits longStart = ascii "9999" := rfl
  have hvalue : wrap32 (decimal (ascii "9999") : Nat) = 9999 := by decide
  rw [vmarsFixParseMsg_eq (Nat.le_refl _), List.take_length, if_neg
    (by rw [longStart_length]; decide), if_pos hheader, hoffset]
  simp only [hdigits, hvalue, longStart_length]
  rw [parseBody, if_pos (by decide)]

/-- The call for that packet copies the message past the end of its fragment. -/
theorem extract_longStart {R : Type} [RingBuffer R] (ctx : CaptureContext R) :
    vmarsExtractFixMessages ctx longStartPacket = .error (.overflow longStart.length) := by
  have hmarker : marker <+: longStart := (List.prefix_append marker (longHeader.drop 8)).trans
    (List.prefix_append _ _)
  have hnext : nextMarker longStart = none := by
    have hno : (56 : UInt8) ∉ longStart.drop 8 := by
      rw [longStart, List.drop_append_of_le_length (by decide), List.mem_append, List.mem_replicate]
      decide
    exact Option.map_eq_none_iff.mpr (firstOccurrence_eq_none_of_not_mem hno)
  exact @overflow_of_tooShort _ _ longStartPacket ctx hmarker hnext longStart_tooShort
    (by rw [show longStartPacket.data.length = 5017 from longStart_length]; decide)

/-- No run with that packet stays inside its allocations. -/
theorem not_inside_longStart :
    ¬ InsideAllocations { rb := ([] : List FixMessageSummary) } [longStartPacket] := by
  rintro ⟨hinside, -⟩
  apply hinside longStart.length
  apply (extractAllAt_extends _ _).eq_overflow
  rw [extractAll, extract_longStart]
  rfl

end Vmars
