import Vmars.FixSimulation
import Vmars.KhashTable

/-!
# The fragments in their hash table (`fix.c`, `khash.h`)

`vmars_extract_fix_messages` once more, now with the hash table of `KHASH_INIT(ipv4_stream, …)`
in place of a finite map from streams to fragments.  A fragment is written through the pointer
in its bucket.

* `fragmentTable_refines`: **for every sequence of packets** the ring, the counters, the
  accepted messages and the stored fragments are those of `extractAll`; where that faults, the
  hash table does so too, and nowhere else.

Memory suffices for the table: `put_fragment` does not look at the result of `kh_put`.
-/

namespace Vmars

open CMemory OpenAddressing

variable {R : Type} [RingBuffer R]

/-! ## The code -/

/-- `vmars_capture_context_t` with the hash table as its `state`.  The `state` of `base` is
not used. -/
structure KhashContext (R : Type) where
  base : CaptureContext R
  state : Option (Khash Ipv4Stream Fragment) := none

/-- `get_fragment`. -/
def getFragmentKhash (ctx : KhashContext R) (streamId : Ipv4Stream) :
    Checked (Option Fragment) :=
  match ctx.state with
  | none => .ok none
  | some fragmentMap => do
      let k ← khGet ipv4StreamHash fragmentMap streamId
      if k ≠ fragmentMap.nBuckets then khVal fragmentMap k else .ok none

/-- The bytes as a fragment; they must fit the allocation. -/
def fragmentOf (s : List UInt8) : Checked Fragment :=
  if h : s.length ≤ fragmentCapacity then .ok ⟨s, h⟩ else .error (.overflow s.length)

/-- The bucket of the stream in `put_fragment`, a new one if the stream has none. -/
def fragmentBucket (fragmentMap : Khash Ipv4Stream Fragment) (streamId : Ipv4Stream) :
    Checked (Khash Ipv4Stream Fragment × UInt32) := do
  let k ← khGet ipv4StreamHash fragmentMap streamId
  if k ≠ fragmentMap.nBuckets then .ok (fragmentMap, k)
  else do
    let (fragmentMap, k, _) ← khPut ipv4StreamHash Alloc.ok fragmentMap streamId
    .ok (fragmentMap, k)

/-- `put_fragment`. -/
def putFragmentKhash (ctx : KhashContext R) (streamId : Ipv4Stream) (message : List UInt8)
    (len : Int) : Checked (KhashContext R) := do
  let (fragmentMap, k) ← fragmentBucket (ctx.state.getD khInit) streamId
  if 0 ≤ len ∧ len ≤ fragmentCapacity then do
    let s ← strncpy message len.toNat
    let fragment ← fragmentOf s
    let fragmentMap ← khSetVal fragmentMap k (some fragment)
    .ok { ctx with state := some fragmentMap }
  else .error (.overflow len)

/-- The bytes that are written through the pointer that `get_fragment` returned. -/
def writeFragmentKhash (ctx : KhashContext R) (streamId : Ipv4Stream) (s : List UInt8) :
    Checked (KhashContext R) := do
  let fragmentMap := ctx.state.getD khInit
  let k ← khGet ipv4StreamHash fragmentMap streamId
  let fragment ← fragmentOf s
  let fragmentMap ← khSetVal fragmentMap k (some fragment)
  .ok { ctx with state := some fragmentMap }

/-- `remove_fragment`. -/
def removeFragmentKhash (ctx : KhashContext R) (streamId : Ipv4Stream) :
    Checked (KhashContext R) :=
  match ctx.state with
  | none => .ok ctx
  | some fragmentMap => do
      let k ← khGet ipv4StreamHash fragmentMap streamId
      if k ≠ fragmentMap.nBuckets then do
        let fragmentMap ← khDel fragmentMap k
        let fragmentMap ← khSetVal fragmentMap k none
        .ok { ctx with state := some fragmentMap }
      else .ok ctx

/-- `try_parse_fix_message`, which does not use the table. -/
def tryParseKhash (ctx : KhashContext R) (fixMessage : List UInt8) (len : Int) :
    Checked (KhashContext R × VmarsFixParseResult × FixDetails) := do
  let (base, result, details) ← tryParseFixMessage ctx.base fixMessage len
  .ok ({ ctx with base := base }, result, details)

/-- `process_for_latency_measurement`, which does not use the table. -/
def processKhash (ctx : KhashContext R) (tvSec tvNsec : UInt32) (details : FixDetails) :
    Checked (KhashContext R) := do
  let base ← processForLatencyMeasurement ctx.base tvSec tvNsec details
  .ok { ctx with base := base }

/-- A round of the `while` loop. -/
def extractRoundKhash (packet : Packet) (ctx : KhashContext R) (curr : Nat)
    (bufRemaining : Int) : Checked (KhashContext R × Option Nat × Int) := do
  let next ← searchNext packet.data curr bufRemaining
  let fixMessageLen : Int :=
    match next with
    | none => bufRemaining
    | some next => next - curr
  let fixMessage ← pointerAt packet.data curr
  let (ctx, result, details) ← tryParseKhash ctx fixMessage fixMessageLen
  let bufRemaining := wrap32 (bufRemaining - result.bytesConsumed)
  if result.result = .ok then do
    let ctx ← processKhash ctx packet.tvSec packet.tvNsec details
    .ok (ctx, next, bufRemaining)
  else if result.result = .messageTooShort then do
    let ctx ← putFragmentKhash ctx packet.streamId fixMessage fixMessageLen
    .ok (ctx, next, bufRemaining)
  else .ok (ctx, next, bufRemaining)

/-- The `while` loop, for at most `fuel` rounds. -/
def extractLoopKhash (packet : Packet) :
    Nat → KhashContext R → Option Nat → Int → Checked (KhashContext R × Int)
  | _, ctx, none, bufRemaining => .ok (ctx, bufRemaining)
  | 0, _, some _, _ => .error .diverged
  | fuel + 1, ctx, some curr, bufRemaining => do
      let (ctx, next, bufRemaining) ← extractRoundKhash packet ctx curr bufRemaining
      extractLoopKhash packet fuel ctx next bufRemaining

/-- The stored fragment with the bytes before the first marker. -/
def continueFragmentKhash (packet : Packet) (ctx : KhashContext R) (s : List UInt8) :
    Checked (KhashContext R) := do
  let ctx ← writeFragmentKhash ctx packet.streamId s
  let (ctx, result, details) ← tryParseKhash ctx s s.length
  let ctx ←
    if result.result = .ok then processKhash ctx packet.tvSec packet.tvNsec details
    else .ok ctx
  if result.result ≠ .messageTooShort then removeFragmentKhash ctx packet.streamId else .ok ctx

/-- The bytes before the first marker. -/
def leadingFragmentKhash (packet : Packet) (ctx : KhashContext R) (fragmentLen : Nat) :
    Checked (KhashContext R) := do
  match ← getFragmentKhash ctx packet.streamId with
  | none =>
      if packet.data.length < matcher.len then
        putFragmentKhash ctx packet.streamId packet.data packet.data.length
      else
        .ok { ctx with
              base.counters.corruptMessages := ctx.base.counters.corruptMessages + 1 }
  | some fragment =>
      if fragment.s.length + fragmentLen < fragmentCapacity then do
        let tail ← strncpy packet.data fragmentLen
        continueFragmentKhash packet ctx (fragment.s ++ tail)
      else .ok ctx

/-- `vmars_extract_fix_messages`. -/
def vmarsExtractFixMessagesKhash (ctx : KhashContext R) (packet : Packet) :
    Checked (KhashContext R) := do
  let bufRemaining := wrap32 packet.data.length
  let curr ← boyermooreSearch matcher packet.data bufRemaining
  let (ctx, bufRemaining) ←
    if curr ≠ some 0 then do
      let fragmentLen := curr.getD packet.data.length
      let ctx ← leadingFragmentKhash packet ctx fragmentLen
      .ok (ctx, wrap32 (bufRemaining - fragmentLen))
    else .ok (ctx, bufRemaining)
  let (ctx, bufRemaining) ←
    extractLoopKhash packet (packet.data.length + 1) ctx curr bufRemaining
  if bufRemaining > 0 then do
    let rest ← pointerAt packet.data (packet.data.length - bufRemaining)
    putFragmentKhash ctx packet.streamId rest bufRemaining
  else .ok ctx

/-- The packets of a capture, one after the other. -/
def extractAllKhash (ctx : KhashContext R) : List Packet → Checked (KhashContext R)
  | [] => .ok ctx
  | packet :: packets => do
      let ctx ← vmarsExtractFixMessagesKhash ctx packet
      extractAllKhash ctx packets

/-! ## Operations of the table -/

/-- The table of fragments, created or not, stands for the map; it has fragments of some of the
given streams only. -/
inductive TableRel (streams : Set Ipv4Stream) :
    Option (Khash Ipv4Stream Fragment) → Option (Ipv4Stream → Option Fragment) → Prop where
  | none : TableRel streams none none
  | some {fragmentMap : Khash Ipv4Stream Fragment} {map : Ipv4Stream → Option Fragment}
      (table : fragmentMap.Represents ipv4StreamHash map)
      (only : {streamId | map streamId ≠ none} ⊆ streams) :
      TableRel streams (some fragmentMap) (some map)

/-- Either there is no table yet, or it stands for the map. -/
theorem TableRel.inv {streams : Set Ipv4Stream} {table : Option (Khash Ipv4Stream Fragment)}
    {state : Option (Ipv4Stream → Option Fragment)} (h : TableRel streams table state) :
    (table = Option.none ∧ state = Option.none) ∨
      ∃ fragmentMap map, table = Option.some fragmentMap ∧ state = Option.some map ∧
        fragmentMap.Represents ipv4StreamHash map ∧
        {streamId | map streamId ≠ Option.none} ⊆ streams := by
  cases h with
  | none => exact .inl ⟨rfl, rfl⟩
  | some table only => exact .inr ⟨_, _, rfl, rfl, table, only⟩

/-- The two contexts differ in the table only. -/
structure KhashContext.Rel (streams : Set Ipv4Stream) (ctx : KhashContext R)
    (spec : CaptureContext R) : Prop where
  base : spec = { ctx.base with state := spec.state }
  state : TableRel streams ctx.state spec.state

/-- The streams that have a fragment. -/
def CaptureContext.streams (ctx : CaptureContext R) : Set Ipv4Stream :=
  {streamId | (ctx.state.getD fun _ => none) streamId ≠ none}

/-- The table has room for a fragment of each of these streams. -/
structure Room (streams : Set Ipv4Stream) : Prop where
  finite : streams.Finite
  ncard_le : streams.ncard ≤ khMaxEntries

section Operations

variable {streams : Set Ipv4Stream} {ctx : KhashContext R} {spec : CaptureContext R}
  {streamId : Ipv4Stream}

omit [RingBuffer R] in
/-- The table of a context, a new one if it has none. -/
theorem KhashContext.Rel.getD (h : ctx.Rel streams spec) :
    (ctx.state.getD khInit).Represents ipv4StreamHash (spec.state.getD fun _ => none) ∧
      {streamId | (spec.state.getD fun _ => none) streamId ≠ none} ⊆ streams := by
  rcases h.state.inv with ⟨hctx, hspec⟩ | ⟨fragmentMap, map, hctx, hspec, table, only⟩
  · rw [hctx, hspec]
    exact ⟨khInit_represents _, fun streamId hne => absurd rfl hne⟩
  · rw [hctx, hspec]
    exact ⟨table, only⟩

omit [RingBuffer R] in
/-- A table with a fragment for a stream, put into both contexts. -/
theorem KhashContext.Rel.store (h : ctx.Rel streams spec) {map : Ipv4Stream → Option Fragment}
    (honly : {streamId | map streamId ≠ none} ⊆ streams) {fragment : Option Fragment}
    (hstream : streamId ∈ streams) {fragmentMap : Khash Ipv4Stream Fragment}
    (htable : fragmentMap.Represents ipv4StreamHash (Function.update map streamId fragment)) :
    KhashContext.Rel streams { ctx with state := some fragmentMap }
      { spec with state := some (Function.update map streamId fragment) } := by
  refine ⟨by rw [h.base], .some htable fun other hother => ?_⟩
  by_cases hself : other = streamId
  · rw [hself]
    exact hstream
  · rw [Set.mem_ofPred_eq, Function.update_of_ne hself] at hother
    exact honly hother

omit [RingBuffer R] in
/-- `get_fragment` finds the fragment of the map. -/
theorem getFragmentKhash_eq (h : ctx.Rel streams spec) (streamId : Ipv4Stream) :
    getFragmentKhash ctx streamId = .ok (getFragment spec streamId) := by
  unfold getFragmentKhash getFragment
  rcases h.state.inv with ⟨hctx, hspec⟩ | ⟨fragmentMap, map, hctx, hspec, table, -⟩
  · rw [hctx, hspec]
  · rw [hctx, hspec]
    obtain ⟨k, hget, ⟨hend, hnone⟩ | ⟨hne, -, v, -, hval, hv⟩⟩ := table.get streamId
    · simp only [hget, ok_bind, hend, ne_eq, not_true_eq_false, if_false, hnone]
    · simp only [hget, ok_bind, if_pos hne, hval, hv]

/-- The bucket that `put_fragment` finds or makes can take any fragment. -/
theorem fragmentBucket_spec {fragmentMap : Khash Ipv4Stream Fragment}
    {map : Ipv4Stream → Option Fragment} (hroom : Room streams)
    (htable : fragmentMap.Represents ipv4StreamHash map)
    (honly : {streamId | map streamId ≠ none} ⊆ streams) (streamId : Ipv4Stream) :
    ∃ fragmentMap' k, fragmentBucket fragmentMap streamId = .ok (fragmentMap', k) ∧
      ∀ fragment, ∃ fragmentMap'', khSetVal fragmentMap' k (some fragment) = .ok fragmentMap'' ∧
        fragmentMap''.Represents ipv4StreamHash
          (Function.update map streamId (some fragment)) := by
  have hsize : {streamId | map streamId ≠ none}.ncard ≤ khMaxEntries :=
    (Set.ncard_le_ncard honly hroom.finite).trans hroom.ncard_le
  obtain ⟨k, hget, ⟨hend, hnone⟩ | ⟨hne, hk, v, hlive, -⟩⟩ := htable.get streamId
  · obtain ⟨h₁, x, ret, hput, hsets, -⟩ := htable.put hsize streamId
    refine ⟨h₁, x, ?_, hsets⟩
    simp only [fragmentBucket, hget, ok_bind, hend, ne_eq, not_true_eq_false, if_false, hput]
  · refine ⟨fragmentMap, k, ?_, htable.setVal hk hlive⟩
    simp only [fragmentBucket, hget, ok_bind, if_pos hne]

omit [RingBuffer R] in
/-- `put_fragment`, with a new bucket where the stream had none. -/
theorem putFragmentKhash_related (hroom : Room streams) (h : ctx.Rel streams spec)
    (hstream : streamId ∈ streams) (message : List UInt8) (len : Int) :
    Related (KhashContext.Rel streams) (putFragmentKhash ctx streamId message len)
      (putFragment spec streamId message len) := by
  obtain ⟨htable, honly⟩ := h.getD
  obtain ⟨fragmentMap, k, hbucket, hset⟩ := fragmentBucket_spec hroom htable honly streamId
  unfold putFragmentKhash putFragment
  simp only [hbucket, ok_bind]
  by_cases hlen : 0 ≤ len ∧ len ≤ fragmentCapacity
  · rw [if_pos hlen, if_pos hlen]
    apply Related.bind_self
    intro s
    unfold fragmentOf storeFragment
    by_cases hs : s.length ≤ fragmentCapacity
    · obtain ⟨fragmentMap', hset', htable'⟩ := hset ⟨s, hs⟩
      rw [dif_pos hs, dif_pos hs, ok_bind, hset', ok_bind]
      exact .ok (h.store honly hstream htable')
    · rw [dif_neg hs, dif_neg hs]
      exact .error _
  · rw [if_neg hlen, if_neg hlen]
    exact .error _

omit [RingBuffer R] in
/-- The bucket of a stored fragment takes the longer one. -/
theorem writeFragmentKhash_related (h : ctx.Rel streams spec) (hstream : streamId ∈ streams)
    {fragment : Fragment} (hfragment : getFragment spec streamId = some fragment)
    (s : List UInt8) :
    Related (KhashContext.Rel streams) (writeFragmentKhash ctx streamId s)
      (storeFragment spec streamId s) := by
  obtain ⟨htable, honly⟩ := h.getD
  have hsome : (spec.state.getD fun _ => none) streamId = some fragment := by
    unfold getFragment at hfragment
    cases hstate : spec.state with
    | none =>
        rw [hstate] at hfragment
        cases hfragment
    | some map =>
        rw [hstate] at hfragment
        exact hfragment
  obtain ⟨k, hget, ⟨-, hnone⟩ | ⟨-, hk, v, hlive, -⟩⟩ := htable.get streamId
  · rw [hsome] at hnone
    cases hnone
  · unfold storeFragment
    simp only [writeFragmentKhash, fragmentOf, hget, ok_bind]
    by_cases hs : s.length ≤ fragmentCapacity
    · obtain ⟨fragmentMap', hset', htable'⟩ := htable.setVal hk hlive ⟨s, hs⟩
      rw [dif_pos hs, dif_pos hs, ok_bind, hset', ok_bind]
      exact .ok (h.store honly hstream htable')
    · rw [dif_neg hs, dif_neg hs]
      exact .error _

omit [RingBuffer R] in
/-- `remove_fragment` deletes the bucket of the stream, if it has one. -/
theorem removeFragmentKhash_related (h : ctx.Rel streams spec) (hstream : streamId ∈ streams) :
    Related (KhashContext.Rel streams) (removeFragmentKhash ctx streamId)
      (.ok (removeFragment spec streamId)) := by
  unfold removeFragmentKhash removeFragment
  rcases h.state.inv with ⟨hctx, hspec⟩ | ⟨fragmentMap, map, hctx, hspec, table, only⟩
  · rw [hctx, hspec]
    exact .ok h
  · rw [hctx, hspec]
    obtain ⟨k, hget, ⟨hend, hnone⟩ | ⟨hne, hk, v, hlive, -⟩⟩ := table.get streamId
    · have hkept : Function.update map streamId none = map := by
        rw [← hnone, Function.update_eq_self]
      simp only [hget, ok_bind, hend, ne_eq, not_true_eq_false, if_false]
      refine .ok ⟨by rw [h.base], ?_⟩
      rw [hctx, hkept]
      exact .some table only
    · obtain ⟨h₁, hdel, hrep₁, hbuckets₁, hslot₁⟩ := table.del hk hlive
      obtain ⟨h₂, hset, hrep₂⟩ := hrep₁.setVal_free (by rwa [hbuckets₁])
        (by rw [hslot₁]; rfl) none
      simp only [hget, ok_bind, if_pos hne, hdel, hset]
      exact .ok (h.store only hstream hrep₂)

end Operations

/-! ## Extraction -/

section Extraction

variable {streams : Set Ipv4Stream} {ctx : KhashContext R} {spec : CaptureContext R}
  {packet : Packet}

omit [RingBuffer R] in
/-- The parser does not see the table. -/
theorem tryParseKhash_related (h : ctx.Rel streams spec) (message : List UInt8) (len : Int) :
    Related (Along (KhashContext.Rel streams)) (tryParseKhash ctx message len)
      (tryParseFixMessage spec message len) := by
  unfold tryParseKhash tryParseFixMessage
  cases vmarsFixParseMsg message len 0 with
  | error fault => exact .error fault
  | ok run =>
      simp only [ok_bind]
      cases collect message run.calls {} with
      | error fault => exact .error fault
      | ok details =>
          simp only [ok_bind]
          refine .ok ⟨⟨?_, h.state⟩, rfl⟩
          rw [h.base]

/-- Nor does the publication of a summary. -/
theorem processKhash_related (h : ctx.Rel streams spec) (tvSec tvNsec : UInt32)
    (details : FixDetails) :
    Related (KhashContext.Rel streams) (processKhash ctx tvSec tvNsec details)
      (processForLatencyMeasurement spec tvSec tvNsec details) := by
  unfold processKhash processForLatencyMeasurement
  cases summaryOf tvSec tvNsec details with
  | error fault => exact .error fault
  | ok summary =>
      cases summary with
      | none => exact .ok h
      | some summary =>
          refine .ok ⟨?_, h.state⟩
          rw [h.base]

/-- A round of the loop. -/
theorem extractRoundKhash_related (hroom : Room streams) (hstream : packet.streamId ∈ streams)
    (h : ctx.Rel streams spec) (curr : Nat) (bufRemaining : Int) :
    Related (Along (KhashContext.Rel streams)) (extractRoundKhash packet ctx curr bufRemaining)
      (extractRound packet spec curr bufRemaining) := by
  unfold extractRoundKhash extractRound
  apply Related.bind_self
  intro next
  apply Related.bind_self
  intro fixMessage
  refine (tryParseKhash_related h _ _).bind_along ?_
  rintro ctx spec ⟨result, details⟩ h
  dsimp only
  split
  · refine (processKhash_related h _ _ _).bind fun ctx spec h => ?_
    exact .ok ⟨h, rfl⟩
  · split
    · refine (putFragmentKhash_related hroom h hstream _ _).bind fun ctx spec h => ?_
      exact .ok ⟨h, rfl⟩
    · exact .ok ⟨h, rfl⟩

/-- The loop over the messages of a packet. -/
theorem extractLoopKhash_related (hroom : Room streams) (hstream : packet.streamId ∈ streams) :
    ∀ fuel {ctx : KhashContext R} {spec : CaptureContext R} (curr : Option Nat)
      (bufRemaining : Int), ctx.Rel streams spec →
      Related (Along (KhashContext.Rel streams))
        (extractLoopKhash packet fuel ctx curr bufRemaining)
        (extractLoop packet fuel spec curr bufRemaining) := by
  intro fuel
  induction fuel with
  | zero =>
      intro ctx spec curr bufRemaining h
      cases curr with
      | none => exact .ok ⟨h, rfl⟩
      | some curr => exact .error _
  | succ fuel ih =>
      intro ctx spec curr bufRemaining h
      cases curr with
      | none => exact .ok ⟨h, rfl⟩
      | some curr =>
          refine (extractRoundKhash_related hroom hstream h curr bufRemaining).bind_along ?_
          rintro ctx spec ⟨next, bufRemaining⟩ h
          exact ih next bufRemaining h

/-- The bytes before the first marker. -/
theorem leadingFragmentKhash_related (hroom : Room streams)
    (hstream : packet.streamId ∈ streams) (h : ctx.Rel streams spec) (fragmentLen : Nat) :
    Related (KhashContext.Rel streams) (leadingFragmentKhash packet ctx fragmentLen)
      (leadingFragment packet spec fragmentLen) := by
  unfold leadingFragmentKhash leadingFragment
  rw [getFragmentKhash_eq h, ok_bind]
  cases hfragment : getFragment spec packet.streamId with
  | none =>
      dsimp only
      split
      · exact putFragmentKhash_related hroom h hstream _ _
      · refine .ok ⟨?_, h.state⟩
        rw [h.base]
  | some fragment =>
      dsimp only
      split
      · apply Related.bind_self
        intro tail
        unfold continueFragmentKhash
        refine (writeFragmentKhash_related h hstream hfragment _).bind fun ctx spec h => ?_
        refine (tryParseKhash_related h _ _).bind_along ?_
        rintro ctx spec ⟨result, details⟩ h
        dsimp only
        -- the last step is the same on both sides: the fragment goes or stays
        have hlast : ∀ (ctx : KhashContext R) spec, ctx.Rel streams spec →
            Related (KhashContext.Rel streams)
              (if result.result ≠ .messageTooShort then removeFragmentKhash ctx packet.streamId
                else .ok ctx)
              (.ok (if result.result ≠ .messageTooShort then removeFragment spec packet.streamId
                else spec)) := by
          intro ctx spec h
          split
          · exact removeFragmentKhash_related h hstream
          · exact .ok h
        split
        · exact (processKhash_related h _ _ _).bind hlast
        · exact hlast ctx spec h
      · exact .ok h

/-- A call from its loop on, as `finishPacket` is for the map. -/
def finishPacketKhash (packet : Packet) (ctx : KhashContext R) (curr : Option Nat)
    (bufRemaining : Int) : Checked (KhashContext R) := do
  let (ctx, bufRemaining) ←
    extractLoopKhash packet (packet.data.length + 1) ctx curr bufRemaining
  if bufRemaining > 0 then do
    let rest ← pointerAt packet.data (packet.data.length - bufRemaining)
    putFragmentKhash ctx packet.streamId rest bufRemaining
  else .ok ctx

/-- The loop and the fragment of the bytes left. -/
theorem finishPacketKhash_related (hroom : Room streams) (hstream : packet.streamId ∈ streams)
    (h : ctx.Rel streams spec) (curr : Option Nat) (bufRemaining : Int) :
    Related (KhashContext.Rel streams) (finishPacketKhash packet ctx curr bufRemaining)
      (finishPacket packet spec curr bufRemaining) := by
  unfold finishPacketKhash finishPacket
  refine (extractLoopKhash_related hroom hstream _ curr bufRemaining h).bind_along ?_
  intro ctx spec bufRemaining h
  unfold storeLeftover
  dsimp only
  split
  · apply Related.bind_self
    intro rest
    exact putFragmentKhash_related hroom h hstream _ _
  · exact .ok h

/-- A packet. -/
theorem vmarsExtractFixMessagesKhash_related (hroom : Room streams)
    (hstream : packet.streamId ∈ streams) (h : ctx.Rel streams spec) :
    Related (KhashContext.Rel streams) (vmarsExtractFixMessagesKhash ctx packet)
      (vmarsExtractFixMessages spec packet) := by
  unfold vmarsExtractFixMessagesKhash vmarsExtractFixMessages
  apply Related.bind_self
  intro curr
  dsimp only
  split
  · refine (leadingFragmentKhash_related hroom hstream h _).bind fun ctx spec h => ?_
    exact finishPacketKhash_related hroom hstream h curr _
  · exact finishPacketKhash_related hroom hstream h curr _

omit [RingBuffer R] in
/-- A table has fragments of the streams of its map. -/
theorem KhashContext.Rel.widen (h : ctx.Rel streams spec) {streams' : Set Ipv4Stream}
    (hle : spec.streams ⊆ streams') : ctx.Rel streams' spec := by
  refine ⟨h.base, ?_⟩
  rcases h.state.inv with ⟨hctx, hspec⟩ | ⟨fragmentMap, map, hctx, hspec, table, -⟩
  · rw [hctx, hspec]
    exact .none
  · rw [CaptureContext.streams, hspec] at hle
    rw [hctx, hspec]
    exact .some table hle

omit [RingBuffer R] in
theorem KhashContext.Rel.finite (h : ctx.Rel streams spec) : spec.streams.Finite :=
  h.getD.1.finite

/-- The packets of a capture, from any pair of contexts. -/
theorem extractAllKhash_related (packets : List Packet) :
    ∀ {ctx : KhashContext R} {spec : CaptureContext R}, ctx.Rel spec.streams spec →
      (∀ before packet after ctx', packets = before ++ packet :: after →
        extractAll spec before = .ok ctx' →
        (insert packet.streamId ctx'.streams).ncard ≤ khMaxEntries) →
      Related (fun ctx spec => ctx.Rel spec.streams spec) (extractAllKhash ctx packets)
        (extractAll spec packets) := by
  induction packets with
  | nil => exact fun h _ => .ok h
  | cons packet packets ih =>
      intro ctx spec h hroom
      have hspec := h
      have hfits : Room (insert packet.streamId spec.streams) :=
        ⟨h.finite.insert _, hroom [] packet packets spec rfl rfl⟩
      have hcall := vmarsExtractFixMessagesKhash_related hfits (Set.mem_insert _ _)
        (h.widen (Set.subset_insert packet.streamId _))
      unfold extractAllKhash extractAll
      generalize hresult : vmarsExtractFixMessages spec packet = result at hcall
      generalize vmarsExtractFixMessagesKhash ctx packet = result' at hcall
      cases hcall with
      | error fault => exact .error fault
      | ok h' =>
          rw [ok_bind, ok_bind]
          refine ih (h'.widen (Set.Subset.refl _)) fun before packet' after ctx' hsplit hrun => ?_
          refine hroom (packet :: before) packet' after ctx' (congrArg (packet :: ·) hsplit) ?_
          rw [extractAll, hresult, ok_bind]
          exact hrun

/-- **Extraction over the hash table is extraction over the finite map** while memory suffices,
for every sequence of packets in which at most `2 ^ 29` streams have a fragment at a time:
either both fault in the same way, or they end with the same ring, counters and accepted
messages, and the table stands for the map of fragments. -/
theorem fragmentTable_refines (base : CaptureContext R) (hnew : base.state = none)
    (packets : List Packet)
    (hroom : ∀ before packet after ctx', packets = before ++ packet :: after →
      extractAll base before = .ok ctx' →
      (insert packet.streamId ctx'.streams).ncard ≤ khMaxEntries) :
    Related (fun ctx spec => ctx.Rel spec.streams spec)
      (extractAllKhash { base := base, state := none } packets) (extractAll base packets) := by
  refine extractAllKhash_related packets ⟨rfl, ?_⟩ hroom
  rw [hnew]
  exact .none

omit [RingBuffer R] in
/-- The streams with a fragment are those for which `get_fragment` finds one. -/
theorem mem_streams {ctx : CaptureContext R} {streamId : Ipv4Stream} :
    streamId ∈ ctx.streams ↔ getFragment ctx streamId ≠ none := by
  unfold CaptureContext.streams getFragment
  cases ctx.state with
  | none => exact Iff.rfl
  | some fragmentMap => exact Iff.rfl

/-- A fragment was there at the start or is of the stream of a packet. -/
theorem extractAll_streams {packets : List Packet} {ctx' : CaptureContext R}
    (h : extractAll spec packets = .ok ctx') :
    ctx'.streams ⊆ spec.streams ∪ ((packets.map Packet.streamId).toFinset : Set Ipv4Stream) := by
  induction packets generalizing spec with
  | nil =>
      cases h
      exact Set.subset_union_left
  | cons packet packets ih =>
      obtain ⟨ctx₁, hcall, hrest⟩ := bind_eq_ok.mp h
      intro streamId hmem
      rw [List.map_cons, List.toFinset_cons, Finset.coe_insert]
      rcases ih hrest hmem with hfragment | hlater
      · by_cases hself : streamId = packet.streamId
        · exact .inr (.inl hself)
        · rw [mem_streams, vmarsExtractFixMessages_others hcall streamId hself] at hfragment
          exact .inl (mem_streams.mpr hfragment)
      · exact .inr (.inr hlater)

/-- A capture of at most `2 ^ 29` packets has room for all of their fragments. -/
theorem room_of_length {base : CaptureContext R} (hnew : base.state = none)
    {packets : List Packet} (hlength : packets.length ≤ khMaxEntries) :
    ∀ before packet after ctx', packets = before ++ packet :: after →
      extractAll base before = .ok ctx' →
      (insert packet.streamId ctx'.streams).ncard ≤ khMaxEntries := by
  intro before packet after ctx' hsplit hrun
  have hnone : base.streams = ∅ := by
    rw [CaptureContext.streams, hnew]
    exact Set.eq_empty_of_forall_notMem fun streamId hne => hne rfl
  have hstreams := extractAll_streams hrun
  rw [hnone, Set.empty_union] at hstreams
  have hcount : ctx'.streams.ncard ≤ before.length := by
    refine (Set.ncard_le_ncard hstreams (Finset.finite_toSet _)).trans ?_
    rw [Set.ncard_coe_finset, ← List.length_map Packet.streamId]
    exact List.toFinset_card_le _
  rw [hsplit, List.length_append, List.length_cons] at hlength
  exact (Set.ncard_insert_le ..).trans (by omega)

/-- The two parts of an order, in packets of one stream. -/
def orderInParts : List Packet :=
  [⟨⟨1, 2, 3, 4⟩, 0, 0, newOrderExample.encode.take 20, by decide⟩,
    ⟨⟨1, 2, 3, 4⟩, 0, 1, newOrderExample.encode.drop 20, by decide⟩]

/-- The first part becomes the fragment of its stream, the second one completes it, and it is
taken out of the table: one bucket was used, and no entry is left. -/
theorem fragmentTable_refines_inParts :
    ∃ ctx spec,
      extractAllKhash { base := ({ rb := [] } : CaptureContext (List FixMessageSummary)) }
        orderInParts = .ok ctx ∧
      extractAll { rb := ([] : List FixMessageSummary) } orderInParts = .ok spec ∧
      ctx.Rel spec.streams spec ∧ spec.accepted = [newOrderExample.encode] ∧
      ctx.state.map (fun table => (table.nOccupied, table.size)) = some (1, 0) := by
  have hrelated := fragmentTable_refines ({ rb := [] } : CaptureContext (List FixMessageSummary))
    rfl orderInParts (room_of_length rfl (by decide))
  have hvalue : (extractAllKhash
      { base := ({ rb := [] } : CaptureContext (List FixMessageSummary)) } orderInParts).toOption.map
        (fun ctx => (ctx.base.accepted, ctx.state.map fun table => (table.nOccupied, table.size))) =
      some ([newOrderExample.encode], some (1, 0)) := by decide +kernel
  cases hrun : extractAllKhash
      { base := ({ rb := [] } : CaptureContext (List FixMessageSummary)) } orderInParts with
  | error fault =>
      rw [hrun] at hvalue
      cases hvalue
  | ok ctx =>
      obtain ⟨spec, hspec, hrel⟩ := hrelated.ok_right hrun
      rw [hrun] at hvalue
      obtain ⟨haccepted, htable⟩ := Prod.mk.inj (Option.some.inj hvalue)
      refine ⟨ctx, spec, rfl, hspec, hrel, ?_, htable⟩
      rw [hrel.base]
      exact haccepted

end Extraction

end Vmars
