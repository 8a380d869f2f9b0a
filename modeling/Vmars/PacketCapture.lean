import Vmars.FixCapture

/-!
# Captured frames (`packet.c`)

The kernel writes captured frames into a mapped ring, each behind a
`tpacket3_hdr`.  `display` walks over the Ethernet, IP and TCP headers of one frame
and hands the TCP payload to `vmars_extract_fix_messages`.

The mapping is the list of its readable bytes and pointers are offsets in it.  The
layouts are those of the kernel's headers on x86-64, the only platform for which
`atomic.h` compiles.

* `payload_captured_iff`: when the range that `display` hands over is the payload of
  a TCP segment and lies in the captured bytes;
* `display_payload`: then the payload is what the messages are extracted from;
* `display_overflow`: a length that wraps around ends in a copy past a fragment.
-/

namespace Vmars

open CMemory

/-! ## Reading headers -/

/-- The unsigned field of `n` bytes at `mem + i`, in host byte order. -/
def fieldAt (mem : List UInt8) (n i : Nat) : Checked Nat :=
  if i + n ≤ mem.length then .ok (leValue ((mem.drop i).take n)) else .error (.outOfBounds i)

/-- `ntohs` and `htons`: the two bytes of a `uint16_t` change places. -/
def ntohs (x : Nat) : Nat := x % 256 * 256 + x / 256

/-- `ETH_HLEN`. -/
def ethHlen : Nat := 14

/-- `ETH_P_IP`. -/
def ethPIp : Nat := 0x0800

/-- `IPPROTO_TCP`. -/
def ipprotoTcp : Nat := 6

/-- The fields of `struct tpacket3_hdr` that are read. -/
structure Tpacket3Hdr where
  tpNextOffset : Nat
  tpSec : Nat
  tpNsec : Nat
  tpSnaplen : Nat
  tpMac : Nat
  deriving DecidableEq, Repr

/-- The header of a captured frame. -/
def tpacket3Hdr (mem : List UInt8) (ppd : Nat) : Checked Tpacket3Hdr := do
  let tpNextOffset ← fieldAt mem 4 ppd
  let tpSec ← fieldAt mem 4 (ppd + 4)
  let tpNsec ← fieldAt mem 4 (ppd + 8)
  let tpSnaplen ← fieldAt mem 4 (ppd + 12)
  let tpMac ← fieldAt mem 2 (ppd + 24)
  .ok { tpNextOffset, tpSec, tpNsec, tpSnaplen, tpMac }

/-! ## The code -/

/-- The arguments of `vmars_extract_fix_messages`.  The ports are in network byte
order, as they are handed over. -/
structure ExtractCall where
  streamId : Ipv4Stream
  tvSec : UInt32
  tvNsec : UInt32
  dataPtr : Nat
  dataLen : Nat
  deriving DecidableEq, Repr

/-- `display` up to its call of `vmars_extract_fix_messages`, `none` when it returns
before.  `port` is `ctx->port`. -/
def displayCall (port : Int) (mem : List UInt8) (ppd : Nat) : Checked (Option ExtractCall) := do
  let hdr ← tpacket3Hdr mem ppd
  let eth := ppd + hdr.tpMac
  let ip := eth + ethHlen
  let hProto ← fieldAt mem 2 (eth + 12)
  if hProto ≠ ntohs ethPIp then .ok none
  else do
    let versionIhl ← fieldAt mem 1 ip
    let iphdrLen := versionIhl % 16 * 4
    let tcp := eth + ethHlen + iphdrLen
    let source ← fieldAt mem 2 tcp
    let dest ← fieldAt mem 2 (tcp + 2)
    if (ntohs source : Int) ≠ port ∧ (ntohs dest : Int) ≠ port then .ok none
    else do
      let offset ← fieldAt mem 1 (tcp + 12)
      let doff := offset / 16 * 4
      let totLen ← fieldAt mem 2 (ip + 2)
      let dataLen := toSize ((ntohs totLen : Int) - (iphdrLen + doff : Nat))
      if dataLen = 0 then .ok none
      else do
        let saddr ← fieldAt mem 4 (ip + 12)
        let daddr ← fieldAt mem 4 (ip + 16)
        .ok (some {
          streamId := { saddr := saddr.toUInt32, daddr := daddr.toUInt32
                        sport := source.toUInt16, dport := dest.toUInt16 }
          tvSec := hdr.tpSec.toUInt32
          tvNsec := hdr.tpNsec.toUInt32
          dataPtr := tcp + doff
          dataLen })

section Display

variable {R : Type} [RingBuffer R]

/-- `vmars_extract_fix_messages` on a range of the mapping.  A length from `display`
is at most 65535, and the range is read, or it has wrapped around: then it is a
negative `int`, nothing is searched, and it meets the arithmetic on fragments. -/
def extractRange (ctx : CaptureContext R) (mem : List UInt8) (call : ExtractCall) :
    Checked (CaptureContext R) :=
  if h : call.dataLen + marker.length ≤ intMax then
    if call.dataPtr + call.dataLen ≤ mem.length then
      vmarsExtractFixMessages ctx {
        streamId := call.streamId
        tvSec := call.tvSec
        tvNsec := call.tvNsec
        data := (mem.drop call.dataPtr).take call.dataLen
        length_le := Nat.le_trans (Nat.add_le_add_right (List.length_take_le _ _) _) h }
    else .error (.outOfBounds (call.dataPtr + call.dataLen : Nat))
  else
    match getFragment ctx call.streamId with
    | none =>
        .ok { ctx with
              counters.corruptMessages := ctx.counters.corruptMessages + 1 }
    | some fragment =>
        if toSize (fragment.s.length + call.dataLen : Nat) < fragmentCapacity then
          .error (.overflow call.dataLen)
        else .ok ctx

/-- `display`. -/
def display (port : Int) (mem : List UInt8) (ppd : Nat) (ctx : CaptureContext R) :
    Checked (CaptureContext R) := do
  match ← displayCall port mem ppd with
  | none => .ok ctx
  | some call => extractRange ctx mem call

end Display

/-! ## The frame -/

/-- The headers of a captured frame, read whatever they say. -/
structure Frame where
  /-- The offset of the Ethernet header. -/
  start : Nat
  /-- The number of captured bytes, from the Ethernet header on. -/
  snaplen : Nat
  etherType : Nat
  version : Nat
  ipHeaderLen : Nat
  totalLength : Nat
  protocol : Nat
  tcpHeaderLen : Nat
  deriving DecidableEq, Repr

/-- Reads the headers of the frame behind a `tpacket3_hdr`. -/
def frameAt (mem : List UInt8) (ppd : Nat) : Checked Frame := do
  let hdr ← tpacket3Hdr mem ppd
  let start := ppd + hdr.tpMac
  let etherType ← fieldAt mem 2 (start + 12)
  let versionIhl ← fieldAt mem 1 (start + ethHlen)
  let totalLength ← fieldAt mem 2 (start + ethHlen + 2)
  let protocol ← fieldAt mem 1 (start + ethHlen + 9)
  let offset ← fieldAt mem 1 (start + ethHlen + versionIhl % 16 * 4 + 12)
  .ok { start, snaplen := hdr.tpSnaplen, etherType := ntohs etherType, version := versionIhl / 16
        ipHeaderLen := versionIhl % 16 * 4, totalLength := ntohs totalLength, protocol
        tcpHeaderLen := offset / 16 * 4 }

/-- The call is for the payload of a TCP segment in an IPv4 packet, and the range lies
in the captured bytes. -/
structure Frame.Holds (frame : Frame) (call : ExtractCall) : Prop where
  ipv4 : frame.etherType = ethPIp ∧ frame.version = 4
  tcp : frame.protocol = ipprotoTcp
  dataLen : (call.dataLen : Int) =
    frame.totalLength - frame.ipHeaderLen - frame.tcpHeaderLen
  captured : frame.start ≤ call.dataPtr ∧
    call.dataPtr + call.dataLen ≤ frame.start + frame.snaplen

/-- A frame that `display` may be given: a TCP segment in an IPv4 packet whose length
covers both headers and that was captured as a whole. -/
structure Frame.Sound (frame : Frame) : Prop where
  version : frame.version = 4
  protocol : frame.protocol = ipprotoTcp
  headers : frame.ipHeaderLen + frame.tcpHeaderLen ≤ frame.totalLength
  captured : ethHlen + frame.totalLength ≤ frame.snaplen

/-- A field that is read lies inside the memory. -/
theorem fieldAt_eq_ok {mem : List UInt8} {n i x : Nat} (h : fieldAt mem n i = .ok x) :
    i + n ≤ mem.length ∧ x = leValue ((mem.drop i).take n) := by
  unfold fieldAt at h
  split at h
  · next hin => exact ⟨hin, (Except.ok.inj h).symm⟩
  · cases h

theorem fieldAt_isOk {mem : List UInt8} {n i : Nat} (h : i + n ≤ mem.length) :
    ∃ x, fieldAt mem n i = .ok x := ⟨_, if_pos h⟩

/-- A number of that many bytes. -/
theorem leValue_lt (bytes : List UInt8) : leValue bytes < 256 ^ bytes.length := by
  induction bytes with
  | nil => simp [leValue]
  | cons b bytes ih =>
      have hb := b.toNat_lt
      rw [leValue, List.length_cons, Nat.pow_succ]
      omega

/-- A field is as wide as its bytes. -/
theorem fieldAt_lt {mem : List UInt8} {n i x : Nat} (h : fieldAt mem n i = .ok x) :
    x < 256 ^ n := by
  obtain ⟨hin, rfl⟩ := fieldAt_eq_ok h
  have hlt := leValue_lt ((mem.drop i).take n)
  rwa [List.length_take, List.length_drop, Nat.min_eq_left (by omega)] at hlt

theorem ntohs_lt {x : Nat} (h : x < 65536) : ntohs x < 65536 := by
  unfold ntohs
  omega

theorem ntohs_ntohs {x : Nat} (h : x < 65536) : ntohs (ntohs x) = x := by
  unfold ntohs
  omega

/-- What `display` has read when it calls `vmars_extract_fix_messages`. -/
theorem displayCall_frame {port : Int} {mem : List UInt8} {ppd : Nat} {call : ExtractCall}
    (h : displayCall port mem ppd = .ok (some call)) :
    ∃ frame, frameAt mem ppd = .ok frame ∧ frame.etherType = ethPIp ∧
      frame.totalLength < 65536 ∧ frame.ipHeaderLen ≤ 60 ∧ frame.tcpHeaderLen ≤ 60 ∧
      call.dataPtr = frame.start + ethHlen + frame.ipHeaderLen + frame.tcpHeaderLen ∧
      call.dataLen ≠ 0 ∧
      call.dataLen =
        toSize ((frame.totalLength : Int) - (frame.ipHeaderLen + frame.tcpHeaderLen : Nat)) := by
  obtain ⟨hdr, hhdr, h⟩ := bind_eq_ok.mp h
  obtain ⟨hProto, hproto, h⟩ := bind_eq_ok.mp h
  split at h
  · cases h
  next hip =>
  obtain ⟨versionIhl, hversion, h⟩ := bind_eq_ok.mp h
  obtain ⟨source, -, h⟩ := bind_eq_ok.mp h
  obtain ⟨dest, -, h⟩ := bind_eq_ok.mp h
  split at h
  · cases h
  obtain ⟨offset, hoffset, h⟩ := bind_eq_ok.mp h
  obtain ⟨totLen, htotLen, h⟩ := bind_eq_ok.mp h
  dsimp only at h
  split at h
  · cases h
  next hlen =>
  obtain ⟨saddr, hsaddr, h⟩ := bind_eq_ok.mp h
  obtain ⟨daddr, -, h⟩ := bind_eq_ok.mp h
  obtain rfl := Option.some.inj (Except.ok.inj h)
  -- the protocol stands before the addresses
  obtain ⟨hin, -⟩ := fieldAt_eq_ok hsaddr
  obtain ⟨protocol, hprotocol⟩ := @fieldAt_isOk mem 1 (ppd + hdr.tpMac + ethHlen + 9) (by omega)
  have htotal := ntohs_lt (fieldAt_lt htotLen)
  have hihl := fieldAt_lt hversion
  have hdoff := fieldAt_lt hoffset
  refine ⟨{ start := ppd + hdr.tpMac, snaplen := hdr.tpSnaplen, etherType := ntohs hProto
            version := versionIhl / 16, ipHeaderLen := versionIhl % 16 * 4
            totalLength := ntohs totLen, protocol, tcpHeaderLen := offset / 16 * 4 },
    ?_, ?_, htotal, ?_, ?_, rfl, hlen, rfl⟩
  · rw [frameAt, hhdr, ok_bind]
    simp only [hproto, hversion, htotLen, hprotocol, hoffset, ok_bind]
  · rw [Decidable.not_not.mp hip]
    exact ntohs_ntohs (by decide)
  · show versionIhl % 16 * 4 ≤ 60
    omega
  · show offset / 16 * 4 ≤ 60
    omega

/-- **Payload extraction.**  Whenever `display` calls `vmars_extract_fix_messages`, the
range that it hands over is the payload of a captured TCP segment exactly when the
frame is sound. -/
theorem payload_captured_iff {port : Int} {mem : List UInt8} {ppd : Nat} {call : ExtractCall}
    (h : displayCall port mem ppd = .ok (some call)) :
    ∃ frame, frameAt mem ppd = .ok frame ∧ (frame.Holds call ↔ frame.Sound) := by
  obtain ⟨frame, hframe, hip, htotal, hihl, hdoff, hptr, hne, hlen⟩ := displayCall_frame h
  refine ⟨frame, hframe, ?_⟩
  constructor
  · intro hholds
    have hdata := hholds.dataLen
    have hrange := hholds.captured.2
    refine ⟨hholds.ipv4.2, hholds.tcp, ?_, ?_⟩ <;> omega
  · intro hsound
    have hheaders := hsound.headers
    have hcaptured := hsound.captured
    have hdata : call.dataLen =
        frame.totalLength - (frame.ipHeaderLen + frame.tcpHeaderLen) :=
      hlen.trans (toSize_sub hheaders (by omega))
    refine ⟨⟨hip, hsound.version⟩, hsound.protocol, ?_, ?_, ?_⟩ <;> omega

/-- A frame of a TCP segment with the data `abc`, behind its `tpacket3_hdr`, that says
another total length: 43 is the right one. -/
def segmentOfLength (totalLength : Nat) : List UInt8 :=
  leBytes 4 0 ++ leBytes 4 7 ++ leBytes 4 100 ++ leBytes 4 57 ++ leBytes 4 57 ++ leBytes 4 0 ++
    leBytes 2 48 ++ leBytes 2 62 ++ List.replicate 20 0 ++
    List.replicate 12 0 ++ [8, 0] ++
    [0x45, 0] ++ leBytes 2 (ntohs totalLength) ++ [0, 0, 0, 0, 64, 6, 0, 0, 10, 0, 0, 1] ++
    [10, 0, 0, 2] ++
    leBytes 2 (ntohs 9999) ++ leBytes 2 (ntohs 5001) ++ List.replicate 8 0 ++ [0x50] ++
    List.replicate 7 0 ++ ascii "abc"

/-- The call for such a frame. -/
def segmentCall (dataLen : Nat) : ExtractCall where
  streamId := { saddr := 0x0100000a, daddr := 0x0200000a, sport := 0x0f27, dport := 0x8913 }
  tvSec := 7
  tvNsec := 100
  dataPtr := 102
  dataLen := dataLen

/-- A segment with three bytes of payload. -/
theorem payload_captured_iff_segment :
    ∃ frame, frameAt (segmentOfLength 43) 0 = .ok frame ∧
      (frame.Holds (segmentCall 3) ↔ frame.Sound) :=
  @payload_captured_iff 9999 (segmentOfLength 43) 0 (segmentCall 3) (by decide +kernel)

/-- A total length of zero wraps around. -/
theorem not_captured_zeroLength :
    ¬ ∀ (port : Int) (mem : List UInt8) (ppd : Nat) (call : ExtractCall) (frame : Frame),
      displayCall port mem ppd = .ok (some call) → frameAt mem ppd = .ok frame →
      frame.Holds call := by
  intro hall
  have hholds := hall 9999 (segmentOfLength 0) 0 (segmentCall 18446744073709551576)
    { start := 48, snaplen := 57, etherType := 0x0800, version := 4, ipHeaderLen := 20
      totalLength := 0, protocol := 6, tcpHeaderLen := 20 } (by decide +kernel) (by decide +kernel)
  exact absurd hholds.dataLen (by decide)

/-! ## What the call does -/

section Extraction

variable {R : Type} [RingBuffer R] {port : Int} {mem : List UInt8} {ppd : Nat}
  {call : ExtractCall} {frame : Frame}

/-- The payload of a sound frame is the packet that the messages are extracted from. -/
theorem display_payload (h : displayCall port mem ppd = .ok (some call))
    (hframe : frameAt mem ppd = .ok frame) (hsound : frame.Sound)
    (hmem : frame.start + frame.snaplen ≤ mem.length) (ctx : CaptureContext R) :
    ∃ packet : Packet, packet.streamId = call.streamId ∧ packet.tvSec = call.tvSec ∧
      packet.tvNsec = call.tvNsec ∧
      packet.data = ((mem.drop (frame.start + ethHlen)).take frame.totalLength).drop
        (frame.ipHeaderLen + frame.tcpHeaderLen) ∧
      display port mem ppd ctx = vmarsExtractFixMessages ctx packet := by
  obtain ⟨frame', hframe', -, htotal, -, -, hptr, -, hlen⟩ := displayCall_frame h
  obtain rfl := Except.ok.inj (hframe.symm.trans hframe')
  have hheaders := hsound.headers
  have hcaptured := hsound.captured
  have hdata : call.dataLen =
      frame.totalLength - (frame.ipHeaderLen + frame.tcpHeaderLen) :=
    hlen.trans (toSize_sub hheaders (by omega))
  have hfits : call.dataLen + marker.length ≤ intMax := by
    have hmarker : marker.length = 8 := by decide
    unfold intMax
    omega
  refine ⟨{ streamId := call.streamId, tvSec := call.tvSec, tvNsec := call.tvNsec
            data := (mem.drop call.dataPtr).take call.dataLen
            length_le := Nat.le_trans (Nat.add_le_add_right (List.length_take_le _ _) _) hfits },
    rfl, rfl, rfl, ?_, ?_⟩
  · show (mem.drop call.dataPtr).take call.dataLen = _
    rw [List.drop_take, List.drop_drop, hptr, hdata, Nat.add_assoc (frame.start + ethHlen)]
  · rw [display, h, ok_bind]
    simp only [extractRange, dif_pos hfits]
    rw [if_pos (by omega)]

/-- **A wrapped length.**  With headers longer than the packet and a fragment at least
as long as what is missing, the copy runs over the fragment. -/
theorem display_overflow (h : displayCall port mem ppd = .ok (some call))
    (hframe : frameAt mem ppd = .ok frame)
    (hshort : frame.totalLength < frame.ipHeaderLen + frame.tcpHeaderLen)
    {ctx : CaptureContext R} {fragment : Fragment}
    (hfragment : getFragment ctx call.streamId = some fragment)
    (hlong : frame.ipHeaderLen + frame.tcpHeaderLen ≤ frame.totalLength + fragment.s.length) :
    display port mem ppd ctx = .error (.overflow call.dataLen) := by
  obtain ⟨frame', hframe', -, htotal, hihl, hdoff, -, -, hlen⟩ := displayCall_frame h
  obtain rfl := Except.ok.inj (hframe.symm.trans hframe')
  have hwrapped : call.dataLen = 18446744073709551616 -
      (frame.ipHeaderLen + frame.tcpHeaderLen - frame.totalLength) := by
    rw [hlen]
    unfold toSize
    omega
  have hcapacity := fragment.length_le
  have hlarge : ¬ call.dataLen + marker.length ≤ intMax := by
    unfold intMax
    omega
  have hfits : toSize (fragment.s.length + call.dataLen : Nat) < fragmentCapacity := by
    rw [toSize_natCast]
    unfold fragmentCapacity maxFragmentTotalSize at hcapacity ⊢
    omega
  rw [display, h, ok_bind]
  simp only [extractRange, dif_neg hlarge, hfragment, if_pos hfits]

end Extraction

end Vmars
