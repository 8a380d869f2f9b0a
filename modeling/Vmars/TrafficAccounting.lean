import Vmars.PacketCapture

/-!
# Walking over a block of frames (`packet.c`)

`walk_block` follows the chain of the frames of one block, calls `display` for each
and is meant to add their captured bytes to `bytes_total`.  It adds them up in a local
and then raises the counter by one.

The loop is stated for every function that is called for a frame: what is called,
and in which order, does not depend on what it does.

* `walkBlock_eq`: a block calls it for each frame, in the order of the chain;
* `accounted_iff`: the counter grows by the captured bytes exactly when these are as
  many as there are blocks.
-/

namespace Vmars

open CMemory

/-! ## The code -/

/-- The part of a capture context that `display` works on, and the counter of the
captured bytes. -/
structure Monitored (σ : Type) where
  ctx : σ
  bytesTotal : Int

section Walk

variable {σ : Type}

/-- The loop of `walk_block` over the `n` frames from `ppd` on; `bytes` is an
`unsigned long`. -/
def walkPackets (display : Nat → σ → Checked σ) (pbd : List UInt8) :
    Nat → Nat → σ → Nat → Checked (σ × Nat)
  | 0, _, ctx, bytes => .ok (ctx, bytes)
  | n + 1, ppd, ctx, bytes => do
      let hdr ← tpacket3Hdr pbd ppd
      let bytes := (bytes + hdr.tpSnaplen) % 18446744073709551616
      let ctx ← display ppd ctx
      walkPackets display pbd n (ppd + hdr.tpNextOffset) ctx bytes

/-- `walk_block`.  `num_pkts` becomes an `int`; the sum of the bytes is dropped. -/
def walkBlock (display : List UInt8 → Nat → σ → Checked σ) (th : Monitored σ)
    (pbd : List UInt8) : Checked (Monitored σ) := do
  let numPkts ← fieldAt pbd 4 12
  let offsetToFirstPkt ← fieldAt pbd 4 16
  let (ctx, _) ← walkPackets (display pbd) pbd (wrap32 numPkts).toNat offsetToFirstPkt th.ctx 0
  .ok { ctx, bytesTotal := th.bytesTotal + 1 }

/-- The blocks that `vmars_poll_socket` passes to `walk_block`, one after the other. -/
def walkBlocks (display : List UInt8 → Nat → σ → Checked σ) (th : Monitored σ)
    (blocks : List (List UInt8)) : Checked (Monitored σ) :=
  blocks.foldlM (walkBlock display) th

end Walk

/-- What `vmars_poll_socket` does with the blocks on a port. -/
def pollSocket {R : Type} [RingBuffer R] (port : Int) (th : Monitored (CaptureContext R))
    (blocks : List (List UInt8)) : Checked (Monitored (CaptureContext R)) :=
  walkBlocks (display port) th blocks

/-! ## The frames of a block -/

/-- A frame of a block: its offset and its number of captured bytes. -/
structure Captured where
  ppd : Nat
  snaplen : Nat
  deriving DecidableEq, Repr

/-- The `n` frames that are linked by `tp_next_offset` from `ppd` on. -/
def chainFrom (pbd : List UInt8) : Nat → Nat → Checked (List Captured)
  | 0, _ => .ok []
  | n + 1, ppd => do
      let hdr ← tpacket3Hdr pbd ppd
      let rest ← chainFrom pbd n (ppd + hdr.tpNextOffset)
      .ok ({ ppd, snaplen := hdr.tpSnaplen } :: rest)

/-- The frames of a block, as many as its descriptor says. -/
def framesOf (pbd : List UInt8) : Checked (List Captured) := do
  let numPkts ← fieldAt pbd 4 12
  let offsetToFirstPkt ← fieldAt pbd 4 16
  chainFrom pbd numPkts offsetToFirstPkt

/-- A block with the frames that are linked in it. -/
structure Block where
  pbd : List UInt8
  frames : List Captured
  linked : framesOf pbd = .ok frames

/-- The frames that the loop visits: all, unless their number is no `int`. -/
def Block.walked (block : Block) : List Captured :=
  if block.frames.length ≤ intMax then block.frames else []

/-- The calls for some frames of a block. -/
def callsFor (block : Block) (frames : List Captured) : List (List UInt8 × Nat) :=
  frames.map fun frame => (block.pbd, frame.ppd)

/-- The calls that are made are one for each frame, in the order of the chain, and the
counter grows by the captured bytes: whatever is called and whatever its count was. -/
def Accounted (blocks : List Block) : Prop :=
  ∀ (σ : Type) (display : List UInt8 → Nat → σ → Checked σ) (th : Monitored σ),
    walkBlocks display th (blocks.map Block.pbd) = do
      let ctx ← (blocks.flatMap fun block => callsFor block block.frames).foldlM
        (fun ctx call => display call.1 call.2 ctx) th.ctx
      .ok { ctx, bytesTotal := th.bytesTotal +
              ((blocks.map fun block => (block.frames.map Captured.snaplen).sum).sum : Nat) }

/-! ## One block -/

section Walk

variable {σ : Type}

/-- There are as many frames as the block says. -/
theorem chainFrom_length {pbd : List UInt8} {n ppd : Nat} {frames : List Captured}
    (h : chainFrom pbd n ppd = .ok frames) : frames.length = n := by
  induction n generalizing ppd frames with
  | zero =>
      obtain rfl := Except.ok.inj h
      rfl
  | succ n ih =>
      obtain ⟨hdr, -, h⟩ := bind_eq_ok.mp h
      obtain ⟨rest, hrest, h⟩ := bind_eq_ok.mp h
      obtain rfl := Except.ok.inj h
      rw [List.length_cons, ih hrest]

/-- The loop calls `display` for the frames of the chain, in order. -/
theorem walkPackets_eq (display : Nat → σ → Checked σ) {pbd : List UInt8} {n ppd : Nat}
    {frames : List Captured} (h : chainFrom pbd n ppd = .ok frames) (ctx : σ) (bytes : Nat) :
    ∃ bytes', walkPackets display pbd n ppd ctx bytes = (do
      let ctx ← frames.foldlM (fun ctx frame => display frame.ppd ctx) ctx
      .ok (ctx, bytes')) := by
  induction n generalizing ppd frames ctx bytes with
  | zero =>
      obtain rfl := Except.ok.inj h
      exact ⟨bytes, rfl⟩
  | succ n ih =>
      obtain ⟨hdr, hhdr, h⟩ := bind_eq_ok.mp h
      obtain ⟨rest, hrest, h⟩ := bind_eq_ok.mp h
      obtain rfl := Except.ok.inj h
      rw [walkPackets, hhdr, ok_bind]
      simp only [List.foldlM_cons]
      cases display ppd ctx with
      | error fault => exact ⟨0, rfl⟩
      | ok ctx₁ =>
          obtain ⟨bytes', hloop⟩ := ih hrest ctx₁
            ((bytes + hdr.tpSnaplen) % 18446744073709551616)
          exact ⟨bytes', hloop⟩

/-- The parts of a block that the code reads. -/
theorem Block.parts (block : Block) :
    ∃ numPkts offsetToFirstPkt, fieldAt block.pbd 4 12 = .ok numPkts ∧
      fieldAt block.pbd 4 16 = .ok offsetToFirstPkt ∧ numPkts = block.frames.length ∧
      chainFrom block.pbd numPkts offsetToFirstPkt = .ok block.frames := by
  obtain ⟨numPkts, hnum, h⟩ := bind_eq_ok.mp block.linked
  obtain ⟨offsetToFirstPkt, hoffset, h⟩ := bind_eq_ok.mp h
  exact ⟨numPkts, offsetToFirstPkt, hnum, hoffset, (chainFrom_length h).symm, h⟩

/-- A block: the calls for the frames that are visited, and one more. -/
theorem walkBlock_eq (display : List UInt8 → Nat → σ → Checked σ) (th : Monitored σ)
    (block : Block) :
    walkBlock display th block.pbd = (do
      let ctx ← (callsFor block block.walked).foldlM
        (fun ctx call => display call.1 call.2 ctx) th.ctx
      .ok { ctx, bytesTotal := th.bytesTotal + 1 }) := by
  obtain ⟨numPkts, offsetToFirstPkt, hnum, hoffset, hlength, hchain⟩ := block.parts
  have hlt := fieldAt_lt hnum
  rw [walkBlock, hnum, ok_bind, hoffset, ok_bind, callsFor, List.foldlM_map]
  by_cases hint : block.frames.length ≤ intMax
  · have hcount : (wrap32 numPkts).toNat = numPkts := by
      unfold intMax at hint
      rw [wrap32_of_range (by omega) (by omega), Int.toNat_natCast]
    obtain ⟨bytes, hwalk⟩ := walkPackets_eq (display block.pbd) hchain th.ctx 0
    rw [hcount, hwalk, Block.walked, if_pos hint]
    simp only [bind_assoc, ok_bind]
  · have hcount : (wrap32 numPkts).toNat = 0 := by
      unfold intMax at hint
      unfold wrap32
      omega
    rw [hcount, Block.walked, if_neg hint]
    rfl

/-- Any number of blocks: the calls, and one for each block. -/
theorem walkBlocks_eq (display : List UInt8 → Nat → σ → Checked σ) (th : Monitored σ)
    (blocks : List Block) :
    walkBlocks display th (blocks.map Block.pbd) = (do
      let ctx ← (blocks.flatMap fun block => callsFor block block.walked).foldlM
        (fun ctx call => display call.1 call.2 ctx) th.ctx
      .ok { ctx, bytesTotal := th.bytesTotal + blocks.length }) := by
  induction blocks generalizing th with
  | nil =>
      show Except.ok th = _
      simp
  | cons block blocks ih =>
      have hrest : ∀ th₁ : Monitored σ,
          (blocks.map Block.pbd).foldlM (walkBlock display) th₁ = _ := fun th₁ => ih th₁
      rw [walkBlocks, List.map_cons, List.foldlM_cons, walkBlock_eq, List.flatMap_cons,
        List.foldlM_append]
      simp only [bind_assoc, ok_bind, hrest]
      congr 1
      funext ctx
      congr 1
      funext ctx'
      rw [List.length_cons]
      congr 2
      omega

end Walk

/-! ## The accounting -/

/-- A function that notes its calls. -/
theorem foldlM_record (calls noted : List (List UInt8 × Nat)) :
    calls.foldlM (fun noted call => (.ok (noted ++ [(call.1, call.2)]) : Checked _)) noted =
      .ok (noted ++ calls) := by
  induction calls generalizing noted with
  | nil => simp
  | cons call calls ih =>
      rw [List.foldlM_cons, ok_bind, ih, List.append_assoc, List.singleton_append]

/-- Fewer frames than there are cannot be visited without a block being cut short. -/
theorem length_walked_le (blocks : List Block) :
    (blocks.flatMap fun block => callsFor block block.walked).length ≤
      (blocks.flatMap fun block => callsFor block block.frames).length := by
  induction blocks with
  | nil => exact Nat.le_refl _
  | cons block blocks ih =>
      have hblock : block.walked.length ≤ block.frames.length := by
        unfold Block.walked
        split
        · exact Nat.le_refl _
        · exact Nat.zero_le _
      simp only [List.flatMap_cons, List.length_append, callsFor, List.length_map] at ih ⊢
      omega

/-- Where all frames are walked, their number is an `int`. -/
theorem frames_le_of_walked {blocks : List Block}
    (h : (blocks.flatMap fun block => callsFor block block.walked).length =
      (blocks.flatMap fun block => callsFor block block.frames).length) :
    ∀ block ∈ blocks, block.frames.length ≤ intMax := by
  induction blocks with
  | nil =>
      intro block hmem
      cases hmem
  | cons first blocks ih =>
      have hrest := length_walked_le blocks
      simp only [List.flatMap_cons, List.length_append, callsFor, List.length_map] at h hrest ih
      have hfirst : first.frames.length ≤ intMax := by
        apply Decidable.of_not_not
        intro hmany
        rw [Block.walked, if_neg hmany, List.length_nil] at h
        omega
      rw [Block.walked, if_pos hfirst] at h
      intro block hmem
      rcases List.mem_cons.mp hmem with rfl | hmem
      · exact hfirst
      · exact ih (by omega) block hmem

/-- **Traffic accounting.**  The frames are accounted for exactly when every block has
an `int` number of them and their captured bytes are as many as there are blocks. -/
theorem accounted_iff (blocks : List Block) :
    Accounted blocks ↔ (∀ block ∈ blocks, block.frames.length ≤ intMax) ∧
      (blocks.map fun block => (block.frames.map Captured.snaplen).sum).sum = blocks.length := by
  constructor
  · intro haccounted
    have hnoted := haccounted (List (List UInt8 × Nat))
      (fun mem ppd noted => .ok (noted ++ [(mem, ppd)])) { ctx := [], bytesTotal := 0 }
    rw [walkBlocks_eq] at hnoted
    simp only [foldlM_record, ok_bind, List.nil_append, Except.ok.injEq, Monitored.mk.injEq]
      at hnoted
    obtain ⟨hcalls, hbytes⟩ := hnoted
    refine ⟨frames_le_of_walked (congrArg List.length hcalls), ?_⟩
    omega
  · rintro ⟨hint, hsum⟩ σ display th
    have hwalked : (blocks.flatMap fun block => callsFor block block.walked) =
        blocks.flatMap fun block => callsFor block block.frames := by
      apply List.flatMap_congr
      intro block hmem
      rw [Block.walked, if_pos (hint block hmem)]
    rw [walkBlocks_eq, hwalked, hsum]

/-- A block with one frame of three captured bytes behind its descriptor. -/
def blockOfThree : Block where
  pbd := List.replicate 12 0 ++ leBytes 4 1 ++ leBytes 4 48 ++ List.replicate 28 0 ++
    leBytes 4 0 ++ leBytes 4 7 ++ leBytes 4 100 ++ leBytes 4 3 ++ List.replicate 32 0
  frames := [{ ppd := 48, snaplen := 3 }]
  linked := by decide +kernel

/-- The three bytes of a block are counted as one. -/
theorem not_accounted_blockOfThree : ¬ ∀ blocks : List Block, Accounted blocks := by
  intro hall
  have hone := hall [blockOfThree] Unit (fun _ _ _ => .ok ()) { ctx := (), bytesTotal := 0 }
  have hcount := congrArg (fun th => th.toOption.map Monitored.bytesTotal) hone
  exact absurd hcount (by decide +kernel)

end Vmars
