import Vmars.HandoffRing
import Vmars.TrafficAccounting

/-!
# The ring that a capture thread shares with the kernel (`packet.c`)

`setup_socket` maps 64 blocks.  The kernel fills them in turn and retires each by setting
`TP_STATUS_USER` in its header; `vmars_poll_socket` walks over the retired blocks in the same
turn and gives each back.  Kernel and thread run at the same time: between any two accesses of
the thread the kernel may write to the block at which it stands, as long as that block is its
own, which is what its documentation promises.

* `PacketRing.Inv.run`: whatever the kernel does in between, the thread reads from a block only
  what it was retired with, and no block that is the kernel's;
* `packetRing_exact`: **every retired block is walked over exactly once, in order**; the thread
  faults only where `walk_block` faults on these blocks, and when the kernel pauses it ends
  with what `walkBlocks` makes of them.
-/

namespace Vmars

open CMemory HandoffRing

/-! ## The code -/

/-- `TP_STATUS_KERNEL`. -/
def tpStatusKernel : Nat := 0

/-- `TP_STATUS_USER`. -/
def tpStatusUser : Nat := 1

/-- The number of blocks: `blocknum` in `setup_socket`, `blocks` in `vmars_poll_socket`. -/
def blockNr : Nat := 64

/-- `sizeof(struct block_desc)`. -/
def sizeofBlockDesc : Nat := 48

/-- The block belongs to the user. -/
def isUser (pbd : List UInt8) : Bool :=
  match fieldAt pbd 4 8 with
  | .ok blockStatus => blockStatus &&& tpStatusUser ≠ 0
  | .error _ => false

/-- `flush_block`. -/
def flushBlock (pbd : List UInt8) : List UInt8 :=
  pbd.take 8 ++ leBytes 4 tpStatusKernel ++ pbd.drop 12

/-- Where the loop of `vmars_poll_socket` stands. -/
inductive PollPc where
  /-- Before the status of the block is read. -/
  | check
  /-- The block is the user's. -/
  | found
  /-- In the loop of `walk_block` with that many frames left. -/
  | walking (left ppd bytes : Nat)
  /-- Behind `walk_block`. -/
  | walked
  deriving DecidableEq, Repr

/-- The mapped blocks, the capture thread and the kernel. -/
structure PacketRing (σ : Type) where
  map : Nat → List UInt8
  blockNum : Nat
  pc : PollPc
  th : Monitored σ
  /-- The block at which the kernel stands. -/
  kernelBlock : Nat
  /-- The blocks that were retired, as they were then. -/
  retired : List (List UInt8)
  /-- The number of blocks that were given back. -/
  taken : Nat

namespace PacketRing

variable {σ : Type}

/-- The ring behind `setup_socket`: all blocks are the kernel's. -/
def initial (blockSize : Nat) (th : Monitored σ) : PacketRing σ where
  map := fun _ => List.replicate blockSize 0
  blockNum := 0
  pc := .check
  th := th
  kernelBlock := 0
  retired := []
  taken := 0

/-- The block at which the thread stands. -/
def pbd (r : PacketRing σ) : List UInt8 := r.map r.blockNum

/-- The next access of the thread in the loop of `vmars_poll_socket`; a `poll` only waits. -/
def threadStep (display : List UInt8 → Nat → σ → Checked σ) (r : PacketRing σ) :
    Checked (PacketRing σ) :=
  match r.pc with
  | .check => do
      let blockStatus ← fieldAt r.pbd 4 8
      if blockStatus &&& tpStatusUser = 0 then .ok r else .ok { r with pc := .found }
  | .found => do
      let numPkts ← fieldAt r.pbd 4 12
      let offsetToFirstPkt ← fieldAt r.pbd 4 16
      .ok { r with pc := .walking (wrap32 numPkts).toNat offsetToFirstPkt 0 }
  | .walking 0 _ _ =>
      .ok { r with th.bytesTotal := r.th.bytesTotal + 1, pc := .walked }
  | .walking (left + 1) ppd bytes => do
      let hdr ← tpacket3Hdr r.pbd ppd
      let bytes := (bytes + hdr.tpSnaplen) % 18446744073709551616
      let ctx ← display r.pbd ppd r.th.ctx
      .ok { r with th.ctx := ctx, pc := .walking left (ppd + hdr.tpNextOffset) bytes }
  | .walked =>
      .ok { r with
        map := Function.update r.map r.blockNum (flushBlock r.pbd)
        blockNum := (r.blockNum + 1) % blockNr
        pc := .check
        taken := r.taken + 1 }

/-- Several accesses of the thread. -/
def threadSteps (display : List UInt8 → Nat → σ → Checked σ) :
    Nat → PacketRing σ → Checked (PacketRing σ)
  | 0, r => .ok r
  | n + 1, r => do threadSteps display n (← r.threadStep display)

end PacketRing

/-! ## The kernel -/

inductive RingEvent where
  /-- The kernel writes to its block. -/
  | fill (pbd : List UInt8)
  /-- The kernel retires its block. -/
  | retire (pbd : List UInt8)
  | thread

namespace PacketRing

variable {σ : Type} (display : List UInt8 → Nat → σ → Checked σ) (blockSize : Nat)

/-- The kernel writes to its block, if it is its own; else its queue is frozen. -/
def fill (r : PacketRing σ) (pbd : List UInt8) : PacketRing σ :=
  if pbd.length = blockSize ∧ isUser (r.map r.kernelBlock) = false ∧ isUser pbd = false then
    { r with map := Function.update r.map r.kernelBlock pbd }
  else r

/-- The kernel retires its block and goes on to the next one. -/
def retire (r : PacketRing σ) (pbd : List UInt8) : PacketRing σ :=
  if pbd.length = blockSize ∧ isUser (r.map r.kernelBlock) = false ∧ isUser pbd = true then
    { r with
      map := Function.update r.map r.kernelBlock pbd
      kernelBlock := (r.kernelBlock + 1) % blockNr
      retired := r.retired ++ [pbd] }
  else r

def step (r : PacketRing σ) : RingEvent → Checked (PacketRing σ)
  | .fill pbd => .ok (r.fill blockSize pbd)
  | .retire pbd => .ok (r.retire blockSize pbd)
  | .thread => r.threadStep display

/-- Any interleaving of kernel and thread. -/
def run : List RingEvent → PacketRing σ → Checked (PacketRing σ)
  | [], r => .ok r
  | event :: events, r => do run events (← r.step display blockSize event)

end PacketRing

/-! ## Blocks -/

/-- A field is read where its bytes are. -/
theorem fieldAt_append {pre mid post : List UInt8} :
    fieldAt (pre ++ mid ++ post) mid.length pre.length = .ok (leValue mid) := by
  unfold fieldAt
  rw [if_pos (by simp only [List.length_append]; omega), List.append_assoc, List.drop_left,
    List.take_left]

/-- A flushed block keeps its size. -/
theorem length_flushBlock {pbd : List UInt8} (h : sizeofBlockDesc ≤ pbd.length) :
    (flushBlock pbd).length = pbd.length := by
  unfold sizeofBlockDesc at h
  simp only [flushBlock, List.length_append, List.length_take, leBytes_length, List.length_drop]
  omega

/-- A block that is given back is the kernel's. -/
theorem isUser_flushBlock {pbd : List UInt8} (h : sizeofBlockDesc ≤ pbd.length) :
    isUser (flushBlock pbd) = false := by
  unfold sizeofBlockDesc at h
  have hfield := @fieldAt_append (pbd.take 8) (leBytes 4 tpStatusKernel) (pbd.drop 12)
  rw [leBytes_length, List.length_take, Nat.min_eq_left (by omega)] at hfield
  unfold isUser flushBlock
  rw [hfield]
  decide

/-- A cleared block is the kernel's. -/
theorem isUser_replicate (blockSize : Nat) : isUser (List.replicate blockSize 0) = false := by
  unfold isUser fieldAt
  split
  · next blockStatus hread =>
    split at hread
    · next hin =>
      rw [List.length_replicate] at hin
      rw [List.drop_replicate, List.take_replicate, Nat.min_eq_left (by omega)] at hread
      obtain rfl := Except.ok.inj hread
      decide
    · cases hread
  · rfl

/-- What the thread finds when it reads the status. -/
theorem fieldAt_status {pbd : List UInt8} (h : sizeofBlockDesc ≤ pbd.length) :
    ∃ blockStatus, fieldAt pbd 4 8 = .ok blockStatus ∧
      (isUser pbd = true ↔ ¬ blockStatus &&& tpStatusUser = 0) := by
  unfold sizeofBlockDesc at h
  obtain ⟨blockStatus, hread⟩ := @fieldAt_isOk pbd 4 8 (by omega)
  refine ⟨blockStatus, hread, ?_⟩
  unfold isUser
  rw [hread]
  simp

/-! ## The invariant -/

namespace PacketRing

variable {σ : Type} {display : List UInt8 → Nat → σ → Checked σ} {blockSize : Nat}
  {th : Monitored σ} {r r' : PacketRing σ}

/-- The thread once it is done with its block. -/
def finish (display : List UInt8 → Nat → σ → Checked σ) (r : PacketRing σ) :
    Checked (Monitored σ) :=
  match r.pc with
  | .check => .ok r.th
  | .found => walkBlock display r.th r.pbd
  | .walking left ppd bytes => do
      let (ctx, _) ← walkPackets (display r.pbd) r.pbd left ppd r.th.ctx bytes
      .ok { ctx, bytesTotal := r.th.bytesTotal + 1 }
  | .walked => .ok r.th

/-- The number of blocks that the thread has started on. -/
def begun (r : PacketRing σ) : Nat :=
  if r.pc = .check then r.taken else r.taken + 1

/-- The thread works on a retired block, and will have made of the retired blocks what
`walkBlocks` makes of them. -/
structure Inv (display : List UInt8 → Nat → σ → Checked σ) (blockSize : Nat)
    (th : Monitored σ) (r : PacketRing σ) : Prop where
  ring : HandoffRing.Inv blockNr isUser r.map r.taken r.retired
  size : ∀ i, (r.map i).length = blockSize
  blockNum : r.blockNum = r.taken % blockNr
  kernelBlock : r.kernelBlock = r.retired.length % blockNr
  owned : r.pc ≠ .check → isUser r.pbd = true
  result : r.finish display = walkBlocks display th (r.retired.take r.begun)

theorem blockNr_pos : 0 < blockNr := by decide

/-- One more block. -/
theorem walkBlocks_take {blocks : List (List UInt8)} {n : Nat} {pbd : List UInt8}
    (h : blocks[n]? = some pbd) (th : Monitored σ) :
    walkBlocks display th (blocks.take (n + 1)) =
      (walkBlocks display th (blocks.take n) >>= fun th => walkBlock display th pbd) := by
  obtain ⟨hlt, rfl⟩ := List.getElem?_eq_some_iff.mp h
  rw [List.take_succ_eq_append_getElem hlt]
  unfold walkBlocks
  rw [List.foldlM_append]
  simp only [List.foldlM_cons, List.foldlM_nil, bind_pure]

/-- A fault in the first blocks is a fault in all of them. -/
theorem walkBlocks_error {blocks : List (List UInt8)} {n : Nat} {fault : Fault}
    (h : walkBlocks display th (blocks.take n) = .error fault) :
    walkBlocks display th blocks = .error fault := by
  unfold walkBlocks at h ⊢
  rw [← List.take_append_drop n blocks, List.foldlM_append, h]
  rfl

theorem finish_found (h : r.pc = .found) : r.finish display = walkBlock display r.th r.pbd := by
  simp only [finish, h]

/-- A thread inside a block has the rest of the walk ahead. -/
theorem finish_walking {left ppd bytes : Nat} (h : r.pc = .walking left ppd bytes) :
    r.finish display = (do
      let (ctx, _) ← walkPackets (display r.pbd) r.pbd left ppd r.th.ctx bytes
      .ok { ctx, bytesTotal := r.th.bytesTotal + 1 }) := by
  simp only [finish, h]

/-- On a block, a step of the thread does not change what it ends with. -/
theorem finish_step (h : r.pc ≠ .check) :
    (r.threadStep display >>= fun r => r.finish display) = r.finish display := by
  cases hpc : r.pc with
  | check => exact absurd hpc h
  | found =>
      rw [finish_found hpc, walkBlock]
      simp only [threadStep, hpc]
      cases fieldAt r.pbd 4 12 with
      | error fault => rfl
      | ok numPkts =>
          cases fieldAt r.pbd 4 16 with
          | error fault => rfl
          | ok offsetToFirstPkt =>
              rw [ok_bind, ok_bind, ok_bind, ok_bind, ok_bind]
              generalize (wrap32 numPkts).toNat = left
              rfl
  | walking left ppd bytes =>
      rw [finish_walking hpc]
      cases left with
      | zero => simp only [threadStep, finish, walkPackets, hpc, ok_bind]
      | succ left =>
          simp only [threadStep, walkPackets, hpc]
          cases tpacket3Hdr r.pbd ppd with
          | error fault => rfl
          | ok hdr =>
              rw [ok_bind, ok_bind]
              generalize (bytes + hdr.tpSnaplen) % 18446744073709551616 = bytes
              cases display r.pbd ppd r.th.ctx with
              | error fault => rfl
              | ok ctx => rfl
  | walked => simp only [threadStep, finish, hpc, ok_bind]

/-- What a step of the thread does. -/
theorem threadStep_cases (hstep : r.threadStep display = .ok r') :
    (r.pc = .check ∧ r' = r) ∨
      (r.pc = .check ∧ isUser r.pbd = true ∧ r' = { r with pc := .found }) ∨
      (r.pc ≠ .check ∧ ∃ pc th, pc ≠ .check ∧ r' = { r with pc, th }) ∨
      (r.pc = .walked ∧ r' = { r with
        map := Function.update r.map r.blockNum (flushBlock r.pbd)
        blockNum := (r.blockNum + 1) % blockNr
        pc := .check
        taken := r.taken + 1 }) := by
  cases hpc : r.pc with
  | check =>
      simp only [threadStep, hpc] at hstep
      obtain ⟨blockStatus, hread, hstep⟩ := bind_eq_ok.mp hstep
      split at hstep
      · exact .inl ⟨rfl, (Except.ok.inj hstep).symm⟩
      · next hstatus =>
        have huser : isUser r.pbd = true := by
          unfold isUser
          rw [hread]
          simpa using hstatus
        exact .inr (.inl ⟨rfl, huser, (Except.ok.inj hstep).symm⟩)
  | found =>
      simp only [threadStep, hpc] at hstep
      obtain ⟨numPkts, -, hstep⟩ := bind_eq_ok.mp hstep
      obtain ⟨offsetToFirstPkt, -, hstep⟩ := bind_eq_ok.mp hstep
      exact .inr (.inr (.inl ⟨PollPc.noConfusion, _, _, PollPc.noConfusion,
        (Except.ok.inj hstep).symm⟩))
  | walking left ppd bytes =>
      cases left with
      | zero =>
          simp only [threadStep, hpc] at hstep
          exact .inr (.inr (.inl ⟨PollPc.noConfusion, _, _, PollPc.noConfusion,
            (Except.ok.inj hstep).symm⟩))
      | succ left =>
          simp only [threadStep, hpc] at hstep
          obtain ⟨hdr, -, hstep⟩ := bind_eq_ok.mp hstep
          obtain ⟨ctx, -, hstep⟩ := bind_eq_ok.mp hstep
          exact .inr (.inr (.inl ⟨PollPc.noConfusion, _, _, PollPc.noConfusion,
            (Except.ok.inj hstep).symm⟩))
  | walked =>
      simp only [threadStep, hpc] at hstep
      exact .inr (.inr (.inr ⟨rfl, (Except.ok.inj hstep).symm⟩))

namespace Inv

/-- At the start the kernel owns all blocks and the thread has walked none. -/
theorem initial (th : Monitored σ) :
    (PacketRing.initial blockSize th).Inv display blockSize th where
  ring := .empty fun _ => isUser_replicate blockSize
  size := fun _ => List.length_replicate
  blockNum := rfl
  kernelBlock := rfl
  owned := fun hpc => absurd rfl hpc
  result := rfl

/-- The block on which the thread works is the oldest one that is not given back. -/
theorem getElem?_taken (h : r.Inv display blockSize th) (huser : isUser r.pbd = true) :
    r.retired[r.taken]? = some r.pbd := by
  have hget := h.ring.get blockNr_pos
  rw [← h.blockNum] at hget
  exact hget huser

/-- The kernel stands at a block on which the thread does not work. -/
theorem ne_kernelBlock (h : r.Inv display blockSize th) (hpc : r.pc ≠ .check)
    (hkernel : isUser (r.map r.kernelBlock) = false) : r.blockNum ≠ r.kernelBlock := by
  intro heq
  have howned := h.owned hpc
  rw [pbd, heq, hkernel] at howned
  cases howned

/-- The number of blocks that the thread has started on are retired. -/
theorem begun_le (h : r.Inv display blockSize th) : r.begun ≤ r.retired.length := by
  unfold begun
  split
  · exact h.ring.taken_le
  · next hpc => exact (List.getElem?_eq_some_iff.mp (h.getElem?_taken (h.owned hpc))).1

/-- What the thread ends with depends on its own block only. -/
theorem finish_congr (hpc : r'.pc = r.pc) (hth : r'.th = r.th)
    (hpbd : r.pc ≠ .check → r'.pbd = r.pbd) : r'.finish display = r.finish display := by
  unfold finish
  rw [hpc, hth]
  cases hpc' : r.pc with
  | check => rfl
  | found => rw [hpbd (by rw [hpc']; exact PollPc.noConfusion)]
  | walking left ppd bytes => rw [hpbd (by rw [hpc']; exact PollPc.noConfusion)]
  | walked => rfl

/-- The kernel writes to its block, and may have retired it. -/
theorem kernelWrite (h : r.Inv display blockSize th) {pbd : List UInt8}
    {more : List (List UInt8)} {kernelBlock : Nat} (hsize : pbd.length = blockSize)
    (hkernel : isUser (r.map r.kernelBlock) = false)
    (hring : HandoffRing.Inv blockNr isUser (Function.update r.map r.kernelBlock pbd) r.taken
      (r.retired ++ more))
    (hnext : kernelBlock = (r.retired ++ more).length % blockNr) :
    PacketRing.Inv display blockSize th
      { r with
        map := Function.update r.map r.kernelBlock pbd
        kernelBlock
        retired := r.retired ++ more } := by
  have hpbd : r.pc ≠ .check → Function.update r.map r.kernelBlock pbd r.blockNum = r.pbd :=
    fun hpc => Function.update_of_ne (h.ne_kernelBlock hpc hkernel) _ _
  refine ⟨hring, ?_, h.blockNum, hnext, ?_, ?_⟩
  · intro i
    by_cases hi : i = r.kernelBlock
    · subst hi
      simp only [Function.update_self]
      exact hsize
    · simp only [Function.update_of_ne hi]
      exact h.size i
  · intro hpc
    have howned := h.owned hpc
    rw [← hpbd hpc] at howned
    exact howned
  · have htake : (r.retired ++ more).take r.begun = r.retired.take r.begun :=
      List.take_append_of_le_length h.begun_le
    show _ = walkBlocks display th ((r.retired ++ more).take r.begun)
    rw [htake, ← h.result]
    exact finish_congr rfl rfl hpbd

/-- What the kernel writes to its own block is not seen by the thread. -/
theorem fill (h : r.Inv display blockSize th) (pbd : List UInt8) :
    (r.fill blockSize pbd).Inv display blockSize th := by
  unfold PacketRing.fill
  split
  · next hfill =>
    obtain ⟨hsize, hkernel, huser⟩ := hfill
    have hring := h.ring.scribble blockNr_pos (by rw [← h.kernelBlock]; exact hkernel) huser
    rw [← h.kernelBlock, ← List.append_nil r.retired] at hring
    have hnext : r.kernelBlock = (r.retired ++ []).length % blockNr := by
      rw [List.append_nil]
      exact h.kernelBlock
    have hwritten := h.kernelWrite hsize hkernel hring hnext
    simp only [List.append_nil] at hwritten
    exact hwritten
  · exact h

/-- **The kernel retires a block**: it joins the blocks that the thread is to walk. -/
theorem retire (h : r.Inv display blockSize th) (pbd : List UInt8) :
    (r.retire blockSize pbd).Inv display blockSize th := by
  unfold PacketRing.retire
  split
  · next hretire =>
    obtain ⟨hsize, hkernel, huser⟩ := hretire
    have hring := h.ring.give blockNr_pos (by rw [← h.kernelBlock]; exact hkernel) huser
    rw [← h.kernelBlock] at hring
    apply h.kernelWrite hsize hkernel hring
    rw [List.length_append, List.length_singleton, h.kernelBlock, Nat.mod_add_mod]
  · exact h

/-- A step of the thread faults only where `walk_block` faults. -/
theorem thread_error (h : r.Inv display blockSize th) (hsize : sizeofBlockDesc ≤ blockSize)
    {fault : Fault} (hstep : r.threadStep display = .error fault) :
    walkBlocks display th r.retired = .error fault := by
  by_cases hpc : r.pc = .check
  · obtain ⟨blockStatus, hread, -⟩ := fieldAt_status (hsize.trans_eq (h.size r.blockNum).symm)
    simp only [threadStep, hpc] at hstep
    rw [pbd, hread, ok_bind] at hstep
    split at hstep
    · cases hstep
    · cases hstep
  · have hfinish := @finish_step _ display _ hpc
    rw [hstep, error_bind, h.result] at hfinish
    exact walkBlocks_error hfinish.symm

/-- The thread goes on with a block that is the user's. -/
theorem found (h : r.Inv display blockSize th) (hpc : r.pc = .check)
    (huser : isUser r.pbd = true) :
    PacketRing.Inv display blockSize th { r with pc := .found } := by
  refine ⟨h.ring, h.size, h.blockNum, h.kernelBlock, fun _ => huser, ?_⟩
  have hresult := h.result
  unfold begun at hresult
  rw [if_pos hpc] at hresult
  simp only [finish, hpc] at hresult
  rw [finish_found rfl]
  show _ = walkBlocks display th (r.retired.take (r.taken + 1))
  rw [walkBlocks_take (h.getElem?_taken huser), ← hresult]
  rfl

/-- The thread gives its block back. -/
theorem flush (h : r.Inv display blockSize th) (hsize : sizeofBlockDesc ≤ blockSize)
    (hpc : r.pc = .walked) :
    PacketRing.Inv display blockSize th { r with
      map := Function.update r.map r.blockNum (flushBlock r.pbd)
      blockNum := (r.blockNum + 1) % blockNr
      pc := .check
      taken := r.taken + 1 } := by
  have hpbd : sizeofBlockDesc ≤ r.pbd.length := hsize.trans_eq (h.size r.blockNum).symm
  have hne : r.pc ≠ .check := by
    rw [hpc]
    exact PollPc.noConfusion
  have howned := h.owned hne
  have hresult := h.result
  unfold begun at hresult
  rw [if_neg hne] at hresult
  simp only [finish, hpc] at hresult
  have hring := h.ring.release blockNr_pos (by rw [← h.blockNum]; exact howned)
    (isUser_flushBlock hpbd)
  rw [← h.blockNum] at hring
  refine ⟨hring, ?_, ?_, h.kernelBlock, fun hno => absurd rfl hno, hresult⟩
  · intro i
    by_cases hi : i = r.blockNum
    · subst hi
      simp only [Function.update_self]
      rw [length_flushBlock hpbd]
      exact h.size r.blockNum
    · simp only [Function.update_of_ne hi]
      exact h.size i
  · show (r.blockNum + 1) % blockNr = (r.taken + 1) % blockNr
    rw [h.blockNum, Nat.mod_add_mod]

/-- The thread keeps the invariant. -/
theorem thread (h : r.Inv display blockSize th) (hsize : sizeofBlockDesc ≤ blockSize)
    (hstep : r.threadStep display = .ok r') : r'.Inv display blockSize th := by
  rcases threadStep_cases hstep with ⟨-, rfl⟩ | ⟨hpc, huser, rfl⟩ |
    ⟨hpc, pc, th', hpc', rfl⟩ | ⟨hpc, rfl⟩
  · exact h
  · exact h.found hpc huser
  · have hfinish := @finish_step _ display _ hpc
    rw [hstep, ok_bind, h.result] at hfinish
    refine ⟨h.ring, h.size, h.blockNum, h.kernelBlock, fun _ => h.owned hpc, ?_⟩
    unfold begun at hfinish ⊢
    rw [if_neg hpc] at hfinish
    rw [if_neg hpc']
    exact hfinish
  · exact h.flush hsize hpc

/-- Every event keeps the invariant. -/
theorem step (h : r.Inv display blockSize th) (hsize : sizeofBlockDesc ≤ blockSize)
    {event : RingEvent} (hstep : r.step display blockSize event = .ok r') :
    r'.Inv display blockSize th := by
  cases event with
  | fill pbd =>
      obtain rfl := Except.ok.inj hstep
      exact h.fill pbd
  | retire pbd =>
      obtain rfl := Except.ok.inj hstep
      exact h.retire pbd
  | thread => exact h.thread hsize hstep

/-- Every run keeps the invariant. -/
theorem run (h : r.Inv display blockSize th) (hsize : sizeofBlockDesc ≤ blockSize)
    {events : List RingEvent} (hrun : PacketRing.run display blockSize events r = .ok r') :
    r'.Inv display blockSize th := by
  induction events generalizing r with
  | nil =>
      obtain rfl := Except.ok.inj hrun
      exact h
  | cons event events ih =>
      obtain ⟨r₁, hstep, hrest⟩ := bind_eq_ok.mp hrun
      exact ih (h.step hsize hstep) hrest

end Inv

/-! ## The kernel pauses -/

/-- The ring once the block of the thread is given back. -/
def flushed (r : PacketRing σ) (th : Monitored σ) : PacketRing σ :=
  { r with
    map := Function.update r.map r.blockNum (flushBlock r.pbd)
    blockNum := (r.blockNum + 1) % blockNr
    pc := .check
    th
    taken := r.taken + 1 }

/-- The thread comes to the end of its block. -/
def Ends (display : List UInt8 → Nat → σ → Checked σ) (r : PacketRing σ) : Prop :=
  ∃ n, r.threadSteps display n = r.finish display >>= fun th => .ok (r.flushed th)

/-- Steps of the thread, one run after the other. -/
theorem threadSteps_add (m n : Nat) (r : PacketRing σ) :
    r.threadSteps display (m + n) =
      (r.threadSteps display m >>= fun r => r.threadSteps display n) := by
  induction m generalizing r with
  | zero =>
      rw [Nat.zero_add]
      rfl
  | succ m ih =>
      rw [Nat.add_right_comm, threadSteps, threadSteps, bind_assoc]
      simp only [ih]

/-- One step on a block. -/
theorem Ends.of_step (hpc : r.pc ≠ .check)
    (h : ∀ pc th, pc ≠ .check → r.threadStep display = .ok { r with pc, th } →
      Ends display { r with pc, th })
    (hwalked : r.pc ≠ .walked) : Ends display r := by
  have hfinish := @finish_step _ display _ hpc
  cases hstep : r.threadStep display with
  | error fault =>
      rw [hstep, error_bind] at hfinish
      refine ⟨1, ?_⟩
      rw [threadSteps, hstep, ← hfinish]
      rfl
  | ok r' =>
      rcases threadStep_cases hstep with ⟨hcheck, -⟩ | ⟨hcheck, -, -⟩ |
        ⟨-, pc, th, hpc', rfl⟩ | ⟨hno, -⟩
      · exact absurd hcheck hpc
      · exact absurd hcheck hpc
      · obtain ⟨n, hn⟩ := h pc th hpc' hstep
        rw [hstep, ok_bind] at hfinish
        refine ⟨n + 1, ?_⟩
        rw [threadSteps, hstep, ok_bind, hn, hfinish]
        rfl
      · exact absurd hno hwalked

/-- Behind the walk one step is left. -/
theorem ends_walked (h : r.pc = .walked) : Ends display r := by
  refine ⟨1, ?_⟩
  simp only [threadSteps, threadStep, finish, h, ok_bind]
  rfl

/-- The loop of `walk_block` has as many rounds left as its counter says. -/
theorem ends_walking {left ppd bytes : Nat} (h : r.pc = .walking left ppd bytes) :
    Ends display r := by
  induction left generalizing r ppd bytes with
  | zero =>
      apply Ends.of_step
      · rw [h]
        exact PollPc.noConfusion
      · intro pc th _ hstep
        simp only [threadStep, h] at hstep
        apply ends_walked
        exact (congrArg PacketRing.pc (Except.ok.inj hstep)).symm
      · rw [h]
        exact PollPc.noConfusion
  | succ left ih =>
      apply Ends.of_step
      · rw [h]
        exact PollPc.noConfusion
      · intro pc th _ hstep
        simp only [threadStep, h] at hstep
        obtain ⟨hdr, -, hstep⟩ := bind_eq_ok.mp hstep
        obtain ⟨ctx, -, hstep⟩ := bind_eq_ok.mp hstep
        apply ih
        exact (congrArg PacketRing.pc (Except.ok.inj hstep)).symm
      · rw [h]
        exact PollPc.noConfusion

/-- A thread that has begun with a block comes to its end, or faults as the walk does. -/
theorem ends (h : r.pc ≠ .check) : Ends display r := by
  cases hpc : r.pc with
  | check => exact absurd hpc h
  | found =>
      apply Ends.of_step h
      · intro pc th _ hstep
        simp only [threadStep, hpc] at hstep
        obtain ⟨numPkts, -, hstep⟩ := bind_eq_ok.mp hstep
        obtain ⟨offsetToFirstPkt, -, hstep⟩ := bind_eq_ok.mp hstep
        apply ends_walking
        exact (congrArg PacketRing.pc (Except.ok.inj hstep)).symm
      · rw [hpc]
        exact PollPc.noConfusion
  | walking left ppd bytes => exact ends_walking hpc
  | walked => exact ends_walked hpc

namespace Inv

/-- The steps of the thread alone keep the invariant. -/
theorem threadSteps (h : r.Inv display blockSize th) (hsize : sizeofBlockDesc ≤ blockSize)
    {n : Nat} (hsteps : r.threadSteps display n = .ok r') : r'.Inv display blockSize th := by
  induction n generalizing r with
  | zero =>
      obtain rfl := Except.ok.inj hsteps
      exact h
  | succ n ih =>
      obtain ⟨r₁, hstep, hrest⟩ := bind_eq_ok.mp hsteps
      exact ih (h.thread hsize hstep) hrest

/-- The result of the thread between two blocks. -/
theorem result_check (h : r.Inv display blockSize th) (hpc : r.pc = .check) :
    walkBlocks display th (r.retired.take r.taken) = .ok r.th := by
  have hresult := h.result
  unfold begun at hresult
  rw [if_pos hpc] at hresult
  simp only [finish, hpc] at hresult
  exact hresult.symm

/-- The thread comes to the end of all blocks that are retired. -/
def Drains (display : List UInt8 → Nat → σ → Checked σ) (th : Monitored σ)
    (r : PacketRing σ) : Prop :=
  ∃ n, (r.threadSteps display n).map (fun r => (r.th, r.taken)) =
    (walkBlocks display th r.retired).map fun th => (th, r.retired.length)

/-- Behind a block the rest is as before. -/
theorem drains_of_ends (h : r.Inv display blockSize th) (hsize : sizeofBlockDesc ≤ blockSize)
    (hpc : r.pc ≠ .check)
    (hrest : ∀ th', PacketRing.Inv display blockSize th (r.flushed th') →
      Drains display th (r.flushed th')) : Drains display th r := by
  obtain ⟨n, hends⟩ := @ends _ display _ hpc
  cases hfinish : r.finish display with
  | error fault =>
      have hresult := h.result
      rw [hfinish] at hends hresult
      refine ⟨n, ?_⟩
      rw [hends, walkBlocks_error hresult.symm]
      rfl
  | ok th' =>
      rw [hfinish, ok_bind] at hends
      obtain ⟨m, hm⟩ := hrest th' (h.threadSteps hsize hends)
      refine ⟨n + m, ?_⟩
      rw [threadSteps_add, hends, ok_bind]
      exact hm

/-- From its check on the thread walks what is retired, by induction on the number of blocks. -/
theorem drains_check (h : r.Inv display blockSize th) (hsize : sizeofBlockDesc ≤ blockSize)
    (hpc : r.pc = .check) : Drains display th r := by
  induction hleft : r.retired.length - r.taken generalizing r with
  | zero =>
      have htaken := h.ring.taken_le
      have hresult := h.result_check hpc
      rw [List.take_of_length_le (by omega)] at hresult
      refine ⟨0, ?_⟩
      rw [hresult]
      show Except.ok (r.th, r.taken) = Except.ok (r.th, r.retired.length)
      rw [show r.taken = r.retired.length by omega]
  | succ left ih =>
      have huser : isUser r.pbd = true := by
        have hfull := (h.ring.full_iff blockNr_pos).mpr (by omega)
        rw [← h.blockNum] at hfull
        exact hfull
      obtain ⟨blockStatus, hread, hstatus⟩ :=
        fieldAt_status (hsize.trans_eq (h.size r.blockNum).symm)
      have hstep : r.threadStep display = .ok { r with pc := .found } := by
        simp only [threadStep, hpc]
        rw [pbd, hread, ok_bind, if_neg (hstatus.mp huser)]
      have hfound := h.found hpc huser
      obtain ⟨n, hn⟩ := hfound.drains_of_ends hsize PollPc.noConfusion fun th' hinv => by
        apply ih hinv rfl
        show r.retired.length - (r.taken + 1) = left
        omega
      refine ⟨n + 1, ?_⟩
      rw [PacketRing.threadSteps, hstep, ok_bind]
      exact hn

/-- While the kernel pauses the thread gives all retired blocks back. -/
theorem drains (h : r.Inv display blockSize th) (hsize : sizeofBlockDesc ≤ blockSize) :
    Drains display th r := by
  by_cases hpc : r.pc = .check
  · exact h.drains_check hsize hpc
  · exact h.drains_of_ends hsize hpc fun th' hinv => hinv.drains_check hsize rfl

end Inv

end PacketRing

/-! ## Every retired block is walked over once -/

/-- What holds of kernel and thread in every state. -/
structure PacketRing.Exact {σ : Type} (display : List UInt8 → Nat → σ → Checked σ)
    (th : Monitored σ) (r : PacketRing σ) : Prop where
  /-- No more blocks wait than there are, in their order. -/
  waiting : r.taken ≤ r.retired.length ∧ r.retired.length ≤ r.taken + blockNr
  /-- On a block, the thread finds there what was retired. -/
  intact : r.pc ≠ .check → r.retired[r.taken]? = some r.pbd
  /-- Between two blocks it has walked over those that it has given back. -/
  walked : r.pc = .check → walkBlocks display th (r.retired.take r.taken) = .ok r.th
  /-- It faults only where `walk_block` does. -/
  fault : ∀ fault, r.threadStep display = .error fault →
    walkBlocks display th r.retired = .error fault
  /-- While the kernel pauses it comes to the end of all retired blocks. -/
  drains : ∃ n, (r.threadSteps display n).map (fun r => (r.th, r.taken)) =
    (walkBlocks display th r.retired).map fun th => (th, r.retired.length)

/-- **Every retired block is walked over exactly once, in order**, in every interleaving of
the kernel and the capture thread. -/
theorem packetRing_exact {σ : Type} (display : List UInt8 → Nat → σ → Checked σ)
    {blockSize : Nat} (hsize : sizeofBlockDesc ≤ blockSize) (th : Monitored σ)
    {events : List RingEvent} {r : PacketRing σ}
    (hrun : PacketRing.run display blockSize events (.initial blockSize th) = .ok r) :
    r.Exact display th := by
  have hinv := (PacketRing.Inv.initial th).run hsize hrun
  exact
    { waiting := ⟨hinv.ring.taken_le, hinv.ring.fits⟩
      intact := fun hpc => hinv.getElem?_taken (hinv.owned hpc)
      walked := hinv.result_check
      fault := fun _ hstep => hinv.thread_error hsize hstep
      drains := hinv.drains hsize }

/-- A block with one frame of three captured bytes, with a status. -/
def oneFrame (blockStatus : Nat) : List UInt8 :=
  List.replicate 8 0 ++ leBytes 4 blockStatus ++ leBytes 4 1 ++ leBytes 4 48 ++
    List.replicate 28 0 ++ leBytes 4 0 ++ leBytes 4 7 ++ leBytes 4 100 ++ leBytes 4 3 ++
    List.replicate 32 0

/-- The thread polls twice, the kernel goes on to the next block while it walks. -/
def overlapping : List RingEvent :=
  [.thread, .fill (oneFrame 0), .thread, .retire (oneFrame 1), .thread, .thread,
    .fill (oneFrame 4), .thread, .retire (oneFrame 5), .thread, .thread, .thread]

/-- The kernel fills and retires blocks while the thread walks others. -/
theorem packetRing_exact_overlapping :
    ∃ r, PacketRing.run (fun _ ppd ctx => .ok (ctx ++ [ppd])) 96 overlapping
        (.initial 96 ⟨[], 0⟩) = .ok r ∧
      r.Exact (fun _ ppd ctx => .ok (ctx ++ [ppd])) ⟨[], 0⟩ := by
  have hok : (PacketRing.run (fun _ ppd ctx => .ok (ctx ++ [ppd])) 96 overlapping
      (.initial 96 ⟨[], 0⟩)).toBool = true := by decide +kernel
  cases hrun : PacketRing.run (fun _ ppd ctx => .ok (ctx ++ [ppd])) 96 overlapping
      (.initial 96 ⟨[], 0⟩) with
  | error fault =>
      rw [hrun] at hok
      cases hok
  | ok r => exact ⟨r, rfl, packetRing_exact _ (by decide) _ hrun⟩

end Vmars
