import Vmars.FixDecode
import Vmars.FixExtraction
import Vmars.LatencyHandler

/-!
# What the key of a summary identifies

The key joins the remote id, the local id, the instruction and the instrument
with `'|'`, and the latency table compares keys as C strings.  Values of fields
may contain `'|'`, which moves the borders of the parts, and NUL, which hides all
that follows it.

`keysIdentify_iff` says that nothing else goes wrong: the keys of all accepted
messages whose values are made of certain bytes identify their conversations
exactly when neither of the two bytes is among these.
-/

namespace Vmars

open CMemory

/-- The conversation that a message belongs to. -/
structure Conversation where
  remoteId : List UInt8
  localId : List UInt8
  instruction : List UInt8
  instrument : List UInt8
  deriving DecidableEq, Repr

/-- The conversation of a message that is measured. -/
def conversationOf (details : FixDetails) : Option Conversation :=
  (measuredIds details).map fun ids =>
    { remoteId := ids.1, localId := ids.2, instruction := details.clOrdId
      instrument := instrumentOf details }

/-- The details of a message that the parser accepts, as `try_parse_fix_message`
collects them. -/
def acceptedDetails (fixMessage : List UInt8) (len : Int) : Checked (Option FixDetails) := do
  let run ← vmarsFixParseMsg fixMessage len 0
  let details ← collect fixMessage run.calls {}
  .ok (if run.ret.result = .ok then some details else none)

/-- An accepted message of a conversation is published with this summary. -/
def Published (conversation : Conversation) (summary : FixMessageSummary) : Prop :=
  ∃ fixMessage len details tvSec tvNsec, acceptedDetails fixMessage len = .ok (some details) ∧
    conversationOf details = some conversation ∧
    summaryOf tvSec tvNsec details = .ok (some summary)

/-- All bytes of the four values are allowed. -/
structure Conversation.Over (allowed : UInt8 → Prop) (conversation : Conversation) : Prop where
  remoteId : ∀ b ∈ conversation.remoteId, allowed b
  localId : ∀ b ∈ conversation.localId, allowed b
  instruction : ∀ b ∈ conversation.instruction, allowed b
  instrument : ∀ b ∈ conversation.instrument, allowed b

/-- Among the published messages with values of these bytes, the keys are equal, as
C strings, exactly when the conversations are. -/
def KeysIdentify (allowed : UInt8 → Prop) : Prop :=
  ∀ conversation summary conversation' summary', Published conversation summary →
    Published conversation' summary' → conversation.Over allowed → conversation'.Over allowed →
      (cstr summary.key = cstr summary'.key ↔ conversation = conversation')

/-! ## Values without separator and NUL -/

/-- The key of a conversation. -/
def Conversation.key (conversation : Conversation) : List UInt8 :=
  keyText conversation.remoteId conversation.localId conversation.instruction
    conversation.instrument

/-- The key of a published summary is that of its conversation. -/
theorem Published.key_eq {conversation : Conversation} {summary : FixMessageSummary}
    (h : Published conversation summary) : summary.key = conversation.key := by
  obtain ⟨_, _, details, _, _, -, hconversation, hsummary⟩ := h
  rw [summaryOf_eq, eventOf] at hsummary
  unfold conversationOf at hconversation
  cases hids : measuredIds details with
  | none =>
      rw [hids] at hconversation
      cases hconversation
  | some ids =>
      rw [hids] at hconversation hsummary
      cases hconversation
      cases hsummary
      rfl

/-- The first separator ends the first part. -/
theorem append_cons_inj {sep : UInt8} {xs xs' ys ys' : List UInt8} (hxs : sep ∉ xs)
    (hxs' : sep ∉ xs') (h : xs ++ sep :: ys = xs' ++ sep :: ys') : xs = xs' ∧ ys = ys' := by
  induction xs generalizing xs' with
  | nil =>
      cases xs' with
      | nil => exact ⟨rfl, (List.cons.inj h).2⟩
      | cons x' xs' =>
          obtain rfl : sep = x' := (List.cons.inj h).1
          exact absurd (List.mem_cons_self ..) hxs'
  | cons x xs ih =>
      cases xs' with
      | nil =>
          obtain rfl : x = sep := (List.cons.inj h).1
          exact absurd (List.mem_cons_self ..) hxs
      | cons x' xs' =>
          obtain ⟨rfl, hrest⟩ := List.cons.inj h
          obtain ⟨rfl, rfl⟩ := ih (fun hmem => hxs (List.mem_cons_of_mem _ hmem))
            (fun hmem => hxs' (List.mem_cons_of_mem _ hmem)) hrest
          exact ⟨rfl, rfl⟩

/-- Without NULs the key is one C string. -/
theorem Conversation.cstr_key {conversation : Conversation} {allowed : UInt8 → Prop}
    (hover : conversation.Over allowed) (hnul : ¬ allowed 0) :
    cstr conversation.key = conversation.remoteId ++ 124 :: (conversation.localId ++ 124 ::
      (conversation.instruction ++ 124 :: conversation.instrument)) := by
  have hremote : (0 : UInt8) ∉ conversation.remoteId := fun h => hnul (hover.remoteId 0 h)
  have hlocal : (0 : UInt8) ∉ conversation.localId := fun h => hnul (hover.localId 0 h)
  have hinstruction : (0 : UInt8) ∉ conversation.instruction := fun h =>
    hnul (hover.instruction 0 h)
  have hinstrument : (0 : UInt8) ∉ conversation.instrument := fun h => hnul (hover.instrument 0 h)
  rw [Conversation.key, keyText, ncopy_of_nul_free hremote, ncopy_of_nul_free hlocal,
    ncopy_of_nul_free hinstruction, ncopy_of_nul_free hinstrument, cstr_of_nul_free]
  · simp
  · simp [hremote, hlocal, hinstruction, hinstrument]

/-- Without NULs and separators the key determines the conversation. -/
theorem Conversation.key_injective {a b : Conversation} {allowed : UInt8 → Prop}
    (ha : a.Over allowed) (hb : b.Over allowed) (hsep : ¬ allowed 124) (hnul : ¬ allowed 0)
    (h : cstr a.key = cstr b.key) : a = b := by
  rw [Conversation.cstr_key ha hnul, Conversation.cstr_key hb hnul] at h
  obtain ⟨hremote, h⟩ := append_cons_inj (fun hm => hsep (ha.remoteId _ hm))
    (fun hm => hsep (hb.remoteId _ hm)) h
  obtain ⟨hlocal, h⟩ := append_cons_inj (fun hm => hsep (ha.localId _ hm))
    (fun hm => hsep (hb.localId _ hm)) h
  obtain ⟨hinstruction, hinstrument⟩ := append_cons_inj (fun hm => hsep (ha.instruction _ hm))
    (fun hm => hsep (hb.instruction _ hm)) h
  cases a
  cases b
  simp_all

/-! ## Values with one of them -/

/-- The conversation of messages without ClOrdID and instrument. -/
def between (remoteId localId : List UInt8) : Conversation where
  remoteId := remoteId
  localId := localId
  instruction := []
  instrument := []

/-- An order between two parties. -/
def orderBetween (senderCompId targetCompId : List UInt8) (hsender : SOH ∉ senderCompId)
    (htarget : SOH ∉ targetCompId) : FixMessage :=
  .ofFields .fix42 [⟨.ofNat 35, ascii "D", msgTypeNumeral_le, newOrder_no_soh⟩,
    ⟨.ofNat 49, senderCompId, senderCompIdNumeral_le, hsender⟩,
    ⟨.ofNat 56, targetCompId, targetCompIdNumeral_le, htarget⟩] (by simp)

/-- An order that the parser accepts with these ids is published. -/
theorem published_between {fixMessage remoteId localId : List UInt8}
    (h : acceptedDetails fixMessage fixMessage.length = .ok (some
      { messageType := msgTypeNewOrderSingle, senderCompId := remoteId, targetCompId := localId })) :
    ∃ summary, Published (between remoteId localId) summary := by
  exact ⟨_, fixMessage, _, _, 0, 0, h, rfl, summaryOf_eq 0 0 _⟩

/-- Two parties over an alphabet make a conversation over it. -/
theorem between_over {allowed : UInt8 → Prop} {remoteId localId : List UInt8}
    (hremote : ∀ b ∈ remoteId, allowed b) (hlocal : ∀ b ∈ localId, allowed b) :
    (between remoteId localId).Over allowed :=
  ⟨hremote, hlocal, fun _ h => (by cases h), fun _ h => (by cases h)⟩

/-- Two published conversations with one key refute the property. -/
theorem not_keysIdentify_of_collision {allowed : UInt8 → Prop} {a b : Conversation}
    (ha : ∃ summary, Published a summary) (hb : ∃ summary, Published b summary)
    (hover : a.Over allowed) (hover' : b.Over allowed) (hne : a ≠ b)
    (hkey : cstr a.key = cstr b.key) : ¬ KeysIdentify allowed := by
  obtain ⟨summary, ha⟩ := ha
  obtain ⟨summary', hb⟩ := hb
  intro h
  refine hne ((h a summary b summary' ha hb hover hover').mp ?_)
  rw [ha.key_eq, hb.key_eq, hkey]

/-- The remote id `"|"` without a local id and the local id `"|"` without a remote
id have the key `"||||"`. -/
theorem not_keysIdentify_of_separator {allowed : UInt8 → Prop} (h : allowed 124) :
    ¬ KeysIdentify allowed := by
  have hsep : ∀ b ∈ ([124] : List UInt8), allowed b := by simpa using h
  have hnone : ∀ b ∈ ([] : List UInt8), allowed b := by simp
  refine not_keysIdentify_of_collision (a := between [124] []) (b := between [] [124])
    (@published_between ((orderBetween [124] [] (by decide) (by decide)).encode) _ _ ?_)
    (@published_between ((orderBetween [] [124] (by decide) (by decide)).encode) _ _ ?_)
    (between_over hsep hnone) (between_over hnone hsep) (by decide) (by decide)
  · decide +kernel
  · decide +kernel

/-- A NUL as the remote id leaves nothing of the key. -/
theorem not_keysIdentify_of_nul {allowed : UInt8 → Prop} (h : allowed 0) :
    ¬ KeysIdentify allowed := by
  have hnul : ∀ b ∈ ([0] : List UInt8), allowed b := by simpa using h
  have hnone : ∀ b ∈ ([] : List UInt8), allowed b := by simp
  refine not_keysIdentify_of_collision (a := between [0] []) (b := between [0] [0])
    (@published_between ((orderBetween [0] [] (by decide) (by decide)).encode) _ _ ?_)
    (@published_between ((orderBetween [0] [0] (by decide) (by decide)).encode) _ _ ?_)
    (between_over hnul hnone) (between_over hnul hnul) (by decide) (by decide)
  · decide +kernel
  · decide +kernel

/-- **The key.**  The keys of the published messages with values made of certain
bytes identify their conversations exactly when neither the separator nor NUL is
among the bytes. -/
theorem keysIdentify_iff (allowed : UInt8 → Prop) :
    KeysIdentify allowed ↔ ¬ allowed 124 ∧ ¬ allowed 0 := by
  refine ⟨fun h => ⟨fun hsep => not_keysIdentify_of_separator hsep h,
    fun hnul => not_keysIdentify_of_nul hnul h⟩, ?_⟩
  rintro ⟨hsep, hnul⟩ a summary b summary' ha hb hover hover'
  rw [ha.key_eq, hb.key_eq]
  constructor
  · exact Conversation.key_injective hover hover' hsep hnul
  · rintro rfl
    rfl

/-- Values that only have to be free of SOH can collide. -/
theorem not_keysIdentify_sohFree : ¬ KeysIdentify fun b => b ≠ SOH :=
  not_keysIdentify_of_separator (by decide)

end Vmars
