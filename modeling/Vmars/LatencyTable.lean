import Vmars.KhashTable
import Vmars.LatencyHandler

/-!
# The latency table in its hash table (`latency_handler.c`, `khash.h`)

`calculate_latency` once more, now on the hash table of `KHASH_MAP_INIT_STR` in place of a
finite map.  The keys of the table are pointers into the records: when a record is freed, every
copy of its key in the array of keys dangles, and reading one is a fault.

* `latencyTable_refines`: **for every sequence of summaries** the values recorded and the
  pending records are those of `calculateLatencies`, and no freed key is read.

Memory suffices for the table: `calculate_latency` does not look at the result of `kh_put`.
-/

namespace Vmars

open CMemory OpenAddressing

/-! ## Freed keys -/

section Free

variable {K V : Type} [DecidableEq K]

/-- The memory of a key is freed: every copy of the pointer dangles. -/
def khFreeKey (h : Khash K V) (key : K) : Khash K V :=
  { h with keys := h.keys.map fun stored => if stored = some key then none else stored }

/-- A table does not miss the memory of a key that it has no entry for. -/
theorem khFreeKey_spec {hash : K → UInt32} {h : Khash K V} {map : K → Option V}
    (hrep : h.Represents hash map) {key : K} (habsent : map key = none) :
    (khFreeKey h key).Represents hash map := by
  have hstored := hrep.inv.stored
  have hlive : ∀ i < h.nBuckets.toNat, ∀ key' val, h.slot i = .live key' val → key' ≠ key := by
    rintro i hi key' val hslot rfl
    obtain ⟨v, -, hv⟩ := (hrep.holds key' val).mp (mem_entries.mpr ⟨i, hi, hslot⟩)
    rw [habsent] at hv
    cases hv
  have hkept : ∀ i < h.nBuckets.toNat, emptyBit h.flags i = false → delBit h.flags i = false →
      (khFreeKey h key).keys[i]? = h.keys[i]? := by
    intro i hi hempty hdel
    rcases hstored.slot_cases hi with ⟨hempty', -⟩ | ⟨-, hdel', -⟩ | ⟨-, -, key', hkey, hslot⟩
    · rw [hempty'] at hempty
      cases hempty
    · rw [hdel'] at hdel
      cases hdel
    · have hne := hlive i hi key' _ hslot
      simp [khFreeKey, hkey, hne]
  have hslots : ∀ i < h.nBuckets.toNat, (khFreeKey h key).slot i = h.slot i := by
    intro i hi
    cases hempty : emptyBit h.flags i with
    | true => simp [Khash.slot, khFreeKey, slotAt, hempty]
    | false =>
        cases hdel : delBit h.flags i with
        | true => simp [Khash.slot, khFreeKey, slotAt, hempty, hdel]
        | false => exact slotAt_congr rfl rfl (hkept i hi hempty hdel) rfl
  have hstored' : Stored h.nBuckets.toNat (khFreeKey h key).flags (khFreeKey h key).keys
      (khFreeKey h key).vals := by
    refine ⟨hstored.words, ?_, hstored.vals_le, fun i hi hempty hdel => ?_⟩
    · rw [khFreeKey, List.length_map]
      exact hstored.keys_le
    · rw [hkept i hi hempty hdel]
      exact hstored.written i hi hempty hdel
  obtain ⟨hinv, hentries⟩ := hrep.inv.of_agree (khFreeKey h key) rfl hstored' hslots
  exact ⟨hinv, by rw [hentries]; exact hrep.holds⟩

end Free

/-! ## The code -/

/-- What `calculate_latency` works on. -/
structure LatencyKhash where
  latencyTable : Khash (List UInt8) LatencyRecord
  histogram : List Int

/-- `kh_init` and a histogram without values. -/
def LatencyKhash.init : LatencyKhash where
  latencyTable := khInit
  histogram := []

/-- The branch of `calculate_latency` for a message whose key is in the table. -/
def completeLatency (st : LatencyKhash) (msg : FixMessageSummary) (k : UInt32) :
    Checked LatencyKhash := do
  match ← khVal st.latencyTable k with
  | none => .ok st
  | some latencyRecord =>
      if isComplement msg.msgType latencyRecord.msgType then do
        let table ← khSetVal st.latencyTable k none
        let table ← khDel table k
        .ok { latencyTable := khFreeKey table (cstr latencyRecord.key)
              histogram := st.histogram ++ [latencyNsec latencyRecord msg] }
      else .ok st

/-- The branch for a message whose key is not in the table. -/
def storeLatency (st : LatencyKhash) (msg : FixMessageSummary) : Checked LatencyKhash := do
  let latencyRecord := LatencyRecord.ofSummary msg
  let (table, k, _) ← khPut acX31HashString Alloc.ok st.latencyTable (cstr latencyRecord.key)
  let table ← khSetVal table k (some latencyRecord)
  .ok { st with latencyTable := table }

/-- `calculate_latency`. -/
def calculateLatencyKhash (st : LatencyKhash) (msg : FixMessageSummary) : Checked LatencyKhash := do
  let k ← khGet acX31HashString st.latencyTable (cstr msg.key)
  if k ≠ st.latencyTable.nBuckets then completeLatency st msg k
  else storeLatency st msg

/-- The calls for a sequence of summaries. -/
def calculateLatenciesKhash (st : LatencyKhash) (msgs : List FixMessageSummary) :
    Checked LatencyKhash := msgs.foldlM calculateLatencyKhash st

/-! ## Refinement -/

/-- The records carry the key they are stored under. -/
def Keyed (latencyTable : List UInt8 → Option LatencyRecord) : Prop :=
  ∀ key latencyRecord, latencyTable key = some latencyRecord → cstr latencyRecord.key = key

/-- A record stored under its own key, or the record of a key taken out. -/
theorem Keyed.update {latencyTable : List UInt8 → Option LatencyRecord} (h : Keyed latencyTable)
    {key : List UInt8} {slot : Option LatencyRecord}
    (hslot : ∀ latencyRecord, slot = some latencyRecord → cstr latencyRecord.key = key) :
    Keyed (Function.update latencyTable key slot) := by
  intro key' latencyRecord hkey
  by_cases hself : key' = key
  · rw [hself, Function.update_self] at hkey
    rw [hself]
    exact hslot latencyRecord hkey
  · rw [Function.update_of_ne hself] at hkey
    exact h key' latencyRecord hkey

/-- The hash table stands for the finite map. -/
structure LatencyKhash.Represents (st : LatencyKhash) (spec : LatencyState) : Prop where
  table : st.latencyTable.Represents acX31HashString spec.latencyTable
  keyed : Keyed spec.latencyTable
  histogram : st.histogram = spec.histogram

/-- How many messages wait for their complement. -/
noncomputable def LatencyState.pending (spec : LatencyState) : Nat :=
  {key | spec.latencyTable key ≠ none}.ncard

/-- Only keys of messages are pending. -/
theorem pending_subset (msgs : List FixMessageSummary) (spec : LatencyState) :
    {key | (calculateLatencies spec msgs).latencyTable key ≠ none} ⊆
      {key | spec.latencyTable key ≠ none} ∪ {key | ∃ msg ∈ msgs, cstr msg.key = key} := by
  induction msgs generalizing spec with
  | nil => exact fun key hkey => .inl hkey
  | cons msg msgs ih =>
      intro key hkey
      rcases ih (calculateLatency spec msg) hkey with hstored | ⟨msg', hmem, hkey'⟩
      · by_cases hself : cstr msg.key = key
        · exact .inr ⟨msg, List.mem_cons_self, hself⟩
        · refine .inl ?_
          rwa [Set.mem_ofPred_eq, calculateLatency_other spec hself] at hstored
      · exact .inr ⟨msg', List.mem_cons_of_mem msg hmem, hkey'⟩

/-- From an empty table there are not more pending messages than messages. -/
theorem pending_le_length (msgs : List FixMessageSummary) :
    (calculateLatencies .init msgs).pending ≤ msgs.length := by
  have hsubset : {key | (calculateLatencies .init msgs).latencyTable key ≠ none} ⊆
      ((msgs.map fun msg => cstr msg.key).toFinset : Set (List UInt8)) := by
    intro key hkey
    rcases pending_subset msgs .init hkey with hnone | ⟨msg, hmem, hkey⟩
    · exact absurd rfl hnone
    · rw [Finset.mem_coe, List.mem_toFinset]
      exact List.mem_map.mpr ⟨msg, hmem, hkey⟩
  have hcard := Set.ncard_le_ncard hsubset (Finset.finite_toSet _)
  rw [Set.ncard_coe_finset] at hcard
  exact hcard.trans ((List.toFinset_card_le _).trans (List.length_map _).le)

/-- A new table and an empty histogram. -/
theorem LatencyKhash.init_represents : LatencyKhash.init.Represents LatencyState.init := by
  refine ⟨khInit_represents _, ?_, rfl⟩
  intro _ _ hslot
  cases hslot

/-- A message whose key is not in the table is stored. -/
theorem LatencyKhash.Represents.store {st : LatencyKhash} {spec : LatencyState}
    (h : st.Represents spec) (hroom : spec.pending ≤ khMaxEntries) {msg : FixMessageSummary}
    (hnone : spec.latencyTable (cstr msg.key) = none) :
    ∃ st', storeLatency st msg = .ok st' ∧ st'.Represents (calculateLatency spec msg) := by
  obtain ⟨h₁, x, ret, hput, hsets, -⟩ :=
    h.table.put hroom (cstr (LatencyRecord.ofSummary msg).key)
  obtain ⟨h₂, hset, hrep⟩ := hsets (LatencyRecord.ofSummary msg)
  have hspec : calculateLatency spec msg = { spec with
      latencyTable := Function.update spec.latencyTable
        (cstr (LatencyRecord.ofSummary msg).key) (some (LatencyRecord.ofSummary msg)) } := by
    unfold calculateLatency
    simp only [hnone]
  refine ⟨{ st with latencyTable := h₂ }, ?_, ?_⟩
  · simp only [storeLatency, hput, hset, ok_bind]
  · rw [hspec]
    refine ⟨hrep, h.keyed.update fun latencyRecord hslot => ?_, h.histogram⟩
    rw [← Option.some.inj hslot]

/-- A message that completes the stored one takes it out of the table. -/
theorem LatencyKhash.Represents.complete {st : LatencyKhash} {spec : LatencyState}
    (h : st.Represents spec) {msg : FixMessageSummary} {latencyRecord : LatencyRecord}
    {k : UInt32} (hk : k.toNat < st.latencyTable.nBuckets.toNat)
    (hlive : st.latencyTable.slot k.toNat = .live (cstr msg.key) (some latencyRecord))
    (hval : khVal st.latencyTable k = .ok (some latencyRecord))
    (hsome : spec.latencyTable (cstr msg.key) = some latencyRecord)
    (hcomplement : isComplement msg.msgType latencyRecord.msgType = true) :
    ∃ st', completeLatency st msg k = .ok st' ∧ st'.Represents (calculateLatency spec msg) := by
  obtain ⟨h₁, hset, hinv₁, hbuckets₁, hslot₁, rest, hold, hnew⟩ :=
    khSetVal_spec h.table.inv hk hlive none
  have hlive₁ : h₁.slot k.toNat = .live (cstr msg.key) none := by
    rw [hslot₁, Function.update_self]
  obtain ⟨h₂, hdel, hinv₂, -, -, hperm⟩ := khDel_spec hinv₁ (by rwa [hbuckets₁]) hlive₁
  have hrest := (hperm.symm.trans hnew).cons_inv
  have hholds := (h.table.holds.perm hold.symm).tail (h.table.inv.distinct_of_perm hold)
  have hrep : h₂.Represents acX31HashString
      (Function.update spec.latencyTable (cstr msg.key) none) :=
    ⟨hinv₂, hholds.perm hrest⟩
  -- the record is freed when no bucket has its key any more
  have habsent : Function.update spec.latencyTable (cstr msg.key) none
      (cstr latencyRecord.key) = none := by
    rw [h.keyed _ _ hsome, Function.update_self]
  have hfreed := khFreeKey_spec hrep habsent
  have hspec : calculateLatency spec msg =
      { latencyTable := Function.update spec.latencyTable (cstr msg.key) none
        histogram := spec.histogram ++ [latencyNsec latencyRecord msg] } := by
    unfold calculateLatency
    simp only [hsome]
    exact if_pos hcomplement
  refine ⟨{ latencyTable := khFreeKey h₂ (cstr latencyRecord.key)
            histogram := st.histogram ++ [latencyNsec latencyRecord msg] }, ?_, ?_⟩
  · simp only [completeLatency, hval, if_pos hcomplement, hset, hdel, ok_bind]
  · rw [hspec]
    refine ⟨hfreed, h.keyed.update ?_, by rw [h.histogram]⟩
    intro _ hslot
    cases hslot

/-- **A call on the hash table is one on the finite map.** -/
theorem LatencyKhash.Represents.call {st : LatencyKhash} {spec : LatencyState}
    (h : st.Represents spec) (hroom : spec.pending ≤ khMaxEntries) (msg : FixMessageSummary) :
    ∃ st', calculateLatencyKhash st msg = .ok st' ∧
      st'.Represents (calculateLatency spec msg) := by
  obtain ⟨k, hget, ⟨hend, hnone⟩ | ⟨hne, hk, latencyRecord, hlive, hval, hsome⟩⟩ :=
    h.table.get (cstr msg.key)
  · -- the key is not in the table
    rw [calculateLatencyKhash, hget, ok_bind, if_neg (not_not_intro hend)]
    exact h.store hroom hnone
  · rw [calculateLatencyKhash, hget, ok_bind, if_pos hne]
    by_cases hcomplement : isComplement msg.msgType latencyRecord.msgType = true
    · exact h.complete hk hlive hval hsome hcomplement
    · refine ⟨st, ?_, ?_⟩
      · simp only [completeLatency, hval, if_neg hcomplement, ok_bind]
      · rwa [calculateLatency_ignored hsome hcomplement]

/-- The calls for a sequence of summaries, from any pair of tables. -/
theorem LatencyKhash.Represents.calls (msgs : List FixMessageSummary) :
    ∀ {st : LatencyKhash} {spec : LatencyState}, st.Represents spec →
      (∀ before after, msgs = before ++ after →
        (calculateLatencies spec before).pending ≤ khMaxEntries) →
      ∃ st', calculateLatenciesKhash st msgs = .ok st' ∧
        st'.Represents (calculateLatencies spec msgs) := by
  induction msgs with
  | nil => exact fun h _ => ⟨_, rfl, h⟩
  | cons msg msgs ih =>
      intro st spec h hroom
      obtain ⟨st₁, hcall, hrep₁⟩ := h.call (hroom [] (msg :: msgs) rfl) msg
      obtain ⟨st₂, hcalls, hrep₂⟩ := ih hrep₁ fun before after hsplit =>
        hroom (msg :: before) after (congrArg (msg :: ·) hsplit)
      refine ⟨st₂, ?_, hrep₂⟩
      rw [calculateLatenciesKhash, List.foldlM_cons, hcall, ok_bind]
      exact hcalls

/-- **The hash table records the same latencies as the finite map** while memory suffices, for
every sequence of summaries with at most `2 ^ 29` pending messages at a time: no access leaves
its arrays, no freed key is read, and what it stands for at the end is the map of pending
records. -/
theorem latencyTable_refines (msgs : List FixMessageSummary)
    (hroom : ∀ before after, msgs = before ++ after →
      (calculateLatencies .init before).pending ≤ khMaxEntries) :
    ∃ st, calculateLatenciesKhash .init msgs = .ok st ∧
      st.histogram = (calculateLatencies .init msgs).histogram ∧
      st.latencyTable.Represents acX31HashString
        (calculateLatencies .init msgs).latencyTable := by
  obtain ⟨st, hcalls, hrep⟩ := LatencyKhash.init_represents.calls msgs hroom
  exact ⟨st, hcalls, hrep.histogram, hrep.table⟩

/-- A request and its response through the hash table. -/
theorem latencyTable_refines_pair :
    (calculateLatencies .init
      [⟨5, 10, msgTypeNewOrderSingle, [67]⟩, ⟨5, 30, msgTypeExecutionReport, [67]⟩]).histogram =
        [20] ∧
    ∃ st, calculateLatenciesKhash .init
        [⟨5, 10, msgTypeNewOrderSingle, [67]⟩, ⟨5, 30, msgTypeExecutionReport, [67]⟩] = .ok st ∧
      st.histogram = (calculateLatencies .init
        [⟨5, 10, msgTypeNewOrderSingle, [67]⟩,
          ⟨5, 30, msgTypeExecutionReport, [67]⟩]).histogram ∧
      st.latencyTable.Represents acX31HashString (calculateLatencies .init
        [⟨5, 10, msgTypeNewOrderSingle, [67]⟩,
          ⟨5, 30, msgTypeExecutionReport, [67]⟩]).latencyTable := by
  refine ⟨by decide, latencyTable_refines _ fun before after hsplit => ?_⟩
  have hlength := congrArg List.length hsplit
  rw [List.length_append] at hlength
  have hmax : khMaxEntries = 536870912 := rfl
  have htwo : before.length ≤ khMaxEntries := by
    simp only [List.length_cons, List.length_nil] at hlength
    omega
  exact (pending_le_length before).trans htwo

end Vmars
