/-
The packets of a round and the words of the list.

The account of the packets ends at the list: what the accumulator of a
round has taken it has written there, one word a packet, and the words
stay until `send_data` clears the list for the next round. Under any
schedule only the first half can be told (`PacketsAccounted`), since out
of step `send_data` clears the list while the packets of an earlier round
are still on it. In step (`InStep`) the list belongs to one round at a
time, and its words are counted (`PacketsListed`).

`ListInv` is the invariant: what the accumulator of the list's round has
written are receive descriptors, each another one, and the other words
are NULL.
-/
import DspCodes.Infra.RxDesc

namespace DspCodes.Infra

open Lts Counting

variable {cfg : Config} {tr : Traffic} {ok : Bool} {x : CoreState}
  {p p' : Packets} {w w' : Wire cfg}

-- ================================================= whose the list is

/-- `send_data` has cleared the list for its round. -/
def SendPc.cleared : SendPc → Bool
  | .setup todo => decide (.clearList ∉ todo)
  | _ => true

/-- The rounds that have had the list: those that are sent, and the one
at hand once its `send_data` has cleared the list. -/
def listRounds (x : CoreState) (p : Packets) : Nat :=
  x.sent + if p.send.cleared then 1 else 0

/-- The words for the packets that the accumulator of channel `ch` has
taken. -/
def listEntries (tr : Traffic) (p : Packets) (ch : Nat) : List Nat :=
  (List.range' 1 (p.chan ch).acc.taken).map
    (p.page (tr.listAddress SYSINIT))

/-- The list is that of channel `ch`: these words are receive descriptors,
each another one, and the words behind them are NULL. -/
structure ListOf (tr : Traffic) (p : Packets) (ch : Nat) : Prop where
  descs : ∀ e ∈ listEntries tr p ch, e ∈ tr.rxDesc
  nodup : (listEntries tr p ch).Nodup
  rest : ∀ i, (p.chan ch).acc.taken < i →
    p.page (tr.listAddress SYSINIT) i = 0

/-- The list is that of the last of these rounds. A `send_data` that fails
leaves a cleared list behind. -/
def ListInv (tr : Traffic) (w : Wire cfg) : Prop :=
  w.base.core0.main ≠ .returned →
    ∀ ch, ch + 1 = listRounds w.base.core0 w.pk → ListOf tr w.pk ch

theorem ListOf.congr {ch : Nat} (h : ListOf tr p ch)
    (hpage : p'.page = p.page)
    (htaken : (p'.chan ch).acc.taken = (p.chan ch).acc.taken) :
    ListOf tr p' ch := by
  have hentries : listEntries tr p' ch = listEntries tr p ch := by
    simp only [listEntries, hpage, htaken]
  refine ⟨?_, ?_, ?_⟩
  · rw [hentries]
    exact h.descs
  · rw [hentries]
    exact h.nodup
  · rw [hpage, htaken]
    exact h.rest

/-- A cleared list is that of a channel with nothing taken. -/
theorem ListOf.cleared {ch : Nat} (htaken : (p.chan ch).acc.taken = 0)
    (hpage : ∀ i, p.page (tr.listAddress SYSINIT) i = 0) :
    ListOf tr p ch := by
  have hentries : listEntries tr p ch = [] := by
    rw [listEntries, htaken, List.range'_zero, List.map_nil]
  refine ⟨?_, ?_, fun i _ => hpage i⟩
  · rw [hentries]
    exact fun _ h => absurd h List.not_mem_nil
  · rw [hentries]
    exact List.nodup_nil

/-- The clearing comes once, so that it is done with this call. -/
theorem cleared_clearList {calls todo : List SendCall}
    (h : sendSetup = calls ++ .clearList :: todo) :
    (SendPc.setup todo).cleared = true := by
  have hnodup : sendSetup.Nodup := by decide
  rw [h] at hnodup
  have hrest := (List.nodup_append.mp hnodup).2.1
  exact decide_eq_true (List.nodup_cons.mp hrest).1

/-- Another call clears nothing. -/
theorem cleared_call {call : SendCall} {todo : List SendCall}
    (h : call ≠ .clearList) :
    (SendPc.setup todo).cleared = (SendPc.setup (call :: todo)).cleared := by
  have hmem : .clearList ∈ call :: todo ↔ .clearList ∈ todo := by
    rw [List.mem_cons]
    exact or_iff_right (Ne.symm h)
  simp only [SendPc.cleared, hmem]

theorem cleared_idle : (SendPc.setup sendSetup).cleared = false := rfl

theorem listInv_init (cfg : Config) (tr : Traffic) :
    ListInv tr (initWire cfg tr) := by
  intro _ ch hch
  have hsent : (initWire cfg tr).base.core0.sent = 0 := init_sent cfg
  have hclear : (initWire cfg tr).pk.send.cleared = false := cleared_idle
  rw [listRounds, hsent, hclear] at hch
  exact absurd hch (Nat.succ_ne_zero ch)

/-- Steps that leave the list to its round and its words alone. -/
theorem ListInv.keep (hs : ListInv tr w)
    (hmain : w'.base.core0.main ≠ .returned →
      w.base.core0.main ≠ .returned)
    (hrounds : w'.base.core0.main ≠ .returned →
      listRounds w'.base.core0 w'.pk = listRounds w.base.core0 w.pk)
    (hpage : w'.pk.page = w.pk.page)
    (htaken : ∀ ch, (w'.pk.chan ch).acc.taken
      = (w.pk.chan ch).acc.taken) : ListInv tr w' := by
  intro hne ch hch
  exact (hs (hmain hne) ch (hch.trans (hrounds hne))).congr hpage (htaken ch)

-- ============================================================== core 0

/-- A call of `send_data` or `cleanup`: the clearing takes the list over
for a round that has no packet yet, the others leave it alone. -/
theorem ListInv.call (hs : ListInv tr w) (hcalm : Calm tr w)
    (hcall : MainCall tr cfg.numCores SYSINIT ok w.base.core0 w.pk p none) :
    ListInv tr ⟨w.base, p⟩ := by
  have hx := hcalm.irq.main cfg.core0
  have htaken : ∀ i, (p.chan i).acc.taken = (w.pk.chan i).acc.taken :=
    hcall.taken_eq (hcalm.load.setup_empty hx)
  have hkeep : p.send.cleared = w.pk.send.cleared → p.page = w.pk.page →
      ListInv tr ⟨w.base, p⟩ := by
    intro hclear hpage
    refine hs.keep id (fun _ => ?_) hpage htaken
    simp only [listRounds, hclear]
  cases hcall with
  | send hpc h =>
      cases h with
      | @call call todo hpc' =>
          by_cases hclear : call = .clearList
          · subst hclear
            intro _ ch hch
            obtain ⟨calls, heq, -⟩ := hcalm.send.setup _ hpc'
            have hempty := hcalm.load.setup_empty hx hpc ⟨_, hpc'⟩
            have hsent : w.base.core0.sent = w.base.core0.round :=
              (hx.round_of_send hpc).2.2
            have hround : ch = w.base.core0.round := by
              simp only [listRounds, cleared_clearList heq, if_pos] at hch
              omega
            refine .cleared ((htaken ch).trans (hround ▸ hempty)) fun i => ?_
            simp only [sendCall, Function.update_self]
          · refine hkeep ?_ ?_
            · rw [hpc']
              exact cleared_call hclear
            · cases call with
              | clearList => exact absurd rfl hclear
              | _ => rfl
      | data hpc' | pop hpc' | fill hpc' | push hpc' =>
          exact hkeep (by rw [hpc']; rfl) rfl
  | @close call todo hpc =>
      cases ok with
      | true =>
          refine hkeep (congrArg SendPc.cleared (cleanupCall_send ..)) ?_
          cases call <;> rfl
      | false => exact hkeep rfl rfl

/-- With its last push `send_data` has sent the round that has the
list. -/
theorem ListInv.done {res : Bool} {s : State cfg} (hs : ListInv tr w)
    (hcalm : Calm tr w)
    (hcall : MainCall tr cfg.numCores SYSINIT ok w.base.core0 w.pk p
      (some res))
    (hm : MainStep cfg SYSINIT res w.base.core0 w.base.shared s.core0
      s.shared) : ListInv tr ⟨s, p⟩ := by
  have hx := hcalm.irq.main cfg.core0
  have htaken : ∀ i, (p.chan i).acc.taken = (w.pk.chan i).acc.taken :=
    hcall.taken_eq (hcalm.load.setup_empty hx)
  have hidle : w.base.core0.main ≠ .send → p.send = w.pk.send →
      p.page = w.pk.page → ListInv tr ⟨s, p⟩ := by
    intro hne hsend hpage
    refine hs.keep (fun _ => hm.not_returned) (fun _ => ?_) hpage htaken
    simp only [listRounds, hsend, hm.sent_eq hx hne]
  cases hcall with
  | send hpc h =>
      obtain ⟨hcore, -⟩ := hm.of_send hpc
      cases h with
      | failed | popNull =>
          intro hne
          exact absurd (congrArg CoreState.main hcore) hne
      | last hpc' =>
          refine hs.keep (fun _ => hm.not_returned) (fun _ => ?_) rfl htaken
          have hsent : w.base.core0.sent = w.base.core0.took.length := by
            simp only [CoreState.sent, hpc]
          simp only [listRounds, hcore, hpc', hsent, Packets.sendReturns,
            cleared_idle]
          rfl
  | divert hpc | closed hpc => exact hidle (by rw [hpc]; simp) rfl rfl
  | plain hpc =>
      refine hidle (fun h => ?_) rfl rfl
      rw [h] at hpc
      cases hpc

-- ============================================ the handler, the hardware

/-- A move of the hardware leaves the list alone, or it is the
accumulator that writes the next word. -/
theorem Hardware.list_cases {ch : Fin tr.numChannels} (hacc : AccInv tr w)
    (hroute : Routed tr w.base.core0 w.pk) (h : Hardware ch w.pk p) :
    (p.page = w.pk.page
        ∧ ∀ i, (p.chan i).acc.taken = (w.pk.chan i).acc.taken)
      ∨ ∃ e ∈ (w.pk.chan ch).rxQue,
        (p.chan ch).acc.taken = (w.pk.chan ch).acc.taken + 1
          ∧ ∀ i, 0 < i → p.page (tr.listAddress SYSINIT) i
            = if i = (w.pk.chan ch).acc.taken + 1 then e
              else w.pk.page (tr.listAddress SYSINIT) i := by
  cases h with
  | sent | returned | received =>
      exact .inl ⟨rfl, w.pk.setChan_read (fun k => k.acc.taken) rfl⟩
  | delivered hdma =>
      rw [hroute.delivered hdma]
      exact .inl ⟨rfl, w.pk.setChan_read (fun k => k.acc.taken) rfl⟩
  | @accumulated e rest hque hon hroom =>
      refine .inr ⟨e, by rw [hque]; exact List.mem_cons_self, ?_, ?_⟩
      · simp only [Packets.accumulated, Packets.write, Packets.setChan,
          Function.update_self]
      · exact fun i _ => Packets.accumulated_page (hacc.page ch hon).2 i
  | @filled e rest hque hon hfull =>
      refine .inr ⟨e, by rw [hque]; exact List.mem_cons_self, ?_, ?_⟩
      · simp only [Packets.accumulated, Packets.write, Packets.setChan,
          Function.update_self]
      · intro i hi
        have haddr := (hacc.page ch hon).2
        rw [haddr, Packets.write_page_pos hi]
        exact Packets.accumulated_page haddr i

/-- The descriptors on the page of the round at hand are receive
descriptors, each in one word. -/
theorem RxInv.entries (hs : RxInv tr w)
    (hnot : w.base.core0.passed ∉ w.base.shared.recycled) :
    (pageEntries tr w.pk w.base.core0.passed).Nodup
      ∧ ∀ e ∈ pageEntries tr w.pk w.base.core0.passed, e ∈ tr.rxDesc := by
  have hle : (↑(pageEntries tr w.pk w.base.core0.passed) : Multiset Nat)
      ≤ ↑tr.rxDesc := by
    have hledger := hs.ledger
    rw [onPage, if_neg hnot] at hledger
    rw [← hledger]
    exact Multiset.le_add_left ..
  have hnodup : tr.rxDesc.Nodup := List.nodup_range' ..
  refine ⟨?_, fun e he => ?_⟩
  · exact Multiset.coe_nodup.mp
      (Multiset.nodup_of_le hle (Multiset.coe_nodup.mpr hnodup))
  · exact Multiset.mem_coe.mp
      (Multiset.mem_of_le hle (Multiset.mem_coe.mpr he))

/-- Before the handler's loop they are all the words. -/
theorem pageEntries_eq {ch : Nat} (h : p.recycle ch = none) :
    pageEntries tr p ch = listEntries tr p ch := by
  have hindex : p.index ch = 0 := by
    rw [Packets.index, h]
    rfl
  rw [pageEntries, hindex, Nat.zero_add, Nat.sub_zero, listEntries]

theorem Hardware.recycle_eq {ch : Nat} (h : Hardware ch p p') :
    p'.recycle = p.recycle := by
  cases h <;> rfl

/-- A channel with packets in front of the list has it. -/
theorem Calm.lists (hs : Calm tr w) {ch o : Nat}
    (hque : (w.pk.chan ch).rxQue ≠ [])
    (hne : w.base.core0.main ≠ .returned)
    (ho : o + 1 = listRounds w.base.core0 w.pk) : o = ch := by
  obtain ⟨hch, -⟩ := hs.filling hque
  rcases w.base.core0.sent_cases with hsent | ⟨hpc, hsent⟩
  · -- the round that is being sent has pushed a packet
    have hnext := hs.load.next hne
    have hpos := List.length_pos_iff.mpr hque
    rw [hsent, ← hch, Chan.load] at hnext
    have hclear : w.pk.send.cleared = true := by
      cases hsend : w.pk.send with
      | setup =>
          rw [hsend, SendPc.count] at hnext
          omega
      | _ => rfl
    rw [listRounds, hclear, if_pos rfl] at ho
    omega
  · -- core 0 waits for the round
    have hidle := hs.send.idle (by rcases hpc with h | h <;> simp [h])
    rw [listRounds, hidle, cleared_idle, hsent] at ho
    simp only [Bool.false_eq_true, if_false] at ho
    omega

/-- A move of the hardware. -/
theorem ListInv.hardware {ch : Fin tr.numChannels} (hs : ListInv tr w)
    (hcalm : Calm tr w) (hrx : RxInv tr w) (h : Hardware ch w.pk p) :
    ListInv tr ⟨w.base, p⟩ := by
  have hrx' := hrx.hardware hcalm h
  have hrounds : listRounds w.base.core0 p
      = listRounds w.base.core0 w.pk := by
    rw [listRounds, h.sendSame.send, listRounds]
  rcases h.list_cases hcalm.acc hcalm.route with
    ⟨hpage, htaken⟩ | ⟨e, he, htaken, hpage⟩
  · exact hs.keep id (fun _ => hrounds) hpage htaken
  · intro hne o ho
    have hold := ho.trans hrounds
    have hque := List.ne_nil_of_mem he
    have hown : o = ch := hcalm.lists hque hne hold
    subst hown
    obtain ⟨hch, hnot, hrun⟩ := hcalm.filling hque
    have hnone : p.recycle ch = none := by
      rw [h.recycle_eq]
      exact hrx.recycle_none hrun
    -- the descriptors are those of the ledger after the move
    obtain ⟨hnodup, hdescs⟩ := hrx'.entries (hch ▸ hnot)
    rw [← hch, pageEntries_eq hnone] at hnodup hdescs
    refine ⟨hdescs, hnodup, fun i hi => ?_⟩
    simp only [htaken] at hi
    rw [hpage i (by omega), if_neg (by omega)]
    exact (hs hne ch hold).rest i (by omega)

/-- The steps of the others: only the accumulator writes. -/
theorem ListInv.other {s : State cfg} (hs : ListInv tr w) (hcalm : Calm tr w)
    (hrx : RxInv tr w) (hsame : SameMain w.base.core0 s.core0)
    (h : OtherCall tr w p) : ListInv tr ⟨s, p⟩ := by
  have hmove : ListInv tr ⟨w.base, p⟩ := by
    cases h with
    | same => exact hs
    | irq =>
        exact hs.keep id (fun _ => rfl) rfl
          (w.pk.setChan_read (fun k => k.acc.taken) rfl)
    | isr hcall =>
        cases hcall with
        | disable =>
            exact hs.keep id (fun _ => rfl) rfl
              (w.pk.setChan_read (fun k => k.acc.taken) rfl)
        | _ => exact hs.keep id (fun _ => rfl) rfl fun _ => rfl
    | hardware hhw => exact hs.hardware hcalm hrx hhw
  refine hmove.keep ?_ (fun _ => ?_) rfl fun _ => rfl
  · simp only [hsame.1]
    exact id
  · simp only [listRounds, sent_congr hsame.1 hsame.2.2.2]

theorem listInv_reachable (hone : cfg.OnePass) (hfour : cfg.numCores ≤ 4)
    (h : WireReachable cfg tr (Lifted InStep) w) : ListInv tr w := by
  refine h.invariant' (I := ListInv tr) (listInv_init cfg tr) ?_
  intro w a w' hr hs _ hstep
  have hcalm := calm_reachable hone hfour hr
  obtain ⟨s, p⟩ := w'
  cases (wireStep_cases hstep).core0 (roleOk_reachable (wire_base hr)) with
  | call _ hcall hbase =>
      cases hbase
      exact hs.call hcalm hcall
  | done _ hcall hm => exact hs.done hcalm hcall hm
  | other hsame hother =>
      exact hs.other hcalm (rxInv_reachable hone hfour hr) hsame hother

-- ========================================================== the result

/-- The packets of a channel that its accumulator has not taken. -/
def Chan.onWay (k : Chan) : Nat :=
  k.txQue.length + k.stream.length + k.rxDma.toList.length + k.rxQue.length

theorem Chan.load_eq (k : Chan) : k.load = k.onWay + k.acc.taken := rfl

/-- The number of words of the list that hold a descriptor. -/
def listCount (tr : Traffic) (p : Packets) : Nat :=
  (List.range' 1 tr.numPackets).countP fun i =>
    p.page (tr.listAddress SYSINIT) i != 0

/-- Where the packets of the rounds are, up to what the accumulators have
taken. -/
structure PacketsAccounted (tr : Traffic) (x : CoreState) (p : Packets) :
    Prop where
  sent : ∀ ch, ch < x.sent → (p.chan ch).load = tr.numPackets
  later : ∀ ch, x.sent < ch → (p.chan ch).load = 0
  most : ∀ ch, (p.chan ch).load ≤ tr.numPackets
  own : ∀ ch : Fin tr.numChannels, ChanRouted p.srcTagLo ch (p.chan ch)

/-- Where they are in step: the accumulators of the rounds core 0 has
left have taken them all, and, unless core 0 has returned from a failed
call, the list is that of the last round that has had it, whose packets
are on their way and in its words. -/
structure PacketsListed (tr : Traffic) (w : Wire cfg) : Prop where
  before : ∀ ch < w.base.core0.passed, ch ∈ w.base.shared.recycled
    ∧ Arrived tr (w.pk.chan ch)
  list : w.base.core0.main ≠ .returned →
    ∀ ch, ch + 1 = listRounds w.base.core0 w.pk → ListOf tr w.pk ch
  count : w.base.core0.main ≠ .returned →
    ∀ ch, ch + 1 = listRounds w.base.core0 w.pk →
      (w.pk.chan ch).onWay + listCount tr w.pk
        = if ch < w.base.core0.sent then tr.numPackets
          else w.pk.send.count

/-- The words of the list are counted by the accumulator. -/
theorem ListOf.count_eq {ch : Nat} (hs : ListOf tr p ch)
    (hle : (p.chan ch).acc.taken ≤ tr.numPackets) :
    listCount tr p = (p.chan ch).acc.taken := by
  refine countP_range'_of_le hle fun i hi => ?_
  rw [bne_iff_ne]
  constructor
  · intro hword
    by_contra hnot
    exact hword (hs.rest i (Nat.lt_of_not_le hnot))
  · intro hlow
    have hmem : p.page (tr.listAddress SYSINIT) i ∈ listEntries tr p ch :=
      List.mem_map_of_mem (List.mem_range'_1.mpr ⟨hi, by omega⟩)
    obtain ⟨hge, -⟩ := List.mem_range'_1.mp (hs.descs _ hmem)
    omega

/-- The last round that has had the list has all its packets, or those
that are pushed. -/
theorem LoadInv.list_load (hs : LoadInv tr x p) {ch : Nat}
    (hne : x.main ≠ .returned) (hch : ch + 1 = listRounds x p) :
    (p.chan ch).load = if ch < x.sent then tr.numPackets
      else p.send.count := by
  split_ifs with hlt
  · exact hs.full ch hlt
  · have hown : ch = x.sent := by
      unfold listRounds at hch
      split_ifs at hch <;> omega
    rw [hown]
    exact hs.next hne

/-- In every run of one pass, under any schedule and any driver result, a
round that is sent has its `NUM_PACKETS` packets in its own channel, from
the transmit queue to those its accumulator has taken; none is lost or
doubled and none strays into another channel, also while the tag of a
descriptor is written anew for a later round. In step, those it has taken
are in the words of the list, each in one, until `send_data` clears it for
the next round. -/
theorem packets_accounted (hone : cfg.OnePass)
    (h : WireReachable cfg tr anyStep w) :
    PacketsAccounted tr w.base.core0 w.pk
      ∧ (cfg.numCores ≤ 4 → WireReachable cfg tr (Lifted InStep) w →
        PacketsListed tr w) := by
  have hload := loadInv_reachable hone h
  refine ⟨⟨hload.full, hload.later, hload.load_le,
    (routed_reachable hone h).chan⟩, fun hfour hr => ?_⟩
  have hcalm := calm_reachable hone hfour hr
  have hlist := listInv_reachable hone hfour hr
  refine ⟨fun ch hch => ?_, hlist, fun hne ch hch => ?_⟩
  · have hrec := hcalm.before ch hch
    exact ⟨hrec, hcalm.recycled_arrived hrec⟩
  · have hle : (w.pk.chan ch).acc.taken ≤ tr.numPackets :=
      Nat.le_trans (Nat.le_add_left ..) (hload.load_le ch)
    rw [(hlist hne ch hch).count_eq hle, ← Chan.load_eq]
    exact hload.list_load hne hch

/-- On the board, with five packets of round 0 in the list and three on
their way. -/
theorem packets_accounted_board :
    ∃ w : Wire board, WireReachable board boardTraffic (Lifted InStep) w
      ∧ listCount boardTraffic w.pk = 5 ∧ (w.pk.chan 0).onWay = 3
      ∧ PacketsAccounted boardTraffic w.base.core0 w.pk
      ∧ PacketsListed boardTraffic w := by
  obtain ⟨w, hw, hcount, hway⟩ : ∃ w,
      WireReachable board boardTraffic (Lifted InStep) w
        ∧ listCount boardTraffic w.pk = 5 ∧ (w.pk.chan 0).onWay = 3 :=
    exists_reach_of_runOk
      (wireBoot ++ wireSend ++ (wireRound 0).take 25) (by decide +kernel)
  have hone : board.OnePass := rfl
  have hfour : board.numCores ≤ 4 := by decide
  have hany : WireReachable board boardTraffic anyStep w :=
    hw.mono fun _ _ _ => trivial
  obtain ⟨haccount, hlist⟩ := packets_accounted hone hany
  exact ⟨w, hw, hcount, hway, haccount, hlist hfour hw⟩

end DspCodes.Infra
