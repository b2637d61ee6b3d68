/-
The way of a packet: through the channel of its round and through no
other.

`Routed`: the flow a packet names by its `srcTagLo` leads to the receive
queue of its own channel. That needs the transmit ledger, since a tag
sits in the descriptor and `send_data` writes the next one while earlier
descriptors are still queued.

`LoadInv` counts what has been pushed on a channel, up to what its
accumulator has taken: `NUM_PACKETS` for a round sent, fewer for the
round at hand, none for a later one.

Both hold of one outer pass, under any schedule and any driver result.
-/
import DspCodes.Infra.TxDesc

namespace DspCodes.Infra

open Lts Counting

variable {cfg : Config} {tr : Traffic} {n c channel core : Nat} {ok : Bool}
  {x x' : CoreState} {sh sh' : Shared} {p p' : Packets} {r : Option Bool}
  {w w' : Wire cfg}

-- ============================================================== routing

/-- What is in channel `ch` belongs there. -/
structure ChanRouted (tag : Nat → Nat) (ch : Nat) (k : Chan) : Prop where
  que : ∀ d ∈ k.txQue, tag d = ch
  stream : ∀ t ∈ k.stream, t = ch
  dma : ∀ e dest, k.rxDma = some (e, dest) → dest = ch

/-- The part of a channel that routing is about. -/
def Chan.packets (k : Chan) : List Nat × List Nat × Option (Nat × Nat) :=
  (k.txQue, k.stream, k.rxDma)

theorem ChanRouted.congr {tag : Nat → Nat} {ch : Nat} {k k' : Chan}
    (h : ChanRouted tag ch k) (hk : k'.packets = k.packets) :
    ChanRouted tag ch k' := by
  simp only [Chan.packets, Prod.mk.injEq] at hk
  obtain ⟨hque, hstream, hdma⟩ := hk
  exact ⟨by rw [hque]; exact h.que, by rw [hstream]; exact h.stream,
    by rw [hdma]; exact h.dma⟩

/-- Flows, channels and the packet in hand name their own round. -/
structure Routed (tr : Traffic) (x : CoreState) (p : Packets) : Prop where
  flow : ∀ i dest, p.flow i = some dest → dest = i
  chan : ∀ ch : Fin tr.numChannels, ChanRouted p.srcTagLo ch (p.chan ch)
  hand : ∀ i d, p.send = .push i d → p.srcTagLo d = x.round

/-- A descriptor in hand is in no transmit queue. -/
theorem TxConserved.not_queued {d : Nat} (hs : TxConserved tr p)
    (hhand : d ∈ p.send.hand) (ch : Fin tr.numChannels) :
    d ∉ (p.chan ch).txQue := by
  intro hque
  have hnodup : (↑tr.txDesc : Multiset Nat).Nodup :=
    Multiset.coe_nodup.mpr (List.nodup_range' ..)
  rw [← hs] at hnodup
  have hdisj := (Multiset.nodup_add.mp hnodup).2.2
  have hfirst : d ∈ (↑p.txFree + ↑p.txCmpl + ↑p.send.hand : Multiset Nat) :=
    Multiset.mem_add.mpr (.inr hhand)
  have hsecond : d ∈ ∑ ch : Fin tr.numChannels, (p.chan ch).txDescs :=
    Multiset.mem_sum.mpr
      ⟨ch, Finset.mem_univ ch, Multiset.mem_add.mpr (.inl hque)⟩
  exact Multiset.disjoint_left.mp hdisj hfirst hsecond

/-- The resource whose handle a call takes. -/
def SendCall.uses : SendCall → Option Resource
  | .configureRxFlow => some .rxQue
  | .txChannelEnable => some .txCh
  | .rxChannelEnable => some .rxCh
  | _ => none

/-- It is opened by an earlier call. -/
theorem opened_before {call : SendCall} {calls todo : List SendCall}
    {res : Resource} (h : sendSetup = calls ++ call :: todo)
    (hres : call.uses = some res) : ∃ c ∈ calls, c.opens = some res := by
  have hnodup : sendSetup.Nodup := by decide
  have hnot : call ∉ calls := by
    rw [h] at hnodup
    exact fun hmem => (List.nodup_append.mp hnodup).2.2 call hmem call
      (List.mem_cons_self ..) rfl
  -- the earlier calls are those before the only place of this one
  have hidx : sendSetup.idxOf call = calls.length := by
    rw [h, List.idxOf_append_of_notMem hnot, List.idxOf_cons_self, Nat.add_zero]
  have hcalls : calls = sendSetup.take (sendSetup.idxOf call) := by
    rw [hidx, h, List.take_left']
    rfl
  rw [hcalls]
  clear h hnot hidx hcalls
  cases call <;> cases hres <;> decide

/-- A call takes a handle of the round. -/
theorem SendInv.uses {call : SendCall} {todo : List SendCall}
    {res : Resource} (hs : SendInv tr n x p)
    (hpc : p.send = .setup (call :: todo)) (hres : call.uses = some res) :
    Names tr n x p res := by
  obtain ⟨calls, heq, hcalls⟩ := hs.setup _ hpc
  obtain ⟨call', hmem, hopens⟩ := opened_before heq hres
  exact hcalls call' hmem res hopens

/-- A call that leaves the packets, the tags and the flows alone. -/
theorem Routed.keep (hs : Routed tr x p)
    (hround : (∃ i d, p'.send = .push i d) → x'.round = x.round)
    (hsend : ∀ i d, p'.send = .push i d → p.send = .push i d)
    (htag : p'.srcTagLo = p.srcTagLo)
    (hflow : ∀ i dest, p'.flow i = some dest → dest = i)
    (hchan : ∀ i, ((p'.chan i).packets) = (p.chan i).packets) :
    Routed tr x' p' where
  flow := hflow
  chan := by
    intro ch
    rw [htag]
    exact (hs.chan ch).congr (hchan ch)
  hand := by
    intro i d hpush
    rw [htag, hround ⟨i, d, hpush⟩]
    exact hs.hand i d (hsend i d hpush)

/-- A push on the transmit queue of the round. -/
theorem Routed.push {i d : Nat} (hs : Routed tr x p)
    (hpc : p.send = .push i d) (hque : p.hnd .txQue = x.round) :
    ∀ ch : Fin tr.numChannels, ChanRouted p.srcTagLo ch
      ((p.pushTx d).chan ch) := by
  intro ch
  have hch := hs.chan ch
  simp only [Packets.pushTx, Packets.setChan, Function.update_apply]
  split_ifs with heq
  · rw [← heq]
    refine ⟨fun d' hd' => ?_, hch.stream, hch.dma⟩
    rcases List.mem_append.mp hd' with hd' | hd'
    · exact hch.que d' hd'
    · rw [List.mem_singleton.mp hd', hs.hand i d hpc, heq, hque]
  · exact hch

/-- The flow of a round leads to the round's queue. -/
theorem flow_configured {call : SendCall} {todo : List SendCall}
    (hsend : SendInv tr n x p) (hpc : p.send = .setup (call :: todo))
    (hround : x.round < n)
    (hflow : ∀ i dest, p.flow i = some dest → dest = i) :
    ∀ i dest, (sendCall tr n c x.round call p).flow i = some dest →
      dest = i := by
  intro i dest
  cases call with
  | configureRxFlow =>
      have hque : p.hnd .rxQue = x.round := (hsend.uses hpc rfl).2
      simp only [sendCall, Packets.opened, Resource.number, hque,
        Nat.mod_eq_of_lt hround, Function.update_apply]
      split_ifs with hi
      · rintro h
        cases h
        exact hi.symm
      · exact hflow i dest
  | _ => exact hflow i dest

/-- A round of core 0 in `send_data`, in one pass. -/
theorem MainOk.round_of_send (hx : MainOk cfg SYSINIT x)
    (hpc : x.main = .send) :
    x.round = x.index ∧ x.round < cfg.numCores ∧ x.sent = x.round := by
  simp only [MainOk, hpc] at hx
  obtain ⟨-, hch, hi, hlen⟩ := hx
  have hround : x.round = x.index := by
    rw [CoreState.round, hch, Nat.zero_add]
  refine ⟨hround, by rw [hround]; exact hi, ?_⟩
  simp only [CoreState.sent, hpc, hround, hlen]

/-- A call of core 0 keeps every packet on its way. -/
theorem Routed.call (hs : Routed tr x p)
    (hsend : SendInv tr cfg.numCores x p) (htx : TxConserved tr p)
    (hx : MainOk cfg SYSINIT x)
    (h : MainCall tr cfg.numCores c ok x p p' none) : Routed tr x p' := by
  cases h with
  | send hpc h =>
      obtain ⟨hround, hlt, -⟩ := hx.round_of_send hpc
      cases h with
      | call hpc' =>
          refine hs.keep (fun _ => rfl) (fun _ _ h => nomatch h) ?_
            (flow_configured hsend hpc' hlt hs.flow) ?_
          · exact sendCall_srcTagLo _ _
          · exact sendCall_chan Chan.packets (fun _ _ => rfl)
              (fun _ _ => ⟨rfl, rfl⟩) _ p
      | data | pop =>
          exact hs.keep (fun _ => rfl) (fun _ _ h => nomatch h) rfl hs.flow
            fun _ => rfl
      | @fill i d hpc' =>
          refine ⟨hs.flow, fun ch => ?_, ?_⟩
          · have hnot := htx.not_queued (d := d)
              (by rw [hpc']; exact List.mem_singleton_self d) ch
            have hch := hs.chan ch
            refine ⟨fun d' hd' => ?_, hch.stream, hch.dma⟩
            have hne : d' ≠ d := fun heq => hnot (by rw [← heq]; exact hd')
            exact (Function.update_of_ne hne ..).trans (hch.que d' hd')
          · intro i' d' hpush
            cases hpush
            exact (Function.update_self ..).trans hround.symm
      | push hpc' =>
          have hque := hsend.loop (.inl (by rw [hpc']; rfl)) .txQue
          exact ⟨hs.flow, hs.push hpc' hque.2, fun _ _ h => nomatch h⟩
  | @close call todo hpc =>
      have hidle : p.send = .setup sendSetup := hsend.idle (by rw [hpc]; simp)
      cases ok with
      | true =>
          refine hs.keep (fun _ => rfl) ?_ (cleanupCall_srcTagLo ..) ?_ ?_
          · intro i d hpush
            rw [if_pos rfl, cleanupCall_send] at hpush
            exact hpush
          · exact fun i dest h => hs.flow i dest (cleanupCall_flow _ _ h)
          · exact cleanupCall_chan Chan.packets (fun _ _ => ⟨rfl, rfl⟩) _ p
      | false =>
          exact hs.keep (fun _ => rfl) (fun _ _ h => h) rfl hs.flow
            fun _ => rfl

/-- So does a call that completes a step of the protocol. -/
theorem Routed.done {res : Bool} (hs : Routed tr x p)
    (hsend : SendInv tr cfg.numCores x p)
    (h : MainCall tr cfg.numCores c ok x p p' (some res)) :
    Routed tr x' p' := by
  have hidle : x.main ≠ .send → ∀ i d, p.send ≠ .push i d := by
    intro hne i d hpush
    rw [hsend.idle hne] at hpush
    cases hpush
  cases h with
  | send hpc h =>
      cases h with
      | failed | popNull =>
          exact ⟨hs.flow, hs.chan, fun _ _ h => nomatch h⟩
      | last hpc' =>
          have hque := hsend.loop (.inl (by rw [hpc']; rfl)) .txQue
          exact ⟨hs.flow, hs.push hpc' hque.2, fun _ _ h => nomatch h⟩
  | divert hpc | closed hpc =>
      have hne : x.main ≠ .send := by rw [hpc]; simp
      exact ⟨hs.flow, hs.chan, fun i d h => absurd h (hidle hne i d)⟩
  | plain hpc =>
      have hne : x.main ≠ .send := fun h => by rw [h] at hpc; cases hpc
      exact ⟨hs.flow, hs.chan, fun i d h => absurd h (hidle hne i d)⟩

/-- A received descriptor goes to its own channel's queue. -/
theorem Routed.delivered {ch : Fin tr.numChannels} {e dest : Nat}
    (hs : Routed tr x p) (hdma : (p.chan ch).rxDma = some (e, dest)) :
    (p.setChan ch { p.chan ch with rxDma := none }).pushRx dest e
      = p.setChan ch { p.chan ch with
          rxDma := none, rxQue := (p.chan ch).rxQue ++ [e] } := by
  rw [(hs.chan ch).dma e dest hdma]
  simp only [Packets.pushRx, Packets.setChan, Function.update_self,
    Function.update_idem]

/-- The hardware moves packets inside their channel. -/
theorem Routed.hardware {ch : Fin tr.numChannels} (hs : Routed tr x p)
    (h : Hardware ch p p') : Routed tr x p' := by
  have hsame := h.sendSame
  refine ⟨by rw [hsame.flow]; exact hs.flow, fun i => ?_,
    by rw [hsame.send, hsame.srcTagLo]; exact hs.hand⟩
  rw [hsame.srcTagLo]
  have hi := hs.chan i
  cases h with
  | @sent d rest hdma hque hon =>
      simp only [Packets.setChan, Function.update_apply]
      split_ifs with heq
      · rw [heq] at hi ⊢
        have hd := hi.que d (by rw [hque]; exact List.mem_cons_self)
        refine ⟨fun d' hd' => hi.que d' ?_, fun t ht => ?_, hi.dma⟩
        · rw [hque]
          exact List.mem_cons_of_mem _ hd'
        · rcases List.mem_append.mp ht with ht | ht
          · exact hi.stream t ht
          · rw [List.mem_singleton.mp ht, hd]
      · exact hi
  | @received tag dest e rest free hdma hstream hflow hfree hon =>
      simp only [Packets.setChan, Function.update_apply]
      split_ifs with heq
      · rw [heq] at hi ⊢
        have htag := hi.stream tag (by rw [hstream]; exact List.mem_cons_self)
        refine ⟨hi.que, fun t ht => hi.stream t ?_, fun e' dest' h => ?_⟩
        · rw [hstream]
          exact List.mem_cons_of_mem _ ht
        · cases h
          rw [hs.flow tag dest hflow, htag]
      · exact hi
  | @delivered e dest hdma =>
      rw [hs.delivered hdma]
      simp only [Packets.setChan, Function.update_apply]
      split_ifs with heq
      · rw [heq] at hi ⊢
        refine ⟨hi.que, hi.stream, fun _ _ h => ?_⟩
        cases h
      · exact hi
  | returned | accumulated | filled =>
      refine hi.congr (p.setChan_read Chan.packets ?_ i)
      rfl

/-- The others move no packet out of its channel. -/
theorem Routed.other (hs : Routed tr w.base.core0 w.pk)
    (hsame : SameMain w.base.core0 x') (h : OtherCall tr w p') :
    Routed tr x' p' := by
  have hround : x'.round = w.base.core0.round := by
    rw [CoreState.round, hsame.2.1, hsame.2.2.1]
    rfl
  have hpk := h.sendSame
  have hhand : ∀ i d, p'.send = .push i d → p'.srcTagLo d = x'.round := by
    rw [hpk.send, hpk.srcTagLo, hround]
    exact hs.hand
  have hkeep : (∀ i, (p'.chan i).packets = (w.pk.chan i).packets) →
      Routed tr x' p' := by
    intro hchan
    refine ⟨by rw [hpk.flow]; exact hs.flow, fun ch => ?_, hhand⟩
    rw [hpk.srcTagLo]
    exact (hs.chan ch).congr (hchan ch)
  cases h with
  | same => exact hkeep fun _ => rfl
  | irq => exact hkeep (w.pk.setChan_read Chan.packets rfl)
  | isr hcall =>
      cases hcall with
      | disable => exact hkeep (w.pk.setChan_read Chan.packets rfl)
      | _ => exact hkeep fun _ => rfl
  | hardware hhw =>
      have hnext := hs.hardware hhw
      exact ⟨hnext.flow, hnext.chan, hhand⟩

theorem routed_init (x : CoreState) : Routed tr x (initPackets tr) where
  flow := fun _ _ h => nomatch h
  chan := fun _ => ⟨fun _ h => (nomatch h), fun _ h => (nomatch h),
    fun _ _ h => (nomatch h)⟩
  hand := fun _ _ h => nomatch h

/-- Every packet stays in the channel of its round. -/
theorem routed_reachable (hone : cfg.OnePass)
    {guard : Wire cfg → WireAction cfg.numCores tr.numChannels → Prop}
    (h : WireReachable cfg tr guard w) : Routed tr w.base.core0 w.pk := by
  refine h.invariant' (I := fun w => Routed tr w.base.core0 w.pk)
    (routed_init _) ?_
  intro w a w' hr hs _ hstep
  have hsend := sendInv_reachable hr
  have hx := (irqInv_reachable hone (wire_base hr)).main cfg.core0
  cases (wireStep_cases hstep).core0 (roleOk_reachable (wire_base hr)) with
  | call _ hcall hbase =>
      rw [hbase]
      exact hs.call hsend (txConserved_reachable hr) hx hcall
  | done _ hcall _ => exact hs.done hsend hcall
  | other hsame hother => exact hs.other hsame hother

-- ============================================================== counting

/-- The packets pushed on a channel: on their way, or taken by its
accumulator. -/
def Chan.load (k : Chan) : Nat :=
  k.txQue.length + k.stream.length + k.rxDma.toList.length + k.rxQue.length
    + k.acc.taken

/-- The packets the running `send_data` has pushed. -/
def SendPc.count : SendPc → Nat
  | .setup _ => 0
  | .pop i | .fill i _ | .push i _ => i

/-- A round sent has all its packets in its channel; the round at hand
those that are pushed; a later round none. -/
structure LoadInv (tr : Traffic) (x : CoreState) (p : Packets) : Prop where
  device : x.sent ≤ tr.numChannels
  full : ∀ ch, ch < x.sent → (p.chan ch).load = tr.numPackets
  next : x.main ≠ .returned → (p.chan x.sent).load = p.send.count
  part : (p.chan x.sent).load < tr.numPackets
  later : ∀ ch, x.sent < ch → (p.chan ch).load = 0

/-- Counts that stay. -/
theorem LoadInv.keep (hs : LoadInv tr x p) (hsent : x'.sent = x.sent)
    (hmain : x'.main ≠ .returned → x.main ≠ .returned)
    (hcount : x'.main ≠ .returned → p'.send.count = p.send.count)
    (hload : ∀ ch, (p'.chan ch).load = (p.chan ch).load) :
    LoadInv tr x' p' := by
  refine ⟨?_, ?_, ?_, ?_, ?_⟩
  · rw [hsent]
    exact hs.device
  · intro ch hch
    rw [hload]
    exact hs.full ch (hsent ▸ hch)
  · intro hne
    rw [hsent, hload, hcount hne]
    exact hs.next (hmain hne)
  · rw [hsent, hload]
    exact hs.part
  · intro ch hch
    rw [hload]
    exact hs.later ch (hsent ▸ hch)

theorem init_sent (cfg : Config) : (init cfg).core0.sent = 0 := by
  simp only [State.core0, init, initCore, CoreState.sent]
  split_ifs <;> rfl

theorem loadInv_init (cfg : Config) (tr : Traffic) :
    LoadInv tr (init cfg).core0 (initPackets tr) := by
  have hsent := init_sent cfg
  refine ⟨?_, ?_, fun _ => rfl, tr.packets_pos, fun _ _ => rfl⟩
  · rw [hsent]
    exact Nat.zero_le _
  · intro ch hch
    rw [hsent] at hch
    exact absurd hch (Nat.not_lt_zero ch)

/-- A packet pushed by `send_data`. -/
theorem Packets.pushTx_load (p : Packets) (d ch : Nat) :
    ((p.pushTx d).chan ch).load
      = (p.chan ch).load + if ch = p.hnd .txQue then 1 else 0 := by
  simp only [Packets.pushTx, Packets.setChan, Function.update_apply]
  split_ifs with h
  · rw [h]
    simp only [Chan.load, List.length_append, List.length_singleton]
    omega
  · rfl

/-- The setup of an empty channel leaves it empty. -/
theorem sendCall_load {call : SendCall} {ch : Nat}
    (hempty : (p.chan ch).load = 0) :
    ∀ i, ((sendCall tr n c ch call p).chan i).load = (p.chan i).load := by
  cases call with
  | programAccumulator =>
      refine p.setChan_read Chan.load ?_
      simp only [Chan.load] at hempty ⊢
      omega
  | txChannelEnable | rxChannelEnable => exact p.setChan_read Chan.load rfl
  | _ => exact fun _ => rfl

/-- The calls inside `send_data` and `cleanup` count what they push. -/
theorem LoadInv.call (hs : LoadInv tr x p)
    (hsend : SendInv tr cfg.numCores x p) (hx : MainOk cfg SYSINIT x)
    (h : MainCall tr cfg.numCores c ok x p p' none) : LoadInv tr x p' := by
  cases h with
  | send hpc h =>
      obtain ⟨-, -, hsent⟩ := hx.round_of_send hpc
      have hnext := hs.next (by rw [hpc]; simp)
      cases h with
      | call hpc' =>
          rw [hpc'] at hnext
          refine hs.keep rfl id (fun _ => by rw [hpc']; rfl) ?_
          rw [hsent] at hnext
          exact sendCall_load hnext
      | data hpc' | pop hpc' | fill hpc' =>
          exact hs.keep rfl id (fun _ => by rw [hpc']; rfl) fun _ => rfl
      | @push i d hpc' hi =>
          have hque : p.hnd .txQue = x.sent :=
            (hsend.loop (.inl (by rw [hpc']; rfl)) .txQue).2.trans hsent.symm
          have hload : ∀ ch, (({ (p.pushTx d) with send := .pop (i + 1) } :
              Packets).chan ch).load
                = (p.chan ch).load + if ch = x.sent then 1 else 0 := by
            intro ch
            rw [← hque]
            exact p.pushTx_load d ch
          rw [hpc'] at hnext
          refine ⟨hs.device, fun ch hch => ?_, fun _ => ?_, ?_,
            fun ch hch => ?_⟩
          · rw [hload, if_neg (Nat.ne_of_lt hch)]
            exact hs.full ch hch
          · rw [hload, if_pos rfl, hnext]
            rfl
          · rw [hload, if_pos rfl, hnext]
            exact hi
          · rw [hload, if_neg (Nat.ne_of_gt hch)]
            exact hs.later ch hch
  | close hpc =>
      cases ok with
      | true =>
          refine hs.keep rfl id
            (fun _ => congrArg SendPc.count (cleanupCall_send ..)) ?_
          exact cleanupCall_chan Chan.load (fun _ _ => ⟨rfl, rfl⟩) _ p
      | false => exact hs.keep rfl id (fun _ => rfl) fun _ => rfl

/-- Only the end of `send_data` sends a round. -/
theorem MainStep.sent_eq {res : Bool} (hm : MainStep cfg SYSINIT res x sh x' sh')
    (hx : MainOk cfg SYSINIT x) (hne : x.main ≠ .send) :
    x'.sent = x.sent := by
  rcases hm.irq_core0 hx with ⟨-, hsent⟩ | ⟨hpc, -⟩
  · exact hsent
  · exact absurd hpc hne

/-- The end of `send_data` makes the round one that is sent. -/
theorem LoadInv.done {res : Bool} (hs : LoadInv tr x p)
    (hsend : SendInv tr cfg.numCores x p) (hdraw : DrawInv tr x p)
    (hx : MainOk cfg SYSINIT x)
    (h : MainCall tr cfg.numCores c ok x p p' (some res))
    (hm : MainStep cfg SYSINIT res x sh x' sh') : LoadInv tr x' p' := by
  have hsame : x.main ≠ .send → x'.sent = x.sent := hm.sent_eq hx
  have hmain := hm.not_returned
  cases h with
  | send hpc h =>
      obtain ⟨rfl, -⟩ := hm.of_send hpc
      obtain ⟨-, -, hsent⟩ := hx.round_of_send hpc
      have hnext := hs.next hmain
      have hlen : x.sent = x.took.length := by
        simp only [CoreState.sent, hpc]
      cases h with
      | failed | popNull =>
          exact hs.keep hlen.symm (fun h => absurd rfl h)
            (fun h => absurd rfl h) fun _ => rfl
      | @last i d hpc' hi =>
          have hnames := hsend.loop (.inl (by rw [hpc']; rfl)) .txQue
          have hque : p.hnd .txQue = x.sent := hnames.2.trans hsent.symm
          have hload : ∀ ch, ((p.pushTx d).sendReturns.chan ch).load
              = (p.chan ch).load + if ch = x.sent then 1 else 0 := by
            intro ch
            rw [← hque]
            exact p.pushTx_load d ch
          have hbounds := hdraw.bounds
          rw [hpc'] at hnext hbounds
          have hall : (p.chan x.sent).load + 1 = tr.numPackets := by
            simp only [SendPc.count, SendPc.inBounds] at hnext hbounds
            omega
          have hsucc : ∀ m : MainPc, m = .syncWait →
              CoreState.sent { x with main := m } = x.sent + 1 := by
            rintro m rfl
            rw [hlen]
            rfl
          have hstep : CoreState.sent
              { x with main := if true = true then .syncWait else .returned }
                = x.sent + 1 := hsucc _ rfl
          refine ⟨?_, fun ch hch => ?_, fun _ => ?_, ?_, fun ch hch => ?_⟩
          · rw [hstep, hsent]
            exact hnames.1
          · rw [hstep] at hch
            rw [hload]
            split_ifs with heq
            · rw [heq, hall]
            · exact hs.full ch (by omega)
          · rw [hstep, hload, if_neg (by omega), hs.later _ (by omega)]
            rfl
          · rw [hstep, hload, if_neg (by omega), hs.later _ (by omega)]
            exact tr.packets_pos
          · rw [hstep] at hch
            rw [hload, if_neg (by omega)]
            exact hs.later ch (by omega)
  | divert hpc | closed hpc =>
      exact hs.keep (hsame (by rw [hpc]; simp)) (fun _ => hmain)
        (fun _ => rfl) fun _ => rfl
  | plain hpc =>
      refine hs.keep (hsame fun h => ?_) (fun _ => hmain) (fun _ => rfl)
        fun _ => rfl
      rw [h] at hpc
      cases hpc

/-- The hardware moves packets along; it creates and drops none. -/
theorem Hardware.load_eq {ch : Fin tr.numChannels} (hs : Routed tr x p)
    (h : Hardware ch p p') : ∀ i, (p'.chan i).load = (p.chan i).load := by
  cases h with
  | sent hdma hque =>
      refine p.setChan_read Chan.load ?_
      simp only [Chan.load, hque, List.length_append, List.length_cons,
        List.length_nil]
      omega
  | returned => exact p.setChan_read Chan.load rfl
  | received hdma hstream =>
      refine p.setChan_read Chan.load ?_
      simp only [Chan.load, hdma, hstream, Option.toList_some,
        Option.toList_none, List.length_cons, List.length_nil]
      omega
  | delivered hdma =>
      rw [hs.delivered hdma]
      refine p.setChan_read Chan.load ?_
      simp only [Chan.load, hdma, Option.toList_some, Option.toList_none,
        List.length_append, List.length_cons, List.length_nil]
      omega
  | accumulated hque | filled hque =>
      refine p.setChan_read Chan.load ?_
      simp only [Chan.load, hque, List.length_cons]
      omega

theorem OtherCall.load_eq (hs : Routed tr w.base.core0 w.pk)
    (h : OtherCall tr w p') :
    ∀ i, (p'.chan i).load = (w.pk.chan i).load := by
  cases h with
  | same => exact fun _ => rfl
  | irq => exact w.pk.setChan_read Chan.load rfl
  | isr hcall =>
      cases hcall with
      | disable => exact w.pk.setChan_read Chan.load rfl
      | _ => exact fun _ => rfl
  | hardware hhw => exact hhw.load_eq hs

/-- The counts are right in every reachable state. -/
theorem loadInv_reachable (hone : cfg.OnePass)
    {guard : Wire cfg → WireAction cfg.numCores tr.numChannels → Prop}
    (h : WireReachable cfg tr guard w) : LoadInv tr w.base.core0 w.pk := by
  refine h.invariant' (I := fun w => LoadInv tr w.base.core0 w.pk)
    (loadInv_init cfg tr) ?_
  intro w a w' hr hs _ hstep
  have hsend := sendInv_reachable hr
  have hdraw := drawInv_reachable hone hr
  have hx := (irqInv_reachable hone (wire_base hr)).main cfg.core0
  cases (wireStep_cases hstep).core0 (roleOk_reachable (wire_base hr)) with
  | call _ hcall hbase =>
      rw [hbase]
      exact hs.call hsend hx hcall
  | done _ hcall hm => exact hs.done hsend hdraw hx hcall hm
  | other hsame hother =>
      refine hs.keep (sent_congr hsame.1 hsame.2.2.2) ?_ ?_
        (hother.load_eq (routed_reachable hone hr))
      · rw [hsame.1]
        exact id
      · rw [hother.sendSame.send]
        exact fun _ => rfl

/-- No channel has more packets than a round. -/
theorem LoadInv.load_le (hs : LoadInv tr x p) (ch : Nat) :
    (p.chan ch).load ≤ tr.numPackets := by
  rcases Nat.lt_trichotomy ch x.sent with hlt | heq | hgt
  · exact Nat.le_of_eq (hs.full ch hlt)
  · rw [heq]
    exact Nat.le_of_lt hs.part
  · rw [hs.later ch hgt]
    exact Nat.zero_le _

end DspCodes.Infra
