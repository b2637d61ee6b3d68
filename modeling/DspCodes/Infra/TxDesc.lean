/-
The transmit descriptors: in the free queue, in the hands of `send_data`,
in the transmit queue of a channel, with its DMA, or in the completion
queue, from where `main` diverts them back.

`TxConserved` is their ledger. It holds in every run, whatever the
drivers return: a `send_data` that fails does so before it has popped a
descriptor, or on a NULL pop. A round draws `NUM_PACKETS` descriptors
and none need come back in time (`DrawInv`), so a build with enough of
them for all rounds never pops NULL.
-/
import Mathlib.Tactic.Abel
import DspCodes.Infra.Resources
import DspCodes.Lib.Count

namespace DspCodes.Infra

open Lts Counting

variable {cfg : Config} {tr : Traffic} {n c channel core : Nat} {ok : Bool}
  {x x' : CoreState} {sh sh' : Shared} {p p' : Packets} {r : Option Bool}

-- ============================================================ the ledger

/-- The descriptor `send_data` has popped and not yet pushed. -/
def SendPc.hand : SendPc → List Nat
  | .fill _ d | .push _ d => [d]
  | _ => []

/-- The transmit descriptors of a channel. -/
def Chan.txDescs (k : Chan) : Multiset Nat := ↑k.txQue + ↑k.txDma.toList

/-- All places together hold the transmit descriptors `sysInit` made. -/
def TxConserved (tr : Traffic) (p : Packets) : Prop :=
  ↑p.txFree + ↑p.txCmpl + ↑p.send.hand
    + ∑ ch : Fin tr.numChannels, (p.chan ch).txDescs = ↑tr.txDesc

/-- A step that moves none of them. -/
theorem TxConserved.keep (hs : TxConserved tr p)
    (hfree : p'.txFree = p.txFree) (hcmpl : p'.txCmpl = p.txCmpl)
    (hhand : p'.send.hand = p.send.hand)
    (hchan : ∀ ch, (p'.chan ch).txDescs = (p.chan ch).txDescs) :
    TxConserved tr p' := by
  have hsum : ∑ ch : Fin tr.numChannels, (p'.chan ch).txDescs
      = ∑ ch : Fin tr.numChannels, (p.chan ch).txDescs :=
    Finset.sum_congr rfl fun ch _ => hchan ch
  unfold TxConserved
  rw [hfree, hcmpl, hhand, hsum]
  exact hs

/-- Replacing a channel by one with the same reading. -/
theorem Packets.setChan_read {β : Type _} (f : Chan → β) (p : Packets)
    {ch : Nat} {k : Chan} (h : f k = f (p.chan ch)) :
    ∀ i, f ((p.setChan ch k).chan i) = f (p.chan i) := by
  intro i
  simp only [Packets.setChan, Function.update_apply]
  split_ifs with hi
  · rw [h, hi]
  · rfl

/-- A call that opens, programs or enables moves no packet. -/
theorem sendCall_chan {β : Type _} (f : Chan → β)
    (hacc : ∀ k a, f { k with acc := a } = f k)
    (hon : ∀ k b, f { k with txOn := b } = f k
      ∧ f { k with rxOn := b } = f k) (call : SendCall) (p : Packets) :
    ∀ i, f ((sendCall tr n c channel call p).chan i) = f (p.chan i) := by
  intro i
  cases call with
  | programAccumulator => exact p.setChan_read f (hacc _ _) i
  | txChannelEnable => exact p.setChan_read f (hon _ _).1 i
  | rxChannelEnable => exact p.setChan_read f (hon _ _).2 i
  | _ => rfl

/-- Nor does a closing call. -/
theorem cleanupCall_chan {β : Type _} (f : Chan → β)
    (hon : ∀ k b, f { k with txOn := b } = f k
      ∧ f { k with rxOn := b } = f k) (call : CleanupCall) (p : Packets) :
    ∀ i, f ((cleanupCall call p).chan i) = f (p.chan i) := by
  intro i
  cases call with
  | txChannelDisable => exact p.setChan_read f (hon _ _).1 i
  | rxChannelDisable => exact p.setChan_read f (hon _ _).2 i
  | _ => rfl

/-- Nor does a push on a receive queue, as far as `f` reads. -/
theorem pushRx_chan {β : Type _} (f : Chan → β) {dest e : Nat}
    (hque : ∀ k q, f { k with rxQue := q } = f k)
    (h : ∀ i, f (p'.chan i) = f (p.chan i)) :
    ∀ i, f ((p'.pushRx dest e).chan i) = f (p.chan i) :=
  fun i => (p'.setChan_read f (hque _ _) i).trans (h i)

@[simp] theorem sendCall_free (tr : Traffic) (call : SendCall) (p : Packets) :
    (sendCall tr n c channel call p).txFree = p.txFree
      ∧ (sendCall tr n c channel call p).txCmpl = p.txCmpl
      ∧ (sendCall tr n c channel call p).rxFree = p.rxFree := by
  cases call <;> exact ⟨rfl, rfl, rfl⟩

@[simp] theorem cleanupCall_free (call : CleanupCall) (p : Packets) :
    (cleanupCall call p).txFree = p.txFree
      ∧ (cleanupCall call p).txCmpl = p.txCmpl
      ∧ (cleanupCall call p).rxFree = p.rxFree := by
  cases call <;> exact ⟨rfl, rfl, rfl⟩

theorem sendCall_srcTagLo (call : SendCall) (p : Packets) :
    (sendCall tr n c channel call p).srcTagLo = p.srcTagLo := by
  cases call <;> rfl

theorem cleanupCall_srcTagLo (call : CleanupCall) (p : Packets) :
    (cleanupCall call p).srcTagLo = p.srcTagLo := by
  cases call <;> rfl

/-- Closing configures no flow. -/
theorem cleanupCall_flow (call : CleanupCall) (p : Packets) {i dest : Nat}
    (h : (cleanupCall call p).flow i = some dest) : p.flow i = some dest := by
  revert h
  cases call with
  | closeRxFlow =>
      simp only [cleanupCall, Packets.closed]
      split_ifs
      · rw [Function.update_apply]
        split_ifs
        · intro h
          cases h
        · exact id
      · exact id
  | _ => exact id

/-- `send_data` hands a descriptor over to its transmit queue. -/
theorem TxConserved.push {d : Nat} (hs : TxConserved tr p)
    (hhand : p.send.hand = [d]) (hque : p.hnd .txQue < tr.numChannels)
    {pc : SendPc} (hpc : pc.hand = []) :
    TxConserved tr { (p.pushTx d) with send := pc } := by
  have hmove : ∑ ch : Fin tr.numChannels, ((p.pushTx d).chan ch).txDescs + 0
      = ∑ ch : Fin tr.numChannels, (p.chan ch).txDescs + {d} := by
    refine sum_fin_move Chan.txDescs p.chan hque ?_
    simp only [Chan.txDescs, ← Multiset.coe_add, Multiset.coe_singleton]
    abel
  unfold TxConserved at hs ⊢
  simp only [Packets.pushTx, Packets.setChan, hpc, Multiset.coe_nil,
    add_zero] at hmove ⊢
  rw [hmove, ← hs, hhand, Multiset.coe_singleton]
  abel

/-- A call of `send_data` moves descriptors to its hand and on. -/
theorem SendStep.txConserved (h : SendStep tr n c channel core ok p p' r)
    (hque : p.send.looping = true → p.hnd .txQue < tr.numChannels)
    (hs : TxConserved tr p) : TxConserved tr p' := by
  cases h with
  | call hpc =>
      refine hs.keep (sendCall_free ..).1 (sendCall_free ..).2.1
        (by rw [hpc]; rfl) ?_
      exact sendCall_chan Chan.txDescs (fun _ _ => rfl)
        (fun _ _ => ⟨rfl, rfl⟩) _ p
  | failed hpc | popNull hpc | data hpc =>
      exact hs.keep rfl rfl (by rw [hpc]; rfl) fun _ => rfl
  | pop hpc hfree =>
      unfold TxConserved at hs ⊢
      rw [← hs, hpc, hfree, ← Multiset.cons_coe, ← Multiset.singleton_add]
      simp only [SendPc.hand, Multiset.coe_nil, Multiset.coe_singleton]
      abel
  | fill hpc => exact hs.keep rfl rfl (by rw [hpc]; rfl) fun _ => rfl
  | push hpc | last hpc =>
      exact hs.push (by rw [hpc]; rfl) (hque (by rw [hpc]; rfl)) rfl

/-- So do `main`'s diversion and its other calls. -/
theorem MainCall.txConserved (h : MainCall tr n c ok x p p' r)
    (hsend : x.main.packets = true → SendInv tr n x p)
    (hs : TxConserved tr p) : TxConserved tr p' := by
  cases h with
  | send hpc h =>
      refine h.txConserved (fun hloop => ?_) hs
      have hnames := (hsend (by rw [hpc]; rfl)).loop (.inl hloop) .txQue
      exact lt_of_eq_of_lt hnames.2 hnames.1
  | divert =>
      unfold TxConserved at hs ⊢
      rw [← hs, ← Multiset.coe_add, Multiset.coe_nil]
      abel
  | @close call todo =>
      cases ok with
      | true =>
          refine hs.keep (cleanupCall_free ..).1 (cleanupCall_free ..).2.1
            (congrArg SendPc.hand (cleanupCall_send ..)) ?_
          exact cleanupCall_chan Chan.txDescs (fun _ _ => ⟨rfl, rfl⟩) _ p
      | false => exact hs.keep rfl rfl rfl fun _ => rfl
  | closed | plain => exact hs.keep rfl rfl rfl fun _ => rfl

/-- The handler moves none. -/
theorem IsrCall.txConserved (h : IsrCall tr c ok x p p' r)
    (hs : TxConserved tr p) : TxConserved tr p' := by
  cases h with
  | @disable ch _ =>
      exact hs.keep rfl rfl rfl (p.setChan_read Chan.txDescs rfl)
  | _ => exact hs.keep rfl rfl rfl fun _ => rfl

/-- The receive side and the accumulator move none, and the transmit side
returns what it takes. -/
theorem Hardware.txConserved {ch : Fin tr.numChannels}
    (h : Hardware ch p p') (hs : TxConserved tr p) : TxConserved tr p' := by
  cases h with
  | @sent d rest hdma hque hon =>
      refine hs.keep rfl rfl rfl (p.setChan_read Chan.txDescs ?_)
      simp only [Chan.txDescs, hdma, hque, ← Multiset.cons_coe,
        ← Multiset.singleton_add, Option.toList_none, Option.toList_some,
        Multiset.coe_nil]
      abel
  | @returned d hdma =>
      have hmove : ∑ i : Fin tr.numChannels, Chan.txDescs
            ((p.setChan ch { p.chan ch with txDma := none }).chan i) + {d}
          = ∑ i : Fin tr.numChannels, (p.chan i).txDescs + 0 := by
        refine sum_fin_move Chan.txDescs p.chan ch.isLt ?_
        simp only [Chan.txDescs, hdma, Option.toList_none,
          Option.toList_some, Multiset.coe_nil, Multiset.coe_singleton]
        abel
      rw [add_zero] at hmove
      unfold TxConserved at hs ⊢
      rw [← hs, ← hmove, ← Multiset.coe_add, Multiset.coe_singleton]
      simp only [Packets.setChan]
      abel
  | received => exact hs.keep rfl rfl rfl (p.setChan_read Chan.txDescs rfl)
  | @delivered e dest hdma =>
      refine hs.keep rfl rfl rfl (pushRx_chan Chan.txDescs ?_ ?_)
      · exact fun _ _ => rfl
      · exact p.setChan_read Chan.txDescs rfl
  | accumulated | filled =>
      exact hs.keep rfl rfl rfl (p.setChan_read Chan.txDescs rfl)

theorem txConserved_init (tr : Traffic) : TxConserved tr (initPackets tr) := by
  have hempty : ∀ ch : Fin tr.numChannels,
      ((initPackets tr).chan ch).txDescs = 0 := fun _ => rfl
  unfold TxConserved
  rw [Finset.sum_eq_zero fun ch _ => hempty ch]
  simp only [initPackets, SendPc.hand, Multiset.coe_nil, add_zero]

/-- What the calling core's `main` knows about `send_data`. -/
theorem sendInv_caller
    {guard : Wire cfg → WireAction cfg.numCores tr.numChannels → Prop}
    {w : Wire cfg} (h : WireReachable cfg tr guard w)
    {c : Fin cfg.numCores} (hpc : (w.base.core c).main.packets = true) :
    SendInv tr cfg.numCores (w.base.core c) w.pk := by
  have hc : c = cfg.core0 := Fin.ext (roleOk_reachable (wire_base h) c hpc)
  rw [hc]
  exact sendInv_reachable h

/-- No transmit descriptor is ever lost or doubled. -/
theorem txConserved_reachable
    {guard : Wire cfg → WireAction cfg.numCores tr.numChannels → Prop}
    {w : Wire cfg} (h : WireReachable cfg tr guard w) :
    TxConserved tr w.pk := by
  refine h.invariant' (I := fun w : Wire cfg => TxConserved tr w.pk) ?_ ?_
  · exact txConserved_init tr
  · intro w a w' hr hs _ hstep
    cases wireStep_cases hstep with
    | main _ hcall => exact hcall.txConserved (sendInv_caller hr) hs
    | irq => exact hs.keep rfl rfl rfl (w.pk.setChan_read Chan.txDescs rfl)
    | isr hcall => exact hcall.txConserved hs
    | hardware _ hhw => exact hhw.txConserved hs

-- ====================================================== no NULL pop

/-- The descriptors the running `send_data` has popped. -/
def SendPc.drawn : SendPc → Nat
  | .setup _ => 0
  | .pop i => i
  | .fill i _ | .push i _ => i + 1

/-- The packet loop is in its bounds. -/
def SendPc.inBounds (tr : Traffic) : SendPc → Prop
  | .setup _ => True
  | .pop i | .fill i _ | .push i _ => i < tr.numPackets

/-- Nothing but `send_data` draws on the free queue, `NUM_PACKETS`
descriptors a round. -/
structure DrawInv (tr : Traffic) (x : CoreState) (p : Packets) : Prop where
  bounds : p.send.inBounds tr
  free : x.main ≠ .returned →
    tr.half ≤ p.txFree.length + x.sent * tr.numPackets + p.send.drawn

/-- There are descriptors for the packets of all rounds. -/
def EnoughTx (cfg : Config) (tr : Traffic) : Prop :=
  cfg.numCores * tr.numPackets ≤ tr.half

theorem DrawInv.keep (hs : DrawInv tr x p) (hmain : x.main ≠ .returned)
    (hsent : x'.sent = x.sent) (hsend : p'.send = p.send)
    (hfree : p.txFree.length ≤ p'.txFree.length) : DrawInv tr x' p' := by
  refine ⟨by rw [hsend]; exact hs.bounds, fun _ => ?_⟩
  have hle := hs.free hmain
  rw [hsend, hsent]
  omega

theorem drawInv_init (cfg : Config) (tr : Traffic) :
    DrawInv tr (init cfg).core0 (initPackets tr) where
  bounds := trivial
  free := by
    have hlen : (initPackets tr).txFree.length = tr.half :=
      List.length_range' ..
    rw [hlen]
    omega

/-- A call inside `send_data` draws at most what it counts. -/
theorem DrawInv.call (hs : DrawInv tr x p)
    (h : MainCall tr n c ok x p p' none) : DrawInv tr x p' := by
  have hbounds := hs.bounds
  cases h with
  | send hpc h =>
      have hle := hs.free (by rw [hpc]; simp)
      cases h with
      | call hpc' =>
          refine ⟨trivial, fun _ => ?_⟩
          rw [hpc'] at hle
          simp only [sendCall_free]
          exact hle
      | data hpc' =>
          refine ⟨tr.packets_pos, fun _ => ?_⟩
          rw [hpc'] at hle
          exact hle
      | pop hpc' hfree =>
          rw [hpc'] at hbounds hle
          rw [hfree] at hle
          refine ⟨hbounds, fun _ => ?_⟩
          simp only [SendPc.drawn, List.length_cons] at hle ⊢
          omega
      | fill hpc' =>
          rw [hpc'] at hbounds hle
          exact ⟨hbounds, fun _ => hle⟩
      | push hpc' hi =>
          rw [hpc'] at hle
          exact ⟨hi, fun _ => hle⟩
  | close hpc =>
      have hmain : x.main ≠ .returned := by rw [hpc]; simp
      cases ok with
      | true =>
          refine hs.keep hmain rfl (cleanupCall_send ..) ?_
          simp only [cleanupCall_free, if_true]
          exact Nat.le_refl _
      | false => exact hs.keep hmain rfl rfl (Nat.le_refl _)

/-- The end of `send_data`, the diversion, and everything else. -/
theorem DrawInv.done {res : Bool} (hs : DrawInv tr x p)
    (hx : MainOk cfg SYSINIT x)
    (h : MainCall tr n c ok x p p' (some res))
    (hm : MainStep cfg SYSINIT res x sh x' sh') : DrawInv tr x' p' := by
  have hsame : x.main ≠ .send → x'.sent = x.sent := by
    intro hne
    rcases hm.irq_core0 hx with ⟨-, hsent⟩ | ⟨hpc, -⟩
    · exact hsent
    · exact absurd hpc hne
  have hmain := hm.not_returned
  cases h with
  | send hpc h =>
      obtain ⟨rfl, -⟩ := hm.of_send hpc
      cases h with
      | failed | popNull => exact ⟨trivial, fun h => absurd rfl h⟩
      | last hpc' hi =>
          have hbounds := hs.bounds
          have hle := hs.free hmain
          rw [hpc'] at hbounds hle
          refine ⟨trivial, fun _ => ?_⟩
          simp only [SendPc.inBounds, SendPc.drawn, CoreState.sent, hpc]
            at hbounds hle
          show tr.half ≤ p.txFree.length
            + (x.took.length + 1) * tr.numPackets + 0
          rw [Nat.succ_mul]
          omega
  | divert hpc =>
      refine hs.keep hmain (hsame (by rw [hpc]; simp)) rfl ?_
      rw [List.length_append]
      exact Nat.le_add_right ..
  | closed hpc =>
      exact hs.keep hmain (hsame (by rw [hpc]; simp)) rfl (Nat.le_refl _)
  | plain hpc =>
      refine hs.keep hmain (hsame fun h => ?_) rfl (Nat.le_refl _)
      rw [h] at hpc
      cases hpc

theorem drawInv_reachable (hone : cfg.OnePass)
    {guard : Wire cfg → WireAction cfg.numCores tr.numChannels → Prop}
    {w : Wire cfg} (h : WireReachable cfg tr guard w) :
    DrawInv tr w.base.core0 w.pk := by
  refine h.invariant' (I := fun w => DrawInv tr w.base.core0 w.pk)
    (drawInv_init cfg tr) ?_
  intro w a w' hr hs _ hstep
  have hx := (irqInv_reachable hone (wire_base hr)).main cfg.core0
  cases (wireStep_cases hstep).core0 (roleOk_reachable (wire_base hr)) with
  | call _ hcall hbase =>
      rw [hbase]
      exact hs.call hcall
  | done _ hcall hm => exact hs.done hx hcall hm
  | other hsame hother =>
      have hpk := hother.sendSame
      refine ⟨by rw [hpk.send]; exact hs.bounds, fun hne => ?_⟩
      rw [hsame.1] at hne
      rw [hpk.send, hpk.txFree, sent_congr hsame.1 hsame.2.2.2]
      exact hs.free hne

/-- With enough descriptors for all rounds the pop is never NULL. -/
theorem DrawInv.txFree_ne {i : Nat} (hs : DrawInv tr x p)
    (hx : MainOk cfg SYSINIT x) (htx : EnoughTx cfg tr)
    (hmain : x.main = .send) (hpop : p.send = .pop i) : p.txFree ≠ [] := by
  intro hnil
  simp only [MainOk, hmain] at hx
  have hbounds := hs.bounds
  have hle := hs.free (by rw [hmain]; simp)
  simp only [hpop, hnil, SendPc.inBounds, SendPc.drawn, CoreState.sent,
    hmain, List.length_nil] at hbounds hle
  -- the rounds sent and the one in hand are among the rounds of the pass
  have hrounds : (x.took.length + 1) * tr.numPackets
      ≤ cfg.numCores * tr.numPackets :=
    Nat.mul_le_mul_right _ (by rw [hx.2.2.2]; exact hx.2.2.1)
  rw [Nat.succ_mul] at hrounds
  have henough : cfg.numCores * tr.numPackets ≤ tr.half := htx
  omega

/-- In every run, whatever the drivers return: every transmit descriptor
is in exactly one place, and with enough of them for one pass `send_data`
never pops NULL. -/
theorem tx_conserved {w : Wire cfg} (h : WireReachable cfg tr anyStep w) :
    TxConserved tr w.pk
      ∧ (cfg.OnePass → EnoughTx cfg tr →
        ∀ i, w.pk.send = .pop i → w.pk.txFree ≠ []) := by
  refine ⟨txConserved_reachable h, fun hone htx i hpop => ?_⟩
  have hmain : w.base.core0.main = .send := by
    by_contra hne
    rw [(sendInv_reachable h).idle hne] at hpop
    cases hpop
  exact (drawInv_reachable hone h).txFree_ne
    ((irqInv_reachable hone (wire_base h)).main cfg.core0) htx hmain hpop

/-- On the board, with `send_data` between two packets of round 0. -/
theorem tx_conserved_board :
    ∃ w : Wire board, WireReachable board boardTraffic anyStep w
      ∧ w.pk.send = .pop 3 ∧ TxConserved boardTraffic w.pk
      ∧ w.pk.txFree ≠ [] := by
  obtain ⟨w, hw, hpop⟩ : ∃ w, WireReachable board boardTraffic anyStep w
      ∧ w.pk.send = .pop 3 :=
    exists_reach_of_runOk (wireBoot ++ wireMain 0 19) (by decide +kernel)
  have hone : board.OnePass := rfl
  have htx : EnoughTx board boardTraffic := by
    unfold EnoughTx
    decide
  obtain ⟨hs, hne⟩ := tx_conserved hw
  exact ⟨w, hw, hpop, hs, hne hone htx 3 hpop⟩

end DspCodes.Infra
