/-
The hardware finishes what `send_data` began: in step, the packets of a
round that is sent arrive on its page by moves of the hardware alone.

# What is set up

`SetUp`: the calls that `send_data` has behind it are in effect, and stay
so until `cleanup`. The one exception is the accumulator, which the
handler disables; but a handler runs only when the page is full.

# Why the moves end

`Chan.ahead` counts the moves the packets of a channel have before them,
and every move takes one off.
-/
import DspCodes.Infra.RxDesc

namespace DspCodes.Infra

open Lts

variable {cfg : Config} {tr : Traffic} {n c channel core : Nat} {ok : Bool}
  {x x' : CoreState} {sh sh' : Shared} {p p' : Packets} {r : Option Bool}
  {w w' : Wire cfg}

-- ======================================================== what is set up

/-- The call is in effect for channel `channel`. -/
def SendCall.Done (tr : Traffic) (n channel : Nat) (p : Packets) :
    SendCall → Prop
  | .programAccumulator => (p.chan channel).acc.taken < tr.numPackets →
      (p.chan channel).acc.enabled = true
  | .configureRxFlow =>
      p.flow (Resource.flow.number n channel) = some channel
  | .txChannelEnable => (p.chan channel).txOn = true
  | .rxChannelEnable => (p.chan channel).rxOn = true
  | _ => True

/-- The calls behind `send_data` are in effect for the round. -/
structure SetUp (tr : Traffic) (n : Nat) (x : CoreState) (p : Packets) :
    Prop where
  calls : ∀ calls todo, p.send = .setup todo → sendSetup = calls ++ todo →
    ∀ call ∈ calls, call.Done tr n x.round p
  sent : p.send.looping = true
      ∨ x.main.inRound = true ∧ x.main ≠ .cleanup →
    ∀ call : SendCall, call.Done tr n x.round p

/-- Flows and enables as they were, and no page emptied or accumulator
disabled before its page is full. -/
theorem SendCall.Done.keep {call : SendCall} {i : Nat}
    (h : call.Done tr n i p) (hflow : p'.flow = p.flow)
    (htx : ∀ j, (p'.chan j).txOn = (p.chan j).txOn)
    (hrx : ∀ j, (p'.chan j).rxOn = (p.chan j).rxOn)
    (htaken : (p.chan i).acc.taken ≤ (p'.chan i).acc.taken)
    (hacc : (p'.chan i).acc.taken < tr.numPackets →
      (p'.chan i).acc.enabled = (p.chan i).acc.enabled) :
    call.Done tr n i p' := by
  cases call with
  | programAccumulator =>
      intro hlt
      rw [hacc hlt]
      exact h (Nat.lt_of_le_of_lt htaken hlt)
  | configureRxFlow =>
      show p'.flow _ = _
      rw [hflow]
      exact h
  | txChannelEnable => exact (htx i).trans h
  | rxChannelEnable => exact (hrx i).trans h
  | _ => trivial

/-- The switches of a channel and its accumulator. -/
def Chan.switches (k : Chan) : Bool × Bool × Acc := (k.txOn, k.rxOn, k.acc)

theorem SendCall.Done.switches {call : SendCall} {i : Nat}
    (h : call.Done tr n i p) (hflow : p'.flow = p.flow)
    (hchan : ∀ j, (p'.chan j).switches = (p.chan j).switches) :
    call.Done tr n i p' := by
  simp only [Chan.switches, Prod.mk.injEq] at hchan
  have hacc := (hchan i).2.2
  exact h.keep hflow (fun j => (hchan j).1) (fun j => (hchan j).2.1)
    (by rw [hacc]) fun _ => by rw [hacc]

/-- A call of `send_data` undoes no earlier one. -/
theorem SendCall.Done.sendCall {call call' : SendCall} {i : Nat}
    (h : call.Done tr n i p)
    (hflow : call' = .configureRxFlow → p.hnd .rxQue = i) :
    call.Done tr n i (sendCall tr n c i call' p) := by
  cases call' with
  | programAccumulator =>
      cases call with
      | programAccumulator =>
          intro _
          simp only [Infra.sendCall, Packets.setChan, Function.update_self]
      | txChannelEnable | rxChannelEnable =>
          simp only [SendCall.Done, Infra.sendCall, Packets.setChan,
            Function.update_self]
          exact h
      | configureRxFlow => exact h
      | _ => trivial
  | configureRxFlow =>
      cases call with
      | configureRxFlow =>
          simp only [SendCall.Done, Infra.sendCall, Packets.opened,
            Function.update_self, hflow rfl]
      | programAccumulator | txChannelEnable | rxChannelEnable => exact h
      | _ => trivial
  | txChannelEnable | rxChannelEnable =>
      cases call with
      | configureRxFlow => exact h
      | programAccumulator | txChannelEnable | rxChannelEnable =>
          simp only [SendCall.Done, Infra.sendCall, Packets.setChan,
            Function.update_apply] at h ⊢
          split_ifs with hi
          · subst hi
            first | exact h | rfl
          · exact h
      | _ => trivial
  | _ =>
      cases call with
      | programAccumulator | configureRxFlow | txChannelEnable
      | rxChannelEnable => exact h
      | _ => trivial

/-- A call of `send_data` is in effect. -/
theorem sendCall_done {call : SendCall} {i : Nat}
    (huses : ∀ res, call.uses = some res → p.hnd res = i) :
    call.Done tr n i (sendCall tr n c i call p) := by
  cases call with
  | programAccumulator =>
      intro _
      simp only [sendCall, Packets.setChan, Function.update_self]
  | configureRxFlow =>
      simp only [SendCall.Done, sendCall, Packets.opened,
        Function.update_self, huses .rxQue rfl]
  | txChannelEnable =>
      simp only [SendCall.Done, sendCall, Packets.setChan,
        huses .txCh rfl, Function.update_self]
  | rxChannelEnable =>
      simp only [SendCall.Done, sendCall, Packets.setChan,
        huses .rxCh rfl, Function.update_self]
  | _ => trivial

/-- Outside `send_data` and the wait that follows it there is nothing to
keep. -/
theorem SetUp.outside (hsend : p.send = .setup sendSetup)
    (hmain : x.main.inRound = true → x.main = .cleanup) :
    SetUp tr n x p where
  calls := by
    intro calls todo htodo hcalls call hmem
    rw [hsend] at htodo
    cases htodo
    rw [List.self_eq_append_left.mp hcalls] at hmem
    cases hmem
  sent := by
    rintro (h | ⟨hin, hne⟩)
    · rw [hsend] at h
      cases h
    · exact absurd (hmain hin) hne

theorem setUp_init (cfg : Config) (tr : Traffic) :
    SetUp tr cfg.numCores (init cfg).core0 (initPackets tr) := by
  refine .outside rfl fun h => ?_
  revert h
  simp only [State.core0, init, initCore]
  split_ifs <;> exact fun h => absurd h Bool.false_ne_true

/-- Every call is one of `send_data`'s. -/
theorem mem_sendSetup (call : SendCall) : call ∈ sendSetup := by
  cases call <;> decide

/-- A push moves no switch. -/
theorem SendCall.Done.pushTx {call : SendCall} {i : Nat}
    (h : call.Done tr n i p) (d : Nat) : call.Done tr n i (p.pushTx d) :=
  h.switches rfl (p.setChan_read Chan.switches rfl)

/-- A call inside `send_data` or `cleanup`. -/
theorem SetUp.call (hs : SetUp tr n x p) (hsend : SendInv tr n x p)
    (h : MainCall tr n c ok x p p' none) : SetUp tr n x p' := by
  cases h with
  | send hpc h =>
      have hround : ¬ (x.main.inRound = true ∧ x.main ≠ .cleanup) := by
        rw [hpc]
        exact fun h => absurd h.1 Bool.false_ne_true
      cases h with
      | @call call todo hsetup hok hch =>
          refine ⟨fun calls todo' htodo' heq => ?_, fun h => ?_⟩
          · cases htodo'
            -- the call just made is the last of those behind
            obtain ⟨before, hbefore⟩ := hsend.setup _ hsetup
            have hcalls : calls = before ++ [call] := by
              have heq' : calls ++ todo = (before ++ [call]) ++ todo := by
                rw [← heq, hbefore.1, List.append_assoc]
                rfl
              exact List.append_cancel_right heq'
            rw [hcalls]
            intro call' hmem
            show call'.Done tr n x.round (sendCall tr n c x.round call p)
            rcases List.mem_append.mp hmem with hmem | hmem
            · refine (hs.calls _ _ hsetup hbefore.1 call' hmem).sendCall ?_
              rintro rfl
              exact (hsend.uses hsetup rfl).2
            · rw [List.mem_singleton.mp hmem]
              apply sendCall_done
              intro res hres
              rw [(hsend.uses hsetup hres).2]
              cases call <;> cases hres <;> rfl
          · rcases h with h | h
            · exact absurd h Bool.false_ne_true
            · exact absurd h hround
      | data hsetup =>
          refine ⟨fun _ _ h => (nomatch h), fun _ call => ?_⟩
          exact hs.calls sendSetup [] hsetup (List.append_nil _).symm call
            (mem_sendSetup call)
      | pop hpc' | fill hpc' =>
          refine ⟨fun _ _ h => (nomatch h), fun _ call => ?_⟩
          exact (hs.sent (.inl (by rw [hpc']; rfl)) call).switches rfl
            fun _ => rfl
      | push hpc' =>
          refine ⟨fun _ _ h => (nomatch h), fun _ call => ?_⟩
          exact (hs.sent (.inl (by rw [hpc']; rfl)) call).pushTx _
  | @close call todo hpc htodo =>
      refine .outside ?_ fun _ => hpc
      rw [← hsend.idle (by rw [hpc]; simp)]
      show (if ok then cleanupCall call p else p).send = p.send
      split_ifs <;> simp

/-- A call that completes a step of the protocol. -/
theorem SetUp.done {res : Bool} (hs : SetUp tr cfg.numCores x p)
    (hsend : SendInv tr cfg.numCores x p)
    (h : MainCall tr cfg.numCores c ok x p p' (some res))
    (hm : MainStep cfg SYSINIT res x sh x' sh') :
    SetUp tr cfg.numCores x' p' := by
  cases h with
  | send hpc h =>
      obtain ⟨rfl, -⟩ := hm.of_send hpc
      cases h with
      | failed | popNull =>
          exact .outside rfl fun h => absurd h Bool.false_ne_true
      | last hpc' hi =>
          refine ⟨fun calls todo htodo heq => ?_, fun _ call => ?_⟩
          · cases htodo
            rw [List.self_eq_append_left.mp heq]
            exact fun _ h => nomatch h
          · exact (hs.sent (.inl (by rw [hpc']; rfl)) call).pushTx _
  | divert hpc =>
      obtain ⟨rfl, -⟩ := hm.of_divert hpc
      exact .outside (hsend.idle (by rw [hpc]; simp)) fun _ => rfl
  | closed hpc =>
      obtain ⟨rfl, -⟩ := hm.of_cleanup hpc
      refine .outside (hsend.idle (by rw [hpc]; simp)) fun h => ?_
      rw [roundHead_core0_inRound] at h
      cases h
  | plain hpc =>
      have hidle : p.send = .setup sendSetup :=
        hsend.idle fun h => by rw [h] at hpc; cases hpc
      obtain ⟨-, hin, hround⟩ := hm.inRound_of_plain hpc
      refine ⟨fun calls todo htodo heq call hmem => ?_, fun h call => ?_⟩
      · rw [hidle] at htodo
        cases htodo
        rw [List.self_eq_append_left.mp heq] at hmem
        cases hmem
      · rcases h with h | ⟨h, -⟩
        · rw [hidle] at h
          cases h
        · rw [hin] at h
          rw [hround h]
          refine hs.sent (.inr ⟨h, fun hcl => ?_⟩) call
          rw [hcl] at hpc
          cases hpc

/-- The hardware leaves the switches where they are. -/
theorem Hardware.done {ch : Nat} {call : SendCall} {i : Nat}
    (h : Hardware ch p p') (hs : call.Done tr n i p) :
    call.Done tr n i p' := by
  cases h with
  | sent | returned | received =>
      exact hs.switches rfl (p.setChan_read Chan.switches rfl)
  | delivered =>
      refine hs.switches rfl (pushRx_chan Chan.switches ?_ ?_)
      · exact fun _ _ => rfl
      · exact p.setChan_read Chan.switches rfl
  | accumulated | filled =>
      refine hs.keep rfl (p.setChan_read Chan.txOn rfl)
        (p.setChan_read Chan.rxOn rfl) ?_ fun _ => ?_
      all_goals
        simp only [Packets.write, Packets.accumulated, Packets.setChan,
          Function.update_apply]
        split_ifs with hi
      · rw [hi]
        exact Nat.le_succ _
      · exact Nat.le_refl _
      · rw [hi]
      · rfl

/-- What the others do while core 0's `main` stands. -/
theorem SetUp.other {x' : CoreState}
    (hs : SetUp tr cfg.numCores w.base.core0 w.pk)
    (hirq : IrqInv w.base) (hacc : AccInv tr w)
    (hsame : SameMain w.base.core0 x')
    (h : OtherCall tr w p') : SetUp tr cfg.numCores x' p' := by
  have hround : x'.round = w.base.core0.round := by
    unfold CoreState.round
    rw [hsame.2.1, hsame.2.2.1]
  have hdone : ∀ call : SendCall,
      call.Done tr cfg.numCores w.base.core0.round w.pk →
      call.Done tr cfg.numCores w.base.core0.round p' := by
    intro call hcall
    cases h with
    | same => exact hcall
    | irq => exact hcall.switches rfl (w.pk.setChan_read Chan.switches rfl)
    | @isr c ok p r hisr =>
        cases hisr with
        | @disable ch hpc hok =>
            have htaken : ∀ j, (Chan.acc ((w.pk.setChan ch
                { w.pk.chan ch with acc :=
                  { (w.pk.chan ch).acc with enabled := false } }).chan j)).taken
                = (w.pk.chan j).acc.taken :=
              w.pk.setChan_read (fun k => k.acc.taken) rfl
            refine hcall.keep rfl (w.pk.setChan_read Chan.txOn rfl)
              (w.pk.setChan_read Chan.rxOn rfl) (htaken _).symm.le
              fun hlt => ?_
            -- the page of the channel disabled is full
            have hch : ch = c := by
              have hok := hirq.isr c
              simpa only [IsrOk, hpc] using hok
            have hrun : (w.base.core c).handlers ≠ 0 :=
              handlers_of_running (by rw [hpc]; simp)
            simp only [Packets.setChan, Function.update_apply] at hlt ⊢
            split_ifs at hlt ⊢ with hi
            · rw [hch] at hlt
              exact absurd (hacc.early c (.inr hlt)) hrun
            · rfl
        | _ => exact hcall.switches rfl fun _ => rfl
    | hardware hhw => exact hhw.done hcall
  refine ⟨fun calls todo htodo heq call hmem => ?_, fun h' call => ?_⟩
  · rw [hround]
    rw [h.sendSame.send] at htodo
    exact hdone call (hs.calls calls todo htodo heq call hmem)
  · rw [hround]
    rw [h.sendSame.send, hsame.1] at h'
    exact hdone call (hs.sent h' call)

/-- The calls behind `send_data` are in effect in every reachable state. -/
theorem setUp_reachable (hone : cfg.OnePass) (hfour : cfg.numCores ≤ 4)
    {guard : Wire cfg → WireAction cfg.numCores tr.numChannels → Prop}
    (h : WireReachable cfg tr guard w) :
    SetUp tr cfg.numCores w.base.core0 w.pk := by
  refine h.invariant'
    (I := fun w => SetUp tr cfg.numCores w.base.core0 w.pk)
    (setUp_init cfg tr) ?_
  intro w a w' hr hs _ hstep
  have hsend := sendInv_reachable hr
  cases (wireStep_cases hstep).core0 (roleOk_reachable (wire_base hr)) with
  | call _ hcall hbase =>
      rw [hbase]
      exact hs.call hsend hcall
  | done _ hcall hm => exact hs.done hsend hcall hm
  | other hsame hother =>
      exact hs.other (irqInv_reachable hone (wire_base hr))
        (accInv_reachable hone hfour hr) hsame hother

-- =========================================================== the drain

/-- The moves the packets of a channel have before them. -/
def Chan.ahead (k : Chan) : Nat :=
  5 * k.txQue.length + k.txDma.toList.length + 3 * k.stream.length
    + 2 * k.rxDma.toList.length + k.rxQue.length

/-- Every move of a channel is one of them. -/
theorem Hardware.ahead {ch : Fin tr.numChannels} (hs : Routed tr x p)
    (h : Hardware ch p p') :
    (p'.chan ch).ahead + 1 = (p.chan ch).ahead := by
  cases h with
  | sent hdma hque hon =>
      simp only [Packets.setChan, Function.update_self, Chan.ahead, hdma,
        hque, Option.toList_none, Option.toList_some, List.length_cons,
        List.length_append, List.length_nil]
      omega
  | returned hdma =>
      simp only [Packets.setChan, Function.update_self, Chan.ahead, hdma,
        Option.toList_none, Option.toList_some, List.length_cons,
        List.length_nil]
      omega
  | received hdma hstream =>
      simp only [Packets.setChan, Function.update_self, Chan.ahead, hdma,
        hstream, Option.toList_none, Option.toList_some, List.length_cons,
        List.length_nil]
      omega
  | delivered hdma =>
      rw [hs.delivered hdma]
      simp only [Packets.setChan, Function.update_self, Chan.ahead, hdma,
        Option.toList_none, Option.toList_some, List.length_cons,
        List.length_append, List.length_nil]
      omega
  | accumulated hque | filled hque =>
      simp only [Packets.write, Packets.accumulated, Packets.setChan,
        Function.update_self, Chan.ahead, hque, List.length_cons]
      omega

/-- A channel that is set up, fed and has a round's packets stops moving
only when they have arrived. -/
theorem arrived_of_still {ch : Fin tr.numChannels}
    (hdone : ∀ call : SendCall, call.Done tr n ch p) (hch : ch.val < n)
    (hroute : Routed tr x p) (hload : (p.chan ch).load = tr.numPackets)
    (hpage : (p.chan ch).acc.enabled = true →
      (p.chan ch).acc.maxPageEntries = tr.numPackets + 1)
    (hfed : (p.chan ch).stream ≠ [] → p.rxFree ≠ [])
    (htx : txDma ch p = none) (hrx : rxDma ch p = none)
    (hacc : accumulate ch p = none) : Arrived tr (p.chan ch) := by
  have htxon : (p.chan ch).txOn = true := hdone .txChannelEnable
  have hrxon : (p.chan ch).rxOn = true := hdone .rxChannelEnable
  have hflow : p.flow ch.val = some ch.val := by
    have hflow := hdone .configureRxFlow
    simpa only [SendCall.Done, Resource.number, Nat.mod_eq_of_lt hch]
      using hflow
  have htxQue : (p.chan ch).txQue = [] := by
    unfold txDma at htx
    split at htx
    next => cases htx
    next => rw [if_pos htxon] at htx; cases htx
    next hque => exact hque
  have hrxDma : (p.chan ch).rxDma = none ∧ (p.chan ch).stream = [] := by
    unfold rxDma at hrx
    split at hrx
    next => cases hrx
    next tag rest hdma hstream =>
      -- the packet's flow is there, and so is a descriptor for it
      have htag : tag = ch.val :=
        (hroute.chan ch).stream tag (by rw [hstream]; exact .head _)
      have hfree := hfed (by rw [hstream]; simp)
      obtain ⟨e, free, hcons⟩ := List.exists_cons_of_ne_nil hfree
      rw [htag, hflow, hcons] at hrx
      simp only [hrxon, if_true] at hrx
      cases hrx
    next hdma hstream => exact ⟨hdma, hstream⟩
  have hrxQue : (p.chan ch).rxQue = [] := by
    cases hque : (p.chan ch).rxQue with
    | nil => rfl
    | cons e rest =>
        have hlt : (p.chan ch).acc.taken < tr.numPackets := by
          simp only [Chan.load, hque, List.length_cons] at hload
          omega
        have hon : (p.chan ch).acc.enabled = true :=
          hdone .programAccumulator hlt
        unfold accumulate at hacc
        rw [hque] at hacc
        simp only [hpage hon] at hacc
        rw [if_pos ⟨hon, Nat.succ_lt_succ hlt⟩] at hacc
        cases hacc
  refine ⟨htxQue, hrxDma.2, hrxDma.1, hrxQue, ?_⟩
  simpa only [Chan.load, htxQue, hrxDma.1, hrxDma.2, hrxQue,
    Option.toList_none, List.length_nil, Nat.zero_add] using hload

/-- In step, the packets of the round core 0 waits in arrive by moves of
the hardware, which leave the protocol where it is. -/
theorem arrives (hone : cfg.OnePass) (hfour : cfg.numCores ≤ 4)
    (hrx : EnoughRx tr) (h : WireReachable cfg tr (Lifted InStep) w)
    {ch : Fin tr.numChannels} (hch : ch.val = w.base.core0.passed)
    (hsent : ch.val < w.base.core0.sent) :
    ∃ w', Reach (wireStep tr) (fun _ a => a.lift = none) w w'
      ∧ w'.base = w.base ∧ Arrived tr (w'.pk.chan ch) := by
  by_cases hhere : Arrived tr (w.pk.chan ch)
  · exact ⟨w, .init, rfl, hhere⟩
  -- the hardware alone keeps the run in step
  have hrun : ∀ v : Wire cfg,
      Reach (wireStep tr) (fun _ a => a.lift = none) w v →
      WireReachable cfg tr (Lifted InStep) v := fun v hv =>
    h.trans (hv.mono fun _ _ hlift b hb => by rw [hlift] at hb; cases hb)
  have hstart : Reach (wireStep tr) (fun _ a => a.lift = none) w w := .init
  refine hstart.leadsTo (P := fun v : Wire cfg => v.base = w.base
      ∧ ¬ Arrived tr (v.pk.chan ch)) (fun v => (v.pk.chan ch).ahead) ?_
    ⟨rfl, hhere⟩
  rintro v hv ⟨hbase, hnot⟩
  have hcalm := calm_reachable hone hfour (hrun v hv)
  have hrxInv := rxInv_reachable hone hfour (hrun v hv)
  have hset := setUp_reachable hone hfour (hrun v hv)
  obtain ⟨hin, hne, hround⟩ : v.base.core0.main.inRound = true
      ∧ v.base.core0.main ≠ .cleanup ∧ v.base.core0.round = ch.val := by
    rw [hbase, hch]
    have hmain := (irqInv_reachable hone (wire_base h)).main cfg.core0
    rcases w.base.core0.sent_cases with hs | ⟨hpc | hpc, -⟩
    · omega
    all_goals
      simp only [MainOk, hpc] at hmain
      refine ⟨by rw [hpc]; rfl, by rw [hpc]; simp, ?_⟩
      rw [CoreState.round, hmain.1, CoreState.passed, hmain.2.2,
        Nat.zero_add]
  have hle := MainOk.sent_le (hcalm.irq.main cfg.core0)
  have hsent' : ch.val < v.base.core0.sent := hbase ▸ hsent
  -- if the hardware stood still, they would have arrived
  obtain ⟨a, p, hlift, hstep, hhw⟩ : ∃ a p, a.lift = none
      ∧ wireStep tr a v = some ⟨v.base, p⟩ ∧ Hardware ch v.pk p := by
    by_contra hstill
    have hnone : ∀ o : Option Packets, (∀ p, o ≠ some p) → o = none :=
      fun o ho => Option.eq_none_iff_forall_ne_some.mpr ho
    refine hnot (arrived_of_still (n := cfg.numCores)
      (fun call => hround ▸ hset.sent (.inr ⟨hin, hne⟩) call)
      (Nat.lt_of_lt_of_le hsent' hle) hcalm.route
      (hcalm.load.full ch hsent') (fun hon => (hcalm.acc.page ch hon).1)
      (hrxInv.fed hcalm hrx) ?_ ?_ ?_)
    · refine hnone _ fun p hp => hstill ⟨.txDma ch, p, rfl, ?_, txDma_cases hp⟩
      rw [wireStep, hp]
      rfl
    · refine hnone _ fun p hp => hstill ⟨.rxDma ch, p, rfl, ?_, rxDma_cases hp⟩
      rw [wireStep, hp]
      rfl
    · refine hnone _ fun p hp =>
        hstill ⟨.acc ch, p, rfl, ?_, accumulate_cases hp⟩
      rw [wireStep, hp]
      rfl
  have hdec := hhw.ahead hcalm.route
  refine ⟨a, ⟨v.base, p⟩, hlift, hstep, ?_⟩
  by_cases hthere : Arrived tr (p.chan ch)
  · exact .inl ⟨hbase, hthere⟩
  · exact .inr ⟨⟨hbase, hthere⟩, by show (p.chan ch).ahead < _; omega⟩

end DspCodes.Infra
