/-
What a round opens and closes: two DMA channels, two queues and a
receive flow, opened by `send_data` and closed by `cleanup`.

`SendInv` says where the handles point: from its first call on
`send_data` works on a channel the device has, and what it has opened is
what its handles name until `cleanup` is through. It holds under any
schedule and any driver result.

`Balanced` counts. Between two rounds nothing is open; inside a round its
own five resources are, each once, as far as `send_data` has come or
`cleanup` has not. A `send_data` that fails closes nothing, and `main`
returns at once: what the calls before the failing one had opened stays
open for ever. A failed closing call is only printed and leaks too:
`CleanupOk` excludes it.
-/
import DspCodes.Infra.PacketStep

namespace DspCodes.Infra

open Lts

variable {cfg : Config} {tr : Traffic} {n c channel core : Nat} {ok : Bool}
  {x x' : CoreState} {sh sh' : Shared} {p p' : Packets} {r : Option Bool}

-- ================================================= core 0 in its rounds

/-- Only core 0 stands at a call that moves packets. -/
def RoleOk (c : Nat) (x : CoreState) : Prop :=
  x.main.packets = true → c = SYSINIT

theorem roundHead_roleOk (c : Nat) (x : CoreState) :
    RoleOk c (roundHead cfg c x) := by
  unfold RoleOk roundHead
  split_ifs with hi hc
  · exact fun _ => hc
  all_goals exact fun h => absurd h Bool.false_ne_true

theorem afterSync_roleOk (c : Nat) (x : CoreState) :
    RoleOk c (afterSync cfg c x) := by
  unfold afterSync
  split_ifs with hc
  · exact fun _ => hc
  · exact roundHead_roleOk _ _

theorem MainStep.roleOk (h : MainStep cfg c ok x sh x' sh')
    (hx : RoleOk c x) : RoleOk c x' := by
  cases h with
  | hooked | runDone =>
      unfold RoleOk
      split_ifs <;> exact fun h => absurd h Bool.false_ne_true
  | cfgPass | cfgPopNull | cfgPush | cleanup => exact roundHead_roleOk _ _
  | popNull | recycle => exact afterSync_roleOk _ _
  | cfgPoll | poll => exact hx
  | divert hpc => exact fun _ => hx (by rw [hpc]; rfl)
  | _ => exact fun h => absurd h Bool.false_ne_true

theorem roleOk_reachable {guard : State cfg → Action cfg.numCores → Prop}
    {s : State cfg} (h : Reachable cfg guard s) :
    ∀ c : Fin cfg.numCores, RoleOk c (s.core c) := by
  refine h.invariant
    (I := fun s : State cfg => ∀ c : Fin cfg.numCores, RoleOk c (s.core c))
    ?_ ?_
  · intro c
    simp only [init, initCore, RoleOk]
    split_ifs <;> exact fun h => absurd h Bool.false_ne_true
  · intro s a s' hs _ happ
    obtain ⟨c, x, sh, rfl, hstep⟩ := apply_cases happ
    refine s.forall_put (P := fun d : Fin cfg.numCores => RoleOk d) _ ?_ hs
    cases hstep with
    | main _ hm => exact hm.roleOk (hs c)
    | irq => exact hs c
    | isr hi =>
        unfold RoleOk
        rw [hi.main_eq.1.1]
        exact hs c

/-- The control point, the loop counters and the history of `main` are
the same. -/
def SameMain (x x' : CoreState) : Prop :=
  x'.main = x.main ∧ x'.channel = x.channel ∧ x'.index = x.index
    ∧ x'.took = x.took

theorem SameMain.refl (x : CoreState) : SameMain x x := ⟨rfl, rfl, rfl, rfl⟩

/-- Core 0. -/
abbrev State.core0 (s : State cfg) : CoreState := s.core cfg.core0

/-- Only core 0's own `main` moves core 0's `main`. -/
theorem apply_core0 {s s' : State cfg} {a : Action cfg.numCores}
    (h : apply a s = some s') :
    (∃ ok, a = .main cfg.core0 ok
        ∧ MainStep cfg SYSINIT ok s.core0 s.shared s'.core0 s'.shared)
      ∨ ((∀ ok, a ≠ .main cfg.core0 ok) ∧ SameMain s.core0 s'.core0) := by
  obtain ⟨c, x, sh, rfl, hstep⟩ := apply_cases h
  by_cases hc : c = cfg.core0
  · subst hc
    simp only [State.core0, State.put_core, Function.update_self]
    cases hstep with
    | @main ok _ _ _ hm => exact .inl ⟨ok, rfl, hm⟩
    | irq => exact .inr ⟨fun _ heq => (nomatch heq), .refl _⟩
    | isr hi => exact .inr ⟨fun _ heq => (nomatch heq), hi.main_eq.1⟩
  · refine .inr ⟨fun ok heq => ?_, ?_⟩
    · cases hstep with
      | main => cases heq; exact hc rfl
      | irq | isr => cases heq
    · simp only [State.core0, State.put_core,
        Function.update_of_ne (Ne.symm hc)]
      exact .refl _

/-- `send_data` ends the round's first half. -/
theorem MainStep.of_send (h : MainStep cfg c ok x sh x' sh')
    (hpc : x.main = .send) :
    x' = { x with main := if ok then .syncWait else .returned }
      ∧ sh' = if ok then sh.raise x.index (x.channel + x.index) else sh := by
  cases h with
  | send _ hok | sendFailed _ hok => rw [hok]; exact ⟨rfl, rfl⟩
  | _ => simp_all

theorem MainStep.of_divert (h : MainStep cfg c ok x sh x' sh')
    (hpc : x.main = .divert) : x' = { x with main := .cleanup } ∧ sh' = sh := by
  cases h with
  | divert => exact ⟨rfl, rfl⟩
  | _ => simp_all

theorem MainStep.of_cleanup (h : MainStep cfg c ok x sh x' sh')
    (hpc : x.main = .cleanup) : x' = endRound cfg c x ∧ sh' = sh := by
  cases h with
  | cleanup => exact ⟨rfl, rfl⟩
  | _ => simp_all

-- ================================================ a step, from core 0

/-- What only `send_data`, the diversion and `cleanup` write is the
same. -/
structure SendSame (p p' : Packets) : Prop where
  send : p'.send = p.send
  cleanup : p'.cleanup = p.cleanup
  refs : p'.refs = p.refs
  hnd : p'.hnd = p.hnd
  flow : p'.flow = p.flow
  txFree : p'.txFree = p.txFree
  srcTagLo : p'.srcTagLo = p.srcTagLo

theorem SendSame.refl (p : Packets) : SendSame p p :=
  ⟨rfl, rfl, rfl, rfl, rfl, rfl, rfl⟩

theorem IsrCall.sendSame (h : IsrCall tr c ok x p p' r) : SendSame p p' := by
  cases h <;> exact ⟨rfl, rfl, rfl, rfl, rfl, rfl, rfl⟩

theorem Hardware.sendSame {ch : Nat} (h : Hardware ch p p') :
    SendSame p p' := by
  cases h <;> exact ⟨rfl, rfl, rfl, rfl, rfl, rfl, rfl⟩

/-- What the others do to the packets while core 0's `main` stands. -/
inductive OtherCall (tr : Traffic) (w : Wire cfg) : Packets → Prop
  | same : OtherCall tr w w.pk
  | irq (ch : Fin tr.numChannels) :
      OtherCall tr w
        (w.pk.setChan ch { w.pk.chan ch with raised := false })
  | isr {c : Fin cfg.numCores} {ok : Bool} {p : Packets} {r : Option Bool}
      (h : IsrCall tr c ok (w.base.core c) w.pk p r) : OtherCall tr w p
  | hardware {ch : Fin tr.numChannels} {p : Packets}
      (h : Hardware ch w.pk p) : OtherCall tr w p

theorem OtherCall.sendSame {w : Wire cfg} (h : OtherCall tr w p) :
    SendSame w.pk p := by
  cases h with
  | same => exact .refl _
  | irq => exact ⟨rfl, rfl, rfl, rfl, rfl, rfl, rfl⟩
  | isr h => exact h.sendSame
  | hardware h => exact h.sendSame

/-- A step of the wire, from core 0: a call of its `main` inside a step
of the protocol, a call that completes one, or a step of the others. -/
inductive Core0Step (tr : Traffic) (w : Wire cfg)
    (a : WireAction cfg.numCores tr.numChannels) (w' : Wire cfg) : Prop
  | call {ok : Bool} (ha : a = .main cfg.core0 ok)
      (hcall : MainCall tr cfg.numCores SYSINIT ok w.base.core0 w.pk w'.pk
        none) (hbase : w'.base = w.base)
  | done {ok res : Bool} (ha : a = .main cfg.core0 ok)
      (hcall : MainCall tr cfg.numCores SYSINIT ok w.base.core0 w.pk w'.pk
        (some res))
      (hstep : MainStep cfg SYSINIT res w.base.core0 w.base.shared
        w'.base.core0 w'.base.shared)
  | other (hsame : SameMain w.base.core0 w'.base.core0)
      (hother : OtherCall tr w w'.pk)

theorem WireStep.core0 {w w' : Wire cfg}
    {a : WireAction cfg.numCores tr.numChannels}
    (hrole : ∀ c : Fin cfg.numCores, RoleOk c (w.base.core c))
    (h : WireStep tr w a w') : Core0Step tr w a w' := by
  cases h with
  | @main c ok r s p hidle hcall hs =>
      by_cases hc : c = cfg.core0
      · subst hc
        cases r with
        | none => exact .call rfl hcall hs
        | some res =>
            rcases apply_core0 hs with ⟨ok', hok', hm⟩ | ⟨hne, -⟩
            · cases hok'
              exact .done rfl hcall hm
            · exact absurd rfl (hne res)
      · have hplain : (w.base.core c).main.packets = false :=
          Bool.eq_false_iff.mpr fun h => hc (Fin.ext (hrole c h))
        obtain ⟨rfl, rfl⟩ : p = w.pk ∧ r = some ok := by
          cases hcall with
          | plain => exact ⟨rfl, rfl⟩
          | send hpc | divert hpc | close hpc | closed hpc =>
              rw [hpc] at hplain
              cases hplain
        rcases apply_core0 hs with ⟨ok', hok', -⟩ | ⟨-, hsame⟩
        · cases hok'
          exact absurd rfl hc
        · exact .other hsame .same
  | irq hraised hcore hs =>
      rcases apply_core0 hs with ⟨_, h, -⟩ | ⟨-, hsame⟩
      · cases h
      · exact .other hsame (.irq _)
  | @isr c ok r s p hcall hs =>
      cases r with
      | none =>
          have hsame : s = w.base := hs
          rw [hsame]
          exact .other (.refl _) (.isr hcall)
      | some res =>
          rcases apply_core0 hs with ⟨_, h, -⟩ | ⟨-, hsame⟩
          · cases h
          · exact .other hsame (.isr hcall)
  | hardware hlift h => exact .other (.refl _) (.hardware h)

-- ========================================================= the handles

/-- The channel of the round core 0 is in. -/
def CoreState.round (x : CoreState) : Nat := x.channel + x.index

/-- Core 0 is between `send_data` and the end of `cleanup`. -/
def MainPc.inRound : MainPc → Bool
  | .syncWait | .syncPop | .syncRecycle _ | .divert | .cleanup => true
  | _ => false

/-- `send_data` is in its packet loop. -/
def SendPc.looping : SendPc → Bool
  | .setup _ => false
  | _ => true

/-- Resource `r` is the round's, and its handle names it. -/
def Names (tr : Traffic) (n : Nat) (x : CoreState) (p : Packets)
    (r : Resource) : Prop :=
  x.round < tr.numChannels ∧ p.hnd r = r.number n x.round

/-- Where `send_data` and `cleanup` stand, and where the handles point. -/
structure SendInv (tr : Traffic) (n : Nat) (x : CoreState) (p : Packets) :
    Prop where
  idle : x.main ≠ .send → p.send = .setup sendSetup
  closing : p.cleanup <:+ cleanupCalls
    ∧ (x.main ≠ .cleanup → p.cleanup = cleanupCalls)
  setup : ∀ todo, p.send = .setup todo → ∃ calls, sendSetup = calls ++ todo
    ∧ ∀ call ∈ calls, ∀ r, call.opens = some r → Names tr n x p r
  loop : p.send.looping = true ∨ x.main.inRound = true → ∀ r, Names tr n x p r

/-- Every resource is opened by some call of `send_data`. -/
theorem exists_opens (r : Resource) :
    ∃ call ∈ sendSetup, call.opens = some r := by
  cases r with
  | txCh => exact ⟨.txChannelOpen, by decide, rfl⟩
  | rxCh => exact ⟨.rxChannelOpen, by decide, rfl⟩
  | txQue => exact ⟨.txQueueOpen, by decide, rfl⟩
  | rxQue => exact ⟨.rxQueueOpen, by decide, rfl⟩
  | flow => exact ⟨.configureRxFlow, by decide, rfl⟩

section Calls

variable (tr n c channel) (call : SendCall) (p)

/-! What a call does to the state of `send_data`. -/

@[simp] theorem sendCall_send : (sendCall tr n c channel call p).send = p.send := by
  cases call <;> rfl

@[simp] theorem sendCall_cleanup :
    (sendCall tr n c channel call p).cleanup = p.cleanup := by
  cases call <;> rfl

theorem sendCall_hnd (r : Resource) :
    (sendCall tr n c channel call p).hnd r
      = if call.opens = some r then r.number n channel else p.hnd r := by
  cases call <;> cases r <;> rfl

theorem sendCall_refs (r : Resource) (i : Nat) :
    (sendCall tr n c channel call p).refs r i
      = p.refs r i + if call.opens = some r ∧ i = r.number n channel then 1
          else 0 := by
  cases call <;> cases r <;>
    simp [sendCall, SendCall.opens, Packets.opened, Packets.setChan,
      Function.update_apply] <;> split_ifs with hi <;> simp [hi]

end Calls

section Cleanup

variable (call : CleanupCall) (p : Packets)

/-! What a closing call does to it. -/

@[simp] theorem cleanupCall_send : (cleanupCall call p).send = p.send := by
  cases call <;> rfl

@[simp] theorem cleanupCall_hnd : (cleanupCall call p).hnd = p.hnd := by
  cases call <;> rfl

theorem cleanupCall_refs (r : Resource) (i : Nat) :
    (cleanupCall call p).refs r i
      = p.refs r i - if call.closes = some r ∧ i = p.hnd r then 1 else 0 := by
  cases call <;> cases r <;>
    simp [cleanupCall, CleanupCall.closes, Packets.closed, Packets.setChan,
      Function.update_apply] <;> split_ifs with hi <;> simp [hi]

end Cleanup

theorem Names.congr {r : Resource} (h : Names tr n x p r)
    (hx : x'.round = x.round) (hp : p'.hnd r = p.hnd r) :
    Names tr n x' p' r := by
  unfold Names at h ⊢
  rw [hx, hp]
  exact h

/-- What a call names, it names whatever it is. -/
theorem Names.sendCall {r : Resource} {call : SendCall}
    (h : Names tr n x p r) :
    Names tr n x (sendCall tr n c x.round call p) r := by
  unfold Names at h ⊢
  rw [sendCall_hnd]
  split_ifs
  · exact ⟨h.1, rfl⟩
  · exact h

/-- Between its packet calls `main` neither enters nor leaves the second
half of a round, and stays in the round. -/
theorem MainStep.inRound_of_plain (h : MainStep cfg SYSINIT ok x sh x' sh')
    (hpc : x.main.packets = false) :
    x'.main ≠ .cleanup ∧ x'.main.inRound = x.main.inRound
      ∧ (x.main.inRound = true → x'.round = x.round) := by
  cases h with
  | cfgPass h0 | cfgPopNull h0 | cfgPush h0 =>
      rw [h0]
      unfold roundHead
      split_ifs
      · exact ⟨by simp, rfl, fun h => absurd h Bool.false_ne_true⟩
      · exact absurd rfl ‹¬ SYSINIT = SYSINIT›
      all_goals exact ⟨by simp, rfl, fun h => absurd h Bool.false_ne_true⟩
  | cfgPoll h0 | poll h0 =>
      rw [h0]
      exact ⟨by simp, rfl, fun _ => rfl⟩
  | popNull h0 | recycle h0 =>
      simp only [afterSync, h0]
      exact ⟨by simp, rfl, fun _ => rfl⟩
  | signal h0 | pop h0 =>
      rw [h0]
      exact ⟨by simp, rfl, fun _ => rfl⟩
  | hooked h0 | runDone h0 =>
      rw [if_pos rfl, h0]
      exact ⟨by simp, rfl, fun h => absurd h Bool.false_ne_true⟩
  | send h0 | divert h0 | cleanup h0 | sendFailed h0 =>
      rw [h0] at hpc
      cases hpc
  | hookFailed h0 | cfgPop h0 | runInv h0 | runWait h0 | exitCall h0
  | exitDone h0 =>
      rw [h0]
      exact ⟨by simp, rfl, fun h => absurd h Bool.false_ne_true⟩

theorem sendInv_init (cfg : Config) (tr : Traffic) :
    SendInv tr cfg.numCores (init cfg).core0 (initPackets tr) where
  idle := fun _ => rfl
  closing := ⟨List.suffix_refl _, fun _ => rfl⟩
  setup := by
    intro todo htodo
    cases htodo
    exact ⟨[], rfl, fun _ h => nomatch h⟩
  loop := by
    have hmain : (init cfg).core0.main.inRound = false := by
      simp only [State.core0, init, initCore]
      split_ifs <;> rfl
    rintro (h | h)
    · exact absurd h Bool.false_ne_true
    · rw [hmain] at h
      cases h

/-- `SendInv` reads the control point, the round and the handles. -/
theorem SendInv.congr (hs : SendInv tr n x p) (hmain : SameMain x x')
    (hp : SendSame p p') : SendInv tr n x' p' := by
  have hround : x'.round = x.round := by
    unfold CoreState.round
    rw [hmain.2.1, hmain.2.2.1]
  have hnames : ∀ {r}, Names tr n x p r → Names tr n x' p' r :=
    fun h => h.congr hround (by rw [hp.hnd])
  refine ⟨?_, ?_, ?_, ?_⟩
  · rw [hmain.1, hp.send]
    exact hs.idle
  · rw [hmain.1, hp.cleanup]
    exact hs.closing
  · rw [hp.send]
    intro todo htodo
    obtain ⟨calls, heq, hcalls⟩ := hs.setup todo htodo
    exact ⟨calls, heq, fun call hc r hr => hnames (hcalls call hc r hr)⟩
  · rw [hp.send, hmain.1]
    exact fun h r => hnames (hs.loop h r)

/-- A call inside `send_data` or `cleanup`. -/
theorem SendInv.call (hs : SendInv tr n x p)
    (h : MainCall tr n c ok x p p' none) : SendInv tr n x p' := by
  cases h with
  | send hpc h =>
      have hround : x.main.inRound = false := by rw [hpc]; rfl
      have hidle : x.main ≠ .send → p'.send = .setup sendSetup :=
        fun hne => absurd hpc hne
      have hmain : x.main ≠ .cleanup := by rw [hpc]; simp
      cases h with
      | @call call todo hsend hok hch =>
          obtain ⟨calls, heq, hcalls⟩ := hs.setup _ hsend
          refine ⟨hidle, ?_, ?_, ?_⟩
          · simpa using hs.closing
          · intro todo' htodo'
            cases htodo'
            refine ⟨calls ++ [call], by simp [heq], ?_⟩
            intro call' hc r hr
            rcases List.mem_append.mp hc with hc | hc
            · exact (hcalls call' hc r hr).sendCall
            · rw [List.mem_singleton.mp hc] at hr
              refine ⟨hch, ?_⟩
              show (sendCall tr n _ x.round call p).hnd r = _
              rw [sendCall_hnd, if_pos hr]
          · rintro (hloop | hin)
            · exact absurd hloop Bool.false_ne_true
            · rw [hround] at hin
              cases hin
      | data hsend =>
          obtain ⟨calls, heq, hcalls⟩ := hs.setup _ hsend
          refine ⟨hidle, hs.closing, fun _ h => (nomatch h), fun _ r => ?_⟩
          obtain ⟨call, hc, hr⟩ := exists_opens r
          rw [heq, List.append_nil] at hc
          exact hcalls call hc r hr
      | pop hsend | fill hsend | push hsend =>
          have hloop := hs.loop (.inl (by rw [hsend]; rfl))
          exact ⟨hidle, hs.closing, fun _ h => (nomatch h),
            fun _ r => (hloop r).congr rfl rfl⟩
  | @close call todo hpc htodo =>
      have hnames := hs.loop (.inr (by rw [hpc]; rfl))
      have hsend : p.send = .setup sendSetup := hs.idle (by rw [hpc]; simp)
      have hsame : (if ok then cleanupCall call p else p).send = p.send
          ∧ (if ok then cleanupCall call p else p).hnd = p.hnd := by
        split_ifs <;> simp
      refine ⟨fun _ => ?_, ⟨?_, fun hne => absurd hpc hne⟩, ?_, ?_⟩
      · rw [← hsend, ← hsame.1]
      · have hsuffix := hs.closing.1
        rw [htodo] at hsuffix
        exact (List.suffix_cons _ _).trans hsuffix
      · intro todo' htodo'
        have htodo' : (if ok then cleanupCall call p else p).send
            = .setup todo' := htodo'
        rw [hsame.1, hsend] at htodo'
        cases htodo'
        exact ⟨[], rfl, fun _ h => nomatch h⟩
      · exact fun _ r => (hnames r).congr rfl (congrFun hsame.2 r)

/-- The packet state before `send_data` is entered. -/
theorem SendInv.outside (hsend : p.send = .setup sendSetup)
    (hclean : p.cleanup = cleanupCalls)
    (hnames : x.main.inRound = true → ∀ r, Names tr n x p r) :
    SendInv tr n x p where
  idle := fun _ => hsend
  closing := by rw [hclean]; exact ⟨List.suffix_refl _, fun _ => rfl⟩
  setup := by
    intro todo htodo
    rw [hsend] at htodo
    cases htodo
    exact ⟨[], rfl, fun _ h => nomatch h⟩
  loop := by
    rintro (h | h)
    · rw [hsend] at h
      cases h
    · exact hnames h

/-- The next round of core 0 is not in its second half. -/
theorem roundHead_core0_inRound (x : CoreState) :
    (roundHead cfg SYSINIT x).main.inRound = false := by
  unfold roundHead
  rw [if_pos rfl]
  split_ifs <;> rfl

/-- A call that completes a step of the protocol. -/
theorem SendInv.done {res : Bool} (hs : SendInv tr cfg.numCores x p)
    (h : MainCall tr cfg.numCores c ok x p p' (some res))
    (hm : MainStep cfg SYSINIT res x sh x' sh') :
    SendInv tr cfg.numCores x' p' := by
  cases h with
  | send hpc h =>
      obtain ⟨rfl, -⟩ := hm.of_send hpc
      have hclean : p.cleanup = cleanupCalls :=
        hs.closing.2 (by rw [hpc]; simp)
      cases h with
      | failed | popNull =>
          exact .outside rfl hclean fun h => absurd h Bool.false_ne_true
      | last hsend hi =>
          have hloop := hs.loop (.inl (by rw [hsend]; rfl))
          exact .outside rfl hclean fun _ r => (hloop r).congr rfl rfl
  | divert hpc =>
      obtain ⟨rfl, -⟩ := hm.of_divert hpc
      have hsend : p.send = .setup sendSetup := hs.idle (by rw [hpc]; simp)
      have hclean : p.cleanup = cleanupCalls :=
        hs.closing.2 (by rw [hpc]; simp)
      have hround := hs.loop (.inr (by rw [hpc]; rfl))
      exact .outside hsend hclean fun _ r => (hround r).congr rfl rfl
  | closed hpc =>
      obtain ⟨rfl, -⟩ := hm.of_cleanup hpc
      have hsend : p.send = .setup sendSetup := hs.idle (by rw [hpc]; simp)
      refine .outside hsend rfl fun h => ?_
      rw [roundHead_core0_inRound] at h
      cases h
  | plain hpc =>
      have hsend : p.send = .setup sendSetup :=
        hs.idle fun h => by rw [h] at hpc; cases hpc
      have hclean : p.cleanup = cleanupCalls :=
        hs.closing.2 fun h => by rw [h] at hpc; cases hpc
      obtain ⟨-, hin, hround⟩ := hm.inRound_of_plain hpc
      refine .outside hsend hclean fun h r => ?_
      rw [hin] at h
      exact (hs.loop (.inr h) r).congr (hround h) rfl

/-- The handles are right in every reachable state. -/
theorem sendInv_reachable
    {guard : Wire cfg → WireAction cfg.numCores tr.numChannels → Prop}
    {w : Wire cfg} (h : WireReachable cfg tr guard w) :
    SendInv tr cfg.numCores w.base.core0 w.pk := by
  refine h.invariant'
    (I := fun w => SendInv tr cfg.numCores w.base.core0 w.pk)
    (sendInv_init cfg tr) ?_
  intro w a w' hr hs _ hstep
  have hrole := roleOk_reachable (wire_base hr)
  cases (wireStep_cases hstep).core0 hrole with
  | call _ hcall hbase =>
      rw [hbase]
      exact hs.call hcall
  | done _ hcall hm => exact hs.done hcall hm
  | other hsame hother => exact hs.congr hsame hother.sendSame

-- =========================================================== the counts

/-- `send_data` has opened the resource when it stands here. -/
def SendPc.opened : SendPc → Resource → Bool
  | .setup todo, r => todo.all fun call => call.opens != some r
  | _, _ => true

/-- The resource is open, as far as core 0 has come in its round. -/
def held (x : CoreState) (p : Packets) (r : Resource) : Bool :=
  match x.main with
  | .send => p.send.opened r
  | .cleanup => p.cleanup.any fun call => call.closes == some r
  | .syncWait | .syncPop | .syncRecycle _ | .divert => true
  | _ => false

/-- The round's resources among `open_` are open once, all others not. -/
def RefsAre (n : Nat) (x : CoreState) (p : Packets)
    (open_ : Resource → Bool) : Prop :=
  ∀ r i, p.refs r i
    = if open_ r = true ∧ i = r.number n x.round then 1 else 0

/-- Nothing is open but what the round holds. -/
def Balanced (n : Nat) (x : CoreState) (p : Packets) : Prop :=
  x.main ≠ .returned → RefsAre n x p (held x p)

/-- Every closing call succeeds. -/
def CleanupOk (w : Wire cfg) :
    WireAction cfg.numCores tr.numChannels → Prop
  | .main c ok => (w.base.core c).main = .cleanup → ok = true
  | _ => True

instance (w : Wire cfg) : (a : WireAction cfg.numCores tr.numChannels) →
    Decidable (CleanupOk w a)
  | .main _ _ => inferInstanceAs (Decidable (_ → _))
  | .irq _ _ | .isr _ _ | .txDma _ | .rxDma _ | .acc _ => isTrue trivial

theorem RefsAre.congr {f g : Resource → Bool} (h : RefsAre n x p f)
    (hx : x'.round = x.round) (hp : p'.refs = p.refs)
    (hfg : ∀ r, g r = f r) : RefsAre n x' p' g := by
  intro r i
  rw [hp, hx, hfg]
  exact h r i

/-- With nothing open, the round does not matter. -/
theorem RefsAre.none {f g : Resource → Bool} (h : RefsAre n x p f)
    (hp : p'.refs = p.refs) (hf : ∀ r, f r = false) (hg : ∀ r, g r = false) :
    RefsAre n x' p' g := by
  intro r i
  rw [hp, h r i, hf, hg]
  simp only [Bool.false_eq_true, false_and]

/-- Where the values of `f` along a list do not repeat, the first one does
not come again. -/
theorem head_once {α β : Type _} {f : α → Option β} {l : List α}
    (hnodup : (l.filterMap f).Nodup) {a : α} {t : List α}
    (hsuffix : a :: t <:+ l) {b : β} (ha : f a = some b) :
    ∀ a' ∈ t, f a' ≠ some b := by
  intro a' ha' hb
  obtain ⟨s, rfl⟩ := hsuffix
  rw [List.filterMap_append, List.filterMap_cons_some ha] at hnodup
  have hcons := (List.nodup_append.mp hnodup).2.1
  exact (List.nodup_cons.mp hcons).1 (List.mem_filterMap.mpr ⟨a', ha', hb⟩)

/-- A call of `send_data` opens its resource. -/
theorem RefsAre.opens {call : SendCall} {todo : List SendCall}
    (h : RefsAre n x p (SendPc.setup (call :: todo)).opened)
    (hsuffix : call :: todo <:+ sendSetup) :
    RefsAre n x (sendCall tr n c x.round call p)
      (SendPc.setup todo).opened := by
  intro r i
  rw [sendCall_refs, h r i]
  by_cases hr : call.opens = some r
  · have honce : ∀ call' ∈ todo, call'.opens ≠ some r :=
      head_once (by decide) hsuffix hr
    simp only [SendPc.opened, List.all_cons, hr, bne_self_eq_false,
      Bool.false_and, Bool.false_eq_true, false_and, if_false, true_and,
      Nat.zero_add, List.all_eq_true, bne_iff_ne]
    by_cases hi : i = r.number n x.round
    · rw [if_pos hi, if_pos ⟨honce, hi⟩]
    · rw [if_neg hi, if_neg fun hcond => hi hcond.2]
  · have hne : (call.opens != some r) = true := bne_iff_ne.mpr hr
    simp [SendPc.opened, hne, hr]

/-- A call of `cleanup` closes its resource. -/
theorem RefsAre.closes {call : CleanupCall} {todo : List CleanupCall}
    (h : RefsAre n x p fun r =>
      (call :: todo).any fun call => call.closes == some r)
    (hnames : ∀ r, p.hnd r = r.number n x.round)
    (hsuffix : call :: todo <:+ cleanupCalls) :
    RefsAre n x (cleanupCall call p)
      fun r => todo.any fun call => call.closes == some r := by
  intro r i
  rw [cleanupCall_refs, h r i, hnames]
  by_cases hr : call.closes = some r
  · have honce : ∀ call' ∈ todo, call'.closes ≠ some r :=
      head_once (by decide) hsuffix hr
    have hnone : (todo.any fun call => call.closes == some r) = false := by
      simpa using honce
    simp [hr, hnone]
  · simp [hr]

theorem balanced_init (cfg : Config) (tr : Traffic) :
    Balanced cfg.numCores (init cfg).core0 (initPackets tr) := by
  have hnone : ∀ r, held (init cfg).core0 (initPackets tr) r = false := by
    intro r
    simp only [held, init, initCore, State.core0]
    split_ifs <;> rfl
  intro _ r i
  rw [hnone]
  rfl

theorem held_inRound (hin : x.main.inRound = true) (hne : x.main ≠ .cleanup)
    (r : Resource) : held x p r = true := by
  unfold held
  cases hpc : x.main <;> simp_all [MainPc.inRound]

/-- Outside a round nothing is held. -/
theorem held_outside (hin : x.main.inRound = false)
    (hsend : p.send = .setup sendSetup) (r : Resource) :
    held x p r = false := by
  have hclosed : (SendPc.setup sendSetup).opened r = false := by
    cases r <;> rfl
  unfold held
  cases hpc : x.main <;> simp_all [MainPc.inRound]

/-- A finished `main` makes no call. -/
theorem MainCall.not_returned (h : MainCall tr n c ok x p p' none) :
    x.main ≠ .returned := by
  cases h with
  | send hpc | close hpc => rw [hpc]; simp

/-- A call inside `send_data` or `cleanup` keeps the counts. -/
theorem Balanced.call (hs : Balanced n x p) (hsend : SendInv tr n x p)
    (hok : x.main = .cleanup → ok = true)
    (h : MainCall tr n c ok x p p' none) : Balanced n x p' := by
  have hrefs := hs h.not_returned
  intro _
  cases h with
  | send hpc h =>
      have hheld : ∀ (q : Packets) (r), held x q r = q.send.opened r := by
        intro q r
        simp only [held, hpc]
      replace hrefs := hrefs.congr rfl rfl fun r => (hheld _ r).symm
      cases h with
      | call hpc' _ _ =>
          obtain ⟨calls, heq, -⟩ := hsend.setup _ hpc'
          rw [hpc'] at hrefs
          exact (hrefs.opens ⟨calls, heq.symm⟩).congr rfl rfl (hheld _)
      | data hpc' | pop hpc' | fill hpc' | push hpc' =>
          rw [hpc'] at hrefs
          refine hrefs.congr rfl rfl fun r => ?_
          rw [hheld]
          rfl
  | close hpc htodo =>
      have hheld : ∀ (q : Packets) (r), held x q r
          = q.cleanup.any fun call => call.closes == some r := by
        intro q r
        simp only [held, hpc]
      have hnames := hsend.loop (.inr (by rw [hpc]; rfl))
      have hsuffix := hsend.closing.1
      rw [htodo] at hsuffix
      replace hrefs := hrefs.congr rfl rfl fun r => (hheld _ r).symm
      simp only [htodo] at hrefs
      rw [if_pos (hok hpc)]
      exact (hrefs.closes (fun r => (hnames r).2) hsuffix).congr rfl rfl
        (hheld _)

/-- A finished `main` has no step. -/
theorem MainStep.not_returned (h : MainStep cfg c ok x sh x' sh') :
    x.main ≠ .returned := by
  intro hpc
  cases h <;> simp_all

/-- A call that completes a step of the protocol keeps the counts. -/
theorem Balanced.done {res : Bool} (hs : Balanced cfg.numCores x p)
    (hsend : SendInv tr cfg.numCores x p)
    (h : MainCall tr cfg.numCores c ok x p p' (some res))
    (hm : MainStep cfg SYSINIT res x sh x' sh') :
    Balanced cfg.numCores x' p' := by
  have hrefs := hs hm.not_returned
  cases h with
  | send hpc h =>
      obtain ⟨rfl, -⟩ := hm.of_send hpc
      cases h with
      | failed | popNull => exact fun hne => absurd rfl hne
      | last hpc' hi =>
          refine fun _ => hrefs.congr rfl rfl fun r => ?_
          simp only [held, hpc, hpc']
          rfl
  | divert hpc =>
      obtain ⟨rfl, -⟩ := hm.of_divert hpc
      refine fun _ => hrefs.congr rfl rfl fun r => ?_
      have hclean : p.cleanup = cleanupCalls :=
        hsend.closing.2 (by rw [hpc]; simp)
      simp only [held, hpc, hclean]
      cases r <;> rfl
  | closed hpc htodo =>
      obtain ⟨rfl, -⟩ := hm.of_cleanup hpc
      have hidle : p.send = .setup sendSetup := hsend.idle (by rw [hpc]; simp)
      have hnone : ∀ r, held x p r = false := by
        intro r
        simp only [held, hpc, htodo]
        rfl
      have hnext : ∀ r, held (endRound cfg SYSINIT x)
          { p with cleanup := cleanupCalls } r = false :=
        held_outside (roundHead_core0_inRound _) hidle
      exact fun _ => hrefs.none rfl hnone hnext
  | plain hpc =>
      have hidle : p.send = .setup sendSetup :=
        hsend.idle fun h => by rw [h] at hpc; cases hpc
      obtain ⟨hclean, hin, hround⟩ := hm.inRound_of_plain hpc
      cases hhere : x.main.inRound with
      | true =>
          have hnow := held_inRound (p := p) hhere
            fun h => by rw [h] at hpc; cases hpc
          have hnext := held_inRound (p := p) (hin.trans hhere) hclean
          refine fun _ => hrefs.congr (hround hhere) rfl fun r => ?_
          rw [hnow, hnext]
      | false =>
          have hnow := held_outside (p := p) hhere hidle
          have hnext := held_outside (p := p) (hin.trans hhere) hidle
          exact fun _ => hrefs.none rfl hnow hnext

theorem balanced_reachable {w : Wire cfg}
    (h : WireReachable cfg tr CleanupOk w) :
    Balanced cfg.numCores w.base.core0 w.pk := by
  refine h.invariant'
    (I := fun w => Balanced cfg.numCores w.base.core0 w.pk)
    (balanced_init cfg tr) ?_
  intro w a w' hr hs hok hstep
  have hrole := roleOk_reachable (wire_base hr)
  have hsend := sendInv_reachable hr
  cases (wireStep_cases hstep).core0 hrole with
  | call ha hcall hbase =>
      rw [hbase]
      subst ha
      exact hs.call hsend hok hcall
  | done _ hcall hm => exact hs.done hsend hcall hm
  | other hsame hother =>
      have hpk := hother.sendSame
      have hround : w'.base.core0.round = w.base.core0.round := by
        unfold CoreState.round
        rw [hsame.2.1, hsame.2.2.1]
      have hheld : ∀ r, held w'.base.core0 w'.pk r
          = held w.base.core0 w.pk r := by
        intro r
        simp only [held, hsame.1, hpk.send, hpk.cleanup]
      intro hne
      rw [hsame.1] at hne
      exact (hs hne).congr hround hpk.refs hheld

/-- After the rounds nothing is open. -/
theorem Balanced.closed (hs : Balanced n x p)
    (hleft : x.main.leftRounds = true) : ∀ r i, p.refs r i = 0 := by
  intro r i
  have hne : x.main ≠ .returned := by
    intro h
    rw [h] at hleft
    cases hleft
  have hheld : held x p r = false := by
    revert hleft
    unfold held
    cases x.main <;> simp [MainPc.leftRounds]
  rw [hs hne r i, hheld]
  simp only [Bool.false_eq_true, false_and, if_false]

-- ============================================================ the leak

/-- The call with which `main` returns opens and closes nothing. -/
theorem MainCall.refs_of_returned {res : Bool}
    (h : MainCall tr n c ok x p p' (some res))
    (hm : MainStep cfg SYSINIT res x sh x' sh')
    (hret : x'.main = .returned) : p'.refs = p.refs := by
  cases h with
  | send hpc h =>
      obtain ⟨rfl, -⟩ := hm.of_send hpc
      cases h with
      | failed | popNull => rfl
      | last => cases hret
  | divert | closed | plain => rfl

/-- A step with which core 0's `main` returns, or after it has, leaves the
counts alone. -/
theorem Core0Step.refs_of_returned {w w' : Wire cfg}
    {a : WireAction cfg.numCores tr.numChannels}
    (h : Core0Step tr w a w') (hret : w'.base.core0.main = .returned) :
    w'.pk.refs = w.pk.refs := by
  cases h with
  | call _ hcall hbase =>
      rw [hbase] at hret
      exact absurd hret hcall.not_returned
  | done _ hcall hm => exact hcall.refs_of_returned hm hret
  | other _ hother => exact hother.sendSame.refs

/-- A `main` that has returned stays where it is. -/
theorem Core0Step.returned {w w' : Wire cfg}
    {a : WireAction cfg.numCores tr.numChannels}
    (h : Core0Step tr w a w') (hret : w.base.core0.main = .returned) :
    w'.base.core0.main = .returned := by
  cases h with
  | call _ _ hbase => rw [hbase, hret]
  | done _ _ hm => exact absurd hret hm.not_returned
  | other hsame => exact hsame.1.trans hret

/-- Once core 0's `main` has returned the counts stay for ever. -/
theorem refs_after_return {w w' : Wire cfg}
    {guard : Wire cfg → WireAction cfg.numCores tr.numChannels → Prop}
    (h : WireReachable cfg tr guard w)
    (hret : w.base.core0.main = .returned)
    (hrun : Reach (wireStep tr) guard w w') : w'.pk.refs = w.pk.refs := by
  suffices hstay : w'.base.core0.main = .returned
      ∧ w'.pk.refs = w.pk.refs from hstay.2
  refine hrun.invariant' (I := fun v => v.base.core0.main = .returned
    ∧ v.pk.refs = w.pk.refs) ⟨hret, rfl⟩ ?_
  intro v a v' hr ⟨hv, hrefs⟩ _ hstep
  have hcore := (wireStep_cases hstep).core0
    (roleOk_reachable (wire_base (h.trans hr)))
  have hv' := hcore.returned hv
  exact ⟨hv', (hcore.refs_of_returned hv').trans hrefs⟩

/-- What is open in a wire and, when core 0's `main` returns, from then
on: what it holds. In `send_data` that is what the calls before the one
that fails have opened. -/
structure ResourcesBalanced (tr : Traffic) (w : Wire cfg) : Prop where
  rounds : w.base.core0.main ≠ .returned →
    RefsAre cfg.numCores w.base.core0 w.pk (held w.base.core0 w.pk)
  leaked : ∀ (a : WireAction cfg.numCores tr.numChannels) w',
    CleanupOk w a → wireStep tr a w = some w' →
    w.base.core0.main ≠ .returned → w'.base.core0.main = .returned →
    ∀ w'', Reach (wireStep tr) CleanupOk w' w'' →
      RefsAre cfg.numCores w.base.core0 w''.pk (held w.base.core0 w.pk)
  closed : w.base.core0.main.leftRounds = true → ∀ r i, w.pk.refs r i = 0

/-- In every run whose closing calls succeed, under any schedule and any
other driver result, for any number of passes: a round's resources are
open exactly while it holds them, a failed `send_data` leaks exactly what
it had opened, and after the rounds nothing is open. -/
theorem resources_balanced {w : Wire cfg}
    (h : WireReachable cfg tr CleanupOk w) : ResourcesBalanced tr w := by
  have hs := balanced_reachable h
  refine ⟨hs, fun a w' hok hstep hne hret w'' hrun => ?_, hs.closed⟩
  have hcore := (wireStep_cases hstep).core0 (roleOk_reachable (wire_base h))
  have hafter := refs_after_return (.step a h hok hstep) hret hrun
  exact (hs hne).congr rfl (hafter.trans (hcore.refs_of_returned hret))
    fun _ => rfl

/-- On the board, `Cppi_configureRxFlow` fails in round 0: its channels and
queues are open, its flow is not, and so they stay. -/
theorem resources_balanced_board :
    ∃ w w' : Wire board, WireReachable board boardTraffic CleanupOk w
      ∧ w.pk.send = .setup
        [.configureRxFlow, .txChannelEnable, .rxChannelEnable]
      ∧ wireStep boardTraffic (.main board.core0 false) w = some w'
      ∧ w'.base.core0.main = .returned
      ∧ ResourcesBalanced boardTraffic w
      ∧ ∀ w'', Reach (wireStep boardTraffic) CleanupOk w' w'' →
        w''.pk.refs .rxQue 0 = 1 ∧ w''.pk.refs .flow 0 = 0 := by
  obtain ⟨w, hw, hsend, hmain, hround, hnext⟩ : ∃ w,
      WireReachable board boardTraffic CleanupOk w
        ∧ w.pk.send = .setup
          [.configureRxFlow, .txChannelEnable, .rxChannelEnable]
        ∧ w.base.core0.main = .send ∧ w.base.core0.round = 0
        ∧ (wireStep boardTraffic (.main board.core0 false) w).map
          (fun w' => w'.base.core0.main) = some .returned :=
    exists_reach_of_runOk (wireBoot ++ wireMain 0 6) (by decide +kernel)
  obtain ⟨w', hstep, hret⟩ := Option.map_eq_some_iff.mp hnext
  have hs := resources_balanced hw
  refine ⟨w, w', hw, hsend, hstep, hret, hs, fun w'' hrun => ?_⟩
  have hclean : (w.base.core board.core0).main = .cleanup →
      false = true := by
    rw [show (w.base.core board.core0).main = .send from hmain]
    intro h
    cases h
  have hrefs := hs.leaked (.main board.core0 false) w' hclean hstep
    (by rw [hmain]; simp) hret w'' hrun
  refine ⟨?_, ?_⟩
  · rw [hrefs, hround]
    simp [held, hmain, hsend, SendPc.opened, SendCall.opens, Resource.number]
  · rw [hrefs]
    simp [held, hmain, hsend, SendPc.opened, SendCall.opens]

end DspCodes.Infra
