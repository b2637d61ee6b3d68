/-
What a step of the wire can do, said once, and what follows for the
protocol: the outcomes of each call and of each move of the hardware
(`SendStep`, `MainCall`, `IsrCall`, `Hardware`), and `wireStep_cases`,
which puts the step of the protocol beside them.

`wire_refines`: under a guard that does not look at driver results, the
protocol side of every wire is a reachable state of the protocol. The
laws of the protocol are used through it.
-/
import DspCodes.Infra.Packets

namespace DspCodes.Infra

open Lts

variable {cfg : Config} {tr : Traffic} {n c channel core : Nat} {ok : Bool}
  {x : CoreState} {p p' : Packets} {r : Option Bool}

-- ================================================= outcomes of a core

/-- The outcomes of one call of `send_data (channel, core)` on core `c`. -/
inductive SendStep (tr : Traffic) (n c channel core : Nat) (ok : Bool)
    (p : Packets) : Packets → Option Bool → Prop
  | call {call : SendCall} {todo : List SendCall}
      (hpc : p.send = .setup (call :: todo)) (hok : ok = true)
      (hch : channel < tr.numChannels) :
      SendStep tr n c channel core ok p
        { (sendCall tr n c channel call p) with send := .setup todo } none
  | failed {call : SendCall} {todo : List SendCall}
      (hpc : p.send = .setup (call :: todo))
      (hbad : ¬ (ok = true ∧ channel < tr.numChannels)) :
      SendStep tr n c channel core ok p p.sendReturns (some false)
  | data (hpc : p.send = .setup []) :
      SendStep tr n c channel core ok p { p with send := .pop 0 } none
  | pop {i d : Nat} {rest : List Nat} (hpc : p.send = .pop i)
      (hfree : p.txFree = d :: rest) :
      SendStep tr n c channel core ok p
        { p with txFree := rest, send := .fill i d } none
  | popNull {i : Nat} (hpc : p.send = .pop i) (hfree : p.txFree = []) :
      SendStep tr n c channel core ok p p.sendReturns (some false)
  | fill {i d : Nat} (hpc : p.send = .fill i d) :
      SendStep tr n c channel core ok p
        { p with srcTagLo := Function.update p.srcTagLo d core,
                 send := .push i d } none
  | push {i d : Nat} (hpc : p.send = .push i d)
      (hi : i + 1 < tr.numPackets) :
      SendStep tr n c channel core ok p
        { (p.pushTx d) with send := .pop (i + 1) } none
  | last {i d : Nat} (hpc : p.send = .push i d)
      (hi : ¬ i + 1 < tr.numPackets) :
      SendStep tr n c channel core ok p (p.pushTx d).sendReturns (some true)

theorem sendMicro_cases (tr : Traffic) (n c channel core : Nat) (ok : Bool)
    (p : Packets) :
    SendStep tr n c channel core ok p
      (sendMicro tr n c channel core ok p).1
      (sendMicro tr n c channel core ok p).2 := by
  unfold sendMicro
  split
  next hpc =>
    split
    next h => exact .call hpc h.1 h.2
    next hbad => exact .failed hpc hbad
  next hpc => exact .data hpc
  next hpc =>
    split
    next hfree => exact .pop hpc hfree
    next hfree => exact .popNull hpc hfree
  next hpc => exact .fill hpc
  next hpc =>
    split
    next hi => exact .push hpc hi
    next hi => exact .last hpc hi

/-- `main` stands at a call of its own that moves packets. -/
def MainPc.packets : MainPc → Bool
  | .send | .divert | .cleanup => true
  | _ => false

/-- The outcomes of one call of `main` on core `c`. -/
inductive MainCall (tr : Traffic) (n c : Nat) (ok : Bool) (x : CoreState)
    (p : Packets) : Packets → Option Bool → Prop
  | send {p' : Packets} {r : Option Bool} (hpc : x.main = .send)
      (h : SendStep tr n c (x.channel + x.index) x.index ok p p' r) :
      MainCall tr n c ok x p p' r
  | divert (hpc : x.main = .divert) :
      MainCall tr n c ok x p
        { p with txFree := p.txFree ++ p.txCmpl, txCmpl := [] } (some ok)
  | close {call : CleanupCall} {todo : List CleanupCall}
      (hpc : x.main = .cleanup) (htodo : p.cleanup = call :: todo) :
      MainCall tr n c ok x p
        { (if ok then cleanupCall call p else p) with cleanup := todo } none
  | closed (hpc : x.main = .cleanup) (htodo : p.cleanup = []) :
      MainCall tr n c ok x p { p with cleanup := cleanupCalls } (some ok)
  | plain (hpc : x.main.packets = false) :
      MainCall tr n c ok x p p (some ok)

theorem mainMicro_cases (tr : Traffic) (n c : Nat) (ok : Bool)
    (x : CoreState) (p : Packets) :
    MainCall tr n c ok x p (mainMicro tr n c ok x p).1
      (mainMicro tr n c ok x p).2 := by
  unfold mainMicro
  split
  next hpc => exact .send hpc (sendMicro_cases ..)
  next hpc => exact .divert hpc
  next hpc =>
    unfold cleanupMicro
    split
    next htodo => exact .close hpc htodo
    next htodo => exact .closed hpc htodo
  next hsend hdivert hclean =>
    refine .plain ?_
    unfold MainPc.packets
    split <;> first | rfl | contradiction

/-- The outcomes of one call of the handler on core `c`. -/
inductive IsrCall (tr : Traffic) (c : Nat) (ok : Bool) (x : CoreState)
    (p : Packets) : Packets → Option Bool → Prop
  | count {ch : Nat} (hpc : x.isr = .recycleRx ch)
      (hnone : p.recycle c = none) :
      IsrCall tr c ok x p
        { p with
          recycle := Function.update p.recycle c
            (some (p.page (tr.isrBuf c) 0, 0)) } none
  | recycle {ch count index : Nat} (hpc : x.isr = .recycleRx ch)
      (hloop : p.recycle c = some (count, index)) (hlt : index < count) :
      IsrCall tr c ok x p
        { p with
          rxFree := p.rxFree ++ [p.page (tr.isrBuf c) (index + 1)]
          recycle := Function.update p.recycle c
            (some (count, index + 1)) } none
  | recycled {ch count index : Nat} (hpc : x.isr = .recycleRx ch)
      (hloop : p.recycle c = some (count, index)) (hge : count ≤ index) :
      IsrCall tr c ok x p
        { p with recycle := Function.update p.recycle c none } (some ok)
  | disable {ch : Nat} (hpc : x.isr = .disableAcc ch) (hok : ok = true) :
      IsrCall tr c ok x p
        (p.setChan ch { p.chan ch with
          acc := { (p.chan ch).acc with enabled := false } }) (some ok)
  | plain (hpc : ∀ ch, x.isr ≠ .recycleRx ch) :
      IsrCall tr c ok x p p (some ok)

theorem isrMicro_cases (tr : Traffic) (c : Nat) (ok : Bool) (x : CoreState)
    (p : Packets) :
    IsrCall tr c ok x p (isrMicro tr c ok x p).1 (isrMicro tr c ok x p).2 := by
  unfold isrMicro
  split
  next hpc =>
    split
    next hnone => exact .count hpc hnone
    next hloop =>
      split
      next hlt => exact .recycle hpc hloop hlt
      next hge => exact .recycled hpc hloop (Nat.le_of_not_lt hge)
  next hpc =>
    by_cases hok : ok = true
    · simp only [hok, if_true]
      exact .disable hpc rfl
    · simp only [hok]
      refine .plain fun ch h => ?_
      rw [hpc] at h
      cases h
  next hrecycle _ => exact .plain hrecycle

-- ============================================ outcomes of the hardware

/-- A step of the accumulator of channel `ch`: one descriptor onto its
page, and the interrupt when the page is full. -/
def Packets.accumulated (p : Packets) (ch e : Nat) (rest : List Nat) :
    Packets :=
  (p.setChan ch { p.chan ch with
      rxQue := rest
      acc := { (p.chan ch).acc with taken := (p.chan ch).acc.taken + 1 }
      raised := (p.chan ch).raised
        || (p.chan ch).acc.taken + 2 = (p.chan ch).acc.maxPageEntries }).write
    (p.chan ch).acc.listAddress ((p.chan ch).acc.taken + 1) e

/-- One word of the page is written. -/
theorem Packets.accumulated_page {ch e : Nat} {rest : List Nat}
    {addr : BitVec 32} (haddr : (p.chan ch).acc.listAddress = addr)
    (i : Nat) :
    (p.accumulated ch e rest).page addr i
      = if i = (p.chan ch).acc.taken + 1 then e else p.page addr i := by
  simp only [Packets.accumulated, Packets.write, haddr,
    Function.update_self, Function.update_apply]
  rfl

/-- And the number of entries in front of it. -/
theorem Packets.write_page_pos {addr : BitVec 32} {i v : Nat} (hi : 0 < i) :
    (p.write addr 0 v).page addr i = p.page addr i := by
  simp only [Packets.write, Function.update_self,
    Function.update_of_ne (Nat.ne_of_gt hi)]

/-- The outcomes of one move of channel `ch` of the hardware. -/
inductive Hardware (ch : Nat) (p : Packets) : Packets → Prop
  | sent {d : Nat} {rest : List Nat} (hdma : (p.chan ch).txDma = none)
      (hque : (p.chan ch).txQue = d :: rest) (hon : (p.chan ch).txOn = true) :
      Hardware ch p (p.setChan ch { p.chan ch with
        txQue := rest, txDma := some d
        stream := (p.chan ch).stream ++ [p.srcTagLo d] })
  | returned {d : Nat} (hdma : (p.chan ch).txDma = some d) :
      Hardware ch p { (p.setChan ch { p.chan ch with txDma := none }) with
        txCmpl := p.txCmpl ++ [d] }
  | received {tag dest e : Nat} {rest free : List Nat}
      (hdma : (p.chan ch).rxDma = none)
      (hstream : (p.chan ch).stream = tag :: rest)
      (hflow : p.flow tag = some dest) (hfree : p.rxFree = e :: free)
      (hon : (p.chan ch).rxOn = true) :
      Hardware ch p { (p.setChan ch { p.chan ch with
          stream := rest, rxDma := some (e, dest) }) with
        rxFree := free }
  | delivered {e dest : Nat} (hdma : (p.chan ch).rxDma = some (e, dest)) :
      Hardware ch p
        ((p.setChan ch { p.chan ch with rxDma := none }).pushRx dest e)
  | accumulated {e : Nat} {rest : List Nat}
      (hque : (p.chan ch).rxQue = e :: rest)
      (hon : (p.chan ch).acc.enabled = true)
      (hroom : (p.chan ch).acc.taken + 2 < (p.chan ch).acc.maxPageEntries) :
      Hardware ch p (p.accumulated ch e rest)
  | filled {e : Nat} {rest : List Nat} (hque : (p.chan ch).rxQue = e :: rest)
      (hon : (p.chan ch).acc.enabled = true)
      (hfull : (p.chan ch).acc.taken + 2 = (p.chan ch).acc.maxPageEntries) :
      Hardware ch p ((p.accumulated ch e rest).write
        (p.chan ch).acc.listAddress 0 ((p.chan ch).acc.taken + 1))

theorem txDma_cases {ch : Nat} (h : txDma ch p = some p') :
    Hardware ch p p' := by
  unfold txDma at h
  split at h
  next hdma => cases h; exact .returned hdma
  next hdma hque =>
    split at h
    next hon => cases h; exact .sent hdma hque hon
    next => cases h
  next => cases h

theorem rxDma_cases {ch : Nat} (h : rxDma ch p = some p') :
    Hardware ch p p' := by
  unfold rxDma at h
  split at h
  next hdma => cases h; exact .delivered hdma
  next hdma hstream =>
    split at h
    next hflow hfree =>
      split at h
      next hon => cases h; exact .received hdma hstream hflow hfree hon
      next => cases h
    next => cases h
  next => cases h

theorem accumulate_cases {ch : Nat} (h : accumulate ch p = some p') :
    Hardware ch p p' := by
  unfold accumulate at h
  split at h
  next e rest hque =>
    simp only at h
    split at h
    next hcond =>
      cases h
      split
      next hfull => exact .filled hque hcond.1 hfull
      next hne => exact .accumulated hque hcond.1 (by omega)
    next => cases h
  next => cases h

-- ============================================== outcomes of the system

/-- The step of the protocol beside a call: none, or the one the call
completes. -/
def Commits (s : State cfg) (f : Bool → Action cfg.numCores)
    (r : Option Bool) (s' : State cfg) : Prop :=
  match r with
  | none => s' = s
  | some ok => apply (f ok) s = some s'

theorem Wire.commit_cases {w w' : Wire cfg}
    {f : Bool → Action cfg.numCores} {q : Packets × Option Bool}
    (h : w.commit f q = some w') : Commits w.base f q.2 w'.base ∧ w'.pk = q.1 := by
  obtain ⟨p, r⟩ := q
  cases r with
  | none => cases h; exact ⟨rfl, rfl⟩
  | some ok =>
      obtain ⟨s, hs, rfl⟩ := Option.map_eq_some_iff.mp h
      exact ⟨hs, rfl⟩

/-- The outcomes of one step of the wire. -/
inductive WireStep (tr : Traffic) (w : Wire cfg) :
    WireAction cfg.numCores tr.numChannels → Wire cfg → Prop
  | main {c : Fin cfg.numCores} {ok : Bool} {r : Option Bool}
      {s : State cfg} {p : Packets} (hidle : (w.base.core c).isr = .idle)
      (h : MainCall tr cfg.numCores c ok (w.base.core c) w.pk p r)
      (hs : Commits w.base (.main c) r s) :
      WireStep tr w (.main c ok) ⟨s, p⟩
  | irq {c : Fin cfg.numCores} {ch : Fin tr.numChannels} {s : State cfg}
      (hraised : (w.pk.chan ch).raised = true) (hcore : ch.val % 4 = c.val)
      (hs : apply (.irq c) w.base = some s) :
      WireStep tr w (.irq c ch)
        ⟨s, w.pk.setChan ch { w.pk.chan ch with raised := false }⟩
  | isr {c : Fin cfg.numCores} {ok : Bool} {r : Option Bool}
      {s : State cfg} {p : Packets}
      (h : IsrCall tr c ok (w.base.core c) w.pk p r)
      (hs : Commits w.base (.isr c) r s) :
      WireStep tr w (.isr c ok) ⟨s, p⟩
  | hardware {a : WireAction cfg.numCores tr.numChannels}
      {ch : Fin tr.numChannels} {p : Packets} (hlift : a.lift = none)
      (h : Hardware ch w.pk p) : WireStep tr w a ⟨w.base, p⟩

/-- `wireStep` has no other outcome. -/
theorem wireStep_cases {a : WireAction cfg.numCores tr.numChannels}
    {w w' : Wire cfg} (h : wireStep tr a w = some w') :
    WireStep tr w a w' := by
  cases a with
  | main c ok =>
      simp only [wireStep] at h
      split at h
      case isFalse => cases h
      case isTrue hidle =>
        obtain ⟨s, p⟩ := w'
        obtain ⟨hs, rfl⟩ := Wire.commit_cases h
        exact .main hidle (mainMicro_cases ..) hs
  | irq c ch =>
      simp only [wireStep] at h
      split at h
      case isFalse => cases h
      case isTrue hcond =>
        obtain ⟨s, hs, rfl⟩ := Option.map_eq_some_iff.mp h
        exact .irq hcond.1 hcond.2 hs
  | isr c ok =>
      obtain ⟨s, p⟩ := w'
      obtain ⟨hs, rfl⟩ := Wire.commit_cases h
      exact .isr (isrMicro_cases ..) hs
  | txDma ch =>
      obtain ⟨p, hp, rfl⟩ := Option.map_eq_some_iff.mp h
      exact .hardware rfl (txDma_cases hp)
  | rxDma ch =>
      obtain ⟨p, hp, rfl⟩ := Option.map_eq_some_iff.mp h
      exact .hardware rfl (rxDma_cases hp)
  | acc ch =>
      obtain ⟨p, hp, rfl⟩ := Option.map_eq_some_iff.mp h
      exact .hardware rfl (accumulate_cases hp)

-- ===================================================== the refinement

/-- A guard that does not look at the result of a driver call. -/
def ResultFree (guard : State cfg → Action cfg.numCores → Prop) : Prop :=
  ∀ s c ok ok', (guard s (.main c ok) → guard s (.main c ok'))
    ∧ (guard s (.isr c ok) → guard s (.isr c ok'))

/-- A step of the wire is a step of the protocol, or leaves it alone. -/
theorem WireStep.base {guard : State cfg → Action cfg.numCores → Prop}
    (hfree : ResultFree guard) {w w' : Wire cfg}
    {a : WireAction cfg.numCores tr.numChannels} (h : WireStep tr w a w')
    (hok : Lifted guard w a) :
    w'.base = w.base ∨ ∃ b, guard w.base b ∧ apply b w.base = some w'.base := by
  cases h with
  | @main c ok r s p hidle hcall hs =>
      cases r with
      | none => exact .inl hs
      | some ok' =>
          exact .inr ⟨.main c ok', (hfree _ _ _ _).1 (hok _ rfl), hs⟩
  | irq hraised hcore hs => exact .inr ⟨_, hok _ rfl, hs⟩
  | @isr c ok r s p hcall hs =>
      cases r with
      | none => exact .inl hs
      | some ok' =>
          exact .inr ⟨.isr c ok', (hfree _ _ _ _).2 (hok _ rfl), hs⟩
  | hardware => exact .inl rfl

/-- The protocol side of a reachable wire is reachable. -/
theorem wire_refines {guard : State cfg → Action cfg.numCores → Prop}
    (hfree : ResultFree guard) {w : Wire cfg}
    (h : WireReachable cfg tr (Lifted guard) w) :
    Reachable cfg guard w.base := by
  refine h.invariant (I := fun w => Reachable cfg guard w.base) .init ?_
  intro w a w' hw hok hstep
  rcases (wireStep_cases hstep).base hfree hok with heq | ⟨b, hb, happ⟩
  · rw [heq]
    exact hw
  · exact .step b hw hb happ

/-- Every guard lifts to a stronger one than no guard. -/
theorem wire_any
    {ok : Wire cfg → WireAction cfg.numCores tr.numChannels → Prop}
    {w : Wire cfg} (h : WireReachable cfg tr ok w) :
    WireReachable cfg tr (Lifted anyStep) w :=
  h.mono fun _ _ _ _ _ => trivial

theorem resultFree_any : @ResultFree cfg anyStep :=
  fun _ _ _ _ => ⟨id, id⟩

/-- Any wire, whatever its guard. -/
theorem wire_base
    {ok : Wire cfg → WireAction cfg.numCores tr.numChannels → Prop}
    {w : Wire cfg} (h : WireReachable cfg tr ok w) :
    Reachable cfg anyStep w.base :=
  wire_refines resultFree_any (wire_any h)

end DspCodes.Infra
