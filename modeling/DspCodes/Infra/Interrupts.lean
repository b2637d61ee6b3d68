/-
The interrupt of a round, as the accumulator raises it and as the
protocol has it.

In the protocol an interrupt is outstanding from the end of `send_data`
on. Here it is raised when the accumulator's page is full, and a handler
starts for a channel that raised one. `interrupts_agree`: raised means
that the accumulator has taken all packets of the round and that the
interrupt is outstanding in the protocol, at the core of the round's number
and nowhere else; no handler has run for the round before, and the core
can take it.
-/
import DspCodes.Infra.Delivery

namespace DspCodes.Infra

open Lts

variable {cfg : Config} {tr : Traffic} {n c channel core : Nat} {ok : Bool}
  {x x' : CoreState} {sh sh' : Shared} {p p' : Packets} {r : Option Bool}
  {w w' : Wire cfg}

-- =========================================================== the pages

/-- The accumulators and the handlers: an enabled accumulator has the
page `send_data` gave it, and the handler of a core starts once, after
the page of its channel is full and with the interrupt raised. -/
structure AccInv (tr : Traffic) (w : Wire cfg) : Prop where
  page : ∀ ch, (w.pk.chan ch).acc.enabled = true →
    (w.pk.chan ch).acc.maxPageEntries = tr.numPackets + 1
      ∧ (w.pk.chan ch).acc.listAddress = tr.listAddress SYSINIT
  raised : ∀ ch, (w.pk.chan ch).raised = true →
    (w.pk.chan ch).acc.taken = tr.numPackets
  early : ∀ c : Fin cfg.numCores, ((w.pk.chan c).raised = true
    ∨ (w.pk.chan c).acc.taken < tr.numPackets) →
      (w.base.core c).handlers = 0
  full : ∀ c : Fin cfg.numCores,
    (w.pk.chan c).acc.taken = tr.numPackets →
      (w.pk.chan c).raised = true ∨ (w.base.core c).handlers = 1

/-- What the accumulator of a channel has done. -/
def Chan.page (k : Chan) : Bool × Nat := (k.raised, k.acc.taken)

/-- The accumulator of a channel and its interrupt. -/
def Chan.accumulator (k : Chan) : Bool × Acc := (k.raised, k.acc)

/-- Steps that start no handler and fill no page. -/
theorem AccInv.keep (hs : AccInv tr w)
    (hpage : ∀ ch, (w'.pk.chan ch).acc.enabled = true →
      (w'.pk.chan ch).acc.maxPageEntries = tr.numPackets + 1
        ∧ (w'.pk.chan ch).acc.listAddress = tr.listAddress SYSINIT)
    (hchan : ∀ ch, (w'.pk.chan ch).page = (w.pk.chan ch).page)
    (hhand : ∀ c, (w'.base.core c).handlers = (w.base.core c).handlers) :
    AccInv tr w' := by
  have hraised : ∀ ch, (w'.pk.chan ch).raised = (w.pk.chan ch).raised :=
    fun ch => congrArg Prod.fst (hchan ch)
  have htaken : ∀ ch, (w'.pk.chan ch).acc.taken
      = (w.pk.chan ch).acc.taken := fun ch => congrArg Prod.snd (hchan ch)
  refine ⟨hpage, fun ch => ?_, fun c => ?_, fun c => ?_⟩
  · rw [hraised, htaken]
    exact hs.raised ch
  · rw [hraised, htaken, hhand]
    exact hs.early c
  · rw [hraised, htaken, hhand]
    exact hs.full c

/-- Only a taken interrupt starts a handler. -/
theorem apply_handlers {s s' : State cfg} {a : Action cfg.numCores}
    (h : apply a s = some s') (ha : ∀ c, a ≠ .irq c) :
    ∀ c, (s'.core c).handlers = (s.core c).handlers := by
  obtain ⟨c, x, sh, rfl, hstep⟩ := apply_cases h
  refine s.put_read CoreState.handlers _ ?_
  cases hstep with
  | main _ hm =>
      obtain ⟨hisr, hserved, haborted⟩ := hm.isr_eq
      simp only [CoreState.handlers, hisr, hserved, haborted]
  | irq => exact absurd rfl (ha c)
  | isr hi => exact hi.handlers_eq

theorem Commits.handlers {s s' : State cfg} {f : Bool → Action cfg.numCores}
    (h : Commits s f r s') (hf : ∀ ok c, f ok ≠ .irq c) :
    ∀ c, (s'.core c).handlers = (s.core c).handlers := by
  cases r with
  | none =>
      rw [show s' = s from h]
      exact fun _ => rfl
  | some ok => exact apply_handlers h (hf ok)

/-- Taking an interrupt, from the core that takes it. -/
theorem apply_irq {s s' : State cfg} {c : Fin cfg.numCores}
    (h : apply (.irq c) s = some s') :
    (s.core c).isr = .idle ∧ ∃ ch rest, s.shared.irq c = ch :: rest
      ∧ s' = s.put c ({ s.core c with isr := .recycleRx ch },
          { s.shared with irq := Function.update s.shared.irq c rest }) := by
  simp only [apply] at h
  split at h
  case isFalse => cases h
  case isTrue hidle =>
    obtain ⟨r, hr, rfl⟩ := Option.map_eq_some_iff.mp h
    obtain ⟨ch, rest, hirq, rfl⟩ := takeIrq_cases hr
    exact ⟨hidle, ch, rest, hirq, rfl⟩

/-- A call of `main` moves no page: it programs an empty channel, and
nothing else of an accumulator. -/
theorem MainCall.page_eq (h : MainCall tr n c ok x p p' r)
    (hempty : x.main = .send → (∃ todo, p.send = .setup todo) →
      (p.chan x.round).acc.taken = 0) :
    ∀ i, (p'.chan i).page = (p.chan i).page := by
  cases h with
  | send hpc h =>
      cases h with
      | @call call todo hpc' =>
          have htaken : (p.chan (x.channel + x.index)).acc.taken = 0 :=
            hempty hpc ⟨_, hpc'⟩
          cases call with
          | programAccumulator =>
              refine p.setChan_read Chan.page ?_
              simp only [Chan.page, htaken]
          | txChannelEnable | rxChannelEnable =>
              exact p.setChan_read Chan.page rfl
          | _ => exact fun _ => rfl
      | push | last => exact p.setChan_read Chan.page rfl
      | _ => exact fun _ => rfl
  | close =>
      cases ok with
      | true => exact cleanupCall_chan Chan.page (fun _ _ => ⟨rfl, rfl⟩) _ p
      | false => exact fun _ => rfl
  | _ => exact fun _ => rfl

theorem MainCall.taken_eq (h : MainCall tr n c ok x p p' r)
    (hempty : x.main = .send → (∃ todo, p.send = .setup todo) →
      (p.chan x.round).acc.taken = 0) :
    ∀ i, (p'.chan i).acc.taken = (p.chan i).acc.taken :=
  fun i => congrArg Prod.snd (h.page_eq hempty i)

/-- In its setup the channel of the round is empty. -/
theorem LoadInv.setup_empty (hs : LoadInv tr x p) (hx : MainOk cfg SYSINIT x)
    (hpc : x.main = .send) (hsetup : ∃ todo, p.send = .setup todo) :
    (p.chan x.round).acc.taken = 0 := by
  obtain ⟨todo, htodo⟩ := hsetup
  have hnext := hs.next (by rw [hpc]; simp)
  rw [(hx.round_of_send hpc).2.2, htodo] at hnext
  simp only [Chan.load, SendPc.count] at hnext
  omega

/-- The page `send_data` programs is the one the invariant names. -/
theorem MainCall.page_ok (h : MainCall tr n SYSINIT ok x p p' r)
    (hs : ∀ ch, (p.chan ch).acc.enabled = true →
      (p.chan ch).acc.maxPageEntries = tr.numPackets + 1
        ∧ (p.chan ch).acc.listAddress = tr.listAddress SYSINIT) :
    ∀ ch, (p'.chan ch).acc.enabled = true →
      (p'.chan ch).acc.maxPageEntries = tr.numPackets + 1
        ∧ (p'.chan ch).acc.listAddress = tr.listAddress SYSINIT := by
  have hkeep : (∀ i, (p'.chan i).acc = (p.chan i).acc) → ∀ ch,
      (p'.chan ch).acc.enabled = true →
      (p'.chan ch).acc.maxPageEntries = tr.numPackets + 1
        ∧ (p'.chan ch).acc.listAddress = tr.listAddress SYSINIT := by
    intro hacc ch
    rw [hacc]
    exact hs ch
  cases h with
  | send hpc h =>
      cases h with
      | @call call todo hpc' =>
          cases call with
          | programAccumulator =>
              intro ch
              simp only [sendCall, Packets.setChan, Function.update_apply]
              split_ifs with hch
              · exact fun _ => ⟨rfl, rfl⟩
              · exact hs ch
          | txChannelEnable | rxChannelEnable =>
              exact hkeep (p.setChan_read Chan.acc rfl)
          | _ => exact hs
      | push | last => exact hkeep (p.setChan_read Chan.acc rfl)
      | _ => exact hs
  | close =>
      cases ok with
      | true =>
          exact hkeep (cleanupCall_chan Chan.acc (fun _ _ => ⟨rfl, rfl⟩) _ p)
      | false => exact hs
  | _ => exact hs

theorem accInv_init (cfg : Config) (tr : Traffic) :
    AccInv tr (initWire cfg tr) where
  page := fun _ h => nomatch h
  raised := fun _ h => nomatch h
  early := fun _ _ => rfl
  full := fun _ h => absurd h (Nat.ne_of_lt tr.packets_pos)

/-- A full page is that of a round sent. -/
theorem LoadInv.sent_of_full (hs : LoadInv tr x p) {ch : Nat}
    (hch : (p.chan ch).acc.taken = tr.numPackets) : ch < x.sent := by
  have hle : tr.numPackets ≤ (p.chan ch).load := by
    rw [← hch]
    exact Nat.le_add_left ..
  by_contra hnot
  rcases Nat.eq_or_lt_of_not_lt hnot with heq | hlt
  · have hpart := hs.part
    rw [← heq] at hpart
    omega
  · have hzero := hs.later ch hlt
    have hpos := tr.packets_pos
    omega

/-- The accumulator of channel `ch` takes one more entry. -/
theorem AccInv.take {ch : Nat} {k : Chan} (hs : AccInv tr w)
    (hon : (w.pk.chan ch).acc.enabled = true)
    (hroom : (w.pk.chan ch).acc.taken < tr.numPackets)
    (hp : p.chan = Function.update w.pk.chan ch k)
    (hmax : k.acc.maxPageEntries = (w.pk.chan ch).acc.maxPageEntries)
    (haddr : k.acc.listAddress = (w.pk.chan ch).acc.listAddress)
    (hraised : k.raised = true ↔ k.acc.taken = tr.numPackets) :
    AccInv tr ⟨w.base, p⟩ := by
  have hchan : ∀ i, i ≠ ch → p.chan i = w.pk.chan i := by
    intro i hi
    rw [hp, Function.update_of_ne hi]
  have hself : p.chan ch = k := by rw [hp, Function.update_self]
  refine ⟨fun i hi => ?_, fun i hi => ?_, fun c hc => ?_, fun c hc => ?_⟩
  · by_cases hich : i = ch
    · simp only [hich, hself, hmax, haddr]
      exact hs.page ch hon
    · simp only [hchan i hich] at hi ⊢
      exact hs.page i hi
  · by_cases hich : i = ch
    · simp only [hich, hself] at hi ⊢
      exact hraised.mp hi
    · simp only [hchan i hich] at hi ⊢
      exact hs.raised i hi
  · by_cases hich : c.val = ch
    · exact hs.early c (.inr (hich ▸ hroom))
    · simp only [hchan c hich] at hc
      exact hs.early c hc
  · by_cases hich : c.val = ch
    · simp only [hich, hself] at hc ⊢
      exact .inl (hraised.mpr hc)
    · simp only [hchan c hich] at hc ⊢
      exact hs.full c hc

/-- Channels that differ in their packets only. -/
theorem AccInv.same (hs : AccInv tr w)
    (h : ∀ i, (p.chan i).accumulator = (w.pk.chan i).accumulator) :
    AccInv tr ⟨w.base, p⟩ := by
  have hraised : ∀ i, (p.chan i).raised = (w.pk.chan i).raised :=
    fun i => congrArg Prod.fst (h i)
  have hacc : ∀ i, (p.chan i).acc = (w.pk.chan i).acc :=
    fun i => congrArg Prod.snd (h i)
  refine hs.keep (fun i => ?_) (fun i => ?_) fun _ => rfl
  · rw [hacc]
    exact hs.page i
  · simp only [Chan.page, hraised, hacc]

/-- The hardware fills pages, and raises an interrupt with the last
entry. -/
theorem AccInv.hardware {ch : Fin tr.numChannels} (hs : AccInv tr w)
    (hroute : Routed tr w.base.core0 w.pk) (h : Hardware ch w.pk p) :
    AccInv tr ⟨w.base, p⟩ := by
  cases h with
  | sent | returned | received =>
      exact hs.same (w.pk.setChan_read Chan.accumulator rfl)
  | delivered hdma =>
      rw [hroute.delivered hdma]
      exact hs.same (w.pk.setChan_read Chan.accumulator rfl)
  | accumulated hque hon hroom =>
      have hmax := (hs.page ch hon).1
      rw [hmax] at hroom
      refine hs.take (k := _) hon (by omega) rfl rfl rfl ?_
      have hnot : (w.pk.chan ch).raised = false := by
        refine Bool.eq_false_iff.mpr fun h => ?_
        have htaken := hs.raised ch h
        omega
      simp only [hnot, hmax, Bool.false_or, decide_eq_true_eq]
      omega
  | filled hque hon hfull =>
      have hmax := (hs.page ch hon).1
      rw [hmax] at hfull
      refine hs.take (k := _) hon (by omega) rfl rfl rfl ?_
      simp only [hmax, hfull, decide_true, Bool.or_true, true_iff]
      omega

/-- Core 0 sends no more rounds than the pass has. -/
theorem MainOk.sent_le {c : Nat} (h : MainOk cfg c x) :
    x.sent ≤ cfg.numCores := by
  have hpassed := h.passed_le
  unfold CoreState.passed at hpassed
  cases hpc : x.main <;> simp only [CoreState.sent, hpc] <;>
    first
      | exact hpassed
      | (simp only [MainOk, hpc] at h; omega)

/-- A core takes the interrupt of the channel of its own number. -/
theorem AccInv.irq {c : Fin cfg.numCores} {ch : Nat} {s : State cfg}
    (hs : AccInv tr w) (hfour : cfg.numCores ≤ 4)
    (hirq : IrqInv w.base) (hload : LoadInv tr w.base.core0 w.pk)
    (hraised : (w.pk.chan ch).raised = true) (hcore : ch % 4 = c.val)
    (h : apply (.irq c) w.base = some s) :
    AccInv tr
      ⟨s, w.pk.setChan ch { w.pk.chan ch with raised := false }⟩ := by
  have hch : ch = c.val := by
    have hsent := hload.sent_of_full (hs.raised ch hraised)
    have hle : w.base.core0.sent ≤ cfg.numCores :=
      MainOk.sent_le (hirq.main cfg.core0)
    omega
  subst hch
  obtain ⟨hidle, ch', rest, -, rfl⟩ := apply_irq h
  have hzero := hs.early c (.inl hraised)
  have hself : (w.pk.setChan c { w.pk.chan c with raised := false }).chan c
      = { w.pk.chan c with raised := false } := Function.update_self ..
  have hchan : ∀ i : Nat, i ≠ c →
      (w.pk.setChan c { w.pk.chan c with raised := false }).chan i
        = w.pk.chan i := fun i hi => Function.update_of_ne hi ..
  have hacc : ∀ i,
      ((w.pk.setChan c { w.pk.chan c with raised := false }).chan i).acc
        = (w.pk.chan i).acc := w.pk.setChan_read Chan.acc rfl
  have hother : ∀ d, d ≠ c → ((w.base.put c ({ w.base.core c with
        isr := .recycleRx ch' }, { w.base.shared with
          irq := Function.update w.base.shared.irq c rest })).core d)
      = w.base.core d := fun d hd => Function.update_of_ne hd ..
  refine ⟨fun i => ?_, fun i hi => ?_, fun d hd => ?_, fun d hd => ?_⟩
  · rw [hacc]
    exact hs.page i
  · rw [hacc]
    by_cases hic : i = c
    · rw [hic, hself] at hi
      cases hi
    · rw [hchan i hic] at hi
      exact hs.raised i hi
  · by_cases hdc : d = c
    · -- the page is full, and no longer raised
      have htaken := hs.raised c hraised
      rw [hdc, hacc, hself] at hd
      rcases hd with hd | hd
      · cases hd
      · omega
    · rw [hother d hdc]
      rw [hchan d fun h => hdc (Fin.ext h)] at hd
      exact hs.early d hd
  · by_cases hdc : d = c
    · refine .inr ?_
      rw [hdc, State.put_core, Function.update_self]
      simp only [CoreState.handlers, hidle, IsrPc.active] at hzero ⊢
      omega
    · rw [hother d hdc, hchan d fun h => hdc (Fin.ext h)]
      rw [hacc] at hd
      exact hs.full d hd

/-- The accumulators and the handlers agree in every reachable state. -/
theorem accInv_reachable (hone : cfg.OnePass) (hfour : cfg.numCores ≤ 4)
    {guard : Wire cfg → WireAction cfg.numCores tr.numChannels → Prop}
    (h : WireReachable cfg tr guard w) : AccInv tr w := by
  refine h.invariant' (I := AccInv tr) (accInv_init cfg tr) ?_
  intro w a w' hr hs _ hstep
  have hirq := irqInv_reachable hone (wire_base hr)
  have hload := loadInv_reachable hone hr
  have hrole := roleOk_reachable (wire_base hr)
  cases wireStep_cases hstep with
  | @main c ok r s p hidle hcall hcommit =>
      have hhand := hcommit.handlers fun _ _ h => nomatch h
      by_cases hplain : (w.base.core c).main.packets = true
      · have hc : c = cfg.core0 := Fin.ext (hrole c hplain)
        subst hc
        exact hs.keep (hcall.page_ok hs.page)
          (hcall.page_eq (hload.setup_empty (hirq.main cfg.core0))) hhand
      · have hsame : p = w.pk := by
          cases hcall with
          | plain => rfl
          | send hpc | divert hpc | close hpc | closed hpc =>
              rw [hpc] at hplain
              exact absurd rfl hplain
        rw [hsame]
        exact hs.keep hs.page (fun _ => rfl) hhand
  | irq hraised hcore happ =>
      exact hs.irq hfour hirq hload hraised hcore happ
  | @isr c ok r s p hcall hcommit =>
      have hhand := hcommit.handlers fun _ _ h => nomatch h
      cases hcall with
      | @disable ch =>
          refine hs.keep (fun i => ?_) (w.pk.setChan_read Chan.page rfl) hhand
          simp only [Packets.setChan, Function.update_apply]
          split_ifs
          · intro h
            cases h
          · exact hs.page i
      | _ => exact hs.keep hs.page (fun _ => rfl) hhand
  | hardware _ hhw => exact hs.hardware (routed_reachable hone hr) hhw

-- =========================================================== the result

/-- The accumulator of the channel has taken all packets of the round. -/
structure Arrived (tr : Traffic) (k : Chan) : Prop where
  txQue : k.txQue = []
  stream : k.stream = []
  rxDma : k.rxDma = none
  rxQue : k.rxQue = []
  taken : k.acc.taken = tr.numPackets

/-- The interrupts that accumulators have raised are interrupts of the
protocol, and the other way round once the packets are there. -/
structure InterruptsAgree (tr : Traffic) (w : Wire cfg) : Prop where
  core : ∀ ch, (w.pk.chan ch).raised = true → ch < cfg.numCores
  own : ∀ d : Fin cfg.numCores, ∀ ch ∈ w.base.shared.irq d, ch = d
  outstanding : ∀ c : Fin cfg.numCores, (w.pk.chan c).raised = true ↔
    w.base.shared.irq c = [c.val] ∧ Arrived tr (w.pk.chan c)
  handled : ∀ c : Fin cfg.numCores, (w.base.core c).handlers ≠ 0 →
    Arrived tr (w.pk.chan c) ∧ (w.base.core c).handlers = 1
  taken : ∀ c : Fin cfg.numCores, (w.pk.chan c).raised = true →
    (w.base.core c).isr = .idle → ∃ ch w', ch.val = c.val
      ∧ wireStep tr (.irq c ch) w = some w'
      ∧ (w'.base.core c).isr = .recycleRx c

/-- A channel with a full page has nothing else. -/
theorem arrived_of_full {ch : Nat} (hload : LoadInv tr x p)
    (hch : (p.chan ch).acc.taken = tr.numPackets) :
    Arrived tr (p.chan ch) := by
  have hfull := hload.full ch (hload.sent_of_full hch)
  simp only [Chan.load] at hfull
  refine ⟨?_, ?_, ?_, ?_, hch⟩
  · exact List.length_eq_zero_iff.mp (by omega)
  · exact List.length_eq_zero_iff.mp (by omega)
  · exact Option.toList_eq_nil_iff.mp (List.length_eq_zero_iff.mp (by omega))
  · exact List.length_eq_zero_iff.mp (by omega)

/-- In every run of one pass, under any schedule and any driver result: an
accumulator raises its interrupt for a round that is sent, when it has
taken all its packets; the protocol then has just this interrupt
outstanding at the core of that number and at no other, and the core can
take it; and a handler has run at most once per core, only after that. -/
theorem interrupts_agree (hone : cfg.OnePass) (hfour : cfg.numCores ≤ 4)
    (h : WireReachable cfg tr anyStep w) : InterruptsAgree tr w := by
  have hirq := irqInv_reachable hone (wire_base h)
  have hload := loadInv_reachable hone h
  have hacc := accInv_reachable hone hfour h
  have hle : w.base.core0.sent ≤ cfg.numCores :=
    MainOk.sent_le (hirq.main cfg.core0)
  have hraised : ∀ c : Fin cfg.numCores, (w.pk.chan c).raised = true →
      w.base.shared.irq c = [c.val] := by
    intro c hc
    have hsent := hload.sent_of_full (hacc.raised c hc)
    have hcount := hirq.count c
    rw [if_pos hsent, hacc.early c (.inl hc)] at hcount
    obtain ⟨ch, hch⟩ := List.length_eq_one_iff.mp hcount
    rw [hch, hirq.irq c ch (by rw [hch]; exact List.mem_singleton_self ch)]
  refine ⟨fun ch hch => ?_, hirq.irq, fun c => ⟨fun hc => ?_, fun hc => ?_⟩,
    fun c hc => ?_, fun c hc hidle => ?_⟩
  · exact Nat.lt_of_lt_of_le (hload.sent_of_full (hacc.raised ch hch)) hle
  · exact ⟨hraised c hc, arrived_of_full hload (hacc.raised c hc)⟩
  · refine (hacc.full c hc.2.taken).resolve_right fun hone' => ?_
    have hcount := hirq.count c
    rw [hc.1, List.length_singleton] at hcount
    split_ifs at hcount <;> omega
  · have htaken : (w.pk.chan c).acc.taken = tr.numPackets := by
      by_contra hne
      have hle : (w.pk.chan c).acc.taken ≤ tr.numPackets :=
        Nat.le_trans (Nat.le_add_left ..) (hload.load_le c)
      exact hc (hacc.early c (.inr (Nat.lt_of_le_of_ne hle hne)))
    refine ⟨arrived_of_full hload htaken, ?_⟩
    have hone' := hirq.handlers_le c
    omega
  · have hsent := hload.sent_of_full (hacc.raised c hc)
    have hcore : c.val % 4 = c.val :=
      Nat.mod_eq_of_lt (Nat.lt_of_lt_of_le c.isLt hfour)
    have happ := (CoreStep.irq hidle (hraised c hc)).run
    obtain ⟨ch, hch⟩ : ∃ ch : Fin tr.numChannels, ch.val = c.val :=
      ⟨⟨c, Nat.lt_of_lt_of_le hsent hload.device⟩, rfl⟩
    obtain ⟨w', hstep, hbase⟩ : ∃ w', wireStep tr (.irq c ch) w = some w'
        ∧ apply (.irq c) w.base = some w'.base := by
      simp only [wireStep, hch]
      rw [if_pos ⟨hc, hcore⟩, happ]
      exact ⟨_, rfl, rfl⟩
    refine ⟨ch, w', hch, hstep, ?_⟩
    rw [← Option.some.inj (happ.symm.trans hbase)]
    simp only [State.put_core, Function.update_self]

/-- On the board, when the page of round 0 has filled. -/
theorem interrupts_agree_board :
    ∃ w : Wire board, WireReachable board boardTraffic anyStep w
      ∧ (w.pk.chan 0).raised = true ∧ InterruptsAgree boardTraffic w := by
  obtain ⟨w, hw, hraised⟩ : ∃ w, WireReachable board boardTraffic anyStep w
      ∧ (w.pk.chan 0).raised = true :=
    exists_reach_of_runOk (wireBoot ++ wireSend ++ wireRound 0)
      (by decide +kernel)
  have hone : board.OnePass := rfl
  have hfour : board.numCores ≤ 4 := by decide
  exact ⟨w, hw, hraised, interrupts_agree hone hfour hw⟩

end DspCodes.Infra
