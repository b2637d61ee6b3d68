/-
A run that is kept in order can always be completed.

# The order

`Ordered` puts the conditions of this development together: the driver
calls succeed, the rounds are in step, the handlers load `runCount` one
at a time, and core 0 joins the other cores before it exits. Each of them
forbids steps, so that together they could leave nothing to do.
`run_completes`: they never do. From every state they allow, they also
allow a run to the end of every `main`.

# Two phases

While some core has rounds to go, or a handler is to run, a step is
allowed that uses up `remaining`. The core to move is one that has left
the fewest sync waits: no core is behind it, and all descriptors of the
rounds sent cannot have been popped. Then every round is served,
`runCount` is the number of cores, and the final loops end.
-/
import DspCodes.Infra.Exact
import DspCodes.Infra.TearDown

namespace DspCodes.Infra

open Lts Counting

variable {cfg : Config} {tr : Traffic} {n c : Nat} {ok : Bool}
  {x x' : CoreState} {sh sh' : Shared} {s s' : State cfg}
  {a : Action cfg.numCores} {w : Wire cfg}

-- ========================================================== the order

/-- All conditions at once. -/
def Ordered (s : State cfg) (a : Action cfg.numCores) : Prop :=
  GoodInStep s a ∧ Exclusive s a ∧ JoinsMains s a

instance (s : State cfg) (a : Action cfg.numCores) :
    Decidable (Ordered s a) :=
  inferInstanceAs (Decidable (_ ∧ _ ∧ _))

/-- What a run in order keeps. -/
structure OrderInv (s : State cfg) : Prop where
  irq : IrqInv s
  barrier : BarrierInv s
  live : Live s
  run : RunInv s
  cfgLe : CfgInv s
  cfgGe : CfgGe s
  signalLe : SignalLe s
  signalGe : SignalGe s

theorem orderInv_reachable (hone : cfg.OnePass) (hfour : cfg.numCores ≤ 4)
    (hdesc : cfg.EnoughDesc) (h : Reachable cfg Ordered s) : OrderInv s where
  irq := irqInv_reachable hone h
  barrier := by
    refine h.invariant' (barrierInv_init hone) fun s a s' hr hs hok happ => ?_
    exact barrierInv_step (irqInv_reachable hone hr)
      (signalLe_reachable hone hr) hs hok.1.2 happ
  live := by
    refine h.invariant' (progressInv_init hone).live fun s a s' hr hs hok happ => ?_
    exact live_step hfour (irqInv_reachable hone hr) hs hok.1.1 happ
  run := h.invariant runInv_init fun _ _ _ hs hok => runInv_step hs hok.2.1
  cfgLe := cfgInv_reachable hone h
  cfgGe := cfgGe_reachable hone hdesc h
  signalLe := signalLe_reachable hone h
  signalGe := signalGe_reachable hone
    (fun _ _ hr _ => feedsTurns_reachable hone hdesc hr) h

-- ======================================================== the measure

/-- The steps `main` of a core has before it in its rounds, at most. -/
def CoreState.ahead (n : Nat) (x : CoreState) : Nat :=
  match x.main with
  | .hookup => 8 * n + 12
  | .cfgWait | .cfgPop => 8 * n + 11
  | .cfgPush _ => 8 * n + 10
  | .syncRecycle _ => 8 * (n - x.took.length) + 9
  | .divert => 8 * (n - x.took.length) + 8
  | .cleanup => 8 * (n - x.took.length) + 7
  | .send => 8 * (n - x.took.length) + 4
  | .syncWait => 8 * (n - x.took.length) + 3
  | .syncPop => 8 * (n - x.took.length) + 2
  | _ => 0

/-- The steps a handler has before it, at most. -/
def IsrPc.left (n : Nat) : IsrPc → Nat
  | .idle => 0
  | .recycleRx _ => 2 * n + 8
  | .disableAcc _ => 2 * n + 7
  | .syncPop _ i => 2 * (n - i) + 5
  | .syncPush _ i _ => 2 * (n - i) + 4
  | .runInv _ => 5
  | .runLoad _ => 4
  | .runStore _ _ => 3
  | .runWb _ => 2
  | .ret _ => 1

/-- The same, with the handler a core has still to start. -/
def CoreState.serving (n : Nat) (x : CoreState) : Nat :=
  (1 - x.handlers) * (2 * n + 9) + x.isr.left n

/-- The steps before all cores, at most. -/
def remaining (s : State cfg) : Nat :=
  ∑ c, ((s.core c).ahead cfg.numCores + (s.core c).serving cfg.numCores)

theorem remaining_put {c : Fin cfg.numCores}
    (h : x.ahead cfg.numCores + x.serving cfg.numCores
      < (s.core c).ahead cfg.numCores + (s.core c).serving cfg.numCores) :
    remaining (s.put c (x, sh)) < remaining s := by
  have hsum := sum_update (fun _ y => CoreState.ahead cfg.numCores y
    + y.serving cfg.numCores) s.core c x
  unfold remaining
  simp only [State.put_core]
  omega

theorem roundHead_ahead (hone : cfg.OnePass) (hch : x.channel = 0) :
    (roundHead cfg c x).ahead cfg.numCores
      ≤ 8 * (cfg.numCores - x.took.length) + 4 := by
  unfold Config.OnePass at hone
  unfold roundHead
  split_ifs with hi hc hmore
  · exact Nat.le_refl _
  · exact Nat.le_succ _
  · omega
  · exact Nat.zero_le _

theorem endRound_ahead (hone : cfg.OnePass) (hch : x.channel = 0) :
    (endRound cfg c x).ahead cfg.numCores
      ≤ 8 * (cfg.numCores - x.took.length) + 4 :=
  roundHead_ahead (x := { x with index := x.index + 1 }) hone hch

theorem afterSync_ahead (hone : cfg.OnePass) (hch : x.channel = 0) :
    (afterSync cfg c x).ahead cfg.numCores
      ≤ 8 * (cfg.numCores - x.took.length) + 8 := by
  unfold afterSync
  split_ifs
  · exact Nat.le_refl _
  · exact (endRound_ahead hone hch).trans (Nat.le_add_right _ 4)

/-- A step of `main` that is not a poll uses up what is ahead. -/
theorem MainStep.ahead_lt (hone : cfg.OnePass)
    (h : MainStep cfg c true x sh x' sh') (hx : MainOk cfg c x)
    (hin : x.main.leftRounds = false)
    (hcfg : x.main = .cfgWait → sh.syncCfg.length = cfg.numCores - 1)
    (hsync : x.main = .syncWait → sh.sync.length ≠ 0) :
    x'.ahead cfg.numCores < x.ahead cfg.numCores := by
  cases h with
  | hooked hpc =>
      simp only [CoreState.ahead, hpc]
      split_ifs <;> simp
  | cfgPoll hpc hlen => exact absurd (hcfg hpc) hlen
  | poll hpc hlen => exact absurd hlen (hsync hpc)
  | cfgPass hpc | cfgPopNull hpc | cfgPush hpc =>
      simp only [MainOk, hpc] at hx
      refine (roundHead_ahead hone (by simp [hx])).trans_lt ?_
      simp only [CoreState.ahead, hpc]
      omega
  | pop hpc =>
      simp only [MainOk, hpc] at hx
      simp only [CoreState.ahead, hpc, List.length_append, List.length_cons,
        List.length_nil]
      omega
  | popNull hpc =>
      simp only [MainOk, hpc] at hx
      refine (afterSync_ahead hone (by simp [hx])).trans_lt ?_
      simp only [CoreState.ahead, hpc, List.length_append, List.length_cons,
        List.length_nil]
      omega
  | recycle hpc =>
      simp only [MainOk, hpc] at hx
      refine (afterSync_ahead hone hx.1).trans_lt ?_
      simp only [CoreState.ahead, hpc]
      omega
  | cleanup hpc =>
      simp only [MainOk, hpc] at hx
      refine (endRound_ahead hone hx.2.1).trans_lt ?_
      simp only [CoreState.ahead, hpc]
      omega
  | sendFailed hpc hok => cases hok
  | hookFailed hpc | cfgPop hpc | send hpc | signal hpc | divert hpc =>
      simp only [CoreState.ahead, hpc]
      omega
  | runInv hpc | runWait hpc | runDone hpc | exitCall hpc | exitDone hpc =>
      rw [hpc] at hin
      cases hin

theorem isrLoop_left (ch i : Nat) :
    (isrLoop cfg ch i).left cfg.numCores
      ≤ 2 * (cfg.numCores - i) + 5 := by
  unfold isrLoop
  split_ifs
  · exact Nat.le_refl _
  · show 5 ≤ _
    omega

/-- Every step of a handler uses up what it has before it. -/
theorem IsrStep.left_lt (h : IsrStep cfg ok x sh x' sh')
    (hx : IsrOk cfg c x) :
    x'.isr.left cfg.numCores < x.isr.left cfg.numCores := by
  cases h with
  | disable hpc =>
      refine (isrLoop_left ..).trans_lt ?_
      simp only [hpc, IsrPc.left]
      omega
  | popNull hpc | push hpc =>
      simp only [IsrOk, hpc] at hx
      refine (isrLoop_left ..).trans_lt ?_
      simp only [hpc, IsrPc.left]
      omega
  | disableFailed hpc =>
      simp only [hpc, IsrPc.left]
      omega
  | recycleRx hpc | pop hpc | runInv hpc | runLoad hpc | runStore hpc
  | runWb hpc | ret hpc =>
      simp only [hpc, IsrPc.left]
      omega

-- ========================================================== the rounds

/-- Some step in order uses up what remains. -/
def CanGo (s : State cfg) : Prop :=
  ∃ a s', Ordered s a ∧ apply a s = some s' ∧ remaining s' < remaining s

/-- A handler that runs can go on, or another that holds `runCount`. -/
theorem canGo_isr (hs : OrderInv s) {c : Fin cfg.numCores}
    (hrun : (s.core c).isr ≠ .idle) : CanGo s := by
  have hgo : ∀ c, (s.core c).isr ≠ .idle →
      ((s.core c).isr.loads = true →
        ∀ d, d ≠ c → (s.core d).isr.holds = false) → CanGo s := by
    intro c hrun hloads
    obtain ⟨⟨x, sh⟩, hr⟩ :=
      isrStep_isSome cfg true (s.core c) s.shared hrun
    have hi : IsrStep cfg true (s.core c) s.shared x sh := isrStep_cases hr
    refine ⟨.isr c true, s.put c (x, sh),
      ⟨⟨rfl, trivial⟩, ⟨hloads, fun _ => rfl⟩, trivial⟩,
      (CoreStep.isr hi).run, remaining_put ?_⟩
    have hleft := hi.left_lt (hs.irq.isr c)
    have hmain := hi.main_eq.1
    have hahead : x.ahead cfg.numCores
        = (s.core c).ahead cfg.numCores := by
      unfold CoreState.ahead
      rw [hmain.1, hmain.2.2.2]
    simp only [CoreState.serving, hi.handlers_eq, hahead]
    omega
  by_cases hhold : ∃ d, (s.core d).isr.holds = true
  · obtain ⟨d, hd⟩ := hhold
    refine hgo d (fun h => ?_) fun hloads => ?_
    · rw [h] at hd
      cases hd
    · cases hpc : (s.core d).isr <;>
        simp [hpc, IsrPc.loads, IsrPc.holds] at hloads hd
  · refine hgo c hrun fun _ d _ => ?_
    exact Bool.eq_false_iff.mpr fun h => hhold ⟨d, h⟩

/-- An idle core can take its interrupt. -/
theorem canGo_irq (hs : OrderInv s) {c : Fin cfg.numCores}
    (hidle : (s.core c).isr = .idle) (hpend : s.shared.irq c ≠ []) :
    CanGo s := by
  obtain ⟨ch, rest, hirq⟩ := List.exists_cons_of_ne_nil hpend
  refine ⟨.irq c, _, ⟨⟨rfl, trivial⟩, trivial, trivial⟩,
    (CoreStep.irq hidle hirq).run, remaining_put ?_⟩
  have hhand : (s.core c).handlers = 0 := by
    have hcount := hs.irq.count c
    rw [hirq, List.length_cons] at hcount
    split_ifs at hcount <;> omega
  have hserved := hhand
  rw [CoreState.handlers, hidle] at hserved
  simp only [IsrPc.active] at hserved
  simp only [CoreState.serving, CoreState.handlers, hidle, IsrPc.active,
    IsrPc.left, CoreState.ahead]
  rw [show (s.core c).served = 0 by omega,
    show (s.core c).aborted = 0 by omega]
  omega

/-- A core with rounds to go that does not poll, and is in step. -/
theorem canGo_main (hone : cfg.OnePass) (hs : OrderInv s)
    {c : Fin cfg.numCores} (hidle : (s.core c).isr = .idle)
    (hin : (s.core c).main.leftRounds = false)
    (hstep : InStep s (.main c true))
    (hcfg : (s.core c).main = .cfgWait →
      s.shared.syncCfg.length = cfg.numCores - 1)
    (hsync : (s.core c).main = .syncWait → s.shared.sync.length ≠ 0) :
    CanGo s := by
  obtain ⟨⟨x, sh⟩, hr⟩ := mainStep_isSome cfg c true (s.core c) s.shared
    (by intro h; rw [h] at hin; cases hin) (hs.live c).1
  have hm : MainStep cfg c true (s.core c) s.shared x sh := mainStep_cases hr
  refine ⟨.main c true, s.put c (x, sh), ⟨⟨rfl, hstep⟩, trivial, ?_⟩,
    (CoreStep.main hidle hm).run, remaining_put ?_⟩
  · intro _ hpc
    rw [hpc] at hin
    cases hin
  · have hahead := hm.ahead_lt hone (hs.irq.main c) hin hcfg hsync
    obtain ⟨hisr, hserved, haborted⟩ := hm.isr_eq
    have hserving : x.serving cfg.numCores
        = (s.core c).serving cfg.numCores := by
      unfold CoreState.serving CoreState.handlers
      rw [hisr, hserved, haborted]
    omega

/-- No core has left more waits than there are rounds sent. -/
theorem OrderInv.passed_le_sent (hs : OrderInv s) (d : Fin cfg.numCores) :
    (s.core d).passed ≤ s.core0.sent := by
  by_contra hlt
  have hlt : s.core0.sent < (s.core d).passed := Nat.lt_of_not_le hlt
  have hle := (hs.irq.main d).passed_le
  -- it took a descriptor of a round whose handler has not run
  let k : Fin cfg.numCores := ⟨s.core0.sent, Nat.lt_of_lt_of_le hlt hle⟩
  have htook : 1 ≤ (s.core d).took.count (some k.val) := by
    rw [Nat.succ_le_iff, List.count_pos_iff, hs.barrier.took d]
    exact List.mem_map_of_mem (List.mem_range.mpr hlt)
  have hsum := Finset.single_le_sum (s := Finset.univ)
    (f := fun e => (s.core e).took.count (some k.val))
    (fun _ _ => Nat.zero_le _) (Finset.mem_univ d)
  have hsignal := hs.signalLe k
  have hcount := hs.irq.count k
  rw [if_neg (Nat.lt_irrefl _)] at hcount
  have hturns : (s.core k).turns cfg.numCores = 0 := by
    unfold CoreState.handlers at hcount
    unfold CoreState.turns
    cases hpc : (s.core k).isr <;>
      simp only [hpc, IsrPc.active, IsrPc.turns] at hcount ⊢ <;>
      first | omega | rw [show (s.core k).served = 0 by omega, Nat.zero_mul]
  simp only [signals] at hsignal
  omega

/-- Core 0 does not wait in vain in the configuration step, when all the
others are through it. -/
theorem OrderInv.cfgWait (hs : OrderInv s)
    (hothers : ∀ d, d ≠ cfg.core0 → (s.core d).main.configured = true) :
    s.shared.syncCfg.length = cfg.numCores - 1 := by
  have hle := hs.cfgLe.le
  have hge := hs.cfgGe
  have hall : ∑ c : Fin cfg.numCores, cfgShare c (s.core c)
      = ∑ _c : Fin cfg.numCores, 1 := by
    refine Finset.sum_congr rfl fun c _ => ?_
    by_cases hc : c = cfg.core0
    · subst hc
      exact if_pos rfl
    · exact cfgShare_configured c (hothers c hc)
  have hconst : ∑ _c : Fin cfg.numCores, 1 = cfg.numCores := by simp
  unfold CfgGe at hge
  have hpos := cfg.pos
  omega

/-- When the handlers are through, there is a descriptor for a core that
no other is behind, or core 0 has the next round to send. -/
theorem OrderInv.sync_or_send (hs : OrderInv s)
    (hidle : ∀ c, (s.core c).isr = .idle)
    (hnone : ∀ c : Fin cfg.numCores, s.shared.irq c = [])
    {m : Fin cfg.numCores} (hmin : NoneBehind s m) :
    s.shared.sync.length ≠ 0
      ∨ s.core0.main ≠ .syncWait ∧ s.core0.main ≠ .syncPop
        ∧ s.core0.passed = (s.core m).passed := by
  by_cases hsent : s.core0.sent = (s.core m).passed + 1
  · refine .inl fun hempty => ?_
    -- every descriptor was popped, but core `m` has not popped its last
    have hturns := turns_le_passed hs.signalGe hempty
    have hle : s.core0.sent ≤ cfg.numCores := MainOk.sent_le (hs.irq.main _)
    rw [turns_sum hs.irq hs.live hidle hnone hle] at hturns
    have hlt := sum_lt_of_le (fun d => (s.core d).passed)
      (fun _ => s.core0.sent) hs.passed_le_sent (c := m) (by
        show (s.core m).passed < _
        omega)
    rw [Finset.sum_const, Finset.card_univ, Fintype.card_fin, smul_eq_mul,
      Nat.mul_comm] at hlt
    exact absurd hturns (Nat.not_le.mpr hlt)
  · right
    have hle := hs.barrier.sent m
    have hhere : (s.core m).passed ≤ s.core0.passed := hmin cfg.core0
    have hself : s.core0.passed ≤ s.core0.sent := hs.passed_le_sent cfg.core0
    have hle' : s.core0.sent ≤ (s.core m).passed + 1 := hle
    have heq : s.core0.sent = s.core0.passed := by omega
    refine ⟨fun h => ?_, fun h => ?_, by omega⟩
    all_goals
      simp only [CoreState.sent, CoreState.passed, h] at heq
      omega

/-- The rounds are over: no handler is to run, and no `main` has rounds
to go. -/
structure RoundsOver (s : State cfg) : Prop where
  idle : ∀ c, (s.core c).isr = .idle
  irq : ∀ c : Fin cfg.numCores, s.shared.irq c = []
  left : ∀ c, (s.core c).main.leftRounds = true

/-- Where `main` of a core with rounds to go may have to wait. -/
def MainPc.waits : MainPc → Bool
  | .cfgWait | .send | .syncWait => true
  | _ => false

/-- A core that has left its rounds has left all its waits. -/
theorem MainOk.passed_of_left (hx : MainOk cfg c x)
    (hleft : x.main.leftRounds = true) : x.passed = cfg.numCores := by
  unfold CoreState.passed
  cases hpc : x.main <;> simp_all [MainOk, MainPc.leftRounds]

/-- A core that may have to wait has waits left. -/
theorem MainOk.passed_lt (hx : MainOk cfg c x) (hw : x.main.waits = true) :
    x.passed < cfg.numCores := by
  have hpos := cfg.pos
  unfold CoreState.passed
  cases hpc : x.main <;> simp_all [MainOk, MainPc.waits]

/-- When nothing can go the handlers are through, and every core with
rounds to go waits. -/
theorem stuck_waits (hone : cfg.OnePass) (hs : OrderInv s)
    (hstuck : ¬ CanGo s) :
    (∀ c, (s.core c).isr = .idle)
      ∧ (∀ c : Fin cfg.numCores, s.shared.irq c = [])
      ∧ ∀ c, (s.core c).main.leftRounds = false →
          (s.core c).main.waits = true := by
  have hidle : ∀ c, (s.core c).isr = .idle := fun c => by
    by_contra hrun
    exact hstuck (canGo_isr hs hrun)
  refine ⟨hidle, fun c => ?_, fun c hin => ?_⟩
  · by_contra hpend
    exact hstuck (canGo_irq hs (hidle c) hpend)
  · by_contra hpc
    refine hstuck (canGo_main hone hs (hidle c) hin
      ⟨fun h => ?_, fun h => ?_⟩ (fun h => ?_) fun h => ?_)
    all_goals
      rw [h] at hpc
      exact absurd rfl hpc

/-- Core 0 is then through the configuration step. -/
theorem stuck_configured (hone : cfg.OnePass) (hs : OrderInv s)
    (hstuck : ¬ CanGo s) : s.core0.main ≠ .cfgWait := by
  obtain ⟨hidle, -, hwaits⟩ := stuck_waits hone hs hstuck
  intro hpc
  have hothers : ∀ d, d ≠ cfg.core0 →
      (s.core d).main.configured = true := by
    intro d hd
    have hmain := hs.irq.main d
    have hd0 : d.val ≠ SYSINIT := fun h => hd (Fin.ext h)
    have hw := hwaits d
    cases hpc' : (s.core d).main <;>
      simp_all [MainPc.waits, MainOk, MainPc.configured, MainPc.leftRounds]
  refine hstuck (canGo_main hone hs (hidle cfg.core0) (by rw [hpc]; rfl)
    ⟨fun h => ?_, fun h => ?_⟩ (fun _ => hs.cfgWait hothers) fun h => ?_)
  all_goals
    rw [hpc] at h
    cases h

/-- Nor does a core stand at `send_data` that no other is behind. -/
theorem stuck_send (hone : cfg.OnePass) (hs : OrderInv s)
    (hstuck : ¬ CanGo s) {d : Fin cfg.numCores} (hmin : NoneBehind s d) :
    (s.core d).main ≠ .send := by
  intro hpc
  refine hstuck (canGo_main hone hs ((stuck_waits hone hs hstuck).1 d)
    (by rw [hpc]; rfl) ⟨fun _ => hmin, fun h => ?_⟩ (fun h => ?_) fun h => ?_)
  all_goals
    rw [hpc] at h
    cases h

/-- Before the rounds are over some step in order uses up what remains. -/
theorem canGo_rounds (hone : cfg.OnePass) (hs : OrderInv s)
    (hmore : ¬ RoundsOver s) : CanGo s := by
  by_contra hstuck
  obtain ⟨hidle, hnone, hwaits⟩ := stuck_waits hone hs hstuck
  obtain ⟨c, hin⟩ : ∃ c, (s.core c).main.leftRounds = false := by
    by_contra hall
    exact hmore ⟨hidle, hnone, fun c => by
      by_contra h
      exact hall ⟨c, Bool.eq_false_iff.mpr h⟩⟩
  -- the core to move: no other has left fewer waits
  obtain ⟨m, -, hmin⟩ := Finset.exists_min_image Finset.univ
    (fun d => (s.core d).passed) ⟨c, Finset.mem_univ c⟩
  have hmin : NoneBehind s m := fun d => hmin d (Finset.mem_univ d)
  have hmore : ∀ d, (s.core d).passed ≤ (s.core c).passed →
      (s.core d).main.leftRounds = false := by
    intro d hle
    by_contra hleft
    have hd := (hs.irq.main d).passed_of_left
      (Bool.eq_true_of_not_eq_false hleft)
    have hc := (hs.irq.main c).passed_lt (hwaits c hin)
    omega
  have hm := hmore m (hmin c)
  have hwm := hwaits m hm
  cases hpc : (s.core m).main with
  | cfgWait =>
      have hok := hs.irq.main m
      simp only [MainOk, hpc] at hok
      have h0 : m = cfg.core0 := Fin.ext hok.1
      rw [h0] at hpc
      exact stuck_configured hone hs hstuck hpc
  | send => exact stuck_send hone hs hstuck hmin hpc
  | syncWait =>
      rcases hs.sync_or_send hidle hnone hmin with hsync | ⟨h1, h2, heq⟩
      · have hpop : popping s = 0 := by
          refine Finset.sum_eq_zero fun d _ => ?_
          refine MainPc.popping_of_ne fun hd => ?_
          have hw := hwaits d (by rw [hd]; rfl)
          rw [hd] at hw
          cases hw
        have hroom : popping s < s.shared.sync.length := by
          rw [hpop]
          exact Nat.pos_of_ne_zero hsync
        refine hstuck (canGo_main hone hs (hidle m) hm
          ⟨fun h => ?_, fun _ _ => ⟨hmin, hroom⟩⟩ (fun h => ?_) fun _ => hsync)
        all_goals
          rw [hpc] at h
          cases h
      · -- core 0 has left as many waits, and can only stand at `send_data`
        have hw := hwaits cfg.core0 (hmore cfg.core0 (heq.trans_le (hmin c)))
        have hcfg := stuck_configured hone hs hstuck
        refine stuck_send hone hs hstuck (d := cfg.core0)
          (fun d => heq.trans_le (hmin d)) ?_
        cases hpc0 : s.core0.main <;> simp_all [MainPc.waits]
  | _ =>
      rw [hpc] at hwm
      cases hwm

/-- When the rounds are over, every handler has counted its round. -/
theorem RoundsOver.runCount (hover : RoundsOver s) (hs : OrderInv s) :
    s.shared.runCount = cfg.numCores := by
  have hsent : s.core0.sent = cfg.numCores := by
    have hpassed := (hs.irq.main cfg.core0).passed_of_left
      (hover.left cfg.core0)
    have hle : s.core0.sent ≤ cfg.numCores := MainOk.sent_le (hs.irq.main _)
    have hge : s.core0.passed ≤ s.core0.sent := hs.passed_le_sent cfg.core0
    have hpassed : s.core0.passed = cfg.numCores := hpassed
    omega
  have hwritten : ∀ c, (s.core c).written = 1 := by
    intro c
    have hcount := hs.irq.count c
    have hlt : c.val < (s.core cfg.core0).sent := by
      show c.val < s.core0.sent
      rw [hsent]
      exact c.isLt
    rw [if_pos hlt, hover.irq c, CoreState.handlers, hover.idle c,
      (hs.live c).2] at hcount
    rw [CoreState.written, hover.idle c]
    simpa [IsrPc.active, IsrPc.wrote] using hcount
  rw [hs.run.count, Finset.sum_congr rfl fun c _ => hwritten c]
  simp

-- ====================================================== the final loops

/-- The steps `main` of a core has before it after its rounds, at most. -/
def CoreState.final (n : Nat) (x : CoreState) : Nat :=
  match x.main with
  | .runInv => 11
  | .runLoad => if x.cache.getD n = n then 10 else 12
  | .sysExit todo => todo.length + 1
  | _ => 0

/-- With the word at its final value every step uses one up. -/
theorem MainStep.final_lt (h : MainStep cfg c ok x sh x' sh')
    (hleft : x.main.leftRounds = true)
    (hword : sh.runCount = cfg.numCores) :
    x'.final cfg.numCores < x.final cfg.numCores := by
  cases h with
  | runInv hpc =>
      simp [CoreState.final, hpc]
  | runWait hpc hne =>
      rw [hword] at hne
      simp only [CoreState.final, hpc, if_neg hne]
      omega
  | runDone hpc heq =>
      rw [hword] at heq
      simp only [CoreState.final, hpc, if_pos heq]
      by_cases hc : c = SYSINIT
      · simp only [if_pos hc, sysExit, List.length_cons, List.length_nil]
        omega
      · simp only [if_neg hc]
        omega
  | exitCall hpc | exitDone hpc =>
      simp only [CoreState.final, hpc, List.length_cons, List.length_nil]
      omega
  | cfgPoll hpc | poll hpc | hooked hpc | hookFailed hpc | cfgPass hpc
  | cfgPop hpc | cfgPopNull hpc | cfgPush hpc | send hpc | sendFailed hpc
  | signal hpc | pop hpc | popNull hpc | recycle hpc | divert hpc
  | cleanup hpc =>
      rw [hpc] at hleft
      cases hleft

/-- The interrupts stay as they are after the rounds. -/
theorem MainStep.irq_left (h : MainStep cfg c ok x sh x' sh')
    (hleft : x.main.leftRounds = true) : sh'.irq = sh.irq := by
  cases h with
  | send hpc =>
      rw [hpc] at hleft
      cases hleft
  | _ => rfl

/-- Every `main` has come to its end, and every handler has returned. -/
def AllDone (s : State cfg) : Prop :=
  ∀ c, (s.core c).main = .finished ∧ (s.core c).isr = .idle

/-- The final loops end. -/
theorem final_completes (hover : RoundsOver s)
    (hword : s.shared.runCount = cfg.numCores) :
    ∃ s', Reach apply Ordered s s' ∧ AllDone s' ∧ RoundsOver s' := by
  by_cases hdone : AllDone s
  · exact ⟨s, .init, hdone, hover⟩
  have hstart : Reach apply Ordered s s := .init
  refine hstart.leadsTo (P := fun s : State cfg => RoundsOver s
    ∧ s.shared.runCount = cfg.numCores ∧ ¬ AllDone s)
    (fun s => ∑ c, (s.core c).final cfg.numCores) ?_ ⟨hover, hword, hdone⟩
  rintro s - ⟨hover, hword, hdone⟩
  obtain ⟨c, hc⟩ : ∃ c, (s.core c).main ≠ .finished := by
    by_contra hall
    refine hdone fun c => ⟨?_, hover.idle c⟩
    by_contra hne
    exact hall ⟨c, hne⟩
  obtain ⟨⟨x, sh⟩, hr⟩ := mainStep_isSome cfg c true (s.core c) s.shared hc
    fun h => by
      have hleft := hover.left c
      rw [h] at hleft
      cases hleft
  have hm : MainStep cfg c true (s.core c) s.shared x sh := mainStep_cases hr
  have hok : Ordered s (.main c true) := by
    refine ⟨⟨rfl, fun h => ?_, fun h => ?_⟩, trivial, fun _ _ _ => ?_⟩
    · have hleft := hover.left c
      rw [h] at hleft
      cases hleft
    · have hleft := hover.left c
      rw [h] at hleft
      cases hleft
    · exact fun d _ => hover.left d
  have hover' : RoundsOver (s.put c (x, sh)) := by
    refine ⟨?_, fun d => ?_, ?_⟩
    · refine s.forall_put _ (P := fun _ y => y.isr = .idle) ?_ hover.idle
      exact hm.isr_eq.1.trans (hover.idle c)
    · show sh.irq d = []
      rw [hm.irq_left (hover.left c)]
      exact hover.irq d
    · refine s.forall_put _ (P := fun _ y => y.main.leftRounds = true) ?_
        hover.left
      exact hm.leftRounds_mono (hover.left c)
  refine ⟨.main c true, s.put c (x, sh), hok,
    (CoreStep.main (hover.idle c) hm).run, ?_⟩
  by_cases hdone' : AllDone (s.put c (x, sh))
  · exact .inl ⟨hdone', hover'⟩
  · refine .inr ⟨⟨hover', hm.runCount_eq.trans hword, hdone'⟩, ?_⟩
    have hlt := hm.final_lt (hover.left c) hword
    have hsum := sum_update (fun _ y => CoreState.final cfg.numCores y)
      s.core c x
    simp only [State.put_core]
    omega

/-- From every state that a run in order reaches, a run in order leads to
the end of every `main`. -/
theorem ordered_completes (hone : cfg.OnePass) (hfour : cfg.numCores ≤ 4)
    (hdesc : cfg.EnoughDesc) (h : Reachable cfg Ordered s) :
    ∃ s', Reach apply Ordered s s' ∧ AllDone s' ∧ RoundsOver s' := by
  obtain ⟨s₁, hrounds, hover⟩ : ∃ s₁, Reach apply Ordered s s₁
      ∧ RoundsOver s₁ := by
    by_cases hover : RoundsOver s
    · exact ⟨s, .init, hover⟩
    refine h.leadsTo (P := fun s : State cfg => ¬ RoundsOver s) remaining ?_
      hover
    intro s hr hmore
    obtain ⟨a, s', hok, happ, hlt⟩ := canGo_rounds hone
      (orderInv_reachable hone hfour hdesc hr) hmore
    refine ⟨a, s', hok, happ, ?_⟩
    by_cases hover : RoundsOver s'
    · exact .inl hover
    · exact .inr ⟨hover, hlt⟩
  have hs := orderInv_reachable hone hfour hdesc (h.trans hrounds)
  obtain ⟨s₂, hfinal, hdone⟩ := final_completes hover (hover.runCount hs)
  exact ⟨s₂, hrounds.trans hfinal, hdone⟩

-- ============================================================= the wire

/-- The end of a run: every `main` and every handler is through, the
packets of every round have arrived, the receive descriptors are back in
their free queue, and nothing is open. -/
structure Completed (tr : Traffic) (w : Wire cfg) : Prop where
  done : AllDone w.base
  arrived : ∀ c : Fin cfg.numCores, Arrived tr (w.pk.chan c)
  rxFree : (↑w.pk.rxFree : Multiset Nat) = ↑tr.rxDesc
  closed : ∀ r i, w.pk.refs r i = 0

/-- From every wire that a run in order reaches, whatever the hardware has
done so far, a run in order leads to the end. -/
theorem run_completes (hone : cfg.OnePass) (hfour : cfg.numCores ≤ 4)
    (hdesc : cfg.EnoughDesc) (henough : Enough cfg tr)
    (h : WireReachable cfg tr (Lifted Ordered) w) :
    ∃ w', Reach (wireStep tr) (Lifted Ordered) w w' ∧ Completed tr w' := by
  have hguard : @Orderly cfg Ordered := fun _ _ hok => hok.1
  obtain ⟨s, hs, hdone, hover⟩ := ordered_completes hone hfour hdesc
    (orderly_refines hone henough hguard h)
  obtain ⟨w', hrun, rfl⟩ := h.covers Wire.base (fun w hw a s hok happ =>
    follow hone hfour henough hguard hw hok happ) hs
  have hw' := h.trans hrun
  have hstep := hguard.inStep hw'
  have hcalm := calm_reachable hone hfour hstep
  have hleft : w'.base.core0.main.leftRounds = true := hover.left cfg.core0
  refine ⟨w', hrun, hdone, fun c => hcalm.arrived fun hzero => ?_,
    (rxInv_reachable hone hfour hstep).home hcalm hleft, ?_⟩
  · -- every round is sent, and its interrupt is taken
    have hcount := hcalm.irq.count c
    have hpassed := (hcalm.irq.main cfg.core0).passed_of_left hleft
    have hlt : c.val < (w'.base.core cfg.core0).sent := by
      rcases CoreState.sent_cases (w'.base.core cfg.core0) with hs | ⟨-, hs⟩
      · rw [hs, hpassed]
        exact c.isLt
      · rw [hs, hpassed]
        exact Nat.lt_succ_of_lt c.isLt
    rw [if_pos hlt, hover.irq c, hzero] at hcount
    cases hcount
  · refine (balanced_reachable (hw'.mono fun v a hok => ?_)).closed hleft
    cases a with
    | main c ok => exact fun _ => (hok _ rfl).1.1
    | irq | isr | txDma | rxDma | acc => trivial

/-- On the board, from the wire that has just sent round 0. -/
theorem run_completes_board :
    ∃ w, WireReachable board boardTraffic (Lifted Ordered) w
      ∧ (w.base.core board.core0).main = .syncWait
      ∧ ∃ w', Reach (wireStep boardTraffic) (Lifted Ordered) w w'
        ∧ Completed boardTraffic w' := by
  obtain ⟨w, hw, hpc⟩ : ∃ w,
      WireReachable board boardTraffic (Lifted Ordered) w
        ∧ (w.base.core board.core0).main = .syncWait :=
    exists_reach_of_runOk (wireBoot ++ wireSend) (by decide +kernel)
  have hone : board.OnePass := rfl
  have hfour : board.numCores ≤ 4 := by decide
  exact ⟨w, hw, hpc,
    run_completes hone hfour board_enoughDesc board_enough hw⟩

end DspCodes.Infra
