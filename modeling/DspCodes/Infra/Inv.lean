/-
The invariants every guarantee of the multi-core example rests on, for
one outer pass (`NUM_ITERATION = NUMBER_OF_CORES`, what the source
writes). They hold of every reachable state, under any schedule and any
driver result.

- `MainOk` (per core): the control point of `main` agrees with the round
  counter and with the number of sync waits left, and the branches on
  `coreNum` keep core 0's points on core 0.
- `IsrOk` (per core): a running handler serves its own core's channel
  and its sync loop is inside its bounds.
- `IrqInv`: round `r` has exactly one interrupt once core 0 has sent it —
  outstanding, being handled, or handled — and none before. This is the
  ledger that bounds how often a handler runs.
-/
import DspCodes.Infra.Step

namespace DspCodes.Infra

open Lts

variable {cfg : Config} {ok : Bool} {c : Nat} {x x' : CoreState}
  {sh sh' : Shared}

-- ===================================================== the main loops

/-- The control point of `main`, its round counter and its history agree
(one outer pass). -/
def MainOk (cfg : Config) (c : Nat) (x : CoreState) : Prop :=
  match x.main with
  | .hookup => x.channel = 0 ∧ x.took = []
  | .cfgWait => c = SYSINIT ∧ x.channel = 0 ∧ x.took = []
  | .cfgPop | .cfgPush _ => c ≠ SYSINIT ∧ x.channel = 0 ∧ x.took = []
  | .send => c = SYSINIT ∧ x.channel = 0 ∧ x.index < cfg.numCores
      ∧ x.took.length = x.index
  | .syncWait | .syncPop => x.channel = 0 ∧ x.index < cfg.numCores
      ∧ x.took.length = x.index
  | .syncRecycle _ => x.channel = 0 ∧ x.index < cfg.numCores
      ∧ x.took.length = x.index + 1
  | .divert | .cleanup => c = SYSINIT ∧ x.channel = 0
      ∧ x.index < cfg.numCores ∧ x.took.length = x.index + 1
  | .runInv | .runLoad | .finished => x.took.length = cfg.numCores
  | .sysExit _ => c = SYSINIT ∧ x.took.length = cfg.numCores
  | .returned => x.took.length < cfg.numCores

/-- `main` has left its rounds. -/
def MainPc.leftRounds : MainPc → Bool
  | .runInv | .runLoad | .sysExit _ | .finished => true
  | _ => false

/-- The head of the inner loop lands on a consistent point. -/
theorem roundHead_mainOk (hone : cfg.OnePass) {c : Nat} {x : CoreState}
    (hch : x.channel = 0) (hlt : x.index ≤ cfg.numCores)
    (hlen : x.took.length = x.index) : MainOk cfg c (roundHead cfg c x) := by
  unfold Config.OnePass at hone
  unfold roundHead
  by_cases hin : x.index < cfg.numCores
  · rw [if_pos hin]
    by_cases hc : c = SYSINIT
    · simp only [if_pos hc, MainOk]
      exact ⟨hc, hch, hin, hlen⟩
    · simp only [if_neg hc, MainOk]
      exact ⟨hch, hin, hlen⟩
  · rw [if_neg hin, if_neg (by omega)]
    simp only [MainOk]
    omega

/-- What follows a sync wait lands on a consistent point. -/
theorem afterSync_mainOk (hone : cfg.OnePass) {c : Nat} {x : CoreState}
    (hch : x.channel = 0) (hlt : x.index < cfg.numCores)
    (hlen : x.took.length = x.index + 1) :
    MainOk cfg c (afterSync cfg c x) := by
  unfold afterSync
  by_cases hc : c = SYSINIT
  · simp only [if_pos hc, MainOk]
    exact ⟨hc, hch, hlt, hlen⟩
  · rw [if_neg hc]
    exact roundHead_mainOk hone hch hlt hlen

/-- Every step of `main` keeps the agreement. -/
theorem MainStep.mainOk (hone : cfg.OnePass) (h : MainStep cfg c ok x sh x' sh')
    (hx : MainOk cfg c x) : MainOk cfg c x' := by
  have hpos := cfg.pos
  cases h with
  | hooked hpc =>
      simp only [MainOk, hpc] at hx
      by_cases hc : c = SYSINIT
      · simp only [MainOk, if_pos hc]
        exact ⟨hc, hx⟩
      · simp only [MainOk, if_neg hc]
        exact ⟨hc, hx⟩
  | hookFailed hpc =>
      simp only [MainOk, hpc] at hx
      simp [MainOk, hx.2, hpos]
  | cfgPoll | poll => exact hx
  | cfgPass hpc | cfgPopNull hpc | cfgPush hpc =>
      simp only [MainOk, hpc] at hx
      exact roundHead_mainOk hone hx.2.1 (Nat.zero_le _) (by simp [hx.2.2])
  | cfgPop hpc => simpa only [MainOk, hpc] using hx
  | send hpc =>
      simp only [MainOk, hpc] at hx
      exact hx.2
  | sendFailed hpc =>
      simp only [MainOk, hpc] at hx
      simp only [MainOk]
      omega
  | signal hpc => simpa only [MainOk, hpc] using hx
  | pop hpc =>
      simp only [MainOk, hpc] at hx
      simp only [MainOk, List.length_append, List.length_singleton]
      exact ⟨hx.1, hx.2.1, by rw [hx.2.2]⟩
  | popNull hpc =>
      simp only [MainOk, hpc] at hx
      exact afterSync_mainOk hone hx.1 hx.2.1 (by simp [hx.2.2])
  | recycle hpc =>
      simp only [MainOk, hpc] at hx
      exact afterSync_mainOk hone hx.1 hx.2.1 hx.2.2
  | divert hpc => simpa only [MainOk, hpc] using hx
  | cleanup hpc =>
      simp only [MainOk, hpc] at hx
      exact roundHead_mainOk hone hx.2.1 hx.2.2.1 hx.2.2.2
  | runInv hpc | runWait hpc => simpa only [MainOk, hpc] using hx
  | runDone hpc =>
      simp only [MainOk, hpc] at hx
      by_cases hc : c = SYSINIT
      · simp only [MainOk, if_pos hc]
        exact ⟨hc, hx⟩
      · simpa only [MainOk, if_neg hc] using hx
  | exitCall hpc => simpa only [MainOk, hpc] using hx
  | exitDone hpc =>
      simp only [MainOk, hpc] at hx
      exact hx.2

/-- A core never leaves more than `NUMBER_OF_CORES` sync waits. -/
theorem MainOk.passed_le {c : Nat} {x : CoreState} (h : MainOk cfg c x) :
    x.passed ≤ cfg.numCores := by
  unfold CoreState.passed
  cases hpc : x.main <;> simp only [MainOk, hpc] at h <;>
    first
      | omega
      | simp [h]

/-- A step of `main` leaves the handler of its core alone. -/
theorem MainStep.isr_eq (h : MainStep cfg c ok x sh x' sh') :
    x'.isr = x.isr ∧ x'.served = x.served ∧ x'.aborted = x.aborted := by
  cases h <;> simp

-- ====================================================== the handlers

/-- The handler of core `c` serves channel `c` and its sync loop is in
bounds. -/
def IsrOk (cfg : Config) (c : Nat) (x : CoreState) : Prop :=
  match x.isr with
  | .idle => True
  | .syncPop ch i | .syncPush ch i _ => ch = c ∧ i < cfg.numCores
  | .recycleRx ch | .disableAcc ch | .runInv ch | .runLoad ch
  | .runStore ch _ | .runWb ch | .ret ch => ch = c

theorem isrLoop_ok {c ch i : Nat} {x : CoreState} (hch : ch = c) :
    IsrOk cfg c { x with isr := isrLoop cfg ch i } := by
  unfold isrLoop
  by_cases hi : i < cfg.numCores
  · simp only [if_pos hi, IsrOk]
    exact ⟨hch, hi⟩
  · simpa only [if_neg hi, IsrOk] using hch

/-- Every step of the handler keeps it on its channel. -/
theorem IsrStep.isrOk (h : IsrStep cfg ok x sh x' sh')
    (hx : IsrOk cfg c x) : IsrOk cfg c x' := by
  cases h with
  | recycleRx hpc | runInv hpc | runLoad hpc | runStore hpc | runWb hpc =>
      simpa only [IsrOk, hpc] using hx
  | disable hpc =>
      simp only [IsrOk, hpc] at hx
      exact isrLoop_ok hx
  | disableFailed | ret => trivial
  | pop hpc => simpa only [IsrOk, hpc] using hx
  | popNull hpc | push hpc =>
      simp only [IsrOk, hpc] at hx
      exact isrLoop_ok hx.1

/-- One while a handler runs. -/
def IsrPc.active : IsrPc → Nat
  | .idle => 0
  | _ => 1

/-- The handlers of a core: running, ended, and given up. -/
def CoreState.handlers (x : CoreState) : Nat :=
  x.isr.active + x.served + x.aborted

@[simp] theorem isrLoop_active (ch i : Nat) :
    (isrLoop cfg ch i).active = 1 := by
  unfold isrLoop
  split_ifs <;> rfl

/-- A handler's step starts no handler and forgets none. -/
theorem IsrStep.handlers_eq (h : IsrStep cfg ok x sh x' sh') :
    x'.handlers = x.handlers := by
  unfold CoreState.handlers
  cases h with
  | disableFailed hpc | ret hpc =>
      simp only [hpc, IsrPc.active]
      omega
  | disable hpc | popNull hpc | push hpc =>
      show (isrLoop cfg _ _).active + _ + _ = _
      rw [isrLoop_active, hpc]
      rfl
  | recycleRx hpc | pop hpc | runInv hpc | runLoad hpc | runStore hpc
  | runWb hpc => simp only [hpc, IsrPc.active]

/-- Only a running handler steps. -/
theorem IsrStep.running (h : IsrStep cfg ok x sh x' sh') :
    x.isr ≠ .idle := by
  intro hidle
  cases h <;> simp_all

/-- A handler's step leaves `main` of its core and the interrupts alone. -/
theorem IsrStep.main_eq (h : IsrStep cfg ok x sh x' sh') :
    (x'.main = x.main ∧ x'.channel = x.channel ∧ x'.index = x.index
      ∧ x'.took = x.took) ∧ sh'.irq = sh.irq := by
  cases h <;> simp

/-- `MainOk` reads the fields of `main` only. -/
theorem MainOk.congr {c : Nat} {x x' : CoreState}
    (heq : x'.main = x.main ∧ x'.channel = x.channel ∧ x'.index = x.index
      ∧ x'.took = x.took) (h : MainOk cfg c x) : MainOk cfg c x' := by
  obtain ⟨hm, hch, hi, ht⟩ := heq
  unfold MainOk at h ⊢
  rw [hm, hch, hi, ht]
  exact h

theorem sent_congr {x x' : CoreState} (hm : x'.main = x.main)
    (ht : x'.took = x.took) : x'.sent = x.sent := by
  unfold CoreState.sent
  rw [hm, ht]

-- ============================================== one interrupt per round

theorem roundHead_sent (x : CoreState) :
    (roundHead cfg SYSINIT x).sent = x.took.length := by
  unfold roundHead CoreState.sent
  rw [if_pos rfl]
  split_ifs <;> rfl

theorem afterSync_sent (x : CoreState) :
    (afterSync cfg SYSINIT x).sent = x.took.length := by
  unfold afterSync CoreState.sent
  rw [if_pos rfl]

/-- On core 0 a step either sends the next round, to the core of its
number, or raises no interrupt and leaves the number of rounds sent. -/
theorem MainStep.irq_core0 (h : MainStep cfg SYSINIT ok x sh x' sh')
    (hx : MainOk cfg SYSINIT x) :
    (sh'.irq = sh.irq ∧ x'.sent = x.sent)
      ∨ (x.main = .send ∧ sh' = sh.raise x.sent x.sent
          ∧ x'.sent = x.sent + 1 ∧ x.sent < cfg.numCores) := by
  cases h with
  | send hpc =>
      simp only [MainOk, hpc] at hx
      have hs : x.sent = x.index := by
        simp only [CoreState.sent, hpc]
        exact hx.2.2.2
      refine .inr ⟨hpc, ?_, ?_, ?_⟩
      · rw [hs, hx.2.1, Nat.zero_add]
      · simp only [CoreState.sent, hpc]
      · omega
  | cfgPass hpc | cfgPopNull hpc | cfgPush hpc | cleanup hpc =>
      refine .inl ⟨rfl, ?_⟩
      rw [roundHead_sent]
      simp only [CoreState.sent, hpc]
  | popNull hpc =>
      refine .inl ⟨rfl, ?_⟩
      rw [afterSync_sent]
      simp [CoreState.sent, hpc]
  | recycle hpc =>
      refine .inl ⟨rfl, ?_⟩
      rw [afterSync_sent]
      simp only [CoreState.sent, hpc]
  | pop hpc => exact .inl ⟨rfl, by simp [CoreState.sent, hpc]⟩
  | cfgPoll | poll => exact .inl ⟨rfl, rfl⟩
  | hooked hpc | hookFailed hpc | cfgPop hpc | sendFailed hpc | signal hpc
  | divert hpc | runInv hpc | runWait hpc | runDone hpc | exitCall hpc
  | exitDone hpc => exact .inl ⟨rfl, by simp [CoreState.sent, hpc]⟩

/-- Only core 0 sends. -/
theorem MainStep.irq_other (h : MainStep cfg c ok x sh x' sh') (hx : MainOk cfg c x)
    (hc : c ≠ SYSINIT) : sh'.irq = sh.irq := by
  cases h with
  | send hpc =>
      simp only [MainOk, hpc] at hx
      exact absurd hx.1 hc
  | _ => rfl

/-- The control invariant: every core is consistent, and each round that
core 0 has sent has exactly one interrupt. -/
structure IrqInv (s : State cfg) : Prop where
  main : ∀ c : Fin cfg.numCores, MainOk cfg c (s.core c)
  isr : ∀ c : Fin cfg.numCores, IsrOk cfg c (s.core c)
  irq : ∀ c : Fin cfg.numCores, ∀ ch ∈ s.shared.irq c, ch = c
  count : ∀ c : Fin cfg.numCores,
    (s.shared.irq c).length + (s.core c).handlers
      = if c.val < (s.core cfg.core0).sent then 1 else 0

theorem irqInv_init (hone : cfg.OnePass) : IrqInv (init cfg) := by
  have hpos : 0 < cfg.numIteration := hone ▸ cfg.pos
  refine ⟨fun c => ?_, fun c => trivial, fun c ch h => ?_, fun c => ?_⟩
  · simp [init, initCore, MainOk, hpos]
  · simp [init, initShared] at h
  · simp [init, initCore, initShared, CoreState.handlers, CoreState.sent,
      IsrPc.active, hpos]

/-- Replacing one core keeps what its new state satisfies. -/
theorem State.forall_put (s : State cfg) {c : Fin cfg.numCores}
    (r : CoreState × Shared) {P : Fin cfg.numCores → CoreState → Prop}
    (hc : P c r.1) (h : ∀ d, P d (s.core d)) :
    ∀ d, P d ((s.put c r).core d) :=
  (Function.forall_update_iff s.core P).mpr ⟨hc, fun d _ => h d⟩

/-- Replacing one core by one that reads the same keeps what every core
reads. -/
theorem State.put_read {β : Type _} (f : CoreState → β) (s : State cfg)
    {c : Fin cfg.numCores} (r : CoreState × Shared)
    (hc : f r.1 = f (s.core c)) :
    ∀ d, f ((s.put c r).core d) = f (s.core d) :=
  s.forall_put r (P := fun d x => f x = f (s.core d)) hc fun _ => rfl

/-- Core 0's next round moves its count by one: the round's number is
the core the interrupt goes to. -/
theorem irqInv_send {s s' : State cfg} (hs : IrqInv s)
    (hmain : ∀ c : Fin cfg.numCores, MainOk cfg c (s'.core c))
    (hisr : ∀ c : Fin cfg.numCores, IsrOk cfg c (s'.core c))
    (hhand : ∀ c, (s'.core c).handlers = (s.core c).handlers)
    (hsh : s'.shared.irq = (s.shared.raise (s.core cfg.core0).sent
      (s.core cfg.core0).sent).irq)
    (hsent : (s'.core cfg.core0).sent = (s.core cfg.core0).sent + 1) :
    IrqInv s' := by
  refine ⟨hmain, hisr, fun d ch hch => ?_, fun d => ?_⟩
  · rw [hsh, Shared.raise_irq] at hch
    by_cases hd : (d : Nat) = (s.core cfg.core0).sent
    · rw [hd, Function.update_self, List.mem_append, List.mem_singleton] at hch
      rcases hch with hch | hch
      · exact hs.irq d ch (by rwa [hd])
      · rw [hch, hd]
    · rw [Function.update_of_ne hd] at hch
      exact hs.irq d ch hch
  · have hcount := hs.count d
    rw [hhand d, hsh, hsent, Shared.raise_irq]
    by_cases hd : (d : Nat) = (s.core cfg.core0).sent
    · rw [if_neg (by omega)] at hcount
      rw [← hd, Function.update_self, List.length_append,
        List.length_singleton, if_pos (by omega)]
      omega
    · rw [Function.update_of_ne hd, hcount]
      by_cases hlt : (d : Nat) < (s.core cfg.core0).sent
      · rw [if_pos hlt, if_pos (by omega)]
      · rw [if_neg hlt, if_neg (by omega)]

/-- The control invariant survives every step. -/
theorem irqInv_step (hone : cfg.OnePass) {s s' : State cfg}
    {a : Action cfg.numCores} (hs : IrqInv s) (h : apply a s = some s') :
    IrqInv s' := by
  obtain ⟨c, x, sh, rfl, hstep⟩ := apply_cases h
  cases hstep with
  | main hidle hm =>
      obtain ⟨hisr, hserved, haborted⟩ := hm.isr_eq
      have hmain' := s.forall_put (x, sh)
        (hm.mainOk hone (hs.main c)) hs.main
      have hisrc : IsrOk cfg c x := by simpa only [IsrOk, hisr] using hs.isr c
      have hisr' := s.forall_put (x, sh) hisrc hs.isr
      have hhand := s.put_read CoreState.handlers (x, sh)
        (show x.handlers = (s.core c).handlers by
          simp only [CoreState.handlers, hisr, hserved, haborted])
      by_cases hc : c = cfg.core0
      · subst hc
        rcases hm.irq_core0 (hs.main cfg.core0) with
          ⟨hirq, hsent⟩ | ⟨-, hsh, hsent, -⟩
        · have hsent' := s.put_read CoreState.sent (x, sh) hsent
          refine ⟨hmain', hisr', by simpa only [State.put_shared, hirq]
            using hs.irq, fun d => ?_⟩
          rw [hhand d, hsent', State.put_shared, hirq]
          exact hs.count d
        · refine irqInv_send hs hmain' hisr' hhand (by rw [← hsh]; rfl) ?_
          rw [State.put_core, Function.update_self]
          exact hsent
      · have hirq := hm.irq_other (hs.main c) (fun h => hc (Fin.ext h))
        refine ⟨hmain', hisr', by simpa only [State.put_shared, hirq]
          using hs.irq, fun d => ?_⟩
        rw [hhand d, State.put_core, Function.update_of_ne (Ne.symm hc),
          State.put_shared, hirq]
        exact hs.count d
  | @irq ch rest hidle hirq =>
      have hch : ch = c :=
        hs.irq c ch (by rw [hirq]; exact List.mem_cons_self)
      refine ⟨s.forall_put _ (hs.main c) hs.main,
        s.forall_put _ hch hs.isr, fun d ch' hch' => ?_, fun d => ?_⟩
      · simp only [State.put_shared] at hch'
        by_cases hd : (d : Nat) = c
        · rw [hd, Function.update_self] at hch'
          rw [hd]
          exact hs.irq c ch' (by rw [hirq]; exact List.mem_cons_of_mem _ hch')
        · rw [Function.update_of_ne hd] at hch'
          exact hs.irq d ch' hch'
      · rw [s.put_read CoreState.sent _ (sent_congr rfl rfl), ← hs.count d]
        by_cases hd : d = c
        · subst hd
          simp only [State.put_shared, State.put_core, Function.update_self,
            hirq, List.length_cons, CoreState.handlers, hidle, IsrPc.active]
          omega
        · have hd' : (d : Nat) ≠ c := fun h => hd (Fin.ext h)
          simp [Function.update_of_ne hd, Function.update_of_ne hd']
  | isr hi =>
      obtain ⟨hmain, hirq⟩ := hi.main_eq
      refine ⟨s.forall_put _ ((hs.main c).congr hmain) hs.main,
        s.forall_put _ (hi.isrOk (hs.isr c)) hs.isr,
        by simpa only [State.put_shared, hirq] using hs.irq, fun d => ?_⟩
      rw [s.put_read CoreState.sent _ (sent_congr hmain.1 hmain.2.2.2),
        s.put_read CoreState.handlers _ hi.handlers_eq, State.put_shared,
        hirq]
      exact hs.count d

/-- The control invariant holds in every reachable state. -/
theorem irqInv_reachable (hone : cfg.OnePass)
    {ok : State cfg → Action cfg.numCores → Prop} {s : State cfg}
    (h : Reachable cfg ok s) : IrqInv s :=
  h.invariant (irqInv_init hone) fun _ _ _ hs _ happ =>
    irqInv_step hone hs happ

/-- The number of rounds sent moves only at core 0's send, by one. -/
theorem sent_cases {s s' : State cfg} {a : Action cfg.numCores}
    (hs : IrqInv s) (h : apply a s = some s') :
    (s'.core cfg.core0).sent = (s.core cfg.core0).sent
      ∨ ((∃ ok, a = .main cfg.core0 ok)
          ∧ (s.core cfg.core0).main = .send
          ∧ (s'.core cfg.core0).sent = (s.core cfg.core0).sent + 1) := by
  obtain ⟨c, x, sh, rfl, hstep⟩ := apply_cases h
  by_cases hc : c = cfg.core0
  · subst hc
    rw [State.put_core, Function.update_self]
    cases hstep with
    | @main ok _ _ hidle hm =>
        rcases hm.irq_core0 (hs.main cfg.core0) with
          ⟨-, hsent⟩ | ⟨hpc, -, hsent, -⟩
        · exact .inl hsent
        · exact .inr ⟨⟨ok, rfl⟩, hpc, hsent⟩
    | irq => exact .inl (sent_congr rfl rfl)
    | isr hi => exact .inl (sent_congr hi.main_eq.1.1 hi.main_eq.1.2.2.2)
  · rw [State.put_core, Function.update_of_ne (Ne.symm hc)]
    exact .inl rfl

/-- A core whose handler runs serves a round that core 0 has sent. -/
theorem IrqInv.sent_of_running {s : State cfg} (hs : IrqInv s)
    {c : Fin cfg.numCores} (hrun : (s.core c).isr ≠ .idle) :
    c.val < (s.core cfg.core0).sent := by
  have hcount := hs.count c
  have hactive : (s.core c).isr.active = 1 := by
    cases hpc : (s.core c).isr with
    | idle => exact absurd hpc hrun
    | _ => rfl
  by_contra hnot
  rw [if_neg hnot, CoreState.handlers] at hcount
  omega

/-- A core has handled at most one round. -/
theorem IrqInv.handlers_le {s : State cfg} (hs : IrqInv s)
    (c : Fin cfg.numCores) : (s.core c).handlers ≤ 1 := by
  have h := hs.count c
  split_ifs at h <;> omega

end DspCodes.Infra
