/-
The queue handles of a consumer core: what `getsysHandles` opens, and
what `main` and `hiPrioInterruptHandler` use afterwards.

# What is modelled

`getsysHandles` after its waiting loop: `Qmss_start`, then six
`Qmss_queueOpen` calls, each assigned to its global handle before it is
tested. A failure prints and returns; the function is `Void`, so `main`
goes on either way.

The core then runs `mainStep` and `isrStep` of the model, in an
environment that may change whatever the cores share before each of its
steps (`consumerStep`). That covers every interleaving with the other
cores, and whatever an operation on an unopened handle may return. An
interrupt comes only once `registerHiInterrupt` has bound the handler.

# What goes wrong

Core 0 returns when `sysInit` fails; a consumer has no such test. One
failed open is enough for an unopened handle to be used
(`usesOpened_iff`), unless the core never gets as far as a queue.
-/
import Mathlib.Data.List.TakeWhile
import DspCodes.Infra.CfgBarrier

namespace DspCodes.Infra

open Lts

variable {cfg : Config} {ok : Bool}

-- ====================================================== `getsysHandles`

/-- The queues that `getsysHandles` opens. -/
inductive QueueHnd
  | rxFree | txFree | txCmpl | sync | syncFree | syncCfg
  deriving DecidableEq, Repr

/-- They are opened in this order. -/
def QueueHnd.all : List QueueHnd :=
  [.rxFree, .txFree, .txCmpl, .sync, .syncFree, .syncCfg]

/-- The global handles, and the handles that successful opens have
returned. -/
structure Handles where
  hnd : QueueHnd → Int
  opened : List (QueueHnd × Int)

/-- The opens from some point on; a negative handle is an error. -/
def openQueues (result : QueueHnd → Int) :
    List QueueHnd → Handles → Handles
  | [], h => h
  | q :: rest, h =>
      let hnd := Function.update h.hnd q (result q)
      if result q < 0 then { h with hnd := hnd }
      else openQueues result rest ⟨hnd, h.opened ++ [(q, result q)]⟩

/-- `getsysHandles`: `start` is the result of `Qmss_start`, `result` those
of the opens. `QMSS_SOK` is 0, and so are the handles before. -/
def getsysHandles (start : Int) (result : QueueHnd → Int) : Handles :=
  if start ≠ 0 then ⟨fun _ => 0, []⟩
  else openQueues result QueueHnd.all ⟨fun _ => 0, []⟩

-- ============================================================= the uses

/-- The handles that the next call of `main` works on. -/
def MainPc.uses : MainPc → List QueueHnd
  | .cfgWait | .cfgPush _ => [.syncCfg]
  | .cfgPop | .syncRecycle _ => [.syncFree]
  | .syncWait | .syncPop => [.sync]
  | .divert => [.txCmpl, .txFree]
  | _ => []

/-- The handles that the next call of the handler works on. -/
def IsrPc.uses : IsrPc → List QueueHnd
  | .recycleRx _ => [.rxFree]
  | .syncPop _ _ => [.syncFree]
  | .syncPush _ _ _ => [.sync]
  | _ => []

/-- A consumer core, whether its handler is bound, and the handles it has
used. -/
structure Consumer where
  core : CoreState
  bound : Bool
  used : List QueueHnd

/-- A step of the core in an environment that has left `sh`. -/
inductive ConsumerMove
  | main (ok : Bool) (sh : Shared)
  | irq (channel : Nat)
  | isr (ok : Bool) (sh : Shared)

/-- The core after `getsysHandles`. -/
def startConsumer (cfg : Config) (coreNum : Nat) : Consumer :=
  ⟨initCore cfg coreNum, false, []⟩

/-- The transition function. -/
def consumerStep (cfg : Config) (coreNum : Nat) (a : ConsumerMove)
    (x : Consumer) : Option Consumer :=
  match a with
  | .main ok sh =>
      if x.core.isr = .idle then
        (mainStep cfg coreNum ok x.core sh).map fun r =>
          { core := r.1
            bound := x.bound
              || decide (x.core.main = .hookup ∧ r.1.main ≠ .returned)
            used := x.used ++ x.core.main.uses }
      else none
  | .irq channel =>
      if x.core.isr = .idle ∧ x.bound = true then
        some { x with core := { x.core with isr := .recycleRx channel } }
      else none
  | .isr ok sh =>
      (isrStep cfg ok x.core sh).map fun r =>
        { x with core := r.1, used := x.used ++ x.core.isr.uses }

/-- Every handle used was returned by a successful open. -/
def Consumer.UsesOpened (h : Handles) (x : Consumer) : Prop :=
  ∀ q ∈ x.used, (q, h.hnd q) ∈ h.opened

-- ========================================================= what is opened

/-- The queues opened are those before the first failure. -/
def okQueues (result : QueueHnd → Int) (queues : List QueueHnd) :
    List QueueHnd :=
  queues.takeWhile fun q => 0 ≤ result q

variable {result : QueueHnd → Int} {start : Int} {q : QueueHnd}

theorem openQueues_opened : ∀ (queues : List QueueHnd) (h : Handles),
    (openQueues result queues h).opened
      = h.opened ++ (okQueues result queues).map fun q => (q, result q) := by
  intro queues
  induction queues with
  | nil => exact fun h => (List.append_nil _).symm
  | cons p queues ih =>
      intro h
      unfold openQueues okQueues
      by_cases hp : result p < 0
      · rw [List.takeWhile_cons_of_neg (by simpa using hp)]
        simp only [hp, if_true, List.map_nil, List.append_nil]
      · rw [List.takeWhile_cons_of_pos (by simpa using hp)]
        simp only [hp, if_false, ih, List.map_cons, List.append_assoc,
          List.singleton_append]
        rfl

/-- A handle keeps the result of its open. -/
theorem openQueues_keep : ∀ (queues : List QueueHnd) (h : Handles),
    h.hnd q = result q → (openQueues result queues h).hnd q = result q := by
  intro queues
  induction queues with
  | nil => exact fun _ hq => hq
  | cons p queues ih =>
      intro h hq
      have hset : Function.update h.hnd p (result p) q = result q := by
        by_cases hqp : q = p
        · rw [hqp, Function.update_self]
        · rw [Function.update_of_ne hqp, hq]
      unfold openQueues
      by_cases hp : result p < 0
      · simp only [hp, if_true]
        exact hset
      · simp only [hp, if_false]
        exact ih _ hset

theorem openQueues_hnd : ∀ (queues : List QueueHnd) (h : Handles),
    q ∈ okQueues result queues →
    (openQueues result queues h).hnd q = result q := by
  intro queues
  induction queues with
  | nil => exact fun _ hq => absurd hq List.not_mem_nil
  | cons p queues ih =>
      intro h hq
      unfold okQueues at hq
      by_cases hp : result p < 0
      · rw [List.takeWhile_cons_of_neg (by simpa using hp)] at hq
        exact absurd hq List.not_mem_nil
      · rw [List.takeWhile_cons_of_pos (by simpa using hp)] at hq
        unfold openQueues
        simp only [hp, if_false]
        rcases List.mem_cons.mp hq with rfl | hq
        · exact openQueues_keep _ _ (Function.update_self ..)
        · exact ih _ hq

/-- A handle comes from a successful open exactly when `Qmss_start` and the
opens up to its own succeed. -/
theorem mem_opened_iff :
    (q, (getsysHandles start result).hnd q)
        ∈ (getsysHandles start result).opened
      ↔ start = 0 ∧ q ∈ okQueues result QueueHnd.all := by
  unfold getsysHandles
  by_cases hstart : start = 0
  · simp only [hstart, ne_eq, not_true_eq_false, if_false, true_and,
      openQueues_opened, List.nil_append]
    constructor
    · intro h
      obtain ⟨p, hp, heq⟩ := List.mem_map.mp h
      obtain ⟨rfl, -⟩ := Prod.mk.inj heq
      exact hp
    · intro h
      rw [openQueues_hnd _ _ h]
      exact List.mem_map.mpr ⟨q, h, rfl⟩
  · simp only [hstart, ne_eq, not_false_eq_true, if_true, false_and,
      List.not_mem_nil]

/-- All of them succeed when the last one is opened. -/
theorem okQueues_last (h : .syncCfg ∈ okQueues result QueueHnd.all)
    (q : QueueHnd) : 0 ≤ result q := by
  have hall : okQueues result QueueHnd.all = QueueHnd.all := by
    unfold okQueues QueueHnd.all at h ⊢
    simp only [List.takeWhile_cons] at h ⊢
    split_ifs at h ⊢ <;> simp_all
  have hq : q ∈ okQueues result QueueHnd.all := by
    rw [hall]
    cases q <;> decide
  simpa using List.mem_takeWhile_imp hq

theorem okQueues_all (h : ∀ q, 0 ≤ result q) (q : QueueHnd) :
    q ∈ okQueues result QueueHnd.all := by
  unfold okQueues
  rw [List.takeWhile_eq_self_iff.mpr fun p _ => by simpa using h p]
  cases q <;> decide

-- ============================================================== the runs

/-- A core that touches no queue. -/
structure NoQueue (coreNum : Nat) (x : Consumer) : Prop where
  main : match x.core.main with
    | .hookup => 4 ≤ coreNum
    | .returned | .runInv | .runLoad | .finished => True
    | _ => False
  isr : x.core.isr = .idle
  bound : x.bound = false
  used : x.used = []

theorem NoQueue.init {coreNum : Nat}
    (h : cfg.numIteration = 0 ∨ 4 ≤ coreNum) :
    NoQueue coreNum (startConsumer cfg coreNum) where
  main := by
    unfold startConsumer initCore
    by_cases hiter : 0 < cfg.numIteration
    · simp only [if_pos hiter]
      exact h.resolve_left (Nat.ne_of_gt hiter)
    · simp only [if_neg hiter]
  isr := rfl
  bound := rfl
  used := rfl

/-- A core from 4 on, and every core of a build without a pass, stays away
from the queues. -/
theorem NoQueue.step {coreNum : BitVec 32} (hc : coreNum.toNat ≠ SYSINIT)
    {x x' : Consumer} {a : ConsumerMove} (hx : NoQueue coreNum.toNat x)
    (h : consumerStep cfg coreNum.toNat a x = some x') :
    NoQueue coreNum.toNat x' := by
  obtain ⟨hmain, hisr, hbound, hused⟩ := hx
  cases a with
  | irq channel =>
      simp [consumerStep, hbound] at h
  | isr ok sh =>
      simp [consumerStep, isrStep, hisr] at h
  | main ok sh =>
      simp only [consumerStep, hisr, if_true] at h
      obtain ⟨⟨y, sh'⟩, hr, rfl⟩ := Option.map_eq_some_iff.mp h
      have hstep : MainStep cfg coreNum.toNat ok x.core sh y sh' :=
        mainStep_cases hr
      have huses : x.core.main.uses = [] := by
        cases hpc : x.core.main <;> simp [hpc] at hmain <;> rfl
      have hrefused : x.core.main = .hookup → y.main = .returned := by
        intro hpc
        rw [hpc] at hmain
        cases hstep with
        | hooked _ hreg =>
            rw [BitVec.ofNat_toNat, BitVec.setWidth_eq,
              registerHiInterrupt_ge _ _ _ _ hmain] at hreg
            cases hreg
        | hookFailed => rfl
        | _ => simp_all
      refine ⟨?_, hstep.isr_eq.1.trans hisr, ?_, ?_⟩
      · cases hstep with
        | hooked hpc =>
            have hret := hrefused hpc
            rw [if_neg hc] at hret
            cases hret
        | hookFailed | runInv | runWait => exact trivial
        | runDone => simp only [if_neg hc]
        | _ => simp_all
      · show (x.bound || decide _) = false
        rw [hbound, decide_eq_false fun hreg => hreg.2 (hrefused hreg.1)]
        rfl
      · show x.used ++ x.core.main.uses = []
        rw [hused, huses]
        rfl

theorem noQueue_reachable {coreNum : BitVec 32}
    (hc : coreNum.toNat ≠ SYSINIT)
    (h : cfg.numIteration = 0 ∨ 4 ≤ coreNum.toNat) {x : Consumer}
    (hx : Reach (consumerStep cfg coreNum.toNat) anyStep
      (startConsumer cfg coreNum.toNat) x) : NoQueue coreNum.toNat x :=
  hx.invariant' (NoQueue.init h) fun _ _ _ _ hs _ happ => hs.step hc happ

/-- A step of `main` is a step of the consumer. -/
theorem MainStep.consumer {c : Nat} {x y : CoreState} {sh sh' : Shared}
    (h : MainStep cfg c ok x sh y sh') (hidle : x.isr = .idle)
    (bound : Bool) (used : List QueueHnd) :
    consumerStep cfg c (.main ok sh) ⟨x, bound, used⟩ = some
      ⟨y, bound || decide (x.main = .hookup ∧ y.main ≠ .returned),
        used ++ x.main.uses⟩ := by
  simp only [consumerStep, hidle, if_true, h.run, Option.map_some]

/-- A core from 1 to 3 that finds a descriptor in the sync-free queue gets
to the sync-cfg queue. -/
theorem uses_syncCfg (cfg : Config) {c : Nat} (hc : c ≠ SYSINIT) (hlt : c < 4)
    (hiter : 0 < cfg.numIteration) :
    ∃ x, Reach (consumerStep cfg c) anyStep (startConsumer cfg c) x
      ∧ .syncCfg ∈ x.used := by
  let x := initCore cfg c
  let sh : Shared := { initShared cfg with syncFree := [0] }
  have hpc : x.main = .hookup := if_pos hiter
  have hreg : registerHiInterrupt cfg.base true true (BitVec.ofNat 32 c)
      (cfg.base + BitVec.ofNat 32 x.channel + BitVec.ofNat 32 c)
        = some 48#16 := registerHiInterrupt_lt cfg.base hlt
  have hhook : consumerStep cfg c (.main true sh) (startConsumer cfg c)
      = some ⟨{ x with main := .cfgPop }, true, []⟩ := by
    have hstep : MainStep cfg c true x sh { x with main := .cfgPop } sh := by
      have h : MainStep cfg c true x sh { x with
          main := if c = SYSINIT then .cfgWait else .cfgPop } sh :=
        .hooked hpc hreg
      rwa [if_neg hc] at h
    have h := hstep.consumer rfl false []
    rw [hpc] at h
    exact h
  have hpop : consumerStep cfg c (.main true sh)
      ⟨{ x with main := .cfgPop }, true, []⟩
        = some ⟨{ x with main := .cfgPush 0 }, true, [.syncFree]⟩ :=
    MainStep.consumer (.cfgPop rfl rfl) rfl true []
  have hpush : consumerStep cfg c (.main true sh)
      ⟨{ x with main := .cfgPush 0 }, true, [.syncFree]⟩
        = some ⟨_, true, [.syncFree, .syncCfg]⟩ :=
    MainStep.consumer (.cfgPush rfl) rfl true [.syncFree]
  exact ⟨_, .step _ (.step _ (.step _ .init trivial hhook) trivial hpop)
    trivial hpush, List.mem_cons_of_mem _ List.mem_cons_self⟩

-- =========================================== the consumers of the system

/-- A consumer whose `main` is past its first `registerHiInterrupt` is
bound. -/
def Consumer.BoundOk (x : Consumer) : Prop :=
  x.core.main ≠ .hookup → x.core.main ≠ .returned → x.bound = true

theorem boundOk_step {c : Nat} {x x' : Consumer} {a : ConsumerMove}
    (hx : x.BoundOk) (h : consumerStep cfg c a x = some x') :
    x'.BoundOk := by
  cases a with
  | irq channel =>
      simp only [consumerStep] at h
      split at h
      case isFalse => cases h
      case isTrue hidle =>
        cases h
        exact fun _ _ => hidle.2
  | isr ok sh =>
      obtain ⟨⟨y, sh'⟩, hr, rfl⟩ := Option.map_eq_some_iff.mp h
      have hstep : IsrStep cfg ok x.core sh y sh' := isrStep_cases hr
      have hmain := hstep.main_eq.1.1
      intro hhook hret
      rw [hmain] at hhook hret
      exact hx hhook hret
  | main ok sh =>
      simp only [consumerStep] at h
      split at h
      case isFalse => cases h
      case isTrue =>
        obtain ⟨⟨y, sh'⟩, hr, rfl⟩ := Option.map_eq_some_iff.mp h
        have hstep : MainStep cfg c ok x.core sh y sh' := mainStep_cases hr
        intro hhook hret
        by_cases hpc : x.core.main = .hookup
        · have hnew : decide (x.core.main = .hookup ∧ y.main ≠ .returned)
              = true := decide_eq_true ⟨hpc, hret⟩
          show (x.bound || decide _) = true
          rw [hnew, Bool.or_true]
        · have hold : x.bound = true := by
            refine hx hpc fun hret => ?_
            cases hstep <;> simp_all
          show (x.bound || decide _) = true
          rw [hold, Bool.true_or]

/-- Interrupts are outstanding at configured consumers only. -/
def IrqConfigured (s : State cfg) : Prop :=
  ∀ d, d ≠ cfg.core0 → s.shared.irq d ≠ [] →
    (s.core d).main.configured = true

theorem IsrStep.irq_eq {x x' : CoreState} {sh sh' : Shared}
    (h : IsrStep cfg ok x sh x' sh') : sh'.irq = sh.irq := by
  cases h <;> rfl

theorem irqConfigured_step (hone : cfg.OnePass) {s s' : State cfg}
    {a : Action cfg.numCores} (hirq : IrqInv s) (hcfg : CfgInv s)
    (hs : IrqConfigured s) (h : apply a s = some s') : IrqConfigured s' := by
  obtain ⟨c, x, sh, rfl, hstep⟩ := apply_cases h
  cases hstep with
  | irq hidle htake =>
      intro d hd hne
      rw [s.put_read CoreState.main _ rfl]
      refine hs d hd fun hnil => hne ?_
      show Function.update s.shared.irq c _ d = []
      by_cases hdc : d = c
      · subst hdc
        rw [htake] at hnil
        cases hnil
      · rw [Function.update_of_ne fun h => hdc (Fin.ext h)]
        exact hnil
  | isr hi =>
      intro d hd hne
      rw [s.put_read CoreState.main _ hi.main_eq.1.1]
      rw [State.put_shared, hi.irq_eq] at hne
      exact hs d hd hne
  | main hidle hm =>
      by_cases hc : c = cfg.core0
      · subst hc
        intro d hd hne
        rw [State.put_core, Function.update_of_ne hd]
        rcases hm.irq_core0 (hirq.main cfg.core0) with ⟨hsame, -⟩ | ⟨hpc, -⟩
        · rw [State.put_shared, hsame] at hne
          exact hs d hd hne
        · exact hcfg.last (by rw [hpc]; rfl) d hd
      · have hc0 : (c : Nat) ≠ SYSINIT := fun h => hc (Fin.ext h)
        have hsame := hm.irq_other (hirq.main c) hc0
        refine s.forall_put (x, sh) (P := fun d y => d ≠ cfg.core0 →
          (s.put c (x, sh)).shared.irq d ≠ [] → y.main.configured = true)
          (fun hd hne => ?_) fun d hd hne => ?_
        · rw [State.put_shared, hsame] at hne
          exact hm.configured_mono hone (hirq.main c) hc0 (hs c hd hne)
        · rw [State.put_shared, hsame] at hne
          exact hs d hd hne

theorem irqConfigured_reachable (hone : cfg.OnePass)
    {guard : State cfg → Action cfg.numCores → Prop} {s : State cfg}
    (h : Reachable cfg guard s) : IrqConfigured s := by
  refine h.invariant' (fun d _ hne => absurd rfl hne) ?_
  intro s a s' hr hs _ happ
  exact irqConfigured_step hone (irqInv_reachable hone hr)
    (cfgInv_reachable hone hr) hs happ

theorem boundOk_reachable {c : Nat} (hiter : 0 < cfg.numIteration)
    {x : Consumer} (hx : Reach (consumerStep cfg c) anyStep
      (startConsumer cfg c) x) : x.BoundOk :=
  hx.invariant (I := Consumer.BoundOk)
    (fun hhook => absurd (if_pos hiter) hhook)
    fun _ _ _ hs _ happ => boundOk_step hs happ

/-- Seen from a core other than 0, every run of the system is a run of the
consumer. -/
theorem consumer_of_reachable (hone : cfg.OnePass)
    {guard : State cfg → Action cfg.numCores → Prop} {s : State cfg}
    {d : Fin cfg.numCores} (hd : d ≠ cfg.core0)
    (h : Reachable cfg guard s) :
    ∃ x, Reach (consumerStep cfg d) anyStep (startConsumer cfg d) x
      ∧ x.core = s.core d := by
  have hiter : 0 < cfg.numIteration := hone ▸ cfg.pos
  refine h.invariant' (I := fun s => ∃ x,
    Reach (consumerStep cfg d) anyStep (startConsumer cfg d) x
      ∧ x.core = s.core d) ⟨_, .init, rfl⟩ ?_
  rintro s a s' hr ⟨⟨core, bound, used⟩, hx, rfl : core = s.core d⟩ - happ
  obtain ⟨c, y, sh, rfl, hstep⟩ := apply_cases happ
  by_cases hdc : d = c
  · subst hdc
    have hself : (s.put d (y, sh)).core d = y := Function.update_self ..
    rw [hself]
    cases hstep with
    | main hidle hm =>
        exact ⟨_, .step _ hx trivial (hm.consumer hidle bound used), rfl⟩
    | @irq ch rest hidle hirq =>
        -- the interrupt finds the handler bound
        have hconf := irqConfigured_reachable hone hr d hd
          (by rw [hirq]; exact List.cons_ne_nil _ _)
        obtain ⟨hhook, hret⟩ := MainPc.registered_of_configured hconf
        have hbound : bound = true := boundOk_reachable hiter hx hhook hret
        refine ⟨⟨{ s.core d with isr := .recycleRx ch }, bound, used⟩,
          .step (.irq ch) hx trivial ?_, rfl⟩
        exact if_pos ⟨hidle, hbound⟩
    | @isr ok _ _ hi =>
        refine ⟨⟨y, bound, used ++ (s.core d).isr.uses⟩,
          .step (.isr ok s.shared) hx trivial ?_, rfl⟩
        show (isrStep cfg ok (s.core d) s.shared).map _ = _
        rw [hi.run]
        rfl
  · refine ⟨_, hx, ?_⟩
    rw [State.put_core, Function.update_of_ne hdc]

-- =============================================================== the law

/-- A consumer core uses opened handles only, in every run, exactly when
`Qmss_start` and all the opens succeed, or the core does not get to a
queue at all. -/
theorem usesOpened_iff (cfg : Config) {coreNum : BitVec 32}
    (hc : coreNum.toNat ≠ SYSINIT) (start : Int)
    (result : QueueHnd → Int) :
    (∀ x, Reach (consumerStep cfg coreNum.toNat) anyStep
        (startConsumer cfg coreNum.toNat) x →
        x.UsesOpened (getsysHandles start result))
      ↔ (start = 0 ∧ ∀ q, 0 ≤ result q)
        ∨ cfg.numIteration = 0 ∨ 4 ≤ coreNum.toNat := by
  constructor
  · intro hall
    by_contra hnot
    obtain ⟨hfail, hgo⟩ := not_or.mp hnot
    obtain ⟨hiter, hlt⟩ := not_or.mp hgo
    obtain ⟨x, hx, hused⟩ := uses_syncCfg cfg hc (Nat.lt_of_not_le hlt)
      (Nat.pos_of_ne_zero hiter)
    obtain ⟨hstart, hlast⟩ := mem_opened_iff.mp (hall x hx _ hused)
    exact hfail ⟨hstart, okQueues_last hlast⟩
  · intro hcond x hx q hq
    rcases hcond with ⟨hstart, hall⟩ | hquiet
    · exact mem_opened_iff.mpr ⟨hstart, okQueues_all hall q⟩
    · rw [(noQueue_reachable hc hquiet hx).used] at hq
      exact absurd hq List.not_mem_nil

/-- Core 1 of the board with every call successful. -/
theorem usesOpened_board : (1#32).toNat ≠ SYSINIT ∧
    ∀ x, Reach (consumerStep board (1#32).toNat) anyStep
      (startConsumer board (1#32).toNat) x →
      x.UsesOpened (getsysHandles 0 fun _ => 1) := by
  have hc : (1#32).toNat ≠ SYSINIT := by decide
  exact ⟨hc, (usesOpened_iff board hc 0 fun _ => 1).mpr
    (.inl ⟨rfl, fun _ => by decide⟩)⟩

/-- Core 1 of the board works on the sync-free and the sync-cfg queue
though `Qmss_start` has failed and nothing was opened. -/
theorem getsysHandles_ignored :
    ¬ ∀ x, Reach (consumerStep board 1) anyStep (startConsumer board 1) x →
      x.UsesOpened (getsysHandles (-1) fun _ => 1) := by
  intro hall
  obtain ⟨x, hx, hused⟩ := uses_syncCfg board (show 1 ≠ SYSINIT by decide)
    (by decide) (by decide)
  exact absurd (mem_opened_iff.mp (hall x hx _ hused)).1 (by decide)

end DspCodes.Infra
