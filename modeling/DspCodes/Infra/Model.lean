/-
The multi-core example (infrastructure_multicoremode.c) as a step
system: `main` on every core, `hiPrioInterruptHandler` on every core,
the three synchronisation queues, and the shared word `runCount`.

# One step is one driver call

Each step is one queue call, one cache call or one memory access of the
source, so that every interleaving of N main loops and N handlers is a
run. Pushes go to the tail and pops come from the head (QMSS queues are
atomic FIFOs). A handler pre-empts the main loop of its OWN core: `main`
of a core steps only while that core's handler is idle.

# What a run starts from

`init` is the state after `sysInit` and `getsysHandles`: every queue is
open, the `NUM_SYNC_DESC` sync descriptors are in the sync-free queue,
and `runCount` is 0 (core 0 still holds the store of `sysInit` in its
cache).

# What is abstracted

The packets of a round are one event: `send_data (channel + index,
index)` leaves one interrupt outstanding at core `index`, which that core
takes once, at any later moment. The descriptors of the packets, the
transmit and receive queues and the console output appear in no guard of
the protocol and are not modelled. Driver results are the environment's:
`ok` is the result of the step's driver call.

# Ghosts

No transition reads them: the channel a queued sync descriptor was
pushed for, what a core's pops of the sync queue returned (`took`), the
rounds whose receive descriptors are recycled (`recycled`), and the
numbers of handlers that ended (`served`, `aborted`).
-/
import Mathlib.Logic.Function.Basic
import Mathlib.Tactic.SplitIfs
import DspCodes.Lib.Lts
import DspCodes.Infra.Intc

namespace DspCodes.Infra

-- ====================================================== configuration

/-- The compile-time constants. `base` is
`QMSS_HIGH_PRIORITY_QUEUE_BASE`, the rest are the example's own. -/
structure Config where
  numCores : Nat  -- `NUMBER_OF_CORES`
  numSyncDesc : Nat  -- `NUM_SYNC_DESC`
  numIteration : Nat  -- `NUM_ITERATION`
  base : BitVec 32
  pos : 0 < numCores  -- core 0 exists

/-- The core that initialises the system, produces and tears down. -/
abbrev SYSINIT : Nat := 0

/-- The build of the repository: 4 cores, 32 sync descriptors, one outer
pass; the high priority queues of the C6670 start at 704. -/
def board : Config where
  numCores := 4
  numSyncDesc := 32
  numIteration := 1 * 4
  base := 704#32
  pos := by decide

/-- Core 0 as an index. -/
def Config.core0 (cfg : Config) : Fin cfg.numCores := ⟨SYSINIT, cfg.pos⟩

-- ======================================================= control points

/-- The closing calls of `sysExit`, in the source's order. -/
inductive ExitStep
  | closeRxFree | closeTxCmpl | closeTxFree | closeSync | closeSyncFree
  | closeSyncCfg | cppiClose | cppiExit
  deriving DecidableEq, Repr

/-- `sysExit`, as the list of its calls. -/
def sysExit : List ExitStep :=
  [.closeRxFree, .closeTxCmpl, .closeTxFree, .closeSync, .closeSyncFree,
    .closeSyncCfg, .cppiClose, .cppiExit]

/-- Where `main` of a core stands; each constructor names the call that
comes next. -/
inductive MainPc
  | hookup  -- `registerHiInterrupt`
  | cfgWait  -- core 0: read the count of the sync-cfg queue
  | cfgPop  -- other cores: pop the sync-free queue
  | cfgPush (desc : Nat)  -- other cores: push on the sync-cfg queue
  | send  -- core 0: `send_data`
  | syncWait  -- read the count of the sync queue
  | syncPop  -- a non-zero count was read: pop the sync queue
  | syncRecycle (desc : Nat)  -- push it on the sync-free queue
  | divert  -- core 0: `Qmss_queueDivert (txCmpl, txFree)`
  | cleanup  -- core 0: `cleanup`
  | runInv  -- invalidate the cached `runCount`
  | runLoad  -- read `runCount` and compare
  | sysExit (todo : List ExitStep)  -- core 0: the rest of `sysExit`
  | finished  -- the end of `main`
  | returned  -- an early `return` after a failed call
  deriving DecidableEq, Repr

/-- Where `hiPrioInterruptHandler` of a core stands, with the channel it
serves. -/
inductive IsrPc
  | idle
  | recycleRx (channel : Nat)  -- recycle the Rx BDs, acknowledge
  | disableAcc (channel : Nat)  -- `Qmss_disableAccumulator`
  | syncPop (channel index : Nat)  -- pop the sync-free queue
  | syncPush (channel index desc : Nat)  -- push on the sync queue
  | runInv (channel : Nat)  -- invalidate the cached `runCount`
  | runLoad (channel : Nat)  -- load `runCount`
  | runStore (channel value : Nat)  -- store the loaded value plus one
  | runWb (channel : Nat)  -- write the cached line back
  | ret (channel : Nat)  -- return from the interrupt
  deriving DecidableEq, Repr

/-- The handler is about to pop the sync-free queue. -/
def IsrPc.pops : IsrPc → Bool
  | .syncPop _ _ => true
  | _ => false

-- ================================================================ states

/-- A core: its control points, the locals of `main`, its cached copy of
`runCount`, and the ghosts of its history. -/
structure CoreState where
  main : MainPc
  channel : Nat
  index : Nat
  isr : IsrPc
  cache : Option Nat  -- the cached copy of `runCount`, if present
  -- per sync wait left: the round whose handler pushed the descriptor
  -- that was popped, `none` for a NULL pop
  took : List (Option Nat)
  served : Nat  -- handlers that ran to their end
  aborted : Nat  -- handlers that returned at the accumulator error
  deriving DecidableEq, Repr

/-- A descriptor in the sync queue, with the channel whose handler
pushed it. -/
structure SyncSignal where
  desc : Nat
  channel : Nat
  deriving DecidableEq, Repr

/-- What the cores share. -/
structure Shared where
  sync : List SyncSignal
  syncFree : List Nat
  syncCfg : List Nat
  irq : Nat → List Nat  -- per core, the outstanding channels
  runCount : Nat  -- `runCount` in memory
  recycled : List Nat

/-- One more interrupt outstanding at a core. -/
def Shared.raise (sh : Shared) (coreNum channel : Nat) : Shared :=
  { sh with irq :=
      Function.update sh.irq coreNum (sh.irq coreNum ++ [channel]) }

@[simp] theorem Shared.raise_irq (sh : Shared) (coreNum channel : Nat) :
    (sh.raise coreNum channel).irq
      = Function.update sh.irq coreNum (sh.irq coreNum ++ [channel]) := rfl

/-- A state of the system. -/
structure State (cfg : Config) where
  core : Fin cfg.numCores → CoreState
  shared : Shared

variable {cfg : Config}

/-- Replace core `c` and the shared part. -/
def State.put (s : State cfg) (c : Fin cfg.numCores)
    (r : CoreState × Shared) : State cfg :=
  { core := Function.update s.core c r.1, shared := r.2 }

@[simp] theorem State.put_core (s : State cfg) (c : Fin cfg.numCores)
    (r : CoreState × Shared) :
    (s.put c r).core = Function.update s.core c r.1 := rfl

@[simp] theorem State.put_shared (s : State cfg) (c : Fin cfg.numCores)
    (r : CoreState × Shared) : (s.put c r).shared = r.2 := rfl

/-- A core as `main` enters its outer loop. -/
def initCore (cfg : Config) (coreNum : Nat) : CoreState where
  main := if 0 < cfg.numIteration then .hookup else .runInv
  channel := 0
  index := 0
  isr := .idle
  cache := if coreNum = SYSINIT then some 0 else none
  took := []
  served := 0
  aborted := 0

/-- The shared part after `sysInit`. -/
def initShared (cfg : Config) : Shared where
  sync := []
  syncFree := List.range cfg.numSyncDesc
  syncCfg := []
  irq := fun _ => []
  runCount := 0
  recycled := []

/-- The state every run starts from. -/
def init (cfg : Config) : State cfg where
  core := fun c => initCore cfg c
  shared := initShared cfg

-- ========================================================== `main`

/-- The head of the inner loop, `index < NUMBER_OF_CORES`; when it is
left, the head of the outer loop, `channel < NUM_ITERATION`. -/
def roundHead (cfg : Config) (coreNum : Nat) (x : CoreState) : CoreState :=
  if x.index < cfg.numCores then
    { x with main := if coreNum = SYSINIT then .send else .syncWait }
  else if x.channel + cfg.numCores < cfg.numIteration then
    { x with channel := x.channel + cfg.numCores, main := .hookup }
  else { x with channel := x.channel + cfg.numCores, main := .runInv }

/-- The end of a round's body, `index++`. -/
abbrev endRound (cfg : Config) (coreNum : Nat) (x : CoreState) : CoreState :=
  roundHead cfg coreNum { x with index := x.index + 1 }

/-- What follows the pop (and recycling) of a sync descriptor: core 0
diverts and cleans up, the other cores are done with the round. -/
def afterSync (cfg : Config) (coreNum : Nat) (x : CoreState) : CoreState :=
  if coreNum = SYSINIT then { x with main := .divert }
  else endRound cfg coreNum x

section LoopHeads

variable (cfg : Config) (c : Nat) (x : CoreState)

/-! The loop heads move the control point and the loop counters only. -/

@[simp] theorem roundHead_isr : (roundHead cfg c x).isr = x.isr := by
  unfold roundHead; split_ifs <;> rfl

@[simp] theorem roundHead_cache : (roundHead cfg c x).cache = x.cache := by
  unfold roundHead; split_ifs <;> rfl

@[simp] theorem roundHead_took : (roundHead cfg c x).took = x.took := by
  unfold roundHead; split_ifs <;> rfl

@[simp] theorem roundHead_served : (roundHead cfg c x).served = x.served := by
  unfold roundHead; split_ifs <;> rfl

@[simp] theorem roundHead_aborted :
    (roundHead cfg c x).aborted = x.aborted := by
  unfold roundHead; split_ifs <;> rfl

@[simp] theorem afterSync_isr : (afterSync cfg c x).isr = x.isr := by
  unfold afterSync; split_ifs <;> simp

@[simp] theorem afterSync_cache : (afterSync cfg c x).cache = x.cache := by
  unfold afterSync; split_ifs <;> simp

@[simp] theorem afterSync_took : (afterSync cfg c x).took = x.took := by
  unfold afterSync; split_ifs <;> simp

@[simp] theorem afterSync_served : (afterSync cfg c x).served = x.served := by
  unfold afterSync; split_ifs <;> simp

@[simp] theorem afterSync_aborted :
    (afterSync cfg c x).aborted = x.aborted := by
  unfold afterSync; split_ifs <;> simp

end LoopHeads

/-- One step of `main` on core `coreNum`. -/
def mainStep (cfg : Config) (coreNum : Nat) (ok : Bool) (x : CoreState)
    (sh : Shared) : Option (CoreState × Shared) :=
  match x.main with
  | .hookup =>
      match registerHiInterrupt cfg.base ok ok (BitVec.ofNat 32 coreNum)
          (cfg.base + BitVec.ofNat 32 x.channel
            + BitVec.ofNat 32 coreNum) with
      | some _ =>
          some ({ x with main :=
            if coreNum = SYSINIT then .cfgWait else .cfgPop }, sh)
      | none => some ({ x with main := .returned }, sh)
  | .cfgWait =>
      if sh.syncCfg.length = cfg.numCores - 1 then
        some (roundHead cfg coreNum { x with index := 0 }, sh)
      else some (x, sh)
  | .cfgPop =>
      match sh.syncFree with
      | d :: rest =>
          some ({ x with main := .cfgPush d }, { sh with syncFree := rest })
      | [] => some (roundHead cfg coreNum { x with index := 0 }, sh)
  | .cfgPush d =>
      some (roundHead cfg coreNum { x with index := 0 },
        { sh with syncCfg := sh.syncCfg ++ [d] })
  | .send =>
      if ok then
        some ({ x with main := .syncWait },
          sh.raise x.index (x.channel + x.index))
      else some ({ x with main := .returned }, sh)
  | .syncWait =>
      if sh.sync.length = 0 then some (x, sh)
      else some ({ x with main := .syncPop }, sh)
  | .syncPop =>
      match sh.sync with
      | e :: rest =>
          some ({ x with main := .syncRecycle e.desc,
                         took := x.took ++ [some e.channel] },
            { sh with sync := rest })
      | [] => some (afterSync cfg coreNum
          { x with took := x.took ++ [none] }, sh)
  | .syncRecycle d =>
      some (afterSync cfg coreNum x,
        { sh with syncFree := sh.syncFree ++ [d] })
  | .divert => some ({ x with main := .cleanup }, sh)
  | .cleanup => some (endRound cfg coreNum x, sh)
  | .runInv => some ({ x with main := .runLoad, cache := none }, sh)
  | .runLoad =>
      let v := x.cache.getD sh.runCount
      some ({ x with
        cache := some v
        main := if v = cfg.numCores then
            if coreNum = SYSINIT then .sysExit sysExit else .finished
          else .runInv }, sh)
  | .sysExit (_ :: todo) => some ({ x with main := .sysExit todo }, sh)
  | .sysExit [] => some ({ x with main := .finished }, sh)
  | .finished => none
  | .returned => none

-- ======================================== `hiPrioInterruptHandler`

/-- The head of the handler's sync loop, `index < NUMBER_OF_CORES`. -/
def isrLoop (cfg : Config) (channel index : Nat) : IsrPc :=
  if index < cfg.numCores then .syncPop channel index else .runInv channel

/-- One step of `hiPrioInterruptHandler` on a core. -/
def isrStep (cfg : Config) (ok : Bool) (x : CoreState) (sh : Shared) :
    Option (CoreState × Shared) :=
  match x.isr with
  | .idle => none
  | .recycleRx ch =>
      some ({ x with isr := .disableAcc ch },
        { sh with recycled := sh.recycled ++ [ch] })
  | .disableAcc ch =>
      if ok then some ({ x with isr := isrLoop cfg ch 0 }, sh)
      else some ({ x with isr := .idle, aborted := x.aborted + 1 }, sh)
  | .syncPop ch i =>
      match sh.syncFree with
      | d :: rest =>
          some ({ x with isr := .syncPush ch i d },
            { sh with syncFree := rest })
      | [] => some ({ x with isr := isrLoop cfg ch (i + 1) }, sh)
  | .syncPush ch i d =>
      some ({ x with isr := isrLoop cfg ch (i + 1) },
        { sh with sync := sh.sync ++ [⟨d, ch⟩] })
  | .runInv ch => some ({ x with isr := .runLoad ch, cache := none }, sh)
  | .runLoad ch =>
      let v := x.cache.getD sh.runCount
      some ({ x with isr := .runStore ch v, cache := some v }, sh)
  | .runStore ch v =>
      some ({ x with isr := .runWb ch, cache := some (v + 1) }, sh)
  | .runWb ch =>
      some ({ x with isr := .ret ch },
        { sh with runCount := x.cache.getD sh.runCount })
  | .ret _ => some ({ x with isr := .idle, served := x.served + 1 }, sh)

/-- Taking the oldest outstanding interrupt of core `coreNum`. -/
def takeIrq (coreNum : Nat) (x : CoreState) (sh : Shared) :
    Option (CoreState × Shared) :=
  match sh.irq coreNum with
  | ch :: rest =>
      some ({ x with isr := .recycleRx ch },
        { sh with irq := Function.update sh.irq coreNum rest })
  | [] => none

-- ============================================================ the system

/-- Whose turn it is. `ok` is the result of the step's driver call. -/
inductive Action (n : Nat)
  | main (c : Fin n) (ok : Bool)
  | irq (c : Fin n)
  | isr (c : Fin n) (ok : Bool)
  deriving DecidableEq, Repr

/-- The transition function. -/
def apply (a : Action cfg.numCores) (s : State cfg) : Option (State cfg) :=
  match a with
  | .main c ok =>
      if (s.core c).isr = .idle then
        (mainStep cfg c ok (s.core c) s.shared).map (s.put c)
      else none
  | .irq c =>
      if (s.core c).isr = .idle then
        (takeIrq c (s.core c) s.shared).map (s.put c)
      else none
  | .isr c ok => (isrStep cfg ok (s.core c) s.shared).map (s.put c)

/-- Reachable under a guard on the steps. -/
abbrev Reachable (cfg : Config)
    (ok : State cfg → Action cfg.numCores → Prop) : State cfg → Prop :=
  Lts.Reach apply ok (init cfg)

/-- Every driver call of the step succeeds: its result is good, and a
pop of the sync-free queue returns a descriptor. -/
def DriversOk (s : State cfg) : Action cfg.numCores → Prop
  | .main c ok => ok = true
      ∧ ((s.core c).main = .cfgPop → s.shared.syncFree ≠ [])
  | .irq _ => True
  | .isr c ok => ok = true
      ∧ ((s.core c).isr.pops = true → s.shared.syncFree ≠ [])

instance (s : State cfg) (a : Action cfg.numCores) :
    Decidable (DriversOk s a) := by
  cases a <;> unfold DriversOk <;> infer_instance

/-- The source writes `NUM_ITERATION` as `1 * NUMBER_OF_CORES`: one pass
of the outer loop. -/
def Config.OnePass (cfg : Config) : Prop := cfg.numIteration = cfg.numCores

/-- The number of sync waits `main` of a core has left. -/
def CoreState.passed (x : CoreState) : Nat := x.took.length

/-- The number of rounds core 0 has sent: those it has left, and the one
it waits in. -/
def CoreState.sent (x : CoreState) : Nat :=
  match x.main with
  | .syncWait | .syncPop => x.took.length + 1
  | _ => x.took.length

-- ============================================== schedules of the board

/-- `n` successful steps of `main` on core `c`. -/
def mainRun (c n : Nat) : List (Action 4) :=
  List.replicate n (.main (Fin.ofNat 4 c) true)

/-- `n` successful steps of the handler on core `c`. -/
def isrRun (c n : Nat) : List (Action 4) :=
  List.replicate n (.isr (Fin.ofNat 4 c) true)

/-- Core `c` takes its interrupt and makes `n` successful steps in the
handler. -/
def irqRun (c n : Nat) : List (Action 4) :=
  .irq (Fin.ofNat 4 c) :: isrRun c n

/-- Core `c` takes its interrupt and runs the handler to the end. -/
def serve (c : Nat) : List (Action 4) := irqRun c 15

/-- The four cores register and meet at the sync-cfg queue; core 0 sends
round 0. -/
def boot : List (Action 4) :=
  mainRun 0 1 ++ mainRun 1 3 ++ mainRun 2 3 ++ mainRun 3 3 ++ mainRun 0 2

/-- One round in lockstep: core `c` serves it, core 0 and then the other
cores take one descriptor each. -/
def lockstep (c : Nat) : List (Action 4) :=
  serve c ++ mainRun 0 5 ++ mainRun 1 3 ++ mainRun 2 3 ++ mainRun 3 3

/-- All four rounds in lockstep. -/
def inStep : List (Action 4) :=
  boot ++ lockstep 0 ++ mainRun 0 1 ++ lockstep 1 ++ mainRun 0 1
    ++ lockstep 2 ++ mainRun 0 1 ++ lockstep 3

end DspCodes.Infra
