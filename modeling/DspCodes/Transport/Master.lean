/-
`master_task` of main_qmss.c and transport_main.c: what each core calls,
in which order, with which values, and what it does about a failure.

# Straight-line code

Both functions are straight-line code but for early returns, one loop of
fixed length and one wait on `cppiHnd`, so a core is the list of
statements it has left. Every driver call may succeed or fail; which, the
environment chooses at that step. A failed call whose result the source
tests ends the core, any other failed call leaves NULL or a negative
number in the variable it assigns.

# What is kept

Handles, memory-region ids, descriptor pointers and the fields of the
configurations they are stored in; a queue number stands for the handle
it was read from. Constants, `is_allocated`, `num_allocated` and the
printing are left out. The code is the one the files build: `MULTICORE`
and `IS_MULTICORE` are defined in them.

# The shared handle

`cppiHnd` is the one variable the cores share. Core 0 writes it in its
L1D and writes the line back; the others see memory, or what they have
cached of it, and any line may be evicted at any time.
-/
import Mathlib.Logic.Function.Basic
import DspCodes.Transport.Pipe

namespace DspCodes.Transport

-- ============================================================= statements

/-- The driver calls, and the store into a configuration. -/
inductive Op
  | qmssInit | qmssStart | qmssInsertMemoryRegion
  | qmssQueueOpen | qmssQueuePop | qmssQueuePushDesc | qmssGetQueueNumber
  | cppiInit | cppiOpen | cppiInitDescriptor
  | cppiTxChannelOpen | cppiRxChannelOpen | cppiChannelEnable
  | cppiConfigureRxFlow | cppiGetFlowId
  | taskCreate | store
  deriving DecidableEq, Repr

/-- The variables and configuration fields that hold what a driver call
returned. -/
inductive Var
  | ret | memRegion  -- `cppi_cfg.memRegion`
  | qTxOp | qRxOp | qTxFree | qRxFree
  | hnd | cppiHnd
  | c | txChHnd | rxChHnd
  | queInfo | rxDestQnum | rxFdq0Qnum  -- fields of `rxFlowCfg`
  | rxFlowHnd
  deriving DecidableEq, Repr

/-- What `master_task` does about a failed call. -/
inductive OnFail
  | stop  -- return
  | goOn
  deriving DecidableEq, Repr

inductive Stmt
  | call (op : Op) (args : List Var) (dst : Option Var) (onFail : OnFail)
  | getQueueNumber (q : Var)  -- `queInfo = Qmss_getQueueNumber (q)`
  | store (field x : Var)  -- into a configuration
  | setHnd  -- `cppiHnd = hnd`
  | writeBack  -- `CACHE_wbL1d (&cppiHnd)`
  | awaitHnd  -- `while (cppiHnd == NULL) CACHE_invL1d (&cppiHnd)`
  deriving DecidableEq, Repr

-- =============================================================== the code

/-- The two programs. -/
inductive Source
  | mainQmss | transportMain
  deriving DecidableEq, Repr

/-- Insert a memory region and make its descriptors. -/
def makeDescriptors (queue : Var) (onFail : OnFail) : List Stmt :=
  [.call .qmssInsertMemoryRegion [] (some .ret) onFail,
   .store .memRegion .ret,
   .call .cppiInitDescriptor [.memRegion] (some queue) .goOn]

/-- Open CPPI and publish its handle. -/
def openCppi : List Stmt :=
  [.call .cppiInit [] none .stop,
   .call .cppiOpen [] (some .hnd) .stop,
   .setHnd,
   .writeBack]

/-- Open the queues of both sides. -/
def openQueues : List Stmt :=
  [.call .qmssQueueOpen [] (some .qTxOp) .goOn,
   .call .qmssQueueOpen [] (some .qRxOp) .goOn,
   .call .qmssQueueOpen [] (some .qRxFree) .goOn]

/-- One turn of the loop that splits the descriptors. -/
def moveOne : List Stmt :=
  [.call .qmssQueuePop [.qTxFree] (some .c) .goOn,
   .call .qmssQueuePushDesc [.qRxFree, .c] none .goOn]

/-- Open and enable the transmit channel, create `taskA`. -/
def startTx (handle : Var) : List Stmt :=
  [.call .cppiTxChannelOpen [handle] (some .txChHnd) .goOn,
   .call .cppiChannelEnable [.txChHnd] none .goOn,
   .call .taskCreate [.qTxOp, .qTxFree] none .goOn]

/-- Open the receive channel, configure the flow, enable the channel,
create `taskB`. -/
def startRx (handle : Var) : List Stmt :=
  [.call .cppiRxChannelOpen [handle] (some .rxChHnd) .goOn,
   .getQueueNumber .qRxOp,
   .store .rxDestQnum .queInfo,
   .getQueueNumber .qRxFree,
   .store .rxFdq0Qnum .queInfo,
   .call .cppiConfigureRxFlow [handle, .rxDestQnum, .rxFdq0Qnum]
     (some .rxFlowHnd) .stop,
   .call .cppiGetFlowId [.rxFlowHnd] none .goOn,
   .call .cppiChannelEnable [.rxChHnd] none .goOn,
   .call .taskCreate [.qRxOp, .qRxFree] none .goOn]

/-- `master_task` on core 0. -/
def masterTask0 : Source → List Stmt
  | .mainQmss =>
      [.call .qmssInit [] none .stop, .call .qmssStart [] none .stop]
        ++ makeDescriptors .qTxFree .goOn ++ makeDescriptors .qRxFree .goOn
        ++ openCppi ++ openQueues
        ++ (List.replicate (NUM_DESC / 2) moveOne).flatten
        ++ startTx .cppiHnd
  | .transportMain =>
      [.call .qmssInit [] none .stop, .call .qmssStart [] none .stop]
        ++ makeDescriptors .qTxFree .goOn ++ makeDescriptors .qRxFree .stop
        ++ openCppi ++ openQueues ++ startTx .hnd

/-- `master_task` on the other cores. -/
def masterTaskOther : Source → List Stmt
  | .mainQmss => startRx .cppiHnd
  | .transportMain =>
      [.call .qmssStart [] none .stop, .awaitHnd,
       .call .cppiOpen [] (some .hnd) .stop] ++ startRx .hnd

/-- `master_task` on core `core_num`. -/
def masterTask (p : Source) (core_num : Nat) : List Stmt :=
  if core_num = 0 then masterTask0 p else masterTaskOther p

-- ================================================================= states

/-- What a variable holds. -/
inductive Val
  | uninit
  | bad  -- NULL or negative
  | made (op : Op) (core : Nat)  -- by a successful call
  deriving DecidableEq, Repr

/-- A core: what it has left to do, its variables, and its cached copy of
`cppiHnd`. -/
structure BootCore where
  todo : List Stmt
  vars : Var → Val
  l1d : Option Val

/-- A use that `master_task` made of its variables: a driver call or a
store, and whether the call succeeded. -/
structure Entry where
  core : Nat
  op : Op
  args : List (Var × Val)
  ok : Bool
  deriving DecidableEq, Repr

/-- The cores, `cppiHnd` in memory, and all uses so far, the newest first
(no transition reads them). -/
structure Boot where
  cores : Nat → BootCore
  cppiHnd : Val
  log : List Entry

/-- All cores at the start of `master_task`. -/
def boot (p : Source) : Boot where
  cores := fun c =>
    { todo := masterTask p c, vars := fun _ => .uninit, l1d := none }
  cppiHnd := .bad
  log := []

/-- What a core reads in a variable, with `memory` in `cppiHnd`. -/
def BootCore.read (k : BootCore) (memory : Val) : Var → Val
  | .cppiHnd => k.l1d.getD memory
  | x => k.vars x

/-- What core `c` reads in a variable. -/
def Boot.value (s : Boot) (c : Nat) (x : Var) : Val :=
  (s.cores c).read s.cppiHnd x

/-- The use of `args` in `op`. -/
def Boot.entry (s : Boot) (c : Nat) (op : Op) (args : List Var) (ok : Bool) :
    Entry where
  core := c
  op := op
  args := args.map fun x => (x, s.value c x)
  ok := ok

-- ================================================================== steps

/-- Assign the result of a call, if it has a destination. -/
def assign (vars : Var → Val) (dst : Option Var) (v : Val) : Var → Val :=
  match dst with
  | some x => Function.update vars x v
  | none => vars

/-- Core `c` executes one statement; `ok` is the driver's result. -/
def Boot.run (s : Boot) (c : Nat) (ok : Bool) : Option Boot :=
  let core := s.cores c
  let put (x : BootCore) : Nat → BootCore := Function.update s.cores c x
  match core.todo with
  | [] => none
  | .call op args dst onFail :: rest =>
      some { s with
        cores := put {
          todo := if ok || onFail == .goOn then rest else []
          vars := assign core.vars dst (if ok then .made op c else .bad)
          l1d := if .cppiHnd ∈ args then some (s.value c .cppiHnd)
            else core.l1d }
        log := s.entry c op args ok :: s.log }
  | .getQueueNumber q :: rest =>
      some { s with
        cores := put { core with
          todo := rest
          vars := Function.update core.vars .queInfo (s.value c q) }
        log := s.entry c .qmssGetQueueNumber [q] true :: s.log }
  | .store field x :: rest =>
      some { s with
        cores := put { core with
          todo := rest
          vars := Function.update core.vars field (s.value c x) }
        log := s.entry c .store [x] true :: s.log }
  | .setHnd :: rest =>
      some { s with
        cores := put { core with todo := rest, l1d := some (core.vars .hnd) } }
  | .writeBack :: rest =>
      some { s with
        cores := put { core with todo := rest }
        cppiHnd := s.value c .cppiHnd }
  | .awaitHnd :: rest =>
      if s.value c .cppiHnd = .bad then
        some { s with cores := put { core with l1d := none } }
      else
        some { s with cores := put { core with
          todo := rest, l1d := some (s.value c .cppiHnd) } }

/-- The line of `cppiHnd` leaves the L1D of core `c`; only core 0 has
written to it. -/
def Boot.evict (s : Boot) (c : Nat) : Boot :=
  { s with
    cores := Function.update s.cores c { s.cores c with l1d := none }
    cppiHnd := if c = 0 then s.value c .cppiHnd else s.cppiHnd }

inductive BootAction
  | run (c : Nat) (ok : Bool)
  | evict (c : Nat)

/-- The transition function. -/
def bootStep (a : BootAction) (s : Boot) : Option Boot :=
  match a with
  | .run c ok => s.run c ok
  | .evict c => some (s.evict c)

-- ==================================================== what a step can do

variable {s s' : Boot} {c : Nat} {ok : Bool}

/-- Core `c` executes a statement with `rest` behind it: its new state,
`cppiHnd` in memory and the log. -/
inductive CoreStep (s : Boot) (c : Nat) (ok : Bool) :
    Stmt → List Stmt → BootCore → Val → List Entry → Prop
  | call (op : Op) (args : List Var) (dst : Option Var) (onFail : OnFail)
      (rest : List Stmt) :
      CoreStep s c ok (.call op args dst onFail) rest
        { todo := if ok || onFail == .goOn then rest else []
          vars := assign (s.cores c).vars dst
            (if ok then .made op c else .bad)
          l1d := if .cppiHnd ∈ args then some (s.value c .cppiHnd)
            else (s.cores c).l1d }
        s.cppiHnd (s.entry c op args ok :: s.log)
  | getQueueNumber (q : Var) (rest : List Stmt) :
      CoreStep s c ok (.getQueueNumber q) rest
        { s.cores c with
          todo := rest
          vars := Function.update (s.cores c).vars .queInfo (s.value c q) }
        s.cppiHnd (s.entry c .qmssGetQueueNumber [q] true :: s.log)
  | store (field x : Var) (rest : List Stmt) :
      CoreStep s c ok (.store field x) rest
        { s.cores c with
          todo := rest
          vars := Function.update (s.cores c).vars field (s.value c x) }
        s.cppiHnd (s.entry c .store [x] true :: s.log)
  | setHnd (rest : List Stmt) :
      CoreStep s c ok .setHnd rest
        { s.cores c with todo := rest, l1d := some ((s.cores c).vars .hnd) }
        s.cppiHnd s.log
  | writeBack (rest : List Stmt) :
      CoreStep s c ok .writeBack rest { s.cores c with todo := rest }
        (s.value c .cppiHnd) s.log
  | wait (rest : List Stmt) (hnull : s.value c .cppiHnd = .bad) :
      CoreStep s c ok .awaitHnd rest
        { s.cores c with todo := .awaitHnd :: rest, l1d := none }
        s.cppiHnd s.log
  | leave (rest : List Stmt) (hset : s.value c .cppiHnd ≠ .bad) :
      CoreStep s c ok .awaitHnd rest
        { s.cores c with todo := rest, l1d := some (s.value c .cppiHnd) }
        s.cppiHnd s.log

theorem evict_self (s : Boot) (c : Nat) :
    (s.evict c).cores c = { s.cores c with l1d := none } :=
  Function.update_self c _ s.cores

theorem evict_of_ne {d : Nat} (hd : d ≠ c) :
    (s.evict c).cores d = s.cores d :=
  Function.update_of_ne hd _ s.cores

/-- An eviction changes neither code nor variables. -/
theorem evict_core (s : Boot) (c d : Nat) :
    ((s.evict c).cores d).todo = (s.cores d).todo ∧
      ((s.evict c).cores d).vars = (s.cores d).vars := by
  by_cases hd : d = c
  · rw [hd, evict_self]
    exact ⟨rfl, rfl⟩
  · rw [evict_of_ne hd]
    exact ⟨rfl, rfl⟩

/-- `run` has no other outcome, and leaves the other cores alone. -/
theorem run_cases (h : s.run c ok = some s') :
    ∃ st rest k, (s.cores c).todo = st :: rest ∧
      CoreStep s c ok st rest k s'.cppiHnd s'.log ∧
      s'.cores = Function.update s.cores c k := by
  cases htodo : (s.cores c).todo with
  | nil => simp only [Boot.run, htodo, reduceCtorEq] at h
  | cons st rest =>
      refine ⟨st, rest, ?_⟩
      simp only [Boot.run, htodo] at h
      cases st with
      | call => cases h; exact ⟨_, rfl, .call .., rfl⟩
      | getQueueNumber => cases h; exact ⟨_, rfl, .getQueueNumber .., rfl⟩
      | store => cases h; exact ⟨_, rfl, .store .., rfl⟩
      | setHnd => cases h; exact ⟨_, rfl, .setHnd .., rfl⟩
      | writeBack => cases h; exact ⟨_, rfl, .writeBack .., rfl⟩
      | awaitHnd =>
          simp only at h
          split at h
          next hnull => cases h; exact ⟨_, rfl, .wait rest hnull, rfl⟩
          next hset => cases h; exact ⟨_, rfl, .leave rest hset, rfl⟩

/-- A core with code left can execute it. -/
theorem exists_run {st : Stmt} {rest : List Stmt}
    (htodo : (s.cores c).todo = st :: rest) (ok : Bool) :
    ∃ s', s.run c ok = some s' := by
  cases st with
  | awaitHnd =>
      simp only [Boot.run, htodo]
      split
      · exact ⟨_, rfl⟩
      · exact ⟨_, rfl⟩
  | _ => simp only [Boot.run, htodo, Option.some.injEq, exists_eq']

section

variable {st : Stmt} {rest : List Stmt} {k : BootCore} {v : Val}
  {log : List Entry}

/-- What is left after a statement. -/
theorem CoreStep.todo_cases (h : CoreStep s c ok st rest k v log) :
    k.todo = rest ∨ k.todo = [] ∨ k.todo = st :: rest := by
  cases h with
  | call =>
      show (if _ then _ else _) = _ ∨ (if _ then _ else _) = _ ∨ _
      split
      · exact Or.inl rfl
      · exact Or.inr (Or.inl rfl)
  | getQueueNumber => exact Or.inl rfl
  | store => exact Or.inl rfl
  | setHnd => exact Or.inl rfl
  | writeBack => exact Or.inl rfl
  | wait => exact Or.inr (Or.inr rfl)
  | leave => exact Or.inl rfl

/-- The code a core has left only gets shorter. -/
theorem CoreStep.todo_suffix (h : CoreStep s c ok st rest k v log) :
    k.todo <:+ st :: rest := by
  rcases h.todo_cases with heq | heq | heq
  · rw [heq]
    exact List.suffix_cons st rest
  · rw [heq]
    exact List.nil_suffix
  · exact heq ▸ List.suffix_rfl

/-- A successful statement other than the wait is done with. -/
theorem CoreStep.todo_done (h : CoreStep s c true st rest k v log)
    (hwait : st ≠ .awaitHnd) : k.todo = rest := by
  cases h with
  | wait => exact absurd rfl hwait
  | leave => rfl
  | call => rfl
  | getQueueNumber => rfl
  | store => rfl
  | setHnd => rfl
  | writeBack => rfl

/-- The log only grows. -/
theorem CoreStep.log_suffix (h : CoreStep s c ok st rest k v log) :
    s.log <:+ log := by
  cases h with
  | call => exact List.suffix_cons _ _
  | getQueueNumber => exact List.suffix_cons _ _
  | store => exact List.suffix_cons _ _
  | setHnd => exact List.suffix_rfl
  | writeBack => exact List.suffix_rfl
  | wait => exact List.suffix_rfl
  | leave => exact List.suffix_rfl

theorem log_suffix_step {a : BootAction} (h : bootStep a s = some s') :
    s.log <:+ s'.log := by
  cases a with
  | run c ok =>
      obtain ⟨st, rest, k, -, hstep, -⟩ := run_cases h
      exact hstep.log_suffix
  | evict c =>
      cases h
      exact List.suffix_rfl

end

end DspCodes.Transport
