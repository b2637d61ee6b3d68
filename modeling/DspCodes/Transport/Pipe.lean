/-
The transport pipeline: `taskA` on the producer core, `taskB` on each
consumer core, and the packet DMA between them, over the four QMSS
queues (transport_main.c and main_qmss.c).

# One step is one driver call

Each step is one queue call, one descriptor access or one transfer of the
DMA, so that every interleaving of the parties is a run. Queues are
atomic FIFOs: a push goes to the tail, a pop comes from the head and
returns NULL on an empty queue.

# The two programs

`taskA` is the same in both. `taskB` of transport_main.c loops; the one
of main_qmss.c returns after its first packet. `Program` says how many
consumers there are and whether they loop.

# What is abstracted

Descriptors are the 16-byte aligned addresses; the low bits of a queue
entry carry the size hint of `Qmss_queuePushDescSize`, and `taskA` masks
them off. The payload of a packet is whatever `generateData` wrote into
`symbol_buffer`, an arbitrary value chosen at that step. The tag that
`Cppi_setTag` writes selects the one receive flow and is not modelled.
`Task_sleep` is a step from which the task wakes at any later moment.

The DMA is the environment's: it takes one descriptor from TX op and one
from RX free, copies the payload, pushes the RX descriptor to RX op and
the TX descriptor to the return queue stored in it.

# Ghosts

No transition reads `stored`, `got` and the value a consumer remembers
while it prints.
-/
import DspCodes.Lib.Lts

namespace DspCodes.Transport

-- ============================================================= the queues

/-- The number of descriptors of a memory region. -/
def NUM_DESC : Nat := 32

/-- The four queues. -/
inductive QueueId
  | txOp | txFree | rxOp | rxFree
  deriving DecidableEq, Repr

/-- Their contents, head first. -/
structure Queues (δ : Type _) where
  txOp : List δ
  txFree : List δ
  rxOp : List δ
  rxFree : List δ
  deriving DecidableEq, Repr

variable {δ α : Type _}

/-- The contents of a queue. -/
def Queues.get (q : Queues δ) : QueueId → List δ
  | .txOp => q.txOp
  | .txFree => q.txFree
  | .rxOp => q.rxOp
  | .rxFree => q.rxFree

/-- Replace the contents of a queue. -/
def Queues.set (q : Queues δ) (id : QueueId) (l : List δ) : Queues δ :=
  match id with
  | .txOp => { q with txOp := l }
  | .txFree => { q with txFree := l }
  | .rxOp => { q with rxOp := l }
  | .rxFree => { q with rxFree := l }

/-- `Qmss_queuePushDesc` and `Qmss_queuePushDescSize`. -/
def Queues.push (q : Queues δ) (id : QueueId) (desc : δ) : Queues δ :=
  q.set id (q.get id ++ [desc])

-- ============================================================= the parties

/-- Where `taskA` stands; each constructor names the call that comes
next. -/
inductive TaskA (δ α : Type _)
  | poll  -- `Qmss_queuePop (freeq)` until it is not NULL
  | generate (desc : δ)  -- `generateData`
  | setData (desc : δ) (symbols : α)  -- `Cppi_setData`
  | setTag (desc : δ)  -- `Cppi_setTag`
  | setReturnQueue (desc : δ)  -- `Cppi_setReturnQueue`
  | push (desc : δ)  -- `Qmss_queuePushDescSize`
  | sleep  -- `Task_sleep`
  deriving DecidableEq, Repr

/-- Where `taskB` stands. -/
inductive TaskB (δ α : Type _)
  | poll  -- `Qmss_queuePop (opq)` until it is not NULL
  | getData (desc : δ)  -- `Cppi_getData`
  | print (desc : δ) (seen : α)  -- print the samples behind the pointer
  | recycle (desc : δ)  -- `Qmss_queuePushDesc (freeq)`
  | returned
  deriving DecidableEq, Repr

/-- Where the packet DMA stands. -/
inductive Dma (δ : Type _)
  | idle
  | tx (desc : δ)  -- a TX descriptor taken
  | both (desc rxDesc : δ)  -- and an RX descriptor
  | copied (desc rxDesc : δ)  -- the payload copied
  | delivered (desc : δ)  -- the RX descriptor pushed
  deriving DecidableEq, Repr

/-- How many consumers there are, and whether `taskB` loops. -/
structure Program where
  consumers : Nat
  loops : Bool

/-- transport_main.c with one consumer core. -/
def transportMain : Program := ⟨1, true⟩

/-- main_qmss.c with `m` consumer cores. -/
def mainQmss (m : Nat) : Program := ⟨m, false⟩

/-- A state of the pipeline. -/
structure Pipe (P : Program) (δ α : Type _) where
  queues : Queues δ
  retQueue : δ → QueueId  -- the return queue stored in a descriptor
  data : δ → α  -- the payload stored in a descriptor
  taskA : TaskA δ α
  taskB : Fin P.consumers → TaskB δ α
  dma : Dma δ
  stored : List α  -- what `taskA` has stored
  got : List α  -- what the consumers have obtained

variable {P : Program}

/-- The pipeline when the tasks are created: the pools in the free
queues, anything in the descriptors. -/
def start (P : Program) (tx rx : List δ) (retQueue : δ → QueueId)
    (data : δ → α) : Pipe P δ α where
  queues := { txOp := [], txFree := tx, rxOp := [], rxFree := rx }
  retQueue := retQueue
  data := data
  taskA := .poll
  taskB := fun _ => .poll
  dma := .idle
  stored := []
  got := []

-- ================================================================ steps

variable [DecidableEq δ]

/-- One step of `taskA (opq, freeq)`; `symbols` is what `generateData`
would write. -/
def taskA (opq freeq : QueueId) (symbols : α) (s : Pipe P δ α) :
    Pipe P δ α :=
  match s.taskA with
  | .poll =>
      match s.queues.get freeq with
      | desc :: rest =>
          { s with queues := s.queues.set freeq rest, taskA := .generate desc }
      | [] => s
  | .generate desc => { s with taskA := .setData desc symbols }
  | .setData desc symbols =>
      { s with
        data := Function.update s.data desc symbols
        stored := s.stored ++ [symbols]
        taskA := .setTag desc }
  | .setTag desc => { s with taskA := .setReturnQueue desc }
  | .setReturnQueue desc =>
      { s with
        retQueue := Function.update s.retQueue desc freeq
        taskA := .push desc }
  | .push desc =>
      { s with queues := s.queues.push opq desc, taskA := .sleep }
  | .sleep => { s with taskA := .poll }

/-- Replace the state of consumer `i`. -/
def Pipe.setB (s : Pipe P δ α) (i : Fin P.consumers) (b : TaskB δ α) :
    Pipe P δ α :=
  { s with taskB := Function.update s.taskB i b }

/-- One step of `taskB (opq, freeq)` on consumer `i`; `none` when it has
returned. -/
def taskB (opq freeq : QueueId) (i : Fin P.consumers) (s : Pipe P δ α) :
    Option (Pipe P δ α) :=
  match s.taskB i with
  | .poll =>
      match s.queues.get opq with
      | desc :: rest =>
          some ({ s with queues := s.queues.set opq rest }.setB i
            (.getData desc))
      | [] => some s
  | .getData desc =>
      some ({ s with got := s.got ++ [s.data desc] }.setB i
        (.print desc (s.data desc)))
  | .print desc _ => some (s.setB i (.recycle desc))
  | .recycle desc =>
      some ({ s with queues := s.queues.push freeq desc }.setB i
        (if P.loops then .poll else .returned))
  | .returned => none

/-- One step of the packet DMA; `none` while it waits for a descriptor. -/
def dma (s : Pipe P δ α) : Option (Pipe P δ α) :=
  match s.dma with
  | .idle =>
      match s.queues.txOp with
      | desc :: rest =>
          some { s with
            queues := s.queues.set .txOp rest
            dma := .tx desc }
      | [] => none
  | .tx desc =>
      match s.queues.rxFree with
      | rxDesc :: rest =>
          some { s with
            queues := s.queues.set .rxFree rest
            dma := .both desc rxDesc }
      | [] => none
  | .both desc rxDesc =>
      some { s with
        data := Function.update s.data rxDesc (s.data desc)
        dma := .copied desc rxDesc }
  | .copied desc rxDesc =>
      some { s with
        queues := s.queues.push .rxOp rxDesc
        dma := .delivered desc }
  | .delivered desc =>
      some { s with
        queues := s.queues.push (s.retQueue desc) desc
        dma := .idle }

/-- Whose turn it is. -/
inductive Action (P : Program) (α : Type _)
  | taskA (symbols : α)
  | taskB (i : Fin P.consumers)
  | dma

/-- The transition function, with the queues `master_task` hands to the
tasks. -/
def step (a : Action P α) (s : Pipe P δ α) : Option (Pipe P δ α) :=
  match a with
  | .taskA symbols => some (taskA .txOp .txFree symbols s)
  | .taskB i => taskB .rxOp .rxFree i s
  | .dma => dma s

/-- The action is a pop of an empty queue. -/
def EmptyPoll (s : Pipe P δ α) : Action P α → Prop
  | .taskA _ => s.taskA = .poll ∧ s.queues.txFree = []
  | .taskB i => s.taskB i = .poll ∧ s.queues.rxOp = []
  | .dma => False

/-- Some step other than an empty poll is possible. -/
def Progress (s : Pipe P δ α) : Prop :=
  ∃ a s', ¬ EmptyPoll s a ∧ step a s = some s'

end DspCodes.Transport
