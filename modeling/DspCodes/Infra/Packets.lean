/-
The packets of a round, under the protocol model: `send_data`, `cleanup`
and the recycling loop of `hiPrioInterruptHandler` call by call, the
transmit and receive sides of the packet DMA, and the accumulator.

# A superposition

A `Wire` is a state of the protocol and the packet state beside it. Each
step of a wire is one call or one DMA move; `micro` says which of them
completes a step of the protocol (`send_data` does with its last push,
the recycling loop with the acknowledge), and the protocol then takes
exactly that step. All others leave the protocol where it is, so that
every law of the protocol is a law of the wire.

# What is new

In the protocol an interrupt is outstanding as soon as `send_data`
returns, and `send_data` fails when the environment says so. Here the
interrupt is raised by the accumulator, when the page it was programmed
with is full; and `send_data` fails where a call of its fails.

# The hardware

The DMA of channel `n` loops transmit channel `n` back to receive channel
`n`. The transmit side takes a descriptor of the transmit queue, sends
its packet on, and returns the descriptor to the completion queue. The
receive side takes a descriptor of the free queue for each packet, and
pushes it on the queue the packet's flow names; the flow of a packet is
its `srcTagLo`. The accumulator of channel `n` moves the descriptors of
the receive queue to its page, writes the number of entries into the
first word when the page is full, and raises the event of channel `n` at
core `n % 4`.

# What is left out

The payload: every packet carries the same constant buffer. The second
page of an accumulator: a channel is programmed anew for each round.
-/
import DspCodes.Infra.Inv

namespace DspCodes.Infra

open Lts

-- ====================================================== configuration

/-- The constants of the packet traffic. -/
structure Traffic where
  numPackets : Nat  -- `NUM_PACKETS`
  numMonolithicDesc : Nat  -- `NUM_MONOLITHIC_DESC`, half Tx and half Rx
  numChannels : Nat  -- the channels the device has
  hiPrioList : BitVec 32  -- the local address of `hiPrioList`
  packets_pos : 0 < numPackets
  list_local : hiPrioList.toNat < 2 ^ 24  -- inside a core's own window

/-- The build of the repository. `hiPrioList` is where the linker put it;
the infrastructure DMA of the C6670 has 32 channels. -/
def boardTraffic : Traffic where
  numPackets := 8
  numMonolithicDesc := 64
  numChannels := 32
  hiPrioList := 0x0081b740#32
  packets_pos := by decide
  list_local := by decide

/-- The descriptors of each direction. -/
def Traffic.half (tr : Traffic) : Nat := tr.numMonolithicDesc / 2

/-- The Tx descriptors; 0 is NULL. -/
def Traffic.txDesc (tr : Traffic) : List Nat := List.range' 1 tr.half

/-- The Rx descriptors. -/
def Traffic.rxDesc (tr : Traffic) : List Nat :=
  List.range' (tr.half + 1) tr.half

/-- The global address of a core's local L2 address. -/
def l2_global_address (coreNum addr : BitVec 32) : BitVec 32 :=
  addr + (0x10000000#32 + coreNum * 0x1000000#32)

/-- Where `send_data` on core `coreNum` makes the accumulator write. -/
def Traffic.listAddress (tr : Traffic) (coreNum : Nat) : BitVec 32 :=
  l2_global_address (BitVec.ofNat 32 coreNum) tr.hiPrioList

/-- Where the handler on core `coreNum` reads: it masks its own core
number out of the address. -/
def Traffic.isrBuf (tr : Traffic) (coreNum : Nat) : BitVec 32 :=
  tr.listAddress coreNum &&& 0xf0ffffff#32

-- ============================================================== calls

/-- What a round opens and closes. -/
inductive Resource
  | txCh | rxCh | txQue | rxQue | flow
  deriving DecidableEq, Repr

/-- The number of a resource of a round: the flows are numbered
`channel % NUMBER_OF_CORES`. -/
def Resource.number (numCores channel : Nat) : Resource → Nat
  | .flow => channel % numCores
  | _ => channel

/-- The calls of `send_data` before its packet loop. -/
inductive SendCall
  | txChannelOpen | rxChannelOpen | txQueueOpen | rxQueueOpen
  | clearList | programAccumulator | configureRxFlow
  | txChannelEnable | rxChannelEnable
  deriving DecidableEq, Repr

/-- They come in this order. -/
def sendSetup : List SendCall :=
  [.txChannelOpen, .rxChannelOpen, .txQueueOpen, .rxQueueOpen, .clearList,
    .programAccumulator, .configureRxFlow, .txChannelEnable,
    .rxChannelEnable]

/-- The resource a call opens. -/
def SendCall.opens : SendCall → Option Resource
  | .txChannelOpen => some .txCh
  | .rxChannelOpen => some .rxCh
  | .txQueueOpen => some .txQue
  | .rxQueueOpen => some .rxQue
  | .configureRxFlow => some .flow
  | _ => none

/-- The calls of `cleanup`. -/
inductive CleanupCall
  | rxQueueClose | txQueueClose | txChannelDisable | rxChannelDisable
  | txChannelClose | rxChannelClose | closeRxFlow
  deriving DecidableEq, Repr

/-- They come in this order. -/
def cleanupCalls : List CleanupCall :=
  [.rxQueueClose, .txQueueClose, .txChannelDisable, .rxChannelDisable,
    .txChannelClose, .rxChannelClose, .closeRxFlow]

/-- The resource a call closes. -/
def CleanupCall.closes : CleanupCall → Option Resource
  | .rxQueueClose => some .rxQue
  | .txQueueClose => some .txQue
  | .txChannelClose => some .txCh
  | .rxChannelClose => some .rxCh
  | .closeRxFlow => some .flow
  | _ => none

/-- Where `send_data` stands. -/
inductive SendPc
  | setup (todo : List SendCall)  -- the calls left before the loop
  | pop (i : Nat)  -- packet `i`: pop the Tx free queue
  | fill (i desc : Nat)  -- set data, tag and length of the descriptor
  | push (i desc : Nat)  -- push it on the transmit queue
  deriving DecidableEq, Repr

-- =============================================================== state

/-- The accumulator of a channel. -/
structure Acc where
  enabled : Bool
  listAddress : BitVec 32
  maxPageEntries : Nat
  taken : Nat  -- the descriptors on the page
  deriving DecidableEq, Repr

/-- A channel: its transmit queue, the two sides of its DMA, the packets
between them (by their tags), its receive queue, its accumulator, and
the interrupt it raised. -/
structure Chan where
  txQue : List Nat
  txOn : Bool
  txDma : Option Nat  -- sent on, to be returned
  stream : List Nat
  rxOn : Bool
  rxDma : Option (Nat × Nat)  -- filled, to be pushed on that queue
  rxQue : List Nat
  acc : Acc
  raised : Bool
  deriving DecidableEq, Repr

/-- A channel no round has used. -/
def Chan.fresh : Chan where
  txQue := []
  txOn := false
  txDma := none
  stream := []
  rxOn := false
  rxDma := none
  rxQue := []
  acc := ⟨false, 0#32, 0, 0⟩
  raised := false

/-- The packet state. -/
structure Packets where
  send : SendPc  -- core 0, in `send_data`
  cleanup : List CleanupCall  -- core 0, in `cleanup`: the calls left
  recycle : Nat → Option (Nat × Nat)  -- per core: `count` and `index`
  txFree : List Nat
  txCmpl : List Nat
  rxFree : List Nat
  srcTagLo : Nat → Nat  -- of a descriptor
  flow : Nat → Option Nat  -- the receive queue of a flow
  page : BitVec 32 → Nat → Nat  -- the words of a list
  refs : Resource → Nat → Nat  -- how often a resource is open
  hnd : Resource → Nat  -- the handle `send_data` opened last
  chan : Nat → Chan

/-- After `sysInit`: the descriptors are free, and nothing is open. -/
def initPackets (tr : Traffic) : Packets where
  send := .setup sendSetup
  cleanup := cleanupCalls
  recycle := fun _ => none
  txFree := tr.txDesc
  txCmpl := []
  rxFree := tr.rxDesc
  srcTagLo := fun _ => 0
  flow := fun _ => none
  page := fun _ _ => 0
  refs := fun _ _ => 0
  hnd := fun _ => 0
  chan := fun _ => .fresh

/-- Replace channel `ch`. -/
def Packets.setChan (p : Packets) (ch : Nat) (k : Chan) : Packets :=
  { p with chan := Function.update p.chan ch k }

/-- Write a word of a list. -/
def Packets.write (p : Packets) (addr : BitVec 32) (i v : Nat) : Packets :=
  { p with page :=
      Function.update p.page addr (Function.update (p.page addr) i v) }

-- ========================================================== `send_data`

/-- Open resource `r`: its handle is the one of the round from now on. -/
def Packets.opened (p : Packets) (r : Resource) (i : Nat) : Packets :=
  { p with
    refs := Function.update p.refs r
      (Function.update (p.refs r) i (p.refs r i + 1))
    hnd := Function.update p.hnd r i }

/-- A call of `send_data (channel, core)` that succeeds on core
`coreNum`. -/
def sendCall (tr : Traffic) (numCores coreNum channel : Nat)
    (call : SendCall) (p : Packets) : Packets :=
  match call with
  | .txChannelOpen => p.opened .txCh (Resource.txCh.number numCores channel)
  | .rxChannelOpen => p.opened .rxCh (Resource.rxCh.number numCores channel)
  | .txQueueOpen => p.opened .txQue (Resource.txQue.number numCores channel)
  | .rxQueueOpen => p.opened .rxQue (Resource.rxQue.number numCores channel)
  | .clearList =>
      { p with page :=
          Function.update p.page (tr.listAddress coreNum) fun _ => 0 }
  | .programAccumulator =>
      p.setChan channel { p.chan channel with acc :=
        ⟨true, tr.listAddress coreNum, tr.numPackets + 1, 0⟩ }
  | .configureRxFlow =>
      { (p.opened .flow (Resource.flow.number numCores channel)) with
        flow := Function.update p.flow
          (Resource.flow.number numCores channel) (some (p.hnd .rxQue)) }
  | .txChannelEnable =>
      p.setChan (p.hnd .txCh) { p.chan (p.hnd .txCh) with txOn := true }
  | .rxChannelEnable =>
      p.setChan (p.hnd .rxCh) { p.chan (p.hnd .rxCh) with rxOn := true }

/-- `send_data` returns. -/
def Packets.sendReturns (p : Packets) : Packets :=
  { p with send := .setup sendSetup }

/-- Push a descriptor on the transmit queue. -/
def Packets.pushTx (p : Packets) (d : Nat) : Packets :=
  p.setChan (p.hnd .txQue)
    { p.chan (p.hnd .txQue) with
      txQue := (p.chan (p.hnd .txQue)).txQue ++ [d] }

/-- One call of `send_data (channel, core)`, and the result when it was
the last one. A channel the device does not have cannot be opened. -/
def sendMicro (tr : Traffic) (numCores coreNum channel core : Nat)
    (ok : Bool) (p : Packets) : Packets × Option Bool :=
  match p.send with
  | .setup (call :: todo) =>
      if ok = true ∧ channel < tr.numChannels then
        ({ (sendCall tr numCores coreNum channel call p) with
            send := .setup todo }, none)
      else (p.sendReturns, some false)
  | .setup [] => ({ p with send := .pop 0 }, none)
  | .pop i =>
      match p.txFree with
      | d :: rest => ({ p with txFree := rest, send := .fill i d }, none)
      | [] => (p.sendReturns, some false)
  | .fill i d =>
      ({ p with srcTagLo := Function.update p.srcTagLo d core,
                send := .push i d }, none)
  | .push i d =>
      if i + 1 < tr.numPackets then
        ({ (p.pushTx d) with send := .pop (i + 1) }, none)
      else ((p.pushTx d).sendReturns, some true)

-- ============================================================ `cleanup`

/-- Close the resource behind a handle; the last close of a flow takes
its configuration away. -/
def Packets.closed (p : Packets) (r : Resource) : Packets :=
  { p with
    refs := Function.update p.refs r
      (Function.update (p.refs r) (p.hnd r) (p.refs r (p.hnd r) - 1))
    flow := if r = .flow ∧ p.refs r (p.hnd r) ≤ 1 then
        Function.update p.flow (p.hnd r) none
      else p.flow }

/-- A call of `cleanup` that succeeds. -/
def cleanupCall (call : CleanupCall) (p : Packets) : Packets :=
  match call with
  | .rxQueueClose => p.closed .rxQue
  | .txQueueClose => p.closed .txQue
  | .txChannelDisable =>
      p.setChan (p.hnd .txCh) { p.chan (p.hnd .txCh) with txOn := false }
  | .rxChannelDisable =>
      p.setChan (p.hnd .rxCh) { p.chan (p.hnd .rxCh) with rxOn := false }
  | .txChannelClose => p.closed .txCh
  | .rxChannelClose => p.closed .rxCh
  | .closeRxFlow => p.closed .flow

/-- One call of `cleanup`: a failed call is only printed. -/
def cleanupMicro (ok : Bool) (p : Packets) : Packets × Option Bool :=
  match p.cleanup with
  | call :: todo =>
      ({ (if ok then cleanupCall call p else p) with cleanup := todo }, none)
  | [] => ({ p with cleanup := cleanupCalls }, some ok)

-- ========================================== `main` and the handler

/-- One call of `main` on a core: the packet state after it, and the
result of the protocol step it completes, if it completes one. -/
def mainMicro (tr : Traffic) (numCores coreNum : Nat) (ok : Bool)
    (x : CoreState) (p : Packets) : Packets × Option Bool :=
  match x.main with
  | .send =>
      sendMicro tr numCores coreNum (x.channel + x.index) x.index ok p
  | .divert =>
      ({ p with txFree := p.txFree ++ p.txCmpl, txCmpl := [] }, some ok)
  | .cleanup => cleanupMicro ok p
  | _ => (p, some ok)

/-- One call of `hiPrioInterruptHandler` on a core. -/
def isrMicro (tr : Traffic) (coreNum : Nat) (ok : Bool) (x : CoreState)
    (p : Packets) : Packets × Option Bool :=
  match x.isr with
  | .recycleRx _ =>
      match p.recycle coreNum with
      | none =>
          ({ p with
              recycle := Function.update p.recycle coreNum
                (some (p.page (tr.isrBuf coreNum) 0, 0)) }, none)
      | some (count, index) =>
          if index < count then
            ({ p with
                rxFree := p.rxFree
                  ++ [p.page (tr.isrBuf coreNum) (index + 1)]
                recycle := Function.update p.recycle coreNum
                  (some (count, index + 1)) }, none)
          else
            ({ p with recycle := Function.update p.recycle coreNum none },
              some ok)
  | .disableAcc ch =>
      (if ok then
        p.setChan ch { p.chan ch with
          acc := { (p.chan ch).acc with enabled := false } }
      else p, some ok)
  | _ => (p, some ok)

-- ======================================================== the hardware

/-- The transmit side of a channel's DMA. -/
def txDma (ch : Nat) (p : Packets) : Option Packets :=
  match (p.chan ch).txDma, (p.chan ch).txQue with
  | some d, _ =>
      some { (p.setChan ch { p.chan ch with txDma := none }) with
        txCmpl := p.txCmpl ++ [d] }
  | none, d :: rest =>
      if (p.chan ch).txOn then
        some (p.setChan ch { p.chan ch with
          txQue := rest, txDma := some d
          stream := (p.chan ch).stream ++ [p.srcTagLo d] })
      else none
  | none, [] => none

/-- Push a received descriptor. -/
def Packets.pushRx (p : Packets) (dest e : Nat) : Packets :=
  p.setChan dest { p.chan dest with rxQue := (p.chan dest).rxQue ++ [e] }

/-- The receive side of a channel's DMA. It waits for a free descriptor,
and for the flow of the packet. -/
def rxDma (ch : Nat) (p : Packets) : Option Packets :=
  match (p.chan ch).rxDma, (p.chan ch).stream with
  | some (e, dest), _ =>
      some ((p.setChan ch { p.chan ch with rxDma := none }).pushRx dest e)
  | none, tag :: rest =>
      match p.flow tag, p.rxFree with
      | some dest, e :: free =>
          if (p.chan ch).rxOn then
            some { (p.setChan ch { p.chan ch with
                stream := rest, rxDma := some (e, dest) }) with
              rxFree := free }
          else none
      | _, _ => none
  | none, [] => none

/-- The accumulator of a channel: one descriptor to the page, and when
the page is full, the number of its entries and the interrupt. -/
def accumulate (ch : Nat) (p : Packets) : Option Packets :=
  match (p.chan ch).rxQue with
  | e :: rest =>
      let k := p.chan ch
      let taken := k.acc.taken + 1
      if k.acc.enabled = true ∧ taken < k.acc.maxPageEntries then
        let q := (p.setChan ch { k with
            rxQue := rest, acc := { k.acc with taken := taken }
            raised := k.raised || taken + 1 = k.acc.maxPageEntries }).write
          k.acc.listAddress taken e
        some (if taken + 1 = k.acc.maxPageEntries then
            q.write k.acc.listAddress 0 taken
          else q)
      else none
  | [] => none

-- ============================================================= the wire

variable {cfg : Config} {tr : Traffic}

/-- The protocol and the packets. -/
structure Wire (cfg : Config) where
  base : State cfg
  pk : Packets

/-- The wire every run starts from. -/
def initWire (cfg : Config) (tr : Traffic) : Wire cfg :=
  ⟨init cfg, initPackets tr⟩

/-- Whose turn it is: a core's, or that of a channel of the hardware. An
interrupt is taken by a core for the channel that raised it. -/
inductive WireAction (n m : Nat)
  | main (c : Fin n) (ok : Bool)
  | irq (c : Fin n) (ch : Fin m)
  | isr (c : Fin n) (ok : Bool)
  | txDma (ch : Fin m)
  | rxDma (ch : Fin m)
  | acc (ch : Fin m)
  deriving DecidableEq, Repr

/-- The protocol takes the step that a call completes, if any. -/
def Wire.commit (w : Wire cfg) (f : Bool → Action cfg.numCores)
    (r : Packets × Option Bool) : Option (Wire cfg) :=
  match r.2 with
  | none => some ⟨w.base, r.1⟩
  | some ok => (apply (f ok) w.base).map fun s => ⟨s, r.1⟩

/-- The transition function. -/
def wireStep (tr : Traffic) (a : WireAction cfg.numCores tr.numChannels)
    (w : Wire cfg) : Option (Wire cfg) :=
  match a with
  | .main c ok =>
      if (w.base.core c).isr = .idle then
        w.commit (.main c)
          (mainMicro tr cfg.numCores c ok (w.base.core c) w.pk)
      else none
  | .irq c ch =>
      if (w.pk.chan ch).raised = true ∧ ch.val % 4 = c.val then
        (apply (.irq c) w.base).map fun s =>
          ⟨s, w.pk.setChan ch { w.pk.chan ch with raised := false }⟩
      else none
  | .isr c ok =>
      w.commit (.isr c) (isrMicro tr c ok (w.base.core c) w.pk)
  | .txDma ch => (txDma ch w.pk).map fun p => ⟨w.base, p⟩
  | .rxDma ch => (rxDma ch w.pk).map fun p => ⟨w.base, p⟩
  | .acc ch => (accumulate ch w.pk).map fun p => ⟨w.base, p⟩

/-- The protocol action a core's call belongs to. -/
def WireAction.lift {n m : Nat} : WireAction n m → Option (Action n)
  | .main c ok => some (.main c ok)
  | .irq c _ => some (.irq c)
  | .isr c ok => some (.isr c ok)
  | _ => none

/-- A guard of the protocol, on every call of a core. -/
def Lifted (guard : State cfg → Action cfg.numCores → Prop) (w : Wire cfg)
    (a : WireAction cfg.numCores tr.numChannels) : Prop :=
  ∀ b, a.lift = some b → guard w.base b

instance {guard : State cfg → Action cfg.numCores → Prop}
    [∀ s b, Decidable (guard s b)] (w : Wire cfg) :
    (a : WireAction cfg.numCores tr.numChannels) →
      Decidable (Lifted guard w a)
  | .main c ok => decidable_of_iff (guard w.base (.main c ok))
      ⟨fun h _ hb => Option.some.inj hb ▸ h, fun h => h _ rfl⟩
  | .irq c _ => decidable_of_iff (guard w.base (.irq c))
      ⟨fun h _ hb => Option.some.inj hb ▸ h, fun h => h _ rfl⟩
  | .isr c ok => decidable_of_iff (guard w.base (.isr c ok))
      ⟨fun h _ hb => Option.some.inj hb ▸ h, fun h => h _ rfl⟩
  | .txDma _ | .rxDma _ | .acc _ => isTrue fun _ hb => nomatch hb

/-- Wires reachable under a guard. -/
abbrev WireReachable (cfg : Config) (tr : Traffic)
    (ok : Wire cfg → WireAction cfg.numCores tr.numChannels → Prop) :
    Wire cfg → Prop :=
  Reach (wireStep tr) ok (initWire cfg tr)

-- ============================================== schedules of the board

/-- Core `c` of the four. -/
def boardCore (c : Nat) : Fin 4 := ⟨c % 4, Nat.mod_lt c (Nat.succ_pos 3)⟩

/-- `n` successful calls of `main` on core `c`. -/
def wireMain (c n : Nat) : List (WireAction 4 32) :=
  List.replicate n (.main (boardCore c) true)

/-- The four cores register and meet at the sync-cfg queue; core 0 comes
to `send_data`. -/
def wireBoot : List (WireAction 4 32) :=
  wireMain 0 1 ++ wireMain 1 3 ++ wireMain 2 3 ++ wireMain 3 3
    ++ wireMain 0 1

/-- `send_data` from its first call to its last push. -/
def wireSend : List (WireAction 4 32) := wireMain 0 34

/-- The hardware moves the packets of channel `ch` to its page. -/
def wireRound (ch : Nat) : List (WireAction 4 32) :=
  (List.replicate 8 [.txDma (Fin.ofNat 32 ch), .txDma (Fin.ofNat 32 ch),
    .rxDma (Fin.ofNat 32 ch), .rxDma (Fin.ofNat 32 ch),
    .acc (Fin.ofNat 32 ch)]).flatten

/-- `n` successful calls of the handler on core `c`. -/
def wireIsr (c n : Nat) : List (WireAction 4 32) :=
  List.replicate n (.isr (boardCore c) true)

/-- Core `c` takes the interrupt of its channel and makes `n` successful
calls in the handler. -/
def wireIrq (c n : Nat) : List (WireAction 4 32) :=
  .irq (boardCore c) (Fin.ofNat 32 c) :: wireIsr c n

/-- Core `c` takes the interrupt and runs its handler to the end: the
count, eight entries, the acknowledge, and the protocol's fourteen. -/
def wireServe (c : Nat) : List (WireAction 4 32) := wireIrq c 24

/-- Core 0 leaves a sync wait, diverts, and cleans up. -/
def wireLeave : List (WireAction 4 32) := wireMain 0 12

end DspCodes.Infra
