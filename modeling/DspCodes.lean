import DspCodes.Lib.Lts
import DspCodes.Lib.Count
import DspCodes.Lib.Nest
import DspCodes.Lib.Fifo
import DspCodes.Lib.Loop
import DspCodes.Lib.Fair
import DspCodes.Lib.Cache
import DspCodes.Infra.RunCount
import DspCodes.Infra.CfgBarrier
import DspCodes.Infra.TearDown
import DspCodes.Infra.Conserve
import DspCodes.Infra.Barrier
import DspCodes.Infra.Progress
import DspCodes.Infra.Passes
import DspCodes.Infra.Handles
import DspCodes.Infra.Channel
import DspCodes.Infra.SysInit
import DspCodes.Infra.Packets
import DspCodes.Infra.PacketStep
import DspCodes.Infra.Resources
import DspCodes.Infra.TxDesc
import DspCodes.Infra.Delivery
import DspCodes.Infra.Interrupts
import DspCodes.Infra.RxDesc
import DspCodes.Infra.Pages
import DspCodes.Infra.Arrival
import DspCodes.Infra.Exact
import DspCodes.Infra.Completion
import DspCodes.Infra.Refs
import DspCodes.Osal.Model
import DspCodes.Osal.Sections
import DspCodes.Osal.Preempt
import DspCodes.Osal.Memory
import DspCodes.Osal.Hooks
import DspCodes.Osal.Coherence
import DspCodes.Osal.Stale
import DspCodes.Osal.Lockout
import DspCodes.Transport.Pipe
import DspCodes.Transport.Places
import DspCodes.Transport.Fifo
import DspCodes.Transport.Wedge
import DspCodes.Transport.Throughput
import DspCodes.Transport.Master
import DspCodes.Transport.StartUp
import DspCodes.Transport.Typestate
import DspCodes.Transport.Receive
import DspCodes.Transport.Payload
import DspCodes.Dct.Coeffs
