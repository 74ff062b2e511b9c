import RvPipelineCore.Common
import RvPipelineCore.Control.Decoders
import RvPipelineCore.Control.Words
import RvPipelineCore.Datapath.Arithmetic
import RvPipelineCore.Datapath.Lanes
import RvPipelineCore.Datapath.Memory
import RvPipelineCore.Datapath.Operations
import RvPipelineCore.Datapath.Divider
import RvPipelineCore.Datapath.Predictor
import RvPipelineCore.Datapath.CsrExec
import RvPipelineCore.HazardUnit
import RvPipelineCore.State
import RvPipelineCore.Signals
import RvPipelineCore.Step
import RvPipelineCore.Lib.Temporal
import RvPipelineCore.Lib.Bits
import RvPipelineCore.Lib.Rv32
import RvPipelineCore.Lib.System
import RvPipelineCore.Run
import RvPipelineCore.Pipeline
import RvPipelineCore.Fetch
import RvPipelineCore.Lib.Stamp
import RvPipelineCore.Order
import RvPipelineCore.Redirect
import RvPipelineCore.TrapOrder
import RvPipelineCore.Transfers
import RvPipelineCore.Traps
import RvPipelineCore.Divide
import RvPipelineCore.Spaced
import RvPipelineCore.Progress
import RvPipelineCore.Faults
import RvPipelineCore.Precise
import RvPipelineCore.Execute
import RvPipelineCore.Boundary
import RvPipelineCore.Refinement
import RvPipelineCore.Hazards
import RvPipelineCore.TrapFlush
import RvPipelineCore.Interlocks
import RvPipelineCore.Privileged
import RvPipelineCore.Losses
import RvPipelineCore.Lib.LastWrite
import RvPipelineCore.Registers
import RvPipelineCore.Operands
import RvPipelineCore.Alignment
import RvPipelineCore.Untrapped
import RvPipelineCore.Lib.Division
import RvPipelineCore.Quotient
import RvPipelineCore.Divisions
import RvPipelineCore.CsrOrder
import RvPipelineCore.CsrAccess
import RvPipelineCore.CsrLaw
import RvPipelineCore.Control.Legality
import RvPipelineCore.Instructions
import RvPipelineCore.RamWb
import RvPipelineCore.Lib.Serial
import RvPipelineCore.Vidbo.UartSim
import RvPipelineCore.Lib.Multiplex
import RvPipelineCore.WbSevenseg
import RvPipelineCore.Vidbo.SevenSegment
import RvPipelineCore.Sw.UartLib
import RvPipelineCore.Lib.RoundRobin
import RvPipelineCore.Soc.Arbiter
import RvPipelineCore.Soc.WbArbiter
import RvPipelineCore.Soc.WbMux
import RvPipelineCore.Scripts.WbInterconGen
import RvPipelineCore.Soc.WbIntercon
import RvPipelineCore.Soc.RvSoc
import RvPipelineCore.Soc.RomBus
import RvPipelineCore.Soc.DataBus
import RvPipelineCore.AddressRange
import RvPipelineCore.Soc.Refinement
import RvPipelineCore.Lib.RingBuffer
import RvPipelineCore.Soc.Uart.Fifo
import RvPipelineCore.Lib.SerialFormat
import RvPipelineCore.Soc.Uart.Transmitter
import RvPipelineCore.Soc.Uart.Transmission
import RvPipelineCore.Soc.Uart.Receiver
import RvPipelineCore.Soc.Uart.Regs
import RvPipelineCore.Soc.Uart.Config
import RvPipelineCore.Soc.Uart.Top
import RvPipelineCore.Soc.Uart.Polling
import RvPipelineCore.Soc.Uart.Baud
import RvPipelineCore.Soc.Uart.Session
import RvPipelineCore.Soc.Uart.Console
import RvPipelineCore.Soc.UartBus
import RvPipelineCore.Soc.Uart.Reception
import RvPipelineCore.Soc.Uart.ReceiveFifo
import RvPipelineCore.Soc.Uart.Loopback
import RvPipelineCore.Sw.Signature
import RvPipelineCore.Soc.Uart.Compliance
