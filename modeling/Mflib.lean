import Mflib.Lib.Lts
import Mflib.Lib.Ring
import Mflib.Lib.WordLinks
import Mflib.Lib.Located
import Mflib.Lib.Backlog
import Mflib.Lib.Cells
import Mflib.Lib.Lines
import Mflib.Lib.Chain
import Mflib.Lib.Slots
import Mflib.Mreqb
import Mflib.ReservePool
import Mflib.MreqbFifo
import Mflib.MreqbPool
import Mflib.Edata.Chunks
import Mflib.Edata.Pool
import Mflib.Edata.Allocator
import Mflib.Micproto.PoolThreads
import Mflib.Micproto.Output
import Mflib.Micproto.OutputProofs
import Mflib.Micproto.PoolHands
import Mflib.Micproto.Transport
import Mflib.Micproto.PoolBlocks
import Mflib.Micproto.SubmitWait
import Mflib.Micproto.SubmitWaitProofs
import Mflib.Micproto.WaitFrame
import Mflib.Micproto.WaitResult
import Mflib.Serial.Port
import Mflib.Serial.Send
import Mflib.Serial.Ownership
import Mflib.Serial.Stream
import Mflib.Serial.StreamProofs
import Mflib.Mbser.AtReceive
import Mflib.Mbser.AtFraming
import Mflib.Mbser.OutputRing
import Mflib.Mbser.CachedOutput
import Mflib.Nand.Handle
import Mflib.Netbuf.Memp
import Mflib.Netbuf.Lifetime
import Mflib.Netbuf.Balance
import Mflib.Netbuf.NbufQueue
import Mflib.Netif.Downlink
import Mflib.Netif.DownlinkHands
import Mflib.Netif.DownlinkDelivery
import Mflib.Netif.PacketBounds
import Mflib.Netif.Xmit
import Mflib.Netif.XmitProofs
import Mflib.Netif.XmitAsync
import Mflib.Netif.AsyncBalance
import Mflib.Usbwan.Pipeline
import Mflib.Usbwan.Shapes
import Mflib.Usbwan.Bounds
import Mflib.Usbwan.CacheLines
import Mflib.Request.Process
import Mflib.Request.Life
import Mflib.Request.Answers
import Mflib.Thread.Workqueue
import Mflib.Thread.QueueIntegrity
import Mflib.Thread.QueueWakeup
import Mflib.Mailbox.Message
import Mflib.Mailbox.Transmit
import Mflib.Mailbox.Receive
import Mflib.Mailbox.ReceiveRetry
import Mflib.Mailbox.Adapter
import Mflib.Notifier.Chain
import Mflib.Notifier.Order
import Mflib.Notifier.Callbacks
import Mflib.Notifier.Ports
import Mflib.Mbser.RingWriters
import Mflib.Mbser.FlushSend
import Mflib.Serial.Requests
import Mflib.MreqbCarve
import Mflib.Netbuf.QueueThreads
import Mflib.MreqbFifoThreads
import Mflib.Micproto.ProcessOutput
import Mflib.Iomux
import Mflib.Nand.Emulator
import Mflib.Nand.FlatStore
import Mflib.Nand.Bounds
import Mflib.BootCpu2
import Mflib.Netif.LateFree
import Mflib.PatchQboot.Passes
import Mflib.PatchQboot.Fields
import Mflib.Request.Tables
import Mflib.Mbser.LogPrintf
import Mflib.Mailbox.Lookup
import Mflib.Lib.Parts
import Mflib.Request.Register
import Mflib.Cpus.Link
import Mflib.Cpus.Xmit
import Mflib.Cpus.Owners
import Mflib.Request.Order
import Mflib.Cpus.Serial
import Mflib.Cpus.SerialSend
import Mflib.Cpus.SerialProofs
import Mflib.Lib.Relink
import Mflib.Thread.QueueRelinked
import Mflib.Mailbox.Driver
import Mflib.Mailbox.DriverRuns
import Mflib.Mailbox.Channel
import Mflib.Lib.Coherence
import Mflib.Micproto.Cleaning
import Mflib.Cpus.Caches
import Mflib.Cpus.CacheProofs
import Mflib.Cpus.CacheLoss
import Mflib.Nand.Service
import Mflib.Nand.Replies
import Mflib.Nand.ServiceProofs
