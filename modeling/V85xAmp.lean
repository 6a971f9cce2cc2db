import V85xAmp.Lib.Comp
import V85xAmp.Lib.Run
import V85xAmp.Lib.Links
import V85xAmp.Lib.Ring
import V85xAmp.Lib.Mem
import V85xAmp.Lib.Refine
import V85xAmp.Lib.Exchange
import V85xAmp.Lib.RingQueue
import V85xAmp.Lib.Doorbell
import V85xAmp.Lib.Rv32
import V85xAmp.Utils.RingBuffer
import V85xAmp.Mailbox.Basic
import V85xAmp.Mailbox.EndpointList
import V85xAmp.Mailbox.Interrupts
import V85xAmp.Lib.CString
import V85xAmp.Utils.Printf
import V85xAmp.Utils.Debug
import V85xAmp.Utils.TraceLog
import V85xAmp.VirtUart.Echo
import V85xAmp.Virtio.Virtqueue
import V85xAmp.Virtio.Notify
import V85xAmp.Virtio.Driver
import V85xAmp.Virtio.SplitRing
import V85xAmp.Virtio.SplitRingRuns
import V85xAmp.Virtio.Wakeup
import V85xAmp.OpenAmp.Init
import V85xAmp.OpenAmp.InitSafety
import V85xAmp.OpenAmp.InitStatus
import V85xAmp.Rpmsg.Basic
import V85xAmp.Rpmsg.Receive
import V85xAmp.Rpmsg.ReceiveInv
import V85xAmp.Lib.Segments
import V85xAmp.Utils.NutHeap
import V85xAmp.Utils.NutHeapList
import V85xAmp.Utils.NutHeapAlloc
import V85xAmp.Utils.NutHeapFree
import V85xAmp.Utils.NutHeapRealloc
import V85xAmp.Utils.NutHeapRun
import V85xAmp.Utils.NutHeapBestFit
import V85xAmp.Utils.NutHeapBlocks
import V85xAmp.Utils.NutHeapDoubleFree
import V85xAmp.Utils.NutHeapAligned
import V85xAmp.OpenAmp.Lifecycle
import V85xAmp.Rpmsg.Transmit
import V85xAmp.Rpmsg.TransmitInv
import V85xAmp.Rpmsg.TransmitSteps
import V85xAmp.Rpmsg.TransmitRuns
import V85xAmp.Arch.Irq
import V85xAmp.Utils.RingPreempt
import V85xAmp.Arch.Usart
import V85xAmp.Mailbox.Fifo
import V85xAmp.Mailbox.Handler
import V85xAmp.Mailbox.Drain
import V85xAmp.Mailbox.SendOnly
import V85xAmp.Mailbox.Packing
import V85xAmp.Lib.Bits
import V85xAmp.Arch.Gpio
import V85xAmp.Arch.GpioPull
import V85xAmp.Rpmsg.Address
import V85xAmp.VirtUart.Addresses
import V85xAmp.VirtUart.RxBounds
import V85xAmp.Virtio.BlockWrite
import V85xAmp.VirtUart.Transmit
import V85xAmp.Arch.Vectors
import V85xAmp.Arch.VectorsIrq
import V85xAmp.Arch.VectorsTrap
import V85xAmp.Arch.Startup
