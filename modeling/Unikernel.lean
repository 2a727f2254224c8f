import Unikernel.Lib.BigEndian
import Unikernel.Lib.CBuffer
import Unikernel.Lib.Ensures
import Unikernel.Lib.Extent
import Unikernel.Lib.Keyed
import Unikernel.Lib.LongDivision
import Unikernel.Lib.Loop
import Unikernel.Lib.Machine
import Unikernel.Lib.Malloc
import Unikernel.Lib.Masks
import Unikernel.Lib.Memo
import Unikernel.Lib.OnesComplement
import Unikernel.Lib.Overlay
import Unikernel.Lib.Ring
import Unikernel.Lib.Segment
import Unikernel.Lib.Simulation
import Unikernel.Lib.Tailq
import Unikernel.Sml.Basis
import Unikernel.Sml.Text
import Unikernel.IntInf.Arithmetic
import Unikernel.IntInf.BigNat
import Unikernel.IntInf.Digits
import Unikernel.IntInf.Division
import Unikernel.IntInf.Signed
import Unikernel.IntInf.Text
import Unikernel.Utils
import Unikernel.Eth
import Unikernel.Arp
import Unikernel.Ipv4
import Unikernel.Ipv4.Checksum
import Unikernel.Ipv4.Fields
import Unikernel.Ipv4.Verify
import Unikernel.Udp
import Unikernel.Netif.MiniOs
import Unikernel.Netif.SendBounds
import Unikernel.Netif.TunTap
import Unikernel.Network.Addressing
import Unikernel.Network.ArpAnswers
import Unikernel.Network.Atomicity
import Unikernel.Network.Completion
import Unikernel.Network.Datagram
import Unikernel.Network.Delivery
import Unikernel.Network.DontFragment
import Unikernel.Network.Interleaving
import Unikernel.Network.Isolation
import Unikernel.Network.Ordering
import Unikernel.Network.Partition
import Unikernel.Network.Provenance
import Unikernel.Network.Reassembly
import Unikernel.Network.ReassemblyLemmas
import Unikernel.Network.Replies
import Unikernel.Network.Reuse
import Unikernel.Network.Sending
import Unikernel.Network.Service
import Unikernel.Network.Stack
import Unikernel.Network.StackLemmas
import Unikernel.Network.View
import Unikernel.NetworkProf.Listen
import Unikernel.NetworkProf.Packets
import Unikernel.NetworkProf.Rounds
import Unikernel.Apps.Facfib
import Unikernel.Apps.FacfibService
import Unikernel.Apps.Sort
import Unikernel.Runtime.Allocation
import Unikernel.Runtime.Deallocation
import Unikernel.Runtime.Layout
import Unikernel.Runtime.OnXen
import Unikernel.Runtime.Pages
import Unikernel.Runtime.Region
import Unikernel.Runtime.Requests
import Unikernel.Runtime.Runs
import Unikernel.Runtime.Store
import Unikernel.Xen.Blocks
import Unikernel.Xen.Chunks
import Unikernel.Xen.Freeing
import Unikernel.Xen.Heap
import Unikernel.Xen.Math
import Unikernel.Xen.Spans
import Unikernel.Xen.Xmalloc
