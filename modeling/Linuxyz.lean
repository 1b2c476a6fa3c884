import Linuxyz.AsyncPool.Request
import Linuxyz.AsyncPool.Routing
import Linuxyz.ByteAlign.Counters
import Linuxyz.ChrStore.Lifetime
import Linuxyz.Cmap.Discipline
import Linuxyz.Cmap.NoLostUpdate
import Linuxyz.Crypt.Sym
import Linuxyz.CryptSym.Decrypt
import Linuxyz.Firewall.Xdp
import Linuxyz.Gpio.Resync
import Linuxyz.Gpio.RoundTrip
import Linuxyz.Gpio.RxQueue
import Linuxyz.Gpio.Xmit
import Linuxyz.Grep.Search
import Linuxyz.Grpc.Chat
import Linuxyz.Hex.Codec
import Linuxyz.Httpd.Request
import Linuxyz.Httpd.Serve
import Linuxyz.IoUring.Server
import Linuxyz.Kxdp.NoStrand
import Linuxyz.Lib.Bits
import Linuxyz.Lib.Buffer
import Linuxyz.Lib.Chain
import Linuxyz.Lib.Checksum
import Linuxyz.Lib.Counting
import Linuxyz.Lib.Ethernet
import Linuxyz.Lib.Exits
import Linuxyz.Lib.Heap
import Linuxyz.Lib.ListHead
import Linuxyz.Lib.RingIndex
import Linuxyz.Lib.Segments
import Linuxyz.Lib.Stacks
import Linuxyz.Lib.Strtok
import Linuxyz.Lib.System
import Linuxyz.Ncat.Client
import Linuxyz.Ncat.Framing
import Linuxyz.NcatRs.Framing
import Linuxyz.Netlink.Arp
import Linuxyz.Queue.Chan
import Linuxyz.Queue.DynamicList
import Linuxyz.Queue.StaticFifo
import Linuxyz.Queue.StaticSlots
import Linuxyz.RawIp.Packet
import Linuxyz.RawIp.RxRing
import Linuxyz.Rcu.Reclaim
import Linuxyz.SockAsync.Echo
import Linuxyz.SockPoll.Server
import Linuxyz.TenK.Scan
import Linuxyz.TenK.Table
import Linuxyz.Tls.Server
import Linuxyz.Vector.Copying
import Linuxyz.Vector.Refine
import Linuxyz.Veth.LifeCycle
import Linuxyz.Veth.NoStrand
import Linuxyz.Wc.Count
import Linuxyz.Webrtc.Rooms
import Linuxyz.Webrtc.Signal
import Linuxyz.Webrtc.Sync
import Linuxyz.Webrtc.Tracks
import Linuxyz.Webrtc.Video
import Linuxyz.Xdp.Vlan
import Linuxyz.Xfrm.GcmAuth
import Linuxyz.Xfrm.Skb
import Linuxyz.Xfrm.Transparent
import Linuxyz.Xsk.Conserve
import Linuxyz.Xsk.Return
import Linuxyz.Xsk.Rewrite
import Linuxyz.Xsk.Shutdown
