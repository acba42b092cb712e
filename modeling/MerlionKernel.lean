import MerlionKernel.Bgp.BestPath
import MerlionKernel.Bpf.Filter
import MerlionKernel.Bpf.Safety
import MerlionKernel.Build.Order
import MerlionKernel.Capability.Confined
import MerlionKernel.Capability.Seccomp
import MerlionKernel.Compress.Untrusted
import MerlionKernel.Cow.Tracker
import MerlionKernel.Crypto.Rsa
import MerlionKernel.Dhcp.Unique
import MerlionKernel.Diff.Patch
import MerlionKernel.Diff.Unified
import MerlionKernel.Dns.Answers
import MerlionKernel.Ebpf.Maps
import MerlionKernel.Encoding.Base64
import MerlionKernel.Encoding.Crc32
import MerlionKernel.Fat.Atomic
import MerlionKernel.Fat.Corrupt
import MerlionKernel.Fat.Space
import MerlionKernel.Glob.Components
import MerlionKernel.Http2.Hpack
import MerlionKernel.Http2.Watched
import MerlionKernel.Ipc.MessageQueue
import MerlionKernel.Ipc.Semaphore
import MerlionKernel.Iptables.Denied
import MerlionKernel.Iptables.Semantics
import MerlionKernel.KvDb.Image
import MerlionKernel.Lisp.Scope
import MerlionKernel.Mmap.Sync
import MerlionKernel.PQueue.Timer
import MerlionKernel.Pipefs.Create
import MerlionKernel.Pkg.Resolve
import MerlionKernel.Pthread.Exclusive
import MerlionKernel.Quic.Packets
import MerlionKernel.Quic.Streams
import MerlionKernel.Ratelimit.Bucket
import MerlionKernel.Regexp.Alternation
import MerlionKernel.Regexp.Anchors
import MerlionKernel.RtSched.Priorities
import MerlionKernel.RtSched.Utilisation
import MerlionKernel.Scheduler.Fair
import MerlionKernel.Security.Access
import MerlionKernel.Security.Users
import MerlionKernel.Service.Supervision
import MerlionKernel.ShellLang.Total
import MerlionKernel.Slab.Cache
import MerlionKernel.Tar.RoundTrip
import MerlionKernel.Task.Switch
import MerlionKernel.Task.Table
import MerlionKernel.Tcp.Cubic
import MerlionKernel.Tcp.Demux
import MerlionKernel.Tcp.Options
import MerlionKernel.Tcp.Receive
import MerlionKernel.Tcp.Sack
import MerlionKernel.Tcp.Segment
import MerlionKernel.Tmpfs.Mounts
import MerlionKernel.Vfs.Shape
import MerlionKernel.Wasm.Calls
import MerlionKernel.Wireguard.Routing
