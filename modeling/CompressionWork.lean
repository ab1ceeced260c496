import CompressionWork.Bdi.Blocks
import CompressionWork.Bdi.Compress
import CompressionWork.Bdi.Fields
import CompressionWork.Bdi.Size
import CompressionWork.Bpc.Collision
import CompressionWork.Bpc.Decode
import CompressionWork.Bpc.Encode
import CompressionWork.Bpc.Recover
import CompressionWork.Bpc.Transform
import CompressionWork.Codec.Coupled
import CompressionWork.Codec.TokenStream
import CompressionWork.Cpack.Fifo
import CompressionWork.Cpack.Lossless
import CompressionWork.Cpack.Size
import CompressionWork.Fpc.Lossless
import CompressionWork.Fpc.Cheapest
import CompressionWork.Fpc.WordCount
import CompressionWork.Bdi.Payload
import CompressionWork.Cache.Config
import CompressionWork.Cache.TagArray
import CompressionWork.Cache.Caches
import CompressionWork.Cache.Atomic
import CompressionWork.Cache.Delivery
import CompressionWork.Cache.Run
import CompressionWork.Cache.Layout
import CompressionWork.Cache.Victim
import CompressionWork.Codec.Huffman
import CompressionWork.Sampling.Table
import CompressionWork.Sampling.Code
import CompressionWork.Sampling.Optimal
import CompressionWork.Sampling.Tracker
import CompressionWork.Sc2.Compress
import CompressionWork.Sc2.Lossless
import CompressionWork.Fph.Compress
import CompressionWork.Fph.Fields
import CompressionWork.Fph.Lossless
import CompressionWork.Fph.Phase
import CompressionWork.Lwm.Dict
import CompressionWork.Lwm.Compress
import CompressionWork.Lwm.Lossless
import CompressionWork.Remap.Permute
import CompressionWork.Remap.Reversible
import CompressionWork.Remap.Ops
import CompressionWork.Remap.Paid
import CompressionWork.Dsc.Code
import CompressionWork.Abpd.Compress
import CompressionWork.Dsc.Paid
import CompressionWork.Abpd.Decode
import CompressionWork.Abpd.Lossless
import CompressionWork.Reply.Pipeline
import CompressionWork.Reply.Compressor
import CompressionWork.Reply.Delivery
import CompressionWork.Reply.Capacity
import CompressionWork.Reply.Unmerge
import CompressionWork.Cache.Segments
import CompressionWork.Cache.Choice
import CompressionWork.Cache.Eviction
import CompressionWork.Cache.Occupancy
import CompressionWork.Cache.Flush
import CompressionWork.Cache.Completion
import CompressionWork.Cache.EnoughSpace
import CompressionWork.Dram.Scheduler
import CompressionWork.Dram.Faithful
import CompressionWork.Dram.Fifo
import CompressionWork.Dram.Channel
import CompressionWork.Dram.Timing
import CompressionWork.Dram.Requests
import CompressionWork.Dram.Credits
import CompressionWork.Coalesce.Atomic
import CompressionWork.Ptx.Exact
import CompressionWork.Ptx.Reconvergence
import CompressionWork.AddrDec.Injective
import CompressionWork.Multicast.Exact
import CompressionWork.FuncMem.Flat
import CompressionWork.Request.Conserve
import CompressionWork.FuncSim.Barrier
import CompressionWork.Streams.Exact
import CompressionWork.L1Decomp.Served
import CompressionWork.Reply.Charge
import CompressionWork.Barrier.BarrierSet
import CompressionWork.Barrier.Release
import CompressionWork.Launch.Completion
import CompressionWork.HpclDict.Replace
import CompressionWork.HpclDict.Victim
import CompressionWork.Reply.Stages
import CompressionWork.Lwm.History
import CompressionWork.Remap.Chars
import CompressionWork.Remap.Planes
import CompressionWork.Remap.CharInjective
import CompressionWork.Dsc.Account
import CompressionWork.Cache.Ring
import CompressionWork.Cache.Probe
import CompressionWork.Cache.TexOrder
import CompressionWork.Reply.Forest
import CompressionWork.Bdi.Exact
import CompressionWork.Cache.Once
import CompressionWork.Cache.Dirty
import CompressionWork.Ldst.Complete
import CompressionWork.Ldst.Exact
import CompressionWork.Simt.Faithful
import CompressionWork.Approx.Approximate
import CompressionWork.Approx.Compensated
import CompressionWork.Approx.Confined
import CompressionWork.Cache.BlockIdentity
import CompressionWork.Dram.BankGroups
import CompressionWork.Dram.CreditLimit
import CompressionWork.Dram.Pipeline
import CompressionWork.Decode.PreDecode
import CompressionWork.Ptx.BreakTarget
import CompressionWork.Dram.Accesses
import CompressionWork.Decode.Plain
import CompressionWork.Coalesce.CachedAccess
import CompressionWork.Coalesce.SharedMemory
import CompressionWork.Lwm.PartComp
import CompressionWork.Lwm.PtrWidth
import CompressionWork.Lwm.Segments
import CompressionWork.Lwm.Selection
import CompressionWork.Lwm.Record
import CompressionWork.Reply.Occupancy
import CompressionWork.Reply.PacketSize
import CompressionWork.Icnt.NodeMap
import CompressionWork.Icnt.BoundaryBuffer
import CompressionWork.Launch.Threads
import CompressionWork.Ldst.LongOps
import CompressionWork.Sched.TwoLevel
import CompressionWork.Opndcoll.Arbiter
import CompressionWork.LocalMem.Translate
import CompressionWork.Graph.Matching
import CompressionWork.Icnt.Allocator
import CompressionWork.Icnt.MaxSize
import CompressionWork.Icnt.Wavefront
import CompressionWork.Icnt.BufferState
import CompressionWork.Icnt.CreditLink
import CompressionWork.Transition.Answers
import CompressionWork.Codec.Places
import CompressionWork.Icnt.Arbiter
import CompressionWork.Icnt.Mesh
import CompressionWork.Icnt.Torus
import CompressionWork.Icnt.Fly
import CompressionWork.Icnt.Islip
