import StreamEP.Lib.PrefixSum
import StreamEP.Lib.Store
import StreamEP.Lib.BitMask
import StreamEP.Lib.TransitionSystem
import StreamEP.Lib.Publication
import StreamEP.Lib.FencedRounds
import StreamEP.Lib.Warp
import StreamEP.Lib.BlockScan
import StreamEP.Lib.Loop
import StreamEP.Lib.Stream
import StreamEP.Lib.Exchange
import StreamEP.Lib.Countdown
import StreamEP.Lib.CreditedRings
import StreamEP.Lib.BaselineRings
import StreamEP.Lib.ReplayRings
import StreamEP.Lib.RingProgress
import StreamEP.Lib.WrapCounter
import StreamEP.Lib.RoundRing
import StreamEP.Lib.SlidingWindow
import StreamEP.Lib.LookAhead
import StreamEP.Lib.HeadScan
import StreamEP.Lib.ReplayEntries
import StreamEP.Lib.TwoLevelRings
import StreamEP.Lib.CInt
import StreamEP.Lib.CheckedWord
import StreamEP.Lib.SlabChain
import StreamEP.Lib.Tickets
import StreamEP.Lib.RingReuse
import StreamEP.Routing
import StreamEP.Config
import StreamEP.Substream
import StreamEP.Histogram
import StreamEP.Pool
import StreamEP.Tiles
import StreamEP.PoolMaps
import StreamEP.PoolTables
import StreamEP.Slots
import StreamEP.Layout
import StreamEP.SubstreamSlots
import StreamEP.Barrier
import StreamEP.Lib.CasMax
import StreamEP.Internode.ReaderPrev
import StreamEP.Internode.NvlSlotTag
import StreamEP.Intranode.Metadata
import StreamEP.Intranode.Slots
import StreamEP.Intranode.Sender
import StreamEP.Intranode.SendHead
import StreamEP.Intranode.Receiver
import StreamEP.Intranode.Dispatch
import StreamEP.Intranode.Layout
import StreamEP.Intranode.DispatchRing
import StreamEP.Intranode.BufferLayout
import StreamEP.NvlHint
import StreamEP.BufferCalls
import StreamEP.Intranode.Arrival
import StreamEP.Intranode.Combine
import StreamEP.Intranode.CombineProgress
import StreamEP.Intranode.CombineSum
import StreamEP.Intranode.CombineHeads
import StreamEP.Intranode.RingReuse
import StreamEP.Internode.Nodes
import StreamEP.RegionBytes
import StreamEP.SizeHints
import StreamEP.Internode.ChannelPrefix
import StreamEP.Internode.MetadataExchange
import StreamEP.Internode.PhaseA
import StreamEP.Internode.PhaseB
import StreamEP.Lib.Transfers
import StreamEP.Lib.RepeatedExchange
import StreamEP.Intranode.MetadataRuns
import StreamEP.Internode.MetadataRuns
import StreamEP.Internode.RingPhase
import StreamEP.Internode.HeadRuns
import StreamEP.Internode.HeaderTag
import StreamEP.Internode.SenderWindow
import StreamEP.Internode.FanOut
import StreamEP.Internode.SenderCoordinator
import StreamEP.Internode.BufferChains
import StreamEP.Internode.ChainRegions
import StreamEP.Internode.NvlHeads
import StreamEP.Internode.UsableHeads
import StreamEP.Internode.Forwarder
import StreamEP.Internode.ForwarderInv
import StreamEP.Internode.ForwarderSteps
import StreamEP.Internode.ForwarderRuns
import StreamEP.Internode.CreditLink
import StreamEP.Internode.CreditRuns
import StreamEP.Internode.CreditPuts
import StreamEP.Internode.CombineHeads
import StreamEP.Internode.CombineRuns
import StreamEP.Internode.CombinePuts
import StreamEP.StreamMoe.TileScheduler
import StreamEP.StreamMoe.GroupedGemm
import StreamEP.StreamMoe.Scatter
import StreamEP.StreamMoe.ScatterStore
import StreamEP.StreamMoe.PoolLaunch
import StreamEP.StreamMoe.Completion
import StreamEP.StreamMoe.ScatterSum
import StreamEP.StreamMoe.TileClaims
import StreamEP.StreamMoe.TileConfig
import StreamEP.StreamMoe.ExpertDropout
import StreamEP.StreamMoe.Layer
import StreamEP.Lib.Batches
import StreamEP.Lib.Lanes
import StreamEP.Internode.EagerFire
import StreamEP.Internode.PoolReceiver
import StreamEP.Internode.PoolLayout
import StreamEP.PoolContents
import StreamEP.HeldTokens
import StreamEP.PairSums
import StreamEP.DispatchGrads
import StreamEP.Internode.ReferenceLayout
import StreamEP.Internode.ForwardedStreams
import StreamEP.Internode.Combine
import StreamEP.Internode.CombineSum
import StreamEP.Internode.FiredTiles
import StreamEP.Internode.Arrival
import StreamEP.Internode.Forward
import StreamEP.Internode.Backward
import StreamEP.PoolScan
import StreamEP.StreamMoe.RecvPoolCompress
import StreamEP.StreamMoe.RecvPool
import StreamEP.Internode.CombineProgress
import StreamEP.Internode.CombineDeadlock
import StreamEP.Intranode.Forward
import StreamEP.StreamMoe.LayerGrads
import StreamEP.StreamMoe.LayerRun
import StreamEP.Intranode.Backward
import StreamEP.StreamMoe.Derivative
import StreamEP.TrainingStep
