import TreeRssi.Lib.Run
import TreeRssi.Lib.Rounds
import TreeRssi.Lib.ParentTree
import TreeRssi.Lib.BestPath
import TreeRssi.Lib.DepthFirst
import TreeRssi.Lib.CText
import TreeRssi.Lib.Settle
import TreeRssi.Lib.SequenceLog
import TreeRssi.Lib.BlockPool
import TreeRssi.Lib.Bounds
import TreeRssi.Lib.KeyedStreams
import TreeRssi.Lib.TokenFlow
import TreeRssi.Lib.Timers
import TreeRssi.Core.Neighbours
import TreeRssi.Core.BeaconNet
import TreeRssi.Core.Table
import TreeRssi.Core.Codec
import TreeRssi.Core.Control
import TreeRssi.Core.Data
import TreeRssi.Core.Routing
import TreeRssi.Core.Network
import TreeRssi.Core.NeighbourTable
import TreeRssi.Core.PacketNode
import TreeRssi.Core.System
import TreeRssi.Core.ReceivePath
import TreeRssi.Core.SendPath
import TreeRssi.Core.Trickle
import TreeRssi.Core.TimedNet
import TreeRssi.Core.NodeImage
import TreeRssi.Core.ImageNet
import TreeRssi.Core.FirstVersion
import TreeRssi.Proofs.Election
import TreeRssi.Proofs.BeaconSteps
import TreeRssi.Proofs.LoopFreedom
import TreeRssi.Proofs.PathOptimality
import TreeRssi.Proofs.PhantomRoutes
import TreeRssi.Proofs.BeaconRounds
import TreeRssi.Proofs.Coherence
import TreeRssi.Proofs.Serialize
import TreeRssi.Proofs.Codec
import TreeRssi.Proofs.SerialLength
import TreeRssi.Proofs.Table
import TreeRssi.Proofs.Search
import TreeRssi.Proofs.ControlMessages
import TreeRssi.Proofs.LostUpdates
import TreeRssi.Proofs.Representation
import TreeRssi.Proofs.Provenance
import TreeRssi.Proofs.SearchTermination
import TreeRssi.Proofs.SearchDepth
import TreeRssi.Proofs.ForwardingLoops
import TreeRssi.Proofs.TreeShape
import TreeRssi.Proofs.Capacity
import TreeRssi.Proofs.MergeLaws
import TreeRssi.Proofs.EdgeLoss
import TreeRssi.Proofs.Convergence
import TreeRssi.Proofs.Delivery
import TreeRssi.Proofs.ControlRounds
import TreeRssi.Proofs.ColdStart
import TreeRssi.Proofs.DataHop
import TreeRssi.Proofs.LossAccounting
import TreeRssi.Proofs.NeighbourTable
import TreeRssi.Proofs.PacketNode
import TreeRssi.Proofs.MessageIntegrity
import TreeRssi.Proofs.ReceivePath
import TreeRssi.Proofs.SendPath
import TreeRssi.Proofs.BeaconOrder
import TreeRssi.Proofs.Trickle
import TreeRssi.Proofs.StatsSummary
import TreeRssi.Proofs.FirstVersion
import TreeRssi.Proofs.SystemFlow
import TreeRssi.Proofs.SystemRun
import TreeRssi.Proofs.Conservation
import TreeRssi.Proofs.SteadyRoutes
import TreeRssi.Proofs.Drain
import TreeRssi.Proofs.SinkStatistics
import TreeRssi.Proofs.SystemColdStart
import TreeRssi.Proofs.Restabilize
import TreeRssi.Proofs.BeaconTimers
import TreeRssi.Proofs.TimedConvergence
import TreeRssi.Proofs.NodeImage
import TreeRssi.Proofs.ImageNet
