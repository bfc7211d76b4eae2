import DiskAnn.Inmem.EpochSafety
import DiskAnn.Inmem.ProviderSafety
import DiskAnn.Neighbor.Queue
import DiskAnn.Data.List
import DiskAnn.Neighbor.Slots
import DiskAnn.Neighbor.QueueCursor
import DiskAnn.Neighbor.DiverseQueue
import DiskAnn.Neighbor.DiverseCoupling
import DiskAnn.Graph.WorkingSet
import DiskAnn.Graph.WorkingSetFill
import DiskAnn.Garnet.Fsm
import DiskAnn.Garnet.FsmProtocol
import DiskAnn.Garnet.FsmCode
import DiskAnn.Garnet.FsmSafety
import DiskAnn.Garnet.FsmSolo
import DiskAnn.Garnet.FsmReuse
import DiskAnn.Garnet.FsmRecovery
import DiskAnn.Garnet.Provider
import DiskAnn.Garnet.ProviderSolo
import DiskAnn.Garnet.StartPoint
import DiskAnn.Garnet.StartNeighbors
import DiskAnn.Garnet.IdMaps
import DiskAnn.LabelFilter.Attribute
import DiskAnn.Neighbor.QueueContents
import DiskAnn.Neighbor.DiverseTrim
import DiskAnn.Graph.Search
import DiskAnn.Graph.SearchRun
import DiskAnn.Graph.BetaFilter
import DiskAnn.Graph.PagedSearch
import DiskAnn.Record.DiskSave
import DiskAnn.Streaming.Headroom
import DiskAnn.Streaming.TagSlots
import DiskAnn.Inmem.StoreSolo
import DiskAnn.Inmem.StoreHistory
import DiskAnn.Inmem.StoreAcquire
import DiskAnn.Data.Bytes
import DiskAnn.Disk.Storage
import DiskAnn.Disk.MergeShards
import DiskAnn.Disk.MergeShardsRun
import DiskAnn.Graph.Prune
import DiskAnn.Graph.PruneRun
import DiskAnn.Graph.PruneRules
import DiskAnn.Graph.Backedge
import DiskAnn.Graph.OccludeList
import DiskAnn.Graph.Consolidate
import DiskAnn.Graph.RangeSearchStats
import DiskAnn.Graph.AdaptiveL
import DiskAnn.Graph.FilteredRangeRun
import DiskAnn.LabelFilter.AttributeStore
import DiskAnn.LabelFilter.LabelIdMapper
import DiskAnn.LabelFilter.GenericIndex
import DiskAnn.LabelFilter.Postings
import DiskAnn.Async.Balancer
import DiskAnn.Inmem.Neighbors
import DiskAnn.Data.Lex
import DiskAnn.LabelFilter.KeyOrder
import DiskAnn.LabelFilter.QueryEvaluator
import DiskAnn.LabelFilter.RangeExact
import DiskAnn.LabelFilter.QueryParser
import DiskAnn.LabelFilter.FilterMeaning
import DiskAnn.LabelFilter.JsonPointer
import DiskAnn.LabelFilter.Flatten
import DiskAnn.Garnet.FsmFailure
import DiskAnn.Garnet.SetElementFailure
import DiskAnn.Garnet.RandomMembers
import DiskAnn.Record.ArtifactNames
import DiskAnn.Disk.CachedFiles
import DiskAnn.Disk.IoBudget
import DiskAnn.Quantization.BlockTransposed
import DiskAnn.Data.EvenSplit
import DiskAnn.Quantization.ChunkOffsets
import DiskAnn.Sampling.LatinHypercube
import DiskAnn.Sampling.VectorReader
