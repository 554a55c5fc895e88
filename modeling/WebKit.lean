import WebKit.Bmalloc.LargeRun
import WebKit.Storage.Convergence
import WebKit.NetworkCache.RecordFilter
import WebKit.WTF.DequeRun
import WebKit.WTF.BitVectorRun
import WebKit.IndexedDB.CoordinatorRun
import WebKit.WTF.MetaAllocatorRun
import WebKit.IPC.DeliveryRun
import WebKit.IPC.SyncWaiting
import WebKit.Platform.SharedBufferRun
import WebKit.CSS.SelectorFilterSpec
import WebKit.Loader.MemoryCacheRun
import WebKit.Platform.SegmentedStringRun
import WebKit.NetworkCache.StorageOrderRun
import WebKit.WTF.StringBuilderRun
import WebKit.IndexedDB.VersionChangeAbort
import WebKit.IndexedDB.IndexRecordsRun
import WebKit.IndexedDB.MetadataCacheRun
import WebKit.WTF.HashTableConsistency
import WebKit.ContentExtensions.ActionLocations
import WebKit.Storage.StorageMapSharing
import WebKit.Bmalloc.FreeLines
import WebKit.ContentExtensions.DFAMinimizer
import WebKit.ContentExtensions.ConversionLimits
import WebKit.WTF.MediaTimeOrder
import WebKit.IndexedDB.KeyComparison
import WebKit.Graphics.RegionQueries
import WebKit.Graphics.TimeRangesCopy
import WebKit.WebSockets.FrameRoundTrip
import WebKit.IPC.DecodedTable
import WebKit.WTF.Base64RoundTrip
import WebKit.UIProcess.WebBackForwardList
import WebKit.Platform.LayoutUnit
import WebKit.IPC.SyncMessageOrder
import WebKit.Ordered.Map
import WebKit.MediaSource.SampleMap
import WebKit.DOM.CollectionIndexCache
import WebKit.ContentExtensions.PartitionRun
import WebKit.IndexedDB.KeyGenerator
import WebKit.WebSockets.ChannelRun
