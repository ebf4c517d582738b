import Velosearch.Lib.Majority
import Velosearch.Lib.Succession
import Velosearch.Lib.Entries
import Velosearch.Lib.TreeMaps
import Velosearch.Lib.Text
import Velosearch.Cluster.State
import Velosearch.Cluster.Allocation.Deciders
import Velosearch.Cluster.Allocation.Reroute
import Velosearch.Cluster.Allocation.Commands
import Velosearch.Cluster.Allocation.Copies
import Velosearch.Cluster.Allocation.Layouts
import Velosearch.Cluster.Allocation.Edits
import Velosearch.Cluster.Allocation.Passes
import Velosearch.Cluster.Allocation.Runs
import Velosearch.Cluster.Coordinator.Basic
import Velosearch.Cluster.Coordinator.Election
import Velosearch.Cluster.Coordinator.Place
import Velosearch.Cluster.Coordinator.Publish
import Velosearch.Cluster.Coordinator.Messages
import Velosearch.Cluster.Coordinator.View
import Velosearch.Cluster.Coordinator.Acts
import Velosearch.Cluster.Coordinator.Moves
import Velosearch.Cluster.Coordinator.Orders
import Velosearch.Cluster.Coordinator.Lives
import Velosearch.Cluster.Coordinator.Desk
import Velosearch.Cluster.Coordinator.Chores
import Velosearch.Cluster.Coordinator.Reports
import Velosearch.Cluster.Coordinator.Tables
import Velosearch.Cluster.Sim
import Velosearch.Cluster.Safety.Scene
import Velosearch.Cluster.Safety.Steps
import Velosearch.Cluster.Safety.Runs
import Velosearch.Cluster.Coordinator.Strangers
import Velosearch.Index.State
import Velosearch.Index.Write
import Velosearch.Index.Replica
import Velosearch.Index.Sound
import Velosearch.Index.Made
import Velosearch.Index.Following
import Velosearch.Index.Queue
import Velosearch.Index.Visible
import Velosearch.Index.Translog
import Velosearch.Cluster.Replication
import Velosearch.Cluster.Bulk
import Velosearch.Cluster.Frames
import Velosearch.Cluster.QueryText
import Velosearch.Index.Recovery
import Velosearch.Store.Registry
import Velosearch.Index.DocMeta
import Velosearch.Api.Doc
import Velosearch.Api.Refused
import Velosearch.Api.Alike
import Velosearch.Api.Bulk
import Velosearch.Api.Whole
import Velosearch.Lib.TopK
import Velosearch.Search.Values
import Velosearch.Search.Collect
import Velosearch.Search.Best
import Velosearch.Search.Paging
import Velosearch.Search.SortOrder
import Velosearch.Ism.Jobs
import Velosearch.Lib.Glob
import Velosearch.Lib.Crash
import Velosearch.Store.Names
import Velosearch.Store.Resolve
import Velosearch.Lib.Greedy
import Velosearch.Security.Roles
import Velosearch.Store.Restore
import Velosearch.Api.Restore
import Velosearch.Ism.Sm
import Velosearch.Store.Snapshot
import Velosearch.Api.AliasActions
import Velosearch.Api.AliasTable
import Velosearch.Api.ByQuery
import Velosearch.Api.Walks
import Velosearch.Cluster.Coordinator.InSync
import Velosearch.Ingest.Handled
import Velosearch.Ingest.Chunking
import Velosearch.Ingest.Dissect
import Velosearch.Ism.Ages
import Velosearch.Ism.Rollup
import Velosearch.Ism.Continuous
import Velosearch.Lib.Heap
import Velosearch.Lib.Instants
import Velosearch.Lib.Pages
import Velosearch.Lib.Probing
import Velosearch.Query.Conjunctions
import Velosearch.Query.Ordered
import Velosearch.Query.Phrase
import Velosearch.Query.Unordered
import Velosearch.Search.BlockRange
import Velosearch.Search.Composite
import Velosearch.Search.CompositePaging
import Velosearch.Search.Hll
import Velosearch.Search.Routing
import Velosearch.Security.Saves
import Velosearch.Store.DateMeaning
import Velosearch.Store.DatesReadBack
import Velosearch.Api.Resize
import Velosearch.Search.ZonedDates
import Velosearch.Query.SpanTrees
import Velosearch.Lib.Json
import Velosearch.Api.Mustache
import Velosearch.Api.Rendered
import Velosearch.Api.Templates
import Velosearch.Painless.Ranges
import Velosearch.Security.Globs
import Velosearch.Cluster.Safety.Publications
import Velosearch.Cluster.Connection
import Velosearch.Cluster.Coordinator.Restarts
import Velosearch.Cluster.Allocation.Ids
import Velosearch.Cluster.Batches
import Velosearch.Index.Resent
import Velosearch.Security.Widening
import Velosearch.Search.Spread
