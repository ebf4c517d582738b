import Velosearch.Cluster.Coordinator.Election

/-!
# What a state carries to the data nodes, and what a node makes of one

`with_terms` of `src/cluster/metadata.rs`, and of `src/cluster/coordinator.rs` what
lays index metadata and shard placement over a state (`place`), what a node does
with the copies a committed state puts on it (`apply_metadata`, `apply_shards`),
what it reports (`report`, `report_metadata`), and `reconfigure`.

None of this moves a term, an accepted or a committed state: it fills in what the
manager is about to publish, and reads what was committed.
-/

set_option autoImplicit false

namespace Velosearch.Cluster

open Allocation

/-- An allocation id with its index and shard. -/
abbrev Named := String × Nat × String

/-- The ids of an index. -/
def ofIndex (index : String) (l : List Named) : List (Nat × String) :=
  (l.filter fun n => n.1 == index).map (·.2)

/-- The ids of a shard. -/
def ofShard (shard : Nat) (l : List (Nat × String)) : List String :=
  (l.filter fun n => n.1 == shard).map (·.2)

/-! ## In-sync sets and primary terms -/

/-- A copy that is active is in sync. -/
def addActive (fromNothing : Bool) (up : List String) (inSync : List String)
    (c : ShardRouting) : List String :=
  match c.allocationId with
  | some a =>
    if c.active && (!fromNothing || c.primary || up.contains a) && !inSync.contains a then
      inSync ++ [a]
    else inSync
  | none => inSync

/-- The in-sync set of one shard: what was in it and was not retired, the primary,
and the copies whose nodes have just finished filling them; a primary made
empty on request stands alone. -/
def inSyncSet (copies : List ShardRouting) (previous : List String)
    (retired reset up : List String) : List String :=
  let fromNothing := previous.isEmpty
  let added := copies.foldl (addActive fromNothing up) previous
  let kept := added.filter fun a => !retired.contains a
  let set := match reset.getLast? with
    | some a => [a]
    | none => kept
  if set.isEmpty then previous else set

/-- The terms and in-sync ids of a state's shards. -/
def withShardTerms (routing : RoutingTable) (terms : BTreeMap String (BTreeMap Nat Nat))
    (previous : BTreeMap Nat (List String)) (retired reset started : List (Nat × String))
    (m : IndexMetadata) (shard : Nat) : IndexMetadata :=
  let carried := (m.primaryTerms[shard]?).getD 1
  let counted := ((terms[m.name]?).bind fun t => t[shard]?).getD 1
  { m with
    primaryTerms := m.primaryTerms.insert shard (max counted carried)
    inSyncAllocations := m.inSyncAllocations.insert shard
      (inSyncSet (routing.copies m.name shard) ((previous[shard]?).getD [])
        (ofShard shard retired) (ofShard shard reset) (ofShard shard started)) }

/-- `with_terms`: the metadata with the primary terms and in-sync allocations the
routing gives it. -/
def withTerms (routing : RoutingTable) (terms : BTreeMap String (BTreeMap Nat Nat))
    (previous : BTreeMap Nat (List String)) (retired reset started : List (Nat × String))
    (m : IndexMetadata) : IndexMetadata :=
  (List.range m.numberOfShards).foldl
    (withShardTerms routing terms previous retired reset started) m

/-- A primary term after a promotion. -/
def nextTerm (counted carried : Nat) : Nat := (max counted carried + 1) % 2 ^ 64

namespace Coordinator

variable (env : Env)

/-! ## Shard events -/

/-- The mark of an answer no publication carries yet. -/
def notCarried : Nat := u64Max

/-- The table as the events leave it, and the copies they retire, reset and
start. -/
structure Taken where
  table : RoutingTable
  retired : List Named := []
  reset : List Named := []
  started : List Named := []

/-- One event taken into the table. -/
def takeEvent (indices : BTreeMap String IndexMetadata) (now : Millis) (k : Taken) :
    ShardEvent → Taken
  | .started index shard id =>
    match shardStarted k.table index shard id with
    | (t, some st) =>
      { k with
        table := t
        started := k.started ++ [(index, shard, id)]
        retired := k.retired ++ st.retired.toList.map fun r => (index, shard, r)
        reset := k.reset ++ if st.forcedPrimary then [(index, shard, id)] else [] }
    | (t, none) => { k with table := t }
  | .stale index shard id =>
    let (t, placed) := shardStale k.table index shard id now
    let remembered := !placed &&
      (((indices[index]?).bind fun m => m.inSyncAllocations[shard]?).getD []).contains id &&
      (t.primary index shard).bind (·.allocationId) != some id
    { k with
      table := t
      retired := k.retired ++ if placed || remembered then [(index, shard, id)] else [] }
  | .failed index shard id message =>
    let (t, ok) := shardFailed k.table index shard id now message
    { k with
      table := t
      retired := k.retired ++ if ok then [(index, shard, id)] else [] }

/-! ## Placing -/

/-- `table.primary(name, 0).and_then(|p| p.node.clone())` -/
def primaryOf (t : RoutingTable) (name : String) : Option NodeId :=
  (t.primary name 0).bind (·.node)

/-- The index was deleted. -/
def buried (graveyard : List Tombstone) (name uuid : String) : Bool :=
  graveyard.any fun t => t.indexUuid == some uuid && t.indexName == some name

/-- The last five hundred deletions are remembered. -/
def trimGraveyard (g : List Tombstone) : List Tombstone := g.drop (g.length - 500)

/-- A store's metadata knows nothing of which copies are in sync or what term a
primary is in: those come from what was published. -/
def carriedMetadata (published : BTreeMap String IndexMetadata) (name : String)
    (m : IndexMetadata) : IndexMetadata :=
  match published[name]? with
  | some prev =>
    { m with inSyncAllocations := prev.inSyncAllocations, primaryTerms := prev.primaryTerms }
  | none => m

/-- The indices this node holds, over those that were published. -/
def layOwn (me : NodeId) (table : RoutingTable) (graveyard : List Tombstone)
    (published : BTreeMap String IndexMetadata)
    (acc : BTreeMap String IndexMetadata × BTreeMap String NodeId)
    (entry : String × IndexMetadata) :
    BTreeMap String IndexMetadata × BTreeMap String NodeId :=
  let (name, m) := entry
  if buried graveyard name m.uuid then acc
  else match primaryOf table name with
    | some p =>
      if p = me then (acc.1.insert name (carriedMetadata published name m), acc.2) else acc
    | none =>
      (acc.1.insert name (carriedMetadata published name m),
        if published.contains name then acc.2 else acc.2.insert name me)

/-- The indices another node reports, over those. -/
def layReport (table : RoutingTable) (graveyard : List Tombstone)
    (published : BTreeMap String IndexMetadata) (base : BTreeMap String IndexMetadata)
    (entry : String × NodeId × IndexMetadata) : BTreeMap String IndexMetadata :=
  let (name, node, m) := entry
  if primaryOf table name = some node ∧ ¬ buried graveyard name m.uuid then
    base.insert name (carriedMetadata published name m)
  else base

/-- What a publication of metadata would change, put into a number. -/
def metadataFingerprint (c : Coordinator) (src : Source)
    (own : BTreeMap String IndexMetadata) (routing : RoutingTable) : Nat :=
  let mine := own.filter fun n _ =>
    ((primaryOf routing n).map (· == c.me.id)).getD true
  env.digest (env.fingerprint mine) [src.customs, src.clusterSettings]

/-- A promotion counts one to the primary term. -/
def countPromoted (base : BTreeMap String IndexMetadata)
    (terms : BTreeMap String (BTreeMap Nat Nat)) (p : String × Nat × NodeId) :
    BTreeMap String (BTreeMap Nat Nat) :=
  let (index, shard, _) := p
  let carried := ((base[index]?).bind fun m => m.primaryTerms[shard]?).getD 1
  let of := (terms[index]?).getD ∅
  terms.insert index (of.insert shard (nextTerm ((of[shard]?).getD carried) carried))

/-- The answers that were waiting are carried by a version. -/
def carryReplies (c : Coordinator) (version : Nat) : Coordinator :=
  { c with eventReplies := c.eventReplies.map fun w =>
      if w.carriedAt = notCarried then { w with carriedAt := version } else w }

/-- What the placing did, for the log. -/
def placeNotes (c : Coordinator) (ch : Changes) : Coordinator :=
  let c := ch.retired.foldl (fun c (i, s, id) => c.remark (.leftInSync i s id)) c
  let c := ch.notes.foldl (fun c n => c.remark (.allocation n)) c
  let c := if ch.isEmpty then c else c.remark (.allocationCounts ch.assigned.length
    ch.unassigned.length ch.promoted.length ch.relocating.length)
  match ch.nextDelayAt with
  | some ready => c.emit (.timer .allocate (max (ready - c.lastWall) 1))
  | none => c

/-- What it did to the in-sync sets. -/
def inSyncNotes (c : Coordinator) (before after : BTreeMap String IndexMetadata) :
    Coordinator :=
  after.toList.foldl (fun c (n, m) =>
    let now := (m.inSyncAllocations[0]?).getD []
    let was := ((before[n]?).bind fun p => p.inSyncAllocations[0]?).getD []
    if now = was then c else c.remark (.inSync n was now)) c

/-- The metadata that is to be published. -/
structure Laid where
  base : BTreeMap String IndexMetadata
  home : BTreeMap String NodeId
  graveyard : List Tombstone
  reports : BTreeMap String (NodeId × IndexMetadata)

/-- The index metadata of a state about to be published: this node's store for the
primaries here and for indices not yet published, the latest report for
primaries elsewhere, what was published last for the rest; a deleted index goes
to the graveyard. -/
def lay (c : Coordinator) (src : Source) (table : RoutingTable) (s : ClusterState) : Laid :=
  let dead := src.tombstones.filterMap (·.indexName)
  let base := dead.foldl (fun b n => b.erase n) s.indices
  let reports := dead.foldl (fun b n => b.erase n) c.reports
  let graveyard := trimGraveyard
    (s.graveyard ++ src.tombstones.filter (·.indexName.isSome))
  let (base, home) := src.snapshot.toList.foldl
    (layOwn c.me.id table graveyard s.indices) (base, ∅)
  let base := reports.toList.foldl (layReport table graveyard s.indices) base
  ⟨base, home, graveyard, reports⟩

/-- A placing on its way: events taken, commands, metadata, routing. -/
structure Placing where
  taken : Taken
  laid : Laid
  work : Work
  terms : BTreeMap String (BTreeMap Nat Nat)
  indices : BTreeMap String IndexMetadata

/-- Everything `place` works out. -/
def placing (c : Coordinator) (src : Source) (s : ClusterState) : Placing :=
  let table := c.commandTable.getD s.routing
  let taken := c.shardEvents.foldl (takeEvent s.indices c.lastWall) { table := table }
  let laid := c.lay src taken.table s
  let heldBy := (c.heldBy.insert c.me.id src.held).filter fun n _ => s.nodes.contains n
  let ctx : Context :=
    { nodes := s.nodes
      indices := laid.base
      cluster := src.cluster
      primaryHome := laid.home
      homeHoldsDocuments := Std.ExtTreeSet.ofList
        (laid.home.keys.filter fun n => src.holdsDocuments.contains n) compare
      held := heldBy
      now := c.lastWall }
  let work := reroute ctx env.random taken.table c.drawn
  let terms := work.changes.promoted.foldl (countPromoted laid.base) c.terms
  let indices := laid.base.map fun n m => withTerms work.table terms
    (((s.indices[n]?).map (·.inSyncAllocations)).getD ∅)
    (ofIndex n (taken.retired ++ work.changes.retired))
    (ofIndex n taken.reset) (ofIndex n taken.started) m
  { taken := taken
    laid := laid
    work := work
    terms := terms.filter fun i _ => indices.contains i
    indices := indices }

/-- What is left on the coordinator once it has. -/
def afterPlacing (c : Coordinator) (src : Source) (s : ClusterState) (p : Placing) :
    Coordinator :=
  let c := c.carryReplies s.version
  let c := { c with
    commandTable := none
    shardEvents := []
    drawn := p.work.drawn
    reports := p.laid.reports
    terms := p.terms
    lastFingerprint := c.metadataFingerprint env src src.snapshot p.work.table }
  ((c.placeNotes p.work.changes).inSyncNotes s.indices p.indices).tell env
    (.settleSecurity s.customs true)

/-- `place`: the shards of a state are placed before it is published. -/
def place (c : Coordinator) (s : ClusterState) : Coordinator × ClusterState :=
  match env.metadata with
  | none => (c, s)
  | some look =>
    let src := look c.drawn
    let p := c.placing env src s
    (c.afterPlacing env src s p,
      { s with
        indices := p.indices, routing := p.work.table, graveyard := p.laid.graveyard
        clusterSettings := src.clusterSettings, customs := src.customs })

/-! ## Reports -/

/-- The leader is told what this node holds. -/
def reportMetadata (c : Coordinator) : Coordinator :=
  match env.metadata, c.mode with
  | some look, .follower leader =>
    let src := look c.drawn
    let fingerprint := fun (n : String) (m : IndexMetadata) =>
      env.fingerprint (Std.ExtTreeMap.ofList [(n, m)] compare)
    let changed := src.snapshot.toList.filter fun (n, m) =>
      ((primaryOf c.committed.routing n).map (· == c.me.id)).getD false &&
        c.reportedFp[n]? != some (fingerprint n m)
    let fps := changed.foldl (fun fp (n, m) => fp.insert n (fingerprint n m)) c.reportedFp
    if changed.isEmpty && src.held == c.heldReported then c
    else
      let c := { c with reportedFp := fps, heldReported := src.held }
      c.request leader .metadataReport
        { indices := changed.map Prod.snd, held := some src.held }
  | _, _ => c

/-- A shard event, to the leader or to the node itself. -/
def report (c : Coordinator) (ev : ShardEvent) : Coordinator :=
  match c.mode with
  | .leader => { c with shardEvents := c.shardEvents ++ [ev], republishWanted := true }
  | .follower l =>
    match ev with
    | .started index shard id => c.request l .shardStarted
        { index := some index, shard := some shard, allocationId := some id }
    | .failed index shard id message => c.request l .shardFailed
        { index := some index, shard := some shard, allocationId := some id
          message := some message }
    | .stale index shard id => c.request l .shardStale
        { index := some index, shard := some shard, allocationId := some id }
  | .candidate => c

/-! ## Applying what was committed -/

/-- The index is one whose metadata this node takes over. -/
def takesMetadata (c : Coordinator) (name : String) : Bool :=
  let routing := c.committed.routing
  (routing.onNode c.me.id).any (fun x => x.index == name) &&
    !((primaryOf routing name).map (· == c.me.id)).getD false

/-- The index is one this node drops. -/
def letsGo (c : Coordinator) (name : String) (m : IndexMetadata) : Option Bool :=
  let routing := c.committed.routing
  let buried := c.committed.graveyard.any fun t => t.indexUuid == some m.uuid
  let copyHere := (routing.onNode c.me.id).any fun x => x.index == name
  let activeElsewhere := (routing.shardsOf name).any fun x =>
    x.node != some c.me.id && x.primary && x.active
  if buried || (c.committed.indices.contains name && !copyHere && activeElsewhere &&
      decide (c.committed.version > 0)) then
    some buried
  else none

/-- The rest of the metadata is taken over where it has changed. -/
def takeCustoms (c : Coordinator) : Coordinator :=
  let fp := env.digest 0 [c.committed.customs]
  if fp ≠ c.customsApplied ∧ c.mode ≠ .leader then
    { c with customsApplied := fp }.tell env (.applyCustoms c.committed.customs)
  else c

/-- An index that is dropped here. -/
def dropLocal (c : Coordinator) (entry : String × IndexMetadata) : Coordinator :=
  match c.letsGo entry.1 entry.2 with
  | some buried => (c.remark (.droppedLocal entry.1 buried)).tell env (.dropLocal entry.1)
  | none => c

/-- The metadata of a committed state is taken over. -/
def applyMetadata (c : Coordinator) : Coordinator :=
  match env.metadata with
  | none => c
  | some look =>
    let c := if c.mode = .candidate then c
      else c.tell env (.settleSecurity c.committed.customs (c.mode == .leader))
    let c := c.emits ((c.committed.indices.keys.filter c.takesMetadata).map fun n =>
      .told (.applyIndexMetadata n))
    let c := c.takeCustoms env
    (look c.drawn).snapshot.toList.foldl (dropLocal env) c

/-- The copies that are placed here. -/
def mine (c : Coordinator) : List ShardRouting := c.committed.routing.onNode c.me.id

/-- A copy whose primary has changed is filled again. -/
def resyncCopy (c : Coordinator) (copy : ShardRouting) : Coordinator :=
  let term := ((c.committed.indices[copy.index]?).bind fun m =>
    m.primaryTerms[copy.shard]?).getD 1
  let of := (c.resynced[copy.index]?).getD ∅
  if (of[copy.shard]?).getD 0 ≥ term then c
  else
    let c := { c with
      resynced := c.resynced.insert copy.index (of.insert copy.shard term) }
    let others := (((c.committed.routing.shardsOf copy.index).filter fun x =>
      x.shard == copy.shard && !x.primary && x.active).filterMap (·.node)).filter
        fun n => n != c.me.id
    if others.isEmpty then c
    else
      let c := if env.host.isSome then
          c.emit (.told (.resync copy.index copy.shard term others))
        else c
      c.remark (.sendingCopies copy.index copy.shard others.length term)

/-- A copy that is to start here. -/
def startCopy (c : Coordinator) (copy : ShardRouting) : Coordinator :=
  match copy.allocationId with
  | none => c
  | some aid =>
    if c.reported.contains aid then c
    else
      let result := match env.host, c.committed.indices[copy.index]? with
        | some h, some m =>
          h m copy ((c.committed.routing.primary copy.index copy.shard).bind (·.node))
        | _, _ => .ok true
      let c := { c with
        reported := c.reported.insert aid
        hosted := c.hosted.insert aid (copy.index, copy.shard) }
      match result with
      | .ok false => c
      | .ok true => { c with startedHere := c.startedHere.insert aid }.report
          (.started copy.index copy.shard aid)
      | .error message => c.report (.failed copy.index copy.shard aid message)

/-- A copy that is placed here no more. -/
def releaseCopy (c : Coordinator) (gone : String × String × Nat) : Coordinator :=
  let (aid, index, shard) := gone
  let forget := { c with hosted := c.hosted.erase aid, reported := c.reported.erase aid }
  if c.hosted.toList.any fun (a, i, _) => i == index && a != aid then forget
  else
    let buried := !c.committed.indices.contains index &&
      c.committed.graveyard.any fun t => t.indexName == some index
    let elsewhere := (c.committed.routing.shardsOf index).any fun x =>
      x.shard == shard && x.node != some c.me.id && x.active
    if !buried && !elsewhere then c.remark (.copyKept index shard)
    else if env.host.isSome then forget.emit (.told (.removeShard index shard))
    else forget

/-- A copy that is placed here is remembered. -/
def noteCopy (c : Coordinator) (x : ShardRouting) : Coordinator :=
  match x.allocationId with
  | some a =>
    if x.state = .unassigned then c else c.tell env (.noteAllocation x.index x.shard a)
  | none => c

/-- A copy that was reported and is not started yet is reported again. -/
def reportAgain (c : Coordinator) (x : ShardRouting) : Coordinator :=
  match x.allocationId with
  | some aid => c.report (.started x.index x.shard aid)
  | none => c

/-- The copies the committed state puts on this node: started here and reported to
the manager; the ones no longer here let go. -/
def applyShards (c : Coordinator) : Coordinator :=
  let mine := c.mine
  let here := Std.ExtTreeSet.ofList (mine.filterMap (·.allocationId)) compare
  let c := mine.foldl (noteCopy env) (c.applyMetadata env)
  let c := { c with
    reported := c.reported.filter fun a => here.contains a
    startedHere := c.startedHere.filter fun a => here.contains a }
  let again := mine.filter fun x => x.state == .initializing &&
    (x.allocationId.map fun a => c.startedHere.contains a).getD false
  let c := again.foldl reportAgain c
  let c := (mine.filter fun x => x.primary && x.state == .started).foldl (resyncCopy env) c
  let c := (mine.filter fun x => x.state == .initializing).foldl (startCopy env) c
  (c.hosted.toList.filter fun (aid, _) => !here.contains aid).foldl (releaseCopy env) c

/-! ## The voting configuration -/

/-- The node is to be left out of the voting. -/
def excluded (c : Coordinator) (s : ClusterState) (id : NodeId) : Bool :=
  c.exclusions.any fun (i, n) => i == id || ((s.nodes[id]?).map (·.name == n)).getD false

/-- The largest odd number that is no larger. -/
def odd (n : Nat) : Nat := if n % 2 = 0 then n - 1 else n

/-- The nodes of a state that may vote. -/
def liveVoters (c : Coordinator) (s : ClusterState) : BTreeSet NodeId :=
  Std.ExtTreeSet.ofList ((s.nodes.values.filter fun n =>
    n.isClusterManagerEligible && !c.excluded s n.id).map (·.id)) compare

/-- The largest odd number of live nodes, those of the committed configuration
first, filled up to the least it may have. -/
def wantedConfig (c : Coordinator) (s : ClusterState) : List NodeId :=
  let current := s.lastCommittedConfig
  let live := c.liveVoters s
  let nonRetired := current.filter fun id => !c.excluded s id
  let minEnforced :=
    if c.autoShrink then (if nonRetired.length < 3 then 1 else 3) else nonRetired.length
  let target := max (odd live.size) minEnforced
  let liveIn := current.filter fun id => live.contains id
  let liveOut := live.toList.filter fun id => !current.contains id
  let deadIn := nonRetired.filter fun id => !live.contains id
  ((liveIn ++ liveOut ++ deadIn).take target).insertionSort (· ≤ ·)

/-- The voting configuration the nodes call for, from the committed one. -/
def reconfigure (c : Coordinator) (s : ClusterState) : List NodeId :=
  if hasQuorum (c.wantedConfig s) (c.liveVoters s) then c.wantedConfig s
  else s.lastCommittedConfig

end Coordinator

end Velosearch.Cluster
