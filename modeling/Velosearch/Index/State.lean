import Velosearch.Cluster.State
import Mathlib.Data.List.Infix

/-!
# An index on a node

`src/store/ids.rs`, `src/store/translog.rs` and the refusals of `src/store/writer.rs`:
which documents of an index are live, at which version and sequence number, and where
a write stands between being answered and being in the index.

A write is first queued (`deferred`), under the shard that will refresh it, and kept
beside the queue for a realtime read (`pending`). It is handed to the writer when its
shard is refreshed, or when the queue or the memory it holds grows too large, and the
realtime reader shows it after the commit that follows.

* A `HashMap` is a `BTreeMap` here: nothing that is modelled reads one in its order.
* The writer takes what it is handed. Its failures, and those of the translog, are not
  in the model, nor is what only search, statistics or a restart read.
* Counters are `u64` and go round as release builds let them (`succ64`).
-/

set_option autoImplicit false

namespace Velosearch.Index

open Velosearch.Cluster (BTreeMap BTreeSet u64Max)

/-- `n + 1` of a `u64`. -/
def succ64 (n : Nat) : Nat :=
  (n + 1) % 2 ^ 64

/-- What an index's settings and mapping say of ids and routing: the shard a document
goes to (`shard_of`), the table of live ids' fingerprint (`id_fingerprint`), and
whether a routing is asked for. -/
structure Settings where
  shardOf : String → Option String → Nat
  idFingerprint : String → Nat
  routingRequired : Bool
  partitionSize : Nat

/-- The version of a document, and whether it lives. -/
structure DocMeta where
  version : Nat
  live : Bool
deriving DecidableEq

/-- A document as the index stores it: `make_doc`, then `add_routing`. -/
structure Doc where
  id : String
  source : String
  seq : Nat
  routing : Option String
deriving DecidableEq

/-- An operation that waits for the writer. -/
inductive PendingOp where
  | add (doc : Doc)
  | delete (id : String)
deriving DecidableEq

/-- The document an operation is about. -/
def PendingOp.id : PendingOp → String
  | .add doc => doc.id
  | .delete id => id

/-- One line of the translog. -/
structure LogRecord where
  id : String
  routing : Option String
  version : Nat
  seq : Nat
  term : Nat
  source : Option String
deriving DecidableEq

def jsonChar (c : Char) : List Char :=
  if c = '"' then ['\\', '"']
  else if c = '\\' then ['\\', '\\']
  else if c = '\x08' then ['\\', 'b']
  else if c = '\x0c' then ['\\', 'f']
  else if c = '\n' then ['\\', 'n']
  else if c = '\r' then ['\\', 'r']
  else if c = '\t' then ['\\', 't']
  else if c.toNat < 32 then
    '\\' :: 'u' :: '0' :: '0' :: (if c.toNat < 16 then ['0'] else []) ++ Nat.toDigits 16 c.toNat
  else [c]

/-- `push_json_str`: one string, spelled the way JSON spells it. -/
def jsonStr (text : String) : List Char :=
  '"' :: text.toList.flatMap jsonChar ++ ['"']

/-- A record as the translog has it. -/
def LogRecord.line (r : LogRecord) : List Char :=
  "\x7b\"id\":".toList ++ jsonStr r.id ++
    (match r.routing with
      | some routing => ",\"routing\":".toList ++ jsonStr routing
      | none => []) ++
    ",\"version\":".toList ++ Nat.toDigits 10 r.version ++
    ",\"seq\":".toList ++ Nat.toDigits 10 r.seq ++
    (if 1 < r.term then ",\"term\":".toList ++ Nat.toDigits 10 r.term else []) ++
    ",\"source\":".toList ++ (r.source.getD "null").toList ++ "\x7d\n".toList

/-- An index, with everything a write reads or moves. -/
structure IdxState where
  name : String
  versions : BTreeMap String DocMeta := ∅
  terms : BTreeMap String Nat := ∅
  routing : BTreeMap String String := ∅
  liveIds : BTreeSet Nat := ∅
  idsLoaded : Bool := true
  pending : BTreeMap String (Option String) := ∅
  deferred : List (Nat × PendingOp) := []
  queuedShard : BTreeMap String Nat := ∅
  pendingSeq : BTreeMap String Nat := ∅
  pendingBytes : Nat := 0
  writer : Bool := false
  written : List Doc := []
  realtime : List Doc := []
  seqNo : Nat := 0
  appliedTerm : Nat := 0
  onDisk : Bool := false
  translog : List LogRecord := []
  translogBytes : Nat := 0
  closed : Bool := false
  blocksReadOnly : Bool := false
  blocksReadOnlyAllowDelete : Bool := false
  blocksWrite : Bool := false

/-- Why a request is refused. -/
structure Refusal where
  status : Nat
  kind : String
  reason : String
deriving DecidableEq

namespace IdxState

variable (S : Settings) (st : IdxState)

/-! ## Which documents are live (`ids.rs`) -/

/-- A document's version. -/
def versionOf (id : String) : Nat :=
  ((st.versions[id]?).map DocMeta.version).getD 1

/-- Its term. -/
def termOf (id : String) : Nat :=
  (st.terms[id]?).getD 1

/-- Its term, kept where it is past the first. -/
def setTerm (id : String) (term : Nat) : IdxState :=
  { st with terms := if term ≤ 1 then st.terms.erase id else st.terms.insert id term }

/-- A document under the id is committed. -/
def lookupId (id : String) : Bool :=
  st.realtime.any (·.id == id)

/-- The document is there, in what waits or in what is committed. -/
def isLive (id : String) : Bool :=
  match st.pending[id]? with
  | some (some _) => true
  | some none => false
  | none =>
    match st.versions[id]? with
    | some m => m.live
    | none =>
      if !st.idsLoaded then
        -- the table is still filling in after a reopen
        st.lookupId id
      else
        st.liveIds.contains (S.idFingerprint id) && st.lookupId id

/-- The document moves on to a version, under the next sequence number. -/
def bumpToSeq (id : String) (live : Bool) (version : Nat) (seq : Option Nat) :
    IdxState × Nat × Nat :=
  let st := { st with
    versions := st.versions.insert id { version, live }
    liveIds := if live then st.liveIds.insert (S.idFingerprint id) else st.liveIds }
  match seq with
  | some seq => ({ st with seqNo := max st.seqNo (succ64 seq) }, version, seq)
  | none => ({ st with seqNo := succ64 st.seqNo }, version, st.seqNo)

/-- Under a version that is given. -/
def bumpTo (id : String) (live : Bool) (version : Nat) : IdxState × Nat × Nat :=
  st.bumpToSeq S id live version none

/-- To its next version. -/
def bump (id : String) (live existed : Bool) : IdxState × Nat × Nat :=
  let known := existed || st.versions.contains id
  let version := if known then succ64 (st.versionOf id) else 1
  -- a brand new document at version 1 needs no exact entry, a tombstone always does
  let st := { st with
    versions := if known || !live then st.versions.insert id { version, live } else st.versions
    liveIds := if live then st.liveIds.insert (S.idFingerprint id) else st.liveIds }
  ({ st with seqNo := succ64 st.seqNo }, version, st.seqNo)

/-- To what the primary says. -/
def setReplicatedVersion (id : String) (version : Nat) (live : Bool) (seq : Nat) : IdxState :=
  { st with
    versions := st.versions.insert id { version, live }
    liveIds := if live then st.liveIds.insert (S.idFingerprint id) else st.liveIds
    seqNo := max st.seqNo (succ64 seq) }

/-! ## What waits to be visible (`translog.rs`) -/

/-- The shard of a document. -/
def shardOfDoc (id : String) : Nat :=
  S.shardOf id st.routing[id]?

/-- How many operations may wait. -/
def deferredMaxOps : Nat := 2048

/-- How much text may wait. -/
def pendingBudgetBytes : Nat := 32 * 1024 * 1024

/-- What the writer does with an operation: a document is added behind what is there, a
delete takes every document of its id added before it. -/
def hand (docs : List Doc) : PendingOp → List Doc
  | .add doc => docs ++ [doc]
  | .delete id => docs.filter (·.id != id)

/-- The operations of a shard, or of all, go to the writer. -/
def applyOps (only : Option Nat) : IdxState :=
  if st.deferred.isEmpty then st
  else
    let goes := fun shard => only.all (· == shard)
    { st with
      deferred := st.deferred.filter fun e => !goes e.1
      -- what was handed over is no longer waiting anywhere
      queuedShard := st.queuedShard.filter fun _ shard => !goes shard
      writer := true
      written := ((st.deferred.filter fun e => goes e.1).map Prod.snd).foldl hand st.written }

/-- An operation waits. -/
def queueOp (shard : Nat) (op : PendingOp) : IdxState :=
  let st := { st with deferred := st.deferred ++ [(shard, op)] }
  if deferredMaxOps ≤ st.deferred.length then st.applyOps none else st

/-- An operation waits in its document's shard. -/
def queueOpFor (id : String) (shard : Nat) (op : PendingOp) : IdxState :=
  let shard := (st.queuedShard[id]?).getD shard
  { st with queuedShard := st.queuedShard.insert id shard }.queueOp shard op

/-- What was written can be read. -/
def commit : IdxState :=
  if st.writer then { st with realtime := st.written } else st

def pendingSize (id : String) (source : Option String) : Nat :=
  id.utf8ByteSize + (source.map String.utf8ByteSize).getD 0 + 48

/-- One shard's operations can be read. -/
def refreshShard (shard : Nat) : IdxState :=
  let st := (st.applyOps (some shard)).commit
  let mine := fun id => st.shardOfDoc S id == shard
  let pending := st.pending.filter fun id _ => !mine id
  { st with
    pending
    pendingSeq := st.pendingSeq.filter fun id _ => !(st.pending.contains id && mine id)
    pendingBytes := pending.foldl (fun sum id source => sum + pendingSize id source) 0
    translog := if st.deferred.isEmpty then [] else st.translog
    translogBytes := if st.deferred.isEmpty then 0 else st.translogBytes }

/-- Everything can be read and nothing waits. -/
def flushed : IdxState :=
  { (st.applyOps none).commit with
    pending := ∅, pendingSeq := ∅, pendingBytes := 0, translog := [], translogBytes := 0 }

/-- `refresh`. -/
def refresh : IdxState :=
  st.flushed

def notePendingSeq (id : String) (seq : Nat) : IdxState :=
  { st with pendingSeq := st.pendingSeq.insert id seq }

/-- Keep a write for realtime reads. -/
def notePending (id : String) (source : Option String) : IdxState :=
  let st := { st with
    pendingBytes := st.pendingBytes + pendingSize id source
    pending := st.pending.insert id source }
  if pendingBudgetBytes < st.pendingBytes then
    if (st.applyOps none).writer then st.flushed else st.applyOps none
  else st

/-- How long the translog may grow. -/
def translogFlushBytes : Nat := 64 * 1024 * 1024

/-- A record in the translog, which is flushed where it is full. -/
def logWrite (r : LogRecord) : IdxState :=
  if !st.onDisk then st
  else
    let st := { st with
      translog := st.translog ++ [r]
      translogBytes := st.translogBytes + (String.ofList r.line).utf8ByteSize }
    if translogFlushBytes < st.translogBytes then
      if (st.applyOps none).writer then
        { (st.applyOps none).commit with translog := [], translogBytes := 0 }
      else st.applyOps none
    else st

/-! ## Reading a document -/

/-- The arrival order recorded for a document, which is what `_seq_no` reports. -/
def readSeq (id : String) : Option Nat :=
  match st.pendingSeq[id]? with
  | some seq => some seq
  | none => (st.realtime.find? (·.id == id)).map Doc.seq

/-- The source a realtime read finds (`read_realtime`). -/
def readSource (id : String) : Option String :=
  match st.pending[id]? with
  | some source => source
  | none => (st.realtime.find? (·.id == id)).map Doc.source

/-! ## Refusals (`writer.rs`) -/

/-- Why an index takes no writes, if it takes none. -/
def changeRefusal : Option (String × String) :=
  let name := st.name
  if st.closed then
    some ("index_closed_exception", s!"closed index [{name}] cannot be written to")
  else if st.blocksReadOnly then
    some ("cluster_block_exception",
      s!"index [{name}] blocked by: [FORBIDDEN/5/index read-only (api)];")
  else if st.blocksReadOnlyAllowDelete then
    some ("cluster_block_exception",
      s!"index [{name}] blocked by: [TOO_MANY_REQUESTS/12/disk usage exceeded flood-stage " ++
        "watermark, index has read-only-allow-delete block];")
  else if st.blocksWrite then
    some ("cluster_block_exception", s!"index [{name}] blocked by: [FORBIDDEN/8/index write (api)];")
  else none

/-- The status a refusal from `changeRefusal` is answered with. -/
def refusalStatus (kind why : String) : Nat :=
  if kind == "index_closed_exception" then 400
  else if "TOO_MANY_REQUESTS/".toList <:+: why.toList then 429
  else 403

end IdxState

end Velosearch.Index
