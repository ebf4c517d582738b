import Velosearch.Lib.TopK
import Velosearch.Search.Values
import Mathlib.Data.List.Sort

/-!
# The best documents of a sorted search

The sort collector of `src/search/mod.rs` and the comparisons of `src/search/sort.rs`: each
segment of a shard keeps the best few of the documents that match as they come by, and what
the segments kept is merged and cut again.

* A document is given with the values its sort keys read, in the order the segment yields
  it. What a key reads them from (a column, a score, a mode over several values) is left out,
  and so are the sorts whose values are only worked out once the candidates are known.
* `after` is where a page before this one ended.
-/

set_option autoImplicit false

namespace Velosearch.Search

open Velosearch.Lib

/-- `SortKey`, of what the order and the printed values depend on. -/
structure SortKey where
  desc : Bool := false
  missingLast : Bool := true
  numericType : Option String := none
  date : Option Bool := none

/-- A document that matches, with a value for each of `n` sort keys. -/
structure Cand (n : ℕ) where
  shard : ℕ := 0
  segmentOrd : ℕ := 0
  docId : ℕ := 0
  seq : ℕ := 0
  sort : List SortValue
  sized : sort.length = n
  deriving DecidableEq

/-- `matches!(v, SortValue::Missing)` -/
def SortValue.isMissing : SortValue → Bool
  | .missing => true
  | _ => false

/-! ## Comparisons -/

/-- One key of `cmp_sorted`: a missing value is last whichever way the sort runs. -/
def cmpDir (desc : Bool) (a b : SortValue) : Ordering :=
  match a.isMissing, b.isMissing with
  | true, true => .eq
  | true, false => .gt
  | false, true => .lt
  | false, false => if desc then (a.cmpAsc b).swap else a.cmpAsc b

/-- The order of what was collected. -/
def cmpSorted (desc : List Bool) (a b : List SortValue) : Ordering :=
  lexCmp (desc.map cmpDir) a b

/-- A value against another, as the key has missing ones. -/
def cmpWithMissing (k : SortKey) (a b : SortValue) : Ordering :=
  let last := if k.missingLast then Ordering.gt else .lt
  match a.isMissing, b.isMissing with
  | true, true => .eq
  | true, false => last
  | false, true => last.swap
  | false, false => if k.desc then (a.cmpAsc b).swap else a.cmpAsc b

/-- The keys of `cmp_cands`, one after another. -/
def cmpKeys (keys : List SortKey) (a b : List SortValue) : Ordering :=
  lexCmp (keys.map cmpWithMissing) a b

/-- The order of what no key tells apart. -/
def byDoc {n : ℕ} (a b : Cand n) : Ordering :=
  (compare a.shard b.shard).then <| (compare a.seq b.seq).then <|
    (compare a.segmentOrd b.segmentOrd).then (compare a.docId b.docId)

/-- `cmp_cands`, of a search that sorts. -/
def cmpCands {n : ℕ} (keys : List SortKey) (a b : Cand n) : Ordering :=
  (cmpKeys keys a.sort b.sort).then (byDoc a b)

/-- A value against another, missing ones last. -/
def cmpPlain (desc : Bool) (a b : SortValue) : Ordering :=
  if desc then (a.cmpAsc b).swap else a.cmpAsc b

/-! ## Collecting -/

/-- What a collector is told. -/
structure SortCollector where
  desc : List Bool
  missingLast : List Bool
  limit : ℕ
  after : Option (List SortValue) := none

/-- The collector of a search for `want` documents. -/
def SortCollector.ofKeys (keys : List SortKey) (want : ℕ) (after : Option (List SortValue)) :
    SortCollector where
  desc := keys.map SortKey.desc
  missingLast := keys.map SortKey.missingLast
  limit := max want 1
  after

/-- A segment of a shard. -/
structure Segment (n : ℕ) where
  docs : List (Cand n)
  block : Bool := false
  full : block = true → n = 1 ∧ ∀ d ∈ docs, d.sort ≠ [.missing]

/-- `SortSegmentCollector`, of what changes as it collects. -/
structure SegmentCollector (n : ℕ) where
  buf : List (Cand n) := []
  cutoff : Option SortValue := none

namespace SortCollector

variable {n : ℕ} (sel : Selection (Cand n)) (c : SortCollector)

/-- Its order. -/
def cmp (a b : Cand n) : Ordering :=
  cmpSorted c.desc a.sort b.sort

/-- No more than the limit is kept. -/
def pruneBy (buf : List (Cand n)) : List (Cand n) :=
  if c.limit = 0 ∨ buf.length ≤ c.limit then buf
  else (sel.select c.cmp (c.limit - 1) buf).take c.limit

/-- The number of documents held that sets off a pruning. -/
def most : ℕ :=
  max (c.limit * 4) 512

/-- The buffer is cut down, and the last of it noted. -/
def prune (x : SegmentCollector n) : SegmentCollector n :=
  let buf := c.pruneBy sel x.buf
  -- once the buffer is full the worst kept entry becomes the bar to clear
  match buf with
  | [] => { x with buf }
  | first :: rest =>
    if c.limit ≤ buf.length then
      { buf, cutoff := some ((maxBy c.cmp first rest).sort.headD .missing) }
    else { x with buf }

/-- One document more. -/
def push (x : SegmentCollector n) (d : Cand n) : SegmentCollector n :=
  let x := { x with buf := x.buf ++ [d] }
  if 0 < c.limit ∧ c.most ≤ x.buf.length then c.prune sel x else x

/-- The document comes behind what is kept. -/
def beyond (cutoff : Option SortValue) (d : Cand n) : Bool :=
  cutoff.any fun cut => cmpPlain (c.desc.headD false) (d.sort.headD .missing) cut == .gt

/-- It comes behind the marker. -/
def behind (d : Cand n) : Bool :=
  c.after.any fun after =>
    lexCmp (List.zipWith (fun desc missingLast => cmpWithMissing { desc, missingLast }) c.desc
      c.missingLast) d.sort after != .gt

/-- Its block does. -/
def blockBehind (d : Cand n) : Bool :=
  (c.after.bind List.head?).any fun marker =>
    cmpPlain (c.desc.headD false) (d.sort.headD .missing) marker != .gt

/-- A document is looked at. -/
def collect (x : SegmentCollector n) (d : Cand n) : SegmentCollector n :=
  if c.beyond x.cutoff d then x
  else if c.behind d then x
  else c.push sel x d

/-- `collect_block`, of one document of the block. -/
def collectBlock (x : SegmentCollector n) (d : Cand n) : SegmentCollector n :=
  if c.blockBehind d then x
  else if c.beyond x.cutoff d then x
  else c.push sel x d

/-- A segment. -/
def collectSegment (seg : Segment n) : List (Cand n) :=
  c.pruneBy sel
    (seg.docs.foldl (if seg.block then c.collectBlock sel else c.collect sel) {}).buf

/-- A shard. -/
def collectShard (segments : List (Segment n)) : List (Cand n) :=
  c.pruneBy sel (segments.map (c.collectSegment sel)).flatten

/-- The documents the request asks for. -/
def ahead (seg : Segment n) : List (Cand n) :=
  seg.docs.filter fun d => !(if seg.block then c.blockBehind d else c.behind d)

end SortCollector

end Velosearch.Search
