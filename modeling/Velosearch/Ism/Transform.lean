import Mathlib.Data.List.Dedup
import Mathlib.Data.List.Flatten
import Mathlib.Data.List.Nodup
import Mathlib.Data.List.Sort
import Velosearch.Ism.BucketDoc
import Velosearch.Lib.Pages
import Velosearch.Search.Dates
import Velosearch.Search.Doubles

/-!
# Continuous transforms

`Run::changes` of `src/ism/transform.rs`: a run looks at each source index in turn, reads the
sequence number its writes have reached, searches for the groups of the documents written since
the number held from the last run, and writes the groups it has not written before from a search
over every document, which it makes once.

* A search for groups (`group_buckets`) comes in pages of `CHUNK` groups, each a search of its own;
  and where a metric is scripted, one more search follows for each group, over the documents
  `bucket_filter` finds for its key.
* Documents are only ever added to the sources; a search sees those that have been refreshed.
  Writes, refreshes and the accesses of a run come in any order.
* The groups of a document, the order they are handed out in, what a search with given filters
  finds and how a bucket is written are parameters.
-/

set_option autoImplicit false

open Velosearch.Search

namespace Velosearch.Transform

/-! ## The documents of a group -/

/-- A value of a group's key, as it is printed. -/
abbrev Value := BucketDoc.Value F64

/-- `as_f64`, nought where there is none. -/
def asF64 : Value → F64
  | .whole n => .ofInt n.1
  | .double x => x
  | _ => .fin 0

/-- `as_i64`, nought where there is none. -/
def asI64 : Value → ℤ
  | .whole n => if n.1 < 2 ^ 63 then n.1 else 0
  | _ => 0

/-- What a dimension makes of its field. -/
inductive Grouping where
  | terms
  | histogram (interval : F64)
  | dateHistogram (spec : DateSpec)

/-- A dimension of the groups. -/
structure Dimension where
  sourceField : String
  grouping : Grouping

/-- A filter of a search. -/
inductive Filter where
  | absent (field : String)
  | term (field : String) (value : Value)
  | doubles (field : String) (gte lt : F64)
  | millis (field : String) (gte lt : ℤ)

/-- The filter of one dimension. -/
def Dimension.filter (d : Dimension) : Value → Filter
  | .missing => .absent d.sourceField
  | v =>
    match d.grouping with
    | .terms => .term d.sourceField v
    | .histogram step => .doubles d.sourceField (asF64 v) (asF64 v + step)
    | .dateHistogram spec => .millis d.sourceField (asI64 v) (spec.windowEnd (asI64 v))

/-- The documents one bucket holds, as filters over its key. -/
def bucketFilter (dims : List Dimension) (key : List Value) : List Filter :=
  List.zipWith Dimension.filter dims key

/-! ## Runs -/

/-- What a transform is: the indices its source names, its query, its dimensions, and whether one
of its metrics is scripted. Then what its searches are: the groups a document falls in, a group as
it is printed, what the next page reads where a group was printed, and the documents that filters
find. Last what is written: the key of a group, with its dates formatted, the id, and the document
made of a bucket and of what the scripts ran over. -/
structure Job (I D G K N O : Type) where
  sources : List I
  sources_nodup : sources.Nodup
  selects : D → Bool
  dims : List Dimension
  scripted : Bool
  groups : D → List G
  values : G → List Value
  reread : G → G
  finds : List Filter → D → Bool
  key : G → K
  docId : K → N
  bucketDoc : K → List D → List D → O
  pageSize : ℕ

/-- A document of an index, by its sequence number. -/
structure Entry (I D : Type) where
  index : I
  seq : ℕ
  doc : D
deriving DecidableEq

/-- A bucket: its group, its documents, and those its scripts ran over. -/
structure Bucket (I D G : Type) where
  group : G
  docs : List (Entry I D)
  more : List (Entry I D) := []

/-- `all_buckets`, between two pages. -/
structure Walk (I D G : Type) where
  out : List (Bucket I D G) := []
  after : Option G := none
  ended : Bool := false

/-- Where a run is: between two indices, at the search for what changed in one, at the pages of
its groups; and there at the search over everything, first its groups, then what their scripts run
over, or before writing. -/
inductive Place (I D G K : Type) where
  | walking (todo : List I)
  | looked (i : I) (before now : ℤ) (walk : Walk I D G) (todo : List I)
  | paging (pages : List (List K)) (todo : List I)
  | gathering (fresh : List K) (walk : Walk I D G) (pages : List (List K)) (todo : List I)
  | scripting (fresh : List K) (done rest : List (Bucket I D G)) (pages : List (List K))
      (todo : List I)
  | writing (fresh : List K) (pages : List (List K)) (todo : List I)

/-- A run of the transform. -/
structure Run (I D G K : Type) where
  reached : I → Option ℤ := fun _ => none
  processed : List K := []
  whole : Option (List (Bucket I D G)) := none
  place : Place I D G K

/-- The documents of each index with whether a search sees them, the checkpoints held, the target
and the run that is on. -/
structure State (I D G K N O : Type) where
  written : I → List (D × Bool)
  held : I → Option ℤ
  target : N → Option O
  run : Option (Run I D G K)

variable {I D G K N O : Type}

/-- Nothing written, and no run yet. -/
def State.fresh : State I D G K N O :=
  { written := fun _ => [], held := fun _ => none, target := fun _ => none, run := none }

/-! ## Searches -/

/-- The entries of an index that `p` picks. -/
def entriesOf (i : I) (l : List (D × Bool)) (p : D × Bool → Bool) : List (Entry I D) :=
  l.zipIdx.filterMap fun x => if p x.1 then some ⟨i, x.2, x.1.1⟩ else none

/-- Every document the transform's query matches, refreshed or not. -/
def everything (t : Job I D G K N O) (s : State I D G K N O) : List (Entry I D) :=
  t.sources.flatMap fun i => entriesOf i (s.written i) fun x => t.selects x.1

/-- Those a search sees. -/
def seen (t : Job I D G K N O) (s : State I D G K N O) : List (Entry I D) :=
  t.sources.flatMap fun i => entriesOf i (s.written i) fun x => x.2 && t.selects x.1

section Step

variable [DecidableEq I] [LinearOrder G] [DecidableEq K] [DecidableEq N]
variable (t : Job I D G K N O)

/-- The groups of some documents, in their order. -/
def groupsOf (es : List (Entry I D)) : List G :=
  ((es.flatMap fun e => t.groups e.doc).dedup).insertionSort (· ≤ ·)

/-- The documents of a group. -/
def ofGroup (g : G) (es : List (Entry I D)) : List (Entry I D) :=
  es.filter fun e => g ∈ t.groups e.doc

/-- `CHUNK`: the groups of a page. -/
def chunk : ℕ := 10000

/-- The next page of a search for groups. -/
def Walk.turn (es : List (Entry I D)) (w : Walk I D G) : Walk I D G :=
  let page := Pages.page (fun a g => decide (t.reread a < g)) chunk (groupsOf t es) w.after
  { out := w.out ++ page.map fun g => { group := g, docs := ofGroup t g es }
    after := page.getLast?
    ended := decide (page.length < chunk) }

/-- `chunks`, on fuel. -/
def chunks (page : ℕ) : ℕ → List K → List (List K)
  | 0, _ => []
  | _ + 1, [] => []
  | fuel + 1, k :: ks => (k :: ks).take (page + 1) :: chunks page fuel ((k :: ks).drop (page + 1))

/-- `filter(|k| processed.insert(k))`: the keys that are new, and all there are now. -/
def freshKeys : List K → List K → List K × List K
  | processed, [] => (processed, [])
  | processed, k :: ks =>
    if k ∈ processed then freshKeys processed ks
    else
      let (processed, fresh) := freshKeys (k :: processed) ks
      (processed, k :: fresh)

/-- `index_docs` -/
def indexDocs (target : N → Option O) (docs : List (N × O)) : N → Option O :=
  docs.foldl (fun target d => Function.update target d.1 (some d.2)) target

/-- What is written of a bucket, and under which id. -/
def bucketDoc (b : Bucket I D G) : N × O :=
  (t.docId (t.key b.group),
    t.bucketDoc (t.key b.group) (b.docs.map Entry.doc) (b.more.map Entry.doc))

/-- The documents of the buckets that are picked. -/
def selected (bs : List (Bucket I D G)) (fresh : List K) : List (N × O) :=
  (bs.filter fun b => t.key b.group ∈ fresh).map (bucketDoc t)

/-- The highest sequence number that was given. -/
def checkpoint (s : State I D G K N O) (i : I) : ℤ := (s.written i).length - 1

/-- What a search sees of the documents between two checkpoints. -/
def changed (s : State I D G K N O) (before now : ℤ) : List (Entry I D) :=
  (seen t s).filter fun e => before < e.seq ∧ (e.seq : ℤ) ≤ now

/-- The documents a bucket's scripts run over. -/
def scriptedDocs (s : State I D G K N O) (g : G) : List (Entry I D) :=
  (seen t s).filter fun e => t.finds (bucketFilter t.dims (t.values g)) e.doc

/-- The next access of a run, or the start of one. -/
def advance (s : State I D G K N O) : State I D G K N O :=
  match s.run with
  | none => { s with run := some { place := .walking t.sources } }
  | some r =>
    match r.place with
    | .walking [] => { s with held := r.reached, run := none }
    | .walking (i :: todo) =>
      let now := checkpoint s i
      let r := { r with reached := Function.update r.reached i (some now) }
      match s.held i with
      | some before =>
        if now ≤ before then { s with run := some { r with place := .walking todo } }
        else { s with run := some { r with place := .looked i before now {} todo } }
      | none => { s with run := some { r with place := .looked i (-1) now {} todo } }
    | .looked i before now w todo =>
      let keys := w.out.map fun b => t.key b.group
      let place := if w.ended then .paging (chunks (t.pageSize - 1) keys.length keys) todo
        else .looked i before now (w.turn t (changed t s before now)) todo
      { s with run := some { r with place } }
    | .paging [] todo => { s with run := some { r with place := .walking todo } }
    | .paging (page :: pages) todo =>
      let (processed, fresh) := freshKeys r.processed page
      let place := if r.whole.isNone && !fresh.isEmpty then .gathering fresh {} pages todo
        else .writing fresh pages todo
      { s with run := some { r with processed, place } }
    | .gathering fresh w pages todo =>
      let place := if !w.ended then .gathering fresh (w.turn t (seen t s)) pages todo
        else if t.scripted then .scripting fresh [] w.out pages todo
        else .scripting fresh w.out [] pages todo
      { s with run := some { r with place } }
    | .scripting fresh done (b :: rest) pages todo =>
      let b := { b with more := scriptedDocs t s b.group }
      { s with run := some { r with place := .scripting fresh (done ++ [b]) rest pages todo } }
    | .scripting fresh done [] pages todo =>
      { s with run := some { r with whole := some done, place := .writing fresh pages todo } }
    | .writing fresh pages todo =>
      { s with
        target := indexDocs s.target (selected t (r.whole.getD []) fresh)
        run := some { r with place := .paging pages todo } }

/-- A run that fails. One that fails while it writes has written the first `n` documents. -/
def fail (s : State I D G K N O) (n : ℕ) : State I D G K N O :=
  match s.run with
  | some { whole, place := .writing fresh _ _, .. } =>
    { s with target := indexDocs s.target ((selected t (whole.getD []) fresh).take n), run := none }
  | _ => { s with run := none }

/-- What happens: a write to an index, a refresh of it, an access of the run, or its failure. -/
inductive Act (I D : Type) where
  | write (i : I) (d : D)
  | refresh (i : I) (shows : ℕ → Bool)
  | advance
  | fail (n : ℕ)

def step (s : State I D G K N O) : Act I D → State I D G K N O
  | .write i d => { s with written := Function.update s.written i (s.written i ++ [(d, false)]) }
  | .refresh i shows =>
    let docs := (s.written i).zipIdx.map fun x => (x.1.1, x.1.2 || shows x.2)
    { s with written := Function.update s.written i docs }
  | .advance => advance t s
  | .fail n => fail t s n

def after (s : State I D G K N O) (acts : List (Act I D)) : State I D G K N O :=
  acts.foldl (step t) s

/-! ## What is to be shown -/

/-- No two of these groups are written under one id. -/
def Distinct (gs : List G) : Prop :=
  ∀ g ∈ gs, ∀ g' ∈ gs, t.docId (t.key g) = t.docId (t.key g') → g = g'

/-- The next page, if there is one, begins behind the group that was printed. -/
def Walk.Continues (w : Walk I D G) : Prop :=
  w.ended = false → ∀ a, w.after = some a → t.reread a = a

/-- What a step must be like for the transform to miss nothing. When the groups that changed are
searched for, the documents the checkpoint passes are ones that a search sees, and that were among
those read of their groups if everything was read already. A page continues the one before. The
filter of a group finds the documents of the group. And groups are written under ids of their
own. -/
def Fit (s : State I D G K N O) : Act I D → Prop
  | .advance =>
    match s.run with
    | none => True
    | some r =>
      match r.place with
      | .looked i before now w _ =>
        w.Continues t ∧
        ∀ e ∈ everything t s, e.index = i → before < e.seq → (e.seq : ℤ) ≤ now →
          e ∈ seen t s ∧ ∀ bs, r.whole = some bs → ∀ g ∈ t.groups e.doc,
            ∃ b ∈ bs, b.group = g ∧ e ∈ b.docs ∧ (t.scripted → e ∈ b.more)
      | .gathering _ w _ _ => w.Continues t
      | .scripting _ _ (b :: _) _ _ =>
        ∀ e ∈ seen t s,
          t.finds (bucketFilter t.dims (t.values b.group)) e.doc ↔ b.group ∈ t.groups e.doc
      | .writing _ _ _ => Distinct t ((r.whole.getD []).map Bucket.group)
      | _ => True
  | .fail _ =>
    ∀ r fresh pages todo, s.run = some r → r.place = .writing fresh pages todo →
      Distinct t ((r.whole.getD []).map Bucket.group)
  | _ => True

/-- Every step is. -/
def AllFit (s : State I D G K N O) : List (Act I D) → Prop
  | [] => True
  | a :: acts => Fit t s a ∧ AllFit (step t s a) acts

/-- The target holds every group there is, with what comes of all its documents. -/
def Complete (s : State I D G K N O) : Prop :=
  ∀ g ∈ groupsOf t (everything t s), s.target (t.docId (t.key g)) =
    some (t.bucketDoc (t.key g) ((ofGroup t g (everything t s)).map Entry.doc)
      (if t.scripted then (ofGroup t g (everything t s)).map Entry.doc else []))

end Step

/-! ## Entries -/

section Entries

variable {t : Job I D G K N O} {s : State I D G K N O}

theorem mem_entriesOf {i : I} {l : List (D × Bool)} {p : D × Bool → Bool} {e : Entry I D} :
    e ∈ entriesOf i l p ↔
      e.index = i ∧ ∃ shown, l[e.seq]? = some (e.doc, shown) ∧ p (e.doc, shown) = true := by
  simp only [entriesOf, List.mem_filterMap, List.mem_zipIdx_iff_getElem?]
  constructor
  · rintro ⟨⟨⟨d, shown⟩, n⟩, hn, h⟩
    split at h
    next hp =>
      cases h
      exact ⟨rfl, shown, by simpa using hn, hp⟩
    next => cases h
  · rintro ⟨rfl, shown, hn, hp⟩
    exact ⟨((e.doc, shown), e.seq), by simpa using hn, by simp [hp]⟩

theorem mem_everything {e : Entry I D} :
    e ∈ everything t s ↔ e.index ∈ t.sources ∧
      ∃ shown, (s.written e.index)[e.seq]? = some (e.doc, shown) ∧ t.selects e.doc = true := by
  simp only [everything, List.mem_flatMap, mem_entriesOf]
  constructor
  · rintro ⟨i, hi, rfl, h⟩
    exact ⟨hi, h⟩
  · rintro ⟨hi, h⟩
    exact ⟨e.index, hi, rfl, h⟩

theorem sublist_filterMap {α β : Type} {f f' : α → Option β}
    (h : ∀ a b, f a = some b → f' a = some b) :
    ∀ l : List α, (l.filterMap f).Sublist (l.filterMap f') := by
  intro l
  induction l with
  | nil => exact List.Sublist.refl _
  | cons a l ih =>
    cases hf : f a with
    | some b =>
      rw [List.filterMap_cons_some hf, List.filterMap_cons_some (h a b hf)]
      exact ih.cons_cons b
    | none =>
      rw [List.filterMap_cons_none hf]
      cases hf' : f' a with
      | none =>
        rw [List.filterMap_cons_none hf']
        exact ih
      | some b =>
        rw [List.filterMap_cons_some hf']
        exact ih.cons b

theorem seen_sublist : (seen t s).Sublist (everything t s) := by
  apply List.Sublist.flatMap_right
  intro i _
  apply sublist_filterMap
  intro x e h
  split at h
  next hp =>
    simp only [Bool.and_eq_true] at hp
    cases h
    simp [hp.2]
  next => cases h

theorem everything_nodup : (everything t s).Nodup := by
  rw [everything, List.nodup_flatMap]
  refine ⟨?_, ?_⟩
  · intro i _
    have numbered : (s.written i).zipIdx.Pairwise fun x y => x.2 < y.2 := by
      have := List.pairwise_lt_range' (s := 0) (n := (s.written i).length)
      rwa [← List.zipIdx_map_snd 0 (s.written i), List.pairwise_map] at this
    refine List.Pairwise.filterMap _ ?_ numbered
    intro x y lt e he e' he' same
    split at he <;> cases he
    split at he' <;> cases he'
    exact absurd (congrArg Entry.seq same) (Nat.ne_of_lt lt)
  · refine t.sources_nodup.imp ?_
    intro i i' apart e he he'
    exact apart ((mem_entriesOf.mp he).1.symm.trans (mem_entriesOf.mp he').1)

end Entries

end Velosearch.Transform
