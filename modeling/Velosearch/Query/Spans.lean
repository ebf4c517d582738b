import Velosearch.Query.Conjunctions

/-!
# Span clauses

`src/query/spans.rs`: a span query as a tree of clauses over one field, each of them a walk over the
walks of the clauses below it. A walk is what the source boxes as a `dyn Spans`: a state with the
operations of its own kind.

The loops run on a count that bounds their rounds: what the walks below have not reached yet. A
loop that has not ended by then, and a place that is out of bounds, are `none`.
-/

set_option autoImplicit false

namespace Velosearch.Query

/-- A match: where it begins and ends, and how wide it is. -/
structure Match where
  start : Int
  «end» : Int
  width : Int
deriving DecidableEq, Repr

/-- What every kind of span can be asked. -/
structure Spans (σ : Type) where
  «matches» : σ → Option (Bool × σ)
  nextStart : σ → Option (Int × σ)
  start : σ → Int
  «end» : σ → Int
  width : σ → Int
  skipTo : σ → Int → Option (Int × σ)
  left : σ → Nat

namespace Spans

variable {σ : Type}

/-- The `skip_to` of a walk that has none of its own. -/
def skip (nextStart : σ → Option (Int × σ)) (start : σ → Int) (position : Int) :
    Nat → σ → Option (Int × σ)
  | 0, s => if start s < position then none else some (start s, s)
  | rounds + 1, s =>
    if start s < position then do
      let (_, s) ← nextStart s
      skip nextStart start position rounds s
    else some (start s, s)

/-- All of its matches. -/
def walk (T : Spans σ) : Nat → σ → Option (List Match)
  | 0, _ => none
  | rounds + 1, s => do
    let (at_, s) ← T.nextStart s
    if at_ = NO_MORE then some []
    else (⟨T.start s, T.end s, T.width s⟩ :: ·) <$> T.walk rounds s

/-- The matches of a document, walked once `matches` has said that there are any. -/
def found (T : Spans σ) (s : σ) : Option (List Match) := do
  let (yes, s) ← T.matches s
  if yes then T.walk (T.left s + 1) s else some []

variable (T : Spans σ) (subs : List σ)

/-- Where a sub-span stands. -/
def startAt (i : Nat) : Int := (subs[i]?.map T.start).getD 0

/-- Where it ends. -/
def endAt (i : Nat) : Int := (subs[i]?.map T.end).getD 0

/-- Which of two comes first. -/
def positionLess (a b : Nat) : Bool :=
  T.startAt subs a < T.startAt subs b ||
    (T.startAt subs a == T.startAt subs b && T.endAt subs a < T.endAt subs b)

/-- `all`, over the walks' `matches`: the ones after the first that has no match are not asked. -/
def allMatch : List σ → Option (Bool × List σ)
  | [] => some (true, [])
  | s :: rest => do
    let (yes, s) ← T.matches s
    if yes then do
      let (yes, rest) ← allMatch rest
      some (yes, s :: rest)
    else some (false, s :: rest)

/-- How much the sub-spans have left. -/
def leftAll : Nat := (subs.map T.left).sum

end Spans

/-! ## One word, and a gap -/

/-- The spans of a term. -/
structure TermSpans where
  places : List Int
  next : Nat
  current : Int
deriving Repr

namespace TermSpans

/-- The next match. -/
def nextStart (t : TermSpans) : Option (Int × TermSpans) :=
  match t.places[t.next]? with
  | some p => some (p, { t with next := t.next + 1, current := p })
  | none => some (NO_MORE, { t with current := NO_MORE })

/-- How much is left. -/
def left (t : TermSpans) : Nat := t.places.length - t.next

def spans : Spans TermSpans where
  «matches» t := some (!t.places.isEmpty, t)
  nextStart := nextStart
  start := current
  «end» t :=
    if t.current = -1 then -1 else if t.current = NO_MORE then NO_MORE else t.current + 1
  width _ := 0
  skipTo t position := Spans.skip nextStart current position (t.left + 1) t
  left := left

end TermSpans

/-- `span_gap`: every position, as a stretch of the given width. -/
structure GapSpans where
  width : Int
  «at» : Int
deriving Repr

namespace GapSpans

def spans : Spans GapSpans where
  «matches» g := some (true, g)
  nextStart g := some (g.at + 1, { g with «at» := g.at + 1 })
  start := GapSpans.at
  «end» g := g.at + g.width
  width := width
  skipTo g position := some (position, { g with «at» := position })
  left g := (NO_MORE - g.at).toNat

end GapSpans

/-! ## The clauses over other clauses -/

section Clauses

variable {σ τ : Type} (T : Spans σ) (U : Spans τ)

/-- `span_or`: every match of every clause that matches, in position order. -/
structure OrSpans (σ : Type) where
  subs : List σ
  alive : List Nat
  heap : LuceneHeap
  top : Option Nat

namespace OrSpans

/-- Whether there is a match in the document. -/
def «matches» (o : OrSpans σ) : Option (Bool × OrSpans σ) := do
  let asked ← o.subs.mapM T.matches
  let alive := (List.range asked.length).filter fun i => ((asked[i]?).map Prod.fst).getD false
  some (!alive.isEmpty, { o with subs := asked.map Prod.snd, alive })

/-- A sub-span goes into the heap. -/
def enter (x : List σ × LuceneHeap) (i : Nat) : Option (List σ × LuceneHeap) := do
  let s ← x.1[i]?
  let (_, s) ← T.nextStart s
  let subs := x.1.set i s
  some (subs, x.2.add i (T.positionLess subs))

/-- Where the match begins. -/
def start (o : OrSpans σ) : Int :=
  match o.top with
  | some t => T.startAt o.subs t
  | none => -1

def nextStart (o : OrSpans σ) : Option (Int × OrSpans σ) :=
  match o.top with
  | none => do
    let (subs, heap) ← o.alive.foldlM (enter T) (o.subs, o.heap.clear)
    let o := { o with subs, heap, top := heap.top }
    some (start T o, o)
  | some top => do
    let s ← o.subs[top]?
    let (_, s) ← T.nextStart s
    let subs := o.subs.set top s
    let heap := o.heap.settled (T.positionLess subs)
    let o := { o with subs, heap, top := heap.top }
    some (start T o, o)

def left (o : OrSpans σ) : Nat := T.leftAll o.subs + o.subs.length

def spans : Spans (OrSpans σ) where
  «matches» := «matches» T
  nextStart := nextStart T
  start := start T
  «end» o :=
    match o.top with
    | some t => T.endAt o.subs t
    | none => -1
  width o := ((o.top.bind fun t => o.subs[t]?).map T.width).getD 0
  skipTo o position := Spans.skip (nextStart T) (start T) position (left T o + 1) o
  left := left T

end OrSpans

/-- An ordered `span_near`: each clause after the one before it, with no more than `slop` positions
between them all. -/
structure NearOrdered (σ : Type) where
  subs : List σ
  slop : Int
  start : Int
  «end» : Int
  width : Int
  atFirst : Bool
  exhausted : Bool

namespace NearOrdered

/-- The later clauses, each moved past the end of the one before it: the clauses, whether one ran
out, the last end and the width. -/
def stretch (previousEnd width : Int) : List σ → Option (List σ × Bool × Int × Int)
  | [] => some ([], false, previousEnd, width)
  | s :: later => do
    let (at_, s) ← T.skipTo s previousEnd
    if at_ = NO_MORE then some (s :: later, true, previousEnd, width)
    else do
      let (later, out) ← stretch (T.end s) (width + (T.start s - previousEnd)) later
      some (s :: later, out)

/-- The sub-spans are put one behind the other. -/
def stretchToOrder (o : NearOrdered σ) : Option (Bool × NearOrdered σ) :=
  match o.subs with
  | [] => none
  | first :: later => do
    let o := { o with start := T.start first, width := 0 }
    let (later, out, «end», width) ← stretch T (T.end first) 0 later
    if out then some (false, { o with subs := first :: later, exhausted := true, width })
    else some (true, { o with subs := first :: later, «end», width })

/-- The loop of `next_match`. -/
def seek : Nat → NearOrdered σ → Option (Bool × NearOrdered σ)
  | 0, _ => none
  | rounds + 1, o =>
    match o.subs with
    | [] => none
    | first :: later => do
      let (at_, first) ← T.nextStart first
      let o := { o with subs := first :: later }
      if at_ ≠ NO_MORE ∧ o.exhausted = false then do
        let (ordered, o) ← o.stretchToOrder T
        if ordered = true ∧ o.width ≤ o.slop then some (true, o) else seek rounds o
      else some (false, o)

def left (o : NearOrdered σ) : Nat := T.leftAll (o.subs.take 1) + o.atFirst.toNat

/-- The next match of them. -/
def nextMatch (o : NearOrdered σ) : Option (Bool × NearOrdered σ) :=
  seek T (left T o + 1) { o with exhausted := false }

def «matches» (o : NearOrdered σ) : Option (Bool × NearOrdered σ) := do
  let (yes, subs) ← T.allMatch o.subs
  let o := { o with subs }
  if yes then do
    let (found, o) ← nextMatch T { o with atFirst := false }
    some (found, if found then { o with atFirst := true } else o)
  else some (false, o)

/-- Where it begins, none before the first. -/
def startOf (o : NearOrdered σ) : Int := if o.atFirst then -1 else o.start

def nextStart (o : NearOrdered σ) : Option (Int × NearOrdered σ) :=
  if o.atFirst then some (o.start, { o with atFirst := false })
  else do
    let (found, o) ← nextMatch T o
    if found then some (o.start, o)
    else some (NO_MORE, { o with start := NO_MORE, «end» := NO_MORE })

def spans : Spans (NearOrdered σ) where
  «matches» := «matches» T
  nextStart := nextStart T
  start := startOf
  «end» o := if o.atFirst then -1 else o.end
  width := width
  skipTo o position := Spans.skip (nextStart T) startOf position (left T o + 1) o
  left := left T

end NearOrdered

/-- An unordered `span_near`: one match of each clause, in any order, within a window no wider than
the clauses themselves plus `slop`. -/
structure NearUnordered (σ : Type) where
  subs : List σ
  slop : Int
  heap : LuceneHeap
  totalLength : Int
  maxEnd : Int
  atFirst : Bool
  exhausted : Bool

namespace NearUnordered

/-- The sub-span that begins first. -/
def topOf (o : NearUnordered σ) : Nat := o.heap.top.getD 0

def enter (o : NearUnordered σ) (i : Nat) : Option (NearUnordered σ) := do
  let s ← o.subs[i]?
  let (_, s) ← T.nextStart s
  let subs := o.subs.set i s
  some { o with
    subs
    heap := o.heap.add i (T.positionLess subs)
    maxEnd := max o.maxEnd (T.end s)
    totalLength := wrap (o.totalLength + (T.end s - T.start s)) }

/-- The sub-spans at their first matches. -/
def startDocument (o : NearUnordered σ) : Option (NearUnordered σ) :=
  (List.range o.subs.length).foldlM (enter T)
    { o with heap := o.heap.clear, totalLength := 0, maxEnd := -1 }

/-- The first of them moves on. -/
def nextPosition (o : NearUnordered σ) : Option (Bool × NearUnordered σ) := do
  let top := o.topOf
  let s ← o.subs[top]?
  let totalLength := wrap (o.totalLength - (T.end s - T.start s))
  let (at_, s) ← T.nextStart s
  let subs := o.subs.set top s
  if at_ = NO_MORE then some (false, { o with subs, totalLength })
  else
    some (true, { o with
      subs
      totalLength := wrap (totalLength + (T.end s - T.start s))
      maxEnd := max o.maxEnd (T.end s)
      heap := o.heap.settled (T.positionLess subs) })

/-- They are near enough. -/
def atMatch (o : NearUnordered σ) : Bool :=
  o.maxEnd - T.startAt o.subs o.topOf - o.totalLength ≤ o.slop

def left (o : NearUnordered σ) : Nat := T.leftAll o.subs + o.atFirst.toNat

/-- The loop of `matches`. -/
def seek : Nat → NearUnordered σ → Option (Bool × NearUnordered σ)
  | 0, _ => none
  | rounds + 1, o =>
    if atMatch T o then some (true, { o with atFirst := true })
    else do
      let (more, o) ← nextPosition T o
      if more then seek rounds o else some (false, o)

/-- The loop of `next_start`. -/
def goOn : Nat → NearUnordered σ → Option (Int × NearUnordered σ)
  | 0, _ => none
  | rounds + 1, o => do
    let (more, o) ← nextPosition T o
    if more then
      if atMatch T o then some (T.startAt o.subs o.topOf, o) else goOn rounds o
    else some (NO_MORE, { o with exhausted := true })

def «matches» (o : NearUnordered σ) : Option (Bool × NearUnordered σ) := do
  let (yes, subs) ← T.allMatch o.subs
  let o := { o with subs }
  if yes then do
    let o ← startDocument T { o with atFirst := false, exhausted := false }
    seek T (left T o + 1) o
  else some (false, o)

def startOf (o : NearUnordered σ) : Int :=
  if o.atFirst then -1 else if o.exhausted then NO_MORE else T.startAt o.subs o.topOf

def nextStart (o : NearUnordered σ) : Option (Int × NearUnordered σ) :=
  if o.atFirst then some (T.startAt o.subs o.topOf, { o with atFirst := false })
  else goOn T (left T o + 1) o

def spans : Spans (NearUnordered σ) where
  «matches» := «matches» T
  nextStart := nextStart T
  start := startOf T
  «end» o := if o.atFirst then -1 else if o.exhausted then NO_MORE else o.maxEnd
  width o := o.maxEnd - T.startAt o.subs o.topOf
  skipTo o position := Spans.skip (nextStart T) (startOf T) position (left T o + 1) o
  left := left T

end NearUnordered

/-- What a filtering clause asks of each match it passes on. -/
inductive Check (τ : Type) where
  | first (limit : Int)
  | not (exclude : τ) (pre post : Int) (asked present : Bool)

/-- What is said of a match. -/
inductive Accept where
  | yes
  | no
  | noMoreInDocument
deriving DecidableEq

namespace Check

/-- Matches of the other spans are passed over. -/
def passOver (before : Int) : Nat → τ → Option (Bool × τ)
  | 0, exclude => if U.end exclude ≤ before then none else some (false, exclude)
  | rounds + 1, exclude =>
    if U.end exclude ≤ before then do
      let (at_, exclude) ← U.nextStart exclude
      if at_ = NO_MORE then some (true, exclude) else passOver before rounds exclude
    else some (false, exclude)

/-- A match is taken or not. -/
def accept (start «end» : Int) : Check τ → Option (Accept × Check τ)
  | .first limit =>
    some (if start ≥ limit then .noMoreInDocument else if «end» ≤ limit then .yes else .no,
      .first limit)
  | .not exclude pre post asked present => do
    let (present, exclude) ← if asked then some (present, exclude) else U.matches exclude
    if present then do
      let exclude ← if U.start exclude = -1 then (U.nextStart exclude).map Prod.snd
        else some exclude
      let (out, exclude) ← passOver U (start - pre) (U.left exclude + 1) exclude
      let accepted := if out = true ∨ U.start exclude - post ≥ «end» then Accept.yes else .no
      some (accepted, .not exclude pre post true true)
    else some (.yes, .not exclude pre post true false)

end Check

/-- `span_first` and `span_not`: the matches of one clause that pass a check. -/
structure FilterSpans (σ τ : Type) where
  inner : σ
  check : Check τ
  atFirst : Bool
  start : Int

namespace FilterSpans

def accept (f : FilterSpans σ τ) : Option (Accept × FilterSpans σ τ) := do
  let (accepted, check) ← f.check.accept U (T.start f.inner) (T.end f.inner)
  some (accepted, { f with check })

/-- The loop of `matches`. -/
def seek : Nat → FilterSpans σ τ → Option (Bool × FilterSpans σ τ)
  | 0, _ => none
  | rounds + 1, f => do
    let (accepted, f) ← accept T U f
    match accepted with
    | .yes => some (true, { f with atFirst := true })
    | .no => do
      let (start, inner) ← T.nextStart f.inner
      if start = NO_MORE then some (false, { f with inner, start := -1 })
      else seek rounds { f with inner, start }
    | .noMoreInDocument => some (false, { f with start := -1 })

/-- The loop of `next_start`. -/
def goOn : Nat → FilterSpans σ τ → Option (Int × FilterSpans σ τ)
  | 0, _ => none
  | rounds + 1, f => do
    let (start, inner) ← T.nextStart f.inner
    let f := { f with inner, start }
    if start = NO_MORE then some (NO_MORE, f)
    else do
      let (accepted, f) ← accept T U f
      match accepted with
      | .yes => some (f.start, f)
      | .no => goOn rounds f
      | .noMoreInDocument => some (NO_MORE, { f with start := NO_MORE })

def left (f : FilterSpans σ τ) : Nat := T.left f.inner + f.atFirst.toNat

def «matches» (f : FilterSpans σ τ) : Option (Bool × FilterSpans σ τ) := do
  let (yes, inner) ← T.matches f.inner
  if yes then do
    let (start, inner) ← T.nextStart inner
    seek T U (T.left inner + 1) { f with inner, atFirst := false, start }
  else some (false, { f with inner })

def startOf (f : FilterSpans σ τ) : Int := if f.atFirst then -1 else f.start

def nextStart (f : FilterSpans σ τ) : Option (Int × FilterSpans σ τ) :=
  if f.atFirst then some (f.start, { f with atFirst := false })
  else goOn T U (left T f + 1) f

def spans : Spans (FilterSpans σ τ) where
  «matches» := «matches» T U
  nextStart := nextStart T U
  start := startOf
  «end» f := if f.atFirst then -1 else if f.start ≠ NO_MORE then T.end f.inner else NO_MORE
  width f := T.width f.inner
  skipTo f position := Spans.skip (nextStart T U) startOf position (left T f + 1) f
  left := left T

end FilterSpans

/-- `span_containing` answers with the big matches that hold a little one, `span_within` with the
little matches a big one holds. -/
structure ContainSpans (σ τ : Type) where
  big : σ
  little : τ
  within : Bool
  atFirst : Bool
  exhausted : Bool

namespace ContainSpans

def passOver (behind : τ → Bool) : Nat → τ → Option (Bool × τ)
  | 0, s => if behind s then none else some (false, s)
  | rounds + 1, s =>
    if behind s then do
      let (at_, s) ← U.nextStart s
      if at_ = NO_MORE then some (true, s) else passOver behind rounds s
    else some (false, s)

/-- The loop of `advance`, over the matches of the answering clause: whether one is allowed. -/
def seek (behind : σ → τ → Bool) (allows : σ → τ → Bool) : Nat → σ → τ → Option (Bool × σ × τ)
  | 0, _, _ => none
  | rounds + 1, s, other => do
    let (at_, s) ← T.nextStart s
    if at_ = NO_MORE then some (false, s, other)
    else do
      let (out, other) ← passOver U (behind s) (U.left other + 1) other
      if out then some (false, s, other)
      else if allows s other then some (true, s, other)
      else seek behind allows rounds s other

/-- The spans that are asked for move on. -/
def advance (c : ContainSpans σ τ) : Option (Bool × ContainSpans σ τ) :=
  if c.within then do
    let (found, little, big) ← seek U T (fun little big => T.end big < U.end little)
      (fun little big => T.start big ≤ U.start little) (U.left c.little + 1) c.little c.big
    some (found, { c with little, big, exhausted := c.exhausted || !found })
  else do
    let (found, big, little) ← seek T U (fun big little => U.start little < T.start big)
      (fun big little => T.end big ≥ U.end little) (T.left c.big + 1) c.big c.little
    some (found, { c with little, big, exhausted := c.exhausted || !found })

def left (c : ContainSpans σ τ) : Nat :=
  (if c.within then U.left c.little else T.left c.big) + c.atFirst.toNat

def «matches» (c : ContainSpans σ τ) : Option (Bool × ContainSpans σ τ) := do
  let (yes, big) ← T.matches c.big
  if yes then do
    let (yes, little) ← U.matches c.little
    if yes then do
      let (found, c) ← advance T U { c with big, little, atFirst := false, exhausted := false }
      some (found, if found then { c with atFirst := true } else c)
    else some (false, { c with big, little })
  else some (false, { c with big })

/-- Where the source stands. -/
def sourceStart (c : ContainSpans σ τ) : Int := if c.within then U.start c.little else T.start c.big

def startOf (c : ContainSpans σ τ) : Int :=
  if c.atFirst then -1 else if c.exhausted then NO_MORE else sourceStart T U c

def nextStart (c : ContainSpans σ τ) : Option (Int × ContainSpans σ τ) :=
  if c.atFirst then some (sourceStart T U c, { c with atFirst := false })
  else do
    let (found, c) ← advance T U c
    some (if found then sourceStart T U c else NO_MORE, c)

def spans : Spans (ContainSpans σ τ) where
  «matches» := «matches» T U
  nextStart := nextStart T U
  start := startOf T U
  «end» c :=
    if c.atFirst then -1 else if c.exhausted then NO_MORE
    else if c.within then U.end c.little else T.end c.big
  width c := if c.within then U.width c.little else T.width c.big
  skipTo c position := Spans.skip (nextStart T U) (startOf T U) position (left T U c + 1) c
  left := left T U

end ContainSpans

end Clauses

/-! ## Boxes -/

/-- A walk of any kind: `Box<dyn Spans>`. -/
structure Dyn where
  σ : Type
  ops : Spans σ
  state : σ

/-- Spans of one of several kinds. -/
def Boxed (ds : List Dyn) : Type := (i : Fin ds.length) × (ds.get i).σ

namespace Boxed

variable (ds : List Dyn)

/-- Their answer put back into the box. -/
def put {α : Type} (i : Fin ds.length) (x : Option (α × (ds.get i).σ)) : Option (α × Boxed ds) :=
  x.map fun r => (r.1, ⟨i, r.2⟩)

def spans : Spans (Boxed ds) where
  «matches» s := put ds s.1 ((ds.get s.1).ops.matches s.2)
  nextStart s := put ds s.1 ((ds.get s.1).ops.nextStart s.2)
  start s := (ds.get s.1).ops.start s.2
  «end» s := (ds.get s.1).ops.end s.2
  width s := (ds.get s.1).ops.width s.2
  skipTo s position := put ds s.1 ((ds.get s.1).ops.skipTo s.2 position)
  left s := (ds.get s.1).ops.left s.2

/-- One of each. -/
def all : List (Boxed ds) := List.ofFn fun i => ⟨i, (ds.get i).state⟩

end Boxed

/-! ## The clauses of a query -/

/-- A span query: `Term` is what the index calls one word of one field. -/
inductive SpanTree (Term : Type) where
  | term (t : Term)
  | or (clauses : List (SpanTree Term))
  | near (clauses : List (SpanTree Term)) (slop : Int) (ordered : Bool)
  | gap (width : Int)
  | not (included excluded : SpanTree Term) (pre post : Int)
  | first (inner : SpanTree Term) («end» : Int)
  | containing (big little : SpanTree Term)
  | within (big little : SpanTree Term)
  | masked (inner : SpanTree Term) (field : Term)

/-- What is in both lists. -/
def intersect : List Nat → List Nat → List Nat
  | [], _ => []
  | _, [] => []
  | a :: l, b :: m =>
    if a < b then intersect l (b :: m)
    else if b < a then intersect (a :: l) m
    else a :: intersect l m
termination_by l m => l.length + m.length

/-- What is in either. -/
def union : List Nat → List Nat → List Nat
  | [], m => m
  | l, [] => l
  | a :: l, b :: m =>
    if a < b then a :: union l (b :: m)
    else if b < a then b :: union (a :: l) m
    else a :: union l m
termination_by l m => l.length + m.length

namespace SpanTree

variable {Term : Type} [DecidableEq Term]

mutual

/-- Every word the clause reads, excluded ones too. -/
def allTerms : SpanTree Term → List Term → List Term
  | term t, out => if t ∈ out then out else out ++ [t]
  | or c, out | near c _ _, out => allTermsOf c out
  | gap _, out => out
  | first inner _, out | masked inner _, out => allTerms inner out
  | not big little _ _, out | containing big little, out | within big little, out =>
    allTerms little (allTerms big out)

/-- The terms of a list of trees. -/
def allTermsOf : List (SpanTree Term) → List Term → List Term
  | [], out => out
  | c :: cs, out => allTermsOf cs (allTerms c out)

end

/-- What two clauses that both have to match leave of the documents, `none` for all of them. -/
def both : Option (List Nat) → Option (List Nat) → Option (List Nat)
  | none, other | other, none => other
  | some a, some b => some (intersect a b)

/-- What is in either, where both are known. -/
def either : Option (List Nat) → Option (List Nat) → Option (List Nat)
  | some a, some b => some (union a b)
  | _, _ => none

mutual

/-- The documents of a segment that could match, `none` for all of them. -/
def candidates (docs : Term → List Nat) : SpanTree Term → Option (List Nat)
  | term t => some (docs t)
  | gap _ => none
  | or c => anyOf docs c (some [])
  | near c _ _ => allOf docs c none
  | not inner _ _ _ | first inner _ | masked inner _ => candidates docs inner
  | containing big little | within big little => both (candidates docs big) (candidates docs little)

/-- The documents any of the trees may match in. -/
def anyOf (docs : Term → List Nat) :
    List (SpanTree Term) → Option (List Nat) → Option (List Nat)
  | [], all => all
  | c :: cs, all => anyOf docs cs (either all (candidates docs c))

/-- The documents all of them may match in. -/
def allOf (docs : Term → List Nat) :
    List (SpanTree Term) → Option (List Nat) → Option (List Nat)
  | [], acc => acc
  | c :: cs, acc => allOf docs cs (both acc (candidates docs c))

end

/-- Where a word stands: `places` is in the order of `terms`. -/
def placesOf (terms : List Term) (places : List (List Int)) (t : Term) : List Int :=
  places.getD ((terms.findIdx? fun x => x = t).getD 0) []

mutual

/-- The spans of a clause in one document, given where each word of `terms` stands in it. -/
def spans (terms : List Term) (places : List (List Int)) : SpanTree Term → Dyn
  | term t => ⟨_, TermSpans.spans, ⟨placesOf terms places t, 0, -1⟩⟩
  | gap width => ⟨_, GapSpans.spans, ⟨width, -1⟩⟩
  | or clauses =>
    let ds := spansOf terms places clauses
    ⟨_, OrSpans.spans (Boxed.spans ds), ⟨Boxed.all ds, [], .new, none⟩⟩
  | near clauses slop true =>
    let ds := spansOf terms places clauses
    ⟨_, NearOrdered.spans (Boxed.spans ds), ⟨Boxed.all ds, slop, -1, -1, -1, true, false⟩⟩
  | near clauses slop false =>
    let ds := spansOf terms places clauses
    ⟨_, NearUnordered.spans (Boxed.spans ds), ⟨Boxed.all ds, slop, .new, 0, -1, true, false⟩⟩
  | not included excluded pre post =>
    let a := spans terms places included
    let b := spans terms places excluded
    ⟨_, FilterSpans.spans a.ops b.ops, ⟨a.state, .not b.state pre post false false, false, -1⟩⟩
  | first inner «end» =>
    let a := spans terms places inner
    ⟨_, FilterSpans.spans a.ops a.ops, ⟨a.state, .first «end», false, -1⟩⟩
  | containing big little =>
    let a := spans terms places big
    let b := spans terms places little
    ⟨_, ContainSpans.spans a.ops b.ops, ⟨a.state, b.state, false, false, false⟩⟩
  | within big little =>
    let a := spans terms places big
    let b := spans terms places little
    ⟨_, ContainSpans.spans a.ops b.ops, ⟨a.state, b.state, true, false, false⟩⟩
  | masked inner _ => spans terms places inner

/-- The spans of a list of trees. -/
def spansOf (terms : List Term) (places : List (List Int)) : List (SpanTree Term) → List Dyn
  | [] => []
  | c :: cs => spans terms places c :: spansOf terms places cs

end

/-- The matches of a clause in a document. -/
def found (terms : List Term) (places : List (List Int)) (tree : SpanTree Term) :
    Option (List Match) :=
  let d := tree.spans terms places
  d.ops.found d.state

end SpanTree

end Velosearch.Query
