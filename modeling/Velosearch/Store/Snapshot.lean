import Velosearch.Index.Visible
import Velosearch.Index.Translog
import Velosearch.Index.Following

/-!
# What a snapshot brings back

`write_shards`, `plan_shards`, `prepare` and `apply`: the documents of an index are written into
a file for each shard, by the node that holds the shard's primary, and read back and written into
a new index. The digest, the JSON of a line and what the restored mapping takes are parameters;
the writer a restore writes with does not fail.
-/

namespace Velosearch
namespace Snapshot

open Index

/-- Bytes. -/
abbrev Bytes := List UInt8

/-- The end of a line. -/
def newline : UInt8 := 10

/-- What one line of a documents file holds. -/
structure Kept where
  id : String
  routing : Option String
  source : String
deriving DecidableEq

/-- A document's line. -/
def Kept.line (r : Kept) : Bytes :=
  Text.encode ("\x7b\"_id\":".toList ++ jsonStr r.id ++ ",\"_routing\":".toList ++
    (match r.routing with
      | some routing => jsonStr routing
      | none => "null".toList) ++
    ",\"_source\":".toList ++ jsonStr r.source ++ "\x7d".toList)

/-- A copy of a shard's index. -/
structure Copy where
  st : IdxState
  reader : List Doc

/-- What becomes of a node's part of a snapshot: its refresh, the documents its store cannot read,
the files it cannot write, and the primaries it no longer holds when it is asked. -/
structure Luck where
  refresh : Fate := {}
  unread : Doc → Bool := fun _ => false
  unwritten : Nat → Bool := fun _ => false
  moved : Nat → Bool := fun _ => false

/-- What a snapshot is taken of: the nodes of its primaries, and their copies. -/
structure Taken (N B : Type) where
  count : Nat
  some_ : 0 < count
  owner : Nat → Option N
  copies : N → Option Copy
  luck : N → Luck
  body : B

/-- What is noted of a shard's file. -/
structure Recorded (D : Type) where
  count : Option Nat
  sha256 : Option D

/-- What is noted of an index. -/
structure Description (D B : Type) where
  numberOfShards : Option Nat
  shards : Option (List (Nat × Recorded D))
  docs : Recorded D
  body : B

/-- The files of an index in the repository. -/
structure Files (D B : Type) where
  described : Option (Description D B)
  shard : Nat → Option Bytes
  docs : Option Bytes

/-- Why a snapshot is not restored. -/
inductive Complaint where
  | nothing
  | unfinished
  | noDocuments (shard : Option Nat)
  | digest
  | line (n : Nat)
  | number
  | refused (id : String)
deriving DecidableEq

variable {D N M B : Type} [DecidableEq D] [DecidableEq N]

/-! ## Writing -/

section Write

variable (S : Settings) (sha256 : Bytes → D)

/-- The copy once it has been refreshed. -/
def Copy.refreshed (c : Copy) (f : Fate) : Copy :=
  let r := c.st.tryRefresh f
  { st := r.1, reader := if r.2 then r.1.realtime else c.reader }

/-- The documents that can be read. -/
def Copy.shown (c : Copy) (luck : Luck) : List Doc :=
  (c.refreshed luck.refresh).reader.filter (! luck.unread ·)

/-- The documents a snapshot takes. -/
def Copy.dump (c : Copy) (luck : Luck) : List (Nat × Kept) :=
  let st := (c.refreshed luck.refresh).st
  (c.shown luck).map fun d =>
    (st.shardOfDoc S d.id, { id := d.id, routing := st.routing[d.id]?, source := d.source })

/-- The file of some. -/
def fileOf (kept : List Kept) : Bytes :=
  kept.flatMap fun r => r.line ++ [newline]

/-- Those of a shard. -/
def Copy.shardLines (c : Copy) (luck : Luck) (shard : Nat) : List Kept :=
  ((c.dump S luck).filter (·.1 == shard)).map Prod.snd

/-- What is noted of them. -/
def recordedOf (kept : List Kept) : Recorded D where
  count := some kept.length
  sha256 := some (sha256 (fileOf kept))

/-- `write_shards`, or the shard it stops at. -/
def writeShards (c : Copy) (luck : Luck) (count : Nat) (shards : List Nat) :
    Except Nat (List (Nat × Bytes × Recorded D)) :=
  match shards.find? (count ≤ ·) with
  | some bad => .error bad
  | none => match shards.find? luck.unwritten with
    | some bad => .error bad
    | none => .ok (shards.map fun s =>
        (s, fileOf (c.shardLines S luck s), recordedOf sha256 (c.shardLines S luck s)))

namespace Taken

variable (x : Taken N B)

/-- The shards of a node in `plan_shards`, as far as it still holds their primaries. -/
def work (n : N) : List Nat :=
  (List.range x.count).filter fun s => decide (x.owner s = some n) && !(x.luck n).moved s

/-- What was written of a shard, where it was. -/
def answer (s : Nat) : Option (Bytes × Recorded D) := do
  let n ← x.owner s
  let c ← x.copies n
  let files ← (writeShards S sha256 c (x.luck n) x.count (x.work n)).toOption
  files.lookup s

/-- Every shard was written. -/
def Success : Prop :=
  ∀ s < x.count, (x.answer S sha256 s).isSome

/-- The files that were. -/
def files : Files D B where
  described := some
    { numberOfShards := some x.count
      shards := some ((List.range x.count).filterMap fun s =>
        (x.answer S sha256 s).map fun w => (s, w.2))
      docs := { count := none, sha256 := none }
      body := x.body }
  shard s := if s < x.count then (x.answer S sha256 s).map Prod.fst else none
  docs := none

end Taken

end Write

/-! ## Reading -/

section Read

-- a line read as JSON, where it and the source in it can be
variable (read : Bytes → Option Kept) (sha256 : Bytes → D)

/-- Lines, read back. -/
def readLines : Nat → List Bytes → Except Complaint (List Kept)
  | _, [] => .ok []
  | n, line :: rest => match read line with
    | none => .error (.line (n + 1))
    | some r => do .ok (r :: (← readLines (n + 1) rest))

/-- A file, checked and read back. -/
def readDocuments (bytes : Bytes) (recorded : Recorded D) : Except Complaint (List Kept) :=
  if recorded.sha256.any (· ≠ sha256 bytes) then .error .digest
  else do
    let kept ← readLines read 0 ((bytes.splitOn newline).filter (! ·.isEmpty))
    if recorded.count.any (· ≠ kept.length) then .error .number else .ok kept

/-- One shard of `prepare`. -/
def readShard (files : Files D B) (shards : List (Nat × Recorded D)) (missingOk : Bool)
    (out : List Kept) (s : Nat) : Except Complaint (List Kept) :=
  match shards.lookup s with
  | none => if missingOk then .ok out else .error .unfinished
  | some recorded => match files.shard s with
    | none => .error (.noDocuments (some s))
    | some bytes => do .ok (out ++ (← readDocuments read sha256 bytes recorded))

/-- Every file of an index. -/
def prepare (files : Files D B) (missingOk : Bool) : Except Complaint (B × List Kept) :=
  match files.described with
  | none => .error .nothing
  | some described => match described.shards with
    | some shards => do
      let count := described.numberOfShards.getD shards.length
      let records ← (List.range count).foldlM (readShard read sha256 files shards missingOk) []
      if shards.isEmpty then .error .unfinished else .ok (described.body, records)
    | none => match files.docs with
      | none => .error (.noDocuments none)
      | some bytes => do .ok (described.body, ← readDocuments read sha256 bytes described.docs)

end Read

/-! ## Writing again -/

section Apply

variable (S : Settings) (terms : Cluster.BTreeMap Nat Nat)
  -- what the mapping makes of a document's text, and what it becomes
  (take : M → String → String → Option (M × String))

/-- A document's routing. -/
def remember (st : IdxState) (r : Kept) : IdxState :=
  match r.routing with
  | some q => { st with routing := st.routing.insert r.id q }
  | none => st

/-- One document of `apply`: `write_doc_internal`, which what holds writes off does not hold. -/
def put (at_ : IdxState × M) (r : Kept) : Except Complaint (IdxState × M) :=
  if 512 < r.id.utf8ByteSize then .error (.refused r.id)
  else match take at_.2 r.id r.source with
    | none => .error (.refused r.id)
    | some (m, raw) => .ok (((remember at_.1 r).writeGranted S terms r.id raw none).1, m)

/-- `apply`: an index under the name it is restored as, in memory or on disk, with the mapping it is
made with. -/
def apply (name : String) (onDisk : Bool) (mapping : M) (records : List Kept) :
    Except Complaint IdxState := do
  let made : IdxState := { name, onDisk }
  let at_ ← records.foldlM (put S terms take) (made, mapping)
  .ok at_.1.refresh

end Apply

/-! ## What is asked -/

section Claim

variable (S : Settings) (x : Taken N B)

/-- A document as it can be read. -/
def shownOf (S : Settings) (st : IdxState) (id : String) : Option (Option String × Option String) :=
  (st.document S id).map fun d => (d.source, d.routing)

/-- A refresh goes through: the writer takes all that waits for it, and commits, and the reader is
opened anew. -/
def Copy.Refreshes (c : Copy) (f : Fate) : Prop :=
  c.st.Takes f none ∧ (c.st.writer = true ∨ c.st.deferred ≠ [] → f.commits = true) ∧
    f.reloads = true

instance instDecidableRefreshes (c : Copy) (f : Fate) : Decidable (c.Refreshes f) :=
  inferInstanceAs (Decidable ((c.st.deferred = [] ∨
    c.st.reachable f = true ∧ (c.st.handingOver f none).refused = none) ∧
    (c.st.writer = true ∨ c.st.deferred ≠ [] → f.commits = true) ∧ f.reloads = true))

/-- What there is to be found of a shard on a copy: every live document where the refresh goes
through, and what the search reader shows already where it does not; as far as it can be read. -/
def Copy.found (S : Settings) (c : Copy) (luck : Luck) (s : Nat) : List Kept :=
  (((if c.Refreshes luck.refresh then c.st.settled else c.reader).filter (! luck.unread ·)).filter
    fun d => c.st.shardOfDoc S d.id == s).map fun d =>
      { id := d.id, routing := c.st.routing[d.id]?, source := d.source }

namespace Taken

/-- As it stands in its shard. -/
def liveAt (s : Nat) (id : String) : Option (Option String × Option String) := do
  let n ← x.owner s
  let c ← x.copies n
  if c.st.shardOfDoc S id = s then shownOf S c.st id else none

/-- As it stands in any. -/
def live (id : String) : List (Option String × Option String) :=
  (List.range x.count).filterMap (x.liveAt S · id)

/-- What was written of a shard. -/
def lines (s : Nat) : List Kept :=
  match (x.owner s).bind fun n => (x.copies n).map fun c => c.shardLines S (x.luck n) s with
  | some kept => kept
  | none => []

/-- Of all. -/
def records : List Kept :=
  (List.range x.count).flatMap (x.lines S)

/-- What was there to write. -/
def foundAt (s : Nat) : List Kept :=
  ((x.owner s).bind fun n => (x.copies n).map fun c => c.found S (x.luck n) s).getD []

/-- What the primaries of an index can find when the snapshot is asked for, shard by shard. -/
def found : List Kept :=
  (List.range x.count).flatMap (x.foundAt S)

end Taken

/-- The documents a restore is given. -/
def taken (take : M → String → String → Option (M × String)) : M → List Kept → Option (List Kept)
  | _, [] => some []
  | m, r :: rest =>
    if 512 < r.id.utf8ByteSize then none
    else (take m r.id r.source).bind fun made =>
      (taken take made.1 rest).map ({ r with source := made.2 } :: ·)

/-- What is restored under an id. -/
def standing (kept : List Kept) (id : String) : Option (Option String × Option String) :=
  let mine := kept.filter (·.id == id)
  mine.getLast?.map fun r => (some r.source, (mine.filterMap Kept.routing).getLast?)

namespace Taken

variable (S' : Settings) (read : Bytes → Option Kept) (sha256 : Bytes → D)
  (terms : Cluster.BTreeMap Nat Nat) (take : M → String → String → Option (M × String)) (mapping : M)

/-- The snapshot brings the index back: it is read and written again without complaint, and under
each id there is the document that was live, with its source and its routing, and no other. -/
def Restores (name : String) (onDisk : Bool) : Prop :=
  ∃ records, prepare read sha256 (x.files S sha256) false = .ok (x.body, records) ∧
    ∃ st, apply S' terms take name onDisk mapping records = .ok st ∧
      ∀ id, (shownOf S' st id).toList = x.live S id

/-- The mapping the index is restored with takes what was found, and what was found last under each
id is what was live. -/
def Caught : Prop :=
  ∃ kept, taken take mapping (x.found S) = some kept ∧
    ∀ id, (standing kept id).toList = x.live S id

/-- The ordinary case: every refresh goes through and each stored document is read, no id is live on
two shards, and the mapping takes each document as it is. -/
structure Orderly : Prop where
  refreshes : ∀ s < x.count, ∀ n, x.owner s = some n → ∀ c, x.copies n = some c →
    c.Refreshes (x.luck n).refresh ∧ ∀ d, (x.luck n).unread d = false
  apart : ∀ id, (x.live S id).length ≤ 1
  taken : taken take mapping (x.found S) = some (x.found S)

end Taken

end Claim

/-! ## A file reads as it was written -/

section Lines

variable {read : Bytes → Option Kept} {sha256 : Bytes → D} {kept : List Kept}

theorem newline_not_mem_line (r : Kept) : newline ∉ r.line := by
  apply Text.newline_encode
  cases routing : r.routing with
  | none => simp [newline_not_mem_jsonStr]
  | some q => simp [newline_not_mem_jsonStr]

theorem line_ne_nil (r : Kept) : r.line ≠ [] := by
  intro empty
  have short := congrArg List.length empty
  have first : '{'.utf8Size ≠ 0 := (Char.utf8Size_pos '{').ne'
  simp [Kept.line, Text.encode, first] at short

theorem fileOf_cons (r : Kept) (rest : List Kept) :
    fileOf (r :: rest) = r.line ++ newline :: fileOf rest := by
  simp [fileOf]

theorem splitOn_fileOf (kept : List Kept) :
    (fileOf kept).splitOn newline = kept.map Kept.line ++ [[]] := by
  induction kept with
  | nil => rfl
  | cons r rest ih =>
    rw [fileOf_cons, List.splitOn_append_cons_self_of_not_mem (newline_not_mem_line r), ih]
    rfl

theorem lines_fileOf (kept : List Kept) :
    ((fileOf kept).splitOn newline).filter (! ·.isEmpty) = kept.map Kept.line := by
  rw [splitOn_fileOf, List.filter_append]
  have full : (kept.map Kept.line).filter (! ·.isEmpty) = kept.map Kept.line := by
    rw [List.filter_eq_self]
    intro line mem
    obtain ⟨r, -, rfl⟩ := List.mem_map.mp mem
    simp [line_ne_nil r]
  rw [full]
  simp

theorem readLines_written (reads : ∀ r ∈ kept, read r.line = some r) (n : Nat) :
    readLines read n (kept.map Kept.line) = .ok kept := by
  induction kept generalizing n with
  | nil => rfl
  | cons r rest ih =>
    have first : read r.line = some r := reads r List.mem_cons_self
    have after := ih (fun r mem => reads r (List.mem_cons_of_mem _ mem)) (n + 1)
    rw [List.map_cons, readLines, first, after]
    rfl

theorem readDocuments_written (reads : ∀ r ∈ kept, read r.line = some r) :
    readDocuments read sha256 (fileOf kept) (recordedOf sha256 kept) = .ok kept := by
  have same : ¬ ((recordedOf sha256 kept).sha256.any (· ≠ sha256 (fileOf kept)) = true) := by
    simp [recordedOf]
  have number : ¬ ((recordedOf sha256 kept).count.any (· ≠ kept.length) = true) := by
    simp [recordedOf]
  rw [readDocuments, if_neg same, lines_fileOf, readLines_written reads]
  show (if _ then _ else _) = _
  rw [if_neg number]

theorem readDocuments_digest (injective : Function.Injective sha256) {bytes : Bytes}
    {out : List Kept} (ok : readDocuments read sha256 bytes (recordedOf sha256 kept) = .ok out) :
    bytes = fileOf kept := by
  rw [readDocuments] at ok
  by_cases other : (recordedOf sha256 kept).sha256.any (· ≠ sha256 bytes) = true
  · rw [if_pos other] at ok
    cases ok
  · apply injective
    have same : sha256 (fileOf kept) = sha256 bytes := by
      simpa only [recordedOf, Option.any_some, decide_eq_true_eq, ne_eq, not_not] using other
    exact same.symm

end Lines

/-! ## The shards of a snapshot -/

section Shards

variable {read : Bytes → Option Kept} {sha256 : Bytes → D} {S : Settings} {x : Taken N B}

theorem lookup_filterMap {β : Type} (f : Nat → Option β) (l : List Nat) (s : Nat) :
    (l.filterMap fun s => (f s).map fun w => (s, w)).lookup s = if s ∈ l then f s else none := by
  induction l with
  | nil => rfl
  | cons t rest ih =>
    cases here : f t with
    | none =>
      rw [List.filterMap_cons_none (by rw [here]; rfl), ih]
      by_cases same : s = t
      · subst same
        simp [here]
      · simp [same]
    | some w =>
      rw [List.filterMap_cons_some (by rw [here]; rfl), List.lookup_cons]
      by_cases same : s = t
      · subst same
        simp [here]
      · rw [beq_eq_false_iff_ne.mpr same, ih]
        simp [same]

omit [DecidableEq D] in
theorem answer_lines {s : Nat} {w : Bytes × Recorded D} (written : x.answer S sha256 s = some w) :
    w = (fileOf (x.lines S s), recordedOf sha256 (x.lines S s)) := by
  rw [Taken.answer] at written
  cases owner : x.owner s with
  | none => simp [owner] at written
  | some n =>
    cases copy : x.copies n with
    | none => simp [owner, copy] at written
    | some c =>
      have lines : x.lines S s = c.shardLines S (x.luck n) s := by
        rw [Taken.lines, owner, Option.bind_some, copy]
        rfl
      simp only [owner, copy, Option.bind_eq_bind, Option.bind_some] at written
      rw [writeShards] at written
      cases beyond : (x.work n).find? (x.count ≤ ·) with
      | some bad =>
        rw [beyond] at written
        cases written
      | none =>
        cases unwritten : (x.work n).find? (x.luck n).unwritten with
        | some bad =>
          rw [beyond, unwritten] at written
          cases written
        | none =>
          rw [beyond, unwritten] at written
          obtain ⟨before, after, eq, -⟩ := List.lookup_eq_some_iff.mp written
          have mem : (s, w) ∈ before ++ (s, w) :: after := List.mem_append_cons_self
          rw [← eq] at mem
          obtain ⟨t, -, at_⟩ := List.mem_map.mp mem
          rw [lines]
          cases at_
          rfl

omit [DecidableEq D] in
theorem Taken.Success.answer (success : x.Success S sha256) {s : Nat} (lt : s < x.count) :
    x.answer S sha256 s = some (fileOf (x.lines S s), recordedOf sha256 (x.lines S s)) := by
  obtain ⟨w, written⟩ := Option.isSome_iff_exists.mp (success s lt)
  rw [written, answer_lines written]

/-- What was noted of each shard. -/
def Taken.recorded (S : Settings) (sha256 : Bytes → D) (x : Taken N B) : List (Nat × Recorded D) :=
  (List.range x.count).filterMap fun s => (x.answer S sha256 s).map fun w => (s, w.2)

omit [DecidableEq D] in
theorem Taken.Success.lookup (success : x.Success S sha256) {s : Nat} (lt : s < x.count) :
    (x.recorded S sha256).lookup s = some (recordedOf sha256 (x.lines S s)) := by
  have each := lookup_filterMap (fun s => (x.answer S sha256 s).map Prod.snd) (List.range x.count) s
  simp only [Option.map_map] at each
  refine each.trans ?_
  rw [if_pos (List.mem_range.mpr lt), success.answer lt]
  rfl

omit [DecidableEq D] in
theorem Taken.Success.recorded_ne_nil (success : x.Success S sha256) :
    (x.recorded S sha256).isEmpty = false := by
  cases recorded : x.recorded S sha256 with
  | nil =>
    have found := success.lookup x.some_
    rw [recorded] at found
    cases found
  | cons _ _ => rfl

omit [DecidableEq N] in
theorem readShard_ok {files : Files D B} {shards : List (Nat × Recorded D)} {missingOk : Bool}
    {kept out : List Kept} {s : Nat}
    (at_ : shards.lookup s = some (recordedOf sha256 kept)) (file : files.shard s = some (fileOf kept))
    (reads : ∀ r ∈ kept, read r.line = some r) :
    readShard read sha256 files shards missingOk out s = .ok (out ++ kept) := by
  rw [readShard, at_]
  simp only [file, readDocuments_written reads]
  rfl

theorem foldlM_append {ε : Type} {f : List Kept → Nat → Except ε (List Kept)} {g : Nat → List Kept}
    {l : List Nat} (each : ∀ s ∈ l, ∀ out, f out s = .ok (out ++ g s)) (out : List Kept) :
    l.foldlM f out = .ok (out ++ l.flatMap g) := by
  induction l generalizing out with
  | nil =>
    rw [List.flatMap_nil, List.append_nil]
    rfl
  | cons s rest ih =>
    rw [List.foldlM_cons, each s List.mem_cons_self]
    show rest.foldlM f (out ++ g s) = _
    rw [ih (fun s mem => each s (List.mem_cons_of_mem _ mem)), List.flatMap_cons, List.append_assoc]

theorem step_of_foldlM {ε α β : Type} {f : β → α → Except ε β} {l : List α} {b b' : β}
    (ok : l.foldlM f b = .ok b') {a : α} (mem : a ∈ l) : ∃ c c', f c a = .ok c' := by
  induction l generalizing b with
  | nil => cases mem
  | cons first rest ih =>
    rw [List.foldlM_cons] at ok
    cases step : f b first with
    | error e =>
      rw [step] at ok
      cases ok
    | ok c =>
      rw [step] at ok
      cases mem with
      | head => exact ⟨b, c, step⟩
      | tail _ later => exact ih ok later

/-- What was noted of the index. -/
def Taken.described (S : Settings) (sha256 : Bytes → D) (x : Taken N B) (body : B) : Files D B :=
  { x.files S sha256 with
    described := some
      { numberOfShards := some x.count
        shards := some (x.recorded S sha256)
        docs := { count := none, sha256 := none }
        body } }

/-- **A snapshot that says SUCCESS** is read as it was written, whatever index it says it is of. -/
theorem Taken.Success.prepare (success : x.Success S sha256)
    (reads : ∀ r ∈ x.records S, read r.line = some r) (missingOk : Bool) (body : B) :
    prepare read sha256 (x.described S sha256 body) missingOk = .ok (body, x.records S) := by
  have shards : (List.range x.count).foldlM
      (readShard read sha256 (x.described S sha256 body) (x.recorded S sha256) missingOk) [] =
      .ok (x.records S) := by
    refine foldlM_append (fun s mem out => ?_) []
    have lt : s < x.count := List.mem_range.mp mem
    refine readShard_ok (success.lookup lt) ?_ fun r inside => reads r ?_
    · show (if s < x.count then (x.answer S sha256 s).map Prod.fst else none) = _
      rw [if_pos lt, success.answer lt]
      rfl
    · exact List.mem_flatMap.mpr ⟨s, mem, inside⟩
  show (do
    let records ← (List.range x.count).foldlM
      (readShard read sha256 (x.described S sha256 body) (x.recorded S sha256) missingOk) []
    if (x.recorded S sha256).isEmpty then Except.error Complaint.unfinished
      else .ok (body, records)) = _
  rw [shards]
  show (if _ then _ else _) = _
  rw [success.recorded_ne_nil]
  rfl

/-- **A shard's file that was changed, cut or lost** is found out. -/
theorem Taken.Success.refuses (success : x.Success S sha256) (injective : Function.Injective sha256)
    {files : Files D B}
    (changed : files.described = none ∨ files.described = (x.files S sha256).described ∧
      ∃ s < x.count, files.shard s ≠ (x.files S sha256).shard s) (missingOk : Bool) :
    ∃ complaint, Snapshot.prepare read sha256 files missingOk = .error complaint := by
  rcases changed with lost | ⟨same, s, lt, other⟩
  · refine ⟨.nothing, ?_⟩
    rw [Snapshot.prepare, lost]
  · cases ok : (List.range x.count).foldlM
        (readShard read sha256 files (x.recorded S sha256) missingOk) [] with
    | error complaint =>
      refine ⟨complaint, ?_⟩
      rw [Snapshot.prepare, same]
      show (do
        let records ← (List.range x.count).foldlM
          (readShard read sha256 files (x.recorded S sha256) missingOk) []
        if (x.recorded S sha256).isEmpty then Except.error Complaint.unfinished
          else .ok (x.body, records)) = _
      rw [ok]
      rfl
    | ok records =>
      obtain ⟨out, out', step⟩ := step_of_foldlM ok (List.mem_range.mpr lt)
      rw [readShard, success.lookup lt] at step
      cases file : files.shard s with
      | none =>
        rw [file] at step
        cases step
      | some bytes =>
        simp only [file] at step
        cases read_ : readDocuments read sha256 bytes (recordedOf sha256 (x.lines S s)) with
        | error e =>
          rw [read_] at step
          cases step
        | ok kept =>
          refine absurd ?_ other
          have there : (x.files S sha256).shard s = some (fileOf (x.lines S s)) := by
            show (if s < x.count then (x.answer S sha256 s).map Prod.fst else none) = _
            rw [if_pos lt, success.answer lt]
            rfl
          rw [file, there, readDocuments_digest injective read_]

end Shards

/-! ## The documents written again -/

section Again

variable {S : Settings} {terms : Cluster.BTreeMap Nat Nat}
  {take : M → String → String → Option (M × String)} {st : IdxState} {done : List Kept}

/-- The documents under an id. -/
def mine (done : List Kept) (id : String) : List Kept :=
  done.filter (·.id == id)

theorem mine_own (done : List Kept) (r : Kept) : mine (done ++ [r]) r.id = mine done r.id ++ [r] := by
  simp [mine]

theorem mine_other {r : Kept} {id : String} (other : r.id ≠ id) :
    mine (done ++ [r]) id = mine done id := by
  simp [mine, other]

/-- A restored index has what was read so far. -/
structure Stands (S : Settings) (st : IdxState) (done : List Kept) : Prop where
  sound : st.Sound S
  routed : ∀ id : String, st.routing[id]? = ((mine done id).filterMap Kept.routing).getLast?
  shown : ∀ id, (st.document S id).map Document.source =
    (mine done id).getLast?.map fun r => some r.source

theorem shownOf_eq (S : Settings) (st : IdxState) (id : String) :
    shownOf S st id = ((st.document S id).map Document.source).map fun s => (s, st.routing[id]?) := by
  rw [shownOf, IdxState.document]
  cases st.isLive S id with
  | true => rfl
  | false => rfl

theorem Stands.standing (h : Stands S st done) (id : String) :
    shownOf S st id = standing done id := by
  rw [shownOf_eq, h.shown, h.routed, Option.map_map]
  rfl

theorem stands_nil (name : String) (onDisk : Bool) : Stands S { name, onDisk } [] where
  sound := by
    have sound := Pair.sound_empty S name
    refine ⟨⟨sound.pinned.queues, sound.pinned.resting⟩, fun id => ?_⟩
    have agrees := sound.agrees id
    exact ⟨agrees.single, agrees.waiting, agrees.shown, agrees.versioned, agrees.unversioned,
      agrees.numbered, agrees.numbers⟩
  routed id := by simp [mine]
  shown id := by
    have dead : IdxState.isLive S { name, onDisk } id = false := by
      simp [IdxState.isLive, IdxState.lookupId]
    rw [IdxState.document, dead]
    rfl

theorem remember_cases (st : IdxState) (r : Kept) :
    (r.routing = none ∧ remember st r = st) ∨
      ∃ q, r.routing = some q ∧ remember st r = st.setRouting r.id (some q) := by
  cases routing : r.routing with
  | none =>
    refine .inl ⟨rfl, ?_⟩
    rw [remember, routing]
  | some q =>
    refine .inr ⟨q, rfl, ?_⟩
    rw [remember, routing]
    rfl

theorem remember_sound (sound : st.Sound S) (r : Kept) : (remember st r).Sound S := by
  rcases remember_cases st r with ⟨-, eq⟩ | ⟨q, -, eq⟩
  · rw [eq]
    exact sound
  · rw [eq]
    exact sound.setRouting r.id (some q)

theorem remember_leaves (r : Kept) {j : String} (other : r.id ≠ j) :
    IdxState.Leaves S j st (remember st r) := by
  rcases remember_cases st r with ⟨-, eq⟩ | ⟨q, -, eq⟩
  · rw [eq]
    exact .refl
  · rw [eq]
    exact IdxState.setRouting_leaves other (some q)

theorem remember_routing (h : Stands S st done) (r : Kept) :
    (remember st r).routing[r.id]? =
      ((mine done r.id ++ [r]).filterMap Kept.routing).getLast? := by
  rcases remember_cases st r with ⟨none, eq⟩ | ⟨q, some, eq⟩
  · rw [eq, h.routed, List.filterMap_append]
    simp [none]
  · rw [eq, List.filterMap_append]
    simp [IdxState.setRouting, some]

theorem Stands.put (h : Stands S st done) (r : Kept) (raw : String) :
    Stands S ((remember st r).writeGranted S terms r.id raw none).1
      (done ++ [{ r with source := raw }]) := by
  have sound := remember_sound h.sound r
  have made := IdxState.writeGranted_made sound terms r.id raw none
  have routing : ((remember st r).writeGranted S terms r.id raw none).1.routing =
      (remember st r).routing := IdxState.writeGranted_routing (sound.agrees r.id) raw none
  refine ⟨made.sound, fun id => ?_, fun id => ?_⟩
  · by_cases own : r.id = id
    · subst own
      rw [routing, remember_routing h]
      show _ = ((mine (done ++ [{ r with source := raw }]) r.id).filterMap Kept.routing).getLast?
      rw [mine_own done { r with source := raw }]
      simp [List.filterMap_append]
    · rw [mine_other (r := { r with source := raw }) own, ← h.routed, routing]
      exact (remember_leaves (S := S) r own).routing
  · by_cases own : r.id = id
    · subst own
      rw [mine_own done { r with source := raw }, List.getLast?_concat]
      have document := made.document
      rw [IdxState.granted] at document
      rw [document]
      rfl
    · rw [mine_other (r := { r with source := raw }) own, ← h.shown,
        (made.leaves id own).document sound, (remember_leaves r own).document h.sound]

theorem foldlM_put (terms : Cluster.BTreeMap Nat Nat)
    (take : M → String → String → Option (M × String)) (h : Stands S st done) (m : M) (records : List Kept) :
    match taken take m records with
    | some kept => ∃ at_, records.foldlM (put S terms take) (st, m) = .ok at_ ∧
        Stands S at_.1 (done ++ kept)
    | none => ∃ e, records.foldlM (put S terms take) (st, m) = .error e := by
  induction records generalizing st done m with
  | nil =>
    refine ⟨(st, m), rfl, ?_⟩
    rw [List.append_nil]
    exact h
  | cons r rest ih =>
    rw [List.foldlM_cons, taken, Snapshot.put]
    by_cases long : 512 < r.id.utf8ByteSize
    · rw [if_pos long, if_pos long]
      exact ⟨_, rfl⟩
    · rw [if_neg long, if_neg long]
      cases made : take m r.id r.source with
      | none => exact ⟨_, rfl⟩
      | some to_ =>
        have more : Stands S ((remember st r).writeGranted S terms r.id to_.2 none).1
            (done ++ [{ r with source := to_.2 }]) := h.put r to_.2
        have next := ih more to_.1
        simp only [Option.bind_some]
        cases later : taken take to_.1 rest with
        | none =>
          rw [later] at next
          exact next
        | some kept =>
          rw [later] at next
          obtain ⟨at_, ok, stands⟩ := next
          refine ⟨at_, ok, ?_⟩
          rw [List.append_assoc] at stands
          exact stands

/-- **What `apply` leaves**: where the mapping takes every document, what stands of them. -/
theorem apply_spec (terms : Cluster.BTreeMap Nat Nat)
    (take : M → String → String → Option (M × String)) (name : String) (onDisk : Bool) (mapping : M) (records : List Kept) :
    match taken take mapping records with
    | some kept => ∃ st, apply S terms take name onDisk mapping records = .ok st ∧
        ∀ id, shownOf S st id = standing kept id
    | none => ∃ e, apply S terms take name onDisk mapping records = .error e := by
  have all := foldlM_put terms take (stands_nil (S := S) name onDisk) mapping records
  cases made : taken take mapping records with
  | none =>
    rw [made] at all
    obtain ⟨e, failed⟩ := all
    refine ⟨e, ?_⟩
    rw [apply, failed]
    rfl
  | some kept =>
    rw [made] at all
    obtain ⟨at_, ok, stands⟩ := all
    refine ⟨at_.1.refresh, ?_, fun id => ?_⟩
    · rw [apply, ok]
      rfl
    · have leaves : IdxState.Leaves S id at_.1 at_.1.refresh := IdxState.refresh_leaves
      rw [List.nil_append] at stands
      rw [← stands.standing id, shownOf_eq, shownOf_eq, leaves.document stands.sound, leaves.routing]

end Again

/-! ## What a refresh that went through shows -/

section Refreshed

variable {S : Settings} {c : Copy} {luck : Luck} {x : Taken N B}
  {take : M → String → String → Option (M × String)} {mapping : M}

theorem refreshed_routing (c : Copy) (f : Fate) : (c.refreshed f).st.routing = c.st.routing := by
  have routing : (c.st.tryApplyOps f none).1.routing = c.st.routing :=
    IdxState.tryApplyOps_routing none
  show (c.st.tryRefresh f).1.routing = _
  rw [IdxState.tryRefresh]
  cases handed : c.st.tryApplyOps f none with
  | mk st applied =>
    rw [handed] at routing
    by_cases failed : (!applied || st.writer && !f.commits || !f.reloads) = true
    · simpa only [failed, if_true] using routing
    · simp only [failed, Bool.false_eq_true, if_false, IdxState.commit]
      split
      · exact routing
      · exact routing

theorem tryRefresh_ok_iff (c : Copy) (f : Fate) :
    (c.st.tryRefresh f).2 = true ↔ c.Refreshes f := by
  have takes : (c.st.tryApplyOps f none).2 = true ↔ c.st.Takes f none :=
    IdxState.tryApplyOps_ok_iff
  have writer : c.st.Takes f none →
      ((c.st.tryApplyOps f none).1.writer = true ↔ c.st.writer = true ∨ c.st.deferred ≠ []) := by
    intro takes
    by_cases busy : c.st.deferred = []
    · rw [IdxState.tryApplyOps_empty busy]
      simp [busy]
    · have reached := (takes.resolve_left busy).1
      rw [IdxState.tryApplyOps_reached busy reached]
      simp [busy]
  rw [Copy.Refreshes, IdxState.tryRefresh]
  cases handed : c.st.tryApplyOps f none with
  | mk st applied =>
    rw [handed] at takes writer
    dsimp only at takes writer ⊢
    cases applied with
    | false => simpa using fun there : c.st.Takes f none => absurd (takes.mpr there) (by simp)
    | true =>
      have there := takes.mp rfl
      rw [← writer there]
      cases st.writer <;> cases f.commits <;> cases f.reloads <;> simp [there]

theorem refreshed_reader {f : Fate} (sound : c.st.Sound S) (ok : c.Refreshes f) :
    (c.refreshed f).reader = c.st.settled := by
  have ok := (tryRefresh_ok_iff c f).mpr ok
  show (if (c.st.tryRefresh f).2 = true then (c.st.tryRefresh f).1.realtime else c.reader) = _
  rw [if_pos ok]
  rw [IdxState.tryRefresh] at ok ⊢
  cases handed : c.st.tryApplyOps f none with
  | mk st applied =>
    simp only [handed] at ok ⊢
    by_cases failed : (!applied || st.writer && !f.commits || !f.reloads) = true
    · rw [if_pos failed] at ok
      cases ok
    · rw [if_neg failed]
      have went : (c.st.tryApplyOps f none).2 = true := by
        rw [handed]
        cases applied with
        | true => rfl
        | false => simp at failed
      have all := IdxState.tryApplyOps_takes (IdxState.tryApplyOps_ok_iff.mp went)
      rw [handed] at all
      have same : st = c.st.applyOps none := congrArg Prod.fst all
      have pinned := IdxState.applyOps_pinned sound.pinned none
      show st.commit.realtime = _
      rw [same, IdxState.commit_realtime pinned, IdxState.applyOps_none_written]

/-- The lines a node writes of a shard are what it could find of it beforehand. -/
theorem shardLines_eq (sound : c.st.Sound S) (luck : Luck) (s : Nat) :
    c.shardLines S luck s = c.found S luck s := by
  have shard : ∀ id, (c.refreshed luck.refresh).st.shardOfDoc S id = c.st.shardOfDoc S id := by
    intro id
    rw [IdxState.shardOfDoc, refreshed_routing]
    rfl
  have reader : (c.refreshed luck.refresh).reader =
      if c.Refreshes luck.refresh then c.st.settled else c.reader := by
    split
    · rename_i ok
      exact refreshed_reader sound ok
    · rename_i failed
      exact if_neg fun ok => failed ((tryRefresh_ok_iff c _).mp ok)
  rw [Copy.shardLines, Copy.dump, Copy.found, Copy.shown, reader, List.filter_map, List.map_map]
  simp only [refreshed_routing, Function.comp_def, shard]

omit [DecidableEq N] in
theorem Taken.records_eq (sound : ∀ n c, x.copies n = some c → c.st.Sound S) :
    x.records S = x.found S := by
  refine List.flatMap_congr fun s _ => ?_
  rw [Taken.lines, Taken.foundAt]
  cases owner : x.owner s with
  | none => rfl
  | some n =>
    cases copy : x.copies n with
    | none =>
      simp only [Option.bind_some, copy]
      rfl
    | some c =>
      simp only [Option.bind_some, copy, Option.map_some, Option.getD_some]
      exact shardLines_eq (sound n c copy) (x.luck n) s

theorem mine_found (c : Copy) (luck : Luck) (s : Nat) (id : String)
    (ok : c.Refreshes luck.refresh) (all : ∀ d, luck.unread d = false) :
    mine (c.found S luck s) id =
      if c.st.shardOfDoc S id = s then
        (docsOf c.st.settled id).map fun d =>
          { id := d.id, routing := c.st.routing[d.id]?, source := d.source }
      else [] := by
  have lines : mine (c.found S luck s) id =
      (c.st.settled.filter fun d => d.id == id && c.st.shardOfDoc S d.id == s).map fun d =>
        { id := d.id, routing := c.st.routing[d.id]?, source := d.source } := by
    rw [mine, Copy.found, if_pos ok, List.filter_map, List.filter_filter, List.filter_filter]
    simp [all]
  rw [lines]
  by_cases here : c.st.shardOfDoc S id = s
  · rw [if_pos here]
    have same : (c.st.settled.filter fun d => d.id == id && c.st.shardOfDoc S d.id == s) =
        docsOf c.st.settled id := by
      refine List.filter_congr fun d _ => ?_
      by_cases own : d.id = id
      · simp [own, here]
      · simp [own]
    rw [same]
  · rw [if_neg here, List.map_eq_nil_iff, List.filter_eq_nil_iff]
    intro d _
    by_cases own : d.id = id
    · simp [own, here]
    · simp [own]

omit [DecidableEq N] in
theorem Taken.Orderly.lines (orderly : x.Orderly S take mapping)
    (sound : ∀ n c, x.copies n = some c → c.st.Sound S) {s : Nat} (lt : s < x.count)
    (id : String) :
    (mine (x.foundAt S s) id).map (fun r => (some r.source, r.routing)) =
      (x.liveAt S s id).toList := by
  rw [Taken.foundAt, Taken.liveAt]
  cases owner : x.owner s with
  | none => rfl
  | some n =>
    cases copy : x.copies n with
    | none =>
      simp [copy]
      rfl
    | some c =>
      simp only [copy, Option.bind_some, Option.map_some, Option.bind_eq_bind, Option.getD_some]
      obtain ⟨ok, all⟩ := orderly.refreshes s lt n owner c copy
      have agrees := (sound n c copy).agrees id
      rw [mine_found c _ s id ok all]
      by_cases here : c.st.shardOfDoc S id = s
      · rw [if_pos here, if_pos here, shownOf, agrees.document]
        have single := agrees.single
        cases docs : docsOf c.st.settled id with
        | nil => rfl
        | cons d rest =>
          rw [docs, List.length_cons] at single
          have none : rest = [] := List.eq_nil_of_length_eq_zero (by omega)
          have own : d.id = id := (mem_docsOf.mp (docs ▸ List.mem_cons_self)).2
          simp [none, own]
      · rw [if_neg here, if_neg here]
        rfl

omit [DecidableEq N] in
theorem Taken.Orderly.found (orderly : x.Orderly S take mapping)
    (sound : ∀ n c, x.copies n = some c → c.st.Sound S) (id : String) :
    (mine (x.found S) id).map (fun r => (some r.source, r.routing)) = x.live S id := by
  rw [mine, Taken.found, List.filter_flatMap, List.map_flatMap, Taken.live,
    List.filterMap_eq_flatMap_toList]
  refine List.flatMap_congr fun s mem => ?_
  exact orderly.lines sound (List.mem_range.mp mem) id

omit [DecidableEq N] in
theorem Taken.Orderly.caught (orderly : x.Orderly S take mapping)
    (sound : ∀ n c, x.copies n = some c → c.st.Sound S) : x.Caught S take mapping := by
  refine ⟨x.found S, orderly.taken, fun id => ?_⟩
  have all := orderly.found sound id
  have apart := orderly.apart id
  rw [← all] at apart ⊢
  rw [List.length_map] at apart
  show ((mine (x.found S) id).getLast?.map fun r => (some r.source,
    ((mine (x.found S) id).filterMap Kept.routing).getLast?)).toList = _
  cases lines : mine (x.found S) id with
  | nil => rfl
  | cons r rest =>
    rw [lines, List.length_cons] at apart
    have none : rest = [] := List.eq_nil_of_length_eq_zero (by omega)
    rw [none]
    cases routing : r.routing with
    | none => simp [routing]
    | some q => simp [routing]

end Refreshed

/-! ## What comes back -/

section Back

variable {read : Bytes → Option Kept} {sha256 : Bytes → D} {S : Settings} {x : Taken N B}

theorem Taken.Success.restores_iff (success : x.Success S sha256)
    (sound : ∀ n c, x.copies n = some c → c.st.Sound S)
    (reads : ∀ r ∈ x.found S, read r.line = some r) (S' : Settings)
    (terms : Cluster.BTreeMap Nat Nat) (take : M → String → String → Option (M × String))
    (mapping : M) (name : String) (onDisk : Bool) :
    x.Restores S S' read sha256 terms take mapping name onDisk ↔ x.Caught S take mapping := by
  have records := x.records_eq sound
  have read_ : Snapshot.prepare read sha256 (x.files S sha256) false = .ok (x.body, x.found S) := by
    rw [← records] at reads ⊢
    exact success.prepare reads false x.body
  have applied := apply_spec (S := S') terms take name onDisk mapping (x.found S)
  constructor
  · intro restores
    obtain ⟨records, prepared, st, ok, all⟩ := restores
    rw [read_] at prepared
    cases prepared
    cases made : taken take mapping (x.found S) with
    | none =>
      rw [made] at applied
      obtain ⟨e, failed⟩ := applied
      rw [ok] at failed
      cases failed
    | some kept =>
      rw [made] at applied
      obtain ⟨st', ok', stands⟩ := applied
      rw [ok] at ok'
      cases ok'
      refine ⟨kept, made, fun id => ?_⟩
      rw [← stands id, all id]
  · intro caught
    obtain ⟨kept, made, all⟩ := caught
    rw [made] at applied
    obtain ⟨st, ok, stands⟩ := applied
    refine ⟨x.found S, read_, st, ok, fun id => ?_⟩
    rw [stands id, all id]

def unrefreshed : IdxState :=
  (IdxState.writeGranted Pair.oneShard ∅ { name := "books" } "a" "\x7b\x7d" none).1

def waiting (refresh : Fate) : Taken Unit Unit where
  count := 1
  some_ := Nat.one_pos
  owner _ := some ()
  copies _ := some { st := unrefreshed, reader := [] }
  luck _ := { refresh }
  body := ()

def onlyLine : Kept :=
  { id := "a", routing := none, source := "\x7b\x7d" }

def readOnly (line : Bytes) : Option Kept :=
  if line = onlyLine.line then some onlyLine else none

def takeAny : Unit → String → String → Option (Unit × String) :=
  fun _ _ source => some ((), source)

theorem waiting_sound (refresh : Fate) (n : Unit) (c : Copy)
    (copy : (waiting refresh).copies n = some c) : c.st.Sound Pair.oneShard := by
  cases copy
  exact (IdxState.writeGranted_made (Pair.sound_empty Pair.oneShard "books") ∅ "a" "\x7b\x7d"
    none).sound

theorem waiting_orderly (found : (waiting {}).found Pair.oneShard = [onlyLine]) :
    (waiting {}).Orderly Pair.oneShard takeAny () := by
  refine ⟨?_, ?_, ?_⟩
  · intro s _ n _ c copy
    cases copy
    have refreshes : Copy.Refreshes { st := unrefreshed, reader := [] } {} := by decide +kernel
    exact ⟨refreshes, fun _ => rfl⟩
  · intro id
    exact List.length_filterMap_le _ _
  · rw [found]
    decide +kernel

end Back

end Snapshot
end Velosearch
