import Mathlib.Data.List.Basic
import Mathlib.Logic.Function.Basic

/-!
# An index name, deleted and made again

`Store::delete`, `Store::create`, `ensure` and the requests of an index, all on one name.
Each is cut where another may come in between: what it does under one lock, or in one call
to the file system, is one act. `dir_name` gives no two names one directory, so what the
store does to another name touches neither the entry nor the files of this one.

A document carries the index it was written to, and so does what is kept of its version and its
term. Nothing in the store does: the files of a directory are taken for whatever index is opened
on it.

A request makes its calls in its own order (`save_doc_meta` writes the versions, then the terms,
and removes the record of what moved; `clear_translog` appends to that record first). Here any
order may come.
-/

set_option autoImplicit false

namespace Velosearch.Store

/-! ## Files -/

/-- A write of a document, or its deletion, with the index it was made to. -/
structure Doc where
  index : Nat
  id : String
  version : Nat
  term : Nat
  source : Option String
  deriving DecidableEq, Repr

/-- Where a document's version had got to, with the index that numbered it. -/
structure DocMeta where
  index : Nat
  version : Nat
  live : Bool
  deriving DecidableEq, Repr

/-- The primary term of a document's last write, with the index it was made to. -/
structure Term where
  index : Nat
  term : Nat
  deriving DecidableEq, Repr

/-- A line of `_docmeta.log`. -/
structure Line where
  id : String
  docMeta : DocMeta
  term : Term
  deriving DecidableEq, Repr

/-- A `HashMap` of ids. -/
abbrev Table (α : Type) := List (String × α)

namespace Table

variable {α : Type} (l : Table α) (id : String)

/-- The entry of an id is taken out. -/
def remove : Table α :=
  l.filter (·.1 != id)

/-- The entry of an id, in place of the one it had. -/
def insert (a : α) : Table α :=
  (id, a) :: remove l id

variable {l : Table α} {id : String} {e : String × α}

theorem mem_of_remove (mem : e ∈ remove l id) : e ∈ l :=
  (List.mem_filter.mp mem).1

theorem mem_of_insert {a : α} (mem : e ∈ insert l id a) : e.2 = a ∨ e ∈ l := by
  rcases List.mem_cons.mp mem with rfl | mem
  · exact .inl rfl
  · exact .inr (mem_of_remove mem)

theorem mem_of_lookup {a : α} (found : List.lookup id l = some a) : ∃ j, (j, a) ∈ l := by
  induction l with
  | nil => cases found
  | cons e l ih =>
    rw [List.lookup_cons] at found
    split at found
    · cases found
      exact ⟨e.1, List.mem_cons_self⟩
    · obtain ⟨j, mem⟩ := ih found
      exact ⟨j, List.mem_cons_of_mem e mem⟩

end Table

/-- A segment file with the documents that were committed into it. -/
structure Segment where
  file : Nat
  docs : List Doc
  deriving DecidableEq, Repr

/-- The directory of the name: what stands in each of its files, where there is one. -/
structure Dir where
  state : Option Nat := none
  commit : Option (List Segment) := none
  files : List Nat := []
  log : Option (Nat × List Doc) := none
  versions : Option (Table DocMeta) := none
  terms : Option (Table Term) := none
  docMetaLog : Option (List Line) := none
  deriving DecidableEq, Repr

/-- The files a removal unlinks, one at a time. -/
inductive File where
  | state
  | commit
  | segment (n : Nat)
  | log
  | versions
  | terms
  | docMetaLog
  deriving DecidableEq, Repr

namespace Dir

variable (dir : Dir)

/-- The segments an open finds: those the commit names, if all of them are there. -/
def found : Option (List Segment) :=
  match dir.commit with
  | none => some []
  | some segments =>
    if segments.all fun segment => dir.files.contains segment.file then some segments else none

/-- One file goes. -/
def unlink : File → Dir
  | .state => { dir with state := none }
  | .commit => { dir with commit := none }
  | .segment n => { dir with files := dir.files.filter (· != n) }
  | .log => { dir with log := none }
  | .versions => { dir with versions := none }
  | .terms => { dir with terms := none }
  | .docMetaLog => { dir with docMetaLog := none }

/-- `open_translog` on the directory: the log that is there, or a new one. -/
def withLog (fresh : Nat) : Nat × Dir :=
  match dir.log with
  | some (file, _) => (file, dir)
  | none => (fresh, { dir with log := some (fresh, []) })

/-- A document recorded, by an index that has the translog `file` open. -/
def record (file : Option Nat) (doc : Doc) : Dir :=
  match dir.log with
  | some (there, docs) =>
    if file = some there then { dir with log := some (there, docs ++ [doc]) } else dir
  | none => dir

/-- Every document in the directory, committed or in the translog. -/
def docs : List Doc :=
  (dir.commit.getD []).flatMap Segment.docs ++ (dir.log.map Prod.snd).getD []

/-- Nothing is in the directory that was written to an index. -/
structure Blank : Prop where
  docs : dir.docs = []
  versions : dir.versions.getD [] = []
  terms : dir.terms.getD [] = []
  lines : dir.docMetaLog.getD [] = []

end Dir

/-! ## The store, about one name -/

/-- An open index: `IdxState`. -/
structure Idx where
  segments : List Segment
  queued : List Doc := []
  path : Bool := false
  log : Option Nat := none
  versions : Table DocMeta := []
  terms : Table Term := []
  dirty : List String := []
  deriving DecidableEq, Repr

namespace Idx

variable (x : Idx)

/-- The documents an index holds. -/
def docs : List Doc :=
  x.segments.flatMap Segment.docs ++ x.queued

/-- `is_live`: what waits in the queue says it, or the versions, or what is committed. -/
def isLive (id : String) : Bool :=
  let last (docs : List Doc) := docs.reverse.find? (·.id == id)
  match last x.queued, x.versions.lookup id with
  | some doc, _ => doc.source.isSome
  | none, some m => m.live
  | none, none => (last (x.segments.flatMap Segment.docs)).any (·.source.isSome)

/-- The term of a document, which is kept where it is past the first. -/
def setTerm (k : Nat) (id : String) (term : Nat) : Idx :=
  { x with
    terms := if term ≤ 1 then x.terms.remove id else x.terms.insert id ⟨k, term⟩
    dirty := x.dirty.insert id }

/-- `bump_to_seq`, and the term. -/
def bumpTo (k : Nat) (id : String) (live : Bool) (version term : Nat) : Idx :=
  { x with versions := x.versions.insert id ⟨k, version, live⟩ }.setTerm k id term

/-- `bump`, and the term. A document that is new, at version 1, needs no entry. -/
def bump (k : Nat) (id : String) (live : Bool) (term : Nat) : Nat × Idx :=
  if x.isLive id || (x.versions.lookup id).isSome then
    let version := ((x.versions.lookup id).map DocMeta.version).getD 1 + 1
    (version, x.bumpTo k id live version term)
  else (1, if live then x.setTerm k id term else x.bumpTo k id live 1 term)

/-- What `append_doc_meta_log` writes of an id. -/
def line (k : Nat) (id : String) : Line where
  id := id
  docMeta := (x.versions.lookup id).getD ⟨k, 1, true⟩
  term := (x.terms.lookup id).getD ⟨k, 1⟩

/-- `replay_doc_meta_log`, of one line. -/
def replayLine (l : Line) : Idx :=
  { x with
    versions := if 1 < l.docMeta.version || !l.docMeta.live then x.versions.insert l.id l.docMeta
      else x.versions.remove l.id
    terms := if 1 < l.term.term then x.terms.insert l.id l.term else x.terms.remove l.id }

/-- A record of the translog, taken up when the index opens. -/
def replayed (doc : Doc) : Idx :=
  { x with queued := x.queued ++ [doc] }.bumpTo doc.index doc.id doc.source.isSome doc.version
    doc.term

end Idx

/-- What a restart makes of a directory: its tables read, and its translog taken up. -/
def Dir.reopened (dir : Dir) (segments : List Segment) (log : Nat) : Idx :=
  let read : Idx :=
    { segments, path := true, log := some log, versions := dir.versions.getD []
      terms := dir.terms.getD [] }
  ((dir.log.map Prod.snd).getD []).foldl Idx.replayed
    ((dir.docMetaLog.getD []).foldl Idx.replayLine read)

/-- Where a create is. -/
inductive Creating where
  | free
  | standing
  | opened (segments : List Segment)
  deriving DecidableEq, Repr

/-- Where a delete is. -/
inductive Deleting where
  | found
  | taken (dropped : Option Nat)
  | removing (dropped : Option Nat)
  deriving DecidableEq, Repr

/-- What the store knows of the name, and its directory. -/
structure Slot where
  now : Nat := 0
  inner : Option Nat := none
  dir : Option Dir := none
  indices : Nat → Option Idx := fun _ => none
  creates : Nat → Option Creating := fun _ => none
  deletes : Nat → Option Deleting := fun _ => none
  holds : Nat → Option Nat := fun _ => none
  deleted : List Nat := []

/-- What happens on the name, each act under one lock or in one call to the file system. -/
inductive Act where
  | create
  | createDirAll (c : Nat)
  | openOrCreate (c : Nat)
  | claim (c : Nat)
  | get (r : Nat)
  | openTranslog (r : Nat)
  | loadVersions (r : Nat)
  | loadTerms (r : Nat)
  | replayDocMetaLog (r : Nat)
  | saveMeta (r : Nat)
  | write (r : Nat) (id : String) (source : Option String) (forced : Option Nat) (term : Nat)
  | commit (r : Nat)
  | saveVersions (r : Nat)
  | saveTerms (r : Nat)
  | removeDocMetaLog (r : Nat)
  | appendDocMetaLog (r : Nat)
  | clearTranslog (r : Nat)
  | letGo (r : Nat)
  | delete
  | takeOut (d : Nat)
  | unheld (d : Nat)
  | unlink (d : Nat) (file : File)
  | finish (d : Nat)
  | restart
  deriving Repr

namespace Slot

variable (s : Slot)

def setIndex (k : Nat) (x : Idx) : Slot :=
  { s with indices := Function.update s.indices k (some x) }

def setCreate (c : Nat) (at_ : Option Creating) : Slot :=
  { s with creates := Function.update s.creates c at_ }

def setDelete (d : Nat) (at_ : Option Deleting) : Slot :=
  { s with deletes := Function.update s.deletes d at_ }

/-- `create_dir_all`: a directory that stands is not an error. -/
def createDirAll (c : Nat) : Slot :=
  { s with dir := some (s.dir.getD {}) }.setCreate c (some .standing)

/-- `open_or_create`: an index that is there is opened. -/
def openOrCreate (c : Nat) : Slot :=
  match s.dir with
  | none => s.setCreate c none
  | some dir =>
    match dir.found with
    | none => s.setCreate c none
    | some segments =>
      { s with dir := some { dir with commit := some segments } }.setCreate c
        (some (.opened segments))

/-- The name is claimed, or the create refused. -/
def claim (c : Nat) (segments : List Segment) : Slot :=
  match s.inner with
  | some _ => s.setCreate c none
  | none =>
    { s with inner := some s.now, now := s.now + 1 }.setIndex s.now { segments } |>.setCreate c none

/-- The index is told its `path`, and its translog opened. -/
def openTranslog (k : Nat) (x : Idx) : Slot :=
  match s.dir with
  | none => s.setIndex k { x with path := true, log := none }
  | some dir =>
    let opened := dir.withLog s.now
    { s with dir := some opened.2, now := s.now + 1 }.setIndex k
      { x with path := true, log := some opened.1 }

/-- `_meta.json`, which is what a restart goes by. -/
def saveMeta (k : Nat) (x : Idx) : Slot :=
  if x.path then { s with dir := s.dir.map fun dir => { dir with state := some k } } else s

/-- `_versions.bin` is read, whichever index it was saved for. -/
def loadVersions (k : Nat) (x : Idx) : Slot :=
  s.setIndex k { x with versions := (s.dir.bind Dir.versions).getD [] }

/-- `_terms.bin`, likewise. -/
def loadTerms (k : Nat) (x : Idx) : Slot :=
  s.setIndex k { x with terms := (s.dir.bind Dir.terms).getD [] }

/-- The lines of `_docmeta.log` over what was loaded. -/
def replayDocMetaLog (k : Nat) (x : Idx) : Slot :=
  s.setIndex k (((s.dir.bind Dir.docMetaLog).getD []).foldl Idx.replayLine x)

/-- A document written or deleted, at the next version or at one the caller chose: queued, and
recorded in the translog the index has open. -/
def write (k : Nat) (x : Idx) (id : String) (source : Option String) (forced : Option Nat)
    (term : Nat) : Slot :=
  let numbered := match forced with
    | some version => (version, x.bumpTo k id source.isSome version term)
    | none => x.bump k id source.isSome term
  let doc : Doc := { index := k, id, version := numbered.1, term, source }
  let dir := s.dir.map fun dir => dir.record x.log doc
  { s with dir }.setIndex k { numbered.2 with queued := x.queued ++ [doc] }

/-- The queued documents go into a segment, and the commit names it. -/
def commit (k : Nat) (x : Idx) : Slot :=
  match s.dir with
  | none => s
  | some dir =>
    let segments := x.segments ++ [⟨s.now, x.queued⟩]
    { s with
      dir := some { dir with commit := some segments, files := dir.files ++ [s.now] }
      now := s.now + 1 }.setIndex k { x with segments, queued := [] }

/-- The versions, as the index has them. -/
def saveVersions (x : Idx) : Slot :=
  if x.path then { s with dir := s.dir.map fun dir => { dir with versions := some x.versions } }
  else s

/-- An index that never failed over has no file, and writes none. -/
def saveTerms (x : Idx) : Slot :=
  let terms := if x.terms.isEmpty then none else some x.terms
  if x.path then { s with dir := s.dir.map fun dir => { dir with terms } } else s

/-- The record of what moved since the tables were saved. -/
def removeDocMetaLog (k : Nat) (x : Idx) : Slot :=
  let dir := if x.path then s.dir.map fun dir : Dir => { dir with docMetaLog := none } else s.dir
  { s with dir }.setIndex k { x with dirty := [] }

/-- What moved since the last full write, unless the directory is gone. -/
def appendDocMetaLog (k : Nat) (x : Idx) : Slot :=
  if !x.path then s.setIndex k { x with dirty := [] }
  else
    match s.dir with
    | none => s
    | some dir =>
      let lines := dir.docMetaLog.getD [] ++ x.dirty.map (x.line k)
      { s with dir := some { dir with docMetaLog := some lines } }.setIndex k { x with dirty := [] }

/-- The translog is begun anew once its documents are committed. -/
def clearTranslog (k : Nat) (x : Idx) : Slot :=
  if !x.path then s
  else
    match s.dir with
    | none => s.setIndex k { x with log := none }
    | some dir =>
      let file := (dir.withLog s.now).1
      { s with dir := some { dir with log := some (file, []) }, now := s.now + 1 }.setIndex k
        { x with log := some file }

/-- The removal is over: the directory goes if nothing is left in it, and the delete is
answered either way. -/
def finish (d : Nat) (dropped : Option Nat) : Slot :=
  { s with
    dir := s.dir.filter (· != ({} : Dir))
    deleted := s.deleted ++ dropped.toList }.setDelete d none

/-- The process dies and `on_disk` opens what has `_meta.json`. -/
def restart : Slot :=
  let stopped : Slot := { now := s.now, dir := s.dir, deleted := s.deleted }
  match s.dir with
  | none => stopped
  | some dir =>
    match dir.state, dir.found with
    | some k, some segments =>
      let opened := { dir with commit := some segments }.withLog s.now
      { stopped with inner := some k, dir := some opened.2, now := s.now + 1 }.setIndex k
        (dir.reopened segments opened.1)
    | _, _ => stopped

/-- A request acts on the index it holds. -/
def through (r : Nat) (f : Nat → Idx → Slot) : Slot :=
  match s.holds r with
  | none => s
  | some k =>
    match s.indices k with
    | none => s
    | some x => f k x

def step : Act → Slot
  | .create =>
    if s.inner.isSome then s else { s with now := s.now + 1 }.setCreate s.now (some .free)
  | .createDirAll c => if s.creates c = some .free then s.createDirAll c else s
  | .openOrCreate c => if s.creates c = some .standing then s.openOrCreate c else s
  | .claim c =>
    match s.creates c with
    | some (.opened segments) => s.claim c segments
    | _ => s
  | .get r => { s with holds := Function.update s.holds r s.inner }
  | .openTranslog r => s.through r s.openTranslog
  | .loadVersions r => s.through r s.loadVersions
  | .loadTerms r => s.through r s.loadTerms
  | .replayDocMetaLog r => s.through r s.replayDocMetaLog
  | .saveMeta r => s.through r s.saveMeta
  | .write r id source forced term => s.through r fun k x => s.write k x id source forced term
  | .commit r => s.through r s.commit
  | .saveVersions r => s.through r fun _ x => s.saveVersions x
  | .saveTerms r => s.through r fun _ x => s.saveTerms x
  | .removeDocMetaLog r => s.through r s.removeDocMetaLog
  | .appendDocMetaLog r => s.through r s.appendDocMetaLog
  | .clearTranslog r => s.through r s.clearTranslog
  | .letGo r => { s with holds := Function.update s.holds r none }
  | .delete =>
    if s.inner.isSome then { s with now := s.now + 1 }.setDelete s.now (some .found) else s
  | .takeOut d =>
    if s.deletes d = some .found then
      { s with inner := none }.setDelete d (some (.taken s.inner))
    else s
  | .unheld d =>
    match s.deletes d with
    | some (.taken dropped) => s.setDelete d (some (.removing dropped))
    | _ => s
  | .unlink d file =>
    match s.deletes d with
    | some (.removing _) => { s with dir := s.dir.map (·.unlink file) }
    | _ => s
  | .finish d =>
    match s.deletes d with
    | some (.removing dropped) => s.finish d dropped
    | _ => s
  | .restart => s.restart

def run (acts : List Act) : Slot :=
  acts.foldl step s

end Slot

/-! ## What is asked of it -/

/-- The files of an open index are all there. -/
structure Dir.Whole (dir : Dir) (x : Idx) : Prop where
  commit : dir.commit = some x.segments
  files : ∀ segment ∈ x.segments, segment.file ∈ dir.files
  log : ∀ file, x.log = some file → ∃ docs, dir.log = some (file, docs)

/-- What an index holds of documents, of their versions and of their terms was written to it. -/
structure Idx.Own (x : Idx) (k : Nat) : Prop where
  docs : ∀ doc ∈ x.docs, doc.index = k
  versions : ∀ e ∈ x.versions, e.2.index = k
  terms : ∀ e ∈ x.terms, e.2.index = k

/-- A deleted index stays deleted, and one made under its name starts empty. -/
structure Slot.Clean (s : Slot) : Prop where
  own : ∀ k x, s.indices k = some x → x.Own k
  whole : ∀ k, s.inner = some k → ∃ x dir, s.indices k = some x ∧ s.dir = some dir ∧ dir.Whole x
  fair : ∀ d k, s.deletes d ≠ none → s.indices k ≠ none → k < d
  gone : ∀ k, s.restart.inner = some k → k ∉ s.deleted

/-- The condition on an act, where it happens. -/
def Act.Mannered (s : Slot) : Act → Prop
  -- A create opens a directory when no delete is still to remove it and, as far as it can
  -- be opened, nothing is in it of an index. One that will be refused may open any.
  | .openOrCreate _ =>
    s.inner = none → (∀ d, s.deletes d = none) ∧
      ∀ dir segments, s.dir = some dir → dir.found = some segments → dir.Blank
  -- No create has opened the directory and not claimed the name yet.
  | .takeOut _ => ∀ c segments, s.creates c ≠ some (.opened segments)
  -- The wait ended because nobody holds the index.
  | .unheld _ => ∀ r, s.holds r = none
  -- The removal, if it failed, has taken `_meta.json` away.
  | .finish _ => ∀ dir, s.dir = some dir → dir.state = none
  | _ => True

/-- Every act of a run meets it where it happens. -/
def Slot.Mannered (s : Slot) : List Act → Prop
  | [] => True
  | act :: acts => act.Mannered s ∧ (s.step act).Mannered acts

/-! ## What the acts keep -/

namespace Dir

/-- Everything in the directory is of one index. -/
structure Belongs (dir : Dir) (k : Nat) : Prop where
  docs : ∀ doc ∈ dir.docs, doc.index = k
  state : ∀ j, dir.state = some j → j = k
  versions : ∀ e ∈ dir.versions.getD [], e.2.index = k
  terms : ∀ e ∈ dir.terms.getD [], e.2.index = k
  lines : ∀ l ∈ dir.docMetaLog.getD [], l.docMeta.index = k ∧ l.term.index = k

variable {dir : Dir} {k : Nat} {x : Idx}

/-- A document is in a segment of the commit or in the log. -/
theorem mem_docs {doc : Doc} :
    doc ∈ dir.docs ↔
      (∃ segments, dir.commit = some segments ∧ ∃ segment ∈ segments, doc ∈ segment.docs) ∨
        ∃ file docs, dir.log = some (file, docs) ∧ doc ∈ docs := by
  rw [docs, List.mem_append]
  constructor
  · intro h
    rcases h with h | h
    · left
      cases hc : dir.commit with
      | none => simp [hc] at h
      | some segments => exact ⟨segments, rfl, by simpa [hc] using h⟩
    · right
      cases hl : dir.log with
      | none => simp [hl] at h
      | some log => exact ⟨log.1, log.2, rfl, by simpa [hl] using h⟩
  · intro h
    rcases h with ⟨segments, hc, h⟩ | ⟨file, docs, hl, h⟩
    · left
      simpa [hc] using h
    · right
      simpa [hl] using h

/-- An open finds nothing committed, or every segment the commit names. -/
theorem found_some {segments : List Segment} (h : dir.found = some segments) :
    (dir.commit = none ∧ segments = []) ∨
      dir.commit = some segments ∧ ∀ segment ∈ segments, segment.file ∈ dir.files := by
  rw [found] at h
  cases hc : dir.commit with
  | none => exact .inl ⟨rfl, by simpa [hc] using h.symm⟩
  | some there =>
    rw [hc] at h
    right
    obtain ⟨all, rfl⟩ : (∀ segment ∈ there, segment.file ∈ dir.files) ∧ there = segments := by
      simpa using h
    exact ⟨rfl, all⟩

/-- Opening a directory adds no document to it. -/
theorem docs_opened {segments : List Segment} (h : dir.found = some segments) :
    { dir with commit := some segments }.docs = dir.docs := by
  rcases found_some h with ⟨hc, rfl⟩ | ⟨hc, -⟩
  · simp [docs, hc]
  · simp [docs, hc]

/-- Opening the translog adds none either. -/
theorem docs_withLog (fresh : Nat) (dir : Dir) : (dir.withLog fresh).2.docs = dir.docs := by
  rw [withLog]
  cases hl : dir.log with
  | some log => rfl
  | none => simp [docs, hl]

@[simp] theorem withLog_state (fresh : Nat) (dir : Dir) :
    (dir.withLog fresh).2.state = dir.state := by
  rw [withLog]
  split <;> rfl

@[simp] theorem withLog_commit (fresh : Nat) (dir : Dir) :
    (dir.withLog fresh).2.commit = dir.commit := by
  rw [withLog]
  split <;> rfl

@[simp] theorem withLog_files (fresh : Nat) (dir : Dir) :
    (dir.withLog fresh).2.files = dir.files := by
  rw [withLog]
  split <;> rfl

theorem withLog_log (fresh : Nat) (dir : Dir) :
    ∃ docs, (dir.withLog fresh).2.log = some ((dir.withLog fresh).1, docs) := by
  rw [withLog]
  cases hl : dir.log with
  | some log => exact ⟨log.2, hl⟩
  | none => exact ⟨[], rfl⟩

/-- Nor does a removal, which may bring back none of them. -/
theorem docs_unlink {doc : Doc} {file : File} (h : doc ∈ (dir.unlink file).docs) :
    doc ∈ dir.docs := by
  rw [mem_docs] at h ⊢
  cases file with
  | state | segment | versions | terms | docMetaLog => exact h
  | commit => exact h.imp (fun ⟨_, h, _⟩ => by cases h) id
  | log => exact h.imp id fun ⟨_, _, h, _⟩ => by cases h

theorem state_unlink {file : File} (h : (dir.unlink file).state = some k) : dir.state = some k := by
  cases file with
  | state => cases h
  | commit | segment | log | versions | terms | docMetaLog => exact h

/-- What is left of a directory after a removal is of the same index. -/
theorem Belongs.unlink (own : dir.Belongs k) (file : File) : (dir.unlink file).Belongs k where
  docs := fun doc h => own.docs doc (docs_unlink h)
  state := fun j h => own.state j (state_unlink h)
  versions := by
    cases file with
    | versions => exact fun e mem => by cases mem
    | state | commit | segment | log | terms | docMetaLog => exact own.versions
  terms := by
    cases file with
    | terms => exact fun e mem => by cases mem
    | state | commit | segment | log | versions | docMetaLog => exact own.terms
  lines := by
    cases file with
    | docMetaLog => exact fun l mem => by cases mem
    | state | commit | segment | log | versions | terms => exact own.lines

/-- What is blank belongs to any index, once `_meta.json` says no other. -/
theorem Blank.belongs (blank : dir.Blank) (unsaved : dir.state = none) (k : Nat) :
    dir.Belongs k where
  docs := by simp [blank.docs]
  state := by simp [unsaved]
  versions := by simp [blank.versions]
  terms := by simp [blank.terms]
  lines := by simp [blank.lines]

theorem withLog_tables (fresh : Nat) (dir : Dir) : (dir.withLog fresh).2.versions = dir.versions ∧
    (dir.withLog fresh).2.terms = dir.terms ∧
      (dir.withLog fresh).2.docMetaLog = dir.docMetaLog := by
  rw [withLog]
  split <;> exact ⟨rfl, rfl, rfl⟩

theorem Belongs.withLog (own : dir.Belongs k) (fresh : Nat) : (dir.withLog fresh).2.Belongs k := by
  obtain ⟨versions, terms, lines⟩ := withLog_tables fresh dir
  refine ⟨?_, ?_, ?_, ?_, ?_⟩
  · rw [docs_withLog]
    exact own.docs
  · rw [withLog_state]
    exact own.state
  · rw [versions]
    exact own.versions
  · rw [terms]
    exact own.terms
  · rw [lines]
    exact own.lines

theorem Whole.withLog (there : dir.Whole x) (fresh : Nat) :
    (dir.withLog fresh).2.Whole { x with path := true, log := some (dir.withLog fresh).1 } where
  commit := by
    rw [withLog_commit]
    exact there.commit
  files := by
    rw [withLog_files]
    exact there.files
  log := by
    intro file opened
    obtain rfl := Option.some.inj opened
    exact withLog_log fresh dir

theorem Belongs.saved (own : dir.Belongs k) : { dir with state := some k }.Belongs k :=
  { own with state := fun _ saved => (Option.some.inj saved).symm }

theorem Belongs.opened (own : dir.Belongs k) {segments : List Segment}
    (there : dir.found = some segments) : { dir with commit := some segments }.Belongs k := by
  refine { own with docs := ?_ }
  rw [docs_opened there]
  exact own.docs

/-- Recording a write puts that document into the log and no other. -/
theorem docs_record {file : Option Nat} {doc held : Doc} (h : held ∈ (dir.record file doc).docs) :
    held ∈ dir.docs ∨ held = doc := by
  rw [record] at h
  cases hl : dir.log with
  | none =>
    rw [hl] at h
    exact .inl h
  | some log =>
    simp only [hl] at h
    split at h
    · simpa [docs, hl, or_assoc] using h
    · exact .inl h

/-- It touches nothing but the log. -/
theorem record_leaves (file : Option Nat) (doc : Doc) :
    ∃ log, dir.record file doc = { dir with log } := by
  rw [record]
  split
  · split
    · exact ⟨_, rfl⟩
    · exact ⟨dir.log, rfl⟩
  · exact ⟨dir.log, rfl⟩

theorem Belongs.record (own : dir.Belongs k) {doc : Doc} (same : doc.index = k)
    (file : Option Nat) : (dir.record file doc).Belongs k := by
  have docs : ∀ held ∈ (dir.record file doc).docs, held.index = k := by
    intro held h
    rcases docs_record h with h | rfl
    · exact own.docs held h
    · exact same
  obtain ⟨log, eq⟩ : ∃ log, dir.record file doc = { dir with log } := record_leaves file doc
  rw [eq] at docs ⊢
  exact { own with docs }

theorem Whole.record (there : dir.Whole x) (doc : Doc) : (dir.record x.log doc).Whole x := by
  rw [Dir.record]
  cases hl : dir.log with
  | none => exact ⟨there.commit, there.files, there.log⟩
  | some log =>
    dsimp only
    split
    · refine ⟨there.commit, there.files, fun file opened => ?_⟩
      obtain ⟨docs, hd⟩ := there.log file opened
      obtain rfl : log.1 = file := by
        rw [hl] at hd
        exact congrArg Prod.fst (Option.some.inj hd)
      exact ⟨_, rfl⟩
    · exact ⟨there.commit, there.files, there.log⟩

theorem Belongs.committed (own : dir.Belongs k) {segments : List Segment} {files : List Nat}
    (docs : ∀ segment ∈ segments, ∀ doc ∈ segment.docs, doc.index = k) :
    { dir with commit := some segments, files }.Belongs k := by
  refine { own with docs := ?_ }
  intro doc h
  rcases mem_docs.mp h with ⟨listed, hc, segment, hs, h⟩ | h
  · obtain rfl := Option.some.inj hc
    exact docs segment hs doc h
  · exact own.docs doc (mem_docs.mpr (.inr h))

theorem Belongs.cleared (own : dir.Belongs k) (file : Nat) :
    { dir with log := some (file, []) }.Belongs k := by
  refine { own with docs := ?_ }
  intro doc h
  rcases mem_docs.mp h with h | ⟨there, docs, hl, h⟩
  · exact own.docs doc (mem_docs.mpr (.inl h))
  · obtain ⟨-, rfl⟩ := Prod.mk.inj (Option.some.inj hl)
    cases h

end Dir

namespace Idx

variable {x : Idx} {k : Nat}

/-- What the tables of an index come to, its documents being as they were. -/
theorem Own.tables (own : x.Own k) {versions : Table DocMeta} {terms : Table Term}
    {dirty : List String} (numbered : ∀ e ∈ versions, e.2.index = k)
    (termed : ∀ e ∈ terms, e.2.index = k) : { x with versions, terms, dirty }.Own k :=
  ⟨own.docs, numbered, termed⟩

theorem Own.setTerm (own : x.Own k) (id : String) (term : Nat) : (x.setTerm k id term).Own k := by
  refine own.tables own.versions fun e mem => ?_
  split at mem
  · exact own.terms e (Table.mem_of_remove mem)
  · rcases Table.mem_of_insert mem with eq | mem
    · rw [eq]
    · exact own.terms e mem

theorem Own.bumpTo (own : x.Own k) (id : String) (live : Bool) (version term : Nat) :
    (x.bumpTo k id live version term).Own k := by
  refine Own.setTerm (own.tables (fun e mem => ?_) own.terms) id term
  rcases Table.mem_of_insert mem with eq | mem
  · rw [eq]
  · exact own.versions e mem

/-- A version the index counts is its own. -/
theorem Own.bump (own : x.Own k) (id : String) (live : Bool) (term : Nat) :
    (x.bump k id live term).2.Own k := by
  unfold Idx.bump
  split
  · exact own.bumpTo id live _ term
  · dsimp only
    split
    · exact own.setTerm id term
    · exact own.bumpTo id live 1 term

theorem Own.line (own : x.Own k) (id : String) :
    (x.line k id).docMeta.index = k ∧ (x.line k id).term.index = k := by
  unfold Idx.line
  constructor
  · cases found : x.versions.lookup id with
    | none => rfl
    | some m =>
      obtain ⟨j, mem⟩ := Table.mem_of_lookup found
      exact own.versions (j, m) mem
  · cases found : x.terms.lookup id with
    | none => rfl
    | some t =>
      obtain ⟨j, mem⟩ := Table.mem_of_lookup found
      exact own.terms (j, t) mem

/-- A line of its own record leaves the tables its own. -/
theorem Own.replayLine (own : x.Own k) {l : Line} (same : l.docMeta.index = k ∧ l.term.index = k) :
    (x.replayLine l).Own k := by
  refine own.tables (fun e mem => ?_) (fun e mem => ?_)
  · split at mem
    · rcases Table.mem_of_insert mem with eq | mem
      · rw [eq]
        exact same.1
      · exact own.versions e mem
    · exact own.versions e (Table.mem_of_remove mem)
  · split at mem
    · rcases Table.mem_of_insert mem with eq | mem
      · rw [eq]
        exact same.2
      · exact own.terms e mem
    · exact own.terms e (Table.mem_of_remove mem)

theorem Own.replayLines (own : x.Own k) {lines : List Line}
    (same : ∀ l ∈ lines, l.docMeta.index = k ∧ l.term.index = k) :
    (lines.foldl Idx.replayLine x).Own k := by
  induction lines generalizing x with
  | nil => exact own
  | cons l lines ih =>
    exact ih (own.replayLine (same l List.mem_cons_self))
      fun l mem => same l (List.mem_cons_of_mem _ mem)

theorem Own.queued (own : x.Own k) {doc : Doc} (same : doc.index = k) :
    { x with queued := x.queued ++ [doc] }.Own k := by
  refine ⟨fun held mem => ?_, own.versions, own.terms⟩
  have mem : held ∈ x.docs ∨ held = doc := by
    simpa [Idx.docs, or_assoc] using mem
  rcases mem with mem | rfl
  · exact own.docs held mem
  · exact same

/-- Its own log leaves it with its own documents. -/
theorem Own.replayedDocs (own : x.Own k) {docs : List Doc} (same : ∀ doc ∈ docs, doc.index = k) :
    (docs.foldl Idx.replayed x).Own k := by
  induction docs generalizing x with
  | nil => exact own
  | cons doc docs ih =>
    have one := same doc List.mem_cons_self
    refine ih ?_ fun doc mem => same doc (List.mem_cons_of_mem _ mem)
    unfold Idx.replayed
    rw [one]
    exact (own.queued one).bumpTo doc.id _ doc.version doc.term

/-- A replay leaves what an index has open as it is. -/
theorem replayLines_files (lines : List Line) (x : Idx) :
    (lines.foldl Idx.replayLine x).segments = x.segments ∧
      (lines.foldl Idx.replayLine x).log = x.log := by
  induction lines generalizing x with
  | nil => exact ⟨rfl, rfl⟩
  | cons l lines ih => exact ih (x.replayLine l)

theorem replayedDocs_files (docs : List Doc) (x : Idx) :
    (docs.foldl Idx.replayed x).segments = x.segments ∧
      (docs.foldl Idx.replayed x).log = x.log := by
  induction docs generalizing x with
  | nil => exact ⟨rfl, rfl⟩
  | cons doc docs ih => exact ih (x.replayed doc)

end Idx

/-- An index opened on a directory of its own has only its own. -/
theorem Dir.Belongs.reopened {dir : Dir} {k : Nat} (own : dir.Belongs k) {segments : List Segment}
    (there : dir.found = some segments) (log : Nat) : (dir.reopened segments log).Own k := by
  refine Idx.Own.replayedDocs (Idx.Own.replayLines ⟨?_, own.versions, own.terms⟩ own.lines) ?_
  · intro doc mem
    refine (own.opened there).docs doc (Dir.mem_docs.mpr (.inl ⟨segments, rfl, ?_⟩))
    simpa [Idx.docs] using mem
  · intro doc mem
    exact own.docs doc (List.mem_append_right _ mem)

theorem Dir.reopened_files (dir : Dir) (segments : List Segment) (log : Nat) :
    (dir.reopened segments log).segments = segments ∧
      (dir.reopened segments log).log = some log := by
  unfold Dir.reopened
  dsimp only
  obtain ⟨segments', log'⟩ := Idx.replayedDocs_files ((dir.log.map Prod.snd).getD [])
    ((dir.docMetaLog.getD []).foldl Idx.replayLine
      { segments, path := true, log := some log, versions := dir.versions.getD []
        terms := dir.terms.getD [] })
  rw [segments', log', (Idx.replayLines_files _ _).1, (Idx.replayLines_files _ _).2]
  exact ⟨rfl, rfl⟩

/-- The files are those of any index that has the same ones open. -/
theorem Dir.Whole.alike {dir : Dir} {x y : Idx} (there : dir.Whole x)
    (segments : y.segments = x.segments) (log : y.log = x.log) : dir.Whole y :=
  ⟨segments ▸ there.commit, segments ▸ there.files, log ▸ there.log⟩

namespace Slot

/-- The index is in the map, or a request holds it. -/
def Uses (s : Slot) (k : Nat) : Prop :=
  s.inner = some k ∨ ∃ r, s.holds r = some k

/-- Every number in use was drawn. -/
structure Past (s : Slot) : Prop where
  uses : ∀ k, s.Uses k → k < s.now
  indices : ∀ k, s.indices k ≠ none → k < s.now
  dropped : ∀ d k, s.deletes d = some (.taken (some k)) ∨ s.deletes d = some (.removing (some k)) →
    k < s.now
  deleted : ∀ k ∈ s.deleted, k < s.now
  state : ∀ dir k, s.dir = some dir → dir.state = some k → k < s.now

/-- No delete is still to come and nothing of an index stands in the directory. -/
def Empty (s : Slot) (segments : List Segment) : Prop :=
  (∀ d, s.deletes d = none) ∧
    ∃ dir, s.dir = some dir ∧ dir.state = none ∧ dir.Blank ∧ dir.commit = some segments ∧
      ∀ segment ∈ segments, segment.file ∈ dir.files

/-- The invariant of the runs that meet the condition. -/
structure Inv (s : Slot) : Prop where
  past : s.Past
  own : ∀ k x, s.indices k = some x → x.Own k
  whole : ∀ k, s.inner = some k → ∃ x dir, s.indices k = some x ∧ s.dir = some dir ∧ dir.Whole x
  belongs : ∀ k, s.Uses k → ∀ dir, s.dir = some dir → dir.Belongs k
  stated : ∀ dir k, s.dir = some dir → dir.state = some k → dir.Belongs k
  one : ∀ j k, s.Uses j → s.Uses k → j = k
  taken : ∀ d at_, s.deletes d = some at_ → at_ ≠ .found → s.inner = none
  removing : ∀ d dropped, s.deletes d = some (.removing dropped) → ∀ r, s.holds r = none
  opened : ∀ c segments, s.creates c = some (.opened segments) →
    s.inner ≠ none ∨ s.Empty segments
  -- Where no index has the name and no delete is under way, nobody is at the directory.
  idle : s.inner = none → (∀ d, s.deletes d = none) → (∀ r, s.holds r = none) ∧
    ∀ dir segments, s.dir = some dir → dir.found = some segments → dir.state = none
  fair : ∀ d k, s.deletes d ≠ none → s.indices k ≠ none → k < d
  gone : ∀ k ∈ s.deleted, ¬ s.Uses k ∧ ∀ dir, s.dir = some dir → dir.state ≠ some k

variable {s : Slot}

theorem inv_fresh : Inv {} where
  past := ⟨by simp [Uses], by simp, by simp, by simp, by simp⟩
  own := by simp
  whole := by simp
  belongs := by simp
  stated := by simp
  one := by simp [Uses]
  taken := by simp
  removing := by simp
  opened := by simp
  idle := by simp
  fair := by simp
  gone := by simp

/-- The invariant says what is claimed, and more. -/
theorem Inv.clean (inv : s.Inv) : s.Clean where
  own := inv.own
  whole := inv.whole
  fair := inv.fair
  gone := by
    intro k restarted deleted
    cases standing : s.dir with
    | none => simp [restart, standing] at restarted
    | some dir =>
      -- A restart opens the index `_meta.json` says, if any.
      cases saved : dir.state with
      | none => simp [restart, standing, saved] at restarted
      | some j =>
        cases there : dir.found with
        | none => simp [restart, standing, saved, there] at restarted
        | some segments =>
          obtain rfl : j = k := by simpa [restart, standing, saved, there, setIndex] using restarted
          exact (inv.gone _ deleted).2 dir standing saved

theorem Inv.not_empty (inv : s.Inv) {r k : Nat} {segments : List Segment}
    (held : s.holds r = some k) (absent : s.inner = none) : ¬ s.Empty segments := by
  intro empty
  have := (inv.idle absent empty.1).1 r
  rw [held] at this
  cases this

/-- An act of a request on the index it holds, given what it does to the directory and the
index. -/
theorem Inv.held {r k n : Nat} {x x' : Idx} {dir' : Option Dir} (inv : s.Inv)
    (held : s.holds r = some k) (known : s.indices k = some x) (later : s.now ≤ n)
    (own : x'.Own k) (belongs : ∀ there, dir' = some there → there.Belongs k)
    (whole : ∀ dir, s.dir = some dir → dir.Whole x → ∃ there, dir' = some there ∧ there.Whole x') :
    ({ s with dir := dir', now := n }.setIndex k x').Inv := by
  have uses : s.Uses k := .inr ⟨r, held⟩
  have indices : ∀ j, Function.update s.indices k (some x') j ≠ none → s.indices j ≠ none := by
    intro j hj
    by_cases same : j = k
    · rw [same, known]
      exact Option.some_ne_none x
    · rwa [Function.update_of_ne same] at hj
  exact
    { past :=
        { uses := fun j hj => Nat.lt_of_lt_of_le (inv.past.uses j hj) later
          indices := fun j hj => Nat.lt_of_lt_of_le (inv.past.indices j (indices j hj)) later
          dropped := fun d j hj => Nat.lt_of_lt_of_le (inv.past.dropped d j hj) later
          deleted := fun j hj => Nat.lt_of_lt_of_le (inv.past.deleted j hj) later
          state := by
            intro there j standing saved
            rw [(belongs there standing).state j saved]
            exact Nat.lt_of_lt_of_le (inv.past.uses k uses) later }
      own := by
        intro j y hy
        by_cases same : j = k
        · subst same
          obtain rfl : x' = y := by simpa [setIndex] using hy
          exact own
        · exact inv.own j y (by simpa [setIndex, same] using hy)
      whole := by
        intro j named
        obtain rfl := inv.one j k (.inl named) uses
        obtain ⟨y, dir, hy, standing, there⟩ := inv.whole j named
        obtain rfl : x = y := Option.some.inj (known.symm.trans hy)
        obtain ⟨dir₁, standing₁, there₁⟩ := whole dir standing there
        exact ⟨x', dir₁, by simp [setIndex], standing₁, there₁⟩
      belongs := by
        intro j hj
        rw [inv.one j k hj uses]
        exact belongs
      stated := by
        intro there j standing saved
        rw [(belongs there standing).state j saved]
        exact belongs there standing
      one := inv.one
      taken := inv.taken
      removing := inv.removing
      opened := by
        intro c segments hc
        rcases inv.opened c segments hc with named | empty
        · exact .inl named
        · by_cases absent : s.inner = none
          · exact absurd empty (inv.not_empty held absent)
          · exact .inl absent
      idle := by
        intro absent none_
        have := (inv.idle absent none_).1 r
        rw [held] at this
        cases this
      fair := fun d j hd hj => inv.fair d j hd (indices j hj)
      gone := by
        intro j deleted
        refine ⟨(inv.gone j deleted).1, fun there standing saved => ?_⟩
        rw [(belongs there standing).state j saved] at deleted
        exact (inv.gone k deleted).1 uses }

variable {r k : Nat} {x : Idx}

/-- A call that writes of the directory what belongs to the index, and leaves its files. -/
theorem Inv.filed (inv : s.Inv) (held : s.holds r = some k) (known : s.indices k = some x)
    {f : Dir → Dir} (belongs : ∀ dir, dir.Belongs k → (f dir).Belongs k)
    (whole : ∀ dir : Dir, dir.Whole x → (f dir).Whole x) :
    ({ s with dir := s.dir.map f } : Slot).Inv := by
  have kept : ({ s with dir := s.dir.map f, now := s.now }.setIndex k x).Inv := by
    refine inv.held held known (Nat.le_refl _) (inv.own k x known) ?_ ?_
    · intro there h
      obtain ⟨dir, standing, rfl⟩ := Option.map_eq_some_iff.mp h
      exact belongs dir (inv.belongs k (.inr ⟨r, held⟩) dir standing)
    · intro dir standing there
      rw [standing]
      exact ⟨f dir, rfl, whole dir there⟩
  rw [setIndex, ← known, Function.update_eq_self] at kept
  exact kept

/-- A call that changes nothing but the index's tables and its handles. -/
theorem Inv.indexed (inv : s.Inv) (held : s.holds r = some k) (known : s.indices k = some x)
    {x' : Idx} (own : x'.Own k) (whole : ∀ dir : Dir, s.dir = some dir → dir.Whole x → dir.Whole x') :
    (s.setIndex k x').Inv :=
  inv.held held known (Nat.le_refl _) own (inv.belongs k (.inr ⟨r, held⟩))
    fun dir standing there => ⟨dir, standing, whole dir standing there⟩

/-- A request opens the translog of its index. -/
theorem Inv.openTranslog (inv : s.Inv) (held : s.holds r = some k) (known : s.indices k = some x) :
    (s.openTranslog k x).Inv := by
  have own := inv.own k x known
  rw [Slot.openTranslog]
  cases standing : s.dir with
  | none =>
    refine inv.indexed held known ⟨own.docs, own.versions, own.terms⟩ ?_
    simp [standing]
  | some dir =>
    refine inv.held held known (Nat.le_succ _) ⟨own.docs, own.versions, own.terms⟩ ?_ ?_
    · intro there h
      obtain rfl := Option.some.inj h
      exact (inv.belongs k (.inr ⟨r, held⟩) dir standing).withLog s.now
    · intro there h whole
      obtain rfl := Option.some.inj (standing.symm.trans h)
      exact ⟨_, rfl, whole.withLog s.now⟩

theorem Inv.loadVersions (inv : s.Inv) (held : s.holds r = some k) (known : s.indices k = some x) :
    (s.loadVersions k x).Inv := by
  have own := inv.own k x known
  refine inv.indexed held known (own.tables ?_ own.terms) fun _ _ there => there.alike rfl rfl
  cases standing : s.dir with
  | none => simp
  | some dir => exact (inv.belongs k (.inr ⟨r, held⟩) dir standing).versions

theorem Inv.loadTerms (inv : s.Inv) (held : s.holds r = some k) (known : s.indices k = some x) :
    (s.loadTerms k x).Inv := by
  have own := inv.own k x known
  refine inv.indexed held known (own.tables own.versions ?_) fun _ _ there => there.alike rfl rfl
  cases standing : s.dir with
  | none => simp
  | some dir => exact (inv.belongs k (.inr ⟨r, held⟩) dir standing).terms

theorem Inv.replayDocMetaLog (inv : s.Inv) (held : s.holds r = some k)
    (known : s.indices k = some x) : (s.replayDocMetaLog k x).Inv := by
  refine inv.indexed held known ((inv.own k x known).replayLines ?_) fun _ _ there =>
    there.alike (Idx.replayLines_files _ _).1 (Idx.replayLines_files _ _).2
  cases standing : s.dir with
  | none => simp
  | some dir => exact (inv.belongs k (.inr ⟨r, held⟩) dir standing).lines

theorem Inv.saveMeta (inv : s.Inv) (held : s.holds r = some k) (known : s.indices k = some x) :
    (s.saveMeta k x).Inv := by
  rw [Slot.saveMeta]
  split
  · exact inv.filed held known (fun _ own => own.saved) fun _ there =>
      ⟨there.commit, there.files, there.log⟩
  · exact inv

theorem Inv.saveVersions (inv : s.Inv) (held : s.holds r = some k) (known : s.indices k = some x) :
    (s.saveVersions x).Inv := by
  rw [Slot.saveVersions]
  split
  · exact inv.filed held known (fun _ own => { own with versions := (inv.own k x known).versions })
      fun _ there => ⟨there.commit, there.files, there.log⟩
  · exact inv

theorem Inv.saveTerms (inv : s.Inv) (held : s.holds r = some k) (known : s.indices k = some x) :
    (s.saveTerms x).Inv := by
  rw [Slot.saveTerms]
  split
  · refine inv.filed held known (fun _ own => { own with terms := ?_ })
      fun _ there => ⟨there.commit, there.files, there.log⟩
    split
    · simp
    · exact (inv.own k x known).terms
  · exact inv

theorem Inv.removeDocMetaLog (inv : s.Inv) (held : s.holds r = some k)
    (known : s.indices k = some x) : (s.removeDocMetaLog k x).Inv := by
  have own := inv.own k x known
  refine inv.held held known (Nat.le_refl _) ⟨own.docs, own.versions, own.terms⟩ ?_ ?_
  · intro there h
    split at h
    · obtain ⟨dir, standing, rfl⟩ := Option.map_eq_some_iff.mp h
      exact { inv.belongs k (.inr ⟨r, held⟩) dir standing with lines := by simp }
    · exact inv.belongs k (.inr ⟨r, held⟩) there h
  · intro dir standing there
    rw [standing]
    split
    · exact ⟨_, rfl, there.commit, there.files, there.log⟩
    · exact ⟨_, rfl, there.commit, there.files, there.log⟩

theorem Inv.appendDocMetaLog (inv : s.Inv) (held : s.holds r = some k)
    (known : s.indices k = some x) : (s.appendDocMetaLog k x).Inv := by
  have own := inv.own k x known
  rw [Slot.appendDocMetaLog]
  split
  · exact inv.indexed held known ⟨own.docs, own.versions, own.terms⟩ fun _ _ there =>
      ⟨there.commit, there.files, there.log⟩
  cases standing : s.dir with
  | none => exact inv
  | some dir =>
    refine inv.held held known (Nat.le_refl _) ⟨own.docs, own.versions, own.terms⟩ ?_ ?_
    · intro there h
      obtain rfl := Option.some.inj h
      have belongs := inv.belongs k (.inr ⟨r, held⟩) dir standing
      refine { belongs with lines := fun l mem => ?_ }
      rcases List.mem_append.mp mem with mem | mem
      · exact belongs.lines l mem
      · obtain ⟨id, -, rfl⟩ := List.mem_map.mp mem
        exact own.line id
    · intro there h whole
      obtain rfl := Option.some.inj (standing.symm.trans h)
      exact ⟨_, rfl, whole.commit, whole.files, whole.log⟩

/-- What numbers a write is the index's own, and leaves its files. -/
theorem numbered_own {k : Nat} {x : Idx} (own : x.Own k) (id : String) (live : Bool)
    (forced : Option Nat) (term : Nat) (y : Idx)
    (eq : y = match forced with
      | some version => x.bumpTo k id live version term
      | none => (x.bump k id live term).2) :
    y.Own k ∧ y.queued = x.queued ∧ y.segments = x.segments ∧ y.log = x.log := by
  cases forced with
  | some version =>
    subst eq
    exact ⟨own.bumpTo id live version term, rfl, rfl, rfl⟩
  | none =>
    subst eq
    refine ⟨own.bump id live term, ?_⟩
    unfold Idx.bump
    cases (x.isLive id || (x.versions.lookup id).isSome) with
    | true => exact ⟨rfl, rfl, rfl⟩
    | false =>
      cases live with
      | true => exact ⟨rfl, rfl, rfl⟩
      | false => exact ⟨rfl, rfl, rfl⟩

/-- A write is the index's own. -/
theorem Inv.write (inv : s.Inv) (held : s.holds r = some k) (known : s.indices k = some x)
    (id : String) (source : Option String) (forced : Option Nat) (term : Nat) :
    (s.write k x id source forced term).Inv := by
  unfold Slot.write
  dsimp only
  generalize numbered_eq : (match forced with
    | some version => (version, x.bumpTo k id source.isSome version term)
    | none => x.bump k id source.isSome term) = numbered
  obtain ⟨own, queued, segments, log⟩ := numbered_own (inv.own k x known) id source.isSome forced
    term numbered.2 (by subst numbered_eq; cases forced <;> rfl)
  refine inv.held held known (Nat.le_refl _) ?_ ?_ ?_
  · rw [← queued]
    exact own.queued rfl
  · intro there h
    obtain ⟨dir, standing, rfl⟩ := Option.map_eq_some_iff.mp h
    exact (inv.belongs k (.inr ⟨r, held⟩) dir standing).record rfl x.log
  · intro dir standing whole
    rw [standing]
    exact ⟨_, rfl, (whole.record _).alike segments log⟩

/-- A commit moves the index's documents and no others. -/
theorem Inv.commit (inv : s.Inv) (held : s.holds r = some k) (known : s.indices k = some x) :
    (s.commit k x).Inv := by
  rw [Slot.commit]
  cases standing : s.dir with
  | none => exact inv
  | some dir =>
    have own := inv.own k x known
    refine inv.held held known (Nat.le_succ _) ⟨?_, own.versions, own.terms⟩ ?_ ?_
    · intro doc h
      exact own.docs doc (by simpa [Idx.docs] using h)
    · intro there h
      obtain rfl := Option.some.inj h
      refine (inv.belongs k (.inr ⟨r, held⟩) dir standing).committed ?_
      intro segment hs doc hd
      have hd : doc ∈ x.docs := by
        rw [Idx.docs, List.mem_append, List.mem_flatMap]
        rcases List.mem_append.mp hs with hs | hs
        · exact .inl ⟨segment, hs, hd⟩
        · rw [List.mem_singleton.mp hs] at hd
          exact .inr hd
      exact own.docs doc hd
    · intro there h whole
      obtain rfl := Option.some.inj (standing.symm.trans h)
      refine ⟨_, rfl, rfl, fun segment hs => ?_, whole.log⟩
      rcases List.mem_append.mp hs with hs | hs
      · exact List.mem_append_left _ (whole.files segment hs)
      · rw [List.mem_singleton.mp hs]
        exact List.mem_append_right _ List.mem_cons_self

theorem Inv.clearTranslog (inv : s.Inv) (held : s.holds r = some k)
    (known : s.indices k = some x) : (s.clearTranslog k x).Inv := by
  have own := inv.own k x known
  rw [Slot.clearTranslog]
  split
  · exact inv
  cases standing : s.dir with
  | none =>
    refine inv.indexed held known ⟨own.docs, own.versions, own.terms⟩ ?_
    simp [standing]
  | some dir =>
    refine inv.held held known (Nat.le_succ _) ⟨own.docs, own.versions, own.terms⟩ ?_ ?_
    · intro there h
      obtain rfl := Option.some.inj h
      exact (inv.belongs k (.inr ⟨r, held⟩) dir standing).cleared _
    · intro there h whole
      obtain rfl := Option.some.inj (standing.symm.trans h)
      refine ⟨_, rfl, whole.commit, whole.files, fun file opened => ?_⟩
      obtain rfl := Option.some.inj opened
      exact ⟨[], rfl⟩

/-- A request acts on what it holds, or not at all. -/
theorem Inv.through (inv : s.Inv) {f : Nat → Idx → Slot} (r : Nat)
    (kept : ∀ k x, s.holds r = some k → s.indices k = some x → (f k x).Inv) :
    (s.through r f).Inv := by
  rw [Slot.through]
  cases held : s.holds r with
  | none => exact inv
  | some k =>
    cases known : s.indices k with
    | none =>
      simp only [known]
      exact inv
    | some x =>
      simp only [known]
      exact kept k x held known

/-! ## Creates -/

theorem Inv.tick (inv : s.Inv) : ({ s with now := s.now + 1 } : Slot).Inv :=
  { inv with
    past :=
      { uses := fun j hj => Nat.lt_succ_of_lt (inv.past.uses j hj)
        indices := fun j hj => Nat.lt_succ_of_lt (inv.past.indices j hj)
        dropped := fun d j hj => Nat.lt_succ_of_lt (inv.past.dropped d j hj)
        deleted := fun j hj => Nat.lt_succ_of_lt (inv.past.deleted j hj)
        state := fun dir j hd hj => Nat.lt_succ_of_lt (inv.past.state dir j hd hj) } }

theorem Inv.setCreate (inv : s.Inv) (c : Nat) (at_ : Option Creating)
    (opened : ∀ segments, at_ = some (.opened segments) → s.inner ≠ none ∨ s.Empty segments) :
    (s.setCreate c at_).Inv :=
  { inv with
    past := ⟨inv.past.uses, inv.past.indices, inv.past.dropped, inv.past.deleted, inv.past.state⟩
    opened := by
      intro c' segments h
      by_cases same : c' = c
      · subst same
        exact opened segments (by simpa [Slot.setCreate] using h)
      · exact inv.opened c' segments (by simpa [Slot.setCreate, same] using h) }

theorem Inv.createDirAll (inv : s.Inv) (c : Nat) : (s.createDirAll c).Inv := by
  have kept : ({ s with dir := some (s.dir.getD {}) } : Slot).Inv := by
    cases standing : s.dir with
    | some dir =>
      have same : { s with dir := some dir } = s := by rw [← standing]
      rw [Option.getD_some, same]
      exact inv
    | none =>
      -- A directory of nothing, where there was none.
      have blank : ({} : Dir).Blank := ⟨rfl, rfl, rfl, rfl⟩
      have unsaved : ∀ dir : Dir, some (none.getD {}) = some dir → dir.state = none := by
        intro dir there
        obtain rfl := Option.some.inj there
        rfl
      exact
        { inv with
          past := by
            refine ⟨inv.past.uses, inv.past.indices, inv.past.dropped, inv.past.deleted, ?_⟩
            intro dir k there saved
            rw [unsaved dir there] at saved
            cases saved
          whole := by
            intro k named
            obtain ⟨x, dir, -, there, -⟩ := inv.whole k named
            rw [standing] at there
            cases there
          belongs := by
            intro k _ dir there
            obtain rfl := Option.some.inj there
            exact blank.belongs rfl k
          stated := by
            intro dir k there saved
            rw [unsaved dir there] at saved
            cases saved
          opened := by
            intro c segments h
            rcases inv.opened c segments h with named | ⟨-, dir, there, -⟩
            · exact .inl named
            · rw [standing] at there
              cases there
          idle := fun absent none_ => ⟨(inv.idle absent none_).1, fun dir _ there _ => unsaved dir there⟩
          gone := by
            intro k deleted
            refine ⟨(inv.gone k deleted).1, fun dir there => ?_⟩
            rw [unsaved dir there]
            simp }
  exact kept.setCreate c _ (by simp)

/-- An open that nothing of another index stands in the way of. -/
theorem Inv.opening (inv : s.Inv) {dir : Dir} {segments : List Segment} (standing : s.dir = some dir)
    (there : dir.found = some segments) :
    ({ s with dir := some { dir with commit := some segments } } : Slot).Inv := by
  have belongs : ∀ k, dir.Belongs k → { dir with commit := some segments }.Belongs k :=
    fun k own => own.opened there
  have committed : dir.commit ≠ none → { dir with commit := some segments } = dir := by
    intro some_
    rcases Dir.found_some there with ⟨absent, -⟩ | ⟨there, -⟩
    · exact absurd absent some_
    · rw [← there]
  exact
    { inv with
      past := by
        refine ⟨inv.past.uses, inv.past.indices, inv.past.dropped, inv.past.deleted, ?_⟩
        intro dir' k h saved
        obtain rfl := Option.some.inj h
        exact inv.past.state dir k standing saved
      whole := by
        intro k named
        obtain ⟨x, dir', known, h, whole⟩ := inv.whole k named
        obtain rfl := Option.some.inj (standing.symm.trans h)
        rw [committed (by simp [whole.commit])]
        exact ⟨x, dir, known, rfl, whole⟩
      belongs := by
        intro k uses dir' h
        obtain rfl := Option.some.inj h
        exact belongs k (inv.belongs k uses dir standing)
      stated := by
        intro dir' k h saved
        obtain rfl := Option.some.inj h
        exact belongs k (inv.stated dir k standing saved)
      opened := by
        intro c segments' h
        rcases inv.opened c segments' h with named | ⟨none_, dir', h, empty⟩
        · exact .inl named
        · obtain rfl := Option.some.inj (standing.symm.trans h)
          rw [Empty, committed (by simp [empty.2.2.1])]
          exact .inr ⟨none_, dir, rfl, empty⟩
      idle := by
        intro absent none_
        refine ⟨(inv.idle absent none_).1, fun dir' segments' h _ => ?_⟩
        obtain rfl := Option.some.inj h
        exact (inv.idle absent none_).2 dir segments standing there
      gone := by
        intro k deleted
        refine ⟨(inv.gone k deleted).1, fun dir' h => ?_⟩
        obtain rfl := Option.some.inj h
        exact (inv.gone k deleted).2 dir standing }

/-- A create opens the directory: what the first condition is for. -/
theorem Inv.openOrCreate (inv : s.Inv) {c : Nat} (mannered : (Act.openOrCreate c).Mannered s) :
    (s.openOrCreate c).Inv := by
  rw [Slot.openOrCreate]
  cases standing : s.dir with
  | none => exact inv.setCreate c none (by simp)
  | some dir =>
    dsimp only
    cases there : dir.found with
    | none => exact inv.setCreate c none (by simp)
    | some segments =>
      refine (inv.opening standing there).setCreate c _ ?_
      intro segments' h
      obtain rfl : segments = segments' := by simpa using h
      by_cases absent : s.inner = none
      · -- Nobody has the name, so the directory was empty and nobody is about to remove it.
        right
        obtain ⟨none_, blank⟩ := mannered absent
        have files : ∀ segment ∈ segments, segment.file ∈ dir.files := by
          rcases Dir.found_some there with ⟨-, rfl⟩ | ⟨-, files⟩
          · simp
          · exact files
        have blank := blank dir segments standing there
        refine ⟨none_, _, rfl, (inv.idle absent none_).2 dir segments standing there,
          ⟨?_, blank.versions, blank.terms, blank.lines⟩, rfl, files⟩
        rw [Dir.docs_opened there]
        exact blank.docs
      · exact .inl absent

/-- A create gets the name. -/
theorem Inv.claim (inv : s.Inv) {c : Nat} {segments : List Segment}
    (opened : s.creates c = some (.opened segments)) : (s.claim c segments).Inv := by
  rw [Slot.claim]
  cases named : s.inner with
  | some k => exact inv.setCreate c none (by simp)
  | none =>
    refine Inv.setCreate ?_ c none (by simp)
    obtain ⟨none_, dir, standing, unsaved, blank, committed, files⟩ :=
      (inv.opened c segments opened).resolve_left (by simp [named])
    obtain ⟨unheld, -⟩ := inv.idle named none_
    have uses : ∀ j, some s.now = some j ∨ (∃ r, s.holds r = some j) → j = s.now := by
      intro j hj
      rcases hj with hj | ⟨r, hj⟩
      · exact (Option.some.inj hj).symm
      · rw [unheld r] at hj
        cases hj
    exact
      { past :=
          { uses := fun j hj => by
              rw [uses j hj]
              exact Nat.lt_succ_self _
            indices := by
              intro j hj
              by_cases same : j = s.now
              · rw [same]
                exact Nat.lt_succ_self _
              · exact Nat.lt_succ_of_lt (inv.past.indices j (by simpa [setIndex, same] using hj))
            dropped := fun d j hj => Nat.lt_succ_of_lt (inv.past.dropped d j hj)
            deleted := fun j hj => Nat.lt_succ_of_lt (inv.past.deleted j hj)
            state := fun dir j hd hj => Nat.lt_succ_of_lt (inv.past.state dir j hd hj) }
        own := by
          intro j y hy
          by_cases same : j = s.now
          · obtain rfl : { segments } = y := by simpa [setIndex, same] using hy
            refine ⟨fun doc h => ?_, by simp, by simp⟩
            have h : doc ∈ dir.docs := by
              refine Dir.mem_docs.mpr (.inl ⟨segments, committed, ?_⟩)
              simpa [Idx.docs] using h
            rw [blank.docs] at h
            cases h
          · exact inv.own j y (by simpa [setIndex, same] using hy)
        whole := by
          intro j hj
          obtain rfl := uses j (.inl hj)
          exact ⟨{ segments }, dir, by simp [setIndex], standing, committed, files, by simp⟩
        belongs := by
          intro j _ dir' h
          obtain rfl := Option.some.inj (standing.symm.trans h)
          exact blank.belongs unsaved j
        stated := inv.stated
        one := fun i j hi hj => (uses i hi).trans (uses j hj).symm
        taken := fun d at_ hd => by
          rw [setIndex, none_ d] at hd
          cases hd
        removing := inv.removing
        opened := fun c segments h => .inl (by simp [setIndex])
        idle := fun absent => by simp [setIndex] at absent
        fair := fun d j hd => absurd (none_ d) hd
        gone := by
          intro j deleted
          refine ⟨fun hj => ?_, (inv.gone j deleted).2⟩
          have := inv.past.deleted j deleted
          rw [uses j hj] at this
          exact Nat.lt_irrefl _ this }

/-! ## Handles -/

theorem Inv.holding (inv : s.Inv) (r : Nat) {held : Option Nat}
    (named : ∀ k, held = some k → s.inner = some k) :
    ({ s with holds := Function.update s.holds r held } : Slot).Inv := by
  have holds : ∀ r' k, Function.update s.holds r held r' = some k → s.Uses k := by
    intro r' k h
    by_cases same : r' = r
    · subst same
      exact .inl (named k (by simpa using h))
    · exact .inr ⟨r', by simpa [same] using h⟩
  have uses : ∀ k, ({ s with holds := Function.update s.holds r held } : Slot).Uses k → s.Uses k := by
    intro k h
    rcases h with h | ⟨r', h⟩
    · exact .inl h
    · exact holds r' k h
  have unheld : s.inner = none → (∀ r, s.holds r = none) →
      ∀ r', Function.update s.holds r held r' = none := by
    intro absent none_ r'
    rw [Option.eq_none_iff_forall_ne_some]
    intro k h
    rcases holds r' k h with h | ⟨r₁, h⟩
    · rw [absent] at h
      cases h
    · rw [none_ r₁] at h
      cases h
  exact
    { inv with
      past := ⟨fun k h => inv.past.uses k (uses k h), inv.past.indices, inv.past.dropped,
        inv.past.deleted, inv.past.state⟩
      belongs := fun k h => inv.belongs k (uses k h)
      one := fun j k hj hk => inv.one j k (uses j hj) (uses k hk)
      removing := fun d dropped h =>
        unheld (inv.taken d _ h (by simp)) (inv.removing d dropped h)
      idle := fun absent none_ =>
        ⟨unheld absent (inv.idle absent none_).1, (inv.idle absent none_).2⟩
      gone := fun k deleted =>
        ⟨fun h => (inv.gone k deleted).1 (uses k h), (inv.gone k deleted).2⟩ }

/-! ## Deletes -/

theorem Inv.delete (inv : s.Inv) {k : Nat} (named : s.inner = some k) :
    ({ s with now := s.now + 1 }.setDelete s.now (some .found)).Inv := by
  have deletes : ∀ d at_, Function.update s.deletes s.now (some .found) d = some at_ →
      at_ ≠ .found → s.deletes d = some at_ := by
    intro d at_ h other
    by_cases same : d = s.now
    · subst same
      exact absurd (by simpa using h.symm) other
    · simpa [same] using h
  have tick := inv.tick
  exact
    { tick with
      past :=
        { uses := tick.past.uses
          indices := tick.past.indices
          dropped := fun d j hj => tick.past.dropped d j
            (hj.imp (deletes d _ · (by simp)) (deletes d _ · (by simp)))
          deleted := tick.past.deleted
          state := tick.past.state }
      taken := fun d at_ h other => inv.taken d at_ (deletes d at_ h other) other
      removing := fun d dropped h => inv.removing d dropped (deletes d _ h (by simp))
      opened := fun c segments _ => .inl (by simp [setDelete, named])
      idle := fun absent => by simp [setDelete, named] at absent
      fair := by
        intro d j hd hj
        by_cases same : d = s.now
        · rw [same]
          exact inv.past.indices j hj
        · exact inv.fair d j (by simpa [setDelete, same] using hd) hj }

theorem Inv.setDelete (inv : s.Inv) {d : Nat} {at_ : Deleting} (under : s.deletes d ≠ none)
    (absent : s.inner = none)
    (dropped : ∀ k, at_ = .taken (some k) ∨ at_ = .removing (some k) → k < s.now)
    (unheld : ∀ dropped, at_ = .removing dropped → ∀ r, s.holds r = none) :
    (s.setDelete d (some at_)).Inv := by
  have deletes : ∀ d', Function.update s.deletes d (some at_) d' ≠ none → s.deletes d' ≠ none := by
    intro d' h
    by_cases same : d' = d
    · rwa [same]
    · simpa [same] using h
  exact
    { inv with
      past :=
        { uses := inv.past.uses
          indices := inv.past.indices
          dropped := by
            intro d' k h
            by_cases same : d' = d
            · exact dropped k (by simpa [Slot.setDelete, same] using h)
            · exact inv.past.dropped d' k (by simpa [Slot.setDelete, same] using h)
          deleted := inv.past.deleted
          state := inv.past.state }
      taken := fun _ _ _ _ => absent
      removing := by
        intro d' dropped h
        by_cases same : d' = d
        · exact unheld dropped (by simpa [Slot.setDelete, same] using h)
        · exact inv.removing d' dropped (by simpa [Slot.setDelete, same] using h)
      opened := by
        intro c segments h
        rcases inv.opened c segments h with named | empty
        · exact .inl named
        · exact absurd (empty.1 d) under
      idle := by
        intro _ none_
        have := none_ d
        simp [Slot.setDelete] at this
      fair := fun d' j hd => inv.fair d' j (deletes d' hd) }

/-- A delete takes the name out of the map: what the second condition is for. -/
theorem Inv.takeOut (inv : s.Inv) {d : Nat} (found : s.deletes d = some .found)
    (mannered : (Act.takeOut d).Mannered s) :
    ({ s with inner := none }.setDelete d (some (.taken s.inner))).Inv := by
  have under : s.deletes d ≠ none := by simp [found]
  have uses : ∀ k, ({ s with inner := none } : Slot).Uses k → s.Uses k := by
    intro k h
    rcases h with h | h
    · cases h
    · exact .inr h
  have kept : ({ s with inner := none } : Slot).Inv :=
    { inv with
      past := ⟨fun k h => inv.past.uses k (uses k h), inv.past.indices, inv.past.dropped,
        inv.past.deleted, inv.past.state⟩
      whole := by simp
      belongs := fun k h => inv.belongs k (uses k h)
      one := fun j k hj hk => inv.one j k (uses j hj) (uses k hk)
      taken := fun _ _ _ _ => rfl
      opened := fun c segments h => absurd h (mannered c segments)
      idle := fun _ none_ => absurd (none_ d) under
      gone := fun k deleted =>
        ⟨fun h => (inv.gone k deleted).1 (uses k h), (inv.gone k deleted).2⟩ }
  refine kept.setDelete under rfl ?_ (by simp)
  intro k h
  exact inv.past.uses k (.inl (by simpa using h))

/-- A removal in progress, file by file. -/
theorem Inv.unlink (inv : s.Inv) {d : Nat} {dropped : Option Nat} (file : File)
    (removing : s.deletes d = some (.removing dropped)) :
    ({ s with dir := s.dir.map (·.unlink file) } : Slot).Inv := by
  have under : s.deletes d ≠ none := by simp [removing]
  have absent : s.inner = none := inv.taken d _ removing (by simp)
  have unused : ∀ k, ¬ s.Uses k := by
    intro k h
    rcases h with h | ⟨r, h⟩
    · rw [absent] at h
      cases h
    · rw [inv.removing d dropped removing r] at h
      cases h
  exact
    { inv with
      past := by
        refine ⟨inv.past.uses, inv.past.indices, inv.past.dropped, inv.past.deleted, ?_⟩
        intro dir' k h saved
        obtain ⟨dir, standing, rfl⟩ := Option.map_eq_some_iff.mp h
        exact inv.past.state dir k standing (Dir.state_unlink saved)
      whole := fun k named => absurd (.inl named) (unused k)
      belongs := fun k uses => absurd uses (unused k)
      stated := by
        intro dir' k h saved
        obtain ⟨dir, standing, rfl⟩ := Option.map_eq_some_iff.mp h
        exact (inv.stated dir k standing (Dir.state_unlink saved)).unlink file
      opened := by
        intro c segments h
        rcases inv.opened c segments h with named | empty
        · exact .inl named
        · exact absurd (empty.1 d) under
      idle := fun _ none_ => absurd (none_ d) under
      gone := by
        intro k deleted
        refine ⟨unused k, fun dir' h saved => ?_⟩
        obtain ⟨dir, standing, rfl⟩ := Option.map_eq_some_iff.mp h
        exact (inv.gone k deleted).2 dir standing (Dir.state_unlink saved) }

/-- A removal ends, `_meta.json` gone with it: what the last condition is for. -/
theorem Inv.finish (inv : s.Inv) {d : Nat} {dropped : Option Nat}
    (removing : s.deletes d = some (.removing dropped)) (mannered : (Act.finish d).Mannered s) :
    (s.finish d dropped).Inv := by
  have under : s.deletes d ≠ none := by simp [removing]
  have absent : s.inner = none := inv.taken d _ removing (by simp)
  have unheld := inv.removing d dropped removing
  have unused : ∀ k, ¬ s.Uses k := by
    intro k h
    rcases h with h | ⟨r, h⟩
    · rw [absent] at h
      cases h
    · rw [unheld r] at h
      cases h
  have left : ∀ dir, s.dir.filter (· != ({} : Dir)) = some dir → dir.state = none :=
    fun dir h => mannered dir (Option.filter_eq_some_iff.mp h).1
  have deletes : ∀ d' at_, Function.update s.deletes d none d' = some at_ →
      s.deletes d' = some at_ := by
    intro d' at_ h
    by_cases same : d' = d
    · simp [same] at h
    · simpa [same] using h
  exact
    { past :=
        { uses := inv.past.uses
          indices := inv.past.indices
          dropped := fun d' k h => inv.past.dropped d' k (h.imp (deletes d' _) (deletes d' _))
          deleted := by
            intro k h
            rcases List.mem_append.mp h with h | h
            · exact inv.past.deleted k h
            · obtain rfl := Option.mem_toList.mp h
              exact inv.past.dropped d k (.inr removing)
          state := by
            intro dir k h saved
            rw [left dir h] at saved
            cases saved }
      own := inv.own
      whole := fun k named => absurd (.inl named) (unused k)
      belongs := fun k uses => absurd uses (unused k)
      stated := by
        intro dir k h saved
        rw [left dir h] at saved
        cases saved
      one := inv.one
      taken := fun _ _ _ _ => absent
      removing := fun _ _ _ => unheld
      opened := by
        intro c segments h
        rcases inv.opened c segments h with named | empty
        · exact .inl named
        · exact absurd (empty.1 d) under
      idle := fun _ _ => ⟨unheld, fun dir _ h _ => left dir h⟩
      fair := by
        intro d' k hd
        refine inv.fair d' k ?_
        obtain ⟨at_, hd⟩ := Option.ne_none_iff_exists'.mp hd
        simp [deletes d' at_ hd]
      gone := by
        intro k _
        refine ⟨unused k, fun dir h => ?_⟩
        rw [left dir h]
        simp }

/-! ## Restarts and runs -/

theorem Inv.reopened (inv : s.Inv) {dir : Dir} {segments : List Segment}
    (standing : s.dir = some dir) (saved : dir.state = some k) (there : dir.found = some segments) :
    ({ now := s.now + 1, inner := some k, deleted := s.deleted,
       dir := some ({ dir with commit := some segments }.withLog s.now).2 : Slot }.setIndex k
      (dir.reopened segments ({ dir with commit := some segments }.withLog s.now).1)).Inv := by
  have own := inv.stated dir k standing saved
  have uses : ∀ j, some k = some j ∨ (∃ _ : Nat, (none : Option Nat) = some j) → j = k := by
    intro j hj
    rcases hj with hj | ⟨_, hj⟩
    · exact (Option.some.inj hj).symm
    · cases hj
  have opened : ({ dir with commit := some segments } : Dir).Belongs k := own.opened there
  obtain ⟨segments_eq, log_eq⟩ := dir.reopened_files segments
    ({ dir with commit := some segments }.withLog s.now).1
  have earlier : k < s.now + 1 := Nat.lt_succ_of_lt (inv.past.state dir k standing saved)
  have indices : ∀ j (x : Idx), Function.update (fun _ => none) k (some x) j ≠ none → j = k := by
    intro j x hj
    by_contra other
    simp [other] at hj
  exact
    { past :=
        { uses := fun j hj => by rwa [uses j hj]
          indices := fun j hj => by rwa [indices j _ hj]
          dropped := by simp [setIndex]
          deleted := fun j hj => Nat.lt_succ_of_lt (inv.past.deleted j hj)
          state := by
            intro dir' j h saved'
            obtain rfl := Option.some.inj h
            rw [Dir.withLog_state] at saved'
            rwa [own.state j saved'] }
      own := by
        intro j x hx
        by_cases same : j = k
        · subst same
          have hx := Option.some.inj ((Function.update_self j _ _).symm.trans hx)
          subst hx
          exact own.reopened there _
        · simp [setIndex, same] at hx
      whole := by
        intro j hj
        obtain rfl := uses j (.inl hj)
        refine ⟨_, _, Function.update_self .., rfl, ?_, ?_, ?_⟩
        · rw [Dir.withLog_commit, segments_eq]
        · rw [Dir.withLog_files, segments_eq]
          rcases Dir.found_some there with ⟨-, rfl⟩ | ⟨-, files⟩
          · simp
          · exact files
        · intro file h
          rw [log_eq] at h
          obtain rfl := Option.some.inj h
          exact Dir.withLog_log ..
      belongs := by
        intro j hj dir' h
        obtain rfl := uses j hj
        obtain rfl := Option.some.inj h
        exact opened.withLog s.now
      stated := by
        intro dir' j h saved'
        obtain rfl := Option.some.inj h
        rw [Dir.withLog_state] at saved'
        rw [own.state j saved']
        exact opened.withLog s.now
      one := fun i j hi hj => (uses i hi).trans (uses j hj).symm
      taken := by simp [setIndex]
      removing := by simp [setIndex]
      opened := by simp [setIndex]
      idle := by simp [setIndex]
      fair := by simp [setIndex]
      gone := by
        intro j deleted
        have other : j ≠ k := by
          rintro rfl
          exact (inv.gone j deleted).2 dir standing saved
        refine ⟨fun hj => other (uses j hj), fun dir' h saved' => ?_⟩
        obtain rfl := Option.some.inj h
        rw [Dir.withLog_state] at saved'
        exact other (own.state j saved') }

/-- A restart opens an index on files of its own, or none. -/
theorem Inv.restart (inv : s.Inv) : s.restart.Inv := by
  -- A node that opens nothing.
  have stopped : (∀ dir segments, s.dir = some dir → dir.found = some segments → dir.state = none) →
      ({ now := s.now, dir := s.dir, deleted := s.deleted } : Slot).Inv := by
    intro unsaved
    exact
      { past := ⟨by simp [Uses], by simp, by simp, inv.past.deleted, inv.past.state⟩
        own := by simp
        whole := by simp
        belongs := by simp [Uses]
        stated := inv.stated
        one := by simp [Uses]
        taken := by simp
        removing := by simp
        opened := by simp
        idle := fun _ _ => ⟨fun _ => rfl, unsaved⟩
        fair := by simp
        gone := fun k deleted => ⟨by simp [Uses], (inv.gone k deleted).2⟩ }
  rw [Slot.restart]
  cases standing : s.dir with
  | none =>
    have := stopped (by simp [standing])
    rwa [standing] at this
  | some dir =>
    dsimp only
    rw [standing] at stopped
    cases saved : dir.state with
    | none =>
      refine stopped ?_
      intro dir' _ h _
      rwa [← Option.some.inj h]
    | some k =>
      cases there : dir.found with
      | none =>
        refine stopped ?_
        intro dir' _ h found
        rw [← Option.some.inj h, there] at found
        cases found
      | some segments =>
        have := inv.reopened standing saved there
        rwa [saved] at this

/-- One act: a case for each. -/
theorem Inv.step (inv : s.Inv) {act : Act} (mannered : act.Mannered s) : (s.step act).Inv := by
  cases act with
  | create =>
    rw [Slot.step]
    split
    · exact inv
    · exact inv.tick.setCreate _ _ (by simp)
  | createDirAll c =>
    rw [Slot.step]
    split
    · exact inv.createDirAll c
    · exact inv
  | openOrCreate c =>
    rw [Slot.step]
    split
    · exact inv.openOrCreate mannered
    · exact inv
  | claim c =>
    rw [Slot.step]
    split
    · next opened => exact inv.claim opened
    · exact inv
  | get r => exact inv.holding r fun _ named => named
  | openTranslog r => exact inv.through r fun _ _ => inv.openTranslog
  | loadVersions r => exact inv.through r fun _ _ => inv.loadVersions
  | loadTerms r => exact inv.through r fun _ _ => inv.loadTerms
  | replayDocMetaLog r => exact inv.through r fun _ _ => inv.replayDocMetaLog
  | saveMeta r => exact inv.through r fun _ _ => inv.saveMeta
  | saveVersions r => exact inv.through r fun _ _ => inv.saveVersions
  | saveTerms r => exact inv.through r fun _ _ => inv.saveTerms
  | removeDocMetaLog r => exact inv.through r fun _ _ => inv.removeDocMetaLog
  | appendDocMetaLog r => exact inv.through r fun _ _ => inv.appendDocMetaLog
  | write r id source forced term =>
    exact inv.through r fun _ _ held known => inv.write held known id source forced term
  | commit r => exact inv.through r fun _ _ => inv.commit
  | clearTranslog r => exact inv.through r fun _ _ => inv.clearTranslog
  | letGo r => exact inv.holding r fun _ named => by cases named
  | delete =>
    rw [Slot.step]
    split
    · next named =>
      obtain ⟨k, named⟩ := Option.isSome_iff_exists.mp named
      exact inv.delete named
    · exact inv
  | takeOut d =>
    rw [Slot.step]
    split
    · next found => exact inv.takeOut found mannered
    · exact inv
  | unheld d =>
    rw [Slot.step]
    split
    · next dropped taken =>
      refine inv.setDelete (by simp [taken]) (inv.taken d _ taken (by simp)) ?_ fun _ _ => mannered
      intro k h
      exact inv.past.dropped d k (.inl (by simpa [taken] using h))
    · exact inv
  | unlink d file =>
    rw [Slot.step]
    split
    · next removing => exact inv.unlink file removing
    · exact inv
  | finish d =>
    rw [Slot.step]
    split
    · next removing => exact inv.finish removing mannered
    · exact inv
  | restart => exact inv.restart

/-- A run, by induction on its acts. -/
theorem Inv.run (inv : s.Inv) {acts : List Act} (mannered : s.Mannered acts) : (s.run acts).Inv := by
  induction acts generalizing s with
  | nil => exact inv
  | cons act acts ih => exact ih (inv.step mannered.1) mannered.2

end Slot

/-- **A deleted index stays deleted and a new one under its name starts empty**, in every
run in which creates and deletes of the name keep out of each other's way, a delete
that removes a directory is the last to hold its index, and `remove_dir_all` does not
leave `_meta.json`. -/
theorem recreated_clean (acts : List Act) (mannered : ({} : Slot).Mannered acts) :
    (({} : Slot).run acts).Clean :=
  (Slot.inv_fresh.run mannered).clean

/-- An index is made, one document is written to it, and it is committed. -/
def madeAndWritten : List Act :=
  [.create, .createDirAll 0, .openOrCreate 0, .claim 0, .get 0, .loadVersions 0, .loadTerms 0,
    .replayDocMetaLog 0, .openTranslog 0, .saveMeta 0,
    .write 0 "a" (some "old") none 1, .commit 0, .appendDocMetaLog 0, .clearTranslog 0, .letGo 0]

/-- Another is made under its name. -/
def madeAgain : List Act :=
  [.create, .createDirAll 6, .openOrCreate 6, .claim 6, .get 6, .loadVersions 6, .loadTerms 6,
    .replayDocMetaLog 6, .openTranslog 6, .saveMeta 6,
    .letGo 6]

theorem recreated_clean_removed :
    let acts := madeAndWritten ++ [.delete, .takeOut 5, .unheld 5, .unlink 5 .state,
      .unlink 5 .commit, .unlink 5 (.segment 3), .unlink 5 .log, .unlink 5 .docMetaLog,
      .finish 5] ++ madeAgain ++ [.restart]
    (({} : Slot).run acts).inner = some 7 ∧ (({} : Slot).run acts).Clean := by
  refine ⟨by decide +kernel, recreated_clean _ ?_⟩
  have opened : Slot.Mannered {} [.create, .createDirAll 0, .openOrCreate 0] := by
    refine ⟨trivial, trivial, fun _ => ⟨fun _ => rfl, ?_⟩, trivial⟩
    intro dir segments standing _
    obtain rfl := Option.some.inj standing
    exact ⟨rfl, rfl, rfl, rfl⟩
  refine ⟨trivial, trivial, opened.2.2.1, trivial, trivial, trivial, trivial, trivial, trivial,
    trivial, trivial, trivial, trivial, trivial, trivial, trivial, ?_, ?_, trivial, trivial,
    trivial, trivial, trivial, ?_, trivial, trivial, ?_, trivial, trivial, trivial, trivial, trivial,
    trivial, trivial, trivial, trivial, trivial⟩
  · intro c segments
    show Function.update (Function.update (Function.update (Function.update (fun _ => none) 0 _) 0 _)
      0 _) 0 none c ≠ some (Creating.opened segments)
    simp
  · intro r
    show Function.update (Function.update (fun _ => none) 0 (some 1)) 0 none r = none
    simp
  · intro dir standing
    obtain rfl := Option.some.inj standing
    rfl
  · intro _
    constructor
    · intro d
      show Function.update (Function.update (Function.update (Function.update (fun _ => none) 5 _) 5 _)
        5 _) 5 none d = none
      simp
    · intro dir segments standing _
      obtain rfl := Option.some.inj standing
      exact ⟨rfl, rfl, rfl, rfl⟩

/-- What goes wrong otherwise: an index made while the one before it is being deleted has
its documents, and loses its files to that delete; a removal that fails outright leaves
an index that a restart opens. -/
theorem recreated_unclean :
    let during := madeAndWritten ++ [.delete, .takeOut 5] ++ madeAgain
    let removed := during ++ [.unheld 5, .unlink 5 .commit, .unlink 5 (.segment 3)]
    let failed := madeAndWritten ++ [.delete, .takeOut 5, .unheld 5, .finish 5]
    (¬ (({} : Slot).run during).Clean ∧
      (({} : Slot).run during).indices 7 = some
        { segments := [⟨3, [⟨1, "a", 1, 1, some "old"⟩]⟩], path := true, log := some 2 }) ∧
    (¬ (({} : Slot).run removed).Clean ∧ (({} : Slot).run removed).inner = some 7 ∧
      (({} : Slot).run removed).dir = some
        { state := some 7, log := some (2, [])
          docMetaLog := some [⟨"a", ⟨1, 1, true⟩, ⟨1, 1⟩⟩] }) ∧
    (¬ (({} : Slot).run failed).Clean ∧ (({} : Slot).run failed).deleted = [1] ∧
      (({} : Slot).run failed).restart.inner = some 1) := by
  intro during removed failed
  have holds : (({} : Slot).run during).indices 7 = some
      { segments := [⟨3, [⟨1, "a", 1, 1, some "old"⟩]⟩], path := true, log := some 2 } := by
    decide +kernel
  have named : (({} : Slot).run removed).inner = some 7 := by decide +kernel
  have left : (({} : Slot).run removed).dir = some
      { state := some 7, log := some (2, [])
        docMetaLog := some [⟨"a", ⟨1, 1, true⟩, ⟨1, 1⟩⟩] } := by
    decide +kernel
  have deleted : (({} : Slot).run failed).deleted = [1] := by decide +kernel
  have reopened : (({} : Slot).run failed).restart.inner = some 1 := by decide +kernel
  refine ⟨⟨fun clean => ?_, holds⟩, ⟨fun clean => ?_, named, left⟩, fun clean => ?_, deleted,
    reopened⟩
  · have := (clean.own 7 _ holds).docs ⟨1, "a", 1, 1, some "old"⟩ (by decide)
    cases this
  · obtain ⟨x, dir, -, standing, whole⟩ := clean.whole 7 named
    obtain rfl := Option.some.inj (left.symm.trans standing)
    cases whole.commit
  · have := clean.gone 1 reopened
    rw [deleted] at this
    exact this (by decide)

end Velosearch.Store
