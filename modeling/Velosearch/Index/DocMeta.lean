import Velosearch.Index.Translog
import Velosearch.Lib.Redo

/-!
# Where the versions had got to, written down

`src/store/writer.rs`: the versions and the terms of an index are written in full, each to
its own file (`save_versions`, `save_terms`), and what moved since then is appended to a
record (`append_doc_meta_log`) that is read over them when the index is opened
(`replay_doc_meta_log`) and thrown away by the next full write (`save_doc_meta`).

* The two files hold the maps: `postcard` gives back what it was given, and `write_atomic`
  puts a whole file in the place of another. A file that is not there is an empty one.
* The ids of `meta_dirty` are written in the order the set happens to give them.
* The JSON reader is a parameter, as for the translog. A line of the record is its own, and
  a beginning of an object is not read as anything.
-/

set_option autoImplicit false

namespace Velosearch.Index

open Velosearch.Cluster (BTreeMap BTreeSet)
open Velosearch.Text

/-! ## A line of the record -/

/-- What a line of `_docmeta.log` says of a document. -/
structure Note where
  id : String
  version : Nat
  live : Bool
  term : Nat
deriving DecidableEq

/-- The line without its newline. -/
def Note.body (n : Note) : List Char :=
  "\x7b\"id\":".toList ++ jsonStr n.id ++
    ",\"v\":".toList ++ Nat.toDigits 10 n.version ++
    ",\"live\":".toList ++ (if n.live then "true" else "false").toList ++
    ",\"t\":".toList ++ Nat.toDigits 10 n.term ++ "\x7d".toList

/-- The line. -/
def Note.line (n : Note) : List Char :=
  n.body ++ ['\n']

/-- A JSON reader that is asked for booleans too. -/
structure NoteJson (V : Type) extends Json V where
  asBool : V → Option Bool

/-- A line read back. -/
def NoteJson.note {V : Type} (J : NoteJson V) (line : List Char) : Option Note := do
  let v ← J.fromStr line
  let id ← (J.member v "id").bind J.asStr
  some {
    id
    version := ((J.member v "v").bind J.asU64).getD 1
    live := ((J.member v "live").bind J.asBool).getD true
    term := ((J.member v "t").bind J.asU64).getD 1 }

/-- The reader on one line: it is read with its members as they were put, and no beginning
of it is read. -/
structure NoteJson.Reads {V : Type} (J : NoteJson V) (n : Note) : Prop where
  whole : ∃ v, J.fromStr n.body = some v ∧ (J.member v "id").bind J.asStr = some n.id ∧
    (J.member v "v").bind J.asU64 = some n.version ∧
    (J.member v "live").bind J.asBool = some n.live ∧
    (J.member v "t").bind J.asU64 = some n.term
  cut : ∀ text, text <+: n.body → text ≠ n.body → J.fromStr text = none

/-- A line that was written reads back. -/
theorem NoteJson.Reads.note_body {V : Type} {J : NoteJson V} {n : Note} (h : J.Reads n) :
    J.note n.body = some n := by
  obtain ⟨v, read, id, version, live, term⟩ := h.whole
  simp [note, read, id, version, live, term]

/-- A line that was cut short does not. -/
theorem NoteJson.Reads.note_cut {V : Type} {J : NoteJson V} {n : Note} (h : J.Reads n)
    {text : List Char} (begins : text <+: n.body) (short : text ≠ n.body) : J.note text = none := by
  simp [note, h.cut text begins short]

/-! ## The index and its files -/

/-- `_versions`, `_terms` and the record beside them. -/
structure MetaFiles where
  versions : BTreeMap String DocMeta := ∅
  terms : BTreeMap String Nat := ∅
  log : List UInt8 := []

/-- How long the log may grow before the tables are saved. -/
def docMetaLogMax : Nat := 64 * 1024 * 1024

namespace IdxState

variable (st : IdxState)

/-- The version of a document, as far as it is held. -/
def metaOf (id : String) : DocMeta :=
  (st.versions[id]?).getD { version := 1, live := true }

/-- The line that is written of a document. -/
def noteOf (id : String) : Note :=
  { id, version := (st.metaOf id).version, live := (st.metaOf id).live, term := st.termOf id }

/-- A line over what was loaded. -/
def replayNote (n : Note) : IdxState :=
  { st with
    versions :=
      if 1 < n.version || !n.live then
        st.versions.insert n.id { version := n.version, live := n.live }
      else st.versions.erase n.id
    terms := if 1 < n.term then st.terms.insert n.id n.term else st.terms.erase n.id }

/-- `replay_doc_meta_log`: the lines that can be read, in order. -/
def replayDocMetaLog {V : Type} (J : NoteJson V) (log : List UInt8) : IdxState :=
  match readToString log with
  | none => st
  | some text => ((lines text).filterMap J.note).foldl replayNote st

end IdxState

/-- The tables of an index that is opened. -/
def MetaFiles.openIndex {V : Type} (J : NoteJson V) (files : MetaFiles) (name : String) :
    IdxState :=
  let st : IdxState := { name, versions := files.versions, terms := files.terms, onDisk := true }
  st.replayDocMetaLog J files.log

/-- What moves in the tables. -/
inductive MetaChange where
  | bump (id : String) (live existed : Bool)
  | bumpToSeq (id : String) (live : Bool) (version : Nat) (seq : Option Nat)
  | setReplicatedVersion (id : String) (version : Nat) (live : Bool) (seq : Nat)
  | setTerm (id : String) (term : Nat)

namespace MetaChange

/-- The document that moves. -/
def id : MetaChange → String
  | bump id _ _ => id
  | bumpToSeq id _ _ _ => id
  | setReplicatedVersion id _ _ _ => id
  | setTerm id _ => id

/-- The tables after the change. -/
def apply (S : Settings) (st : IdxState) : MetaChange → IdxState
  | bump id live existed => (st.bump S id live existed).1
  | bumpToSeq id live version seq => (st.bumpToSeq S id live version seq).1
  | setReplicatedVersion id version live seq => st.setReplicatedVersion S id version live seq
  | setTerm id term => st.setTerm id term

end MetaChange

/-- How far an append gets. -/
inductive Appending where
  | done
  | failed (bytes : Nat)
  | died (bytes : Nat)
deriving DecidableEq

/-- How a full write goes: how many of its three steps (the versions, the terms, the removal
of the record) are reached, and which of these the file system lets through. -/
structure Saving where
  steps : Nat := 3
  versions : Bool := true
  terms : Bool := true
  removed : Bool := true

/-- What happens to an index on disk. -/
inductive MetaEvent where
  | change (c : MetaChange)
  | append (order : List String) (how : Appending) (saving : Saving)
  | save (saving : Saving)
  | restart

/-- An index, the ids that moved since they were written down, and its files. -/
structure MetaWork where
  st : IdxState
  dirty : BTreeSet String := ∅
  files : MetaFiles := {}
  past : List IdxState

namespace MetaWork

variable {V : Type} (S : Settings) (J : NoteJson V) (x : MetaWork)

/-- A new index. -/
def made (name : String) : MetaWork where
  st := { name, onDisk := true }
  past := [{ name, onDisk := true }]

/-- A change, which is to be recorded. -/
def change (c : MetaChange) : MetaWork :=
  { x with st := c.apply S x.st, dirty := x.dirty.insert c.id, past := c.apply S x.st :: x.past }

/-- The process dies and the index is opened again. -/
def reopen : MetaWork :=
  { x with
    st := x.files.openIndex J x.st.name, dirty := ∅
    past := x.files.openIndex J x.st.name :: x.past }

/-- Everything that moved is on disk. -/
def complete : MetaWork :=
  { x with dirty := ∅, past := [x.st] }

/-- What a save leaves, as far as it gets. -/
def saveDocMetaFiles (how : Saving) : MetaFiles where
  versions := if 1 ≤ how.steps ∧ how.versions = true then x.st.versions else x.files.versions
  terms := if 2 ≤ how.steps ∧ how.terms = true then x.st.terms else x.files.terms
  log := if 3 ≤ how.steps ∧ how.removed = true then [] else x.files.log

/-- `save_doc_meta`. -/
def saveDocMeta (how : Saving) : MetaWork :=
  let x' := { x with files := x.saveDocMetaFiles how }
  if 3 ≤ how.steps then x'.complete else x'.reopen J

/-- The lines of an append. -/
def appended (order : List String) : List UInt8 :=
  encode ((order.map x.st.noteOf).flatMap Note.line)

/-- Bytes at the end of the log. -/
def extendLog (bytes : List UInt8) : MetaWork :=
  { x with files := { x.files with log := x.files.log ++ bytes } }

/-- `append_doc_meta_log`, which saves the tables once the log has grown. -/
def appendDocMetaLog (order : List String) (how : Appending) (saving : Saving) : MetaWork :=
  if x.dirty.isEmpty then x.complete
  else if docMetaLogMax < x.files.log.length then x.saveDocMeta J saving
  else
    match how with
    | .done => (x.extendLog (x.appended order)).complete
    | .failed n => x.extendLog ((x.appended order).take n)
    | .died n => (x.extendLog ((x.appended order).take n)).reopen J

/-- One thing that happens. -/
def step : MetaEvent → MetaWork
  | .change c => x.change S c
  | .append order how saving => x.appendDocMetaLog J order how saving
  | .save saving => x.saveDocMeta J saving
  | .restart => x.reopen J

/-- A run. -/
def run (x : MetaWork) : List MetaEvent → MetaWork
  | [] => x
  | e :: events => run (x.step S J e) events

/-- A condition on each step of a run, where it is taken. -/
def Along (p : MetaWork → MetaEvent → Prop) (x : MetaWork) : List MetaEvent → Prop
  | [] => True
  | e :: events => p x e ∧ Along p (x.step S J e) events

end MetaWork

/-! ## The condition -/

/-- The log can be read and ends with a whole line. -/
def wholeLines (log : List UInt8) : Bool :=
  match readToString log with
  | none => false
  | some text => text.isEmpty || text.getLast? == some '\n'

/-- The save gets through. -/
def Saving.Works (how : Saving) : Prop :=
  how.versions = true ∧ how.terms = true ∧ how.removed = true

namespace MetaWork

variable {V : Type} {S : Settings} {J : NoteJson V} {x : MetaWork}

/-- A save that breaks nothing. -/
def FitSave (x : MetaWork) (how : Saving) : Prop :=
  how.Works ∧ (how.steps < 3 → (readToString x.files.log).isSome = true)

/-- A record is written after whole lines, of documents none of which is live at version 0,
and what the index is opened from again is text. -/
def FitAppend (x : MetaWork) (order : List String) (how : Appending) : Prop :=
  wholeLines x.files.log = true ∧
  (∀ id ∈ order, (x.st.metaOf id).version = 0 → (x.st.metaOf id).live = false) ∧
  ∀ n, how = .died n →
    (readToString (x.files.log ++ (x.appended order).take n)).isSome = true

/-- What is asked of a step, where it is taken. -/
def Fit (x : MetaWork) : MetaEvent → Prop
  | .change _ => True
  | .append order how saving =>
    if x.dirty.isEmpty then True
    else if docMetaLogMax < x.files.log.length then x.FitSave saving
    else x.FitAppend order how
  | .save saving => x.FitSave saving
  | .restart => (readToString x.files.log).isSome = true

/-- What an event is: the ids that moved, each once, and lines the reader reads. -/
def Meets (J : NoteJson V) (x : MetaWork) : MetaEvent → Prop
  | .append order _ _ => order.Perm x.dirty.toList ∧ ∀ id ∈ order, J.Reads (x.st.noteOf id)
  | _ => True

/-- The index is opened again. -/
def Reopens (x : MetaWork) : MetaEvent → Prop
  | .change _ => False
  | .append _ how saving =>
    x.dirty.isEmpty = false ∧
      if docMetaLogMax < x.files.log.length then saving.steps < 3 else ∃ n, how = .died n
  | .save saving => saving.steps < 3
  | .restart => True

end MetaWork

def MetaEvent.parts : MetaEvent → Bool
  | .append _ _ saving => saving.steps == 1
  | .save saving => saving.steps == 1
  | _ => false

/-! ## What a record says -/

theorem Note.body_eq (n : Note) :
    ∃ middle, n.body = '\x7b' :: middle ++ ['\x7d'] ∧ '\n' ∉ middle := by
  refine ⟨['"', 'i', 'd', '"', ':'] ++ jsonStr n.id ++
    ",\"v\":".toList ++ Nat.toDigits 10 n.version ++
    ",\"live\":".toList ++ (if n.live then "true" else "false").toList ++
    ",\"t\":".toList ++ Nat.toDigits 10 n.term, ?_, ?_⟩
  · have opening : "\x7b\"id\":".toList = ['\x7b', '"', 'i', 'd', '"', ':'] := rfl
    have closing : "\x7d".toList = ['\x7d'] := rfl
    unfold body
    -- the texts between are only in the way
    generalize "\x7b\"id\":".toList = front at opening ⊢
    generalize "\x7d".toList = back at closing ⊢
    generalize ",\"v\":".toList = version
    generalize ",\"live\":".toList = live
    generalize ",\"t\":".toList = term
    generalize (if n.live then "true" else "false").toList = word
    subst opening closing
    simp only [List.cons_append, List.append_assoc, List.nil_append]
  · have live : '\n' ∉ (if n.live then "true" else "false").toList := by
      cases n.live <;> decide
    have version : '\n' ∉ ",\"v\":".toList := by decide
    have flag : '\n' ∉ ",\"live\":".toList := by decide
    have term : '\n' ∉ ",\"t\":".toList := by decide
    generalize ",\"v\":".toList = a at version ⊢
    generalize ",\"live\":".toList = b at flag ⊢
    generalize ",\"t\":".toList = c at term ⊢
    generalize (if n.live then "true" else "false").toList = d at live ⊢
    simp only [List.mem_append, not_or]
    exact ⟨⟨⟨⟨⟨⟨⟨by decide, newline_not_mem_jsonStr _⟩, version⟩, newline_not_mem_toDigits _⟩, flag⟩,
      live⟩, term⟩, newline_not_mem_toDigits _⟩

theorem Note.newline_not_mem_body (n : Note) : '\n' ∉ n.body := by
  obtain ⟨middle, eq, clean⟩ := n.body_eq
  rw [eq]
  simpa using clean

theorem Note.body_ne_nil (n : Note) : n.body ≠ [] := by
  obtain ⟨middle, eq, -⟩ := n.body_eq
  rw [eq]
  simp

theorem Note.strip_line (n : Note) : strip n.line = n.body := by
  obtain ⟨middle, eq, -⟩ := n.body_eq
  rw [line, eq]
  exact Velosearch.Text.strip_line (by decide)

theorem strip_of_newline_not_mem {text : List Char} (h : '\n' ∉ text) : strip text = text := by
  rw [strip]
  split
  case h_1 rest eq => exact absurd (by rw [← List.mem_reverse, eq]; simp) h
  case h_2 rest _ eq => exact absurd (by rw [← List.mem_reverse, eq]; simp) h
  case h_3 => rfl

/-- **What a record says** where it can be read: it is lines, and perhaps the beginning of one
more, which counts where only its newline is missing. -/
def Logged {V : Type} (J : NoteJson V) (log : List UInt8) (notes : List Note) : Prop :=
  ∃ (whole : List Note) (tail : List UInt8),
    log = encode (whole.flatMap Note.line) ++ tail ∧ (∀ n ∈ whole, J.Reads n) ∧
      ((tail = [] ∧ notes = whole) ∨
        ∃ n, J.Reads n ∧ tail <+: encode n.body ∧
          notes = if tail = encode n.body then whole ++ [n] else whole)

namespace Logged

variable {V : Type} {J : NoteJson V} {log : List UInt8} {notes : List Note}

theorem nil : Logged J [] [] :=
  ⟨[], [], rfl, nofun, .inl ⟨rfl, rfl⟩⟩

theorem encode_inj {text text' : List Char} (h : encode text = encode text') : text = text' := by
  have read := readToString_eq_some_iff.mpr h
  have own := readToString_eq_some_iff.mpr (rfl : encode text = encode text)
  exact Option.some.inj (own.symm.trans read)

/-- What is left of a log is whole lines and the front of one more. -/
theorem text_of {whole : List Note} {tail : List UInt8} {text : List Char}
    (h : encode (whole.flatMap Note.line) ++ tail = encode text) :
    ∃ t, text = whole.flatMap Note.line ++ t ∧ tail = encode t := by
  obtain ⟨t, rfl⟩ := prefix_of_encode_append h
  rw [encode_append] at h
  exact ⟨t, rfl, List.append_cancel_left h⟩

theorem prefix_of_encode_prefix {text text' : List Char} (h : encode text <+: encode text') :
    text <+: text' := by
  obtain ⟨rest, eq⟩ := h
  exact prefix_of_encode_append eq

/-- So it is read, line by line. -/
theorem lines_eq {whole : List Note} {t : List Char} (clean : '\n' ∉ t) :
    lines (whole.flatMap Note.line ++ t) = whole.map Note.body ++ if t = [] then [] else [t] := by
  have single : ∀ b ∈ whole.map Note.body, '\n' ∉ b := by
    intro b hb
    obtain ⟨n, -, rfl⟩ := List.mem_map.mp hb
    exact n.newline_not_mem_body
  have flat : whole.flatMap Note.line = (whole.map Note.body).flatMap (· ++ ['\n']) := by
    rw [List.flatMap_map]
    rfl
  rw [lines, flat, splitInclusive_lines single clean, List.map_append, List.map_map,
    List.map_map]
  congr 1
  · refine List.map_congr_left fun n _ => ?_
    have own := n.strip_line
    rw [Note.line] at own
    rw [Function.comp_apply, Function.comp_apply, own]
  · split
    · rfl
    · rw [List.map_singleton, strip_of_newline_not_mem clean]

/-- The whole lines are what is read of it. -/
theorem filterMap_whole {whole : List Note} (reads : ∀ n ∈ whole, J.Reads n) :
    (whole.map Note.body).filterMap J.note = whole := by
  induction whole with
  | nil => rfl
  | cons n whole ih =>
    rw [List.map_cons, List.filterMap_cons, (reads n List.mem_cons_self).note_body]
    rw [ih fun n' hn' => reads n' (List.mem_cons_of_mem _ hn')]

/-- The replay of a log is that of its notes. -/
theorem replay (h : Logged J log notes) (st : IdxState)
    (readable : (readToString log).isSome = true) :
    st.replayDocMetaLog J log = notes.foldl IdxState.replayNote st := by
  obtain ⟨text, read⟩ := Option.isSome_iff_exists.mp readable
  obtain ⟨whole, tail, eq, reads, rest⟩ := h
  obtain ⟨t, rfl, rfl⟩ := text_of (eq.symm.trans (readToString_eq_some_iff.mp read))
  rw [IdxState.replayDocMetaLog, read]
  dsimp only
  suffices (lines (whole.flatMap Note.line ++ t)).filterMap J.note = notes by rw [this]
  rcases rest with ⟨empty, rfl⟩ | ⟨n, known, begins, rfl⟩
  · obtain rfl : t = [] := encode_inj (empty.trans rfl)
    rw [lines_eq List.not_mem_nil, if_pos rfl, List.append_nil, filterMap_whole reads]
  · have begins := prefix_of_encode_prefix begins
    have clean : '\n' ∉ t := fun mem => n.newline_not_mem_body (begins.subset mem)
    rw [lines_eq clean, List.filterMap_append, filterMap_whole reads]
    by_cases full : t = n.body
    · have filled : t ≠ [] := by
        rw [full]
        exact n.body_ne_nil
      rw [if_neg filled, if_pos (congrArg encode full), full, List.filterMap_cons, known.note_body]
      rfl
    · rw [if_neg fun same => full (encode_inj same)]
      split
      · exact List.append_nil _
      · rw [List.filterMap_cons, known.note_cut begins full]
        exact List.append_nil _

theorem whole_of (h : Logged J log notes) (whole : wholeLines log = true) :
    log = encode (notes.flatMap Note.line) ∧ ∀ n ∈ notes, J.Reads n := by
  rw [wholeLines] at whole
  split at whole
  case h_1 => exact absurd whole nofun
  case h_2 text read =>
    obtain ⟨ws, tail, eq, reads, rest⟩ := h
    obtain ⟨t, rfl, rfl⟩ := text_of (eq.symm.trans (readToString_eq_some_iff.mp read))
    -- what stands after the last line has no newline, so there is nothing after it
    have empty : '\n' ∉ t → t = [] := by
      intro clean
      by_contra some
      rw [List.getLast?_append_of_ne_nil _ some] at whole
      simp only [List.isEmpty_iff, List.append_eq_nil_iff, some, and_false, Bool.or_eq_true,
        false_or, beq_iff_eq] at whole
      exact clean (List.mem_of_getLast? whole)
    rcases rest with ⟨none, rfl⟩ | ⟨n, -, begins, rfl⟩
    · refine ⟨?_, reads⟩
      rw [eq, none, List.append_nil]
    · have begins := prefix_of_encode_prefix begins
      obtain rfl := empty fun mem => n.newline_not_mem_body (begins.subset mem)
      have unlike : encode [] ≠ encode n.body := fun same => n.body_ne_nil (encode_inj same).symm
      rw [if_neg unlike]
      refine ⟨?_, reads⟩
      rw [eq]
      exact List.append_nil _

/-- An append that is cut short is an append of some lines and the front of one. -/
theorem take_lines (ns : List Note) (k : Nat) :
    ∃ m, ((encode (ns.flatMap Note.line)).take k = encode ((ns.take m).flatMap Note.line)) ∨
      ∃ n tail, ns[m]? = some n ∧ tail <+: encode n.body ∧
        (encode (ns.flatMap Note.line)).take k = encode ((ns.take m).flatMap Note.line) ++ tail := by
  induction ns generalizing k with
  | nil => exact ⟨0, .inl (by simp [encode])⟩
  | cons n ns ih =>
    rw [List.flatMap_cons, encode_append, List.take_append]
    by_cases fits : (encode n.line).length ≤ k
    · rw [List.take_of_length_le fits]
      obtain ⟨m, whole | ⟨n', tail, at_, begins, eq⟩⟩ := ih (k - (encode n.line).length)
      · refine ⟨m + 1, .inl ?_⟩
        rw [whole, List.take_succ_cons, List.flatMap_cons, encode_append]
      · refine ⟨m + 1, .inr ⟨n', tail, at_, begins, ?_⟩⟩
        rw [eq, List.take_succ_cons, List.flatMap_cons, encode_append, List.append_assoc]
    · refine ⟨0, .inr ⟨n, (encode n.line).take k, rfl, ?_, ?_⟩⟩
      · -- the last byte of the line is its newline
        have parts : encode n.line = encode n.body ++ encode ['\n'] := by
          rw [Note.line, encode_append]
        have one : (encode ['\n']).length = 1 := rfl
        rw [parts, List.length_append, one] at fits
        rw [parts, List.take_append_of_le_length (by omega)]
        exact List.take_prefix _ _
      · have none : k - (encode n.line).length = 0 := by omega
        rw [none, List.take_zero, List.append_nil]
        rfl

/-- **An append after whole lines**, cut anywhere, says some of its notes more. -/
theorem append_take (h : Logged J log notes) (whole : wholeLines log = true) {ns : List Note}
    (reads : ∀ n ∈ ns, J.Reads n) (k : Nat) :
    ∃ m, Logged J (log ++ (encode (ns.flatMap Note.line)).take k) (notes ++ ns.take m) := by
  obtain ⟨eq, known⟩ := h.whole_of whole
  have all : ∀ m, ∀ n ∈ notes ++ ns.take m, J.Reads n := by
    intro m n hn
    rcases List.mem_append.mp hn with hn | hn
    · exact known n hn
    · exact reads n (List.mem_of_mem_take hn)
  obtain ⟨m, cut | ⟨n, tail, at_, begins, cut⟩⟩ := take_lines ns k
  · refine ⟨m, notes ++ ns.take m, [], ?_, all m, .inl ⟨rfl, rfl⟩⟩
    rw [cut, eq, List.flatMap_append, encode_append, List.append_nil]
  · have log_eq : log ++ (encode (ns.flatMap Note.line)).take k =
        encode ((notes ++ ns.take m).flatMap Note.line) ++ tail := by
      rw [cut, eq, List.flatMap_append, encode_append, List.append_assoc]
    have known : J.Reads n := reads n (List.mem_of_getElem? at_)
    by_cases full : tail = encode n.body
    · refine ⟨m + 1, notes ++ ns.take m, tail, log_eq, all m, .inr ⟨n, known, begins, ?_⟩⟩
      rw [if_pos full, List.take_add_one, at_, ← List.append_assoc]
      rfl
    · exact ⟨m, notes ++ ns.take m, tail, log_eq, all m, .inr ⟨n, known, begins, (if_neg full).symm⟩⟩

/-- An append that is not adds all of its lines. -/
theorem append_all (h : Logged J log notes) (whole : wholeLines log = true) {ns : List Note}
    (reads : ∀ n ∈ ns, J.Reads n) :
    Logged J (log ++ encode (ns.flatMap Note.line)) (notes ++ ns) := by
  obtain ⟨eq, known⟩ := h.whole_of whole
  refine ⟨notes ++ ns, [], ?_, ?_, .inl ⟨rfl, rfl⟩⟩
  · rw [eq, List.flatMap_append, encode_append, List.append_nil]
  · intro n hn
    rcases List.mem_append.mp hn with hn | hn
    · exact known n hn
    · exact reads n hn

end Logged

/-! ## What the files say of a document -/

/-- A line that was written of something. -/
def Note.Sound (n : Note) : Prop :=
  (n.version = 0 → n.live = false) ∧ 0 < n.term

/-- The last line of a document. -/
def lastNote (notes : List Note) (id : String) : Option Note :=
  Redo.last Note.id some id notes

/-- The version the files come to. -/
def MetaFiles.metaOf (files : MetaFiles) (notes : List Note) (id : String) : DocMeta :=
  match lastNote notes id with
  | some n => { version := n.version, live := n.live }
  | none => (files.versions[id]?).getD { version := 1, live := true }

/-- The term they come to. -/
def MetaFiles.termOf (files : MetaFiles) (notes : List Note) (id : String) : Nat :=
  match lastNote notes id with
  | some n => n.term
  | none => (files.terms[id]?).getD 1

namespace IdxState

variable {st : IdxState} {n : Note} {notes : List Note}

/-- A note is about its document. -/
theorem replayNote_metaOf (sound : n.Sound) (id : String) :
    (st.replayNote n).metaOf id =
      if n.id = id then { version := n.version, live := n.live } else st.metaOf id := by
  rw [metaOf, replayNote]
  dsimp only
  by_cases kept : (decide (1 < n.version) || !n.live) = true
  · rw [if_pos kept]
    by_cases own : n.id = id <;> simp [Std.ExtTreeMap.getElem?_insert, own, metaOf]
  · rw [if_neg kept]
    by_cases own : n.id = id
    · -- version 1 and live, which goes without saying
      obtain ⟨low, live⟩ : n.version ≤ 1 ∧ n.live = true := by simpa using kept
      have first : n.version = 1 := by
        have := sound.1
        rw [live] at this
        have : n.version ≠ 0 := fun zero => absurd (this zero) nofun
        omega
      simp [own, first, live]
    · simp [Std.ExtTreeMap.getElem?_erase, own, metaOf]

theorem replayNote_termOf (sound : n.Sound) (id : String) :
    (st.replayNote n).termOf id = if n.id = id then n.term else st.termOf id := by
  rw [termOf, replayNote]
  dsimp only
  by_cases later : 1 < n.term
  · rw [if_pos later]
    by_cases own : n.id = id <;> simp [Std.ExtTreeMap.getElem?_insert, own, termOf]
  · rw [if_neg later]
    by_cases own : n.id = id
    · have first : n.term = 1 := by
        have := sound.2
        omega
      simp [own, first]
    · simp [Std.ExtTreeMap.getElem?_erase, own, termOf]

/-- After the replay a document is at its last note. -/
theorem replayed_metaOf (sound : ∀ n ∈ notes, n.Sound) (id : String) :
    (notes.foldl replayNote st).metaOf id =
      ((lastNote notes id).map fun n => ⟨n.version, n.live⟩).getD (st.metaOf id) := by
  induction notes using List.reverseRecOn with
  | nil => rfl
  | append_singleton notes n ih =>
    rw [List.foldl_append, List.foldl_cons, List.foldl_nil, replayNote_metaOf (sound n (by simp)),
      ih fun n' hn' => sound n' (by simp [hn']), lastNote, lastNote, Redo.last_concat]
    split <;> simp

theorem replayed_termOf (sound : ∀ n ∈ notes, n.Sound) (id : String) :
    (notes.foldl replayNote st).termOf id =
      ((lastNote notes id).map Note.term).getD (st.termOf id) := by
  induction notes using List.reverseRecOn with
  | nil => rfl
  | append_singleton notes n ih =>
    rw [List.foldl_append, List.foldl_cons, List.foldl_nil, replayNote_termOf (sound n (by simp)),
      ih fun n' hn' => sound n' (by simp [hn']), lastNote, lastNote, Redo.last_concat]
    split <;> simp

end IdxState

/-- An index that is opened has what its files come to. -/
theorem MetaFiles.openIndex_gives {V : Type} {J : NoteJson V} {files : MetaFiles} {notes : List Note}
    (logged : Logged J files.log notes) (sound : ∀ n ∈ notes, n.Sound)
    (readable : (readToString files.log).isSome = true) (name id : String) :
    (files.openIndex J name).metaOf id = files.metaOf notes id ∧
      (files.openIndex J name).termOf id = files.termOf notes id := by
  rw [openIndex, logged.replay _ readable, IdxState.replayed_metaOf sound, IdxState.replayed_termOf sound,
    metaOf, termOf]
  cases lastNote notes id <;> exact ⟨rfl, rfl⟩

/-- What was appended last counts. -/
theorem lastNote_append_noteOf (st : IdxState) (notes : List Note) (ids : List String)
    (id : String) :
    lastNote (notes ++ ids.map st.noteOf) id =
      if id ∈ ids then some (st.noteOf id) else lastNote notes id := by
  induction ids using List.reverseRecOn with
  | nil => simp
  | append_singleton ids i ih =>
    rw [List.map_append, ← List.append_assoc, List.map_singleton, lastNote, Redo.last_concat]
    rw [lastNote] at ih
    by_cases own : i = id
    · subst own
      simp [IdxState.noteOf]
    · have other : (st.noteOf i).id ≠ id := own
      rw [if_neg other, Option.none_or, ih]
      simp [Ne.symm own]

/-- After an append the files come to the versions that were appended. -/
theorem MetaFiles.metaOf_append {files files' : MetaFiles} (same : files'.versions = files.versions)
    (st : IdxState) (notes : List Note) (ids : List String) (id : String) :
    files'.metaOf (notes ++ ids.map st.noteOf) id =
      if id ∈ ids then st.metaOf id else files.metaOf notes id := by
  rw [metaOf, lastNote_append_noteOf]
  by_cases own : id ∈ ids
  · rw [if_pos own, if_pos own]
    rfl
  · rw [if_neg own, if_neg own, same]
    rfl

theorem MetaFiles.termOf_append {files files' : MetaFiles} (same : files'.terms = files.terms)
    (st : IdxState) (notes : List Note) (ids : List String) (id : String) :
    files'.termOf (notes ++ ids.map st.noteOf) id =
      if id ∈ ids then st.termOf id else files.termOf notes id := by
  rw [termOf, lastNote_append_noteOf]
  by_cases own : id ∈ ids
  · rw [if_pos own, if_pos own]
    rfl
  · rw [if_neg own, if_neg own, same]
    rfl

/-! ## What a change leaves alone -/

/-- A change moves its own document. -/
theorem MetaChange.apply_frame (S : Settings) (st : IdxState) (c : MetaChange) {id : String}
    (other : c.id ≠ id) :
    (c.apply S st).metaOf id = st.metaOf id ∧ (c.apply S st).termOf id = st.termOf id := by
  have inserted : ∀ i, i ≠ id → ∀ m : DocMeta, ((st.versions.insert i m)[id]?).getD ⟨1, true⟩ =
      st.metaOf id := by
    intro i other m
    simp [Std.ExtTreeMap.getElem?_insert, other, IdxState.metaOf]
  cases c with
  | bump i live existed =>
    refine ⟨?_, rfl⟩
    rw [apply, IdxState.bump, IdxState.metaOf]
    dsimp only
    split
    · exact inserted i other _
    · rfl
  | bumpToSeq i live version seq =>
    cases seq <;> exact ⟨inserted i other _, rfl⟩
  | setReplicatedVersion i version live seq =>
    exact ⟨inserted i other _, rfl⟩
  | setTerm i term =>
    refine ⟨rfl, ?_⟩
    rw [apply, IdxState.setTerm, IdxState.termOf]
    have other : i ≠ id := other
    split <;> simp [Std.ExtTreeMap.getElem?_insert, Std.ExtTreeMap.getElem?_erase, other,
      IdxState.termOf]

theorem MetaChange.apply_positive (S : Settings) {st : IdxState} (c : MetaChange)
    (positive : ∀ id, 0 < st.termOf id) (id : String) : 0 < (c.apply S st).termOf id := by
  by_cases own : c.id = id
  · cases c with
    | bump i live existed => exact positive id
    | bumpToSeq i live version seq => cases seq <;> exact positive id
    | setReplicatedVersion i version live seq => exact positive id
    | setTerm i term =>
      obtain rfl : i = id := own
      rw [apply, IdxState.setTerm, IdxState.termOf]
      dsimp only
      split
      · simp
      · simp
        omega
  · rw [(c.apply_frame S st own).2]
    exact positive id

/-! ## The invariant -/

/-- What the files give a document is what it was at some moment since the last write of
them that completed. -/
def FromPast (joint : Prop) (past : List IdxState) (meta_ : DocMeta) (term : Nat) (id : String) :
    Prop :=
  ∃ s ∈ past, ∃ s' ∈ past, meta_ = s.metaOf id ∧ term = s'.termOf id ∧ (joint → s = s')

/-- What was so at some time was so at some time. -/
theorem FromPast.later {joint : Prop} {past : List IdxState} {st : IdxState} {m : DocMeta} {term : Nat}
    {id : String} (h : FromPast joint past m term id) : FromPast joint (st :: past) m term id := by
  obtain ⟨s, hs, s', hs', rest⟩ := h
  exact ⟨s, List.mem_cons_of_mem _ hs, s', List.mem_cons_of_mem _ hs', rest⟩

/-- Between two events: the documents that did not move are in the files as they are in the
index, and the others as they were at some moment. -/
structure MetaWork.Kept {V : Type} (J : NoteJson V) (joint : Prop) (x : MetaWork)
    (notes : List Note) : Prop where
  logged : Logged J x.files.log notes
  sound : ∀ n ∈ notes, n.Sound
  now : x.st ∈ x.past
  positive : ∀ s ∈ x.past, ∀ id, 0 < s.termOf id
  clean : ∀ id, x.dirty.contains id = false →
    x.files.metaOf notes id = x.st.metaOf id ∧ x.files.termOf notes id = x.st.termOf id
  held : ∀ id, FromPast joint x.past (x.files.metaOf notes id) (x.files.termOf notes id) id

namespace MetaWork

variable {V : Type} {S : Settings} {J : NoteJson V} {joint : Prop} {x : MetaWork}
  {notes : List Note}

theorem made_kept (J : NoteJson V) (joint : Prop) (name : String) : Kept J joint (made name) [] where
  logged := Logged.nil
  sound := nofun
  now := List.mem_singleton.mpr rfl
  positive := by
    intro s hs id
    obtain rfl := List.mem_singleton.mp hs
    simp [IdxState.termOf]
  clean := fun id _ => ⟨rfl, rfl⟩
  held := fun id => ⟨_, List.mem_singleton.mpr rfl, _, List.mem_singleton.mpr rfl, rfl, rfl,
    fun _ => rfl⟩

/-- A change keeps the invariant: what was on disk is still of some time before. -/
theorem Kept.change (h : Kept J joint x notes) (c : MetaChange) :
    Kept J joint (x.change S c) notes where
  logged := h.logged
  sound := h.sound
  now := List.mem_cons_self
  positive := by
    intro s hs
    rcases List.mem_cons.mp hs with rfl | hs
    · exact c.apply_positive S (h.positive x.st h.now)
    · exact h.positive s hs
  clean := by
    intro id still
    obtain ⟨other, still⟩ : c.id ≠ id ∧ x.dirty.contains id = false := by
      simpa [MetaWork.change] using still
    obtain ⟨sameMeta, sameTerm⟩ := c.apply_frame S x.st other
    obtain ⟨inMeta, inTerm⟩ := h.clean id still
    exact ⟨inMeta.trans sameMeta.symm, inTerm.trans sameTerm.symm⟩
  held := fun id => (h.held id).later

/-- **Opened again**, an index has what it had at some moment since the last write that
completed. -/
theorem Kept.reopen (h : Kept J joint x notes)
    (readable : (readToString x.files.log).isSome = true) :
    Kept J joint (x.reopen J) notes ∧ ∀ id,
      FromPast joint x.past ((x.reopen J).st.metaOf id) ((x.reopen J).st.termOf id) id := by
  have gives := MetaFiles.openIndex_gives h.logged h.sound readable x.st.name
  have from_ : ∀ id,
      FromPast joint x.past ((x.reopen J).st.metaOf id) ((x.reopen J).st.termOf id) id := by
    intro id
    obtain ⟨sameMeta, sameTerm⟩ := gives id
    show FromPast joint x.past ((x.files.openIndex J x.st.name).metaOf id)
      ((x.files.openIndex J x.st.name).termOf id) id
    rw [sameMeta, sameTerm]
    exact h.held id
  refine ⟨⟨h.logged, h.sound, List.mem_cons_self, ?_, ?_, fun id => (h.held id).later⟩, from_⟩
  · intro s hs id
    rcases List.mem_cons.mp hs with rfl | hs
    · obtain ⟨-, -, s', hs', -, term, -⟩ := from_ id
      have term : (x.files.openIndex J x.st.name).termOf id = s'.termOf id := term
      rw [term]
      exact h.positive s' hs' id
    · exact h.positive s hs id
  · intro id _
    exact ⟨(gives id).1.symm, (gives id).2.symm⟩

/-- Everything that moved is on disk. -/
theorem complete_kept (logged : Logged J x.files.log notes) (sound : ∀ n ∈ notes, n.Sound)
    (positive : ∀ id, 0 < x.st.termOf id)
    (all : ∀ id,
      x.files.metaOf notes id = x.st.metaOf id ∧ x.files.termOf notes id = x.st.termOf id) :
    Kept J joint x.complete notes where
  logged := logged
  sound := sound
  now := List.mem_singleton.mpr rfl
  positive := by
    intro s hs
    obtain rfl := List.mem_singleton.mp hs
    exact positive
  clean := fun id _ => all id
  held := fun id => ⟨_, List.mem_singleton.mpr rfl, _, List.mem_singleton.mpr rfl, (all id).1,
    (all id).2, fun _ => rfl⟩

/-- What a step may come to. -/
def Outcome (J : NoteJson V) (joint : Prop) (x y : MetaWork) (reopens : Prop) : Prop :=
  (∃ notes, Kept J joint y notes) ∧
    (reopens → ∀ id, FromPast joint x.past (y.st.metaOf id) (y.st.termOf id) id)

/-- A save, as far as it gets. -/
theorem Kept.saveDocMeta (h : Kept J joint x notes) {how : Saving} (fit : x.FitSave how)
    (together : joint → how.steps ≠ 1) :
    Outcome J joint x (x.saveDocMeta J how) (how.steps < 3) := by
  obtain ⟨⟨versions, terms, removed⟩, readable⟩ := fit
  rw [MetaWork.saveDocMeta]
  by_cases done : 3 ≤ how.steps
  · rw [if_pos done]
    refine ⟨⟨[], complete_kept ?_ nofun (h.positive x.st h.now) fun id => ?_⟩,
      fun died => absurd done (by omega)⟩
    · have : (x.saveDocMetaFiles how).log = [] := if_pos ⟨done, removed⟩
      rw [this]
      exact Logged.nil
    · have whole : (x.saveDocMetaFiles how).versions = x.st.versions ∧
          (x.saveDocMetaFiles how).terms = x.st.terms :=
        ⟨if_pos ⟨by omega, versions⟩, if_pos ⟨by omega, terms⟩⟩
      show (x.saveDocMetaFiles how).metaOf [] id = _ ∧ (x.saveDocMetaFiles how).termOf [] id = _
      rw [MetaFiles.metaOf, MetaFiles.termOf, whole.1, whole.2]
      exact ⟨rfl, rfl⟩
  · rw [if_neg done]
    have log : (x.saveDocMetaFiles how).log = x.files.log := if_neg fun reached => done reached.1
    -- a document in the record is as it was, and another as it was or as it is
    have kept : Kept J joint { x with files := x.saveDocMetaFiles how } notes := by
      refine ⟨by rw [log]; exact h.logged, h.sound, h.now, h.positive, fun id still => ?_, fun id => ?_⟩
      · obtain ⟨inMeta, inTerm⟩ := h.clean id still
        show (x.saveDocMetaFiles how).metaOf notes id = _ ∧
          (x.saveDocMetaFiles how).termOf notes id = _
        rw [MetaFiles.metaOf] at inMeta ⊢
        rw [MetaFiles.termOf] at inTerm ⊢
        cases noted : lastNote notes id with
        | some n =>
          rw [noted] at inMeta inTerm
          exact ⟨inMeta, inTerm⟩
        | none =>
          rw [noted] at inMeta inTerm
          constructor
          · rw [saveDocMetaFiles]
            dsimp only
            split
            · rfl
            · exact inMeta
          · rw [saveDocMetaFiles]
            dsimp only
            split
            · rfl
            · exact inTerm
      · obtain ⟨s, hs, s', hs', inMeta, inTerm, same⟩ := h.held id
        show FromPast joint x.past ((x.saveDocMetaFiles how).metaOf notes id)
          ((x.saveDocMetaFiles how).termOf notes id) id
        rw [MetaFiles.metaOf] at inMeta ⊢
        rw [MetaFiles.termOf] at inTerm ⊢
        cases noted : lastNote notes id with
        | some n =>
          rw [noted] at inMeta inTerm
          exact ⟨s, hs, s', hs', inMeta, inTerm, same⟩
        | none =>
          rw [noted] at inMeta inTerm
          dsimp only at inMeta inTerm ⊢
          rw [saveDocMetaFiles]
          dsimp only
          by_cases first : 1 ≤ how.steps
          · rw [if_pos ⟨first, versions⟩]
            by_cases second : 2 ≤ how.steps
            · rw [if_pos ⟨second, terms⟩]
              exact ⟨x.st, h.now, x.st, h.now, rfl, rfl, fun _ => rfl⟩
            · rw [if_neg fun reached => second reached.1]
              exact ⟨x.st, h.now, s', hs', rfl, inTerm, fun j => absurd (by omega) (together j)⟩
          · rw [if_neg fun reached => first reached.1, if_neg fun reached => by omega]
            exact ⟨s, hs, s', hs', inMeta, inTerm, same⟩
    have text : (readToString (x.saveDocMetaFiles how).log).isSome = true := by
      rw [log]
      exact readable (by omega)
    obtain ⟨again, from_⟩ := kept.reopen text
    exact ⟨⟨notes, again⟩, fun _ => from_⟩

/-- Lines at the end of the log, as many as come through. -/
theorem Kept.extendLog (h : Kept J joint x notes) {order : List String}
    (moved : order.Perm x.dirty.toList) (reads : ∀ id ∈ order, J.Reads (x.st.noteOf id))
    (whole : wholeLines x.files.log = true)
    (live : ∀ id ∈ order, (x.st.metaOf id).version = 0 → (x.st.metaOf id).live = false) (n : Nat) :
    ∃ notes, Kept J joint (x.extendLog ((x.appended order).take n)) notes := by
  have known : ∀ n ∈ order.map x.st.noteOf, J.Reads n := by simpa using reads
  obtain ⟨m, logged⟩ := h.logged.append_take whole known n
  rw [← List.map_take] at logged
  have sub : ∀ id ∈ order.take m, id ∈ order := fun id hid => List.mem_of_mem_take hid
  refine ⟨_, logged, ?_, h.now, h.positive, fun id (still : x.dirty.contains id = false) => ?_,
    fun id => ?_⟩
  · intro n' hn'
    rcases List.mem_append.mp hn' with hn' | hn'
    · exact h.sound n' hn'
    · obtain ⟨id, hid, rfl⟩ := List.mem_map.mp hn'
      exact ⟨live id (sub id hid), h.positive x.st h.now id⟩
  · -- only what moved is written
    have out : id ∉ order.take m := by
      intro mem
      have dirty := moved.mem_iff.mp (sub id mem)
      rw [Std.ExtTreeSet.mem_toList, ← Std.ExtTreeSet.contains_iff_mem] at dirty
      rw [dirty] at still
      exact absurd still nofun
    rw [MetaFiles.metaOf_append rfl, MetaFiles.termOf_append rfl, if_neg out, if_neg out]
    exact h.clean id still
  · rw [MetaFiles.metaOf_append rfl, MetaFiles.termOf_append rfl]
    by_cases taken : id ∈ order.take m
    · rw [if_pos taken, if_pos taken]
      exact ⟨x.st, h.now, x.st, h.now, rfl, rfl, fun _ => rfl⟩
    · rw [if_neg taken, if_neg taken]
      exact h.held id

/-- An append, with the save it may ask for. -/
theorem Kept.appendDocMetaLog (h : Kept J joint x notes) {order : List String} {how : Appending}
    {saving : Saving} (meets : x.Meets J (.append order how saving))
    (fit : x.Fit (.append order how saving)) (together : joint → saving.steps ≠ 1) :
    Outcome J joint x (x.appendDocMetaLog J order how saving)
      (x.Reopens (.append order how saving)) := by
  obtain ⟨moved, reads⟩ := meets
  unfold MetaWork.appendDocMetaLog
  rw [Fit] at fit
  cases empty : x.dirty.isEmpty with
  | true =>
    refine ⟨⟨notes, complete_kept h.logged h.sound (h.positive x.st h.now) fun id => h.clean id ?_⟩, ?_⟩
    · rw [Std.ExtTreeSet.isEmpty_iff.mp empty]
      exact Std.ExtTreeSet.contains_empty
    · rintro ⟨filled, -⟩
      rw [empty] at filled
      exact absurd filled nofun
  | false =>
    rw [empty, if_neg Bool.false_ne_true] at fit
    rw [if_neg Bool.false_ne_true]
    by_cases long : docMetaLogMax < x.files.log.length
    · rw [if_pos long] at fit ⊢
      obtain ⟨kept, reopened⟩ := h.saveDocMeta fit together
      refine ⟨kept, fun reopens => reopened ?_⟩
      rw [Reopens, if_pos long] at reopens
      exact reopens.2
    · rw [if_neg long] at fit ⊢
      obtain ⟨whole, live, readable⟩ := fit
      cases how with
      | done =>
        have known : ∀ n ∈ order.map x.st.noteOf, J.Reads n := by simpa using reads
        refine ⟨⟨notes ++ order.map x.st.noteOf, complete_kept
          (h.logged.append_all whole known) ?_ (h.positive x.st h.now) fun id => ?_⟩, ?_⟩
        · intro n hn
          rcases List.mem_append.mp hn with hn | hn
          · exact h.sound n hn
          · obtain ⟨id, hid, rfl⟩ := List.mem_map.mp hn
            exact ⟨live id hid, h.positive x.st h.now id⟩
        · rw [MetaFiles.metaOf_append rfl, MetaFiles.termOf_append rfl]
          by_cases mem : id ∈ order
          · rw [if_pos mem, if_pos mem]
            exact ⟨rfl, rfl⟩
          · rw [if_neg mem, if_neg mem]
            refine h.clean id ?_
            rw [moved.mem_iff, Std.ExtTreeSet.mem_toList, ← Std.ExtTreeSet.contains_iff_mem] at mem
            exact Bool.eq_false_iff.mpr mem
        · rintro ⟨-, died⟩
          rw [if_neg long] at died
          exact absurd died (by simp)
      | failed n =>
        refine ⟨h.extendLog moved reads whole live n, ?_⟩
        rintro ⟨-, died⟩
        rw [if_neg long] at died
        exact absurd died (by simp)
      | died n =>
        obtain ⟨notes', kept⟩ := h.extendLog moved reads whole live n
        obtain ⟨again, from_⟩ := kept.reopen (readable n rfl)
        exact ⟨⟨notes', again⟩, fun _ => from_⟩

/-- One step. -/
theorem Kept.step (h : Kept J joint x notes) {e : MetaEvent} (meets : x.Meets J e) (fit : x.Fit e)
    (together : joint → e.parts = false) :
    Outcome J joint x (x.step S J e) (x.Reopens e) := by
  cases e with
  | change c => exact ⟨⟨notes, h.change c⟩, False.elim⟩
  | append order how saving =>
    exact h.appendDocMetaLog meets fit fun j => by simpa [MetaEvent.parts] using together j
  | save saving => exact h.saveDocMeta fit fun j => by simpa [MetaEvent.parts] using together j
  | restart =>
    obtain ⟨again, from_⟩ := h.reopen fit
    exact ⟨⟨notes, again⟩, fun _ => from_⟩

/-- A run, by induction. -/
theorem Kept.run (h : Kept J joint x notes) {events : List MetaEvent}
    (meets : Along S J (Meets J) x events) (fit : Along S J Fit x events)
    (together : joint → ∀ e ∈ events, e.parts = false) :
    ∃ notes, Kept J joint (MetaWork.run S J x events) notes := by
  induction events generalizing x notes with
  | nil => exact ⟨notes, h⟩
  | cons e events ih =>
    obtain ⟨⟨notes', kept⟩, -⟩ :=
      h.step (S := S) meets.1 fit.1 fun j => together j e List.mem_cons_self
    exact ih kept meets.2 fit.2 fun j e' he' => together j e' (List.mem_cons_of_mem _ he')

theorem along_concat {p : MetaWork → MetaEvent → Prop} {events : List MetaEvent} {e : MetaEvent}
    (h : Along S J p x (events ++ [e])) :
    Along S J p x events ∧ p (MetaWork.run S J x events) e := by
  induction events generalizing x with
  | nil => exact ⟨trivial, h.1⟩
  | cons e' events ih =>
    obtain ⟨before, last⟩ := ih h.2
    exact ⟨⟨h.1, before⟩, last⟩

/-- **Versions and terms survive a crash**: in every run of changes, appends, full writes and
restarts that meets the condition, an index that is opened again gives each document the
version and the liveness, and the term, it had at the last append or full write that
completed, or later ones; and all of one moment, unless a full write of the run died
between its two maps. -/
theorem versions_survive (S : Settings) (J : NoteJson V) (name : String) (events : List MetaEvent)
    (e : MetaEvent) (meets : Along S J (Meets J) (made name) (events ++ [e]))
    (fit : Along S J Fit (made name) (events ++ [e]))
    (reopens : (MetaWork.run S J (made name) events).Reopens e) (id : String) :
    let x := MetaWork.run S J (made name) events
    let y := x.step S J e
    ∃ s ∈ x.past, ∃ s' ∈ x.past, y.st.metaOf id = s.metaOf id ∧ y.st.termOf id = s'.termOf id ∧
      ((∀ e' ∈ events ++ [e], e'.parts = false) → s = s') := by
  intro x y
  obtain ⟨meetsBefore, meetsLast⟩ := along_concat meets
  obtain ⟨fitBefore, fitLast⟩ := along_concat fit
  obtain ⟨notes, kept⟩ := (made_kept J (∀ e' ∈ events ++ [e], e'.parts = false) name).run meetsBefore
    fitBefore fun together e' he' => together e' (List.mem_append_left _ he')
  exact (kept.step (S := S) meetsLast fitLast fun together => together e (by simp)).2 reopens id

/-! ## A document that is written twice -/

inductive NoteValue where
  | text (t : String)
  | number (n : Nat)
  | flag (b : Bool)
  | entry (n : Note)
deriving DecidableEq

def noteReader (known : List Note) : NoteJson NoteValue where
  fromStr text := (known.find? fun n => n.body = text).map .entry
  kind
    | .text t => .text t
    | .number n => .scalar (some n)
    | .flag _ => .scalar none
    | .entry _ => .container
  member
    | .entry n, name =>
      if name = "id" then some (.text n.id)
      else if name = "v" then some (.number n.version)
      else if name = "live" then some (.flag n.live)
      else if name = "t" then some (.number n.term)
      else none
    | _, _ => none
  depth
    | .entry _ => 1
    | _ => 0
  asBool
    | .flag b => some b
    | _ => none

theorem noteReader_reads {known : List Note} {n : Note}
    (whole : (noteReader known).fromStr n.body = some (.entry n))
    (cut : ∀ k < n.body.length, (noteReader known).fromStr (n.body.take k) = none) :
    (noteReader known).Reads n := by
  refine ⟨⟨_, whole, rfl, rfl, rfl, rfl⟩, fun text begins short => ?_⟩
  have eq := List.prefix_iff_eq_take.mp begins
  rw [eq]
  refine cut _ (lt_of_le_of_ne begins.length_le fun same => short ?_)
  rw [eq, same, List.take_length]

def twoNotes : List Note :=
  [{ id := "1", version := 2, live := true, term := 1 },
    { id := "1", version := 3, live := true, term := 1 }]

theorem twoNotes_read : ∀ n ∈ twoNotes, (noteReader twoNotes).Reads n := by
  have known : ∀ n ∈ twoNotes, (noteReader twoNotes).fromStr n.body = some (.entry n) ∧
      ∀ k < n.body.length, (noteReader twoNotes).fromStr (n.body.take k) = none := by
    decide +kernel
  exact fun n hn => noteReader_reads (known n hn).1 (known n hn).2

def plainSettings : Settings where
  shardOf := fun _ _ => 0
  idFingerprint := fun _ => 0
  routingRequired := false
  partitionSize := 1

def writtenTwice : List MetaEvent :=
  [.change (.bumpToSeq "1" true 2 none), .append ["1"] .done {},
    .change (.bumpToSeq "1" true 3 none)]

/-- The process dies in the middle of the second append, and the document is at version 2. -/
theorem versions_survive_cut :
    let x := MetaWork.run plainSettings (noteReader twoNotes) (made "idx") writtenTwice
    let y := x.step plainSettings (noteReader twoNotes) (.append ["1"] (.died 9) {})
    y.st.metaOf "1" = ⟨2, true⟩ ∧
      ∃ s ∈ x.past, ∃ s' ∈ x.past, y.st.metaOf "1" = s.metaOf "1" ∧
        y.st.termOf "1" = s'.termOf "1" ∧
        ((∀ e' ∈ writtenTwice ++ [.append ["1"] (.died 9) {}], e'.parts = false) → s = s') := by
  have first : (noteReader twoNotes).Reads { id := "1", version := 2, live := true, term := 1 } :=
    twoNotes_read _ (by decide)
  have second : (noteReader twoNotes).Reads { id := "1", version := 3, live := true, term := 1 } :=
    twoNotes_read _ (by decide)
  refine ⟨by decide +kernel, versions_survive plainSettings (noteReader twoNotes) "idx" writtenTwice
    (.append ["1"] (.died 9) {}) ⟨trivial, ⟨?_, ?_⟩, trivial, ⟨?_, ?_⟩, trivial⟩
    ⟨trivial, ?_, trivial, ?_, trivial⟩ ?_ "1"⟩
  · exact .of_eq (by decide +kernel)
  · intro id hid
    obtain rfl := List.mem_singleton.mp hid
    exact first
  · exact .of_eq (by decide +kernel)
  · intro id hid
    obtain rfl := List.mem_singleton.mp hid
    exact second
  · rw [Fit, if_neg (by decide +kernel), if_neg (by decide +kernel)]
    exact ⟨by decide +kernel, by decide +kernel, nofun⟩
  · rw [Fit, if_neg (by decide +kernel), if_neg (by decide +kernel)]
    refine ⟨by decide +kernel, by decide +kernel, fun n died => ?_⟩
    obtain rfl := Appending.died.inj died
    decide +kernel
  · refine ⟨by decide +kernel, ?_⟩
    rw [if_neg (by decide +kernel)]
    exact ⟨9, rfl⟩

def gluedAppend : List MetaEvent :=
  [.change (.bumpToSeq "1" true 2 none), .append ["1"] (.died 9) {},
    .change (.bumpToSeq "1" true 3 none), .append ["1"] .done {}]

theorem versions_fall_back :
    let x := MetaWork.run plainSettings (noteReader twoNotes) (made "idx") gluedAppend
    let y := x.step plainSettings (noteReader twoNotes) .restart
    Along plainSettings (noteReader twoNotes) (Meets (noteReader twoNotes)) (made "idx")
        (gluedAppend ++ [.restart]) ∧
      (∀ s ∈ x.past, s.metaOf "1" = ⟨3, true⟩) ∧ y.st.metaOf "1" = ⟨1, true⟩ := by
  refine ⟨⟨trivial, ⟨.of_eq (by decide +kernel), ?_⟩, trivial, ⟨.of_eq (by decide +kernel), ?_⟩,
    trivial, trivial⟩, by decide +kernel, by decide +kernel⟩
  · intro id hid
    obtain rfl := List.mem_singleton.mp hid
    exact twoNotes_read _ (by decide +kernel)
  · intro id hid
    obtain rfl := List.mem_singleton.mp hid
    exact twoNotes_read _ (by decide +kernel)

end MetaWork

end Velosearch.Index
