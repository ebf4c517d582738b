import Velosearch.Index.State
import Velosearch.Lib.Text

/-!
# Reading a translog that was cut short

`log_write` and `push_json_str` of `src/store/translog.rs` assemble a record by hand around
the source as it was sent; `recover` of `src/api/doc/mod.rs` reads the file whole, keeps
what stands before the first line it cannot read, and replays it line by line.

The JSON reader is `serde_json`'s, a parameter here (`Json`). What is asked of it is said
of one record at a time (`Reads`): an object is read member by member, and its members lie
one level deeper than they did on their own, of the 127 levels it follows.
-/

set_option autoImplicit false

namespace Velosearch.Index

open Velosearch.Text

/-- What a value is. -/
inductive JsonKind where
  | text (t : String)
  | container
  | scalar (n : Option Nat)
deriving DecidableEq

/-- A JSON reader and the values it reads. -/
structure Json (V : Type) where
  fromStr : List Char → Option V
  kind : V → JsonKind
  member : V → String → Option V
  depth : V → Nat

/-- A record as it is read back. -/
structure Replay (V : Type) where
  id : String
  version : Nat
  seq : Option Nat
  routing : Option String
  term : Nat
  source : Option V
deriving DecidableEq

/-- How deep a value may nest. -/
def nestingLimit : Nat := 127

namespace Json

variable {V : Type} (J : Json V)

/-- The text a value is. -/
def asStr (v : V) : Option String :=
  match J.kind v with
  | .text t => some t
  | _ => none

/-- The number it is. -/
def asU64 (v : V) : Option Nat :=
  match J.kind v with
  | .scalar n => n
  | _ => none

/-- The document a record holds. -/
def held (v : V) : Option V :=
  match J.kind v with
  | .text raw => J.fromStr raw.toList
  | .container => some v
  | .scalar _ => none

/-- A line read back. -/
def replay (line : List Char) : Option (Replay V) := do
  let entry ← J.fromStr line
  let id ← (J.member entry "id").bind J.asStr
  some {
    id
    version := ((J.member entry "version").bind J.asU64).getD 1
    seq := (J.member entry "seq").bind J.asU64
    routing := (J.member entry "routing").bind J.asStr
    term := ((J.member entry "term").bind J.asU64).getD 1
    source := (J.member entry "source").bind J.held }

/-- A line that was written to its end, or nothing. -/
def complete (chunk : List Char) : Bool :=
  chunk.getLast? == some '\n' && ((trim chunk).isEmpty || (J.fromStr (trim chunk)).isSome)

/-- `recover`, of one index: the writes it replays from the bytes it finds. -/
def recover (bytes : List UInt8) : List (Replay V) :=
  match readToString bytes with
  | none => []
  | some text =>
    let whole := ((splitInclusive text).takeWhile J.complete).flatten
    ((lines whole).filter fun line => !(trim line).isEmpty).filterMap J.replay

end Json

namespace LogRecord

/-- A record's line without its end. -/
def body (r : LogRecord) : List Char :=
  r.line.dropLast

/-- The bytes of a translog. -/
def file (records : List LogRecord) : List UInt8 :=
  encode (records.flatMap line)

/-- The records that lie wholly inside the first `n` bytes. -/
def inside : List LogRecord → Nat → List LogRecord
  | [], _ => []
  | r :: records, n =>
    if (encode r.line).length ≤ n then r :: inside records (n - (encode r.line).length) else []

/-- A record as a write to make again. -/
def written {V : Type} (J : Json V) (r : LogRecord) : Replay V :=
  { id := r.id, version := r.version, seq := some r.seq, routing := r.routing
    term := max 1 r.term, source := r.source.bind fun s => J.fromStr s.toList }

end LogRecord

/-- The reader on one record: the source is a line of JSON that was read before it was
written, the record is read with its members as they were put, unless the source is
nested too deep to be put anywhere, and no string spells itself. -/
structure Json.Reads {V : Type} (J : Json V) (r : LogRecord) : Prop where
  line : ∀ s ∈ r.source, '\n' ∉ s.toList
  document : ∀ s ∈ r.source, (J.fromStr s.toList).isSome
  null : r.source = none → ∃ w, J.fromStr "null".toList = some w ∧ J.kind w = .scalar none ∧
    J.depth w = 0
  shallow : ∀ w, J.fromStr (r.source.getD "null").toList = some w → J.depth w < nestingLimit →
    ∃ v, J.fromStr r.body = some v ∧ (J.member v "id").bind J.asStr = some r.id ∧
      (J.member v "routing").bind J.asStr = r.routing ∧
      (J.member v "version").bind J.asU64 = some r.version ∧
      (J.member v "seq").bind J.asU64 = some r.seq ∧
      (J.member v "term").bind J.asU64 = (if 1 < r.term then some r.term else none) ∧
      J.member v "source" = some w
  deep : ∀ w, J.fromStr (r.source.getD "null").toList = some w → nestingLimit ≤ J.depth w →
    J.fromStr r.body = none
  quoted : ∀ s ∈ r.source, ∀ w t, J.fromStr s.toList = some w → J.kind w = .text t →
    J.fromStr t.toList ≠ some w

/-! ## A record is one line -/

/-- No text of JSON has a newline in it. -/
theorem newline_not_mem_jsonStr (text : String) : '\n' ∉ jsonStr text := by
  have char : ∀ c, '\n' ∉ jsonChar c := by
    intro c
    have hex : ∀ n < 32, '\n' ∉ Nat.toDigits 16 n := by decide
    rw [jsonChar]
    split_ifs with quote slash backspace feed newline ret tab control low
    all_goals first | decide | skip
    · simpa using hex _ control
    · simpa using hex _ control
    · simpa using fun e => newline e.symm
  simp [jsonStr, char]

theorem newline_not_mem_toDigits (n : Nat) : '\n' ∉ Nat.toDigits 10 n := by
  intro h
  exact absurd (Nat.isDigit_of_mem_toDigits (by decide) (by decide) h) (by decide)

namespace LogRecord

variable {r : LogRecord}

/-- A record's line. -/
theorem line_eq (r : LogRecord) : ∃ middle, r.line = '\x7b' :: middle ++ ['\x7d'] ++ ['\n'] ∧
    ((∀ s ∈ r.source, '\n' ∉ s.toList) → '\n' ∉ middle) := by
  refine ⟨['"', 'i', 'd', '"', ':'] ++ jsonStr r.id ++
    (r.routing.elim [] fun routing => ",\"routing\":".toList ++ jsonStr routing) ++
    ",\"version\":".toList ++ Nat.toDigits 10 r.version ++
    ",\"seq\":".toList ++ Nat.toDigits 10 r.seq ++
    (if 1 < r.term then ",\"term\":".toList ++ Nat.toDigits 10 r.term else []) ++
    ",\"source\":".toList ++ (r.source.getD "null").toList, ?_, ?_⟩
  · have opening : "\x7b\"id\":".toList = ['\x7b', '"', 'i', 'd', '"', ':'] := rfl
    have closing : "\x7d\n".toList = ['\x7d', '\n'] := rfl
    unfold line
    -- the texts between are only in the way
    generalize "\x7b\"id\":".toList = front at opening ⊢
    generalize "\x7d\n".toList = back at closing ⊢
    generalize ",\"version\":".toList = version
    generalize ",\"seq\":".toList = seq
    generalize ",\"source\":".toList = source
    subst opening closing
    simp only [List.cons_append, List.append_assoc, List.nil_append]
    cases r.routing <;> rfl
  · intro source
    have routing : '\n' ∉ r.routing.elim []
        fun routing => ",\"routing\":".toList ++ jsonStr routing := by
      cases r.routing with
      | none => exact List.not_mem_nil
      | some routing =>
        rw [Option.elim_some, List.mem_append]
        exact not_or.mpr ⟨by decide, newline_not_mem_jsonStr _⟩
    have term : '\n' ∉ (if 1 < r.term then ",\"term\":".toList ++ Nat.toDigits 10 r.term else []) := by
      split
      · rw [List.mem_append]
        exact not_or.mpr ⟨by decide, newline_not_mem_toDigits _⟩
      · exact List.not_mem_nil
    have document : '\n' ∉ (r.source.getD "null").toList := by
      cases hs : r.source with
      | none => decide
      | some s => exact source s hs
    simp only [List.mem_append, not_or]
    exact ⟨⟨⟨⟨⟨⟨⟨⟨⟨by decide, newline_not_mem_jsonStr _⟩, routing⟩, by decide⟩,
      newline_not_mem_toDigits _⟩, by decide⟩, newline_not_mem_toDigits _⟩, term⟩, by decide⟩,
      document⟩

theorem line_body (r : LogRecord) : r.line = r.body ++ ['\n'] := by
  obtain ⟨middle, eq, -⟩ := r.line_eq
  rw [body, eq, List.dropLast_concat]

theorem body_eq (r : LogRecord) : ∃ middle, r.body = '\x7b' :: middle ++ ['\x7d'] := by
  obtain ⟨middle, eq, -⟩ := r.line_eq
  exact ⟨middle, by rw [body, eq, List.dropLast_concat]⟩

theorem newline_not_mem_body (source : ∀ s ∈ r.source, '\n' ∉ s.toList) : '\n' ∉ r.body := by
  obtain ⟨middle, eq, inner⟩ := r.line_eq
  rw [body, eq, List.dropLast_concat]
  simpa using inner source

theorem trim_body (r : LogRecord) : trim r.body = r.body := by
  obtain ⟨middle, eq⟩ := r.body_eq
  rw [eq]
  exact trim_bracketed (by decide) (by decide)

theorem trim_line (r : LogRecord) : trim r.line = r.body := by
  obtain ⟨middle, eq⟩ := r.body_eq
  rw [line_body, eq]
  exact Velosearch.Text.trim_line (by decide) (by decide)

theorem strip_line (r : LogRecord) : strip r.line = r.body := by
  obtain ⟨middle, eq⟩ := r.body_eq
  rw [line_body, eq]
  exact Velosearch.Text.strip_line (by decide)

theorem body_ne_nil (r : LogRecord) : r.body ≠ [] := by
  obtain ⟨middle, eq⟩ := r.body_eq
  rw [eq]
  simp

/-! ## What is read of a cut -/

theorem file_cons (r : LogRecord) (records : List LogRecord) :
    file (r :: records) = encode r.line ++ file records := by
  rw [file, List.flatMap_cons, encode_append]
  rfl

/-- **A cut that can be read** is the records inside it and the beginning of a line. -/
theorem readToString_take {records : List LogRecord} (bodies : ∀ r ∈ records, '\n' ∉ r.body)
    {n : Nat} {text : List Char} (h : readToString ((file records).take n) = some text) :
    ∃ tail, text = (inside records n).flatMap line ++ tail ∧ '\n' ∉ tail := by
  rw [readToString_eq_some_iff] at h
  induction records generalizing n text with
  | nil =>
    refine ⟨text, rfl, ?_⟩
    have empty : encode text ++ [] = encode [] := by
      rw [List.append_nil, ← h]
      simp [file, encode]
    simp [List.prefix_nil.mp (prefix_of_encode_append empty)]
  | cons r records ih =>
    rw [file_cons, List.take_append] at h
    rw [inside]
    split
    case isTrue fits =>
      rw [List.take_of_length_le fits] at h
      obtain ⟨rest, rfl⟩ := prefix_of_encode_append h
      rw [encode_append] at h
      obtain ⟨tail, rfl, clean⟩ :=
        ih (fun r' hr' => bodies r' (List.mem_cons_of_mem _ hr')) (List.append_cancel_left h)
      exact ⟨tail, by rw [List.flatMap_cons, List.append_assoc], clean⟩
    case isFalse cut =>
      have short : (file records).take (n - (encode r.line).length) = [] := by
        rw [Nat.sub_eq_zero_of_le (by omega), List.take_zero]
      rw [short, List.append_nil] at h
      refine ⟨text, rfl, ?_⟩
      have begins : text <+: r.line := by
        have whole := List.take_append_drop n (encode r.line)
        rw [h] at whole
        exact prefix_of_encode_append whole
      -- less than the line, so the newline is not in it
      rw [line_body, List.prefix_concat_iff] at begins
      rcases begins with whole | begins
      · have := congrArg List.length h
        rw [whole, ← line_body, List.length_take] at this
        omega
      · exact fun mem => bodies r List.mem_cons_self (begins.subset mem)

/-- The records within a front of the log. -/
theorem inside_subset {records : List LogRecord} {n : Nat} (h : r ∈ inside records n) :
    r ∈ records := by
  induction records generalizing n with
  | nil => exact h
  | cons r' records ih =>
    rw [inside] at h
    split at h
    · rcases List.mem_cons.mp h with rfl | h
      · exact List.mem_cons_self
      · exact List.mem_cons_of_mem _ (ih h)
    · exact absurd h List.not_mem_nil

/-- The lines of what is left of a log. -/
theorem splitInclusive_lines {records : List LogRecord} (bodies : ∀ r ∈ records, '\n' ∉ r.body)
    {tail : List Char} (clean : '\n' ∉ tail) :
    splitInclusive (records.flatMap line ++ tail) =
      records.map line ++ if tail = [] then [] else [tail] := by
  have line_eq : line = (· ++ ['\n']) ∘ body := funext line_body
  have single : ∀ b ∈ records.map body, '\n' ∉ b := by
    intro b hb
    obtain ⟨r, hr, rfl⟩ := List.mem_map.mp hb
    exact bodies r hr
  rw [line_eq, ← List.map_map, ← Text.splitInclusive_lines single clean, List.flatMap_map]
  rfl

theorem lines_records {records : List LogRecord} (bodies : ∀ r ∈ records, '\n' ∉ r.body) :
    lines (records.flatMap line) = records.map body := by
  have split := splitInclusive_lines bodies List.not_mem_nil
  rw [List.append_nil, if_pos rfl, List.append_nil] at split
  rw [lines, split, List.map_map]
  refine List.map_congr_left fun r _ => ?_
  rw [Function.comp_apply, strip_line]

end LogRecord

namespace Json

variable {V : Type} {J : Json V} {r : LogRecord}

/-- A record's line can be read. -/
def legible (J : Json V) (r : LogRecord) : Bool :=
  (J.fromStr r.body).isSome

/-- A record's line is taken for whole where it can be read. -/
theorem complete_line (J : Json V) (r : LogRecord) : J.complete r.line = J.legible r := by
  have filled : (LogRecord.body r).isEmpty = false := by
    simpa using r.body_ne_nil
  rw [complete, r.trim_line, filled, r.line_body]
  simp [legible]

/-- The front of one is not. -/
theorem complete_tail {tail : List Char} (clean : '\n' ∉ tail) : J.complete tail = false := by
  have open_ : (tail.getLast? == some '\n') = false := by
    rw [beq_eq_false_iff_ne]
    exact fun last => clean (List.mem_of_getLast? last)
  rw [complete, open_, Bool.false_and]

/-- What is replayed are the whole lines. -/
theorem takeWhile_lines (records : List LogRecord) {tail : List Char} (clean : '\n' ∉ tail) :
    (records.map LogRecord.line ++ if tail = [] then [] else [tail]).takeWhile J.complete =
      (records.takeWhile J.legible).map LogRecord.line := by
  induction records with
  | nil =>
    split
    · rfl
    · simp [complete_tail clean]
  | cons r records ih =>
    rw [List.map_cons, List.cons_append, List.takeWhile_cons, List.takeWhile_cons, complete_line, ih]
    split <;> rfl

/-- **What is replayed of a cut that can be read**: the records inside it, up to the first
one the reader does not take. -/
theorem recover_take (J : Json V) {records : List LogRecord} (bodies : ∀ r ∈ records, '\n' ∉ r.body)
    {n : Nat} (readable : (readToString ((LogRecord.file records).take n)).isSome) :
    J.recover ((LogRecord.file records).take n) =
      ((LogRecord.inside records n).takeWhile J.legible).filterMap fun r => J.replay r.body := by
  obtain ⟨text, read⟩ := Option.isSome_iff_exists.mp readable
  obtain ⟨tail, rfl, clean⟩ := LogRecord.readToString_take bodies read
  have within : ∀ r ∈ LogRecord.inside records n, '\n' ∉ r.body := fun r hr =>
    bodies r (LogRecord.inside_subset hr)
  have kept : ((LogRecord.inside records n).map LogRecord.line ++
      if tail = [] then [] else [tail]).takeWhile J.complete =
        ((LogRecord.inside records n).takeWhile J.legible).map LogRecord.line :=
    takeWhile_lines _ clean
  have taken : ∀ r ∈ (LogRecord.inside records n).takeWhile J.legible, '\n' ∉ r.body := fun r hr =>
    within r (List.takeWhile_subset _ hr)
  rw [recover, read]
  dsimp only
  rw [LogRecord.splitInclusive_lines within clean, kept, ← List.flatMap_def,
    LogRecord.lines_records taken, List.filter_eq_self.mpr, List.filterMap_map]
  · rfl
  · intro line hline
    obtain ⟨r, -, rfl⟩ := List.mem_map.mp hline
    rw [r.trim_body]
    simpa using r.body_ne_nil

theorem filterMap_takeWhile_iff {α β : Type} (p : α → Bool) (f : α → Option β) (g : α → β)
    (l : List α) :
    (l.takeWhile p).filterMap f = l.map g ↔ ∀ a ∈ l, p a = true ∧ f a = some (g a) := by
  induction l with
  | nil => simp
  | cons a l ih =>
    rw [List.takeWhile_cons, List.map_cons, List.forall_mem_cons]
    cases passes : p a with
    | false => simp
    | true =>
      cases given : f a with
      | none =>
        -- one element too few
        simp only [if_true, List.filterMap_cons, given, reduceCtorEq, and_false, false_and,
          iff_false]
        intro eq
        have few := congrArg List.length eq
        have most := List.length_filterMap_le f (l.takeWhile p)
        have shorter := (List.takeWhile_prefix p (l := l)).length_le
        simp only [List.length_cons, List.length_map] at few
        omega
      | some b => simp [given, ih]

/-- A record comes back where its source is JSON. -/
theorem Reads.replayed_iff (h : J.Reads r) :
    J.legible r = true ∧ J.replay r.body = some (r.written J) ↔
      ∀ s ∈ r.source, ∀ w, J.fromStr s.toList = some w →
        J.kind w = .container ∧ J.depth w < nestingLimit := by
  obtain ⟨w, source, kinds⟩ : ∃ w, J.fromStr (r.source.getD "null").toList = some w ∧
      (r.source = none → J.kind w = .scalar none ∧ J.depth w = 0) := by
    cases hs : r.source with
    | none =>
      obtain ⟨w, hw, kind, depth⟩ := h.null hs
      exact ⟨w, hw, fun _ => ⟨kind, depth⟩⟩
    | some s =>
      obtain ⟨w, hw⟩ := Option.isSome_iff_exists.mp (h.document s hs)
      exact ⟨w, hw, nofun⟩
  by_cases shallow : J.depth w < nestingLimit
  · obtain ⟨v, read, id, routing, version, seq, term, member⟩ := h.shallow w source shallow
    have legible : J.legible r = true := by rw [legible, read]; rfl
    have replay : J.replay r.body = some { r.written J with source := J.held w } := by
      have first : max 1 r.term = (if 1 < r.term then some r.term else none).getD 1 := by
        split
        · rw [Option.getD_some]
          omega
        · rw [Option.getD_none]
          omega
      simp only [replay, read, id, routing, version, seq, term, member, LogRecord.written, first,
        Option.bind_eq_bind, Option.bind_some, Option.getD_some]
    have same : J.replay r.body = some (r.written J) ↔
        J.held w = r.source.bind fun s => J.fromStr s.toList := by
      rw [replay, Option.some.injEq]
      constructor
      · intro eq
        exact congrArg Replay.source eq
      · intro eq
        rw [eq]
        rfl
    rw [legible, same]
    cases hs : r.source with
    | none =>
      rw [held, (kinds hs).1]
      simp
    | some s =>
      have source : J.fromStr s.toList = some w := by rwa [hs] at source
      rw [Option.bind_some, source]
      constructor
      · rintro ⟨-, holds⟩ s' hs' w' hw'
        obtain rfl := Option.some.inj hs'
        obtain rfl := Option.some.inj (source.symm.trans hw')
        refine ⟨?_, shallow⟩
        cases kind : J.kind w with
        | container => rfl
        | scalar n => simp [held, kind] at holds
        | text t =>
          rw [held, kind] at holds
          exact absurd holds (h.quoted s hs w t source kind)
      · intro good
        refine ⟨rfl, ?_⟩
        rw [held, (good s rfl w source).1]
  · have deep := h.deep w source (by omega)
    have illegible : J.legible r = false := by rw [legible, deep]; rfl
    simp only [illegible, Bool.false_eq_true, false_and, false_iff]
    intro good
    cases hs : r.source with
    | none =>
      rw [(kinds hs).2] at shallow
      exact shallow (by decide)
    | some s =>
      rw [hs] at source
      exact shallow (good s hs w source).2

/-- **Torn-tail recovery**: of a translog cut after any byte, recovery replays exactly the
records inside the cut, in order, if and only if the cut can be read as text, or holds no
record at all, and each document in it is an object or an array that can be nested one
level deeper. -/
theorem torn_tail_iff {V : Type} (J : Json V) (records : List LogRecord)
    (reads : ∀ r ∈ records, J.Reads r) (n : Nat) :
    J.recover ((LogRecord.file records).take n) =
        (LogRecord.inside records n).map (LogRecord.written J) ↔
      (LogRecord.inside records n = [] ∨
        (readToString ((LogRecord.file records).take n)).isSome = true) ∧
      ∀ r ∈ LogRecord.inside records n, ∀ s ∈ r.source, ∀ w, J.fromStr s.toList = some w →
        J.kind w = .container ∧ J.depth w < nestingLimit := by
  have bodies : ∀ r ∈ records, '\n' ∉ r.body := fun r hr =>
    LogRecord.newline_not_mem_body (reads r hr).line
  cases read : readToString ((LogRecord.file records).take n) with
  | none =>
    rw [recover, read]
    cases LogRecord.inside records n <;> simp
  | some text =>
    rw [recover_take J bodies (by rw [read]; rfl), filterMap_takeWhile_iff]
    simp only [Option.isSome_some, or_true, true_and]
    refine forall₂_congr fun r hr => ?_
    exact (reads r (LogRecord.inside_subset hr)).replayed_iff

/-! ## Two records -/

inductive Spelled where
  | text (t : String)
  | number (n : Nat)
  | null
  | empty
  | entry (r : LogRecord)
deriving DecidableEq

def reader (records : List LogRecord) : Json Spelled where
  fromStr text :=
    if text = "null".toList then some .null
    else if text = "\x7b\x7d".toList then some .empty
    else (records.find? fun r => r.body = text).map .entry
  kind
    | .text t => .text t
    | .number n => .scalar (some n)
    | .null => .scalar none
    | .empty => .container
    | .entry _ => .container
  member
    | .entry r, name =>
      if name = "id" then some (.text r.id)
      else if name = "routing" then r.routing.map .text
      else if name = "version" then some (.number r.version)
      else if name = "seq" then some (.number r.seq)
      else if name = "term" then (if 1 < r.term then some (.number r.term) else none)
      else if name = "source" then some (if r.source.isSome then .empty else .null)
      else none
    | _, _ => none
  depth
    | .entry _ => 2
    | .empty => 1
    | _ => 0

theorem reader_reads {records : List LogRecord} {r : LogRecord} (source : r.source = some "\x7b\x7d")
    (known : (reader records).fromStr r.body = some (.entry r)) : (reader records).Reads r := by
  have document : (reader records).fromStr "\x7b\x7d".toList = some .empty := rfl
  refine ⟨?_, ?_, ?_, ?_, ?_, ?_⟩
  · rw [source]
    simp
  · intro s hs
    rw [source] at hs
    obtain rfl := Option.some.inj hs
    rw [document]
    rfl
  · simp [source]
  · intro w hw _
    rw [source] at hw
    obtain rfl := Option.some.inj (document.symm.trans hw)
    refine ⟨_, known, rfl, ?_, rfl, rfl, ?_, ?_⟩
    · cases hr : r.routing <;> simp [reader, asStr, hr]
    · by_cases later : 1 < r.term <;> simp [reader, asU64, later]
    · simp [reader, source]
  · intro w hw deep
    rw [source] at hw
    obtain rfl := Option.some.inj (document.symm.trans hw)
    have level : (reader records).depth .empty = 1 := rfl
    rw [level] at deep
    exact absurd deep (by decide)
  · intro s hs w t hw kind
    rw [source] at hs
    obtain rfl := Option.some.inj hs
    obtain rfl := Option.some.inj (document.symm.trans hw)
    cases kind

def twoRecords : List LogRecord :=
  [{ id := "1", routing := none, version := 1, seq := 0, term := 1, source := some "\x7b\x7d" },
    { id := "é", routing := none, version := 1, seq := 1, term := 1, source := some "\x7b\x7d" }]

theorem twoRecords_read : ∀ r ∈ twoRecords, (reader twoRecords).Reads r := by
  have known : ∀ r ∈ twoRecords, r.source = some "\x7b\x7d" ∧
      (reader twoRecords).fromStr r.body = some (.entry r) := by decide +kernel
  exact fun r hr => reader_reads (known r hr).1 (known r hr).2

theorem torn_tail_ascii :
    (reader twoRecords).recover ((LogRecord.file twoRecords).take 48) =
      (LogRecord.inside twoRecords 48).map (LogRecord.written (reader twoRecords)) := by
  refine (torn_tail_iff (reader twoRecords) twoRecords twoRecords_read 48).mpr ⟨.inr ?_, ?_⟩
  · have read : readToString ((LogRecord.file twoRecords).take 48) =
        some ((twoRecords.flatMap LogRecord.line).take 48) :=
      readToString_eq_some_iff.mpr (by decide +kernel)
    rw [read]
    rfl
  · intro r hr s hs w hw
    have documents : ∀ r ∈ LogRecord.inside twoRecords 48, r.source = some "\x7b\x7d" := by
      decide +kernel
    rw [documents r hr] at hs
    obtain rfl := Option.some.inj hs
    have hw : some Spelled.empty = some w := hw
    obtain rfl := Option.some.inj hw
    exact ⟨rfl, by decide⟩

/-- Cut inside a character of the second record, the file is not text any more, and the
first record is not replayed either. -/
theorem torn_character_loses_all : (∀ r ∈ twoRecords, (reader twoRecords).Reads r) ∧
    (reader twoRecords).recover ((LogRecord.file twoRecords).take 51) ≠
      (LogRecord.inside twoRecords 51).map (LogRecord.written (reader twoRecords)) := by
  refine ⟨twoRecords_read, ?_⟩
  have unread : readToString ((LogRecord.file twoRecords).take 51) = none := by
    cases read : readToString ((LogRecord.file twoRecords).take 51) with
    | none => rfl
    | some text =>
      rw [readToString_eq_some_iff] at read
      have begins : text <+: twoRecords.flatMap LogRecord.line := by
        have whole := List.take_append_drop 51 (LogRecord.file twoRecords)
        rw [read] at whole
        exact prefix_of_encode_append whole
      -- no beginning of the text takes 51 bytes
      have never : ∀ k ≤ (twoRecords.flatMap LogRecord.line).length,
          (encode ((twoRecords.flatMap LogRecord.line).take k)).length ≠ 51 := by decide +kernel
      refine absurd ?_ (never text.length begins.length_le)
      rw [← List.prefix_iff_eq_take.mp begins, ← read]
      decide +kernel
  rw [recover, unread]
  decide +kernel

end Json

end Velosearch.Index
