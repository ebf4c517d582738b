import Velosearch.Lib.Text
import Velosearch.Lib.Digits
import Mathlib.Data.List.Sort

/-!
# Dissect

`Dissect::compile` and `Dissect::parse` of `src/ingest/dissect.rs`: a pattern is literals between
holes, and a text is cut by them. The fields that come of it are compared with what the holes ask
for: a plain value, what is appended to it, and values named by other values.
-/

set_option autoImplicit false

namespace Velosearch.Ingest.Cutting

/-- A text. -/
abbrev Chars := List Char

/-- A key of a pattern, with what follows it. -/
structure Hole where
  name : Chars
  append : Option ℕ := none
  skip : Bool := false
  namedKey : Bool := false
  namedValue : Bool := false
  rightPad : Bool := false
  delimiter : Chars := []

/-! ## Patterns -/

/-- `parse::<usize>` -/
def parseUsize (text : Chars) : Option ℕ :=
  let ds := if text.head? = some '+' then text.tail else text
  if ds ≠ [] ∧ ds.all Char.isDigit ∧ Digits.number ds < 2 ^ 64 then some (Digits.number ds) else none

/-- A key's modifiers. -/
def readKey (hole : Hole) : Chars → Option Hole
  | '+' :: k =>
    match Text.find ['/'] k with
    | some (name, order) => (parseUsize order).map fun n => { hole with name, append := some n }
    | none => some { hole with name := k, append := some 0 }
  | '?' :: k => some { hole with name := k, skip := true }
  | '*' :: k => some { hole with name := k, namedKey := true }
  | '&' :: k => some { hole with name := k, namedValue := true }
  | key => some { hole with name := key, skip := key.isEmpty }

/-- A key, with its padding. -/
def readHole (key : Chars) : Option Hole :=
  if "->".toList <:+ key then readKey { name := [], rightPad := true } (key.take (key.length - 2))
  else readKey { name := [] } key

/-- The literal in front of the first hole, and the holes with the literals behind them. -/
def scan (rest : Chars) : Except String (Chars × List Hole) :=
  match _open : Text.find "%\x7b".toList rest with
  | none => .ok (rest, [])
  | some (literal, after) =>
    match _close : Text.find ['}'] after with
    | none => .error "the pattern has an unclosed key"
    | some (key, more) =>
      match readHole key with
      | none => .error "append order is not a number"
      | some hole => do
        let (delimiter, holes) ← scan more
        return (literal, { hole with delimiter } :: holes)
termination_by rest.length
decreasing_by
  have first := congrArg List.length (Text.find_eq _open)
  have second := congrArg List.length (Text.find_eq _close)
  simp only [List.length_append, List.length_cons, List.length_nil] at first second
  have marks : "%\x7b".toList.length = 2 := rfl
  omega

/-- A pattern that was read. -/
structure Dissect where
  prefix_ : Chars
  holes : List Hole
  appendSeparator : Chars
  pattern : Chars
  some_ : holes ≠ []
  apart : ∀ h ∈ holes.dropLast, h.delimiter ≠ []

/-- A pattern read, or why not. -/
def compile (pattern appendSeparator : Chars) : Except String Dissect :=
  let bad (reason : String) : Except String Dissect :=
    .error s!"Unable to parse pattern: {String.ofList pattern} Reason: {reason}"
  match scan pattern with
  | .error reason => bad reason
  | .ok (prefix_, holes) =>
    if some_ : holes ≠ [] then
      if apart : ∀ h ∈ holes.dropLast, h.delimiter ≠ [] then
        .ok { prefix_, holes, appendSeparator, pattern, some_, apart }
      else bad "the pattern has keys with no delimiter between them"
    else bad "the pattern has no keys"

/-! ## Cutting -/

/-- Padding is passed over. -/
def strip (d text : Chars) : Chars :=
  if d ≠ [] ∧ d <+: text then strip d (text.drop d.length) else text
termination_by text.length
decreasing_by
  rename_i here
  have full := List.length_pos_of_ne_nil here.1
  have le := here.2.length_le
  rw [List.length_drop]
  omega

/-- The value of a key, up to what follows it. -/
def cutHole (hole : Hole) (rest : Chars) : Option (Chars × Chars) :=
  if hole.delimiter = [] then some (rest, [])
  else (Text.find hole.delimiter rest).map fun parts =>
    (parts.1, if hole.rightPad then strip hole.delimiter parts.2 else parts.2)

/-- The values of the keys, one behind the other. -/
def cutHoles : List Hole → Chars → Option (List (Chars × Chars) × Chars)
  | [], rest => some ([], rest)
  | hole :: holes, rest => do
    let (value, rest) ← cutHole hole rest
    let (values, rest) ← cutHoles holes rest
    return (if hole.skip then values else (hole.name, value) :: values, rest)

/-! ## Fields -/

/-- What was collected so far. -/
structure Collected where
  out : List (Chars × Chars) := []
  appends : List (Chars × List (ℕ × Chars)) := []
  keys : List (Chars × Chars) := []
  named : List (Chars × Chars) := []

/-- A value to be appended to others. -/
def addPart (name : Chars) (part : ℕ × Chars) :
    List (Chars × List (ℕ × Chars)) → List (Chars × List (ℕ × Chars))
  | [] => [(name, [part])]
  | a :: appends =>
    if a.1 = name then (a.1, a.2 ++ [part]) :: appends else a :: addPart name part appends

/-- The value of one key. -/
def collect (c : Collected) (h : Hole × Chars × Chars) : Collected :=
  let (hole, name, value) := h
  match hole.append with
  | some order => { c with appends := addPart name (order, value) c.appends }
  | none =>
    if hole.namedKey then { c with keys := c.keys ++ [(name, value)] }
    else if hole.namedValue then { c with named := c.named ++ [(name, value)] }
    else { c with out := c.out ++ [(name, value)] }

/-- Values appended, in their order. -/
def joined (separator : Chars) (parts : List (ℕ × Chars)) : Chars :=
  separator.intercalate ((parts.mergeSort fun a b => decide (a.1 ≤ b.1)).map Prod.snd)

/-- The fields that were collected. -/
def fields (separator : Chars) (c : Collected) : List (Chars × Chars) :=
  c.out ++ c.appends.map (fun a => (a.1, joined separator a.2)) ++
    c.keys.filterMap fun k => (c.named.lookup k.1).map fun value => (k.2, value)

/-- A text taken apart, or why not. -/
def Dissect.parse (d : Dissect) (text : Chars) : Except String (List (Chars × Chars)) :=
  let miss : Except String (List (Chars × Chars)) :=
    .error (s!"Unable to find match for dissect pattern: {String.ofList d.pattern} " ++
      s!"against source: {String.ofList text}")
  if d.prefix_ <+: text then
    match cutHoles d.holes (text.drop d.prefix_.length) with
    | some (values, []) =>
      .ok (fields d.appendSeparator
        (((d.holes.filter (! ·.skip)).zip values).foldl collect {}))
    | _ => miss
  else miss

/-! ## What a cut is -/

/-- A text so many times. -/
def times (k : ℕ) (d : Chars) : Chars :=
  (List.replicate k d).flatten

/-- A text cut by holes: value and delimiter, one hole after another, and nothing left over. -/
inductive Cuts : List Hole → Chars → List Chars → Prop
  | done : Cuts [] [] []
  | rest {hole : Hole} {text : Chars} : hole.delimiter = [] → Cuts [hole] text [text]
  | hole {hole : Hole} {holes : List Hole} {value rest : Chars} {values : List Chars} {k : ℕ} :
    hole.delimiter ≠ [] → 1 ≤ k →
    (if hole.rightPad then ¬ hole.delimiter <+: rest else k = 1) →
    (∀ i < value.length, ¬ hole.delimiter <+: (value ++ times k hole.delimiter ++ rest).drop i) →
    Cuts holes rest values →
      Cuts (hole :: holes) (value ++ times k hole.delimiter ++ rest) (value :: values)

/-- The values that are kept. -/
def kept (holes : List Hole) (values : List Chars) : List (Hole × Chars) :=
  (holes.zip values).filter (! ·.1.skip)

theorem times_succ (k : ℕ) (d : Chars) : times (k + 1) d = d ++ times k d :=
  rfl

theorem strip_times {d rest : Chars} (stop : ¬ d <+: rest) (k : ℕ) :
    strip d (times k d ++ rest) = rest := by
  have full : d ≠ [] := fun none => stop (none ▸ List.nil_prefix)
  induction k with
  | zero => rw [times, List.replicate_zero, List.flatten_nil, List.nil_append, strip,
      if_neg fun both => stop both.2]
  | succ k ih =>
    rw [times_succ, List.append_assoc, strip, if_pos ⟨full, List.prefix_append _ _⟩, List.drop_left, ih]

/-- Padding is passed over, and no more. -/
theorem strip_spec {d : Chars} (full : d ≠ []) (text : Chars) :
    ∃ k, text = times k d ++ strip d text ∧ ¬ d <+: strip d text := by
  induction text using strip.induct d with
  | case1 text here ih =>
    obtain ⟨k, eq, stop⟩ := ih
    have whole : text = d ++ text.drop d.length := by
      obtain ⟨more, eq⟩ := here.2
      rw [← eq, List.drop_left]
    rw [strip, if_pos here]
    refine ⟨k + 1, ?_, stop⟩
    rw [times_succ, List.append_assoc, ← eq]
    exact whole
  | case2 text stop =>
    rw [strip, if_neg stop]
    exact ⟨0, rfl, fun here => stop ⟨full, here⟩⟩

/-- A value goes up to what follows its key, any number of times. -/
theorem cutHole_iff {hole : Hole} (full : hole.delimiter ≠ []) {text value rest : Chars} :
    cutHole hole text = some (value, rest) ↔
      ∃ k, 1 ≤ k ∧ text = value ++ times k hole.delimiter ++ rest ∧
        (if hole.rightPad then ¬ hole.delimiter <+: rest else k = 1) ∧
          ∀ i < value.length, ¬ hole.delimiter <+: text.drop i := by
  rw [cutHole, if_neg full, Option.map_eq_some_iff]
  constructor
  · rintro ⟨⟨front, after⟩, found, same⟩
    obtain ⟨eq, first⟩ := (Text.find_iff full).mp found
    cases pad : hole.rightPad with
    | false =>
      rw [pad] at same
      cases same
      refine ⟨1, Nat.le_refl 1, ?_, rfl, first⟩
      rw [eq, times, List.replicate_one, List.flatten_singleton]
      rfl
    | true =>
      rw [pad] at same
      cases same
      obtain ⟨k, whole, stop⟩ := strip_spec full after
      refine ⟨k + 1, Nat.succ_pos k, ?_, stop, first⟩
      show text = front ++ (hole.delimiter ++ times k hole.delimiter) ++ strip hole.delimiter after
      rw [List.append_assoc front, List.append_assoc hole.delimiter, ← whole, ← List.append_assoc]
      exact eq
  · rintro ⟨k, positive, eq, stop, first⟩
    obtain ⟨k, rfl⟩ : ∃ j, k = j + 1 := ⟨k - 1, by omega⟩
    refine ⟨(value, times k hole.delimiter ++ rest), (Text.find_iff full).mpr ⟨?_, first⟩, ?_⟩
    · rw [eq, times_succ, List.append_assoc value, List.append_assoc value, List.append_assoc _ _ rest]
    · cases pad : hole.rightPad with
      | false =>
        rw [pad] at stop
        obtain rfl : k = 0 := by simpa using stop
        rfl
      | true =>
        rw [pad] at stop
        dsimp only
        rw [if_pos rfl, strip_times stop]

theorem kept_cons (hole : Hole) (holes : List Hole) (value : Chars) (values : List Chars) :
    kept (hole :: holes) (value :: values) =
      if hole.skip then kept holes values else (hole, value) :: kept holes values := by
  rw [kept, List.zip_cons_cons, List.filter_cons]
  cases hole.skip <;> rfl

/-- The values by name. -/
def shown (kept : List (Hole × Chars)) : List (Chars × Chars) :=
  kept.map fun p => (p.1.name, p.2)

/-- **The holes cut a text** as it can be cut, and no other. -/
theorem cutHoles_iff {holes : List Hole} (apart : ∀ h ∈ holes.dropLast, h.delimiter ≠ [])
    {text : Chars} {named : List (Chars × Chars)} : cutHoles holes text = some (named, []) ↔
      ∃ values, Cuts holes text values ∧ named = shown (kept holes values) := by
  induction holes generalizing text named with
  | nil =>
    constructor
    · intro h
      cases h
      exact ⟨[], .done, rfl⟩
    · rintro ⟨values, cuts, rfl⟩
      cases cuts
      rfl
  | cons hole holes ih =>
    have step : ∀ value values, (if hole.skip then shown (kept holes values) else
        (hole.name, value) :: shown (kept holes values)) =
          shown (kept (hole :: holes) (value :: values)) := by
      intro value values
      rw [kept_cons]
      cases hole.skip <;> rfl
    by_cases full : hole.delimiter = []
    · obtain rfl : holes = [] := by
        cases holes with
        | nil => rfl
        | cons next holes => exact absurd full (apart hole List.mem_cons_self)
      have cut : cutHoles [hole] text = some (shown (kept [hole] [text]), []) := by
        rw [← step text []]
        show (cutHole hole text).bind _ = _
        rw [cutHole, if_pos full]
        rfl
      rw [cut]
      constructor
      · intro h
        cases h
        exact ⟨[text], .rest full, rfl⟩
      · rintro ⟨values, cuts, rfl⟩
        cases cuts with
        | rest => rfl
        | hole other => exact absurd full other
    · have tail := fun {text named} => @ih (fun h mem => apart h (by
        cases holes with
        | nil => cases mem
        | cons next holes => exact List.mem_cons_of_mem _ mem)) text named
      constructor
      · intro h
        obtain ⟨⟨value, rest⟩, one, h⟩ := Option.bind_eq_some_iff.mp h
        obtain ⟨⟨values', rest'⟩, more, h⟩ := Option.bind_eq_some_iff.mp h
        cases h
        obtain ⟨values, cuts, rfl⟩ := tail.mp more
        obtain ⟨k, positive, rfl, stop, first⟩ := (cutHole_iff full).mp one
        exact ⟨value :: values, .hole full positive stop first cuts, step value values⟩
      · rintro ⟨values, cuts, rfl⟩
        cases cuts with
        | rest none => exact absurd none full
        | @hole _ _ value rest values k _ positive stop first cuts =>
          have one := (cutHole_iff full).mpr ⟨k, positive, rfl, stop, first⟩
          have more := tail.mpr ⟨values, cuts, rfl⟩
          show (cutHole hole _).bind _ = _
          rw [one]
          show (cutHoles holes rest).bind _ = _
          rw [more, ← step value values]
          rfl

/-! ## What the fields are -/

/-- Fields set one after another. -/
def held : List (Chars × Chars) → Chars → Option Chars
  | [], _ => none
  | f :: fs, n => (held fs n).or (if f.1 = n then some f.2 else none)

/-- A field of its own. -/
def plainField (p : Hole × Chars) : Option (Chars × Chars) :=
  if p.1.append = none ∧ p.1.namedKey = false ∧ p.1.namedValue = false then some (p.1.name, p.2)
  else none

/-- A name for another field. -/
def keyField (p : Hole × Chars) : Option (Chars × Chars) :=
  if p.1.append = none ∧ p.1.namedKey = true then some (p.1.name, p.2) else none

/-- A field that is named by another. -/
def valueField (p : Hole × Chars) : Option (Chars × Chars) :=
  if p.1.append = none ∧ p.1.namedKey = false ∧ p.1.namedValue = true then some (p.1.name, p.2)
  else none

/-- The values to append under a name. -/
def partsOf (n : Chars) (ps : List (Hole × Chars)) : List (ℕ × Chars) :=
  ps.filterMap fun p => if p.1.name = n then p.1.append.map fun order => (order, p.2) else none

/-- The fields that are named by others. -/
def pointed (ps : List (Hole × Chars)) : List (Chars × Chars) :=
  (ps.filterMap keyField).filterMap fun k =>
    ((ps.filterMap valueField).lookup k.1).map fun value => (k.2, value)

/-- What the holes ask a field to be: what a value names it to be; else its plain value and, behind
it, what is appended. -/
def meant (separator : Chars) (ps : List (Hole × Chars)) (n : Chars) : Option Chars :=
  (held (pointed ps) n).or <|
    match (held (ps.filterMap plainField) n).toList ++
        ((partsOf n ps).mergeSort fun a b => decide (a.1 ≤ b.1)).map Prod.snd with
    | [] => none
    | parts => some (separator.intercalate parts)

theorem held_append (fs gs : List (Chars × Chars)) (n : Chars) :
    held (fs ++ gs) n = (held gs n).or (held fs n) := by
  induction fs with
  | nil => exact Option.or_none.symm
  | cons f fs ih => rw [List.cons_append, held, ih, held, Option.or_assoc]

theorem held_eq_none {fs : List (Chars × Chars)} {n : Chars} (absent : n ∉ fs.map Prod.fst) :
    held fs n = none := by
  induction fs with
  | nil => rfl
  | cons f fs ih =>
    rw [List.map_cons, List.mem_cons, not_or] at absent
    rw [held, ih absent.2, if_neg fun same => absent.1 same.symm]
    rfl

/-! ## What is collected -/

/-- Adding a part adds its name, once. -/
theorem keys_addPart (name : Chars) (part : ℕ × Chars) (as : List (Chars × List (ℕ × Chars))) :
    (addPart name part as).map Prod.fst =
      if name ∈ as.map Prod.fst then as.map Prod.fst else as.map Prod.fst ++ [name] := by
  induction as with
  | nil => rfl
  | cons a as ih =>
    rw [addPart]
    by_cases here : a.1 = name
    · rw [if_pos here, if_pos (by simp [here])]
      rfl
    · rw [if_neg here, List.map_cons, ih]
      have other : name ≠ a.1 := fun same => here same.symm
      by_cases later : name ∈ as.map Prod.fst
      · rw [if_pos later, List.map_cons, if_pos (List.mem_cons_of_mem _ later)]
      · rw [if_neg later, List.map_cons, if_neg (by rw [List.mem_cons, not_or]; exact ⟨other, later⟩)]
        rfl

theorem lookup_addPart (name n : Chars) (part : ℕ × Chars)
    (as : List (Chars × List (ℕ × Chars))) : (addPart name part as).lookup n =
      if name = n then some ((as.lookup n).getD [] ++ [part]) else as.lookup n := by
  induction as with
  | nil =>
    rw [addPart, List.lookup_cons]
    by_cases same : name = n
    · subst same
      simp
    · rw [if_neg same, show (n == name) = false from beq_false_of_ne (Ne.symm same)]
  | cons a as ih =>
    rw [addPart]
    by_cases here : a.1 = name
    · subst here
      rw [if_pos rfl, List.lookup_cons, List.lookup_cons]
      by_cases same : a.1 = n
      · simp [same]
      · rw [if_neg same, show (n == a.1) = false from beq_false_of_ne (Ne.symm same)]
    · rw [if_neg here, List.lookup_cons, List.lookup_cons, ih]
      by_cases same : a.1 = n
      · rw [if_neg fun eq => here (same.trans eq.symm),
          show (n == a.1) = true from beq_iff_eq.mpr same.symm]
        exact (if_neg fun eq => here (same.trans eq.symm)).symm
      · rw [show (n == a.1) = false from beq_false_of_ne (Ne.symm same)]

/-- What collecting the values comes to. -/
structure Gathered (ps : List (Hole × Chars)) (c : Collected) : Prop where
  out : c.out = ps.filterMap plainField
  keys : c.keys = ps.filterMap keyField
  named : c.named = ps.filterMap valueField
  distinct : (c.appends.map Prod.fst).Nodup
  appends : ∀ n, c.appends.lookup n = if partsOf n ps = [] then none else some (partsOf n ps)

theorem partsOf_snoc (n : Chars) (ps : List (Hole × Chars)) (p : Hole × Chars) :
    partsOf n (ps ++ [p]) = partsOf n ps ++
      (if p.1.name = n then p.1.append.map fun order => (order, p.2) else none).toList := by
  rw [partsOf, List.filterMap_append, List.filterMap_cons, List.filterMap_nil]
  cases (if p.1.name = n then p.1.append.map fun order => (order, p.2) else none) <;> rfl

/-- One value more. -/
theorem Gathered.step {ps : List (Hole × Chars)} {c : Collected} (h : Gathered ps c)
    (p : Hole × Chars) : Gathered (ps ++ [p]) (collect c (p.1, p.1.name, p.2)) := by
  obtain ⟨hole, value⟩ := p
  obtain ⟨out, keys, named, distinct, appends⟩ := h
  have snoc : ∀ f : Hole × Chars → Option (Chars × Chars),
      (ps ++ [(hole, value)]).filterMap f = ps.filterMap f ++ (f (hole, value)).toList := by
    intro f
    rw [List.filterMap_append, List.filterMap_cons, List.filterMap_nil]
    cases f (hole, value) <;> rfl
  cases order : hole.append with
  | some k =>
    refine ⟨by simp [collect, snoc, plainField, order, out],
      by simp [collect, snoc, keyField, order, keys],
      by simp [collect, snoc, valueField, order, named], ?_, fun n => ?_⟩ <;>
      simp only [collect, order]
    · rw [keys_addPart]
      split
      · exact distinct
      case isFalse absent =>
        exact List.nodup_append.mpr ⟨distinct, List.nodup_singleton _, fun a mem b here => by
          rw [List.mem_singleton.mp here]
          rintro rfl
          exact absent mem⟩
    · rw [lookup_addPart, appends n, partsOf_snoc]
      by_cases name : hole.name = n
      · rw [if_pos name, if_pos name, order]
        by_cases none : partsOf n ps = []
        · simp [none]
        · simp [none]
      · rw [if_neg name, if_neg name]
        simp
  | none =>
    have parts : ∀ n, partsOf n (ps ++ [(hole, value)]) = partsOf n ps := by
      intro n
      rw [partsOf_snoc, order]
      simp
    cases key : hole.namedKey <;> cases val : hole.namedValue <;>
      exact ⟨by simp [collect, snoc, plainField, order, key, val, out],
        by simp [collect, snoc, keyField, order, key, val, keys],
        by simp [collect, snoc, valueField, order, key, val, named],
        by simpa [collect, order, key, val] using distinct,
        by simpa [collect, order, key, val, parts] using appends⟩

/-- The values collected. -/
def gather (ps : List (Hole × Chars)) : Collected :=
  (ps.map fun p => (p.1, p.1.name, p.2)).foldl collect {}

/-- Values are gathered as they should be, by induction. -/
theorem gathered (ps : List (Hole × Chars)) : Gathered ps (gather ps) := by
  induction ps using List.reverseRecOn with
  | nil => exact ⟨rfl, rfl, rfl, List.nodup_nil, fun _ => rfl⟩
  | append_singleton ps p ih =>
    rw [gather, List.map_append, List.foldl_append]
    exact ih.step p

/-- Parts are joined under their name. -/
theorem held_joined {as : List (Chars × List (ℕ × Chars))} (distinct : (as.map Prod.fst).Nodup)
    (separator n : Chars) : held (as.map fun a => (a.1, joined separator a.2)) n =
      (as.lookup n).map (joined separator) := by
  induction as with
  | nil => rfl
  | cons a as ih =>
    obtain ⟨absent, distinct⟩ := List.nodup_cons.mp distinct
    rw [List.map_cons, held, List.lookup_cons]
    by_cases same : a.1 = n
    · subst same
      rw [held_eq_none (by simpa [Function.comp_def] using absent)]
      simp
    · rw [ih distinct, if_neg same, Option.or_none,
        show (n == a.1) = false from beq_false_of_ne (Ne.symm same)]

/-- What a field holds: one pointed to, or the parts, or the plain one. -/
theorem held_fields (separator : Chars) (ps : List (Hole × Chars)) (n : Chars) :
    held (fields separator (gather ps)) n = (held (pointed ps) n).or
      ((if partsOf n ps = [] then none else some (joined separator (partsOf n ps))).or
        (held (ps.filterMap plainField) n)) := by
  obtain ⟨out, keys, named, distinct, appends⟩ := gathered ps
  rw [fields, held_append, held_append, held_joined distinct, out, keys, named, appends n, ← pointed]
  split <;> rfl

/-- No field has a plain value and something appended to it that a value does not name as well,
unless the plain value and the separator are empty. -/
def Single (separator : Chars) (ps : List (Hole × Chars)) : Prop :=
  ∀ n v, held (pointed ps) n = none → held (ps.filterMap plainField) n = some v →
    partsOf n ps ≠ [] → v = [] ∧ separator = []

/-- Every field is as it should be where none is made in two ways. -/
theorem fields_meant_iff (separator : Chars) (ps : List (Hole × Chars)) :
    (∀ n, held (fields separator (gather ps)) n = meant separator ps n) ↔ Single separator ps := by
  refine forall_congr' fun n => ?_
  rw [held_fields, meant]
  have sorted := List.mergeSort_perm (partsOf n ps) fun a b => decide (a.1 ≤ b.1)
  unfold joined
  generalize (partsOf n ps).mergeSort _ = parts at sorted ⊢
  have empty : partsOf n ps = [] ↔ parts = [] := by
    rw [← List.length_eq_zero_iff, ← sorted.length_eq, List.length_eq_zero_iff]
  rw [empty.ne]
  cases held (pointed ps) n with
  | some w => simp
  | none =>
    cases held (ps.filterMap plainField) n with
    | none => cases parts <;> simp [empty]
    | some v =>
      cases parts with
      | nil => simp [empty]
      | cons part parts =>
        rw [if_neg (by simp [empty])]
        show some _ = some (separator.intercalate (v :: (part :: parts).map Prod.snd)) ↔ _
        rw [Option.some_inj, List.map_cons, List.intercalate_cons_cons]
        constructor
        · rintro eq w - same -
          cases same
          have length := congrArg List.length eq
          rw [List.length_append, List.length_append] at length
          exact ⟨List.length_eq_zero_iff.mp (by omega), List.length_eq_zero_iff.mp (by omega)⟩
        · intro single
          obtain ⟨rfl, rfl⟩ := single v rfl rfl (List.cons_ne_nil _ _)
          rfl

/-! ## The processor -/

theorem zip_shown {holes : List Hole} {text : Chars} {values : List Chars}
    (cuts : Cuts holes text values) :
    (holes.filter (! ·.skip)).zip (shown (kept holes values)) =
      (kept holes values).map fun p => (p.1, p.1.name, p.2) := by
  have one : ∀ (hole : Hole) (holes : List Hole) (value : Chars) (values : List Chars),
      (holes.filter (! ·.skip)).zip (shown (kept holes values)) =
        (kept holes values).map (fun p => (p.1, p.1.name, p.2)) →
      ((hole :: holes).filter (! ·.skip)).zip (shown (kept (hole :: holes) (value :: values))) =
        (kept (hole :: holes) (value :: values)).map fun p => (p.1, p.1.name, p.2) := by
    intro hole holes value values same
    rw [kept_cons, List.filter_cons]
    cases hole.skip with
    | true => exact same
    | false => exact congrArg (_ :: ·) same
  induction cuts with
  | done => rfl
  | rest => exact one _ _ _ _ rfl
  | hole _ _ _ _ _ ih => exact one _ _ _ _ ih

/-- A text that can be cut is taken apart. -/
theorem parse_of_cuts {d : Dissect} {rest : Chars} {values : List Chars}
    (cuts : Cuts d.holes rest values) : d.parse (d.prefix_ ++ rest) =
      .ok (fields d.appendSeparator (gather (kept d.holes values))) := by
  rw [Dissect.parse, if_pos (List.prefix_append _ _), List.drop_left,
    (cutHoles_iff d.apart).mpr ⟨values, cuts, rfl⟩]
  dsimp only
  rw [zip_shown cuts, ← gather]

/-- And one that is taken apart can be cut. -/
theorem cuts_of_parse {d : Dissect} {text : Chars} {out : List (Chars × Chars)}
    (ok : d.parse text = .ok out) :
    ∃ rest values, text = d.prefix_ ++ rest ∧ Cuts d.holes rest values := by
  rw [Dissect.parse] at ok
  split at ok
  case isTrue here =>
    obtain ⟨rest, rfl⟩ := here
    rw [List.drop_left] at ok
    split at ok
    case h_1 named cut =>
      obtain ⟨values, cuts, -⟩ := (cutHoles_iff d.apart).mp cut
      exact ⟨rest, values, rfl, cuts⟩
    · cases ok
  · cases ok

/-- A text is cut when it can be, and the fields are what the holes ask for. -/
def Dissect.Right (d : Dissect) (text : Chars) : Prop :=
  ((∃ out, d.parse text = .ok out) ↔
    ∃ rest values, text = d.prefix_ ++ rest ∧ Cuts d.holes rest values) ∧
    ∀ out rest values, d.parse text = .ok out → text = d.prefix_ ++ rest →
      Cuts d.holes rest values →
        ∀ n, held out n = meant d.appendSeparator (kept d.holes values) n

/-- **Dissect is right** exactly where nothing is appended to a field that has a plain value. -/
theorem Dissect.right_iff (d : Dissect) (text : Chars) :
    d.Right text ↔ ∀ rest values, text = d.prefix_ ++ rest → Cuts d.holes rest values →
      Single d.appendSeparator (kept d.holes values) := by
  have cut : (∃ out, d.parse text = .ok out) ↔
      ∃ rest values, text = d.prefix_ ++ rest ∧ Cuts d.holes rest values := by
    constructor
    · rintro ⟨out, ok⟩
      exact cuts_of_parse ok
    · rintro ⟨rest, values, rfl, cuts⟩
      exact ⟨_, parse_of_cuts cuts⟩
  refine (and_iff_right cut).trans ⟨?_, ?_⟩
  · rintro right rest values rfl cuts
    exact (fields_meant_iff _ _).mp (right _ rest values (parse_of_cuts cuts) rfl cuts)
  · rintro single out rest values ok rfl cuts
    cases (parse_of_cuts cuts).symm.trans ok
    exact (fields_meant_iff _ _).mpr (single rest values rfl cuts)

def appended : Dissect :=
  { prefix_ := [], appendSeparator := [' '], pattern := "%\x7ba\x7d %\x7b+a\x7d".toList
    holes := [{ name := ['a'], delimiter := [' '] }, { name := ['a'], append := some 0 }]
    some_ := List.cons_ne_nil _ _
    apart := fun h mem => by
      rw [List.mem_singleton.mp mem]
      exact List.cons_ne_nil _ _ }

theorem compile_appended : compile "%\x7ba\x7d %\x7b+a\x7d".toList [' '] = .ok appended := by
  have last : scan [] = .ok ([], []) := by
    rw [scan]
    rfl
  have second : scan [' ', '%', '{', '+', 'a', '}'] =
      .ok ([' '], [{ name := ['a'], append := some 0 }]) := by
    rw [scan]
    show (do let (delimiter, holes) ← scan []; _) = _
    rw [last]
    rfl
  have first : scan ['%', '{', 'a', '}', ' ', '%', '{', '+', 'a', '}'] =
      .ok ([], appended.holes) := by
    rw [scan]
    show (do let (delimiter, holes) ← scan [' ', '%', '{', '+', 'a', '}']; _) = _
    rw [second]
    rfl
  have letters : "%\x7ba\x7d %\x7b+a\x7d".toList = ['%', '{', 'a', '}', ' ', '%', '{', '+', 'a', '}'] := rfl
  rw [compile, letters, first]
  rfl

theorem plain_value_overwritten :
    compile "%\x7ba\x7d %\x7b+a\x7d".toList [' '] = .ok appended ∧ ¬ appended.Right "x y".toList := by
  refine ⟨compile_appended, fun right => ?_⟩
  have cuts : Cuts appended.holes "x y".toList [['x'], ['y']] :=
    @Cuts.hole _ _ ['x'] ['y'] _ 1 (List.cons_ne_nil _ _) (Nat.le_refl 1) rfl (by decide) (.rest rfl)
  have single := (fields_meant_iff _ _).mp
    (right.2 _ _ _ (parse_of_cuts cuts) rfl cuts)
  exact absurd (single ['a'] ['x'] rfl rfl (by decide)).1 (List.cons_ne_nil _ _)

end Velosearch.Ingest.Cutting
