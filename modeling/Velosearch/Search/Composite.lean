import Velosearch.Lib.Pages
import Velosearch.Lib.TopK
import Velosearch.Store.DateForms

/-!
# The pages of a composite

`run_composite_agg` and `composite_key_order` of `src/search/aggs/composite.rs`, from where the
buckets are there: they are sorted, those up to the marker are left out, and the page is cut off.
The marker for the next page is the last key as it is printed, with its dates in the format and the
zone of their source.
-/

set_option autoImplicit false

namespace Velosearch.Composite

open DateText (Run)
open DateText.Run

/-! ## Keys -/

/-- A name. -/
abbrev Name := List Char

/-- A value of a key. -/
inductive KeyValue where
  | null
  | int (n : ℤ)
  | float (q : ℚ)
  | text (s : List Char)
deriving DecidableEq

/-- A key: a value for each source. -/
abbrev Key := List (Name × KeyValue)

/-- `CompSource`, as far as the pages go by it. -/
structure CompSource where
  name : Name
  date : Bool
  format : Option (List Char)
  desc : Bool
  zoneMs : ℤ
  missingLast : Bool

/-- A bucket. -/
structure Bucket (R : Type) where
  key : Key
  rest : R

/-- `~1` is a slash in a pointer. -/
def slashes : List Char → List Char
  | '~' :: '1' :: s => '/' :: slashes s
  | c :: s => c :: slashes s
  | [] => []

/-- `~0` is a tilde in a pointer. -/
def tildes : List Char → List Char
  | '~' :: '0' :: s => '~' :: tildes s
  | c :: s => c :: tildes s
  | [] => []

/-- What stands in a bucket at the pointer `/key/` and a name. -/
def pointed (key : Key) (name : Name) : Option KeyValue :=
  match name.splitOn '/' with
  | [token] => key.lookup (tildes (slashes token))
  | _ => none

/-- `b["key"][name] = value` -/
def setValue (key : Key) (name : Name) (v : KeyValue) : Key :=
  if key.any fun x => x.1 = name then key.map fun x => if x.1 = name then (name, v) else x
  else key ++ [(name, v)]

/-! ## Order -/

/-- There is no value. -/
def missing : Option KeyValue → Bool
  | none => true
  | some .null => true
  | _ => false

/-- Missing values, first or last. -/
def missingOrder (source : CompSource) (x y : Bool) : Ordering :=
  match x, y with
  | true, false => if source.missingLast then .gt else .lt
  | false, true => if source.missingLast then .lt else .gt
  | _, _ => .eq

/-- Two values of one source, where `worth` is what a number is compared as. -/
def compareValues (worth : KeyValue → ℚ) : KeyValue → KeyValue → Ordering
  | .text m, .text n => compare m n
  | .text _, _ => .lt
  | _, .text _ => .gt
  | m, n => compare (worth m) (worth n)

/-- The order of a source. -/
def sourceOrder (worth : KeyValue → ℚ) (source : CompSource) (x y : Option KeyValue) : Ordering :=
  (missingOrder source (missing x) (missing y)).then
    (match x, y with
      | some m, some n =>
        if source.desc then (compareValues worth m n).swap else compareValues worth m n
      | _, _ => .eq)

/-- A value as a double. -/
def asF64 : KeyValue → ℚ
  | .int n => Search.F64.roundInt n
  | .float q => q
  | _ => 0

/-- The order of keys, source by source. -/
def compositeKeyOrder (sources : List CompSource) (a b : Key) : Ordering :=
  match sources with
  | [] => .eq
  | source :: rest =>
    (sourceOrder asF64 source (pointed a source.name) (pointed b source.name)).then
      (compositeKeyOrder rest a b)

/-! ## A page -/

section

variable (parseDatetime : List Char → Option OffsetDateTime) (nowUtc : OffsetDateTime)
  (sources : List CompSource) (size : ℕ) {R : Type}

/-- A date of the marker. -/
def readDate (source : CompSource) (text : List Char) : Run ℤ := do
  let d ← DateForm.canonicalDate parseDatetime nowUtc text
  let dt ← DateText.parseDateLenient parseDatetime nowUtc d
  pure (dt.unixTimestampNanos.tdiv 1000000 - source.zoneMs)

/-- The marker, with one of its dates read. -/
def readSource (after : Key) (source : CompSource) : Run Key :=
  if source.date then
    match after.lookup source.name with
    | some (.text text) => DateForm.orElse
        (do pure (setValue after source.name (.int (← readDate parseDatetime nowUtc source text))))
        (pure after)
    | _ => pure after
  else pure after

/-- The marker, read back. -/
def readMarker (after : Key) : Run Key :=
  sources.foldlM (readSource parseDatetime nowUtc) after

/-- The buckets in order. -/
def sorted (flat : List (Bucket R)) : List (Bucket R) :=
  Lib.sortBy (fun a b => compositeKeyOrder sources a.key b.key) flat

/-- A bucket behind the marker. -/
def comesAfter (marker : Key) (b : Bucket R) : Bool :=
  compositeKeyOrder sources b.key marker == .gt

/-- What `run_composite_agg` says to a request it does not look at: a page of buckets is held in
memory while it is built, so there is a ceiling on how big a page may be asked for. -/
def refusal : Option (String × String) :=
  if sources.isEmpty then
    some ("illegal_argument_exception", "Composite [sources] cannot be null or empty")
  else if 65536 < size then
    some ("too_many_buckets_exception",
      "Trying to create too many buckets. Must be less than or equal to: [65536] but was " ++
        s!"[{size}].")
  else none

/-- The page behind a marker, which is nothing where the request is refused. -/
def page (flat : List (Bucket R)) (after : Option Key) : Run (List (Bucket R)) := do
  if (refusal sources size).isSome then ofOption none
  else
    match after with
    | none => pure ((sorted sources flat).take size)
    | some after =>
      let marker ← readMarker parseDatetime nowUtc sources after
      pure (((sorted sources flat).filter (comesAfter sources marker)).take size)

/-- A value as the answer has it. -/
def writeSource (key : Key) (source : CompSource) : Key :=
  match source.format with
  | none => key
  | some pattern =>
    if source.date then
      match pointed key source.name with
      | some (.int ms) =>
        if -2 ^ 63 ≤ ms ∧ ms < 2 ^ 63 then
          match DateForm.formatMillisAt ms pattern source.zoneMs with
          | some text => setValue key source.name (.text text)
          | none => key
        else key
      | _ => key
    else key

/-- A key as the answer has it. -/
def written (key : Key) : Key := sources.foldl writeSource key

/-- The `after_key` of a page: where it ended. -/
def afterKey (buckets : List (Bucket R)) : Option Key :=
  buckets.getLast?.map fun b => written sources b.key

end

end Velosearch.Composite
