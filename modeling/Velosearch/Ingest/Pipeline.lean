import Mathlib.Logic.Function.Basic
import Mathlib.Data.List.Basic
import Mathlib.Data.Nat.Notation

/-!
# Ingest pipelines

`run_pipeline`, `run_processors` and `processors::run`: a document goes through the processors of
a pipeline, a processor may run another pipeline or a processor over each of the items of a
field, and a failure is ignored, handled by the processor's own `on_failure` list or by the
pipeline's. What the other processors do is a parameter; it may differ from one moment to the
next. Kept beside the code's own state are a log of the run, and for each document what was done
to its notes.
-/

set_option autoImplicit false

namespace Velosearch.Ingest

/-! ## Documents and failures -/

/-- An error of a processor. -/
structure IngestError where
  kind : String
  reason : String
  processorType : Option String := none
  processorTag : Option String := none
  pipeline : Option String := none
  nested : Bool := false
deriving DecidableEq

/-- A document as a pipeline sees it: its metadata and source, and the `_ingest` section. -/
structure IngestDoc (B V : Type) where
  body : B
  ingest : String → Option V

namespace IngestDoc

variable {B V : Type}

/-- A note in the document's metadata. -/
def insert (d : IngestDoc B V) (k : String) (v : V) : IngestDoc B V :=
  { d with ingest := Function.update d.ingest k (some v) }

/-- A note taken out. -/
def remove (d : IngestDoc B V) (k : String) : IngestDoc B V :=
  { d with ingest := Function.update d.ingest k none }

/-- What `Some(o) => insert, None => remove` makes of a key. -/
def restore (d : IngestDoc B V) (k : String) (outer : Option V) : IngestDoc B V :=
  match outer with
  | some o => d.insert k o
  | none => d.remove k

end IngestDoc

/-- The notes of a failure. -/
def noteKeys : List String :=
  ["on_failure_message", "on_failure_processor_type", "on_failure_processor_tag",
    "on_failure_pipeline"]

/-! ## Pipelines -/

/-- A processor as it is written. -/
structure Written (C : Type) where
  kind : String
  config : C
  tag : Option String := none
  condition : Option C := none
  ignoreFailure : Bool := false

/-- A processor with its `on_failure` list, and what a `foreach` runs over each item. -/
inductive ProcessorSpec (C : Type) where
  | mk (own : Written C) (onFailure processor : List (ProcessorSpec C))

/-- A pipeline. -/
structure Pipeline (C : Type) where
  name : String
  processors : List (ProcessorSpec C)
  onFailure : List (ProcessorSpec C) := []

/-- How deep pipelines may call each other. -/
def mostNestedPipelines : ℕ := 50

/-- What the code asks of the rest of the engine. -/
structure Engine (B V C : Type) where
  text : String → V
  null : V
  asStr : V → Option String
  conditionHolds : ℕ → C → IngestDoc B V → Except IngestError Bool
  ignoreMissing : C → Except IngestError Bool
  act : ℕ → String → C → Bool → IngestDoc B V → Except IngestError (Option (IngestDoc B V))
  /-- The name a `pipeline` processor renders, and whether that pipeline may be missing. -/
  named : ℕ → C → IngestDoc B V → Except IngestError (String × Bool)
  stored : ℕ → String → Option (Except IngestError (Pipeline C))
  /-- The items of the field a `foreach` goes over, if there is something to go over. -/
  items : ℕ → C → Bool → IngestDoc B V → Except IngestError (Option (List (Option String × V)))
  rebuild : ℕ → C → List V → List (String × V) → IngestDoc B V →
    Except IngestError (IngestDoc B V)

/-! ## What is kept of a run -/

/-- What was done to a document's notes: a failure noted or cleared, or whatever a processor that
runs no other did. -/
inductive Mark (B V : Type) where
  | noted
  | cleared
  | acted (before after : IngestDoc B V)

/-- A document on its way, with where it has been. -/
structure Carried (B V : Type) where
  doc : IngestDoc B V
  trail : List (Mark B V) := []

/-- What becomes of an error. -/
inductive Route
  | ignored
  | own
  | pipelines
deriving DecidableEq

/-- What happens to a document. -/
inductive Event (B V : Type) where
  | entered (stack : List String)
  | began (doc : IngestDoc B V)
  | failed (turn : ℕ) (e : IngestError)
  | goesOn (how : Route) (doc : IngestDoc B V)

/-- The pipelines that run, and the log. -/
structure St (B V : Type) where
  depth : List String
  log : List (Event B V) := []

/-- An event in the log. -/
def St.saw {B V : Type} (st : St B V) (e : Event B V) : St B V :=
  { st with log := st.log ++ [e] }

/-- Nothing where the fuel ran out; otherwise what came out and the state left behind. -/
abbrev Ran (B V α : Type) := Option (α × St B V)

section Run

variable {B V C : Type}

/-! ## Failures -/

/-- The notes of an error. -/
def noteFailure (w : Engine B V C) (doc : IngestDoc B V) (e : IngestError) : IngestDoc B V :=
  let doc := doc.insert "on_failure_message" (w.text e.reason)
  let doc := doc.insert "on_failure_processor_type" ((e.processorType.map w.text).getD w.null)
  let doc := doc.insert "on_failure_processor_tag" ((e.processorTag.map w.text).getD w.null)
  match e.pipeline with
  | some p => doc.insert "on_failure_pipeline" (w.text p)
  | none => doc

/-- They are gone. -/
def clearFailure (doc : IngestDoc B V) : IngestDoc B V :=
  noteKeys.foldl IngestDoc.remove doc

/-- A failure is noted. -/
def Carried.note (w : Engine B V C) (d : Carried B V) (e : IngestError) : Carried B V :=
  ⟨noteFailure w d.doc e, .noted :: d.trail⟩

/-- It is over. -/
def Carried.clear (d : Carried B V) : Carried B V :=
  ⟨clearFailure d.doc, .cleared :: d.trail⟩

/-- A processor has acted. -/
def Carried.acted (d : Carried B V) (made : IngestDoc B V) : Carried B V :=
  ⟨made, .acted d.doc made :: d.trail⟩

def Carried.edit (d : Carried B V) (f : IngestDoc B V → IngestDoc B V) : Carried B V :=
  { d with doc := f d.doc }

/-- The error names its processor. -/
def IngestError.withProcessor (e : IngestError) (spec : Written C) (pipeline : String) :
    IngestError :=
  { e with
    processorType := if e.processorType.isNone ∧ spec.kind ≠ "fail" then some spec.kind
      else e.processorType
    processorTag := if e.processorTag.isNone then spec.tag else e.processorTag
    pipeline := if e.pipeline.isNone then some pipeline else e.pipeline }

/-- The refusal of a pipeline that runs already. -/
def cycleDetected (name : String) : IngestError :=
  { kind := "illegal_state_exception", reason := "Cycle detected for pipeline: " ++ name }

/-- The refusal of one pipeline too many. -/
def nestedTooDeep (depth : List String) : IngestError :=
  { kind := "illegal_state_exception",
    reason := "Pipelines are nested more than " ++ toString mostNestedPipelines ++
      " deep, starting at [" ++ depth.head?.getD "" ++ "]" }

/-- The refusal of a name nobody has. -/
def noSuchPipeline (name : String) : IngestError :=
  { kind := "illegal_state_exception",
    reason := "Pipeline processor configured for non-existent pipeline [" ++ name ++ "]" }

/-! ## One processor -/

/-- `foreach`: the processor over each item, and the items as they came out. -/
def eachItem (w : Engine B V C)
    (run : Carried B V → St B V →
      Ran B V (Except (IngestError × Carried B V) (Option (Carried B V)))) :
    List (Option String × V) → List V → List (String × V) → Carried B V → St B V →
      Ran B V (Except IngestError (Option (Carried B V × List V × List (String × V))))
  | [], outItems, outMap, doc, st => some (.ok (some (doc, outItems, outMap)), st)
  | (key, item) :: rest, outItems, outMap, doc, st =>
    let doc := doc.edit (·.insert "_value" item)
    let doc := match key with
      | some k => doc.edit (·.insert "_key" (w.text k))
      | none => doc
    match run doc st with
    | none => none
    | some (.error (e, _), st) => some (.error e, st)
    | some (.ok none, st) => some (.ok none, st)
    | some (.ok (some d), st) =>
      let made := (d.doc.ingest "_value").getD w.null
      let d := d.edit (·.remove "_value")
      match key with
      | some k =>
        let k := ((d.doc.ingest "_key").bind w.asStr).getD k
        eachItem w run rest outItems (outMap ++ [(k, made)]) (d.edit (·.remove "_key")) st
      | none => eachItem w run rest (outItems ++ [made]) outMap d st

/-- The branch of `run_body` for `pipeline`. -/
def runNamed (w : Engine B V C)
    (call : Pipeline C → Carried B V → St B V →
      Ran B V (Except IngestError (Option (Carried B V))))
    (config : C) (doc : Carried B V) (st : St B V) :
    Ran B V (Except IngestError (Option (Carried B V))) :=
  match w.named st.log.length config doc.doc with
  | .error e => some (.error e, st)
  | .ok (name, ignoreMissingPipeline) =>
    match w.stored st.log.length name with
    | some (.ok p) =>
      if name ∈ st.depth then some (.error (cycleDetected name), st)
      else
        let outer := doc.doc.ingest "pipeline"
        match call p (doc.edit (·.insert "pipeline" (w.text name))) st with
        | none => none
        | some (.error e, st) =>
          some (.error { e with nested := e.kind ≠ "illegal_state_exception" }, st)
        | some (.ok none, st) => some (.ok none, st)
        | some (.ok (some d), st) => some (.ok (some (d.edit (·.restore "pipeline" outer))), st)
    | some (.error e) => some (.error e, st)
    | none =>
      if ignoreMissingPipeline then some (.ok (some doc), st)
      else some (.error (noSuchPipeline name), st)

/-- The branch of `run_body` for `foreach`. -/
def runEach (w : Engine B V C)
    (run : Carried B V → St B V →
      Ran B V (Except (IngestError × Carried B V) (Option (Carried B V))))
    (config : C) (ignoreMissing : Bool) (doc : Carried B V) (st : St B V) :
    Ran B V (Except IngestError (Option (Carried B V))) :=
  match w.items st.log.length config ignoreMissing doc.doc with
  | .error e => some (.error e, st)
  | .ok none => some (.ok (some doc), st)
  | .ok (some items) =>
    match eachItem w run items [] [] doc st with
    | none => none
    | some (.error e, st) => some (.error e, st)
    | some (.ok none, st) => some (.ok none, st)
    | some (.ok (some (d, outItems, outMap)), st) =>
      let d := d.edit (·.remove "_key")
      match w.rebuild st.log.length config outItems outMap d.doc with
      | .error e => some (.error e, st)
      | .ok made => some (.ok (some (d.acted made)), st)

/-- The processors of a pipeline, one after another. -/
def runBody (w : Engine B V C)
    (call : Pipeline C → Carried B V → St B V →
      Ran B V (Except IngestError (Option (Carried B V))))
    (run : Carried B V → St B V →
      Ran B V (Except (IngestError × Carried B V) (Option (Carried B V))))
    (spec : Written C) (ignoreMissing : Bool) (doc : Carried B V) (st : St B V) :
    Ran B V (Except IngestError (Option (Carried B V))) :=
  if spec.kind = "pipeline" then runNamed w call spec.config doc st
  else if spec.kind = "foreach" then runEach w run spec.config ignoreMissing doc st
  else
    match w.act st.log.length spec.kind spec.config ignoreMissing doc.doc with
    | .error e => some (.error e, st)
    | .ok none => some (.ok none, st)
    | .ok (some made) => some (.ok (some (doc.acted made)), st)

/-- `processors::run`: a processor that finds nothing to do hands the document back untouched. -/
def runOne (w : Engine B V C)
    (call : Pipeline C → Carried B V → St B V →
      Ran B V (Except IngestError (Option (Carried B V))))
    (run : Carried B V → St B V →
      Ran B V (Except (IngestError × Carried B V) (Option (Carried B V))))
    (spec : Written C) (doc : Carried B V) (st : St B V) :
    Ran B V (Except IngestError (Option (Carried B V))) :=
  match w.ignoreMissing spec.config with
  | .error e => some (.error e, st)
  | .ok ignoreMissing =>
    match runBody w call run spec ignoreMissing doc st with
    | some (.error e, st) =>
      if e.kind = "__missing__" then some (.ok (some doc), st) else some (.error e, st)
    | other => other

/-! ## A list of processors -/

/-- One turn of the loop of `run_processors`, given what its `on_failure` list does. -/
def turn (w : Engine B V C)
    (call : Pipeline C → Carried B V → St B V →
      Ran B V (Except IngestError (Option (Carried B V))))
    (run : Carried B V → St B V →
      Ran B V (Except (IngestError × Carried B V) (Option (Carried B V))))
    (onFailure : Option (Carried B V → St B V →
      Ran B V (Except (IngestError × Carried B V) (Option (Carried B V)))))
    (pipeline : String) (spec : Written C) (doc : Carried B V) (st : St B V) :
    Ran B V (Except (IngestError × Carried B V) (Option (Carried B V))) :=
  let here := st.log.length
  let st := st.saw (.began doc.doc)
  match spec.condition.elim (.ok true) (w.conditionHolds here · doc.doc) with
  | .error e =>
    let e := e.withProcessor spec pipeline
    let st := st.saw (.failed here e)
    if spec.ignoreFailure then some (.ok (some doc), st.saw (.goesOn .ignored doc.doc))
    else some (.error (e, doc), st)
  | .ok false => some (.ok (some doc), st)
  | .ok true =>
    match runOne w call run spec doc st with
    | none => none
    | some (.ok d, st) => some (.ok d, st)
    | some (.error e, st) =>
      let e := { e.withProcessor spec pipeline with nested := false }
      let st := st.saw (.failed here e)
      if spec.ignoreFailure then some (.ok (some doc), st.saw (.goesOn .ignored doc.doc))
      else
        match onFailure with
        | none => some (.error (e, doc), st)
        | some handle =>
          let handed := doc.note w e
          match handle handed (st.saw (.goesOn .own handed.doc)) with
          | none => none
          | some (.ok d, st) => some (.ok (d.map Carried.clear), st)
          | some (.error inner, st) => some (.error inner, st)

mutual

/-- Run a list of processors; a failure comes back with the document as it stood when the
processor failed, for whoever handles it. -/
def runProcessors (w : Engine B V C)
    (call : Pipeline C → Carried B V → St B V →
      Ran B V (Except IngestError (Option (Carried B V))))
    (pipeline : String) : List (ProcessorSpec C) → Carried B V → St B V →
      Ran B V (Except (IngestError × Carried B V) (Option (Carried B V)))
  | [], doc, st => some (.ok (some doc), st)
  | spec :: rest, doc, st =>
    match runSpec w call pipeline spec doc st with
    | some (.ok (some d), st) => runProcessors w call pipeline rest d st
    | other => other

/-- One processor, with its failures. -/
def runSpec (w : Engine B V C)
    (call : Pipeline C → Carried B V → St B V →
      Ran B V (Except IngestError (Option (Carried B V))))
    (pipeline : String) : ProcessorSpec C → Carried B V → St B V →
      Ran B V (Except (IngestError × Carried B V) (Option (Carried B V)))
  | .mk own onFailure processor, doc, st =>
    turn w call (fun d s => runProcessors w call "_foreach" processor d s)
      (if onFailure.isEmpty then none
        else some (fun d s => runProcessors w call pipeline onFailure d s)) pipeline own doc st

end

/-! ## A pipeline -/

/-- What `run_pipeline` does once its name is on the stack. -/
def runEntered (w : Engine B V C)
    (call : Pipeline C → Carried B V → St B V →
      Ran B V (Except IngestError (Option (Carried B V))))
    (pipeline : Pipeline C) (doc : Carried B V) (st : St B V) :
    Ran B V (Except IngestError (Option (Carried B V))) :=
  match runProcessors w call pipeline.name pipeline.processors doc st with
  | none => none
  | some (.ok d, st) => some (.ok d, st)
  | some (.error (e, d), st) =>
    if pipeline.onFailure.isEmpty then some (.error e, st)
    else
      let d := d.note w e
      match runProcessors w call pipeline.name pipeline.onFailure d
          (st.saw (.goesOn .pipelines d.doc)) with
      | none => none
      | some (.ok d, st) => some (.ok (d.map Carried.clear), st)
      | some (.error (e, _), st) => some (.error e, st)

/-- `run_pipeline`, on fuel for the pipelines that call each other. -/
def runPipeline (w : Engine B V C) : ℕ → Pipeline C → Carried B V → St B V →
    Ran B V (Except IngestError (Option (Carried B V)))
  | 0, _, _, _ => none
  | fuel + 1, pipeline, doc, st =>
    if pipeline.name ∈ st.depth then some (.error (cycleDetected pipeline.name), st)
    else if mostNestedPipelines ≤ st.depth.length then
      some (.error (nestedTooDeep st.depth), st)
    else
      let depth := st.depth ++ [pipeline.name]
      match runEntered w (runPipeline w fuel) pipeline doc
          (({ st with depth := depth } : St B V).saw (.entered depth)) with
      | none => none
      | some (out, st) => some (out, { st with depth := st.depth.dropLast })

end Run

end Velosearch.Ingest
