import Mathlib.Data.Char
import Mathlib.Data.List.Lex
import Velosearch.Api.Rollover

/-!
# Aliases

The requests that write alias definitions: `put_alias_inner`, `update_aliases` and `delete_alias` of
`src/api/alias.rs`, `create_index` and `delete_index` of `src/api/indices/mod.rs`, and `Store::create`
with the templates (`src/store/registry.rs`, `src/store/objects.rs`). The store is the one of a
rollover: the indices with their aliases, and the data streams.
-/

set_option autoImplicit false

namespace Velosearch.Aliases

open Rollover (State AliasDef)
open Store (wildcardMatch globMatch)
open Store.Resolve (Name storeResolve forbidden dated push all)
open Text (trim)

/-! ## Definitions -/

/-- A routing value as the body has it: text, or a number that is written out. -/
inductive Routing where
  | text (s : Name)
  | number (s : Name)
  | other
deriving DecidableEq

/-- A number is stored as its text. -/
def Routing.asText : Routing → Routing
  | .number s => .text s
  | r => r

/-- What else a definition carries (the filter), which nothing here looks into. -/
structure Extra where
  Others : Type
  none : Others
  merge : Others → Others → Others

/-- A definition as a request writes it, with what it leaves out left out. -/
structure Written (X : Extra) where
  isWriteIndex : Option (Option Bool)
  routing : Option Routing
  indexRouting : Option Routing
  searchRouting : Option Routing
  others : X.Others

/-- What is kept of a definition beside the write index. -/
structure Rest (X : Extra) where
  indexRouting : Option Routing
  searchRouting : Option Routing
  others : X.Others

variable {X : Extra}

/-- `normalize_alias`; a definition that is no object is an empty one. -/
def normalizeAlias : Option (Written X) → AliasDef (Rest X)
  | none => ⟨none, none, none, X.none⟩
  | some w =>
    ⟨w.isWriteIndex.join, (w.indexRouting.or w.routing).map Routing.asText,
      (w.searchRouting.or w.routing).map Routing.asText, w.others⟩

/-- The definition asks to be the alias's write index. -/
def asksWrite (w : Option (Written X)) : Bool :=
  (w.bind fun w => w.isWriteIndex.join).getD false

/-- An index routing that names several values. -/
def Several (d : AliasDef (Rest X)) : Prop := ∃ s, d.rest.indexRouting = some (.text s) ∧ ',' ∈ s

/-- `several_index_routings`: the check made on the definition as it will be stored. -/
def severalIndexRoutings (w : Option (Written X)) : Bool :=
  match (normalizeAlias w).rest.indexRouting with
  | some (.text s) => s.contains ','
  | _ => false

/-! ## The store -/

/-- The index is marked as the alias's write index. -/
def marks (s : State (Rest X)) (a n : Name) : Bool :=
  ((s.defOn n a).bind fun d => d.isWriteIndex).getD false

/-- Some index has the alias. -/
def isAlias (s : State (Rest X)) (a : Name) : Bool :=
  s.indices.any fun i => (i.2.lookup a).isSome

/-- Why a request is refused. -/
inductive Refusal where
  | validation
  | unknownField
  | invalidName (a : Name)
  | noSuchIndex (expr : Name)
  | moreThanOneWriteIndex (a : Name)
  | severalRoutings (a : Name)
  | matchesAlias (one : Name)
  | aliasesMissing (names : List Name)
  | alreadyExists (n : Name)
  | streamWriteIndex (n : Name)
  | illegalArgument
deriving DecidableEq

section

-- `resolve_date_math_name`, at the moment of the request
variable (date : Name → Name)

/-- `Store::resolve`, over the indices of the state. -/
def resolve (s : State (Rest X)) (expr : Name) : List Name := storeResolve date s.named expr

/-- `Store::get`, as far as it says whether there is one. -/
def found (s : State (Rest X)) (n : Name) : Bool :=
  (Store.Resolve.get date s.named (n.length + 1) n).isSome

/-- `Store::delete`: what the name stands for. -/
def delete (s : State (Rest X)) (n : Name) : State (Rest X) :=
  { s with indices := s.indices.filter fun i => !(resolve date s n).contains i.1 }

/-- Another index is the alias's write index already. -/
def twoWriteIndices (s : State (Rest X)) (a : Name) (w : Option (Written X)) (addingTo : List Name) :
    Bool :=
  asksWrite w &&
    1 < (((resolve date s a).filter fun n => !addingTo.contains n && marks s a n) ++
      addingTo).dedup.length

/-- `check_alias_def`: the refusals of a definition, in the source's order. -/
def checkDef (s : State (Rest X)) (a : Name) (w : Option (Written X)) (addingTo : List Name) :
    Option Refusal :=
  if twoWriteIndices date s a w addingTo then some (.moreThanOneWriteIndex a)
  else if severalIndexRoutings w then some (.severalRoutings a)
  else none

/-- One definition on each of the targets. -/
def putOn (s : State (Rest X)) (a : Name) (w : Option (Written X)) (targets : List Name) :
    State (Rest X) :=
  targets.foldl (fun s n => s.update n fun l => Rollover.insert l a (normalizeAlias w)) s

/-! ## One alias -/

/-- The index and the name may stand in the body or in the path; `stray` says that the body has a
field that is none of an alias. -/
structure PutAlias (X : Extra) where
  bodyIndex : Option Name
  pathIndex : Option Name
  bodyName : Option Name
  pathName : Option Name
  stray : Bool
  written : Written X

/-- `put_alias`: what the body names goes before what the path names. -/
def putAlias (s : State (Rest X)) (q : PutAlias X) : Except Refusal (State (Rest X)) :=
  match q.bodyIndex.or (q.pathIndex.filter (· ≠ [])), q.bodyName.or (q.pathName.filter (· ≠ [])) with
  | some index, some name =>
    if q.stray then .error .unknownField
    else if '*' ∈ name ∨ ',' ∈ name then .error (.invalidName name)
    else if name ∈ s.names then .error (.invalidName name)
    else
      let targets := resolve date s index
      if targets = [] then .error (.noSuchIndex index)
      else
        match checkDef date s name (some q.written) targets with
        | some refusal => .error refusal
        | none => .ok (putOn s name (some q.written) targets)
  | _, _ => .error .validation

/-- The aliases of one index that a part of `delete_alias` names. -/
def named (pat : Name) (a : Name) : Bool :=
  pat = all || wildcardMatch pat a

/-- `delete_alias`. -/
def deleteAlias (s : State (Rest X)) (index name : Name) : Except Refusal (State (Rest X)) :=
  let targets := resolve date s index
  let pats := (name.splitOn ',').map trim
  if targets = [] then .error (.noSuchIndex index)
  else if s.indices.any fun i => targets.contains i.1 && i.2.any fun x => pats.any (named · x.1) then
    .ok (targets.foldl (fun s n => s.update n fun l => l.filter fun x => !pats.any (named · x.1)) s)
  else .error (.aliasesMissing [name])

/-! ## A list of actions -/

/-- The verbs of `_aliases`; `other` is whatever else the body holds. -/
inductive Verb where
  | add
  | remove
  | removeIndex
  | other
deriving DecidableEq

/-- An action. -/
structure Action (X : Extra) where
  verb : Verb
  index : Option Name
  indices : Option (List (Option Name))
  alias_ : Option Name
  aliases : Option (List (Option Name))
  mustExist : Option Bool
  written : Written X

namespace Action

variable (act : Action X)

/-- The index names of an action, `indices` or `index`. -/
def asked : List Name :=
  match act.index with
  | some e => [e]
  | none => (act.indices.map List.reduceOption).getD []

/-- What those resolve to. -/
def targets (s : State (Rest X)) : List Name :=
  act.asked.flatMap (resolve date s)

/-- The alias names of an action. -/
def names : List Name :=
  match act.alias_ with
  | some a => [a]
  | none => (act.aliases.map List.reduceOption).getD []

/-- A `remove` takes the aliases its patterns match. -/
def takes (a : Name) : Bool := act.names.any fun pat => wildcardMatch pat a

/-- A name that `remove_index` does not take: a pattern, or an alias that is not found. -/
def barred (s : State (Rest X)) (one : Name) : Bool :=
  isAlias s one && !found date s one || one.contains '*'

/-- The refusals of one action, in the source's order. -/
def refused (s : State (Rest X)) : Option Refusal :=
  if act.aliases = some [] then some .validation
  else if act.targets date s = [] then some (.noSuchIndex (act.index.getD []))
  else
    match act.verb with
    | .add => act.names.findSome? fun a => checkDef date s a (some act.written) (act.targets date s)
    | .removeIndex => (act.asked.find? (barred date s)).map Refusal.matchesAlias
    | _ => none

/-- What one action does to the state. -/
def effect (s : State (Rest X)) : State (Rest X) :=
  match act.verb with
  | .add =>
    (act.targets date s).foldl (fun s n => s.update n fun l =>
      act.names.foldl (fun l a => Rollover.insert l a (normalizeAlias (some act.written))) l) s
  | .remove =>
    (act.targets date s).foldl (fun s n => s.update n fun l => l.filter fun x => !act.takes x.1) s
  | .removeIndex => (act.targets date s).foldl (delete date) s
  | .other => s

/-- The names of a `remove` that found nothing and may not. -/
def missing (s : State (Rest X)) : List Name :=
  let removedAny := s.indices.any fun i =>
    (act.targets date s).contains i.1 && i.2.any fun x => act.takes x.1
  if act.verb = .remove ∧ !removedAny ∧ act.mustExist.getD true then act.names else []

end Action

/-- The loop of `update_aliases`, with the names a `remove` has not found so far. -/
def updateFrom (s : State (Rest X)) (missing : List Name) :
    List (Option (Action X)) → State (Rest X) × Option Refusal
  | [] => (s, if missing = [] then none else some (.aliasesMissing missing))
  | none :: rest => updateFrom s missing rest
  | some act :: rest =>
    match act.refused date s with
    | some refusal => (s, some refusal)
    | none => updateFrom (act.effect date s) (missing ++ act.missing date s) rest

/-- `update_aliases`: the actions in order, the first refusal ending it. -/
def updateAliases (s : State (Rest X)) (actions : List (Option (Action X))) :
    State (Rest X) × Option Refusal :=
  if actions = [] then (s, some .validation) else updateFrom date s [] actions

/-! ## Indices made and deleted -/

/-- The aliases a creation brings, as they are written. -/
abbrev Members (X : Extra) := List (Name × Option (Written X))

/-- A later template's definition over an earlier one's, field by field. -/
def Written.merge (base patch : Written X) : Written X :=
  ⟨patch.isWriteIndex.or base.isWriteIndex, patch.routing.or base.routing,
    patch.indexRouting.or base.indexRouting, patch.searchRouting.or base.searchRouting,
    X.merge base.others patch.others⟩

/-- `deep_merge` of one member: two objects are merged, and anything else is replaced. -/
def mergeMember (base : Option (Option (Written X))) (patch : Option (Written X)) :
    Option (Written X) :=
  match base, patch with
  | some (some b), some p => some (b.merge p)
  | _, p => p

/-- `deep_merge` of the aliases. -/
def mergeAliases (base patch : Members X) : Members X :=
  patch.foldl (fun out x =>
    (x.1, mergeMember (out.lookup x.1) x.2) :: out.filter (·.1 != x.1)) base

/-- An index template, so far as aliases go. -/
structure Template (X : Extra) where
  name : Name
  order : ℤ
  patterns : List Name
  composable : Bool
  aliases : Members X

/-- Templates apply by order, and by name where the order is the same. -/
def Template.before (t u : Template X) : Bool :=
  t.order < u.order || (t.order = u.order && decide (t.name ≤ u.name))

/-- The aliases `apply_templates` gives an index. -/
def applyTemplates (templates : List (Template X)) (streamed : Name → Option (Members X))
    (n : Name) (body : Members X) : Members X :=
  match streamed n with
  | some made => mergeAliases made body
  | none =>
    let matched := (templates.filter fun t =>
      t.patterns.any fun p => p = n || wildcardMatch p n).mergeSort Template.before
    let used :=
      match (matched.filter (·.composable)).getLast? with
      | some t => [t]
      | none => matched
    mergeAliases (used.foldl (fun out t => mergeAliases out t.aliases) []) body

/-- What an index is made from: templates, the stream it backs, and the body. -/
structure Making (X : Extra) where
  templates : List (Template X)
  streamed : Name → Option (Members X)
  body : Members X
  refused : Bool

/-- The aliases a new index gets, its templates' first. -/
def Making.aliases (q : Making X) (n : Name) : Members X :=
  applyTemplates q.templates q.streamed n q.body

/-- `Store::create`: the index with its aliases, refused where the name is taken. -/
def create (s : State (Rest X)) (n : Name) (q : Making X) : Except Refusal (State (Rest X)) :=
  let n := dated date n
  if n ∈ s.names then .error (.alreadyExists n)
  else if q.refused then .error .illegalArgument
  else .ok { s with indices := (n, (q.aliases n).map fun x => (x.1, normalizeAlias x.2)) :: s.indices }

/-- A name no index may have. -/
def reserved (expr : Name) : Bool :=
  ((expr.splitOn ',').map trim).any fun part =>
    part.head? = some '_' && part ≠ all && part ≠ "_any".toList

/-- `PUT /{index}`, which refuses some names `Store::create` would take. -/
def createIndex (s : State (Rest X)) (n : Name) (q : Making X) : Except Refusal (State (Rest X)) :=
  if reserved n then .error (.invalidName n)
  else
    let n := dated date n
    if n.any forbidden.contains then .error (.invalidName n)
    else if n ∈ s.names then .error (.alreadyExists n)
    else
      match q.body.find? fun x => twoWriteIndices date s x.1 x.2 [n] with
      | some x => .error (.moreThanOneWriteIndex x.1)
      | none => create date s n q

/-- `Store::ensure`, for a write to a name. -/
def ensure (s : State (Rest X)) (n : Name) (q : Making X) : Except Refusal (State (Rest X)) :=
  if found date s n then .ok s else create date s n { q with body := [] }

/-- The name is a stream that takes writes. -/
def streamWrites (s : State (Rest X)) (part : Name) : Bool :=
  s.streams.any fun stream =>
    ((s.named.backingIndices stream).mergeSort (fun a b => decide (a ≤ b))).getLast? = some part

/-- `delete_index`, on the one node that has every index. -/
def deleteIndex (s : State (Rest X)) (index : Name) (lenient allowNone : Bool) :
    Except Refusal (State (Rest X)) :=
  let parts := ((index.splitOn ',').map trim).filter (· ≠ [])
  match parts.find? fun p => !p.contains '*' && isAlias s p && !lenient with
  | some p => .error (.matchesAlias p)
  | none =>
    match parts.find? fun p => !p.contains '*' && !lenient && streamWrites s p with
    | some p => .error (.streamWriteIndex p)
    | none =>
      let reach := fun p =>
        if p.contains '*' then s.names.filter (globMatch p)
        else if isAlias s p then []
        else resolve date s p
      let lost := parts.find? fun p => !p.contains '*' && !isAlias s p && (resolve date s p).isEmpty
      match lost.filter fun _ => !lenient with
      | some p => .error (.noSuchIndex p)
      | none =>
        if !allowNone && (parts.any (fun p => p.contains '*' && !s.names.any (globMatch p)) ||
            (parts.flatMap reach).isEmpty) then .error (.noSuchIndex index)
        else .ok ((push [] (parts.flatMap reach)).foldl (delete date) s)

/-! ## Writing through a name -/

/-- Where a write to a name goes: a stream's newest index, an alias's write index, or the index. -/
def writeTarget (s : State (Rest X)) (name : Name) : Option Name :=
  match ((s.named.backingIndices name).mergeSort (fun a b => decide (a ≤ b))).getLast? with
  | some newest => some newest
  | none =>
    if isAlias s name then
      match (resolve date s name).find? (marks s name) with
      | some one => some one
      | none =>
        match resolve date s name with
        | [one] => some one
        | _ => none
    else some name

end

end Velosearch.Aliases
