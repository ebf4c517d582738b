import Velosearch.Security.Substitute

/-!
# What a caller's roles grant

`index_verdict`, `tenant_privilege`, `restrictions` and `dls_query`, over the way a role's
patterns and filters are read. Read as `substitute` writes them, they grant what they grant with
each placeholder standing for exactly its text as long as the caller's data stays clear of the
two languages and of the placeholders.
-/

namespace Velosearch
namespace Security

/-- A value of JSON. -/
inductive Json where
  | null
  | bool (b : Bool)
  | number (text : Text)
  | str (s : Text)
  | arr (items : List Json)
  | obj (members : List (Text × Json))

/-- What a role may do to some indices. -/
structure IndexPermission where
  indexPatterns : List Text
  allowedActions : List Text
  dls : Option Text
  fls : List Text
  maskedFields : List Text

/-- What it may do to some tenants. -/
structure TenantPermission where
  tenantPatterns : List Text
  allowedActions : List Text

/-- A role. -/
structure Role where
  indexPermissions : List IndexPermission
  tenantPermissions : List TenantPermission

/-- The configuration. -/
structure SecurityConfig where
  roles : List (Text × Role)
  tenants : List Text
  flatGroups : List (Text × List Text)
  dnfof : Bool

/-- What is said of an action. -/
inductive Verdict where
  | allowed
  | part (granted : List Text)
  | denied (missing : Text)
deriving DecidableEq

/-- What a caller may see of an index. -/
structure IndexRestrictions where
  reached : Bool
  dls : List Text
  unfiltered : Bool
  fls : List (List Text)
  unrestrictedFields : Bool
  masked : List (List Text)
  unmasked : Bool

/-- How a pattern of a role is read. -/
structure Sense where
  everything : Text → Bool
  reaches : Text → Text → Bool
  filter : Text → Text

namespace SecurityConfig

variable (cfg : SecurityConfig) (regex : Text → Text → Bool)

/-- The actions some names stand for. -/
def resolveActions (perms : List Text) : List Text :=
  perms.flatMap fun p => (cfg.flatGroups.lookup p).getD [p]

/-- The action is among them. -/
def actionAllowed (perms : List Text) (action : Text) : Bool :=
  (cfg.resolveActions perms).any fun p => patternMatches regex p action

/-- The roles of a caller. -/
def rolesOf (caller : Caller) : List Role :=
  caller.roles.filterMap fun r => cfg.roles.lookup r

/-- The verdict on an action. -/
def verdictIn (sense : Sense) (caller : Caller) (action : Text) (indices : List Text) : Verdict :=
  if caller.unrestricted then .allowed
  else
    let roles := cfg.rolesOf caller
    let wildcard := roles.any fun role => role.indexPermissions.any fun p =>
      p.indexPatterns.any sense.everything && cfg.actionAllowed regex p.allowedActions action
    if wildcard then .allowed
    else if indices.isEmpty then .allowed
    else
      let granted := indices.filter fun index => roles.any fun role =>
        role.indexPermissions.any fun p =>
          p.indexPatterns.any (sense.reaches · index) &&
            cfg.actionAllowed regex p.allowedActions action
      if granted.length = indices.length then .allowed
      else if !granted.isEmpty && cfg.dnfof then .part granted
      else .denied action

/-- A role grants the tenant. -/
def tenantGranted (sense : Sense) (caller : Caller) (tenant : Text) (write : Bool) : Bool :=
  (cfg.rolesOf caller).any fun role => role.tenantPermissions.any fun tp =>
    ((cfg.resolveActions tp.allowedActions).contains "kibana:saved_objects/*/write".toList ||
      !write) && tp.tenantPatterns.any (sense.reaches · tenant)

/-- Whether a tenant is granted. -/
def tenantIn (sense : Sense) (caller : Caller) (tenant : Text) (write : Bool) : Bool :=
  if caller.unrestricted then true
  else if !cfg.tenants.contains tenant then false
  else if cfg.tenantGranted sense caller tenant write then true
  else tenant == "global_tenant".toList && caller.roles.contains "kibana_user".toList &&
    !cfg.tenantGranted sense caller tenant false

/-- The permissions that reach an index. -/
def reaching (sense : Sense) (caller : Caller) (index : Text) : List IndexPermission :=
  ((cfg.rolesOf caller).flatMap Role.indexPermissions).filter fun p =>
    p.indexPatterns.any (sense.reaches · index)

/-- What the caller may see of it. -/
def restrictionsIn (sense : Sense) (caller : Caller) (index : Text) : IndexRestrictions :=
  if caller.unrestricted then
    { reached := false, dls := [], unfiltered := false, fls := [], unrestrictedFields := false,
      masked := [], unmasked := false }
  else
    let ps := cfg.reaching sense caller index
    { reached := !ps.isEmpty
      dls := ps.filterMap fun p => p.dls.map sense.filter
      unfiltered := ps.any fun p => p.dls.isNone
      fls := (ps.map IndexPermission.fls).filter fun rules => !rules.isEmpty
      unrestrictedFields := ps.any fun p => p.fls.isEmpty
      masked := (ps.map IndexPermission.maskedFields).filter fun rules => !rules.isEmpty
      unmasked := ps.any fun p => p.maskedFields.isEmpty }

end SecurityConfig

/-! ## The filter -/

/-- A filter that lets nothing through. -/
def matchNothing : Json :=
  .obj [("bool".toList, .obj [("must_not".toList, .arr [.obj [("match_all".toList, .obj [])]])])]

/-- The filter of what may be seen. -/
def IndexRestrictions.dlsQuery (fromStr : Text → Option Json) (r : IndexRestrictions) :
    Option Json :=
  if r.unfiltered || r.dls.isEmpty then none
  else match r.dls.mapM fromStr with
    | none => some matchNothing
    | some [] => none
    | some [v] => some v
    | some parsed => some (.obj [("bool".toList, .obj
        [("should".toList, .arr parsed), ("minimum_should_match".toList, .number ['1'])])])

/-! ## Two ways to read a pattern -/

/-- Patterns read once they are substituted. -/
def substituted (regex : Text → Text → Bool) (caller : Caller) : Sense where
  everything pat := substitute pat caller == ['*']
  reaches pat name := patternMatches regex (substitute pat caller) name
  filter q := substitute q caller

/-- A character JSON does not write as itself. -/
def jsonSpecial (c : Char) : Bool :=
  c == '"' || c == '\\' || decide (c.toNat < 32)

def hexDigit (n : ℕ) : Char :=
  if n < 10 then Char.ofNat ('0'.toNat + n) else Char.ofNat ('a'.toNat + (n - 10))

/-- A character of a caller's value within JSON. -/
def escapedJson (b : Char × Bool) : Text :=
  if b.2 && jsonSpecial b.1 then
    ['\\', 'u', '0', '0', hexDigit (b.1.toNat / 16), hexDigit (b.1.toNat % 16)]
  else [b.1]

/-- Patterns read with the caller's values as they are. -/
def literally (regex : Text → Text → Bool) (caller : Caller) : Sense where
  everything pat := decide (mark pat caller = [('*', false)])
  reaches pat name := literallyMatches regex (mark pat caller) name
  filter q := (mark q caller).flatMap escapedJson

section Code

variable (cfg : SecurityConfig) (regex : Text → Text → Bool) (caller : Caller)

/-- The verdict, as the source works it out. -/
def indexVerdict : Text → List Text → Verdict :=
  cfg.verdictIn regex (substituted regex caller) caller

/-- The tenants, likewise. -/
def tenantPrivilege : Text → Bool → Bool :=
  cfg.tenantIn (substituted regex caller) caller

/-- What may be seen, likewise. -/
def restrictions : Text → IndexRestrictions :=
  cfg.restrictionsIn (substituted regex caller) caller

end Code

/-! ## When they are one -/

/-- What `any` looks at: everything up to the first that will do. -/
def looked {α : Type} (f : α → Bool) : List α → List α
  | [] => []
  | a :: l => if f a then [a] else a :: looked f l

theorem any_looked {α : Type} {f g : α → Bool} {l : List α}
    (same : ∀ a ∈ looked g l, f a = g a) : l.any f = l.any g := by
  induction l with
  | nil => rfl
  | cons a l ih =>
    unfold looked at same
    rw [List.any_cons, List.any_cons]
    split at same
    · rename_i yes
      rw [same a List.mem_cons_self, yes, Bool.true_or, Bool.true_or]
    · rw [same a List.mem_cons_self, ih fun b mem => same b (List.mem_cons_of_mem _ mem)]

theorem mem_of_looked {α : Type} {f : α → Bool} {l : List α} {a : α} (h : a ∈ looked f l) :
    a ∈ l := by
  induction l with
  | nil => cases h
  | cons b l ih =>
    unfold looked at h
    split at h
    · rw [List.mem_singleton.mp h]
      exact List.mem_cons_self
    · exact List.mem_cons.mpr ((List.mem_cons.mp h).imp_right ih)

namespace SecurityConfig

variable (cfg : SecurityConfig) (regex : Text → Text → Bool)

/-- Every permission of a caller. -/
def permissions (caller : Caller) : List IndexPermission :=
  (cfg.rolesOf caller).flatMap Role.indexPermissions

/-- A permission for all indices. -/
def grantsAll (sense : Sense) (action : Text) (p : IndexPermission) : Bool :=
  p.indexPatterns.any sense.everything && cfg.actionAllowed regex p.allowedActions action

/-- The tenant patterns of those permissions that go as far as what is asked. -/
def tenantPatterns (caller : Caller) (write : Bool) : List Text :=
  (cfg.rolesOf caller).flatMap fun role => role.tenantPermissions.flatMap fun tp =>
    if (cfg.resolveActions tp.allowedActions).contains "kibana:saved_objects/*/write".toList ||
      !write then tp.tenantPatterns else []

theorem tenantGranted_eq (sense : Sense) (caller : Caller) (tenant : Text) (write : Bool) :
    cfg.tenantGranted sense caller tenant write =
      (cfg.tenantPatterns caller write).any (sense.reaches · tenant) := by
  unfold tenantGranted tenantPatterns
  rw [List.any_flatMap]
  refine congrArg (List.any _) (funext fun role => ?_)
  rw [List.any_flatMap]
  refine congrArg (List.any _) (funext fun tp => ?_)
  split
  · rename_i far
    rw [far, Bool.true_and]
  · rename_i short
    rw [Bool.eq_false_iff.mpr short]
    rfl

/-- Whether all that reaches an index is filtered: one permission that is not lets all through. -/
def filtered (sense : Sense) (caller : Caller) (index : Text) : Bool :=
  (cfg.reaching sense caller index).all fun p => p.dls.isSome

end SecurityConfig

/-- What two readings have to agree on, for a caller's roles to grant the same. -/
structure Agree (cfg : SecurityConfig) (regex : Text → Text → Bool) (caller : Caller)
    (s t : Sense) : Prop where
  everything : ∀ action, (cfg.permissions caller).any (cfg.grantsAll regex s action) =
    (cfg.permissions caller).any (cfg.grantsAll regex t action)
  indices : ∀ p ∈ cfg.permissions caller, ∀ name,
    p.indexPatterns.any (s.reaches · name) = p.indexPatterns.any (t.reaches · name)
  tenants : ∀ tenant ∈ cfg.tenants, ∀ write,
    cfg.tenantGranted s caller tenant write = cfg.tenantGranted t caller tenant write
  filters : ∀ index, cfg.filtered t caller index = true →
    ∀ p ∈ cfg.reaching t caller index, ∀ q ∈ p.dls, s.filter q = t.filter q

section Agree

variable {cfg : SecurityConfig} {regex : Text → Text → Bool} {caller : Caller} {s t : Sense}

theorem Agree.reaching (h : Agree cfg regex caller s t) (index : Text) :
    cfg.reaching s caller index = cfg.reaching t caller index :=
  List.filter_congr fun p mem => h.indices p mem index

theorem Agree.verdict (h : Agree cfg regex caller s t) (action : Text) (indices : List Text) :
    cfg.verdictIn regex s caller action indices = cfg.verdictIn regex t caller action indices := by
  have wildcard (sense : Sense) : ((cfg.rolesOf caller).any fun role =>
      role.indexPermissions.any fun p => p.indexPatterns.any sense.everything &&
        cfg.actionAllowed regex p.allowedActions action) =
      (cfg.permissions caller).any (cfg.grantsAll regex sense action) :=
    List.any_flatMap.symm
  have granted (sense : Sense) (index : Text) : ((cfg.rolesOf caller).any fun role =>
      role.indexPermissions.any fun p => p.indexPatterns.any (sense.reaches · index) &&
        cfg.actionAllowed regex p.allowedActions action) =
      (cfg.permissions caller).any fun p => p.indexPatterns.any (sense.reaches · index) &&
        cfg.actionAllowed regex p.allowedActions action :=
    List.any_flatMap.symm
  have each (index : Text) : ((cfg.permissions caller).any fun p =>
      p.indexPatterns.any (s.reaches · index) &&
        cfg.actionAllowed regex p.allowedActions action) =
      (cfg.permissions caller).any fun p => p.indexPatterns.any (t.reaches · index) &&
        cfg.actionAllowed regex p.allowedActions action := by
    rw [Bool.eq_iff_iff, List.any_eq_true, List.any_eq_true]
    refine exists_congr fun p => and_congr_right fun mem => ?_
    rw [h.indices p mem]
  unfold SecurityConfig.verdictIn
  simp only [wildcard, granted, h.everything, each]

theorem Agree.tenant (h : Agree cfg regex caller s t) (tenant : Text) (write : Bool) :
    cfg.tenantIn s caller tenant write = cfg.tenantIn t caller tenant write := by
  unfold SecurityConfig.tenantIn
  by_cases defined : cfg.tenants.contains tenant = true
  · have mem : tenant ∈ cfg.tenants := List.contains_iff_mem.mp defined
    rw [h.tenants tenant mem, h.tenants tenant mem]
  · rw [Bool.eq_false_iff.mpr defined]
    rfl

theorem Agree.reached (h : Agree cfg regex caller s t) (index : Text) :
    { cfg.restrictionsIn s caller index with dls := [] } =
      { cfg.restrictionsIn t caller index with dls := [] } := by
  unfold SecurityConfig.restrictionsIn
  rw [h.reaching]
  split <;> rfl

theorem Agree.dlsQuery (h : Agree cfg regex caller s t) (fromStr : Text → Option Json)
    (index : Text) :
    (cfg.restrictionsIn s caller index).dlsQuery fromStr =
      (cfg.restrictionsIn t caller index).dlsQuery fromStr := by
  unfold SecurityConfig.restrictionsIn
  split
  · rfl
  · dsimp only
    rw [h.reaching]
    by_cases all : cfg.filtered t caller index = true
    · have filters : ((cfg.reaching t caller index).filterMap fun p => p.dls.map s.filter) =
          (cfg.reaching t caller index).filterMap fun p => p.dls.map t.filter := by
        refine List.filterMap_congr fun p mem => ?_
        cases q : p.dls with
        | none => rfl
        | some q' => exact congrArg some (h.filters index all p mem q' q)
      rw [filters]
    · have some : ((cfg.reaching t caller index).any fun p => p.dls.isNone) = true := by
        rw [SecurityConfig.filtered, List.all_eq_true] at all
        push Not at all
        obtain ⟨p, mem, none⟩ := all
        exact List.any_eq_true.mpr ⟨p, mem, by simpa using none⟩
      unfold IndexRestrictions.dlsQuery
      rw [some]
      rfl

end Agree

/-- What is written into a pattern stays clear of the placeholders, and of the patterns. -/
structure TamePattern (pattern : Text) (caller : Caller) : Prop where
  clear : Clear pattern caller
  harmless : Harmless (mark pattern caller)

/-- What is written into a filter stays clear of the placeholders, and of its quotes. -/
structure TameFilter (filter : Text) (caller : Caller) : Prop where
  clear : Clear filter caller
  calm : ∀ c, (c, true) ∈ mark filter caller → jsonSpecial c = false

/-- The condition: every pattern and filter of a caller's roles that is looked at is tame. Behind
a pattern that reaches the name asked for, none is; nor a filter beside a permission without. -/
structure Tame (cfg : SecurityConfig) (regex : Text → Text → Bool) (caller : Caller) : Prop where
  everything : ∀ action, ∀ p ∈ looked (cfg.grantsAll regex (literally regex caller) action)
      (cfg.permissions caller),
    ∀ pat ∈ looked (literally regex caller).everything p.indexPatterns, TamePattern pat caller
  indices : ∀ p ∈ cfg.permissions caller, ∀ name,
    ∀ pat ∈ looked ((literally regex caller).reaches · name) p.indexPatterns,
      TamePattern pat caller
  tenants : ∀ tenant ∈ cfg.tenants, ∀ write,
    ∀ pat ∈ looked ((literally regex caller).reaches · tenant) (cfg.tenantPatterns caller write),
      TamePattern pat caller
  filters : ∀ index, cfg.filtered (literally regex caller) caller index = true →
    ∀ p ∈ cfg.reaching (literally regex caller) caller index, ∀ q ∈ p.dls, TameFilter q caller

section Tame

variable {cfg : SecurityConfig} {regex : Text → Text → Bool} {caller : Caller}
  {attributes : List (Text × Text)}

theorem everything_eq {pat : Text} (tame : TamePattern pat caller)
    (perm : attributes.Perm caller.attributes) :
    (substituted regex (caller.walked attributes)).everything pat =
      (literally regex caller).everything pat := by
  show (substitute pat (caller.walked attributes) == ['*']) =
    decide (mark pat caller = [('*', false)])
  rw [substitute_walked tame.clear perm, Bool.eq_iff_iff, beq_iff_eq, decide_eq_true_iff]
  constructor
  · intro whole
    have kind : slashed (plain (mark pat caller)) = false := by
      rw [whole]
      rfl
    exact (plain_single (tame.harmless.wild kind).1).mp whole
  · intro whole
    rw [whole]
    rfl

theorem reaches_eq {pat : Text} (tame : TamePattern pat caller)
    (perm : attributes.Perm caller.attributes) (name : Text) :
    (substituted regex (caller.walked attributes)).reaches pat name =
      (literally regex caller).reaches pat name := by
  show patternMatches regex (substitute pat (caller.walked attributes)) name =
    literallyMatches regex _ name
  rw [substitute_walked tame.clear perm, matches_plain regex name tame.harmless]

theorem filter_eq {q : Text} (tame : TameFilter q caller)
    (perm : attributes.Perm caller.attributes) :
    (substituted regex (caller.walked attributes)).filter q =
      (literally regex caller).filter q := by
  show substitute q (caller.walked attributes) = (mark q caller).flatMap escapedJson
  have each : ∀ b ∈ mark q caller, escapedJson b = [b.1] := by
    rintro ⟨c, bit⟩ mem
    cases bit with
    | false => rfl
    | true =>
      unfold escapedJson
      rw [tame.calm c mem]
      rfl
  rw [substitute_walked tame.clear perm, List.flatMap_congr each]
  exact List.map_eq_flatMap

theorem Tame.agree (h : Tame cfg regex caller) (perm : attributes.Perm caller.attributes) :
    Agree cfg regex caller (substituted regex (caller.walked attributes))
      (literally regex caller) where
  everything action := any_looked fun p mem => by
    unfold SecurityConfig.grantsAll
    rw [any_looked fun pat inside => everything_eq (h.everything action p mem pat inside) perm]
  indices p mem name := any_looked fun pat inside =>
    reaches_eq (h.indices p mem name pat inside) perm name
  tenants tenant defined write := by
    rw [cfg.tenantGranted_eq, cfg.tenantGranted_eq]
    exact any_looked fun pat inside =>
      reaches_eq (h.tenants tenant defined write pat inside) perm tenant
  filters index all p mem q inside := filter_eq (h.filters index all p mem q inside) perm

end Tame

section Literal

variable (regex : Text → Text → Bool) (fromStr : Text → Option Json) (cfg : SecurityConfig)
  (caller : Caller)

end Literal

/-! ## Indices named like the user -/

def ownPattern : Text :=
  "$\x7buser_name\x7d".toList

def ownFilter : Text :=
  "\x7b\"term\":\x7b\"owner\":\"$\x7buser.name\x7d\"\x7d\x7d".toList

def ownPermission : IndexPermission where
  indexPatterns := [ownPattern]
  allowedActions := ["indices:*".toList]
  dls := some ownFilter
  fls := []
  maskedFields := []

def ownIndex : SecurityConfig where
  roles := [("own_index".toList,
    { indexPermissions := [ownPermission], tenantPermissions := [] })]
  tenants := []
  flatGroups := []
  dnfof := false

def user (name : Text) : Caller where
  name := name
  backendRoles := []
  attributes := []
  roles := ["own_index".toList]
  unrestricted := false

def ann : Caller :=
  user "ann".toList

/-- No expression is one. -/
def noRegex : Text → Text → Bool := fun _ _ => false

theorem clear_user {name text : Text}
    (h : turns (pieces text (user name)) [] (bindings (user name)) = true) :
    Clear text (user name) where
  turns attributes perm := by
    rw [perm.eq_nil]
    exact h
  single _ _ _ _ there := by cases there

theorem tame_ann : Tame ownIndex noRegex ann := by
  have pattern : TamePattern ownPattern ann := by
    refine ⟨clear_user (by decide +kernel), fun _ => by decide +kernel, fun kind => ?_⟩
    have not : slashed (plain (mark ownPattern ann)) = false := by decide +kernel
    rw [not] at kind
    cases kind
  have filter : TameFilter ownFilter ann := by
    refine ⟨clear_user (by decide +kernel), fun c mem => ?_⟩
    have all : ∀ b ∈ mark ownFilter ann, b.2 = true → jsonSpecial b.1 = false := by
      decide +kernel
    exact all (c, true) mem rfl
  have permissions : ownIndex.permissions ann = [ownPermission] := rfl
  have only {p : IndexPermission} (mem : p ∈ ownIndex.permissions ann) : p = ownPermission :=
    List.mem_singleton.mp (permissions ▸ mem)
  constructor
  · intro action p mem pat inside
    rw [only (mem_of_looked mem)] at inside
    rw [List.mem_singleton.mp (mem_of_looked inside)]
    exact pattern
  · intro p mem name pat inside
    rw [only mem] at inside
    rw [List.mem_singleton.mp (mem_of_looked inside)]
    exact pattern
  · intro tenant defined
    cases defined
  · intro index _ p mem q inside
    rw [only (List.mem_filter.mp mem).1] at inside
    rw [← Option.some.inj inside]
    exact filter

end Security
end Velosearch
