import Velosearch.Security.Roles

/-!
# A role more

What a caller may do with some roles, it may do with those and others, of `index_verdict`.
-/

set_option autoImplicit false

namespace Velosearch
namespace Security

/-- An index, an alias or an expression. -/
abbrev Name := Text

/-- Of `verdict_in`: some role of the caller's allows the action on the index. -/
def grants (cfg : SecurityConfig) (regex : Text → Text → Bool) (caller : Caller) (action : Text)
    (index : Name) : Bool :=
  caller.unrestricted || (cfg.rolesOf caller).any fun role => role.indexPermissions.any fun p =>
    p.indexPatterns.any ((substituted regex caller).reaches · index) &&
      cfg.actionAllowed regex p.allowedActions action

/-- Every role the caller has under one configuration, it has under the other. -/
structure Widens (cfg cfg' : SecurityConfig) (caller : Caller) : Prop where
  roles : ∀ role ∈ cfg.rolesOf caller, role ∈ cfg'.rolesOf caller
  groups : cfg'.flatGroups = cfg.flatGroups
  dnfof : cfg'.dnfof = cfg.dnfof

section

variable {cfg cfg' : SecurityConfig} {caller : Caller} {regex : Text → Text → Bool} {action : Text}

/-- A pattern that everything matches, and an action that is allowed on it, grant every index. -/
theorem grants_of_wildcard (h : ((cfg.rolesOf caller).any fun role =>
      role.indexPermissions.any fun p => p.indexPatterns.any (substituted regex caller).everything &&
        cfg.actionAllowed regex p.allowedActions action) = true) (i : Name) :
    grants cfg regex caller action i = true := by
  obtain ⟨role, held, h⟩ := List.any_eq_true.mp h
  obtain ⟨p, mem, h⟩ := List.any_eq_true.mp h
  obtain ⟨everything, allowed⟩ := Bool.and_eq_true_iff.mp h
  obtain ⟨pat, inside, star⟩ := List.any_eq_true.mp everything
  have reached : (substituted regex caller).reaches pat i = true := by
    show patternMatches regex (substitute pat caller) i = true
    rw [beq_iff_eq.mp star]
    rfl
  refine Bool.or_eq_true_iff.mpr (.inr (List.any_eq_true.mpr ⟨role, held, ?_⟩))
  refine List.any_eq_true.mpr ⟨p, mem, Bool.and_eq_true_iff.mpr ⟨?_, allowed⟩⟩
  exact List.any_eq_true.mpr ⟨pat, inside, reached⟩

/-- The three verdicts, each by which of the indices are granted. -/
theorem verdict_grants (cfg : SecurityConfig) (regex : Text → Text → Bool)
    (caller : Caller) (action : Text) (indices : List Name) :
    (indexVerdict cfg regex caller action indices = .allowed ∧
      ∀ i ∈ indices, grants cfg regex caller action i = true) ∨
    (∃ granted, indexVerdict cfg regex caller action indices = .part granted ∧
      granted = indices.filter (grants cfg regex caller action) ∧
      granted.length ≠ indices.length) ∨
    ∃ missing, indexVerdict cfg regex caller action indices = .denied missing ∧
      (indices.filter (grants cfg regex caller action)).length ≠ indices.length := by
  unfold indexVerdict SecurityConfig.verdictIn
  cases free : caller.unrestricted with
  | true =>
    refine .inl ⟨if_pos rfl, fun i _ => ?_⟩
    rw [grants, free]
    rfl
  | false =>
    rw [if_neg Bool.false_ne_true]
    dsimp only
    have same : (fun i => (cfg.rolesOf caller).any fun role => role.indexPermissions.any fun p =>
        p.indexPatterns.any ((substituted regex caller).reaches · i) &&
          cfg.actionAllowed regex p.allowedActions action) = grants cfg regex caller action := by
      funext i
      rw [grants, free]
      rfl
    split
    case isTrue wildcard => exact .inl ⟨rfl, fun i _ => grants_of_wildcard wildcard i⟩
    case isFalse =>
      split
      case isTrue empty =>
        refine .inl ⟨rfl, fun i mem => ?_⟩
        rw [List.isEmpty_iff.mp empty] at mem
        cases mem
      case isFalse =>
        rw [same]
        split
        case isTrue all =>
          exact .inl ⟨rfl, List.length_filter_eq_length_iff.mp all⟩
        case isFalse less =>
          split
          · exact .inr (.inl ⟨_, rfl, rfl, less⟩)
          · exact .inr (.inr ⟨_, rfl, less⟩)

theorem grants_iff {index : Name} : grants cfg regex caller action index = true ↔
    caller.unrestricted = true ∨ ∃ p ∈ cfg.reaching (substituted regex caller) caller index,
      cfg.actionAllowed regex p.allowedActions action = true := by
  unfold grants SecurityConfig.reaching
  simp only [Bool.or_eq_true, List.any_eq_true, Bool.and_eq_true, List.mem_filter,
    List.mem_flatMap]
  refine or_congr_right ⟨?_, ?_⟩
  · rintro ⟨role, held, p, inside, reached, allowed⟩
    exact ⟨p, ⟨⟨role, held, inside⟩, reached⟩, allowed⟩
  · rintro ⟨p, ⟨⟨role, held, inside⟩, reached⟩, allowed⟩
    exact ⟨role, held, p, inside, reached, allowed⟩

/-- What the verdict comes to, however it is reached. -/
theorem indexVerdict_eq (indices : List Name) : indexVerdict cfg regex caller action indices =
    let granted := indices.filter (grants cfg regex caller action)
    if granted.length = indices.length then .allowed
    else if !granted.isEmpty && cfg.dnfof then .part granted
    else .denied action := by
  have whole : (∀ i ∈ indices, grants cfg regex caller action i = true) →
      (indices.filter (grants cfg regex caller action)).length = indices.length :=
    List.length_filter_eq_length_iff.mpr
  dsimp only
  rcases verdict_grants cfg regex caller action indices with ⟨same, all⟩ | ⟨_, same, rfl, less⟩ |
    ⟨_, same, less⟩
  · rw [if_pos (whole all), same]
  all_goals
    rw [if_neg less, same]
    have unfolded := same
    unfold indexVerdict SecurityConfig.verdictIn at unfolded
    have bound : caller.unrestricted = false := by
      rw [Bool.eq_false_iff]
      intro free
      rw [if_pos free] at unfolded
      cases unfolded
    have asked : (fun i => (cfg.rolesOf caller).any fun role => role.indexPermissions.any fun p =>
        p.indexPatterns.any ((substituted regex caller).reaches · i) &&
          cfg.actionAllowed regex p.allowedActions action) = grants cfg regex caller action := by
      funext i
      rw [grants, bound]
      rfl
    rw [if_neg (Bool.eq_false_iff.mp bound)] at unfolded
    dsimp only at unfolded
    rw [asked, if_neg less] at unfolded
    split at unfolded
    · cases unfolded
    split at unfolded
    · cases unfolded
    exact unfolded.symm

theorem Widens.reaching (more : Widens cfg cfg' caller) {sense : Sense} {index : Name}
    {p : IndexPermission} (mem : p ∈ cfg.reaching sense caller index) :
    p ∈ cfg'.reaching sense caller index := by
  obtain ⟨inside, reached⟩ := List.mem_filter.mp mem
  obtain ⟨role, held, inside⟩ := List.mem_flatMap.mp inside
  exact List.mem_filter.mpr ⟨List.mem_flatMap.mpr ⟨role, more.roles role held, inside⟩, reached⟩

theorem Widens.grants (more : Widens cfg cfg' caller) {index : Name}
    (h : Security.grants cfg regex caller action index = true) :
    Security.grants cfg' regex caller action index = true := by
  rw [grants_iff] at h ⊢
  refine h.imp_right fun ⟨p, mem, allowed⟩ => ⟨p, more.reaching mem, ?_⟩
  unfold SecurityConfig.actionAllowed SecurityConfig.resolveActions at allowed ⊢
  rwa [more.groups]

/-- **A role more refuses nothing**: an action that was allowed on some indices is allowed on
them, and one that was allowed on a part of them is allowed on that part at least. -/
theorem verdict_widens (more : Widens cfg cfg' caller) (indices : List Name) :
    (indexVerdict cfg regex caller action indices = .allowed →
      indexVerdict cfg' regex caller action indices = .allowed) ∧
      ∀ granted, indexVerdict cfg regex caller action indices = .part granted →
        indexVerdict cfg' regex caller action indices = .allowed ∨
          ∃ granted', indexVerdict cfg' regex caller action indices = .part granted' ∧
            granted.Sublist granted' := by
  have sub : (indices.filter (grants cfg regex caller action)).Sublist
      (indices.filter (grants cfg' regex caller action)) :=
    List.monotone_filter_right indices fun index h => more.grants h
  have longer := sub.length_le
  have most := List.length_filter_le (grants cfg' regex caller action) indices
  rw [indexVerdict_eq, indexVerdict_eq]
  dsimp only
  constructor
  · intro h
    split at h
    case isTrue all => rw [if_pos (by omega)]
    case isFalse =>
      split at h <;> cases h
  · intro granted h
    split at h
    · cases h
    case isFalse =>
      split at h
      case isFalse => cases h
      case isTrue some_ =>
        cases h
        rw [Bool.and_eq_true, Bool.not_eq_true', List.isEmpty_eq_false_iff] at some_
        split
        · exact .inl rfl
        · refine .inr ⟨_, if_pos ?_, sub⟩
          rw [Bool.and_eq_true, Bool.not_eq_true', List.isEmpty_eq_false_iff, more.dnfof]
          exact ⟨fun none => some_.1 (List.sublist_nil.mp (none ▸ sub)), some_.2⟩

/-- A role that grants the same action on an index of its own. -/
def alsoLogs (cfg : SecurityConfig) : SecurityConfig :=
  { cfg with
    roles := [("own_index".toList,
      { indexPermissions := ((cfg.roles.lookup "own_index".toList).map
            Role.indexPermissions).getD []
        tenantPermissions := [] }),
      ("logs".toList,
      { indexPermissions := [
          { indexPatterns := ["logs-*".toList]
            allowedActions := ["indices:*".toList]
            dls := none
            fls := []
            maskedFields := [] }]
        tenantPermissions := [] })] }

def annAndLogs : Caller :=
  { ann with roles := ["own_index".toList, "logs".toList] }

theorem widens_alsoLogs : Widens ownIndex (alsoLogs ownIndex) annAndLogs where
  roles role held := by
    have roles : ownIndex.rolesOf annAndLogs =
        [((ownIndex.roles.lookup "own_index".toList)).getD ⟨[], []⟩] := by
      rfl
    rw [roles] at held
    obtain rfl := List.mem_singleton.mp held
    exact List.mem_cons_self
  groups := rfl
  dnfof := rfl

theorem verdict_widens_logs :
    indexVerdict (alsoLogs ownIndex) noRegex annAndLogs "indices:data/read".toList
      ["ann".toList] = .allowed :=
  (verdict_widens widens_alsoLogs ["ann".toList]).1 (by decide +kernel)

end

end Security
end Velosearch
