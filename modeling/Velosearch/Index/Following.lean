import Velosearch.Index.Made

/-!
# A copy that follows its primary

The primary decides by the version type of a request and by what it holds; a copy
decides by the one version it holds (`applyReplicated`). The two agree as long as every
version the primary gives is above the one it held, live or deleted: then an operation
the primary records is one the copy has not seen, and taking it leaves on the copy what
the write left on the primary.

Three kinds of request break that. A delete an external version numbers is recorded
nowhere. An external version may fall below that of the document's tombstone, and
`external_gte` lets it stay where it was. The fourth break is not in the numbers:
a refresh of one shard forgets a document whose work waits under another.
-/

set_option autoImplicit false

namespace Velosearch.Index

open Velosearch.Cluster (BTreeMap u64Max)

/-! ## What a primary is asked -/

/-- A request to an index, and the refresh a node makes on its own. -/
inductive Request where
  | index (id : String) (kept : Except Refusal String) (opType : OpType) (p : Params)
  | delete (id : String) (p : Params)
  | refresh

/-- The version a write brings along. -/
def Params.external (p : Params) : Option Nat :=
  if p.versionType = .internal then none else p.version

namespace IdxState

variable {S : Settings} {terms : BTreeMap Nat Nat} {st st' : IdxState} {id : String}

/-- A request on the primary, with what it sends to its copy. -/
def serve (S : Settings) (terms : BTreeMap Nat Nat) (st : IdxState) :
    Request → IdxState × List ReplicaOp
  | .index id kept opType p => ((st.doIndex S terms id kept opType p).1,
      (st.doIndex S terms id kept opType p).2.1)
  | .delete id p => ((st.deleteDocRoute S terms id p).1, (st.deleteDocRoute S terms id p).2.1)
  | .refresh => (st.refresh, [])

/-- The version that is brought is above what is held. -/
def Above (S : Settings) (st : IdxState) (id : String) (external : Option Nat) : Prop :=
  ∀ h, st.heldVersion S id = some h → h < external.getD u64Max

instance (external : Option Nat) : Decidable (st.Above S id external) :=
  decidable_of_iff ((st.heldVersion S id).all fun h => decide (h < external.getD u64Max)) (by
    simp only [Above]
    cases st.heldVersion S id <;> simp)

/-- Nothing else of the shard waits, and the document is pinned to it. -/
def Gathered (S : Settings) (st : IdxState) (id : String) (shard : Nat) : Prop :=
  (∀ j, id ≠ j → st.Waits S shard j) ∧ Under shard id st

/-- A request whose version climbs, whose delete is taken and recorded, and whose
refresh reaches what waits. -/
def Climbs (S : Settings) (st : IdxState) : Request → Prop
  | .index id _ _ p =>
    st.Above S id p.external ∧
      (p.refresh = true → st.Gathered S id (S.shardOf id (p.routing.filter (· != ""))))
  | .delete id p =>
    (match p.external with
      | some v => st.isLive S id = false ∧ ∀ h, st.heldVersion S id = some h → h ≤ v
      | none => st.changeRefusal = none ∧ st.Above S id none) ∧
    (p.refresh = true → st.Gathered S id (st.shardOfDoc S id))
  | .refresh => True

/-! ## What comes of it -/

theorem versionCheck_forced {p : Params} {forced : Option Nat}
    (h : st.versionCheck S id p = .ok forced) : forced = p.external := by
  rw [versionCheck] at h
  rw [Params.external]
  cases hv : p.version with
  | none =>
    simp only [hv, Except.ok.injEq] at h
    rw [← h, ite_self]
  | some want =>
    cases ht : p.versionType <;> simp only [hv, ht] at h <;> split at h <;> simp_all

/-- A version that is given is above what was held. -/
theorem nextVersion_above {external : Option Nat} (above : st.Above S id external) (h : Nat)
    (held : st.heldVersion S id = some h) : h < st.nextVersion S id external := by
  have := above h held
  cases external with
  | some v => exact this
  | none =>
    have room : h < u64Max := this
    have : succ64 h = h + 1 := Nat.mod_eq_of_lt (by simp only [u64Max] at room; omega)
    simp only [nextVersion, held, Option.map_some, Option.getD_some, Option.getD_none, this]
    omega

/-- What a request comes to, on either side. -/
def Outcome (S : Settings) (st : IdxState) (r : IdxState × List ReplicaOp) : Prop :=
  (r.2 = [] ∧ Still S st r.1) ∨
  ∃ op, r.2 = [op] ∧ Made S st r.1 op ∧ ∀ h, st.heldVersion S op.id = some h → h < op.version

theorem setRouting_back (st : IdxState) (id : String) (routed : Option String) :
    (st.setRouting id routed).setRouting id st.routing[id]? = st := by
  have back : ((st.setRouting id routed).setRouting id st.routing[id]?).routing = st.routing := by
    refine Std.ExtTreeMap.ext_getElem? fun k => ?_
    by_cases here : id = k
    · subst here
      cases hr : st.routing[id]? <;> simp [setRouting]
    · cases hr : st.routing[id]? <;> cases routed <;>
        simp [setRouting, Std.ExtTreeMap.getElem?_insert, Std.ExtTreeMap.getElem?_erase, here]
  have only : (st.setRouting id routed).setRouting id st.routing[id]? = { st with
      routing := ((st.setRouting id routed).setRouting id st.routing[id]?).routing } := rfl
  rw [only, back]

theorem shardOfDoc_setRouting (routed : Option String) :
    (st.setRouting id routed).shardOfDoc S id = S.shardOf id routed := by
  cases routed <;> simp [shardOfDoc, setRouting]

/-- Routing moves nothing that waits. -/
theorem Gathered.setRouting {shard : Nat} (h : st.Gathered S id shard) (routed : Option String) :
    (st.setRouting id routed).Gathered S id shard :=
  ⟨fun j other => (setRouting_leaves other routed).waits (h.1 j other), h.2⟩

theorem Made.refreshed {op : ReplicaOp} (h : Made S st st' op) {p : Params} {shard : Nat}
    (others : p.refresh = true → ∀ j, op.id ≠ j → st.Waits S shard j)
    (own : p.refresh = true → st'.Waits S shard op.id) :
    Made S st (st'.maybeRefresh S p shard) op := by
  rw [maybeRefresh]
  split
  case isTrue asked =>
    refine h.then fun j => refreshShard_leaves shard ?_
    by_cases other : op.id = j
    · exact other ▸ own asked
    · exact (h.leaves j other).waits (others asked j other)
  case isFalse => exact h

theorem writeDocChecked_granted {kept : Except Refusal String} {opType : OpType} {p : Params}
    {r : IdxState × ReplicaOp × Answer}
    (h : st.writeDocChecked S terms id kept opType p = .ok r) :
    ∃ raw, kept = .ok raw ∧ r = st.writeGranted S terms id raw p.external := by
  rw [writeDocChecked] at h
  split at h
  · exact absurd h nofun
  · cases checked : st.versionCheck S id p with
    | error refusal =>
      rw [checked] at h
      exact absurd h nofun
    | ok forced =>
      obtain rfl := versionCheck_forced checked
      rw [checked] at h
      have h : st.writeDocUncounted S terms id kept opType p.external = .ok r := h
      simp only [writeDocUncounted] at h
      split at h
      · exact absurd h nofun
      · split at h
        · exact absurd h nofun
        · split at h
          · exact absurd h nofun
          · split at h
            · exact absurd h nofun
            · cases kept with
              | error complaint => exact absurd h nofun
              | ok raw => exact ⟨raw, rfl, (Except.ok.inj h).symm⟩

/-- A write on the primary. -/
theorem doIndex_outcome (sound : st.Sound S) {kept : Except Refusal String} {opType : OpType}
    {p : Params} (climbs : st.Climbs S (.index id kept opType p)) :
    Outcome S st (st.serve S terms (.index id kept opType p)) := by
  obtain ⟨above, gathered⟩ := climbs
  rw [serve, doIndex]
  dsimp only
  split
  · exact .inl ⟨rfl, .refl sound⟩
  · split
    case h_2 refusal _ =>
      refine .inl ⟨rfl, ?_⟩
      rw [setRouting_back]
      exact .refl sound
    case h_1 after op answer granted =>
      have routed := sound.setRouting id (p.routing.filter (· != ""))
      obtain ⟨raw, -, eq⟩ := writeDocChecked_granted granted
      obtain rfl : after = _ := congrArg Prod.fst eq
      obtain rfl : op = _ := (congrArg (·.2.1) eq).trans
        (writeGranted_eq (routed.agrees id) raw p.external).1
      have made := (writeGranted_made routed terms id raw p.external).after
        (fun j other => setRouting_leaves other _)
      refine .inr ⟨_, rfl, ?_, ?_⟩
      · rw [shardOfDoc, writeGranted_routing (routed.agrees id)]
        have shard : S.shardOf id (st.setRouting id (p.routing.filter (· != ""))).routing[id]? =
          S.shardOf id (p.routing.filter (· != "")) := shardOfDoc_setRouting _
        rw [shard]
        refine made.refreshed (fun asked => (gathered asked).1) fun asked => Under.waits ?_
        have under := ((gathered asked).setRouting (p.routing.filter (· != ""))).2
        rw [← shard] at under ⊢
        exact writeGranted_under routed raw p.external under
      · intro h held
        refine nextVersion_above ?_ h ?_
        · intro h' held'
          rw [sound.setRouting_heldVersion] at held'
          exact above h' held'
        · rw [sound.setRouting_heldVersion]
          exact held

theorem Still.refreshed (h : Still S st st') {p : Params} {shard : Nat}
    (waits : p.refresh = true → ∀ j, st'.Waits S shard j) :
    Still S st (st'.maybeRefresh S p shard) := by
  rw [maybeRefresh]
  split
  case isTrue asked =>
    exact h.trans (Leaves.still (fun j => refreshShard_leaves shard (waits asked j)) h.sound)
  case isFalse => exact h

/-- A deletion of a document that is not there. -/
theorem missed_outcome (sound : st.Sound S) (dead : st.isLive S id = false) {v : Nat} {p : Params}
    (eq : st' = { st with versions := st.versions.insert id ⟨v, false⟩, seqNo := st'.seqNo })
    (above : ∀ h, st.heldVersion S id = some h → h ≤ v)
    (gathered : p.refresh = true → st.Gathered S id (st.shardOfDoc S id)) :
    Still S st ((st'.setRouting id none).maybeRefresh S p (st.shardOfDoc S id)) := by
  refine (still_missed sound dead eq above).refreshed fun asked j => ?_
  by_cases other : id = j
  · subst other
    have under : Under (st.shardOfDoc S id) id (st'.setRouting id none) := by
      rw [eq]
      exact (gathered asked).2
    exact under.waits
  · have leaves : Leaves S j st st' :=
      versions_leaves (by rw [eq]) (by rw [eq]; simp [Std.ExtTreeMap.getElem?_insert, other])
        (by rw [eq]; exact fun _ h => h)
    exact (leaves.trans (setRouting_leaves other none)).waits ((gathered asked).1 j other)

/-- A deletion on the primary. -/
theorem deleteDocRoute_outcome (sound : st.Sound S) {p : Params}
    (climbs : st.Climbs S (.delete id p)) :
    Outcome S st (st.serve S terms (.delete id p)) := by
  obtain ⟨taken, gathered⟩ := climbs
  rw [serve, deleteDocRoute]
  split
  · exact .inl ⟨rfl, .refl sound⟩
  · split
    · exact .inl ⟨rfl, .refl sound⟩
    · split
      · exact .inl ⟨rfl, .refl sound⟩
      case h_2 v checked =>
        rw [← versionCheck_forced checked] at taken
        obtain ⟨dead, above⟩ := taken
        refine .inl ⟨rfl, ?_⟩
        simp only [deleteExternal, dead]
        exact missed_outcome sound dead rfl above gathered
      case h_3 checked =>
        rw [← versionCheck_forced checked] at taken
        obtain ⟨open_, above⟩ := taken
        split
        · exact .inl ⟨rfl, .refl sound⟩
        · cases live : st.isLive S id with
          | false =>
            refine .inl ⟨?_, ?_⟩
            · simp [deleteDoc, open_, live]
            · have version := bump_version (sound.agrees id) false
              rw [live] at version
              have state : (st.deleteDoc S terms id).1 = (st.bump S id false false).1 := by
                simp [deleteDoc, open_, live]
              simp only [state]
              refine missed_outcome sound live (v := st.nextVersion S id none) ?_ ?_ gathered
              · rw [← version]
                simp [bump]
              · exact fun h held => (nextVersion_above above h held).le
          | true =>
            obtain ⟨ops, made⟩ := deleteDoc_made sound terms open_ live
            refine .inr ⟨st.deleted S terms id, ops, ?_, fun h held => ?_⟩
            · refine (made.forget rfl).refreshed (fun asked => (gathered asked).1) fun asked => ?_
              have under := deleteDoc_under terms (gathered asked).2
              exact Under.waits under
            · exact nextVersion_above above h held

/-- Any request. -/
theorem serve_outcome (sound : st.Sound S) {r : Request} (climbs : st.Climbs S r) :
    Outcome S st (st.serve S terms r) := by
  cases r with
  | index id kept opType p => exact doIndex_outcome sound climbs
  | delete id p => exact deleteDocRoute_outcome sound climbs
  | refresh => exact .inl ⟨rfl, Leaves.still (fun _ => refresh_leaves) sound⟩

end IdxState

/-! ## A primary and a copy -/

/-- A primary and a copy that hears of its writes as they are made. -/
structure Pair where
  primary : IdxState
  copy : IdxState

namespace Pair

variable {S : Settings} {terms : BTreeMap Nat Nat} {x : Pair}

/-- A request to the primary, the operations it recorded applied on the copy in the order
they were made, and the copy refreshed with them or not. -/
def step (S : Settings) (terms : BTreeMap Nat Nat) (x : Pair) (r : Request) (refresh : Bool) :
    Pair :=
  let (primary, ops) := x.primary.serve S terms r
  let copy := ops.foldl (fun st op => (st.applyReplicated S op).1) x.copy
  { primary, copy := if refresh then copy.refresh else copy }

/-- Requests one after another, each of which the copy may get or not. -/
def run (S : Settings) (terms : BTreeMap Nat Nat) (x : Pair) (rs : List (Request × Bool)) : Pair :=
  rs.foldl (fun x r => x.step S terms r.1 r.2) x

/-- What is asked of every request of a run. -/
def Climbs (S : Settings) (terms : BTreeMap Nat Nat) (x : Pair) : List (Request × Bool) → Prop
  | [] => True
  | r :: rs => x.primary.Climbs S r.1 ∧ (x.step S terms r.1 r.2).Climbs S terms rs

/-- The copy has what the primary has, and no version the primary has not reached. -/
structure Level (S : Settings) (x : Pair) : Prop where
  primary : x.primary.Sound S
  copy : x.copy.Sound S
  documents : ∀ id, x.copy.document S id = x.primary.document S id
  behind : ∀ id v, x.copy.heldVersion S id = some v →
    ∃ w, x.primary.heldVersion S id = some w ∧ v ≤ w

/-- What is above what the copy holds is taken. -/
theorem applyReplicated_above {st : IdxState} {op : ReplicaOp} (sound : st.Sound S)
    (above : ∀ h, st.heldVersion S op.id = some h → h < op.version) :
    IdxState.Made S st (st.applyReplicated S op).1 op := by
  rw [IdxState.applyReplicated, IdxState.applyReplicatedInner]
  simp only [Bool.false_eq_true, if_false]
  split
  · -- a write of a newer term, which wins whatever stands here
    have raised : ∀ j, IdxState.Leaves S j st { st with appliedTerm := op.term } := fun j =>
      ⟨fun h => ⟨h.queues, h.resting⟩, fun _ => rfl, rfl, rfl, IdxState.Lingers.refl, fun _ h =>
        ⟨h.single, h.waiting, h.shown, h.versioned, h.unversioned, h.numbered, h.numbers⟩⟩
    exact (IdxState.take_made (IdxState.Leaves.sound raised sound) op).after fun j _ => raised j
  · split
    case isTrue newer =>
      cases held : st.heldVersion S op.id with
      | none => simp [held] at newer
      | some h =>
        rw [held] at newer
        exact absurd (above h held) (by simpa using newer)
    case isFalse => exact IdxState.take_made sound op

/-- A refresh of the copy. -/
theorem Level.refreshed (h : Level S x) (refresh : Bool) :
    Level S { x with copy := if refresh then x.copy.refresh else x.copy } := by
  cases refresh with
  | false => exact h
  | true =>
    have still := IdxState.Leaves.still (fun _ => IdxState.refresh_leaves (S := S)) h.copy
    refine ⟨h.primary, still.sound, fun id => (still.document id).trans (h.documents id), ?_⟩
    intro id v hv
    have leaves : IdxState.Leaves S id x.copy x.copy.refresh := IdxState.refresh_leaves
    exact h.behind id v (by rwa [← leaves.heldVersion h.copy])

/-- One request: both sides hold the same documents after it. -/
theorem Level.step (h : Level S x) {r : Request} (climbs : x.primary.Climbs S r) (refresh : Bool) :
    Level S (x.step S terms r refresh) := by
  have told : Level S { primary := (x.primary.serve S terms r).1
                        copy := (x.primary.serve S terms r).2.foldl
                          (fun st op => (st.applyReplicated S op).1) x.copy } := by
    have outcome : IdxState.Outcome S x.primary (x.primary.serve S terms r) :=
      IdxState.serve_outcome h.primary climbs
    rcases outcome with ⟨silent, still⟩ | ⟨op, recorded, made, above⟩
    · rw [silent]
      refine ⟨still.sound, h.copy, fun id => (h.documents id).trans (still.document id).symm, ?_⟩
      intro id v hv
      obtain ⟨w, hw, le⟩ := h.behind id v hv
      obtain ⟨u, hu, le'⟩ := still.heldVersion id w hw
      exact ⟨u, hu, le.trans le'⟩
    · rw [recorded]
      have taken : IdxState.Made S x.copy (x.copy.applyReplicated S op).1 op := by
        refine applyReplicated_above h.copy fun v hv => ?_
        obtain ⟨w, hw, le⟩ := h.behind op.id v hv
        exact le.trans_lt (above w hw)
      refine ⟨made.sound, taken.sound, fun id => ?_, fun id v hv => ?_⟩
      · by_cases other : op.id = id
        · subst other
          exact taken.document.trans made.document.symm
        · exact ((taken.leaves id other).document h.copy).trans
            ((h.documents id).trans ((made.leaves id other).document h.primary).symm)
      · by_cases other : op.id = id
        · subst other
          exact ⟨op.version, made.heldVersion, (Option.some.inj (taken.heldVersion.symm.trans hv)).ge⟩
        · have hv : (x.copy.applyReplicated S op).1.heldVersion S id = some v := hv
          rw [(taken.leaves id other).heldVersion h.copy] at hv
          obtain ⟨w, hw, le⟩ := h.behind id v hv
          exact ⟨w, by rw [(made.leaves id other).heldVersion h.primary, hw], le⟩
  exact told.refreshed refresh

/-- Any number, by induction. -/
theorem Level.run (h : Level S x) {rs : List (Request × Bool)} (climbs : x.Climbs S terms rs) :
    Level S (x.run S terms rs) := by
  induction rs generalizing x with
  | nil => exact h
  | cons r rs ih => exact ih (h.step climbs.1 r.2) climbs.2

/-- **A copy follows its primary**: from a copy that has what the primary has, through
any requests whose versions climb, the copy's live documents stay the primary's, with
the same source, version, sequence number and routing. -/
theorem copy_follows (S : Settings) (terms : BTreeMap Nat Nat) (x : Pair) (level : Level S x)
    (rs : List (Request × Bool)) (climbs : x.Climbs S terms rs) (id : String) :
    (x.run S terms rs).copy.document S id = (x.run S terms rs).primary.document S id :=
  (level.run climbs).documents id

/-! ## Two copies of an empty index -/

def oneShard : Settings :=
  { shardOf := fun _ _ => 0, idFingerprint := fun _ => 0, routingRequired := false
    partitionSize := 1 }

def fresh : Pair :=
  { primary := { name := "books" }, copy := { name := "books" } }

theorem sound_empty (S : Settings) (name : String) : IdxState.Sound S { name } := by
  refine ⟨⟨by rintro _ ⟨⟩, fun _ => rfl⟩,
    fun id => ⟨by simp [IdxState.settled, docsOf], ?_, ?_, ?_, ?_, ?_, ?_⟩⟩
  · simp
  · exact fun _ => ⟨by rintro _ ⟨⟩, rfl⟩
  · simp
  · simp [IdxState.settled, docsOf]
  · simp
  · simp

theorem level_fresh (S : Settings) : Level S fresh :=
  ⟨sound_empty S _, sound_empty S _, fun _ => rfl, fun _ v hv => ⟨v, hv, le_rfl⟩⟩

def written : List (Request × Bool) :=
  [(.index "1" (.ok "a") .index {}, false),
    (.index "1" (.ok "b") .index { version := some 5, versionType := .external }, true),
    (.delete "1" {}, false)]

theorem copy_follows_delete :
    (fresh.run oneShard ∅ written).copy.document oneShard "1" =
      (fresh.run oneShard ∅ written).primary.document oneShard "1" := by
  refine copy_follows oneShard ∅ fresh (level_fresh oneShard) written ?_ "1"
  exact ⟨⟨by decide +kernel, nofun⟩, ⟨by decide +kernel, nofun⟩,
    ⟨⟨rfl, by decide +kernel⟩, nofun⟩, trivial⟩

/-- A document written, and deleted at a version of the caller's. -/
def deletedOutside : List (Request × Bool) :=
  [(.index "1" (.ok "a") .index {}, false),
    (.delete "1" { version := some 5, versionType := .external }, false)]

/-- A delete that an external version numbers is recorded nowhere: the primary has let the
document go, the copy has not. -/
theorem external_delete_unheard : Level oneShard fresh ∧
    (fresh.run oneShard ∅ deletedOutside).copy.document oneShard "1" ≠
      (fresh.run oneShard ∅ deletedOutside).primary.document oneShard "1" :=
  ⟨level_fresh oneShard, by decide +kernel⟩

end Pair

end Velosearch.Index
