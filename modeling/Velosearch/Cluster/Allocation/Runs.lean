import Velosearch.Cluster.Allocation.LaidAlike

/-!
# Routing tables over whole runs

A run is any sequence of `reroute`s, shard events and command requests, each `reroute`
and each request with a context of its own. Four things are asked of every table a run
comes to:

* no two copies of a shard on one node (`NoTwins`);
* both ends of every relocation, and one each (`PairsUp`);
* one primary and as many copies as the index's settings say (`Shaped`);
* an allocation id for one copy, on one node (`Distinct`, and `Follows` over time).

None of them holds of every run. Each is shown of the runs whose operations do not come
upon the place in the source that breaks it, with a run that does.
-/

set_option autoImplicit false

namespace Velosearch.Cluster.Allocation

open ShardRouting Lib

/-! ## Runs -/

/-- What edits a routing table. -/
inductive Op where
  | reroute (ctx : Context)
  | started (index : String) (shard : Nat) (allocationId : String)
  | failed (index : String) (shard : Nat) (allocationId : String) (now : Millis) (message : String)
  | stale (index : String) (shard : Nat) (allocationId : String) (now : Millis)
  | commands (ctx : Context) (explain : Bool) (cmds : List Command)

namespace Board

variable (ids : Nat → String)

/-- One operation; a request that is refused leaves the table as it is. -/
def apply (b : Board) : Op → Board
  | .reroute ctx => (Allocation.reroute ctx ids b.table b.drawn).board
  | .started index shard id => ⟨(shardStarted b.table index shard id).1, b.drawn⟩
  | .failed index shard id now message =>
    ⟨(shardFailed b.table index shard id now message).1, b.drawn⟩
  | .stale index shard id now => ⟨(shardStale b.table index shard id now).1, b.drawn⟩
  | .commands ctx explain cmds =>
    match applyCommands ctx ids explain ⟨b.table, {}, b.drawn⟩ cmds [] with
    | .ok (w, _) => w.board
    | .error _ => b

/-- Operations one after another. -/
def run (b : Board) (ops : List Op) : Board := ops.foldl (apply ids) b

/-- Every operation of a run meets a condition where it is carried out. -/
def Meets (C : Board → Op → Prop) (b : Board) : List Op → Prop
  | [] => True
  | op :: ops => C b op ∧ Meets C (b.apply ids op) ops

end Board

variable {ids : Nat → String} {b : Board} {op : Op} {ops : List Op} {C : Board → Op → Prop}

/-- What each operation keeps, a run keeps. -/
theorem run_keeps {I : Board → Prop}
    (step : ∀ b op, I b → C b op → I (b.apply ids op)) (h : I b) (meets : b.Meets ids C ops) :
    I (b.run ids ops) := by
  induction ops generalizing b with
  | nil => exact h
  | cons op ops ih => exact ih (step b op h meets.1) meets.2

/-- Rules for operations other than `reroute`, which settles nothing with the index's
settings. -/
def looking (apart paired : Prop) : Rules where
  apart := apart
  paired := paired
  steady _ := True
  syncs := False
  events := True
  colocates := False
  founds _ _ := False
  inSync _ _ := none
  grants _ _ _ _ := True

/-- The rules a `reroute` is held to. -/
def rerouting (ctx : Context) (apart paired : Prop) (steady : String → Prop) (syncs : Prop) :
    Rules where
  apart := apart
  paired := paired
  steady := steady
  syncs := syncs
  events := False
  colocates := True
  founds _ _ := True
  inSync := inSyncOf ctx
  grants := ctx.grants

/-! ## A small cluster, to run -/

/-- Ids that are never given twice. -/
def tally (n : Nat) : String := String.ofList (List.replicate (n + 1) 'i')

theorem tally_injective : Function.Injective tally := by
  intro n m h
  have same := congrArg (fun s : String => s.toList.length) h
  simpa [tally] using same

/-- A data node. -/
def dataNode (id : NodeId) : DiscoveryNode where
  id := id
  name := id
  ephemeralId := id
  transportAddress := id
  roles := ["data"]
  attributes := ∅
  httpAddress := id

/-- An index of so many shards and replicas. -/
def books (shards replicas : Nat) : IndexMetadata where
  name := "books"
  uuid := "u"
  settings := {}
  numberOfShards := shards
  numberOfReplicas := replicas
  primaryTerms := ∅
  inSyncAllocations := ∅
  creationDate := 0
  text := ""

/-- That index on some nodes. -/
def library (nodes : List NodeId) (shards replicas : Nat) : Context where
  nodes := .ofList (nodes.map fun n => (n, dataNode n))
  indices := .ofList [("books", books shards replicas)]

/-- A table with nothing in it. -/
def Board.blank : Board := ⟨{}, 0⟩

theorem blank_copies (index : String) (shard : Nat) : Board.blank.copies index shard = [] := by
  simp [Board.blank, Board.copies, RoutingTable.copies]

theorem blank_tidy : Tidy True tally .blank := by
  intro index shard
  rw [blank_copies]
  exact sited_nil

/-- Two shards with a replica each, all started. -/
def shelved : List Op :=
  let ctx := library ["a", "b", "c"] 2 1
  [.reroute ctx, .started "books" 0 (tally 0), .started "books" 1 (tally 1), .reroute ctx,
    .started "books" 0 (tally 2), .started "books" 1 (tally 3)]

/-! ## No two copies on one node -/

/-- No shard has two assigned copies on one node. -/
def Board.NoTwins (b : Board) : Prop :=
  ∀ index shard, (b.copies index shard).Pairwise fun a c =>
    a.state ≠ .unassigned → c.state ≠ .unassigned → a.node ≠ c.node

/-- The places where a copy is put on a node nobody looked at: a home that holds
documents, and the target of the shards a move takes along. -/
def Looks (ids : Nat → String) (b : Board) : Op → Prop
  | .reroute ctx => HomeFree ctx b
  | .commands ctx explain cmds => AllRoomy ctx ids explain ⟨b.table, {}, b.drawn⟩ cmds
  | _ => True

/-- The events and the commands are edits. -/
theorem event_edits (inj : Function.Injective ids) {apart paired : Prop}
    (tidy : Tidy apart ids b) (other : ∀ ctx, op ≠ .reroute ctx)
    (looks : apart → Looks ids b op)
    (failed : paired → ∀ index shard id now message, op = .failed index shard id now message →
      ∀ c ∈ b.copies index shard, c.allocationId = some id → c.state ≠ .relocating)
    (stale : paired → ∀ index shard id now, op = .stale index shard id now →
      ∀ c ∈ b.copies index shard, c.allocationId = some id → c.primary = false → c.Idle) :
    Edits (looking apart paired) ids b (b.apply ids op) := by
  cases op with
  | reroute ctx => exact absurd rfl (other ctx)
  | started index shard id => exact shardStarted_edits trivial
  | failed index shard id now message =>
    exact shardFailed_edits trivial now message fun asked => failed asked _ _ _ _ _ rfl
  | stale index shard id now => exact shardStale_edits trivial now fun asked => stale asked _ _ _ _ rfl
  | commands ctx explain cmds =>
    simp only [Board.apply]
    split
    · rename_i w said h
      exact applyCommands_edits (R := looking apart paired) (w := ⟨b.table, {}, b.drawn⟩) inj trivial tidy
        (fun _ _ _ _ => trivial) looks h
    · exact .refl

/-- Copies that are told apart are on different nodes. -/
theorem Tidy.noTwins (h : Tidy True ids b) : b.NoTwins := by
  intro index shard
  refine (h index shard).apart.imp_of_mem fun {a c} ha _ apart assigned _ same => ?_
  obtain ⟨n, hn⟩ := Option.isSome_iff_exists.mp (((h index shard).fits a ha).node.mpr assigned)
  exact apart.nodes trivial n hn (same ▸ hn)

/-- One operation that looks where it puts copies. -/
theorem apply_tidy (inj : Function.Injective ids) (h : Tidy True ids b) (looks : Looks ids b op) :
    Tidy True ids (b.apply ids op) := by
  by_cases kind : ∃ ctx, op = .reroute ctx
  · obtain ⟨ctx, rfl⟩ := kind
    have alike : Alike (rerouting ctx True False (fun _ => False) True)
        (placed ctx ids b.table b.drawn).board := ⟨nofun, fun _ _ => steady_never _ _⟩
    have chain := reroute_edits (R := rerouting ctx True False (fun _ => False) True) inj trivial
      trivial rfl (h.weaken False.elim) (fun _ _ _ _ grant => grant) (fun _ => looks)
      (fun _ _ _ => trivial) nofun alike
    exact Edits.tidy inj chain id h
  · have chain : Edits (looking True False) ids b (b.apply ids op) :=
      event_edits inj h (fun ctx heq => kind ⟨ctx, heq⟩) (fun _ => looks) nofun nofun
    exact Edits.tidy inj chain id h

/-- **No two copies on one node**: no run whose operations look where they put copies
comes to a table with two assigned copies of a shard on one node. -/
theorem copies_stay_apart (inj : Function.Injective ids) (start : Tidy True ids b)
    (meets : b.Meets ids (Looks ids) ops) : (b.run ids ops).NoTwins :=
  (run_keeps (fun _ _ h looks => apply_tidy inj h looks) start meets).noTwins

theorem homeFree_of_none {ctx : Context} (h : ctx.homeHoldsDocuments = ∅) : HomeFree ctx b := by
  intro name shard _ documents
  rw [h] at documents
  exact absurd documents (by simp)

theorem shelved_apart :
    (Board.blank.run tally shelved).NoTwins ∧
      ((Board.blank.run tally shelved).copies "books" 1).map (fun c => (c.primary, c.node)) =
        [(true, some "a"), (false, some "b")] := by
  refine ⟨copies_stay_apart tally_injective blank_tidy ?_, by decide +kernel⟩
  exact ⟨homeFree_of_none rfl, trivial, trivial, homeFree_of_none rfl, trivial, trivial, trivial⟩

/-- A replica is cancelled and allocated on `c`; the primary of the other shard is then
moved to `c`, and takes its neighbour along to where that replica is. -/
theorem move_brings_twins :
    Tidy True tally .blank ∧
      ¬ (Board.blank.run tally (shelved ++ [.commands (library ["a", "b", "c"] 2 1) false
        [.cancel "books" 1 "b" false, .allocate .replica "books" 1 "c" false,
          .move "books" 0 "a" "c"]])).NoTwins := by
  refine ⟨blank_tidy, fun apart => absurd (apart "books" 1) ?_⟩
  decide +kernel

/-! ## Both ends of every relocation -/

/-- The target of a relocation's source. -/
def targetOf (c t : ShardRouting) : Bool :=
  t.state == .initializing && t.node == c.relocatingNode && t.relocatingNode == c.node

/-- The source of a relocation's target. -/
def sourceFor (c s : ShardRouting) : Bool :=
  s.state == .relocating && s.node == c.relocatingNode && s.relocatingNode == c.node

/-- Every source has one target and every target one source. -/
def PairedUp (l : List ShardRouting) : Prop :=
  ∀ c ∈ l, (c.state = .relocating → c.relocatingNode.isSome = true ∧ l.countP (targetOf c) = 1) ∧
    (c.isTarget = true → l.countP (sourceFor c) = 1)

instance (l : List ShardRouting) : Decidable (PairedUp l) :=
  inferInstanceAs (Decidable (∀ c ∈ l, _))

/-- In every shard of the table. -/
def Board.PairsUp (b : Board) : Prop := ∀ index shard, PairedUp (b.copies index shard)

/-- In a sound shard every relocation has both its ends. -/
theorem Whole.pairedUp {A : Counts} {index : String} {shard drawn : Nat} {l : List ShardRouting}
    (h : Whole ids A index shard drawn l) : PairedUp l := by
  intro c hc
  refine ⟨fun source => ?_, fun target => ?_⟩
  · obtain ⟨t, ht, hp⟩ := h.paired.source hc source
    obtain ⟨n, hn⟩ := Option.isSome_iff_exists.mp hp.awaited
    have ahead : c.relocatingNode = some n := hp.ahead.trans hn
    refine ⟨by rw [ahead]; rfl, countP_eq_one h.sited.apart ht ?_ fun x y apart hx hy => ?_⟩
    · simp [targetOf, hp.target, hp.ahead, hp.back]
    · simp only [targetOf, Bool.and_eq_true, beq_iff_eq, ahead] at hx hy
      exact apart.nodes trivial n hx.1.2 hy.1.2
  · obtain ⟨s, hs, hp⟩ := h.paired.target hc target
    obtain ⟨n, hn⟩ := Option.isSome_iff_exists.mp hp.placed
    have back : c.relocatingNode = some n := hp.back.trans hn
    refine countP_eq_one h.sited.apart hs ?_ fun x y apart hx hy => ?_
    · simp [sourceFor, hp.source, hp.ahead, hp.back]
    · simp only [sourceFor, Bool.and_eq_true, beq_iff_eq, back] at hx hy
      exact apart.nodes trivial n hx.1.2 hy.1.2

/-- A table at rest: nothing is on its way, and every shard that has entries has one
primary. -/
structure AtRest (ids : Nat → String) (b : Board) : Prop where
  tidy : Tidy True ids b
  still : ∀ index shard, ∀ c ∈ b.copies index shard, c.Settled
  primary : ∀ index shard, b.copies index shard ≠ [] →
    ((b.copies index shard).countP fun c => c.primary) = 1

def anyCount : Counts := fun _ _ _ => True

/-- A table at rest is sound. -/
theorem AtRest.complete (h : AtRest ids b) : Complete ids anyCount b := by
  intro index shard
  by_cases empty : b.copies index shard = []
  · exact Or.inl ⟨empty, trivial⟩
  · have targets : ∀ c ∈ b.copies index shard, c.isTarget = false := fun c hc =>
      (h.still index shard c hc).not_target
    have heads : (b.copies index shard).countP isHead = 1 := by
      rw [← h.primary index shard empty]
      exact List.countP_congr fun c hc => by simp [isHead, targets c hc]
    have pos : 0 < (b.copies index shard).countP fun c => !c.isTarget := by
      obtain ⟨c, hc⟩ := List.exists_mem_of_ne_nil _ empty
      exact List.countP_pos_iff.mpr ⟨c, hc, by simp [targets c hc]⟩
    obtain ⟨r, seats⟩ := Nat.exists_eq_add_of_le' pos
    refine Or.inr ⟨r, ⟨h.tidy index shard, paired_of_settled (h.still index shard), heads, ?_⟩,
      trivial⟩
    rw [seats, Nat.add_comm]

/-- The places where half a relocation is taken for a copy: replicas counted, promoted
or trimmed while one is on its way, shards of an index that do not go in step, a source
or a target reported failed or stale, and the shards a move takes along. -/
def Careful (ids : Nat → String) (b : Board) : Op → Prop
  | .reroute ctx =>
    (∀ index shard, ctx.owns index shard → ∀ c ∈ b.copies index shard,
      c.primary = false → c.isTarget = false) ∧ InStep ctx b
  | .started .. => True
  | .failed index shard id _ _ => ∀ c ∈ b.copies index shard, c.allocationId = some id →
    c.state ≠ .relocating
  | .stale index shard id _ => ∀ c ∈ b.copies index shard, c.allocationId = some id →
    c.primary = false → c.Idle
  | .commands ctx explain cmds => AllRoomy ctx ids explain ⟨b.table, {}, b.drawn⟩ cmds

variable {A : Counts} {ctx : Context}

theorem Complete.homeFree (h : Complete ids A b) (ctx : Context) : HomeFree ctx b := by
  intro name shard _ _ node _ headless
  rw [(h name shard).nil_of_headless headless]
  exact List.forall_mem_nil _

/-- An event or a command keeps a table sound. -/
theorem event_complete (inj : Function.Injective ids) (uniform : ∀ i s x, A i 0 x → A i s x)
    (h : Complete ids A b) (other : ∀ ctx, op ≠ .reroute ctx) (careful : Careful ids b op) :
    Complete ids A (b.apply ids op) := by
  have chain : Edits (looking True True) ids b (b.apply ids op) := by
    refine event_edits inj h.tidy other (fun _ => ?_) (fun _ => ?_) (fun _ => ?_)
    · cases op with
      | reroute ctx => exact absurd rfl (other ctx)
      | commands ctx explain cmds => exact careful
      | _ => trivial
    · rintro index shard id now message rfl
      exact careful
    · rintro index shard id now rfl
      exact careful
  exact Edits.complete inj chain trivial trivial nofun uniform h

theorem Complete.quiet (h : Complete ids A b) (still : ∀ index shard, ctx.owns index shard →
    ∀ c ∈ b.copies index shard, c.primary = false → c.isTarget = false) (i : String) (s : Nat)
    (owned : ctx.owns i s) : Quiet (b.copies i s) :=
  (h i s).paired.quiet (still i s owned)

def asSet (indices : BTreeMap String IndexMetadata) : Counts := fun index shard x =>
  ∀ m, indices[index]? = some m → shard < m.numberOfShards → x = some m.numberOfReplicas

theorem asSet_uniform (indices : BTreeMap String IndexMetadata) (index : String) (shard : Nat)
    (x : Option Nat) (h : asSet indices index 0 x) : asSet indices index shard x :=
  fun m owned hs => h m owned (Nat.zero_lt_of_lt hs)

theorem Complete.weaken (h : Complete ids A b) : Complete ids anyCount b := by
  intro index shard
  rcases h index shard with ⟨empty, _⟩ | ⟨r, sound, _⟩
  · exact Or.inl ⟨empty, trivial⟩
  · exact Or.inr ⟨r, sound, trivial⟩

theorem Synced.complete {R : Rules} {b' : Board} {w : Work} (synced : Synced R ctx ids b' w)
    (paired : R.paired) (h : Complete ids anyCount w.board) :
    Complete ids (asSet ctx.indices) w.board := by
  intro index shard
  by_cases owned : ctx.owns index shard
  · obtain ⟨m, owned, hs⟩ := owned
    obtain ⟨headed, replicas⟩ := synced.filled index m shard owned hs
    rcases h index shard with ⟨empty, _⟩ | ⟨r, sound, _⟩
    · rw [empty] at headed
      exact absurd headed (by simp)
    · refine Or.inr ⟨r, sound, fun m' owned' _ => ?_⟩
      obtain rfl := Option.some.inj (owned.symm.trans owned')
      have seats := seats_eq (synced.quiet paired index shard)
      rw [sound.seats, sound.heads, replicas] at seats
      rw [Nat.add_left_cancel seats]
  · refine Or.inl ⟨synced.gone index shard owned, fun m owned' hs => ?_⟩
    exact absurd ⟨m, owned', hs⟩ owned

theorem Complete.sound {indices : BTreeMap String IndexMetadata} {w : Work}
    (h : Complete ids (asSet indices) w.board) {index : String} {m : IndexMetadata} {shard : Nat}
    (owned : indices[index]? = some m) (hs : shard < m.numberOfShards) :
    Sound ids index shard w.drawn m.numberOfReplicas (w.board.copies index shard) := by
  rcases h index shard with ⟨_, none⟩ | ⟨r, sound, said⟩
  · exact absurd (none m owned hs) nofun
  · obtain rfl := Option.some.inj (said m owned hs)
    exact sound

/-- A `reroute` that goes in step keeps it sound. -/
theorem reroute_complete (inj : Function.Injective ids) (h : Complete ids A b)
    (careful : Careful ids b (.reroute ctx)) :
    Complete ids (asSet ctx.indices) (b.apply ids (.reroute ctx)) := by
  obtain ⟨still, step⟩ := careful
  have any := h.weaken
  have synced := syncIndices_synced (R := rerouting ctx True True (fun _ => False) True) trivial
    (any.tidy.weaken False.elim) (fun _ => any.homeFree ctx) (fun _ _ _ => trivial)
    (fun _ => any.quiet still) {}
  have lined : Complete ids anyCount (syncIndices ctx ids ⟨b.table, {}, b.drawn⟩).board :=
    Edits.complete inj synced.chain trivial trivial (fun _ _ _ _ => trivial)
      (fun _ _ _ _ => trivial) any
  have counted := synced.complete trivial lined
  have uniform := asSet_uniform ctx.indices
  have ready : Complete ids (asSet ctx.indices) (readied ctx ids b).board :=
    Edits.complete inj (readied_edits (R := rerouting ctx True True (fun _ => False) False) inj rfl
      (counted.tidy.weaken False.elim) (fun _ _ _ _ grant => grant) synced.quiet)
      trivial trivial nofun uniform counted
  have given : Given (rerouting ctx True True (fun _ => False) True) ctx ids b :=
    ⟨inj, any.tidy.weaken False.elim, synced, rfl, fun _ _ _ _ grant => grant⟩
  have agrees := placed_agrees given any
    (fun name m owned s hs => any.quiet still name s ⟨m, owned, hs⟩)
    (fun name m owned s hs => ready.sound owned hs) step
  have between : Edits (rerouting ctx True True (fun _ => False) False) ids
      (syncIndices ctx ids ⟨b.table, {}, b.drawn⟩).board
      (Allocation.placed ctx ids b.table b.drawn).board :=
    placed_edits inj rfl (counted.tidy.weaken False.elim) (fun _ _ _ _ grant => grant)
      synced.quiet
  have placed := Edits.complete inj between trivial trivial nofun uniform counted
  have alike : Alike (rerouting ctx True True (fun _ => False) False)
      (Allocation.placed ctx ids b.table b.drawn).board :=
    ⟨fun _ => agrees, fun _ _ => steady_never _ _⟩
  exact Edits.complete inj (colocate_edits trivial alike) trivial trivial nofun uniform placed

/-- One operation that meets the condition. -/
theorem apply_complete (inj : Function.Injective ids) (h : Complete ids anyCount b)
    (careful : Careful ids b op) : Complete ids anyCount (b.apply ids op) := by
  by_cases kind : ∃ ctx, op = .reroute ctx
  · obtain ⟨ctx, rfl⟩ := kind
    exact (reroute_complete inj h careful).weaken
  · exact event_complete inj (fun _ _ _ _ => trivial) h (fun ctx heq => kind ⟨ctx, heq⟩) careful

/-- **Relocations are in pairs**: from a table at rest, no run whose operations take both
ends of a relocation for what they are comes to a source without its one target, or
a target without its one source. -/
theorem relocations_stay_paired (inj : Function.Injective ids) (start : AtRest ids b)
    (meets : b.Meets ids (Careful ids) ops) : (b.run ids ops).PairsUp := fun index shard =>
  (run_keeps (fun _ _ h careful => apply_complete inj h careful) start.complete meets
    index shard).pairedUp

theorem forall_copies {t : RoutingTable} {P : String → List ShardRouting → Prop}
    (none : ∀ index, P index []) (h : ∀ k ∈ t.shardKeys, P k.1 (t.copies k.1 k.2))
    (index : String) (shard : Nat) : P index (t.copies index shard) := by
  by_cases key : (index, shard) ∈ t.shardKeys
  · exact h _ key
  · rw [copies_eq_nil key]
    exact none index

theorem books_only {shards replicas : Nat} {name : String} {m : IndexMetadata}
    (only : ctx.indices = .ofList [("books", books shards replicas)])
    (owned : ctx.indices[name]? = some m) : name = "books" ∧ m = books shards replicas := by
  rw [only, Std.ExtTreeMap.ofList_singleton, Std.ExtTreeMap.getElem?_insert] at owned
  split at owned
  · rename_i same
    exact ⟨(Std.LawfulEqOrd.eq_of_compare same).symm, (Option.some.inj owned).symm⟩
  · exact absurd owned (by simp)

theorem careful_reroute {shards replicas : Nat}
    (only : ctx.indices = .ofList [("books", books shards replicas)])
    (still : ∀ k ∈ b.table.shardKeys, ∀ c ∈ b.table.copies k.1 k.2,
      c.primary = false → c.isTarget = false)
    (step : AtEase ctx b "books" shards ∨ UnderWay ctx b "books" shards) :
    Careful ids b (.reroute ctx) := by
  refine ⟨fun index shard _ => ?_, fun name m owned _ => ?_⟩
  · exact forall_copies (P := fun _ l => ∀ c ∈ l, c.primary = false → c.isTarget = false)
      (fun _ => List.forall_mem_nil _) still index shard
  · obtain ⟨rfl, rfl⟩ := books_only only owned
    exact step

theorem blank_atRest : AtRest tally .blank := by
  refine ⟨blank_tidy, fun index shard => ?_, fun index shard some => ?_⟩
  · rw [blank_copies]
    exact List.forall_mem_nil _
  · exact absurd (blank_copies index shard) some

/-- The library on some nodes, with others that hold no data any more. -/
def closing (nodes closed : List NodeId) (shards replicas : Nat) : Context where
  nodes := .ofList (nodes.map (fun n => (n, dataNode n)) ++
    closed.map fun n => (n, { dataNode n with roles := [] }))
  indices := .ofList [("books", books shards replicas)]

def moving : List Op :=
  [.reroute (library ["a"] 1 0), .started "books" 0 (tally 0), .reroute (closing ["b"] ["a"] 1 0)]

def twoMoving : List Op :=
  [.reroute (library ["a"] 2 0), .started "books" 0 (tally 0), .started "books" 1 (tally 1),
    .reroute (closing ["b"] ["a"] 2 0)]

/-- Both shards are on their way to `b` when the tables are looked at again. -/
def inStep : List Op := twoMoving ++ [.reroute (closing ["b"] ["a"] 2 0)]

theorem inStep_careful : Board.blank.Meets tally (Careful tally) inStep := by
  have first : Careful tally .blank (.reroute (library ["a"] 2 0)) :=
    careful_reroute rfl (by decide +kernel) (.inl ⟨by decide +kernel, .inl rfl⟩)
  have second : Careful tally (Board.blank.run tally (twoMoving.take 3))
      (.reroute (closing ["b"] ["a"] 2 0)) :=
    careful_reroute rfl (by decide +kernel) (.inl ⟨by decide +kernel, .inl rfl⟩)
  have third : Careful tally (Board.blank.run tally twoMoving)
      (.reroute (closing ["b"] ["a"] 2 0)) :=
    careful_reroute rfl (by decide +kernel) (.inr
      ⟨by decide +kernel, by decide +kernel, by decide +kernel, .inl (by decide +kernel)⟩)
  exact ⟨first, trivial, trivial, second, third, trivial⟩

theorem inStep_pairs :
    (Board.blank.run tally inStep).PairsUp ∧
      ((Board.blank.run tally inStep).copies "books" 1).map (fun c => (c.state, c.node)) =
        [(.relocating, some "a"), (.initializing, some "b")] :=
  ⟨relocations_stay_paired tally_injective blank_atRest inStep_careful, by decide +kernel⟩

/-- A replica is on its way from `b` to `c`; the next `reroute` counts both its ends and
drops the second as one too many. -/
theorem reroute_drops_target :
    AtRest tally .blank ∧
      ¬ (Board.blank.run tally [.reroute (library ["a", "b"] 1 1), .started "books" 0 (tally 0),
        .reroute (library ["a", "b"] 1 1), .started "books" 0 (tally 1),
        .reroute (closing ["a", "c"] ["b"] 1 1),
        .reroute (closing ["a", "c"] ["b"] 1 1)]).PairsUp := by
  refine ⟨blank_atRest, fun pairs => absurd (pairs "books" 0) ?_⟩
  decide +kernel

/-! ## One primary, and the number of copies asked for -/

/-- The metadata in force after an operation: a `reroute` goes by its own. -/
def Op.publishes (known : BTreeMap String IndexMetadata) : Op → BTreeMap String IndexMetadata
  | .reroute ctx => ctx.indices
  | _ => known

/-- The metadata the last `reroute` of a run went by. -/
def published (ops : List Op) : BTreeMap String IndexMetadata := ops.foldl Op.publishes ∅

/-- The copies of a shard of `r` replicas: one primary, and `1 + r` entries, not
counting relocation targets; a node and an id on what is assigned and on nothing
else. -/
structure Shape (r : Nat) (l : List ShardRouting) : Prop where
  primary : (l.countP fun c => c.primary && !c.isTarget) = 1
  entries : (l.countP fun c => !c.isTarget) = 1 + r
  assigned : ∀ c ∈ l, (c.node.isSome = true ↔ c.state ≠ .unassigned) ∧
    (c.allocationId.isSome = true ↔ c.state ≠ .unassigned)

def Board.Shaped (b : Board) (indices : BTreeMap String IndexMetadata) : Prop :=
  ∀ index m, indices[index]? = some m → ∀ shard, shard < m.numberOfShards →
    Shape m.numberOfReplicas (b.copies index shard)

/-- A sound table has the shape its settings ask for. -/
theorem Complete.shaped {indices : BTreeMap String IndexMetadata}
    (h : Complete ids (asSet indices) b) : b.Shaped indices := by
  intro index m owned shard hs
  rcases h index shard with ⟨_, hr⟩ | ⟨r, sound, hr⟩
  · exact absurd (hr m owned hs) nofun
  · obtain rfl := Option.some.inj (hr m owned hs)
    refine ⟨sound.heads, sound.seats, fun c hc => ?_⟩
    exact ⟨(sound.fits c hc).node, (sound.fits c hc).allocationId⟩

/-- A run, by induction on its operations. -/
theorem run_complete (inj : Function.Injective ids) {known : BTreeMap String IndexMetadata}
    (h : Complete ids (asSet known) b) (meets : b.Meets ids (Careful ids) ops) :
    Complete ids (asSet (ops.foldl Op.publishes known)) (b.run ids ops) := by
  induction ops generalizing b known with
  | nil => exact h
  | cons op ops ih =>
    show Complete ids (asSet (ops.foldl Op.publishes (op.publishes known)))
      ((b.apply ids op).run ids ops)
    refine ih ?_ meets.2
    by_cases kind : ∃ ctx, op = .reroute ctx
    · obtain ⟨ctx, rfl⟩ := kind
      exact reroute_complete inj h meets.1
    · have same : op.publishes known = known := by
        cases op with
        | reroute ctx => exact absurd ⟨ctx, rfl⟩ kind
        | _ => rfl
      rw [same]
      exact event_complete inj (asSet_uniform known) h (fun ctx heq => kind ⟨ctx, heq⟩) meets.1

/-- **The shape of a routing table**: after a `reroute` and whatever events and commands,
every shard of every published index has one primary and the copies its settings
ask for, in every run whose operations take both ends of a relocation for what they
are. -/
theorem shards_keep_shape (inj : Function.Injective ids) (start : Complete ids anyCount b)
    (meets : b.Meets ids (Careful ids) ops) : (b.run ids ops).Shaped (published ops) := by
  have unset : Complete ids (asSet ∅) b := by
    intro index shard
    have none : ∀ x, asSet ∅ index shard x := fun x m owned => absurd owned (by simp)
    rcases start index shard with ⟨empty, _⟩ | ⟨r, sound, _⟩
    · exact Or.inl ⟨empty, none _⟩
    · exact Or.inr ⟨r, sound, none _⟩
  exact (run_complete inj unset meets).shaped

theorem inStep_shaped :
    (Board.blank.run tally inStep).Shaped (published inStep) ∧
      ((Board.blank.run tally inStep).copies "books" 0).length = 2 :=
  ⟨shards_keep_shape tally_injective blank_atRest.complete inStep_careful, by decide +kernel⟩

def failing : List Op :=
  moving ++ [.failed "books" 0 (tally 0) 0 "disk", .started "books" 0 (tally 1)]

theorem failed_source_two_primaries :
    Complete tally anyCount .blank ∧
      ¬ (Board.blank.run tally failing).Shaped (published failing) := by
  refine ⟨blank_atRest.complete, fun shaped => ?_⟩
  have shape := shaped "books" (books 1 0) (by decide +kernel) 0 Nat.one_pos
  exact absurd shape.primary (by decide +kernel)

/-! ## Allocation ids -/

/-- The ids of all assigned copies are pairwise distinct: two entries under one id are
one entry. -/
def Board.Distinct (b : Board) : Prop :=
  ∀ (index : String) (shard i : Nat) (index' : String) (shard' i' : Nat) (a c : ShardRouting)
    (id : String), (b.copies index shard)[i]? = some a → (b.copies index' shard')[i']? = some c →
      a.allocationId = some id → c.allocationId = some id →
        index = index' ∧ shard = shard' ∧ i = i'

def Board.Follows (b b' : Board) : Prop :=
  ∀ index shard index' shard' id, ∀ a ∈ b.copies index shard, ∀ c ∈ b'.copies index' shard',
    a.allocationId = some id → c.allocationId = some id → c.node = a.node

/-- The place where an id is taken to another node: the co-location pass gives an entry the
node of the one in its place, and leaves it the id it has. -/
def Anchored (b : Board) : Op → Prop
  | .reroute ctx => Laid ctx b
  | _ => True

/-- Ids are told apart, across the table and from those still to be drawn. -/
structure Told (ids : Nat → String) (b : Board) : Prop where
  tidy : Tidy False ids b
  scattered : Scattered b

/-- Ids that are told apart are distinct. -/
theorem Told.distinct (h : Told ids b) : b.Distinct := by
  intro index shard i index' shard' i' a c id ha hc hida hidc
  obtain ⟨rfl, rfl⟩ := h.scattered index shard index' shard' a (List.mem_of_getElem? ha) c
    (List.mem_of_getElem? hc) id hida hidc
  exact ⟨rfl, rfl, (h.tidy index shard).place_of_id ha hc hida hidc⟩

theorem Stems.follows {b' : Board} (h : Told ids b) (stems : Stems (fun _ => True) ids b b') :
    b.Follows b' := by
  intro index shard index' shard' id a ha c hc hida hidc
  rcases stems.known index' shard' c hc id hidc with ⟨x, hx, hxid, same⟩ | ⟨n, hn, _, rfl⟩
  · obtain ⟨rfl, rfl⟩ := h.scattered index shard index' shard' a ha x hx id hida hxid
    rw [(h.tidy index shard).eq_of_id ha hx hida hxid]
    exact (same trivial).symm
  · exact absurd hida ((h.tidy index shard).spent a ha n hn)

/-- Where the ids the table has stay put, all do: the others are new. -/
theorem Stems.all {b' : Board} (h : Stems b.Bears ids b b') : Stems (fun _ => True) ids b b' := by
  refine ⟨h.later, fun i s c hc id hid => ?_⟩
  rcases h.known i s c hc id hid with ⟨x, hx, hxid, same⟩ | drawn
  · exact .inl ⟨x, hx, hxid, fun _ => same ⟨i, s, x, hx, hxid⟩⟩
  · exact .inr drawn

theorem Told.given (inj : Function.Injective ids) (h : Told ids b) (ctx : Context)
    (S : String → Prop) : Given (rerouting ctx False False S True) ctx ids b :=
  ⟨inj, h.tidy, syncIndices_synced trivial h.tidy (by rintro ⟨⟩) (fun _ _ _ => trivial)
    (by rintro ⟨⟩) {}, rfl, fun _ _ _ _ grant => grant⟩

theorem apply_told (inj : Function.Injective ids) {S : String → Prop} (h : Told ids b)
    (steady : ∀ ctx, op = .reroute ctx → ∀ i s,
      Steady S ((placed ctx ids b.table b.drawn).board.copies i 0)
        ((placed ctx ids b.table b.drawn).board.copies i s)) :
    Told ids (b.apply ids op) ∧ Stems S ids b (b.apply ids op) := by
  have both : ∀ {R : Rules}, (∀ i, S i → R.steady i) → Edits R ids b (b.apply ids op) →
      Told ids (b.apply ids op) ∧ Stems S ids b (b.apply ids op) := by
    intro R asked chain
    exact ⟨⟨Edits.tidy inj chain nofun h.tidy, Edits.scattered inj chain h.tidy h.scattered⟩,
      Edits.stems inj chain asked h.tidy⟩
  by_cases kind : ∃ ctx, op = .reroute ctx
  · obtain ⟨ctx, rfl⟩ := kind
    have alike : Alike (rerouting ctx False False S True)
        (placed ctx ids b.table b.drawn).board := ⟨nofun, steady ctx rfl⟩
    have chain := reroute_edits (R := rerouting ctx False False S True) inj trivial trivial rfl
      h.tidy (fun _ _ _ _ grant => grant) nofun (fun _ _ _ => trivial) nofun alike
    exact both (fun _ => id) chain
  · have chain : Edits (looking False False) ids b (b.apply ids op) :=
      event_edits inj h.tidy (fun ctx heq => kind ⟨ctx, heq⟩) nofun nofun nofun
    exact both (fun _ _ => trivial) chain

theorem run_told (inj : Function.Injective ids) (h : Told ids b)
    (meets : b.Meets ids Anchored ops) :
    Told ids (b.run ids ops) ∧ Stems (fun _ => True) ids b (b.run ids ops) := by
  induction ops generalizing b with
  | nil => exact ⟨h, Stems.refl b⟩
  | cons op ops ih =>
    have steady : ∀ ctx, op = .reroute ctx → ∀ i s,
        Steady b.Bears ((placed ctx ids b.table b.drawn).board.copies i 0)
          ((placed ctx ids b.table b.drawn).board.copies i s) := by
      rintro ctx rfl
      exact placed_steady (h.given inj ctx b.Bears) meets.1
    obtain ⟨told, stems⟩ := apply_told inj h steady
    obtain ⟨told', stems'⟩ := ih told meets.2
    exact ⟨told', stems.all.trans stems'⟩

/-- They are told apart after any run, and an id is one shard's. -/
theorem run_stays_told (inj : Function.Injective ids) (h : Told ids b) (ops : List Op) :
    Told ids (b.run ids ops) ∧ Stems (fun _ => False) ids b (b.run ids ops) := by
  induction ops generalizing b with
  | nil => exact ⟨h, Stems.refl b⟩
  | cons op ops ih =>
    have step : Told ids (b.apply ids op) ∧ Stems (fun _ => False) ids b (b.apply ids op) :=
      apply_told inj h fun _ _ _ _ => steady_never _ _
    obtain ⟨told, stems⟩ := step
    obtain ⟨told', stems'⟩ := ih told
    exact ⟨told', stems.trans stems'⟩

theorem meets_append {ops' : List Op} (h : b.Meets ids C (ops ++ ops')) :
    b.Meets ids C ops ∧ (b.run ids ops).Meets ids C ops' := by
  induction ops generalizing b with
  | nil => exact ⟨trivial, h⟩
  | cons op ops ih =>
    obtain ⟨before, after⟩ := ih h.2
    exact ⟨⟨h.1, before⟩, after⟩

/-- **An allocation id is one copy's, on one node**: in every run whose `reroute`s find the
shards of each index laid alike, ids are pairwise distinct in every table, and an id that is in
two tables of the run is on the same node in both. -/
theorem ids_stay_put (inj : Function.Injective ids) (start : Told ids b)
    (meets : b.Meets ids Anchored ops) :
    (b.run ids ops).Distinct ∧ ∀ before after, ops = before ++ after →
      (b.run ids before).Follows (b.run ids ops) := by
  refine ⟨(run_told inj start meets).1.distinct, ?_⟩
  rintro before after rfl
  obtain ⟨first, second⟩ := meets_append meets
  have told := (run_told inj start first).1
  have stems := (run_told inj told second).2
  have whole : b.run ids (before ++ after) = (b.run ids before).run ids after :=
    List.foldl_append
  rw [whole]
  exact stems.follows told

theorem blank_told : Told tally .blank := by
  refine ⟨blank_tidy.weaken False.elim, fun i s _ _ a ha => ?_⟩
  rw [blank_copies] at ha
  exact absurd ha List.not_mem_nil

theorem anchored_reroute {replicas : Nat}
    (only : ctx.indices = .ofList [("books", books 2 replicas)])
    (alike : LaidAlike ctx b "books" (books 2 replicas) 1) : Anchored b (.reroute ctx) := by
  intro name m owned s hs other
  obtain ⟨rfl, rfl⟩ := books_only only owned
  have two : s < 2 := hs
  obtain rfl : s = 1 := by omega
  exact alike

/-- Both shards have got to `b` when the tables are looked at again. -/
def arrived : List Op :=
  twoMoving ++ [.started "books" 0 (tally 2), .started "books" 1 (tally 3),
    .reroute (closing ["b"] ["a"] 2 0)]

theorem arrived_anchored : Board.blank.Meets tally Anchored arrived := by
  have first : Anchored .blank (.reroute (library ["a"] 2 0)) :=
    anchored_reroute rfl (by decide +kernel)
  have second : Anchored (Board.blank.run tally (twoMoving.take 3))
      (.reroute (closing ["b"] ["a"] 2 0)) := anchored_reroute rfl (by decide +kernel)
  have third : Anchored (Board.blank.run tally (arrived.take 6))
      (.reroute (closing ["b"] ["a"] 2 0)) := anchored_reroute rfl (by decide +kernel)
  exact ⟨first, trivial, trivial, second, trivial, trivial, third, trivial⟩

theorem arrived_put :
    (Board.blank.run tally arrived).Distinct ∧
      (Board.blank.run tally twoMoving).Follows (Board.blank.run tally arrived) ∧
      ((Board.blank.run tally arrived).copies "books" 1).map (fun c => (c.node, c.allocationId)) =
        [(some "b", some (tally 3))] := by
  obtain ⟨distinct, follows⟩ := ids_stay_put tally_injective blank_told arrived_anchored
  exact ⟨distinct, follows twoMoving _ rfl, by decide +kernel⟩

/-- The first shard's move ends before the second's. The next `reroute` puts the second
shard's source where the first shard now is, under the id it had on `a`. -/
theorem colocation_takes_id_along :
    Told tally .blank ∧
      ¬ (Board.blank.run tally twoMoving).Follows
        (Board.blank.run tally (twoMoving ++ [.started "books" 0 (tally 2),
          .reroute (closing ["b"] ["a"] 2 0)])) := by
  refine ⟨blank_told, fun follows => ?_⟩
  have placed := follows "books" 1 "books" 1 (tally 1)
  exact absurd placed (by decide +kernel)

end Velosearch.Cluster.Allocation
