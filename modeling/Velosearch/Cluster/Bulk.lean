import Velosearch.Cluster.State
import Velosearch.Lib.Text
import Mathlib.Data.List.Nodup

/-!
# A bulk over several nodes

`coordinate_bulk` of `src/cluster/forward.rs`: a bulk body is read into operations, each
operation goes to the node that holds the primary of the index it names, every node
answers for its own part, all of them at once, and the answers are put back in the order
of the request. Operations no node is known for join those of this node, ahead of them.

* `serde_json`'s reading of an action line is given (`ReadAction`): the operation it names
  and the `_index` of its metadata, if that is a string.
* Which node an index's operations go to is given too: aliases, data streams and the
  routing table decide it (`resolve`, `primary_node`), and nothing here depends on how.
* So is what a node answers to a part (`Nodes`). A part is sent by a task of its own, which
  may be lost with its answer.
-/

set_option autoImplicit false

namespace Velosearch.Cluster

open Velosearch.Text

/-- An operation as the lines it was written on, and the index it names. -/
structure BulkOp where
  action : List Char
  doc : Option (List Char)
  index : String
deriving DecidableEq

/-- The lines of an operation, as they are sent on. -/
def BulkOp.text (op : BulkOp) : List Char :=
  op.action ++ '\n' ::
    match op.doc with
    | some doc => doc ++ ['\n']
    | none => []

/-- The operation an action line names, and the `_index` beside it. -/
abbrev ReadAction := List Char → Option (String × Option String)

/-- The operations of a body's lines, or nothing where one cannot be read. -/
def splitOps (read : ReadAction) (default : Option String) (action : Option (List Char × Option String)) :
    List (List Char) → Option (List BulkOp)
  | [] =>
    match action with
    | none => some []
    | some (line, named) => (named.or default).map fun index => [{ action := line, doc := none, index }]
  | line :: lines =>
    match action with
    | some (action, named) => do
      let index ← named.or default
      let ops ← splitOps read default none lines
      some ({ action, doc := some line, index } :: ops)
    | none => do
      let (op, named) ← read line
      if op == "delete" then
        let index ← named.or default
        let ops ← splitOps read default none lines
        some ({ action := line, doc := none, index } :: ops)
      else splitOps read default (some (line, named)) lines

/-- The lines of a body that hold anything. -/
def bulkLines (body : List Char) : List (List Char) :=
  (lines body).filter fun line => !(trim line).isEmpty

/-- What a node answers to its part. -/
structure BulkReply (Item : Type) where
  status : Nat
  errors : Bool := false
  took : Nat := 0
  ingestTook : Option Nat := none
  items : Option (List Item) := none
deriving DecidableEq

/-- The answer is in the two hundreds. -/
def BulkReply.success {Item : Type} (r : BulkReply Item) : Bool :=
  200 ≤ r.status && r.status < 300

/-- What each node answers to a body it is sent. -/
structure Nodes (Item : Type) where
  runLocal : List Char → BulkReply Item
  forward : NodeId → List Char → BulkReply Item
  lost : NodeId → Bool

/-- The share of one node: its lines, and where its items stand in the body. -/
structure Part where
  node : Option NodeId
  order : List Nat
  text : List Char
deriving DecidableEq

/-- The answers put together so far. -/
structure Joined (Item : Type) where
  took : Nat := 0
  errors : Bool := false
  items : List (Option Item)
  ingestTook : Option Nat := none
deriving DecidableEq

/-- What the caller gets: one node's answer passed on, or all of them joined. -/
inductive BulkAnswer (Item : Type) where
  | passed (r : BulkReply Item)
  | failed (r : BulkReply Item)
  | joined (j : Joined Item)
deriving DecidableEq

/-- The answer, and what each node was sent and said. -/
structure BulkOutcome (Item : Type) where
  parts : List (Part × Option (BulkReply Item))
  answer : BulkAnswer Item
deriving DecidableEq

namespace Bulk

variable {Item : Type}

/-- An operation goes to the group of its node. -/
def group (division : String → Option NodeId)
    (groups : BTreeMap (Option NodeId) (List Nat × List Char)) (e : BulkOp × Nat) :
    BTreeMap (Option NodeId) (List Nat × List Char) :=
  let node := division e.1.index
  let (order, part) := (groups[node]?).getD ([], [])
  groups.insert node (order ++ [e.2], part ++ e.1.text)

/-- The operations of a body, by the node each is for. -/
def groups (division : String → Option NodeId) (ops : List BulkOp) :
    BTreeMap (Option NodeId) (List Nat × List Char) :=
  ops.zipIdx.foldl (group division) ∅

/-- One group made a part, or kept for this node. -/
def share (me : NodeId) (acc : Option (List Nat × List Char) × List Part)
    (e : Option NodeId × List Nat × List Char) : Option (List Nat × List Char) × List Part :=
  let (node, order, part) := e
  let here :=
    match acc.1 with
    | some (o, b) => (some (o ++ order, b ++ part), acc.2)
    | none => (some (order, part), acc.2)
  match node with
  | some n => if n = me then here else (acc.1, acc.2 ++ [{ node := some n, order, text := part }])
  | none => here

/-- The parts, this node's own in front. -/
def parts (me : NodeId) (groups : BTreeMap (Option NodeId) (List Nat × List Char)) : List Part :=
  let (here, away) := groups.toList.foldl (share me) (none, [])
  (here.map fun (order, text) => { node := none, order, text }).toList ++ away

/-- What a part is answered, here or there. -/
def reply (nodes : Nodes Item) (p : Part) : Option (BulkReply Item) :=
  match p.node with
  | none => some (nodes.runLocal p.text)
  | some n => if nodes.lost n then none else some (nodes.forward n p.text)

/-- The items of an answer, each where its operation stood. -/
def place (items : List (Option Item)) (order : List Nat) (list : List Item) :
    List (Option Item) :=
  (order.zip list).foldl (fun items (slot, item) => items.set slot (some item)) items

/-- The answers put together, unless one of them is a refusal. -/
def join (j : Joined Item) : List (List Nat × BulkReply Item) → Except (BulkReply Item) (Joined Item)
  | [] => .ok j
  | (order, r) :: rest =>
    if !r.success then .error r
    else
      join
        { took := max j.took r.took
          errors := j.errors || r.errors
          items := match r.items with
            | some list => place j.items order list
            | none => j.items
          ingestTook := match r.ingestTook with
            | some t => some (max (j.ingestTook.getD 0) t)
            | none => j.ingestTook } rest

end Bulk

/-- `coordinate_bulk`, from where the body has been read. -/
def coordinateBulk {Item : Type} (nodes : Nodes Item) (read : ReadAction)
    (division : String → Option NodeId) (me : NodeId) (default : Option String)
    (body : List Char) : BulkOutcome Item :=
  match splitOps read default none (bulkLines body) with
  | none =>
    -- a body this node cannot read is the handler's complaint to make
    { parts := [({ node := none, order := [], text := body }, some (nodes.runLocal body))]
      answer := .passed (nodes.runLocal body) }
  | some ops =>
    let groups := Bulk.groups division ops
    if groups.size ≤ 1 then
      -- everything belongs to one node: the request goes there whole
      let order := List.range ops.length
      match (groups.toList.head?.bind Prod.fst).filter (· != me) with
      | some n =>
        { parts := [({ node := some n, order, text := body }, some (nodes.forward n body))]
          answer := .passed (nodes.forward n body) }
      | none =>
        { parts := [({ node := none, order, text := body }, some (nodes.runLocal body))]
          answer := .passed (nodes.runLocal body) }
    else
      let sent := (Bulk.parts me groups).map fun p => (p, Bulk.reply nodes p)
      { parts := sent
        answer :=
          match Bulk.join { items := List.replicate ops.length none }
            (sent.filterMap fun (p, r) => r.map fun r => (p.order, r)) with
          | .error r => .failed r
          | .ok j => .joined j }

namespace Bulk

variable {Item : Type} {division : String → Option NodeId} {me : NodeId} {ops : List BulkOp}

/-! ## The parts -/

/-- Where a part is run: an operation no node is known for runs here. -/
def dest (me : NodeId) (node : Option NodeId) : Option NodeId :=
  node.filter (· != me)

/-- The operations that went to a node, with where they stood. -/
def entries (division : String → Option NodeId) (es : List (BulkOp × Nat)) (node : Option NodeId) :
    List (BulkOp × Nat) :=
  es.filter fun e => division e.1.index == node

theorem foldl_group (division : String → Option NodeId) (es : List (BulkOp × Nat))
    (node : Option NodeId) :
    (es.foldl (group division) ∅)[node]? =
      if entries division es node = [] then none
      else some ((entries division es node).map Prod.snd,
        (entries division es node).flatMap fun e => e.1.text) := by
  induction es using List.reverseRecOn with
  | nil => simp [entries]
  | append_singleton es e ih =>
    have split : entries division (es ++ [e]) node =
        entries division es node ++ if division e.1.index = node then [e] else [] := by
      simp only [entries, List.filter_append, List.filter_cons, List.filter_nil, beq_iff_eq]
    rw [List.foldl_append, List.foldl_cons, List.foldl_nil, group, split]
    by_cases here : division e.1.index = node
    · simp only [here, if_true, Std.ExtTreeMap.getElem?_insert_self, ih]
      by_cases none : entries division es node = []
      · simp [none]
      · simp [none]
    · rw [if_neg here, List.append_nil, ← ih, Std.ExtTreeMap.getElem?_insert, if_neg]
      exact fun same => here (Std.LawfulEqCmp.eq_of_compare same)

/-- **A node's group** is its operations in the order of the request. -/
theorem mem_groups {node : Option NodeId} {order : List Nat} {text : List Char} :
    (node, order, text) ∈ (groups division ops).toList ↔
      entries division ops.zipIdx node ≠ [] ∧
        order = (entries division ops.zipIdx node).map Prod.snd ∧
        text = (entries division ops.zipIdx node).flatMap fun e => e.1.text := by
  rw [Std.ExtTreeMap.mem_toList_iff_getElem?_eq_some, groups, foldl_group]
  split
  case isTrue none => simp [none]
  case isFalse some => simp [some, eq_comm]

/-- What is done here rather than sent on. -/
def atHome (me : NodeId) (l : List (Option NodeId × List Nat × List Char)) :
    List (Option NodeId × List Nat × List Char) :=
  l.filter fun e => dest me e.1 == none

theorem share_here {node : Option NodeId} (home : dest me node = none)
    (acc : Option (List Nat × List Char) × List Part) (order : List Nat) (text : List Char) :
    share me acc (node, order, text) =
      (some (acc.1.elim [] Prod.fst ++ order, acc.1.elim [] Prod.snd ++ text), acc.2) := by
  obtain ⟨here, away⟩ := acc
  cases node with
  | none => cases here <;> rfl
  | some n =>
    have mine : n = me := by simpa [dest, Option.filter_eq_none_iff] using home
    cases here <;> simp [share, mine]

theorem share_away {node : Option NodeId} (away : dest me node ≠ none)
    (acc : Option (List Nat × List Char) × List Part) (order : List Nat) (text : List Char) :
    share me acc (node, order, text) =
      (acc.1, acc.2 ++ [{ node := node, order := order, text := text }]) := by
  cases node with
  | none => exact absurd rfl away
  | some n =>
    have other : n ≠ me := by simpa [dest, Option.filter_eq_none_iff] using away
    simp [share, other]

theorem foldl_share (l : List (Option NodeId × List Nat × List Char))
    (acc : Option (List Nat × List Char) × List Part) :
    l.foldl (share me) acc =
      (if atHome me l = [] then acc.1
        else some ((acc.1.elim [] Prod.fst) ++ (atHome me l).flatMap (·.2.1),
          (acc.1.elim [] Prod.snd) ++ (atHome me l).flatMap (·.2.2)),
        acc.2 ++ (l.filter fun e => !(dest me e.1 == none)).map fun e =>
          { node := e.1, order := e.2.1, text := e.2.2 }) := by
  induction l generalizing acc with
  | nil => simp [atHome]
  | cons e l ih =>
    obtain ⟨node, order, text⟩ := e
    rw [List.foldl_cons, ih]
    by_cases home : dest me node = none
    · have mine : atHome me ((node, order, text) :: l) = (node, order, text) :: atHome me l := by
        simp [atHome, home]
      rw [share_here home, mine]
      by_cases rest : atHome me l = []
      · simp [rest, home]
      · simp [rest, home]
    · have rest : atHome me ((node, order, text) :: l) = atHome me l := by
        simp [atHome, home]
      have some : (dest me node).isSome := Option.isSome_iff_ne_none.mpr home
      rw [share_away home, rest]
      simp [some]

/-- **A part** is run where its operations go, and is its operations in the order of their
groups: the operations no node is known for ahead of this node's own. -/
theorem mem_parts {p : Part} (h : p ∈ parts me (groups division ops)) :
    ∃ nodes : List (Option NodeId), nodes.Nodup ∧ (∀ n, n ∈ nodes ↔
        dest me n = p.node ∧ entries division ops.zipIdx n ≠ []) ∧
      p.order = nodes.flatMap (fun n => (entries division ops.zipIdx n).map Prod.snd) ∧
      p.text = nodes.flatMap (fun n => (entries division ops.zipIdx n).flatMap fun e => e.1.text) := by
  have distinct : ((groups division ops).toList.map Prod.fst).Nodup := by
    rw [List.Nodup, List.pairwise_map]
    refine Std.ExtTreeMap.distinct_keys_toList.imp fun differ same => differ ?_
    exact Std.LawfulEqCmp.compare_eq_iff_eq.mpr same
  rw [parts, foldl_share] at h
  simp only [Option.elim_none, List.nil_append] at h
  rcases List.mem_append.mp h with h | h
  · -- what is run here
    split at h
    · exact absurd h List.not_mem_nil
    · obtain rfl : p = _ := by simpa using h
      refine ⟨(atHome me (groups division ops).toList).map Prod.fst, ?_, fun n => ?_, ?_, ?_⟩
      · exact distinct.sublist (List.filter_sublist.map _)
      · constructor
        · intro hn
          obtain ⟨⟨n, order, text⟩, he, rfl⟩ := List.mem_map.mp hn
          obtain ⟨he, home⟩ := List.mem_filter.mp he
          exact ⟨by simpa using home, (mem_groups.mp he).1⟩
        · rintro ⟨home, some⟩
          refine List.mem_map.mpr ⟨(n, _, _), List.mem_filter.mpr ⟨mem_groups.mpr ⟨some, rfl, rfl⟩, ?_⟩,
            rfl⟩
          simpa using home
      · rw [List.flatMap_map]
        refine List.flatMap_congr fun e he => ?_
        exact (mem_groups.mp (List.mem_of_mem_filter he)).2.1
      · rw [List.flatMap_map]
        refine List.flatMap_congr fun e he => ?_
        exact (mem_groups.mp (List.mem_of_mem_filter he)).2.2
  · -- another node's part
    obtain ⟨⟨n, order, text⟩, he, rfl⟩ := List.mem_map.mp h
    obtain ⟨he, away⟩ := List.mem_filter.mp he
    have goes : dest me n ≠ none := Option.isSome_iff_ne_none.mp (by simpa using away)
    have kept : ∀ m, dest me m ≠ none → dest me m = m := by
      intro m hm
      cases m with
      | none => exact absurd rfl hm
      | some m => simpa [dest, Option.filter_eq_none_iff] using hm
    obtain ⟨some, rfl, rfl⟩ := mem_groups.mp he
    refine ⟨[n], by simp, fun m => ?_, by simp, by simp⟩
    constructor
    · intro hm
      rw [List.mem_singleton.mp hm]
      exact ⟨kept n goes, some⟩
    · rintro ⟨same, -⟩
      have : dest me m = n := same
      rw [List.mem_singleton, ← this]
      exact (kept m (by rw [this]; exact fun e => goes (by rw [e]; rfl))).symm

theorem parts_distinct : (parts me (groups division ops)).Pairwise fun p q => p.node ≠ q.node := by
  have distinct : (groups division ops).toList.Pairwise fun e f => e.1 ≠ f.1 := by
    refine Std.ExtTreeMap.distinct_keys_toList.imp fun differ same => differ ?_
    exact Std.LawfulEqCmp.compare_eq_iff_eq.mpr same
  rw [parts, foldl_share]
  simp only [Option.elim_none, List.nil_append]
  rw [List.pairwise_append]
  refine ⟨?_, ?_, fun p hp q hq => ?_⟩
  · split <;> simp
  · rw [List.pairwise_map]
    exact distinct.sublist List.filter_sublist
  · -- nobody else's part is run here
    have here : p.node = none := by
      split at hp
      · exact absurd hp List.not_mem_nil
      · obtain rfl : p = _ := by simpa using hp
        rfl
    obtain ⟨e, he, rfl⟩ := List.mem_map.mp hq
    have away := (List.mem_filter.mp he).2
    rw [here]
    intro same
    have home : e.1 = none := same.symm
    simp [home, dest] at away

theorem exists_part (me : NodeId) {n : Option NodeId} (some : entries division ops.zipIdx n ≠ []) :
    ∃ p ∈ parts me (groups division ops), p.node = dest me n := by
  have listed := mem_groups.mpr ⟨some, rfl, rfl⟩
  rw [parts, foldl_share]
  simp only [Option.elim_none, List.nil_append]
  cases hd : dest me n with
  | none =>
    have mine : atHome me (groups division ops).toList ≠ [] := by
      refine List.ne_nil_of_mem (List.mem_filter.mpr ⟨listed, ?_⟩)
      simp [hd]
    rw [if_neg mine, Option.map_some, Option.toList_some]
    exact ⟨_, List.mem_append_left _ List.mem_cons_self, rfl⟩
  | some node =>
    refine ⟨_, List.mem_append_right _ (List.mem_map.mpr ⟨_, List.mem_filter.mpr ⟨listed, ?_⟩, rfl⟩), ?_⟩
    · simp [hd]
    · cases n with
      | none => exact absurd hd nofun
      | some n => exact (Option.filter_eq_some_iff.mp hd).1

theorem mem_order {p : Part} (h : p ∈ parts me (groups division ops)) {k : Nat} :
    k ∈ p.order ↔ ∃ op, ops[k]? = some op ∧ dest me (division op.index) = p.node := by
  obtain ⟨nodes, -, mem, order, -⟩ := mem_parts h
  rw [order, List.mem_flatMap]
  constructor
  · rintro ⟨n, hn, hk⟩
    obtain ⟨⟨op, k⟩, he, rfl⟩ := List.mem_map.mp hk
    obtain ⟨he, here⟩ := List.mem_filter.mp he
    have here : division op.index = n := by simpa using here
    refine ⟨op, List.mem_zipIdx_iff_getElem?.mp he, ?_⟩
    rw [here]
    exact ((mem n).mp hn).1
  · rintro ⟨op, hop, goes⟩
    have entry : (op, k) ∈ entries division ops.zipIdx (division op.index) :=
      List.mem_filter.mpr ⟨List.mem_zipIdx_iff_getElem?.mpr hop, by simp⟩
    exact ⟨division op.index, (mem _).mpr ⟨goes, List.ne_nil_of_mem entry⟩,
      List.mem_map.mpr ⟨_, entry, rfl⟩⟩

theorem entries_order_nodup (n : Option NodeId) :
    ((entries division ops.zipIdx n).map Prod.snd).Nodup := by
  refine List.Nodup.sublist (List.filter_sublist.map _) ?_
  rw [List.zipIdx_map_snd]
  exact List.nodup_range'

theorem order_nodup {p : Part} (h : p ∈ parts me (groups division ops)) : p.order.Nodup := by
  obtain ⟨nodes, distinct, -, order, -⟩ := mem_parts h
  rw [order, List.nodup_flatMap]
  refine ⟨fun n _ => entries_order_nodup n, distinct.imp fun {n m} differ k hk hk' => ?_⟩
  -- the place's operation would go to both nodes
  obtain ⟨⟨op, k⟩, he, rfl⟩ := List.mem_map.mp hk
  obtain ⟨⟨op', k'⟩, he', same⟩ := List.mem_map.mp hk'
  obtain rfl : k' = k := same
  obtain ⟨he, here⟩ := List.mem_filter.mp he
  obtain ⟨he', here'⟩ := List.mem_filter.mp he'
  have first : ops[k']? = some op := List.mem_zipIdx_iff_getElem?.mp he
  have second : ops[k']? = some op' := List.mem_zipIdx_iff_getElem?.mp he'
  have eq : op = op' := Option.some.inj (first.symm.trans second)
  have here : division op.index = n := by simpa using here
  have here' : division op'.index = m := by simpa using here'
  exact differ (by rw [← here, ← here', eq])

theorem pair_sublist {α : Type} {l : List α} {i k : Nat} {a b : α} (earlier : i < k)
    (ha : l[i]? = some a) (hb : l[k]? = some b) : [a, b].Sublist l := by
  obtain ⟨hi, rfl⟩ := List.getElem?_eq_some_iff.mp ha
  obtain ⟨hk, rfl⟩ := List.getElem?_eq_some_iff.mp hb
  have inFront : l[i] ∈ l.take k := by
    rw [List.mem_take_iff_getElem]
    exact ⟨i, by simp; omega, rfl⟩
  have behind : l[k] ∈ l.drop k := by
    rw [List.mem_drop_iff_getElem]
    exact ⟨0, by simpa using hk, by simp⟩
  have both := (List.singleton_sublist.mpr inFront).append (List.singleton_sublist.mpr behind)
  rwa [List.take_append_drop] at both

/-- **Operations that go to one node stay in order**: they are in one part, the earlier one
first. An index has one node, under whichever of its names. -/
theorem same_node_ordered {i k : Nat} (earlier : i < k) {a b : BulkOp} (ha : ops[i]? = some a)
    (hb : ops[k]? = some b) (same : division a.index = division b.index) :
    ∃ p ∈ parts me (groups division ops), [i, k].Sublist p.order := by
  have pair : [(a, i), (b, k)].Sublist (entries division ops.zipIdx (division a.index)) := by
    have both : [(a, i), (b, k)].Sublist ops.zipIdx :=
      pair_sublist earlier (by simp [ha]) (by simp [hb])
    have kept := both.filter fun e => division e.1.index == division a.index
    simpa [entries, same] using kept
  have some := List.ne_nil_of_mem (pair.subset List.mem_cons_self)
  obtain ⟨p, hp, node⟩ := exists_part me some
  refine ⟨p, hp, ?_⟩
  obtain ⟨nodes, -, mem, order, -⟩ := mem_parts hp
  rw [order]
  refine (pair.map Prod.snd).trans ?_
  rw [List.flatMap_def]
  exact List.sublist_flatten_of_mem (List.mem_map_of_mem ((mem _).mpr ⟨node.symm, some⟩))

/-! ## The answers -/

theorem place_length (items : List (Option Item)) (order : List Nat) (list : List Item) :
    (place items order list).length = items.length := by
  rw [place]
  induction order.zip list generalizing items with
  | nil => rfl
  | cons e l ih => rw [List.foldl_cons, ih, List.length_set]

theorem place_other {items : List (Option Item)} {order : List Nat} {list : List Item} {k : Nat}
    (other : k ∉ order) : (place items order list)[k]? = items[k]? := by
  induction order generalizing items list with
  | nil => rfl
  | cons slot order ih =>
    cases list with
    | nil => rfl
    | cons item list =>
      obtain ⟨here, there⟩ : k ≠ slot ∧ k ∉ order := by simpa using other
      exact (ih there).trans (List.getElem?_set_ne (Ne.symm here))

theorem place_at {items : List (Option Item)} {order : List Nat} {list : List Item} {j k : Nat}
    {item : Item} (distinct : order.Nodup) (slot : order[j]? = some k) (given : list[j]? = some item)
    (room : k < items.length) : (place items order list)[k]? = some (some item) := by
  induction order generalizing items list j with
  | nil => simp at slot
  | cons first order ih =>
    obtain ⟨fresh, distinct⟩ := List.nodup_cons.mp distinct
    cases list with
    | nil => simp at given
    | cons head list =>
      cases j with
      | zero =>
        obtain rfl : first = k := by simpa using slot
        obtain rfl : head = item := by simpa using given
        have later : (place (items.set first (some head)) order list)[first]? =
            (items.set first (some head))[first]? := place_other fresh
        exact later.trans (by simp [room])
      | succ j =>
        have room : k < (items.set first (some head)).length := by simpa using room
        exact ih distinct (by simpa using slot) (by simpa using given) room

theorem join_ok {answers : List (List Nat × BulkReply Item)} {j j' : Joined Item}
    (h : join j answers = .ok j') (distinct : ∀ a ∈ answers, a.1.Nodup)
    (apart : answers.Pairwise fun a b => a.1.Disjoint b.1) :
    j'.items.length = j.items.length ∧
      (∀ a ∈ answers, a.2.success = true) ∧
      (∀ k : Nat, (∀ a ∈ answers, k ∉ a.1) → j'.items[k]? = j.items[k]?) ∧
      (∀ a ∈ answers, ∀ l, a.2.items = some l → ∀ (i k : Nat) (item : Item), a.1[i]? = some k →
        l[i]? = some item → k < j.items.length → j'.items[k]? = some (some item)) ∧
      (j'.errors = true ↔ j.errors = true ∨ ∃ a ∈ answers, a.2.errors = true) := by
  induction answers generalizing j with
  | nil =>
    obtain rfl := Except.ok.inj h
    simp
  | cons a answers ih =>
    obtain ⟨order, r⟩ := a
    rw [join] at h
    obtain ⟨disjoint, apart⟩ := List.pairwise_cons.mp apart
    split at h
    · exact absurd h nofun
    case isFalse success =>
      obtain ⟨length, all, others, placed, errors⟩ :=
        ih h (fun a ha => distinct a (List.mem_cons_of_mem _ ha)) apart
      -- the items before the rest of the answers
      generalize before : (match r.items with
        | some list => place j.items order list
        | none => j.items) = items at length others placed
      have size : items.length = j.items.length := by
        rw [← before]
        split
        · exact place_length ..
        · rfl
      have untouched : ∀ k, k ∉ order → items[k]? = j.items[k]? := by
        intro k hk
        rw [← before]
        split
        · exact place_other hk
        · rfl
      refine ⟨length.trans size, ?_, ?_, ?_, ?_⟩
      · intro a ha
        rcases List.mem_cons.mp ha with rfl | ha
        · simpa using success
        · exact all a ha
      · intro k hk
        rw [others k fun a ha => hk a (List.mem_cons_of_mem _ ha)]
        exact untouched k (hk _ List.mem_cons_self)
      · intro a ha l hl i k item slot given room
        rcases List.mem_cons.mp ha with rfl | ha
        · have mine : k ∈ order := List.mem_of_getElem? slot
          rw [others k fun a ha theirs => disjoint a ha mine theirs, ← before, hl]
          exact place_at (distinct _ List.mem_cons_self) slot given room
        · exact placed a ha l hl i k item slot given (size ▸ room)
      · rw [errors]
        simp [or_assoc]

theorem place_from {items : List (Option Item)} {order : List Nat} {list : List Item} {k : Nat}
    {item : Item} (h : (place items order list)[k]? = some (some item)) :
    items[k]? = some (some item) ∨ ∃ j : Nat, order[j]? = some k ∧ list[j]? = some item := by
  induction order generalizing items list with
  | nil => exact .inl h
  | cons slot order ih =>
    cases list with
    | nil => exact .inl h
    | cons head list =>
      rcases @ih (items.set slot (some head)) _ h with before | ⟨j, hj, given⟩
      · by_cases here : slot = k
        · subst here
          have room : slot < items.length := by
            have := (List.getElem?_eq_some_iff.mp before).1
            simpa using this
          have same : head = item := by
            rw [List.getElem?_set_self room] at before
            exact Option.some.inj (Option.some.inj before)
          exact .inr ⟨0, rfl, by rw [List.getElem?_cons_zero, same]⟩
        · rw [List.getElem?_set_ne here] at before
          exact .inl before
      · exact .inr ⟨j + 1, hj, given⟩

/-- **Where an item comes from**: from the answer of a part, at its own place in it. -/
theorem join_from {answers : List (List Nat × BulkReply Item)} {j j' : Joined Item}
    (h : join j answers = .ok j') {k : Nat} {item : Item}
    (given : j'.items[k]? = some (some item)) :
    j.items[k]? = some (some item) ∨ ∃ a ∈ answers, ∃ l, ∃ i : Nat, a.2.items = some l ∧
      a.1[i]? = some k ∧ l[i]? = some item := by
  induction answers generalizing j with
  | nil =>
    obtain rfl := Except.ok.inj h
    exact .inl given
  | cons a answers ih =>
    obtain ⟨order, r⟩ := a
    rw [join] at h
    split at h
    · cases h
    case isFalse =>
      rcases ih h with before | ⟨a, ha, found⟩
      · cases hitems : r.items with
        | none =>
          rw [hitems] at before
          exact .inl before
        | some l =>
          rw [hitems] at before
          refine (place_from before).imp id fun ⟨i, slot, at_⟩ => ?_
          exact ⟨_, List.mem_cons_self, l, i, hitems, slot, at_⟩
      · exact .inr ⟨a, List.mem_cons_of_mem _ ha, found⟩

theorem join_error {answers : List (List Nat × BulkReply Item)} {j : Joined Item} {r : BulkReply Item}
    (h : join j answers = .error r) : r.success = false ∧ ∃ order, (order, r) ∈ answers := by
  induction answers generalizing j with
  | nil => exact absurd h nofun
  | cons a answers ih =>
    obtain ⟨order, r'⟩ := a
    rw [join] at h
    split at h
    case isTrue failed =>
      obtain rfl := Except.error.inj h
      exact ⟨by simpa using failed, order, List.mem_cons_self⟩
    case isFalse =>
      obtain ⟨failed, order', mem⟩ := ih h
      exact ⟨failed, order', List.mem_cons_of_mem _ mem⟩

end Bulk

namespace BulkAnswer

variable {Item : Type}

/-- The bulk was carried out. -/
def succeeds : BulkAnswer Item → Bool
  | .passed r => r.success
  | .failed _ => false
  | .joined _ => true

/-- The items of the answer, in the order of the body. -/
def items : BulkAnswer Item → List (Option Item)
  | .passed r => (r.items.getD []).map some
  | .failed _ => []
  | .joined j => j.items

/-- Some item of the answer failed. -/
def errors : BulkAnswer Item → Bool
  | .passed r => r.errors
  | .failed r => r.errors
  | .joined j => j.errors

end BulkAnswer

namespace BulkOutcome

variable {Item : Type}

/-- No part's answer was lost, and a part that was taken is answered with an item for each
of its operations. -/
def Full (out : BulkOutcome Item) : Prop :=
  ∀ p ∈ out.parts, ∃ r, p.2 = some r ∧
    (r.success = true → ∃ l, r.items = some l ∧ l.length = p.1.order.length)

/-- A node says `errors` where one of its items is an error. -/
def Honest (ok : Item → Bool) (out : BulkOutcome Item) : Prop :=
  ∀ p ∈ out.parts, ∀ r, p.2 = some r → ∀ l, r.items = some l → (∃ item ∈ l, ok item = false) →
    r.errors = true

/-- The node that was sent the operation at `k` answered it with `item`. -/
def Answered (out : BulkOutcome Item) (k : Nat) (item : Item) : Prop :=
  ∃ p ∈ out.parts, ∃ r l, ∃ j : Nat, p.2 = some r ∧ r.items = some l ∧ p.1.order[j]? = some k ∧
    l[j]? = some item

/-- A bulk is answered as one node would answer it, as far as it can be. -/
structure AsOne (ok : Item → Bool) (body : List Char) (ops : List BulkOp)
    (division : String → Option NodeId) (me : NodeId) (out : BulkOutcome Item) : Prop where
  sent : ∀ p ∈ out.parts, ∀ k ∈ p.1.order, ∃ op, ops[k]? = some op ∧
    p.1.node = Bulk.dest me (division op.index)
  text : ∀ p ∈ out.parts, p.1.text = body ∨
    p.1.text = p.1.order.flatMap fun k => (ops[k]?).elim [] BulkOp.text
  ordered : ∀ (i k : Nat) (a b : BulkOp), i < k → ops[i]? = some a → ops[k]? = some b →
    division a.index = division b.index → ∃ p ∈ out.parts, [i, k].Sublist p.1.order
  /-- Every part that was answered was taken, and no other answer is in the way of its items. -/
  taken : out.answer.succeeds = true → ∀ p ∈ out.parts, ∀ r, p.2 = some r → r.success = true
  items : out.answer.succeeds = true → ∀ k < ops.length, ∀ item,
    out.answer.items[k]? = some (some item) ↔ out.Answered k item
  /-- As many items as operations, unless the one node that was sent the whole body says else. -/
  length : out.answer.succeeds = true → out.answer.items.length = ops.length ∨
    ∃ p r, out.parts = [(p, some r)] ∧ p.text = body ∧ out.answer = .passed r
  /-- `errors` is said just where the answer of a part says so. -/
  said : out.answer.succeeds = true →
    (out.answer.errors = true ↔ ∃ p ∈ out.parts, ∃ r, p.2 = some r ∧ r.errors = true)
  whole : out.Full → out.answer.succeeds = true → out.answer.items.length = ops.length ∧
    ∀ k < ops.length, ∃ item, out.answer.items[k]? = some (some item)
  errors : out.Honest ok → out.answer.succeeds = true → ∀ k < ops.length, ∀ item : Item,
    out.answer.items[k]? = some (some item) → ok item = false → out.answer.errors = true
  failure : out.answer.succeeds = false → ∃ p ∈ out.parts, ∃ r, p.2 = some r ∧
    r.success = false ∧ (out.answer = .passed r ∨ out.answer = .failed r)

/-- Where a node says `errors` for an item that is one, so does the whole answer. -/
theorem said_of_honest {ok : Item → Bool} {out : BulkOutcome Item} (honest : out.Honest ok)
    {k : Nat} {item : Item} (answered : out.Answered k item) (bad : ok item = false) :
    ∃ p ∈ out.parts, ∃ r, p.2 = some r ∧ r.errors = true := by
  obtain ⟨p, hp, r, l, j, hr, hl, -, given⟩ := answered
  exact ⟨p, hp, r, hr, honest p hp r hr l hl ⟨item, List.mem_of_getElem? given, bad⟩⟩

theorem AsOne.passed {ok : Item → Bool} {body : List Char} {ops : List BulkOp}
    {division : String → Option NodeId} {me : NodeId} {node : Option NodeId} {r : BulkReply Item}
    (places : ∀ (k : Nat) (op : BulkOp), ops[k]? = some op →
      node = Bulk.dest me (division op.index)) :
    AsOne ok body ops division me
      { parts := [({ node, order := List.range ops.length, text := body }, some r)]
        answer := .passed r } := by
  generalize hout : ({
    parts := [({ node, order := List.range ops.length, text := body }, some r)]
    answer := .passed r } : BulkOutcome Item) = out
  have parts : out.parts = [({ node, order := List.range ops.length, text := body }, some r)] := by
    rw [← hout]
  have answer : out.answer = .passed r := by rw [← hout]
  have one : ∀ p ∈ out.parts, p = ({ node, order := List.range ops.length, text := body }, some r) :=
    fun p hp => List.mem_singleton.mp (parts ▸ hp)
  have here : ({ node, order := List.range ops.length, text := body }, some r) ∈ out.parts := by
    rw [parts]
    exact List.mem_singleton.mpr rfl
  have given : out.answer.items = (r.items.getD []).map some := by rw [answer]; rfl
  have items : ∀ k < ops.length, ∀ item,
      out.answer.items[k]? = some (some item) ↔ out.Answered k item := by
    intro k hk item
    rw [given]
    constructor
    · intro h
      cases hl : r.items with
      | none => simp [hl] at h
      | some l =>
        refine ⟨_, here, r, l, k, rfl, hl, List.getElem?_range hk, ?_⟩
        simpa [hl] using h
    · rintro ⟨p, hp, r', l, j, hr, hl, slot, at_⟩
      rw [one p hp] at hr slot
      obtain rfl := Option.some.inj hr
      obtain ⟨hj, slot⟩ := List.getElem?_eq_some_iff.mp slot
      obtain rfl : j = k := by rwa [List.getElem_range] at slot
      simp [hl, at_]
  have said : out.answer.errors = true ↔ ∃ p ∈ out.parts, ∃ r, p.2 = some r ∧ r.errors = true := by
    rw [answer]
    constructor
    · exact fun h => ⟨_, here, r, rfl, h⟩
    · rintro ⟨p, hp, r', hr, h⟩
      rw [one p hp] at hr
      obtain rfl := Option.some.inj hr
      exact h
  refine ⟨?_, ?_, ?_, ?_, fun _ => items, ?_, fun _ => said, ?_, ?_, ?_⟩
  · intro p hp k hk
    rw [one p hp] at hk ⊢
    have hk : k < ops.length := by simpa using hk
    exact ⟨ops[k], List.getElem?_eq_getElem hk, places k _ (List.getElem?_eq_getElem hk)⟩
  · intro p hp
    rw [one p hp]
    exact .inl rfl
  · intro i k a b earlier _ hb _
    refine ⟨_, here, ?_⟩
    obtain ⟨hk, -⟩ := List.getElem?_eq_some_iff.mp hb
    exact Bulk.pair_sublist earlier (List.getElem?_range (earlier.trans hk)) (List.getElem?_range hk)
  · intro success p hp r' hr
    rw [one p hp] at hr
    obtain rfl := Option.some.inj hr
    rw [answer] at success
    exact success
  · intro _
    exact .inr ⟨_, r, parts, rfl, answer⟩
  · intro full success
    obtain ⟨r', hr, counted⟩ := full _ here
    obtain rfl := Option.some.inj hr
    rw [answer] at success
    obtain ⟨l, hl, length⟩ := counted success
    have length : l.length = ops.length := by simpa using length
    rw [given, hl]
    refine ⟨by simpa using length, fun k hk => ⟨l[k], ?_⟩⟩
    simp [length, hk]
  · intro honest _ k hk item shown bad
    exact said.mpr (said_of_honest honest ((items k hk item).mp shown) bad)
  · intro failed
    rw [answer] at failed
    exact ⟨_, here, r, rfl, failed, .inl answer⟩

end BulkOutcome

namespace Bulk

variable {Item : Type} {division : String → Option NodeId} {me : NodeId} {ops : List BulkOp}

theorem part_text {p : Part} (h : p ∈ parts me (groups division ops)) :
    p.text = p.order.flatMap fun k => (ops[k]?).elim [] BulkOp.text := by
  obtain ⟨nodes, -, -, order, text⟩ := mem_parts h
  rw [order, text, List.flatMap_assoc]
  refine List.flatMap_congr fun n _ => ?_
  rw [List.flatMap_map]
  refine List.flatMap_congr fun e he => ?_
  have place : ops[e.2]? = some e.1 :=
    List.mem_zipIdx_iff_getElem?.mp (List.mem_of_mem_filter he)
  rw [place]
  rfl

/-- The parts that were answered, with where their items belong. -/
def answers (sent : List (Part × Option (BulkReply Item))) : List (List Nat × BulkReply Item) :=
  sent.filterMap fun (p, r) => r.map fun r => (p.order, r)

theorem mem_answers {sent : List (Part × Option (BulkReply Item))} {a : List Nat × BulkReply Item} :
    a ∈ answers sent ↔ ∃ p ∈ sent, p.2 = some a.2 ∧ p.1.order = a.1 := by
  rw [answers, List.mem_filterMap]
  constructor
  · rintro ⟨⟨p, r⟩, hp, eq⟩
    obtain ⟨r, rfl, rfl⟩ := Option.map_eq_some_iff.mp eq
    exact ⟨_, hp, rfl, rfl⟩
  · rintro ⟨⟨p, r⟩, hp, answered, order⟩
    exact ⟨_, hp, Option.map_eq_some_iff.mpr ⟨a.2, answered, by rw [order]⟩⟩

theorem answers_apart {sent : List (Part × Option (BulkReply Item))}
    (parts : sent.map Prod.fst = parts me (groups division ops)) :
    (∀ a ∈ answers sent, a.1.Nodup) ∧ (answers sent).Pairwise fun a b => a.1.Disjoint b.1 := by
  have mem : ∀ p ∈ sent, p.1 ∈ Bulk.parts me (groups division ops) := fun p hp =>
    parts ▸ List.mem_map_of_mem hp
  constructor
  · intro a ha
    obtain ⟨p, hp, -, order⟩ := mem_answers.mp ha
    rw [← order]
    exact order_nodup (mem p hp)
  · have distinct : sent.Pairwise fun p q => p.1.node ≠ q.1.node := by
      rw [← List.pairwise_map (R := fun p q : Part => p.node ≠ q.node), parts]
      exact parts_distinct
    rw [answers, List.pairwise_filterMap]
    refine distinct.imp_of_mem fun {p q} hp hq differ a ha b hb k hk hk' => ?_
    obtain ⟨r, -, rfl⟩ := Option.map_eq_some_iff.mp ha
    obtain ⟨r', -, rfl⟩ := Option.map_eq_some_iff.mp hb
    -- the place's operation goes to one node
    obtain ⟨op, hop, goes⟩ := (mem_order (mem p hp)).mp hk
    obtain ⟨op', hop', goes'⟩ := (mem_order (mem q hq)).mp hk'
    obtain rfl := Option.some.inj (hop.symm.trans hop')
    exact differ (goes.symm.trans goes')

theorem split_asOne {ok : Item → Bool} {body : List Char} {out : BulkOutcome Item}
    (parts : out.parts.map Prod.fst = parts me (groups division ops))
    (answer : out.answer =
      match join { items := List.replicate ops.length none } (answers out.parts) with
      | .error r => .failed r
      | .ok j => .joined j) : out.AsOne ok body ops division me := by
  have mem : ∀ p ∈ out.parts, p.1 ∈ Bulk.parts me (groups division ops) := fun p hp =>
    parts ▸ List.mem_map_of_mem hp
  have back : ∀ p ∈ Bulk.parts me (groups division ops), ∃ q ∈ out.parts, q.1 = p := by
    intro p hp
    rw [← parts] at hp
    obtain ⟨q, hq, eq⟩ := List.mem_map.mp hp
    exact ⟨q, hq, eq⟩
  obtain ⟨distinct, apart⟩ := answers_apart parts
  -- a bulk that is answered with success was joined
  have joined : out.answer.succeeds = true → ∃ j,
      join { items := List.replicate ops.length none } (answers out.parts) = .ok j ∧
        out.answer = .joined j := by
    intro success
    cases h : join { items := List.replicate ops.length none } (answers out.parts) with
    | error r =>
      rw [answer, h] at success
      cases success
    | ok j => exact ⟨j, rfl, by rw [answer, h]⟩
  have items : out.answer.succeeds = true → ∀ k < ops.length, ∀ item,
      out.answer.items[k]? = some (some item) ↔ out.Answered k item := by
    intro success k hk item
    obtain ⟨j, hj, eq⟩ := joined success
    rw [eq]
    constructor
    · intro shown
      rcases join_from hj shown with before | ⟨a, ha, l, i, hl, slot, given⟩
      · have blank : (List.replicate ops.length (none : Option Item))[k]? = some none := by
          simp [hk]
        cases blank.symm.trans before
      · obtain ⟨p, hp, hr, order⟩ := mem_answers.mp ha
        exact ⟨p, hp, a.2, l, i, hr, hl, order ▸ slot, given⟩
    · rintro ⟨p, hp, r, l, i, hr, hl, slot, given⟩
      have mine : (p.1.order, r) ∈ answers out.parts := mem_answers.mpr ⟨p, hp, hr, rfl⟩
      exact (join_ok hj distinct apart).2.2.2.1 _ mine l hl i k item slot given (by simpa using hk)
  have said : out.answer.succeeds = true →
      (out.answer.errors = true ↔ ∃ p ∈ out.parts, ∃ r, p.2 = some r ∧ r.errors = true) := by
    intro success
    obtain ⟨j, hj, eq⟩ := joined success
    rw [eq]
    refine (join_ok hj distinct apart).2.2.2.2.trans ?_
    constructor
    · rintro (early | ⟨a, ha, h⟩)
      · cases early
      · obtain ⟨p, hp, hr, -⟩ := mem_answers.mp ha
        exact ⟨p, hp, a.2, hr, h⟩
    · rintro ⟨p, hp, r, hr, h⟩
      exact .inr ⟨(p.1.order, r), mem_answers.mpr ⟨p, hp, hr, rfl⟩, h⟩
  have taken : out.answer.succeeds = true → ∀ p ∈ out.parts, ∀ r, p.2 = some r →
      r.success = true := by
    intro success p hp r hr
    obtain ⟨j, hj, -⟩ := joined success
    exact (join_ok hj distinct apart).2.1 (p.1.order, r) (mem_answers.mpr ⟨p, hp, hr, rfl⟩)
  have length : out.answer.succeeds = true → out.answer.items.length = ops.length := by
    intro success
    obtain ⟨j, hj, eq⟩ := joined success
    rw [eq]
    exact (join_ok hj distinct apart).1.trans (by simp)
  refine ⟨?_, ?_, ?_, taken, items, fun success => .inl (length success), said, ?_, ?_, ?_⟩
  · intro p hp k hk
    obtain ⟨op, hop, goes⟩ := (mem_order (mem p hp)).mp hk
    exact ⟨op, hop, goes.symm⟩
  · exact fun p hp => .inr (part_text (mem p hp))
  · intro i k a b earlier ha hb same
    obtain ⟨part, hpart, sub⟩ := same_node_ordered earlier ha hb same
    obtain ⟨p, hp, rfl⟩ := back part hpart
    exact ⟨p, hp, sub⟩
  · intro full success
    refine ⟨length success, fun k hk => ?_⟩
    have hop := List.getElem?_eq_getElem hk
    have entry : (ops[k], k) ∈ entries division ops.zipIdx (division ops[k].index) :=
      List.mem_filter.mpr ⟨List.mem_zipIdx_iff_getElem?.mpr hop, by simp⟩
    obtain ⟨part, hpart, node⟩ := exists_part me (List.ne_nil_of_mem entry)
    obtain ⟨p, hp, rfl⟩ := back part hpart
    obtain ⟨r, hr, counted⟩ := full p hp
    obtain ⟨l, hl, size⟩ := counted (taken success p hp r hr)
    obtain ⟨i, hi, slot⟩ := List.mem_iff_getElem.mp ((mem_order hpart).mpr ⟨_, hop, node.symm⟩)
    have slot : p.1.order[i]? = some k := by rw [List.getElem?_eq_getElem hi, slot]
    have given := List.getElem?_eq_getElem (size ▸ hi : i < l.length)
    exact ⟨_, (items success k hk _).mpr ⟨p, hp, r, l, i, hr, hl, slot, given⟩⟩
  · intro honest success k hk item shown bad
    exact (said success).mpr
      (BulkOutcome.said_of_honest honest ((items success k hk item).mp shown) bad)
  · intro failed
    cases h : join { items := List.replicate ops.length none } (answers out.parts) with
    | ok j =>
      rw [answer, h] at failed
      cases failed
    | error r =>
      obtain ⟨bad, order, mine⟩ := join_error h
      obtain ⟨p, hp, hr, -⟩ := mem_answers.mp mine
      exact ⟨p, hp, r, hr, bad, .inr (by rw [answer, h])⟩

end Bulk

/-- **A bulk split over nodes answers as one node would**, whatever the parts come back with: each
operation is sent to its node, those on one document in one part and in order; every item is the
answer of the node that was sent its operation, at its place in the request; `errors` is said just
where a part says it. Where every part comes back with an item for each of its operations, so does
the bulk. An error for the whole request is the answer of one part; the others may have been
written. -/
theorem bulk_answers_as_one {Item : Type} (ok : Item → Bool) (nodes : Nodes Item)
    (read : ReadAction) (division : String → Option NodeId) (me : NodeId) (default : Option String)
    (body : List Char) (ops : List BulkOp)
    (split : splitOps read default none (bulkLines body) = some ops) :
    (coordinateBulk nodes read division me default body).AsOne ok body ops division me := by
  rw [coordinateBulk, split]
  dsimp only
  split
  case isTrue one =>
    -- every operation is of the one group
    have only : ∀ (k : Nat) (op : BulkOp), ops[k]? = some op →
        ((Bulk.groups division ops).toList.head?.bind Prod.fst).filter (· != me) =
          Bulk.dest me (division op.index) := by
      intro k op hop
      have entry : (op, k) ∈ Bulk.entries division ops.zipIdx (division op.index) :=
        List.mem_filter.mpr ⟨List.mem_zipIdx_iff_getElem?.mpr hop, by simp⟩
      have listed := Bulk.mem_groups.mpr ⟨List.ne_nil_of_mem entry, rfl, rfl⟩
      rw [← Std.ExtTreeMap.length_toList] at one
      cases hl : (Bulk.groups division ops).toList with
      | nil => simp [hl] at listed
      | cons e l =>
        rw [hl, List.length_cons] at one
        obtain rfl : l = [] := List.eq_nil_of_length_eq_zero (by omega)
        rw [hl, List.mem_singleton] at listed
        rw [List.head?_cons, Option.bind_some, ← listed]
        rfl
    split
    case h_1 n goes =>
      rw [goes] at only
      exact BulkOutcome.AsOne.passed only
    case h_2 goes =>
      rw [goes] at only
      exact BulkOutcome.AsOne.passed only
  case isFalse several =>
    refine Bulk.split_asOne ?_ rfl
    rw [List.map_map]
    exact List.map_id _

namespace Bulk

def deleteOf (index id : String) : String :=
  "\x7b\"delete\":\x7b\"_index\":\"" ++ index ++ "\",\"_id\":\"" ++ id ++ "\"\x7d\x7d"

def threeDeletes : List Char :=
  (deleteOf "a" "1" ++ "\n" ++ deleteOf "b" "1" ++ "\n" ++ deleteOf "a" "2" ++ "\n").toList

def readDelete : ReadAction := fun line =>
  if line = (deleteOf "a" "1").toList ∨ line = (deleteOf "a" "2").toList then
    some ("delete", some "a")
  else if line = (deleteOf "b" "1").toList then some ("delete", some "b")
  else none

/-- The index `a` is here, and `b` is on another node. -/
def ownIndex : String → Option NodeId := fun index => some (if index = "a" then "here" else "there")

def threeOps : List BulkOp :=
  [{ action := (deleteOf "a" "1").toList, doc := none, index := "a" },
    { action := (deleteOf "b" "1").toList, doc := none, index := "b" },
    { action := (deleteOf "a" "2").toList, doc := none, index := "a" }]

/-- The node of `a` deletes both documents; an item is its status. -/
def besides (there : BulkReply Nat) : Nodes Nat where
  runLocal := fun _ => { status := 200, items := some [200, 200] }
  forward := fun _ _ => there
  lost := fun _ => false

/-- What comes of the three deletes where the other node answers `there`. -/
def threeDeleted (there : BulkReply Nat) : BulkOutcome Nat :=
  coordinateBulk (besides there) readDelete ownIndex "here" none threeDeletes

def notThere : BulkReply Nat := { status := 200, errors := true, items := some [404] }

end Bulk

theorem bulk_answers_as_one_three :
    (Bulk.threeDeleted Bulk.notThere).answer =
        .joined { errors := true, items := [some 200, some 404, some 200] } ∧
      (Bulk.threeDeleted Bulk.notThere).AsOne (· < 300) Bulk.threeDeletes Bulk.threeOps
        Bulk.ownIndex "here" := by
  exact ⟨by decide +kernel, bulk_answers_as_one _ _ _ _ _ _ _ _ (by decide +kernel)⟩

/-- The bulk is answered with another node's error although two deletes were written; and
where that node answers without items, an operation has none and no error is said. -/
theorem failed_part_hides_written :
    ((Bulk.threeDeleted { status := 503 }).answer = .failed { status := 503 } ∧
        ∃ p ∈ (Bulk.threeDeleted { status := 503 }).parts, p.1.order = [0, 2] ∧
          p.2 = some { status := 200, items := some [200, 200] }) ∧
      (Bulk.threeDeleted { status := 200 }).answer =
        .joined { items := [some 200, none, some 200] } := by
  decide +kernel

end Velosearch.Cluster
