import Velosearch.Cluster.Allocation.Edits

/-!
# `reroute`, shard events and commands as edits

Each pass of `reroute`, each shard event and each command is a chain of the edits of
`Edits`, under the rules its own checks warrant. What the rules ask beyond that is a
hypothesis here: these are the places where the source does not look.

* `HomeFree`: the home a shard's first primary is put at for the documents it holds has
  no copy of the shard.
* `Quiet`: no replica is on its way when replicas are counted or promoted.
* `Agrees` and `Steady`, at the co-location pass.
* `RoomFor`: a move's target has no copy of the shards the move takes along.
-/

set_option autoImplicit false

namespace Velosearch.Cluster.Allocation

open ShardRouting Lib

variable {R : Rules} {ctx : Context} {ids : Nat → String} {b : Board} {w : Work}
variable {name : String} {m : IndexMetadata} {shard : Nat}

/-! ## The table a step leaves -/

theorem edited_setCopies {l : List ShardRouting} {drawn : Nat}
    (edit : Edit R ids name shard (b.copies name 0) (b.copies name shard) b.drawn l drawn) :
    Edited R ids b ⟨b.table.setCopies name shard l, drawn⟩ := by
  refine Edited.shard name shard ?_ fun i s ne => RoutingTable.copies_setCopies_of_ne ne
  have here : Board.copies ⟨b.table.setCopies name shard l, drawn⟩ name shard = l :=
    RoutingTable.copies_setCopies_self
  rw [here]
  exact edit

theorem copies_put {v w : Work} {l : List ShardRouting}
    (table : v.table = w.table.setCopies name shard l) (i : String) (s : Nat) :
    v.board.copies i s = if i = name ∧ s = shard then l else w.board.copies i s := by
  unfold Work.board Board.copies
  rw [table]
  split
  · rename_i here
    obtain ⟨rfl, rfl⟩ := here
    exact RoutingTable.copies_setCopies_self
  · rename_i other
    exact RoutingTable.copies_setCopies_of_ne other

theorem copies_withIndex (t : RoutingTable) (name i : String) (s : Nat) :
    (withIndex t name).copies i s = t.copies i s := by
  unfold withIndex RoutingTable.copies
  by_cases h : name = i
  · subst h
    cases t.indices[name]? <;> simp
  · simp [Std.ExtTreeMap.getElem?_insert, h]

theorem copies_retainShards (t : RoutingTable) (name i : String) (n s : Nat) :
    (retainShards t name n).copies i s = if i = name ∧ n ≤ s then [] else t.copies i s := by
  unfold retainShards RoutingTable.copies
  by_cases h : name = i
  · subst h
    cases hi : t.indices[name]? with
    | none => simp
    | some shards =>
      by_cases hs : n ≤ s
      · have : ¬ s < n := Nat.not_lt_of_le hs
        cases hl : shards[s]? <;>
          simp [Std.ExtTreeMap.getElem?_filter, Option.filter, hl, hs, this]
      · have : s < n := Nat.lt_of_not_le hs
        cases hl : shards[s]? <;> simp [Std.ExtTreeMap.getElem?_filter, Option.filter, hl, hs, this]
  · have : ¬ i = name := fun heq => h heq.symm
    simp [Std.ExtTreeMap.getElem?_insert, h, this]

theorem copies_keptIndices (ctx : Context) (t : RoutingTable) (i : String) (s : Nat) :
    RoutingTable.copies { indices := t.indices.filter fun n _ => ctx.indices.contains n } i s =
      if ctx.indices.contains i then t.copies i s else [] := by
  unfold RoutingTable.copies
  cases hi : t.indices[i]? with
  | none => simp [Std.ExtTreeMap.getElem?_filter, hi]
  | some shards =>
    cases h : ctx.indices.contains i <;>
      simp [Std.ExtTreeMap.getElem?_filter, Option.filter, hi, h]

theorem mem_shardKeys {t : RoutingTable} {index : String} {shard : Nat} {l : List ShardRouting}
    (h : t.lookup index shard = some l) : (index, shard) ∈ t.shardKeys := by
  unfold RoutingTable.lookup at h
  cases hi : t.indices[index]? with
  | none =>
    rw [hi] at h
    exact absurd h nofun
  | some shards =>
    rw [hi] at h
    have hs : shards[shard]? = some l := h
    unfold RoutingTable.shardKeys
    refine List.mem_flatMap.mpr
      ⟨(index, shards), Std.ExtTreeMap.mem_toList_iff_getElem?_eq_some.mpr hi, ?_⟩
    refine List.mem_map.mpr ⟨shard, Std.ExtTreeMap.mem_keys.mpr ?_, rfl⟩
    exact Std.ExtTreeMap.mem_iff_isSome_getElem?.mpr (by rw [hs]; rfl)

theorem copies_eq_nil {t : RoutingTable} {index : String} {shard : Nat}
    (h : (index, shard) ∉ t.shardKeys) : t.copies index shard = [] := by
  cases there : t.lookup index shard with
  | none =>
    unfold RoutingTable.lookup at there
    unfold RoutingTable.copies
    rw [there]
    rfl
  | some l => exact absurd (mem_shardKeys there) h

/-! ## 1. Indices and shards that came and went -/

/-- The shard is one of an index the cluster has. -/
def Context.owns (ctx : Context) (index : String) (shard : Nat) : Prop :=
  ∃ m, ctx.indices[index]? = some m ∧ shard < m.numberOfShards

/-- Where a primary is put back on a home that holds documents, no copy of the shard is there. -/
def HomeFree (ctx : Context) (b : Board) : Prop :=
  ∀ name shard, ctx.owns name shard → ctx.homeHoldsDocuments.contains name = true →
    ∀ node, (ctx.primaryHome[name]?.bind fun home => ctx.nodes[home]?) = some node →
      (∀ c ∈ b.copies name shard, c.primary = false) →
        ∀ c ∈ b.copies name shard, c.node ≠ some node.id

/-- What holds while indices are brought in line, `b` being where it began. -/
structure Syncing (R : Rules) (ctx : Context) (ids : Nat → String) (b : Board) (w : Work) :
    Prop where
  chain : Edits R ids b w.board
  origin : ∀ i s, ctx.owns i s → w.board.copies i s = b.copies i s ∨
    ∃ c ∈ w.board.copies i s, c.primary = true
  quiet : R.paired → ∀ i s, ctx.owns i s → Quiet (w.board.copies i s)

/-- The list of a shard has a primary and the replicas its settings ask for. -/
structure Filled (m : IndexMetadata) (l : List ShardRouting) : Prop where
  headed : ∃ c ∈ l, c.primary = true
  replicas : (l.countP fun c => !c.primary) = m.numberOfReplicas

theorem filled_matchReplicas {fresh : Bool} {l : List ShardRouting}
    (headed : ∃ c ∈ l, c.primary = true) :
    Filled m (matchReplicas ctx name m shard fresh l) := by
  obtain ⟨c, hc, role⟩ := headed
  exact ⟨⟨c, mem_matchReplicas hc role, role⟩, replicas_matchReplicas l⟩

theorem Quiet.cons_primary {l : List ShardRouting} {a : ShardRouting} (h : Quiet l)
    (role : a.primary = true) : Quiet (a :: l) := by
  intro c hc replica
  rcases List.mem_cons.mp hc with rfl | hc
  · rw [role] at replica
    exact absurd replica nofun
  · exact h c hc replica

theorem Syncing.put {l : List ShardRouting} {drawn : Nat} (h : Syncing R ctx ids b w)
    (edit : Edit R ids name shard (w.board.copies name 0) (w.board.copies name shard) w.drawn
      l drawn) (headed : ∃ c ∈ l, c.primary = true) (quiet : R.paired → Quiet l)
    {w' : Work} (table : w'.table = w.table.setCopies name shard l) (drawn_eq : w'.drawn = drawn) :
    Syncing R ctx ids b w' := by
  have board : w'.board = ⟨w.board.table.setCopies name shard l, drawn⟩ := by
    unfold Work.board
    rw [table, drawn_eq]
  refine ⟨?_, fun i s owned => ?_, fun paired i s owned => ?_⟩
  · rw [board]
    exact h.chain.tail (edited_setCopies edit)
  · rw [copies_put table]
    split
    · exact Or.inr headed
    · exact h.origin i s owned
  · rw [copies_put table]
    split
    · exact quiet paired
    · exact h.quiet paired i s owned

theorem atHome_free (tidy : Tidy False ids b) (free : HomeFree ctx b) {home : NodeId}
    (owned : ctx.owns name shard) (headless : ∀ c ∈ b.copies name shard, c.primary = false)
    (h : atHome ctx b.table name m shard = some home) :
    ∀ c ∈ b.copies name shard, c.node ≠ some home := by
  unfold atHome at h
  split at h
  · rename_i node hnode
    split at h
    · rename_i allowed
      obtain rfl := Option.some.inj h
      rw [Bool.or_eq_true] at allowed
      rcases allowed with documents | allowed
      · exact free name shard owned documents node hnode headless
      · have twin := (no_twin_of_canAllocate (bne_iff_ne.mp allowed)).2
        intro c hc hn
        have fits := (tidy name shard).fits c hc
        obtain ⟨assigned, id, hid⟩ := assigned_of_node fits hn
        unfold twinOn at twin
        rw [List.any_eq_false] at twin
        refine twin c (RoutingTable.mem_shardsOf.mpr ⟨shard, hc⟩) ?_
        simp [freshPrimary, fits.shard_eq, assigned, hn, hid]
    · cases h
  · cases h

theorem syncShard_syncing (syncs : R.syncs) (tidy : Tidy False ids b)
    (free : R.apart → HomeFree ctx b)
    (founds : ∀ i s, (∀ c ∈ b.copies i s, c.primary = false) → R.founds i s)
    (owned : ctx.owns name shard)
    (h : Syncing R ctx ids b w) :
    Syncing R ctx ids b (syncShard ctx ids b.table name m w shard) ∧
      Filled m ((syncShard ctx ids b.table name m w shard).board.copies name shard) := by
  have here : ∀ {l : List ShardRouting} {w' : Work},
      w'.table = w.table.setCopies name shard l → w'.board.copies name shard = l := by
    intro l w' table
    exact (copies_put table name shard).trans (if_pos ⟨rfl, rfl⟩)
  unfold syncShard
  dsimp only
  split
  · rename_i none
    have headless : ∀ c ∈ w.board.copies name shard, c.primary = false := by
      intro c hc
      simpa using List.all_eq_true.mp none c hc
    have same : w.board.copies name shard = b.copies name shard := by
      rcases h.origin name shard owned with heq | ⟨c, hc, role⟩
      · exact heq
      · rw [headless c hc] at role
        exact absurd role nofun
    have founding : R.founds name shard := founds name shard (same ▸ headless)
    split
    · rename_i home hhome
      have room : R.apart → ∀ c ∈ w.board.copies name shard, c.node ≠ some home := by
        intro asked
        rw [same] at headless ⊢
        exact atHome_free tidy (free asked) owned headless hhome
      have headed : ∃ c ∈ startedAtHome name shard home (ids w.drawn) ::
          w.table.copies name shard, c.primary = true := ⟨_, List.mem_cons_self, rfl⟩
      refine ⟨h.put (.settle syncs ctx m _ home headless founding room) ?_ ?_ rfl rfl, ?_⟩
      · exact (filled_matchReplicas headed).headed
      · exact fun paired => ((h.quiet paired name shard owned).cons_primary rfl).matchReplicas
      · rw [here rfl]
        exact filled_matchReplicas headed
    · have headed : ∃ c ∈ freshPrimary ctx name m shard :: w.table.copies name shard,
          c.primary = true := ⟨_, List.mem_cons_self, rfl⟩
      refine ⟨h.put (.create syncs ctx m _ headless founding) ?_ ?_ rfl rfl, ?_⟩
      · exact (filled_matchReplicas headed).headed
      · exact fun paired => ((h.quiet paired name shard owned).cons_primary rfl).matchReplicas
      · rw [here rfl]
        exact filled_matchReplicas headed
  · rename_i some
    have headed : ∃ c ∈ w.table.copies name shard, c.primary = true := by
      simpa using some
    refine ⟨h.put (.fill syncs ctx m _ headed fun paired => h.quiet paired name shard owned)
      ?_ ?_ rfl rfl, ?_⟩
    · exact (filled_matchReplicas headed).headed
    · exact fun paired => (h.quiet paired name shard owned).matchReplicas
    · rw [here rfl]
      exact filled_matchReplicas headed

theorem syncShard_frame (table : RoutingTable) {i : String} {s : Nat}
    (other : ¬ (i = name ∧ s = shard)) :
    (syncShard ctx ids table name m w shard).board.copies i s = w.board.copies i s := by
  unfold syncShard
  dsimp only
  split
  · split <;> exact RoutingTable.copies_setCopies_of_ne other
  · exact RoutingTable.copies_setCopies_of_ne other

theorem Syncing.forget (h : Syncing R ctx ids b w) (syncs : R.syncs) {w' : Work}
    (kept : ∀ i s, w'.board.copies i s = w.board.copies i s ∨
      w'.board.copies i s = [] ∧ ¬ ctx.owns i s)
    (same : w'.drawn = w.drawn) : Syncing R ctx ids b w' := by
  have owned_kept : ∀ i s, ctx.owns i s → w'.board.copies i s = w.board.copies i s :=
    fun i s owned => (kept i s).resolve_right fun gone => gone.2 owned
  refine ⟨h.chain.tail (.forget syncs (fun i s => (kept i s).imp_right And.left) same),
    fun i s owned => ?_, fun paired i s owned => ?_⟩
  · rw [owned_kept i s owned]
    exact h.origin i s owned
  · rw [owned_kept i s owned]
    exact h.quiet paired i s owned

/-- Every shard of an index does. -/
structure Lined (name : String) (m : IndexMetadata) (w : Work) : Prop where
  filled : ∀ s, s < m.numberOfShards → Filled m (w.board.copies name s)
  gone : ∀ s, m.numberOfShards ≤ s → w.board.copies name s = []

theorem syncIndex_syncing (syncs : R.syncs) (tidy : Tidy False ids b)
    (free : R.apart → HomeFree ctx b)
    (founds : ∀ i s, (∀ c ∈ b.copies i s, c.primary = false) → R.founds i s) (owned : ctx.indices[name]? = some m)
    (h : Syncing R ctx ids b w) :
    Syncing R ctx ids b (syncIndex ctx ids b.table w name m) ∧
      Lined name m (syncIndex ctx ids b.table w name m) := by
  have entered : Syncing R ctx ids b { w with table := withIndex w.table name } :=
    h.forget syncs (fun i s => Or.inl (copies_withIndex w.table name i s)) rfl
  obtain ⟨syncing, filled⟩ := foldl_reaches (f := syncShard ctx ids b.table name m)
    (I := Syncing R ctx ids b) (D := fun s w => Filled m (w.board.copies name s))
    (l := List.range m.numberOfShards)
    (fun w s hs hw => syncShard_syncing syncs tidy free founds ⟨m, owned, List.mem_range.mp hs⟩ hw)
    (fun w s hs t hw hdone => by
      by_cases same : t = s
      · subst same
        exact (syncShard_syncing syncs tidy free founds ⟨m, owned, List.mem_range.mp hs⟩ hw).2
      · rw [syncShard_frame b.table fun both => same both.2]
        exact hdone) entered
  have retained : ∀ i s, (syncIndex ctx ids b.table w name m).board.copies i s =
      if i = name ∧ m.numberOfShards ≤ s then []
      else ((List.range m.numberOfShards).foldl (syncShard ctx ids b.table name m)
        { w with table := withIndex w.table name }).board.copies i s := fun i s =>
    copies_retainShards _ name i m.numberOfShards s
  refine ⟨syncing.forget syncs (fun i s => ?_) rfl, ⟨fun s hs => ?_, fun s hs => ?_⟩⟩
  · have := retained i s
    split at this
    · rename_i dropped
      refine Or.inr ⟨this, ?_⟩
      rintro ⟨m', owned', hs⟩
      rw [dropped.1, owned] at owned'
      obtain rfl := Option.some.inj owned'
      exact absurd hs (Nat.not_lt_of_le dropped.2)
    · exact Or.inl this
  · rw [retained, if_neg fun both => absurd hs (Nat.not_lt_of_le both.2)]
    exact filled s (List.mem_range.mpr hs)
  · rw [retained, if_pos ⟨rfl, hs⟩]

theorem syncIndex_frame (table : RoutingTable) {i : String} (other : i ≠ name) (s : Nat) :
    (syncIndex ctx ids table w name m).board.copies i s = w.board.copies i s := by
  have folded : ∀ n, ((List.range n).foldl (syncShard ctx ids table name m)
      { w with table := withIndex w.table name }).board.copies i s = w.board.copies i s := by
    intro n
    refine foldl_keeps (I := fun v : Work => v.board.copies i s = w.board.copies i s)
      (fun v t _ hv => ?_) (copies_withIndex w.table name i s)
    rw [syncShard_frame table fun both => other both.1]
    exact hv
  refine (copies_retainShards _ name i m.numberOfShards s).trans ?_
  rw [if_neg fun both => other both.1]
  exact folded m.numberOfShards

/-- What bringing the indices in line leaves of a table. -/
structure Synced (R : Rules) (ctx : Context) (ids : Nat → String) (b : Board) (w : Work) :
    Prop where
  chain : Edits R ids b w.board
  quiet : R.paired → ∀ i s, Quiet (w.board.copies i s)
  filled : ∀ i m s, ctx.indices[i]? = some m → s < m.numberOfShards →
    Filled m (w.board.copies i s)
  gone : ∀ i s, ¬ ctx.owns i s → w.board.copies i s = []

/-- **Indices that came and went**: a chain of edits, after which there are the shards
the metadata has and no others. -/
theorem syncIndices_synced (syncs : R.syncs) (tidy : Tidy False ids b)
    (free : R.apart → HomeFree ctx b)
    (founds : ∀ i s, (∀ c ∈ b.copies i s, c.primary = false) → R.founds i s)
    (quiet : R.paired → ∀ i s, ctx.owns i s → Quiet (b.copies i s)) (changes : Changes) :
    Synced R ctx ids b (syncIndices ctx ids ⟨b.table, changes, b.drawn⟩) := by
  have begun : Syncing R ctx ids b ⟨b.table, changes, b.drawn⟩ :=
    ⟨.refl, fun i s _ => Or.inl rfl, quiet⟩
  have kept : Syncing R ctx ids b
      ⟨{ indices := b.table.indices.filter fun n _ => ctx.indices.contains n }, changes,
        b.drawn⟩ := by
    refine begun.forget syncs (fun i s => ?_) rfl
    have := copies_keptIndices ctx b.table i s
    split at this
    · exact Or.inl this
    · rename_i absent
      refine Or.inr ⟨this, fun ⟨m, owned, _⟩ => absent ?_⟩
      exact Std.ExtTreeMap.contains_iff_mem.mpr
        (Std.ExtTreeMap.mem_iff_isSome_getElem?.mpr (by rw [owned]; rfl))
  have absent : ∀ i s, ctx.indices[i]? = none → Board.copies
      ⟨{ indices := b.table.indices.filter fun n _ => ctx.indices.contains n }, b.drawn⟩ i s =
        [] := by
    intro i s absent
    refine (copies_keptIndices ctx b.table i s).trans (if_neg ?_)
    simpa using absent
  obtain ⟨⟨syncing, foreign⟩, lined⟩ := foldl_reaches
    (f := fun acc (e : String × IndexMetadata) => syncIndex ctx ids b.table acc e.1 e.2)
    (I := fun w => Syncing R ctx ids b w ∧
      ∀ i s, ctx.indices[i]? = none → w.board.copies i s = [])
    (D := fun e w => ctx.indices[e.1]? = some e.2 → Lined e.1 e.2 w) (l := ctx.indices.toList)
    (fun w e he ⟨hw, hforeign⟩ => by
      have owned := Std.ExtTreeMap.mem_toList_iff_getElem?_eq_some.mp he
      obtain ⟨hs, hl⟩ := syncIndex_syncing (R := R) syncs tidy free founds owned hw
      refine ⟨⟨hs, fun i s absent => ?_⟩, fun _ => hl⟩
      have other : i ≠ e.1 := by
        rintro rfl
        rw [owned] at absent
        exact absurd absent nofun
      rw [syncIndex_frame b.table other]
      exact hforeign i s absent)
    (fun w e he e' ⟨hw, _⟩ hdone owned' => by
      have owned := Std.ExtTreeMap.mem_toList_iff_getElem?_eq_some.mp he
      by_cases same : e'.1 = e.1
      · rw [same] at owned' ⊢
        rw [← Option.some.inj (owned.symm.trans owned')]
        exact (syncIndex_syncing (R := R) syncs tidy free founds owned hw).2
      · obtain ⟨filled, gone⟩ := hdone owned'
        refine ⟨fun s hs => ?_, fun s hs => ?_⟩
        · rw [syncIndex_frame b.table same]
          exact filled s hs
        · rw [syncIndex_frame b.table same]
          exact gone s hs)
    ⟨kept, absent⟩
  have settled : ∀ i m, ctx.indices[i]? = some m → Lined i m
      (syncIndices ctx ids ⟨b.table, changes, b.drawn⟩) := by
    intro i m owned
    exact lined (i, m) (Std.ExtTreeMap.mem_toList_iff_getElem?_eq_some.mpr owned) owned
  have gone : ∀ i s, ¬ ctx.owns i s →
      (syncIndices ctx ids ⟨b.table, changes, b.drawn⟩).board.copies i s = [] := by
    intro i s foreigner
    cases owned : ctx.indices[i]? with
    | none => exact foreign i s owned
    | some m =>
      refine (settled i m owned).gone s (Nat.le_of_not_lt fun hs => foreigner ⟨m, owned, hs⟩)
  refine ⟨syncing.chain, fun paired i s => ?_, fun i m s owned => ?_, gone⟩
  · by_cases owned : ctx.owns i s
    · exact syncing.quiet paired i s owned
    · rw [gone i s owned]
      exact fun c hc => absurd hc List.not_mem_nil
  · exact (settled i m owned).filled s

/-! ## 2. Copies on nodes that left -/

theorem departNodes_edits (sync : R.inSync = inSyncOf ctx)
    (quiet : R.paired → ∀ i s, Quiet (w.board.copies i s)) :
    Edits R ids w.board (departNodes ctx w).board := by
  have step : ∀ v : Work, ∀ key ∈ w.table.shardKeys,
      (Edits R ids w.board v.board ∧ (R.paired → ∀ i s, Quiet (v.board.copies i s))) →
      Edits R ids w.board (departShard ctx v key).board ∧
        (R.paired → ∀ i s, Quiet ((departShard ctx v key).board.copies i s)) := by
    rintro v ⟨index, shard⟩ _ ⟨chain, quiet⟩
    have edit : Edit R ids index shard (v.board.copies index 0) (v.board.copies index shard) v.drawn
        (promote (inSyncOf ctx index shard) (withoutLeft ctx index (v.board.copies index shard))).1
        v.drawn := by
      rw [← sync]
      exact .depart ctx fun paired => quiet paired index shard
    refine ⟨chain.tail (edited_setCopies edit), fun paired i s => ?_⟩
    rw [copies_put (v := departShard ctx v (index, shard)) (w := v) rfl i s]
    split
    · exact ((quiet paired index shard).withoutLeft ctx index).promote _
    · exact quiet paired i s
  exact (foldl_keeps step ⟨.refl, quiet⟩).1

/-! ## 3. Allocation -/

/-- The node holds a copy of the index, under its own uuid, that the shard's in-sync
set names. -/
def Context.Holds (ctx : Context) (name : String) (shard : Nat) (node : NodeId) : Prop :=
  ∃ copies, ctx.held[node]? = some copies ∧ ∃ e ∈ copies, e.1 = name ∧
    e.2.1 = ((ctx.indices[name]?).map (·.uuid)).getD "" ∧
    e.2.2 ∈ (inSyncOf ctx name shard).getD []

/-- Where `reroute` may put an entry: a primary whose data is lost, only where the data
still is. -/
def Context.grants (ctx : Context) (name : String) (shard : Nat) (c : ShardRouting)
    (node : NodeId) : Prop :=
  lostPrimary c = true → ctx.Holds name shard node

theorem keeper_holds {copy : ShardRouting} {node : NodeId} {t : RoutingTable}
    (h : keeper ctx t name copy ((inSyncOf ctx name shard).getD []) = some node) :
    ctx.Holds name shard node ∧
      ∃ n, n.id = node ∧ overall (canAllocate ctx t copy n) = .yes := by
  unfold keeper at h
  dsimp only at h
  obtain ⟨n, hn, rfl⟩ := Option.map_eq_some_iff.mp h
  have found := List.find?_some hn
  simp only [Bool.and_eq_true, beq_iff_eq] at found
  refine ⟨?_, n, rfl, found.2⟩
  cases held : ctx.held[n.id]? with
  | none => simp [held] at found
  | some copies =>
    refine ⟨copies, held, ?_⟩
    have := found.1
    rw [held] at this
    simp only [Option.map_some, Option.getD_some, List.any_eq_true, Bool.and_eq_true, beq_iff_eq,
      List.contains_iff_mem] at this
    obtain ⟨e, he, ⟨hn, hu⟩, ha⟩ := this
    exact ⟨e, he, hn, hu, ha⟩

theorem free_of_canAllocate {N : Prop} {copy : ShardRouting} {i : Nat} {n : DiscoveryNode}
    (tidy : Tidy N ids w.board) (here : (w.board.copies name shard)[i]? = some copy)
    (allowed : overall (canAllocate ctx w.table copy n) = .yes) :
    ∀ c ∈ (w.board.copies name shard).eraseIdx i, c.node ≠ some n.id := by
  have allowed : overall (canAllocate ctx w.table copy n) ≠ .no := by
    rw [allowed]
    exact nofun
  obtain ⟨joins, rest⟩ := (tidy name shard).pick here
  refine free_of_no_twin (no_twin_of_canAllocate allowed).2 (fun c hc => ?_) joins rest
  exact RoutingTable.mem_shardsOf.mpr ⟨shard, mem_of_mem_eraseIdx hc⟩

/-- What allocation makes of an entry: nothing, or one that waited is on a node or goes
on waiting. -/
inductive Placing (a : ShardRouting) : ShardRouting → Prop where
  | left : Placing a a
  | put {c : ShardRouting} (waits : a.Idle ∧ a.active = false) (role : c.primary = a.primary)
      (state : c.state = .initializing) (still : c.relocatingNode = none) : Placing a c
  | noted (waits : a.Idle ∧ a.active = false) (u : Option UnassignedInfo) :
      Placing a { a with unassigned := u }

/-- What holds while the entries at `places` are allocated, `b` being where it
began. -/
structure Allocating (R : Rules) (ids : Nat → String) (b : Board)
    (places : List (String × Nat × Nat)) (w : Work) : Prop where
  chain : Edits R ids b w.board
  idle : ∀ p ∈ places, ∀ a, (w.board.copies p.1 p.2.1)[p.2.2]? = some a →
    a.Idle ∧ a.active = false
  stems : ∀ i s, ∀ c ∈ w.board.copies i s, ∃ a ∈ b.copies i s, Placing a c

section Allocate

variable {places : List (String × Nat × Nat)} {copy : ShardRouting} {i : Nat}

theorem Placing.trans {a c d : ShardRouting} (h : Placing a c) (h' : Placing c d) :
    Placing a d := by
  cases h with
  | left => exact h'
  | put waits role state still =>
    cases h' with
    | left => exact .put waits role state still
    | put _ role' state' still' => exact .put waits (role'.trans role) state' still'
    | noted _ u => exact .put waits role state still
  | noted waits u =>
    cases h' with
    | left => exact .noted waits u
    | put _ role state still => exact .put waits role state still
    | noted _ u' => exact .noted waits u'

theorem Allocating.put {f : ShardRouting → ShardRouting} {drawn : Nat} {w' : Work}
    (h : Allocating R ids b places w) (here : (w.board.copies name shard)[i]? = some copy)
    (turn : Placing copy (f copy))
    (edit : Edit R ids name shard (w.board.copies name 0) (w.board.copies name shard) w.drawn
      ((w.board.copies name shard).modify i f) drawn)
    (idle : ∀ a, a.Idle ∧ a.active = false → (f a).Idle ∧ (f a).active = false)
    (table : w'.table = w.table.setCopies name shard ((w.board.copies name shard).modify i f))
    (drawn_eq : w'.drawn = drawn) : Allocating R ids b places w' := by
  have board : w'.board = ⟨w.board.table.setCopies name shard
      ((w.board.copies name shard).modify i f), drawn⟩ := by
    unfold Work.board
    rw [table, drawn_eq]
    rfl
  refine ⟨by rw [board]; exact h.chain.tail (edited_setCopies edit), fun p hp a ha => ?_,
    fun i' s c hc => ?_⟩
  · rw [copies_put table] at ha
    split at ha
    · rename_i same
      rw [List.getElem?_modify] at ha
      cases was : (w.board.copies name shard)[p.2.2]? with
      | none => simp [was] at ha
      | some c =>
        have here := h.idle p hp c (by rw [same.1, same.2]; exact was)
        rw [was, Option.map_eq_map, Option.map_some] at ha
        split at ha
        · exact Option.some.inj ha ▸ idle c here
        · exact Option.some.inj ha ▸ here
    · exact h.idle p hp a ha
  · rw [copies_put table] at hc
    split at hc
    · rename_i key
      obtain ⟨rfl, rfl⟩ := key
      rcases List.mem_cons.mp ((perm_modify here f).mem_iff.mp hc) with rfl | hc
      · obtain ⟨a, ha, was⟩ := h.stems i' s copy (List.mem_of_getElem? here)
        exact ⟨a, ha, was.trans turn⟩
      · exact h.stems i' s c (mem_of_mem_eraseIdx hc)
    · exact h.stems i' s c hc

theorem Allocating.remark {w' : Work} (g : Option UnassignedInfo → Option UnassignedInfo)
    (kept : ∀ u, (g u).map (·.reason) = u.map (·.reason))
    (h : Allocating R ids b places w) (here : (w.board.copies name shard)[i]? = some copy)
    (idle : copy.Idle ∧ copy.active = false)
    (table : w'.table = w.table.setCopies name shard ((w.board.copies name shard).modify i
      fun c => { c with unassigned := g c.unassigned }))
    (drawn : w'.drawn = w.drawn) : Allocating R ids b places w' := by
  refine h.put here (.noted idle _) (.reason g kept here idle.1) (fun a ha => ?_) table drawn
  exact ⟨⟨ha.1.source, ha.1.target⟩, ha.2⟩

theorem Allocating.assign {w' : Work} {n : DiscoveryNode} (tidy : Tidy False ids w.board)
    (h : Allocating R ids b places w) (here : (w.board.copies name shard)[i]? = some copy)
    (idle : copy.Idle ∧ copy.active = false) (grant : R.grants name shard copy n.id)
    (allowed : overall (canAllocate ctx w.table copy n) = .yes)
    (table : w'.table = w.table.setCopies name shard ((w.board.copies name shard).modify i
      (assignTo n.id (ids w.drawn))))
    (drawn : w'.drawn = w.drawn + 1) : Allocating R ids b places w' := by
  have put : AssignedTo n.id (ids w.drawn) copy (assignTo n.id (ids w.drawn) copy) :=
    ⟨rfl, rfl, rfl, rfl, rfl, rfl⟩
  have kept : (assignTo n.id (ids w.drawn) copy).unassigned.map (·.reason) =
      copy.unassigned.map (·.reason) := by
    cases hu : copy.unassigned <;> simp [assignTo, undelayed, hu]
  refine h.put here (.put idle rfl rfl rfl)
    (.assign here idle.1 idle.2 put (Or.inr kept) (Or.inl rfl) grant fun _ => ?_)
    (fun a _ => ?_) table drawn
  · exact free_of_canAllocate tidy here allowed
  · exact ⟨⟨nofun, rfl⟩, rfl⟩

theorem placeCopy_allocating (tidy : Tidy False ids w.board) (h : Allocating R ids b places w)
    (here : (w.board.copies name shard)[i]? = some copy) (idle : copy.Idle ∧ copy.active = false)
    (grant : ∀ node, R.grants name shard copy node) :
    Allocating R ids b places (placeCopy ctx ids w name shard i copy) := by
  unfold placeCopy
  dsimp only
  split
  · rename_i n hn
    have allowed := List.find?_some hn
    rw [beq_iff_eq] at allowed
    exact h.assign tidy here idle (grant n.id) allowed rfl rfl
  · refine h.remark _ (fun u => ?_) here idle rfl rfl
    cases u <;> rfl

theorem restorePrimary_allocating (tidy : Tidy False ids w.board)
    (h : Allocating R ids b places w) (here : (w.board.copies name shard)[i]? = some copy)
    (idle : copy.Idle ∧ copy.active = false)
    (grant : ∀ node, ctx.Holds name shard node → R.grants name shard copy node) :
    Allocating R ids b places (restorePrimary ctx ids w name shard i copy) := by
  unfold restorePrimary
  dsimp only
  split
  · rename_i node hnode
    obtain ⟨holds, n, rfl, allowed⟩ := keeper_holds hnode
    exact h.assign tidy here idle (grant n.id holds) allowed rfl rfl
  · refine h.remark _ (fun u => ?_) here idle rfl rfl
    cases u <;> rfl

/-- **Allocation**: a chain of edits, each on a node without another copy of its
shard. -/
theorem allocatePass_allocating (inj : Function.Injective ids) (pass : Bool)
    (tidy : Tidy False ids w.board)
    (grants : ∀ n s c node, ctx.grants n s c node → R.grants n s c node) :
    Allocating R ids w.board (pending w.table pass) (allocatePass ctx ids pass w) := by
  have begun : Allocating R ids w.board (pending w.table pass) w := by
    refine ⟨.refl, fun p hp a ha => ?_, fun i s c hc => ⟨c, hc, .left⟩⟩
    suffices waits : a.state = .unassigned by
      exact ⟨idle_unassigned waits, by simp [ShardRouting.active, waits]⟩
    unfold pending at hp
    obtain ⟨⟨name, shard⟩, _, hp⟩ := List.mem_flatMap.mp hp
    obtain ⟨⟨c, i⟩, hc, hp⟩ := List.mem_filterMap.mp hp
    dsimp only at hp
    split at hp
    · rename_i waits
      obtain rfl := Option.some.inj hp
      have := List.mem_zipIdx_iff_getElem?.mp hc
      obtain rfl := Option.some.inj (this.symm.trans ha)
      exact beq_iff_eq.mp ((Bool.and_eq_true _ _).mp waits).2
    · cases hp
  refine foldl_keeps (I := Allocating R ids w.board (pending w.table pass))
    (fun v p hp hv => ?_) begun
  have tidy := Edits.tidy inj hv.chain (by rintro ⟨⟩) tidy
  obtain ⟨name, shard, i⟩ := p
  unfold allocateCopy
  dsimp only
  split
  · exact hv
  · rename_i copy here
    have idle := hv.idle _ hp copy here
    split
    · refine restorePrimary_allocating tidy hv here idle fun node holds => ?_
      exact grants name shard copy node fun _ => holds
    · rename_i lost
      have placed : Allocating R ids w.board (pending w.table pass)
          (placeCopy ctx ids v name shard i copy) :=
        placeCopy_allocating tidy hv here idle fun node =>
          grants name shard copy node fun h => absurd h lost
      split
      · split
        · exact ⟨hv.chain, hv.idle, hv.stems⟩
        · exact placed
      · exact placed

end Allocate

/-! ## 4. and 5. Moves -/

section Moves

variable {copy : ShardRouting} {source : NodeId} {n : DiscoveryNode}

/-- A move begun: the entry that goes is where it was, and what is new comes after the
others. -/
structure Launched (l l' : List ShardRouting) : Prop where
  longer : l.length ≤ l'.length
  sent : ∀ (i : Nat) (a : ShardRouting), l[i]? = some a → ∃ c, l'[i]? = some c ∧
    (c = a ∨ a.state = .started ∧ c.state = .relocating ∧ c.primary = a.primary) ∧
    c.node = a.node ∧ c.allocationId = a.allocationId
  added : ∀ (i : Nat) (c : ShardRouting), l.length ≤ i → l'[i]? = some c →
    c.state = .initializing
  same : l'.length = l.length → l' = l

theorem Launched.refl (l : List ShardRouting) : Launched l l := by
  refine ⟨le_rfl, fun i a ha => ⟨a, ha, .inl rfl, rfl, rfl⟩, fun i c hi hc => ?_, fun _ => rfl⟩
  rw [List.getElem?_eq_none hi] at hc
  exact absurd hc nofun

theorem Launched.start {l l' : List ShardRouting} {pos : Nat} {a : ShardRouting} {dest : NodeId}
    {id : String} (h : Launched l l') (here : l'[pos]? = some a) (state : a.state = .started) :
    Launched l (startMove l' pos copy source dest id) := by
  have length : (startMove l' pos copy source dest id).length = l'.length + 1 := by
    simp [startMove]
  have old : ∀ i < l'.length, (startMove l' pos copy source dest id)[i]? =
      (l'.modify pos (moveSource dest))[i]? := by
    intro i hi
    unfold startMove
    rw [List.getElem?_append_left (by rwa [List.length_modify])]
  refine ⟨?_, fun i x hx => ?_, fun i c hi hc => ?_, fun heq => ?_⟩
  · rw [length]
    exact h.longer.trans (Nat.le_succ _)
  · obtain ⟨c, hc, was, kept⟩ := h.sent i x hx
    obtain ⟨hi, -⟩ := List.getElem?_eq_some_iff.mp hc
    rw [old i hi, List.getElem?_modify, hc]
    by_cases at_pos : pos = i
    · subst at_pos
      obtain rfl := Option.some.inj (here.symm.trans hc)
      refine ⟨moveSource dest a, by simp, .inr ?_, kept⟩
      rcases was with rfl | ⟨_, moving, _⟩
      · exact ⟨state, rfl, rfl⟩
      · exact absurd (state.symm.trans moving) nofun
    · exact ⟨c, by simp [at_pos], was, kept⟩
  · by_cases inside : i < l'.length
    · rw [old i inside, List.getElem?_modify] at hc
      have waits : ∀ x, l'[i]? = some x → x.state = .initializing := fun x => h.added i x hi
      have other : pos ≠ i := by
        rintro rfl
        exact absurd (state.symm.trans (waits a here)) nofun
      cases there : l'[i]? with
      | none => simp [there] at hc
      | some x =>
        have same : x = c := by simpa [there, other] using hc
        exact same ▸ waits x there
    · obtain ⟨bound, -⟩ := List.getElem?_eq_some_iff.mp hc
      have last : i = (l'.modify pos (moveSource dest)).length := by
        rw [List.length_modify]
        omega
      unfold startMove at hc
      rw [last, List.getElem?_concat_length] at hc
      exact Option.some.inj hc ▸ rfl
  · have := h.longer
    omega

theorem Launched.starting {l l' : List ShardRouting} (h : Launched l l') (moved : ¬ l' = l) :
    ∃ c ∈ l', c.state = .initializing := by
  have more : l.length < l'.length := lt_of_le_of_ne h.longer fun same => moved (h.same same.symm)
  refine ⟨l'[l.length], List.getElem_mem more, ?_⟩
  exact h.added l.length _ le_rfl (List.getElem?_eq_getElem more)

theorem Launched.keeps {l l' : List ShardRouting} (h : Launched l l') {c : ShardRouting}
    (hc : c ∈ l) (state : c.state ≠ .started) : c ∈ l' := by
  obtain ⟨i, hi⟩ := List.mem_iff_getElem?.mp hc
  obtain ⟨x, hx, rfl | ⟨started, _⟩, _⟩ := h.sent i c hi
  · exact List.mem_of_getElem? hx
  · exact absurd started state

variable (source) in
theorem relocate_launched (tidy : Tidy False ids w.board)
    (here : copy ∈ w.board.copies name copy.shard) (state : copy.state = .started) (dest : NodeId) :
    (∀ l, Launched l (w.board.copies name copy.shard) →
      Launched l ((relocate ids w name copy source dest).board.copies name copy.shard)) ∧
      ∀ i s, ¬ (i = name ∧ s = copy.shard) →
        (relocate ids w name copy source dest).board.copies i s = w.board.copies i s := by
  have sited := tidy name copy.shard
  have assigned : copy.state ≠ .unassigned := by
    rw [state]
    exact nofun
  obtain ⟨id, hid⟩ := Option.isSome_iff_exists.mp ((sited.fits copy here).allocationId.mpr assigned)
  unfold relocate
  dsimp only
  split
  · exact ⟨fun _ h => h, fun _ _ _ => rfl⟩
  · rename_i pos hpos
    obtain ⟨a, ha, same⟩ := found hpos
    have same : a.allocationId = some id := (beq_iff_eq.mp same).trans hid
    obtain rfl : a = copy := sited.eq_of_id (List.mem_of_getElem? ha) here same hid
    refine ⟨fun l h => ?_, fun i s other => ?_⟩
    · rw [copies_put (w := w) rfl name a.shard, if_pos ⟨rfl, rfl⟩]
      exact h.start ha state
    · rw [copies_put (w := w) rfl i s, if_neg other]

theorem relocate_edits (tidy : Tidy False ids w.board)
    (here : copy ∈ w.board.copies name copy.shard) (state : copy.state = .started)
    (node : copy.node = some source)
    (allowed : overall (canAllocate ctx w.table copy n) = .yes) :
    Edits R ids w.board (relocate ids w name copy source n.id).board ∧
      ∀ i s, ∀ c ∈ w.board.copies i s, c ≠ copy →
        c ∈ (relocate ids w name copy source n.id).board.copies i s := by
  have sited := tidy name copy.shard
  obtain ⟨assigned, id, hid⟩ := assigned_of_node (sited.fits copy here) node
  unfold relocate
  dsimp only
  split
  · exact ⟨.refl, fun i s c hc _ => hc⟩
  · rename_i pos hpos
    obtain ⟨a, ha, same⟩ := found hpos
    have same : a.allocationId = some id := (beq_iff_eq.mp same).trans hid
    obtain rfl : a = copy := sited.eq_of_id (List.mem_of_getElem? ha) here same hid
    have free : ∀ c ∈ w.board.copies name a.shard, c.node ≠ some n.id := by
      intro c hc
      rcases List.mem_cons.mp ((perm_pick ha).mem_iff.mp hc) with rfl | hc
      · have allowed : overall (canAllocate ctx w.table c n) ≠ .no := by
          rw [allowed]
          exact nofun
        exact (no_twin_of_canAllocate allowed).1.resolve_left assigned
      · exact free_of_canAllocate tidy ha allowed c hc
    refine ⟨.single (edited_setCopies (.move ha node state rfl rfl rfl fun _ => free)), ?_⟩
    intro i s c hc other
    rw [copies_put (w := w) rfl i s]
    split
    · rename_i key
      obtain ⟨rfl, rfl⟩ := key
      refine (startMove_perm ha).mem_iff.mpr ?_
      rcases List.mem_cons.mp ((perm_pick ha).mem_iff.mp hc) with rfl | hc
      · exact absurd rfl other
      · exact List.mem_cons_of_mem _ (List.mem_cons_of_mem _ hc)
    · exact hc

theorem shardsOf_filter {t : RoutingTable} {drawn : Nat} (tidy : Tidy False ids ⟨t, drawn⟩) :
    ((t.shardsOf name).filter fun c : ShardRouting => c.shard == shard) = t.copies name shard := by
  unfold RoutingTable.shardsOf RoutingTable.copies
  cases hi : t.indices[name]? with
  | none => rfl
  | some shards =>
    have fits : ∀ (s : Nat) (l : List ShardRouting), shards[s]? = some l →
        ∀ c ∈ l, c.shard = s := by
      intro s l hs c hc
      refine ((tidy name s).fits c ?_).shard_eq
      unfold Board.copies RoutingTable.copies
      simpa [hi, hs] using hc
    simp only [Option.map_some, Option.getD_some, Option.bind_some]
    refine filter_flatten_values (p := fun c : ShardRouting => c.shard == shard)
      (fun l hl c hc => ?_) (fun s l hl ne c hc => ?_)
    · simpa using fits shard l hl c hc
    · rw [fits s l hl c hc]
      simpa using ne

/-- What holds while the first shard of an index is moved off where it may not stay. -/
structure Moving (R : Rules) (ids : Nat → String) (name : String) (w w' : Work) : Prop where
  chain : Edits R ids w.board w'.board
  launched : ∀ l, Launched l (w.board.copies name 0) → Launched l (w'.board.copies name 0)
  frame : ∀ i s, ¬ (i = name ∧ s = 0) → w'.board.copies i s = w.board.copies i s

theorem Moving.refl (w : Work) : Moving R ids name w w :=
  ⟨.refl, fun _ h => h, fun _ _ _ => rfl⟩

theorem moveOne_foldl (inj : Function.Injective ids) {stuck : List ShardRouting}
    (distinct : stuck.Pairwise (· ≠ ·))
    (here : ∀ c ∈ stuck, c ∈ w.board.copies name c.shard ∧ c.state = .started ∧ c.shard = 0)
    (tidy : Tidy False ids w.board) :
    Moving R ids name w (stuck.foldl (moveOne ctx ids name) w) := by
  induction stuck generalizing w with
  | nil => exact .refl w
  | cons copy stuck ih =>
    rw [List.pairwise_cons] at distinct
    rw [List.forall_mem_cons] at here
    obtain ⟨⟨hcopy, state, first⟩, rest⟩ := here
    have step : Moving R ids name w (moveOne ctx ids name w copy) ∧
        ∀ i s, ∀ c ∈ w.board.copies i s, c ≠ copy →
          c ∈ (moveOne ctx ids name w copy).board.copies i s := by
      unfold moveOne
      split
      · exact ⟨.refl w, fun i s c hc _ => hc⟩
      · rename_i source node
        split
        · rename_i n hn
          have allowed := List.find?_some hn
          rw [Bool.and_eq_true, beq_iff_eq] at allowed
          obtain ⟨chain, stay⟩ := relocate_edits (R := R) tidy hcopy state node allowed.2
          obtain ⟨launched, frame⟩ := relocate_launched source tidy hcopy state n.id
          rw [first] at launched frame
          exact ⟨⟨chain, launched, frame⟩, stay⟩
        · exact ⟨⟨.refl, fun _ h => h, fun _ _ _ => rfl⟩, fun i s c hc _ => hc⟩
    obtain ⟨first, stay⟩ := step
    have later := ih distinct.2
      (fun c hc => ⟨stay _ _ c (rest c hc).1 (distinct.1 c hc).symm, (rest c hc).2⟩)
      (Edits.tidy inj first.chain nofun tidy)
    refine ⟨first.chain.trans later.chain, fun l h => later.launched l (first.launched l h), ?_⟩
    exact fun i s other => (later.frame i s other).trans (first.frame i s other)

theorem moveStuckOf_moving (ctx : Context) (inj : Function.Injective ids)
    (tidy : Tidy False ids w.board) : Moving R ids name w (moveStuckOf ctx ids w name) := by
  refine moveOne_foldl inj ?_ (fun c hc => ?_) tidy
  · have split : ((w.table.shardsOf name).filter fun c =>
        c.shard == 0 && c.state == .started && mayNotRemain ctx w.table c) =
          (w.board.copies name 0).filter fun c =>
            c.state == .started && mayNotRemain ctx w.table c := by
      have first : w.board.copies name 0 = _ := (shardsOf_filter (t := w.table) tidy).symm
      rw [first, List.filter_filter]
      exact List.filter_congr fun c _ => by ac_rfl
    have apart := ((tidy name 0).apart.filter fun c =>
      c.state == .started && mayNotRemain ctx w.table c)
    rw [split]
    refine List.Pairwise.imp_of_mem (fun {a c} ha _ apart heq => ?_) apart
    subst heq
    have started := (List.mem_filter.mp ha).2
    rw [Bool.and_eq_true, beq_iff_eq] at started
    have assigned : a.state ≠ .unassigned := by
      rw [started.1]
      exact nofun
    have fits := (tidy name 0).fits a (List.mem_filter.mp ha).1
    obtain ⟨id, hid⟩ := Option.isSome_iff_exists.mp (fits.allocationId.mpr assigned)
    exact apart.ids id hid hid
  · obtain ⟨hc, picked⟩ := List.mem_filter.mp hc
    simp only [Bool.and_eq_true, beq_iff_eq] at picked
    obtain ⟨s, hs⟩ := RoutingTable.mem_shardsOf.mp hc
    have fits := (tidy name s).fits c hs
    rw [fits.shard_eq]
    exact ⟨hs, picked.1.2, fits.shard_eq ▸ picked.1.1⟩

theorem moveStuck_edits (ctx : Context) (inj : Function.Injective ids) (tidy : Tidy False ids w.board) :
    Edits R ids w.board (moveStuck ctx ids w).board := by
  refine foldl_keeps (I := fun v : Work => Edits R ids w.board v.board) (fun v name _ hv => ?_) .refl
  exact hv.trans (moveStuckOf_moving ctx inj (Edits.tidy inj hv nofun tidy)).chain

theorem rebalanceMove_spec {t : RoutingTable} {heavy light : NodeId}
    (h : rebalanceMove ctx t name = some (copy, heavy, light)) :
    copy ∈ t.all ∧ copy.node = some heavy ∧ copy.index = name ∧ copy.state = .started ∧
      overall (canRebalance ctx t copy) = .yes ∧
      ∃ n : DiscoveryNode, n.id = light ∧ overall (canAllocate ctx t copy n) = .yes := by
  unfold rebalanceMove at h
  split at h
  · exact absurd h nofun
  · exact absurd h nofun
  · rename_i light' lw rest _ _
    have mem := List.mem_of_head? h
    obtain ⟨⟨heavy', hw⟩, _, mem⟩ := List.mem_flatMap.mp mem
    obtain ⟨c, hc, mem⟩ := List.mem_filterMap.mp mem
    split at mem
    · rename_i worth
      simp only [Bool.and_eq_true, beq_iff_eq] at worth
      obtain ⟨rfl, rfl, rfl⟩ : c = copy ∧ heavy'.id = heavy ∧ light'.id = light := by
        simpa using mem
      obtain ⟨on, picked⟩ := List.mem_filter.mp hc
      obtain ⟨all, node⟩ := List.mem_filter.mp on
      simp only [Bool.and_eq_true, beq_iff_eq] at picked node
      exact ⟨all, node, picked.1, picked.2, worth.1.1, light', rfl, worth.1.2⟩
    · exact absurd mem nofun

theorem rebalance_edits (ctx : Context) (inj : Function.Injective ids) (tidy : Tidy False ids w.board) :
    Edits R ids w.board (rebalance ctx ids w).board := by
  refine foldl_keeps (I := fun v : Work => Edits R ids w.board v.board) (fun v name _ hv => ?_) .refl
  have tidy := Edits.tidy inj hv nofun tidy
  unfold rebalanceOf
  split
  · rename_i copy heavy light hmove
    obtain ⟨all, node, index_eq, state, _, n, rfl, allowed⟩ := rebalanceMove_spec hmove
    obtain ⟨i, s, hs⟩ := RoutingTable.mem_all.mp all
    have fits := (tidy i s).fits copy hs
    have here : copy ∈ v.board.copies name copy.shard := by
      rw [fits.shard_eq, ← index_eq, fits.index_eq]
      exact hs
    exact hv.trans (relocate_edits tidy here state node allowed).1
  · exact hv

end Moves

/-! ## 6. Co-location -/

/-- What has to hold of a table for the co-location pass to keep the rules. -/
structure Alike (R : Rules) (b : Board) : Prop where
  agrees : R.paired → ∀ i s, Agrees (b.copies i 0) (b.copies i s)
  steady : ∀ i s, Steady R.steady (b.copies i 0) (b.copies i s)

theorem agrees_align {first copies : List ShardRouting} (drawn : Nat)
    (agrees : Agrees first copies) :
    Agrees first (alignCopies ids name shard drawn first copies).1 := by
  intro e he _
  have mirrors := alignCopies_mirrors ids name shard drawn agrees
  exact ((List.forall₂_iff_zip.mp mirrors).2 he).relocating

theorem steady_align {S : String → Prop} (first copies : List ShardRouting) (drawn : Nat) :
    Steady S first (alignCopies ids name shard drawn first copies).1 := by
  intro e he _ _ _
  have seats := alignCopies_seats ids name shard drawn first copies
  exact Or.inr ((List.forall₂_iff_zip.mp seats).2 he).node

/-- What the co-location pass has done so far. -/
structure Aligning (R : Rules) (ids : Nat → String) (b : Board) (w : Work) : Prop where
  chain : Edits R ids b w.board
  alike : Alike R w.board

theorem colocateShard_aligning {first : List ShardRouting} (colocates : R.colocates)
    (other : shard ≠ 0)
    (hfirst : w.board.copies name 0 = first) (h : Aligning R ids b w) :
    Aligning R ids b (colocateShard ids name first w shard) ∧
      (colocateShard ids name first w shard).board.copies name 0 = first := by
  subst hfirst
  have copies := copies_put (v := colocateShard ids name (w.board.copies name 0) w shard) (w := w) rfl
  have models : ∀ i, (colocateShard ids name (w.board.copies name 0) w shard).board.copies i 0 =
      w.board.copies i 0 := by
    intro i
    rw [copies, if_neg fun both => other both.2.symm]
  refine ⟨⟨h.chain.tail (edited_setCopies ?_), ⟨fun paired i s => ?_, fun i s => ?_⟩⟩,
    models name⟩
  · exact .align colocates (fun paired => h.alike.agrees paired name shard)
      (h.alike.steady name shard)
  · rw [models, copies]
    split
    · rename_i here
      rw [here.1]
      exact agrees_align w.drawn (h.alike.agrees paired name shard)
    · exact h.alike.agrees paired i s
  · rw [models, copies]
    split
    · rename_i here
      rw [here.1]
      exact steady_align _ _ w.drawn
    · exact h.alike.steady i s

theorem colocateIndex_aligning (colocates : R.colocates) (h : Aligning R ids b w) :
    Aligning R ids b (colocateIndex ids w name) := by
  unfold colocateIndex
  split
  · exact h
  · rename_i first hfirst
    have model : w.board.copies name 0 = first := by
      unfold Board.copies RoutingTable.copies Work.board
      rw [hfirst]
      rfl
    have step : ∀ v : Work, ∀ s ∈ ((w.table.indices[name]?.getD ∅).keys).filter (· != 0),
        (Aligning R ids b v ∧ v.board.copies name 0 = first) →
        Aligning R ids b (colocateShard ids name first v s) ∧
          (colocateShard ids name first v s).board.copies name 0 = first := by
      rintro v s hs ⟨hv, hmodel⟩
      have other := (List.mem_filter.mp hs).2
      exact colocateShard_aligning colocates (by simpa using other) hmodel hv
    exact (foldl_keeps step ⟨h, model⟩).1

/-- **Co-location**: a chain of edits, as far as the shards are alike. -/
theorem colocate_edits (colocates : R.colocates) (alike : Alike R w.board) :
    Edits R ids w.board (colocate ids w).board := by
  have begun : Aligning R ids w.board w := ⟨.refl, alike⟩
  exact (foldl_keeps (fun v name _ hv => colocateIndex_aligning colocates hv) begun).chain

/-! ## The whole of `reroute` -/

/-- What follows the departures, as edits. -/
theorem settled_edits (inj : Function.Injective ids) (tidy : Tidy False ids w.board)
    (grants : ∀ n s c node, ctx.grants n s c node → R.grants n s c node) :
    Edits R ids w.board (rebalance ctx ids (moveStuck ctx ids (allocatePass ctx ids false
      (allocatePass ctx ids true w)))).board := by
  have primaries := (allocatePass_allocating inj true tidy grants).chain
  have replicas := primaries.trans
    (allocatePass_allocating inj false (Edits.tidy inj primaries nofun tidy) grants).chain
  have moved := replicas.trans (moveStuck_edits ctx inj (Edits.tidy inj replicas nofun tidy))
  exact moved.trans (rebalance_edits ctx inj (Edits.tidy inj moved nofun tidy))

theorem placed_edits (inj : Function.Injective ids) (sync : R.inSync = inSyncOf ctx)
    (tidy : Tidy False ids w.board)
    (grants : ∀ n s c node, ctx.grants n s c node → R.grants n s c node)
    (quiet : R.paired → ∀ i s, Quiet (w.board.copies i s)) :
    Edits R ids w.board (rebalance ctx ids (moveStuck ctx ids (allocatePass ctx ids false
      (allocatePass ctx ids true (departNodes ctx w))))).board := by
  have left : Edits R ids w.board (departNodes ctx w).board := departNodes_edits sync quiet
  exact left.trans (settled_edits inj (Edits.tidy inj left nofun tidy) grants)

/-- **`reroute` is a chain of edits**, as far as the places where it does not look are
as the rules want them. -/
theorem reroute_edits (inj : Function.Injective ids) (syncs : R.syncs) (colocates : R.colocates)
    (sync : R.inSync = inSyncOf ctx) (tidy : Tidy False ids b)
    (grants : ∀ n s c node, ctx.grants n s c node → R.grants n s c node)
    (free : R.apart → HomeFree ctx b)
    (founds : ∀ i s, (∀ c ∈ b.copies i s, c.primary = false) → R.founds i s)
    (quiet : R.paired → ∀ i s, ctx.owns i s → Quiet (b.copies i s))
    (alike : Alike R (placed ctx ids b.table b.drawn).board) :
    Edits R ids b (reroute ctx ids b.table b.drawn).board := by
  have synced := syncIndices_synced (R := R) syncs tidy free founds quiet {}
  have placed := synced.chain.trans (placed_edits inj sync
    (Edits.tidy inj synced.chain nofun tidy) grants synced.quiet)
  exact placed.trans (colocate_edits colocates alike)

/-! ## Shard events -/

section Events

variable {index id : String}

theorem shardStarted_edits (events : R.events) :
    Edits R ids b ⟨(shardStarted b.table index shard id).1, b.drawn⟩ := by
  unfold shardStarted
  dsimp only
  split
  · exact .refl
  · split
    · exact .refl
    · rename_i pos _ c here
      split
      · exact .refl
      · rename_i state
        exact .single (edited_setCopies (.start events here (not_not.mp state)))

theorem shardFailed_edits (events : R.events) (now : Millis) (message : String)
    (away : R.paired → ∀ c ∈ b.copies index shard, c.allocationId = some id →
      c.state ≠ .relocating) :
    Edits R ids b ⟨(shardFailed b.table index shard id now message).1, b.drawn⟩ := by
  unfold shardFailed
  dsimp only
  split
  · exact .refl
  · rename_i pos hpos
    split
    · exact .refl
    · rename_i c here
      obtain ⟨a, ha, hid⟩ := found hpos
      obtain rfl := Option.some.inj (here.symm.trans ha)
      split
      · rename_i target
        refine .single (edited_setCopies (.giveUp events here ?_))
        simp [isTarget, target.1, target.2]
      · rename_i target
        refine .single (edited_setCopies (.unassign events _ here fun paired => ⟨?_, ?_⟩))
        · exact away paired c (List.mem_of_getElem? here) (beq_iff_eq.mp hid)
        · simpa [isTarget] using target

theorem shardStale_edits (events : R.events) (now : Millis)
    (idle : R.paired → ∀ c ∈ b.copies index shard, c.allocationId = some id →
      c.primary = false → c.Idle) :
    Edits R ids b ⟨(shardStale b.table index shard id now).1, b.drawn⟩ := by
  unfold shardStale
  dsimp only
  split
  · exact .refl
  · rename_i pos hpos
    obtain ⟨a, ha, hid⟩ := found hpos
    rw [Bool.and_eq_true, beq_iff_eq, Bool.not_eq_true'] at hid
    refine .single (edited_setCopies (.unassign events (fun _ => staleInfo now) ha fun paired => ?_))
    exact idle paired a (List.mem_of_getElem? ha) hid.1 hid.2

end Events

/-! ## Commands -/

section Commands

variable {index : String} {source dest n : DiscoveryNode}

/-- The shards that would move along have no copy where they would move to. -/
def RoomFor (t : RoutingTable) (index : String) (primary : Bool) (source dest : NodeId) : Prop :=
  ∀ s ∈ carriedShards t index primary source, ∀ c ∈ t.copies index s, c.node ≠ some dest

/-- While a move takes shards along: each has room where it goes, or has nothing to
move. -/
def Clear (b : Board) (index : String) (primary : Bool) (source dest : NodeId) : Prop :=
  ∀ s, (∀ c ∈ b.copies index s, c.node ≠ some dest) ∨
    ∀ c ∈ b.copies index s, movable primary source c = false

theorem clear_of_room {N : Prop} {primary : Bool} {source dest : NodeId} (tidy : Tidy N ids b)
    (room : RoomFor b.table index primary source dest) : Clear b index primary source dest := by
  intro s
  by_cases carried : s ∈ carriedShards b.table index primary source
  · exact Or.inl (room s carried)
  · refine Or.inr fun c hc => Bool.eq_false_iff.mpr fun moves => carried ?_
    refine List.mem_map.mpr ⟨c, List.mem_filter.mpr ⟨?_, moves⟩, ((tidy index s).fits c hc).shard_eq⟩
    exact RoutingTable.mem_shardsOf.mpr ⟨s, hc⟩

theorem movable_iff {primary : Bool} {source : NodeId} {c : ShardRouting} :
    movable primary source c = true ↔
      c.state = .started ∧ c.primary = primary ∧ c.node = some source := by
  simp [movable, and_assoc]

theorem moveShard_edits {primary : Bool} {source dest : NodeId} (shard : Nat)
    (tidy : Tidy R.apart ids w.board)
    (clear : R.apart → Clear w.board index primary source dest) :
    Edits R ids w.board (moveShard ids index primary source dest w shard).board ∧
      (R.apart → Clear (moveShard ids index primary source dest w shard).board index primary
        source dest) := by
  unfold moveShard
  dsimp only
  split
  · exact ⟨.refl, clear⟩
  · rename_i pos hpos
    split
    · exact ⟨.refl, clear⟩
    · rename_i c here
      obtain ⟨a, ha, moves⟩ := found hpos
      obtain rfl := Option.some.inj (here.symm.trans ha)
      obtain ⟨state, role, node⟩ := movable_iff.mp moves
      have free : R.apart → ∀ x ∈ w.board.copies index shard, x.node ≠ some dest := by
        intro asked
        rcases clear asked shard with free | still
        · exact free
        · exact absurd (still c (List.mem_of_getElem? here)) (by rw [moves]; exact nofun)
      refine ⟨.single (edited_setCopies (.move here node state rfl rfl role.symm free)), ?_⟩
      intro asked s
      rw [copies_put (w := w) rfl index s]
      split
      · rename_i key
        right
        intro x hx
        rw [Bool.eq_false_iff]
        intro moves
        obtain ⟨state', _, node'⟩ := movable_iff.mp moves
        rcases List.mem_cons.mp ((startMove_perm here).mem_iff.mp hx) with rfl | hx
        · exact absurd state' nofun
        · rcases List.mem_cons.mp hx with rfl | hx
          · exact absurd state' nofun
          · have apart := ((tidy index shard).pick here).1.apart x hx
            exact apart.nodes asked source node node'
      · exact clear asked s

theorem applyMove_edits (inj : Function.Injective ids) (tidy : Tidy R.apart ids w.board)
    (room : R.apart → underWay w.table index shard source.id dest.id = false →
      ∀ copy, copyOn w.table index shard source.id = some copy → copy.state = .started →
        overall (canAllocate ctx w.table copy dest) ≠ .no →
          RoomFor w.table index copy.primary source.id dest.id)
    {w' : Work} {vs : List Verdict}
    (h : applyMove ctx ids w index shard source dest = .done w' vs) :
    Edits R ids w.board w'.board := by
  unfold applyMove at h
  split at h
  · obtain ⟨rfl, _⟩ := Outcome.done.inj h
    exact .refl
  · rename_i notYet
    split at h
    · exact absurd h nofun
    · rename_i copy hcopy
      split at h
      · exact absurd h nofun
      · rename_i state
        dsimp only at h
        split at h
        · exact absurd h nofun
        · rename_i allowed
          obtain ⟨rfl, _⟩ := Outcome.done.inj h
          have begun : R.apart → Clear w.board index copy.primary source.id dest.id := by
            intro asked
            exact clear_of_room tidy (room asked (by simpa using notYet) copy hcopy
              (not_not.mp state) allowed)
          refine (foldl_keeps (I := fun v : Work => Edits R ids w.board v.board ∧
            (R.apart → Clear v.board index copy.primary source.id dest.id))
            (fun v s _ ⟨chain, clear⟩ => ?_) ⟨.refl, begun⟩).1
          have moved := moveShard_edits s (Edits.tidy inj chain id tidy) clear
          exact ⟨chain.trans moved.1, moved.2⟩

theorem applyAllocate_edits {primary : Bool} (events : R.events) (tidy : Tidy R.apart ids w.board)
    (grants : ∀ c node, R.grants index shard c node) {w' : Work} {vs : List Verdict}
    (h : applyAllocate ctx ids w primary index shard n = .done w' vs) :
    Edits R ids w.board w'.board := by
  unfold applyAllocate at h
  split at h
  · exact absurd h nofun
  · rename_i copy hcopy
    dsimp only at h
    split at h
    · exact absurd h nofun
    · rename_i allowed
      split at h
      · obtain ⟨rfl, _⟩ := Outcome.done.inj h
        exact .refl
      · rename_i pos hpos
        obtain ⟨rfl, _⟩ := Outcome.done.inj h
        obtain ⟨a, ha, waits⟩ := found hpos
        simp only [awaiting, Bool.and_eq_true, beq_iff_eq] at waits
        -- the deciders were asked about some waiting copy: it has no id, so that no
        -- assigned one is taken for it
        have free : ∀ c ∈ w.board.copies index shard, c.node ≠ some n.id := by
          intro c hc hn
          have waiting := List.find?_some hcopy
          simp only [awaiting, Bool.and_eq_true, beq_iff_eq] at waiting
          obtain ⟨s, hs⟩ := RoutingTable.mem_shardsOf.mp (List.mem_of_find?_eq_some hcopy)
          have copyFits := (tidy index s).fits copy hs
          have none : copy.allocationId = none := by
            have := mt copyFits.allocationId.mp (not_not.mpr waiting.2.2)
            simpa using this
          have fits := (tidy index shard).fits c hc
          obtain ⟨assigned, id, hid⟩ := assigned_of_node fits hn
          have twin := (no_twin_of_canAllocate allowed).2
          unfold twinOn at twin
          rw [copyFits.index_eq, List.any_eq_false] at twin
          refine twin c (RoutingTable.mem_shardsOf.mpr ⟨shard, hc⟩) ?_
          simp [fits.shard_eq, waiting.1, assigned, hn, hid, none]
        have put : AssignedTo n.id (ids w.drawn) a (allocated primary n.id (ids w.drawn) a) :=
          ⟨rfl, rfl, rfl, rfl, rfl, rfl⟩
        refine .single (edited_setCopies (.assign ha (idle_unassigned waits.2)
          (by simp [ShardRouting.active, waits.2]) put (Or.inl events) (Or.inr rfl) (grants a n.id)
          fun _ c hc => ?_))
        exact free c (mem_of_mem_eraseIdx hc)

theorem applyCancel_edits {allowPrimary : Bool} (events : R.events) (tidy : Tidy R.apart ids w.board)
    {w' : Work} {vs : List Verdict}
    (h : applyCancel ctx w index shard n allowPrimary = .done w' vs) :
    Edits R ids w.board w'.board := by
  unfold applyCancel at h
  split at h
  · exact absurd h nofun
  · rename_i copy hcopy
    split at h
    · exact absurd h nofun
    · dsimp only at h
      split at h
      · obtain ⟨rfl, _⟩ := Outcome.done.inj h
        exact .refl
      · rename_i pos hpos
        obtain ⟨rfl, _⟩ := Outcome.done.inj h
        have picked := List.find?_some hcopy
        rw [Bool.and_eq_true, beq_iff_eq, beq_iff_eq] at picked
        obtain ⟨s, hs⟩ := RoutingTable.mem_shardsOf.mp (List.mem_of_find?_eq_some hcopy)
        have fits := (tidy index s).fits copy hs
        obtain rfl : s = shard := fits.shard_eq.symm.trans picked.1
        obtain ⟨_, id, hid⟩ := assigned_of_node fits picked.2
        obtain ⟨a, ha, same⟩ := found hpos
        have same : a.allocationId = some id := (beq_iff_eq.mp same).trans hid
        obtain rfl : a = copy := (tidy index s).eq_of_id (List.mem_of_getElem? ha) hs same hid
        exact .single (edited_setCopies (.cancel events ctx.now ha))

/-- A command that moves shards has room for all of them. -/
def Roomy (ctx : Context) (w : Work) : Command → Prop
  | .move index shard fromNode toNode => ∀ source dest,
      resolveNode ctx fromNode = .ok source → resolveNode ctx toNode = .ok dest →
      underWay w.table index shard source.id dest.id = false →
      ∀ copy, copyOn w.table index shard source.id = some copy → copy.state = .started →
        overall (canAllocate ctx w.table copy dest) ≠ .no →
          RoomFor w.table index copy.primary source.id dest.id
  | _ => True

theorem applyCommand_edits (inj : Function.Injective ids) (events : R.events) {cmd : Command}
    (tidy : Tidy R.apart ids w.board) (grants : ∀ i s c node, R.grants i s c node)
    (room : R.apart → Roomy ctx w cmd) {w' : Work} {vs : List Verdict}
    (h : applyCommand ctx ids w cmd = .done w' vs) : Edits R ids w.board w'.board := by
  cases cmd with
  | move index shard fromNode toNode =>
    simp only [applyCommand] at h
    split at h
    · rename_i source dest hs hd
      exact applyMove_edits inj tidy (fun asked => room asked source dest hs hd) h
    · exact absurd h nofun
    · exact absurd h nofun
  | allocate kind index shard node acceptDataLoss =>
    simp only [applyCommand] at h
    split at h
    · exact absurd h nofun
    · split at h
      · exact absurd h nofun
      · exact applyAllocate_edits events tidy (grants index shard) h
  | cancel index shard node allowPrimary =>
    simp only [applyCommand] at h
    split at h
    · exact absurd h nofun
    · exact applyCancel_edits events tidy h
  | unknown name => exact absurd h nofun
  | malformed => exact absurd h nofun

/-- Every command of a request has, where its turn comes. -/
def AllRoomy (ctx : Context) (ids : Nat → String) (explain : Bool) : Work → List Command → Prop
  | _, [] => True
  | w, cmd :: cmds => Roomy ctx w cmd ∧
    match applyCommand ctx ids w cmd with
    | .done w' _ => AllRoomy ctx ids explain w' cmds
    | .refused _ => explain = true → AllRoomy ctx ids explain w cmds
    | .failed _ => True

theorem applyCommands_edits (inj : Function.Injective ids) (events : R.events) {explain : Bool} {cmds : List Command}
    {said said' : List Explanation} {w' : Work} (tidy : Tidy R.apart ids w.board)
    (grants : ∀ i s c node, R.grants i s c node)
    (room : R.apart → AllRoomy ctx ids explain w cmds)
    (h : applyCommands ctx ids explain w cmds said = .ok (w', said')) :
    Edits R ids w.board w'.board := by
  induction cmds generalizing w said with
  | nil =>
    obtain ⟨rfl, _⟩ := Prod.mk.inj (Except.ok.inj h)
    exact .refl
  | cons cmd cmds ih =>
    rw [applyCommands] at h
    cases happly : applyCommand ctx ids w cmd with
    | done w₁ vs =>
      rw [happly] at h
      have first := applyCommand_edits inj events tidy grants (fun asked => (room asked).1) happly
      refine first.trans (ih (Edits.tidy inj first id tidy) (fun asked => ?_) h)
      have rest := (room asked).2
      rw [happly] at rest
      exact rest
    | refused why =>
      rw [happly] at h
      dsimp only at h
      split at h
      · rename_i goes
        refine ih tidy (fun asked => ?_) h
        have rest := (room asked).2
        rw [happly] at rest
        exact rest goes
      · exact absurd h nofun
    | failed why =>
      rw [happly] at h
      exact absurd h nofun

end Commands

end Velosearch.Cluster.Allocation
