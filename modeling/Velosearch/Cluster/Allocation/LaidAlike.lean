import Velosearch.Cluster.Allocation.InStep

/-!
# Indices whose shards are laid alike

The co-location pass goes by place: an entry is given the node of the one that stands where it
does in the first shard, and keeps its own allocation id. `LaidAlike` says, of the table `reroute`
is given, when no id is taken to another node that way: entries in one place are on one node, and
the passes before it, which drop, promote and place the entries of each shard by themselves, do
the same in every shard.
-/

set_option autoImplicit false

namespace Velosearch.Cluster.Allocation

open ShardRouting Lib

variable {R : Rules} {ctx : Context} {ids : Nat → String} {b : Board} {w : Work}
variable {name : String} {m : IndexMetadata} {s : Nat} {x y : ShardRouting}
variable {first l l' : List ShardRouting}

/-! ## Laid alike -/

/-- The index has more replicas than its settings ask for. -/
def Shrinks (b : Board) (name : String) (m : IndexMetadata) : Prop :=
  m.numberOfReplicas < (b.copies name 0).countP fun c => !c.primary

instance (b : Board) (name : String) (m : IndexMetadata) : Decidable (Shrinks b name m) :=
  inferInstanceAs (Decidable (_ < _))

/-- A primary of the index is on no node of the cluster. -/
def Orphaned (ctx : Context) (b : Board) (name : String) : Prop :=
  ∃ c ∈ b.copies name 0, c.primary = true ∧ (c.node.any fun n => ctx.present n) = false

instance (ctx : Context) (b : Board) (name : String) : Decidable (Orphaned ctx b name) :=
  inferInstanceAs (Decidable (∃ c ∈ b.copies name 0, _))

/-- What is asked of the entry `y` of a shard that stands where `x` does in the first: its role
and, where it is assigned, its node are those of `x`, and so is what the passes go by. -/
structure Beside (ctx : Context) (b : Board) (name : String) (m : IndexMetadata) (s : Nat)
    (x y : ShardRouting) : Prop where
  role : y.primary = x.primary
  node : y.node.isSome = true → y.node = x.node
  primary : x.primary = true → y.node = x.node
  target : y.isTarget = x.isTarget
  source : x.isTarget = true → y.relocatingNode = x.relocatingNode
  waits : Shrinks b name m → y.node = none → x.node = none
  heir : Orphaned ctx b name → (x.node.any fun n => ctx.present n) = true →
    mayTakeOver (inSyncOf ctx name s) y = mayTakeOver (inSyncOf ctx name 0) x

instance instDecidableBeside (ctx : Context) (b : Board) (name : String) (m : IndexMetadata)
    (s : Nat) (x y : ShardRouting) : Decidable (Beside ctx b name m s x y) :=
  decidable_of_iff (y.primary = x.primary ∧ (y.node.isSome = true → y.node = x.node) ∧
      (x.primary = true → y.node = x.node) ∧ y.isTarget = x.isTarget ∧
      (x.isTarget = true → y.relocatingNode = x.relocatingNode) ∧
      (Shrinks b name m → y.node = none → x.node = none) ∧
      (Orphaned ctx b name → (x.node.any fun n => ctx.present n) = true →
        mayTakeOver (inSyncOf ctx name s) y = mayTakeOver (inSyncOf ctx name 0) x))
    ⟨fun h => ⟨h.1, h.2.1, h.2.2.1, h.2.2.2.1, h.2.2.2.2.1, h.2.2.2.2.2.1, h.2.2.2.2.2.2⟩,
    fun h => ⟨h.role, h.node, h.primary, h.target, h.source, h.waits, h.heir⟩⟩

/-- A shard is laid as the first one is. -/
structure LaidAlike (ctx : Context) (b : Board) (name : String) (m : IndexMetadata) (s : Nat) :
    Prop where
  headed : b.copies name s ≠ [] → ∃ c ∈ b.copies name s, c.primary = true
  beside : List.Forall₂ (Beside ctx b name m s) (b.copies name 0) (b.copies name s)

instance instDecidableLaidAlike (ctx : Context) (b : Board) (name : String) (m : IndexMetadata)
    (s : Nat) : Decidable (LaidAlike ctx b name m s) :=
  decidable_of_iff ((b.copies name s ≠ [] → ∃ c ∈ b.copies name s, c.primary = true) ∧
      List.Forall₂ (Beside ctx b name m s) (b.copies name 0) (b.copies name s))
    ⟨fun h => ⟨h.1, h.2⟩, fun h => ⟨h.headed, h.beside⟩⟩

/-- The shards of every index are. -/
def Laid (ctx : Context) (b : Board) : Prop :=
  ∀ name m, ctx.indices[name]? = some m → ∀ s < m.numberOfShards, s ≠ 0 →
    LaidAlike ctx b name m s

/-! ## Indices brought in line -/

theorem waiting_iff {index : String} {shard : Nat} (fits : x.Fits index shard) :
    x.state = .unassigned ↔ x.node = none := by
  rw [← Option.not_isSome_iff_eq_none, fits.node, not_not]

theorem mayTakeOver_waiting {inSync : Option (List String)} (waits : x.state = .unassigned) :
    mayTakeOver inSync x = false := by
  simp [mayTakeOver, ShardRouting.active, waits]

/-- Entries in one place, each filed where it belongs. -/
structure Pair (ctx : Context) (b : Board) (name : String) (m : IndexMetadata) (s : Nat)
    (x y : ShardRouting) : Prop extends Beside ctx b name m s x y where
  model : x.Fits name 0
  copy : y.Fits name s

theorem dropPicked_beside {Q : ShardRouting → ShardRouting → Prop} {p q : ShardRouting → Bool}
    (h : List.Forall₂ Q first l) (same : ∀ x y, Q x y → q y = p x) (n : Nat) :
    List.Forall₂ Q (dropPicked p n first).1 (dropPicked q n l).1 ∧
      (dropPicked q n l).2 = (dropPicked p n first).2 := by
  induction h generalizing n with
  | nil => cases n <;> exact ⟨.nil, rfl⟩
  | cons hxy rest ih =>
    cases n with
    | zero => exact ⟨.cons hxy rest, rfl⟩
    | succ n =>
      simp only [dropPicked, same _ _ hxy]
      split
      · exact ih n
      · exact ⟨.cons hxy (ih (n + 1)).1, (ih (n + 1)).2⟩

theorem trimReplicas_beside (h : List.Forall₂ (Pair ctx b name m s) first l)
    (shrinks : Shrinks b name m) (extra : Nat) :
    List.Forall₂ (Pair ctx b name m s) (trimReplicas extra first) (trimReplicas extra l) := by
  have waiting : ∀ x y, Pair ctx b name m s x y →
      (!y.primary && y.state == .unassigned) = (!x.primary && x.state == .unassigned) := by
    intro x y hp
    have same : y.state = .unassigned ↔ x.state = .unassigned := by
      rw [waiting_iff hp.copy, waiting_iff hp.model]
      refine ⟨hp.waits shrinks, fun none => ?_⟩
      by_contra placed
      exact placed ((hp.node (Option.isSome_iff_ne_none.mpr placed)).trans none)
    rw [hp.role, Bool.eq_iff_iff]
    simp only [Bool.and_eq_true, beq_iff_eq, same]
  obtain ⟨dropped, left⟩ := dropPicked_beside (List.rel_reverse h) waiting extra
  unfold trimReplicas
  dsimp only
  rw [left]
  refine List.rel_reverse (dropPicked_beside dropped (fun x y hp => ?_) _).1
  rw [hp.role]

theorem pair_fresh (fresh fresh' : Bool) :
    Pair ctx b name m s (freshReplica ctx name m 0 fresh) (freshReplica ctx name m s fresh') := by
  have fits : ∀ t f, (freshReplica ctx name m t f).Fits name t := fun t f =>
    ⟨rfl, rfl, by simp [freshReplica], by simp [freshReplica]⟩
  refine ⟨⟨rfl, fun placed => ?_, fun _ => rfl, rfl, fun _ => rfl, fun _ none => none,
    fun _ _ => rfl⟩, fits 0 fresh, fits s fresh'⟩
  cases placed

theorem matchReplicas_beside (h : List.Forall₂ (Pair ctx b name m s) (b.copies name 0) l)
    (fresh fresh' : Bool) :
    List.Forall₂ (Pair ctx b name m s) (matchReplicas ctx name m 0 fresh (b.copies name 0))
      (matchReplicas ctx name m s fresh' l) := by
  have count : (l.countP fun c => !c.primary) = (b.copies name 0).countP fun c => !c.primary :=
    countP_beside h fun x y hp => by rw [hp.role]
  have more : ∀ n, List.Forall₂ (Pair ctx b name m s)
      (List.replicate n (freshReplica ctx name m 0 fresh))
      (List.replicate n (freshReplica ctx name m s fresh')) := by
    intro n
    induction n with
    | zero => exact .nil
    | succ n ih => exact .cons (pair_fresh fresh fresh') ih
  unfold matchReplicas
  dsimp only
  rw [count]
  split
  · rename_i shrinks
    exact trimReplicas_beside (List.rel_append h (more _)) shrinks _
  · exact List.rel_append h (more _)

theorem matchReplicas_self (fresh : Bool)
    (replicas : (l.countP fun c => !c.primary) = m.numberOfReplicas) :
    matchReplicas ctx name m s fresh l = l := by
  simp [matchReplicas, replicas]

theorem syncShard_copies (table : RoutingTable)
    (headed : ∃ c ∈ w.board.copies name s, c.primary = true) :
    ∃ fresh, (syncShard ctx ids table name m w s).board.copies name s =
      matchReplicas ctx name m s fresh (w.board.copies name s) := by
  obtain ⟨c, hc, primary⟩ := headed
  unfold syncShard
  dsimp only
  split
  · rename_i none
    have replica := List.all_eq_true.mp none c hc
    rw [primary] at replica
    cases replica
  · exact ⟨_, (copies_put (w := w) rfl name s).trans (if_pos ⟨rfl, rfl⟩)⟩

/-- The list of a shard that has a primary, before it is brought in line and after. -/
def InLine (ctx : Context) (b : Board) (name : String) (m : IndexMetadata) (s : Nat)
    (l : List ShardRouting) : Prop :=
  (∃ c ∈ l, c.primary = true) ∧ (l = b.copies name s ∨
    (l.countP fun c => !c.primary) = m.numberOfReplicas ∧
      ∃ fresh, l = matchReplicas ctx name m s fresh (b.copies name s))

theorem InLine.step {table : RoutingTable} (h : InLine ctx b name m s (w.board.copies name s)) :
    InLine ctx b name m s ((syncShard ctx ids table name m w s).board.copies name s) := by
  obtain ⟨headed, was⟩ := h
  obtain ⟨fresh, now⟩ : ∃ fresh, (syncShard ctx ids table name m w s).board.copies name s =
      matchReplicas ctx name m s fresh (w.board.copies name s) := syncShard_copies table headed
  refine ⟨syncShard_headed table, .inr ⟨?_, ?_⟩⟩
  · rw [now]
    exact replicas_matchReplicas _
  · rcases was with same | ⟨replicas, fresh', same⟩
    · exact ⟨fresh, by rw [now, same]⟩
    · exact ⟨fresh', by rw [now, matchReplicas_self fresh replicas, same]⟩

/-- A shard that has a primary is only trimmed or filled up. -/
theorem Given.synced_copies (given : Given R ctx ids b) (owned : ctx.indices[name]? = some m)
    (hs : s < m.numberOfShards) (headed : ∃ c ∈ b.copies name s, c.primary = true) :
    ∃ fresh, (syncIndices ctx ids ⟨b.table, {}, b.drawn⟩).board.copies name s =
      matchReplicas ctx name m s fresh (b.copies name s) := by
  have filled := given.synced.filled name m s owned hs
  have reached : s = s → InLine ctx b name m s
      ((syncIndices ctx ids ⟨b.table, {}, b.drawn⟩).board.copies name s) :=
    syncIndices_keeps (P := fun t l => t = s → InLine ctx b name m s l) owned
      (fun v t hv here => by
        subst here
        exact (hv rfl).step)
      (fun t _ here => by
        subst here
        exact ⟨headed, .inl rfl⟩) s hs
  rcases (reached rfl).2 with same | ⟨_, fresh, same⟩
  · refine ⟨false, ?_⟩
    rw [same] at filled ⊢
    exact (matchReplicas_self false filled.replicas).symm
  · exact ⟨fresh, same⟩

/-! ## Nodes that left -/

/-- What is left of two entries in one place once the nodes that left are gone. -/
structure Remains (ctx : Context) (b : Board) (name : String) (s : Nat) (x y : ShardRouting) :
    Prop where
  role : y.primary = x.primary
  node : y.node.isSome = true → y.node = x.node
  waits : x.primary = true → (y.state = .unassigned ↔ x.state = .unassigned)
  heir : Orphaned ctx b name →
    mayTakeOver (inSyncOf ctx name s) y = mayTakeOver (inSyncOf ctx name 0) x

theorem stranded_beside (hp : Pair ctx b name m s x y) :
    stranded ctx (targetLeft ctx y) = stranded ctx (targetLeft ctx x) := by
  have kept : ∀ c, stranded ctx (targetLeft ctx c) = (c.isTarget &&
      ((c.node.map fun n => !ctx.present n).getD true ||
        (c.relocatingNode.map fun n => !ctx.present n).getD true)) := by
    intro c
    rcases targetLeft_eq ctx c with same | ⟨moving, same⟩
    · rw [same]
      rfl
    · rw [same]
      simp [stranded, isTarget, moving]
  rw [kept, kept, hp.target]
  by_cases target : x.isTarget = true
  · have placed : y.node.isSome = true := by
      rw [hp.copy.node]
      have := hp.target.trans target
      rw [isTarget, Bool.and_eq_true, beq_iff_eq] at this
      rw [this.1]
      decide
    rw [hp.node placed, hp.source target]
  · rw [Bool.eq_false_iff.mpr target, Bool.false_and, Bool.false_and]

theorem mayTakeOver_targetLeft (inSync : Option (List String)) (c : ShardRouting) :
    mayTakeOver inSync (targetLeft ctx c) = mayTakeOver inSync c := by
  rcases targetLeft_eq ctx c with same | ⟨moving, same⟩
  · rw [same]
  · rw [same]
    simp [mayTakeOver, ShardRouting.active, moving]

theorem targetLeft_waiting (c : ShardRouting) :
    (targetLeft ctx c).state = .unassigned ↔ c.state = .unassigned := by
  rcases targetLeft_eq ctx c with same | ⟨moving, same⟩
  · rw [same]
  · rw [same, moving]
    exact ⟨nofun, nofun⟩

/-- An entry whose node has not left loses at most the other end of its relocation. -/
theorem left_of_here (is : IndexSettings) {c : ShardRouting}
    (here : ∀ n, c.node = some n → ctx.present n = true) :
    nodeLeft ctx is (targetLeft ctx c) = targetLeft ctx c := by
  have node : (targetLeft ctx c).node = c.node := by
    rcases targetLeft_eq ctx c with same | ⟨_, same⟩ <;> rw [same]
  have stays : onLeft ctx (targetLeft ctx c) = false := by
    unfold onLeft
    rw [node]
    cases placed : c.node with
    | none => simp
    | some n => simp [here n placed]
  unfold nodeLeft
  rw [stays]
  rfl

/-- One whose node has left waits. -/
theorem left_of_gone (is : IndexSettings) {c : ShardRouting} {n : NodeId}
    (assigned : c.state ≠ .unassigned) (placed : c.node = some n) (gone : ctx.present n = false) :
    (nodeLeft ctx is (targetLeft ctx c)).state = .unassigned ∧
      (nodeLeft ctx is (targetLeft ctx c)).node = none := by
  have node : (targetLeft ctx c).node = c.node := by
    rcases targetLeft_eq ctx c with same | ⟨_, same⟩ <;> rw [same]
  have leaves : onLeft ctx (targetLeft ctx c) = true := by
    unfold onLeft
    rw [node, placed, Bool.and_eq_true, bne_iff_ne]
    exact ⟨fun waits => assigned ((targetLeft_waiting c).mp waits), by simp [gone]⟩
  unfold nodeLeft
  rw [leaves]
  exact ⟨rfl, rfl⟩

theorem remains_left (is : IndexSettings) (hp : Pair ctx b name m s x y) :
    Remains ctx b name s (nodeLeft ctx is (targetLeft ctx x))
      (nodeLeft ctx is (targetLeft ctx y)) := by
  have role : ∀ c, (nodeLeft ctx is (targetLeft ctx c)).primary = c.primary := fun c =>
    (fades_nodeLeft ctx is _).role.trans (fades_targetLeft ctx c).role
  have node : ∀ c, (targetLeft ctx c).node = c.node := by
    intro c
    rcases targetLeft_eq ctx c with same | ⟨_, same⟩ <;> rw [same]
  have waiting : ∀ {c : ShardRouting} {t}, c.Fits name t → c.node = none →
      (nodeLeft ctx is (targetLeft ctx c)).node = none ∧
        (nodeLeft ctx is (targetLeft ctx c)).state = .unassigned := by
    intro c t fits none
    rw [left_of_here is fun n placed => absurd (none.symm.trans placed) nofun]
    exact ⟨(node c).trans none, (targetLeft_waiting c).mpr ((waiting_iff fits).mpr none)⟩
  have roles := (role y).trans (hp.role.trans (role x).symm)
  cases placed : y.node with
  | none =>
    obtain ⟨nowhere, waits⟩ := waiting hp.copy placed
    refine ⟨roles, fun some => ?_, fun primary => ?_, fun orphaned => ?_⟩
    · rw [nowhere] at some
      cases some
    · rw [role] at primary
      have beside := waiting hp.model ((hp.primary primary).symm.trans placed)
      exact ⟨fun _ => beside.2, fun _ => waits⟩
    · rw [mayTakeOver_waiting waits]
      cases there : x.node with
      | none => exact (mayTakeOver_waiting (waiting hp.model there).2).symm
      | some n =>
        by_cases present : ctx.present n = true
        · have heir := hp.heir orphaned (by rw [there]; exact present)
          rw [mayTakeOver_waiting ((waiting_iff hp.copy).mpr placed)] at heir
          rw [left_of_here is (by rintro _ h; cases there.symm.trans h; exact present),
            mayTakeOver_targetLeft, heir]
        · have assigned := hp.model.node.mp (by rw [there]; rfl)
          have gone := left_of_gone is assigned there (Bool.eq_false_iff.mpr present)
          exact (mayTakeOver_waiting gone.1).symm
  | some n =>
    have there : x.node = some n := (hp.node (by rw [placed]; rfl)).symm.trans placed
    have assigned := hp.model.node.mp (by rw [there]; rfl)
    have assigned' := hp.copy.node.mp (by rw [placed]; rfl)
    by_cases present : ctx.present n = true
    · rw [left_of_here is (c := x) (by rintro _ h; cases there.symm.trans h; exact present),
        left_of_here is (c := y) (by rintro _ h; cases placed.symm.trans h; exact present)]
      refine ⟨?_, fun _ => ?_, fun _ => ?_, fun orphaned => ?_⟩
      · rw [(fades_targetLeft ctx y).role, (fades_targetLeft ctx x).role, hp.role]
      · rw [node, node, placed, there]
      · rw [targetLeft_waiting, targetLeft_waiting]
        exact ⟨fun waits => absurd waits assigned', fun waits => absurd waits assigned⟩
      · rw [mayTakeOver_targetLeft, mayTakeOver_targetLeft]
        exact hp.heir orphaned (by rw [there]; exact present)
    · have gone := left_of_gone is assigned there (Bool.eq_false_iff.mpr present)
      have gone' := left_of_gone is assigned' placed (Bool.eq_false_iff.mpr present)
      refine ⟨roles, fun some => ?_, fun _ => ?_, fun _ => ?_⟩
      · rw [gone'.2] at some
        cases some
      · exact ⟨fun _ => gone.1, fun _ => gone'.1⟩
      · rw [mayTakeOver_waiting gone.1, mayTakeOver_waiting gone'.1]

theorem withoutLeft_beside (h : List.Forall₂ (Pair ctx b name m s) first l) :
    List.Forall₂ (Remains ctx b name s) (withoutLeft ctx name first) (withoutLeft ctx name l) := by
  unfold withoutLeft
  rw [List.forall₂_map_left_iff, List.forall₂_map_right_iff, List.filter_map, List.filter_map,
    List.forall₂_map_left_iff, List.forall₂_map_right_iff]
  refine (List.rel_filter (R := Pair ctx b name m s) ?_ h).imp fun x y hp => remains_left _ hp
  intro x y hp
  simp [stranded_beside hp]

theorem swap_beside {Q : ShardRouting → ShardRouting → Prop} (h : List.Forall₂ Q first l)
    (i j : Nat) : List.Forall₂ Q (swap first i j) (swap l i j) := by
  have place : ∀ k : Nat, (first[k]? = none ∧ l[k]? = none) ∨
      ∃ x y, first[k]? = some x ∧ l[k]? = some y ∧ Q x y := by
    intro k
    cases there : l[k]? with
    | none =>
      rw [List.getElem?_eq_none_iff, ← h.length_eq, ← List.getElem?_eq_none_iff] at there
      exact .inl ⟨there, rfl⟩
    | some y =>
      obtain ⟨x, hx, hq⟩ := beside_get h there
      exact .inr ⟨x, y, hx, rfl, hq⟩
  unfold swap
  rcases place i with ⟨hx, hy⟩ | ⟨x, y, hx, hy, hq⟩
  · rw [hx, hy]
    exact h
  · rcases place j with ⟨hx', hy'⟩ | ⟨x', y', hx', hy', hq'⟩
    · rw [hx, hy, hx', hy']
      exact h
    · rw [hx, hy, hx', hy']
      exact set_beside (set_beside h hq' i) hq j

/-- The same replica takes over in every shard. -/
theorem promote_beside (h : List.Forall₂ (Remains ctx b name s) first l)
    (orphaned : (∃ c ∈ first, c.primary = true ∧ c.state = .unassigned) → Orphaned ctx b name) :
    List.Forall₂ (fun x y => y.node.isSome = true → y.node = x.node)
      (promote (inSyncOf ctx name 0) first).1 (promote (inSyncOf ctx name s) l).1 := by
  have lost : (l.findIdx? fun c => c.primary && c.state == .unassigned) =
      first.findIdx? fun c => c.primary && c.state == .unassigned := by
    refine findIdx?_beside h fun x y hr => ?_
    rw [hr.role]
    cases primary : x.primary with
    | false => rfl
    | true =>
      rw [Bool.eq_iff_iff]
      simp only [Bool.true_and, beq_iff_eq, hr.waits primary]
  have nodes : List.Forall₂ (fun x y : ShardRouting => y.node.isSome = true → y.node = x.node)
      first l := h.imp fun _ _ hr => hr.node
  unfold promote
  rw [lost]
  cases hp : first.findIdx? fun c => c.primary && c.state == .unassigned with
  | none => exact nodes
  | some pi =>
    obtain ⟨p, hpi, gone⟩ := found hp
    rw [Bool.and_eq_true, beq_iff_eq] at gone
    have heirs : l.findIdx? (mayTakeOver (inSyncOf ctx name s)) =
        first.findIdx? (mayTakeOver (inSyncOf ctx name 0)) :=
      findIdx?_beside h fun _ _ hr => hr.heir (orphaned ⟨p, List.mem_of_getElem? hpi, gone⟩)
    dsimp only
    rw [heirs]
    cases first.findIdx? (mayTakeOver (inSyncOf ctx name 0)) with
    | none =>
      refine modify_beside nodes (fun x y hxy => ?_) pi
      obtain ⟨u, hu⟩ := noValidCopy_eq x
      obtain ⟨v, hv⟩ := noValidCopy_eq y
      rw [hu, hv]
      exact hxy
    | some ri =>
      refine swap_beside (modify_beside (modify_beside nodes (fun _ _ hxy => ?_) ri)
        (fun _ _ hxy => ?_) pi) 0 ri
      · exact hxy
      · exact hxy

theorem nodup_shardKeys (t : RoutingTable) : t.shardKeys.Nodup := by
  unfold RoutingTable.shardKeys
  rw [List.nodup_flatMap]
  refine ⟨fun e _ => ?_, ?_⟩
  · exact Std.ExtTreeMap.nodup_keys.map fun _ _ h => (Prod.mk.inj h).2
  · refine Std.ExtTreeMap.distinct_keys_toList.imp fun {e e'} apart => ?_
    intro key hk hk'
    obtain ⟨_, _, rfl⟩ := List.mem_map.mp hk
    obtain ⟨_, _, same⟩ := List.mem_map.mp hk'
    exact apart (by rw [(Prod.mk.inj same).1]; exact Std.ReflCmp.compare_self)

theorem foldl_departShard {keys : List (String × Nat)} (once : keys.Nodup) (i : String) (t : Nat) :
    (keys.foldl (departShard ctx) w).board.copies i t =
      if (i, t) ∈ keys then
        (promote (inSyncOf ctx i t) (withoutLeft ctx i (w.board.copies i t))).1
      else w.board.copies i t := by
  induction keys generalizing w with
  | nil => rfl
  | cons key keys ih =>
    obtain ⟨out, once⟩ := List.nodup_cons.mp once
    have here : (departShard ctx w key).board.copies i t = if i = key.1 ∧ t = key.2 then
        (promote (inSyncOf ctx key.1 key.2) (withoutLeft ctx key.1
          (w.board.copies key.1 key.2))).1 else w.board.copies i t := copies_put (w := w) rfl i t
    rw [List.foldl_cons, ih once, here]
    by_cases same : i = key.1 ∧ t = key.2
    · obtain ⟨rfl, rfl⟩ := same
      rw [if_neg out, if_pos ⟨rfl, rfl⟩, if_pos List.mem_cons_self]
    · have other : (i, t) ≠ key := by
        rintro rfl
        exact same ⟨rfl, rfl⟩
      simp only [if_neg same, List.mem_cons, other, false_or]

theorem departNodes_copies (i : String) (t : Nat) :
    (departNodes ctx w).board.copies i t =
      (promote (inSyncOf ctx i t) (withoutLeft ctx i (w.board.copies i t))).1 := by
  refine (foldl_departShard (nodup_shardKeys w.table) i t).trans ?_
  split
  · rfl
  · rename_i out
    have empty : w.board.copies i t = [] := copies_eq_nil out
    rw [empty]
    rfl

/-! ## Places that are kept -/

theorem allocateCopy_frame {place : String × Nat × Nat} {i : String} {t j : Nat}
    (other : (i, t, j) ≠ place) :
    ((allocateCopy ctx ids w place).board.copies i t)[j]? = (w.board.copies i t)[j]? := by
  obtain ⟨i', t', j'⟩ := place
  have put : ∀ {v : Work} {f : ShardRouting → ShardRouting},
      v.table = w.table.setCopies i' t' ((w.board.copies i' t').modify j' f) →
        (v.board.copies i t)[j]? = (w.board.copies i t)[j]? := by
    intro v f table
    rw [copies_put table]
    split
    · rename_i same
      obtain ⟨rfl, rfl⟩ := same
      refine List.getElem?_modify_ne _ _ ?_
      rintro rfl
      exact other rfl
    · rfl
  have placed : ∀ copy, ((placeCopy ctx ids w i' t' j' copy).board.copies i t)[j]? =
      (w.board.copies i t)[j]? := by
    intro copy
    unfold placeCopy
    dsimp only
    split <;> exact put rfl
  unfold allocateCopy
  dsimp only
  split
  · rfl
  · split
    · unfold restorePrimary
      dsimp only
      split <;> exact put rfl
    · split
      · split
        · rfl
        · exact placed _
      · exact placed _

/-- What is assigned stays in its place. -/
theorem allocatePass_keeps (pass : Bool) {i : String} {t j : Nat}
    (here : (w.board.copies i t)[j]? = some x) (assigned : x.state ≠ .unassigned) :
    ((allocatePass ctx ids pass w).board.copies i t)[j]? = some x := by
  refine foldl_keeps (I := fun v : Work => (v.board.copies i t)[j]? = some x)
    (fun v place hp hv => ?_) here
  rw [allocateCopy_frame, hv]
  rintro rfl
  unfold pending at hp
  obtain ⟨⟨i', t'⟩, _, hp⟩ := List.mem_flatMap.mp hp
  obtain ⟨⟨c, j'⟩, hc, hp⟩ := List.mem_filterMap.mp hp
  dsimp only at hp
  split at hp
  · rename_i waits
    cases Option.some.inj hp
    have there : (w.board.copies i t)[j]? = some c := List.mem_zipIdx_iff_getElem?.mp hc
    obtain rfl := Option.some.inj (there.symm.trans here)
    exact assigned (beq_iff_eq.mp ((Bool.and_eq_true _ _).mp waits).2)
  · cases hp

/-- And under the moves with its node and its id. -/
theorem moved_keeps (inj : Function.Injective ids) (tidy : Tidy False ids w.board) {t j : Nat}
    (here : (w.board.copies name t)[j]? = some x) :
    ∃ c, ((rebalance ctx ids (moveStuck ctx ids w)).board.copies name t)[j]? = some c ∧
      c.node = x.node ∧ c.allocationId = x.allocationId := by
  obtain ⟨stuck, frame⟩ := moveStuck_launched ctx inj tidy name
  have tidy' := Edits.tidy inj (moveStuck_edits (R := moves) ctx inj tidy) (by rintro ⟨⟩) tidy
  obtain ⟨t₀, launched, others⟩ := rebalance_launched ctx inj tidy' name
  obtain ⟨a, ha, node, id⟩ : ∃ a, ((moveStuck ctx ids w).board.copies name t)[j]? = some a ∧
      a.node = x.node ∧ a.allocationId = x.allocationId := by
    by_cases first : t = 0
    · subst first
      obtain ⟨a, ha, _, kept⟩ := stuck.sent j x here
      exact ⟨a, ha, kept⟩
    · rw [frame t first]
      exact ⟨x, here, rfl, rfl⟩
  by_cases same : t = t₀
  · subst same
    obtain ⟨c, hc, _, node', id'⟩ := launched.sent j a ha
    exact ⟨c, hc, node'.trans node, id'.trans id⟩
  · rw [others t same]
    exact ⟨a, ha, node, id⟩

/-! ## What the co-location pass is handed -/

theorem LaidAlike.departed (given : Given R ctx ids b) (owned : ctx.indices[name]? = some m)
    (hs : s < m.numberOfShards) (laid : LaidAlike ctx b name m s) (some_ : b.copies name s ≠ []) :
    List.Forall₂ (fun x y => y.node.isSome = true → y.node = x.node)
      ((departNodes ctx (syncIndices ctx ids ⟨b.table, {}, b.drawn⟩)).board.copies name 0)
      ((departNodes ctx (syncIndices ctx ids ⟨b.table, {}, b.drawn⟩)).board.copies name s) := by
  have headed := laid.headed some_
  have headed₀ : ∃ c ∈ b.copies name 0, c.primary = true := by
    obtain ⟨c, hc, primary⟩ := headed
    obtain ⟨x, hx, beside⟩ := beside_right laid.beside hc
    exact ⟨x, hx, beside.role.symm.trans primary⟩
  have pairs : List.Forall₂ (Pair ctx b name m s) (b.copies name 0) (b.copies name s) := by
    refine (beside_mem laid.beside).imp ?_
    rintro x y ⟨⟨hx, hy⟩, beside⟩
    exact ⟨beside, (given.tidy name 0).fits x hx, (given.tidy name s).fits y hy⟩
  obtain ⟨fresh, first⟩ := given.synced_copies owned (Nat.zero_lt_of_lt hs) headed₀
  obtain ⟨fresh', copies⟩ := given.synced_copies owned hs headed
  rw [departNodes_copies, departNodes_copies, first, copies]
  refine promote_beside (withoutLeft_beside (matchReplicas_beside pairs fresh fresh')) ?_
  rintro ⟨c, hc, primary, waits⟩
  obtain ⟨x, hx, _, rfl⟩ := (mem_withoutLeft ctx).mp hc
  rw [(fades_nodeLeft ctx _ _).role, (fades_targetLeft ctx x).role] at primary
  rcases mem_matchReplicas_cases hx with old | rfl
  · refine ⟨x, old, primary, Bool.eq_false_iff.mpr fun here => ?_⟩
    cases placed : x.node with
    | none =>
      rw [placed] at here
      cases here
    | some n =>
      rw [placed] at here
      rw [left_of_here _ (by rintro _ h; cases placed.symm.trans h; exact here),
        targetLeft_waiting, waiting_iff ((given.tidy name 0).fits x old), placed] at waits
      cases waits
  · cases primary

theorem departed_keeps (inj : Function.Injective ids) (tidy : Tidy False ids w.board)
    (grants : ∀ n s c node, ctx.grants n s c node → R.grants n s c node) {j : Nat}
    (here : (w.board.copies name s)[j]? = some x) (assigned : x.state ≠ .unassigned) :
    ∃ c, ((rebalance ctx ids (moveStuck ctx ids (allocatePass ctx ids false
        (allocatePass ctx ids true w)))).board.copies name s)[j]? = some c ∧
      c.node = x.node ∧ c.allocationId = x.allocationId := by
  have primaries := (allocatePass_allocating inj true tidy grants).chain
  have tidy := Edits.tidy inj primaries (by rintro ⟨⟩) tidy
  have replicas := (allocatePass_allocating inj false tidy grants).chain
  refine moved_keeps inj (Edits.tidy inj replicas (by rintro ⟨⟩) tidy) ?_
  exact allocatePass_keeps false (allocatePass_keeps true here assigned) assigned

/-- An id the table has. -/
def Board.Bears (b : Board) (id : String) : Prop :=
  ∃ i t, ∃ c ∈ b.copies i t, c.allocationId = some id

/-- **Laid alike, no id is taken along**: where the shards of every index are laid alike, the
co-location pass finds every id of the table on the node of its model. -/
theorem placed_steady (given : Given R ctx ids b) (laid : Laid ctx b) (name : String) (s : Nat) :
    Steady b.Bears ((placed ctx ids b.table b.drawn).board.copies name 0)
      ((placed ctx ids b.table b.drawn).board.copies name s) := by
  by_cases owned : ctx.owns name s
  swap
  · rw [given.gone owned]
    intro e he
    rw [List.zip_nil_right] at he
    exact absurd he List.not_mem_nil
  obtain ⟨m, owned, hs⟩ := owned
  rintro e he id hid ⟨i₀, t₀, z, hz, hzid⟩
  obtain ⟨i, hi⟩ := List.mem_iff_getElem?.mp he
  obtain ⟨hx, hy⟩ := List.getElem?_zip_eq_some.mp hi
  right
  by_cases first : s = 0
  · subst first
    rw [Option.some.inj (hx.symm.trans hy)]
  -- the id is one of the table `reroute` was given, so that it was drawn before
  have old : ∀ n, b.drawn ≤ n → id ≠ ids n := by
    rintro n later rfl
    exact (given.tidy i₀ t₀).spent z hz n later hzid
  have begun := Edits.tidy given.inj given.synced.chain (by rintro ⟨⟩) given.tidy
  have left : Edits R ids (syncIndices ctx ids ⟨b.table, {}, b.drawn⟩).board
      (departNodes ctx (syncIndices ctx ids ⟨b.table, {}, b.drawn⟩)).board :=
    departNodes_edits given.inSync given.synced.quiet
  have before := Edits.stems (S := fun _ => False) given.inj (given.synced.chain.trans left)
    (fun _ never => never.elim) given.tidy
  have tidy := Edits.tidy given.inj left (by rintro ⟨⟩) begun
  have chain : Edits R ids (departNodes ctx (syncIndices ctx ids ⟨b.table, {}, b.drawn⟩)).board
      (placed ctx ids b.table b.drawn).board := settled_edits given.inj tidy given.grants
  have after := Edits.stems (S := fun _ => False) given.inj chain (fun _ never => never.elim) tidy
  rcases after.known name s e.2 (List.mem_of_getElem? hy) id hid with
    ⟨a, ha, haid, _⟩ | ⟨n, hn, _, drawn⟩
  swap
  · exact absurd drawn (old n (before.later.trans hn))
  obtain ⟨j, hj⟩ := List.mem_iff_getElem?.mp ha
  have fits := (tidy name s).fits a ha
  have assigned := fits.allocationId.mp (by rw [haid]; rfl)
  obtain ⟨c, hc, node, cid⟩ := departed_keeps given.inj tidy given.grants hj assigned
  obtain rfl : i = j := (Edits.tidy given.inj chain (by rintro ⟨⟩) tidy name s).place_of_id hy hc
    hid (cid.trans haid)
  obtain rfl : e.2 = c := Option.some.inj (hy.symm.trans hc)
  have some_ : b.copies name s ≠ [] := by
    intro empty
    rcases before.known name s a ha id haid with ⟨x, hx, _⟩ | ⟨n, hn, _, drawn⟩
    · rw [empty] at hx
      cases hx
    · exact old n hn drawn
  have beside := (laid name m owned s hs first).departed given owned hs some_
  obtain ⟨x, hx₀, same⟩ := beside_get beside hj
  have placed := fits.node.mpr assigned
  have assigned₀ := ((tidy name 0).fits x (List.mem_of_getElem? hx₀)).node.mp
    (by rw [← same placed]; exact placed)
  obtain ⟨c₀, hc₀, node₀, _⟩ := departed_keeps given.inj tidy given.grants hx₀ assigned₀
  obtain rfl : e.1 = c₀ := Option.some.inj (hx.symm.trans hc₀)
  rw [node, node₀, same placed]

end Velosearch.Cluster.Allocation
