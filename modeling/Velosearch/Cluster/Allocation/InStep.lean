import Velosearch.Cluster.Allocation.Passes

/-!
# Indices whose shards go in step

The co-location pass leaves an entry alone that has its model's node, state and role, and
does not look at where either is going. `InStep` says, of the table `reroute` is given,
when no two entries laid beside each other differ there: nothing of the index is under
way, or what is under way in each shard goes with what is under way in the first.

It is carried through the passes as a statement about the entries of each shard, and the
moves that begin in the last two of them are only added to what was there.
-/

set_option autoImplicit false

namespace Velosearch.Cluster.Allocation

open ShardRouting Lib

variable {R : Rules} {ctx : Context} {ids : Nat → String} {b : Board} {w : Work}
variable {name : String} {m : IndexMetadata} {shard : Nat} {l : List ShardRouting}

/-! ## In step -/

/-- A node the copy names has left the cluster. -/
def Bereft (ctx : Context) (c : ShardRouting) : Prop :=
  (c.node.any fun n => !ctx.present n) = true ∨ (c.relocatingNode.any fun n => !ctx.present n) = true

instance (ctx : Context) (c : ShardRouting) : Decidable (Bereft ctx c) :=
  inferInstanceAs (Decidable (_ ∨ _))

/-- No copy of the first shard is going to be moved off its node. -/
structure Stays (ctx : Context) (b : Board) (name : String) : Prop where
  copies : ∀ c ∈ b.copies name 0, mayNotRemain ctx b.table c = false
  home : (∀ c ∈ b.copies name 0, c.primary = false) →
    ∀ node, (ctx.primaryHome[name]?.bind fun home => ctx.nodes[home]?) = some node →
      mayNotRemain ctx b.table (startedAtHome name 0 node.id "") = false

/-- Nothing of the index is under way that `reroute` does not end. -/
structure AtEase (ctx : Context) (b : Board) (name : String) (shards : Nat) : Prop where
  settled : ∀ s < shards, ∀ c ∈ b.copies name s, c.Settled ∨ Bereft ctx c
  moves : ctx.cluster.allowRebalance = .indicesAllActive ∨ Stays ctx b name

/-- Every primary of the index is active or on its way, and beside one of the first shard
it goes where that goes. -/
structure UnderWay (ctx : Context) (b : Board) (name : String) (shards : Nat) : Prop where
  headed : ∀ s < shards, ∃ c ∈ b.copies name s, c.primary = true
  primaries : ∀ s < shards, ∀ c ∈ b.copies name s, c.primary = true →
    (c.active = true ∨ c.isTarget = true) ∧ ¬ Bereft ctx c
  agree : ∀ s < shards, ∀ x ∈ b.copies name 0, ∀ y ∈ b.copies name s,
    sameSeat x y = true → y.relocatingNode = x.relocatingNode
  moves : (∀ s < shards, ∃ c ∈ b.copies name s, c.isTarget = true) ∨
    ctx.cluster.allowRebalance = .indicesAllActive ∧ Stays ctx b name

/-- The shards of an index of several go in step. -/
def InStep (ctx : Context) (b : Board) : Prop :=
  ∀ name m, ctx.indices[name]? = some m → 1 < m.numberOfShards →
    AtEase ctx b name m.numberOfShards ∨ UnderWay ctx b name m.numberOfShards

/-! ## Through the passes -/

/-- The copy may stay where it is, whatever else the table holds. -/
def Fitting (ctx : Context) (c : ShardRouting) : Prop :=
  ∀ t, mayNotRemain ctx t c = false

/-- Whether a copy may stay is a matter of its node and its index, not of the table. -/
theorem mayNotRemain_eq (t t' : RoutingTable) {c c' : ShardRouting} (node : c.node = c'.node)
    (index : c.index = c'.index) : mayNotRemain ctx t c = mayNotRemain ctx t' c' := by
  unfold mayNotRemain
  rw [node]
  cases c'.node.bind fun n => ctx.nodes[n]? with
  | none => rfl
  | some n =>
    have others : ∀ d, d = Decider.shardsLimit ∨ d = .awareness ∨ d = .diskThreshold →
        (d == .dataRole || d == .filter) = false := by
      rintro d (rfl | rfl | rfl) <;> rfl
    simp only [canRemain, index, filterVerdict, shardsLimitVerdict, awarenessVerdict, verdictIf,
      List.any_append, List.any_cons, List.any_nil, others _ (.inl rfl),
      others _ (.inr (.inl rfl)), others _ (.inr (.inr rfl)), Bool.and_false]

theorem Fitting.congr {c c' : ShardRouting} (h : Fitting ctx c) (node : c'.node = c.node)
    (index : c'.index = c.index) : Fitting ctx c' := fun t =>
  (mayNotRemain_eq t t node index).trans (h t)

theorem fitting_of {t : RoutingTable} {c : ShardRouting} (h : mayNotRemain ctx t c = false) :
    Fitting ctx c := fun t' => (mayNotRemain_eq t' t rfl rfl).trans h

theorem fitting_unplaced {c : ShardRouting} (node : c.node = none) : Fitting ctx c := by
  intro t
  simp [mayNotRemain, node]

theorem mem_matchReplicas_cases {fresh : Bool} {c : ShardRouting}
    (h : c ∈ matchReplicas ctx name m shard fresh l) :
    c ∈ l ∨ c = freshReplica ctx name m shard fresh := by
  have more : ∀ {k : Nat}, c ∈ l ++ List.replicate k (freshReplica ctx name m shard fresh) →
      c ∈ l ∨ c = freshReplica ctx name m shard fresh := by
    intro k hc
    exact (List.mem_append.mp hc).imp_right List.eq_of_mem_replicate
  unfold matchReplicas at h
  dsimp only at h
  split at h
  · exact more ((trimReplicas_subperm _ _).subset h)
  · exact more h

/-- What `syncShard` makes of a shard: what was there, waiting replicas, and a primary
where there was none. -/
theorem mem_syncShard {table : RoutingTable} {c : ShardRouting}
    (h : c ∈ (syncShard ctx ids table name m w shard).board.copies name shard) :
    c ∈ w.board.copies name shard ∨ (∃ fresh, c = freshReplica ctx name m shard fresh) ∨
      (∀ x ∈ w.board.copies name shard, x.primary = false) ∧
        (c = freshPrimary ctx name m shard ∨ ∃ home id,
          atHome ctx table name m shard = some home ∧ c = startedAtHome name shard home id) := by
  unfold syncShard at h
  dsimp only at h
  split at h
  · rename_i none
    have headless : ∀ x ∈ w.board.copies name shard, x.primary = false := by
      intro x hx
      simpa using List.all_eq_true.mp none x hx
    split at h
    · rename_i home hhome
      rw [copies_put (w := w) rfl, if_pos ⟨rfl, rfl⟩] at h
      rcases mem_matchReplicas_cases h with h | h
      · rcases List.mem_cons.mp h with h | h
        · exact .inr (.inr ⟨headless, .inr ⟨home, _, hhome, h⟩⟩)
        · exact .inl h
      · exact .inr (.inl ⟨_, h⟩)
    · rw [copies_put (w := w) rfl, if_pos ⟨rfl, rfl⟩] at h
      rcases mem_matchReplicas_cases h with h | h
      · rcases List.mem_cons.mp h with h | h
        · exact .inr (.inr ⟨headless, .inl h⟩)
        · exact .inl h
      · exact .inr (.inl ⟨_, h⟩)
  · rw [copies_put (w := w) rfl, if_pos ⟨rfl, rfl⟩] at h
    exact (mem_matchReplicas_cases h).imp_right fun h => .inl ⟨_, h⟩

/-- Every shard has a primary once it is brought in line. -/
theorem syncShard_headed (table : RoutingTable) :
    ∃ c ∈ (syncShard ctx ids table name m w shard).board.copies name shard, c.primary = true := by
  unfold syncShard
  dsimp only
  split
  · split
    · rw [copies_put (w := w) rfl, if_pos ⟨rfl, rfl⟩]
      exact ⟨_, mem_matchReplicas List.mem_cons_self rfl, rfl⟩
    · rw [copies_put (w := w) rfl, if_pos ⟨rfl, rfl⟩]
      exact ⟨_, mem_matchReplicas List.mem_cons_self rfl, rfl⟩
  · rename_i some
    rw [copies_put (w := w) rfl, if_pos ⟨rfl, rfl⟩]
    have headed : ∃ c ∈ w.table.copies name shard, c.primary = true := by
      simpa using some
    obtain ⟨c, hc, role⟩ := headed
    exact ⟨c, mem_matchReplicas hc role, role⟩

/-- What each shard of an index keeps is kept as the indices are brought in line. -/
theorem syncIndices_keeps {P : Nat → List ShardRouting → Prop} {changes : Changes}
    (owned : ctx.indices[name]? = some m)
    (step : ∀ (v : Work) s, P s (v.board.copies name s) →
      P s ((syncShard ctx ids b.table name m v s).board.copies name s))
    (begun : ∀ s < m.numberOfShards, P s (b.copies name s)) (s : Nat) (hs : s < m.numberOfShards) :
    P s ((syncIndices ctx ids ⟨b.table, changes, b.drawn⟩).board.copies name s) := by
  refine foldl_keeps (I := fun v : Work => P s (v.board.copies name s)) (fun v e he hv => ?_) ?_
  · by_cases here : e.1 = name
    · obtain ⟨i, m'⟩ := e
      obtain rfl : i = name := here
      have found := Std.ExtTreeMap.mem_toList_iff_getElem?_eq_some.mp he
      obtain rfl := Option.some.inj (found.symm.trans owned)
      refine (congrArg (P s) ((copies_retainShards _ i i m'.numberOfShards s).trans
        (if_neg fun both => absurd hs (Nat.not_lt_of_le both.2)))).mpr ?_
      refine foldl_keeps (I := fun v : Work => P s (v.board.copies i s)) (fun u t _ hu => ?_) ?_
      · by_cases same : t = s
        · exact same ▸ step u t (same ▸ hu)
        · show P s ((syncShard ctx ids b.table i m' u t).board.copies i s)
          rw [syncShard_frame b.table fun both => same both.2.symm]
          exact hu
      · exact (congrArg (P s) (copies_withIndex v.table i i s)).mpr hv
    · show P s ((syncIndex ctx ids b.table v e.1 e.2).board.copies name s)
      rw [syncIndex_frame b.table (Ne.symm here)]
      exact hv
  · refine (congrArg (P s) ((copies_keptIndices ctx b.table name s).trans (if_pos ?_))).mpr
      (begun s hs)
    exact Std.ExtTreeMap.contains_iff_mem.mpr
      (Std.ExtTreeMap.mem_iff_isSome_getElem?.mpr (by rw [owned]; rfl))

/-- What each shard of an index comes to as the copies on lost nodes go. -/
theorem departNodes_reaches {P P' : Nat → List ShardRouting → Prop}
    (step : ∀ s l, P s l →
      P' s (promote (inSyncOf ctx name s) (withoutLeft ctx name l)).1)
    (less : ∀ s l, P' s l → P s l) (none : ∀ s, P' s [])
    (begun : ∀ s, P s (w.board.copies name s)) (s : Nat) :
    P' s ((departNodes ctx w).board.copies name s) := by
  obtain ⟨kept, reached⟩ := foldl_reaches (f := departShard ctx) (l := w.table.shardKeys)
    (I := fun v : Work => (∀ s, P s (v.board.copies name s)) ∧
      ∀ s, (name, s) ∉ w.table.shardKeys → v.board.copies name s = [])
    (D := fun key v => key.1 = name → P' key.2 (v.board.copies name key.2))
    (fun v key hkey ⟨hv, absent⟩ => by
      have copies : ∀ i s, (departShard ctx v key).board.copies i s =
          if i = key.1 ∧ s = key.2 then _ else v.board.copies i s := copies_put (w := v) rfl
      refine ⟨⟨fun s => ?_, fun s out => ?_⟩, fun here => ?_⟩
      · rw [copies]
        split
        · rename_i same
          obtain ⟨rfl, rfl⟩ := same
          exact less _ _ (step key.2 _ (hv key.2))
        · exact hv s
      · rw [copies, if_neg]
        · exact absent s out
        · rintro ⟨rfl, rfl⟩
          exact out hkey
      · subst here
        rw [copies, if_pos ⟨rfl, rfl⟩]
        exact step key.2 _ (hv key.2))
    (fun v key _ key' ⟨hv, _⟩ done here => by
      have copies : ∀ i s, (departShard ctx v key).board.copies i s =
          if i = key.1 ∧ s = key.2 then _ else v.board.copies i s := copies_put (w := v) rfl
      rw [copies]
      split
      · rename_i same
        obtain ⟨rfl, same⟩ := same
        rw [same]
        exact step key.2 _ (hv key.2)
      · exact done here)
    ⟨begun, fun s out => copies_eq_nil out⟩
  by_cases key : (name, s) ∈ w.table.shardKeys
  · exact reached (name, s) key rfl
  · have empty := kept.2 s key
    show P' s ((w.table.shardKeys.foldl (departShard ctx) w).board.copies name s)
    rw [empty]
    exact none s

/-- A takeover keeps what each of its three changes to an entry keeps. -/
theorem promote_all {Q : ShardRouting → Prop} (raise : ∀ c, c.active = true → Q c → Q (raised c))
    (depose : ∀ c, Q c → Q (deposed c)) (note : ∀ c u, Q c → Q { c with unassigned := u })
    (inSync : Option (List String)) (h : ∀ c ∈ l, Q c) : ∀ c ∈ (promote inSync l).1, Q c := by
  unfold promote
  split
  · exact h
  · rename_i pi hp
    split
    · rename_i ri hr
      obtain ⟨q, heir, takes⟩ := found hr
      have active : q.active = true := by
        simp only [mayTakeOver, Bool.and_eq_true] at takes
        exact takes.1.2
      have after : ∀ c ∈ l.modify ri raised, Q c := by
        intro c hc
        rcases List.mem_cons.mp ((perm_modify heir raised).mem_iff.mp hc) with rfl | hc
        · exact raise q active (h q (List.mem_of_getElem? heir))
        · exact h c (mem_of_mem_eraseIdx hc)
      intro c hc
      rcases mem_modify ((swap_perm _ 0 ri).subset hc) with hc | ⟨a, ha, rfl⟩
      · exact after c hc
      · exact depose a (after a ha)
    · intro c hc
      rcases mem_modify hc with hc | ⟨a, ha, rfl⟩
      · exact h c hc
      · obtain ⟨u, hu⟩ := noValidCopy_eq a
        rw [hu]
        exact note a u (h a ha)

/-- A copy whose nodes are there is left alone. -/
theorem left_of_present (is : IndexSettings) {c : ShardRouting} (present : ¬ Bereft ctx c) :
    nodeLeft ctx is (targetLeft ctx c) = c := by
  have away : ∀ o : Option NodeId, ¬ (o.any fun n => !ctx.present n) = true →
      (o.map fun n => !ctx.present n).getD false = false := by
    intro o ho
    cases o with
    | none => rfl
    | some n => exact Bool.eq_false_iff.mpr ho
  have here := away c.node fun gone => present (.inl gone)
  have there := away c.relocatingNode fun gone => present (.inr gone)
  have target : targetLeft ctx c = c := by simp [targetLeft, there]
  rw [target]
  simp [nodeLeft, onLeft, here]

/-- A relocation that lost a node is ended. -/
theorem settled_of_bereft (is : IndexSettings) {c : ShardRouting} (bereft : Bereft ctx c)
    (moving : c.state = .relocating ∨ c.isTarget = true)
    (kept : stranded ctx (targetLeft ctx c) = false) :
    (nodeLeft ctx is (targetLeft ctx c)).Settled := by
  rcases moving with source | target
  · by_cases there : (c.relocatingNode.map fun n => !ctx.present n).getD false = true
    · have started : targetLeft ctx c = { c with state := .started, relocatingNode := none } := by
        simp [targetLeft, source, there]
      rw [started]
      rcases nodeLeft_eq ctx is { c with state := .started, relocatingNode := none } with
        heq | ⟨info, heq⟩ <;> rw [heq]
      · exact settled_start
      · exact settled_unassign info
    · have stays : targetLeft ctx c = c := by simp [targetLeft, there]
      have gone : (c.node.map fun n => !ctx.present n).getD false = true := by
        rcases bereft with gone | gone
        · cases hn : c.node <;> simp_all
        · exact absurd (by cases hn : c.relocatingNode <;> simp_all) there
      rw [stays]
      have left : onLeft ctx c = true := by simp [onLeft, source, gone]
      simp only [nodeLeft, left, if_true]
      exact settled_unassign _
  · rw [isTarget, Bool.and_eq_true, beq_iff_eq] at target
    have stays : targetLeft ctx c = c := by simp [targetLeft, target.1]
    rw [stays] at kept
    refine absurd (kept.symm.trans ?_) Bool.false_ne_true
    rcases bereft with gone | gone
    · cases hn : c.node <;> simp_all [stranded]
    · cases hn : c.relocatingNode <;> simp_all [stranded]

/-! ## When the moves begin -/

/-- Everything up to the moves. -/
def readied (ctx : Context) (ids : Nat → String) (b : Board) : Work :=
  allocatePass ctx ids false (allocatePass ctx ids true
    (departNodes ctx (syncIndices ctx ids ⟨b.table, {}, b.drawn⟩)))

/-- A table `reroute` is given, with the rules its passes go by. -/
structure Given (R : Rules) (ctx : Context) (ids : Nat → String) (b : Board) : Prop where
  inj : Function.Injective ids
  tidy : Tidy False ids b
  synced : Synced R ctx ids b (syncIndices ctx ids ⟨b.table, {}, b.drawn⟩)
  inSync : R.inSync = inSyncOf ctx
  grants : ∀ n s c node, ctx.grants n s c node → R.grants n s c node

/-- The passes up to the moves are edits. -/
theorem readied_edits (inj : Function.Injective ids) (sync : R.inSync = inSyncOf ctx)
    (tidy : Tidy False ids (syncIndices ctx ids ⟨b.table, {}, b.drawn⟩).board)
    (grants : ∀ n s c node, ctx.grants n s c node → R.grants n s c node)
    (quiet : R.paired → ∀ i s,
      Quiet ((syncIndices ctx ids ⟨b.table, {}, b.drawn⟩).board.copies i s)) :
    Edits R ids (syncIndices ctx ids ⟨b.table, {}, b.drawn⟩).board (readied ctx ids b).board := by
  have left : Edits R ids (syncIndices ctx ids ⟨b.table, {}, b.drawn⟩).board
      (departNodes ctx (syncIndices ctx ids ⟨b.table, {}, b.drawn⟩)).board :=
    departNodes_edits sync quiet
  have tidy := Edits.tidy inj left nofun tidy
  have primaries := (allocatePass_allocating inj true tidy grants).chain
  have replicas := (allocatePass_allocating inj false
    (Edits.tidy inj primaries nofun tidy) grants).chain
  exact (left.trans primaries).trans replicas

theorem Given.tidied (h : Given R ctx ids b) : Tidy False ids (readied ctx ids b).board :=
  have tidy := Edits.tidy h.inj h.synced.chain nofun h.tidy
  Edits.tidy h.inj (readied_edits h.inj h.inSync tidy h.grants h.synced.quiet) nofun tidy

variable (name) in
/-- What holds of each shard's entries up to the moves, pass by pass. -/
theorem Given.reaches (h : Given R ctx ids b) {P Q : Nat → List ShardRouting → Prop}
    (step : ∀ s l, P s l → Q s (promote (inSyncOf ctx name s) (withoutLeft ctx name l)).1)
    (less : ∀ s l, Q s l → P s l) (none : ∀ s, Q s [])
    (placed : ∀ s l l', Q s l → (∀ c ∈ l', ∃ a ∈ l, Placing a c) → Q s l')
    (begun : ∀ s, P s ((syncIndices ctx ids ⟨b.table, {}, b.drawn⟩).board.copies name s)) (s : Nat) :
    Q s ((readied ctx ids b).board.copies name s) := by
  have left := departNodes_reaches step less none begun
  have tidy := Edits.tidy h.inj h.synced.chain nofun h.tidy
  have tidy := Edits.tidy h.inj (departNodes_edits (R := R) h.inSync h.synced.quiet) nofun tidy
  have primaries := allocatePass_allocating h.inj true tidy h.grants
  have replicas := allocatePass_allocating h.inj false
    (Edits.tidy h.inj primaries.chain nofun tidy) h.grants
  exact placed s _ _ (placed s _ _ (left s) (primaries.stems name s)) (replicas.stems name s)

section Shards

variable {A : Counts}

/-- Every entry of a sound shard is at rest or one end of a relocation. -/
theorem Complete.moving (h : Complete ids A b) {s : Nat} {c : ShardRouting}
    (hc : c ∈ b.copies name s) : c.Settled ∨ c.state = .relocating ∨ c.isTarget = true := by
  rcases (h name s).paired c hc with settled | ⟨t, _, hp⟩ | ⟨s, _, hp⟩
  · exact .inl settled
  · exact .inr (.inl hp.source)
  · exact .inr (.inr hp.isTarget)

theorem Given.absent (h : Given R ctx ids b) (owned : ctx.indices[name]? = some m) {s : Nat}
    (hs : ¬ s < m.numberOfShards) :
    (syncIndices ctx ids ⟨b.table, {}, b.drawn⟩).board.copies name s = [] := by
  refine h.synced.gone name s fun ⟨m', owned', hs'⟩ => hs ?_
  obtain rfl := Option.some.inj (owned.symm.trans owned')
  exact hs'

/-- Of an index at ease, nothing is on its way when the moves begin. -/
theorem AtEase.readied (given : Given R ctx ids b) (h : Complete ids A b)
    (owned : ctx.indices[name]? = some m) (ease : AtEase ctx b name m.numberOfShards) (s : Nat) :
    ∀ c ∈ (readied ctx ids b).board.copies name s, c.Settled := by
  refine given.reaches name
    (P := fun _ l => ∀ c ∈ l, c.Settled ∨
      (c.state = .relocating ∨ c.isTarget = true) ∧ Bereft ctx c)
    (Q := fun _ l => ∀ c ∈ l, c.Settled) (fun s l hl => ?_) (fun _ _ hl c hc => .inl (hl c hc))
    (fun _ => List.forall_mem_nil _) (fun s l l' hl from' c hc => ?_) (fun s => ?_) s
  · have left : ∀ c ∈ withoutLeft ctx name l, c.Settled := by
      intro c hc
      obtain ⟨x, hx, kept, rfl⟩ := (mem_withoutLeft ctx).mp hc
      rcases hl x hx with settled | ⟨moving, bereft⟩
      · exact (settled_left ctx _ settled).1
      · exact settled_of_bereft _ bereft moving kept
    refine promote_all (fun c _ _ => ?_) (fun c hc => ?_) (fun c u hc => ?_) _ left
    · exact ⟨rfl, by rintro ⟨⟩⟩
    · exact ⟨hc.still, hc.state⟩
    · exact ⟨hc.still, hc.state⟩
  · obtain ⟨a, ha, placing⟩ := from' c hc
    have settled := hl a ha
    cases placing with
    | left => exact settled
    | put _ _ state still => exact ⟨still, by rw [state]; decide⟩
    | noted _ u => exact ⟨settled.still, settled.state⟩
  · by_cases hs : s < m.numberOfShards
    · refine syncIndices_keeps (P := fun _ l => ∀ c ∈ l, c.Settled ∨
        (c.state = .relocating ∨ c.isTarget = true) ∧ Bereft ctx c) owned
        (fun v s hv c hc => ?_) (fun s hs c hc => ?_) s hs
      · rcases mem_syncShard hc with old | ⟨fresh, rfl⟩ | ⟨_, rfl | ⟨home, id, _, rfl⟩⟩
        · exact hv c old
        · exact .inl ⟨rfl, by rintro ⟨⟩⟩
        · exact .inl ⟨rfl, by rintro ⟨⟩⟩
        · exact .inl ⟨rfl, by rintro ⟨⟩⟩
      · rcases h.moving hc with settled | moving
        · exact .inl settled
        · exact (ease.settled s hs c hc).imp_right fun bereft => ⟨moving, bereft⟩
    · rw [given.absent owned hs]
      exact List.forall_mem_nil _

/-- A replica that rests, or a primary as it was on the table `reroute` was given. -/
def AsBefore (b : Board) (name : String) (s : Nat) (c : ShardRouting) : Prop :=
  c.primary = false ∧ c.Settled ∨ c.primary = true ∧ c ∈ b.copies name s

/-- Of one under way, the primaries are as they were and the replicas rest. -/
theorem UnderWay.readied (given : Given R ctx ids b) (h : Complete ids A b)
    (still : ∀ s < m.numberOfShards, Quiet (b.copies name s))
    (owned : ctx.indices[name]? = some m) (way : UnderWay ctx b name m.numberOfShards) (s : Nat) :
    ∀ c ∈ (readied ctx ids b).board.copies name s, s < m.numberOfShards ∧ AsBefore b name s c := by
  have role : ∀ is c, (nodeLeft ctx is (targetLeft ctx c)).primary = c.primary := fun is c =>
    (fades_nodeLeft ctx is _).role.trans (fades_targetLeft ctx c).role
  refine given.reaches name
    (P := fun s l => ∀ c ∈ l, s < m.numberOfShards ∧ AsBefore b name s c)
    (Q := fun s l => ∀ c ∈ l, s < m.numberOfShards ∧ AsBefore b name s c)
    (fun s l hl => ?_) (fun _ _ hl => hl) (fun _ => List.forall_mem_nil _)
    (fun s l l' hl from' c hc => ?_) (fun s => ?_) s
  · have left : ∀ c ∈ withoutLeft ctx name l, s < m.numberOfShards ∧ AsBefore b name s c := by
      intro c hc
      obtain ⟨x, hx, _, rfl⟩ := (mem_withoutLeft ctx).mp hc
      obtain ⟨hs, ⟨replica, settled⟩ | ⟨primary, was⟩⟩ := hl x hx
      · exact ⟨hs, .inl ⟨(role _ x).trans replica, (settled_left ctx _ settled).1⟩⟩
      · rw [left_of_present _ (way.primaries s hs x was primary).2]
        exact ⟨hs, .inr ⟨primary, was⟩⟩
    have none : (withoutLeft ctx name l).findIdx?
        (fun c => c.primary && c.state == .unassigned) = none := by
      rw [List.findIdx?_eq_none_iff]
      intro c hc
      obtain ⟨hs, ⟨replica, _⟩ | ⟨primary, was⟩⟩ := left c hc
      · simp [replica]
      · rcases (way.primaries s hs c was primary).1 with active | target
        · cases state : c.state <;> simp_all [ShardRouting.active]
        · cases state : c.state <;> simp_all [isTarget]
    unfold promote
    rw [none]
    exact left
  · obtain ⟨a, ha, placing⟩ := from' c hc
    obtain ⟨hs, before⟩ := hl a ha
    refine ⟨hs, ?_⟩
    rcases before with ⟨replica, settled⟩ | ⟨primary, was⟩
    · cases placing with
      | left => exact .inl ⟨replica, settled⟩
      | put _ role state still =>
        exact .inl ⟨role.trans replica, still, by rw [state]; decide⟩
      | noted _ u => exact .inl ⟨replica, settled.still, settled.state⟩
    · have busy : ¬ (a.Idle ∧ a.active = false) := by
        rintro ⟨idle, inactive⟩
        rcases (way.primaries s hs a was primary).1 with active | target
        · rw [inactive] at active
          cases active
        · rw [idle.target] at target
          cases target
      cases placing with
      | left => exact .inr ⟨primary, was⟩
      | put waits => exact absurd waits busy
      | noted waits => exact absurd waits busy
  · by_cases hs : s < m.numberOfShards
    · refine (syncIndices_keeps (P := fun s l => (∃ c ∈ l, c.primary = true) ∧
        ∀ c ∈ l, s < m.numberOfShards ∧ AsBefore b name s c) owned
        (fun v s hv => ⟨syncShard_headed b.table, fun c hc => ?_⟩) (fun s hs => ?_) s hs).2
      · rcases mem_syncShard hc with old | ⟨fresh, rfl⟩ | ⟨headless, _⟩
        · exact hv.2 c old
        · obtain ⟨x, hx, _⟩ := hv.1
          exact ⟨(hv.2 x hx).1, .inl ⟨rfl, rfl, by rintro ⟨⟩⟩⟩
        · obtain ⟨x, hx, primary⟩ := hv.1
          rw [headless x hx] at primary
          cases primary
      · refine ⟨way.headed s hs, fun c hc => ⟨hs, ?_⟩⟩
        cases primary : c.primary with
        | false => exact .inl ⟨primary, (h name s).paired.settled hc (still s hs c hc primary)⟩
        | true => exact .inr ⟨primary, hc⟩
    · rw [given.absent owned hs]
      exact List.forall_mem_nil _

/-- What need not move when `reroute` begins need not when the moves do. -/
theorem Stays.readied (given : Given R ctx ids b) (owned : ctx.indices[name]? = some m)
    (some_ : 0 < m.numberOfShards) (stays : Stays ctx b name) :
    ∀ c ∈ (readied ctx ids b).board.copies name 0, c.state = .initializing ∨ Fitting ctx c := by
  refine given.reaches name
    (P := fun s l => s = 0 → ∀ c ∈ l, c.state = .initializing ∨ Fitting ctx c)
    (Q := fun s l => s = 0 → ∀ c ∈ l, c.state = .initializing ∨ Fitting ctx c)
    (fun s l hl first => ?_) (fun _ _ hl => hl) (fun _ _ => List.forall_mem_nil _)
    (fun s l l' hl from' first c hc => ?_) (fun s first => ?_) 0 rfl
  · have left : ∀ c ∈ withoutLeft ctx name l, c.state = .initializing ∨ Fitting ctx c := by
      intro c hc
      obtain ⟨x, hx, _, rfl⟩ := (mem_withoutLeft ctx).mp hc
      have after : (targetLeft ctx x).state = .initializing ∨ Fitting ctx (targetLeft ctx x) := by
        rcases targetLeft_eq ctx x with same | ⟨source, started⟩
        · exact same.symm ▸ hl first x hx
        · rw [started]
          refine .inr (((hl first x hx).resolve_left ?_).congr rfl rfl)
          rw [source]
          decide
      rcases nodeLeft_eq ctx (ctx.indexSettings name) (targetLeft ctx x) with same | ⟨info, gone⟩
      · exact same.symm ▸ after
      · rw [gone]
        exact .inr (fitting_unplaced rfl)
    refine promote_all (fun c active hc => ?_) (fun c hc => ?_) (fun c u hc => ?_) _ left
    · refine .inr ((hc.resolve_left fun state => ?_).congr rfl rfl)
      simp [ShardRouting.active, state] at active
    · exact hc.imp_right fun fits => fits.congr rfl rfl
    · exact hc.imp_right fun fits => fits.congr rfl rfl
  · obtain ⟨a, ha, placing⟩ := from' c hc
    cases placing with
    | left => exact hl first c ha
    | put _ _ state _ => exact .inl state
    | noted _ u => exact (hl first a ha).imp_right fun fits => fits.congr rfl rfl
  · subst first
    refine (syncIndices_keeps (P := fun s l => (l = b.copies name s ∨ ∃ c ∈ l, c.primary = true) ∧
      (s = 0 → ∀ c ∈ l, c.state = .initializing ∨ Fitting ctx c)) owned
      (fun v s hv => ⟨.inr (syncShard_headed b.table), fun first c hc => ?_⟩)
      (fun s _ => ⟨.inl rfl, fun first c hc => ?_⟩) 0 some_).2 rfl
    · subst first
      rcases mem_syncShard hc with old | ⟨fresh, rfl⟩ | ⟨headless, rfl | ⟨home, id, found, rfl⟩⟩
      · exact hv.2 rfl c old
      · exact .inr (fitting_unplaced rfl)
      · exact .inr (fitting_unplaced rfl)
      · have same : v.board.copies name 0 = b.copies name 0 := by
          refine hv.1.resolve_right ?_
          rintro ⟨x, hx, primary⟩
          rw [headless x hx] at primary
          cases primary
        rw [same] at headless
        unfold atHome at found
        split at found
        · rename_i node hnode
          split at found
          · obtain rfl := Option.some.inj found
            exact .inr ((fitting_of (stays.home headless node hnode)).congr rfl rfl)
          · cases found
        · cases found
    · subst first
      exact .inr (fitting_of (stays.copies c hc))

end Shards

/-! ## The moves -/

/-- Rules for moves alone. -/
def moves : Rules where
  apart := False
  paired := False
  steady _ := False
  syncs := False
  events := False
  colocates := False
  founds _ _ := False
  inSync _ _ := none
  grants _ _ _ _ := False

variable (ctx) in
/-- The first moves begin in the first shard and in no other. -/
theorem moveStuck_launched (inj : Function.Injective ids) (tidy : Tidy False ids w.board)
    (name : String) :
    Launched (w.board.copies name 0) ((moveStuck ctx ids w).board.copies name 0) ∧
      ∀ s, s ≠ 0 → (moveStuck ctx ids w).board.copies name s = w.board.copies name s := by
  refine (foldl_keeps (I := fun v : Work => Tidy False ids v.board ∧
    Launched (w.board.copies name 0) (v.board.copies name 0) ∧
      ∀ s, s ≠ 0 → v.board.copies name s = w.board.copies name s)
    (fun v key _ ⟨tidy, launched, frame⟩ => ?_) ⟨tidy, .refl _, fun _ _ => rfl⟩).2
  have moving : Moving moves ids key v (moveStuckOf ctx ids v key) :=
    moveStuckOf_moving ctx inj tidy
  refine ⟨Edits.tidy inj moving.chain nofun tidy, ?_, fun s other => ?_⟩
  · by_cases here : key = name
    · exact here ▸ moving.launched _ (here ▸ launched)
    · rw [moving.frame name 0 fun both => here both.1.symm]
      exact launched
  · exact (moving.frame name s fun both => other both.2).trans (frame s other)

variable (ctx) in
/-- Where nothing has to move, nothing does. -/
theorem moveStuck_stays (inj : Function.Injective ids) (tidy : Tidy False ids w.board)
    (fits : ∀ c ∈ w.board.copies name 0, c.state = .initializing ∨ Fitting ctx c) (s : Nat) :
    (moveStuck ctx ids w).board.copies name s = w.board.copies name s := by
  refine (foldl_keeps (I := fun v : Work => Tidy False ids v.board ∧
    ∀ s, v.board.copies name s = w.board.copies name s)
    (fun v key _ ⟨tidy, same⟩ => ?_) ⟨tidy, fun _ => rfl⟩).2 s
  have moving : Moving moves ids key v (moveStuckOf ctx ids v key) :=
    moveStuckOf_moving ctx inj tidy
  refine ⟨Edits.tidy inj moving.chain nofun tidy, fun s => ?_⟩
  by_cases here : key = name
  · subst here
    have none : ((v.table.shardsOf key).filter fun c =>
        c.shard == 0 && c.state == .started && mayNotRemain ctx v.table c) = [] := by
      rw [List.filter_eq_nil_iff]
      intro c hc picked
      simp only [Bool.and_eq_true, beq_iff_eq] at picked
      obtain ⟨t, ht⟩ := RoutingTable.mem_shardsOf.mp hc
      obtain rfl : t = 0 := ((tidy key t).fits c ht).shard_eq.symm.trans picked.1.1
      rcases fits c (same 0 ▸ ht) with state | fitting
      · cases state.symm.trans picked.1.2
      · rw [fitting v.table] at picked
        cases picked.2
    unfold moveStuckOf
    dsimp only
    rw [none]
    exact same s
  · exact (moving.frame name s fun both => here both.1.symm).trans (same s)

variable (ctx) in
/-- Evening an index out begins one move, in one of its shards. -/
theorem rebalanceOf_launched (inj : Function.Injective ids) (tidy : Tidy False ids w.board)
    (name : String) :
    Tidy False ids (rebalanceOf ctx ids w name).board ∧
      ∃ s₀, Launched (w.board.copies name s₀) ((rebalanceOf ctx ids w name).board.copies name s₀) ∧
        ∀ i s, ¬ (i = name ∧ s = s₀) →
          (rebalanceOf ctx ids w name).board.copies i s = w.board.copies i s := by
  unfold rebalanceOf
  split
  · rename_i copy heavy light hmove
    obtain ⟨all, node, index_eq, state, _, n, rfl, allowed⟩ := rebalanceMove_spec hmove
    obtain ⟨i, s, hs⟩ := RoutingTable.mem_all.mp all
    have filed := (tidy i s).fits copy hs
    have here : copy ∈ w.board.copies name copy.shard := by
      rw [filed.shard_eq, ← index_eq, filed.index_eq]
      exact hs
    have chain := (relocate_edits (R := moves) tidy here state node allowed).1
    obtain ⟨launched, frame⟩ := relocate_launched heavy tidy here state n.id
    exact ⟨Edits.tidy inj chain nofun tidy, copy.shard, launched _ (.refl _), frame⟩
  · exact ⟨tidy, 0, .refl _, fun _ _ _ => rfl⟩

variable (ctx) in
theorem rebalance_frame (inj : Function.Injective ids) (tidy : Tidy False ids w.board)
    {keys : List String} (out : name ∉ keys) :
    Tidy False ids (keys.foldl (rebalanceOf ctx ids) w).board ∧
      ∀ s, (keys.foldl (rebalanceOf ctx ids) w).board.copies name s = w.board.copies name s := by
  refine foldl_keeps (I := fun v : Work => Tidy False ids v.board ∧
    ∀ s, v.board.copies name s = w.board.copies name s)
    (fun v key hkey ⟨tidy, same⟩ => ?_) ⟨tidy, fun _ => rfl⟩
  obtain ⟨tidy, s₀, _, frame⟩ := rebalanceOf_launched ctx inj tidy key
  refine ⟨tidy, fun s => (frame name s fun both => out ?_).trans (same s)⟩
  exact both.1 ▸ hkey

variable (ctx) in
/-- An index is rebalanced by one move at most. -/
theorem rebalance_launched (inj : Function.Injective ids) (tidy : Tidy False ids w.board)
    (name : String) :
    ∃ s₀, Launched (w.board.copies name s₀) ((rebalance ctx ids w).board.copies name s₀) ∧
      ∀ s, s ≠ s₀ → (rebalance ctx ids w).board.copies name s = w.board.copies name s := by
  unfold rebalance
  by_cases key : name ∈ w.table.indices.keys
  · obtain ⟨before, after, split⟩ := List.append_of_mem key
    have once := Std.ExtTreeMap.nodup_keys (t := w.table.indices)
    rw [split, List.nodup_middle, List.nodup_cons, List.mem_append, not_or] at once
    rw [split, List.foldl_append, List.foldl_cons]
    obtain ⟨tidy, first⟩ := rebalance_frame ctx inj tidy once.1.1
    obtain ⟨tidy, s₀, launched, frame⟩ := rebalanceOf_launched ctx inj tidy name
    obtain ⟨_, last⟩ := rebalance_frame ctx inj tidy once.1.2
    refine ⟨s₀, ?_, fun s other => ?_⟩
    · rw [last, ← first]
      exact launched
    · rw [last, frame name s fun both => other both.2, first]
  · obtain ⟨_, same⟩ := rebalance_frame ctx inj tidy key
    refine ⟨0, ?_, fun s _ => same s⟩
    rw [same]
    exact .refl _

variable (ctx name) in
/-- Where the balancer has to wait for an index, it begins none. -/
theorem rebalance_blocked (inj : Function.Injective ids) (tidy : Tidy False ids w.board)
    (blocked : ∀ v : Work, Tidy False ids v.board →
      (∀ s, v.board.copies name s = w.board.copies name s) →
        ∀ c ∈ v.table.all, c.index = name → overall (canRebalance ctx v.table c) ≠ .yes) (s : Nat) :
    (rebalance ctx ids w).board.copies name s = w.board.copies name s := by
  refine (foldl_keeps (I := fun v : Work => Tidy False ids v.board ∧
    ∀ s, v.board.copies name s = w.board.copies name s)
    (fun v key _ ⟨tidy, same⟩ => ?_) ⟨tidy, fun _ => rfl⟩).2 s
  by_cases here : key = name
  · subst here
    have stays : rebalanceOf ctx ids v key = v := by
      unfold rebalanceOf
      split
      · rename_i copy heavy light hmove
        obtain ⟨all, _, index_eq, _, may, _⟩ := rebalanceMove_spec hmove
        exact absurd may (blocked v tidy same copy all index_eq)
      · rfl
    rw [stays]
    exact ⟨tidy, same⟩
  · obtain ⟨tidy, s₀, _, frame⟩ := rebalanceOf_launched ctx inj tidy key
    exact ⟨tidy, fun s => (frame name s fun both => here both.1.symm).trans (same s)⟩

/-- A copy that starts somewhere holds up the balancer, where all have to be active. -/
theorem blocked_of_initializing {t : RoutingTable} {c x : ShardRouting} {i : String} {s : Nat}
    (rule : ctx.cluster.allowRebalance = .indicesAllActive) (hx : x ∈ t.copies i s)
    (state : x.state = .initializing) : overall (canRebalance ctx t c) ≠ .yes := by
  have all : t.all.all (·.active) = false := by
    rw [List.all_eq_false]
    exact ⟨x, RoutingTable.mem_all.mpr ⟨i, s, hx⟩, by simp [ShardRouting.active, state]⟩
  rw [overall_no_of_mem (v := clusterRebalanceVerdict ctx t) (by simp [canRebalance])]
  · decide
  · simp [clusterRebalanceVerdict, rule, all, verdictIf]

/-- So does, for its own shard, one that starts there. -/
theorem blocked_of_sibling {t : RoutingTable} {c x : ShardRouting} {s : Nat}
    (hx : x ∈ t.copies c.index s) (shard : x.shard = c.shard) (state : x.state = .initializing) :
    overall (canRebalance ctx t c) ≠ .yes := by
  have all : (((t.shardsOf c.index).filter fun y => y.shard == c.shard).all (·.active)) = false := by
    rw [List.all_eq_false]
    refine ⟨x, List.mem_filter.mpr ⟨RoutingTable.mem_shardsOf.mpr ⟨s, hx⟩, ?_⟩, ?_⟩
    · simpa using shard
    · simp [ShardRouting.active, state]
  rw [overall_no_of_mem (v := verdictIf .rebalanceOnlyWhenActive
    (((t.shardsOf c.index).filter fun y => y.shard == c.shard).all (·.active)))
    (by simp [canRebalance])]
  · decide
  · simp [all, verdictIf]

/-! ## What the co-location pass is handed -/

section Agree

variable {first first' copies copies' : List ShardRouting}

/-- Entries laid beside each other agree, where moves began in the first shard. -/
theorem agrees_of_launched (launched : Launched first first')
    (length : copies.length ≤ first.length)
    (agree : ∀ x ∈ first, ∀ y ∈ copies, sameSeat x y = true → y.relocatingNode = x.relocatingNode)
    (apart : ∀ x ∈ first, ∀ y ∈ copies, x.state = .started → y.state = .relocating →
      y.primary ≠ x.primary) : Agrees first' copies := by
  intro e he same
  obtain ⟨i, hi⟩ := List.mem_iff_getElem?.mp he
  obtain ⟨hx, hy⟩ := List.getElem?_zip_eq_some.mp hi
  obtain ⟨bound, _⟩ := List.getElem?_eq_some_iff.mp hy
  have was : first[i]? = some first[i] := List.getElem?_eq_getElem (bound.trans_le length)
  obtain ⟨c, hc, sent, _⟩ := launched.sent i _ was
  obtain rfl := Option.some.inj (hc.symm.trans hx)
  have hy := List.mem_of_getElem? hy
  rcases sent with unmoved | ⟨started, moved, role⟩
  · rw [unmoved] at same ⊢
    exact agree _ (List.mem_of_getElem? was) _ hy same
  · have seat := sameSeat_iff.mp same
    exact absurd (seat.role.trans role)
      (apart _ (List.mem_of_getElem? was) _ hy started (seat.state.trans moved))

theorem agrees_same
    (agree : ∀ x ∈ first, ∀ y ∈ copies, sameSeat x y = true → y.relocatingNode = x.relocatingNode) :
    Agrees first copies := fun e he same =>
  agree e.1 (List.of_mem_zip he).1 e.2 (List.of_mem_zip he).2 same

/-- And where a move began in another shard. -/
theorem agrees_of_launched_beside (launched : Launched copies copies')
    (length : first.length ≤ copies.length)
    (agree : ∀ x ∈ first, ∀ y ∈ copies, sameSeat x y = true → y.relocatingNode = x.relocatingNode)
    (apart : ∀ x ∈ first, ∀ y ∈ copies, y.state = .started → x.state = .relocating →
      x.primary ≠ y.primary) : Agrees first copies' := by
  intro e he same
  obtain ⟨i, hi⟩ := List.mem_iff_getElem?.mp he
  obtain ⟨hx, hy⟩ := List.getElem?_zip_eq_some.mp hi
  obtain ⟨bound, _⟩ := List.getElem?_eq_some_iff.mp hx
  have was : copies[i]? = some copies[i] := List.getElem?_eq_getElem (bound.trans_le length)
  obtain ⟨c, hc, sent, _⟩ := launched.sent i _ was
  obtain rfl := Option.some.inj (hc.symm.trans hy)
  have hx := List.mem_of_getElem? hx
  rcases sent with unmoved | ⟨started, moved, role⟩
  · rw [unmoved] at same ⊢
    exact agree _ hx _ (List.mem_of_getElem? was) same
  · have seat := sameSeat_iff.mp same
    exact absurd (seat.role.symm.trans role)
      (apart _ hx _ (List.mem_of_getElem? was) started (seat.state.symm.trans moved))

end Agree

/-! ## A shard with a primary on its way -/

theorem Sound.head_unique {drawn r : Nat} {a c : ShardRouting} {index : String}
    (h : Sound ids index shard drawn r l) (ha : a ∈ l) (hc : c ∈ l) (ahead : isHead a = true)
    (chead : isHead c = true) : a = c := by
  have one := h.heads
  rw [List.countP_eq_length_filter, List.length_eq_one_iff] at one
  obtain ⟨z, hz⟩ := one
  have only : ∀ x ∈ l, isHead x = true → x = z := by
    intro x hx head
    have : x ∈ l.filter isHead := List.mem_filter.mpr ⟨hx, head⟩
    rw [hz] at this
    exact List.mem_singleton.mp this
  exact (only a ha ahead).trans (only c hc chead).symm

theorem Partner.head {s t : ShardRouting} (h : Partner s t) (role : t.primary = true) :
    isHead s = true := by
  simp [isHead, h.source_not_target, ← h.role, role]

/-- The primary of a shard is on its way: it has one target, and is not started. -/
structure Leading (r : Nat) (l : List ShardRouting) : Prop where
  target : ∃ c ∈ l, c.isTarget = true
  length : l.length = 1 + r + 1
  primary : ∀ c ∈ l, c.primary = true → c.state ≠ .started

/-- A shard with a target before has its primary on its way when the moves begin. -/
theorem leading_of_target {A : Counts} {s drawn r : Nat} (h : Complete ids A b)
    (still : Quiet (b.copies name s)) (sound : Sound ids name s drawn r l)
    (before : ∀ c ∈ l, AsBefore b name s c)
    (target : ∃ c ∈ b.copies name s, c.isTarget = true) : Leading r l := by
  obtain ⟨t₀, ht₀, target⟩ := target
  obtain ⟨s₀, hs₀, pair₀⟩ := (h name s).paired.target ht₀ target
  have role₀ : t₀.primary = true := by
    by_contra replica
    rw [(still t₀ ht₀ (Bool.eq_false_iff.mpr replica)).target] at target
    cases target
  obtain ⟨i, here⟩ := List.mem_iff_getElem?.mp hs₀
  obtain ⟨r₀, was, _⟩ := (h name s).sound here
  have primary : ∀ c ∈ l, c.primary = true → c ∈ b.copies name s := by
    intro c hc role
    rcases before c hc with ⟨replica, _⟩ | ⟨_, old⟩
    · rw [role] at replica
      cases replica
    · exact old
  -- the head of the shard is still the source it was
  have source : ∀ c ∈ l, isHead c = true → c = s₀ := by
    intro c hc head
    have role := ((Bool.and_eq_true _ _).mp head).1
    exact was.head_unique (primary c hc role) hs₀ head (Partner.head pair₀ role₀)
  obtain ⟨x, hx, head⟩ : ∃ x ∈ l, isHead x = true := by
    have one : 0 < l.countP isHead := by
      rw [sound.heads]
      exact Nat.one_pos
    exact List.countP_pos_iff.mp one
  obtain rfl := source x hx head
  obtain ⟨t, ht, pair⟩ := sound.paired.source hx pair₀.source
  have awaited : ∀ c ∈ l, c.isTarget = true → c.node = x.relocatingNode := by
    intro c hc target
    obtain ⟨y, hy, hp⟩ := sound.paired.target hc target
    have role : c.primary = true := by
      rcases before c hc with ⟨_, settled⟩ | ⟨role, _⟩
      · rw [settled.not_target] at target
        cases target
      · exact role
    rw [← source y hy (Partner.head hp role)]
    exact hp.ahead.symm
  have one : l.countP isTarget = 1 := by
    refine countP_eq_one (R := fun a c => Apart True a c ∧ a ∈ l ∧ c ∈ l)
      (sound.apart.imp_of_mem fun ha hc apart => ⟨apart, ha, hc⟩) ht pair.isTarget
      fun a c ⟨apart, ha, hc⟩ atarget ctarget => ?_
    obtain ⟨n, hn⟩ := Option.isSome_iff_exists.mp pair.awaited
    have ahead := pair.ahead.trans hn
    exact apart.nodes trivial n ((awaited a ha atarget).trans ahead)
      ((awaited c hc ctarget).trans ahead)
  refine ⟨⟨t, ht, pair.isTarget⟩, ?_, fun c hc role started => ?_⟩
  · have seats := sound.seats
    have all := List.length_eq_countP_add_countP isTarget (l := l)
    have rest : (l.countP fun c => decide ¬ c.isTarget = true) = l.countP fun c => !c.isTarget :=
      List.countP_congr fun c _ => by simp
    omega
  · have head : isHead c = true := by
      simp [isHead, role, isTarget, started]
    rw [source c hc head, pair₀.source] at started
    cases started

/-! ## What the co-location pass finds -/

theorem Edit.of_nil {index : String} {first l' : List ShardRouting} {drawn drawn' : Nat}
    (edit : Edit moves ids index shard first [] drawn l' drawn') : l' = [] := by
  cases edit with
  | fill syncs => cases syncs
  | create syncs => cases syncs
  | settle syncs => cases syncs
  | depart => rfl
  | reason _ _ here => cases here
  | assign here => cases here
  | move here => cases here
  | align colocates => cases colocates
  | start events => cases events
  | giveUp events => cases events
  | unassign events => cases events
  | cancel events => cases events

theorem Edits.of_nil {b' : Board} (chain : Edits moves ids b b') {s : Nat}
    (h : b.copies name s = []) : b'.copies name s = [] := by
  induction chain with
  | refl => exact h
  | tail _ step ih =>
    cases step with
    | shard i t edit others =>
      by_cases here : name = i ∧ s = t
      · obtain ⟨rfl, rfl⟩ := here
        rw [ih] at edit
        exact edit.of_nil
      · rw [others name s here]
        exact ih
    | forget syncs => cases syncs

/-- Of an index that is gone nothing is left. -/
theorem Given.gone (h : Given R ctx ids b) {s : Nat} (other : ¬ ctx.owns name s) :
    (placed ctx ids b.table b.drawn).board.copies name s = [] := by
  have tidy := h.tidied
  have stuck := moveStuck_edits (R := moves) ctx h.inj tidy
  have balanced := rebalance_edits (R := moves) ctx h.inj (Edits.tidy h.inj stuck nofun tidy)
  refine Edits.of_nil (stuck.trans balanced) ?_
  refine h.reaches name (P := fun s l => ¬ ctx.owns name s → l = [])
    (Q := fun s l => ¬ ctx.owns name s → l = []) (fun s l hl other => ?_) (fun _ _ hl => hl)
    (fun _ _ => rfl) (fun s l l' hl from' other => ?_) (fun s => h.synced.gone name s) s other
  · rw [hl other]
    rfl
  · refine List.eq_nil_iff_forall_not_mem.mpr fun c hc => ?_
    obtain ⟨a, ha, _⟩ := from' c hc
    rw [hl other] at ha
    exact absurd ha List.not_mem_nil

theorem agrees_self (l : List ShardRouting) : Agrees l l := by
  intro e he _
  obtain ⟨i, hi⟩ := List.mem_iff_getElem?.mp he
  obtain ⟨hx, hy⟩ := List.getElem?_zip_eq_some.mp hi
  rw [Option.some.inj (hx.symm.trans hy)]

theorem agrees_nil (l : List ShardRouting) : Agrees l [] := by
  intro e he
  rw [List.zip_nil_right] at he
  exact absurd he List.not_mem_nil

section Moved

variable {s : Nat} (inj : Function.Injective ids) (tidy : Tidy False ids w.board) (other : s ≠ 0)
  (agree : ∀ x ∈ w.board.copies name 0, ∀ y ∈ w.board.copies name s, sameSeat x y = true →
    y.relocatingNode = x.relocatingNode)

include inj tidy other agree

/-- The moves of an index that rests begin in one shard. -/
theorem agrees_of_settled (settled : ∀ t, ∀ c ∈ w.board.copies name t, c.Settled)
    (length : (w.board.copies name 0).length = (w.board.copies name s).length)
    (holds : ctx.cluster.allowRebalance = .indicesAllActive ∨
      ∀ c ∈ w.board.copies name 0, c.state = .initializing ∨ Fitting ctx c) :
    Agrees ((rebalance ctx ids (moveStuck ctx ids w)).board.copies name 0)
      ((rebalance ctx ids (moveStuck ctx ids w)).board.copies name s) := by
  obtain ⟨stuck, frame⟩ := moveStuck_launched ctx inj tidy name
  have tidy' := Edits.tidy inj (moveStuck_edits (R := moves) ctx inj tidy) nofun tidy
  have fromFirst : ∀ first', Launched (w.board.copies name 0) first' →
      Agrees first' (w.board.copies name s) := fun first' launched =>
    agrees_of_launched launched length.ge agree
      fun x _ y hy _ moved => absurd moved (settled s y hy).state
  by_cases unmoved : (moveStuck ctx ids w).board.copies name 0 = w.board.copies name 0
  · obtain ⟨s₀, launched, others⟩ := rebalance_launched ctx inj tidy' name
    by_cases there : s₀ = 0
    · rw [there, unmoved] at launched
      rw [others s (there ▸ other), frame s other]
      exact fromFirst _ launched
    · rw [others 0 (Ne.symm there), unmoved]
      by_cases here : s₀ = s
      · rw [here, frame s other] at launched
        exact agrees_of_launched_beside launched length.le agree
          fun x hx _ _ _ moved => absurd moved (settled 0 x hx).state
      · rw [others s (Ne.symm here), frame s other]
        exact agrees_same agree
  · -- the first shard is moved off its node, so that the balancer has to wait
    have rule := holds.resolve_right fun fits => unmoved (moveStuck_stays ctx inj tidy fits 0)
    obtain ⟨x, hx, state⟩ := stuck.starting unmoved
    have blocked := rebalance_blocked ctx name inj tidy'
      fun v _ same c _ _ => blocked_of_initializing rule ((same 0).symm ▸ hx) state
    rw [blocked, blocked, frame s other]
    exact fromFirst _ stuck

/-- Where every primary is on its way, the balancer waits for each of them. -/
theorem agrees_of_leading {r n : Nat} (hs : s < n)
    (lead : ∀ t < n, Leading r (w.board.copies name t))
    (bound : ∀ t, ∀ c ∈ w.board.copies name t, t < n)
    (before : ∀ c ∈ w.board.copies name s, AsBefore b name s c) :
    Agrees ((rebalance ctx ids (moveStuck ctx ids w)).board.copies name 0)
      ((rebalance ctx ids (moveStuck ctx ids w)).board.copies name s) := by
  obtain ⟨stuck, frame⟩ := moveStuck_launched ctx inj tidy name
  have tidy' := Edits.tidy inj (moveStuck_edits (R := moves) ctx inj tidy) nofun tidy
  have starts : ∀ t < n, ∃ x ∈ (moveStuck ctx ids w).board.copies name t,
      x.state = .initializing := by
    intro t ht
    obtain ⟨x, hx, target⟩ := (lead t ht).target
    rw [isTarget, Bool.and_eq_true, beq_iff_eq] at target
    refine ⟨x, ?_, target.1⟩
    by_cases first : t = 0
    · subst first
      exact stuck.keeps hx (by rw [target.1]; decide)
    · rw [frame t first]
      exact hx
  have inside : ∀ t, ∀ c ∈ (moveStuck ctx ids w).board.copies name t, t < n := by
    intro t c hc
    by_cases first : t = 0
    · exact first ▸ Nat.zero_lt_of_lt hs
    · rw [frame t first] at hc
      exact bound t c hc
  have blocked := rebalance_blocked ctx name inj tidy'
    fun v tidy same c hc index => by
      obtain ⟨i, t, ht⟩ := RoutingTable.mem_all.mp hc
      have filed := (tidy i t).fits c ht
      obtain rfl : i = name := filed.index_eq.symm.trans index
      obtain ⟨x, hx, state⟩ := starts t (inside t c (same t ▸ ht))
      have hx' : x ∈ v.board.copies i t := (same t).symm ▸ hx
      exact blocked_of_sibling (s := t) (filed.index_eq.symm ▸ hx')
        (((tidy i t).fits x hx').shard_eq.trans filed.shard_eq.symm) state
  rw [blocked, blocked, frame s other]
  refine agrees_of_launched stuck ?_ agree fun x hx y hy started moved role => ?_
  · rw [(lead 0 (Nat.zero_lt_of_lt hs)).length, (lead s hs).length]
  · have replica : x.primary = false := Bool.eq_false_iff.mpr fun primary =>
      (lead 0 (Nat.zero_lt_of_lt hs)).primary x hx primary started
    rcases before y hy with ⟨_, settled⟩ | ⟨primary, _⟩
    · exact settled.state moved
    · rw [primary, replica] at role
      cases role

omit other in
/-- Where nothing of the first shard is moved and a copy starts somewhere, nothing is. -/
theorem agrees_of_unmoved (rule : ctx.cluster.allowRebalance = .indicesAllActive)
    (fits : ∀ c ∈ w.board.copies name 0, c.state = .initializing ∨ Fitting ctx c)
    (starts : ∃ t, ∃ c ∈ w.board.copies name t, c.state = .initializing) :
    Agrees ((rebalance ctx ids (moveStuck ctx ids w)).board.copies name 0)
      ((rebalance ctx ids (moveStuck ctx ids w)).board.copies name s) := by
  have tidy' := Edits.tidy inj (moveStuck_edits (R := moves) ctx inj tidy) nofun tidy
  have unmoved := moveStuck_stays ctx inj tidy fits
  obtain ⟨t, x, hx, state⟩ := starts
  have blocked := rebalance_blocked ctx name inj tidy'
    fun v _ same c _ _ => blocked_of_initializing rule
      ((same t).symm ▸ (unmoved t).symm ▸ hx) state
  rw [blocked, blocked, unmoved, unmoved]
  exact agrees_same agree

end Moved

/-- **In step, nothing goes two ways**: where the shards of an index go in step, no two
entries the co-location pass lays beside each other and leaves alone are on different ways. -/
theorem placed_agrees {A : Counts} (given : Given R ctx ids b) (h : Complete ids A b)
    (still : ∀ name m, ctx.indices[name]? = some m → ∀ s < m.numberOfShards,
      Quiet (b.copies name s))
    (sound : ∀ name m, ctx.indices[name]? = some m → ∀ s < m.numberOfShards,
      Sound ids name s (readied ctx ids b).drawn m.numberOfReplicas
        ((readied ctx ids b).board.copies name s))
    (step : InStep ctx b) (name : String) (s : Nat) :
    Agrees ((placed ctx ids b.table b.drawn).board.copies name 0)
      ((placed ctx ids b.table b.drawn).board.copies name s) := by
  by_cases owned : ctx.owns name s
  swap
  · rw [given.gone owned]
    exact agrees_nil _
  obtain ⟨m, owned, hs⟩ := owned
  by_cases first : s = 0
  · rw [first]
    exact agrees_self _
  have zero : 0 < m.numberOfShards := Nat.zero_lt_of_lt hs
  have whole := sound name m owned
  have tidy := given.tidied
  have fits := fun stays : Stays ctx b name => stays.readied given owned zero
  have ease : AtEase ctx b name m.numberOfShards → Agrees
      ((placed ctx ids b.table b.drawn).board.copies name 0)
      ((placed ctx ids b.table b.drawn).board.copies name s) := by
    intro ease
    have settled := ease.readied given h owned
    have length : ∀ t < m.numberOfShards,
        ((readied ctx ids b).board.copies name t).length = 1 + m.numberOfReplicas := by
      intro t ht
      rw [← (whole t ht).seats, eq_comm, List.countP_eq_length]
      exact fun c hc => by simp [(settled t c hc).not_target]
    exact agrees_of_settled given.inj tidy first
      (fun x hx y hy _ => (settled s y hy).still.trans (settled 0 x hx).still.symm) settled
      ((length 0 zero).trans (length s hs).symm) (ease.moves.imp_right fits)
  rcases step name m owned (Nat.lt_of_le_of_lt (Nat.one_le_iff_ne_zero.mpr first) hs) with
    atEase | way
  · exact ease atEase
  have before := way.readied given h (still name m owned) owned
  have agree : ∀ x ∈ (readied ctx ids b).board.copies name 0,
      ∀ y ∈ (readied ctx ids b).board.copies name s, sameSeat x y = true →
        y.relocatingNode = x.relocatingNode := by
    intro x hx y hy same
    have role := (sameSeat_iff.mp same).role
    rcases (before 0 x hx).2 with ⟨xrole, xstill⟩ | ⟨xrole, xold⟩ <;>
      rcases (before s y hy).2 with ⟨yrole, ystill⟩ | ⟨yrole, yold⟩
    · exact ystill.still.trans xstill.still.symm
    · rw [xrole, yrole] at role
      cases role
    · rw [xrole, yrole] at role
      cases role
    · exact way.agree s hs x xold y yold same
  have leading : ∀ t < m.numberOfShards, (∃ c ∈ b.copies name t, c.isTarget = true) →
      Leading m.numberOfReplicas ((readied ctx ids b).board.copies name t) := fun t ht target =>
    leading_of_target h (still name m owned t ht) (whole t ht)
      (fun c hc => (before t c hc).2) target
  rcases way.moves with all | ⟨rule, stays⟩
  · exact agrees_of_leading given.inj tidy first agree hs (fun t ht => leading t ht (all t ht))
      (fun t c hc => (before t c hc).1) fun c hc => (before s c hc).2
  · by_cases some_ : ∃ t < m.numberOfShards, ∃ c ∈ b.copies name t, c.isTarget = true
    · obtain ⟨t, ht, target⟩ := some_
      obtain ⟨x, hx, target⟩ := (leading t ht target).target
      rw [isTarget, Bool.and_eq_true, beq_iff_eq] at target
      exact agrees_of_unmoved given.inj tidy agree rule (fits stays) ⟨t, x, hx, target.1⟩
    · refine ease ⟨fun t ht c hc => ?_, .inl rule⟩
      refine .inl (((h name t).paired c hc).resolve_right ?_)
      rintro (⟨x, hx, hp⟩ | ⟨_, _, hp⟩)
      · exact some_ ⟨t, ht, x, hx, hp.isTarget⟩
      · exact some_ ⟨t, ht, c, hc, hp.isTarget⟩

end Velosearch.Cluster.Allocation
