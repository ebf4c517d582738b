import Velosearch.Cluster.Allocation.Commands
import Velosearch.Lib.Entries

/-!
# The copies of one shard

What the entries of one shard have to satisfy, as a list whose order does not
matter, and what each edit of `reroute`, of a shard event or of a command makes of
it.

* `Sited`: the entries are of the shard they are filed under, have a node and an
  allocation id exactly when they are assigned, and no two share either.
* `Paired`: an entry in a relocation has its other end in the list.
* `Sound r`: both, with one primary and `1 + r` entries, relocation targets not
  counted.

`N` is whether nodes are asked about at all: that ids are told apart needs less of a
run than that nodes are.

The two ends of a relocation are two entries of one list, so an edit is stated for
the entries it picks, before the rest: `a :: l` becomes `b :: l`, and a relocation
is `s :: t :: l`. Nothing else of the list is looked at.
-/

set_option autoImplicit false

namespace Velosearch.Cluster

namespace ShardRouting

/-- The entry is the target of a relocation. -/
def isTarget (c : ShardRouting) : Bool := c.state == .initializing && c.relocatingNode.isSome

/-- The entry is the shard's primary, not counting one on its way in. -/
def isHead (c : ShardRouting) : Bool := c.primary && !c.isTarget

/-- The copy is no part of a relocation. -/
structure Settled (c : ShardRouting) : Prop where
  still : c.relocatingNode = none
  state : c.state ≠ .relocating

instance (c : ShardRouting) : Decidable c.Settled :=
  decidable_of_iff (c.relocatingNode = none ∧ c.state ≠ .relocating)
    ⟨fun ⟨r, s⟩ => ⟨r, s⟩, fun ⟨r, s⟩ => ⟨r, s⟩⟩

/-- The copy is neither end of a relocation, whatever it names. -/
structure Idle (c : ShardRouting) : Prop where
  source : c.state ≠ .relocating
  target : c.isTarget = false

instance (c : ShardRouting) : Decidable c.Idle :=
  decidable_of_iff (c.state ≠ .relocating ∧ c.isTarget = false)
    ⟨fun ⟨s, t⟩ => ⟨s, t⟩, fun ⟨s, t⟩ => ⟨s, t⟩⟩

/-- The two ends of one relocation. -/
structure Partner (s t : ShardRouting) : Prop where
  source : s.state = .relocating
  target : t.state = .initializing
  ahead : s.relocatingNode = t.node
  back : t.relocatingNode = s.node
  placed : s.node.isSome = true
  awaited : t.node.isSome = true
  role : t.primary = s.primary

/-- Under different allocation ids and, where `N` asks for it, on different nodes. -/
structure Apart (N : Prop) (a b : ShardRouting) : Prop where
  nodes : N → ∀ n, a.node = some n → b.node ≠ some n
  ids : ∀ i, a.allocationId = some i → b.allocationId ≠ some i

theorem Apart.symm {N : Prop} {a b : ShardRouting} (h : Apart N a b) : Apart N b a :=
  ⟨fun asked n hb ha => h.nodes asked n ha hb, fun i hb ha => h.ids i ha hb⟩

instance {N : Prop} : Std.Symm (Apart N) := ⟨fun _ _ h => h.symm⟩

/-- An entry filed where it belongs, with a node and an id exactly when it is
assigned. -/
structure Fits (index : String) (shard : Nat) (c : ShardRouting) : Prop where
  index_eq : c.index = index
  shard_eq : c.shard = shard
  node : c.node.isSome = true ↔ c.state ≠ .unassigned
  allocationId : c.allocationId.isSome = true ↔ c.state ≠ .unassigned

theorem Fits.congr {index : String} {shard : Nat} {a b : ShardRouting}
    (h : a.Fits index shard) (index_eq : b.index = a.index) (shard_eq : b.shard = a.shard)
    (node : b.node = a.node) (id : b.allocationId = a.allocationId)
    (state : b.state = .unassigned ↔ a.state = .unassigned) : b.Fits index shard := by
  refine ⟨index_eq.trans h.index_eq, shard_eq.trans h.shard_eq, ?_, ?_⟩
  · rw [node, h.node, Ne, Ne, state]
  · rw [id, h.allocationId, Ne, Ne, state]

/-- The copy's id is none of those still to be drawn. -/
def Spent (ids : Nat → String) (drawn : Nat) (c : ShardRouting) : Prop :=
  ∀ n, drawn ≤ n → c.allocationId ≠ some (ids n)

theorem idle_unassigned {c : ShardRouting} (h : c.state = .unassigned) : c.Idle :=
  ⟨by rw [h]; exact nofun, by simp [isTarget, h]⟩

theorem idle_started {c : ShardRouting} (h : c.state = .started) : c.Idle :=
  ⟨by rw [h]; exact nofun, by simp [isTarget, h]⟩

theorem Settled.not_target {c : ShardRouting} (h : c.Settled) : c.isTarget = false := by
  simp [isTarget, h.still]

theorem Partner.isTarget {s t : ShardRouting} (h : Partner s t) : t.isTarget = true := by
  have := h.placed
  rw [← h.back] at this
  simp [ShardRouting.isTarget, h.target, this]

theorem Partner.source_not_target {s t : ShardRouting} (h : Partner s t) :
    s.isTarget = false := by
  simp [ShardRouting.isTarget, h.source]

end ShardRouting

namespace Allocation

open ShardRouting Lib

variable {N : Prop} {ids : Nat → String} {index : String} {shard drawn drawn' r : Nat}
variable {a b s t : ShardRouting} {l l' : List ShardRouting}

/-! ## Where copies are -/

/-- A copy that may be added to the list of a shard. -/
structure Joins (N : Prop) (ids : Nat → String) (index : String) (shard drawn : Nat)
    (l : List ShardRouting) (a : ShardRouting) : Prop where
  fits : a.Fits index shard
  spent : a.Spent ids drawn
  apart : ∀ b ∈ l, Apart N a b

/-- The entries of a shard: filed under it, told apart, with ids that were drawn. -/
structure Sited (N : Prop) (ids : Nat → String) (index : String) (shard drawn : Nat)
    (l : List ShardRouting) : Prop where
  fits : ∀ c ∈ l, c.Fits index shard
  spent : ∀ c ∈ l, c.Spent ids drawn
  apart : l.Pairwise (Apart N)

theorem sited_nil : Sited N ids index shard drawn [] :=
  ⟨List.forall_mem_nil _, List.forall_mem_nil _, .nil⟩

theorem sited_cons : Sited N ids index shard drawn (a :: l) ↔
    Joins N ids index shard drawn l a ∧ Sited N ids index shard drawn l := by
  constructor
  · rintro ⟨fits, spent, apart⟩
    rw [List.pairwise_cons] at apart
    exact ⟨⟨fits a List.mem_cons_self, spent a List.mem_cons_self, apart.1⟩,
      fun c hc => fits c (List.mem_cons_of_mem a hc),
      fun c hc => spent c (List.mem_cons_of_mem a hc), apart.2⟩
  · rintro ⟨joins, fits, spent, apart⟩
    exact ⟨List.forall_mem_cons.mpr ⟨joins.fits, fits⟩,
      List.forall_mem_cons.mpr ⟨joins.spent, spent⟩, List.pairwise_cons.mpr ⟨joins.apart, apart⟩⟩

theorem Sited.perm (h : Sited N ids index shard drawn l) (p : l.Perm l') :
    Sited N ids index shard drawn l' :=
  ⟨fun c hc => h.fits c (p.mem_iff.mpr hc), fun c hc => h.spent c (p.mem_iff.mpr hc),
    (p.pairwise_iff fun h => h.symm).mp h.apart⟩

theorem Sited.sublist (h : Sited N ids index shard drawn l) (p : l'.Sublist l) :
    Sited N ids index shard drawn l' :=
  ⟨fun c hc => h.fits c (p.subset hc), fun c hc => h.spent c (p.subset hc), h.apart.sublist p⟩

theorem Spent.mono (h : a.Spent ids drawn) (later : drawn ≤ drawn') : a.Spent ids drawn' :=
  fun n hn => h n (later.trans hn)

theorem Sited.mono (h : Sited N ids index shard drawn l) (later : drawn ≤ drawn') :
    Sited N ids index shard drawn' l :=
  ⟨h.fits, fun c hc => Spent.mono (h.spent c hc) later, h.apart⟩

theorem Joins.sublist (h : Joins N ids index shard drawn l a) (p : l'.Sublist l) :
    Joins N ids index shard drawn l' a :=
  ⟨h.fits, h.spent, fun b hb => h.apart b (p.subset hb)⟩

theorem Joins.keep (h : Joins N ids index shard drawn l a) (fits : b.Fits index shard)
    (node : b.node = a.node ∨ b.node = none)
    (id : b.allocationId = a.allocationId ∨ b.allocationId = none) :
    Joins N ids index shard drawn l b := by
  refine ⟨fits, fun n hn hb => ?_, fun c hc => ⟨fun asked n hb => ?_, fun i hb => ?_⟩⟩
  · rcases id with id | id
    · exact h.spent n hn (id ▸ hb)
    · rw [id] at hb
      exact absurd hb nofun
  · rcases node with node | node
    · exact (h.apart c hc).nodes asked n (node ▸ hb)
    · rw [node] at hb
      exact absurd hb nofun
  · rcases id with id | id
    · exact (h.apart c hc).ids i (id ▸ hb)
    · rw [id] at hb
      exact absurd hb nofun

theorem fresh_id (inj : Function.Injective ids) (sited : Sited N ids index shard drawn l)
    (id : b.allocationId = some (ids drawn)) :
    b.Spent ids (drawn + 1) ∧ ∀ c ∈ l, ∀ i, b.allocationId = some i → c.allocationId ≠ some i := by
  refine ⟨fun n hn hb => ?_, fun c hc i hi hci => ?_⟩
  · rw [id] at hb
    have := inj (Option.some.inj hb)
    omega
  · rw [id] at hi
    exact sited.spent c hc drawn le_rfl (hci.trans hi.symm)

theorem joins_fresh (inj : Function.Injective ids) (sited : Sited N ids index shard drawn l)
    (fits : b.Fits index shard) (id : b.allocationId = some (ids drawn))
    (free : N → ∀ c ∈ l, ∀ n, b.node = some n → c.node ≠ some n) :
    Joins N ids index shard (drawn + 1) l b := by
  obtain ⟨spent, other⟩ := fresh_id inj sited id
  exact ⟨fits, spent, fun c hc => ⟨fun asked => free asked c hc, other c hc⟩⟩

/-! ## Relocations in pairs -/

/-- Every entry is at rest or one end of a relocation whose other end is there. -/
def Paired (l : List ShardRouting) : Prop :=
  ∀ c ∈ l, c.Settled ∨ (∃ t ∈ l, Partner c t) ∨ ∃ s ∈ l, Partner s c

theorem Paired.perm (h : Paired l) (p : l.Perm l') : Paired l' := by
  intro c hc
  rcases h c (p.mem_iff.mpr hc) with hs | ⟨t, ht, hp⟩ | ⟨s, hs, hp⟩
  · exact Or.inl hs
  · exact Or.inr (Or.inl ⟨t, p.mem_iff.mp ht, hp⟩)
  · exact Or.inr (Or.inr ⟨s, p.mem_iff.mp hs, hp⟩)

theorem Paired.cons (h : Paired l) (ha : a.Settled) : Paired (a :: l) := by
  intro c hc
  rcases List.mem_cons.mp hc with rfl | hc
  · exact Or.inl ha
  · rcases h c hc with hs | ⟨t, ht, hp⟩ | ⟨s, hs, hp⟩
    · exact Or.inl hs
    · exact Or.inr (Or.inl ⟨t, List.mem_cons_of_mem a ht, hp⟩)
    · exact Or.inr (Or.inr ⟨s, List.mem_cons_of_mem a hs, hp⟩)

theorem Paired.subset (h : Paired l) (sub : l' ⊆ l)
    (kept : ∀ c ∈ l, ¬ c.Settled → c ∈ l') : Paired l' := by
  have moving : ∀ {s t : ShardRouting}, Partner s t → ¬ s.Settled ∧ ¬ t.Settled := by
    intro s t hp
    refine ⟨fun hs => hs.state hp.source, fun ht => ?_⟩
    have := hp.placed
    rw [← hp.back, ht.still] at this
    exact absurd this nofun
  intro c hc
  rcases h c (sub hc) with hs | ⟨t, ht, hp⟩ | ⟨s, hs, hp⟩
  · exact Or.inl hs
  · exact Or.inr (Or.inl ⟨t, kept t ht (moving hp).2, hp⟩)
  · exact Or.inr (Or.inr ⟨s, kept s hs (moving hp).1, hp⟩)

theorem Paired.tail (h : Paired (a :: l)) (ha : a.Settled) : Paired l := by
  refine h.subset (List.subset_cons_self a l) fun c hc moving => ?_
  rcases List.mem_cons.mp hc with rfl | hc
  · exact absurd ha moving
  · exact hc

theorem Paired.pair (h : Paired l) (hp : Partner s t) : Paired (s :: t :: l) := by
  intro c hc
  rcases List.mem_cons.mp hc with rfl | hc
  · exact Or.inr (Or.inl ⟨t, by simp, hp⟩)
  · rcases List.mem_cons.mp hc with rfl | hc
    · exact Or.inr (Or.inr ⟨s, by simp, hp⟩)
    · rcases h c hc with hs | ⟨t', ht, hp⟩ | ⟨s', hs, hp⟩
      · exact Or.inl hs
      · exact Or.inr (Or.inl ⟨t', by simp [ht], hp⟩)
      · exact Or.inr (Or.inr ⟨s', by simp [hs], hp⟩)

theorem Paired.unpair (h : Paired (s :: t :: l)) (hp : Partner s t)
    (apart : (s :: t :: l).Pairwise (Apart True)) : Paired l := by
  rw [List.pairwise_cons, List.pairwise_cons] at apart
  obtain ⟨hs, ht, _⟩ := apart
  have away : ∀ c ∈ l, c.node ≠ s.node ∧ c.node ≠ t.node := by
    intro c hc
    obtain ⟨n, hn⟩ := Option.isSome_iff_exists.mp hp.placed
    obtain ⟨m, hm⟩ := Option.isSome_iff_exists.mp hp.awaited
    rw [hn, hm]
    exact ⟨(hs c (List.mem_cons_of_mem t hc)).nodes trivial n hn, (ht c hc).nodes trivial m hm⟩
  intro c hc
  rcases h c (by simp [hc]) with hsettled | ⟨x, hx, hcx⟩ | ⟨x, hx, hxc⟩
  · exact Or.inl hsettled
  · refine Or.inr (Or.inl ⟨x, ?_, hcx⟩)
    rcases List.mem_cons.mp hx with rfl | hx
    · exact absurd (hp.source.symm.trans hcx.target) nofun
    · rcases List.mem_cons.mp hx with rfl | hx
      · exact absurd (hcx.back.symm.trans hp.back) (away c hc).1
      · exact hx
  · refine Or.inr (Or.inr ⟨x, ?_, hxc⟩)
    rcases List.mem_cons.mp hx with rfl | hx
    · exact absurd (hxc.ahead.symm.trans hp.ahead) (away c hc).2
    · rcases List.mem_cons.mp hx with rfl | hx
      · exact absurd (hxc.source.symm.trans hp.target) nofun
      · exact hx

theorem paired_of_settled (h : ∀ c ∈ l, c.Settled) : Paired l := fun c hc => Or.inl (h c hc)

/-! ## The whole of it -/

/-- The copies of a shard of `r` replicas. -/
structure Sound (ids : Nat → String) (index : String) (shard drawn r : Nat)
    (l : List ShardRouting) : Prop extends Sited True ids index shard drawn l where
  paired : Paired l
  heads : l.countP isHead = 1
  seats : (l.countP fun c => !c.isTarget) = 1 + r

namespace Sound

theorem perm (h : Sound ids index shard drawn r l) (p : l.Perm l') :
    Sound ids index shard drawn r l' :=
  ⟨h.toSited.perm p, h.paired.perm p, (p.countP_eq _).symm.trans h.heads,
    (p.countP_eq _).symm.trans h.seats⟩

theorem mono (h : Sound ids index shard drawn r l) (later : drawn ≤ drawn') :
    Sound ids index shard drawn' r l :=
  { h with toSited := h.toSited.mono later }

theorem replace (h : Sound ids index shard drawn r (a :: l)) (ha : a.Settled) (hb : b.Settled)
    (role : b.primary = a.primary) (later : drawn ≤ drawn')
    (joins : Joins True ids index shard drawn' l b) : Sound ids index shard drawn' r (b :: l) := by
  refine ⟨sited_cons.mpr ⟨joins, (sited_cons.mp h.toSited).2.mono later⟩,
    (h.paired.tail ha).cons hb, ?_, ?_⟩
  · rw [← h.heads]
    simp [List.countP_cons, isHead, ha.not_target, hb.not_target, role]
  · rw [← h.seats]
    simp [ha.not_target, hb.not_target]

theorem depart (h : Sound ids index shard drawn r (a :: l)) (ha : a.Settled) (hp : Partner s t)
    (role : s.primary = a.primary) (later : drawn ≤ drawn')
    (hs : Joins True ids index shard drawn' (t :: l) s) (ht : Joins True ids index shard drawn' l t) :
    Sound ids index shard drawn' r (s :: t :: l) := by
  have rest := (sited_cons.mp h.toSited).2.mono later
  refine ⟨sited_cons.mpr ⟨hs, sited_cons.mpr ⟨ht, rest⟩⟩, (h.paired.tail ha).pair hp, ?_, ?_⟩
  · rw [← h.heads]
    simp [List.countP_cons, isHead, ha.not_target, hp.isTarget, hp.source_not_target, role]
  · rw [← h.seats]
    simp [ha.not_target, hp.isTarget, hp.source_not_target]

theorem arrive (h : Sound ids index shard drawn r (s :: t :: l)) (hp : Partner s t)
    (hb : b.Settled) (role : b.primary = s.primary) (joins : Joins True ids index shard drawn l b) :
    Sound ids index shard drawn r (b :: l) := by
  have rest := (sited_cons.mp (sited_cons.mp h.toSited).2).2
  refine ⟨sited_cons.mpr ⟨joins, rest⟩, (h.paired.unpair hp h.apart).cons hb, ?_, ?_⟩
  · rw [← h.heads]
    simp [List.countP_cons, isHead, hb.not_target, hp.isTarget, hp.source_not_target, role]
  · rw [← h.seats]
    simp [hb.not_target, hp.isTarget, hp.source_not_target]

end Sound

/-! ## Edits of one entry -/

section Edit

variable {i : Nat} {f : ShardRouting → ShardRouting}

theorem Sited.pick (h : Sited N ids index shard drawn l) (hi : l[i]? = some a) :
    Joins N ids index shard drawn (l.eraseIdx i) a ∧
      Sited N ids index shard drawn (l.eraseIdx i) :=
  sited_cons.mp (h.perm (perm_pick hi))

theorem Sited.edit (h : Sited N ids index shard drawn l) (hi : l[i]? = some a)
    (later : drawn ≤ drawn') (joins : Joins N ids index shard drawn' (l.eraseIdx i) (f a)) :
    Sited N ids index shard drawn' (l.modify i f) :=
  (sited_cons.mpr ⟨joins, (h.pick hi).2.mono later⟩).perm (perm_modify hi f).symm

theorem Sound.edit (h : Sound ids index shard drawn r l) (hi : l[i]? = some a)
    (before : a.Settled) (after : (f a).Settled) (role : (f a).primary = a.primary)
    (later : drawn ≤ drawn') (joins : Joins True ids index shard drawn' (l.eraseIdx i) (f a)) :
    Sound ids index shard drawn' r (l.modify i f) :=
  ((h.perm (perm_pick hi)).replace before after role later joins).perm (perm_modify hi f).symm

theorem fits_unassign (h : a.Fits index shard) (info : UnassignedInfo) :
    (unassign a info).Fits index shard := by
  refine ⟨h.index_eq, h.shard_eq, ?_, ?_⟩ <;> simp [unassign]

theorem settled_unassign (info : UnassignedInfo) : (unassign a info).Settled := ⟨rfl, nofun⟩

theorem Joins.unassign (h : Joins N ids index shard drawn l a) (info : UnassignedInfo) :
    Joins N ids index shard drawn l (unassign a info) :=
  h.keep (fits_unassign h.fits info) (Or.inr rfl) (Or.inr rfl)

theorem Sited.unassign (h : Sited N ids index shard drawn l) (hi : l[i]? = some a)
    (info : ShardRouting → UnassignedInfo) :
    Sited N ids index shard drawn (l.modify i fun c => unassign c (info c)) :=
  h.edit hi le_rfl ((h.pick hi).1.unassign _)

theorem Sound.unassign (h : Sound ids index shard drawn r l) (hi : l[i]? = some a)
    (settled : a.Settled) (info : ShardRouting → UnassignedInfo) :
    Sound ids index shard drawn r (l.modify i fun c => unassign c (info c)) :=
  h.edit hi settled (settled_unassign _) rfl le_rfl ((h.pick hi).1.unassign _)

theorem Joins.reason (h : Joins N ids index shard drawn l a)
    (g : Option UnassignedInfo → Option UnassignedInfo) :
    Joins N ids index shard drawn l { a with unassigned := g a.unassigned } :=
  h.keep (h.fits.congr rfl rfl rfl rfl Iff.rfl) (Or.inl rfl) (Or.inl rfl)

/-- An unassigned copy, and the same one placed on a node under an id. -/
structure AssignedTo (node : NodeId) (id : String) (a b : ShardRouting) : Prop where
  index_eq : b.index = a.index
  shard_eq : b.shard = a.shard
  role : b.primary = a.primary
  state : b.state = .initializing
  node_eq : b.node = some node
  allocationId : b.allocationId = some id

theorem AssignedTo.joins {node : NodeId} (put : AssignedTo node (ids drawn) a b)
    (inj : Function.Injective ids) (h : Joins N ids index shard drawn l a)
    (sited : Sited N ids index shard drawn l) (free : N → ∀ c ∈ l, c.node ≠ some node) :
    Joins N ids index shard (drawn + 1) l b := by
  refine joins_fresh inj sited ⟨put.index_eq.trans h.fits.index_eq,
    put.shard_eq.trans h.fits.shard_eq, ?_, ?_⟩ put.allocationId fun asked c hc n hn => ?_
  · simp [put.node_eq, put.state]
  · simp [put.allocationId, put.state]
  · rw [put.node_eq] at hn
    exact Option.some.inj hn ▸ free asked c hc

end Edit

/-! ## What the deciders promise -/

theorem assigned_of_node (h : a.Fits index shard) {n : NodeId} (hn : a.node = some n) :
    a.state ≠ .unassigned ∧ ∃ i, a.allocationId = some i := by
  have assigned := h.node.mp (by rw [hn]; rfl)
  exact ⟨assigned, Option.isSome_iff_exists.mp (h.allocationId.mpr assigned)⟩

theorem free_of_no_twin {table : RoutingTable} {node : NodeId}
    (twin : twinOn table a node = false) (here : ∀ c ∈ l, c ∈ table.shardsOf index)
    (joins : Joins N ids index shard drawn l a) (sited : Sited N ids index shard drawn l) :
    ∀ c ∈ l, c.node ≠ some node := by
  intro c hc hn
  have fits := sited.fits c hc
  obtain ⟨assigned, i, hi⟩ := assigned_of_node fits hn
  have other : c.allocationId ≠ a.allocationId := fun heq =>
    (joins.apart c hc).ids i (heq ▸ hi) hi
  unfold twinOn at twin
  rw [joins.fits.index_eq, List.any_eq_false] at twin
  refine twin c (here c hc) ?_
  simp [fits.shard_eq, joins.fits.shard_eq, assigned, hn, other]

/-! ## Relocations begun and ended -/

section Move

variable {i : Nat} {c : ShardRouting}

theorem Sited.eq_of_node (h : Sited True ids index shard drawn l) (ha : a ∈ l) (hb : b ∈ l)
    {n : NodeId} (han : a.node = some n) (hbn : b.node = some n) : a = b := by
  by_contra hne
  have apart : Apart True a b := h.apart.forall ha hb hne
  exact apart.nodes trivial n han hbn

theorem Sited.eq_of_id (h : Sited N ids index shard drawn l) (ha : a ∈ l) (hb : b ∈ l)
    {id : String} (hai : a.allocationId = some id) (hbi : b.allocationId = some id) : a = b := by
  by_contra hne
  have apart : Apart N a b := h.apart.forall ha hb hne
  exact apart.ids id hai hbi

/-- An id stands in one place. -/
theorem Sited.place_of_id {i j : Nat} {id : String} (h : Sited N ids index shard drawn l)
    (ha : l[i]? = some a) (hb : l[j]? = some b) (hid : a.allocationId = some id)
    (hid' : b.allocationId = some id) : i = j := by
  by_contra other
  obtain ⟨hi, rfl⟩ := List.getElem?_eq_some_iff.mp ha
  obtain ⟨hj, rfl⟩ := List.getElem?_eq_some_iff.mp hb
  have apart := List.pairwise_iff_getElem.mp h.apart
  rcases Nat.lt_or_gt_of_ne other with lt | lt
  · exact (apart i j hi hj lt).ids id hid hid'
  · exact (apart j i hj hi lt).ids id hid' hid

theorem Paired.settled (h : Paired l) (ha : a ∈ l) (idle : a.Idle) : a.Settled := by
  rcases h a ha with hs | ⟨t, _, hp⟩ | ⟨s, _, hp⟩
  · exact hs
  · exact absurd hp.source idle.source
  · exact absurd (hp.isTarget.symm.trans idle.target) nofun

theorem Paired.target (h : Paired l) (ha : a ∈ l) (target : a.isTarget = true) :
    ∃ s ∈ l, Partner s a := by
  rcases h a ha with hs | ⟨t, _, hp⟩ | hp
  · rw [hs.not_target] at target
    exact absurd target nofun
  · rw [hp.source_not_target] at target
    exact absurd target nofun
  · exact hp

theorem Paired.source (h : Paired l) (ha : a ∈ l) (source : a.state = .relocating) :
    ∃ t ∈ l, Partner a t := by
  rcases h a ha with hs | hp | ⟨s, _, hp⟩
  · exact absurd source hs.state
  · exact hp
  · exact absurd (source.symm.trans hp.target) nofun

theorem startMove_perm {copy : ShardRouting} {source dest : NodeId} {id : String}
    (hi : l[i]? = some a) : (startMove l i copy source dest id).Perm
      (moveSource dest a :: moveTarget copy source dest id :: l.eraseIdx i) := by
  unfold startMove
  refine (List.perm_append_comm).trans ?_
  exact ((perm_modify hi (moveSource dest)).cons _).trans (List.Perm.swap _ _ _)

theorem startMove_joins {source dest : NodeId} (inj : Function.Injective ids)
    (sited : Sited N ids index shard drawn l) (hi : l[i]? = some a) (node : a.node = some source)
    (index_eq : c.index = index) (shard_eq : c.shard = shard)
    (free : N → ∀ b ∈ l, b.node ≠ some dest) :
    Joins N ids index shard (drawn + 1)
      (moveTarget c source dest (ids drawn) :: l.eraseIdx i) (moveSource dest a) ∧
    Joins N ids index shard (drawn + 1) (l.eraseIdx i)
      (moveTarget c source dest (ids drawn)) := by
  obtain ⟨here, rest⟩ := sited.pick hi
  have ht : Joins N ids index shard (drawn + 1) (l.eraseIdx i)
      (moveTarget c source dest (ids drawn)) := by
    refine joins_fresh inj rest ⟨index_eq, shard_eq, ?_, ?_⟩ rfl fun asked b hb n hn => ?_
    · simp [moveTarget]
    · simp [moveTarget]
    · exact Option.some.inj hn ▸ free asked b (mem_of_mem_eraseIdx hb)
  obtain ⟨assigned, id, hid⟩ := assigned_of_node here.fits node
  have fits : (moveSource dest a).Fits index shard := by
    refine here.fits.congr rfl rfl rfl rfl ?_
    simp [moveSource, assigned]
  have hs := here.keep fits (Or.inl rfl) (Or.inl rfl)
  refine ⟨⟨fits, Spent.mono hs.spent (Nat.le_succ drawn), ?_⟩, ht⟩
  rw [List.forall_mem_cons]
  refine ⟨⟨fun asked n hn hdest => ?_, fun x hx hfresh => ?_⟩, hs.apart⟩
  · have : a.node = some dest := hn.trans hdest.symm
    exact free asked a (List.mem_of_getElem? hi) this
  · exact here.spent drawn le_rfl (hx.trans hfresh.symm)

theorem Sited.startMove {source dest : NodeId} (inj : Function.Injective ids)
    (sited : Sited N ids index shard drawn l) (hi : l[i]? = some a) (node : a.node = some source)
    (index_eq : c.index = index) (shard_eq : c.shard = shard)
    (free : N → ∀ b ∈ l, b.node ≠ some dest) :
    Sited N ids index shard (drawn + 1) (startMove l i c source dest (ids drawn)) := by
  obtain ⟨hs, ht⟩ := startMove_joins inj sited hi node index_eq shard_eq free
  refine Sited.perm ?_ (startMove_perm hi).symm
  exact sited_cons.mpr ⟨hs, sited_cons.mpr ⟨ht, (sited.pick hi).2.mono (Nat.le_succ drawn)⟩⟩

theorem Sound.startMove {source dest : NodeId} (inj : Function.Injective ids)
    (h : Sound ids index shard drawn r l) (hi : l[i]? = some a) (node : a.node = some source)
    (state : a.state = .started) (index_eq : c.index = index) (shard_eq : c.shard = shard)
    (role : c.primary = a.primary) (free : ∀ b ∈ l, b.node ≠ some dest) :
    Sound ids index shard (drawn + 1) r (startMove l i c source dest (ids drawn)) := by
  obtain ⟨hs, ht⟩ := startMove_joins inj h.toSited hi node index_eq shard_eq
    fun _ => free
  have settled : a.Settled := h.paired.settled (List.mem_of_getElem? hi) (idle_started state)
  have partner : Partner (moveSource dest a) (moveTarget c source dest (ids drawn)) :=
    ⟨rfl, rfl, rfl, node.symm, by rw [moveSource, node]; rfl, rfl, role⟩
  exact ((h.perm (perm_pick hi)).depart settled partner rfl (Nat.le_succ drawn) hs ht).perm
    (startMove_perm hi).symm

theorem settled_start : ({ a with state := .started, relocatingNode := none } :
    ShardRouting).Settled := ⟨rfl, nofun⟩

theorem Joins.start (h : Joins N ids index shard drawn l a) (assigned : a.state ≠ .unassigned)
    (node : b.node = a.node) (id : b.allocationId = a.allocationId) (state : b.state = .started)
    (index_eq : b.index = a.index) (shard_eq : b.shard = a.shard) :
    Joins N ids index shard drawn l b := by
  refine h.keep (h.fits.congr index_eq shard_eq node id ?_) (Or.inl node) (Or.inl id)
  simp [state, assigned]

theorem sourceOf_eq {x : ShardRouting} (sited : Sited True ids index shard drawn l) (hs : s ∈ l)
    (hp : Partner s t) (hx : x ∈ l)
    (found : (x.state == .relocating && x.node == t.relocatingNode) = true) : x = s := by
  rw [Bool.and_eq_true, beq_iff_eq, beq_iff_eq] at found
  obtain ⟨n, hn⟩ := Option.isSome_iff_exists.mp hp.placed
  exact sited.eq_of_node hx hs (found.2.trans (hp.back.trans hn)) hn

theorem Sited.dropTarget (h : Sited N ids index shard drawn l) (source : Option NodeId) :
    Sited N ids index shard drawn (dropTarget l i source) := by
  have rest := h.sublist (List.eraseIdx_sublist l i)
  unfold Allocation.dropTarget
  dsimp only
  split
  · rename_i sp hsp
    obtain ⟨x, hx, found⟩ := found hsp
    rw [Bool.and_eq_true, beq_iff_eq] at found
    refine rest.edit hx le_rfl ((rest.pick hx).1.start ?_ rfl rfl rfl rfl rfl)
    rw [found.1]
    exact nofun
  · exact rest

theorem Sound.dropTarget (h : Sound ids index shard drawn r l) (hi : l[i]? = some t)
    (target : t.isTarget = true) :
    Sound ids index shard drawn r (dropTarget l i t.relocatingNode) := by
  obtain ⟨s, hs, hp⟩ := h.paired.target (List.mem_of_getElem? hi) target
  have rest : s ∈ l.eraseIdx i := by
    rcases List.mem_cons.mp ((perm_pick hi).mem_iff.mp hs) with rfl | hs
    · exact absurd (hp.source.symm.trans hp.target) nofun
    · exact hs
  obtain ⟨j, hj⟩ := found_of_mem (p := fun c => c.state == .relocating &&
    c.node == t.relocatingNode) rest (by simp [hp.source, hp.back])
  obtain ⟨x, hx, found⟩ := found hj
  obtain rfl := sourceOf_eq h.toSited hs hp (mem_of_mem_eraseIdx (List.mem_of_getElem? hx)) found
  have whole := (h.perm (perm_pick hi)).perm (((perm_pick hx).cons t).trans (List.Perm.swap _ _ _))
  have unfolded : Allocation.dropTarget l i t.relocatingNode = (l.eraseIdx i).modify j
      fun c => { c with state := .started, relocatingNode := none } := by
    unfold Allocation.dropTarget sourceOf
    simp only [hj]
  rw [unfolded]
  refine Sound.perm (whole.arrive hp settled_start rfl ?_)
    (perm_modify hx fun c => { c with state := .started, relocatingNode := none }).symm
  have here := ((sited_cons.mp whole.toSited).1).sublist (List.sublist_cons_self t _)
  exact here.start (by rw [hp.source]; exact nofun) rfl rfl rfl rfl rfl

theorem Sited.startedCopies (h : Sited N ids index shard drawn l) (hi : l[i]? = some a)
    (state : a.state = .initializing) :
    Sited N ids index shard drawn (startedCopies l i a).1 := by
  have started : Sited N ids index shard drawn (l.modify i finishStart) :=
    h.edit hi le_rfl ((h.pick hi).1.start (by rw [state]; exact nofun) rfl rfl rfl rfl rfl)
  unfold Allocation.startedCopies
  dsimp only
  split
  · exact started.sublist (List.eraseIdx_sublist _ _)
  · exact started

theorem Sound.startedCopies (h : Sound ids index shard drawn r l) (hi : l[i]? = some a)
    (state : a.state = .initializing) :
    Sound ids index shard drawn r (startedCopies l i a).1 := by
  have assigned : a.state ≠ .unassigned := by rw [state]; exact nofun
  have started := (h.pick hi).1.start (b := finishStart a) assigned rfl rfl rfl rfl rfl
  cases target : a.isTarget with
  | false =>
    have settled := h.paired.settled (List.mem_of_getElem? hi)
      ⟨by rw [state]; exact nofun, target⟩
    unfold Allocation.startedCopies
    rw [settled.still]
    exact h.edit hi settled ⟨rfl, nofun⟩ rfl le_rfl started
  | true =>
    obtain ⟨s, hs, hp⟩ := h.paired.target (List.mem_of_getElem? hi) target
    have differs : s ≠ finishStart a := fun heq => by
      have := hp.source
      rw [heq] at this
      exact absurd this nofun
    have moved : s ∈ l.modify i finishStart := by
      refine (perm_modify hi finishStart).mem_iff.mpr (List.mem_cons_of_mem _ ?_)
      rcases List.mem_cons.mp ((perm_pick hi).mem_iff.mp hs) with rfl | hs
      · exact absurd (hp.source.symm.trans hp.target) nofun
      · exact hs
    obtain ⟨n, hn⟩ := Option.isSome_iff_exists.mp hp.placed
    have back : a.relocatingNode = some n := hp.back.trans hn
    obtain ⟨j, hj⟩ := found_of_mem (p := fun c => c.state == .relocating && c.node == some n)
      moved (by simp [hp.source, hn])
    obtain ⟨x, hx, found⟩ := found hj
    have settledIn : Sited True ids index shard drawn (l.modify i finishStart) :=
      h.toSited.edit hi le_rfl started
    have hxs : x = s := by
      rw [Bool.and_eq_true, beq_iff_eq, beq_iff_eq] at found
      exact settledIn.eq_of_node (List.mem_of_getElem? hx) moved found.2 hn
    subst hxs
    obtain ⟨rest, whole, result⟩ := perm_modify_erase hi hx differs
    have unfolded : (Allocation.startedCopies l i a).1 = (l.modify i finishStart).eraseIdx j := by
      unfold Allocation.startedCopies sourceOf
      simp only [back, Option.bind_some, hj]
    rw [unfolded]
    have pair := h.perm (whole.trans (List.Perm.swap _ _ _))
    refine Sound.perm (pair.arrive (b := finishStart a) hp ⟨rfl, nofun⟩ hp.role ?_) result.symm
    exact (sited_cons.mp (sited_cons.mp pair.toSited).2).1.start assigned rfl rfl rfl rfl rfl

theorem Sited.cancelled {now : Millis} (h : Sited N ids index shard drawn l)
    (hi : l[i]? = some a) : Sited N ids index shard drawn (cancelled now l i a) := by
  unfold Allocation.cancelled
  split
  · exact h.dropTarget _
  · split
    · rename_i state
      have started : Sited N ids index shard drawn (l.modify i fun c =>
          { c with state := .started, relocatingNode := none }) :=
        h.edit hi le_rfl ((h.pick hi).1.start (by rw [state]; exact nofun) rfl rfl rfl rfl rfl)
      dsimp only
      split
      · exact started.sublist (List.eraseIdx_sublist _ _)
      · exact started
    · exact h.unassign hi _

theorem Sound.dropSource (h : Sound ids index shard drawn r l) (hi : l[i]? = some s)
    (source : s.state = .relocating) {j : Nat}
    (hj : (l.modify i fun c => { c with state := .started, relocatingNode := none }).findIdx?
      (fun c => c.state == .initializing && c.node == s.relocatingNode) = some j) :
    Sound ids index shard drawn r ((l.modify i fun c =>
      { c with state := .started, relocatingNode := none }).eraseIdx j) := by
  obtain ⟨t, ht, hp⟩ := h.paired.source (List.mem_of_getElem? hi) source
  obtain ⟨x, hx, found⟩ := found hj
  rw [Bool.and_eq_true, beq_iff_eq, beq_iff_eq] at found
  have differs : x ≠ ({ s with state := .started, relocatingNode := none } : ShardRouting) := by
    intro heq
    have := found.1
    rw [heq] at this
    exact absurd this nofun
  obtain ⟨rest, whole, result⟩ := perm_modify_erase hi hx differs
  have hxl : x ∈ l := whole.mem_iff.mpr (by simp)
  obtain ⟨n, hn⟩ := Option.isSome_iff_exists.mp hp.awaited
  obtain rfl : x = t := h.toSited.eq_of_node hxl ht (found.2.trans (hp.ahead.trans hn)) hn
  have pair := h.perm whole
  refine Sound.perm (pair.arrive hp settled_start rfl ?_) result.symm
  have here := ((sited_cons.mp pair.toSited).1).sublist (List.sublist_cons_self x _)
  exact here.start (by rw [source]; exact nofun) rfl rfl rfl rfl rfl

theorem Sound.cancelled {now : Millis} (h : Sound ids index shard drawn r l)
    (hi : l[i]? = some a) : Sound ids index shard drawn r (cancelled now l i a) := by
  unfold Allocation.cancelled
  split
  · rename_i target
    exact h.dropTarget hi (by simp [isTarget, target.1, target.2])
  · rename_i target
    split
    · rename_i state
      obtain ⟨t, ht, hp⟩ := h.paired.source (List.mem_of_getElem? hi) state
      have still : t ∈ l.modify i fun c => { c with state := .started, relocatingNode := none } := by
        refine (perm_modify hi _).mem_iff.mpr (List.mem_cons_of_mem _ ?_)
        rcases List.mem_cons.mp ((perm_pick hi).mem_iff.mp ht) with rfl | ht
        · exact absurd (state.symm.trans hp.target) nofun
        · exact ht
      obtain ⟨j, hj⟩ := found_of_mem (p := fun c => c.state == .initializing &&
        c.node == a.relocatingNode) still (by simp [hp.target, hp.ahead])
      simp only [hj]
      exact h.dropSource hi state hj
    · rename_i state
      have quiet : a.isTarget = false := by
        simpa [isTarget] using fun hstate => by simpa [hstate] using target
      exact h.unassign hi (h.paired.settled (List.mem_of_getElem? hi) ⟨state, quiet⟩) _

theorem primariesFirst_perm (l : List ShardRouting) : (primariesFirst l).Perm l :=
  List.filter_append_perm _ l

end Move

/-! ## Nodes that left -/

section Left

variable (ctx : Context)

theorem targetLeft_eq (c : ShardRouting) :
    targetLeft ctx c = c ∨ c.state = .relocating ∧
      targetLeft ctx c = { c with state := .started, relocatingNode := none } := by
  unfold targetLeft
  split
  · rename_i h
    exact Or.inr ⟨h.1, rfl⟩
  · exact Or.inl rfl

theorem nodeLeft_eq (is : IndexSettings) (c : ShardRouting) :
    nodeLeft ctx is c = c ∨ ∃ info, nodeLeft ctx is c = unassign c info := by
  unfold nodeLeft
  split
  · exact Or.inr ⟨_, rfl⟩
  · exact Or.inl rfl

/-- A copy, and the same one with an assignment or a relocation taken from it. -/
structure Fades (a b : ShardRouting) : Prop where
  fits : ∀ {index shard}, a.Fits index shard → b.Fits index shard
  node : b.node = a.node ∨ b.node = none
  id : b.allocationId = a.allocationId ∨ b.allocationId = none
  role : b.primary = a.primary

theorem fades_targetLeft (c : ShardRouting) : Fades c (targetLeft ctx c) := by
  rcases targetLeft_eq ctx c with h | ⟨hstate, h⟩ <;> rw [h]
  · exact ⟨id, Or.inl rfl, Or.inl rfl, rfl⟩
  · refine ⟨fun fits => fits.congr rfl rfl rfl rfl ?_, Or.inl rfl, Or.inl rfl, rfl⟩
    simp [hstate]

theorem fades_nodeLeft (is : IndexSettings) (c : ShardRouting) :
    Fades c (nodeLeft ctx is c) := by
  rcases nodeLeft_eq ctx is c with h | ⟨info, h⟩ <;> rw [h]
  · exact ⟨id, Or.inl rfl, Or.inl rfl, rfl⟩
  · exact ⟨fun fits => fits_unassign fits info, Or.inr rfl, Or.inr rfl, rfl⟩

theorem Fades.apart {a' b' : ShardRouting} (ha : Fades a a') (hb : Fades b b')
    (h : Apart N a b) : Apart N a' b' := by
  refine ⟨fun asked n han hbn => ?_, fun i hai hbi => ?_⟩
  · rcases ha.node with ha | ha <;> rw [ha] at han
    · rcases hb.node with hb | hb <;> rw [hb] at hbn
      · exact h.nodes asked n han hbn
      · exact absurd hbn nofun
    · exact absurd han nofun
  · rcases ha.id with ha | ha <;> rw [ha] at hai
    · rcases hb.id with hb | hb <;> rw [hb] at hbi
      · exact h.ids i hai hbi
      · exact absurd hbi nofun
    · exact absurd hai nofun

theorem Sited.map (h : Sited N ids index shard drawn l) {f : ShardRouting → ShardRouting}
    (fades : ∀ c, Fades c (f c)) : Sited N ids index shard drawn (l.map f) := by
  refine ⟨?_, ?_, h.apart.map f fun a b => (fades a).apart (fades b)⟩
  · intro c hc
    obtain ⟨x, hx, rfl⟩ := List.mem_map.mp hc
    exact (fades x).fits (h.fits x hx)
  · intro c hc n hn
    obtain ⟨x, hx, rfl⟩ := List.mem_map.mp hc
    rcases (fades x).id with hid | hid <;> rw [hid]
    · exact h.spent x hx n hn
    · exact nofun

theorem Sited.withoutLeft (h : Sited N ids index shard drawn l) (name : String) :
    Sited N ids index shard drawn (withoutLeft ctx name l) :=
  ((h.map (fades_targetLeft ctx)).sublist List.filter_sublist).map (fades_nodeLeft ctx _)

theorem settled_left (is : IndexSettings) {c : ShardRouting} (h : c.Settled) :
    (nodeLeft ctx is (targetLeft ctx c)).Settled ∧ stranded ctx (targetLeft ctx c) = false := by
  have same : targetLeft ctx c = c := by
    rcases targetLeft_eq ctx c with heq | ⟨hstate, _⟩
    · exact heq
    · exact absurd hstate h.state
  rw [same]
  refine ⟨?_, by simp [stranded, h.still]⟩
  rcases nodeLeft_eq ctx is c with heq | ⟨info, heq⟩ <;> rw [heq]
  · exact h
  · exact settled_unassign info

theorem source_left (is : IndexSettings) {s t : ShardRouting} (h : Partner s t) :
    stranded ctx (targetLeft ctx s) = false ∧
    ((nodeLeft ctx is (targetLeft ctx s)).Settled ∨
      nodeLeft ctx is (targetLeft ctx s) = s ∧ stranded ctx t = false ∧
        nodeLeft ctx is (targetLeft ctx t) = t ∧ targetLeft ctx t = t) := by
  obtain ⟨n, hn⟩ := Option.isSome_iff_exists.mp h.placed
  obtain ⟨m, hm⟩ := Option.isSome_iff_exists.mp h.awaited
  have ahead : s.relocatingNode = some m := h.ahead.trans hm
  have back : t.relocatingNode = some n := h.back.trans hn
  have target : targetLeft ctx t = t := by simp [targetLeft, h.target]
  cases hpm : ctx.present m with
  | false =>
    have gone : targetLeft ctx s = { s with state := .started, relocatingNode := none } := by
      simp [targetLeft, h.source, ahead, hpm]
    rw [gone]
    refine ⟨by simp [stranded], Or.inl ?_⟩
    rcases nodeLeft_eq ctx is { s with state := .started, relocatingNode := none } with heq | ⟨info, heq⟩ <;>
      rw [heq]
    · exact settled_start
    · exact settled_unassign info
  | true =>
    have stays : targetLeft ctx s = s := by simp [targetLeft, ahead, hpm]
    rw [stays, target]
    refine ⟨by simp [stranded, h.source], ?_⟩
    cases hpn : ctx.present n with
    | false =>
      left
      have gone : onLeft ctx s = true := by simp [onLeft, h.source, hn, hpn]
      simp only [nodeLeft, gone, if_true]
      exact settled_unassign _
    | true =>
      right
      have here : onLeft ctx s = false := by simp [onLeft, hn, hpn]
      have there : onLeft ctx t = false := by simp [onLeft, hm, hpm]
      simp [nodeLeft, here, there, stranded, hm, back, hpm, hpn]

theorem target_left (is : IndexSettings) {s t : ShardRouting} (h : Partner s t)
    (kept : stranded ctx (targetLeft ctx t) = false) :
    nodeLeft ctx is (targetLeft ctx t) = t ∧ nodeLeft ctx is (targetLeft ctx s) = s := by
  obtain ⟨n, hn⟩ := Option.isSome_iff_exists.mp h.placed
  obtain ⟨m, hm⟩ := Option.isSome_iff_exists.mp h.awaited
  have ahead : s.relocatingNode = some m := h.ahead.trans hm
  have back : t.relocatingNode = some n := h.back.trans hn
  have target : targetLeft ctx t = t := by simp [targetLeft, h.target]
  rw [target] at kept ⊢
  have present : ctx.present m = true ∧ ctx.present n = true := by
    simpa [stranded, h.target, back, hm] using kept
  have stays : targetLeft ctx s = s := by simp [targetLeft, ahead, present.1]
  rw [stays]
  simp [nodeLeft, onLeft, hn, hm, present.1, present.2]

theorem mem_withoutLeft {name : String} {c : ShardRouting} :
    c ∈ withoutLeft ctx name l ↔ ∃ x ∈ l, stranded ctx (targetLeft ctx x) = false ∧
      c = nodeLeft ctx (ctx.indexSettings name) (targetLeft ctx x) := by
  unfold withoutLeft
  simp only [List.mem_map, List.mem_filter, Bool.not_eq_true']
  constructor
  · rintro ⟨y, ⟨⟨x, hx, rfl⟩, hs⟩, rfl⟩
    exact ⟨x, hx, hs, rfl⟩
  · rintro ⟨x, hx, hs, rfl⟩
    exact ⟨_, ⟨⟨x, hx, rfl⟩, hs⟩, rfl⟩

theorem Paired.withoutLeft (h : Paired l) (name : String) : Paired (withoutLeft ctx name l) := by
  intro c hc
  obtain ⟨x, hx, kept, rfl⟩ := (mem_withoutLeft ctx).mp hc
  rcases h x hx with hs | ⟨t, ht, hp⟩ | ⟨s, hs, hp⟩
  · exact Or.inl (settled_left ctx _ hs).1
  · rcases (source_left ctx (ctx.indexSettings name) hp).2 with hs | ⟨hs, hkept, hnode, ht'⟩
    · exact Or.inl hs
    · rw [hs]
      exact Or.inr (Or.inl ⟨t, (mem_withoutLeft ctx).mpr
        ⟨t, ht, by rw [ht']; exact hkept, hnode.symm⟩, hp⟩)
  · obtain ⟨ht', hs'⟩ := target_left ctx (ctx.indexSettings name) hp kept
    rw [ht']
    exact Or.inr (Or.inr ⟨s, (mem_withoutLeft ctx).mpr
      ⟨s, hs, (source_left ctx (ctx.indexSettings name) hp).1, hs'.symm⟩, hp⟩)

theorem left_counts (h : Paired l) (is : IndexSettings) {x : ShardRouting} (hx : x ∈ l) :
    (stranded ctx (targetLeft ctx x) = true ∧ x.isTarget = true) ∨
    (stranded ctx (targetLeft ctx x) = false ∧
      (nodeLeft ctx is (targetLeft ctx x)).isTarget = x.isTarget ∧
      (nodeLeft ctx is (targetLeft ctx x)).primary = x.primary) := by
  have role : (nodeLeft ctx is (targetLeft ctx x)).primary = x.primary :=
    (fades_nodeLeft ctx is _).role.trans (fades_targetLeft ctx x).role
  rcases h x hx with hs | ⟨t, ht, hp⟩ | ⟨s, hs, hp⟩
  · obtain ⟨settled, kept⟩ := settled_left ctx is hs
    exact Or.inr ⟨kept, by rw [settled.not_target, hs.not_target], role⟩
  · obtain ⟨kept, settled | ⟨same, _⟩⟩ := source_left ctx is hp
    · exact Or.inr ⟨kept, by rw [settled.not_target, hp.source_not_target], role⟩
    · exact Or.inr ⟨kept, by rw [same], role⟩
  · cases kept : stranded ctx (targetLeft ctx x) with
    | true => exact Or.inl ⟨rfl, hp.isTarget⟩
    | false => exact Or.inr ⟨rfl, by rw [(target_left ctx is hp kept).1], role⟩

theorem countP_withoutLeft (h : Paired l) (name : String) (p : Bool → Bool) :
    (withoutLeft ctx name l).countP (fun c => p c.primary && !c.isTarget) =
      l.countP fun c => p c.primary && !c.isTarget := by
  unfold withoutLeft
  rw [List.countP_map, List.countP_filter, List.countP_map]
  refine List.countP_congr fun x hx => ?_
  rcases left_counts ctx h (ctx.indexSettings name) hx with ⟨gone, target⟩ | ⟨kept, target, role⟩
  · simp [gone, target]
  · simp [kept, target, role]

theorem Sound.withoutLeft (h : Sound ids index shard drawn r l) (name : String) :
    Sound ids index shard drawn r (withoutLeft ctx name l) := by
  refine ⟨h.toSited.withoutLeft ctx name, h.paired.withoutLeft ctx name, ?_, ?_⟩
  · exact (countP_withoutLeft ctx h.paired name id).trans h.heads
  · have := countP_withoutLeft ctx h.paired name fun _ => true
    simp only [Bool.true_and] at this
    exact this.trans h.seats

/-- No replica of the shard is on its way. -/
def Quiet (l : List ShardRouting) : Prop := ∀ c ∈ l, c.primary = false → c.Idle

theorem idle_left (is : IndexSettings) {c : ShardRouting} (h : c.Idle) :
    (nodeLeft ctx is (targetLeft ctx c)).Idle := by
  have same : targetLeft ctx c = c := by
    rcases targetLeft_eq ctx c with heq | ⟨hstate, _⟩
    · exact heq
    · exact absurd hstate h.source
  rw [same]
  rcases nodeLeft_eq ctx is c with heq | ⟨info, heq⟩ <;> rw [heq]
  · exact h
  · exact idle_unassigned rfl

theorem Quiet.withoutLeft (h : Quiet l) (name : String) : Quiet (withoutLeft ctx name l) := by
  intro c hc replica
  obtain ⟨x, hx, _, rfl⟩ := (mem_withoutLeft ctx).mp hc
  have role : (nodeLeft ctx (ctx.indexSettings name) (targetLeft ctx x)).primary = x.primary :=
    (fades_nodeLeft ctx _ _).role.trans (fades_targetLeft ctx x).role
  exact idle_left ctx _ (h x hx (role.symm.trans replica))

theorem Paired.quiet (h : Paired l) (idle : ∀ c ∈ l, c.primary = false → c.isTarget = false) :
    Quiet l := by
  intro c hc replica
  refine ⟨fun source => ?_, idle c hc replica⟩
  obtain ⟨t, ht, hp⟩ := h.source hc source
  exact absurd (hp.isTarget.symm.trans (idle t ht (hp.role.trans replica))) nofun

end Left

/-! ## Taking over -/

section TakeOver

variable {pi ri : Nat} {p q : ShardRouting} {inSync : Option (List String)}

theorem swap_perm (l : List ShardRouting) (i j : Nat) : (swap l i j).Perm l := by
  unfold swap
  split
  · rename_i a b ha hb
    obtain ⟨hi, rfl⟩ := List.getElem?_eq_some_iff.mp ha
    obtain ⟨hj, rfl⟩ := List.getElem?_eq_some_iff.mp hb
    exact List.set_set_perm hi hj
  · exact List.Perm.refl l

/-- A replica that is made primary. -/
def raised (c : ShardRouting) : ShardRouting :=
  { c with primary := true, relocatingNode := none, state := .started }

/-- A primary that is one no more. -/
def deposed (c : ShardRouting) : ShardRouting := { c with primary := false }

/-- The two entries `promote` turns to. -/
structure Succession (l : List ShardRouting) (pi ri : Nat) (p q : ShardRouting) : Prop where
  lost : l[pi]? = some p
  heir : l[ri]? = some q
  primary : p.primary = true
  unassigned : p.state = .unassigned
  replica : q.primary = false
  active : q.active = true

theorem Succession.still (h : Succession l pi ri p q) : (l.modify ri raised)[pi]? = some p := by
  have hne : ri ≠ pi := by
    rintro rfl
    have := Option.some.inj (h.lost.symm.trans h.heir)
    have := this ▸ h.primary
    rw [h.replica] at this
    exact absurd this nofun
  rw [List.getElem?_modify_ne _ _ hne]
  exact h.lost

theorem Succession.assigned (h : Succession l pi ri p q) : q.state ≠ .unassigned := by
  intro hu
  have := h.active
  simp [ShardRouting.active, hu] at this

theorem Sited.takeOver (h : Sited N ids index shard drawn l) (turn : Succession l pi ri p q) :
    Sited N ids index shard drawn (takeOver l pi ri) := by
  have first : Sited N ids index shard drawn (l.modify ri raised) :=
    h.edit turn.heir le_rfl ((h.pick turn.heir).1.start turn.assigned rfl rfl rfl rfl rfl)
  have second : Sited N ids index shard drawn ((l.modify ri raised).modify pi deposed) := by
    refine first.edit turn.still le_rfl ?_
    have here := (first.pick turn.still).1
    exact here.keep (here.fits.congr rfl rfl rfl rfl Iff.rfl) (Or.inl rfl) (Or.inl rfl)
  exact second.perm (swap_perm _ 0 ri).symm

theorem Paired.edit {i : Nat} {f : ShardRouting → ShardRouting} (h : Paired l)
    (hi : l[i]? = some a) (before : a.Settled) (after : (f a).Settled) :
    Paired (l.modify i f) :=
  (((h.perm (perm_pick hi)).tail before).cons after).perm (perm_modify hi f).symm

theorem countP_edit {i : Nat} {f : ShardRouting → ShardRouting} (p : ShardRouting → Bool)
    (hi : l[i]? = some a) :
    (l.modify i f).countP p + (if p a then 1 else 0) = l.countP p + if p (f a) then 1 else 0 := by
  rw [(perm_modify hi f).countP_eq, (perm_pick hi).countP_eq, List.countP_cons, List.countP_cons]
  omega

theorem Sound.takeOver (h : Sound ids index shard drawn r l) (turn : Succession l pi ri p q)
    (settled : q.Settled) : Sound ids index shard drawn r (takeOver l pi ri) := by
  have lost : p.Settled := h.paired.settled (List.mem_of_getElem? turn.lost)
    (idle_unassigned turn.unassigned)
  have demoted : (deposed p).Settled := ⟨lost.still, lost.state⟩
  have paired : Paired ((l.modify ri raised).modify pi deposed) :=
    (h.paired.edit (f := raised) turn.heir settled ⟨rfl, nofun⟩).edit turn.still lost demoted
  refine ⟨h.toSited.takeOver turn, paired.perm (swap_perm _ 0 ri).symm, ?_, ?_⟩
  · have first := countP_edit (f := raised) isHead turn.heir
    have second := countP_edit (f := deposed) isHead turn.still
    have hq : isHead q = false := by simp [isHead, turn.replica]
    have hq' : isHead (raised q) = true := by simp [isHead, raised, isTarget]
    have hp : isHead p = true := by simp [isHead, turn.primary, lost.not_target]
    have hp' : isHead (deposed p) = false := by simp [isHead, deposed]
    have heads := h.heads
    simp only [hq, hq', hp, hp', if_true, Bool.false_eq_true, if_false] at first second
    unfold Allocation.takeOver
    rw [(swap_perm _ 0 ri).countP_eq]
    change ((l.modify ri raised).modify pi deposed).countP isHead = 1
    omega
  · have first := countP_edit (f := raised) (fun c => !c.isTarget) turn.heir
    have second := countP_edit (f := deposed) (fun c => !c.isTarget) turn.still
    have hq' : (raised q).Settled := ⟨rfl, nofun⟩
    simp only [settled.not_target, hq'.not_target, lost.not_target, demoted.not_target,
      Bool.not_false, if_true] at first second
    have seats := h.seats
    unfold Allocation.takeOver
    rw [(swap_perm _ 0 ri).countP_eq]
    change ((l.modify ri raised).modify pi deposed).countP (fun c => !c.isTarget) = 1 + r
    omega

theorem succession (hp : l.findIdx? (fun c => c.primary && c.state == .unassigned) = some pi)
    (hr : l.findIdx? (mayTakeOver inSync) = some ri) : ∃ p q, Succession l pi ri p q := by
  obtain ⟨p, hlost, hp⟩ := found hp
  obtain ⟨q, hheir, hq⟩ := found hr
  simp only [Bool.and_eq_true, beq_iff_eq] at hp
  simp only [mayTakeOver, Bool.and_eq_true, Bool.not_eq_true'] at hq
  exact ⟨p, q, hlost, hheir, hp.1, hp.2, hq.1.1, hq.1.2⟩

theorem noValidCopy_eq (c : ShardRouting) :
    ∃ u, noValidCopy c = { c with unassigned := u } := by
  unfold noValidCopy
  split
  · exact ⟨_, rfl⟩
  · exact ⟨c.unassigned, rfl⟩

theorem Joins.noValidCopy (h : Joins N ids index shard drawn l a) :
    Joins N ids index shard drawn l (noValidCopy a) := by
  obtain ⟨u, hu⟩ := noValidCopy_eq a
  rw [hu]
  exact h.keep (h.fits.congr rfl rfl rfl rfl Iff.rfl) (Or.inl rfl) (Or.inl rfl)

theorem Sited.promote (h : Sited N ids index shard drawn l) (inSync : Option (List String)) :
    Sited N ids index shard drawn (promote inSync l).1 := by
  unfold Allocation.promote
  split
  · exact h
  · rename_i pi hp
    split
    · rename_i ri hr
      obtain ⟨p, q, turn⟩ := succession hp hr
      exact h.takeOver turn
    · obtain ⟨p, hlost, _⟩ := found hp
      exact h.edit hlost le_rfl (h.pick hlost).1.noValidCopy

theorem Sound.promote (h : Sound ids index shard drawn r l) (quiet : Quiet l)
    (inSync : Option (List String)) : Sound ids index shard drawn r (promote inSync l).1 := by
  unfold Allocation.promote
  split
  · exact h
  · rename_i pi hp
    split
    · rename_i ri hr
      obtain ⟨p, q, turn⟩ := succession hp hr
      have heir := List.mem_of_getElem? turn.heir
      exact h.takeOver turn (h.paired.settled heir (quiet q heir turn.replica))
    · obtain ⟨p, hlost, hp⟩ := found hp
      rw [Bool.and_eq_true, beq_iff_eq] at hp
      have lost : p.Settled := h.paired.settled (List.mem_of_getElem? hlost)
        (idle_unassigned hp.2)
      obtain ⟨u, hu⟩ := noValidCopy_eq p
      refine h.edit hlost lost ?_ ?_ le_rfl (h.pick hlost).1.noValidCopy
      · rw [hu]
        exact ⟨lost.still, lost.state⟩
      · rw [hu]

theorem Quiet.edit {i : Nat} {f : ShardRouting → ShardRouting} (h : Quiet l)
    (hi : l[i]? = some a) (after : (f a).primary = false → (f a).Idle) : Quiet (l.modify i f) := by
  intro c hc replica
  rcases List.mem_cons.mp ((perm_modify hi f).mem_iff.mp hc) with rfl | hc
  · exact after replica
  · exact h c (mem_of_mem_eraseIdx hc) replica

theorem Quiet.promote (h : Quiet l) (inSync : Option (List String)) :
    Quiet (promote inSync l).1 := by
  unfold Allocation.promote
  split
  · exact h
  · rename_i pi hp
    split
    · rename_i ri hr
      obtain ⟨p, q, turn⟩ := succession hp hr
      have raises : Quiet (l.modify ri raised) := h.edit turn.heir nofun
      have yields : Quiet ((l.modify ri raised).modify pi deposed) :=
        raises.edit turn.still fun _ => idle_unassigned turn.unassigned
      exact fun c hc => yields c ((swap_perm _ 0 ri).mem_iff.mp hc)
    · obtain ⟨p, hlost, hp⟩ := found hp
      rw [Bool.and_eq_true, beq_iff_eq] at hp
      refine h.edit hlost fun _ => idle_unassigned ?_
      obtain ⟨u, hu⟩ := noValidCopy_eq p
      rw [hu]
      exact hp.2

end TakeOver

end Allocation

end Velosearch.Cluster
