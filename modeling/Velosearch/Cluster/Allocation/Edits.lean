import Mathlib.Logic.Relation
import Velosearch.Lib.TreeMaps
import Velosearch.Cluster.Allocation.Layouts

/-!
# A table edited one shard at a time

Everything that changes a routing table changes the entries of one shard after
another. `Edit` is the list of the changes there are, each with what its place in the
source has checked by then; a pass of `reroute`, a shard event and a command are
chains of them (`Passes`). What a run keeps is then shown once for each kind of edit,
here, and not once for each place.

`Rules` says what the edits of a chain are held to. A rule is a `Prop`, so that a
chain found without asking for it is still a chain: that allocation ids are told apart
holds of every run, that nodes are only of those whose moves look at the target.
-/

set_option autoImplicit false

namespace Velosearch.Cluster

/-! ## Looking a shard up -/

namespace RoutingTable

/-- The list of a shard, where the table has one. -/
def lookup (t : RoutingTable) (index : String) (shard : Nat) : Option (List ShardRouting) :=
  t.indices[index]?.bind fun s => s[shard]?

variable {t : RoutingTable} {index i : String} {shard s : Nat} {l : List ShardRouting}
variable {c : ShardRouting}

@[simp] theorem copies_setCopies_self : (t.setCopies index shard l).copies index shard = l := by
  simp [setCopies, copies]

theorem copies_setCopies_of_ne (h : ¬ (i = index ∧ s = shard)) :
    (t.setCopies index shard l).copies i s = t.copies i s := by
  unfold setCopies copies
  rw [Std.ExtTreeMap.getElem?_insert]
  by_cases hi : i = index
  · subst hi
    have hs : ¬ shard = s := fun hs => h ⟨rfl, hs.symm⟩
    cases t.indices[i]? <;> simp [Std.ExtTreeMap.getElem?_insert, hs]
  · have : ¬ index = i := fun hs => hi hs.symm
    simp [this]

theorem mem_shardsOf : c ∈ t.shardsOf index ↔ ∃ s, c ∈ t.copies index s := by
  unfold shardsOf copies
  cases hi : t.indices[index]? with
  | none => simp
  | some shards =>
    simp only [Option.map_some, Option.getD_some, Option.bind_some, List.mem_flatten]
    constructor
    · rintro ⟨l, hl, hc⟩
      obtain ⟨s, hs⟩ := Lib.mem_values.mp hl
      exact ⟨s, by rw [hs]; exact hc⟩
    · rintro ⟨s, hc⟩
      cases hs : shards[s]? with
      | none =>
        rw [hs] at hc
        exact absurd hc (by simp)
      | some l =>
        rw [hs] at hc
        exact ⟨l, Lib.mem_values.mpr ⟨s, hs⟩, hc⟩

theorem mem_all : c ∈ t.all ↔ ∃ index s, c ∈ t.copies index s := by
  unfold all
  rw [List.mem_flatMap]
  constructor
  · rintro ⟨shards, hs, hc⟩
    obtain ⟨index, hi⟩ := Lib.mem_values.mp hs
    have : c ∈ t.shardsOf index := by
      unfold shardsOf
      rw [hi]
      exact hc
    exact ⟨index, mem_shardsOf.mp this⟩
  · rintro ⟨index, s, hc⟩
    have hc := mem_shardsOf.mpr ⟨s, hc⟩
    unfold shardsOf at hc
    cases hi : t.indices[index]? with
    | none =>
      rw [hi] at hc
      exact absurd hc (by simp)
    | some shards =>
      rw [hi] at hc
      exact ⟨shards, Lib.mem_values.mpr ⟨index, hi⟩, hc⟩

end RoutingTable

namespace Allocation

open ShardRouting Lib

/-! ## Edits -/

/-- What is asked of the edits of a run, beyond that they are edits. -/
structure Rules where
  apart : Prop
  paired : Prop
  steady : String → Prop
  syncs : Prop
  events : Prop
  colocates : Prop
  founds : String → Nat → Prop
  inSync : String → Nat → Option (List String)
  grants : String → Nat → ShardRouting → NodeId → Prop

/-- The changes the copies `l` of a shard can see; `first` is the layout of the
index's first shard, and `drawn` how many ids have been drawn. -/
inductive Edit (R : Rules) (ids : Nat → String) (index : String) (shard : Nat)
    (first l : List ShardRouting) (drawn : Nat) : List ShardRouting → Nat → Prop where
  -- 1. the index's settings
  | fill (syncs : R.syncs) (ctx : Context) (m : IndexMetadata) (fresh : Bool)
      (headed : ∃ c ∈ l, c.primary = true) (quiet : R.paired → Quiet l) :
      Edit R ids index shard first l drawn (matchReplicas ctx index m shard fresh l) drawn
  | create (syncs : R.syncs) (ctx : Context) (m : IndexMetadata) (fresh : Bool)
      (headless : ∀ c ∈ l, c.primary = false) (founds : R.founds index shard) :
      Edit R ids index shard first l drawn
        (matchReplicas ctx index m shard fresh (freshPrimary ctx index m shard :: l)) drawn
  | settle (syncs : R.syncs) (ctx : Context) (m : IndexMetadata) (fresh : Bool) (home : NodeId)
      (headless : ∀ c ∈ l, c.primary = false) (founds : R.founds index shard)
      (free : R.apart → ∀ c ∈ l, c.node ≠ some home) :
      Edit R ids index shard first l drawn
        (matchReplicas ctx index m shard fresh (startedAtHome index shard home (ids drawn) :: l))
        (drawn + 1)
  -- 2. nodes that left
  | depart (ctx : Context) (quiet : R.paired → Quiet l) :
      Edit R ids index shard first l drawn
        (promote (R.inSync index shard) (withoutLeft ctx index l)).1 drawn
  -- 3. allocation
  | reason {i : Nat} {a : ShardRouting} (g : Option UnassignedInfo → Option UnassignedInfo)
      (kept : ∀ u, (g u).map (·.reason) = u.map (·.reason)) (here : l[i]? = some a)
      (idle : a.Idle) :
      Edit R ids index shard first l drawn
        (l.modify i fun c => { c with unassigned := g c.unassigned }) drawn
  | assign {i : Nat} {a : ShardRouting} {f : ShardRouting → ShardRouting} {node : NodeId}
      (here : l[i]? = some a) (idle : a.Idle) (inactive : a.active = false)
      (put : AssignedTo node (ids drawn) a (f a))
      (kept : R.events ∨ (f a).unassigned.map (·.reason) = a.unassigned.map (·.reason))
      (still : (f a).relocatingNode = none ∨ (f a).relocatingNode = a.relocatingNode)
      (grant : R.grants index shard a node)
      (free : R.apart → ∀ c ∈ l.eraseIdx i, c.node ≠ some node) :
      Edit R ids index shard first l drawn (l.modify i f) (drawn + 1)
  -- 4. and 5. moves
  | move {i : Nat} {a c : ShardRouting} {source dest : NodeId} (here : l[i]? = some a)
      (node : a.node = some source) (state : a.state = .started) (index_eq : c.index = index)
      (shard_eq : c.shard = shard) (role : c.primary = a.primary)
      (free : R.apart → ∀ b ∈ l, b.node ≠ some dest) :
      Edit R ids index shard first l drawn (startMove l i c source dest (ids drawn)) (drawn + 1)
  -- 6. co-location
  | align (colocates : R.colocates) (agrees : R.paired → Agrees first l)
      (steady : Steady R.steady first l) :
      Edit R ids index shard first l drawn (alignCopies ids index shard drawn first l).1
        (alignCopies ids index shard drawn first l).2
  -- shard events and commands
  | start {i : Nat} {a : ShardRouting} (events : R.events) (here : l[i]? = some a) (state : a.state = .initializing) :
      Edit R ids index shard first l drawn (primariesFirst (startedCopies l i a).1) drawn
  | giveUp {i : Nat} {t : ShardRouting} (events : R.events) (here : l[i]? = some t) (target : t.isTarget = true) :
      Edit R ids index shard first l drawn (dropTarget l i t.relocatingNode) drawn
  | unassign {i : Nat} {a : ShardRouting} (events : R.events) (info : ShardRouting → UnassignedInfo)
      (here : l[i]? = some a) (idle : R.paired → a.Idle) :
      Edit R ids index shard first l drawn (l.modify i fun c => unassign c (info c)) drawn
  | cancel {i : Nat} {a : ShardRouting} (events : R.events) (now : Millis) (here : l[i]? = some a) :
      Edit R ids index shard first l drawn (cancelled now l i a) drawn

variable {R : Rules} {N : Prop} {ids : Nat → String} {index : String} {shard drawn drawn' : Nat}
variable {first l l' : List ShardRouting}

/-! ## What every edit keeps of a shard -/

theorem fits_freshPrimary {ctx : Context} {m : IndexMetadata} :
    (freshPrimary ctx index m shard).Fits index shard := by
  refine ⟨rfl, rfl, ?_, ?_⟩ <;> simp [freshPrimary]

theorem joins_startedAtHome {home : NodeId} (inj : Function.Injective ids)
    (h : Sited N ids index shard drawn l) (free : N → ∀ c ∈ l, c.node ≠ some home) :
    Joins N ids index shard (drawn + 1) l (startedAtHome index shard home (ids drawn)) := by
  refine joins_fresh inj h ⟨rfl, rfl, ?_, ?_⟩ rfl fun asked c hc n hn => ?_
  · simp [startedAtHome]
  · simp [startedAtHome]
  · exact Option.some.inj hn ▸ free asked c hc

/-- **Copies stay where they can be**, for as much of it as the rules ask. -/
theorem Edit.sited (inj : Function.Injective ids) (asked : N → R.apart)
    (hfirst : Sited N ids index 0 drawn first) (h : Sited N ids index shard drawn l)
    (edit : Edit R ids index shard first l drawn l' drawn') :
    Sited N ids index shard drawn' l' := by
  cases edit with
  | fill => exact h.matchReplicas
  | create =>
    exact Sited.matchReplicas (sited_cons.mpr ⟨joins_blank fits_freshPrimary rfl rfl, h⟩)
  | settle _ _ _ _ home _ _ free =>
    refine Sited.matchReplicas (sited_cons.mpr ⟨?_, h.mono (Nat.le_succ drawn)⟩)
    exact joins_startedAtHome inj h fun n => free (asked n)
  | depart ctx _ => exact (h.withoutLeft ctx index).promote _
  | reason g _ here _ => exact h.edit here le_rfl ((h.pick here).1.reason g)
  | assign here _ _ put _ _ _ free =>
    obtain ⟨joins, rest⟩ := h.pick here
    exact h.edit here (Nat.le_succ drawn) (put.joins inj joins rest fun n => free (asked n))
  | move here node _ index_eq shard_eq _ free =>
    exact h.startMove inj here node index_eq shard_eq fun n => free (asked n)
  | align => exact Sited.align inj hfirst h
  | start _ here state => exact (h.startedCopies here state).perm (primariesFirst_perm _).symm
  | giveUp => exact h.dropTarget _
  | unassign _ info here _ => exact h.unassign here info
  | cancel _ now here => exact h.cancelled here

theorem Edit.later (inj : Function.Injective ids) (hfirst : ∀ m ∈ first, m.Fits index 0)
    (h : Sited False ids index shard drawn l)
    (edit : Edit R ids index shard first l drawn l' drawn') : drawn ≤ drawn' := by
  cases edit with
  | align => exact (alignCopies_aligned inj hfirst h (steady_never first l)).later
  | settle => exact Nat.le_succ drawn
  | assign => exact Nat.le_succ drawn
  | move => exact Nat.le_succ drawn
  | _ => exact le_rfl

/-! ## Shards that are whole -/

/-- What is said of how many replicas a shard has: nothing at all, or a number. -/
abbrev Counts := String → Nat → Option Nat → Prop

/-- A shard without entries, or a sound one, of a number of replicas as is said. -/
def Whole (ids : Nat → String) (A : Counts) (index : String) (shard drawn : Nat)
    (l : List ShardRouting) : Prop :=
  l = [] ∧ A index shard none ∨ ∃ r, Sound ids index shard drawn r l ∧ A index shard (some r)

variable {A : Counts}

theorem Whole.sound {a : ShardRouting} {i : Nat} (h : Whole ids A index shard drawn l)
    (here : l[i]? = some a) : ∃ r, Sound ids index shard drawn r l ∧ A index shard (some r) := by
  rcases h with ⟨rfl, _⟩ | h
  · exact absurd here (by simp)
  · exact h

theorem Whole.sited (h : Whole ids A index shard drawn l) : Sited True ids index shard drawn l := by
  rcases h with ⟨rfl, _⟩ | ⟨r, h, _⟩
  · exact sited_nil
  · exact h.toSited

theorem Whole.paired (h : Whole ids A index shard drawn l) : Paired l := by
  rcases h with ⟨rfl, _⟩ | ⟨r, h, _⟩
  · exact paired_of_settled (List.forall_mem_nil _)
  · exact h.paired

theorem Whole.mono (h : Whole ids A index shard drawn l) (later : drawn ≤ drawn') :
    Whole ids A index shard drawn' l := by
  rcases h with h | ⟨r, h, hr⟩
  · exact Or.inl h
  · exact Or.inr ⟨r, h.mono later, hr⟩

theorem Sound.headed {r : Nat} (h : Sound ids index shard drawn r l) :
    ∃ c ∈ l, c.primary = true := by
  have heads : 0 < l.countP isHead := by
    rw [h.heads]
    exact Nat.one_pos
  obtain ⟨c, hc, head⟩ := List.countP_pos_iff.mp heads
  exact ⟨c, hc, ((Bool.and_eq_true _ _).mp head).1⟩

theorem Whole.nil_of_headless (h : Whole ids A index shard drawn l)
    (headless : ∀ c ∈ l, c.primary = false) : l = [] := by
  rcases h with ⟨rfl, _⟩ | ⟨r, h, _⟩
  · rfl
  · obtain ⟨c, hc, role⟩ := h.headed
    rw [headless c hc] at role
    exact absurd role nofun

theorem sound_alone {a : ShardRouting} (joins : Joins True ids index shard drawn [] a)
    (settled : a.Settled) (role : a.primary = true) : Sound ids index shard drawn 0 [a] := by
  refine ⟨sited_cons.mpr ⟨joins, sited_nil⟩, paired_of_settled ?_, ?_, ?_⟩
  · simpa using settled
  · simp [isHead, role, settled.not_target]
  · simp [settled.not_target]

theorem quiet_alone {a : ShardRouting} (role : a.primary = true) : Quiet [a] := by
  intro c hc replica
  obtain rfl := List.mem_singleton.mp hc
  rw [role] at replica
  exact absurd replica nofun

/-- **A whole shard stays whole** under edits that ask about nodes and relocations. -/
theorem Edit.whole (inj : Function.Injective ids) (apart : R.apart) (paired : R.paired)
    (any : R.syncs → ∀ i s x, A i s x) (uniform : ∀ i s x, A i 0 x → A i s x)
    (hfirst : Whole ids A index 0 drawn first) (h : Whole ids A index shard drawn l)
    (edit : Edit R ids index shard first l drawn l' drawn') :
    Whole ids A index shard drawn' l' := by
  cases edit with
  | fill syncs ctx m fresh headed quiet =>
    obtain ⟨c, hc, _⟩ := headed
    obtain ⟨i, here⟩ := List.mem_iff_getElem?.mp hc
    obtain ⟨r, sound, _⟩ := h.sound here
    exact Or.inr ⟨_, sound.matchReplicas (quiet paired), any syncs _ _ _⟩
  | create syncs ctx m fresh headless _ =>
    obtain rfl := h.nil_of_headless headless
    have alone : Sound ids index shard drawn 0 [freshPrimary ctx index m shard] :=
      sound_alone (joins_blank fits_freshPrimary rfl rfl) ⟨rfl, nofun⟩ rfl
    exact Or.inr ⟨_, alone.matchReplicas (quiet_alone rfl), any syncs _ _ _⟩
  | settle syncs ctx m fresh home headless _ free =>
    obtain rfl := h.nil_of_headless headless
    have alone : Sound ids index shard (drawn + 1) 0
        [startedAtHome index shard home (ids drawn)] :=
      sound_alone (joins_startedAtHome inj sited_nil fun _ => free apart) ⟨rfl, nofun⟩ rfl
    exact Or.inr ⟨_, alone.matchReplicas (quiet_alone rfl), any syncs _ _ _⟩
  | depart ctx quiet =>
    rcases h with ⟨rfl, hA⟩ | ⟨r, sound, hr⟩
    · exact Or.inl ⟨rfl, hA⟩
    · refine Or.inr ⟨r, ?_, hr⟩
      exact (sound.withoutLeft ctx index).promote ((quiet paired).withoutLeft ctx index) _
  | reason g _ here idle =>
    obtain ⟨r, sound, hr⟩ := h.sound here
    have settled := sound.paired.settled (List.mem_of_getElem? here) idle
    refine Or.inr ⟨r, ?_, hr⟩
    exact sound.edit here settled ⟨settled.still, settled.state⟩ rfl le_rfl
      ((sound.toSited.pick here).1.reason g)
  | assign here idle _ put _ still _ free =>
    obtain ⟨r, sound, hr⟩ := h.sound here
    have settled := sound.paired.settled (List.mem_of_getElem? here) idle
    obtain ⟨joins, rest⟩ := sound.toSited.pick here
    refine Or.inr ⟨r, ?_, hr⟩
    refine sound.edit here settled ⟨?_, by rw [put.state]; exact nofun⟩ put.role
      (Nat.le_succ drawn) (put.joins inj joins rest fun _ => free apart)
    rcases still with still | still
    · exact still
    · exact still.trans settled.still
  | move here node state index_eq shard_eq role free =>
    obtain ⟨r, sound, hr⟩ := h.sound here
    exact Or.inr ⟨r, sound.startMove inj here node state index_eq shard_eq role (free apart), hr⟩
  | align _ agrees _ =>
    rcases hfirst with ⟨rfl, hA⟩ | ⟨r, sound, hr⟩
    · exact Or.inl ⟨rfl, uniform _ _ _ hA⟩
    · exact Or.inr ⟨r, Sound.align inj sound h.sited (agrees paired), uniform _ _ _ hr⟩
  | start _ here state =>
    obtain ⟨r, sound, hr⟩ := h.sound here
    exact Or.inr ⟨r, (sound.startedCopies here state).perm (primariesFirst_perm _).symm, hr⟩
  | giveUp _ here target =>
    obtain ⟨r, sound, hr⟩ := h.sound here
    exact Or.inr ⟨r, sound.dropTarget here target, hr⟩
  | unassign _ info here idle =>
    obtain ⟨r, sound, hr⟩ := h.sound here
    have settled := sound.paired.settled (List.mem_of_getElem? here) (idle paired)
    exact Or.inr ⟨r, sound.unassign here settled info, hr⟩
  | cancel _ now here =>
    obtain ⟨r, sound, hr⟩ := h.sound here
    exact Or.inr ⟨r, sound.cancelled here, hr⟩

/-! ## Where ids come from -/

section Kin

variable {ctx : Context} {m : IndexMetadata} {fresh : Bool} {a c : ShardRouting} {i : Nat}

/-- Every entry of `l'` that has an id is one of `l`, on its node. -/
def Kin (l l' : List ShardRouting) : Prop :=
  ∀ c ∈ l', ∀ id, c.allocationId = some id → ∃ a ∈ l, a.allocationId = some id ∧ a.node = c.node

theorem Kin.trans {l'' : List ShardRouting} (h : Kin l l') (h' : Kin l' l'') : Kin l l'' := by
  intro c hc id hid
  obtain ⟨b, hb, hbid, hnode⟩ := h' c hc id hid
  obtain ⟨a, ha, haid, hnode'⟩ := h b hb id hbid
  exact ⟨a, ha, haid, hnode'.trans hnode⟩

theorem kin_of_subset (h : l' ⊆ l) : Kin l l' := fun c hc _ hid => ⟨c, h hc, hid, rfl⟩

/-- What an edit leaves an entry: its id and its node, or no id. -/
structure Keeps (a b : ShardRouting) : Prop where
  kept : ∀ id, b.allocationId = some id → a.allocationId = some id ∧ a.node = b.node

theorem mem_modify {f : ShardRouting → ShardRouting} (h : c ∈ l.modify i f) :
    c ∈ l ∨ ∃ a ∈ l, c = f a := by
  cases here : l[i]? with
  | none =>
    rw [List.getElem?_eq_none_iff] at here
    rw [List.modify_eq_self here] at h
    exact Or.inl h
  | some a =>
    rcases List.mem_cons.mp ((perm_modify here f).mem_iff.mp h) with rfl | h
    · exact Or.inr ⟨a, List.mem_of_getElem? here, rfl⟩
    · exact Or.inl (mem_of_mem_eraseIdx h)

theorem kin_modify {f : ShardRouting → ShardRouting} (keeps : ∀ a, Keeps a (f a)) (i : Nat) :
    Kin l (l.modify i f) := by
  intro c hc id hid
  rcases mem_modify hc with hc | ⟨a, ha, rfl⟩
  · exact ⟨c, hc, hid, rfl⟩
  · obtain ⟨haid, hnode⟩ := (keeps a).kept id hid
    exact ⟨a, ha, haid, hnode⟩

theorem kin_map {f : ShardRouting → ShardRouting} (keeps : ∀ a, Keeps a (f a)) :
    Kin l (l.map f) := by
  intro c hc id hid
  obtain ⟨a, ha, rfl⟩ := List.mem_map.mp hc
  obtain ⟨haid, hnode⟩ := (keeps a).kept id hid
  exact ⟨a, ha, haid, hnode⟩

theorem keeps_unassign (a : ShardRouting) (info : UnassignedInfo) : Keeps a (unassign a info) :=
  ⟨fun _ h => absurd h nofun⟩

theorem kin_withoutLeft (ctx : Context) (name : String) (l : List ShardRouting) :
    Kin l (withoutLeft ctx name l) := by
  have target : ∀ a, Keeps a (targetLeft ctx a) := by
    intro a
    rcases targetLeft_eq ctx a with h | ⟨_, h⟩ <;> rw [h] <;> exact ⟨fun _ hid => ⟨hid, rfl⟩⟩
  have node : ∀ a, Keeps a (nodeLeft ctx (ctx.indexSettings name) a) := by
    intro a
    rcases nodeLeft_eq ctx (ctx.indexSettings name) a with h | ⟨info, h⟩ <;> rw [h]
    · exact ⟨fun _ hid => ⟨hid, rfl⟩⟩
    · exact keeps_unassign a info
  exact ((kin_map target).trans (kin_of_subset (List.filter_subset_self _))).trans (kin_map node)

theorem kin_promote (inSync : Option (List String)) (l : List ShardRouting) :
    Kin l (promote inSync l).1 := by
  unfold promote
  split
  · exact kin_of_subset (List.Subset.refl l)
  · rename_i pi _
    split
    · rename_i ri _
      have raises : Kin l (l.modify ri raised) := by
        refine kin_modify (fun a => ?_) ri
        exact ⟨fun _ hid => ⟨hid, rfl⟩⟩
      have yields : Kin (l.modify ri raised) ((l.modify ri raised).modify pi deposed) := by
        refine kin_modify (fun a => ?_) pi
        exact ⟨fun _ hid => ⟨hid, rfl⟩⟩
      exact (raises.trans yields).trans (kin_of_subset (swap_perm _ 0 ri).subset)
    · refine kin_modify (fun a => ?_) _
      obtain ⟨u, hu⟩ := noValidCopy_eq a
      rw [hu]
      exact ⟨fun _ hid => ⟨hid, rfl⟩⟩

theorem kin_dropTarget (i : Nat) (source : Option NodeId) : Kin l (dropTarget l i source) := by
  have rest : Kin l (l.eraseIdx i) := kin_of_subset (List.eraseIdx_sublist l i).subset
  unfold dropTarget
  dsimp only
  split
  · refine rest.trans (kin_modify (fun a => ?_) _)
    exact ⟨fun _ hid => ⟨hid, rfl⟩⟩
  · exact rest

theorem kin_startedCopies (i : Nat) (a : ShardRouting) : Kin l (startedCopies l i a).1 := by
  have started : Kin l (l.modify i finishStart) := by
    refine kin_modify (fun a => ?_) i
    exact ⟨fun _ hid => ⟨hid, rfl⟩⟩
  unfold startedCopies
  dsimp only
  split
  · exact started.trans (kin_of_subset (List.eraseIdx_sublist _ _).subset)
  · exact started

theorem kin_cancelled (now : Millis) (i : Nat) (a : ShardRouting) :
    Kin l (cancelled now l i a) := by
  unfold cancelled
  split
  · exact kin_dropTarget i _
  · split
    · have started : Kin l (l.modify i fun c =>
          { c with state := .started, relocatingNode := none }) := by
        refine kin_modify (fun a => ?_) i
        exact ⟨fun _ hid => ⟨hid, rfl⟩⟩
      dsimp only
      split
      · exact started.trans (kin_of_subset (List.eraseIdx_sublist _ _).subset)
      · exact started
    · exact kin_modify (fun a => keeps_unassign a _) i

theorem kin_matchReplicas (l : List ShardRouting) :
    Kin l (matchReplicas ctx index m shard fresh l) := by
  have more : ∀ k, Kin l (l ++ List.replicate k (freshReplica ctx index m shard fresh)) := by
    intro k c hc id hid
    rcases List.mem_append.mp hc with hc | hc
    · exact ⟨c, hc, hid, rfl⟩
    · rw [List.eq_of_mem_replicate hc] at hid
      exact absurd hid nofun
  unfold matchReplicas
  dsimp only
  split
  · exact (more _).trans (kin_of_subset (trimReplicas_subperm _ _).subset)
  · exact more _

theorem known_of_kin {S : String → Prop} {new : ShardRouting} (h : Kin (new :: l) l')
    (id : new.allocationId = some (ids drawn)) :
    ∀ c ∈ l', Known S ids drawn (drawn + 1) l c := by
  intro c hc x hx
  obtain ⟨a, ha, hax, hnode⟩ := h c hc x hx
  rcases List.mem_cons.mp ha with rfl | ha
  · rw [id] at hax
    exact Or.inr ⟨drawn, le_rfl, Nat.lt_succ_self drawn, (Option.some.inj hax).symm⟩
  · exact Or.inl ⟨a, ha, hax, fun _ => hnode⟩

theorem Kin.known {S : String → Prop} (h : Kin l l') : ∀ c ∈ l', Known S ids drawn drawn' l c := by
  intro c hc x hx
  obtain ⟨a, ha, hax, hnode⟩ := h c hc x hx
  exact Or.inl ⟨a, ha, hax, fun _ => hnode⟩

end Kin

/-- **An id after an edit was there before, or is new.** -/
theorem Edit.known {S : String → Prop} (inj : Function.Injective ids)
    (asked : ∀ i, S i → R.steady i)
    (hfirst : ∀ m ∈ first, m.Fits index 0) (h : Sited False ids index shard drawn l)
    (edit : Edit R ids index shard first l drawn l' drawn') :
    ∀ c ∈ l', Known S ids drawn drawn' l c := by
  cases edit with
  | fill => exact (kin_matchReplicas l).known
  | create syncs ctx m =>
    refine Kin.known (Kin.trans ?_ (kin_matchReplicas _))
    intro c hc id hid
    rcases List.mem_cons.mp hc with rfl | hc
    · exact absurd hid nofun
    · exact ⟨c, hc, hid, rfl⟩
  | settle => exact known_of_kin (kin_matchReplicas _) rfl
  | depart ctx => exact ((kin_withoutLeft ctx index l).trans (kin_promote _ _)).known
  | reason g =>
    refine Kin.known (kin_modify (fun a => ?_) _)
    exact ⟨fun _ hid => ⟨hid, rfl⟩⟩
  | assign here _ _ put =>
    refine known_of_kin (kin_of_subset fun c hc => ?_) put.allocationId
    rcases List.mem_cons.mp ((perm_modify here _).mem_iff.mp hc) with rfl | hc
    · exact List.mem_cons_self
    · exact List.mem_cons_of_mem _ (mem_of_mem_eraseIdx hc)
  | @move i a c source dest here =>
    have fresh : (moveTarget c source dest (ids drawn)).allocationId = some (ids drawn) := rfl
    refine known_of_kin ?_ fresh
    have sent : Kin l (l.modify i (moveSource dest)) := by
      refine kin_modify (fun a => ?_) i
      exact ⟨fun _ hid => ⟨hid, rfl⟩⟩
    intro b hb id hid
    unfold startMove at hb
    rcases List.mem_append.mp hb with hb | hb
    · obtain ⟨x, hx, hxid, hnode⟩ := sent b hb id hid
      exact ⟨x, List.mem_cons_of_mem _ hx, hxid, hnode⟩
    · obtain rfl := List.mem_singleton.mp hb
      exact ⟨_, List.mem_cons_self, hid, rfl⟩
  | align _ _ steady =>
    refine (alignCopies_aligned inj hfirst h fun e he i hi old => ?_).known
    exact steady e he i hi (asked i old)
  | start =>
    exact ((kin_startedCopies _ _).trans (kin_of_subset (primariesFirst_perm _).subset)).known
  | giveUp => exact (kin_dropTarget _ _).known
  | unassign _ info => exact (kin_modify (fun a => keeps_unassign a _) _).known
  | cancel _ now => exact (kin_cancelled now _ _).known

/-! ## Whole tables -/

/-- A table, and how many allocation ids have been drawn for it. -/
structure Board where
  table : RoutingTable
  drawn : Nat

/-- The entries of a shard, none where the table has no list. -/
def Board.copies (b : Board) (index : String) (shard : Nat) : List ShardRouting :=
  b.table.copies index shard

/-- The table under work, with how many ids were drawn. -/
def Work.board (w : Work) : Board := ⟨w.table, w.drawn⟩

/-- One edit of one shard's list, or an index forgotten. -/
inductive Edited (R : Rules) (ids : Nat → String) (b b' : Board) : Prop where
  | shard (index : String) (shard : Nat)
      (edit : Edit R ids index shard (b.copies index 0) (b.copies index shard) b.drawn
        (b'.copies index shard) b'.drawn)
      (others : ∀ i s, ¬ (i = index ∧ s = shard) → b'.copies i s = b.copies i s)
  | forget (syncs : R.syncs)
      (kept : ∀ i s, b'.copies i s = b.copies i s ∨ b'.copies i s = [])
      (same : b'.drawn = b.drawn)

/-- Any number of edits. -/
abbrev Edits (R : Rules) (ids : Nat → String) : Board → Board → Prop :=
  Relation.ReflTransGen (Edited R ids)

/-- Every shard's copies are where they can be. -/
def Tidy (N : Prop) (ids : Nat → String) (b : Board) : Prop :=
  ∀ index shard, Sited N ids index shard b.drawn (b.copies index shard)

/-- Every shard is whole. -/
def Complete (ids : Nat → String) (A : Counts) (b : Board) : Prop :=
  ∀ index shard, Whole ids A index shard b.drawn (b.copies index shard)

variable {b b' b'' : Board}

theorem Tidy.weaken {M : Prop} (h : Tidy N ids b) (less : M → N) : Tidy M ids b := by
  intro index shard
  refine ⟨(h index shard).fits, (h index shard).spent, (h index shard).apart.imp ?_⟩
  exact fun apart => ⟨fun asked => apart.nodes (less asked), apart.ids⟩

theorem Complete.tidy (h : Complete ids A b) : Tidy True ids b := fun index shard =>
  (h index shard).sited

theorem Edited.later (inj : Function.Injective ids) (h : Tidy False ids b)
    (step : Edited R ids b b') : b.drawn ≤ b'.drawn := by
  cases step with
  | shard index shard edit _ => exact edit.later inj (h index 0).fits (h index shard)
  | forget _ _ same => exact same.ge

theorem Edited.tidy (inj : Function.Injective ids) (asked : N → R.apart) (h : Tidy N ids b)
    (step : Edited R ids b b') : Tidy N ids b' := by
  have later := step.later inj (h.weaken False.elim)
  intro i s
  cases step with
  | shard index shard edit others =>
    by_cases here : i = index ∧ s = shard
    · obtain ⟨rfl, rfl⟩ := here
      exact edit.sited inj asked (h i 0) (h i s)
    · rw [others i s here]
      exact (h i s).mono later
  | forget _ kept same =>
    rw [same]
    rcases kept i s with heq | heq <;> rw [heq]
    · exact h i s
    · exact sited_nil

theorem Edited.complete (inj : Function.Injective ids) (apart : R.apart) (paired : R.paired)
    (any : R.syncs → ∀ i s x, A i s x) (uniform : ∀ i s x, A i 0 x → A i s x)
    (h : Complete ids A b) (step : Edited R ids b b') : Complete ids A b' := by
  have later := step.later inj (h.tidy.weaken False.elim)
  intro i s
  cases step with
  | shard index shard edit others =>
    by_cases here : i = index ∧ s = shard
    · obtain ⟨rfl, rfl⟩ := here
      exact edit.whole inj apart paired any uniform (h i 0) (h i s)
    · rw [others i s here]
      exact (h i s).mono later
  | forget syncs kept same =>
    rw [same]
    rcases kept i s with heq | heq <;> rw [heq]
    · exact h i s
    · exact Or.inl ⟨rfl, any syncs i s none⟩

/-! ## Ids over time -/

/-- An id on the second board was on the first, in the same shard and if it is one of `S` on
the same node, or has been drawn since. -/
structure Stems (S : String → Prop) (ids : Nat → String) (b b' : Board) : Prop where
  later : b.drawn ≤ b'.drawn
  known : ∀ index shard, ∀ c ∈ b'.copies index shard,
    Known S ids b.drawn b'.drawn (b.copies index shard) c

/-- No id is in two shards. -/
def Scattered (b : Board) : Prop :=
  ∀ i s i' s', ∀ a ∈ b.copies i s, ∀ a' ∈ b.copies i' s', ∀ id,
    a.allocationId = some id → a'.allocationId = some id → i = i' ∧ s = s'

variable {S : String → Prop}

theorem Stems.refl (b : Board) : Stems S ids b b :=
  ⟨le_rfl, fun _ _ c hc _ hid => Or.inl ⟨c, hc, hid, fun _ => rfl⟩⟩

theorem Stems.trans (h : Stems S ids b b') (h' : Stems S ids b' b'') : Stems S ids b b'' := by
  refine ⟨h.later.trans h'.later, fun index shard c hc id hid => ?_⟩
  rcases h'.known index shard c hc id hid with ⟨x, hx, hxid, same⟩ | ⟨n, hn, hn', rfl⟩
  · rcases h.known index shard x hx id hxid with ⟨y, hy, hyid, same'⟩ | ⟨n, hn, hn', rfl⟩
    · exact Or.inl ⟨y, hy, hyid, fun asked => (same' asked).trans (same asked)⟩
    · exact Or.inr ⟨n, hn, hn'.trans_le h'.later, rfl⟩
  · exact Or.inr ⟨n, h.later.trans hn, hn', rfl⟩

theorem Edited.stems (inj : Function.Injective ids) (asked : ∀ i, S i → R.steady i)
    (h : Tidy False ids b) (step : Edited R ids b b') : Stems S ids b b' := by
  refine ⟨step.later inj h, fun i s c hc id hid => ?_⟩
  cases step with
  | shard index shard edit others =>
    by_cases here : i = index ∧ s = shard
    · obtain ⟨rfl, rfl⟩ := here
      exact edit.known inj asked (h i 0).fits (h i s) c hc id hid
    · rw [others i s here] at hc
      exact Or.inl ⟨c, hc, hid, fun _ => rfl⟩
  | forget _ kept same =>
    rcases kept i s with heq | heq <;> rw [heq] at hc
    · exact Or.inl ⟨c, hc, hid, fun _ => rfl⟩
    · exact absurd hc List.not_mem_nil

theorem Edited.old (step : Edited R ids b b') {index : String} {shard : Nat} {c : ShardRouting}
    (hc : c ∈ b'.copies index shard) :
    c ∈ b.copies index shard ∨
      ∀ i s, ¬ (i = index ∧ s = shard) → b'.copies i s = b.copies i s := by
  cases step with
  | shard i s _ others =>
    by_cases here : index = i ∧ shard = s
    · obtain ⟨rfl, rfl⟩ := here
      exact Or.inr others
    · rw [others index shard here] at hc
      exact Or.inl hc
  | forget _ kept _ =>
    rcases kept index shard with heq | heq <;> rw [heq] at hc
    · exact Or.inl hc
    · exact absurd hc List.not_mem_nil

theorem Edited.scattered (inj : Function.Injective ids) (h : Tidy False ids b)
    (apart : Scattered b) (step : Edited R ids b b') : Scattered b' := by
  have stems := step.stems (S := fun _ => False) inj (fun _ never => never.elim) h
  -- one of the two entries was there before; the other is then of the same shard
  have half : ∀ i s i' s', ∀ a ∈ b'.copies i s, ∀ a' ∈ b.copies i' s', ∀ id,
      a.allocationId = some id → a'.allocationId = some id → i = i' ∧ s = s' := by
    intro i s i' s' a ha a' ha' id hid hid'
    rcases stems.known i s a ha id hid with ⟨x, hx, hxid, _⟩ | ⟨n, hn, _, rfl⟩
    · exact apart i s i' s' x hx a' ha' id hxid hid'
    · exact absurd hid' ((h i' s').spent a' ha' n hn)
  intro i s i' s' a ha a' ha' id hid hid'
  rcases step.old ha' with old | others
  · exact half i s i' s' a ha a' old id hid hid'
  · by_cases same : i = i' ∧ s = s'
    · exact same
    · rw [others i s same] at ha
      obtain ⟨rfl, rfl⟩ := half i' s' i s a' ha' a ha id hid' hid
      exact ⟨rfl, rfl⟩

/-! ## Chains -/

section Chains

variable (inj : Function.Injective ids) (chain : Edits R ids b b')

include inj chain

theorem Edits.tidy (asked : N → R.apart) (h : Tidy N ids b) : Tidy N ids b' := by
  induction chain with
  | refl => exact h
  | tail _ step ih => exact step.tidy inj asked ih

theorem Edits.complete (apart : R.apart) (paired : R.paired)
    (any : R.syncs → ∀ i s x, A i s x) (uniform : ∀ i s x, A i 0 x → A i s x)
    (h : Complete ids A b) : Complete ids A b' := by
  induction chain with
  | refl => exact h
  | tail _ step ih => exact step.complete inj apart paired any uniform ih

theorem Edits.stems (asked : ∀ i, S i → R.steady i) (h : Tidy False ids b) : Stems S ids b b' := by
  induction chain with
  | refl => exact Stems.refl b
  | tail chain step ih => exact ih.trans (step.stems inj asked (Edits.tidy inj chain nofun h))

theorem Edits.scattered (h : Tidy False ids b) (apart : Scattered b) : Scattered b' := by
  induction chain with
  | refl => exact apart
  | tail chain step ih => exact step.scattered inj (Edits.tidy inj chain nofun h) ih

end Chains

end Allocation

end Velosearch.Cluster
