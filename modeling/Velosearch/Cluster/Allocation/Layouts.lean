import Mathlib.Data.List.Forall2
import Velosearch.Cluster.Allocation.Copies

/-!
# The copies of a shard laid out anew

The two places where `reroute` rewrites a shard's list as a whole: the replica count
that follows its setting (`matchReplicas`), and the co-location pass, which lays the
entries of every other shard beside those of the first (`alignCopies`).

After the second the entries of a shard have the nodes, states and roles of the
first shard's, one by one (`alignCopies_seats`), so what is said of those carries
over. `relocating_node` is the exception: it is copied with the rest when an entry
is put where its model is, but an entry that is there already is left alone without
looking at it. `Agrees` is what has to hold for it to carry over too.
-/

set_option autoImplicit false

namespace Velosearch.Cluster.Allocation

open ShardRouting Lib

variable {N : Prop} {S : String → Prop} {ids : Nat → String} {index : String}
variable {shard drawn drawn' r : Nat}
variable {a b : ShardRouting} {l l' : List ShardRouting}

/-! ## Dropping entries -/

section Drop

variable {α : Type} {p q : α → Bool}

theorem dropPicked_sublist (n : Nat) (l : List α) : (dropPicked p n l).1.Sublist l := by
  fun_induction dropPicked p n l with
  | case1 => exact List.Sublist.refl _
  | case2 => exact List.Sublist.refl _
  | case3 n a l hp ih => exact ih.cons a
  | case4 n a l hp rest ih => exact ih.cons_cons a

theorem mem_dropPicked {x : α} (hx : p x = false) (n : Nat) (l : List α) (h : x ∈ l) :
    x ∈ (dropPicked p n l).1 := by
  fun_induction dropPicked p n l with
  | case1 => exact h
  | case2 => exact h
  | case3 n a l hp ih =>
    rcases List.mem_cons.mp h with rfl | h
    · rw [hx] at hp
      exact absurd hp nofun
    · exact ih h
  | case4 n a l hp rest ih =>
    rcases List.mem_cons.mp h with rfl | h
    · exact List.mem_cons_self
    · exact List.mem_cons_of_mem a (ih h)

theorem countP_dropPicked_of_kind (kind : ∀ x, p x = true → q x = true) (n : Nat) (l : List α) :
    (dropPicked p n l).1.countP q + n = l.countP q + (dropPicked p n l).2 := by
  fun_induction dropPicked p n l with
  | case1 => rfl
  | case2 => rfl
  | case3 n a l hp ih =>
    rw [List.countP_cons_of_pos (kind a hp)]
    omega
  | case4 n a l hp rest ih =>
    simp only [List.countP_cons, rest]
    omega

theorem countP_dropPicked (other : ∀ x, p x = true → q x = false) (n : Nat) (l : List α) :
    (dropPicked p n l).1.countP q = l.countP q := by
  fun_induction dropPicked p n l with
  | case1 => rfl
  | case2 => rfl
  | case3 n a l hp ih =>
    rw [List.countP_cons_of_neg (by rw [other a hp]; exact nofun)]
    exact ih
  | case4 n a l hp rest ih =>
    simp only [List.countP_cons, rest, ih]

theorem dropPicked_missing (n : Nat) (l : List α) : (dropPicked p n l).2 = n - l.countP p := by
  fun_induction dropPicked p n l with
  | case1 => simp
  | case2 => rfl
  | case3 n a l hp ih =>
    rw [List.countP_cons_of_pos hp, ih]
    omega
  | case4 n a l hp rest ih =>
    rw [List.countP_cons_of_neg hp]
    exact ih

end Drop

/-! ## The replica count -/

section Replicas

variable {extra : Nat}

theorem trimReplicas_subperm (extra : Nat) (l : List ShardRouting) :
    (trimReplicas extra l).Sublist l := by
  unfold trimReplicas
  dsimp only
  rw [← List.reverse_sublist, List.reverse_reverse]
  exact (dropPicked_sublist _ _).trans (dropPicked_sublist _ _)

theorem mem_trimReplicas (h : a ∈ l) (primary : a.primary = true) : a ∈ trimReplicas extra l := by
  unfold trimReplicas
  dsimp only
  rw [List.mem_reverse]
  refine mem_dropPicked (by simp [primary]) _ _ (mem_dropPicked (by simp [primary]) _ _ ?_)
  exact List.mem_reverse.mpr h

theorem countP_trimReplicas {q : ShardRouting → Bool}
    (other : ∀ c : ShardRouting, c.primary = false → q c = false) :
    (trimReplicas extra l).countP q = l.countP q := by
  unfold trimReplicas
  dsimp only
  rw [List.countP_reverse, countP_dropPicked, countP_dropPicked, List.countP_reverse]
  · intro c hc
    rw [Bool.and_eq_true, Bool.not_eq_true'] at hc
    exact other c hc.1
  · intro c hc
    rw [Bool.not_eq_true'] at hc
    exact other c hc

theorem replicas_trimReplicas (enough : extra ≤ l.countP fun c => !c.primary) :
    ((trimReplicas extra l).countP fun c => !c.primary) + extra =
      l.countP fun c => !c.primary := by
  unfold trimReplicas
  dsimp only
  have first := countP_dropPicked_of_kind (p := fun c : ShardRouting => !c.primary &&
    c.state == .unassigned) (q := fun c => !c.primary)
    (fun c hc => ((Bool.and_eq_true _ _).mp hc).1) extra l.reverse
  rw [List.countP_reverse] at first ⊢
  generalize dropPicked (fun c : ShardRouting => !c.primary && c.state == .unassigned) extra
    l.reverse = d at first ⊢
  have second := countP_dropPicked_of_kind (p := fun c : ShardRouting => !c.primary)
    (fun _ hc => hc) d.2 d.1
  have missing := dropPicked_missing (p := fun c : ShardRouting => !c.primary) d.2 d.1
  omega

variable {ctx : Context} {m : IndexMetadata} {fresh : Bool}

theorem fits_freshReplica :
    (freshReplica ctx index m shard fresh).Fits index shard := by
  refine ⟨rfl, rfl, ?_, ?_⟩ <;> simp [freshReplica]

theorem joins_blank (fits : a.Fits index shard) (node : a.node = none)
    (id : a.allocationId = none) : Joins N ids index shard drawn l a := by
  refine ⟨fits, fun n _ h => ?_, fun c _ => ⟨fun _ n h => ?_, fun i h => ?_⟩⟩
  · rw [id] at h
    exact absurd h nofun
  · rw [node] at h
    exact absurd h nofun
  · rw [id] at h
    exact absurd h nofun

theorem withReplicas_perm (k : Nat) : (l ++ List.replicate (k + 1)
    (freshReplica ctx index m shard fresh)).Perm
      (freshReplica ctx index m shard fresh :: (l ++ List.replicate k
        (freshReplica ctx index m shard fresh))) := by
  rw [List.replicate_succ]
  exact List.perm_middle

theorem Sited.withReplicas (h : Sited N ids index shard drawn l) (k : Nat) :
    Sited N ids index shard drawn (l ++ List.replicate k
      (freshReplica ctx index m shard fresh)) := by
  induction k with
  | zero => simpa using h
  | succ k ih =>
    exact (sited_cons.mpr ⟨joins_blank fits_freshReplica rfl rfl, ih⟩).perm
      (withReplicas_perm k).symm

theorem Paired.withReplicas (h : Paired l) (k : Nat) :
    Paired (l ++ List.replicate k (freshReplica ctx index m shard fresh)) := by
  induction k with
  | zero => simpa using h
  | succ k ih =>
    have settled : (freshReplica ctx index m shard fresh).Settled := ⟨rfl, nofun⟩
    exact (ih.cons settled).perm (withReplicas_perm k).symm

theorem Sited.matchReplicas (h : Sited N ids index shard drawn l) :
    Sited N ids index shard drawn (matchReplicas ctx index m shard fresh l) := by
  unfold Allocation.matchReplicas
  dsimp only
  split
  · exact (h.withReplicas _).sublist (trimReplicas_subperm _ _)
  · exact h.withReplicas _

theorem seats_eq (quiet : Quiet l) :
    (l.countP fun c => !c.isTarget) = l.countP isHead + l.countP fun c => !c.primary := by
  induction l with
  | nil => rfl
  | cons a l ih =>
    have ih := ih fun c hc => quiet c (List.mem_cons_of_mem a hc)
    cases role : a.primary with
    | true =>
      simp only [List.countP_cons, isHead, role, Bool.true_and, Bool.not_true,
        Bool.false_eq_true, if_false] at ih ⊢
      omega
    | false =>
      have idle := quiet a List.mem_cons_self role
      simp only [List.countP_cons, isHead, role, idle.target, Bool.false_and,
        Bool.not_false, if_true, Bool.false_eq_true, if_false] at ih ⊢
      omega

theorem quiet_withReplicas (quiet : Quiet l) (k : Nat) :
    Quiet (l ++ List.replicate k (freshReplica ctx index m shard fresh)) := by
  intro c hc replica
  rcases List.mem_append.mp hc with hc | hc
  · exact quiet c hc replica
  · rw [List.eq_of_mem_replicate hc]
    exact idle_unassigned rfl

theorem Quiet.matchReplicas (quiet : Quiet l) :
    Quiet (matchReplicas ctx index m shard fresh l) := by
  have more : Quiet (l ++ List.replicate (m.numberOfReplicas - l.countP fun c => !c.primary)
      (freshReplica ctx index m shard fresh)) := quiet_withReplicas quiet _
  unfold Allocation.matchReplicas
  dsimp only
  split
  · exact fun c hc => more c ((trimReplicas_subperm _ _).subset hc)
  · exact more

theorem mem_matchReplicas (h : a ∈ l) (primary : a.primary = true) :
    a ∈ matchReplicas ctx index m shard fresh l := by
  unfold Allocation.matchReplicas
  dsimp only
  split
  · exact mem_trimReplicas (List.mem_append_left _ h) primary
  · exact List.mem_append_left _ h

theorem replicas_matchReplicas (l : List ShardRouting) :
    ((matchReplicas ctx index m shard fresh l).countP fun c => !c.primary) =
      m.numberOfReplicas := by
  unfold Allocation.matchReplicas
  dsimp only
  generalize hk : m.numberOfReplicas - (l.countP fun c => !c.primary) = k
  have replicas : ((l ++ List.replicate k (freshReplica ctx index m shard fresh)).countP
      fun c => !c.primary) = (l.countP fun c => !c.primary) + k := by
    rw [List.countP_append, List.countP_replicate]
    rfl
  split
  · have enough : (l.countP fun c => !c.primary) - m.numberOfReplicas ≤
        (l ++ List.replicate k (freshReplica ctx index m shard fresh)).countP
          fun c => !c.primary := by omega
    have trimmed := replicas_trimReplicas enough
    omega
  · omega

/-- **The replica count follows the setting**, and nothing on its way is dropped. -/
theorem Sound.matchReplicas (h : Sound ids index shard drawn r l) (quiet : Quiet l) :
    Sound ids index shard drawn m.numberOfReplicas (matchReplicas ctx index m shard fresh l) := by
  have sited : Sited True ids index shard drawn (Allocation.matchReplicas ctx index m shard fresh l) :=
    h.toSited.matchReplicas
  have kept : Quiet (Allocation.matchReplicas ctx index m shard fresh l) := quiet.matchReplicas
  have replicas : ((Allocation.matchReplicas ctx index m shard fresh l).countP
      fun c => !c.primary) = m.numberOfReplicas := replicas_matchReplicas l
  have paired : Paired (Allocation.matchReplicas ctx index m shard fresh l) ∧
      (Allocation.matchReplicas ctx index m shard fresh l).countP isHead = 1 := by
    unfold Allocation.matchReplicas
    dsimp only
    generalize m.numberOfReplicas - (l.countP fun c => !c.primary) = k
    have more : Quiet (l ++ List.replicate k (freshReplica ctx index m shard fresh)) :=
      quiet_withReplicas quiet k
    have paired : Paired (l ++ List.replicate k (freshReplica ctx index m shard fresh)) :=
      h.paired.withReplicas k
    have heads : (l ++ List.replicate k (freshReplica ctx index m shard fresh)).countP isHead = 1 := by
      rw [List.countP_append, h.heads, List.countP_replicate]
      rfl
    split
    · refine ⟨paired.subset (trimReplicas_subperm _ _).subset fun c hc moving => ?_, ?_⟩
      · refine mem_trimReplicas hc ?_
        by_contra role
        exact moving (paired.settled hc (more c hc (Bool.eq_false_iff.mpr role)))
      · rw [countP_trimReplicas fun c role => by simp [isHead, role], heads]
    · exact ⟨paired, heads⟩
  refine ⟨sited, paired.1, paired.2, ?_⟩
  rw [seats_eq kept, paired.2, replicas]

end Replicas

/-! ## Laid beside the first shard -/

section Align

variable {first copies : List ShardRouting}

/-- A copy that sits where its model does: node, state and role. -/
structure SeatOf (m c : ShardRouting) : Prop where
  node : c.node = m.node
  state : c.state = m.state
  role : c.primary = m.primary

theorem sameSeat_iff {m c : ShardRouting} : sameSeat m c = true ↔ SeatOf m c := by
  simp only [sameSeat, Bool.and_eq_true, beq_iff_eq]
  exact ⟨fun ⟨⟨n, s⟩, p⟩ => ⟨n, s, p⟩, fun ⟨n, s, p⟩ => ⟨⟨n, s⟩, p⟩⟩

theorem alignCopies_seats (ids : Nat → String) (name : String) (shard drawn : Nat)
    (first copies : List ShardRouting) :
    List.Forall₂ SeatOf first (alignCopies ids name shard drawn first copies).1 := by
  fun_induction alignCopies ids name shard drawn first copies with
  | case1 => exact .nil
  | case2 drawn m first c rest ih => exact .cons ⟨rfl, rfl, rfl⟩ ih
  | case3 drawn m first c copies same rest ih => exact .cons (sameSeat_iff.mp same) ih
  | case4 drawn m first c copies other draws rest ih => exact .cons ⟨rfl, rfl, rfl⟩ ih

/-- An entry that sits where its model does names the same other end of a
relocation. -/
def Agrees (first copies : List ShardRouting) : Prop :=
  ∀ e ∈ first.zip copies, sameSeat e.1 e.2 = true → e.2.relocatingNode = e.1.relocatingNode

instance (first copies : List ShardRouting) : Decidable (Agrees first copies) :=
  inferInstanceAs (Decidable (∀ e ∈ first.zip copies, _))

/-- And is going where its model is going. -/
structure Mirrors (m c : ShardRouting) : Prop extends SeatOf m c where
  relocating : c.relocatingNode = m.relocatingNode

theorem alignCopies_mirrors (ids : Nat → String) (name : String) (shard drawn : Nat)
    (agrees : Agrees first copies) :
    List.Forall₂ Mirrors first (alignCopies ids name shard drawn first copies).1 := by
  fun_induction alignCopies ids name shard drawn first copies with
  | case1 => exact .nil
  | case2 drawn m first c rest ih =>
    exact .cons ⟨⟨rfl, rfl, rfl⟩, rfl⟩ (ih fun e he => absurd he (by simp))
  | case3 drawn m first c copies same rest ih =>
    refine .cons ⟨sameSeat_iff.mp same, agrees (m, c) (by simp) same⟩ (ih fun e he => agrees e ?_)
    exact List.mem_cons_of_mem _ he
  | case4 drawn m first c copies other draws rest ih =>
    exact .cons ⟨⟨rfl, rfl, rfl⟩, rfl⟩ (ih fun e he => agrees e (List.mem_cons_of_mem _ he))

/-- An entry with an id of `S` is on its model's node, or the model has none. -/
def Steady (S : String → Prop) (first copies : List ShardRouting) : Prop :=
  ∀ e ∈ first.zip copies, ∀ i, e.2.allocationId = some i → S i →
    e.1.node = none ∨ e.2.node = e.1.node

theorem steady_never (first copies : List ShardRouting) : Steady (fun _ => False) first copies :=
  fun _ _ _ _ never => never.elim

/-- Where the ids of a list laid out anew come from; those of `S` are where they
were. -/
def Known (S : String → Prop) (ids : Nat → String) (drawn drawn' : Nat) (copies : List ShardRouting)
    (c : ShardRouting) : Prop :=
  ∀ i, c.allocationId = some i →
    (∃ x ∈ copies, x.allocationId = some i ∧ (S i → x.node = c.node)) ∨
      ∃ n, drawn ≤ n ∧ n < drawn' ∧ i = ids n

/-- What the co-location pass makes of a shard's list, entry by entry. -/
structure Aligned (S : String → Prop) (ids : Nat → String) (index : String)
    (shard drawn drawn' : Nat) (copies l : List ShardRouting) : Prop where
  later : drawn ≤ drawn'
  fits : ∀ c ∈ l, c.Fits index shard
  known : ∀ c ∈ l, Known S ids drawn drawn' copies c
  distinct : l.Pairwise fun a b => ∀ i, a.allocationId = some i → b.allocationId ≠ some i

theorem Aligned.cons {start : Nat} {c : ShardRouting} {all : List ShardRouting}
    (rest : Aligned S ids index shard start drawn' copies l) (sub : copies ⊆ all)
    (later : drawn ≤ start) (fits : c.Fits index shard) (known : Known S ids drawn drawn' all c)
    (distinct : ∀ i, c.allocationId = some i →
      (∀ x ∈ copies, x.allocationId ≠ some i) ∧ ∀ n, start ≤ n → i ≠ ids n) :
    Aligned S ids index shard drawn drawn' all (c :: l) := by
  refine ⟨later.trans rest.later, List.forall_mem_cons.mpr ⟨fits, rest.fits⟩, ?_, ?_⟩
  · rw [List.forall_mem_cons]
    refine ⟨known, fun x hx i hi => ?_⟩
    rcases rest.known x hx i hi with ⟨y, hy, hyi, same⟩ | ⟨n, hn, hn', rfl⟩
    · exact Or.inl ⟨y, sub hy, hyi, same⟩
    · exact Or.inr ⟨n, later.trans hn, hn', rfl⟩
  · rw [List.pairwise_cons]
    refine ⟨fun x hx i hi hxi => ?_, rest.distinct⟩
    obtain ⟨old, new⟩ := distinct i hi
    rcases rest.known x hx i hxi with ⟨y, hy, hyi, _⟩ | ⟨n, hn, _, heq⟩
    · exact old y hy hyi
    · exact new n hn heq

theorem fits_gained {m : ShardRouting} {shard₀ : Nat} (fits : m.Fits index shard₀) (id : String) :
    (gained index shard m id).Fits index shard := by
  refine ⟨rfl, rfl, fits.node, ?_⟩
  have : (gained index shard m id).allocationId.isSome = m.allocationId.isSome := by
    simp [gained]
  rw [this]
  exact fits.allocationId

theorem fits_follow {m c : ShardRouting} {shard₀ : Nat} (hm : m.Fits index shard₀)
    (hc : c.Fits index shard) (id : String) : (follow m c id).Fits index shard := by
  refine ⟨hc.index_eq, hc.shard_eq, hm.node, ?_⟩
  change (follow m c id).allocationId.isSome = true ↔ m.state ≠ .unassigned
  rw [← hm.node]
  unfold follow
  dsimp only
  cases node : m.node with
  | none => simp
  | some n =>
    have id_some : m.allocationId.isSome = true :=
      hm.allocationId.mpr (hm.node.mp (by rw [node]; rfl))
    cases c.allocationId <;> simp [id_some]

theorem alignCopies_aligned {shard₀ : Nat} (inj : Function.Injective ids)
    (models : ∀ m ∈ first, m.Fits index shard₀) (sited : Sited N ids index shard drawn copies)
    (steady : Steady S first copies) :
    Aligned S ids index shard drawn (alignCopies ids index shard drawn first copies).2 copies
      (alignCopies ids index shard drawn first copies).1 := by
  fun_induction alignCopies ids index shard drawn first copies with
  | case1 => exact ⟨le_rfl, List.forall_mem_nil _, List.forall_mem_nil _, .nil⟩
  | case2 drawn m first c rest ih =>
    rw [List.forall_mem_cons] at models
    have ih := ih models.2 (sited.mono (by split <;> omega)) fun e he => absurd he (by simp)
    have hid : ∀ i, (gained index shard m (ids drawn)).allocationId = some i →
        i = ids drawn ∧ m.allocationId.isSome = true := by
      intro i hi
      cases hm : m.allocationId with
      | none => simp [gained, hm] at hi
      | some x => simpa [gained, hm, eq_comm] using hi
    refine ih.cons (List.Subset.refl _) (by split <;> omega) (fits_gained models.1 (ids drawn)) ?_ ?_
    · intro i hi
      obtain ⟨rfl, drew⟩ := hid i hi
      refine Or.inr ⟨drawn, le_rfl, lt_of_lt_of_le ?_ ih.later, rfl⟩
      rw [if_pos drew]
      exact Nat.lt_succ_self drawn
    · intro i hi
      obtain ⟨rfl, drew⟩ := hid i hi
      refine ⟨List.forall_mem_nil _, fun n hn heq => ?_⟩
      rw [if_pos drew] at hn
      have := inj heq
      omega
  | case3 drawn m first c copies same rest ih =>
    rw [List.forall_mem_cons] at models
    obtain ⟨here, others⟩ := sited_cons.mp sited
    have ih := ih models.2 others fun e he => steady e (List.mem_cons_of_mem _ he)
    refine ih.cons (List.subset_cons_self c copies) le_rfl here.fits ?_ ?_
    · exact fun i hi => Or.inl ⟨c, List.mem_cons_self, hi, fun _ => rfl⟩
    · refine fun i hi => ⟨fun x hx => (here.apart x hx).ids i hi, fun n hn heq => ?_⟩
      exact here.spent n hn (heq ▸ hi)
  | case4 drawn m first c copies other draws rest ih =>
    rw [List.forall_mem_cons] at models
    obtain ⟨here, others⟩ := sited_cons.mp sited
    have ih := ih models.2 (others.mono (by split <;> omega)) fun e he =>
      steady e (List.mem_cons_of_mem _ he)
    have hid : ∀ i, (follow m c (ids drawn)).allocationId = some i →
        (c.allocationId = some i ∧ m.node.isNone = false) ∨ draws = true ∧ i = ids drawn := by
      intro i hi
      unfold follow at hi
      dsimp only at hi
      split at hi
      · exact absurd hi nofun
      · rename_i placed
        split at hi
        · rename_i drew
          exact Or.inr ⟨drew, (Option.some.inj hi).symm⟩
        · exact Or.inl ⟨hi, Bool.eq_false_iff.mpr placed⟩
    refine ih.cons (List.subset_cons_self c copies) (by split <;> omega)
      (fits_follow models.1 here.fits (ids drawn)) ?_ ?_
    · intro i hi
      rcases hid i hi with ⟨hi, placed⟩ | ⟨drew, rfl⟩
      · refine Or.inl ⟨c, List.mem_cons_self, hi, fun asked => ?_⟩
        rcases steady (m, c) (by simp) i hi asked with unplaced | same
        · rw [unplaced] at placed
          exact absurd placed nofun
        · exact same
      · refine Or.inr ⟨drawn, le_rfl, lt_of_lt_of_le ?_ ih.later, rfl⟩
        rw [if_pos drew]
        exact Nat.lt_succ_self drawn
    · intro i hi
      rcases hid i hi with ⟨hi, _⟩ | ⟨drew, rfl⟩
      · refine ⟨fun x hx => (here.apart x hx).ids i hi, fun n hn heq => ?_⟩
        refine here.spent n (le_trans ?_ hn) (heq ▸ hi)
        split <;> omega
      · refine ⟨fun x hx => others.spent x hx drawn le_rfl, fun n hn heq => ?_⟩
        rw [if_pos drew] at hn
        have := inj heq
        omega

theorem Sited.align {shard₀ drawn₀ : Nat} (inj : Function.Injective ids)
    (hfirst : Sited N ids index shard₀ drawn₀ first) (h : Sited N ids index shard drawn copies) :
    Sited N ids index shard (alignCopies ids index shard drawn first copies).2
      (alignCopies ids index shard drawn first copies).1 := by
  have aligned := alignCopies_aligned inj hfirst.fits h (steady_never first copies)
  refine ⟨aligned.fits, fun c hc n hn hid => ?_, ?_⟩
  · rcases aligned.known c hc _ hid with ⟨x, hx, hxi, _⟩ | ⟨k, _, hk, heq⟩
    · exact h.spent x hx n (aligned.later.trans hn) hxi
    · have := inj heq
      omega
  · have nodes := pairwise_beside (Q := fun a b => N → ∀ n, a.node = some n → b.node ≠ some n)
      (alignCopies_seats ids index shard drawn first copies)
      (fun a b a' b' hab hab' apart asked n hn hn' =>
        apart.nodes asked n (hab.node.symm.trans hn) (hab'.node.symm.trans hn')) hfirst.apart
    exact (nodes.and aligned.distinct).imp fun ⟨hn, hi⟩ => ⟨hn, hi⟩

theorem Mirrors.partner {m m' c c' : ShardRouting} (h : Mirrors m c) (h' : Mirrors m' c')
    (hp : Partner m m') : Partner c c' := by
  refine ⟨h.state.trans hp.source, h'.state.trans hp.target, ?_, ?_, ?_, ?_, ?_⟩
  · rw [h.relocating, h'.node, hp.ahead]
  · rw [h'.relocating, h.node, hp.back]
  · rw [h.node]
    exact hp.placed
  · rw [h'.node]
    exact hp.awaited
  · rw [h'.role, h.role, hp.role]

/-- **Laid out anew, a shard is as the first one is**, if what was left alone agreed
with it. -/
theorem Sound.align {shard₀ drawn₀ : Nat} (inj : Function.Injective ids)
    (hfirst : Sound ids index shard₀ drawn₀ r first) (h : Sited True ids index shard drawn copies)
    (agrees : Agrees first copies) :
    Sound ids index shard (alignCopies ids index shard drawn first copies).2 r
      (alignCopies ids index shard drawn first copies).1 := by
  have mirrors := alignCopies_mirrors ids index shard drawn agrees
  have target : ∀ m c, Mirrors m c → c.isTarget = m.isTarget := fun m c hm => by
    unfold isTarget
    rw [hm.state, hm.relocating]
  refine ⟨Sited.align inj hfirst.toSited h, fun c hc => ?_, ?_, ?_⟩
  · obtain ⟨m, hm, same⟩ := beside_right mirrors hc
    rcases hfirst.paired m hm with hs | ⟨t, ht, hp⟩ | ⟨s, hs, hp⟩
    · exact Or.inl ⟨same.relocating.trans hs.still, same.state ▸ hs.state⟩
    · obtain ⟨c', hc', same'⟩ := beside_left mirrors ht
      exact Or.inr (Or.inl ⟨c', hc', same.partner same' hp⟩)
    · obtain ⟨c', hc', same'⟩ := beside_left mirrors hs
      exact Or.inr (Or.inr ⟨c', hc', same'.partner same hp⟩)
  · refine (countP_beside mirrors fun m c hm => ?_).trans hfirst.heads
    unfold isHead
    rw [hm.role, target m c hm]
  · exact (countP_beside mirrors fun m c hm => by rw [target m c hm]).trans hfirst.seats

end Align

end Velosearch.Cluster.Allocation
