import Velosearch.Search.Collect
import Velosearch.Search.SortOrder
import Mathlib.Data.List.Flatten

/-!
# The candidates are the best documents

A document is given up in three places: by the cutoff on its first value, when a buffer is
pruned, and when the segments are merged. Each time enough documents that are no worse are
kept, under the order the pruning goes by. That is the order of the page but for a missing value
of a key that puts those first; and the cutoff goes by it too, unless it is read from a document
without a value for a first key that runs down.
-/

set_option autoImplicit false

namespace Velosearch.Search

open Velosearch.Lib

namespace SortCollector

variable {n : ℕ} {p : Selection (Cand n)} {c : SortCollector} {s : Set (Cand n)}

theorem pruneBy_spec (orders : OrdersOn c.cmp s) (some_ : 0 < c.limit) (buf : List (Cand n))
    (inside : ∀ d ∈ buf, d ∈ s) :
    ∃ rest, buf.Perm (c.pruneBy p buf ++ rest) ∧
      (buf.length ≤ c.limit ∧ c.pruneBy p buf = buf ∧ rest = [] ∨
        (c.pruneBy p buf).length = c.limit ∧
          ∀ a ∈ c.pruneBy p buf, ∀ r ∈ rest, (c.cmp a r).isLE = true) := by
  rw [pruneBy]
  by_cases few : c.limit = 0 ∨ buf.length ≤ c.limit
  · rw [if_pos few]
    have few : buf.length ≤ c.limit := few.resolve_left (by omega)
    exact ⟨[], by rw [List.append_nil], .inl ⟨few, rfl, rfl⟩⟩
  · rw [if_neg few]
    rw [not_or, Nat.not_le] at few
    obtain ⟨perm, size, le⟩ := p.take_spec (orders.mono inside) some_ few.2.le
    exact ⟨_, perm, .inr ⟨size, le⟩⟩

/-- **A pruning** covers what was covered before it, and what it gives up. -/
theorem pruneBy_covers (orders : OrdersOn c.cmp s) (some_ : 0 < c.limit) {l buf dropped : List (Cand n)}
    (inside : ∀ d ∈ l, d ∈ s) (perm : l.Perm (buf ++ dropped))
    (covers : Covers c.cmp c.limit buf dropped) :
    ∃ dropped', l.Perm (c.pruneBy p buf ++ dropped') ∧
      Covers c.cmp c.limit (c.pruneBy p buf) dropped' ∧
      (c.pruneBy p buf).length = min c.limit buf.length := by
  have held : ∀ d ∈ buf, d ∈ s := fun d mem =>
    inside d (perm.mem_iff.mpr (List.mem_append_left _ mem))
  have gone : ∀ d ∈ dropped, d ∈ s := fun d mem =>
    inside d (perm.mem_iff.mpr (List.mem_append_right _ mem))
  obtain ⟨rest, cut, cases_⟩ := pruneBy_spec (p := p) orders some_ buf held
  refine ⟨rest ++ dropped, ?_, ?_, ?_⟩
  · rw [← List.append_assoc]
    exact perm.trans (cut.append_right dropped)
  · rcases cases_ with ⟨-, same, none⟩ | ⟨size, le⟩
    · rw [same, none]
      exact covers
    · exact covers.cut orders held gone cut size le
  · rcases cases_ with ⟨few, same, -⟩ | ⟨size, -⟩
    · rw [same]
      omega
    · have total := cut.length_eq
      rw [List.length_append] at total
      omega

/-! ## One document after another -/

/-- The documents of a segment that are ahead, in the order they come by; the cutoff is read from
one that is `good`, and turns none away that is better. -/
structure Clears (c : SortCollector) (good : Cand n → Bool) (all : List (Cand n)) : Prop where
  fair : ∀ w ∈ all, good w = true → ∀ d ∈ all.drop c.most,
    cmpPlain (c.desc.headD false) (d.sort.headD .missing) (w.sort.headD .missing) = .gt →
      (c.cmp w d).isLE = true
  enough : c.most ≤ all.length → c.limit ≤ (all.take c.most).countP good
  before : ∀ a ∈ all, ∀ b ∈ all, good a = true → good b = false → (c.cmp b a).isLE = false

/-- Of the documents so far, those held and those given up; and a document that the cutoff was
read from and that is covered. -/
structure Holding (c : SortCollector) (good : Cand n → Bool) (seen : List (Cand n))
    (x : SegmentCollector n) : Prop where
  covered : ∃ dropped, seen.Perm (x.buf ++ dropped) ∧ Covers c.cmp c.limit x.buf dropped
  bar : ∀ cut, x.cutoff = some cut → c.most ≤ seen.length ∧ c.limit ≤ x.buf.countP good ∧
    ∃ w ∈ seen, good w = true ∧ w.sort.headD .missing = cut ∧ Covers c.cmp c.limit x.buf [w]
  start : x.cutoff = none → x.buf = seen ∧ seen.length < c.most

variable {good : Cand n → Bool} {all seen rest : List (Cand n)} {x : SegmentCollector n} {d : Cand n}

theorem Holding.empty (c : SortCollector) (good : Cand n → Bool) : Holding c good [] {} where
  covered := ⟨[], List.Perm.refl _, Covers.nil⟩
  bar := fun _ eq => nomatch eq
  start := fun _ => ⟨rfl, by rw [most, List.length_nil]; omega⟩

theorem Holding.turnAway (orders : OrdersOn c.cmp {d | d ∈ all}) (clears : Clears c good all)
    (h : Holding c good seen x) (split : all = seen ++ d :: rest)
    (beyond : c.beyond x.cutoff d = true) : Holding c good (seen ++ [d]) x := by
  rw [SortCollector.beyond] at beyond
  cases bar : x.cutoff with
  | none => rw [bar] at beyond; exact nomatch beyond
  | some cut =>
    rw [bar, Option.any_some, beq_iff_eq] at beyond
    obtain ⟨dropped, perm, covers⟩ := h.covered
    obtain ⟨late, rich, w, hw, is_good, rfl, covered⟩ := h.bar cut bar
    have inside : ∀ a ∈ seen, a ∈ all := fun a mem => split ▸ List.mem_append_left _ mem
    have hd : d ∈ all := split ▸ List.mem_append_right _ List.mem_cons_self
    have later : d ∈ all.drop c.most := by
      rw [split, List.drop_append_of_le_length late]
      exact List.mem_append_right _ List.mem_cons_self
    refine ⟨⟨dropped ++ [d], ?_, covers.append ?_⟩, fun cut' bar' => ?_, fun none => ?_⟩
    · rw [← List.append_assoc]
      exact perm.append_right [d]
    · exact covered.of_le orders
        (fun a ha => inside a (perm.mem_iff.mpr (List.mem_append_left _ ha))) (inside w hw) hd
        (clears.fair w (inside w hw) is_good d later beyond)
    · rw [bar] at bar'
      refine ⟨?_, rich, w, List.mem_append_left _ hw, is_good, Option.some.inj bar', covered⟩
      rw [List.length_append]
      omega
    · rw [bar] at none
      cases none

theorem pruneBy_good (orders : OrdersOn c.cmp s) (some_ : 0 < c.limit) {buf : List (Cand n)}
    (inside : ∀ d ∈ buf, d ∈ s) (rich : c.limit ≤ buf.countP good)
    (before : ∀ a ∈ buf, ∀ b ∈ buf, good a = true → good b = false → (c.cmp b a).isLE = false) :
    ∀ w ∈ c.pruneBy p buf, good w = true := by
  intro w hw
  obtain ⟨rest, cut, ⟨few, same, -⟩ | ⟨size, le⟩⟩ := pruneBy_spec (p := p) orders some_ buf inside
  · rw [same] at hw
    exact List.countP_eq_length.mp (le_antisymm List.countP_le_length (few.trans rich)) w hw
  · by_contra poor
    have poor : good w = false := Bool.not_eq_true _ ▸ poor
    have hwb : w ∈ buf := cut.mem_iff.mpr (List.mem_append_left _ hw)
    -- a good document would be before it, so none is given up
    have none : rest.countP good = 0 := by
      refine List.countP_eq_zero.mpr fun r hr is_good => ?_
      have behind := before r (cut.mem_iff.mpr (List.mem_append_right _ hr)) w hwb is_good poor
      rw [le w hw r hr] at behind
      cases behind
    rw [cut.countP_eq, List.countP_append, none, Nat.add_zero, ← size] at rich
    have own := List.countP_eq_length.mp (le_antisymm List.countP_le_length rich) w hw
    rw [poor] at own
    cases own

theorem prune_eq (orders : OrdersOn c.cmp s) (some_ : 0 < c.limit)
    (inside : ∀ a ∈ c.pruneBy p x.buf, a ∈ s) (full : c.limit ≤ (c.pruneBy p x.buf).length) :
    ∃ w ∈ c.pruneBy p x.buf, (∀ a ∈ c.pruneBy p x.buf, (c.cmp a w).isLE = true) ∧
      c.prune p x =
        { buf := c.pruneBy p x.buf, cutoff := some (w.sort.headD .missing) } := by
  rw [SortCollector.prune]
  cases buf : c.pruneBy p x.buf with
  | nil =>
    rw [buf, List.length_nil] at full
    omega
  | cons first rest =>
    rw [buf] at full inside
    dsimp only
    rw [if_pos full]
    exact ⟨maxBy c.cmp first rest, maxBy_mem .., le_maxBy orders first rest inside, rfl⟩

theorem Holding.push (orders : OrdersOn c.cmp {d | d ∈ all}) (some_ : 0 < c.limit)
    (clears : Clears c good all) (h : Holding c good seen x) (split : all = seen ++ d :: rest) :
    Holding c good (seen ++ [d]) (c.push p x d) := by
  obtain ⟨dropped, perm, covers⟩ := h.covered
  have inside : ∀ a ∈ seen ++ [d], a ∈ all := fun a mem => by
    rw [split, List.append_cons]
    exact List.mem_append_left _ mem
  have grows : x.buf.Sublist (x.buf ++ [d]) := List.sublist_append_left ..
  have grown : (seen ++ [d]).Perm ((x.buf ++ [d]) ++ dropped) := by
    refine (perm.append_right [d]).trans ?_
    rw [List.append_assoc, List.append_assoc]
    exact List.perm_append_comm.append_left x.buf
  rw [SortCollector.push]
  split
  case isFalse short =>
    refine ⟨⟨dropped, grown, covers.subperm grows.subperm⟩, fun cut bar => ?_, fun none => ?_⟩
    · obtain ⟨late, rich, w, hw, is_good, first, covered⟩ := h.bar cut bar
      refine ⟨?_, rich.trans grows.countP_le, w, List.mem_append_left _ hw, is_good, first,
        covered.subperm grows.subperm⟩
      rw [List.length_append]
      omega
    · have same : x.buf ++ [d] = seen ++ [d] := by rw [(h.start none).1]
      refine ⟨same, ?_⟩
      rw [← same]
      exact Nat.lt_of_not_le fun full => short ⟨some_, full⟩
  case isTrue full =>
    -- the first pruning comes once as many documents are held as set it off
    have rich : c.most ≤ (seen ++ [d]).length ∧ c.limit ≤ (x.buf ++ [d]).countP good := by
      cases bar : x.cutoff with
      | some cut =>
        obtain ⟨late, rich, -⟩ := h.bar cut bar
        refine ⟨?_, rich.trans grows.countP_le⟩
        rw [List.length_append]
        omega
      | none =>
        obtain ⟨same, short⟩ := h.start bar
        have most : (seen ++ [d]).length = c.most := by
          have full : c.most ≤ (x.buf ++ [d]).length := full.2
          rw [same] at full
          rw [List.length_append, List.length_singleton] at full ⊢
          omega
        have taken : all.take c.most = seen ++ [d] := by
          rw [split, List.append_cons, ← most, List.take_left]
        have enough := clears.enough (by
          rw [split, List.append_cons, List.length_append, most]
          exact Nat.le_add_right _ _)
        rw [taken] at enough
        rw [same]
        exact ⟨most.ge, enough⟩
    have held : ∀ a ∈ x.buf ++ [d], a ∈ all := fun a mem =>
      inside a (grown.mem_iff.mpr (List.mem_append_left _ mem))
    obtain ⟨dropped', perm', covers', size⟩ := pruneBy_covers (p := p) orders some_ inside grown
      (covers.subperm grows.subperm)
    have kept : ∀ a ∈ c.pruneBy p (x.buf ++ [d]), a ∈ seen ++ [d] := fun a ha =>
      perm'.mem_iff.mpr (List.mem_append_left _ ha)
    have longer : c.limit ≤ (x.buf ++ [d]).length := rich.2.trans List.countP_le_length
    obtain ⟨w, hw, above, eq⟩ := prune_eq (p := p) (x := { x with buf := x.buf ++ [d] }) orders some_
      (fun a ha => inside a (kept a ha)) (by dsimp only; omega)
    have all_good := pruneBy_good (p := p) orders some_ held rich.2 fun a ha b hb =>
      clears.before a (held a ha) b (held b hb)
    rw [eq]
    refine ⟨⟨dropped', perm', covers'⟩, fun cut bar => ⟨rich.1, ?_, w, kept w hw, all_good w hw,
      Option.some.inj bar, ?_⟩, nofun⟩
    · rw [List.countP_eq_length.mpr all_good]
      omega
    · refine covers_of_le (by dsimp only; omega) fun a ha d' mem => ?_
      rw [List.mem_singleton.mp mem]
      exact above a ha

/-! ## A segment -/

/-- The item is one the request asks for. -/
def passes (c : SortCollector) (block : Bool) (d : Cand n) : Bool :=
  !(if block then c.blockBehind d else c.behind d)

theorem collect_eq (block : Bool) (x : SegmentCollector n) (d : Cand n) :
    (if block then c.collectBlock p else c.collect p) x d =
      if c.passes block d = true then (if c.beyond x.cutoff d then x else c.push p x d) else x := by
  rw [passes]
  cases block with
  | false =>
    rw [if_neg Bool.false_ne_true, if_neg Bool.false_ne_true, collect]
    cases c.behind d <;> cases c.beyond x.cutoff d <;> rfl
  | true =>
    rw [if_pos rfl, if_pos rfl, collectBlock]
    cases c.blockBehind d <;> rfl

/-- The documents that are not ahead might not be there. -/
theorem fold_eq (seg : Segment n) (x : SegmentCollector n) :
    seg.docs.foldl (if seg.block then c.collectBlock p else c.collect p) x =
      (c.ahead seg).foldl (fun x d => if c.beyond x.cutoff d then x else c.push p x d) x := by
  have step : (if seg.block then c.collectBlock p else c.collect p) = fun x d =>
      if c.passes seg.block d = true then (if c.beyond x.cutoff d then x else c.push p x d) else x :=
    funext₂ fun x d => collect_eq seg.block x d
  rw [step, ahead, List.foldl_filter]
  rfl

theorem Holding.fold (orders : OrdersOn c.cmp {d | d ∈ all}) (some_ : 0 < c.limit)
    (clears : Clears c good all) (docs : List (Cand n)) (split : all = seen ++ docs)
    (h : Holding c good seen x) :
    Holding c good all
      (docs.foldl (fun x d => if c.beyond x.cutoff d then x else c.push p x d) x) := by
  induction docs generalizing seen x with
  | nil =>
    rw [split, List.append_nil]
    exact h
  | cons d docs ih =>
    rw [List.foldl_cons]
    refine @ih (seen ++ [d]) _ (by rw [split, List.append_cons]) ?_
    split
    case isTrue beyond => exact h.turnAway orders clears split beyond
    case isFalse => exact h.push orders some_ clears split

theorem fold_few (docs buf : List (Cand n)) (few : buf.length + docs.length < c.most) :
    docs.foldl (fun x d => if c.beyond x.cutoff d then x else c.push p x d) { buf } =
      { buf := buf ++ docs } := by
  induction docs generalizing buf with
  | nil => rw [List.append_nil, List.foldl_nil]
  | cons d docs ih =>
    rw [List.length_cons] at few
    have pushed : c.push p { buf } d = { buf := buf ++ [d] } := by
      rw [SortCollector.push, if_neg]
      rintro ⟨-, full⟩
      have longer : c.most ≤ (buf ++ [d]).length := full
      rw [List.length_append, List.length_singleton] at longer
      omega
    have under : c.beyond (none : Option SortValue) d = false := rfl
    rw [List.foldl_cons, under, if_neg Bool.false_ne_true, pushed, List.append_cons buf d docs]
    refine ih (buf ++ [d]) ?_
    rw [List.length_append, List.length_singleton]
    omega

theorem collectSegment_covers (orders : OrdersOn c.cmp s) (some_ : 0 < c.limit) (seg : Segment n)
    (inside : ∀ d ∈ c.ahead seg, d ∈ s) (clears : ∃ good, Clears c good (c.ahead seg)) :
    ∃ dropped, (c.ahead seg).Perm (c.collectSegment p seg ++ dropped) ∧
      Covers c.cmp c.limit (c.collectSegment p seg) dropped := by
  obtain ⟨good, clears⟩ := clears
  have run := (Holding.empty c good).fold (p := p) (orders.mono inside) some_ clears
    (c.ahead seg) rfl
  obtain ⟨dropped, perm, covers⟩ := run.covered
  rw [← fold_eq] at perm covers
  obtain ⟨dropped', perm', covers', -⟩ := pruneBy_covers (p := p) orders some_ inside perm covers
  exact ⟨dropped', perm', covers'⟩

/-- **What the segments kept** covers what they gave up. -/
theorem collected_covers (orders : OrdersOn c.cmp s) (some_ : 0 < c.limit)
    (segments : List (Segment n)) (inside : ∀ seg ∈ segments, ∀ d ∈ c.ahead seg, d ∈ s)
    (clears : ∀ seg ∈ segments, ∃ good, Clears c good (c.ahead seg)) :
    ∃ dropped, (segments.flatMap c.ahead).Perm
        ((segments.map (c.collectSegment p)).flatten ++ dropped) ∧
      Covers c.cmp c.limit (segments.map (c.collectSegment p)).flatten dropped := by
  induction segments with
  | nil => exact ⟨[], List.Perm.refl _, Covers.nil⟩
  | cons seg rest ih =>
    obtain ⟨gone, perm, covers⟩ := collectSegment_covers (p := p) orders some_ seg
      (inside seg (List.mem_cons_self ..)) (clears seg (List.mem_cons_self ..))
    obtain ⟨dropped, perm', covers'⟩ := ih
      (fun seg mem => inside seg (List.mem_cons_of_mem _ mem))
      fun seg mem => clears seg (List.mem_cons_of_mem _ mem)
    rw [List.flatMap_cons, List.map_cons, List.flatten_cons]
    exact ⟨gone ++ dropped, Covers.both perm covers perm' covers'⟩

/-- **The candidates of a shard** are its best documents, by the order of the pruning. -/
theorem collectShard_isTopK (orders : OrdersOn c.cmp s) (some_ : 0 < c.limit)
    (segments : List (Segment n)) (inside : ∀ d ∈ segments.flatMap c.ahead, d ∈ s)
    (clears : ∀ seg ∈ segments, ∃ good, Clears c good (c.ahead seg)) :
    IsTopK c.cmp c.limit (segments.flatMap c.ahead) (c.collectShard p segments) := by
  obtain ⟨dropped, perm, covers⟩ := collected_covers (p := p) orders some_ segments
    (fun seg mem d hd => inside d (List.mem_flatMap.mpr ⟨seg, mem, hd⟩)) clears
  obtain ⟨dropped', perm', covers', size⟩ := pruneBy_covers (p := p) orders some_ inside perm covers
  refine covers'.isTopK perm' ?_
  rw [size]
  exact min_le_left ..

end SortCollector

/-! ## The order of the page -/

/-- `cmp_sorted` of a search, which the prunings go by. -/
def sortedBy (keys : List SortKey) (a b : Cand keys.length) : Ordering :=
  cmpSorted (keys.map SortKey.desc) a.sort b.sort

/-- Where `a` is behind `b` on the page, a pruning to `want` documents does not keep `a` and give
up `b`: `b` is before it, or `want` others are, or there is room for both. -/
def Placed (keys : List SortKey) (want : ℕ) (docs : List (Cand keys.length)) : Prop :=
  ∀ a ∈ docs, ∀ b ∈ docs, cmpKeys keys a.sort b.sort = .gt → (sortedBy keys a b).isLE = true →
    (docs.countP fun x => sortedBy keys x a == .lt) < want →
      (docs.countP fun x => (sortedBy keys x b).isLE) ≤ want

/-- The documents of a segment, in the order they come by: where the first key runs down, as many
of those before the first pruning as are wanted have a value for it, or none of those after. -/
def Cleared (keys : List SortKey) (want : ℕ) (docs : List (Cand keys.length)) : Prop :=
  (keys.head?.any SortKey.desc) = false ∨
    (∀ d ∈ docs.drop (max (want * 4) 512), d.sort.head? = some .missing) ∨
    want ≤ (docs.take (max (want * 4) 512)).countP fun d => d.sort.head? != some .missing

/-- The condition on the documents of a shard, segment by segment. -/
structure Tame (keys : List SortKey) (want : ℕ) (segments : List (List (Cand keys.length))) :
    Prop where
  ordered : OrdersOn (sortedBy keys) {d | d ∈ segments.flatten}
  placed : Placed keys want segments.flatten
  bar : ∀ docs ∈ segments, Cleared keys want docs

theorem isMissing_iff (v : SortValue) : v.isMissing = true ↔ v = .missing := by
  cases v <;> simp [SortValue.isMissing]

theorem ordersOn_cmpWithMissing {s : Set SortValue} (key : SortKey)
    (h : OrdersOn SortValue.cmpAsc {v | v ≠ .missing ∧ v ∈ s}) :
    OrdersOn (cmpWithMissing key) s := by
  have within : ∀ v ∈ s, v.isMissing = false → v ∈ {v | v ≠ SortValue.missing ∧ v ∈ s} := by
    intro v hv not
    refine ⟨fun eq => ?_, hv⟩
    rw [eq] at not
    exact nomatch not
  constructor
  · intro a ha b hb
    unfold cmpWithMissing
    cases ma : a.isMissing <;> cases mb : b.isMissing
    · dsimp only
      rw [h.swap a (within a ha ma) b (within b hb mb)]
      split <;> rfl
    · cases key.missingLast <;> rfl
    · rfl
    · rfl
  · intro a ha b hb c hc
    unfold cmpWithMissing
    cases ma : a.isMissing <;> cases mb : b.isMissing <;> cases mc : c.isMissing <;>
      cases key.missingLast <;> simp
    all_goals
      have as := within a ha ma
      have bs := within b hb mb
      have cs := within c hc mc
      cases key.desc with
      | false => simpa using h.trans a as b bs c cs
      | true =>
        simp only [if_true]
        rw [← h.swap a as b bs, ← h.swap b bs c cs, ← h.swap a as c cs]
        exact fun ab bc => h.trans c cs b bs a as bc ab

theorem ordersOn_cmpDir {s : Set SortValue} (desc : Bool)
    (h : OrdersOn SortValue.cmpAsc {v | v ≠ .missing ∧ v ∈ s}) : OrdersOn (cmpDir desc) s := by
  refine (ordersOn_cmpWithMissing { desc } h).congr fun a _ b _ => ?_
  unfold cmpDir cmpWithMissing
  cases a.isMissing <;> cases b.isMissing <;> rfl

section Page

variable {keys : List SortKey} {want : ℕ} {after : Option (List SortValue)}
  {segments : List (Segment keys.length)}

theorem ordersOn_sortedBy {s : Set (Cand keys.length)}
    (h : ∀ (i : ℕ) key, keys[i]? = some key →
      OrdersOn SortValue.cmpAsc {v | v ≠ .missing ∧ ∃ d ∈ s, d.sort[i]? = some v}) :
    OrdersOn (sortedBy keys) s := by
  have lists : OrdersOn (lexCmp ((keys.map SortKey.desc).map cmpDir)) {l | ∃ d ∈ s, d.sort = l} := by
    refine ordersOn_lexCmp _ _ ?_ ?_
    · rintro l ⟨d, -, rfl⟩
      rw [d.sized, List.length_map, List.length_map]
    · intro i c place
      rw [List.map_map, List.getElem?_map, Option.map_eq_some_iff] at place
      obtain ⟨key, at_, rfl⟩ := place
      refine ordersOn_cmpDir key.desc ((h i key at_).mono ?_)
      rintro v ⟨present, l, ⟨d, mem, rfl⟩, at_⟩
      exact ⟨present, d, mem, at_⟩
  exact (lists.comap (f := Cand.sort)).mono fun d mem => ⟨d, mem, rfl⟩

theorem placed_of_last (last : ∀ key ∈ keys, key.missingLast = true) (want : ℕ)
    (docs : List (Cand keys.length)) : Placed keys want docs := by
  intro a _ b _ gt le
  have same : (keys.map SortKey.desc).map cmpDir = keys.map cmpWithMissing := by
    rw [List.map_map]
    refine List.map_congr_left fun key hkey => funext₂ fun x y => ?_
    unfold cmpWithMissing
    rw [last key hkey, Function.comp_apply, cmpDir]
    cases x.isMissing <;> cases y.isMissing <;> rfl
  rw [sortedBy, cmpSorted, same] at le
  rw [cmpKeys] at gt
  rw [gt] at le
  cases le

theorem cleared_of_short {docs : List (Cand keys.length)}
    (short : docs.length ≤ max (want * 4) 512) : Cleared keys want docs := by
  refine .inr (.inl fun d hd => ?_)
  rw [List.drop_eq_nil_of_le short] at hd
  cases hd

theorem cmpSorted_of_first {desc : List Bool} {w d : List SortValue}
    (hw : w.length = desc.length) (hd : d.length = desc.length)
    (beyond : cmpPlain (desc.headD false) (d.headD .missing) (w.headD .missing) = .gt)
    (first : ∀ x y, w.head? = some x → d.head? = some y →
      cmpPlain (desc.headD false) y x = .gt → cmpDir (desc.headD false) x y = .lt) :
    (cmpSorted desc w d).isLE = true := by
  cases desc with
  | nil => rfl
  | cons down desc =>
    obtain ⟨x, w, rfl⟩ := List.exists_cons_of_length_eq_add_one hw
    obtain ⟨y, d, rfl⟩ := List.exists_cons_of_length_eq_add_one hd
    have less := first x y rfl rfl beyond
    rw [List.headD_cons] at less
    rw [cmpSorted, List.map_cons, lexCmp, less]
    rfl

theorem cmpDir_of_cmpPlain {desc : Bool} {x y : SortValue}
    (bar : desc = false ∨ x.isMissing = false ∧ y.isMissing = false)
    (gt : cmpPlain desc y x = .gt) : cmpDir desc x y = .lt := by
  rw [cmpPlain] at gt
  unfold cmpDir
  cases mx : x.isMissing with
  | true =>
    obtain rfl := bar.resolve_right fun both => nomatch mx.symm.trans both.1
    rw [(isMissing_iff x).mp mx] at gt
    cases y <;> exact nomatch gt
  | false =>
    cases my : y.isMissing with
    | true => rfl
    | false =>
      dsimp only
      rw [SortValue.cmpAsc_swap y x]
      cases desc with
      | false =>
        rw [if_neg Bool.false_ne_true] at gt ⊢
        rw [gt]
        rfl
      | true =>
        rw [if_pos rfl] at gt ⊢
        rw [gt]
        rfl

theorem Cleared.clears (some_ : 0 < want) {docs : List (Cand keys.length)}
    (h : Cleared keys want docs) :
    ∃ good, SortCollector.Clears (SortCollector.ofKeys keys want after) good docs := by
  have limit : (SortCollector.ofKeys keys want after).limit = want := max_eq_left some_
  have most : (SortCollector.ofKeys keys want after).most = max (want * 4) 512 := by
    rw [SortCollector.most, limit]
  have any_do : max (want * 4) 512 ≤ docs.length →
      want ≤ (docs.take (max (want * 4) 512)).countP fun _ => true := by
    intro long
    rw [List.countP_true, List.length_take]
    omega
  have le : ∀ w d : Cand keys.length,
      cmpPlain ((keys.map SortKey.desc).headD false) (d.sort.headD .missing)
        (w.sort.headD .missing) = .gt →
      (∀ x y, w.sort.head? = some x → d.sort.head? = some y →
        cmpPlain ((keys.map SortKey.desc).headD false) y x = .gt →
          cmpDir ((keys.map SortKey.desc).headD false) x y = .lt) →
      ((SortCollector.ofKeys keys want after).cmp w d).isLE = true := fun w d =>
    cmpSorted_of_first (by rw [w.sized, List.length_map]) (by rw [d.sized, List.length_map])
  cases keys with
  | nil =>
    refine ⟨fun _ => true, fun w _ _ d _ beyond => le w d beyond fun x y _ _ gt =>
      cmpDir_of_cmpPlain (.inl rfl) gt, ?_, nofun⟩
    rw [most, limit]
    exact any_do
  | cons key keys =>
    have shape : ∀ d : Cand (key :: keys).length, ∃ x l, d.sort = x :: l := fun d =>
      List.exists_cons_of_length_eq_add_one d.sized
    -- running down, a document without a value is not beyond any bar
    have under : key.desc = true → ∀ y : SortValue, cmpPlain key.desc .missing y ≠ .gt := by
      intro down y gt
      rw [cmpPlain, down, if_pos rfl] at gt
      cases y <;> cases gt
    rcases Bool.eq_false_or_eq_true key.desc with down | up
    · rcases h with up | bare | rich
      · rw [List.head?_cons, Option.any_some, down] at up
        cases up
      · refine ⟨fun _ => true, fun w _ _ d hd beyond => ?_, ?_, nofun⟩
        · rw [most] at hd
          obtain ⟨x, l, eq⟩ := shape d
          have first := bare d hd
          rw [eq, List.head?_cons] at first
          cases first
          rw [eq] at beyond
          exact absurd beyond (under down _)
        · rw [most, limit]
          exact any_do
      · refine ⟨fun d => d.sort.head? != some .missing, fun w _ is_good d _ beyond =>
          le w d beyond fun x y hx hy gt => cmpDir_of_cmpPlain (.inr ⟨?_, ?_⟩) gt, ?_, ?_⟩
        · cases missing : x.isMissing with
          | false => rfl
          | true =>
            rw [hx, (isMissing_iff x).mp missing] at is_good
            cases is_good
        · cases missing : y.isMissing with
          | false => rfl
          | true =>
            rw [(isMissing_iff y).mp missing] at gt
            exact absurd gt (under down x)
        · rw [most, limit]
          exact fun _ => rich
        · intro a _ b _ is_good poor
          obtain ⟨x, l, ha⟩ := shape a
          obtain ⟨y, l', hb⟩ := shape b
          rw [hb, List.head?_cons, bne_eq_false_iff_eq] at poor
          cases poor
          rw [ha, List.head?_cons] at is_good
          show (cmpSorted (key.desc :: keys.map SortKey.desc) b.sort a.sort).isLE = false
          rw [ha, hb, cmpSorted, List.map_cons, lexCmp]
          cases x <;> first | rfl | cases is_good
    · refine ⟨fun _ => true, fun w _ _ d _ beyond => le w d beyond fun x y _ _ gt =>
        cmpDir_of_cmpPlain (.inl up) gt, ?_, nofun⟩
      rw [most, limit]
      exact any_do

theorem collectShard_few (sel : Selection (Cand keys.length)) (some_ : 0 < want)
    (few : (segments.flatMap (SortCollector.ofKeys keys want after).ahead).length ≤ want) :
    (SortCollector.ofKeys keys want after).collectShard sel segments =
      segments.flatMap (SortCollector.ofKeys keys want after).ahead := by
  obtain ⟨c, hc⟩ : ∃ c, c = SortCollector.ofKeys keys want after := ⟨_, rfl⟩
  have limit : c.limit = want := by
    rw [hc, SortCollector.ofKeys]
    exact max_eq_left some_
  rw [← hc] at few ⊢
  have uncut : ∀ l : List (Cand keys.length), l.length ≤ want → c.pruneBy sel l = l := by
    intro l short
    rw [SortCollector.pruneBy, limit, if_pos (.inr short)]
  have each : ∀ seg ∈ segments, c.collectSegment sel seg = c.ahead seg := by
    intro seg mem
    have size : (c.ahead seg).length ≤ want := by
      refine le_trans ?_ few
      rw [List.flatMap_def]
      exact (List.sublist_flatten_of_mem (List.mem_map_of_mem mem)).length_le
    have below : (c.ahead seg).length < c.most := by
      rw [SortCollector.most, limit]
      omega
    rw [SortCollector.collectSegment, SortCollector.fold_eq,
      SortCollector.fold_few _ [] (by simpa using below)]
    exact uncut _ size
  rw [SortCollector.collectShard, List.map_congr_left each, ← List.flatMap_def]
  exact uncut _ few

end Page

theorem collectShard_topK {keys : List SortKey} {want : ℕ} (sel : Selection (Cand keys.length))
    (some_ : 0 < want) (after : Option (List SortValue)) {segments : List (Segment keys.length)}
    (tame : (segments.flatMap (SortCollector.ofKeys keys want after).ahead).length ≤ want ∨
      Tame keys want (segments.map (SortCollector.ofKeys keys want after).ahead)) :
    IsTopK (fun a b => cmpKeys keys a.sort b.sort) want
      (segments.flatMap (SortCollector.ofKeys keys want after).ahead)
      ((SortCollector.ofKeys keys want after).collectShard sel segments) := by
  have limit : (SortCollector.ofKeys keys want after).limit = want := max_eq_left some_
  rcases tame with few | tame
  · rw [collectShard_few sel some_ few]
    exact ⟨[], by rw [List.append_nil], by omega, fun _ _ _ mem => nomatch mem⟩
  · obtain ⟨ordered, placed, bar⟩ := tame
    rw [← List.flatMap_def] at ordered placed
    have best := SortCollector.collectShard_isTopK (p := sel)
      (c := SortCollector.ofKeys keys want after) ordered (by rw [limit]; exact some_) segments
      (fun d mem => mem) fun seg mem => (bar _ (List.mem_map_of_mem mem)).clears some_
    rw [limit] at best
    exact best.transfer ordered placed

theorem ordersOn_i64 : OrdersOn SortValue.cmpAsc {v | ∃ n, v = .i64 n} where
  swap := by
    rintro - ⟨n, rfl⟩ - ⟨m, rfl⟩
    exact (ordersOn_compare (Set.univ : Set ℤ)).swap n trivial m trivial
  trans := by
    rintro - ⟨n, rfl⟩ - ⟨m, rfl⟩ - ⟨k, rfl⟩
    exact (ordersOn_compare (Set.univ : Set ℤ)).trans n trivial m trivial k trivial

def oneValue (docId : ℕ) (v : SortValue) : Cand 1 :=
  { docId, sort := [v], sized := rfl }

def Segment.plain {n : ℕ} (docs : List (Cand n)) : Segment n :=
  { docs, block := false, full := nofun }

def threeNumbers : List (Segment 1) :=
  [.plain [oneValue 0 (.i64 3), oneValue 1 (.i64 1)], .plain [oneValue 0 (.i64 2)]]

end Velosearch.Search
