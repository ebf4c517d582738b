import Mathlib.Data.List.Perm.Subperm
import Mathlib.Logic.Function.Iterate
import Velosearch.Ism.Transform

/-!
# What a continuous transform catches

While every step is fit, the documents up to the checkpoints are ones a search sees, and each of
their groups stands in the target with all of them, or waits in the pages of the run. So a run
that no write disturbs leaves every group complete.
-/

set_option autoImplicit false
set_option linter.unusedSectionVars false

namespace Velosearch.Transform

variable {I D G K N O : Type}
variable [DecidableEq I] [LinearOrder G] [DecidableEq K] [DecidableEq N]
variable {t : Job I D G K N O} {s s' : State I D G K N O} {r : Run I D G K}
variable {P P' Q : Entry I D → Prop} {g : G} {e : Entry I D} {es : List (Entry I D)}
variable {b b' : Bucket I D G} {bs done rest ws : List (Bucket I D G)} {w : Walk I D G}

/-! ## Pages, keys and buckets -/

theorem chunks_flatten (page : ℕ) :
    ∀ (fuel : ℕ) (keys : List K), keys.length ≤ fuel → (chunks page fuel keys).flatten = keys := by
  intro fuel
  induction fuel with
  | zero =>
    intro keys h
    rw [List.length_eq_zero_iff.mp (Nat.le_zero.mp h)]
    rfl
  | succ fuel ih =>
    intro keys h
    cases keys with
    | nil => rfl
    | cons k ks =>
      simp only [chunks, List.flatten_cons]
      rw [ih _ (by simp at h ⊢; omega), List.take_append_drop]

theorem mem_groupsOf :
    g ∈ groupsOf t es ↔ ∃ e ∈ es, g ∈ t.groups e.doc := by
  simp [groupsOf]

theorem groupsOf_ascending (es : List (Entry I D)) : (groupsOf t es).Pairwise (· < ·) := by
  have sorted : (groupsOf t es).Pairwise (· ≤ ·) := List.pairwise_insertionSort _ _
  have nodup : (groupsOf t es).Nodup :=
    (List.perm_insertionSort _ _).nodup_iff.mpr (List.nodup_dedup _)
  exact (sorted.and nodup).imp fun h => lt_of_le_of_ne h.1 h.2

theorem mem_ofGroup :
    e ∈ ofGroup t g es ↔ e ∈ es ∧ g ∈ t.groups e.doc := by
  simp [ofGroup]

theorem ofGroup_sublist {es es' : List (Entry I D)} (h : es.Sublist es') (g : G) :
    (ofGroup t g es).Sublist (ofGroup t g es') :=
  h.filter _

theorem freshKeys_spec :
    ∀ (page processed : List K) (k : K),
      (k ∈ (freshKeys processed page).1 ↔ k ∈ processed ∨ k ∈ page) ∧
        (k ∈ (freshKeys processed page).2 ↔ k ∈ page ∧ k ∉ processed) := by
  intro page
  induction page with
  | nil => simp [freshKeys]
  | cons k' ks ih =>
    intro processed k
    by_cases known : k' ∈ processed
    · by_cases same : k = k'
      · subst same
        simp [freshKeys, known, ih]
      · simp [freshKeys, known, ih, same]
    · by_cases same : k = k'
      · subst same
        simp [freshKeys, known, ih]
      · simp [freshKeys, known, ih, same]

theorem indexDocs_other {target : N → Option O} {docs : List (N × O)} {n : N}
    (h : ∀ d ∈ docs, d.1 ≠ n) : indexDocs target docs n = target n := by
  induction docs generalizing target with
  | nil => rfl
  | cons d docs ih =>
    simp only [indexDocs, List.foldl_cons]
    have rest : indexDocs (Function.update target d.1 (some d.2)) docs n =
        Function.update target d.1 (some d.2) n :=
      ih fun d' hd' => h d' (List.mem_cons_of_mem _ hd')
    simp only [indexDocs] at rest
    rw [rest, Function.update_of_ne (h d List.mem_cons_self).symm]

theorem indexDocs_only {target : N → Option O} {docs : List (N × O)} {n : N} {o : O}
    (some_ : ∃ d ∈ docs, d.1 = n) (only : ∀ d ∈ docs, d.1 = n → d.2 = o) :
    indexDocs target docs n = some o := by
  induction docs generalizing target with
  | nil =>
    obtain ⟨d, hd, _⟩ := some_
    cases hd
  | cons d docs ih =>
    have only' : ∀ d' ∈ docs, d'.1 = n → d'.2 = o :=
      fun d' hd' => only d' (List.mem_cons_of_mem _ hd')
    simp only [indexDocs, List.foldl_cons]
    by_cases later : ∃ d' ∈ docs, d'.1 = n
    · exact ih later only'
    · have rest : indexDocs (Function.update target d.1 (some d.2)) docs n =
          Function.update target d.1 (some d.2) n :=
        indexDocs_other fun d' hd' same => later ⟨d', hd', same⟩
      simp only [indexDocs] at rest
      obtain ⟨d', hd', same⟩ := some_
      rcases List.mem_cons.mp hd' with rfl | hd'
      · rw [rest, ← same, Function.update_self, only d' List.mem_cons_self same]
      · exact absurd ⟨d', hd', same⟩ later

/-! ## A search for groups, page by page -/

/-- The group comes behind the last page. -/
def Beyond (after : Option G) (g : G) : Prop := ∀ a, after = some a → a < g

/-- The groups the next page is the beginning of. -/
def ahead (t : Job I D G K N O) (es : List (Entry I D)) (w : Walk I D G) : List G :=
  match w.after with
  | none => groupsOf t es
  | some a => (groupsOf t es).filter fun g => decide (t.reread a < g)

theorem turn_eq (es : List (Entry I D)) (w : Walk I D G) :
    w.turn t es =
      { out := w.out ++ ((ahead t es w).take chunk).map fun g =>
          { group := g, docs := ofGroup t g es }
        after := ((ahead t es w).take chunk).getLast?
        ended := decide (((ahead t es w).take chunk).length < chunk) } := by
  obtain ⟨out, after, ended⟩ := w
  cases after <;> rfl

theorem ahead_ascending (es : List (Entry I D)) (w : Walk I D G) :
    (ahead t es w).Pairwise (· < ·) := by
  unfold ahead
  split
  · exact groupsOf_ascending es
  · exact (groupsOf_ascending es).filter _

theorem mem_ahead (continues : w.Continues t) (going : w.ended = false) :
    g ∈ ahead t es w ↔ g ∈ groupsOf t es ∧ Beyond w.after g := by
  obtain ⟨out, after, ended⟩ := w
  cases after with
  | none => simp [ahead, Beyond]
  | some a =>
    have same : t.reread a = a := continues going a rfl
    simp [ahead, Beyond, same]

/-- A group that comes behind the last page is on the next, or behind that. -/
theorem turn_reaches (continues : w.Continues t) (going : w.ended = false)
    (hg : g ∈ groupsOf t es) (beyond : Beyond w.after g) :
    (∃ b ∈ (w.turn t es).out, b.group = g) ∨
      (w.turn t es).ended = false ∧ Beyond (w.turn t es).after g := by
  have mem : g ∈ ahead t es w := (mem_ahead continues going).mpr ⟨hg, beyond⟩
  rw [turn_eq]
  by_cases now : g ∈ (ahead t es w).take chunk
  · exact .inl ⟨_, List.mem_append_right _ (List.mem_map_of_mem now), rfl⟩
  · have later : g ∈ (ahead t es w).drop chunk := by
      rw [← List.take_append_drop chunk (ahead t es w), List.mem_append] at mem
      exact mem.resolve_left now
    have long : 0 < ((ahead t es w).drop chunk).length := List.length_pos_of_mem later
    rw [List.length_drop] at long
    refine .inr ⟨?_, ?_⟩
    · simp only [List.length_take, decide_eq_false_iff_not]
      omega
    · intro a ha
      have asc := ahead_ascending (t := t) es w
      rw [← List.take_append_drop chunk (ahead t es w), List.pairwise_append] at asc
      exact asc.2.2 a (List.mem_of_getLast? ha) g later

/-- The groups handed out ascend, and what comes behind the last page is above them. -/
structure Walk.Ordered (w : Walk I D G) : Prop where
  ascending : (w.out.map Bucket.group).Pairwise (· < ·)
  below : w.ended = false → ∀ g, Beyond w.after g → ∀ b ∈ w.out, b.group < g

theorem Walk.Ordered.start : Walk.Ordered ({} : Walk I D G) :=
  ⟨List.Pairwise.nil, by simp⟩

theorem le_getLast {l : List G} (asc : l.Pairwise (· < ·)) {last g : G}
    (hlast : l.getLast? = some last) (hg : g ∈ l) : g ≤ last := by
  obtain ⟨front, rfl⟩ := List.getLast?_eq_some_iff.mp hlast
  rcases List.mem_append.mp hg with before | same
  · exact le_of_lt ((List.pairwise_append.mp asc).2.2 g before last (by simp))
  · exact le_of_eq (List.mem_singleton.mp same)

theorem Walk.Ordered.turn (h : w.Ordered) (continues : w.Continues t) (going : w.ended = false) :
    (w.turn t es).Ordered := by
  have asc : ((ahead t es w).take chunk).Pairwise (· < ·) := (ahead_ascending es w).take
  have above {b : Bucket I D G} (hb : b ∈ w.out) {g : G} (hg : g ∈ (ahead t es w).take chunk) :
      b.group < g :=
    h.below going g ((mem_ahead continues going).mp (List.mem_of_mem_take hg)).2 b hb
  rw [turn_eq]
  refine ⟨?_, ?_⟩
  · rw [List.map_append, List.map_map]
    refine List.pairwise_append.mpr ⟨h.ascending, ?_, ?_⟩
    · simpa [Function.comp_def] using asc
    · intro g hg g' hg'
      obtain ⟨b, hb, rfl⟩ := List.mem_map.mp hg
      exact above hb (by simpa [Function.comp_def] using hg')
  · intro full g beyond b hb
    simp only [decide_eq_false_iff_not, not_lt] at full
    -- a full page has a last group
    have some_ : (ahead t es w).take chunk ≠ [] := by
      intro empty
      rw [empty] at full
      simp [chunk] at full
    have hlast := List.getLast?_eq_getLast_of_ne_nil some_
    have lt := beyond _ hlast
    rcases List.mem_append.mp hb with old | new
    · exact (above old (List.getLast_mem some_)).trans lt
    · obtain ⟨g', hg', rfl⟩ := List.mem_map.mp new
      exact lt_of_le_of_lt (le_getLast asc hlast hg') lt

/-! ## What was read of the groups -/

section

variable (t : Job I D G K N O) (s : State I D G K N O) (P : Entry I D → Prop)

/-- These are documents of the group that a search sees, all those that `P` picks among them. -/
structure Reads (g : G) (es : List (Entry I D)) : Prop where
  sub : es.Sublist (ofGroup t g (seen t s))
  all : ∀ e ∈ everything t s, P e → g ∈ t.groups e.doc → e ∈ es

/-- So are a bucket's documents, and those its scripts ran over. -/
structure Bucket.Holds (b : Bucket I D G) : Prop where
  docs : Reads t s P b.group b.docs
  more : t.scripted = true → Reads t s P b.group b.more
  none : t.scripted = false → b.more = []

/-- The documents `P` picks have their groups among the buckets. -/
def InBuckets (bs : List (Bucket I D G)) : Prop :=
  ∀ e ∈ everything t s, P e → ∀ g ∈ t.groups e.doc, ∃ b ∈ bs, b.group = g

/-- They have, or will have. -/
def Walk.Finds (w : Walk I D G) : Prop :=
  ∀ e ∈ everything t s, P e → ∀ g ∈ t.groups e.doc,
    (∃ b ∈ w.out, b.group = g) ∨ w.ended = false ∧ Beyond w.after g

/-- The buckets of a search over everything. -/
structure Gathered (bs : List (Bucket I D G)) : Prop where
  holds : ∀ b ∈ bs, b.Holds t s P
  found : InBuckets t s P bs
  ascending : (bs.map Bucket.group).Pairwise (· < ·)

/-- The search, between two of its pages. -/
structure Walk.Gathers (w : Walk I D G) : Prop where
  docs : ∀ b ∈ w.out, Reads t s P b.group b.docs ∧ b.more = []
  finds : w.Finds t s P
  ordered : w.Ordered

/-- The search, between the scripts of two buckets. -/
structure Scripts (done rest : List (Bucket I D G)) : Prop where
  holds : ∀ b ∈ done, b.Holds t s P
  waits : ∀ b ∈ rest, Reads t s P b.group b.docs ∧ t.scripted = true
  found : InBuckets t s P (done ++ rest)
  ascending : ((done ++ rest).map Bucket.group).Pairwise (· < ·)

/-- If any document that `P` picks is of the group, the target's document of it is made of
documents a search sees, all those that `P` picks among them. -/
def Covered (g : G) (P : Entry I D → Prop) : Prop :=
  (∃ e ∈ everything t s, P e ∧ g ∈ t.groups e.doc) →
    ∃ b : Bucket I D G, b.group = g ∧ b.Holds t s P ∧
      s.target (t.docId (t.key g)) = some (bucketDoc t b).2

end

/-- What was read in the one state for `P` is good in the other for `P'`. -/
structure Under (t : Job I D G K N O) (s s' : State I D G K N O) (P P' : Entry I D → Prop) :
    Prop where
  seen : (seen t s).Sublist (seen t s')
  known : ∀ e ∈ everything t s', P' e → e ∈ everything t s ∧ P e

theorem Under.same (h : ∀ e ∈ everything t s, P' e → P e) : Under t s s P P' :=
  ⟨List.Sublist.refl _, fun e he hp => ⟨he, h e he hp⟩⟩

theorem Reads.under (h : Reads t s P g es) (u : Under t s s' P P') : Reads t s' P' g es := by
  refine ⟨h.sub.trans (ofGroup_sublist u.seen g), ?_⟩
  intro e he hp hg
  obtain ⟨he, hp⟩ := u.known e he hp
  exact h.all e he hp hg

theorem Bucket.Holds.under (h : b.Holds t s P) (u : Under t s s' P P') : b.Holds t s' P' :=
  ⟨h.docs.under u, fun yes => (h.more yes).under u, h.none⟩

theorem InBuckets.under (h : InBuckets t s P bs) (u : Under t s s' P P') :
    InBuckets t s' P' bs := by
  intro e he hp
  obtain ⟨he, hp⟩ := u.known e he hp
  exact h e he hp

theorem Walk.Finds.under (h : w.Finds t s P) (u : Under t s s' P P') : w.Finds t s' P' := by
  intro e he hp
  obtain ⟨he, hp⟩ := u.known e he hp
  exact h e he hp

theorem Gathered.under (h : Gathered t s P bs) (u : Under t s s' P P') : Gathered t s' P' bs :=
  ⟨fun b hb => (h.holds b hb).under u, h.found.under u, h.ascending⟩

theorem Walk.Gathers.under (h : w.Gathers t s P) (u : Under t s s' P P') : w.Gathers t s' P' :=
  ⟨fun b hb => ⟨(h.docs b hb).1.under u, (h.docs b hb).2⟩, h.finds.under u, h.ordered⟩

theorem Scripts.under (h : Scripts t s P done rest) (u : Under t s s' P P') :
    Scripts t s' P' done rest :=
  ⟨fun b hb => (h.holds b hb).under u, fun b hb => ⟨(h.waits b hb).1.under u, (h.waits b hb).2⟩,
    h.found.under u, h.ascending⟩

theorem Covered.under (h : Covered t s g P) (u : Under t s s' P P')
    (target : s'.target = s.target) : Covered t s' g P' := by
  rintro ⟨e, he, hp, hg⟩
  obtain ⟨he, hp⟩ := u.known e he hp
  obtain ⟨b, same, holds, written⟩ := h ⟨e, he, hp, hg⟩
  refine ⟨b, same, holds.under u, ?_⟩
  rw [target]
  exact written

theorem Reads.of_seen (visible : ∀ e ∈ everything t s, P e → e ∈ seen t s) (g : G) :
    Reads t s P g (ofGroup t g (seen t s)) :=
  ⟨List.Sublist.refl _, fun e he hp hg => mem_ofGroup.mpr ⟨visible e he hp, hg⟩⟩

theorem Walk.Finds.start : Walk.Finds t s P {} := by
  intro e _ _ g _
  refine .inr ⟨rfl, ?_⟩
  rintro _ ⟨⟩

/-- A page of a search that sees all that `P` picks. -/
theorem Walk.Finds.turn (h : w.Finds t s P) (continues : w.Continues t)
    (sees : ∀ e ∈ everything t s, P e → e ∈ es) : (w.turn t es).Finds t s P := by
  intro e he hp g hg
  rcases h e he hp g hg with ⟨b, hb, same⟩ | ⟨going, beyond⟩
  · exact .inl ⟨b, by rw [turn_eq]; exact List.mem_append_left _ hb, same⟩
  · exact turn_reaches continues going (mem_groupsOf.mpr ⟨e, sees e he hp, hg⟩) beyond

theorem Walk.Gathers.start : Walk.Gathers t s P {} :=
  ⟨by simp, .start, .start⟩

theorem Walk.Gathers.turn (h : w.Gathers t s P) (continues : w.Continues t)
    (going : w.ended = false)
    (visible : ∀ e ∈ everything t s, P e → e ∈ seen t s) :
    (w.turn t (seen t s)).Gathers t s P := by
  refine ⟨?_, h.finds.turn continues visible, h.ordered.turn continues going⟩
  intro b hb
  rw [turn_eq] at hb
  rcases List.mem_append.mp hb with old | new
  · exact h.docs b old
  · obtain ⟨g, _, rfl⟩ := List.mem_map.mp new
    exact ⟨Reads.of_seen visible g, rfl⟩

/-- The scripts begin where the pages end. -/
theorem Walk.Gathers.scripts (h : w.Gathers t s P) (ended : w.ended = true) :
    Scripts t s P (if t.scripted then [] else w.out) (if t.scripted then w.out else []) := by
  have found : InBuckets t s P w.out := by
    intro e he hp g hg
    rcases h.finds e he hp g hg with found | ⟨going, _⟩
    · exact found
    · rw [ended] at going
      cases going
  cases hs : t.scripted with
  | true =>
    refine ⟨by simp, ?_, found, h.ordered.ascending⟩
    intro b hb
    exact ⟨(h.docs b hb).1, hs⟩
  | false =>
    refine ⟨?_, by simp, by simpa using found, by simpa using h.ordered.ascending⟩
    intro b hb
    obtain ⟨docs, more⟩ := h.docs b hb
    exact ⟨docs, fun yes => absurd (hs.symm.trans yes) (by simp), fun _ => more⟩

/-- The scripts of one bucket run over the documents of its group. -/
theorem Scripts.next (h : Scripts t s P done (b :: rest))
    (fit : ∀ e ∈ seen t s,
      t.finds (bucketFilter t.dims (t.values b.group)) e.doc ↔ b.group ∈ t.groups e.doc)
    (visible : ∀ e ∈ everything t s, P e → e ∈ seen t s) :
    Scripts t s P (done ++ [{ b with more := scriptedDocs t s b.group }]) rest := by
  obtain ⟨docs, yes⟩ := h.waits b List.mem_cons_self
  have same : scriptedDocs t s b.group = ofGroup t b.group (seen t s) := by
    refine List.filter_congr fun e he => ?_
    rw [Bool.eq_iff_iff, fit e he]
    simp
  refine ⟨?_, fun b' hb' => h.waits b' (List.mem_cons_of_mem _ hb'), ?_, ?_⟩
  · intro b' hb'
    rcases List.mem_append.mp hb' with old | new
    · exact h.holds b' old
    · rw [List.mem_singleton.mp new]
      refine ⟨docs, fun _ => ?_, fun no => absurd (yes.symm.trans no) (by simp)⟩
      show Reads t s P b.group (scriptedDocs t s b.group)
      rw [same]
      exact Reads.of_seen visible b.group
  · intro e he hp g hg
    obtain ⟨b', hb', rfl⟩ := h.found e he hp g hg
    simp only [List.mem_append, List.mem_cons] at hb'
    rcases hb' with old | rfl | later
    · exact ⟨b', by simp [old], rfl⟩
    · exact ⟨_, List.mem_append_left _ (List.mem_append_right _ (List.mem_singleton_self _)), rfl⟩
    · exact ⟨b', by simp [later], rfl⟩
  · simpa using h.ascending

theorem Scripts.gathered (h : Scripts t s P done []) : Gathered t s P done :=
  ⟨h.holds, by simpa using h.found, by simpa using h.ascending⟩

/-! ## Writing buckets -/

section Write

theorem Gathered.unique (h : Gathered t s P bs) (hb : b ∈ bs) (hb' : b' ∈ bs)
    (same : b.group = b'.group) : b = b' := by
  have nodup : (bs.map Bucket.group).Nodup := h.ascending.imp ne_of_lt
  exact List.inj_on_of_nodup_map nodup hb hb' same

variable (h : Gathered t s P bs) (distinct : Distinct t (bs.map Bucket.group)) (sub : ws ⊆ bs)
variable (target : N → Option O)

include h distinct sub

theorem Gathered.write_in (hb : b ∈ ws) :
    indexDocs target (ws.map (bucketDoc t)) (bucketDoc t b).1 = some (bucketDoc t b).2 := by
  apply indexDocs_only
  · exact ⟨_, List.mem_map_of_mem hb, rfl⟩
  · intro d hd same
    obtain ⟨b', hb', rfl⟩ := List.mem_map.mp hd
    have group := distinct _ (List.mem_map_of_mem (sub hb')) _ (List.mem_map_of_mem (sub hb)) same
    rw [h.unique (sub hb') (sub hb) group]

theorem Gathered.write_out (hb : b ∈ bs) (out : b ∉ ws) :
    indexDocs target (ws.map (bucketDoc t)) (bucketDoc t b).1 = target (bucketDoc t b).1 := by
  apply indexDocs_other
  intro d hd same
  obtain ⟨b', hb', rfl⟩ := List.mem_map.mp hd
  have group := distinct _ (List.mem_map_of_mem (sub hb')) _ (List.mem_map_of_mem hb) same
  rw [h.unique (sub hb') hb group] at hb'
  exact out hb'

/-- What stood in the target stands there still, or is among what was written. -/
theorem Gathered.write (hb : b ∈ bs)
    (was : b ∈ ws ∨ target (bucketDoc t b).1 = some (bucketDoc t b).2) :
    indexDocs target (ws.map (bucketDoc t)) (bucketDoc t b).1 = some (bucketDoc t b).2 := by
  by_cases new : b ∈ ws
  · exact h.write_in distinct sub target new
  · rw [h.write_out distinct sub target hb new]
    exact was.resolve_left new

theorem Gathered.covered_write (weaker : ∀ e, Q e → P e) (written : s'.written = s.written)
    (held : s'.target = indexDocs s.target (ws.map (bucketDoc t)))
    (was : Covered t s g Q ∨ ∀ b ∈ bs, b.group = g → b ∈ ws) : Covered t s' g Q := by
  have everything_eq : everything t s' = everything t s := by simp only [everything, written]
  have u : Under t s s' P Q := by
    refine ⟨?_, ?_⟩
    · simp only [seen, written, List.Sublist.refl]
    · intro e he hq
      rw [everything_eq] at he
      exact ⟨he, weaker e hq⟩
  have u' : Under t s s' Q Q := ⟨u.seen, fun e he hq => ⟨everything_eq ▸ he, hq⟩⟩
  rintro ⟨e, he, hq, hg⟩
  rw [everything_eq] at he
  obtain ⟨b, hb, rfl⟩ := h.found e he (weaker e hq) g hg
  by_cases new : b ∈ ws
  · refine ⟨b, rfl, (h.holds b hb).under u, ?_⟩
    rw [held]
    exact h.write_in distinct sub s.target new
  · rcases was with covered | all
    · obtain ⟨b', same, holds, stands⟩ := covered ⟨e, he, hq, hg⟩
      refine ⟨b', same, holds.under u', ?_⟩
      rw [held]
      exact (h.write_out distinct sub s.target hb new).trans stands
    · exact absurd (all b hb rfl) new

end Write

/-! ## The invariant -/

/-- The index whose changes are being searched for. -/
def Place.lookedAt : Place I D G K → Option I
  | .looked i _ _ _ _ => some i
  | _ => none

/-- The keys that are to be written next. -/
def Place.fresh : Place I D G K → List K
  | .gathering fresh _ _ _ | .scripting fresh _ _ _ _ | .writing fresh _ _ => fresh
  | _ => []

/-- The pages that wait to be looked at. -/
def Place.pages : Place I D G K → List (List K)
  | .paging pages _ | .gathering _ _ pages _ | .scripting _ _ _ pages _
  | .writing _ pages _ => pages
  | _ => []

/-- The indices that wait. -/
def Place.todo : Place I D G K → List I
  | .walking todo | .looked _ _ _ _ todo | .paging _ todo | .gathering _ _ _ todo
  | .scripting _ _ _ _ todo | .writing _ _ todo => todo

/-- The document is one the last run's checkpoint has passed. -/
def Held (s : State I D G K N O) (e : Entry I D) : Prop :=
  ∃ c, s.held e.index = some c ∧ (e.seq : ℤ) ≤ c

/-- It is one this run has passed, and whose groups it has searched for. -/
def Searched (r : Run I D G K) (e : Entry I D) : Prop :=
  (∃ c, r.reached e.index = some c ∧ (e.seq : ℤ) ≤ c) ∧ r.place.lookedAt ≠ some e.index

/-- It is one of the two. -/
def Past (s : State I D G K N O) (r : Run I D G K) (e : Entry I D) : Prop :=
  Held s e ∨ Searched r e

/-- The documents of an index between two checkpoints. -/
def Between (i : I) (before now : ℤ) (e : Entry I D) : Prop :=
  e.index = i ∧ before < e.seq ∧ (e.seq : ℤ) ≤ now

/-- What is true of a run where it is, if it has passed what `P` picks. -/
def InPlace (t : Job I D G K N O) (s : State I D G K N O) (P : Entry I D → Prop)
    (r : Run I D G K) : Prop :=
  match r.place with
  | .looked i before now w _ =>
    r.reached i = some now ∧ before = (s.held i).getD (-1) ∧ w.Finds t s (Between i before now)
  | .gathering _ w _ _ => r.whole = none ∧ w.Gathers t s P
  | .scripting _ done rest _ _ => r.whole = none ∧ Scripts t s P done rest
  | .writing fresh _ _ => fresh = [] ∨ ∃ bs, r.whole = some bs
  | _ => True

/-- What is true of a run, at every access. -/
structure RunSound (t : Job I D G K N O) (s : State I D G K N O) (r : Run I D G K) : Prop where
  reached_lt : ∀ i c, r.reached i = some c → c < (s.written i).length
  visible : ∀ e ∈ everything t s, Searched r e → e ∈ seen t s
  caught : ∀ g, t.key g ∈ r.place.fresh ∨ t.key g ∈ r.place.pages.flatten ∨
    Covered t s g (Past s r)
  whole : ∀ bs, r.whole = some bs → Gathered t s (Past s r) bs
  processed : ∀ k ∈ r.processed, k ∈ r.place.fresh ∨ ∃ bs, r.whole = some bs ∧
    ∀ b ∈ bs, t.key b.group = k → s.target (bucketDoc t b).1 = some (bucketDoc t b).2
  place : InPlace t s (Past s r) r

/-- What is true between two runs. -/
structure Kept (t : Job I D G K N O) (s : State I D G K N O) : Prop where
  held_lt : ∀ i c, s.held i = some c → c < (s.written i).length
  visible : ∀ e ∈ everything t s, Held s e → e ∈ seen t s
  caught : ∀ g, Covered t s g (Held s)

/-- What is true at every step. -/
structure Sound (t : Job I D G K N O) (s : State I D G K N O) : Prop extends Kept t s where
  run : ∀ r, s.run = some r → RunSound t s r

theorem Kept.past_visible (h : Kept t s) (run : RunSound t s r) :
    ∀ e ∈ everything t s, Past s r e → e ∈ seen t s := by
  intro e he hp
  rcases hp with hHeld | hs
  · exact h.visible e he hHeld
  · exact run.visible e he hs

/-! ## Documents written and shown -/

/-- Documents were written or shown, and nothing was lost. -/
structure Grows (t : Job I D G K N O) (s s' : State I D G K N O) : Prop where
  held : s'.held = s.held
  target : s'.target = s.target
  longer : ∀ i, (s.written i).length ≤ (s'.written i).length
  seen : (seen t s).Sublist (seen t s')
  fresh : ∀ e ∈ everything t s', e ∈ everything t s ∨ (s.written e.index).length ≤ e.seq

theorem Grows.under (grows : Grows t s s')
    (old : ∀ e, P e → e.seq < (s.written e.index).length) : Under t s s' P P := by
  refine ⟨grows.seen, ?_⟩
  intro e he hp
  rcases grows.fresh e he with he | late
  · exact ⟨he, hp⟩
  · exact absurd (old e hp) (Nat.not_lt.mpr late)

theorem InPlace.grow (h : InPlace t s P r) (grows : Grows t s s')
    (reached_lt : ∀ i c, r.reached i = some c → c < (s.written i).length)
    (past : Under t s s' P P') : InPlace t s' P' r := by
  unfold InPlace at h ⊢
  split at h
  next i before now w _ hplace =>
    obtain ⟨reached, hbefore, finds⟩ := h
    refine ⟨reached, by rw [grows.held]; exact hbefore, finds.under (grows.under ?_)⟩
    rintro e ⟨rfl, _, le⟩
    have := reached_lt _ _ reached
    omega
  next => exact ⟨h.1, h.2.under past⟩
  next => exact ⟨h.1, h.2.under past⟩
  next => exact h
  next => trivial

theorem Grows.held_eq (grows : Grows t s s') : Held s' = Held s := by
  funext e
  rw [Held, Held, grows.held]

theorem Kept.held_old (h : Kept t s) (he : Held s e) :
    e.seq < (s.written e.index).length := by
  obtain ⟨c, hc, le⟩ := he
  have := h.held_lt _ _ hc
  omega

theorem Kept.grow (h : Kept t s) (grows : Grows t s s') : Kept t s' := by
  have under := grows.under fun e => h.held_old (e := e)
  refine ⟨?_, ?_, ?_⟩
  · intro i c hc
    rw [grows.held] at hc
    have before := h.held_lt i c hc
    have longer := grows.longer i
    omega
  · intro e he hHeld
    rw [grows.held_eq] at hHeld
    obtain ⟨he, hHeld⟩ := under.known e he hHeld
    exact grows.seen.subset (h.visible e he hHeld)
  · intro g
    rw [grows.held_eq]
    exact (h.caught g).under under grows.target

theorem RunSound.grow (run : RunSound t s r) (h : Kept t s) (grows : Grows t s s') :
    RunSound t s' r := by
  have searched_old (e : Entry I D) (he : Searched r e) :
      e.seq < (s.written e.index).length := by
    obtain ⟨⟨c, hc, le⟩, _⟩ := he
    have := run.reached_lt _ _ hc
    omega
  have past : Under t s s' (Past s r) (Past s' r) := by
    have past_eq : Past s' r = Past s r := by
      funext e
      rw [Past, Past, grows.held_eq]
    rw [past_eq]
    exact grows.under fun e he => he.elim h.held_old (searched_old e)
  refine ⟨?_, ?_, ?_, ?_, ?_, run.place.grow grows run.reached_lt past⟩
  · intro i c hc
    have before := run.reached_lt i c hc
    have longer := grows.longer i
    omega
  · intro e he hs
    obtain ⟨he, hs⟩ := (grows.under searched_old).known e he hs
    exact grows.seen.subset (run.visible e he hs)
  · intro g
    exact (run.caught g).imp id fun later => later.imp id fun c => c.under past grows.target
  · intro bs hbs
    exact (run.whole bs hbs).under past
  · intro k hk
    rw [grows.target]
    exact run.processed k hk

theorem Sound.grow (h : Sound t s) (grows : Grows t s s') (same : s'.run = s.run) :
    Sound t s' := by
  refine ⟨h.toKept.grow grows, ?_⟩
  intro r hr
  rw [same] at hr
  exact (h.run r hr).grow h.toKept grows

theorem grows_run (x : Option (Run I D G K)) : Grows t s { s with run := x } :=
  ⟨rfl, rfl, fun _ => Nat.le_refl _, List.Sublist.refl _, fun _ he => .inl he⟩

theorem Kept.idle (h : Kept t s) : Sound t { s with run := none } := by
  refine ⟨h.grow (grows_run none), ?_⟩
  rintro r ⟨⟩

theorem Kept.put (h : Kept t s) (run : RunSound t s r) : Sound t { s with run := some r } := by
  refine ⟨h.grow (grows_run _), ?_⟩
  rintro r ⟨⟩
  exact run.grow h (grows_run _)

theorem grows_update {i : I} {l : List (D × Bool)}
    (longer : (s.written i).length ≤ l.length)
    (shown : (entriesOf i (s.written i) fun x => x.2 && t.selects x.1).Sublist
      (entriesOf i l fun x => x.2 && t.selects x.1))
    (docs : ∀ n x, l[n]? = some x → n < (s.written i).length →
      ∃ b, (s.written i)[n]? = some (x.1, b)) :
    Grows t s { s with written := Function.update s.written i l } := by
  refine ⟨rfl, rfl, ?_, ?_, ?_⟩
  · intro i'
    by_cases same : i' = i
    · subst same
      simpa using longer
    · simp [Function.update_of_ne same]
  · apply List.Sublist.flatMap_right
    intro i' _
    by_cases same : i' = i
    · subst same
      simpa using shown
    · simp [Function.update_of_ne same]
  · intro e he
    obtain ⟨hi, b, hn, hp⟩ := mem_everything.mp he
    by_cases same : e.index = i
    · simp only [same, Function.update_self] at hn ⊢
      by_cases lt : e.seq < (s.written i).length
      · obtain ⟨b', hb'⟩ := docs _ _ hn lt
        rw [← same] at hb'
        exact .inl (mem_everything.mpr ⟨hi, b', hb', hp⟩)
      · exact .inr (Nat.not_lt.mp lt)
    · simp only [Function.update_of_ne same] at hn
      exact .inl (mem_everything.mpr ⟨hi, b, hn, hp⟩)

theorem grows_write (i : I) (d : D) : Grows t s (step t s (.write i d)) := by
  apply grows_update
  · simp
  · rw [entriesOf, entriesOf, List.zipIdx_append, List.filterMap_append]
    exact List.sublist_append_left _ _
  · intro n x hn lt
    rw [List.getElem?_append_left lt] at hn
    exact ⟨x.2, hn⟩

theorem grows_refresh (i : I) (shows : ℕ → Bool) :
    Grows t s (step t s (.refresh i shows)) := by
  apply grows_update
  · simp
  · have same : ((s.written i).zipIdx.map fun x => (x.1.1, x.1.2 || shows x.2)).zipIdx =
        (s.written i).zipIdx.map fun x => ((x.1.1, x.1.2 || shows x.2), x.2) := by
      apply List.ext_getElem?
      intro n
      simp only [List.getElem?_zipIdx, List.getElem?_map, Option.map_map]
      cases (s.written i)[n]? <;> simp
    rw [entriesOf, entriesOf, same, List.filterMap_map]
    apply sublist_filterMap
    intro x e h
    split at h
    next hp =>
      simp only [Bool.and_eq_true] at hp
      cases h
      simp [hp.1, hp.2]
    next => cases h
  · intro n x hn _
    simp only [List.getElem?_map, List.getElem?_zipIdx, Option.map_map,
      Option.map_eq_some_iff] at hn
    obtain ⟨y, hy, rfl⟩ := hn
    exact ⟨y.2, hy⟩

/-! ## The accesses of a run -/

theorem Covered.mono (h : Covered t s g P)
    (sub : ∀ e ∈ everything t s, g ∈ t.groups e.doc → Q e → P e) : Covered t s g Q := by
  rintro ⟨e, he, hq, hg⟩
  obtain ⟨b, rfl, holds, stands⟩ := h ⟨e, he, sub e he hg hq, hg⟩
  have reads {es : List (Entry I D)} (hes : Reads t s P b.group es) : Reads t s Q b.group es :=
    ⟨hes.sub, fun e' he' hq' hg' => hes.all e' he' (sub e' he' hg' hq') hg'⟩
  exact ⟨b, rfl, ⟨reads holds.docs, fun yes => reads (holds.more yes), holds.none⟩, stands⟩

/-- The buckets hold more than was asked of them. -/
theorem Gathered.more (h : Gathered t s P bs)
    (also : ∀ e ∈ everything t s, Q e → P e ∨ ∀ g ∈ t.groups e.doc,
      ∃ b ∈ bs, b.group = g ∧ e ∈ b.docs ∧ (t.scripted → e ∈ b.more)) : Gathered t s Q bs := by
  refine ⟨?_, ?_, h.ascending⟩
  · intro b hb
    have holds := h.holds b hb
    refine ⟨⟨holds.docs.sub, ?_⟩, fun yes => ⟨(holds.more yes).sub, ?_⟩, holds.none⟩
    · intro e he hq hg
      rcases also e he hq with hp | read
      · exact holds.docs.all e he hp hg
      · obtain ⟨b', hb', same, docs, _⟩ := read _ hg
        rwa [← h.unique hb' hb same]
    · intro e he hq hg
      rcases also e he hq with hp | read
      · exact (holds.more yes).all e he hp hg
      · obtain ⟨b', hb', same, _, more⟩ := read _ hg
        rw [← h.unique hb' hb same]
        exact more yes
  · intro e he hq g hg
    rcases also e he hq with hp | read
    · exact h.found e he hp g hg
    · obtain ⟨b, hb, same, _⟩ := read g hg
      exact ⟨b, hb, same⟩

theorem searched_eq {r' : Run I D G K} (reached : r'.reached = r.reached)
    (looked : r'.place.lookedAt = r.place.lookedAt) : Searched r' = Searched r := by
  funext e
  rw [Searched, Searched, reached, looked]

theorem past_eq {r' : Run I D G K} (reached : r'.reached = r.reached)
    (looked : r'.place.lookedAt = r.place.lookedAt) : Past s r' = Past s r := by
  funext e
  rw [Past, Past, searched_eq reached looked]

theorem Kept.start (h : Kept t s) : RunSound t s { place := .walking t.sources } := by
  have not_searched (e : Entry I D) :
      ¬ Searched ({ place := .walking t.sources } : Run I D G K) e := by
    rintro ⟨⟨_, hc, _⟩, _⟩
    cases hc
  refine ⟨?_, ?_, ?_, ?_, ?_, trivial⟩
  · rintro _ _ ⟨⟩
  · intro e _ hs
    exact absurd hs (not_searched e)
  · intro g
    refine .inr (.inr ((h.caught g).mono ?_))
    rintro e _ _ (hHeld | hs)
    · exact hHeld
    · exact absurd hs (not_searched e)
  · rintro _ ⟨⟩
  · rintro _ ⟨⟩

theorem RunSound.finish (run : RunSound t s r) (hplace : r.place = .walking []) :
    Sound t { s with held := r.reached, run := none } := by
  have searched (e : Entry I D)
      (he : Held ({ s with held := r.reached, run := none } : State I D G K N O) e) :
      Searched r e := ⟨he, by simp [hplace, Place.lookedAt]⟩
  refine ⟨⟨run.reached_lt, ?_, ?_⟩, ?_⟩
  · intro e he hHeld
    exact run.visible e he (searched e hHeld)
  · intro g
    have covered : Covered t s g (Past s r) := by
      simpa [hplace, Place.fresh, Place.pages] using run.caught g
    exact covered.under ⟨List.Sublist.refl _, fun e he hHeld => ⟨he, .inr (searched e hHeld)⟩⟩ rfl
  · rintro r ⟨⟩

/-- The run goes on, and has passed the same documents. -/
theorem RunSound.goOn (run : RunSound t s r) {r' : Run I D G K} (reached : r'.reached = r.reached)
    (looked : r'.place.lookedAt = r.place.lookedAt)
    (caught : ∀ g, t.key g ∈ r'.place.fresh ∨ t.key g ∈ r'.place.pages.flatten ∨
      Covered t s g (Past s r))
    (whole : ∀ bs, r'.whole = some bs → Gathered t s (Past s r) bs)
    (processed : ∀ k ∈ r'.processed, k ∈ r'.place.fresh ∨ ∃ bs, r'.whole = some bs ∧
      ∀ b ∈ bs, t.key b.group = k → s.target (bucketDoc t b).1 = some (bucketDoc t b).2)
    (place : InPlace t s (Past s r) r') : RunSound t s r' := by
  have past : Past s r' = Past s r := past_eq reached looked
  refine ⟨?_, ?_, ?_, ?_, processed, ?_⟩
  · rw [reached]
    exact run.reached_lt
  · rw [searched_eq reached looked]
    exact run.visible
  · rw [past]
    exact caught
  · rw [past]
    exact whole
  · rw [past]
    exact place

/-- It goes on to another place. -/
theorem RunSound.move (run : RunSound t s r) {p q : Place I D G K} (hplace : r.place = q)
    (looked : p.lookedAt = q.lookedAt) (fresh : p.fresh = q.fresh) (pages : p.pages = q.pages)
    (place : InPlace t s (Past s r) { r with place := p }) :
    RunSound t s { r with place := p } := by
  subst hplace
  refine run.goOn rfl looked ?_ run.whole ?_ place
  · simp only [fresh, pages]
    exact run.caught
  · simp only [fresh]
    exact run.processed

/-- The run has read how far the writes to an index have come. -/
theorem RunSound.look (run : RunSound t s r) {i : I} {todo : List I}
    (hplace : r.place = .walking (i :: todo)) {p : Place I D G K}
    (known : ∀ e ∈ everything t s, e.index = i → (e.seq : ℤ) ≤ checkpoint s i →
      p.lookedAt ≠ some i → Held s e)
    (fresh : p.fresh = [])
    (place : ∀ P, InPlace t s P { r with
      reached := Function.update r.reached i (some (checkpoint s i)), place := p })
    (h : Kept t s) :
    RunSound t s { r with
      reached := Function.update r.reached i (some (checkpoint s i)), place := p } := by
  have past : ∀ e ∈ everything t s, Past s { r with
      reached := Function.update r.reached i (some (checkpoint s i)), place := p } e →
      Past s r e := by
    rintro e he (hHeld | ⟨⟨c, hc, le⟩, away⟩)
    · exact .inl hHeld
    · by_cases same : e.index = i
      · simp only [same, Function.update_self] at hc
        cases hc
        exact .inl (known e he same le (by rw [← same]; exact away))
      · simp only [Function.update_of_ne same] at hc
        exact .inr ⟨⟨c, hc, le⟩, by simp [hplace, Place.lookedAt]⟩
  refine ⟨?_, ?_, ?_, ?_, ?_, place _⟩
  · intro i' c hc
    by_cases same : i' = i
    · subst same
      simp only [Function.update_self] at hc
      cases hc
      simp only [checkpoint]
      omega
    · simp only [Function.update_of_ne same] at hc
      exact run.reached_lt i' c hc
  · intro e he hs
    exact h.past_visible run e he (past e he (.inr hs))
  · intro g
    have covered : Covered t s g (Past s r) := by
      simpa [hplace, Place.fresh, Place.pages] using run.caught g
    exact .inr (.inr (covered.under (.same past) rfl))
  · intro bs hbs
    exact (run.whole bs hbs).under (.same past)
  · intro k hk
    have := run.processed k hk
    rw [hplace] at this
    simp only [fresh]
    exact this

/-- The groups that changed in an index have been found. -/
theorem RunSound.search (run : RunSound t s r) {i : I} {before now : ℤ}
    {todo : List I} (hplace : r.place = .looked i before now w todo) (ended : w.ended = true)
    (fit : ∀ e ∈ everything t s, e.index = i → before < e.seq → (e.seq : ℤ) ≤ now →
      e ∈ seen t s ∧ ∀ bs, r.whole = some bs → ∀ g ∈ t.groups e.doc,
        ∃ b ∈ bs, b.group = g ∧ e ∈ b.docs ∧ (t.scripted → e ∈ b.more))
    {pages : List (List K)} (keys : pages.flatten = w.out.map fun b => t.key b.group)
    (h : Kept t s) : RunSound t s { r with place := .paging pages todo } := by
  have inPlace := run.place
  rw [InPlace, hplace] at inPlace
  obtain ⟨reached, hbefore, finds⟩ := inPlace
  have passed : ∀ e ∈ everything t s, Past s { r with place := .paging pages todo } e →
      Past s r e ∨ Between i before now e := by
    rintro e he (hHeld | ⟨⟨c, hc, le⟩, _⟩)
    · exact .inl (.inl hHeld)
    · by_cases same : e.index = i
      · simp only [same] at hc
        rw [reached] at hc
        cases hc
        by_cases late : before < e.seq
        · exact .inr ⟨same, late, le⟩
        · refine .inl (.inl ?_)
          rw [Held, same]
          cases hheld : s.held i with
          | none =>
            rw [hheld, Option.getD_none] at hbefore
            omega
          | some b =>
            rw [hheld, Option.getD_some] at hbefore
            exact ⟨b, rfl, by omega⟩
      · refine .inl (.inr ⟨⟨c, hc, le⟩, ?_⟩)
        simp only [hplace, Place.lookedAt, ne_eq, Option.some.injEq]
        exact fun eq => same eq.symm
  refine ⟨run.reached_lt, ?_, ?_, ?_, ?_, trivial⟩
  · intro e he hs
    rcases passed e he (.inr hs) with hp | ⟨same, late, le⟩
    · exact h.past_visible run e he hp
    · exact (fit e he same late le).1
  · intro g
    by_cases waits : t.key g ∈ pages.flatten
    · exact .inr (.inl waits)
    · have covered : Covered t s g (Past s r) := by
        simpa [hplace, Place.fresh, Place.pages] using run.caught g
      refine .inr (.inr (covered.mono ?_))
      intro e he hg hs
      refine (passed e he hs).resolve_right fun between => ?_
      rcases finds e he between g hg with ⟨b, hb, rfl⟩ | ⟨going, _⟩
      · rw [keys] at waits
        exact waits (List.mem_map_of_mem hb)
      · rw [ended] at going
        cases going
  · intro bs hbs
    refine (run.whole bs hbs).more ?_
    intro e he hs
    refine (passed e he hs).imp id ?_
    rintro ⟨same, late, le⟩
    exact (fit e he same late le).2 bs hbs
  · intro k hk
    have := run.processed k hk
    rw [hplace] at this
    exact this

/-- A page of keys, of which those that are new are written next. -/
theorem RunSound.page (run : RunSound t s r) {page : List K} {pages : List (List K)}
    {todo : List I} (hplace : r.place = .paging (page :: pages) todo) {processed fresh : List K}
    (keys : freshKeys r.processed page = (processed, fresh)) {p : Place I D G K}
    (looked : p.lookedAt = none) (hfresh : p.fresh = fresh) (hpages : p.pages = pages)
    (place : ∀ P, InPlace t s P { r with processed, place := p }) :
    RunSound t s { r with processed, place := p } := by
  have mem_processed (k : K) : k ∈ processed ↔ k ∈ r.processed ∨ k ∈ page := by
    have := (freshKeys_spec page r.processed k).1
    rwa [keys] at this
  have mem_fresh (k : K) : k ∈ fresh ↔ k ∈ page ∧ k ∉ r.processed := by
    have := (freshKeys_spec page r.processed k).2
    rwa [keys] at this
  have before (k : K) (hk : k ∈ r.processed) : ∃ bs, r.whole = some bs ∧
      ∀ b ∈ bs, t.key b.group = k → s.target (bucketDoc t b).1 = some (bucketDoc t b).2 := by
    have := run.processed k hk
    rw [hplace] at this
    exact this.resolve_left (by simp [Place.fresh])
  have same : p.lookedAt = r.place.lookedAt := by
    rw [looked, hplace]
    rfl
  refine run.goOn rfl same ?_ run.whole ?_ (place _)
  · intro g
    simp only [hfresh, hpages]
    have was := run.caught g
    simp only [hplace, Place.fresh, Place.pages, List.flatten_cons, List.mem_append] at was
    rcases was with nothing | (now | later) | covered
    · cases nothing
    · by_cases known : t.key g ∈ r.processed
      · obtain ⟨bs, hbs, stands⟩ := before _ known
        have gathered := run.whole bs hbs
        refine .inr (.inr ?_)
        rintro ⟨e, he, hp, hg⟩
        obtain ⟨b, hb, rfl⟩ := gathered.found e he hp g hg
        exact ⟨b, rfl, gathered.holds b hb, stands b hb rfl⟩
      · exact .inl ((mem_fresh _).mpr ⟨now, known⟩)
    · exact .inr (.inl later)
    · exact .inr (.inr covered)
  · intro k hk
    by_cases known : k ∈ r.processed
    · exact .inr (before k known)
    · have now := ((mem_processed k).mp hk).resolve_left known
      refine .inl ?_
      simp only [hfresh]
      exact (mem_fresh k).mpr ⟨now, known⟩

/-- Everything has been read. -/
theorem RunSound.read (run : RunSound t s r) {fresh : List K}
    {pages : List (List K)} {todo : List I}
    (hplace : r.place = .scripting fresh done [] pages todo) :
    RunSound t s { r with whole := some done, place := .writing fresh pages todo } := by
  have inPlace := run.place
  rw [InPlace, hplace] at inPlace
  obtain ⟨unread, scripts⟩ := inPlace
  have looked : (Place.writing fresh pages todo : Place I D G K).lookedAt = r.place.lookedAt := by
    rw [hplace]
    rfl
  refine run.goOn rfl looked ?_ ?_ ?_ (.inr ⟨done, rfl⟩)
  · intro g
    have was := run.caught g
    rw [hplace] at was
    exact was
  · rintro bs ⟨⟩
    exact scripts.gathered
  · intro k hk
    have := run.processed k hk
    rw [hplace] at this
    rcases this with now | ⟨bs, hbs, _⟩
    · exact .inl now
    · rw [unread] at hbs
      cases hbs

/-- What is written of the buckets that are picked. -/
theorem RunSound.bulk (run : RunSound t s r) {fresh : List K} {pages : List (List K)}
    {todo : List I} (hplace : r.place = .writing fresh pages todo) :
    fresh = [] ∧ r.whole.getD [] = [] ∨
      ∃ bs, r.whole = some bs ∧ Gathered t s (Past s r) bs := by
  have inPlace := run.place
  rw [InPlace, hplace] at inPlace
  cases hw : r.whole with
  | some bs => exact .inr ⟨bs, rfl, run.whole bs hw⟩
  | none =>
    rcases inPlace with none_ | ⟨bs, hbs⟩
    · exact .inl ⟨none_, rfl⟩
    · rw [hw] at hbs
      cases hbs

/-- The run fails, whatever it has written of what it was writing. -/
theorem Sound.fail (h : Sound t s) {n : ℕ} (fit : Fit t s (.fail n)) :
    Sound t (fail t s n) := by
  unfold Transform.fail
  split
  next reached processed whole fresh pages todo hrun =>
    have run := h.run _ hrun
    have distinct := fit _ fresh pages todo hrun rfl
    rcases run.bulk rfl with ⟨_, empty⟩ | ⟨bs, hw, gathered⟩
    · simp only at empty
      simp only [empty, selected, List.filter_nil, List.map_nil, List.take_nil]
      exact h.toKept.idle
    · simp only at hw
      subst hw
      have sub : (bs.filter fun b => t.key b.group ∈ fresh).take n ⊆ bs :=
        fun b hb => (List.mem_filter.mp (List.mem_of_mem_take hb)).1
      refine ⟨⟨h.held_lt, h.visible, ?_⟩, ?_⟩
      · intro g
        refine gathered.covered_write distinct sub (fun e he => .inl he) rfl ?_
          (.inl (h.caught g))
        simp [selected, List.map_take]
      · rintro r ⟨⟩
  next => exact h.toKept.idle

/-- The documents of a page are written. -/
theorem Sound.write (h : Sound t s) (run : RunSound t s r) {fresh : List K}
    {pages : List (List K)} {todo : List I} (hplace : r.place = .writing fresh pages todo)
    (distinct : Distinct t ((r.whole.getD []).map Bucket.group)) :
    Sound t { s with
      target := indexDocs s.target (selected t (r.whole.getD []) fresh)
      run := some { r with place := .paging pages todo } } := by
  have looked : (Place.paging pages todo : Place I D G K).lookedAt = r.place.lookedAt := by
    rw [hplace]
    rfl
  have searched : Searched { r with place := .paging pages todo } = Searched r :=
    searched_eq rfl looked
  have past (e : Entry I D) : Past s { r with place := .paging pages todo } e → Past s r e :=
    Or.imp id (congrFun searched e).mp
  have was (g : G) := run.caught g
  have did := run.processed
  simp only [hplace, Place.fresh, Place.pages] at was did
  rcases run.bulk hplace with ⟨empty, unread⟩ | ⟨bs, hw, gathered⟩
  · have same : indexDocs s.target (selected t (r.whole.getD []) fresh) = s.target := by
      rw [unread]
      rfl
    rw [same]
    refine h.toKept.put (run.goOn rfl looked ?_ run.whole ?_ trivial)
    · intro g
      refine .inr ((was g).resolve_left ?_)
      simp [empty]
    · intro k hk
      refine .inr ((did k hk).resolve_left ?_)
      simp [empty]
  · rw [hw, Option.getD_some] at distinct
    have docs : selected t (r.whole.getD []) fresh =
        (bs.filter fun b => t.key b.group ∈ fresh).map (bucketDoc t) := by
      rw [hw]
      rfl
    rw [docs]
    have sub : (bs.filter fun b => t.key b.group ∈ fresh) ⊆ bs :=
      fun b hb => (List.mem_filter.mp hb).1
    have picked {b : Bucket I D G} (hb : b ∈ bs) (hk : t.key b.group ∈ fresh) :
        b ∈ bs.filter fun b => t.key b.group ∈ fresh :=
      List.mem_filter.mpr ⟨hb, by simpa using hk⟩
    refine ⟨⟨h.held_lt, h.visible, ?_⟩, ?_⟩
    · intro g
      exact gathered.covered_write distinct sub (fun e he => .inl he) rfl rfl
        (.inl (h.caught g))
    · rintro r' ⟨⟩
      refine ⟨run.reached_lt, ?_, ?_, ?_, ?_, trivial⟩
      · rw [searched]
        exact run.visible
      · intro g
        rcases was g with now | later | covered
        · exact .inr (.inr (gathered.covered_write distinct sub past rfl rfl
            (.inr fun b hb same => picked hb (by rw [same]; exact now))))
        · exact .inr (.inl later)
        · exact .inr (.inr (gathered.covered_write distinct sub past rfl rfl
            (.inl (covered.mono fun e _ _ he => past e he))))
      · intro bs' hbs'
        exact (run.whole bs' hbs').under ⟨List.Sublist.refl _, fun e he hp => ⟨he, past e hp⟩⟩
      · intro k hk
        refine .inr ⟨bs, hw, ?_⟩
        intro b hb same
        refine gathered.write distinct sub s.target hb ?_
        rcases did k hk with now | ⟨bs', hbs', stands⟩
        · exact .inl (picked hb (by rw [same]; exact now))
        · rw [hw] at hbs'
          cases hbs'
          exact .inr (stands b hb same)

/-! ## Whole runs -/

theorem Sound.advance (h : Sound t s) (fit : Fit t s .advance) : Sound t (advance t s) := by
  have kept := h.toKept
  cases hr : s.run with
  | none =>
    simp only [Transform.advance, hr]
    exact kept.put kept.start
  | some r =>
    have run := h.run r hr
    have inPlace := run.place
    simp only [Fit, hr] at fit
    simp only [Transform.advance, hr]
    cases hplace : r.place with
    | walking todo =>
      cases todo with
      | nil => exact run.finish hplace
      | cons i todo =>
        have looked (before : ℤ) (hbefore : before = (s.held i).getD (-1)) :=
          kept.put (run.look hplace (p := .looked i before (checkpoint s i) {} todo)
            (fun _ _ _ _ away => absurd rfl away) rfl
            (fun _ => ⟨Function.update_self _ _ _, hbefore, .start⟩) kept)
        simp only
        cases hheld : s.held i with
        | none => exact looked (-1) (by simp [hheld])
        | some before =>
          simp only
          by_cases behind : checkpoint s i ≤ before
          · simp only [if_pos behind]
            refine kept.put (run.look hplace (p := .walking todo) ?_ rfl (fun _ => trivial) kept)
            rintro e _ rfl le _
            exact ⟨before, hheld, Int.le_trans le behind⟩
          · simp only [if_neg behind]
            exact looked before (by simp [hheld])
    | looked i before now w todo =>
      rw [hplace] at fit
      rw [InPlace, hplace] at inPlace
      obtain ⟨continues, fit⟩ := fit
      obtain ⟨reached, hbefore, finds⟩ := inPlace
      by_cases ended : w.ended
      · simp only [if_pos ended]
        exact kept.put (run.search hplace ended fit (chunks_flatten _ _ _ (Nat.le_refl _)) kept)
      · simp only [if_neg ended]
        refine kept.put (run.move hplace rfl rfl rfl ⟨reached, hbefore, finds.turn continues ?_⟩)
        rintro e he ⟨same, late, le⟩
        simp [changed, (fit e he same late le).1, late, le]
    | paging pages todo =>
      cases pages with
      | nil => exact kept.put (run.move hplace rfl rfl rfl trivial)
      | cons page pages =>
        simp only
        by_cases reads : (r.whole.isNone && !(freshKeys r.processed page).2.isEmpty) = true
        · simp only [if_pos reads]
          refine kept.put (run.page hplace rfl rfl rfl rfl fun _ => ⟨?_, .start⟩)
          simp only [Bool.and_eq_true, Option.isNone_iff_eq_none] at reads
          exact reads.1
        · simp only [if_neg reads]
          refine kept.put (run.page hplace rfl rfl rfl rfl fun _ => ?_)
          show (freshKeys r.processed page).2 = [] ∨ ∃ bs, r.whole = some bs
          cases hw : r.whole with
          | some bs => exact .inr ⟨bs, rfl⟩
          | none => simpa [hw] using reads
    | gathering fresh w pages todo =>
      rw [hplace] at fit
      rw [InPlace, hplace] at inPlace
      obtain ⟨unread, gathers⟩ := inPlace
      cases ended : w.ended with
      | false =>
        simp only [ended, Bool.not_false, if_true]
        exact kept.put (run.move hplace rfl rfl rfl
          ⟨unread, gathers.turn fit ended (kept.past_visible run)⟩)
      | true =>
        have scripts := gathers.scripts ended
        cases scripted : t.scripted with
        | true =>
          simp only [ended, scripted, Bool.not_true, if_true] at scripts ⊢
          exact kept.put (run.move hplace rfl rfl rfl ⟨unread, scripts⟩)
        | false =>
          simp only [ended, scripted, Bool.not_true] at scripts ⊢
          exact kept.put (run.move hplace rfl rfl rfl ⟨unread, scripts⟩)
    | scripting fresh done rest pages todo =>
      cases rest with
      | nil => exact kept.put (run.read hplace)
      | cons b rest =>
        rw [hplace] at fit
        rw [InPlace, hplace] at inPlace
        obtain ⟨unread, scripts⟩ := inPlace
        exact kept.put (run.move hplace rfl rfl rfl
          ⟨unread, scripts.next fit (kept.past_visible run)⟩)
    | writing fresh pages todo =>
      rw [hplace] at fit
      exact h.write run hplace fit

theorem Sound.step (h : Sound t s) {a : Act I D} (fit : Fit t s a) : Sound t (step t s a) := by
  cases a with
  | write i d => exact h.grow (grows_write i d) rfl
  | refresh i shows => exact h.grow (grows_refresh i shows) rfl
  | advance => exact h.advance fit
  | fail n => exact h.fail fit

theorem Sound.after (h : Sound t s) {acts : List (Act I D)} (fit : AllFit t s acts) :
    Sound t (after t s acts) := by
  induction acts generalizing s with
  | nil => exact h
  | cons a acts ih => exact ih (h.step fit.1) fit.2

theorem Sound.fresh : Sound t (State.fresh : State I D G K N O) := by
  have none_held (e : Entry I D) : ¬ Held (State.fresh : State I D G K N O) e := by
    rintro ⟨_, hc, _⟩
    cases hc
  refine ⟨⟨?_, ?_, ?_⟩, ?_⟩
  · rintro _ _ ⟨⟩
  · intro e _ he
    exact absurd he (none_held e)
  · rintro g ⟨e, _, he, _⟩
    exact absurd he (none_held e)
  · rintro _ ⟨⟩

/-! ## A run that nothing disturbs -/

/-- What is true of a run from `s` on that no write disturbs. -/
structure Quiet (t : Job I D G K N O) (s s' : State I D G K N O) : Prop where
  written : s'.written = s.written
  reached : ∀ r, s'.run = some r → ∀ i ∈ t.sources, i ∉ r.place.todo →
    r.reached i = some (checkpoint s i)
  held : s'.run = none → ∀ i ∈ t.sources, s'.held i = some (checkpoint s i)

theorem Quiet.start (rest : s.run = none) : Quiet t s (advance t s) := by
  simp only [advance, rest]
  refine ⟨rfl, ?_, ?_⟩
  · rintro r ⟨⟩ i hi away
    exact absurd hi away
  · rintro ⟨⟩

/-- The run stays at the index it is at. -/
theorem Quiet.move (h : Quiet t s s') (hr : s'.run = some r) {p : Place I D G K}
    (hplace : r.place = p) {x : State I D G K N O} (written : x.written = s'.written)
    {r' : Run I D G K} (run : x.run = some r') (reached : r'.reached = r.reached)
    (todo : r'.place.todo = p.todo) : Quiet t s x := by
  subst hplace
  refine ⟨written.trans h.written, ?_, ?_⟩
  · intro r'' hr'' i hi away
    rw [run] at hr''
    cases hr''
    rw [todo] at away
    rw [reached]
    exact h.reached r hr i hi away
  · intro none_
    rw [run] at none_
    cases none_

theorem Quiet.advance (h : Quiet t s s') (going : s'.run ≠ none) :
    Quiet t s (advance t s') := by
  cases hr : s'.run with
  | none => exact absurd hr going
  | some r =>
    have hcheck (i : I) : checkpoint s' i = checkpoint s i := by
      simp only [checkpoint, h.written]
    have hreached := h.reached r hr
    simp only [Transform.advance, hr]
    cases hplace : r.place with
    | walking todo =>
      rw [hplace] at hreached
      cases todo with
      | nil =>
        refine ⟨h.written, ?_, ?_⟩
        · rintro _ ⟨⟩
        · intro _ i hi
          exact hreached i hi (by simp [Place.todo])
      | cons i todo =>
        have look (p : Place I D G K) (htodo : p.todo = todo) : Quiet t s { s' with
            run := some { r with
              reached := Function.update r.reached i (some (checkpoint s' i)), place := p } } := by
          refine ⟨h.written, ?_, ?_⟩
          · rintro r' ⟨⟩ i' hi' away
            by_cases same : i' = i
            · subst same
              simp [hcheck]
            · simp only [Function.update_of_ne same]
              refine hreached i' hi' ?_
              simp only [htodo] at away
              simp [Place.todo, same, away]
          · rintro ⟨⟩
        simp only
        cases s'.held i with
        | none => exact look _ rfl
        | some before =>
          simp only
          split
          · exact look _ rfl
          · exact look _ rfl
    | looked i before now w todo =>
      refine h.move hr hplace rfl rfl rfl ?_
      split
      · rfl
      · rfl
    | paging pages todo =>
      cases pages with
      | nil => exact h.move hr hplace rfl rfl rfl rfl
      | cons page pages =>
        refine h.move hr hplace rfl rfl rfl ?_
        split
        · rfl
        · rfl
    | gathering fresh w pages todo =>
      refine h.move hr hplace rfl rfl rfl ?_
      split
      · rfl
      · split
        · rfl
        · rfl
    | scripting fresh done rest pages todo =>
      cases rest with
      | nil => exact h.move hr hplace rfl rfl rfl rfl
      | cons b rest => exact h.move hr hplace rfl rfl rfl rfl
    | writing fresh pages todo => exact h.move hr hplace rfl rfl rfl rfl

/-- Where the checkpoints have come to all that was written, nothing is missing. -/
theorem Sound.complete (h : Sound t s)
    (held : ∀ i ∈ t.sources, s.held i = some (checkpoint s i)) : Complete t s := by
  have passed (e : Entry I D) (he : e ∈ everything t s) : Held s e := by
    obtain ⟨hi, b, hn, _⟩ := mem_everything.mp he
    refine ⟨_, held e.index hi, ?_⟩
    have := (List.getElem?_eq_some_iff.mp hn).1
    simp only [checkpoint]
    omega
  have whole {g : G} {es : List (Entry I D)} (reads : Reads t s (Held s) g es) :
      es = ofGroup t g (everything t s) := by
    have sub : es.Sublist (ofGroup t g (everything t s)) :=
      reads.sub.trans (ofGroup_sublist seen_sublist g)
    have nodup : (ofGroup t g (everything t s)).Nodup := everything_nodup.filter _
    have more : ofGroup t g (everything t s) ⊆ es := by
      intro e he
      obtain ⟨he, hg⟩ := mem_ofGroup.mp he
      exact reads.all e he (passed e he) hg
    exact sub.eq_of_length_le (List.subperm_of_subset nodup more).length_le
  intro g hg
  obtain ⟨e, he, hge⟩ := mem_groupsOf.mp hg
  obtain ⟨b, rfl, holds, stands⟩ := h.caught g ⟨e, he, passed e he, hge⟩
  rw [stands, bucketDoc, whole holds.docs]
  cases scripted : t.scripted with
  | true => rw [whole (holds.more scripted), if_pos rfl]
  | false => rw [holds.none scripted, if_neg (by simp), List.map_nil]

/-- A field that is true or false is grouped by, and a script runs over each group. -/
def one : Job Unit Bool Bool Bool Bool (List Bool × List Bool) where
  sources := [()]
  sources_nodup := List.nodup_singleton ()
  selects _ := true
  dims := [{ sourceField := "open", grouping := .terms }]
  scripted := true
  groups d := [d]
  values g := [.bool g]
  reread g := g
  finds filters d := filters.all fun f =>
    match f with
    | .term _ (.bool b) => b == d
    | _ => false
  key g := g
  docId k := k
  bucketDoc _ docs more := (docs, more)
  pageSize := 10

/-- A document, written and refreshed. -/
def shownOne : State Unit Bool Bool Bool Bool (List Bool × List Bool) :=
  after one .fresh [.write () true, .refresh () fun _ => true]

end Velosearch.Transform
