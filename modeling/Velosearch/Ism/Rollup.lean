import Mathlib.Logic.Function.Basic
import Velosearch.Search.DateBuckets

/-!
# Continuous rollups

The windows of `run` in `src/ism/rollup.rs`. A job begins with the window its earliest document
falls in; each time it looks at the clock it rolls the window up if the window is over, and goes on
to the next. Every bucket the composite search over the window answers with is written under an id
made of its key, over what was written there before.
-/

set_option autoImplicit false

namespace Velosearch.Rollup

/-- A continuous job over one date histogram, which in a rollup has no offset. -/
structure Job where
  hist : DateSpec
  plain : hist.offset = 0
  delay : ℤ
  ceiling : ℕ

/-- What is kept of a job between two looks at the clock, with the windows it rolled up and when. -/
structure Meta where
  nextWindowStartTime : ℤ
  nextWindowEndTime : ℤ
  failed : Bool := false
  rolled : List (ℤ × ℤ × ℤ) := []
  target : ℤ → ℕ := fun _ => 0

variable (r : Job)

/-- The buckets of some dates. -/
def buckets (ds : List ℤ) : Option (List (ℤ × ℕ)) :=
  match ds.min?, ds.max? with
  | some lo, some hi =>
    (Grid.walk r.hist.compositeNext hi false r.ceiling (r.hist.compositeFirst lo)).map fun cells =>
      (cells.map fun c => (c.1, ds.countP fun d => c.1 ≤ d && d < c.2)).filter (0 < ·.2)
  | _, _ => some []

/-- The documents of a window, put in place of those that were there. -/
def indexDocs (target : ℤ → ℕ) (bs : List (ℤ × ℕ)) : ℤ → ℕ :=
  bs.foldl (fun t b => Function.update t b.1 b.2) target

/-- The documents from `start` up to `stop`. -/
def within (docs : List ℤ) (start stop : ℤ) : List ℤ :=
  docs.filter fun d => start ≤ d && d < stop

/-- Where a job stands before its first window. -/
def initial (docs : List ℤ) : Option Meta :=
  docs.min?.map fun first =>
    let start := r.hist.windowFloor first
    { nextWindowStartTime := start, nextWindowEndTime := r.hist.windowEnd start }

/-- One look at the job. -/
def look (docs : List ℤ) (m : Meta) (now : ℤ) : Meta :=
  if m.failed || m.nextWindowEndTime - r.delay > now then m
  else
    let start := m.nextWindowStartTime
    let stop := m.nextWindowEndTime
    match buckets r (within docs start stop) with
    | none => { m with failed := true }
    | some bs =>
      { m with
        nextWindowStartTime := stop
        nextWindowEndTime := r.hist.windowEnd stop
        rolled := m.rolled ++ [(start, stop, now)]
        target := indexDocs m.target bs }

/-- Several. -/
def run (docs : List ℤ) (m : Meta) (nows : List ℤ) : Meta := nows.foldl (look r docs) m

/-! ## Where windows begin and end -/

/-- How long a calendar unit is, where it is always as long. -/
def unitLength : CalendarUnit → Option ℤ
  | .second => some 1000
  | .minute => some 60000
  | .hour => some 3600000
  | .day => some 86400000
  | .week | .weekSunday => some 604800000
  | .month | .quarter | .year => none

/-- The zone, where the first window is placed, is on the offset of the epoch but for whole steps,
and the window begins by its first document. -/
def FirstFits (q : DateSpec) (first : ℤ) : Prop :=
  match q.interval with
  | .fixed step _ => step ∣ q.zoneAt first - q.zoneAt 0
  | .calendar _ u _ =>
    let f := u.floor (first + q.zoneAt first)
    f ≤ first + q.zoneAt f ∧
      match unitLength u with
      | some step => step ∣ q.zoneAt f - q.zoneAt 0
      | none => q.zoneAt f = q.zoneAt 0

/-- The offsets a window's end is placed by: for a unit of a fixed length they differ by whole
steps, and not so much that the window ends where it begins; for a month, a quarter or a year the
end is placed by the offset of the epoch and the beginning by none behind it. -/
def WindowFits (q : DateSpec) (start : ℤ) : Prop :=
  match q.interval with
  | .fixed _ _ => True
  | .calendar _ u _ =>
    let l := u.advance (start + q.zoneAt start)
    match unitLength u with
    | some step => step ∣ q.zoneAt l - q.zoneAt start ∧ q.zoneAt l < q.zoneAt start + step
    | none => q.zoneAt l = q.zoneAt 0 ∧ q.zoneAt 0 ≤ q.zoneAt start

theorem advance_length {u : CalendarUnit} {step : ℤ} (h : unitLength u = some step) (t : ℤ) :
    u.advance t = t + step := by
  cases u <;> cases h <;> rfl

theorem starts_add_length {u : CalendarUnit} {step : ℤ} (h : unitLength u = some step) {b : ℤ}
    (hb : u.grid.Starts b) (k : ℤ) : u.grid.Starts (b + step * k) := by
  have even : ∀ {s : ℤ}, 0 < s → b / s * s = b → (b + s * k) / s * s = b + s * k := by
    intro s pos hs
    rw [Int.add_mul_ediv_left _ _ (by omega), Int.add_mul, hs, Int.mul_comm k]
  have weeks : ∀ {a : ℤ}, ((b / 86400000 - a) / 7 * 7 + a) * 86400000 = b →
      (((b + 604800000 * k) / 86400000 - a) / 7 * 7 + a) * 86400000 = b + 604800000 * k := by
    intro a hs
    omega
  cases u <;> cases h
  · exact even (by decide) hb
  · exact even (by decide) hb
  · exact even (by decide) hb
  · exact even (by decide) hb
  · exact weeks hb
  · exact weeks hb

/-- Months that are added to a start in a zone. -/
theorem addMonths_near {n : ℕ} {hn : 0 < n} {b δ : ℤ}
    (hb : ((Civil.months n hn).scale CalendarUnit.dayMs (by decide)).Starts b) (h0 : 0 ≤ δ)
    (h7 : δ < weekMs) : CalendarUnit.addMonths (b + δ) n =
      ((Civil.months n hn).scale CalendarUnit.dayMs (by decide)).next b := by
  rw [← CalendarUnit.addMonths_eq hb]
  have hd : Civil.monthStart (n * (Civil.monthOf (b / CalendarUnit.dayMs) / n)) *
    CalendarUnit.dayMs = b := hb
  generalize n * (Civil.monthOf (b / CalendarUnit.dayMs) / n) = i at hd
  have hlen : Civil.monthStart i + 28 * 1 ≤ Civil.monthStart (i + 1) :=
    (Civil.monthStart_add i 1).1
  have hmonth : ∀ {t : ℤ}, 0 ≤ t → t < 7 → Civil.monthOf (Civil.monthStart i + t) = i := by
    intro t ht0 ht7
    exact Grid.index_eq Civil.monthStart_lt (fun d => (Civil.monthOf_spec d).1)
      (fun d => (Civil.monthOf_spec d).2) (by omega) (by omega)
  unfold weekMs at h7
  have hday : b / CalendarUnit.dayMs = Civil.monthStart i + 0 := by
    unfold CalendarUnit.dayMs at *
    omega
  have hday' : (b + δ) / CalendarUnit.dayMs = Civil.monthStart i + δ / CalendarUnit.dayMs := by
    unfold CalendarUnit.dayMs at *
    omega
  have hδ : 0 ≤ δ / CalendarUnit.dayMs ∧ δ / CalendarUnit.dayMs < 7 := by
    unfold CalendarUnit.dayMs
    omega
  unfold CalendarUnit.addMonths
  rw [hday, hday', hmonth hδ.1 hδ.2, hmonth (Int.le_refl 0) (by decide)]

/-- A unit on from a start is the next start. -/
theorem advance_near {u : CalendarUnit} (h : unitLength u = none) {b δ : ℤ}
    (hb : u.grid.Starts b) (h0 : 0 ≤ δ) (h7 : δ < weekMs) :
    u.advance (b + δ) = u.grid.next b := by
  cases u <;> cases h
  · exact addMonths_near (n := 1) hb h0 h7
  · exact addMonths_near (n := 3) hb h0 h7
  · exact addMonths_near (n := 12) hb h0 h7

section Windows

variable {q : DateSpec} (hplain : q.offset = 0)

include hplain

theorem grid_plain : q.grid = q.unitGrid.shift (0 - q.zoneAt 0) := by
  unfold DateSpec.grid DateSpec.slide
  rw [hplain, ite_self]

theorem starts_iff (b : ℤ) : q.grid.Starts b ↔ q.unitGrid.Starts (b + q.zoneAt 0) := by
  rw [grid_plain hplain]
  show q.unitGrid.floor (b - (0 - q.zoneAt 0)) + (0 - q.zoneAt 0) = b ↔
    q.unitGrid.floor (b + q.zoneAt 0) = b + q.zoneAt 0
  rw [show b - (0 - q.zoneAt 0) = b + q.zoneAt 0 by omega]
  omega

/-- The first window begins where a bucket does. -/
theorem first_window {first : ℤ} (h : FirstFits q first) :
    q.grid.Starts (q.windowFloor first) ∧ q.windowFloor first ≤ first := by
  rw [starts_iff hplain]
  unfold FirstFits at h
  unfold DateSpec.windowFloor DateSpec.unitGrid
  cases hi : q.interval with
  | fixed step pos =>
    rw [hi] at h
    obtain ⟨k, hk⟩ := h
    have hle := Int.ediv_mul_le (first + q.zoneAt first) (b := step) (by omega)
    constructor
    · show ((first + q.zoneAt first) / step * step - q.zoneAt first + q.zoneAt 0) / step * step = _
      rw [show (first + q.zoneAt first) / step * step - q.zoneAt first + q.zoneAt 0 =
        ((first + q.zoneAt first) / step - k) * step by
          rw [Int.sub_mul, Int.mul_comm k]
          omega, Int.mul_ediv_cancel _ (by omega)]
    · show (first + q.zoneAt first) / step * step - q.zoneAt first ≤ first
      omega
  | calendar name u named =>
    rw [hi] at h
    obtain ⟨hle, hzone⟩ := h
    have hs : u.grid.Starts (u.floor (first + q.zoneAt first)) := by
      rw [u.floor_eq]
      exact u.grid.starts_floor _
    refine ⟨?_, by show u.floor _ - _ ≤ _; omega⟩
    show u.grid.Starts (u.floor (first + q.zoneAt first) -
      q.zoneAt (u.floor (first + q.zoneAt first)) + q.zoneAt 0)
    generalize u.floor (first + q.zoneAt first) = f at *
    cases hl : unitLength u with
    | some step =>
      rw [hl] at hzone
      obtain ⟨k, hk⟩ := hzone
      have hmove := starts_add_length hl hs (-k)
      rw [Int.mul_neg] at hmove
      rwa [show f - q.zoneAt f + q.zoneAt 0 = f + -(step * k) by omega]
    | none =>
      rw [hl] at hzone
      have hzone : q.zoneAt f = q.zoneAt 0 := hzone
      rwa [hzone, Int.sub_add_cancel]

/-- A window ends where one does. -/
theorem window_end {start : ℤ} (hs : q.grid.Starts start) (h : WindowFits q start) :
    q.grid.Starts (q.windowEnd start) ∧ start < q.windowEnd start := by
  have hs' := (starts_iff hplain start).mp hs
  rw [starts_iff hplain]
  unfold WindowFits at h
  unfold DateSpec.windowEnd
  unfold DateSpec.unitGrid at hs' ⊢
  cases hi : q.interval with
  | fixed step pos =>
    rw [hi] at hs'
    constructor
    · have hn := hs'.next
      show (Grid.even step pos).Starts (start + step + q.zoneAt 0)
      rwa [show start + step + q.zoneAt 0 = start + q.zoneAt 0 + step by omega]
    · show start < start + step
      omega
  | calendar name u named =>
    rw [hi] at h hs'
    have hs' : u.grid.Starts (start + q.zoneAt 0) := hs'
    show u.grid.Starts (u.advance (start + q.zoneAt start) -
      q.zoneAt (u.advance (start + q.zoneAt start)) + q.zoneAt 0) ∧
      start < u.advance (start + q.zoneAt start) - q.zoneAt (u.advance (start + q.zoneAt start))
    cases hl : unitLength u with
    | some step =>
      simp only [hl] at h
      rw [advance_length hl] at *
      obtain ⟨⟨k, hk⟩, hlt⟩ := h
      constructor
      · have hmove := starts_add_length hl hs' (1 - k)
        rw [Int.mul_sub, Int.mul_one] at hmove
        rwa [show start + q.zoneAt start + step - q.zoneAt (start + q.zoneAt start + step) +
          q.zoneAt 0 = start + q.zoneAt 0 + (step - step * k) by omega]
      · omega
    | none =>
      simp only [hl] at h
      obtain ⟨hend, hstart⟩ := h
      -- the offset at the start moves it on, but not out of its cell
      have hnear := q.zoneAt_near start 0
      have hcell := advance_near hl hs' (δ := q.zoneAt start - q.zoneAt 0) (by omega) (by omega)
      rw [show start + q.zoneAt 0 + (q.zoneAt start - q.zoneAt 0) = start + q.zoneAt start by omega]
        at hcell
      have hlt := hs'.lt_next
      rw [hend, hcell, Int.sub_add_cancel]
      exact ⟨hs'.next, by omega⟩

end Windows

/-! ## The buckets of a window -/

theorem indexDocs_eq {v : ℤ → ℕ} {bs : List (ℤ × ℕ)} (hv : ∀ x ∈ bs, x.2 = v x.1) (t : ℤ → ℕ)
    (k : ℤ) : indexDocs t bs k = if k ∈ bs.map Prod.fst then v k else t k := by
  unfold indexDocs
  induction bs generalizing t with
  | nil => simp
  | cons x bs ih =>
    rw [List.foldl_cons, ih (fun y hy => hv y (List.mem_cons_of_mem _ hy)), List.map_cons]
    by_cases hin : k ∈ bs.map Prod.fst
    · rw [if_pos hin, if_pos (List.mem_cons_of_mem _ hin)]
    · rw [if_neg hin]
      by_cases hk : k = x.1
      · rw [hk, Function.update_self, if_pos List.mem_cons_self]
        exact hv x List.mem_cons_self
      · rw [Function.update_of_ne hk, if_neg]
        intro hmem
        cases List.mem_cons.mp hmem with
        | inl heq => exact hk heq
        | inr hmem => exact hin hmem

variable {r}

/-- The buckets of a window count its dates. -/
theorem buckets_counts {ds : List ℤ} {bs : List (ℤ × ℕ)} (h : buckets r ds = some bs)
    (t : ℤ → ℕ) (k : ℤ) :
    indexDocs t bs k =
      if ∃ d ∈ ds, r.hist.compositeFirst d = k then
        ds.countP fun d => r.hist.compositeFirst d = k
      else t k := by
  obtain ⟨hfirst, hnext⟩ := r.hist.composite_grid
  have incell : ∀ {b : ℤ}, r.hist.grid.Starts b → ∀ d,
      (b ≤ d && d < r.hist.grid.next b) = decide (r.hist.compositeFirst d = b) := by
    intro b hb d
    rw [hfirst]
    by_cases hd : b ≤ d ∧ d < r.hist.grid.next b
    · simp [hd, hb.floor_of hd.1 hd.2]
    · have hne : r.hist.grid.floor d ≠ b := by
        intro heq
        have h1 := r.hist.grid.floor_le d
        have h2 := r.hist.grid.lt_next d
        rw [heq] at h1 h2
        exact hd ⟨h1, h2⟩
      simpa [hne] using hd
  unfold buckets at h
  split at h
  · rename_i lo hi hlo hhi
    obtain ⟨cells, hcells, rfl⟩ := Option.map_eq_some_iff.mp h
    rw [hfirst] at hcells
    have hmem := Grid.mem_walk hnext r.ceiling (r.hist.grid.starts_floor lo) hcells
    have hmin := (List.min?_eq_some_iff.mp hlo).2
    have hmax := (List.max?_eq_some_iff.mp hhi).2
    have hcount : ∀ c ∈ cells, (ds.countP fun d => c.1 ≤ d && d < c.2) =
        ds.countP fun d => r.hist.compositeFirst d = c.1 := by
      intro c hc
      obtain ⟨hs, -, -, heq⟩ := (hmem c).mp hc
      congr 1
      funext d
      rw [heq, incell hs]
    rw [indexDocs_eq (v := fun b => ds.countP fun d => r.hist.compositeFirst d = b)]
    · have hkeys : (k ∈ (((cells.map fun c => (c.1, ds.countP fun d => c.1 ≤ d && d < c.2)).filter
          (0 < ·.2)).map Prod.fst)) ↔ ∃ d ∈ ds, r.hist.compositeFirst d = k := by
        constructor
        · intro hk
          obtain ⟨x, hx, rfl⟩ := List.mem_map.mp hk
          obtain ⟨hx, hpos⟩ := List.mem_filter.mp hx
          obtain ⟨c, hc, rfl⟩ := List.mem_map.mp hx
          have hpos : 0 < ds.countP fun d => c.1 ≤ d && d < c.2 := by simpa using hpos
          rw [hcount c hc, List.countP_pos_iff] at hpos
          obtain ⟨d, hd, heq⟩ := hpos
          exact ⟨d, hd, by simpa using heq⟩
        · rintro ⟨d, hd, rfl⟩
          -- the cell of the document is one of those the search goes over
          have hlow : r.hist.grid.floor lo ≤ r.hist.grid.floor d := Grid.floor_mono (hmin d hd)
          have hhigh : r.hist.grid.floor d ≤ hi :=
            Int.le_trans (r.hist.grid.floor_le d) (hmax d hd)
          have hc := (hmem (r.hist.grid.floor d, r.hist.grid.next (r.hist.grid.floor d))).mpr
            ⟨r.hist.grid.starts_floor d, hlow, hhigh, rfl⟩
          rw [hfirst]
          refine List.mem_map.mpr ⟨_, List.mem_filter.mpr ⟨List.mem_map.mpr ⟨_, hc, rfl⟩, ?_⟩, rfl⟩
          have hpos : 0 < ds.countP fun x => r.hist.grid.floor d ≤ x &&
              x < r.hist.grid.next (r.hist.grid.floor d) := by
            rw [List.countP_pos_iff]
            refine ⟨d, hd, ?_⟩
            rw [incell (r.hist.grid.starts_floor d), hfirst]
            simp
          simpa using hpos
      rw [if_congr hkeys rfl rfl]
    · intro x hx
      obtain ⟨hx, -⟩ := List.mem_filter.mp hx
      obtain ⟨c, hc, rfl⟩ := List.mem_map.mp hx
      exact hcount c hc
  · rename_i hnone
    cases h
    have hempty : ds = [] := by
      cases ds with
      | nil => rfl
      | cons d ds => exact absurd rfl (hnone _ _ rfl)
    rw [hempty]
    simp [indexDocs]

/-! ## Runs of a job -/

variable (r)

/-- Windows that follow one another without a gap, none of them empty. -/
inductive Tiles : ℤ → List (ℤ × ℤ × ℤ) → ℤ → Prop where
  | nil (a : ℤ) : Tiles a [] a
  | snoc {a b c now : ℤ} {ws : List (ℤ × ℤ × ℤ)} (rest : Tiles a ws b) (later : b < c) :
      Tiles a (ws ++ [(b, c, now)]) c

/-- A look at the clock that finds the window over finds the delay over too, and a window whose
end was well placed. -/
def Fit (m : Meta) (now : ℤ) : Prop :=
  m.nextWindowEndTime - r.delay ≤ now →
    m.nextWindowEndTime + r.delay ≤ now ∧ WindowFits r.hist m.nextWindowStartTime

/-- Every look of a run is one of these. -/
def AllFit (docs : List ℤ) (m : Meta) : List ℤ → Prop
  | [] => True
  | now :: nows => Fit r m now ∧ AllFit docs (look r docs m now) nows

/-- A window holds the documents of whole buckets: two that a composite source puts in one bucket
are both in it or both out of it. -/
def Whole (w : ℤ × ℤ × ℤ) : Prop :=
  ∀ x y, r.hist.compositeFirst x = r.hist.compositeFirst y →
    (w.1 ≤ x ∧ x < w.2.1 ↔ w.1 ≤ y ∧ y < w.2.1)

/-- What holds between two looks at the clock. -/
structure Kept (docs : List ℤ) (start : ℤ) (m : Meta) : Prop where
  starts : r.hist.grid.Starts m.nextWindowStartTime
  ends : m.nextWindowEndTime = r.hist.windowEnd m.nextWindowStartTime
  tiles : Tiles start m.rolled m.nextWindowStartTime
  whole : ∀ w ∈ m.rolled, Whole r w
  late : ∀ w ∈ m.rolled, w.2.1 + r.delay ≤ w.2.2
  counted : ∀ k, m.target k = docs.countP fun d =>
    d < m.nextWindowStartTime ∧ r.hist.compositeFirst d = k

variable {r}

theorem initial_kept {docs : List ℤ} {first : ℤ} (hfirst : docs.min? = some first)
    (hfit : FirstFits r.hist first) {m : Meta} (hm : initial r docs = some m) :
    Kept r docs m.nextWindowStartTime m := by
  unfold initial at hm
  rw [hfirst] at hm
  cases hm
  obtain ⟨hs, hle⟩ := first_window r.plain hfit
  refine ⟨hs, rfl, Tiles.nil _, by simp, by simp, fun k => ?_⟩
  show 0 = _
  symm
  rw [List.countP_eq_zero]
  intro d hd hlt
  have hmin := (List.min?_eq_some_iff.mp hfirst).2 d hd
  have hlt : d < r.hist.windowFloor first := (of_decide_eq_true hlt).1
  omega

theorem whole_of_starts {w : ℤ × ℤ × ℤ} (h1 : r.hist.grid.Starts w.1)
    (h2 : r.hist.grid.Starts w.2.1) : Whole r w := by
  obtain ⟨hfirst, -⟩ := r.hist.composite_grid
  have side : ∀ {b : ℤ}, r.hist.grid.Starts b → ∀ x, b ≤ x ↔ b ≤ r.hist.grid.floor x := by
    intro b hb x
    constructor
    · intro h
      exact hb.le_floor h
    · intro h
      exact Int.le_trans h (r.hist.grid.floor_le x)
  intro x y hxy
  rw [hfirst, hfirst] at hxy
  have hx1 := side h1 x
  have hy1 := side h1 y
  have hx2 := side h2 x
  have hy2 := side h2 y
  rw [hxy] at hx1 hx2
  omega

/-- A look at the job counts the window it is at. -/
theorem counted_look {docs : List ℤ} {m : Meta} {start : ℤ} (h : Kept r docs start m)
    {bs : List (ℤ × ℕ)}
    (hbs : buckets r (within docs m.nextWindowStartTime m.nextWindowEndTime) = some bs)
    (hlt : m.nextWindowStartTime < m.nextWindowEndTime) (k : ℤ) :
    indexDocs m.target bs k = docs.countP fun d =>
      d < m.nextWindowEndTime ∧ r.hist.compositeFirst d = k := by
  obtain ⟨hfirst, -⟩ := r.hist.composite_grid
  rw [buckets_counts hbs, h.counted k]
  have hwithin : ∀ d, d ∈ within docs m.nextWindowStartTime m.nextWindowEndTime ↔
      d ∈ docs ∧ m.nextWindowStartTime ≤ d ∧ d < m.nextWindowEndTime := by
    intro d
    unfold within
    simp
  by_cases hk : ∃ d ∈ within docs m.nextWindowStartTime m.nextWindowEndTime,
      r.hist.compositeFirst d = k
  · rw [if_pos hk]
    obtain ⟨d, hd, rfl⟩ := hk
    obtain ⟨-, hge, -⟩ := (hwithin d).mp hd
    -- no document before the window is in a bucket of the window
    have hstart : m.nextWindowStartTime ≤ r.hist.compositeFirst d := by
      rw [hfirst]
      exact h.starts.le_floor hge
    unfold within
    rw [List.countP_filter]
    apply List.countP_congr
    intro x _
    have hx : r.hist.compositeFirst x ≤ x := by
      rw [hfirst]
      exact r.hist.grid.floor_le x
    simp only [Bool.and_eq_true, decide_eq_true_eq]
    omega
  · rw [if_neg hk]
    apply List.countP_congr
    intro x hx
    have hnot : m.nextWindowStartTime ≤ x → x < m.nextWindowEndTime →
        r.hist.compositeFirst x ≠ k := by
      intro h1 h2 heq
      exact hk ⟨x, (hwithin x).mpr ⟨hx, h1, h2⟩, heq⟩
    simp only [decide_eq_true_eq]
    constructor
    · rintro ⟨h1, h2⟩
      exact ⟨by omega, h2⟩
    · rintro ⟨h1, h2⟩
      refine ⟨?_, h2⟩
      rcases Int.lt_or_le x m.nextWindowStartTime with hbefore | hin
      · exact hbefore
      · exact absurd h2 (hnot hin h1)

/-- One look keeps the invariant. -/
theorem look_kept {docs : List ℤ} {start : ℤ} {m : Meta} (h : Kept r docs start m) {now : ℤ}
    (hfit : Fit r m now) : Kept r docs start (look r docs m now) := by
  unfold look
  by_cases hwait : m.failed || m.nextWindowEndTime - r.delay > now
  · rw [if_pos hwait]
    exact h
  · rw [if_neg hwait]
    simp only [Bool.or_eq_true, decide_eq_true_eq, not_or] at hwait
    obtain ⟨hlate, hwin⟩ := hfit (by omega)
    obtain ⟨hend, hlt⟩ := window_end r.plain h.starts hwin
    rw [← h.ends] at hend hlt
    dsimp only
    split
    · exact ⟨h.starts, h.ends, h.tiles, h.whole, h.late, h.counted⟩
    · rename_i bs hbs
      refine ⟨hend, rfl, h.tiles.snoc hlt, ?_, ?_, fun k => counted_look h hbs hlt k⟩
      · intro w hw
        cases List.mem_append.mp hw with
        | inl hw => exact h.whole w hw
        | inr hw =>
          rw [List.mem_singleton.mp hw]
          exact whole_of_starts h.starts hend
      · intro w hw
        cases List.mem_append.mp hw with
        | inl hw => exact h.late w hw
        | inr hw =>
          rw [List.mem_singleton.mp hw]
          exact hlate

/-- So do any, by induction. -/
theorem run_kept {docs : List ℤ} {start : ℤ} {m : Meta} (h : Kept r docs start m)
    {nows : List ℤ} (hfit : AllFit r docs m nows) : Kept r docs start (run r docs m nows) := by
  induction nows generalizing m with
  | nil => exact h
  | cons now nows ih => exact ih (look_kept h hfit.1) hfit.2

def months : Job where
  hist := { interval := .calendar "1M" .month rfl, offset := 0, zone := none }
  plain := rfl
  delay := 0
  ceiling := 100

theorem day_pos : (0 : ℤ) < 86400000 := by
  decide

def delayed : Job where
  hist := { interval := .fixed 86400000 day_pos, offset := 0, zone := none }
  plain := rfl
  delay := 3600000
  ceiling := 100

def summer : DateSpec where
  interval := .calendar "1h" .hour rfl
  offset := 0
  zone := some ⟨0, [(7200, 3600)], by decide⟩

end Velosearch.Rollup
