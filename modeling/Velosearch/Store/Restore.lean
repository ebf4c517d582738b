import Mathlib.Data.List.Nodup
import Velosearch.Lib.Crash

/-!
# Restores that are stopped

A restore over a closed index moves the index's directory beside the data, marks the name, makes
the new index where the old one was and takes the mark and the old one away; a restore that fails
undoes what it did. The process may stop anywhere in this, and anywhere in
`recover_interrupted_restores` at the starts that follow.
-/

namespace Velosearch
namespace Store
namespace Restore

open Crash

/-! ## The data directory -/

/-- A file. -/
abbrev File := List Char

/-- The files of one index's directory. -/
abbrev Dir (Content : Type) := File → Option Content

/-- The file that makes a directory an index. -/
def metaJson : File := "_meta.json".toList

/-- A temporary file of `write_atomic` for the state file. -/
def tmpOf (id mark : ℕ) : File :=
  '.' :: (metaJson ++ ['.'] ++ Nat.toDigits 10 id ++ ['.'] ++ Nat.toDigits 10 mark ++
    ".tmp".toList)

/-- A file that is not whole yet. -/
def IsTmp (file : File) : Prop :=
  ∃ id mark, file = tmpOf id mark

variable {Content : Type}

/-- What is kept under one name: the index's directory, the one set aside under
`.restore-aside`, and the mark under `.restoring`. -/
structure Cell (Content : Type) where
  slot : Option (Dir Content)
  aside : Option (Dir Content)
  mark : Bool
  held : Bool

/-- The directory is an index's. -/
def hasMeta (slot : Option (Dir Content)) : Bool :=
  slot.any fun dir => (dir metaJson).isSome

/-- What a removal may leave. -/
def Left (dir : Option (Dir Content)) : Option (Dir Content) → Prop
  | none => True
  | some left => ∃ whole, dir = some whole ∧ ∀ file, left file = whole file ∨ left file = none

/-! ## What the node does to it -/

namespace Cell

/-- The directory goes. -/
def clearSlot : Crash.Act (Cell Content) where
  run c := { c with slot := none }
  stops c c' := ∃ left, Left c.slot left ∧ c' = { c with slot := left }

/-- What was set aside goes. -/
def clearAside : Crash.Act (Cell Content) where
  run c := { c with aside := none }
  stops c c' := ∃ left, Left c.aside left ∧ c' = { c with aside := left }

/-- The rename of `set_aside_if_closed`. -/
def moveAside : Crash.Act (Cell Content) :=
  .atomic fun c => match c.slot with
    | some dir => { c with slot := none, aside := some dir }
    | none => c

/-- The rename of `put_back`: onto a directory that is there it fails. -/
def moveBack : Crash.Act (Cell Content) :=
  .atomic fun c => match c.aside, c.slot with
    | some dir, none => { c with slot := some dir, aside := none }
    | _, _ => c

/-- The mark is set, or goes. -/
def setMark (mark : Bool) : Crash.Act (Cell Content) :=
  .atomic fun c => { c with mark }

/-- The store has the index, or not. -/
def hold (held : Bool) : Crash.Act (Cell Content) :=
  .atomic fun c => { c with held }

/-- A directory is made. -/
def makeDir : Crash.Act (Cell Content) :=
  .atomic fun c => { c with slot := some (c.slot.getD fun _ => none) }

/-- The files of an index that is opened. -/
def openFiles (files : Dir Content) : Crash.Act (Cell Content) where
  run c := { c with slot := some fun file => if file = metaJson then none else files file }
  stops c c' := ∃ dir : Dir Content, dir metaJson = none ∧ c' = { c with slot := some dir }

/-- The files of the snapshot. -/
def fill (files : Dir Content) : Crash.Act (Cell Content) where
  run c := { c with slot := some files }
  stops c c' := ∃ dir, c' = { c with slot := some dir }

/-- `save_meta`, by `write_atomic` -/
def saveMeta (tmp : File) (content : Content) : Crash.Act (Cell Content) where
  run c := { c with slot := c.slot.map fun dir => Function.update dir metaJson (some content) }
  stops c c' := ∃ written,
    c' = { c with slot := c.slot.map fun dir => Function.update dir tmp written }

/-- `Store::delete`. -/
def delete : Prog (Cell Content) :=
  .look fun c => if c.held then .acts [hold false, clearSlot] else .skip

/-- What was set aside is put back. -/
def putBack : Prog (Cell Content) :=
  .seq delete (.acts [clearSlot, moveBack, hold true])

end Cell

/-! ## A restore -/

/-- One index a restore makes. -/
structure Target (Content : Type) where
  name : List Char
  replaces : Option (Dir Content)
  replaces_meta : ∀ dir, replaces = some dir → (dir metaJson).isSome
  /-- What the index is opened with, and what it is once it is filled: its state is written by
  the refresh `apply` ends with. -/
  files : Dir Content
  whole : Dir Content
  whole_meta : (whole metaJson).isSome
  opened : Content
  id : ℕ
  mark : ℕ

namespace Target

/-- `set_aside_if_closed`, where there is an index to set aside. -/
def setAside (t : Target Content) : List (Crash.Act (Cell Content)) :=
  if t.replaces.isSome then [Cell.hold false, Cell.clearAside, Cell.moveAside] else []

/-- `begin_restore` and `apply` -/
def make (files whole : Dir Content) : List (Crash.Act (Cell Content)) :=
  [Cell.setMark true, Cell.makeDir, Cell.openFiles files, Cell.hold true, Cell.fill whole]

/-- One index is restored. -/
def restore (t : Target Content) : Prog (Cell Content) :=
  .acts (t.setAside ++ make t.files t.whole)

/-- One whose restoring fails. -/
def tried (t : Target Content) (files part : Dir Content) (acts : ℕ) : Prog (Cell Content) :=
  .acts (t.setAside ++ (make files part).take acts)

/-- One that cannot be set aside. -/
def refused : Prog (Cell Content) :=
  .acts [Cell.hold false, Cell.clearAside, Cell.hold true]

/-- What `undo` does for one index. -/
def undo (t : Target Content) : Prog (Cell Content) :=
  .seq Cell.delete (.seq (.act (Cell.setMark false))
    (if t.replaces.isSome then Cell.putBack else .skip))

/-- `end_restore`, `let_go`, and the index opened -/
def finish (t : Target Content) : Prog (Cell Content) :=
  .acts ([Cell.setMark false] ++ (if t.replaces.isSome then [Cell.clearAside] else []) ++
    [Cell.saveMeta (tmpOf t.id t.mark) t.opened])

end Target

/-- The data directory of a node. -/
abbrev Disk (Content : Type) := List Char → Cell Content

/-- Restores of some indices. -/
inductive Restores : List (Target Content) → Prog (Disk Content) → Prop
  | whole (ts : List (Target Content)) :
    Restores ts (.seq (.forEach (fun t => t.restore.at_ t.name) ts)
      (.forEach (fun t => t.finish.at_ t.name) ts))
  | unread (made : List (Target Content)) :
    Restores made (.seq (.forEach (fun t => t.restore.at_ t.name) made)
      (.forEach (fun t => t.undo.at_ t.name) made.reverse))
  | refused (made : List (Target Content)) (t : Target Content) :
    t.replaces.isSome →
    Restores (made ++ [t]) (.seq (.forEach (fun t => t.restore.at_ t.name) made)
      (.seq (Target.refused.at_ t.name) (.forEach (fun t => t.undo.at_ t.name) made.reverse)))
  | failed (made : List (Target Content)) (t : Target Content) (files part : Dir Content)
      (acts : ℕ) :
    Restores (made ++ [t]) (.seq (.forEach (fun t => t.restore.at_ t.name) made)
      (.seq ((t.tried files part acts).at_ t.name)
        (.forEach (fun t => t.undo.at_ t.name) (t :: made.reverse))))

/-! ## A start -/

/-- `recover_interrupted_restores`, over the marks and the directories it finds. -/
def recoverInterruptedRestores (marks asides : List (List Char)) : Prog (Disk Content) :=
  .seq
    (.forEach (fun name => (Prog.acts [Cell.clearSlot, Cell.setMark false]).at_ name) marks)
    (.forEach (fun name => (Prog.look fun c =>
      if hasMeta c.slot then .acts [Cell.clearAside]
      else .acts [Cell.clearSlot, Cell.moveBack]).at_ name) asides)

/-- What is done at a start. -/
inductive Start (d : Disk Content) : Prog (Disk Content) → Prop
  | lists {marks asides : List (List Char)} :
    (∀ name, name ∈ marks ↔ (d name).mark = true) →
    (∀ name, name ∈ asides ↔ (d name).aside.isSome = true) →
    Start d (recoverInterruptedRestores marks asides)

/-! ## What is kept of an index -/

namespace Target

/-- The whole restored index: its state as it was made or as it was opened, and every file of
it. -/
def Restored (t : Target Content) (slot : Option (Dir Content)) : Prop :=
  ∃ dir, slot = some dir ∧ (dir metaJson = t.whole metaJson ∨ dir metaJson = some t.opened) ∧
    ∀ file, file ≠ metaJson → ¬ IsTmp file → dir file = t.whole file

/-- The original where it was, and the name not marked. -/
def Before (t : Target Content) (c : Cell Content) : Prop :=
  c.mark = false ∧ match t.replaces with
    | some dir => c.slot = some dir
    | none => c.aside = none ∧ hasMeta c.slot = false

/-- The old index is set aside. -/
def Aside (t : Target Content) (c : Cell Content) : Prop :=
  c.mark = false ∧ c.aside = t.replaces ∧ hasMeta c.slot = false

/-- And marked. -/
def Marked (t : Target Content) (c : Cell Content) : Prop :=
  c.mark = true ∧ c.aside = t.replaces

/-- The restored index in its place. -/
def Kept (t : Target Content) (c : Cell Content) : Prop :=
  c.mark = false ∧ t.Restored c.slot ∧ (t.replaces = none → c.aside = none)

/-- A start can put it right. -/
def Healable (t : Target Content) (c : Cell Content) : Prop :=
  t.Before c ∨ t.Aside c ∨ t.Marked c ∨ t.Kept c

/-- It is right. -/
def Healed (t : Target Content) (c : Cell Content) : Prop :=
  c.mark = false ∧ c.aside = none ∧ (t.Restored c.slot ∨ match t.replaces with
    | some dir => c.slot = some dir
    | none => hasMeta c.slot = false)

/-- The new index is there. -/
def Built (t : Target Content) (c : Cell Content) : Prop :=
  t.Marked c ∧ c.slot = some t.whole ∧ c.held = true

/-- It can be undone. -/
def Undoable (t : Target Content) (c : Cell Content) : Prop :=
  c.aside = t.replaces ∧ (c.held = false → hasMeta c.slot = false) ∧
    (c.mark = false → hasMeta c.slot = false)

end Target

/-! ## What each act leaves -/

theorem hasMeta_left {dir left : Option (Dir Content)} (h : Left dir left)
    (no : hasMeta dir = false) : hasMeta left = false := by
  cases left with
  | none => rfl
  | some left =>
    obtain ⟨whole, rfl, each⟩ := h
    simp only [hasMeta, Option.any_some] at no ⊢
    rcases each metaJson with same | gone
    · rw [same, no]
    · rw [gone, Option.isSome_none]

theorem not_isTmp_metaJson : ¬ IsTmp metaJson := by
  rintro ⟨id, mark, same⟩
  have underscore : metaJson.head? = some '_' := by decide +kernel
  rw [same] at underscore
  cases underscore

namespace Target

variable {t : Target Content} {c : Cell Content}

theorem restored_whole (t : Target Content) : t.Restored (some t.whole) :=
  ⟨t.whole, rfl, .inl rfl, fun _ _ _ => rfl⟩

theorem hasMeta_of_restored {slot : Option (Dir Content)} (h : t.Restored slot) :
    hasMeta slot = true := by
  obtain ⟨dir, rfl, same | opened, -⟩ := h
  · simp only [hasMeta, Option.any_some, same, t.whole_meta]
  · simp only [hasMeta, Option.any_some, opened, Option.isSome_some]

theorem restored_saveMeta (h : t.Restored c.slot) (tmp : File) :
    t.Restored ((Cell.saveMeta tmp t.opened).run c).slot := by
  obtain ⟨dir, slot, -, files⟩ := h
  refine ⟨Function.update dir metaJson (some t.opened), by simp [Cell.saveMeta, slot],
    .inr (Function.update_self ..), ?_⟩
  intro file notMeta notTmp
  rw [Function.update_of_ne notMeta]
  exact files file notMeta notTmp

theorem restored_tmp (h : t.Restored c.slot) {tmp : File} (isTmp : IsTmp tmp)
    (written : Option Content) :
    t.Restored (c.slot.map fun dir => Function.update dir tmp written) := by
  obtain ⟨dir, slot, state, files⟩ := h
  have notMeta : metaJson ≠ tmp := fun same => not_isTmp_metaJson (same ▸ isTmp)
  refine ⟨Function.update dir tmp written, by rw [slot]; rfl, ?_, ?_⟩
  · rwa [Function.update_of_ne notMeta]
  · intro file other notTmp
    have notWritten : file ≠ tmp := fun same => notTmp (same ▸ isTmp)
    rw [Function.update_of_ne notWritten]
    exact files file other notTmp

/-! ## The making of one index -/

theorem Aside.undoable (h : t.Aside c) : t.Undoable c :=
  ⟨h.2.1, fun _ => h.2.2, fun _ => h.2.2⟩

theorem Undoable.healable (h : t.Undoable c) : t.Healable c := by
  obtain ⟨aside, -, unmarked⟩ := h
  cases mark : c.mark with
  | true => exact .inr (.inr (.inl ⟨mark, aside⟩))
  | false => exact .inr (.inl ⟨mark, aside, unmarked mark⟩)

theorem before_of_some {dir : Dir Content} (replaces : t.replaces = some dir) :
    t.Before c ↔ c.mark = false ∧ c.slot = some dir := by
  simp only [Before, replaces]

theorem clearing_triple (replaced : t.replaces.isSome = true) :
    Triple t.Before (.acts [Cell.hold false, Cell.clearAside]) t.Before t.Healable := by
  obtain ⟨dir, replaces⟩ := Option.isSome_iff_exists.mp replaced
  have before : ∀ c, t.Before c → t.Healable c := fun c h => .inl h
  have kept : ∀ (c : Cell Content) aside, t.Before c → t.Before { c with aside } :=
    fun c aside h => (before_of_some replaces).mpr ((before_of_some replaces (c := c)).mp h)
  refine .seq (Triple.atomic (Q := t.Before) (fun c h => h) before before) ?_
  refine .seq (Triple.act (Q := t.Before) (fun c h => kept c none h) before before ?_)
    (Triple.skip (fun c h => h) before)
  rintro c _ h ⟨left, -, rfl⟩
  exact before _ (kept c left h)

theorem setAside_triple (t : Target Content) :
    Triple t.Before (.acts t.setAside) t.Aside t.Healable := by
  have before : ∀ c, t.Before c → t.Healable c := fun c h => .inl h
  unfold setAside
  cases replaces : t.replaces with
  | none =>
    refine Triple.skip ?_ before
    intro c h
    obtain ⟨mark, rest⟩ := h
    rw [replaces] at rest
    exact ⟨mark, rest.1.trans replaces.symm, rest.2⟩
  | some dir =>
    refine .acts_append (clearing_triple (by rw [replaces]; rfl)) ?_
    refine .seq (Triple.atomic (Q := t.Aside) ?_ before fun c h => .inr (.inl h))
      (Triple.skip (fun c h => h) fun c h => .inr (.inl h))
    intro c h
    obtain ⟨mark, slot⟩ := (before_of_some replaces).mp h
    simp only [slot, Aside, replaces, mark, hasMeta, Option.any_none, and_self]

theorem make_triple (t : Target Content) (files part : Dir Content) :
    Triple t.Aside (.acts (make files part))
      (fun c => t.Marked c ∧ c.slot = some part ∧ c.held = true) t.Undoable := by
  -- not in the map, and nothing taken for an index: marked or not
  have bare : ∀ c, t.Marked c ∧ hasMeta c.slot = false → t.Undoable c :=
    fun c h => ⟨h.1.2, fun _ => h.2, fun _ => h.2⟩
  have filling : ∀ c, t.Marked c ∧ c.held = true → t.Undoable c := by
    intro c h
    refine ⟨h.1.2, fun free => ?_, fun unmarked => ?_⟩
    · rw [h.2] at free
      cases free
    · rw [h.1.1] at unmarked
      cases unmarked
  refine .seq (Triple.atomic (Q := fun c => t.Marked c ∧ hasMeta c.slot = false) ?_
    (fun c h => h.undoable) bare) ?_
  · intro c h
    exact ⟨⟨rfl, h.2.1⟩, h.2.2⟩
  refine .seq (Triple.atomic (Q := fun c => t.Marked c ∧ hasMeta c.slot = false) ?_ bare bare) ?_
  · rintro c ⟨marked, no⟩
    refine ⟨marked, ?_⟩
    cases slot : c.slot with
    | none => rfl
    | some dir => rwa [slot] at no
  refine .seq (Triple.act (Q := fun c => t.Marked c ∧ hasMeta c.slot = false) ?_ bare bare ?_) ?_
  · rintro c ⟨marked, -⟩
    refine ⟨marked, ?_⟩
    simp only [Cell.openFiles, hasMeta, Option.any_some, if_true, Option.isSome_none]
  · rintro c _ ⟨marked, -⟩ ⟨dir, no, rfl⟩
    refine bare _ ⟨marked, ?_⟩
    simp only [hasMeta, Option.any_some, no, Option.isSome_none]
  refine .seq (Triple.atomic (Q := fun c => t.Marked c ∧ c.held = true)
    (fun c h => ⟨h.1, rfl⟩) bare filling) ?_
  refine .seq (Triple.act (Q := fun c => t.Marked c ∧ c.slot = some part ∧ c.held = true)
    (fun c h => ⟨h.1, rfl, h.2⟩) filling (fun c h => filling c ⟨h.1, h.2.2⟩) ?_) ?_
  · rintro c _ h ⟨dir, rfl⟩
    exact filling _ h
  · exact Triple.skip (fun c h => h) fun c h => filling c ⟨h.1, h.2.2⟩

theorem restore_triple (t : Target Content) : Triple t.Before t.restore t.Built t.Healable :=
  .acts_append t.setAside_triple ((t.make_triple t.files t.whole).weaken (fun _ h => h)
    (fun _ h => h) fun _ h => h.healable)

theorem tried_triple (t : Target Content) (files part : Dir Content) (acts : ℕ) :
    Triple t.Before (t.tried files part acts) t.Undoable t.Healable :=
  .acts_append t.setAside_triple (((t.make_triple files part).take acts).weaken (fun _ h => h)
    (fun _ h => h) fun _ h => h.healable)

theorem refused_triple (replaced : t.replaces.isSome = true) :
    Triple t.Before refused t.Before t.Healable := by
  have before : ∀ c, t.Before c → t.Healable c := fun c h => .inl h
  refine .acts_append (clearing_triple replaced) ?_
  exact .seq (Triple.atomic (fun c h => h) before before) (Triple.skip (fun c h => h) before)

/-! ## The undoing of one index -/

/-- The old index is away. -/
def Away (t : Target Content) (c : Cell Content) : Prop :=
  c.aside = t.replaces ∧ (c.mark = false → hasMeta c.slot = false)

theorem Away.healable (h : t.Away c) : t.Healable c := by
  cases mark : c.mark with
  | true => exact .inr (.inr (.inl ⟨mark, h.1⟩))
  | false => exact .inr (.inl ⟨mark, h.1, h.2 mark⟩)

theorem away_left (h : t.Away c) {left : Option (Dir Content)} (part : Left c.slot left) :
    t.Away { c with slot := left } :=
  ⟨h.1, fun mark => hasMeta_left part (h.2 mark)⟩

theorem delete_triple (t : Target Content) (mark : Bool) :
    Triple (fun c => t.Undoable c ∧ c.mark = mark) Cell.delete
      (fun c => c.aside = t.replaces ∧ hasMeta c.slot = false ∧ c.mark = mark) t.Healable := by
  refine Triple.look ?_
  rintro s ⟨undoable, marked⟩
  have away : t.Away s := ⟨undoable.1, undoable.2.2⟩
  cases held : s.held with
  | false =>
    refine Triple.skip ?_ ?_
    · rintro c rfl
      exact ⟨undoable.1, undoable.2.1 held, marked⟩
    · rintro c rfl
      exact away.healable
  | true =>
    refine .seq (Triple.atomic (Q := fun c => t.Away c ∧ c.mark = mark) ?_ ?_
      fun c h => h.1.healable) ?_
    · rintro c rfl
      exact ⟨away, marked⟩
    · rintro c rfl
      exact away.healable
    · have emptied : ∀ c : Cell Content, c.aside = t.replaces ∧ hasMeta c.slot = false ∧
          c.mark = mark → t.Healable c := fun c h => Away.healable ⟨h.1, fun _ => h.2.1⟩
      refine .seq (Triple.act ?_ (fun c h => h.1.healable) emptied ?_)
        (Triple.skip (fun c h => h) emptied)
      · rintro c ⟨h, marked⟩
        exact ⟨h.1, rfl, marked⟩
      · rintro c _ ⟨h, -⟩ ⟨left, part, rfl⟩
        exact (away_left h part).healable

theorem putBack_triple {dir : Dir Content} (replaces : t.replaces = some dir) :
    Triple t.Aside Cell.putBack t.Before t.Healable := by
  have before : ∀ c, t.Before c → t.Healable c := fun c h => .inl h
  have aside : ∀ c, t.Aside c → t.Healable c := fun c h => .inr (.inl h)
  refine .seq (Q := t.Aside) ((t.delete_triple false).weaken (fun c h => ⟨h.undoable, h.1⟩)
    (fun c h => ⟨h.2.2, h.1, h.2.1⟩) fun c h => h) ?_
  refine .seq (Triple.act (Q := fun c => t.Aside c ∧ c.slot = none)
    (fun c h => ⟨⟨h.1, h.2.1, rfl⟩, rfl⟩) aside (fun c h => aside c h.1) ?_) ?_
  · rintro c _ h ⟨left, part, rfl⟩
    exact aside _ ⟨h.1, h.2.1, hasMeta_left part h.2.2⟩
  refine .seq (Triple.atomic (Q := t.Before) ?_ (fun c h => aside c h.1) before)
    (.seq (Triple.atomic (fun c h => h) before before) (Triple.skip (fun c h => h) before))
  rintro c ⟨⟨mark, moved, -⟩, slot⟩
  rw [replaces] at moved
  simp only [moved, slot, before_of_some replaces, mark, and_self]

theorem undo_triple (t : Target Content) : Triple t.Undoable t.undo t.Before t.Healable := by
  have deleted : Triple t.Undoable Cell.delete
      (fun c => c.aside = t.replaces ∧ hasMeta c.slot = false) t.Healable := by
    constructor
    · intro c h
      obtain ⟨aside, no, -⟩ := (t.delete_triple c.mark).done c ⟨h, rfl⟩
      exact ⟨aside, no⟩
    · intro c c' h halts
      exact (t.delete_triple c.mark).halt c c' ⟨h, rfl⟩ halts
  refine .seq deleted (.seq (Triple.atomic (Q := t.Aside) (fun c h => ⟨rfl, h.1, h.2⟩)
    (fun c h => Away.healable ⟨h.1, fun _ => h.2⟩) fun c h => .inr (.inl h)) ?_)
  cases replaces : t.replaces with
  | none =>
    refine Triple.skip ?_ fun c h => .inr (.inl h)
    intro c h
    refine ⟨h.1, ?_⟩
    rw [replaces]
    exact ⟨h.2.1.trans replaces, h.2.2⟩
  | some dir => exact putBack_triple replaces

/-! ## The finishing of one index -/

theorem finish_triple (t : Target Content) : Triple t.Built t.finish t.Kept t.Healable := by
  have kept : ∀ c, t.Kept c → t.Healable c := fun c h => .inr (.inr (.inr h))
  refine .acts_append (Q := t.Kept) (.acts_append (Q := t.Kept) ?_ ?_) ?_
  · refine .seq (Triple.atomic (Q := t.Kept) ?_ (fun c h => .inr (.inr (.inl h.1))) kept)
      (Triple.skip (fun c h => h) kept)
    rintro c ⟨⟨-, aside⟩, slot, -⟩
    refine ⟨rfl, ?_, fun none => aside.trans none⟩
    show t.Restored c.slot
    rw [slot]
    exact t.restored_whole
  · cases replaces : t.replaces with
    | none => exact Triple.skip (fun c h => h) kept
    | some dir =>
      have let_go : ∀ (c : Cell Content) aside, t.Kept c → t.Kept { c with aside } := by
        intro c aside h
        refine ⟨h.1, h.2.1, fun none => ?_⟩
        rw [replaces] at none
        cases none
      refine .seq (Triple.act (Q := t.Kept) (fun c h => let_go c none h) kept kept ?_)
        (Triple.skip (fun c h => h) kept)
      rintro c _ h ⟨left, -, rfl⟩
      exact kept _ (let_go c left h)
  · refine .seq (Triple.act (Q := t.Kept) (fun c h => ⟨h.1, restored_saveMeta h.2.1 _, h.2.2⟩)
      kept kept ?_) (Triple.skip (fun c h => h) kept)
    rintro c _ h ⟨written, rfl⟩
    exact kept _ ⟨h.1, restored_tmp h.2.1 ⟨t.id, t.mark, rfl⟩ written, h.2.2⟩

/-! ## The recovery of one index -/

theorem unmark_triple (t : Target Content) :
    Triple (fun c => t.Marked c ∨ t.Aside c) (.acts [Cell.clearSlot, Cell.setMark false]) t.Aside
      t.Healable := by
  have away : ∀ c, t.Marked c ∨ t.Aside c → t.Away c := by
    rintro c (marked | aside)
    · refine ⟨marked.2, fun unmarked => ?_⟩
      rw [marked.1] at unmarked
      cases unmarked
    · exact ⟨aside.2.1, fun _ => aside.2.2⟩
  refine .seq (Triple.act (Q := fun c => t.Away c ∧ c.slot = none) ?_
    (fun c h => (away c h).healable) (fun c h => h.1.healable) ?_) ?_
  · intro c h
    exact ⟨⟨(away c h).1, fun _ => rfl⟩, rfl⟩
  · rintro c _ h ⟨left, part, rfl⟩
    exact (away_left (away c h) part).healable
  refine .seq (Triple.atomic (Q := t.Aside) ?_ (fun c h => h.1.healable)
    fun c h => .inr (.inl h)) (Triple.skip (fun c h => h) fun c h => .inr (.inl h))
  rintro c ⟨h, slot⟩
  refine ⟨rfl, h.1, ?_⟩
  show hasMeta c.slot = false
  rw [slot]
  rfl

theorem Healable.marked (h : t.Healable c) (mark : c.mark = true) : t.Marked c := by
  rcases h with before | aside | marked | kept
  · rw [before.1] at mark
    cases mark
  · rw [aside.1] at mark
    cases mark
  · exact marked
  · rw [kept.1] at mark
    cases mark

theorem healable_aside (h : t.Healable c) (unmarked : c.mark = false)
    (stated : hasMeta c.slot = true) {left : Option (Dir Content)} (part : Left c.aside left) :
    t.Healable { c with aside := left } := by
  have gone : c.aside = none → left = none := by
    intro none
    cases left with
    | none => rfl
    | some left =>
      obtain ⟨whole, some_, -⟩ := part
      rw [none] at some_
      cases some_
  rcases h with ⟨mark, before⟩ | aside | marked | kept
  · refine .inl ⟨mark, ?_⟩
    cases replaces : t.replaces with
    | some dir =>
      rw [replaces] at before
      exact before
    | none =>
      rw [replaces] at before
      exact ⟨gone before.1, before.2⟩
  · rw [aside.2.2] at stated
    cases stated
  · rw [marked.1] at unmarked
    cases unmarked
  · exact .inr (.inr (.inr ⟨kept.1, kept.2.1, fun none => gone (kept.2.2 none)⟩))

theorem healed_of_none (h : t.Healable c) (unmarked : c.mark = false) (none : c.aside = none) :
    t.Healed c := by
  refine ⟨unmarked, none, ?_⟩
  rcases h with ⟨-, before⟩ | aside | marked | kept
  · refine .inr ?_
    cases replaces : t.replaces with
    | some dir =>
      rw [replaces] at before
      exact before
    | none =>
      rw [replaces] at before
      exact before.2
  · refine .inr ?_
    rw [← aside.2.1, none]
    exact aside.2.2
  · rw [marked.1] at unmarked
    cases unmarked
  · exact .inl kept.2.1

theorem aside_of_unstated (h : t.Healable c) (unmarked : c.mark = false)
    (no : hasMeta c.slot = false) : t.Aside c := by
  rcases h with ⟨mark, before⟩ | aside | marked | kept
  · cases replaces : t.replaces with
    | some dir =>
      rw [replaces] at before
      rw [before, hasMeta, Option.any_some, t.replaces_meta dir replaces] at no
      cases no
    | none =>
      rw [replaces] at before
      exact ⟨mark, before.1.trans replaces.symm, before.2⟩
  · exact aside
  · rw [marked.1] at unmarked
    cases unmarked
  · rw [hasMeta_of_restored kept.2.1] at no
    cases no

theorem Healed.healable (h : t.Healed c) : t.Healable c := by
  obtain ⟨unmarked, none, restored | original⟩ := h
  · exact .inr (.inr (.inr ⟨unmarked, restored, fun _ => none⟩))
  · refine .inl ⟨unmarked, ?_⟩
    cases replaces : t.replaces with
    | some dir =>
      rw [replaces] at original
      exact original
    | none =>
      rw [replaces] at original
      exact ⟨none, original⟩

theorem putBackOrLetGo_triple (t : Target Content) :
    Triple (fun c => t.Healable c ∧ c.mark = false)
      (.look fun c => if hasMeta c.slot then .acts [Cell.clearAside]
        else .acts [Cell.clearSlot, Cell.moveBack]) t.Healed t.Healable := by
  refine Triple.look ?_
  rintro s ⟨healable, unmarked⟩
  cases no : hasMeta s.slot with
  | true =>
    have left : ∀ {left}, Left s.aside left → t.Healable { s with aside := left } :=
      fun part => healable_aside healable unmarked no part
    refine .seq (Triple.act (Q := t.Healed) ?_ ?_ (fun c h => h.healable) ?_)
      (Triple.skip (fun c h => h) fun c h => h.healable)
    · rintro c rfl
      exact healed_of_none (@left none trivial) unmarked rfl
    · rintro c rfl
      exact healable
    · rintro c _ rfl ⟨part, removed, rfl⟩
      exact left removed
  | false =>
    have aside := aside_of_unstated healable unmarked no
    refine .seq (Triple.act (Q := fun c => t.Aside c ∧ c.slot = none) ?_ ?_
      (fun c h => .inr (.inl h.1)) ?_) ?_
    · rintro c rfl
      exact ⟨⟨aside.1, aside.2.1, rfl⟩, rfl⟩
    · rintro c rfl
      exact healable
    · rintro c _ rfl ⟨left, part, rfl⟩
      exact .inr (.inl ⟨aside.1, aside.2.1, hasMeta_left part aside.2.2⟩)
    have asides (c : Cell Content) (h : t.Aside c ∧ c.slot = none) : t.Healable c :=
      .inr (.inl h.1)
    refine .seq (Triple.atomic (Q := t.Healed) ?_ asides fun c h => h.healable)
      (Triple.skip (fun c h => h) fun c h => h.healable)
    rintro c ⟨⟨mark, moved, -⟩, slot⟩
    cases replaces : t.replaces with
    | some dir =>
      rw [replaces] at moved
      simp only [moved, slot, Healed, replaces, mark, or_true, and_self]
    | none =>
      rw [replaces] at moved
      simp only [moved, slot, Healed, replaces, mark, hasMeta, Option.any_none, or_true, and_self]

end Target

/-! ## Every index of a restore -/

section Disk

variable {ts : List (Target Content)} {start : Disk Content}

/-- What holds of the index of each name. -/
def Of (ts : List (Target Content)) (start : Disk Content)
    (P : Target Content → Cell Content → Prop) (name : List Char) (c : Cell Content) : Prop :=
  match ts.find? fun t => decide (t.name = name) with
  | some t => P t c
  | none => c.slot = (start name).slot ∧ c.aside = none ∧ c.mark = false

variable {P Q C : Target Content → Cell Content → Prop} {name : List Char} {c : Cell Content}

theorem Of.imp (h : Of ts start P name c) (imp : ∀ t ∈ ts, t.name = name → P t c → Q t c) :
    Of ts start Q name c := by
  unfold Of at h ⊢
  cases found : ts.find? fun t => decide (t.name = name) with
  | none =>
    rw [found] at h
    exact h
  | some t =>
    rw [found] at h
    exact imp t (List.mem_of_find?_eq_some found) (by simpa using List.find?_some found) h

theorem of_name (distinct : (ts.map Target.name).Nodup) {t : Target Content} (mem : t ∈ ts) :
    Of ts start P t.name c ↔ P t c := by
  have found : (ts.find? fun u => decide (u.name = t.name)) = some t := by
    cases found : ts.find? fun u => decide (u.name = t.name) with
    | none => simpa using List.find?_eq_none.mp found t mem
    | some u =>
      have same : u.name = t.name := by simpa using List.find?_some found
      rw [List.inj_on_of_nodup_map distinct (List.mem_of_find?_eq_some found) mem same]
  unfold Of
  rw [found]

theorem one_triple (distinct : (ts.map Target.name).Nodup) {t : Target Content} (mem : t ∈ ts)
    {p : Prog (Cell Content)} (h : Triple (P t) p (Q t) (C t))
    (others : ∀ u c, u.name ≠ t.name → P u c → Q u c) (crash : ∀ u c, P u c → C u c) :
    Triple (Each (Of ts start P)) (p.at_ t.name) (Each (Of ts start Q))
      (Each (Of ts start C)) := by
  refine Triple.at_ (h.weaken ?_ ?_ ?_) ?_ fun m _ c h => h.imp fun u _ _ => crash u c
  · exact fun c h => (of_name distinct mem).mp h
  · exact fun c h => (of_name distinct mem).mpr h
  · exact fun c h => (of_name distinct mem).mpr h
  · intro m other c h
    exact h.imp fun u _ named => others u c (named ▸ other)

local instance instLawfulFile : LawfulBEq File := inferInstance

theorem forEach_triple (distinct : (ts.map Target.name).Nodup) {l : List (Target Content)}
    (within : ∀ t ∈ l, t ∈ ts) (once : (l.map Target.name).Nodup)
    {body : Target Content → Prog (Cell Content)}
    (each : ∀ t ∈ l, Triple (P t) (body t) (Q t) (C t))
    (before : ∀ t c, P t c → C t c) (after : ∀ t c, Q t c → C t c) :
    Triple (Each (Of ts start P)) (.forEach (fun t => (body t).at_ t.name) l)
      (Each (Of ts start fun t c => if t.name ∈ l.map Target.name then Q t c else P t c))
      (Each (Of ts start C)) := by
  -- the names already passed have what the body leaves
  let passed (rest : List (Target Content)) (t : Target Content) (c : Cell Content) : Prop :=
    if t.name ∈ l.map Target.name ∧ t.name ∉ rest.map Target.name then Q t c else P t c
  have crash : ∀ rest t c, passed rest t c → C t c := by
    intro rest t c h
    unfold passed at h
    split at h
    · exact after t c h
    · exact before t c h
  refine (Triple.forEach (I := fun rest => Each (Of ts start (passed rest)))
    (fun rest f h n => (h n).imp fun t _ _ => crash rest t (f n)) l ?_).weaken ?_ ?_
    fun f h => h
  · intro t rest suffix
    have mem : t ∈ l := suffix.subset List.mem_cons_self
    have fresh : t.name ∉ rest.map Target.name := by
      have sub := (suffix.map Target.name).sublist.nodup once
      rw [List.map_cons, List.nodup_cons] at sub
      exact sub.1
    refine one_triple distinct (within t mem) ?_ ?_ (crash (t :: rest))
    · refine (each t mem).weaken (fun c h => ?_) (fun c h => ?_) fun c h => h
      · simpa [passed] using h
      · unfold passed
        rwa [if_pos ⟨List.mem_map_of_mem mem, fresh⟩]
    · intro u c other h
      simpa only [passed, List.map_cons, List.mem_cons, other, false_or] using h
  · intro f h n
    refine (h n).imp fun t _ _ ht => ?_
    unfold passed
    rwa [if_neg fun both => both.2 both.1]
  · intro f h n
    refine (h n).imp fun t _ _ ht => ?_
    simpa [passed] using ht

/-! ## A restore, stopped -/

/-- The indices made so far, and those to come. -/
def Making (made : List (Target Content)) (t : Target Content) (c : Cell Content) : Prop :=
  if t.name ∈ made.map Target.name then t.Built c else t.Before c

theorem Target.Built.undoable {t : Target Content} (h : t.Built c) : t.Undoable c := by
  refine ⟨h.1.2, fun free => ?_, fun unmarked => ?_⟩
  · rw [h.2.2] at free
    cases free
  · rw [h.1.1] at unmarked
    cases unmarked

theorem Making.healable {made : List (Target Content)} {t : Target Content} (h : Making made t c) :
    t.Healable c := by
  unfold Making at h
  split at h
  · exact h.undoable.healable
  · exact .inl h

theorem last_distinct {made : List (Target Content)} {t : Target Content}
    (distinct : ((made ++ [t]).map Target.name).Nodup) :
    (∀ u ∈ made, u ∈ made ++ [t]) ∧ t ∈ made ++ [t] ∧ (made.map Target.name).Nodup ∧
      t.name ∉ made.map Target.name := by
  rw [List.map_append] at distinct
  obtain ⟨once, -, disjoint⟩ := List.nodup_append.mp distinct
  refine ⟨fun u mem => List.mem_append_left _ mem,
    List.mem_append_right _ List.mem_cons_self, once, fun listed => ?_⟩
  exact disjoint t.name listed t.name List.mem_cons_self rfl

section Made

variable (distinct : (ts.map Target.name).Nodup) {made : List (Target Content)}
  (within : ∀ t ∈ made, t ∈ ts) (once : (made.map Target.name).Nodup)

include distinct within once

theorem makes_triple :
    Triple (Each (Of ts start Target.Before)) (.forEach (fun t => t.restore.at_ t.name) made)
      (Each (Of ts start (Making made))) (Each (Of ts start Target.Healable)) :=
  forEach_triple distinct within once (fun t _ => t.restore_triple) (fun _ _ h => .inl h)
    fun _ _ h => h.undoable.healable

theorem undoes_triple :
    Triple (Each (Of ts start (Making made)))
      (.forEach (fun t => t.undo.at_ t.name) made.reverse)
      (Each (Of ts start Target.Before)) (Each (Of ts start Target.Healable)) := by
  have names : (made.reverse.map Target.name).Nodup := by
    rw [List.map_reverse]
    exact List.nodup_reverse.mpr once
  refine (forEach_triple (P := Making made) (Q := Target.Before) distinct
    (fun t mem => within t (List.mem_reverse.mp mem)) names ?_ (fun _ _ h => h.healable)
    fun _ _ h => .inl h).weaken (fun d h => h) ?_ fun d h => h
  · intro t mem
    have listed : t.name ∈ made.map Target.name :=
      List.mem_map_of_mem (List.mem_reverse.mp mem)
    refine t.undo_triple.weaken (fun c h => ?_) (fun c h => h) fun c h => h
    rw [Making, if_pos listed] at h
    exact h.undoable
  · intro d h n
    refine (h n).imp fun t _ _ ht => ?_
    split at ht
    case isTrue => exact ht
    case isFalse notMade =>
      rw [List.map_reverse, List.mem_reverse] at notMade
      rwa [Making, if_neg notMade] at ht

end Made

theorem restores_triple (distinct : (ts.map Target.name).Nodup) {p : Prog (Disk Content)}
    (h : Restores ts p) :
    Triple (Each (Of ts start Target.Before)) p
      (fun d => Each (Of ts start Target.Kept) d ∨ Each (Of ts start Target.Before) d)
      (Each (Of ts start Target.Healable)) := by
  cases h with
  | whole =>
    have all : ∀ t ∈ ts, t.name ∈ ts.map Target.name := fun t mem => List.mem_map_of_mem mem
    refine .seq (makes_triple distinct (fun t mem => mem) distinct) ?_
    refine (forEach_triple (P := Making ts) (Q := Target.Kept) distinct (fun t mem => mem)
      distinct ?_ (fun _ _ h => h.healable) fun t c h => .inr (.inr (.inr h))).weaken
      (fun d h => h) ?_ fun d h => h
    · intro t mem
      refine t.finish_triple.weaken (fun c h => ?_) (fun c h => h) fun c h => h
      rwa [Making, if_pos (all t mem)] at h
    · intro d h
      refine .inl fun n => (h n).imp fun t mem _ ht => ?_
      rwa [if_pos (all t mem)] at ht
  | unread =>
    exact (Triple.seq (makes_triple distinct (fun t mem => mem) distinct)
      (undoes_triple distinct (fun t mem => mem) distinct)).weaken (fun d h => h)
      (fun d h => .inr h) fun d h => h
  | refused made t replaced =>
    obtain ⟨within, mem, once, fresh⟩ := last_distinct distinct
    refine (Triple.seq (makes_triple distinct within once) (.seq ?_
      (undoes_triple distinct within once))).weaken (fun d h => h) (fun d h => .inr h)
      fun d h => h
    refine one_triple distinct mem ?_ (fun u c _ h => h) fun _ _ h => h.healable
    have same : ∀ c, Making made t c ↔ t.Before c := fun c => by rw [Making, if_neg fresh]
    exact (Target.refused_triple replaced).weaken (fun c h => (same c).mp h)
      (fun c h => (same c).mpr h) fun c h => h
  | failed made t files part acts =>
    obtain ⟨within, mem, once, fresh⟩ := last_distinct distinct
    have same : ∀ c, Making made t c ↔ t.Before c := fun c => by rw [Making, if_neg fresh]
    -- the last one given up, the others made
    let given (u : Target Content) (c : Cell Content) : Prop :=
      if u.name = t.name then u.Undoable c else Making made u c
    have tried : Triple (Each (Of (made ++ [t]) start (Making made)))
        ((t.tried files part acts).at_ t.name) (Each (Of (made ++ [t]) start given))
        (Each (Of (made ++ [t]) start Target.Healable)) := by
      refine one_triple distinct mem ?_ (fun u c other h => ?_) fun _ _ h => h.healable
      · refine (t.tried_triple files part acts).weaken (fun c h => (same c).mp h) (fun c h => ?_)
          fun c h => h
        unfold given
        rwa [if_pos rfl]
      · unfold given
        rwa [if_neg other]
    have undone : Triple (Each (Of (made ++ [t]) start given)) (t.undo.at_ t.name)
        (Each (Of (made ++ [t]) start (Making made)))
        (Each (Of (made ++ [t]) start Target.Healable)) := by
      refine one_triple distinct mem ?_ (fun u c other h => ?_) fun u c h => ?_
      · refine t.undo_triple.weaken (fun c h => ?_) (fun c h => (same c).mpr h) fun c h => h
        unfold given at h
        rwa [if_pos rfl] at h
      · unfold given at h
        rwa [if_neg other] at h
      · unfold given at h
        split at h
        · exact h.healable
        · exact h.healable
    exact (Triple.seq (makes_triple distinct within once) (.seq tried (.seq undone
      (undoes_triple distinct within once)))).weaken (fun d h => h) (fun d h => .inr h)
      fun d h => h

/-! ## The starts that follow -/

theorem forEach_names {l : List (List Char)} (known : ∀ name ∈ l, ∃ t ∈ ts, t.name = name)
    (distinct : (ts.map Target.name).Nodup) {body : Prog (Cell Content)}
    (each : ∀ t ∈ ts, t.name ∈ l → Triple (P t) body (Q t) (C t))
    (again : ∀ t c, t.name ∈ l → Q t c → P t c)
    (before : ∀ t c, P t c → C t c) (after : ∀ t c, Q t c → C t c) :
    Triple (Each (Of ts start fun t c => if t.name ∈ l then P t c else Q t c))
      (.forEach (fun name => body.at_ name) l) (Each (Of ts start Q)) (Each (Of ts start C)) := by
  let left (rest : List (List Char)) (t : Target Content) (c : Cell Content) : Prop :=
    if t.name ∈ rest then P t c else Q t c
  have crash : ∀ rest t c, left rest t c → C t c := by
    intro rest t c h
    unfold left at h
    split at h
    · exact before t c h
    · exact after t c h
  refine (Triple.forEach (I := fun rest => Each (Of ts start (left rest)))
    (fun rest f h n => (h n).imp fun t _ _ => crash rest t (f n)) l ?_).weaken (fun d h => h) ?_
    fun d h => h
  · intro name rest suffix
    have listed : name ∈ l := suffix.subset List.mem_cons_self
    obtain ⟨t, mem, rfl⟩ := known name listed
    refine one_triple distinct mem ?_ ?_ (crash (t.name :: rest))
    · refine (each t mem listed).weaken (fun c h => ?_) (fun c h => ?_) fun c h => h
      · unfold left at h
        rwa [if_pos List.mem_cons_self] at h
      · unfold left
        split
        · exact again t c listed h
        · exact h
    · intro u c other h
      simpa only [left, List.mem_cons, other, false_or] using h
  · intro d h n
    refine (h n).imp fun t _ _ ht => ?_
    unfold left at ht
    rwa [if_neg List.not_mem_nil] at ht

theorem known_of_healable {d : Disk Content} (h : Each (Of ts start Target.Healable) d)
    {name : List Char} (found : (d name).mark = true ∨ (d name).aside.isSome = true) :
    ∃ t ∈ ts, t.name = name := by
  have of := h name
  unfold Of at of
  cases find : ts.find? fun t => decide (t.name = name) with
  | some t => exact ⟨t, List.mem_of_find?_eq_some find, by simpa using List.find?_some find⟩
  | none =>
    rw [find] at of
    obtain ⟨-, aside, mark⟩ := of
    rcases found with marked | set
    · rw [mark] at marked
      cases marked
    · rw [aside] at set
      cases set

theorem start_triple (distinct : (ts.map Target.name).Nodup) {d : Disk Content}
    {p : Prog (Disk Content)} (start_ : Start d p)
    (h : Each (Of ts start Target.Healable) d) :
    Triple (fun d' => d' = d) p (Each (Of ts start Target.Healed))
      (Each (Of ts start Target.Healable)) := by
  obtain @⟨marks, asides, marked, set⟩ := start_
  -- what the first loop leaves
  let unmarked (t : Target Content) (c : Cell Content) : Prop :=
    if t.name ∈ marks then t.Aside c
    else t.Healable c ∧ c.mark = false ∧ c.aside = (d t.name).aside
  have unmarkedHealable : ∀ t c, unmarked t c → t.Healable c := by
    intro t c h
    unfold unmarked at h
    split at h
    · exact .inr (.inl h)
    · exact h.1
  have first : Triple
      (Each (Of ts start fun t c => if t.name ∈ marks then t.Marked c ∨ t.Aside c else unmarked t c))
      (.forEach (fun name => (Prog.acts [Cell.clearSlot, Cell.setMark false]).at_ name) marks)
      (Each (Of ts start unmarked)) (Each (Of ts start Target.Healable)) := forEach_names
    (fun name mem => known_of_healable h (.inl ((marked name).mp mem))) distinct
    (fun t _ listed => t.unmark_triple.weaken (fun c h => h)
      (fun c h => by unfold unmarked; rwa [if_pos listed]) fun c h => h)
    (fun t c listed h => by unfold unmarked at h; rw [if_pos listed] at h; exact .inr h)
    (fun t c h => h.elim (fun m => .inr (.inr (.inl m))) fun a => .inr (.inl a))
    unmarkedHealable
  have second : Triple
      (Each (Of ts start fun t c =>
        if t.name ∈ asides then t.Healable c ∧ c.mark = false else t.Healed c))
      (.forEach (fun name => (Prog.look fun c => if hasMeta c.slot then .acts [Cell.clearAside]
        else .acts [Cell.clearSlot, Cell.moveBack]).at_ name) asides)
      (Each (Of ts start Target.Healed)) (Each (Of ts start Target.Healable)) := forEach_names
    (fun name mem => known_of_healable h (.inr ((set name).mp mem))) distinct
    (fun t _ _ => t.putBackOrLetGo_triple)
    (fun t c _ h => ⟨h.healable, h.1⟩) (fun t c h => h.1) fun t c h => h.healable
  refine .seq (first.weaken ?_ ?_ fun d h => h) second
  · rintro _ rfl n
    refine (h n).imp fun t _ named healable => ?_
    subst named
    split
    case isTrue listed =>
      exact .inl (healable.marked ((marked t.name).mp listed))
    case isFalse notListed =>
      unfold unmarked
      rw [if_neg notListed]
      refine ⟨healable, ?_, rfl⟩
      cases mark : (_ : Cell Content).mark with
      | false => rfl
      | true => exact absurd ((marked t.name).mpr mark) notListed
  · intro d' h' n
    refine (h' n).imp fun t mem named left => ?_
    subst named
    have free : (d' t.name).mark = false := by
      unfold unmarked at left
      split at left
      · exact left.1
      · exact left.2.1
    split
    case isTrue => exact ⟨unmarkedHealable t _ left, free⟩
    case isFalse notListed =>
      refine Target.healed_of_none (unmarkedHealable t _ left) free ?_
      have none : (d t.name).aside = none := by
        cases aside : (d t.name).aside with
        | none => rfl
        | some dir => exact absurd ((set t.name).mpr (by rw [aside]; rfl)) notListed
      unfold unmarked at left
      split at left
      case isTrue listed =>
        have healable := (of_name distinct mem).mp (h t.name)
        have isMarked := healable.marked ((marked t.name).mp listed)
        exact left.2.1.trans (isMarked.2.symm.trans none)
      case isFalse => exact left.2.2.trans none

/-- The process is gone, and with it what it held. -/
def restarted (d : Disk Content) : Disk Content :=
  fun name => { d name with held := false }

/-- A restore stopped anywhere, and any number of starts stopped anywhere after it: the first
start that is not leaves the whole original or the whole restored index under each name, nothing
marked and nothing set aside, and the other names as they were. -/
theorem interrupted_restore_heals (distinct : (ts.map Target.name).Nodup)
    (closed : ∀ t ∈ ts, t.Before (start t.name))
    (quiet : ∀ name, name ∉ ts.map Target.name →
      (start name).aside = none ∧ (start name).mark = false)
    {p : Prog (Disk Content)} (restore : Restores ts p) {stopped ended : Disk Content}
    (halts : p.Halts start stopped) (recovered : Recovered Start (restarted stopped) ended) :
    (∀ name, (ended name).mark = false ∧ (ended name).aside = none) ∧
      (∀ t ∈ ts, t.Restored (ended t.name).slot ∨ match t.replaces with
        | some dir => (ended t.name).slot = some dir
        | none => hasMeta (ended t.name).slot = false) ∧
      ∀ name, name ∉ ts.map Target.name → (ended name).slot = (start name).slot := by
  have begun : Each (Of ts start Target.Before) start := by
    intro name
    unfold Of
    cases find : ts.find? fun t => decide (t.name = name) with
    | some t =>
      have named : t.name = name := by simpa using List.find?_some find
      exact named ▸ closed t (List.mem_of_find?_eq_some find)
    | none =>
      have other : name ∉ ts.map Target.name := by simpa using find
      exact ⟨rfl, quiet name other⟩
  have left : Each (Of ts start Target.Healable) (restarted stopped) :=
    (restores_triple distinct restore).halt start stopped begun halts
  have healed : Each (Of ts start Target.Healed) ended :=
    recovered.ends (fun d p start_ h => start_triple distinct start_ h) left
  refine ⟨fun name => ?_, fun t mem => ?_, fun name other => ?_⟩
  · have here := healed name
    unfold Of at here
    split at here
    · exact ⟨here.1, here.2.1⟩
    · exact ⟨here.2.2, here.2.1⟩
  · exact ((of_name distinct mem).mp (healed t.name)).2.2
  · have here := healed name
    have find : (ts.find? fun t => decide (t.name = name)) = none := by simpa using other
    unfold Of at here
    rw [find] at here
    exact here.1

def logs : Target Bool where
  name := ['l', 'o', 'g', 's']
  replaces := some fun file => if file = metaJson then some false else none
  replaces_meta := by
    rintro dir ⟨⟩
    rfl
  files := fun _ => none
  whole := fun file => if file = metaJson then some true else none
  whole_meta := rfl
  opened := true
  id := 1
  mark := 0

def logsDisk : Disk Bool :=
  fun name => {
    slot := if name = logs.name then logs.replaces else none
    aside := none
    mark := false
    held := true }

/-- The restore stopped once the name is marked. -/
theorem interrupted_restore_heals_logs :
    ∃ stopped : Disk Bool, (stopped logs.name).mark = true ∧ (stopped logs.name).slot = none ∧
      ∃ ended : Disk Bool, Recovered Start (restarted stopped) ended ∧
        (ended logs.name).mark = false ∧ (ended logs.name).aside = none ∧
        (logs.Restored (ended logs.name).slot ∨ (ended logs.name).slot = logs.replaces) := by
  let moved : Disk Bool := Function.update logsDisk logs.name
    { slot := none, aside := logs.replaces, mark := true, held := false }
  have stops : (Prog.seq (.forEach (fun t => t.restore.at_ t.name) [logs])
      (.forEach (fun t => t.finish.at_ t.name) [logs])).Halts logsDisk moved := by
    refine Or.inl (Or.inl (Or.inr (Or.inr (Or.inr (Or.inl (Or.inr (Or.inl ?_)))))))
    funext name
    by_cases same : name = logs.name
    · subst same
      simp [moved, Prog.run, Prog.at_, Crash.Act.atomic, Cell.setMark, Cell.moveAside, Cell.clearAside,
        Cell.hold, logsDisk, logs]
    · simp [moved, Prog.run, Prog.at_, same]
  have mark : ∀ name, name ∈ [logs.name] ↔ (restarted moved name).mark = true := by
    intro name
    by_cases same : name = logs.name
    · simp [same, moved, restarted]
    · simp [same, moved, restarted, logsDisk]
  have aside : ∀ name, name ∈ [logs.name] ↔ (restarted moved name).aside.isSome = true := by
    intro name
    by_cases same : name = logs.name
    · simp [same, moved, restarted, logs]
    · simp [same, moved, restarted, logsDisk]
  have recovered := Recovered.done (Start.lists mark aside)
  have closed : ∀ t ∈ [logs], t.Before (logsDisk t.name) := by
    intro t mem
    rw [List.mem_singleton] at mem
    subst mem
    exact ⟨rfl, rfl⟩
  have distinct : ([logs].map Target.name).Nodup := List.nodup_singleton _
  obtain ⟨clean, kept, -⟩ := interrupted_restore_heals distinct closed
    (fun name _ => ⟨rfl, rfl⟩) (.whole [logs]) stops recovered
  refine ⟨moved, by simp [moved], by simp [moved], _, recovered, (clean logs.name).1,
    (clean logs.name).2, ?_⟩
  exact kept logs List.mem_cons_self

end Disk

end Restore
end Store
end Velosearch
