import Velosearch.Lib.Crash

/-!
# The security configuration on disk

A save writes every file of the new generation beside the one it replaces, then a marker, and only
then renames the files into place. The generation a directory stands for is read off it at any
moment: where the marker is, what waits beside a file is the file. No step of a save changes it but
the writing of the marker, and no step of a recovery does.
-/

set_option autoImplicit false

namespace Velosearch.Security

open Crash

/-- A directory: what is in each of its files. -/
abbrev Dir := String → Option String

/-- The documents, with their files. -/
def FILES : List (String × String) :=
  [("internalusers", "internal_users.yml"), ("roles", "roles.yml"),
    ("rolesmapping", "roles_mapping.yml"), ("actiongroups", "action_groups.yml"),
    ("tenants", "tenants.yml"), ("config", "config.yml")]

/-- The file of the generation. -/
def GENERATION_FILE : String := "generation"

/-- The mark of a save that is decided. -/
def PENDING : String := ".pending"

/-- Where a file is written first. -/
def tmpPath (file : String) : String := file ++ ".tmp"

/-- Every file of a save. -/
def savedFiles : List String := FILES.map Prod.snd ++ [GENERATION_FILE]

/-! ## What is done to a directory -/

/-- A file is written, and is on disk. -/
def writeSynced (path text : String) : Act Dir where
  run d := Function.update d path (some text)
  stops d d' := ∃ text', d' = Function.update d path (some text')

/-- A file goes. -/
def removeFile (path : String) : Act Dir := .atomic fun d => Function.update d path none

/-- `from_` takes the place of `onto`. -/
def rename (from_ onto : String) : Act Dir :=
  .atomic fun d => Function.update (Function.update d onto (d from_)) from_ none

/-- A save that is decided is finished. -/
def finishSave : Prog Dir :=
  .seq
    (.forEach
      (fun file => .look fun d =>
        if (d (tmpPath file)).isSome then .act (rename (tmpPath file) file) else .skip)
      savedFiles)
    (.act (removeFile PENDING))

/-- What is done at a start. -/
def recoverSave : Prog Dir :=
  .look fun d =>
    if (d PENDING).isSome then finishSave
    else .forEach (fun file => .act (removeFile (tmpPath file))) savedFiles

/-- The files are written beside the old ones. -/
def writeUndecided (text : String → String) : Prog Dir :=
  .forEach (fun file => .act (writeSynced (tmpPath file) (text file))) savedFiles

/-- The save is decided. -/
def decide_ (text : String → String) : Prog Dir :=
  .seq (writeUndecided text) (.act (writeSynced PENDING ""))

/-- **What `save_in` may leave**, stopped anywhere or failed anywhere: a step that fails leaves
what a stop inside it leaves. -/
inductive Saved (text : String → String) (d : Dir) : Dir → Prop where
  | recovering {d' : Dir} (stopped : recoverSave.Halts d d') : Saved text d d'
  | deciding {d' : Dir} (stopped : (decide_ text).Halts (recoverSave.run d) d') : Saved text d d'
  | failing {d' d'' : Dir} (failed : (decide_ text).Halts (recoverSave.run d) d')
      (stopped : (Prog.seq (.act (removeFile PENDING)) recoverSave).Halts d' d'') : Saved text d d''
  | unremoved {d' d'' : Dir} (failed : (decide_ text).Halts (recoverSave.run d) d')
      (stopped : recoverSave.Halts d' d'') : Saved text d d''
  | finishing {d' : Dir}
      (stopped : finishSave.Halts ((decide_ text).run (recoverSave.run d)) d') : Saved text d d'

/-! ## The configuration -/

/-- How a configuration is spelled: its documents, what is read of one, and the configuration that
documents and a generation make. -/
structure Spelling (γ δ : Type) where
  documentYaml : γ → String → String
  generation : γ → Nat
  parseDocument : String → String → Except String δ
  parseNumber : String → Option Nat
  fromDocuments : List (String × δ) → Nat → γ

namespace Spelling

variable {γ δ : Type} (S : Spelling γ δ)

/-- The text of a file. -/
def text (c : γ) (file : String) : String :=
  match FILES.find? fun f => f.2 = file with
  | some f => S.documentYaml c f.1
  | none => toString (S.generation c) ++ "\n"

/-- The documents, read back. -/
def readDocuments (d : Dir) : List (String × String) → Except String (List (String × δ))
  | [] => .ok []
  | (kind, file) :: rest =>
    match d file with
    | some text => do
      let doc ← S.parseDocument file text
      let docs ← readDocuments d rest
      return (kind, doc) :: docs
    | none => readDocuments d rest

/-- The generation, read back. -/
def readGeneration (dir : String) (d : Dir) : Except String Nat :=
  match d GENERATION_FILE with
  | some text =>
    match S.parseNumber text with
    | some n => .ok n
    | none => .error (dir ++ "/" ++ GENERATION_FILE ++ " does not hold a number")
  | none => .ok 0

/-- What `load_from` makes of the files, once what was left behind is dealt with. -/
def load (dir : String) (d : Dir) : Except String (Option γ) := do
  let docs ← S.readDocuments d FILES
  let missing := (FILES.map Prod.snd).filter fun file => (d file).isNone
  if docs.isEmpty then
    return none
  else if !missing.isEmpty then
    throw ("the security configuration in " ++ dir ++ " is incomplete: " ++
      ", ".intercalate missing ++ " missing")
  else
    let generation ← S.readGeneration dir d
    return some (S.fromDocuments docs generation)

theorem readDocuments_congr {d d' : Dir} {l : List (String × String)}
    (same : ∀ f ∈ l, d f.2 = d' f.2) : S.readDocuments d l = S.readDocuments d' l := by
  induction l with
  | nil => rfl
  | cons f l ih =>
    obtain ⟨kind, file⟩ := f
    have here : d file = d' file := same _ List.mem_cons_self
    have rest := ih fun f there => same f (List.mem_cons_of_mem _ there)
    rw [readDocuments, readDocuments, here, rest]

theorem load_congr {dir : String} {d d' : Dir} (same : ∀ file ∈ savedFiles, d file = d' file) :
    S.load dir d = S.load dir d' := by
  have documents : ∀ f ∈ FILES, d f.2 = d' f.2 := fun f there =>
    same f.2 (List.mem_append_left _ (List.mem_map_of_mem there))
  have generation : d GENERATION_FILE = d' GENERATION_FILE :=
    same _ (List.mem_append_right _ (List.mem_singleton_self _))
  have missing : ((FILES.map Prod.snd).filter fun file => (d file).isNone) =
      (FILES.map Prod.snd).filter fun file => (d' file).isNone := by
    apply List.filter_congr
    intro file there
    rw [same file (List.mem_append_left _ there)]
  rw [load, load, S.readDocuments_congr documents, missing, readGeneration, readGeneration,
    generation]

end Spelling

/-! ## What a directory stands for -/

/-- The text a file stands for. -/
def standing (d : Dir) (file : String) : Option String :=
  if (d PENDING).isSome then (d (tmpPath file)).or (d file) else d file

/-- Every file stands for a text. -/
def Stands (g : String → Option String) (d : Dir) : Prop := ∀ file ∈ savedFiles, standing d file = g file

/-- No save is under way. -/
structure Settled (g : String → Option String) (d : Dir) : Prop where
  quiet : d PENDING = none
  files : ∀ file ∈ savedFiles, d file = g file

/-- A save is decided. -/
structure Decided (g n : String → Option String) (d : Dir) : Prop where
  pending : (d PENDING).isSome
  files : ∀ file ∈ savedFiles, d file = g file
  waiting : ∀ file ∈ savedFiles, d (tmpPath file) = n file

section Names

variable {file other : String}

theorem tmpPath_ne (there : file ∈ savedFiles) (also_ : other ∈ savedFiles) :
    tmpPath file ≠ other := by
  have apart : ∀ file ∈ savedFiles, ∀ other ∈ savedFiles, tmpPath file ≠ other := by decide
  exact apart file there other also_

theorem tmpPath_ne_pending (there : file ∈ savedFiles) : tmpPath file ≠ PENDING := by
  have apart : ∀ file ∈ savedFiles, tmpPath file ≠ PENDING := by decide
  exact apart file there

theorem ne_pending (there : file ∈ savedFiles) : file ≠ PENDING := by
  have apart : ∀ file ∈ savedFiles, file ≠ PENDING := by decide
  exact apart file there

theorem tmpPath_ne_tmpPath (there : file ∈ savedFiles) (also_ : other ∈ savedFiles)
    (apart : file ≠ other) : tmpPath file ≠ tmpPath other := by
  have each : ∀ file ∈ savedFiles, ∀ other ∈ savedFiles, file ≠ other →
      tmpPath file ≠ tmpPath other := by decide
  exact each file there other also_ apart

end Names

/-! ## What the steps keep -/

section Steps

variable {g n : String → Option String} {d : Dir}

theorem Settled.stands (h : Settled g d) : Stands g d := by
  intro file there
  rw [standing, h.quiet]
  exact h.files file there

theorem Decided.stands (h : Decided g n d) (whole : ∀ file ∈ savedFiles, (n file).isSome) :
    Stands n d := by
  intro file there
  rw [standing, if_pos h.pending, h.waiting file there]
  cases text : n file with
  | some text => rfl
  | none =>
    have written := whole file there
    rw [text] at written
    cases written

/-- A save is being finished. -/
structure Placing (g : String → Option String) (rest : List String) (d : Dir) : Prop where
  pending : (d PENDING).isSome
  stands : Stands g d
  placed : ∀ file ∈ savedFiles, file ∉ rest → d (tmpPath file) = none

theorem place_spec {file : String} {rest : List String} (suffix : (file :: rest) <:+ savedFiles) :
    Triple (Placing g (file :: rest))
      (.look fun d =>
        if (d (tmpPath file)).isSome then .act (rename (tmpPath file) file) else .skip)
      (Placing g rest) (Stands g) := by
  have there : file ∈ savedFiles := suffix.mem List.mem_cons_self
  have own : tmpPath file ≠ file := tmpPath_ne there there
  apply Triple.look
  intro d pre
  by_cases waits : (d (tmpPath file)).isSome
  · rw [if_pos waits]
    have moved : Placing g rest (Function.update (Function.update d file (d (tmpPath file)))
        (tmpPath file) none) := by
      have marker : (Function.update (Function.update d file (d (tmpPath file))) (tmpPath file)
          none) PENDING = d PENDING := by
        rw [Function.update_of_ne (tmpPath_ne_pending there).symm,
          Function.update_of_ne (ne_pending there).symm]
      refine ⟨by rw [marker]; exact pre.pending, ?_, ?_⟩
      · intro other also_
        have stood := pre.stands other also_
        rw [standing, if_pos pre.pending] at stood
        rw [standing, marker, if_pos pre.pending]
        by_cases same : other = file
        · subst same
          rw [Function.update_self, Function.update_of_ne own.symm, Function.update_self]
          cases text : d (tmpPath other) with
          | none => simp [text] at waits
          | some text =>
            rw [text] at stood
            exact stood
        · rw [Function.update_of_ne (tmpPath_ne_tmpPath also_ there same),
            Function.update_of_ne (tmpPath_ne also_ there),
            Function.update_of_ne (tmpPath_ne there also_).symm, Function.update_of_ne same]
          exact stood
      · intro other also_ outside
        by_cases same : other = file
        · rw [same, Function.update_self]
        · rw [Function.update_of_ne (tmpPath_ne_tmpPath also_ there same),
            Function.update_of_ne (tmpPath_ne also_ there)]
          exact pre.placed other also_ (by simp [same, outside])
    apply Triple.atomic
    · intro s same
      cases same
      exact moved
    · intro s same
      cases same
      exact pre.stands
    · exact fun s post => post.stands
  · rw [if_neg waits]
    apply Triple.skip
    · intro s same
      cases same
      refine ⟨pre.pending, pre.stands, fun other also_ outside => ?_⟩
      by_cases same : other = file
      · rw [same]
        simpa using waits
      · exact pre.placed other also_ (by simp [same, outside])
    · intro s same
      cases same
      exact pre.stands

/-- **A decided generation is put in place**, and stopped anywhere the directory stands for it. -/
theorem finishSave_spec :
    Triple (fun d => (d PENDING).isSome ∧ Stands g d) finishSave (Settled g) (Stands g) := by
  have placed : Triple (Placing g savedFiles) _ (Placing g []) (Stands g) :=
    Triple.forEach (fun _ _ pre => pre.stands) savedFiles fun file rest suffix =>
      place_spec suffix
  refine Triple.seq (placed.weaken ?_ (fun _ post => post) (fun _ crash => crash)) ?_
  · intro d pre
    exact ⟨pre.1, pre.2, fun file there outside => absurd there outside⟩
  · have files : ∀ d, Placing g [] d → ∀ file ∈ savedFiles, d file = g file := by
      intro d pre file there
      have stood := pre.stands file there
      rw [standing, if_pos pre.pending, pre.placed file there List.not_mem_nil] at stood
      exact stood
    apply Triple.atomic
    · intro d pre
      refine ⟨Function.update_self .., fun file there => ?_⟩
      rw [Function.update_of_ne (ne_pending there)]
      exact files d pre file there
    · exact fun d pre => pre.stands
    · exact fun d post => post.stands

/-- **A recovery** keeps what the directory stands for. -/
theorem recoverSave_spec : Triple (Stands g) recoverSave (Settled g) (Stands g) := by
  apply Triple.look
  intro d pre
  by_cases decided : (d PENDING).isSome
  · rw [if_pos decided]
    apply finishSave_spec.weaken
    · intro s same
      cases same
      exact ⟨decided, pre⟩
    · exact fun _ post => post
    · exact fun _ crash => crash
  · rw [if_neg decided]
    have forgotten : Triple (Settled g)
        (.forEach (fun file => .act (removeFile (tmpPath file))) savedFiles) (Settled g) (Stands g) :=
      Triple.forEach (I := fun _ => Settled g) (fun _ _ pre => pre.stands)
        savedFiles fun file rest suffix => by
          have there : file ∈ savedFiles := suffix.mem List.mem_cons_self
          apply Triple.atomic
          · intro s pre
            refine ⟨?_, fun other also_ => ?_⟩
            · rw [Function.update_of_ne (tmpPath_ne_pending there).symm]
              exact pre.quiet
            · rw [Function.update_of_ne (tmpPath_ne there also_).symm]
              exact pre.files other also_
          · exact fun s pre => pre.stands
          · exact fun s post => post.stands
    apply forgotten.weaken
    · intro s same
      cases same
      have quiet : d PENDING = none := by simpa using decided
      refine ⟨quiet, fun file there => ?_⟩
      have stood := pre file there
      rw [standing, if_neg decided] at stood
      exact stood
    · exact fun _ post => post
    · exact fun _ crash => crash

/-- **Writing out and deciding** leaves the files as they were: a generation is decided once the
marker is there, and none before. -/
theorem decide_spec (text : String → String) :
    Triple (Settled g) (decide_ text) (Decided g fun file => some (text file))
      (fun d => Settled g d ∨ Decided g (fun file => some (text file)) d) := by
  have written : Triple _
      (.forEach (fun file => .act (writeSynced (tmpPath file) (text file))) savedFiles) _
      (fun d => Settled g d ∨ Decided g (fun file => some (text file)) d) :=
    Triple.forEach
      (I := fun rest d => Settled g d ∧
        ∀ file ∈ savedFiles, file ∉ rest → d (tmpPath file) = some (text file))
      (fun _ _ pre => .inl pre.1) savedFiles fun file rest suffix => by
        have there : file ∈ savedFiles := suffix.mem List.mem_cons_self
        have beside : ∀ d, Settled g d → ∀ text',
            Settled g (Function.update d (tmpPath file) (some text')) := by
          intro d pre text'
          refine ⟨?_, fun other also_ => ?_⟩
          · rw [Function.update_of_ne (tmpPath_ne_pending there).symm]
            exact pre.quiet
          · rw [Function.update_of_ne (tmpPath_ne there also_).symm]
            exact pre.files other also_
        apply Triple.act
        · intro d pre
          refine ⟨beside d pre.1 _, fun other also_ outside => ?_⟩
          show Function.update d (tmpPath file) (some (text file)) (tmpPath other) = _
          by_cases same : other = file
          · rw [same, Function.update_self]
          · rw [Function.update_of_ne (tmpPath_ne_tmpPath also_ there same)]
            exact pre.2 other also_ (by simp [same, outside])
        · exact fun d pre => .inl pre.1
        · exact fun d post => .inl post.1
        · intro d d' pre stopped
          obtain ⟨text', same⟩ := stopped
          rw [same]
          exact .inl (beside d pre.1 text')
  refine Triple.seq (written.weaken ?_ (fun _ post => post) (fun _ crash => crash)) ?_
  · intro d pre
    exact ⟨pre, fun file there outside => absurd there outside⟩
  · have marked : ∀ d, (Settled g d ∧
        ∀ file ∈ savedFiles, file ∉ [] → d (tmpPath file) = some (text file)) → ∀ text',
        Decided g (fun file => some (text file)) (Function.update d PENDING (some text')) := by
      intro d pre text'
      refine ⟨by rw [Function.update_self]; rfl, fun file there => ?_, fun file there => ?_⟩
      · rw [Function.update_of_ne (ne_pending there)]
        exact pre.1.files file there
      · rw [Function.update_of_ne (tmpPath_ne_pending there)]
        exact pre.2 file there List.not_mem_nil
    apply Triple.act
    · exact fun d pre => marked d pre ""
    · exact fun d pre => .inl pre.1
    · exact fun d post => .inr post
    · intro d d' pre stopped
      obtain ⟨text', same⟩ := stopped
      rw [same]
      exact .inr (marked d pre text')

end Steps

/-! ## A save that is stopped -/

section Whole

variable {d left settled : Dir} {text : String → String}

/-- **What a save leaves** stands for the old generation or for the new one. -/
theorem saved_stands (saved : Saved text d left) :
    Stands (standing d) left ∨ Stands (fun file => some (text file)) left := by
  have old : Stands (standing d) d := fun _ _ => rfl
  have recovered : Settled (standing d) (recoverSave.run d) := recoverSave_spec.done d old
  have whole : ∀ file ∈ savedFiles, ((fun file => some (text file)) file).isSome := fun _ _ => rfl
  have either : ∀ d', (Settled (standing d) d' ∨ Decided (standing d) (fun file => some (text file)) d') →
      Stands (standing d) d' ∨ Stands (fun file => some (text file)) d' := fun d' h =>
    h.imp (fun settled => settled.stands) (fun decided => decided.stands whole)
  cases saved with
  | recovering stopped => exact .inl (recoverSave_spec.halt d left old stopped)
  | deciding stopped => exact either left ((decide_spec text).halt _ left recovered stopped)
  | failing failed stopped =>
    rename_i d'
    have undecided := (decide_spec text).halt _ d' recovered failed
    have forgotten : Settled (standing d) ((removeFile PENDING).run d') := by
      refine ⟨?_, fun file there => ?_⟩
      · show Function.update d' PENDING none PENDING = none
        exact Function.update_self ..
      show Function.update d' PENDING none file = _
      rw [Function.update_of_ne (ne_pending there)]
      cases undecided with
      | inl quiet => exact quiet.files file there
      | inr marked => exact marked.files file there
    rcases stopped with (same | removed | inside) | again
    · rw [same]
      exact either d' undecided
    · rw [removed]
      exact .inl forgotten.stands
    · exact inside.elim
    · exact .inl (recoverSave_spec.halt _ left forgotten.stands again)
  | unremoved failed stopped =>
    rename_i d'
    rcases either d' ((decide_spec text).halt _ d' recovered failed) with stood | stood
    · exact .inl (recoverSave_spec.halt d' left stood stopped)
    · exact .inr (recoverSave_spec.halt d' left stood stopped)
  | finishing stopped =>
    have decided := (decide_spec text).done _ recovered
    exact .inr (finishSave_spec.halt _ left ⟨decided.pending, decided.stands whole⟩ stopped)

/-- The program of a start. -/
def Recovering (_ : Dir) (p : Prog Dir) : Prop := p = recoverSave

/-- **A recovery that is let finish** leaves the files the directory stood for. -/
theorem recovered_settled {g : String → Option String} (stands : Stands g left)
    (recovered : Recovered Recovering left settled) : Settled g settled := by
  refine recovered.ends (C := Stands g) (fun d p starts stood => ?_) stands
  rw [show p = recoverSave from starts]
  apply recoverSave_spec.weaken
  · intro d' same
    exact same ▸ stood
  · exact fun _ post => post
  · exact fun _ crash => crash

variable {γ δ : Type}

/-- **A save is all or nothing**: wherever it is stopped, or fails, and however often the
recoveries after it are stopped, a load that completes finds all the files as they were before or
all the files of the new configuration, and reads what it would have read then or what the new
files say. -/
theorem save_all_or_nothing (S : Spelling γ δ) (c : γ) (dir : String)
    (saved : Saved (S.text c) d left) (recovered : Recovered Recovering left settled) :
    ((∀ file ∈ savedFiles, settled file = recoverSave.run d file) ∧
        S.load dir settled = S.load dir (recoverSave.run d)) ∨
      ((∀ file ∈ savedFiles, settled file = some (S.text c file)) ∧
        S.load dir settled = S.load dir fun file => some (S.text c file)) := by
  have before : Settled (standing d) (recoverSave.run d) :=
    recoverSave_spec.done d fun _ _ => rfl
  cases saved_stands saved with
  | inl old =>
    have files := (recovered_settled old recovered).files
    have same : ∀ file ∈ savedFiles, settled file = recoverSave.run d file := fun file there =>
      (files file there).trans (before.files file there).symm
    exact .inl ⟨same, S.load_congr same⟩
  | inr new =>
    have files := (recovered_settled new recovered).files
    exact .inr ⟨files, S.load_congr files⟩

def plainSpelling : Spelling String String where
  documentYaml c _ := c
  generation _ := 1
  parseDocument _ text := .ok text
  parseNumber text := text.trimAscii.toNat?
  fromDocuments docs _ := String.join (docs.map Prod.snd)

def firstDecided : Dir := (decide_ (plainSpelling.text "{}")).run (recoverSave.run fun _ => none)

theorem save_all_or_nothing_decided :
    ((∀ file ∈ savedFiles, recoverSave.run firstDecided file =
          recoverSave.run (fun _ => none) file) ∧
        plainSpelling.load "security" (recoverSave.run firstDecided) =
          plainSpelling.load "security" (recoverSave.run fun _ => none)) ∨
      ((∀ file ∈ savedFiles, recoverSave.run firstDecided file = some (plainSpelling.text "{}" file)) ∧
        plainSpelling.load "security" (recoverSave.run firstDecided) =
          plainSpelling.load "security" fun file => some (plainSpelling.text "{}" file)) :=
  save_all_or_nothing plainSpelling "{}" "security" (.finishing (Prog.halts_start _ _)) (.done rfl)

end Whole

end Velosearch.Security
