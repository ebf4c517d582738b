import Velosearch.Ingest.Pipeline

/-!
# What a failure leaves behind

Every part of a run of pipelines ends, puts the stack back and keeps the log straight: what goes
on after a failure is the document the failed turn began with, and the notes. Two amounts of fuel
that are enough come to the same.
-/

set_option autoImplicit false

namespace Velosearch.Ingest

variable {B V C : Type}

/-! ## Notes -/

@[simp] theorem IngestDoc.insert_ingest_ne {d : IngestDoc B V} {k k' : String} {v : V}
    (h : k' ≠ k) : (d.insert k v).ingest k' = d.ingest k' := by
  simp [IngestDoc.insert, Function.update_of_ne h]

@[simp] theorem IngestDoc.remove_ingest_ne {d : IngestDoc B V} {k k' : String}
    (h : k' ≠ k) : (d.remove k).ingest k' = d.ingest k' := by
  simp [IngestDoc.remove, Function.update_of_ne h]

theorem IngestDoc.remove_ingest_none {d : IngestDoc B V} {k k' : String}
    (h : d.ingest k' = none) : (d.remove k).ingest k' = none := by
  by_cases same : k' = k
  · subst same
    simp [IngestDoc.remove]
  · rw [IngestDoc.remove_ingest_ne same]
    exact h

theorem IngestDoc.restore_ingest_ne {d : IngestDoc B V} {k k' : String} {o : Option V}
    (h : k' ≠ k) : (d.restore k o).ingest k' = d.ingest k' := by
  cases o with
  | none => exact IngestDoc.remove_ingest_ne h
  | some v => exact IngestDoc.insert_ingest_ne h

theorem clearFailure_ingest {d : IngestDoc B V} {k : String} (h : k ∈ noteKeys) :
    (clearFailure d).ingest k = none := by
  have gone : ∀ (keys : List String) (d : IngestDoc B V),
      (k ∈ keys ∨ d.ingest k = none) → (keys.foldl IngestDoc.remove d).ingest k = none := by
    intro keys
    induction keys with
    | nil =>
      intro d h
      simpa using h
    | cons key keys ih =>
      intro d h
      apply ih
      by_cases same : k = key
      · right
        simp [same, IngestDoc.remove]
      · rcases h with h | h
        · left
          simpa [same] using h
        · right
          exact IngestDoc.remove_ingest_none h
  exact gone noteKeys d (.inl h)

/-! ## Where a document comes from -/

/-- A processor put a note of this key into the document, and it was not cleared since. -/
def WrittenSince (k : String) (m : List (Mark B V)) : Prop :=
  ∃ newer before after older, m = newer ++ .acted before after :: older ∧ .cleared ∉ newer ∧
    before.ingest k = none ∧ after.ingest k ≠ none

/-- What came of a document: a note it carries was there before and no failure was handled on the
way, or a processor wrote it. -/
def Follows (doc d : Carried B V) : Prop :=
  ∃ m, d.trail = m ++ doc.trail ∧ ∀ k ∈ noteKeys, d.doc.ingest k ≠ none →
    (doc.doc.ingest k ≠ none ∧ .cleared ∉ m) ∨ WrittenSince k m

theorem Follows.refl (doc : Carried B V) : Follows doc doc :=
  ⟨[], rfl, fun _ _ h => .inl ⟨h, by simp⟩⟩

theorem Follows.grown {doc d : Carried B V} (h : Follows doc d) : doc.trail <:+ d.trail := by
  obtain ⟨m, hm, _⟩ := h
  exact ⟨m, hm.symm⟩

/-- What was written since was written since an earlier time. -/
theorem WrittenSince.older {k : String} {m m' : List (Mark B V)} (h : WrittenSince k m)
    (uncleared : .cleared ∉ m') : WrittenSince k (m' ++ m) := by
  obtain ⟨newer, b, d, older, rfl, hn, hb, hd⟩ := h
  exact ⟨m' ++ newer, b, d, older, by simp, by simp [uncleared, hn], hb, hd⟩

theorem WrittenSince.newer {k : String} {m m' : List (Mark B V)} (h : WrittenSince k m') :
    WrittenSince k (m' ++ m) := by
  obtain ⟨newer, b, d, older, rfl, hn, hb, hd⟩ := h
  exact ⟨newer, b, d, older ++ m, by simp, hn, hb, hd⟩

/-- One stretch of a document's way after another. -/
theorem Follows.trans {a b c : Carried B V} (hab : Follows a b) (hbc : Follows b c) :
    Follows a c := by
  obtain ⟨m, hm, ham⟩ := hab
  obtain ⟨m', hm', hbm⟩ := hbc
  refine ⟨m' ++ m, by rw [hm', hm, List.append_assoc], ?_⟩
  intro k hk carried
  rcases hbm k hk carried with ⟨hb, uncleared⟩ | written
  · rcases ham k hk hb with ⟨ha, uncleared'⟩ | written
    · exact .inl ⟨ha, by simp [uncleared, uncleared']⟩
    · exact .inr (written.older uncleared)
  · exact .inr written.newer

theorem Follows.clear {doc d : Carried B V} (h : doc.trail <:+ d.trail) :
    Follows doc d.clear := by
  obtain ⟨m, hm⟩ := h
  refine ⟨.cleared :: m, by simp [Carried.clear, hm], ?_⟩
  intro k hk carried
  exact absurd (clearFailure_ingest hk) carried

/-- A processor that acts. -/
theorem Follows.acted (doc : Carried B V) (made : IngestDoc B V) :
    Follows doc (doc.acted made) := by
  refine ⟨[.acted doc.doc made], rfl, ?_⟩
  intro k _ carried
  by_cases before : doc.doc.ingest k = none
  · exact .inr ⟨[], doc.doc, made, [], rfl, by simp, before, carried⟩
  · exact .inl ⟨before, by simp⟩

theorem Follows.edit {doc : Carried B V} {f : IngestDoc B V → IngestDoc B V}
    (h : ∀ k ∈ noteKeys, (f doc.doc).ingest k ≠ none → doc.doc.ingest k ≠ none) :
    Follows doc (doc.edit f) :=
  ⟨[], rfl, fun k hk carried => .inl ⟨h k hk carried, by simp⟩⟩

theorem follows_insert {doc : Carried B V} {key : String} (v : V) (h : key ∉ noteKeys) :
    Follows doc (doc.edit (·.insert key v)) := by
  apply Follows.edit
  intro k hk carried
  rwa [IngestDoc.insert_ingest_ne (ne_of_mem_of_not_mem hk h)] at carried

theorem follows_remove {doc : Carried B V} {key : String} (h : key ∉ noteKeys) :
    Follows doc (doc.edit (·.remove key)) := by
  apply Follows.edit
  intro k hk carried
  rwa [IngestDoc.remove_ingest_ne (ne_of_mem_of_not_mem hk h)] at carried

theorem follows_restore {doc : Carried B V} {key : String} (o : Option V) (h : key ∉ noteKeys) :
    Follows doc (doc.edit (·.restore key o)) := by
  apply Follows.edit
  intro k hk carried
  rwa [IngestDoc.restore_ingest_ne (ne_of_mem_of_not_mem hk h)] at carried

/-! ## A straight log -/

/-- The document as an error leaves it for the route it goes. -/
def Route.takes (w : Engine B V C) (how : Route) (b : IngestDoc B V) (e : IngestError) :
    IngestDoc B V :=
  match how with
  | .ignored => b
  | .own | .pipelines => noteFailure w b e

/-- The place `i` of the log comes right after a failed turn, and the document there is the one
that turn began with. -/
def AsItStood (w : Engine B V C) (log : List (Event B V)) (i : ℕ) (how : Route)
    (d : IngestDoc B V) : Prop :=
  ∃ j begun e b, i = j + 1 ∧ log[j]? = some (.failed begun e) ∧
    log[begun]? = some (.began b) ∧ d = how.takes w b e

/-- No pipeline runs within itself. -/
structure Straight (w : Engine B V C) (st : St B V) : Prop where
  distinct : st.depth.Nodup
  room : st.depth.length ≤ mostNestedPipelines
  entered : ∀ stack, .entered stack ∈ st.log →
    stack.Nodup ∧ stack.length ≤ mostNestedPipelines
  untouched : ∀ i how d, st.log[i]? = some (.goesOn how d) → AsItStood w st.log i how d

/-- What was logged stays logged. -/
theorem seen_later {log log' : List (Event B V)} {i : ℕ} {ev : Event B V} (later : log <+: log')
    (h : log[i]? = some ev) : log'[i]? = some ev := by
  obtain ⟨t, rfl⟩ := later
  rw [List.getElem?_append_left (List.getElem?_eq_some_iff.mp h).1]
  exact h

/-- A document as it stood is as it stood. -/
theorem AsItStood.later {w : Engine B V C} {log log' : List (Event B V)} {i : ℕ} {how : Route}
    {d : IngestDoc B V} (h : AsItStood w log i how d) (later : log <+: log') :
    AsItStood w log' i how d := by
  obtain ⟨j, begun, e, b, hi, hj, hb, hd⟩ := h
  exact ⟨j, begun, e, b, hi, seen_later later hj, seen_later later hb, hd⟩

theorem getElem?_saw {st : St B V} {ev ev' : Event B V} {i : ℕ}
    (h : (st.saw ev).log[i]? = some ev') :
    st.log[i]? = some ev' ∨ i = st.log.length ∧ ev' = ev := by
  simp only [St.saw] at h
  rcases Nat.lt_trichotomy i st.log.length with lt | same | gt
  · left
    rwa [List.getElem?_append_left lt] at h
  · right
    subst same
    simp at h
    exact ⟨rfl, h.symm⟩
  · rw [List.getElem?_eq_none (by simp; omega)] at h
    cases h

theorem seen_here (st : St B V) (ev : Event B V) :
    (st.saw ev).log[st.log.length]? = some ev := by
  simp [St.saw]

theorem saw_last (st : St B V) (ev : Event B V) : (st.saw ev).log.getLast? = some ev := by
  simp [St.saw]

theorem saw_later (st : St B V) (ev : Event B V) : st.log <+: (st.saw ev).log :=
  List.prefix_append _ _

/-- An event that enters no pipeline. -/
theorem Straight.saw {w : Engine B V C} {st : St B V} (h : Straight w st) {ev : Event B V}
    (entered : ∀ stack, ev ≠ .entered stack) (goes : ∀ how d, ev ≠ .goesOn how d) :
    Straight w (st.saw ev) := by
  refine ⟨h.distinct, h.room, ?_, ?_⟩
  · intro stack hs
    rcases List.mem_append.mp hs with hs | hs
    · exact h.entered stack hs
    · exact absurd (List.mem_singleton.mp hs).symm (entered stack)
  · intro i how d hi
    rcases getElem?_saw hi with hi | ⟨_, same⟩
    · exact (h.untouched i how d hi).later (saw_later st ev)
    · exact absurd same.symm (goes how d)

theorem Straight.goesOn {w : Engine B V C} {st : St B V} (h : Straight w st) {begun : ℕ}
    {e : IngestError} {b : IngestDoc B V} (how : Route)
    (last : st.log.getLast? = some (.failed begun e)) (hb : st.log[begun]? = some (.began b)) :
    Straight w (st.saw (.goesOn how (how.takes w b e))) := by
  refine ⟨h.distinct, h.room, ?_, ?_⟩
  · intro stack hs
    rcases List.mem_append.mp hs with hs | hs
    · exact h.entered stack hs
    · exact absurd (List.mem_singleton.mp hs) nofun
  · intro i how' d hi
    rcases getElem?_saw hi with hi | ⟨hi, same⟩
    · exact (h.untouched i how' d hi).later (saw_later st _)
    · cases same
      have some_ : st.log.length - 1 + 1 = st.log.length := by
        cases hl : st.log with
        | nil => simp [hl] at last
        | cons _ _ => simp
      rw [List.getLast?_eq_getElem?] at last
      exact ⟨st.log.length - 1, begun, e, b, by omega,
        seen_later (saw_later st _) last, seen_later (saw_later st _) hb, rfl⟩

/-! ## What every part of a run does -/

/-- The pipelines that run are those that ran, and the log has only grown. -/
def Goes (st st' : St B V) : Prop :=
  st'.depth = st.depth ∧ st.log <+: st'.log

theorem Goes.refl (st : St B V) : Goes st st := ⟨rfl, List.prefix_rfl⟩

theorem Goes.trans {a b c : St B V} (hab : Goes a b) (hbc : Goes b c) : Goes a c :=
  ⟨hbc.1.trans hab.1, hab.2.trans hbc.2⟩

theorem Goes.saw {st st' : St B V} (h : Goes st st') (ev : Event B V) : Goes st (st'.saw ev) :=
  ⟨h.1, h.2.trans (saw_later st' ev)⟩

/-- Two runs of one part come to the same, which is as `Q` says of a document and what came of
it; whatever stack they start from, it is left as it was. -/
def Agree {α : Type} (w : Engine B V C) (depth : List String)
    (Q : Carried B V → α → St B V → Prop) (f g : Carried B V → St B V → Ran B V α) : Prop :=
  ∀ doc st, st.depth = depth → Straight w st →
    ∃ a st', f doc st = some (a, st') ∧ g doc st = some (a, st') ∧
      Goes st st' ∧ Straight w st' ∧ Q doc a st'

/-- What a run may come to. -/
def Came (doc : Carried B V) (out : Except IngestError (Option (Carried B V))) (_ : St B V) :
    Prop :=
  ∀ d, out = .ok (some d) → Follows doc d

/-- What comes of a list of processors: a failure hands back the document the failed turn began
with, which was the last thing seen. -/
def Handed (doc : Carried B V)
    (out : Except (IngestError × Carried B V) (Option (Carried B V))) (st : St B V) : Prop :=
  (∀ d, out = .ok (some d) → Follows doc d) ∧
    ∀ e d, out = .error (e, d) → doc.trail <:+ d.trail ∧
      ∃ begun, st.log.getLast? = some (.failed begun e) ∧ st.log[begun]? = some (.began d.doc)

/-- A document that is handed on. -/
theorem Handed.ok {doc d : Carried B V} {st : St B V} (h : Follows doc d) :
    Handed doc (.ok (some d)) st := by
  refine ⟨?_, nofun⟩
  intro d' same
  cases same
  exact h

/-- One that is not, with its error. -/
theorem Handed.failed {doc d : Carried B V} {st : St B V} {begun : ℕ} {e : IngestError}
    (grown : doc.trail <:+ d.trail) (hb : st.log[begun]? = some (.began d.doc)) :
    Handed doc (.error (e, d)) (st.saw (.failed begun e)) := by
  refine ⟨nofun, ?_⟩
  intro e' d' same
  cases same
  exact ⟨grown, begun, saw_last st _, seen_later (saw_later st _) hb⟩

/-- A failure that was dealt with leaves no note. -/
theorem Follows.handled {doc d : Carried B V} (w : Engine B V C) (e : IngestError)
    (grown : doc.trail <:+ d.trail) (out : Option (Carried B V))
    (came : ∀ d', out = some d' → Follows (d.note w e) d') :
    ∀ d', out.map Carried.clear = some d' → Follows doc d' := by
  intro d' same
  cases out with
  | none => cases same
  | some made =>
    cases same
    exact Follows.clear ((grown.trans (List.suffix_cons _ _)).trans (came made rfl).grown)

theorem Came.error {doc : Carried B V} {e : IngestError} {st : St B V} :
    Came doc (.error e) st := nofun

theorem Came.dropped {doc : Carried B V} {st : St B V} : Came doc (.ok none) st := nofun

theorem Came.ok {doc d : Carried B V} {st : St B V} (h : Follows doc d) :
    Came doc (.ok (some d)) st := by
  intro d' same
  cases same
  exact h

section Parts

variable {w : Engine B V C} {depth : List String}

/-- The items of a list, by induction. -/
theorem agree_eachItem
    {run run' : Carried B V → St B V →
      Ran B V (Except (IngestError × Carried B V) (Option (Carried B V)))}
    (h : Agree w depth Handed run run') :
    ∀ items outItems outMap,
      Agree w depth (fun doc out _ => ∀ d outs, out = .ok (some (d, outs)) → Follows doc d)
        (eachItem w run items outItems outMap) (eachItem w run' items outItems outMap) := by
  intro items
  induction items with
  | nil =>
    intro outItems outMap doc st _ straight
    refine ⟨_, st, rfl, rfl, Goes.refl st, straight, ?_⟩
    intro d outs same
    cases same
    exact Follows.refl doc
  | cons item rest ih =>
    obtain ⟨key, v⟩ := item
    intro outItems outMap doc st hst straight
    have value : Follows doc (doc.edit (·.insert "_value" v)) :=
      follows_insert v (by simp [noteKeys])
    obtain ⟨out, st₁, hrun, hrun', goes, straight₁, handed⟩ := h _ st hst straight
    simp only [eachItem]
    rw [hrun, hrun']
    cases out with
    | error e =>
      exact ⟨_, st₁, rfl, rfl, goes, straight₁, by rintro _ _ ⟨⟩⟩
    | ok out =>
      cases out with
      | none => exact ⟨_, st₁, rfl, rfl, goes, straight₁, by rintro _ _ ⟨⟩⟩
      | some d =>
        have came : Follows doc (d.edit (·.remove "_value")) := by
          refine (Follows.trans ?_ (handed.1 d rfl)).trans (follows_remove (by simp [noteKeys]))
          cases key with
          | none => exact value
          | some k => exact value.trans (follows_insert _ (by simp [noteKeys]))
        have depth₁ : st₁.depth = depth := goes.1.trans hst
        cases key with
        | none =>
          obtain ⟨out, st₂, hf, hg, goes₂, straight₂, hout⟩ := ih _ _ _ st₁ depth₁ straight₁
          refine ⟨out, st₂, hf, hg, goes.trans goes₂, straight₂, ?_⟩
          intro d' outs same
          exact came.trans (hout d' outs same)
        | some k =>
          obtain ⟨out, st₂, hf, hg, goes₂, straight₂, hout⟩ := ih _ _ _ st₁ depth₁ straight₁
          refine ⟨out, st₂, hf, hg, goes.trans goes₂, straight₂, ?_⟩
          intro d' outs same
          exact (came.trans (follows_remove (by simp [noteKeys]))).trans (hout d' outs same)

/-- A processor over a list. -/
theorem agree_runEach
    {run run' : Carried B V → St B V →
      Ran B V (Except (IngestError × Carried B V) (Option (Carried B V)))}
    (h : Agree w depth Handed run run') (config : C) (ignoreMissing : Bool) :
    Agree w depth Came (runEach w run config ignoreMissing)
      (runEach w run' config ignoreMissing) := by
  intro doc st hst straight
  simp only [runEach]
  cases w.items st.log.length config ignoreMissing doc.doc with
  | error e => exact ⟨_, st, rfl, rfl, Goes.refl st, straight, Came.error⟩
  | ok items =>
    cases items with
    | none => exact ⟨_, st, rfl, rfl, Goes.refl st, straight, Came.ok (Follows.refl doc)⟩
    | some items =>
      obtain ⟨out, st₁, hf, hg, goes, straight₁, came⟩ :=
        agree_eachItem h items [] [] doc st hst straight
      simp only [hf, hg]
      cases out with
      | error e => exact ⟨_, st₁, rfl, rfl, goes, straight₁, Came.error⟩
      | ok out =>
        cases out with
        | none => exact ⟨_, st₁, rfl, rfl, goes, straight₁, Came.dropped⟩
        | some out =>
          obtain ⟨d, outItems, outMap⟩ := out
          have kept : Follows doc (d.edit (·.remove "_key")) :=
            (came d _ rfl).trans (follows_remove (by simp [noteKeys]))
          simp only
          cases w.rebuild st₁.log.length config outItems outMap
              (d.edit (·.remove "_key")).doc with
          | error e => exact ⟨_, st₁, rfl, rfl, goes, straight₁, Came.error⟩
          | ok made =>
            exact ⟨_, st₁, rfl, rfl, goes, straight₁, Came.ok (kept.trans (Follows.acted _ _))⟩

/-- A processor that calls a pipeline. -/
theorem agree_runNamed
    {call call' : Pipeline C → Carried B V → St B V →
      Ran B V (Except IngestError (Option (Carried B V)))}
    (h : ∀ p, Agree w depth Came (call p) (call' p)) (config : C) :
    Agree w depth Came (runNamed w call config) (runNamed w call' config) := by
  intro doc st hst straight
  simp only [runNamed]
  cases w.named st.log.length config doc.doc with
  | error e => exact ⟨_, st, rfl, rfl, Goes.refl st, straight, Came.error⟩
  | ok named =>
    obtain ⟨name, ignoreMissingPipeline⟩ := named
    simp only
    cases w.stored st.log.length name with
    | none =>
      cases ignoreMissingPipeline with
      | false => exact ⟨_, st, rfl, rfl, Goes.refl st, straight, Came.error⟩
      | true => exact ⟨_, st, rfl, rfl, Goes.refl st, straight, Came.ok (Follows.refl doc)⟩
    | some p =>
      cases p with
      | error e => exact ⟨_, st, rfl, rfl, Goes.refl st, straight, Came.error⟩
      | ok p =>
        simp only
        by_cases cycle : name ∈ st.depth
        · simp only [if_pos cycle]
          exact ⟨_, st, rfl, rfl, Goes.refl st, straight, Came.error⟩
        · simp only [if_neg cycle]
          obtain ⟨out, st₁, hf, hg, goes, straight₁, came⟩ :=
            h p (doc.edit (·.insert "pipeline" (w.text name))) st hst straight
          rw [hf, hg]
          have given : Follows doc (doc.edit (·.insert "pipeline" (w.text name))) :=
            follows_insert _ (by simp [noteKeys])
          cases out with
          | error e => exact ⟨_, st₁, rfl, rfl, goes, straight₁, Came.error⟩
          | ok out =>
            cases out with
            | none => exact ⟨_, st₁, rfl, rfl, goes, straight₁, Came.dropped⟩
            | some d =>
              refine ⟨_, st₁, rfl, rfl, goes, straight₁, Came.ok ?_⟩
              exact (given.trans (came d rfl)).trans (follows_restore _ (by simp [noteKeys]))

theorem agree_runOne
    {call call' : Pipeline C → Carried B V → St B V →
      Ran B V (Except IngestError (Option (Carried B V)))}
    {run run' : Carried B V → St B V →
      Ran B V (Except (IngestError × Carried B V) (Option (Carried B V)))}
    (hc : ∀ p, Agree w depth Came (call p) (call' p)) (hr : Agree w depth Handed run run')
    (spec : Written C) :
    Agree w depth Came (runOne w call run spec) (runOne w call' run' spec) := by
  intro doc st hst straight
  simp only [runOne]
  cases w.ignoreMissing spec.config with
  | error e => exact ⟨_, st, rfl, rfl, Goes.refl st, straight, Came.error⟩
  | ok ignoreMissing =>
    have body : ∃ out st', runBody w call run spec ignoreMissing doc st = some (out, st') ∧
        runBody w call' run' spec ignoreMissing doc st = some (out, st') ∧
        Goes st st' ∧ Straight w st' ∧ Came doc out st' := by
      simp only [runBody]
      by_cases named : spec.kind = "pipeline"
      · simp only [if_pos named]
        exact agree_runNamed hc spec.config doc st hst straight
      · simp only [if_neg named]
        by_cases each : spec.kind = "foreach"
        · simp only [if_pos each]
          exact agree_runEach hr spec.config ignoreMissing doc st hst straight
        · simp only [if_neg each]
          cases w.act st.log.length spec.kind spec.config ignoreMissing doc.doc with
          | error e => exact ⟨_, st, rfl, rfl, Goes.refl st, straight, Came.error⟩
          | ok made =>
            cases made with
            | none => exact ⟨_, st, rfl, rfl, Goes.refl st, straight, Came.dropped⟩
            | some made =>
              exact ⟨_, st, rfl, rfl, Goes.refl st, straight, Came.ok (Follows.acted doc made)⟩
    obtain ⟨out, st₁, hf, hg, goes, straight₁, came⟩ := body
    simp only [hf, hg]
    cases out with
    | ok d => exact ⟨_, st₁, rfl, rfl, goes, straight₁, came⟩
    | error e =>
      simp only
      by_cases missing : e.kind = "__missing__"
      · simp only [if_pos missing]
        exact ⟨_, st₁, rfl, rfl, goes, straight₁, Came.ok (Follows.refl doc)⟩
      · simp only [if_neg missing]
        exact ⟨_, st₁, rfl, rfl, goes, straight₁, Came.error⟩

theorem Straight.failed {st : St B V} (h : Straight w st) (begun : ℕ) (e : IngestError) :
    Straight w (st.saw (.failed begun e)) :=
  h.saw nofun nofun

/-- One processor with its failures. -/
theorem agree_turn
    {call call' : Pipeline C → Carried B V → St B V →
      Ran B V (Except IngestError (Option (Carried B V)))}
    {run run' : Carried B V → St B V →
      Ran B V (Except (IngestError × Carried B V) (Option (Carried B V)))}
    {handle handle' : Option (Carried B V → St B V →
      Ran B V (Except (IngestError × Carried B V) (Option (Carried B V))))}
    (hc : ∀ p, Agree w depth Came (call p) (call' p)) (hr : Agree w depth Handed run run')
    (hh : Option.Rel (Agree w depth Handed) handle handle') (pipeline : String)
    (spec : Written C) :
    Agree w depth Handed (turn w call run handle pipeline spec)
      (turn w call' run' handle' pipeline spec) := by
  intro doc st hst straight
  have here := seen_here st (.began doc.doc)
  have began : Straight w (st.saw (.began doc.doc)) := straight.saw nofun nofun
  have goes₀ : Goes st (st.saw (.began doc.doc)) := (Goes.refl st).saw _
  simp only [turn]
  cases spec.condition.elim (.ok true) (w.conditionHolds st.log.length · doc.doc) with
  | error e =>
    simp only
    have failed := began.failed st.log.length (e.withProcessor spec pipeline)
    cases spec.ignoreFailure with
    | true =>
      exact ⟨_, _, rfl, rfl, (goes₀.saw _).saw _,
        failed.goesOn .ignored (saw_last _ _) (seen_later (saw_later _ _) here),
        Handed.ok (Follows.refl doc)⟩
    | false =>
      exact ⟨_, _, rfl, rfl, goes₀.saw _, failed, Handed.failed List.suffix_rfl here⟩
  | ok met =>
    cases met with
    | false => exact ⟨_, _, rfl, rfl, goes₀, began, Handed.ok (Follows.refl doc)⟩
    | true =>
      simp only
      obtain ⟨out, st₁, hf, hg, goes, straight₁, came⟩ :=
        agree_runOne hc hr spec doc (st.saw (.began doc.doc)) hst began
      rw [hf, hg]
      have here₁ := seen_later goes.2 here
      have goes₁ := goes₀.trans goes
      cases out with
      | ok d =>
        refine ⟨_, st₁, rfl, rfl, goes₁, straight₁, ?_, nofun⟩
        intro d' same
        cases same
        exact came d' rfl
      | error e =>
        simp only
        generalize { e.withProcessor spec pipeline with nested := false } = e
        have failed := straight₁.failed st.log.length e
        have here₂ := seen_later (saw_later st₁ (.failed st.log.length e)) here₁
        cases spec.ignoreFailure with
        | true =>
          exact ⟨_, _, rfl, rfl, (goes₁.saw _).saw _,
            failed.goesOn .ignored (saw_last _ _) here₂, Handed.ok (Follows.refl doc)⟩
        | false =>
          cases hh with
          | none =>
            exact ⟨_, _, rfl, rfl, goes₁.saw _, failed, Handed.failed List.suffix_rfl here₁⟩
          | some own =>
            obtain ⟨out, st₂, hf, hg, goes₂, straight₂, handed⟩ :=
              own (doc.note w e) ((st₁.saw (.failed st.log.length e)).saw
                  (.goesOn .own (doc.note w e).doc)) (goes₁.1.trans hst)
                (failed.goesOn .own (saw_last _ _) here₂)
            have goes₃ := ((goes₁.saw _).saw _).trans goes₂
            simp only [Bool.false_eq_true, if_false]
            rw [hf, hg]
            cases out with
            | ok d =>
              refine ⟨_, st₂, rfl, rfl, goes₃, straight₂, ?_, nofun⟩
              intro d' same
              refine Follows.handled w e List.suffix_rfl d ?_ d' (Except.ok.inj same)
              intro d'' hd
              exact handed.1 d'' (congrArg Except.ok hd)
            | error inner =>
              refine ⟨_, st₂, rfl, rfl, goes₃, straight₂, nofun, ?_⟩
              intro e' d' same
              cases same
              obtain ⟨grown, rest⟩ := handed.2 e' d' rfl
              exact ⟨(List.suffix_cons _ _).trans grown, rest⟩

/-! ## Lists and pipelines -/

mutual

/-- Processors one after another, by induction. -/
theorem agree_runProcessors
    {call call' : Pipeline C → Carried B V → St B V →
      Ran B V (Except IngestError (Option (Carried B V)))}
    (hc : ∀ p, Agree w depth Came (call p) (call' p)) (pipeline : String) :
    ∀ list : List (ProcessorSpec C), Agree w depth Handed
      (runProcessors w call pipeline list) (runProcessors w call' pipeline list)
  | [] => by
    intro doc st _ straight
    simp only [runProcessors]
    exact ⟨_, st, rfl, rfl, Goes.refl st, straight, Handed.ok (Follows.refl doc)⟩
  | spec :: rest => by
    intro doc st hst straight
    simp only [runProcessors]
    obtain ⟨out, st₁, hf, hg, goes, straight₁, handed⟩ :=
      agree_runSpec hc pipeline spec doc st hst straight
    rw [hf, hg]
    cases out with
    | error inner => exact ⟨_, st₁, rfl, rfl, goes, straight₁, handed⟩
    | ok d =>
      cases d with
      | none => exact ⟨_, st₁, rfl, rfl, goes, straight₁, handed⟩
      | some d =>
        have came := handed.1 d rfl
        obtain ⟨out, st₂, hf, hg, goes₂, straight₂, handed₂⟩ :=
          agree_runProcessors hc pipeline rest d st₁ (goes.1.trans hst) straight₁
        refine ⟨out, st₂, hf, hg, goes.trans goes₂, straight₂, ?_, ?_⟩
        · intro d' same
          exact came.trans (handed₂.1 d' same)
        · intro e d' same
          obtain ⟨grown, last⟩ := handed₂.2 e d' same
          exact ⟨came.grown.trans grown, last⟩

theorem agree_runSpec
    {call call' : Pipeline C → Carried B V → St B V →
      Ran B V (Except IngestError (Option (Carried B V)))}
    (hc : ∀ p, Agree w depth Came (call p) (call' p)) (pipeline : String) :
    ∀ spec : ProcessorSpec C, Agree w depth Handed
      (runSpec w call pipeline spec) (runSpec w call' pipeline spec)
  | .mk own onFailure processor => by
    intro doc st hst straight
    simp only [runSpec]
    have each := agree_runProcessors hc "_foreach" processor
    have handle := agree_runProcessors hc pipeline onFailure
    cases onFailure.isEmpty with
    | true => exact agree_turn hc each .none pipeline own doc st hst straight
    | false => exact agree_turn hc each (.some handle) pipeline own doc st hst straight

end

/-- A pipeline that was entered. -/
theorem agree_runEntered
    {call call' : Pipeline C → Carried B V → St B V →
      Ran B V (Except IngestError (Option (Carried B V)))}
    (hc : ∀ p, Agree w depth Came (call p) (call' p)) (pipeline : Pipeline C) :
    Agree w depth Came (runEntered w call pipeline) (runEntered w call' pipeline) := by
  intro doc st hst straight
  simp only [runEntered]
  obtain ⟨out, st₁, hf, hg, goes, straight₁, handed⟩ :=
    agree_runProcessors hc pipeline.name pipeline.processors doc st hst straight
  rw [hf, hg]
  cases out with
  | ok d =>
    refine ⟨_, st₁, rfl, rfl, goes, straight₁, ?_⟩
    intro d' same
    cases same
    exact handed.1 d' rfl
  | error inner =>
    obtain ⟨e, d⟩ := inner
    simp only
    obtain ⟨grown, begun, last, hb⟩ := handed.2 e d rfl
    cases pipeline.onFailure.isEmpty with
    | true => exact ⟨_, st₁, rfl, rfl, goes, straight₁, Came.error⟩
    | false =>
      obtain ⟨out, st₂, hf, hg, goes₂, straight₂, handed₂⟩ :=
        agree_runProcessors hc pipeline.name pipeline.onFailure (d.note w e)
          (st₁.saw (.goesOn .pipelines (d.note w e).doc)) (goes.1.trans hst)
          (straight₁.goesOn .pipelines last hb)
      simp only [Bool.false_eq_true, if_false]
      rw [hf, hg]
      have goes₃ := (goes.saw _).trans goes₂
      cases out with
      | error inner => exact ⟨_, st₂, rfl, rfl, goes₃, straight₂, Came.error⟩
      | ok made =>
        refine ⟨_, st₂, rfl, rfl, goes₃, straight₂, ?_⟩
        intro d' same
        refine Follows.handled w e grown made ?_ d' (Except.ok.inj same)
        intro d'' hd
        exact handed₂.1 d'' (congrArg Except.ok hd)

end Parts

/-- Entering one that does not run yet. -/
theorem Straight.enter {w : Engine B V C} {st : St B V} (h : Straight w st) {name : String}
    (new : name ∉ st.depth) (room : st.depth.length < mostNestedPipelines) :
    Straight w (({ st with depth := st.depth ++ [name] } : St B V).saw
      (.entered (st.depth ++ [name]))) := by
  have distinct : (st.depth ++ [name]).Nodup := by
    rw [List.nodup_append]
    refine ⟨h.distinct, by simp, ?_⟩
    intro a ha b hb
    cases List.mem_singleton.mp hb
    exact ne_of_mem_of_not_mem ha new
  have fits : (st.depth ++ [name]).length ≤ mostNestedPipelines := by
    rw [List.length_append]
    exact room
  refine ⟨distinct, fits, ?_, ?_⟩
  · intro stack hs
    rcases List.mem_append.mp hs with hs | hs
    · exact h.entered stack hs
    · cases List.mem_singleton.mp hs
      exact ⟨distinct, fits⟩
  · intro i how d hi
    rcases getElem?_saw hi with hi | ⟨_, same⟩
    · exact (h.untouched i how d hi).later (saw_later _ _)
    · cases same

/-- Leaving it. -/
theorem Straight.leave {w : Engine B V C} {st st' : St B V} (h : Straight w st)
    (h' : Straight w st') : Straight w { st' with depth := st.depth } :=
  ⟨h.distinct, h.room, h'.entered, h'.untouched⟩

/-- A pipeline, by induction on how deep it is. -/
theorem agree_runPipeline (w : Engine B V C) :
    ∀ (fuel fuel' : ℕ) (depth : List String),
      mostNestedPipelines < fuel + depth.length → mostNestedPipelines < fuel' + depth.length →
      ∀ p, Agree w depth Came (runPipeline w fuel p) (runPipeline w fuel' p) := by
  intro fuel
  induction fuel with
  | zero =>
    intro fuel' depth enough _ p doc st hst straight
    have := straight.room
    rw [hst] at this
    omega
  | succ fuel ih =>
    intro fuel' depth enough enough' p doc st hst straight
    cases fuel' with
    | zero =>
      have := straight.room
      rw [hst] at this
      omega
    | succ fuel' =>
      simp only [runPipeline]
      by_cases cycle : p.name ∈ st.depth
      · simp only [if_pos cycle]
        exact ⟨_, st, rfl, rfl, Goes.refl st, straight, Came.error⟩
      · simp only [if_neg cycle]
        by_cases deep : mostNestedPipelines ≤ st.depth.length
        · simp only [if_pos deep]
          exact ⟨_, st, rfl, rfl, Goes.refl st, straight, Came.error⟩
        · simp only [if_neg deep]
          have longer : (st.depth ++ [p.name]).length = depth.length + 1 := by simp [hst]
          have called := ih fuel' (st.depth ++ [p.name]) (by omega) (by omega)
          obtain ⟨out, st₁, hf, hg, goes, straight₁, came⟩ :=
            agree_runEntered called p doc _ rfl (straight.enter cycle (by omega))
          rw [hf, hg]
          have back : st₁.depth.dropLast = st.depth := by
            rw [goes.1]
            simp [St.saw]
          simp only [back]
          exact ⟨_, _, rfl, rfl, ⟨rfl, (saw_later _ _).trans goes.2⟩, straight.leave straight₁,
            came⟩

def ring : Engine String String String where
  text s := s
  null := "null"
  asStr := some
  conditionHolds _ _ _ := .ok true
  ignoreMissing _ := .ok false
  act _ kind config _ doc :=
    if kind = "fail" then .error { kind := "fail_processor_exception", reason := config }
    else .ok (some { doc with body := config })
  named _ config _ := .ok (config, false)
  stored _ name := some (.ok
    { name, processors := [.mk { kind := "set", config := name } [] [],
        .mk { kind := "pipeline", config := if name = "a" then "b" else "a" } [] []] })
  items _ _ _ _ := .ok none
  rebuild _ _ _ _ doc := .ok doc

end Velosearch.Ingest
