import Velosearch.Lib.Digits
import Velosearch.Lib.Joined

/-!
# The ids of the groups a job writes

`bucket_doc` of `src/ism/transform.rs` and of `src/ism/rollup.rs`, and `hash_id` and `key_text` of
`src/ism/jobs.rs`: the id of a group's document is a hash of the job's id and the values of the
group's key, printed one after the other.

* The hash is a parameter, as is the way the doubles of a histogram are printed.
* A key is the values of its dimensions in their order, the missing ones included.
-/

set_option autoImplicit false

open Velosearch.Joined

namespace Velosearch.BucketDoc

/-! ## Keys -/

/-- A whole number, as an `i64` or a `u64`. -/
abbrev Whole := {n : ℤ // -2 ^ 63 ≤ n ∧ n < 2 ^ 64}

/-- A value of a key. -/
inductive Value (F : Type) where
  | missing
  | text (t : List Char)
  | whole (n : Whole)
  | double (f : F)
  | bool (b : Bool)

/-- What writes the groups. -/
inductive Kind where
  | transform
  | rollup

/-- What stands between the values. -/
def Kind.separator : Kind → Char
  | .transform => ':'
  | .rollup => '#'

section

variable {F H : Type} (javaDouble : F → List Char) (hash : List Char → H)

/-- What stands for a missing value. -/
def magicNull : List Char :=
  "#ODFE-MAGIC-NULL-MAGIC-ODFE#".toList

/-- A value as the key has it. -/
def keyText : Value F → List Char
  | .missing => magicNull
  | .text t => t
  | .whole n => Digits.signed n.1
  | .double f => javaDouble f
  | .bool b => (toString b).toList

/-- A key as the id has it. -/
def keyTexts (kind : Kind) (key : List (Value F)) : List Char :=
  [kind.separator].intercalate (key.map (keyText javaDouble))

/-- The text the id is the hash of. -/
def idText (kind : Kind) (id : List Char) (key : List (Value F)) : List Char :=
  id ++ '#' :: keyTexts javaDouble kind key

/-- The id of a bucket's document. -/
def bucketId (kind : Kind) (id : List Char) (key : List (Value F)) : H :=
  hash (idText javaDouble kind id key)

/-- A date, or none. -/
def Dated (v : Value F) : Prop :=
  v = .missing ∨ ∃ n : Whole, v = .whole n ∧ n.1 < 2 ^ 63

/-- A key of its kind. -/
def IsKey : Kind → List (Value F) → Prop
  | .transform, key => key ≠ []
  | .rollup, key => ∃ d rest, key = d :: rest ∧ Dated d

/-- The values of a key that may be anything: of a rollup's, all but the date. -/
def free : Kind → List (Value F) → List (Value F)
  | .transform, key => key
  | .rollup, key => key.tail

/-- The text is one a key of its kind begins with. -/
def Begins : Kind → List Char → Prop
  | .transform, _ => True
  | .rollup, b => ∃ d : Value F, Dated d ∧
      (b = keyText javaDouble d ∨ ∃ rest, b = keyText javaDouble d ++ '#' :: rest)

/-- No document of another group has the id of the group's document. -/
def Unshared (kind : Kind) (id : List Char) (key : List (Value F)) : Prop :=
  ∀ (id' : List Char) (key' : List (Value F)), IsKey kind key' →
    (id' = id → key'.length = key.length) →
    bucketId javaDouble hash kind id' key' = bucketId javaDouble hash kind id key →
      id' = id ∧ key' = key

/-- The parts of an id can be told from each other: behind no `#` but the one behind the job's id
comes what a key could begin with; the values that may be anything are texts, as which nothing else
is printed; and where there are several of them, none holds the separator. -/
structure Readable (kind : Kind) (id : List Char) (key : List (Value F)) : Prop where
  id : ∀ a b, idText javaDouble kind id key = a ++ '#' :: b → a ≠ id →
    ¬ Begins (F := F) javaDouble kind b
  texts : ∀ v ∈ free kind key, ∃ t, v = .text t ∧ ∀ w : Value F, keyText javaDouble w = t → w = v
  separators : (free kind key).length ≤ 1 ∨
    ∀ v ∈ free kind key, kind.separator ∉ keyText javaDouble v

/-! ## Dates -/

variable {javaDouble hash}

theorem notMem_signed {c : Char} (digit : c.isDigit = false) (minus : c ≠ '-') (n : ℤ) :
    c ∉ Digits.signed n := by
  intro h
  cases Digits.mem_signed h with
  | inl h => simp [digit] at h
  | inr h => exact minus h

theorem signed_append_ne_sharp {n : ℤ} {x y : List Char} : Digits.signed n ++ x ≠ '#' :: y := by
  intro h
  cases eq : Digits.signed n with
  | nil => exact Digits.signed_ne_nil n eq
  | cons c t =>
    rw [eq, List.cons_append] at h
    have := notMem_signed (c := '#') rfl (by decide) n
    rw [eq, (List.cons.inj h).1] at this
    simp at this

/-- A date ends where what follows it begins. -/
theorem dated_inj {d e : Value F} (hd : Dated d) (he : Dated e) {x y : List Char} (hx : Tail '#' x)
    (hy : Tail '#' y) (same : keyText javaDouble d ++ x = keyText javaDouble e ++ y) :
    d = e ∧ x = y := by
  have magic : magicNull = '#' :: "ODFE-MAGIC-NULL-MAGIC-ODFE#".toList := rfl
  rcases hd with rfl | ⟨n, rfl, -⟩
  · rcases he with rfl | ⟨m, rfl, -⟩
    · exact ⟨rfl, List.append_cancel_left same⟩
    · simp only [keyText, magic, List.cons_append] at same
      exact absurd same.symm signed_append_ne_sharp
  · rcases he with rfl | ⟨m, rfl, -⟩
    · simp only [keyText, magic, List.cons_append] at same
      exact absurd same signed_append_ne_sharp
    · obtain ⟨shown, rest⟩ :=
        free_append_inj (notMem_signed rfl (by decide) n.1) (notMem_signed rfl (by decide) m.1) hx hy same
      rw [Subtype.ext (Digits.signed_inj shown)]
      exact ⟨rfl, rest⟩

/-! ## Keys -/

/-- A rollup's key begins with its date. -/
theorem keyTexts_cons (javaDouble : F → List Char) (d : Value F) (rest : List (Value F)) :
    ∃ x, Tail '#' x ∧ keyTexts javaDouble .rollup (d :: rest) = keyText javaDouble d ++ x ∧
      x = if rest = [] then [] else '#' :: keyTexts javaDouble .rollup rest := by
  cases rest with
  | nil => exact ⟨[], .inl rfl, by simp [keyTexts], rfl⟩
  | cons v rest =>
    refine ⟨_, .inr ⟨_, rfl⟩, ?_, (if_neg (by simp)).symm⟩
    simp [keyTexts, Kind.separator]

/-- A key begins as one of its kind does. -/
theorem begins_keyTexts {kind : Kind} {key : List (Value F)} (h : IsKey kind key) :
    Begins (F := F) javaDouble kind (keyTexts javaDouble kind key) := by
  cases kind with
  | transform => trivial
  | rollup =>
    obtain ⟨d, rest, rfl, dated⟩ := h
    obtain ⟨x, tail, eq, -⟩ := keyTexts_cons javaDouble d rest
    rw [eq]
    refine ⟨d, dated, ?_⟩
    cases tail with
    | inl h => exact .inl (by rw [h, List.append_nil])
    | inr h =>
      obtain ⟨y, rfl⟩ := h
      exact .inr ⟨y, rfl⟩

/-- And what begins so begins some key. -/
theorem exists_key {kind : Kind} {b : List Char} (h : Begins (F := F) javaDouble kind b) :
    ∃ key : List (Value F), IsKey kind key ∧ keyTexts javaDouble kind key = b := by
  cases kind with
  | transform => exact ⟨[.text b], List.cons_ne_nil _ _, by simp [keyTexts, keyText]⟩
  | rollup =>
    obtain ⟨d, dated, rfl | ⟨rest, rfl⟩⟩ := h
    · exact ⟨[d], ⟨d, [], rfl, dated⟩, by simp [keyTexts]⟩
    · exact ⟨[d, .text rest], ⟨d, _, rfl, dated⟩, by simp [keyTexts, keyText, Kind.separator]⟩

/-- Values that can be told apart are. -/
theorem values_inj {sep : Char} {vs ws : List (Value F)}
    (texts : ∀ v ∈ vs, ∃ t, v = .text t ∧ ∀ w : Value F, keyText javaDouble w = t → w = v)
    (separators : vs.length ≤ 1 ∨ ∀ v ∈ vs, sep ∉ keyText javaDouble v)
    (length : ws.length = vs.length)
    (same : [sep].intercalate (ws.map (keyText javaDouble)) =
      [sep].intercalate (vs.map (keyText javaDouble))) : ws = vs := by
  have maps : ws.map (keyText javaDouble) = vs.map (keyText javaDouble) := by
    cases separators with
    | inr free =>
      apply Joined.joined_inj _ (by simpa using length) same
      intro t ht
      obtain ⟨v, hv, rfl⟩ := List.mem_map.mp ht
      exact free v hv
    | inl few =>
      cases vs with
      | nil =>
        obtain rfl := List.eq_nil_of_length_eq_zero length
        rfl
      | cons v vs =>
        have alone : vs = [] := by
          apply List.eq_nil_of_length_eq_zero
          simpa using few
        subst alone
        obtain ⟨w, rfl⟩ := List.length_eq_one_iff.mp length
        simpa using same
  clear same separators
  induction vs generalizing ws with
  | nil => exact List.eq_nil_of_length_eq_zero length
  | cons v vs ih =>
    cases ws with
    | nil => simp at length
    | cons w ws =>
      rw [List.map_cons, List.map_cons] at maps
      obtain ⟨head, tail⟩ := List.cons.inj maps
      obtain ⟨t, v_eq, only⟩ := texts v List.mem_cons_self
      have w_eq : w = v := by
        apply only
        rw [head, v_eq]
        rfl
      rw [w_eq, ih (fun u hu => texts u (List.mem_cons_of_mem v hu)) (by simpa using length) tail]

/-! ## Which ids are not shared -/

/-- A key that shares its document with no other is told by its values. -/
theorem Unshared.free_eq {kind : Kind} {id : List Char} {key : List (Value F)}
    (unshared : Unshared javaDouble hash kind id key) (isKey : IsKey kind key)
    (vs : List (Value F)) (length : vs.length = (free kind key).length)
    (same : [kind.separator].intercalate (vs.map (keyText javaDouble)) =
      [kind.separator].intercalate ((free kind key).map (keyText javaDouble))) :
    vs = free kind key := by
  cases kind with
  | transform =>
    have ne : vs ≠ [] := by
      apply List.ne_nil_of_length_pos
      rw [length]
      exact List.length_pos_iff.mpr isKey
    have ids : bucketId javaDouble hash .transform id vs = bucketId javaDouble hash .transform id key := by
      unfold bucketId idText keyTexts
      rw [same]
      rfl
    exact (unshared id vs ne (fun _ => length) ids).2
  | rollup =>
    obtain ⟨d, rest, rfl, dated⟩ := isKey
    have ids : bucketId javaDouble hash .rollup id (d :: vs) =
        bucketId javaDouble hash .rollup id (d :: rest) := by
      unfold bucketId idText
      obtain ⟨x, -, eq, x_eq⟩ := keyTexts_cons javaDouble d vs
      obtain ⟨y, -, eq', y_eq⟩ := keyTexts_cons javaDouble d rest
      have nil_iff : vs = [] ↔ rest = [] := by
        rw [← List.length_eq_zero_iff, ← List.length_eq_zero_iff, length]
        rfl
      rw [eq, eq', x_eq, y_eq]
      simp only [nil_iff, keyTexts, same]
      rfl
    have lengths : (d :: vs).length = (d :: rest).length := congrArg (· + 1) length
    have keys := (unshared id (d :: vs) ⟨d, vs, rfl, dated⟩ (fun _ => lengths) ids).2
    exact (List.cons.inj keys).2

/-- An id is shared with no other group just where its parts can be told from each other. -/
theorem unshared_iff_readable (injective : Function.Injective hash) {kind : Kind} {id : List Char}
    {key : List (Value F)} (isKey : IsKey kind key) :
    Unshared javaDouble hash kind id key ↔ Readable javaDouble kind id key := by
  constructor
  · intro unshared
    refine ⟨?_, ?_, ?_⟩
    · intro a b split ne begins
      obtain ⟨key', isKey', text⟩ := exists_key begins
      have ids : bucketId javaDouble hash kind a key' = bucketId javaDouble hash kind id key := by
        unfold bucketId
        rw [split, idText, text]
      exact ne (unshared a key' isKey' (fun h => absurd h ne) ids).1
    · intro v hv
      have only : ∀ w : Value F, keyText javaDouble w = keyText javaDouble v → w = v := by
        intro w text
        obtain ⟨before, after, split⟩ := List.append_of_mem hv
        have others := unshared.free_eq isKey (before ++ w :: after)
          (by rw [split]; simp) (by rw [split]; simp [text])
        rw [split] at others
        simpa using others
      refine ⟨keyText javaDouble v, (only (.text (keyText javaDouble v)) rfl).symm, only⟩
    · by_contra several
      rw [not_or] at several
      obtain ⟨many, separated⟩ := several
      simp only [not_forall, not_not] at separated
      obtain ⟨v, hv, holds⟩ := separated
      have mem : keyText javaDouble v ∈ (free kind key).map (keyText javaDouble) :=
        List.mem_map_of_mem hv
      have two : 2 ≤ ((free kind key).map (keyText javaDouble)).length := by
        rw [List.length_map]
        omega
      obtain ⟨us, length, ne, same⟩ := Joined.exists_other two mem holds
      have shown : (us.map fun t => (Value.text t : Value F)).map (keyText javaDouble) = us := by
        simp [keyText, Function.comp_def]
      have others := unshared.free_eq isKey (us.map .text) (by simpa using length)
        (by rw [shown, same])
      exact ne (by rw [← shown, others])
  · intro readable id' key' isKey' length same
    have texts := injective same
    by_cases other : id' = id
    · subst other
      refine ⟨rfl, ?_⟩
      have length := length rfl
      have joined := (List.cons.inj (List.append_cancel_left texts)).2
      cases kind with
      | transform => exact values_inj readable.texts readable.separators length joined
      | rollup =>
        obtain ⟨d, rest, rfl, dated⟩ := isKey
        obtain ⟨d', rest', rfl, dated'⟩ := isKey'
        obtain ⟨x, x_tail, eq, x_eq⟩ := keyTexts_cons javaDouble d rest
        obtain ⟨y, y_tail, eq', y_eq⟩ := keyTexts_cons javaDouble d' rest'
        rw [eq, eq'] at joined
        obtain ⟨rfl, tails⟩ := dated_inj dated' dated y_tail x_tail joined
        have length : rest'.length = rest.length := by simpa using length
        have same_rest : rest' = rest := by
          by_cases empty : rest = []
          · rw [empty] at length ⊢
            exact List.eq_nil_of_length_eq_zero length
          · have some_ : rest' ≠ [] := by
              rintro rfl
              exact empty (List.eq_nil_of_length_eq_zero length.symm)
            rw [x_eq, y_eq, if_neg empty, if_neg some_] at tails
            exact values_inj readable.texts readable.separators length (List.cons.inj tails).2
        rw [same_rest]
    · exact absurd (begins_keyTexts isKey') (readable.id id' _ texts.symm other)

theorem id_readable_transform {id : List Char} {key : List (Value F)} :
    (∀ a b, idText javaDouble .transform id key = a ++ '#' :: b → a ≠ id →
      ¬ Begins (F := F) javaDouble .transform b) ↔
        '#' ∉ id ∧ '#' ∉ keyTexts javaDouble .transform key := by
  constructor
  · intro alone
    constructor
    · intro mem
      obtain ⟨a, b, split⟩ := List.append_of_mem mem
      refine alone a (b ++ '#' :: keyTexts javaDouble .transform key) ?_ ?_ trivial
      · rw [idText, split]
        simp
      · rw [split]
        intro h
        have := congrArg List.length h
        simp at this
    · intro mem
      obtain ⟨a, b, split⟩ := List.append_of_mem mem
      refine alone (id ++ '#' :: a) b ?_ ?_ trivial
      · rw [idText, split]
        simp
      · intro h
        have := congrArg List.length h
        simp at this
  · rintro ⟨id_free, key_free⟩ a b split ne
    obtain ⟨c, a_eq, rest⟩ | ⟨c, id_eq, rest⟩ := List.append_eq_append_iff.mp split
    · cases c with
      | nil =>
        rw [List.append_nil] at a_eq
        exact absurd a_eq ne
      | cons x c =>
        rw [List.cons_append] at rest
        rw [(List.cons.inj rest).2] at key_free
        simp at key_free
    · cases c with
      | nil =>
        rw [List.append_nil] at id_eq
        exact absurd id_eq.symm ne
      | cons x c =>
        rw [List.cons_append] at rest
        rw [id_eq, ← (List.cons.inj rest).1] at id_free
        simp at id_free

/-- A group of one text has an id of its own. -/
theorem unshared_iff_readable_letter :
    Unshared (fun _ : Unit => "0.5".toList) (fun t => t) .transform "t".toList
      [.text "a".toList] := by
  have isKey : IsKey .transform [(.text "a".toList : Value Unit)] := List.cons_ne_nil _ _
  apply (unshared_iff_readable (fun _ _ h => h) isKey).mpr
  refine ⟨?_, ?_, .inl (by simp [free])⟩
  · apply id_readable_transform.mpr
    decide
  · intro v hv
    obtain rfl : v = .text "a".toList := by simpa [free] using hv
    refine ⟨"a".toList, rfl, ?_⟩
    intro w printed
    cases w with
    | missing => exact absurd printed (by decide)
    | text t =>
      rw [← printed]
      rfl
    | whole n =>
      have : 'a' ∈ Digits.signed n.1 := by
        rw [show Digits.signed n.1 = "a".toList from printed]
        decide
      exact absurd this (notMem_signed rfl (by decide) n.1)
    | double _ => exact absurd printed (by simp [keyText])
    | bool b => cases b <;> exact absurd printed (by decide)

end

/-! ## Groups that share an id -/

/-- Two groups of one transform, whose texts hold the separator. -/
theorem separator_in_a_text :
    bucketId (fun _ : Unit => []) (fun t => t) .transform "t".toList
        [.text "a:b".toList, .text "c".toList] =
      bucketId (fun _ : Unit => []) (fun t => t) .transform "t".toList
        [.text "a".toList, .text "b:c".toList] ∧
    ([.text "a:b".toList, .text "c".toList] : List (Value Unit)) ≠
      [.text "a".toList, .text "b:c".toList] := by
  constructor
  · decide
  · simp

end Velosearch.BucketDoc
