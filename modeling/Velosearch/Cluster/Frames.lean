import Velosearch.Lib.Text
import Mathlib.Tactic.Ring

/-!
# Frames on the wire

`Envelope::encode` and `Envelope::decode` of `src/cluster/transport.rs`. The lengths are written
by narrowing casts and read back with an offset kept by hand; an index or a slice that is out of
range would be a panic, and is `none` here.
-/

set_option autoImplicit false

namespace Velosearch.Cluster.Transport

/-! ## Bytes of a number -/

/-- `to_be_bytes` of the low bytes of a number, that many of them. -/
def toBeBytes : ℕ → ℕ → List UInt8
  | 0, _ => []
  | width + 1, n => toBeBytes width (n / 256) ++ [UInt8.ofNat n]

/-- A number from its bytes, the highest first. -/
def fromBeBytes (bytes : List UInt8) : ℕ :=
  bytes.foldl (fun n b => 256 * n + b.toNat) 0

@[simp] theorem length_toBeBytes (width n : ℕ) : (toBeBytes width n).length = width := by
  induction width generalizing n with
  | zero => rfl
  | succ width ih => rw [toBeBytes, List.length_append, ih, List.length_singleton]

theorem fromBeBytes_snoc (bytes : List UInt8) (b : UInt8) :
    fromBeBytes (bytes ++ [b]) = 256 * fromBeBytes bytes + b.toNat :=
  List.foldl_append

theorem fromBeBytes_toBeBytes {width n : ℕ} (fits : n < 256 ^ width) :
    fromBeBytes (toBeBytes width n) = n := by
  induction width generalizing n with
  | zero => exact (Nat.lt_one_iff.mp fits).symm
  | succ width ih =>
    rw [Nat.pow_succ] at fits
    rw [toBeBytes, fromBeBytes_snoc, ih (Nat.div_lt_of_lt_mul (by rwa [Nat.mul_comm])),
      UInt8.toNat_ofNat']
    exact Nat.div_add_mod n 256

theorem toBeBytes_fromBeBytes (bytes : List UInt8) :
    toBeBytes bytes.length (fromBeBytes bytes) = bytes := by
  induction bytes using List.reverseRecOn with
  | nil => rfl
  | append_singleton bytes b ih =>
    have small := b.toNat_lt
    have high : (256 * fromBeBytes bytes + b.toNat) / 256 = fromBeBytes bytes := by omega
    have low : UInt8.ofNat (256 * fromBeBytes bytes + b.toNat) = b := by
      refine UInt8.toNat_inj.mp ?_
      rw [UInt8.toNat_ofNat']
      omega
    rw [List.length_append, List.length_singleton, toBeBytes, fromBeBytes_snoc, high, low, ih]

theorem fromBeBytes_lt (bytes : List UInt8) : fromBeBytes bytes < 256 ^ bytes.length := by
  induction bytes using List.reverseRecOn with
  | nil => exact Nat.one_pos
  | append_singleton bytes b ih =>
    have small := b.toNat_lt
    rw [fromBeBytes_snoc, List.length_append, List.length_singleton, Nat.pow_succ]
    omega

/-! ## Envelopes -/

/-- What a frame carries. -/
inductive Kind where
  | request
  | response
  | error
  deriving DecidableEq

/-- A message as it is framed. -/
structure Envelope where
  kind : Kind
  requestId : UInt64
  action : List Char
  from_ : List Char
  body : List UInt8
  deriving DecidableEq

/-- Why a payload is no message. -/
inductive FrameError where
  | short
  | version (v : UInt8)
  | kind (k : UInt8)
  | text
  | tooLong (n : ℕ)
  deriving DecidableEq

/-- The version every payload begins with. -/
def FRAME_VERSION : UInt8 := 1

/-- The longest frame that is taken. -/
def MAX_FRAME : ℕ := 512 * 1024 * 1024

/-- The byte of a kind. -/
def Kind.byte : Kind → UInt8
  | .request => 0
  | .response => 1
  | .error => 2

/-- The kind of a byte. -/
def Kind.ofByte (b : UInt8) : Option Kind :=
  if b = 0 then some .request
  else if b = 1 then some .response
  else if b = 2 then some .error
  else none

namespace Envelope

/-- The frame of a message: its length, then its payload. -/
def encode (e : Envelope) : List UInt8 :=
  let action := Text.encode e.action
  let from_ := Text.encode e.from_
  let len := 1 + 1 + 8 + 2 + action.length + 1 + from_.length + e.body.length
  toBeBytes 4 len ++ ([FRAME_VERSION, e.kind.byte] ++ toBeBytes 8 e.requestId.toNat ++
    toBeBytes 2 action.length ++ action ++ [UInt8.ofNat from_.length] ++ from_ ++ e.body)

/-- `payload[i..j]`, and `payload.get(i..j)` -/
def slice (payload : List UInt8) (i j : ℕ) : Option (List UInt8) :=
  if i ≤ j ∧ j ≤ payload.length then some ((payload.drop i).take (j - i)) else none

/-- A payload read back. -/
def decode (payload : List UInt8) : Option (Except FrameError Envelope) := do
  if payload.length < 12 then return .error .short
  let version ← payload[0]?
  if version ≠ FRAME_VERSION then return .error (.version version)
  let other ← payload[1]?
  match Kind.ofByte other with
  | none => return .error (.kind other)
  | some kind =>
    let requestId ← slice payload 2 10
    let actionLen := fromBeBytes [← payload[10]?, ← payload[11]?]
    match slice payload 12 (12 + actionLen) with
    | none => return .error .short
    | some action =>
      match Text.readToString action with
      | none => return .error .text
      | some action =>
        match payload[12 + actionLen]? with
        | none => return .error .short
        | some fromLen =>
          let i := 12 + actionLen + 1
          match slice payload i (i + fromLen.toNat) with
          | none => return .error .short
          | some sender =>
            match Text.readToString sender with
            | none => return .error .text
            | some from_ =>
              let body ← slice payload (i + fromLen.toNat) payload.length
              return .ok { kind, requestId := UInt64.ofNat (fromBeBytes requestId), action, from_, body }

/-- The bytes of a message: version, kind, number, and the two texts behind their lengths. -/
def payload (e : Envelope) : List UInt8 :=
  [FRAME_VERSION, e.kind.byte] ++ toBeBytes 8 e.requestId.toNat ++
    toBeBytes 2 (Text.encode e.action).length ++ Text.encode e.action ++
      [UInt8.ofNat (Text.encode e.from_).length] ++ Text.encode e.from_ ++ e.body

/-- The lengths are what the casts leave of them. -/
def Fits (e : Envelope) : Prop :=
  (Text.encode e.action).length ≤ 65535 ∧ (Text.encode e.from_).length ≤ 255

/-! ## Offsets -/

theorem get_of_drop {bytes rest : List UInt8} {i : ℕ} {b : UInt8} (h : bytes.drop i = b :: rest) :
    bytes[i]? = some b ∧ bytes.drop (i + 1) = rest := by
  constructor
  · rw [← List.head?_drop, h]
    rfl
  · rw [← List.drop_drop, h]
    rfl

theorem drop_of_get {bytes : List UInt8} {i : ℕ} {b : UInt8} (h : bytes[i]? = some b) :
    bytes.drop i = b :: bytes.drop (i + 1) := by
  obtain ⟨inside, rfl⟩ := List.getElem?_eq_some_iff.mp h
  exact List.drop_eq_getElem_cons inside

theorem slice_of_drop {bytes rest part : List UInt8} {i : ℕ} (h : bytes.drop i = part ++ rest)
    (inside : i ≤ bytes.length) :
    slice bytes i (i + part.length) = some part ∧ bytes.drop (i + part.length) = rest := by
  have length := congrArg List.length h
  rw [List.length_drop, List.length_append] at length
  constructor
  · rw [slice, if_pos ⟨Nat.le_add_right _ _, by omega⟩, Nat.add_sub_cancel_left, h,
      List.take_left]
  · rw [← List.drop_drop, h, List.drop_left]

theorem drop_of_slice {bytes part : List UInt8} {i j : ℕ} (h : slice bytes i j = some part) :
    bytes.drop i = part ++ bytes.drop j ∧ part.length = j - i ∧ j ≤ bytes.length := by
  unfold slice at h
  split at h
  case isTrue inside =>
    cases h
    refine ⟨?_, by rw [List.length_take, List.length_drop]; omega, inside.2⟩
    have whole := List.take_append_drop (j - i) (bytes.drop i)
    rw [List.drop_drop, Nat.add_sub_cancel' inside.1] at whole
    exact whole.symm
  · cases h

/-! ## Reading back -/

theorem Kind.ofByte_byte (kind : Kind) : Kind.ofByte kind.byte = some kind := by
  cases kind <;> rfl

theorem Kind.byte_of_ofByte {b : UInt8} {kind : Kind} (h : Kind.ofByte b = some kind) :
    kind.byte = b := by
  unfold Kind.ofByte at h
  split at h
  case isTrue eq => cases h; exact eq.symm
  · split at h
    case isTrue eq => cases h; exact eq.symm
    · split at h
      case isTrue eq => cases h; exact eq.symm
      · cases h

theorem encode_eq (e : Envelope) : e.encode = toBeBytes 4 e.payload.length ++ e.payload := by
  unfold encode payload
  dsimp only
  congr 2
  simp only [List.length_append, List.length_cons, List.length_nil, length_toBeBytes]

theorem decode_payload {e : Envelope} (fits : e.Fits) : decode e.payload = some (.ok e) := by
  obtain ⟨kind, requestId, action, from_, body⟩ := e
  generalize whole : payload _ = bytes
  -- where each part begins
  have d0 : bytes.drop 0 = FRAME_VERSION :: kind.byte :: (toBeBytes 8 requestId.toNat ++
      (UInt8.ofNat ((Text.encode action).length / 256) :: UInt8.ofNat (Text.encode action).length ::
        (Text.encode action ++ (UInt8.ofNat (Text.encode from_).length ::
          (Text.encode from_ ++ body))))) := by
    rw [List.drop_zero, ← whole]
    simp only [payload, toBeBytes, List.append_assoc, List.cons_append, List.nil_append]
  have long : 12 ≤ bytes.length := by
    rw [← whole]
    simp only [payload, List.length_append, List.length_cons, List.length_nil, length_toBeBytes]
    omega
  obtain ⟨g0, d1⟩ := get_of_drop d0
  obtain ⟨g1, d2⟩ := get_of_drop d1
  obtain ⟨s2, d10⟩ := slice_of_drop d2 (by omega)
  rw [length_toBeBytes] at s2 d10
  obtain ⟨g10, d11⟩ := get_of_drop d10
  obtain ⟨g11, d12⟩ := get_of_drop d11
  obtain ⟨s12, dFrom⟩ := slice_of_drop d12 long
  obtain ⟨gFrom, dText⟩ := get_of_drop dFrom
  obtain ⟨inside, -⟩ := List.getElem?_eq_some_iff.mp gFrom
  obtain ⟨sFrom, dBody⟩ := slice_of_drop dText inside
  have length := (drop_of_slice sFrom).2.2
  rw [← List.append_nil body] at dBody
  obtain ⟨sBody, -⟩ := slice_of_drop dBody length
  -- what is read of each
  have actionLen : fromBeBytes [UInt8.ofNat ((Text.encode action).length / 256),
      UInt8.ofNat (Text.encode action).length] = (Text.encode action).length := by
    have small : (Text.encode action).length < 256 ^ 2 := Nat.lt_succ_of_le fits.1
    exact fromBeBytes_toBeBytes small
  have fromLen : (UInt8.ofNat (Text.encode from_).length).toNat = (Text.encode from_).length := by
    rw [UInt8.toNat_ofNat']
    exact Nat.mod_eq_of_lt (Nat.lt_succ_of_le fits.2)
  have id : UInt64.ofNat (fromBeBytes (toBeBytes 8 requestId.toNat)) = requestId := by
    rw [fromBeBytes_toBeBytes requestId.toNat_lt, UInt64.ofNat_toNat]
  have total : 12 + (Text.encode action).length + 1 + (Text.encode from_).length + body.length =
      bytes.length := by
    rw [← whole]
    simp only [payload, List.length_append, List.length_cons, List.length_nil, length_toBeBytes]
  rw [total] at sBody
  have text : ∀ t : List Char, Text.readToString (Text.encode t) = some t := fun t =>
    Text.readToString_eq_some_iff.mpr rfl
  unfold decode
  rw [if_neg (Nat.not_lt.mpr long)]
  simp only [g0, g1, s2, g10, g11, actionLen, s12, gFrom, fromLen, sFrom, sBody, id, text,
    Kind.ofByte_byte, Option.bind_eq_bind, Option.bind_some, ne_eq, not_true_eq_false, if_false]
  rfl

/-- **A payload that is read** is that of what was read. -/
theorem payload_of_decode {bytes : List UInt8} {e : Envelope}
    (h : decode bytes = some (.ok e)) : e.Fits ∧ e.payload = bytes := by
  unfold decode at h
  split at h
  · cases h
  simp only [Option.bind_eq_bind, Option.bind_eq_some_iff] at h
  obtain ⟨version, g0, h⟩ := h
  split at h
  · cases h
  case isFalse same =>
  obtain rfl := not_not.mp same
  obtain ⟨other, g1, h⟩ := Option.bind_eq_some_iff.mp h
  split at h
  · cases h
  case h_2 kind isKind =>
  simp only [Option.bind_eq_some_iff] at h
  obtain ⟨requestId, s2, a, g10, b, g11, h⟩ := h
  split at h
  · cases h
  case h_2 actionBytes s12 =>
  split at h
  · cases h
  case h_2 action isAction =>
  split at h
  · cases h
  case h_2 fromLen gFrom =>
  split at h
  · cases h
  case h_2 sender sFrom =>
  split at h
  · cases h
  case h_2 from_ isFrom =>
  obtain ⟨body, sBody, h⟩ := Option.bind_eq_some_iff.mp h
  cases h
  obtain ⟨d2, idLen, -⟩ := drop_of_slice s2
  obtain ⟨d12, actionLen, -⟩ := drop_of_slice s12
  obtain ⟨dText, senderLen, -⟩ := drop_of_slice sFrom
  obtain ⟨dBody, -, -⟩ := drop_of_slice sBody
  obtain rfl := Text.readToString_eq_some_iff.mp isAction
  obtain rfl := Text.readToString_eq_some_iff.mp isFrom
  rw [Nat.add_sub_cancel_left] at actionLen senderLen
  have small : fromBeBytes [a, b] < 256 ^ 2 := by
    have two : [a, b].length = 2 := rfl
    exact two ▸ fromBeBytes_lt [a, b]
  have byte := fromLen.toNat_lt
  refine ⟨⟨?_, ?_⟩, ?_⟩
  · show (Text.encode action).length ≤ _
    rw [actionLen]
    omega
  · show (Text.encode from_).length ≤ _
    rw [senderLen]
    omega
  · have ids : toBeBytes 8 (UInt64.ofNat (fromBeBytes requestId)).toNat = requestId := by
      have eight : requestId.length = 8 := idLen
      have fits : fromBeBytes requestId < 2 ^ 64 := by
        have fits := fromBeBytes_lt requestId
        rwa [eight] at fits
      rw [UInt64.toNat_ofNat', Nat.mod_eq_of_lt fits, ← eight]
      exact toBeBytes_fromBeBytes requestId
    have lengths : toBeBytes 2 (Text.encode action).length = [a, b] := by
      rw [actionLen]
      exact toBeBytes_fromBeBytes [a, b]
    have last : UInt8.ofNat (Text.encode from_).length = fromLen := by
      rw [senderLen, UInt8.ofNat_toNat]
    calc payload _ = FRAME_VERSION :: other :: (requestId ++ (a :: b :: (Text.encode action ++
          (fromLen :: (Text.encode from_ ++ (body ++ bytes.drop bytes.length)))))) := by
          simp only [payload, ids, lengths, last, Kind.byte_of_ofByte isKind, List.append_assoc,
            List.cons_append, List.nil_append, List.drop_length, List.append_nil]
      _ = bytes.drop 0 := by
          rw [← dBody, ← dText, ← drop_of_get gFrom, ← d12, ← drop_of_get g11, ← drop_of_get g10,
            ← d2, ← drop_of_get g1, ← drop_of_get g0]
      _ = bytes := rfl

theorem decode_answers (bytes : List UInt8) : ∃ answer, decode bytes = some answer := by
  unfold decode
  split
  · exact ⟨_, rfl⟩
  case isFalse long =>
  have get : ∀ i < 12, ∃ b, bytes[i]? = some b := fun i small =>
    ⟨_, List.getElem?_eq_getElem (by omega)⟩
  obtain ⟨version, g0⟩ := get 0 (by omega)
  obtain ⟨other, g1⟩ := get 1 (by omega)
  obtain ⟨a, g10⟩ := get 10 (by omega)
  obtain ⟨b, g11⟩ := get 11 (by omega)
  have s2 : slice bytes 2 10 = some ((bytes.drop 2).take 8) := if_pos ⟨by omega, by omega⟩
  simp only [g0, g1, g10, g11, s2, Option.bind_eq_bind, Option.bind_some]
  split
  · exact ⟨_, rfl⟩
  split
  · exact ⟨_, rfl⟩
  split
  · exact ⟨_, rfl⟩
  split
  · exact ⟨_, rfl⟩
  split
  · exact ⟨_, rfl⟩
  split
  · exact ⟨_, rfl⟩
  case h_2 sender sFrom =>
  split
  · exact ⟨_, rfl⟩
  · rw [slice, if_pos ⟨(drop_of_slice sFrom).2.2, Nat.le_refl _⟩]
    exact ⟨_, rfl⟩

/-- **Frames read back**, whatever comes in is answered, and no two payloads stand for one
message. -/
theorem frames_round_trip :
    (∀ e : Envelope, (Text.encode e.action).length ≤ 65535 → (Text.encode e.from_).length ≤ 255 →
      (e.encode.drop 4).length ≤ MAX_FRAME →
        fromBeBytes (e.encode.take 4) = (e.encode.drop 4).length ∧
          decode (e.encode.drop 4) = some (.ok e)) ∧
      (∀ bytes, ∃ answer, decode bytes = some answer) ∧
      (∀ bytes e, bytes.length < 2 ^ 32 → decode bytes = some (.ok e) →
        e.encode = toBeBytes 4 bytes.length ++ bytes) ∧
      ∀ bytes bytes' e, decode bytes = some (.ok e) → decode bytes' = some (.ok e) →
        bytes = bytes' := by
  refine ⟨?_, decode_answers, ?_, ?_⟩
  · intro e action sender fits
    have prefix_ : e.encode.take 4 = toBeBytes 4 e.payload.length := by
      rw [encode_eq]
      exact List.take_left' (length_toBeBytes 4 _)
    have rest : e.encode.drop 4 = e.payload := by
      rw [encode_eq]
      exact List.drop_left' (length_toBeBytes 4 _)
    rw [rest] at fits ⊢
    rw [prefix_]
    exact ⟨fromBeBytes_toBeBytes (fits.trans_lt (by decide)), decode_payload ⟨action, sender⟩⟩
  · intro bytes e _ h
    rw [encode_eq, (payload_of_decode h).2]
  · intro bytes bytes' e h h'
    rw [← (payload_of_decode h).2, (payload_of_decode h').2]


end Envelope

end Velosearch.Cluster.Transport
