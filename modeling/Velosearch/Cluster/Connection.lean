import Velosearch.Cluster.Frames

/-!
# A connection

The reader of `serve_connection` in `src/cluster/tcp.rs`, after the two nodes shook hands, with
`read_frame_within`: the bytes that arrive are taken as one frame after another until one cannot be
read. A stream is what arrives before the connection ends, and it may end anywhere.

What the peer's writer sends is one `encode` after another. The hand-shake and the queue in front
of the writer are left out.
-/

set_option autoImplicit false

namespace Velosearch.Cluster.Transport

/-- Why a frame is not read. -/
inductive ReadError where
  | ended
  | frame (why : FrameError)
  | panicked

/-- `read_exact`: so many bytes, and what comes after them. -/
def readExact (n : ℕ) (stream : List UInt8) : Except ReadError (List UInt8 × List UInt8) :=
  if n ≤ stream.length then .ok (stream.take n, stream.drop n) else .error .ended

/-- How much is read at a time. -/
def CHUNK : ℕ := 64 * 1024

/-- The loop of `read_frame_within`, with so many bytes of the payload to come. -/
def readPayload (payload stream : List UInt8) (left : ℕ) :
    Except ReadError (List UInt8 × List UInt8) :=
  if left = 0 then .ok (payload, stream)
  else do
    let want := min CHUNK left
    let (chunk, stream) ← readExact want stream
    readPayload (payload ++ chunk) stream (left - want)
termination_by left
decreasing_by
  have some_ : 0 < CHUNK := by decide
  omega

/-- What `decode` makes of the payload. -/
def readEnvelope (payload : List UInt8) : Except ReadError Envelope :=
  match Envelope.decode payload with
  | none => .error .panicked
  | some (.error why) => .error (.frame why)
  | some (.ok e) => .ok e

/-- A frame that is no longer than the most that is taken. -/
def readFrameWithin (most : ℕ) (stream : List UInt8) : Except ReadError (Envelope × List UInt8) := do
  let (len, stream) ← readExact 4 stream
  if most < fromBeBytes len then throw (.frame (.tooLong (fromBeBytes len)))
  let (payload, stream) ← readPayload [] stream (fromBeBytes len)
  let e ← readEnvelope payload
  return (e, stream)

theorem readExact_append (front rest : List UInt8) :
    readExact front.length (front ++ rest) = .ok (front, rest) := by
  rw [readExact, if_pos (by rw [List.length_append]; omega), List.take_left, List.drop_left]

theorem readPayload_eq (payload stream : List UInt8) (left : ℕ) :
    readPayload payload stream left =
      (readExact left stream).map fun parts => (payload ++ parts.1, parts.2) := by
  induction payload, stream, left using readPayload.induct with
  | case1 payload stream =>
    rw [readPayload, if_pos rfl, readExact, if_pos (Nat.zero_le _)]
    simp [Except.map]
  | case2 payload stream left some_ want ih =>
    rw [readPayload, if_neg some_]
    have le : want ≤ left := Nat.min_le_right _ _
    show (readExact want stream >>= fun parts =>
      readPayload (payload ++ parts.1) parts.2 (left - want)) = _
    unfold readExact
    by_cases enough : want ≤ stream.length
    · rw [if_pos enough]
      show readPayload (payload ++ stream.take want) (stream.drop want) (left - want) = _
      rw [ih, readExact, List.length_drop]
      by_cases full : left ≤ stream.length
      · rw [if_pos full, if_pos (by omega)]
        simp only [Except.map, List.append_assoc, List.drop_drop]
        rw [Nat.add_sub_cancel' le, ← List.take_add, Nat.add_sub_cancel' le]
      · rw [if_neg full, if_neg (by omega)]
        rfl
    · rw [if_neg enough, if_neg (by omega)]
      rfl

theorem readExact_eq_ok {n : ℕ} {stream front rest : List UInt8} :
    readExact n stream = .ok (front, rest) ↔ stream = front ++ rest ∧ front.length = n := by
  constructor
  · intro h
    unfold readExact at h
    split at h
    case isTrue enough =>
      cases h
      exact ⟨(List.take_append_drop n stream).symm, List.length_take_of_le enough⟩
    · cases h
  · rintro ⟨rfl, rfl⟩
    exact readExact_append front rest

/-- One frame read, in a word. -/
theorem readFrameWithin_eq_ok {most : ℕ} {stream rest : List UInt8} {e : Envelope} :
    readFrameWithin most stream = .ok (e, rest) ↔
      ∃ head payload, stream = head ++ payload ++ rest ∧ head.length = 4 ∧
        payload.length = fromBeBytes head ∧ payload.length ≤ most ∧
          Envelope.decode payload = some (.ok e) := by
  unfold readFrameWithin
  simp only [readPayload_eq, bind, Except.bind, pure, Except.pure, throw, throwThe,
    MonadExceptOf.throw]
  constructor
  · intro h
    split at h
    · cases h
    case h_2 parts isHead =>
    obtain ⟨rfl, four⟩ := readExact_eq_ok.mp isHead
    split at h
    · cases h
    case isFalse small =>
    cases isPayload : readExact (fromBeBytes parts.1) parts.2 with
    | error why =>
      rw [isPayload] at h
      cases h
    | ok parts' =>
      obtain ⟨whole, length⟩ := readExact_eq_ok.mp isPayload
      rw [isPayload] at h
      simp only [Except.map, List.nil_append] at h
      unfold readEnvelope at h
      split at h
      · cases h
      case h_2 e' isRead =>
      split at isRead
      · cases isRead
      · cases isRead
      case h_3 decoded =>
      cases isRead
      cases h
      exact ⟨parts.1, parts'.1, by rw [whole, List.append_assoc], four, length, by omega, decoded⟩
  · rintro ⟨head, payload, rfl, four, length, small, decoded⟩
    rw [List.append_assoc, ← four, readExact_append]
    dsimp only
    rw [if_neg (by omega), ← length, readExact_append]
    simp only [Except.map, List.nil_append, readEnvelope, decoded]

/-! ## The reader -/

/-- The reader of `serve_connection`: what the handler is given of a stream. Whether the peer is
cut, and whether there is a handler, is asked at each frame. -/
def serveConnection (sender : List Char) (isCut handler : ℕ → Bool) (n : ℕ)
    (stream : List UInt8) : List Envelope :=
  match isFrame : readFrameWithin MAX_FRAME stream with
  | .error _ => []
  | .ok (env, rest) =>
    let env := if env.from_ ≠ sender then { env with from_ := sender } else env
    if isCut n then serveConnection sender isCut handler (n + 1) rest
    else if handler n then env :: serveConnection sender isCut handler (n + 1) rest
    else serveConnection sender isCut handler (n + 1) rest
termination_by stream.length
decreasing_by
  all_goals
    obtain ⟨head, payload, rfl, four, -⟩ := readFrameWithin_eq_ok.mp isFrame
    simp only [List.length_append]
    omega

/-- What a peer's writer can send as it was meant. -/
def Envelope.Sendable (e : Envelope) : Prop :=
  e.Fits ∧ e.payload.length ≤ MAX_FRAME

/-- Of the frames that arrive from the `n`-th on, those the handler is given, under the name of
the node that shook hands. -/
def delivered (sender : List Char) (isCut handler : ℕ → Bool) : ℕ → List Envelope → List Envelope
  | _, [] => []
  | n, e :: es =>
    if !isCut n && handler n then
      { e with from_ := sender } :: delivered sender isCut handler (n + 1) es
    else delivered sender isCut handler (n + 1) es

section

variable {sender : List Char} {isCut handler : ℕ → Bool}

theorem serveConnection_ok {n : ℕ} {stream rest : List UInt8} {e : Envelope}
    (isFrame : readFrameWithin MAX_FRAME stream = .ok (e, rest)) :
    serveConnection sender isCut handler n stream =
      if !isCut n && handler n then
        { e with from_ := sender } :: serveConnection sender isCut handler (n + 1) rest
      else serveConnection sender isCut handler (n + 1) rest := by
  have renamed : (if e.from_ ≠ sender then { e with from_ := sender } else e) =
      { e with from_ := sender } := by
    split
    · rfl
    case isFalse same =>
      obtain rfl := not_not.mp same
      rfl
  rw [serveConnection]
  split
  case h_1 isError => cases isFrame.symm.trans isError
  case h_2 env' rest' isOk =>
    cases isFrame.symm.trans isOk
    dsimp only
    rw [renamed]
    cases isCut n <;> cases handler n <;> rfl

theorem serveConnection_error {n : ℕ} {stream : List UInt8} {why : ReadError}
    (isError : readFrameWithin MAX_FRAME stream = .error why) :
    serveConnection sender isCut handler n stream = [] := by
  rw [serveConnection]
  split
  · rfl
  case h_2 isOk => cases isError.symm.trans isOk

theorem readFrameWithin_encode {e : Envelope} (sendable : e.Sendable) (rest : List UInt8) :
    readFrameWithin MAX_FRAME (e.encode ++ rest) = .ok (e, rest) := by
  have length : fromBeBytes (toBeBytes 4 e.payload.length) = e.payload.length :=
    fromBeBytes_toBeBytes (sendable.2.trans_lt (by decide))
  exact readFrameWithin_eq_ok.mpr ⟨_, _, by rw [Envelope.encode_eq], length_toBeBytes _ _,
    length.symm, sendable.2, Envelope.decode_payload sendable.1⟩

/-- A frame that has not arrived whole is not read. -/
theorem readFrameWithin_short {e : Envelope} (sendable : e.Sendable) {stream : List UInt8}
    (begun : stream <+: e.encode) (short : stream.length < e.encode.length) :
    ∃ why, readFrameWithin MAX_FRAME stream = .error why := by
  cases isFrame : readFrameWithin MAX_FRAME stream with
  | error why => exact ⟨why, rfl⟩
  | ok parts =>
    obtain ⟨head, payload, rfl, four, length, -⟩ := readFrameWithin_eq_ok.mp isFrame
    obtain ⟨more, whole⟩ := begun
    rw [Envelope.encode_eq] at whole short
    have same : head = toBeBytes 4 e.payload.length := by
      rw [List.append_assoc, List.append_assoc] at whole
      exact (List.append_inj whole (four.trans (length_toBeBytes _ _).symm)).1
    rw [same, fromBeBytes_toBeBytes (sendable.2.trans_lt (by decide))] at length
    simp only [List.length_append, length_toBeBytes] at short
    omega

theorem serveConnection_encode (es : List Envelope) (n : ℕ) (rest : List UInt8)
    (sendable : ∀ e ∈ es, e.Sendable) :
    serveConnection sender isCut handler n (es.flatMap Envelope.encode ++ rest) =
      delivered sender isCut handler n es ++
        serveConnection sender isCut handler (n + es.length) rest := by
  induction es generalizing n with
  | nil => rfl
  | cons e es ih =>
    have next := ih (n + 1) fun e' mem => sendable e' (List.mem_cons_of_mem _ mem)
    rw [Nat.add_right_comm, Nat.add_assoc] at next
    rw [List.flatMap_cons, List.append_assoc,
      serveConnection_ok (readFrameWithin_encode (sendable e List.mem_cons_self) _), next,
      delivered, List.length_cons]
    split <;> rfl

/-- Whatever bytes arrive, what is read of them was frames in a row. -/
theorem serveConnection_eq_delivered (n : ℕ) (stream : List UInt8) :
    ∃ es, (∀ e ∈ es, e.Sendable) ∧ es.flatMap Envelope.encode <+: stream ∧
      serveConnection sender isCut handler n stream = delivered sender isCut handler n es := by
  induction h : stream.length using Nat.strongRecOn generalizing n stream with
  | ind length ih =>
  cases isFrame : readFrameWithin MAX_FRAME stream with
  | error why => exact ⟨[], by simp, List.nil_prefix, serveConnection_error isFrame⟩
  | ok parts =>
    obtain ⟨e, rest⟩ := parts
    obtain ⟨head, payload, rfl, four, size, small, decoded⟩ := readFrameWithin_eq_ok.mp isFrame
    obtain ⟨fits, rfl⟩ := Envelope.payload_of_decode decoded
    have encoded : e.encode = head ++ e.payload := by
      rw [Envelope.encode_eq, size, ← four, toBeBytes_fromBeBytes]
    obtain ⟨es, sendable, arrived, same⟩ :=
      ih rest.length (by simp only [List.length_append] at h; omega) (n + 1) rest rfl
    refine ⟨e :: es, ?_, ?_, ?_⟩
    · intro e' mem
      rcases List.mem_cons.mp mem with rfl | mem
      · exact ⟨fits, small⟩
      · exact sendable e' mem
    · rw [List.flatMap_cons, encoded]
      exact List.prefix_append_right_inj _ |>.mpr arrived
    · rw [serveConnection_ok isFrame, delivered, same]

theorem from_of_delivered {n : ℕ} {es : List Envelope} {e : Envelope}
    (mem : e ∈ delivered sender isCut handler n es) : e.from_ = sender := by
  induction es generalizing n with
  | nil => cases mem
  | cons e' es ih =>
    rw [delivered] at mem
    split at mem
    · rcases List.mem_cons.mp mem with rfl | mem
      · rfl
      · exact ih mem
    · exact ih mem

end

/-- How much of a row of frames has arrived whole after so many bytes. -/
theorem take_flatMap_encode (es : List Envelope) (k : ℕ) :
    ∃ w, ∃ begun, (es.flatMap Envelope.encode).take k =
        (es.take w).flatMap Envelope.encode ++ begun ∧
      ((es.take w).flatMap Envelope.encode).length ≤ k ∧
      (w = es.length ∧ begun = [] ∨
        ∃ e, es[w]? = some e ∧ begun <+: e.encode ∧ begun.length < e.encode.length) := by
  induction es generalizing k with
  | nil => exact ⟨0, [], by simp, Nat.zero_le _, .inl ⟨rfl, rfl⟩⟩
  | cons e es ih =>
    rw [List.flatMap_cons]
    rcases Nat.lt_or_ge k e.encode.length with short | whole
    · refine ⟨0, e.encode.take k, ?_, Nat.zero_le _, .inr ⟨e, rfl, List.take_prefix _ _, ?_⟩⟩
      · rw [List.take_append_of_le_length (Nat.le_of_lt short)]
        rfl
      · rw [List.length_take]
        omega
    · obtain ⟨w, begun, same, fits, last⟩ := ih (k - e.encode.length)
      refine ⟨w + 1, begun, ?_, ?_, ?_⟩
      · rw [List.take_append, List.take_of_length_le whole, same, List.take_succ_cons,
          List.flatMap_cons, List.append_assoc]
      · rw [List.take_succ_cons, List.flatMap_cons, List.length_append]
        omega
      · rcases last with ⟨rfl, rfl⟩ | last
        · exact .inl ⟨rfl, rfl⟩
        · exact .inr last

/-- **A connection delivers what was sent, in the order it was sent**, wherever it breaks: of the
frames the peer wrote, the handler is given those that arrived whole, each under the name of the
node that shook hands, but for those that came while the peer was cut or nothing handled them. And
whatever bytes arrive, the handler is given nothing that was not a frame of them, nor anything in
another node's name. -/
theorem connection_delivers (sender : List Char) (isCut handler : ℕ → Bool) :
    (∀ es : List Envelope, (∀ e ∈ es, e.Sendable) → ∀ k, ∃ w ≤ es.length,
      ((es.take w).flatMap Envelope.encode).length ≤ k ∧
      (∀ e, es[w]? = some e → k < ((es.take w).flatMap Envelope.encode ++ e.encode).length) ∧
      serveConnection sender isCut handler 0 ((es.flatMap Envelope.encode).take k) =
        delivered sender isCut handler 0 (es.take w)) ∧
      ∀ stream, ∃ es, (∀ e ∈ es, e.Sendable) ∧ es.flatMap Envelope.encode <+: stream ∧
        serveConnection sender isCut handler 0 stream = delivered sender isCut handler 0 es ∧
        ∀ e ∈ serveConnection sender isCut handler 0 stream, e.from_ = sender := by
  constructor
  · intro es sendable k
    obtain ⟨w, begun, same, fits, last⟩ := take_flatMap_encode es k
    have sendable' : ∀ e ∈ es.take w, e.Sendable := fun e mem =>
      sendable e (List.mem_of_mem_take mem)
    have nothing : ∀ n, serveConnection sender isCut handler n begun = [] := by
      intro n
      rcases last with ⟨-, rfl⟩ | ⟨e, isE, begins, short⟩
      · have ended : readFrameWithin MAX_FRAME [] = .error .ended := rfl
        exact serveConnection_error ended
      · obtain ⟨why, isError⟩ :=
          readFrameWithin_short (sendable e (List.mem_of_getElem? isE)) begins short
        exact serveConnection_error isError
    refine ⟨w, ?_, fits, ?_, ?_⟩
    · rcases last with ⟨rfl, -⟩ | ⟨e, isE, -⟩
      · exact Nat.le_refl _
      · exact Nat.le_of_lt (List.getElem?_eq_some_iff.mp isE).1
    · intro e isE
      rcases last with ⟨rfl, -⟩ | ⟨e', isE', -, short⟩
      · rw [List.getElem?_eq_none (Nat.le_refl _)] at isE
        cases isE
      · cases isE'.symm.trans isE
        have length := congrArg List.length same
        rw [List.length_take, List.length_append] at length
        have whole : (es.flatMap Envelope.encode).length =
            ((es.take w).flatMap Envelope.encode ++ (es.drop w).flatMap Envelope.encode).length := by
          rw [← List.flatMap_append, List.take_append_drop]
        have next : es.drop w = e :: es.drop (w + 1) := by
          obtain ⟨inside, rfl⟩ := List.getElem?_eq_some_iff.mp isE
          exact List.drop_eq_getElem_cons inside
        rw [next, List.flatMap_cons, List.length_append, List.length_append] at whole
        rw [List.length_append]
        omega
    · rw [same, serveConnection_encode _ _ _ sendable', nothing, List.append_nil]
  · intro stream
    obtain ⟨es, sendable, arrived, same⟩ := serveConnection_eq_delivered 0 stream
    exact ⟨es, sendable, arrived, same, fun e mem => from_of_delivered (same ▸ mem)⟩

end Velosearch.Cluster.Transport
