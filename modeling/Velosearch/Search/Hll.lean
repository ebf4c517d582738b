import Mathlib
import Velosearch.Lib.Probing

/-!
# The sketch of a cardinality

`HyperLogLogPlusPlus` of `src/search/aggs/hll.rs`. A sketch keeps the hashes it collects cut to 32
bits, in an open-addressed table, until there are too many of them, and from then on the longest run
of noughts for each index.

* The tables of corrections and the logarithm the estimate is worked out with are parameters.
* A hash is its 64 bits and an entry of the table its 32, whatever their sign.
-/

set_option autoImplicit false

namespace Velosearch.Hll

/-! ## Hashes -/

/-- How many bits of a hash a list keeps. -/
def P2 : ℕ := 25

/-- How many zeros a word begins with. -/
def leadingZeros {w : ℕ} (x : BitVec w) : ℕ :=
  x.clz.toNat

/-- `as u8` -/
def asU8 (n : ℕ) : ℕ :=
  n % 256

/-- The register of a hash. -/
def index (hash : BitVec 64) (p : ℕ) : ℕ :=
  (hash >>> (64 - p)).toNat

/-- How many zeros follow, and one. -/
def runLen (hash : BitVec 64) (p : ℕ) : ℕ :=
  asU8 (1 + min (leadingZeros (hash <<< p)) (64 - p))

/-- A hash as a list keeps it. -/
def encodeHash (hash : BitVec 64) (p : ℕ) : BitVec 32 :=
  let e := hash >>> (64 - P2)
  let mask := (1#64 <<< (P2 - p)) - 1#64
  let encoded :=
    if e &&& mask = 0#64 then
      let runLen := 1 + min (leadingZeros (hash <<< P2)) (64 - P2)
      (e <<< 7) ||| (BitVec.ofNat 64 runLen <<< 1) ||| 1#64
    else e <<< 1
  encoded.setWidth 32

/-- The zeros of it. -/
def decodeRunLen (encoded : BitVec 32) (p : ℕ) : ℕ :=
  if encoded &&& 1#32 = 1#32 then asU8 (((encoded >>> 1) &&& 0x3F#32).toNat + (P2 - p))
  else asU8 (1 + leadingZeros (encoded <<< (31 + p - P2)))

/-- The register of it. -/
def decodeIndex (encoded : BitVec 32) (p : ℕ) : ℕ :=
  let index := if encoded &&& 1#32 = 1#32 then (encoded >>> 7).toNat else (encoded >>> 1).toNat
  index >>> (P2 - p)

/-! ## The sketch -/

/-- A sketch is a list of hashes or its registers. -/
inductive Shape where
  | linear (table : List (BitVec 32)) (size : ℕ)
  | dense (registers : List ℕ)

/-- A sketch. -/
structure HyperLogLogPlusPlus where
  p : ℕ
  m : ℕ
  alphaMm : Float
  threshold : ℕ
  shape : Shape

/-- The search of `add_encoded` from a slot on: the new size, or -1 where the entry is there. -/
def addFrom (encoded : BitVec 32) (size : ℕ) :
    ℕ → List (BitVec 32) → ℕ → Option (ℤ × List (BitVec 32) × ℕ)
  | 0, _, _ => none
  | fuel + 1, table, i =>
    match table[i]? with
    | none => none
    | some v =>
      if v = 0#32 then some (size + 1, table.set i encoded, size + 1)
      else if v = encoded then some (-1, table, size)
      else
        let mask := BitVec.ofNat 32 (table.length - 1)
        addFrom encoded size fuel table (BitVec.ofNat 32 (i + 1) &&& mask).toNat

/-- `add_encoded`, once round the table. -/
def addEncoded (table : List (BitVec 32)) (size : ℕ) (encoded : BitVec 32) :
    Option (ℤ × List (BitVec 32) × ℕ) :=
  let mask := BitVec.ofNat 32 (table.length - 1)
  addFrom encoded size table.length table (encoded &&& mask).toNat

/-- A register is raised. -/
def raise (registers : List ℕ) (index runLen : ℕ) : List ℕ :=
  if registers.getD index 0 < runLen then registers.set index runLen else registers

namespace HyperLogLogPlusPlus

/-- `precision.clamp(MIN_PRECISION, MAX_PRECISION)` -/
def clamp (precision : ℕ) : ℕ :=
  min (max precision 4) 18

/-- An empty sketch. -/
def new (precision : ℕ) : HyperLogLogPlusPlus :=
  let p := clamp precision
  let m := 2 ^ p
  let alpha : Float :=
    match p with
    | 4 => 0.673
    | 5 => 0.697
    | _ => 0.7213 / (1.0 + 1.079 / Float.ofNat m)
  let capacity := m / 4
  { p := p
    m := m
    alphaMm := alpha * Float.ofNat m * Float.ofNat m
    -- three quarters of a power of two are exact
    threshold := capacity * 3 / 4
    shape := .linear (List.replicate capacity 0#32) 0 }

variable (s : HyperLogLogPlusPlus)

/-- The list becomes registers. -/
def upgradeToHll : HyperLogLogPlusPlus :=
  match s.shape with
  | .dense _ => s
  | .linear table _ =>
    let encoded := table.filter fun v => v ≠ 0#32
    { s with
      shape := .dense <| encoded.foldl
        (fun registers e => raise registers (decodeIndex e s.p) (decodeRunLen e s.p))
        (List.replicate s.m 0) }

/-- None where the search of `add_encoded` does not end. -/
def collect (hash : BitVec 64) : Option HyperLogLogPlusPlus :=
  match s.shape with
  | .linear table size =>
    (addEncoded table size (encodeHash hash s.p)).map fun (newSize, table, size) =>
      let s := { s with shape := .linear table size }
      if (s.threshold : ℤ) < newSize then s.upgradeToHll else s
  | .dense registers =>
    some { s with shape := .dense (raise registers (index hash s.p) (runLen hash s.p)) }

/-- What a sketch has become when it has collected some hashes. -/
def run (precision : ℕ) (hashes : List (BitVec 64)) : Option HyperLogLogPlusPlus :=
  hashes.foldlM collect (new precision)

end HyperLogLogPlusPlus

/-! ## The estimate -/

/-- The logarithm and the tables of corrections, a row for each precision. -/
structure Corrections where
  javaLog : Float → Float
  rawEstimateData : ℕ → List Float
  biasData : ℕ → List Float

/-- `Math.round`. -/
def javaRound (x : Float) : ℤ :=
  (x + 0.5).floor.toInt64.toInt

/-- Where counting by empty registers ends, for each precision. -/
def thresholds : List ℤ :=
  [10, 20, 40, 80, 220, 400, 900, 1800, 3100, 6500, 11500, 20000, 50000, 120000, 350000]

section

variable (C : Corrections)

/-- The count by empty registers. -/
def linearCounting (m v : ℤ) : ℤ :=
  javaRound (Float.ofInt m * C.javaLog (Float.ofInt m / Float.ofInt v))

/-- The estimates that are nearest. -/
def nearest (bias : List Float) (e : Float) :
    List Float → ℕ → List Float → Float ⊕ (ℤ × List Float)
  | [], _, weights => .inr (bias.length - 6, weights)
  | r :: rest, i, weights =>
    let w := 1.0 / (r - e).abs
    let j := i % weights.length
    if w.isInf then .inl (bias.getD i 0)
    else if w ≤ weights.getD j 0 then .inr (i - 6, weights)
    else nearest bias e rest (i + 1) (weights.set j w)

/-- How far an estimate is off. -/
def estimateBias (p : ℕ) (e : Float) : Float :=
  let bias := C.biasData (p - 4)
  match nearest bias e (C.rawEstimateData (p - 4)) 0 (List.replicate 6 0.0) with
  | .inl found => found
  | .inr (start, weights) =>
    let (biasSum, weightSum) := weights.zipIdx.foldl
      (fun (biasSum, weightSum) (w, i) =>
        (biasSum + w * bias.getD (start + i).toNat 0, weightSum + w))
      ((0.0, 0.0) : Float × Float)
    biasSum / weightSum

/-- The count. -/
def HyperLogLogPlusPlus.cardinality (s : HyperLogLogPlusPlus) : ℤ :=
  match s.shape with
  | .linear _ size => linearCounting C (2 ^ P2) (2 ^ P2 - size)
  | .dense registers =>
    let (inverseSum, zeros) := registers.foldl
      (fun (inverseSum, zeros) runLen =>
        (inverseSum + 1.0 / Float.ofNat (2 ^ runLen), if runLen = 0 then zeros + 1 else zeros))
      ((0.0, 0) : Float × ℕ)
    let e1 := s.alphaMm / inverseSum
    let e2 := if e1 ≤ 5.0 * Float.ofNat s.m then e1 - estimateBias C s.p e1 else e1
    let h := if zeros ≠ 0 then linearCounting C s.m zeros else javaRound e2
    if h ≤ thresholds.getD (s.p - 4) 0 then h else javaRound e2

end

/-! ## What an entry is decoded to -/

section

variable {p : ℕ} (hash : BitVec 64)

theorem leadingZeros_eq {w : ℕ} (x : BitVec w) : leadingZeros x = w - Nat.size x.toNat := by
  unfold leadingZeros
  by_cases zero : x = 0#w
  · subst zero
    rw [BitVec.clz_eq_iff_eq_zero.mpr rfl]
    simp
  · have pos : 0 < w := by
      apply Nat.pos_of_ne_zero
      rintro rfl
      exact zero (Subsingleton.elim _ _)
    have some_ : x.clz.toNat < w := by
      have this : x.clz.toNat < (BitVec.ofNat w w).toNat :=
        BitVec.lt_def.mp (BitVec.clz_lt_iff_ne_zero.mpr zero)
      rwa [BitVec.toNat_ofNat, Nat.mod_eq_of_lt Nat.lt_two_pow_self] at this
    have low := Nat.lt_size.mpr (BitVec.two_pow_sub_clz_le_toNat_of_ne_zero pos zero)
    have high := Nat.size_le.mpr (BitVec.toNat_lt_two_pow_sub_clz (x := x))
    omega

theorem size_append {a k c : ℕ} (ne : a ≠ 0) (lt : c < 2 ^ k) :
    Nat.size (a * 2 ^ k + c) = Nat.size a + k := by
  apply Nat.le_antisymm
  · rw [Nat.size_le, Nat.pow_add]
    have := Nat.lt_size_self a
    calc a * 2 ^ k + c < a * 2 ^ k + 2 ^ k := by omega
      _ = (a + 1) * 2 ^ k := by ring
      _ ≤ 2 ^ Nat.size a * 2 ^ k := Nat.mul_le_mul_right _ this
  · obtain ⟨s, hs⟩ : ∃ s, Nat.size a = s + 1 := by
      apply Nat.exists_eq_succ_of_ne_zero
      rwa [Ne, Nat.size_eq_zero]
    have low : 2 ^ s ≤ a := Nat.lt_size.mp (by omega)
    have : s + k < Nat.size (a * 2 ^ k + c) := by
      rw [Nat.lt_size, Nat.pow_add]
      exact Nat.le_add_right_of_le (Nat.mul_le_mul_right _ low)
    omega

theorem index_eq : index hash p = hash.toNat / 2 ^ (64 - p) := by
  rw [index, BitVec.toNat_ushiftRight, Nat.shiftRight_eq_div_pow]

theorem shiftLeft_toNat {w k : ℕ} (x : BitVec w) (le : k ≤ w) :
    (x <<< k).toNat = x.toNat % 2 ^ (w - k) * 2 ^ k := by
  rw [BitVec.toNat_shiftLeft, Nat.shiftLeft_eq]
  have split : 2 ^ w = 2 ^ (w - k) * 2 ^ k := by
    rw [← Nat.pow_add]
    congr 1
    omega
  rw [split, Nat.mul_mod_mul_right]

theorem leadingZeros_shiftLeft {w k : ℕ} (x : BitVec w) (le : k ≤ w) :
    min (leadingZeros (x <<< k)) (w - k) = w - k - Nat.size (x.toNat % 2 ^ (w - k)) := by
  rw [leadingZeros_eq, shiftLeft_toNat x le]
  by_cases zero : x.toNat % 2 ^ (w - k) = 0
  · simp [zero]
  · have append := size_append (k := k) (c := 0) zero (by positivity)
    rw [Nat.add_zero] at append
    rw [append]
    omega

theorem runLen_eq (le : p ≤ 64) :
    runLen hash p = 1 + (64 - p - Nat.size (hash.toNat % 2 ^ (64 - p))) := by
  rw [runLen, leadingZeros_shiftLeft hash le, asU8]
  omega

theorem and_mask {w k : ℕ} (x : BitVec w) (lt : k < w) :
    (x &&& ((1#w <<< k) - 1#w)).toNat = x.toNat % 2 ^ k := by
  have lt_pow : 2 ^ k < 2 ^ w := Nat.pow_lt_pow_right (by omega) lt
  have pos : 0 < 2 ^ k := Nat.two_pow_pos k
  have one : (1#w).toNat = 1 := by
    rw [BitVec.toNat_ofNat]
    exact Nat.mod_eq_of_lt (by omega)
  have shifted : (1#w <<< k).toNat = 2 ^ k := by
    rw [BitVec.toNat_shiftLeft, one, Nat.shiftLeft_eq, Nat.one_mul, Nat.mod_eq_of_lt lt_pow]
  have mask : ((1#w <<< k) - 1#w).toNat = 2 ^ k - 1 := by
    rw [BitVec.toNat_sub_of_le (BitVec.le_def.mpr (by omega)), shifted, one]
  rw [BitVec.toNat_and, mask, Nat.and_two_pow_sub_one_eq_mod]

theorem odd_iff {w : ℕ} (x : BitVec w) (pos : 0 < w) : x &&& 1#w = 1#w ↔ x.toNat % 2 = 1 := by
  rw [← BitVec.toNat_inj, BitVec.toNat_and, BitVec.toNat_ofNat]
  have one : 1 % 2 ^ w = 1 := Nat.mod_eq_of_lt (Nat.one_lt_two_pow (by omega))
  rw [one, Nat.and_one_is_mod]

theorem or_parts {E : BitVec 64} {run : ℕ} (small : E.toNat < 2 ^ 25) (short : run < 64) :
    ((E <<< 7) ||| (BitVec.ofNat 64 run <<< 1) ||| 1#64).toNat = E.toNat * 128 + run * 2 + 1 := by
  have seven : (E <<< 7).toNat = E.toNat <<< 7 := by
    rw [BitVec.toNat_shiftLeft, Nat.shiftLeft_eq]
    omega
  have one : (BitVec.ofNat 64 run <<< 1).toNat = run * 2 := by
    rw [BitVec.toNat_shiftLeft, BitVec.toNat_ofNat, Nat.shiftLeft_eq]
    omega
  have upper : E.toNat <<< 7 ||| run * 2 = (E.toNat * 64 + run) <<< 1 := by
    rw [← Nat.shiftLeft_add_eq_or_of_lt (by omega), Nat.shiftLeft_eq, Nat.shiftLeft_eq]
    omega
  rw [BitVec.toNat_or, BitVec.toNat_or, seven, one, upper]
  show (E.toNat * 64 + run) <<< 1 ||| 1 = _
  rw [← Nat.shiftLeft_add_eq_or_of_lt (by decide), Nat.shiftLeft_eq]
  omega

theorem encodeHash_toNat (low : 4 ≤ p) (high : p ≤ 18) :
    (encodeHash hash p).toNat =
      let e := hash.toNat / 2 ^ 39
      if e % 2 ^ (25 - p) = 0 then
        e * 128 + (1 + (39 - Nat.size (hash.toNat % 2 ^ 39))) * 2 + 1
      else e * 2 := by
  have e_eq : (hash >>> (64 - P2)).toNat = hash.toNat / 2 ^ 39 := by
    rw [BitVec.toNat_ushiftRight, Nat.shiftRight_eq_div_pow, P2]
  have e_lt : hash.toNat / 2 ^ 39 < 2 ^ 25 := by
    have := hash.isLt
    omega
  have masked : hash >>> (64 - P2) &&& (1#64 <<< (P2 - p)) - 1#64 = 0#64 ↔
      hash.toNat / 2 ^ 39 % 2 ^ (25 - p) = 0 := by
    rw [← BitVec.toNat_inj, and_mask _ (by unfold P2; omega), e_eq]
    rfl
  have run : min (leadingZeros (hash <<< P2)) (64 - P2) =
      39 - Nat.size (hash.toNat % 2 ^ 39) :=
    leadingZeros_shiftLeft hash (by unfold P2; omega)
  simp only [encodeHash, masked, run]
  generalize hash >>> (64 - P2) = E at e_eq
  generalize hash.toNat / 2 ^ 39 = e at e_eq e_lt
  generalize Nat.size (hash.toNat % 2 ^ 39) = size
  split
  · rw [BitVec.toNat_setWidth, or_parts (by omega) (by omega), e_eq]
    omega
  · rw [BitVec.toNat_setWidth, BitVec.toNat_shiftLeft, e_eq, Nat.shiftLeft_eq]
    omega

theorem rest_eq (high : p ≤ 18) (h : ℕ) :
    h % 2 ^ (64 - p) = h / 2 ^ 39 % 2 ^ (25 - p) * 2 ^ 39 + h % 2 ^ 39 := by
  have split : 2 ^ (64 - p) = 2 ^ 39 * 2 ^ (25 - p) := by
    rw [← Nat.pow_add]
    congr 1
    omega
  rw [split, Nat.mod_mul]
  ring

theorem decodeIndex_encodeHash (low : 4 ≤ p) (high : p ≤ 18) :
    decodeIndex (encodeHash hash p) p = index hash p := by
  have value := encodeHash_toNat hash low high
  have e_lt : hash.toNat / 2 ^ 39 < 2 ^ 25 := by
    have := hash.isLt
    omega
  have size_le : Nat.size (hash.toNat % 2 ^ 39) ≤ 39 := Nat.size_le.mpr (Nat.mod_lt _ (by decide))
  have whole : index hash p = hash.toNat / 2 ^ 39 / 2 ^ (25 - p) := by
    rw [index_eq, Nat.div_div_eq_div_mul, ← Nat.pow_add]
    congr 2
    omega
  rw [decodeIndex, whole]
  simp only [odd_iff _ (show 0 < 32 by decide), BitVec.toNat_ushiftRight, Nat.shiftRight_eq_div_pow,
    P2]
  rw [value]
  generalize hash.toNat / 2 ^ 39 = e at e_lt
  generalize Nat.size (hash.toNat % 2 ^ 39) = size at size_le
  congr 1
  dsimp only
  split
  · rw [if_pos (by omega)]
    omega
  · rw [if_neg (by omega)]
    omega

theorem decodeRunLen_encodeHash (low : 4 ≤ p) (high : p ≤ 18) :
    decodeRunLen (encodeHash hash p) p = runLen hash p := by
  have value := encodeHash_toNat hash low high
  have e_lt : hash.toNat / 2 ^ 39 < 2 ^ 25 := by
    have := hash.isLt
    omega
  have size_le : Nat.size (hash.toNat % 2 ^ 39) ≤ 39 := Nat.size_le.mpr (Nat.mod_lt _ (by decide))
  rw [decodeRunLen, runLen_eq hash (by omega), rest_eq high]
  simp only [odd_iff _ (show 0 < 32 by decide)]
  dsimp only at value
  by_cases noughts : hash.toNat / 2 ^ 39 % 2 ^ (25 - p) = 0
  · rw [if_pos noughts] at value
    have field : (encodeHash hash p >>> 1 &&& 0x3F#32).toNat =
        1 + (39 - Nat.size (hash.toNat % 2 ^ 39)) := by
      rw [BitVec.toNat_and, BitVec.toNat_ushiftRight, value]
      show _ &&& (2 ^ 6 - 1) = _
      rw [Nat.and_two_pow_sub_one_eq_mod, Nat.shiftRight_eq_div_pow]
      omega
    rw [if_pos (by omega), field, noughts, Nat.zero_mul, Nat.zero_add, asU8, P2]
    omega
  · rw [if_neg noughts] at value
    have short : Nat.size (hash.toNat / 2 ^ 39 % 2 ^ (25 - p)) ≤ 25 - p :=
      Nat.size_le.mpr (Nat.mod_lt _ (Nat.two_pow_pos _))
    have kept : (encodeHash hash p <<< (31 + p - P2)).toNat =
        hash.toNat / 2 ^ 39 % 2 ^ (25 - p) * 2 ^ (p + 7) + 0 := by
      have width : 32 - (31 + p - P2) = 25 - p + 1 := by
        unfold P2
        omega
      have amount : 31 + p - P2 = p + 6 := by
        unfold P2
        omega
      rw [shiftLeft_toNat _ (by unfold P2; omega), width, value, pow_succ 2 (25 - p),
        Nat.mul_mod_mul_right, amount]
      ring
    rw [if_neg (by omega), leadingZeros_eq, kept, size_append noughts (Nat.two_pow_pos _),
      size_append noughts (Nat.mod_lt _ (by decide)), asU8]
    omega

theorem encodeHash_ne_zero (low : 4 ≤ p) (high : p ≤ 18) : encodeHash hash p ≠ 0#32 := by
  intro zero
  have value := encodeHash_toNat hash low high
  rw [zero] at value
  dsimp only at value
  split at value
  · simp at value
  next ne =>
    apply ne
    have : hash.toNat / 2 ^ 39 = 0 := by
      have : (0#32).toNat = 0 := rfl
      omega
    rw [this, Nat.zero_mod]

end

/-! ## The search of an entry -/

theorem and_ofNat_mask {x : BitVec 32} {k : ℕ} (lt : k < 32) :
    (x &&& BitVec.ofNat 32 (2 ^ k - 1)).toNat = x.toNat % 2 ^ k := by
  have le : 2 ^ k < 2 ^ 32 := Nat.pow_lt_pow_right (by omega) lt
  rw [BitVec.toNat_and, BitVec.toNat_ofNat, Nat.mod_eq_of_lt (by omega),
    Nat.and_two_pow_sub_one_eq_mod]

theorem addFrom_eq {encoded : BitVec 32} {size k : ℕ} (lt : k < 32) :
    ∀ (fuel : ℕ) (table : List (BitVec 32)) (i : ℕ), table.length = 2 ^ k → i < 2 ^ k →
      addFrom encoded size fuel table i =
        (Probing.probe 0#32 encoded fuel table i).map fun (put, table) =>
          if put then ((size : ℤ) + 1, table, size + 1) else (-1, table, size) := by
  intro fuel
  induction fuel with
  | zero =>
    intro table i _ _
    rfl
  | succ fuel ih =>
    intro table i length inside
    have le : 2 ^ k < 2 ^ 32 := Nat.pow_lt_pow_right (by omega) lt
    have next : (BitVec.ofNat 32 (i + 1) &&& BitVec.ofNat 32 (table.length - 1)).toNat =
        (i + 1) % table.length := by
      rw [length, and_ofNat_mask lt, BitVec.toNat_ofNat, Nat.mod_eq_of_lt (a := i + 1) (by omega)]
    rw [addFrom, Probing.probe]
    cases table[i]? with
    | none => rfl
    | some v =>
      dsimp only
      by_cases free : v = 0#32
      · simp [free]
      by_cases there : v = encoded
      · simp only [if_neg free, if_pos there]
        rfl
      rw [if_neg free, if_neg there, if_neg free, if_neg there, next,
        ih table _ length (by rw [length]; exact Nat.mod_lt _ (Nat.two_pow_pos k))]

theorem addEncoded_eq {table : List (BitVec 32)} {size k : ℕ} (lt : k < 32)
    (length : table.length = 2 ^ k) (encoded : BitVec 32) :
    addEncoded table size encoded =
      (Probing.add 0#32 BitVec.toNat encoded table).map fun (put, table) =>
        if put then ((size : ℤ) + 1, table, size + 1) else (-1, table, size) := by
  unfold addEncoded Probing.add
  dsimp only
  have home : (encoded &&& BitVec.ofNat 32 (table.length - 1)).toNat =
      encoded.toNat % table.length := by
    rw [length, and_ofNat_mask lt]
  rw [home, addFrom_eq lt _ _ _ length]
  rw [length]
  exact Nat.mod_lt _ (Nat.two_pow_pos k)

/-! ## Registers -/

/-- The largest of those that fall into one register. -/
def best {α : Type} [DecidableEq α] (indexOf runOf : α → ℕ) (l : Finset α) (i : ℕ) : ℕ :=
  (l.filter fun a => indexOf a = i).sup runOf

theorem best_insert {α : Type} [DecidableEq α] {indexOf runOf : α → ℕ} {l : Finset α} {a : α}
    {i : ℕ} : best indexOf runOf (insert a l) i =
      if indexOf a = i then max (runOf a) (best indexOf runOf l i)
      else best indexOf runOf l i := by
  unfold best
  rw [Finset.filter_insert]
  split
  · rw [Finset.sup_insert]
  · rfl

theorem best_image {α β : Type} [DecidableEq α] [DecidableEq β] {f : α → β} {indexOf runOf : α → ℕ}
    {indexOf' runOf' : β → ℕ} (index_eq : ∀ a, indexOf' (f a) = indexOf a)
    (run_eq : ∀ a, runOf' (f a) = runOf a) (l : Finset α) (i : ℕ) :
    best indexOf' runOf' (l.image f) i = best indexOf runOf l i := by
  unfold best
  rw [Finset.filter_image, Finset.sup_image]
  simp only [index_eq]
  apply Finset.sup_congr rfl
  intro a _
  exact run_eq a

/-- The registers are those of a function. -/
def Holds (m : ℕ) (registers : List ℕ) (f : ℕ → ℕ) : Prop :=
  registers.length = m ∧ ∀ i < m, registers[i]? = some (f i)

theorem Holds.unique {m : ℕ} {registers registers' : List ℕ} {f : ℕ → ℕ}
    (h : Holds m registers f) (h' : Holds m registers' f) : registers = registers' := by
  apply List.ext_getElem?
  intro i
  by_cases lt : i < m
  · rw [h.2 i lt, h'.2 i lt]
  · rw [List.getElem?_eq_none (by rw [h.1]; omega), List.getElem?_eq_none (by rw [h'.1]; omega)]

theorem Holds.raise {m : ℕ} {registers : List ℕ} {f : ℕ → ℕ} (h : Holds m registers f)
    {index : ℕ} (inside : index < m) (runLen : ℕ) :
    Holds m (raise registers index runLen)
      (fun i => if index = i then max runLen (f i) else f i) := by
  have value : registers.getD index 0 = f index := by
    rw [List.getD_eq_getElem?_getD, h.2 index inside]
    rfl
  unfold Hll.raise
  rw [value]
  by_cases less : f index < runLen
  · rw [if_pos less]
    refine ⟨by rw [List.length_set, h.1], ?_⟩
    intro i lt
    dsimp only
    rw [List.getElem?_set]
    by_cases same : index = i
    · subst same
      rw [if_pos rfl, if_pos (by rw [h.1]; exact lt), if_pos rfl]
      congr 1
      omega
    · rw [if_neg same, if_neg same, h.2 i lt]
  · rw [if_neg less]
    refine ⟨h.1, ?_⟩
    intro i lt
    dsimp only
    rw [h.2 i lt]
    by_cases same : index = i
    · subst same
      rw [if_pos rfl]
      congr 1
      omega
    · rw [if_neg same]

theorem Holds.foldl {α : Type} [DecidableEq α] {m : ℕ} {indexOf : α → ℕ} (runOf : α → ℕ)
    {l : List α} (inside : ∀ a ∈ l, indexOf a < m) {registers : List ℕ} {f : ℕ → ℕ}
    (h : Holds m registers f) :
    Holds m (l.foldl (fun registers a => Hll.raise registers (indexOf a) (runOf a)) registers)
      (fun i => max (best indexOf runOf l.toFinset i) (f i)) := by
  induction l generalizing registers f with
  | nil => simpa [best] using h
  | cons a l ih =>
    have step := ih (fun b hb => inside b (List.mem_cons_of_mem a hb))
      (h.raise (inside a List.mem_cons_self) (runOf a))
    rw [List.foldl_cons]
    convert step using 2 with i
    rw [List.toFinset_cons, best_insert]
    split
    · omega
    · rfl

/-! ## What a sketch holds -/

/-- What a list keeps of some hashes. -/
def encodedOf (p : ℕ) (hashes : List (BitVec 64)) : Finset (BitVec 32) :=
  hashes.toFinset.image fun hash => encodeHash hash p

/-- What registers keep of them. -/
def greatest (p : ℕ) (hashes : List (BitVec 64)) : ℕ → ℕ :=
  best (fun hash => index hash p) (fun hash => runLen hash p) hashes.toFinset

/-- The entries of the hashes and no others, or the greatest run length for each index. -/
def Kept (p : ℕ) (hashes : List (BitVec 64)) : Shape → Prop
  | .linear table size =>
    (∀ e, (e ∈ table ∧ e ≠ 0#32) ↔ ∃ hash ∈ hashes, encodeHash hash p = e) ∧
      size = (encodedOf p hashes).card
  | .dense registers => Holds (2 ^ p) registers (greatest p hashes)

/-- How many a list has room for. -/
def room (p : ℕ) : ℕ :=
  2 ^ (p - 2) * 3 / 4

/-- A sketch is that of the hashes it has seen. -/
def Invariant (p : ℕ) (hashes : List (BitVec 64)) : Shape → Prop
  | .linear table size =>
    table.length = 2 ^ (p - 2) ∧ Probing.Reached 0#32 BitVec.toNat table ∧
      (∀ e, e ≠ 0#32 → (e ∈ table ↔ e ∈ encodedOf p hashes)) ∧
      Probing.taken 0#32 table = size ∧ size = (encodedOf p hashes).card ∧ size ≤ room p
  | .dense registers =>
    Holds (2 ^ p) registers (greatest p hashes) ∧ room p < (encodedOf p hashes).card

section

variable {p : ℕ} {hashes : List (BitVec 64)} (hash : BitVec 64)

theorem encodedOf_append :
    encodedOf p (hashes ++ [hash]) = insert (encodeHash hash p) (encodedOf p hashes) := by
  unfold encodedOf
  rw [List.toFinset_append, Finset.image_union, Finset.union_comm]
  rfl

theorem greatest_append (i : ℕ) :
    greatest p (hashes ++ [hash]) i =
      if index hash p = i then max (runLen hash p) (greatest p hashes i)
      else greatest p hashes i := by
  unfold greatest
  have append : (hashes ++ [hash]).toFinset = insert hash hashes.toFinset := by
    rw [List.toFinset_append, Finset.union_comm]
    rfl
  rw [append, best_insert]

theorem mem_encodedOf {e : BitVec 32} :
    e ∈ encodedOf p hashes ↔ ∃ hash ∈ hashes, encodeHash hash p = e := by
  simp [encodedOf]

theorem ne_zero_of_mem (low : 4 ≤ p) (high : p ≤ 18) {e : BitVec 32}
    (mem : e ∈ encodedOf p hashes) : e ≠ 0#32 := by
  obtain ⟨hash, -, rfl⟩ := mem_encodedOf.mp mem
  exact encodeHash_ne_zero hash low high

theorem index_lt (high : p ≤ 18) : index hash p < 2 ^ p := by
  rw [index_eq]
  apply Nat.div_lt_of_lt_mul
  rw [← Nat.pow_add]
  have : 64 - p + p = 64 := by omega
  rw [this]
  exact hash.isLt

theorem room_lt (p : ℕ) : room p < 2 ^ (p - 2) := by
  have pos : 0 < 2 ^ (p - 2) := Nat.two_pow_pos _
  unfold room
  omega

theorem Invariant.kept (low : 4 ≤ p) (high : p ≤ 18) {shape : Shape}
    (inv : Invariant p hashes shape) : Kept p hashes shape := by
  cases shape with
  | linear table size =>
    obtain ⟨-, -, mem, -, card, -⟩ := inv
    refine ⟨?_, card⟩
    intro e
    rw [← mem_encodedOf]
    constructor
    · intro h
      exact (mem e h.2).mp h.1
    · intro h
      have ne := ne_zero_of_mem low high h
      exact ⟨(mem e ne).mpr h, ne⟩
  | dense registers => exact inv.1

theorem holds_upgrade (low : 4 ≤ p) (high : p ≤ 18) {table : List (BitVec 32)}
    (mem : ∀ e, e ≠ 0#32 → (e ∈ table ↔ e ∈ encodedOf p hashes)) :
    Holds (2 ^ p)
      ((table.filter fun v => v ≠ 0#32).foldl
        (fun registers e => raise registers (decodeIndex e p) (decodeRunLen e p))
        (List.replicate (2 ^ p) 0))
      (greatest p hashes) := by
  have entries : (table.filter fun v => v ≠ 0#32).toFinset = encodedOf p hashes := by
    ext e
    rw [List.mem_toFinset, List.mem_filter, decide_eq_true_eq]
    constructor
    · intro h
      exact (mem e h.2).mp h.1
    · intro h
      have ne := ne_zero_of_mem low high h
      exact ⟨(mem e ne).mpr h, ne⟩
  have inside : ∀ e ∈ table.filter fun v => v ≠ 0#32, decodeIndex e p < 2 ^ p := by
    intro e h
    rw [← List.mem_toFinset, entries] at h
    obtain ⟨hash, -, rfl⟩ := mem_encodedOf.mp h
    rw [decodeIndex_encodeHash hash low high]
    exact index_lt hash high
  have start : Holds (2 ^ p) (List.replicate (2 ^ p) 0) fun _ => 0 := by
    refine ⟨List.length_replicate, ?_⟩
    intro i lt
    rw [List.getElem?_replicate, if_pos lt]
  have all := start.foldl (fun e => decodeRunLen e p) inside
  convert all using 2 with i
  rw [entries, encodedOf, best_image (fun hash => decodeIndex_encodeHash hash low high)
    (fun hash => decodeRunLen_encodeHash hash low high)]
  simp [greatest]

namespace HyperLogLogPlusPlus

theorem clamp_bounds (precision : ℕ) : 4 ≤ clamp precision ∧ clamp precision ≤ 18 := by
  unfold clamp
  omega

def shaped (precision : ℕ) (shape : Shape) : HyperLogLogPlusPlus :=
  { new precision with shape := shape }

theorem threshold_new (precision : ℕ) : (new precision).threshold = room (clamp precision) := by
  have low := (clamp_bounds precision).1
  have quarter : 2 ^ clamp precision / 4 = 2 ^ (clamp precision - 2) :=
    Nat.pow_div (m := clamp precision) (n := 2) (by omega) (by decide)
  show 2 ^ clamp precision / 4 * 3 / 4 = _
  rw [quarter, room]

theorem collect_shaped {precision : ℕ} {shape : Shape}
    (inv : Invariant (clamp precision) hashes shape) (hash : BitVec 64) :
    ∃ shape', (shaped precision shape).collect hash = some (shaped precision shape') ∧
      Invariant (clamp precision) (hashes ++ [hash]) shape' := by
  obtain ⟨low, high⟩ := clamp_bounds precision
  cases shape with
  | dense registers =>
    obtain ⟨holds, many⟩ := inv
    refine ⟨_, rfl, ?_, ?_⟩
    · have step := holds.raise (index_lt hash high) (runLen hash (clamp precision))
      have all : greatest (clamp precision) (hashes ++ [hash]) = fun i =>
          if index hash (clamp precision) = i then
            max (runLen hash (clamp precision)) (greatest (clamp precision) hashes i)
          else greatest (clamp precision) hashes i := funext fun i => greatest_append hash i
      rw [all]
      exact step
    · rw [encodedOf_append]
      exact Nat.lt_of_lt_of_le many (Finset.card_le_card (Finset.subset_insert _ _))
  | linear table size =>
    obtain ⟨length, reached, mem, taken, card, few⟩ := inv
    have ne := encodeHash_ne_zero hash low high
    have free : 0#32 ∈ table := by
      by_contra full
      have all : table.countP (fun v => v ≠ 0#32) = table.length := by
        apply List.countP_eq_length.mpr
        intro v hv
        simp only [ne_eq, decide_not, Bool.not_eq_eq_eq_not, Bool.not_true, decide_eq_false_iff_not]
        rintro rfl
        exact full hv
      have := room_lt (clamp precision)
      unfold Probing.taken at taken
      omega
    obtain ⟨table', added, length', reached', mem', taken'⟩ :=
      Probing.add_spec reached free ne
    have found : encodeHash hash (clamp precision) ∈ table ↔
        encodeHash hash (clamp precision) ∈ encodedOf (clamp precision) hashes := mem _ ne
    have mem' : ∀ e, e ≠ 0#32 →
        (e ∈ table' ↔ e ∈ encodedOf (clamp precision) (hashes ++ [hash])) := by
      intro e e_ne
      rw [mem' e e_ne, encodedOf_append, Finset.mem_insert, mem e e_ne]
    have added := congrArg (Option.map fun (put, table) =>
      if put then ((size : ℤ) + 1, table, size + 1) else (-1, table, size)) added
    rw [← addEncoded_eq (k := clamp precision - 2) (by omega) length, Option.map_some] at added
    have collected : (shaped precision (.linear table size)).collect hash =
        (addEncoded table size (encodeHash hash (clamp precision))).map fun (newSize, table, size) =>
          if ((new precision).threshold : ℤ) < newSize then
            (shaped precision (.linear table size)).upgradeToHll
          else shaped precision (.linear table size) := rfl
    rw [added, Option.map_some, threshold_new] at collected
    by_cases there : encodeHash hash (clamp precision) ∈ table
    · simp only [there, not_true_eq_false, decide_false, Bool.false_eq_true, if_false] at collected
      rw [if_neg (by omega)] at collected
      refine ⟨_, collected, by rw [length', length], reached', mem', ?_, ?_, few⟩
      · rw [taken', if_pos there, taken]
        rfl
      · rw [encodedOf_append, Finset.insert_eq_of_mem (found.mp there), card]
    · simp only [there, not_false_eq_true, decide_true, if_true] at collected
      have card' : size + 1 = (encodedOf (clamp precision) (hashes ++ [hash])).card := by
        rw [encodedOf_append, Finset.card_insert_of_notMem (fun h => there (found.mpr h)), card]
      by_cases full : room (clamp precision) < size + 1
      · rw [if_pos (by omega)] at collected
        exact ⟨_, collected, holds_upgrade low high mem', by omega⟩
      · rw [if_neg (by omega)] at collected
        refine ⟨_, collected, by rw [length', length], reached', mem', ?_, card', by omega⟩
        rw [taken', if_neg there, taken]

theorem invariant_new (precision : ℕ) :
    Invariant (clamp precision) [] (.linear (List.replicate (2 ^ clamp precision / 4) 0#32) 0) := by
  have low := (clamp_bounds precision).1
  have quarter : 2 ^ clamp precision / 4 = 2 ^ (clamp precision - 2) :=
    Nat.pow_div (m := clamp precision) (n := 2) (by omega) (by decide)
  have empty : ∀ e, e ∈ List.replicate (2 ^ clamp precision / 4) 0#32 → e = 0#32 := by
    intro e h
    exact List.eq_of_mem_replicate h
  refine ⟨by rw [List.length_replicate, quarter], ?_, ?_, ?_, rfl, Nat.zero_le _⟩
  · intro j v at_ ne
    exact absurd (empty v (List.mem_of_getElem? at_)) ne
  · intro e ne
    constructor
    · intro h
      exact absurd (empty e h) ne
    · intro h
      simp [encodedOf] at h
  · apply List.countP_eq_zero.mpr
    intro e h
    simp [empty e h]

theorem run_shaped (precision : ℕ) (hashes : List (BitVec 64)) :
    ∃ shape, run precision hashes = some (shaped precision shape) ∧
      Invariant (clamp precision) hashes shape := by
  induction hashes using List.reverseRecOn with
  | nil => exact ⟨_, rfl, invariant_new precision⟩
  | append_singleton hashes hash ih =>
    obtain ⟨shape, ran, inv⟩ := ih
    obtain ⟨shape', collected, inv'⟩ := collect_shaped inv hash
    refine ⟨shape', ?_, inv'⟩
    unfold run at ran ⊢
    rw [List.foldlM_append, ran]
    simp [collected]

theorem cardinality_eq (C : Corrections) {precision : ℕ} {hashes hashes' : List (BitVec 64)}
    (same : hashes.toFinset = hashes'.toFinset) {shape shape' : Shape}
    (inv : Invariant (clamp precision) hashes shape)
    (inv' : Invariant (clamp precision) hashes' shape') :
    cardinality C (shaped precision shape) = cardinality C (shaped precision shape') := by
  have entries : encodedOf (clamp precision) hashes = encodedOf (clamp precision) hashes' := by
    unfold encodedOf
    rw [same]
  have runs : greatest (clamp precision) hashes = greatest (clamp precision) hashes' := by
    unfold greatest
    rw [same]
  cases shape with
  | linear table size =>
    obtain ⟨-, -, -, -, card, few⟩ := inv
    cases shape' with
    | linear table' size' =>
      obtain ⟨-, -, -, -, card', -⟩ := inv'
      have sizes : size = size' := by rw [card, card', entries]
      rw [sizes]
      rfl
    | dense registers' =>
      have many := inv'.2
      rw [← entries] at many
      omega
  | dense registers =>
    obtain ⟨holds, many⟩ := inv
    cases shape' with
    | linear table' size' =>
      obtain ⟨-, -, -, -, card', few'⟩ := inv'
      rw [← entries] at card'
      omega
    | dense registers' =>
      have holds' := inv'.1
      rw [← runs] at holds'
      rw [holds.unique holds']

/-- Every run ends and leaves the entries of its hashes, or the greatest run length for each index;
and the estimate is that of the set of the hashes. -/
theorem sketch_of_set :
    (∀ (precision : ℕ) (hashes : List (BitVec 64)), ∃ s, run precision hashes = some s ∧
      s.p = clamp precision ∧ Kept (clamp precision) hashes s.shape) ∧
    ∀ (C : Corrections) (precision : ℕ) (hashes hashes' : List (BitVec 64)),
      (∀ hash, hash ∈ hashes ↔ hash ∈ hashes') →
        (run precision hashes).map (cardinality C) = (run precision hashes').map (cardinality C) := by
  constructor
  · intro precision hashes
    obtain ⟨shape, ran, inv⟩ := run_shaped precision hashes
    obtain ⟨low, high⟩ := clamp_bounds precision
    exact ⟨_, ran, rfl, inv.kept low high⟩
  · intro C precision hashes hashes' same
    obtain ⟨shape, ran, inv⟩ := run_shaped precision hashes
    obtain ⟨shape', ran', inv'⟩ := run_shaped precision hashes'
    have sets : hashes.toFinset = hashes'.toFinset := by
      ext hash
      simpa using same hash
    rw [ran, ran', Option.map_some, Option.map_some, cardinality_eq C sets inv inv']

theorem sketch_of_set_repeated :
    (run 14 [1#64, 2#64]).map (cardinality ⟨Float.log, fun _ => [], fun _ => []⟩) =
      (run 14 [2#64, 1#64, 2#64]).map (cardinality ⟨Float.log, fun _ => [], fun _ => []⟩) := by
  apply sketch_of_set.2
  intro hash
  simp only [List.mem_cons, List.not_mem_nil, or_false]
  constructor
  · rintro (h | h)
    · exact .inr (.inl h)
    · exact .inl h
  · rintro (h | h | h)
    · exact .inr h
    · exact .inl h
    · exact .inr h

end HyperLogLogPlusPlus

end

end Velosearch.Hll
