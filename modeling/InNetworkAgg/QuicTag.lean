import InNetworkAgg.Lib.Varint

/-!
# `Ns3QuicTag` (quic/model/ns3-quic-tag.cc)

A packet tag is two varints packed back to back, in a buffer whose size
`varint_length` announces.  That function counts in `int64_t`, and zero is
written as nothing although one byte is read for it:

    RoundTrips tag  ↔  0 < seq < 2 ^ 63 ∧ 0 < time < 2 ^ 63            (roundTrips_iff)
-/

namespace InNetworkAgg

structure Ns3QuicTag where
  seq : UInt64
  time : UInt64
deriving DecidableEq, Repr

/-! ## Varints -/

/-- `int64_t next = number` -/
def asInt64 (number : UInt64) : Int :=
  if number.toNat < 2 ^ 63 then number.toNat else (number.toNat : Int) - 2 ^ 64

/-- A quotient is positive only for what is at least the divisor. -/
theorem tdiv_eq_of_pos {next : Int} (h : 0 < next.tdiv 128) :
    next.tdiv 128 = next / 128 ∧ 128 ≤ next := by
  have hnonneg : 0 ≤ next := by
    by_contra hneg
    have h1 := Int.tdiv_nonneg (a := -next) (b := 128) (by omega) (by decide)
    rw [Int.neg_tdiv] at h1
    omega
  rw [Int.tdiv_eq_ediv_of_nonneg hnonneg] at h ⊢
  omega

/-- The loop of `varint_length`: how often `next` is divided. -/
def lengthLoop (next : Int) : Nat :=
  if 0 < next.tdiv 128 then lengthLoop (next.tdiv 128) + 1 else 1
termination_by next.toNat
decreasing_by
  have := tdiv_eq_of_pos ‹_›
  omega

/-- `varint_length` -/
def varintLength (number : UInt64) : Nat :=
  let next := asInt64 number
  if next ≠ 0 then lengthLoop next else 0

/-- The loop of `VarintEncode`: the bytes that are written. -/
def encodeLoop (next : UInt64) : List UInt8 :=
  let first := (next % 128).toUInt8
  if 0 < next / 128 then (first ||| 128) :: encodeLoop (next / 128) else [first]
termination_by next.toNat
decreasing_by
  rename_i h
  have h' : 0 < next.toNat / 128 := by simpa [UInt64.lt_iff_toNat_lt] using h
  rw [UInt64.toNat_div]
  show next.toNat / 128 < next.toNat
  omega

def varintEncode (value : UInt64) : List UInt8 := if value ≠ 0 then encodeLoop value else []

/-- The loop of `VarientDecode`; `ReadU8` at the end of the buffer has no result. -/
def decodeLoop : List UInt8 → UInt64 → UInt64 → Option (UInt64 × List UInt8)
  | [], _, _ => none
  | byte :: i, remain, remainMulti =>
    let remain := remain + (byte &&& 127).toUInt64 * remainMulti
    let remainMulti := remainMulti * 128
    if byte &&& 128 ≠ 0 then decodeLoop i remain remainMulti else some (remain, i)

def varientDecode (i : List UInt8) : Option (UInt64 × List UInt8) := decodeLoop i 0 1

/-! ## The tag: a `TagBuffer` is the bytes from its cursor on -/

namespace Ns3QuicTag

/-- A sum of two small numbers, as a `uint32_t`. -/
def getSerializedSize (tag : Ns3QuicTag) : Nat :=
  (varintLength tag.seq + varintLength tag.time) % 2 ^ 32

/-- All the bytes that are written, also behind the end of the buffer. -/
def serialize (tag : Ns3QuicTag) : List UInt8 := varintEncode tag.seq ++ varintEncode tag.time

def deserialize (i : List UInt8) : Option (Ns3QuicTag × List UInt8) := do
  let (seq, i) ← varientDecode i
  let (time, i) ← varientDecode i
  some ({ seq := seq, time := time }, i)

end Ns3QuicTag

/-! ## The loops are those of a varint -/

theorem toNat_marked : ∀ n, n < 128 → (UInt8.ofNat n ||| 128).toNat = n + 128 := by
  decide +kernel

theorem and_bits : ∀ n, n < 256 → (UInt8.ofNat n &&& 127).toNat = n % 128 ∧
    (UInt8.ofNat n &&& 128 ≠ 0 ↔ 128 ≤ n) := by
  decide +kernel

/-- `VarintEncode` writes the digits in base 128. -/
theorem map_encodeLoop (next : UInt64) (hne : next ≠ 0) :
    (encodeLoop next).map UInt8.toNat = Varint.encode 128 next.toNat := by
  have hmod : (next % 128).toUInt8 = UInt8.ofNat (next.toNat % 128) := by
    apply UInt8.toNat_inj.1
    rw [UInt64.toNat_toUInt8, UInt64.toNat_mod, UInt8.toNat_ofNat']
    rfl
  have hdiv : (next / 128).toNat = next.toNat / 128 := UInt64.toNat_div next 128
  have hzero : (0 : UInt64).toNat = 0 := rfl
  have hn : next.toNat ≠ 0 := fun h => hne (UInt64.toNat_inj.1 h)
  rw [encodeLoop]
  simp only [UInt64.lt_iff_toNat_lt, hdiv, hmod, hzero]
  split
  · rename_i hrest
    have hle : 128 ≤ next.toNat := by omega
    have ih := map_encodeLoop (next / 128) fun h => by
      rw [h] at hdiv
      omega
    rw [List.map_cons, ih, toNat_marked _ (by omega), hdiv, ← Varint.encode_of_le (by decide) hle]
  · rw [Varint.encode_of_lt hn (by omega), List.map_singleton, UInt8.toNat_ofNat']
    congr 1
    omega
termination_by next.toNat
decreasing_by
  rw [hdiv]
  omega

/-- `varint_length` counts them, as long as `next` is not negative. -/
theorem lengthLoop_eq (n : Nat) (hn : n ≠ 0) : lengthLoop n = (Varint.encode 128 n).length := by
  induction n using Nat.strongRecOn with
  | ind n ih =>
    have hdiv : (n : Int).tdiv 128 = ((n / 128 : Nat) : Int) := by
      rw [Int.tdiv_eq_ediv_of_nonneg (by omega)]
      rfl
    rw [lengthLoop, hdiv]
    split
    · rw [Varint.encode_of_le (by decide) (by omega), List.length_cons, ih _ (by omega) (by omega)]
    · rw [Varint.encode_of_lt hn (by omega)]
      rfl

/-- `VarientDecode` adds the digits up. -/
theorem decodeLoop_eq (i : List UInt8) (remain remainMulti : UInt64) :
    (decodeLoop i remain remainMulti).map (fun r => (r.1, r.2.map UInt8.toNat)) =
      (Varint.decode 128 (i.map UInt8.toNat)).map fun r =>
        (remain + UInt64.ofNat r.1 * remainMulti, r.2) := by
  induction i generalizing remain remainMulti with
  | nil => rfl
  | cons byte i ih =>
    obtain ⟨hlow, hmark⟩ := and_bits byte.toNat byte.toNat_lt
    rw [UInt8.ofNat_toNat] at hlow hmark
    have hfirst : (byte &&& 127).toUInt64 = UInt64.ofNat (byte.toNat % 128) := by
      rw [← hlow, UInt64.ofNat_uInt8ToNat]
    rw [List.map_cons, Varint.decode, decodeLoop]
    by_cases hlast : byte.toNat < 128
    · rw [if_neg (by rw [hmark]; omega), if_pos hlast, hfirst, Nat.mod_eq_of_lt hlast]
      rfl
    · rw [if_pos (hmark.2 (by omega)), if_neg hlast, ih, hfirst, Option.map_map]
      congr 1
      funext r
      have hbyte := byte.toNat_lt
      have hdigit : byte.toNat % 128 = byte.toNat - 128 := by omega
      simp only [Function.comp, hdigit, UInt64.ofNat_add, UInt64.ofNat_mul]
      congr 1
      grind

theorem map_varintEncode (value : UInt64) :
    (varintEncode value).map UInt8.toNat = Varint.encode 128 value.toNat := by
  rw [varintEncode]
  by_cases h : value ≠ 0
  · rw [if_pos h, map_encodeLoop value h]
  · rw [if_neg h, not_not.1 h]
    exact (Varint.encode_zero 128).symm

theorem length_varintEncode (value : UInt64) :
    (varintEncode value).length = (Varint.encode 128 value.toNat).length := by
  rw [← map_varintEncode, List.length_map]

/-- The announced length is the one written, for values that are positive as `int64_t`. -/
theorem varintLength_eq (number : UInt64) :
    varintLength number =
      if number.toNat < 2 ^ 63 then (varintEncode number).length else 1 := by
  rw [length_varintEncode]
  by_cases hlt : number.toNat < 2 ^ 63
  · rw [if_pos hlt, varintLength, asInt64, if_pos hlt]
    by_cases h0 : number.toNat = 0
    · rw [h0, Varint.encode_zero]
      rfl
    · rw [if_pos (by omega), lengthLoop_eq _ h0]
  · have hbound := number.toNat_lt
    have hneg : asInt64 number < 0 := by
      rw [asInt64, if_neg hlt]
      omega
    rw [if_neg hlt, varintLength, if_pos (by omega), lengthLoop, if_neg]
    intro hpos
    have := (tdiv_eq_of_pos hpos).2
    omega

/-- A value other than zero comes back, and what is behind it stays. -/
theorem varientDecode_append (value : UInt64) (h : value ≠ 0) (rest : List UInt8) :
    varientDecode (varintEncode value ++ rest) = some (value, rest) := by
  have hn : value.toNat ≠ 0 := fun e => h (UInt64.toNat_inj.1 e)
  have hdecode := decodeLoop_eq (varintEncode value ++ rest) 0 1
  rw [List.map_append, map_varintEncode, Varint.decode_encode (by decide) hn, Option.map_some,
    Option.map_eq_some_iff] at hdecode
  obtain ⟨⟨v, i⟩, hv, heq⟩ := hdecode
  obtain ⟨hvalue, hrest⟩ := Prod.mk.inj heq
  have hi : i = rest := List.map_injective_iff.2 (fun _ _ => UInt8.toNat_inj.1) hrest
  have hv' : v = value := by simpa using hvalue
  rw [varientDecode, hv, hi, hv']

theorem length_varintEncode_le (value : UInt64) : (varintEncode value).length ≤ 10 := by
  rw [length_varintEncode, Varint.encode, Varint.length_mark]
  have hbound := value.toNat_lt
  exact (Nat.digits_length_le_iff (by decide) _).2 (by omega)

/-- Without its sign bit the length of a large value is taken for one byte. -/
theorem varintLength_lt {value : UInt64} (h : 2 ^ 63 ≤ value.toNat) :
    varintLength value < (varintEncode value).length := by
  rw [varintLength_eq, if_neg (by omega), length_varintEncode, Varint.encode_of_le (by decide) (by omega),
    Varint.encode_of_le (by decide) (by omega)]
  simp

theorem varintLength_le (value : UInt64) : varintLength value ≤ (varintEncode value).length := by
  rcases Nat.lt_or_ge value.toNat (2 ^ 63) with h | h
  · rw [varintLength_eq, if_pos h]
  · exact Nat.le_of_lt (varintLength_lt h)

/-! ## Round trips -/

namespace Ns3QuicTag

/-- `Serialize` writes the announced number of bytes, and `Deserialize` reads exactly
these and gets the tag back. -/
structure RoundTrips (tag : Ns3QuicTag) : Prop where
  size : tag.serialize.length = tag.getSerializedSize
  restored : deserialize tag.serialize = some (tag, [])

theorem length_serialize (tag : Ns3QuicTag) :
    tag.serialize.length = (varintEncode tag.seq).length + (varintEncode tag.time).length :=
  List.length_append

theorem getSerializedSize_eq (tag : Ns3QuicTag) :
    tag.getSerializedSize = varintLength tag.seq + varintLength tag.time := by
  have h1 := varintLength_le tag.seq
  have h2 := varintLength_le tag.time
  have h3 := length_varintEncode_le tag.seq
  have h4 := length_varintEncode_le tag.time
  exact Nat.mod_eq_of_lt (by omega)

/-- The announced size is right unless one of the two values is negative as `int64_t`. -/
theorem size_iff (tag : Ns3QuicTag) : tag.serialize.length = tag.getSerializedSize ↔
    tag.seq.toNat < 2 ^ 63 ∧ tag.time.toNat < 2 ^ 63 := by
  rw [length_serialize, getSerializedSize_eq]
  constructor
  · intro h
    have hs := varintLength_le tag.seq
    have ht := varintLength_le tag.time
    refine ⟨?_, ?_⟩
    · by_contra hlt
      have := varintLength_lt (Nat.le_of_not_lt hlt)
      omega
    · by_contra hlt
      have := varintLength_lt (Nat.le_of_not_lt hlt)
      omega
  · rintro ⟨hs, ht⟩
    rw [varintLength_eq, varintLength_eq, if_pos hs, if_pos ht]

/-- What was written is read back unless one of the values is zero. -/
theorem restored_iff (tag : Ns3QuicTag) : deserialize tag.serialize = some (tag, []) ↔
    tag.seq ≠ 0 ∧ tag.time ≠ 0 := by
  obtain ⟨seq, time⟩ := tag
  have hempty : varientDecode [] = none := rfl
  rw [deserialize, serialize]
  by_cases hs : seq = 0
  · subst hs
    by_cases ht : time = 0
    · subst ht
      simp [varintEncode, hempty]
    · -- the time is taken for the sequence number, and nothing is left
      have htime := varientDecode_append time ht []
      rw [List.append_nil] at htime
      simp [show varintEncode 0 = [] from rfl, htime, hempty]
  · rw [varientDecode_append seq hs]
    by_cases ht : time = 0
    · subst ht
      simp [show varintEncode 0 = [] from rfl, hempty]
    · have htime := varientDecode_append time ht []
      rw [List.append_nil] at htime
      simp [htime, hs, ht]

/-- **Which tags survive the codec.** -/
theorem roundTrips_iff (tag : Ns3QuicTag) :
    tag.RoundTrips ↔ (0 < tag.seq.toNat ∧ tag.seq.toNat < 2 ^ 63) ∧
      0 < tag.time.toNat ∧ tag.time.toNat < 2 ^ 63 := by
  have hne : ∀ v : UInt64, v ≠ 0 ↔ 0 < v.toNat := by
    intro v
    rw [Nat.pos_iff_ne_zero, not_iff_not, ← UInt64.toNat_inj]
    rfl
  constructor
  · rintro ⟨hsize, hrestored⟩
    obtain ⟨hs, ht⟩ := tag.size_iff.1 hsize
    obtain ⟨hs0, ht0⟩ := tag.restored_iff.1 hrestored
    exact ⟨⟨(hne _).1 hs0, hs⟩, (hne _).1 ht0, ht⟩
  · rintro ⟨⟨hs0, hs⟩, ht0, ht⟩
    exact ⟨tag.size_iff.2 ⟨hs, ht⟩, tag.restored_iff.2 ⟨(hne _).2 hs0, (hne _).2 ht0⟩⟩

/-- The tag that the default constructor makes: nothing is written, and reading it goes on
behind the end of the buffer. -/
theorem roundTrips_default : ¬ RoundTrips { seq := 0, time := 0 } := by
  rintro ⟨-, hrestored⟩
  exact (({ seq := 0, time := 0 } : Ns3QuicTag).restored_iff.1 hrestored).1 rfl

end Ns3QuicTag

end InNetworkAgg
