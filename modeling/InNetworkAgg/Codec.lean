import InNetworkAgg.Handlers

/-!
# What the parsers read of the encoders' messages (innetwork-train/utils/utils.cc)

A message read back with any bytes behind it gives the header it was built with
(`headers_readBack`).  The elements come back as they should only from a full
chunk: `end` is the last index in one branch of `CreatResponseV` and one past it
in the other, so a short chunk carries one element from behind the vector.

    ReadsBack (createRequestV key size) tail key 0 …, ReadsBack (creatResponseV …) tail key offset …
    ChunkExact past key tail vec offset  ↔  offset + k ≤ vec.length          (chunkExact_iff)
-/

namespace InNetworkAgg

open LittleEndian

/-- The chunk of the vector at an offset: up to `k` elements, as many as there are. -/
def chunkOf (vec : List UInt64) (offset : Nat) : List UInt64 := (vec.drop offset).take k

/-! ## Headers -/

/-- `PraseHeader` on a message (its bytes and the size the encoder returned) finds the
key, the number of bytes written, the offset and the payload, whatever is behind. -/
structure ReadsBack (message : List UInt8 × Nat) (tail : List UInt8) (key : Key) (offset : Nat)
    (payload : List UInt8) (h : Header) : Prop where
  parsed : praseHeader (message.1 ++ tail) = some h
  size : message.2 = message.1.length
  key : h.key = key
  dataLen : h.dataLen = message.1.length
  offset : h.offset = offset
  cursor : message.1.drop h.cursor = payload

theorem readsBack_messageOf (key : Key) (offset : Nat) (value tail : List UInt8)
    (hkey : colon ∉ key) (hlen : key.length + 5 + value.length ≤ 65535) (hoff : offset < 65536) :
    ReadsBack (messageOf key offset value, key.length + 5 + value.length) tail key offset value
      { key := key, dataLen := key.length + 5 + value.length, offset := offset
        cursor := key.length + 5 } where
  parsed := praseHeader_messageOf key offset value tail hkey (by omega) hoff
  size := (length_messageOf key offset value).symm
  key := rfl
  dataLen := (length_messageOf key offset value).symm
  offset := rfl
  cursor := by simpa using drop_messageOf key offset value []

theorem length_createRequestV (key : Key) (size : Nat) :
    (createRequestV key size).1.length = key.length + 7 := by
  simp [createRequestV]
  omega

theorem length_creatResponseV (past : UInt64) (key : Key) (vec : List UInt64) (offset : Nat) :
    (creatResponseV past key vec offset).1.length =
      key.length + 5 + 8 * (responseElements past vec offset).length := by
  simp [creatResponseV]
  omega

/-- A full chunk, counted with the size of the vector as a `uint16_t`. -/
theorem creatResponseV_full (past : UInt64) (key : Key) (vec : List UInt64) (offset : Nat)
    (h : offset + k ≤ vec.length % 65536)
    (hlen : (creatResponseV past key vec offset).1.length ≤ 65535) :
    creatResponseV past key vec offset =
      (messageOf key offset (elementBytes (chunkOf vec offset)),
        key.length + 5 + (elementBytes (chunkOf vec offset)).length) := by
  have hcount := responseCount_full _ offset h (Nat.mod_lt _ (by decide))
  rw [length_creatResponseV] at hlen
  rw [creatResponseV_eq past key vec offset (by rw [hcount]; exact Int.natCast_nonneg k) (by omega),
    responseElements_full past vec offset h, length_elementBytes, chunkOf]

/-- **Headers are read back** from every request, and from every response with a full
chunk. -/
theorem headers_readBack (key : Key) (hkey : colon ∉ key) (tail : List UInt8) :
    (∀ size, size < 65536 → (createRequestV key size).1.length ≤ 65535 →
      ∃ h, ReadsBack (createRequestV key size) tail key 0 (leBytes 2 size) h ∧
        praseInt16 (((createRequestV key size).1 ++ tail).drop h.cursor) = some size) ∧
    ∀ past vec offset, offset + k ≤ vec.length % 65536 →
      (creatResponseV past key vec offset).1.length ≤ 65535 →
      ∃ h, ReadsBack (creatResponseV past key vec offset) tail key offset
        (elementBytes (chunkOf vec offset)) h := by
  refine ⟨fun size hsize hlen => ?_, fun past vec offset hoff hlen => ?_⟩
  · rw [length_createRequestV] at hlen
    have hback := readsBack_messageOf key 0 (leBytes 2 size) tail hkey (by simpa using hlen)
      (by decide)
    rw [createRequestV_eq key size (by omega)]
    rw [length_leBytes] at hback
    refine ⟨_, hback, ?_⟩
    dsimp only
    rw [drop_messageOf]
    exact praseInt16_leBytes size hsize tail
  · have hfull := creatResponseV_full past key vec offset hoff hlen
    rw [hfull] at hlen ⊢
    rw [length_messageOf] at hlen
    have := Nat.mod_lt vec.length (show 0 < 65536 by decide)
    exact ⟨_, readsBack_messageOf key offset _ tail hkey hlen (by omega)⟩

theorem headers_readBack_both :
    (∃ h, ReadsBack (createRequestV (commands .REQUESTV) 1000) [colon] (commands .REQUESTV) 0
      (leBytes 2 1000) h ∧
      praseInt16 (((createRequestV (commands .REQUESTV) 1000).1 ++ [colon]).drop h.cursor) =
        some 1000) ∧
    ∃ h, ReadsBack (creatResponseV 0 (commands .RESPONSEV) (zeros 200) 100) [colon]
      (commands .RESPONSEV) 100 (elementBytes (chunkOf (zeros 200) 100)) h := by
  have hlen : (creatResponseV 0 (commands .RESPONSEV) (zeros 200) 100).1.length ≤ 65535 := by
    rw [length_creatResponseV, length_responseElements, length_zeros]
    decide
  exact ⟨(headers_readBack _ (colon_not_mem_commands .REQUESTV) [colon]).1 1000 (by decide)
      (by rw [length_createRequestV]; decide),
    (headers_readBack _ (colon_not_mem_commands .RESPONSEV) [colon]).2 0 (zeros 200) 100
      (by rw [length_zeros]; decide) hlen⟩

/-- A vector of 65536 elements has the size 0 as a `uint16_t`: at offset 100 nothing is
written after the header, and its length word says 64758. -/
theorem creatResponseV_long :
    100 + k ≤ (zeros 65536).length ∧
    (creatResponseV 0 (commands .RESPONSEV) (zeros 65536) 100).1.length ≤ 65535 ∧
    ¬ ∃ h, ReadsBack (creatResponseV 0 (commands .RESPONSEV) (zeros 65536) 100) []
      (commands .RESPONSEV) 100 (elementBytes (chunkOf (zeros 65536) 100)) h := by
  have hmessage : (creatResponseV 0 (commands .RESPONSEV) (zeros 65536) 100).1 =
      leBytes 2 64758 ++ (commands .RESPONSEV ++ [colon] ++ leBytes 2 100) := by
    have hreads : responseReads 0 100 = [] := by decide
    have hsize : (zeros 65536).length % 65536 = 0 := by rw [length_zeros]
    simp only [creatResponseV, responseElements, hsize, hreads]
    decide
  refine ⟨by rw [length_zeros]; decide, by rw [hmessage]; decide, ?_⟩
  rintro ⟨h, hback⟩
  have hparsed := hback.parsed
  have hdataLen := hback.dataLen
  rw [hmessage] at hparsed hdataLen
  have hheader : praseHeader (leBytes 2 64758 ++ (commands .RESPONSEV ++ [colon] ++ leBytes 2 100) ++ []) =
      some { key := commands .RESPONSEV, dataLen := 64758, offset := 100, cursor := 14 } := by
    decide
  rw [hheader] at hparsed
  cases hparsed
  exact absurd hdataLen (by decide)

/-! ## Chunks -/

/-- The chunk is encoded as it is, and the parsers give it back: `PraseVector` replaces
as many elements as the chunk has, in any vector `HandleResponseV` may pass. -/
structure ChunkExact (past : UInt64) (key : Key) (tail : List UInt8) (vec : List UInt64)
    (offset : Nat) : Prop where
  reads : ∀ i ∈ responseReads (vec.length % 65536) offset, i < vec.length
  encodes : responseElements past vec offset = chunkOf vec offset
  decodes : ∃ h, praseHeader ((creatResponseV past key vec offset).1 ++ tail) = some h ∧
    h.key = key ∧ h.offset = offset ∧
    ∀ dst : List UInt64, dst.length = k →
      praseVector (((creatResponseV past key vec offset).1 ++ tail).drop h.cursor)
          ((h.dataLen + 65536 - h.cursor) % 65536) dst =
        some (chunkOf vec offset ++ dst.drop (chunkOf vec offset).length)

/-- Reading back what was encoded, from the cursor on. -/
theorem praseVector_messageOf (key : Key) (offset : Nat) (xs : List UInt64) (tail : List UInt8)
    (dst : List UInt64) (hxs : xs.length ≤ k) (hdst : dst.length = k)
    (hlen : key.length + 5 + 8 * xs.length ≤ 65535) :
    praseVector ((messageOf key offset (elementBytes xs) ++ tail).drop (key.length + 5))
        ((key.length + 5 + (elementBytes xs).length + 65536 - (key.length + 5)) % 65536) dst =
      some (xs ++ dst.drop xs.length) := by
  have hk : k = 100 := rfl
  have hsize : (key.length + 5 + (elementBytes xs).length + 65536 - (key.length + 5)) % 65536 =
      8 * xs.length := by
    rw [length_elementBytes]
    omega
  rw [drop_messageOf, hsize]
  exact praseVector_elementBytes xs tail dst (by omega) (by omega)

/-- **Which chunks survive the codec**: the full ones. -/
theorem chunkExact_iff (past : UInt64) (key : Key) (hkey : colon ∉ key)
    (hlen : key.length + 5 + 8 * k ≤ 65535) (tail : List UInt8) (vec : List UInt64)
    (hvec : vec.length ≤ 65535) (offset : Nat) (hoff : offset < vec.length) :
    ChunkExact past key tail vec offset ↔ offset + k ≤ vec.length := by
  have hk : k = 100 := rfl
  have hmod : vec.length % 65536 = vec.length := Nat.mod_eq_of_lt (by omega)
  constructor
  · intro h
    by_contra hshort
    -- the last element read is the one behind the vector
    have hmem : vec.length ∈ responseReads (vec.length % 65536) offset := by
      rw [hmod, responseReads, responseCount_short _ _ (by omega)]
      exact List.mem_map.2 ⟨vec.length - offset, List.mem_range.2 (by omega), by omega⟩
    exact Nat.lt_irrefl _ (h.reads _ hmem)
  · intro hfull
    have helements : responseElements past vec offset = chunkOf vec offset :=
      responseElements_full past vec offset (by rw [hmod]; exact hfull)
    have hchunk : (chunkOf vec offset).length = k := by
      rw [chunkOf, List.length_take, List.length_drop]
      omega
    have hmessage := creatResponseV_full past key vec offset (by rw [hmod]; exact hfull)
      (by rw [length_creatResponseV, helements, hchunk]; exact hlen)
    refine ⟨?_, helements, ?_⟩
    · intro i hi
      rw [hmod, responseReads, responseCount_full _ _ hfull (by omega)] at hi
      obtain ⟨j, hj, rfl⟩ := List.mem_map.1 hi
      have := List.mem_range.1 hj
      omega
    · rw [hmessage]
      refine ⟨_, praseHeader_messageOf key offset _ tail hkey
        (by rw [length_elementBytes, hchunk]; omega) (by omega), rfl, rfl, ?_⟩
      intro dst hdst
      exact praseVector_messageOf key offset _ tail dst (by rw [hchunk]) hdst
        (by rw [hchunk]; exact hlen)

theorem chunkExact_iff_second : ChunkExact 0 (commands .RESPONSEV) [] (zeros 200) 100 ↔
    100 + k ≤ (zeros 200).length :=
  chunkExact_iff 0 _ (colon_not_mem_commands .RESPONSEV) (by decide) [] (zeros 200)
    (by rw [length_zeros]; decide) 100 (by rw [length_zeros]; decide)

/-- A vector of 50 elements is read up to index 50. -/
theorem chunkExact_short : ¬ ChunkExact 0 (commands .RESPONSEV) [] (zeros 50) 0 := by
  intro h
  have hlen : (zeros 50).length = 50 := length_zeros 50
  have hmem : 50 ∈ responseReads ((zeros 50).length % 65536) 0 := by
    rw [hlen]
    decide
  have := h.reads 50 hmem
  omega

end InNetworkAgg
