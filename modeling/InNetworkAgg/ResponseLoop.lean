import InNetworkAgg.Handlers

/-!
# The loop of `SendResponseVTo`

The position is a `uint16_t` stepped by `k`.  Up to 65500 elements it passes the
end before it wraps, and each chunk is sent once; beyond, the second lap starts
at 64, and from 65533 elements on no position is ever past the end:

    SendsEachChunk past toStr vec            ↔  vec.length ≤ 65500      (sendsEachChunk_iff)
    sendResponseVTo past toStr vec  ends     ↔  vec.length % 65536 ≤ 65532   (isSome_sendResponseVTo_iff)
-/

namespace InNetworkAgg

open SimpleMPI

/-- The offset word of a packet. -/
def offsetOf (packet : List UInt8) : Option Nat := (praseHeader packet).map (·.offset)

/-- The loop ends after `⌈n / k⌉` passes, and the packets carry the offsets of the
chunks, in order and inside the vector. -/
structure SendsEachChunk (past : UInt64) (toStr : Address) (vec : List UInt64) : Prop where
  ends : ∃ packets : List (List UInt8),
    sendResponseVTo past toStr vec = some (packets.map (.send toStr)) ∧
    packets.length = (vec.length + k - 1) / k ∧
    packets.map offsetOf = (List.range packets.length).map fun i => some (i * k)
  inside : ∀ i < (vec.length + k - 1) / k, i * k < vec.length

theorem chunkCount_eq_ceil (n : Nat) : chunkCount n = (n + k - 1) / k := by
  have hk : k = 100 := rfl
  rw [chunkCount_eq, hk]
  split <;> omega

theorem offsetOf_responseMessage (past : UInt64) (vec : List UInt64) (pos : Nat)
    (hpos : pos < vec.length % 65536) : offsetOf (responseMessage past vec pos) = some pos := by
  have hmod := Nat.mod_lt vec.length (show 0 < 65536 by decide)
  exact offset_chunkMessage pos _ (by omega) (length_responseElements_le past vec pos hpos)

/-- The loop ends when some multiple of `k` is past the end modulo `2 ^ 16`; all of
these are multiples of 4, and 65532 is one of them. -/
theorem isSome_sendResponseVTo_iff (past : UInt64) (toStr : Address) (vec : List UInt64) :
    (sendResponseVTo past toStr vec).isSome = true ↔ vec.length % 65536 ≤ 65532 := by
  have hk : k = 100 := rfl
  rw [sendResponseVTo_eq_passes, Option.isSome_map, Counter.isSome_passes_iff _ _ _ (by decide), hk]
  constructor
  · rintro ⟨i, hi⟩
    omega
  · intro h
    exact ⟨9175, h⟩

/-- Above 65500 elements there is a pass too many. -/
theorem not_sendsEachChunk (past : UInt64) (toStr : Address) (vec : List UInt64)
    (hlong : 65500 < vec.length) (hn : vec.length ≤ 65535) : ¬ SendsEachChunk past toStr vec := by
  rintro ⟨⟨packets, hsend, hlen, -⟩, -⟩
  have hk : k = 100 := rfl
  have hmod : vec.length % 65536 = vec.length := Nat.mod_eq_of_lt (by omega)
  rw [sendResponseVTo_eq_passes, Option.map_eq_some_iff, hmod] at hsend
  obtain ⟨positions, hpasses, hpackets⟩ := hsend
  have hsame := congrArg List.length hpackets
  rw [List.length_map, List.length_map, hlen] at hsame
  -- pass 656 is at position 64
  have h656 := Counter.getElem?_values 65536 k vec.length 656 65536 (by decide) 0 (by decide) (by
    intro j hj
    rw [hk]
    rcases Nat.lt_or_ge j 656 with h | h
    · rw [Nat.mod_eq_of_lt (by omega)]
      omega
    · obtain rfl : j = 656 := by omega
      omega)
  obtain ⟨h656, -⟩ := List.getElem?_eq_some_iff.1 h656
  simp only [Counter.passes] at hpasses
  split at hpasses
  · rw [Option.some.inj hpasses] at h656
    rw [hk] at hsame
    omega
  · cases hpasses

/-- **Which vectors `SendResponseVTo` sends chunk by chunk.** -/
theorem sendsEachChunk_iff (past : UInt64) (toStr : Address) (vec : List UInt64)
    (hn : vec.length ≤ 65535) : SendsEachChunk past toStr vec ↔ vec.length ≤ 65500 := by
  constructor
  · intro h
    by_contra hlong
    exact not_sendsEachChunk past toStr vec (by omega) hn h
  · intro hle
    refine ⟨⟨(List.range (chunkCount vec.length)).map fun i => responseMessage past vec (i * k),
      ?_, ?_, ?_⟩, ?_⟩
    · rw [sendResponseVTo_eq past toStr vec hle, List.map_map]
      rfl
    · rw [List.length_map, List.length_range, chunkCount_eq_ceil]
    · rw [List.map_map, List.length_map, List.length_range]
      apply List.map_congr_left
      intro i hi
      have hin := (lt_chunkCount i _).1 (List.mem_range.1 hi)
      exact offsetOf_responseMessage past vec _ (by rwa [Nat.mod_eq_of_lt (by omega)])
    · intro i hi
      rw [← chunkCount_eq_ceil] at hi
      exact (lt_chunkCount i _).1 hi

theorem sendsEachChunk_iff_two : SendsEachChunk 0 1 (zeros 200) ↔ (zeros 200).length ≤ 65500 :=
  sendsEachChunk_iff 0 1 (zeros 200) (by rw [length_zeros]; decide)

/-- The shortest vector that makes the position wrap. -/
theorem sendsEachChunk_wraps : (zeros 65501).length ≤ 65535 ∧ ¬ SendsEachChunk 0 1 (zeros 65501) :=
  ⟨by rw [length_zeros]; decide,
    not_sendsEachChunk 0 1 _ (by rw [length_zeros]; decide) (by rw [length_zeros]; decide)⟩

end InNetworkAgg
