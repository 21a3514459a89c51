import InNetworkAgg.Stops

/-!
# The 8-bit loops over the chunks (`SimpleMPI::AvgEnd`, `WriteChunk2Vec`)

Both functions go over `range size` chunks, the number of chunks of the vector
as a `uint8_t`.  It is the real number up to 255 chunks, that is up to 25500
elements; beyond, some chunks of the vector are not looked at:

    AvgEnd is exact for `size` and `cs`  ↔  size ≤ 25500 ∧ cs.length ≤ 255      (avgEnd_exact_iff)
    WriteChunk2Vec is exact for `size`   ↔  k ∣ size ∧ size ≤ 25500       (writeChunk2Vec_exact_iff)

The second one also needs whole chunks: all `k` elements of the last one are
stored, however short the vector is.
-/

namespace InNetworkAgg.SimpleMPI

/-! ## The chunks that are looked at -/

/-- Above 255 chunks the first chunk behind the range is still one of the vector. -/
theorem range_mul_lt {size : Nat} (h : 25500 < size) : range size * k < size := by
  have hk : k = 100 := rfl
  have hcount : 255 < chunkCount size := (lt_chunkCount 255 size).2 (by omega)
  rw [← lt_chunkCount, range]
  have := Nat.mod_lt (chunkCount size) (show 0 < 256 by decide)
  omega

theorem mul_lt_of_lt_range {size i : Nat} (h : i < range size) : i * k < size :=
  (lt_chunkCount i size).1 (Nat.lt_of_lt_of_le h (Nat.mod_le _ _))

/-! ## `AvgEnd` -/

/-- Every `count` is a `uint8_t`. -/
def CountsFit (s : SimpleMPI) : Prop := ∀ o c, s.chunkMap o = some c → c.count < 256

/-- `AvgEnd` sets `asEnd` and counts the iteration before it calls `AVG`. -/
def TreatsComplete (past : UInt64) (s : SimpleMPI) (size : Nat) : Prop :=
  s.avgEnd past size = doAVG past { s with asEnd := true, curIter := (s.curIter + 1) % 65536 }

/-- Every chunk of a vector of that size has been received from the whole group. -/
def AllCounted (s : SimpleMPI) (size : Nat) : Prop :=
  ∀ o < size, k ∣ o → ∃ c, s.chunkMap o = some c ∧ c.count = s.cGroup.length

theorem treatsComplete_iff (past : UInt64) (s : SimpleMPI) (size : Nat) :
    TreatsComplete past s size ↔ s.roundComplete size = true := by
  constructor
  · intro h
    by_contra hres
    rw [TreatsComplete, avgEnd_open past s size (Bool.not_eq_true _ ▸ hres)] at h
    -- `AVG` leaves `curIter`, so it was not counted up
    have hiter : s.curIter = (s.curIter + 1) % 65536 := (doAVG_inv h.symm).2.2.1
    omega
  · intro h
    simp only [TreatsComplete, avgEnd, h, if_true]

/-- What `roundComplete` looks at. -/
theorem roundComplete_iff_counts (s : SimpleMPI) (size : Nat) :
    s.roundComplete size = true ↔ ∀ i < range size, ∃ c,
      s.chunkMap (i * k) = some c ∧ c.count = s.cGroup.length % 256 := by
  simp only [roundComplete, List.all_eq_true, List.mem_range]
  refine forall₂_congr fun i _ => ?_
  cases s.chunkMap (i * k) with
  | none => simp
  | some c => simp

/-- Up to 255 chunks and 255 children the test is the one that is meant. -/
theorem treatsComplete_of_le (past : UInt64) (s : SimpleMPI) {size : Nat} (hsize : size ≤ 25500)
    (hgroup : s.cGroup.length ≤ 255) : TreatsComplete past s size ↔ AllCounted s size := by
  rw [treatsComplete_iff, roundComplete_iff_counts, range_eq hsize, Nat.mod_eq_of_lt (by omega)]
  constructor
  · rintro h o ho ⟨i, rfl⟩
    rw [Nat.mul_comm] at ho ⊢
    exact h i ((lt_chunkCount i size).2 ho)
  · intro h i hi
    exact h (i * k) ((lt_chunkCount i size).1 hi) (Nat.dvd_mul_left k i)

/-- A node whose first `r` chunks count the group as a `uint8_t`, and no others. -/
def countedUpTo (cs : List Address) (r : Nat) : SimpleMPI :=
  { SimpleMPI.fresh 0 with
    cGroup := cs
    chunkMap := fun o => if o < r * k then some { count := cs.length % 256, data := zeros k } else none }

theorem countedUpTo_complete (past : UInt64) (cs : List Address) (size : Nat) :
    TreatsComplete past (countedUpTo cs (range size)) size := by
  rw [treatsComplete_iff, roundComplete_iff_counts]
  intro i hi
  have hk : k = 100 := rfl
  exact ⟨_, if_pos (by rw [hk]; omega), rfl⟩

theorem countedUpTo_countsFit (cs : List Address) (r : Nat) : CountsFit (countedUpTo cs r) := by
  intro o c hc
  obtain ⟨-, hc⟩ := Option.ite_none_right_eq_some.1 hc
  cases hc
  exact Nat.mod_lt _ (by decide)

/-- **When `AvgEnd` is right about the round.** -/
theorem avgEnd_exact_iff (past : UInt64) (size : Nat) (hpos : 1 ≤ size)
    (cs : List Address) :
    (∀ s : SimpleMPI, s.cGroup = cs → CountsFit s → (TreatsComplete past s size ↔ AllCounted s size)) ↔
      size ≤ 25500 ∧ cs.length ≤ 255 := by
  constructor
  · intro h
    have hall := (h _ rfl (countedUpTo_countsFit cs (range size))).1
      (countedUpTo_complete past cs size)
    refine ⟨?_, ?_⟩
    · -- the first chunk behind the range has no entry
      by_contra hlt
      obtain ⟨c, hc, -⟩ := hall (range size * k) (range_mul_lt (by omega)) (Nat.dvd_mul_left k _)
      obtain ⟨hin, -⟩ := Option.ite_none_right_eq_some.1 hc
      omega
    · -- a `uint8_t` never counts 256 children
      by_contra hlt
      obtain ⟨c, hc, hcount⟩ := hall 0 hpos (Nat.dvd_zero k)
      have := countedUpTo_countsFit cs (range size) 0 c hc
      have hgroup : (countedUpTo cs (range size)).cGroup = cs := rfl
      rw [hgroup] at hcount
      omega
  · rintro ⟨hle, hgroup⟩ s rfl -
    exact treatsComplete_of_le past s hle hgroup

theorem avgEnd_exact_iff_thousand :
    (∀ s : SimpleMPI, s.cGroup = [1, 2] → CountsFit s →
      (TreatsComplete 0 s 1000 ↔ AllCounted s 1000)) ↔ 1000 ≤ 25500 ∧ [1, 2].length ≤ 255 :=
  avgEnd_exact_iff 0 1000 (by decide) [1, 2]

/-- A vector of 256 chunks: the round is complete before the first response. -/
theorem avgEnd_empty : ¬ ∀ s : SimpleMPI, s.cGroup = [1] → CountsFit s →
    (TreatsComplete 0 s 25600 ↔ AllCounted s 25600) := by
  intro h
  have hcomplete : TreatsComplete 0 (countedUpTo [1] 0) 25600 := countedUpTo_complete 0 [1] 25600
  obtain ⟨c, hc, -⟩ := (h _ rfl (countedUpTo_countsFit [1] 0)).1 hcomplete 0 (by decide) (Nat.dvd_zero k)
  cases hc

/-! ## `WriteChunk2Vec` -/

/-- Every chunk of a vector of that size has an entry, with `k` elements. -/
def HasChunks (s : SimpleMPI) (size : Nat) : Prop :=
  ∀ o < size, k ∣ o → ∃ c, s.chunkMap o = some c ∧ c.data.length = k

/-- `WriteChunk2Vec` stores inside the vector, and all of it. -/
structure WritesVec (s : SimpleMPI) (size : Nat) : Prop where
  inside : ∀ st ∈ s.chunkStores size, st.1 < size
  written : ∀ i < size,
    (s.writeChunk2Vec size).avg[i]? = (s.chunk (i / k * k)).data[i % k]?

theorem HasChunks.length_data {s : SimpleMPI} {size i : Nat} (h : HasChunks s size)
    (hi : i * k < size) : (s.chunk (i * k)).data.length = k := by
  obtain ⟨c, hc, hlen⟩ := h (i * k) hi (Nat.dvd_mul_left k i)
  rw [chunk, hc]
  exact hlen

/-- An index that is stored to lies in one of the chunks of the range. -/
theorem mem_chunkStores {s : SimpleMPI} {size : Nat} (h : HasChunks s size) {i : Nat}
    (hi : i < range size) (j : Nat) (hj : j < k) : ∃ x, (i * k + j, x) ∈ s.chunkStores size := by
  have hlen := h.length_data (mul_lt_of_lt_range hi)
  refine ⟨(s.chunk (i * k)).data[j], List.mem_flatMap.2 ⟨i, List.mem_range.2 hi, ?_⟩⟩
  rw [List.mem_mapIdx]
  exact ⟨j, by omega, rfl⟩

/-- Chunk by chunk: what is in the vector afterwards. -/
theorem getElem?_writeChunk2Vec {s : SimpleMPI} {size : Nat} (h : HasChunks s size) (i : Nat) :
    (s.writeChunk2Vec size).avg[i]? =
      if i < range size * k ∧ i < s.avg.length then (s.chunk (i / k * k)).data[i % k]?
      else s.avg[i]? :=
  foldl_set_chunks s (range size) (fun _ hi => h.length_data (mul_lt_of_lt_range hi)) s.avg i

theorem writesVec_of_le {s : SimpleMPI} {size : Nat} (hdvd : k ∣ size) (hle : size ≤ 25500)
    (havg : s.avg.length = size) (h : HasChunks s size) : WritesVec s size := by
  have hk : k = 100 := rfl
  obtain ⟨m, rfl⟩ := hdvd
  have hrange : range (k * m) = m := by rw [range_eq hle, Nat.mul_comm, chunkCount_mul]
  refine ⟨?_, ?_⟩
  · intro st hst
    obtain ⟨i, hi, hst⟩ := List.mem_flatMap.1 hst
    rw [hrange, List.mem_range] at hi
    obtain ⟨j, hj, rfl⟩ := List.mem_mapIdx.1 hst
    have hlen := h.length_data (i := i) (by rw [hk] at *; omega)
    show i * k + j < k * m
    rw [hk] at *
    omega
  · intro i hi
    rw [getElem?_writeChunk2Vec h, hrange, havg, if_pos ⟨by rw [Nat.mul_comm]; exact hi, hi⟩]

/-- A node with zeros for a vector and a chunk of ones at every offset. -/
def onesNode (size : Nat) : SimpleMPI :=
  { SimpleMPI.fresh size with
    avg := zeros size
    chunkMap := fun _ => some { count := 0, data := List.replicate k 1 } }

/-- **When `WriteChunk2Vec` writes the vector.** -/
theorem writeChunk2Vec_exact_iff (size : Nat) (hpos : 1 ≤ size) (hmain : size < k ∨ k ∣ size) :
    (∀ s : SimpleMPI, s.avg.length = size → HasChunks s size → WritesVec s size) ↔
      k ∣ size ∧ size ≤ 25500 := by
  have hk : k = 100 := rfl
  constructor
  · intro h
    have hchunks : HasChunks (onesNode size) size := fun o _ _ => ⟨_, rfl, List.length_replicate⟩
    have hw := h (onesNode size) (length_zeros size) hchunks
    have hdvd : k ∣ size := by
      refine hmain.resolve_left fun hlt => ?_
      -- the one chunk is stored whole
      have hrange : range size = 1 := by
        have h1 := (lt_chunkCount 0 size).2 (by omega)
        have h2 := mt (lt_chunkCount 1 size).1 (by omega)
        rw [range_eq (by omega)]
        omega
      obtain ⟨x, hx⟩ := mem_chunkStores hchunks (i := 0) (by omega) (k - 1) (by decide)
      have := hw.inside _ hx
      dsimp only at this
      omega
    refine ⟨hdvd, ?_⟩
    by_contra hlt
    -- the first element behind the range keeps its zero
    have hin : range size * k < size := range_mul_lt (by omega)
    have hwritten := hw.written _ hin
    rw [getElem?_writeChunk2Vec hchunks, if_neg (by omega)] at hwritten
    have hzero : (onesNode size).avg[range size * k]? = some 0 := by
      show (zeros size)[range size * k]? = some 0
      rw [zeros, List.getElem?_replicate, if_pos hin]
    have hone : ((onesNode size).chunk (range size * k / k * k)).data[range size * k % k]? = some 1 := by
      show (List.replicate k (1 : UInt64))[range size * k % k]? = some 1
      rw [List.getElem?_replicate, if_pos (Nat.mod_lt _ (by decide))]
    rw [hzero, hone] at hwritten
    exact absurd hwritten (by decide)
  · rintro ⟨hdvd, hle⟩ s havg h
    exact writesVec_of_le hdvd hle havg h

theorem writeChunk2Vec_exact_iff_thousand :
    (∀ s : SimpleMPI, s.avg.length = 1000 → HasChunks s 1000 → WritesVec s 1000) ↔
      k ∣ 1000 ∧ 1000 ≤ 25500 :=
  writeChunk2Vec_exact_iff 1000 (by decide) (Or.inr (by decide))

/-- A vector of 50 elements: its chunk is stored up to index 99. -/
theorem writeChunk2Vec_overruns :
    ¬ ∀ s : SimpleMPI, s.avg.length = 50 → HasChunks s 50 → WritesVec s 50 := by
  intro h
  have hchunks : HasChunks (onesNode 50) 50 := fun o _ _ => ⟨_, rfl, List.length_replicate⟩
  obtain ⟨x, hx⟩ := mem_chunkStores hchunks (i := 0) (by decide) 99 (by decide)
  have hlt : 0 * k + 99 < 50 := (h _ (length_zeros 50) hchunks).inside _ hx
  omega

end InNetworkAgg.SimpleMPI
