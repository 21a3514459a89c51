import InNetworkAgg.Utils

/-!
# Vector operations (innetwork-train/utils/vectorop.cc)

Elements are `uint64_t`, so sums wrap and quotients truncate.  On the `k`-element
chunks they are used with, the 8-bit loop indices cover every element:

    (sumVector sum v w)[i] = v[i] + w[i],   (avgVector sum n)[i] = sum[i] / n
-/

namespace InNetworkAgg

/-- `sum[i] = vec1[i] + vec2[i]` for the indices below `uint8_t(sum.size())`. -/
def sumVector (sum vec1 vec2 : List UInt64) : List UInt64 :=
  sum.mapIdx fun i x => if i < sum.length % 256 then vec1.getD i 0 + vec2.getD i 0 else x

/-- `sum[i] /= count`.  The index is a `uint8_t`: it never reaches a size of 256
or more; a division by zero has no result either. -/
def avgVector (sum : List UInt64) (count : Nat) : Option (List UInt64) :=
  if sum.length < 256 ∧ count ≠ 0 then some (sum.map (· / UInt64.ofNat count)) else none

/-- Element `i` of a random vector: two draws of `rand()`, each below `2 ^ 31`. -/
def randomElement (draw : Nat → Nat) (i : Nat) : UInt64 :=
  UInt64.ofNat (draw (2 * i)) <<< 32 ||| UInt64.ofNat (draw (2 * i + 1))

/-- `GenetrateRandomVector`: `rand seed j` is draw `j` after `srand(seed)`, the
seed being `time + rank` as an `unsigned`. -/
def genetrateRandomVector (rand : Nat → Nat → Nat) (time size rank : Nat) : List UInt64 :=
  (List.range size).map (randomElement (rand ((time + rank) % 2 ^ 32)))

/-- `DeepVectorCopy` appends as many elements as a `uint16_t` counts. -/
def deepVectorCopy {α : Type} (vec1 vec2 : List α) : List α :=
  vec1 ++ vec2.take (vec2.length % 65536)

/-- A vector of `n` zeros. -/
def zeros (n : Nat) : List UInt64 := List.replicate n 0

@[simp] theorem length_zeros (n : Nat) : (zeros n).length = n := by simp [zeros]

theorem drop_zeros (n i : Nat) : (zeros n).drop i = zeros (n - i) := List.drop_replicate

@[simp] theorem length_sumVector (sum v w : List UInt64) :
    (sumVector sum v w).length = sum.length := by
  simp [sumVector]

@[simp] theorem length_genetrateRandomVector (rand : Nat → Nat → Nat) (time size rank : Nat) :
    (genetrateRandomVector rand time size rank).length = size := by
  simp [genetrateRandomVector]

theorem getElem_sumVector (sum v w : List UInt64) (hlen : sum.length < 256) (i : Nat)
    (h : i < (sumVector sum v w).length) :
    (sumVector sum v w)[i] = v.getD i 0 + w.getD i 0 := by
  have hi : i < sum.length := by simpa using h
  simp only [sumVector, List.getElem_mapIdx]
  rw [if_pos (by rw [Nat.mod_eq_of_lt hlen]; exact hi)]

theorem avgVector_eq (sum : List UInt64) (count : Nat) (hlen : sum.length < 256)
    (hc : count ≠ 0) : avgVector sum count = some (sum.map (· / UInt64.ofNat count)) := by
  rw [avgVector, if_pos ⟨hlen, hc⟩]

theorem deepVectorCopy_nil {α : Type} (vec : List α) (h : vec.length < 65536) :
    deepVectorCopy [] vec = vec := by
  rw [deepVectorCopy, Nat.mod_eq_of_lt h, List.nil_append, List.take_of_length_le (Nat.le_refl _)]

/-- Two draws below `2 ^ 31` make an element below `2 ^ 63`. -/
theorem randomElement_toNat (draw : Nat → Nat) (hdraw : ∀ j, draw j < 2 ^ 31) (i : Nat) :
    (randomElement draw i).toNat = draw (2 * i) * 2 ^ 32 + draw (2 * i + 1) := by
  have h1 := hdraw (2 * i)
  have h2 := hdraw (2 * i + 1)
  have e1 : (UInt64.ofNat (draw (2 * i))).toNat = draw (2 * i) := by
    rw [UInt64.toNat_ofNat']
    exact Nat.mod_eq_of_lt (by omega)
  have e2 : (UInt64.ofNat (draw (2 * i + 1))).toNat = draw (2 * i + 1) := by
    rw [UInt64.toNat_ofNat']
    exact Nat.mod_eq_of_lt (by omega)
  rw [randomElement, UInt64.toNat_or, UInt64.toNat_shiftLeft, e1, e2]
  have h32 : (32 : UInt64).toNat % 64 = 32 := by decide
  rw [h32, Nat.shiftLeft_eq, Nat.mod_eq_of_lt (by omega)]
  have := Nat.two_pow_add_eq_or_of_lt (i := 32) (by omega : draw (2 * i + 1) < 2 ^ 32) (draw (2 * i))
  rw [Nat.mul_comm, this]

/-! ## Sums of chunks

`chunkSum vs` is what a chunk holds after the vectors `vs` were added to zeros,
`chunkAvg vs` after it was divided by their number. -/

def chunkSum (vs : List (List UInt64)) : List UInt64 :=
  (List.range k).map fun j => UInt64.ofNat (vs.map fun v => (v.getD j 0).toNat).sum

def chunkAvg (vs : List (List UInt64)) : List UInt64 :=
  (chunkSum vs).map (· / UInt64.ofNat vs.length)

@[simp] theorem length_chunkSum (vs : List (List UInt64)) : (chunkSum vs).length = k := by
  simp [chunkSum]

@[simp] theorem length_chunkAvg (vs : List (List UInt64)) : (chunkAvg vs).length = k := by
  simp [chunkAvg]

theorem chunkSum_nil : chunkSum [] = zeros k := by
  apply List.ext_getElem
  · simp
  · intro i h1 h2
    simp [chunkSum, zeros]

/-- One more vector on the sum. -/
theorem sumVector_chunkSum (vs : List (List UInt64)) (v : List UInt64) :
    sumVector (chunkSum vs) (chunkSum vs) v = chunkSum (v :: vs) := by
  have hk : k = 100 := rfl
  apply List.ext_getElem
  · simp
  · intro i h1 h2
    have hi : i < k := by simpa using h2
    rw [getElem_sumVector _ _ _ (by rw [length_chunkSum]; omega),
      List.getD_eq_getElem (chunkSum vs) 0 (by simpa using hi)]
    simp only [chunkSum, List.getElem_map, List.getElem_range, List.map_cons, List.sum_cons]
    rw [UInt64.ofNat_add, UInt64.ofNat_toNat, UInt64.add_comm]

/-- The order of the vectors does not matter. -/
theorem chunkSum_perm {vs ws : List (List UInt64)} (h : vs.Perm ws) : chunkSum vs = chunkSum ws := by
  unfold chunkSum
  apply List.map_congr_left
  intro j _
  rw [(h.map _).sum_nat]

theorem chunkAvg_perm {vs ws : List (List UInt64)} (h : vs.Perm ws) : chunkAvg vs = chunkAvg ws := by
  rw [chunkAvg, chunkAvg, chunkSum_perm h, h.length_eq]

/-- Zeros behind a vector do not change its sums. -/
theorem getD_append_zeros (v : List UInt64) (n j : Nat) : (v ++ zeros n).getD j 0 = v.getD j 0 := by
  rcases Nat.lt_or_ge j v.length with h | h
  · rw [List.getD_append _ _ _ _ h]
  · rw [List.getD_append_right _ _ _ _ h, List.getD_eq_default _ _ h, zeros]
    rcases Nat.lt_or_ge (j - v.length) n with hn | hn
    · rw [List.getD_replicate _ hn]
    · rw [List.getD_eq_default _ _ (by simpa using hn)]

theorem getElem_chunkAvg_toNat (vs : List (List UInt64)) (j : Nat) (h : j < (chunkAvg vs).length)
    (hn : vs.length < 2 ^ 64) :
    (chunkAvg vs)[j].toNat = (vs.map fun v => (v.getD j 0).toNat).sum % 2 ^ 64 / vs.length := by
  simp only [chunkAvg, chunkSum, List.getElem_map, List.getElem_range, UInt64.toNat_div,
    UInt64.toNat_ofNat']
  rw [Nat.mod_eq_of_lt hn]

end InNetworkAgg
