import InNetworkAgg.Handlers

/-!
# One round at one node

A node in its round `d + 1` has a part of each child's answer.  `Gathers` says
what its chunk map holds: chunk `i` holds the chunks `i` of the children from
which more than `m * d + i` parts were taken.  A further part either leaves the
round open (`Gathers.receive_open`) or completes it, and then the node writes

    meanVector V (the children's vectors)                     (Gathers.receive_complete)
-/

namespace InNetworkAgg

open SimpleMPI

/-! ## The mean of the children -/

/-- Element by element: the sum modulo `2 ^ 64` over the number of vectors. -/
def meanVector (n : Nat) (vs : List (List UInt64)) : List UInt64 :=
  (List.range n).map fun i =>
    UInt64.ofNat ((vs.map fun v => (v.getD i 0).toNat).sum % 2 ^ 64 / vs.length)

@[simp] theorem length_meanVector (n : Nat) (vs : List (List UInt64)) :
    (meanVector n vs).length = n := by
  simp [meanVector]

/-- Elements as `SendResponseVTo` sends them for chunk `i` of a vector. -/
def ChunkOf (vec : List UInt64) (i : Nat) (xs : List UInt64) : Prop :=
  ∃ past, xs = responseElements past vec (i * k)

/-- The vector `HandleResponseV` parses into. -/
def pad (xs : List UInt64) : List UInt64 := xs ++ zeros (k - xs.length)

theorem ChunkOf.length_le {vec xs : List UInt64} {i : Nat} (h : ChunkOf vec i xs)
    (hlen : vec.length < 65536) (hi : i < chunkCount vec.length) : xs.length ≤ k := by
  obtain ⟨past, rfl⟩ := h
  apply length_responseElements_le
  rw [Nat.mod_eq_of_lt hlen]
  exact (lt_chunkCount i _).1 hi

theorem length_pad {xs : List UInt64} (h : xs.length ≤ k) : (pad xs).length = k := by
  simp [pad]
  omega

/-- Inside the vector a chunk has the elements of the vector. -/
theorem ChunkOf.getD_pad {vec xs : List UInt64} {i j : Nat} (h : ChunkOf vec i xs)
    (hlen : vec.length < 65536) (hj : j < k) (hij : i * k + j < vec.length) :
    (pad xs).getD j 0 = vec.getD (i * k + j) 0 := by
  have hk : k = 100 := rfl
  obtain ⟨past, rfl⟩ := h
  have hcount : j < (responseCount (vec.length % 65536) (i * k)).toNat := by
    rw [Nat.mod_eq_of_lt hlen]
    rcases Nat.lt_or_ge vec.length (i * k + k) with hs | hf
    · rw [responseCount_short _ _ hs]
      omega
    · rw [responseCount_full _ _ hf hlen]
      omega
  rw [pad, getD_append_zeros, List.getD_eq_getElem _ _ (by rw [length_responseElements]; exact hcount),
    List.getD_eq_getElem _ _ hij]
  simp only [responseElements, responseReads, List.getElem_map, List.getElem_range]
  rw [List.getD_eq_getElem _ _ hij]

/-! ## The chunk map in the middle of a round -/

section
variable (V : Nat) (vec : Address → List UInt64) (cs : List Address) (d : Nat)

/-- The children whose chunk `i` has been taken in round `d + 1`. -/
def arrived (taken : Address → Nat) (i : Nat) : List Address :=
  cs.filter fun u => chunkCount V * d + i < taken u

/-- What the chunk map holds of the children's vectors `vec`. -/
def ChunksOk (taken : Address → Nat) (s : SimpleMPI) : Prop :=
  ∀ i < chunkCount V, ∃ f : Address → List UInt64,
    (∀ u ∈ arrived V cs d taken i, ChunkOf (vec u) i (f u)) ∧
    ChunkHolds cs.length ((arrived V cs d taken i).map fun u => pad (f u)) (s.chunk (i * k))

/-- A node that was asked for vectors of `V` elements and has finished `d` rounds. -/
structure Gathers (taken : Address → Nat) (s : SimpleMPI) : Prop where
  cGroup : s.cGroup = cs
  vsize : s.vsize = V
  avg : s.avg.length = V
  curIter : s.curIter = d
  asEnd : s.asEnd = false
  chunks : ChunksOk V vec cs d taken s

end

section
variable {V : Nat} {vec : Address → List UInt64} {cs : List Address} {d : Nat}
  {taken : Address → Nat} {s : SimpleMPI}

theorem mem_arrived {i : Nat} {u : Address} :
    u ∈ arrived V cs d taken i ↔ u ∈ cs ∧ chunkCount V * d + i < taken u := by
  simp [arrived]

theorem arrived_nil {i : Nat} (h : ∀ u ∈ cs, taken u ≤ chunkCount V * d) :
    arrived V cs d taken i = [] := by
  refine List.filter_eq_nil_iff.2 fun u hu => ?_
  have := h u hu
  simp
  omega

/-- A map of new chunks is right when nothing was taken in the round. -/
theorem ChunksOk.of_new (hcs : cs ≠ []) (h : ∀ u ∈ cs, taken u ≤ chunkCount V * d)
    (hnew : ∀ o, s.chunk o = .new) : ChunksOk V vec cs d taken s := by
  intro i _
  refine ⟨fun _ => [], ?_, ?_⟩
  · rw [arrived_nil h]
    intro u hu
    cases hu
  · rw [arrived_nil h, hnew]
    exact ChunkHolds.new (List.length_pos_of_ne_nil hcs)

/-- One more child in the filter. -/
theorem filter_perm_cons {l : List Address} (hl : l.Nodup) {v : Address} (hv : v ∈ l)
    {p q : Address → Bool} (hpv : p v = false) (hqv : q v = true) (h : ∀ u ∈ l, u ≠ v → q u = p u) :
    (l.filter q).Perm (v :: l.filter p) := by
  induction l with
  | nil => cases hv
  | cons a l ih =>
    obtain ⟨ha, hl⟩ := List.nodup_cons.1 hl
    by_cases hav : a = v
    · subst hav
      have hrest : l.filter q = l.filter p := List.filter_congr fun u hu =>
        h u (List.mem_cons_of_mem _ hu) fun e => ha (e ▸ hu)
      rw [List.filter_cons_of_pos hqv, List.filter_cons_of_neg (by simp [hpv]), hrest]
    · have hv' : v ∈ l := (List.mem_cons.1 hv).resolve_left fun e => hav e.symm
      have hperm := ih hl hv' fun u hu => h u (List.mem_cons_of_mem _ hu)
      have haq := h a List.mem_cons_self hav
      cases hpa : p a with
      | true =>
        rw [List.filter_cons_of_pos (by rw [haq, hpa]), List.filter_cons_of_pos hpa]
        exact (hperm.cons a).trans (List.Perm.swap v a _)
      | false =>
        rw [List.filter_cons_of_neg (by rw [haq, hpa]; decide), List.filter_cons_of_neg (by simp [hpa])]
        exact hperm

theorem length_arrived_le (i : Nat) : (arrived V cs d taken i).length ≤ cs.length :=
  (List.filter_sublist).length_le

/-- The child whose part is taken joins those of its chunk. -/
theorem arrived_take (hcs : cs.Nodup) {v : Address} (hv : v ∈ cs) {i : Nat}
    (ht : taken v = chunkCount V * d + i) :
    (arrived V cs d (Function.update taken v (taken v + 1)) i).Perm
      (v :: arrived V cs d taken i) := by
  apply filter_perm_cons hcs hv
  · simp [ht]
  · rw [Function.update_self, ht]
    simp
  · intro u _ hu
    rw [Function.update_of_ne hu]

theorem arrived_take_of_ne {v : Address} {i j : Nat} (ht : taken v = chunkCount V * d + i)
    (hij : j ≠ i) :
    arrived V cs d (Function.update taken v (taken v + 1)) j = arrived V cs d taken j := by
  refine List.filter_congr fun u _ => ?_
  by_cases huv : u = v
  · subst huv
    rw [Function.update_self, ht]
    exact decide_eq_decide.2 (by omega)
  · rw [Function.update_of_ne huv]

/-- Part `i` of the round of child `v` is added to its chunk. -/
theorem ChunksOk.add (h : ChunksOk V vec cs d taken s) (hgroup : s.cGroup = cs) (hcs : cs.Nodup)
    (hlen : cs.length < 256) {v : Address} (hv : v ∈ cs) {i : Nat} (hi : i < chunkCount V)
    (ht : taken v = chunkCount V * d + i) {xs : List UInt64} (hxs : ChunkOf (vec v) i xs)
    (hle : xs.length ≤ k) :
    ∃ c, s.addChunk (i * k) (pad xs) = some (s.setChunk (i * k) c) ∧
      ChunksOk V vec cs d (Function.update taken v (taken v + 1)) (s.setChunk (i * k) c) := by
  have hk : k = 100 := rfl
  obtain ⟨f, hf, hholds⟩ := h i hi
  have hold : v ∉ arrived V cs d taken i := by
    rw [mem_arrived]
    omega
  have hperm := arrived_take hcs hv ht
  have hmore : ((arrived V cs d taken i).map fun u => pad (f u)).length < s.cGroup.length := by
    have hle : (arrived V cs d (Function.update taken v (taken v + 1)) i).length ≤ cs.length :=
      length_arrived_le i
    rw [hperm.length_eq, List.length_cons] at hle
    rw [hgroup, List.length_map]
    exact hle
  obtain ⟨c, hadd, hc⟩ := addChunk_spec s (i * k) _ (pad xs) (by rw [hgroup]; exact hlen) hmore
    (length_pad hle) (by rw [hgroup]; exact hholds)
  refine ⟨c, hadd, fun j hj => ?_⟩
  by_cases hij : j = i
  · subst hij
    refine ⟨Function.update f v xs, fun u hu => ?_, ?_⟩
    · by_cases huv : u = v
      · subst huv
        rw [Function.update_self]
        exact hxs
      · rw [Function.update_of_ne huv]
        exact hf u ((List.mem_cons.1 (hperm.mem_iff.1 hu)).resolve_left huv)
    · have hmap : (v :: arrived V cs d taken j).map (fun u => pad (Function.update f v xs u)) =
          pad xs :: (arrived V cs d taken j).map fun u => pad (f u) := by
        rw [List.map_cons, Function.update_self]
        congr 1
        refine List.map_congr_left fun u hu => ?_
        have huv : u ≠ v := fun e => hold (e ▸ hu)
        rw [Function.update_of_ne huv]
      rw [chunk_setChunk_self]
      rw [hgroup] at hc
      exact hc.perm (hmap ▸ (hperm.map _).symm)
  · obtain ⟨g, hg, hgh⟩ := h j hj
    rw [arrived_take_of_ne ht hij, chunk_setChunk_of_ne _ _ _ _ (by rw [hk]; omega)]
    exact ⟨g, hg, hgh⟩

/-- Every part of the round has been taken from every child. -/
def AllTaken (V : Nat) (cs : List Address) (d : Nat) (taken : Address → Nat) : Prop :=
  ∀ u ∈ cs, chunkCount V * (d + 1) ≤ taken u

theorem arrived_eq_self {i : Nat} (hi : i < chunkCount V) (h : AllTaken V cs d taken) :
    arrived V cs d taken i = cs := by
  refine List.filter_eq_self.2 fun u hu => ?_
  have := h u hu
  rw [Nat.mul_succ] at this
  simp
  omega

/-- `AvgEnd` sees exactly the rounds that are complete. -/
theorem Gathers.roundComplete_iff (h : Gathers V vec cs d taken s) (hcs : cs ≠ [])
    (hlen : cs.length < 256) (hV : 0 < chunkCount V) (hV' : chunkCount V < 256) :
    s.roundComplete s.vsize = true ↔ AllTaken V cs d taken := by
  have hr : range V = chunkCount V := Nat.mod_eq_of_lt hV'
  rw [SimpleMPI.roundComplete_iff s (by rw [h.cGroup]; exact hlen)
    (by rw [h.cGroup]; exact List.length_pos_of_ne_nil hcs), h.vsize, hr]
  constructor
  · intro hall u hu
    obtain ⟨f, -, hholds⟩ := h.chunks (chunkCount V - 1) (by omega)
    have hcount := hall (chunkCount V - 1) (by omega)
    rw [hholds.count, List.length_map, h.cGroup, arrived, List.length_filter_eq_length_iff] at hcount
    have := hcount u hu
    simp only [decide_eq_true_eq] at this
    rw [Nat.mul_succ]
    omega
  · intro hall i hi
    obtain ⟨f, -, hholds⟩ := h.chunks i hi
    rw [hholds.count, arrived_eq_self hi hall, List.length_map, h.cGroup]

/-- What a complete round writes to `avg`. -/
theorem Gathers.roundAvg_eq (h : Gathers V vec cs d taken s) (hlen : cs.length < 256)
    (hV' : chunkCount V < 256) (hVlt : V < 65536) (hvec : ∀ u ∈ cs, (vec u).length = V)
    (hall : AllTaken V cs d taken) : s.roundAvg = meanVector V (cs.map vec) := by
  have hk : k = 100 := rfl
  have hdata : ∀ i, i < chunkCount s.vsize → (s.chunk (i * k)).data.length = k := by
    intro i hi
    rw [h.vsize] at hi
    obtain ⟨f, -, hholds⟩ := h.chunks i hi
    exact hholds.length_data
  apply List.ext_getElem?
  intro i
  rw [getElem?_roundAvg s (by rw [h.vsize]; exact hV') (by rw [h.avg, h.vsize]) hdata i, h.vsize]
  by_cases hi : i < V
  · have hik : i / k < chunkCount V := by
      rw [lt_chunkCount, hk]
      omega
    have hmod : i % k < k := Nat.mod_lt _ (by decide)
    obtain ⟨f, hf, hholds⟩ := h.chunks (i / k) hik
    rw [arrived_eq_self hik hall] at hf hholds
    have hd : (s.chunk (i / k * k)).data = chunkAvg (cs.map fun u => pad (f u)) := by
      rw [hholds.data, if_pos (by simp)]
    have hj : i % k < (chunkAvg (cs.map fun u => pad (f u))).length := by
      rw [length_chunkAvg]
      exact hmod
    have hsum : (((cs.map fun u => pad (f u)).map fun v => (v.getD (i % k) 0).toNat)) =
        (cs.map vec).map fun v => (v.getD i 0).toNat := by
      rw [List.map_map, List.map_map]
      refine List.map_congr_left fun u hu => ?_
      have hidx : i / k * k + i % k = i := by rw [hk]; omega
      have hget := (hf u hu).getD_pad (by rw [hvec u hu]; exact hVlt) hmod
        (by rw [hidx, hvec u hu]; exact hi)
      rw [hidx] at hget
      simp only [Function.comp, hget]
    rw [if_pos hi, hd, List.getElem?_eq_getElem hj, List.getElem?_eq_getElem (by simpa using hi)]
    congr 1
    apply UInt64.toNat_inj.1
    rw [getElem_chunkAvg_toNat _ _ hj (by rw [List.length_map]; omega), hsum]
    simp only [meanVector, List.getElem_map, List.getElem_range, List.length_map]
    have hlt := Nat.mod_lt ((cs.map vec).map fun v => (v.getD i 0).toNat).sum
      (show 0 < 2 ^ 64 by decide)
    rw [UInt64.toNat_ofNat', Nat.mod_eq_of_lt (Nat.lt_of_le_of_lt (Nat.div_le_self _ _) hlt)]
  · rw [if_neg hi, List.getElem?_eq_none (by simpa using hi)]

/-! ## A part is handled -/

/-- The effects of the completion branch of `AVG`: the answer, the stop and the next requests. -/
def roundEffects (past : UInt64) (s : SimpleMPI) (avg : List UInt64) : List Effect :=
  .answer avg ::
    (s.sGroup.flatMap fun p => (List.range (chunkCount avg.length)).map fun i =>
      .send p (responseMessage past avg (i * k))) ++
    (if s.maxIteration ≤ s.curIter + 1 then [.stop] else []) ++
    (if s.curIter + 1 < s.maxIteration then
      .newRequest :: s.cGroup.map fun c => .send c (requestMessage s.vsize)
    else [])

theorem avgEnd_complete_eq (past : UInt64) (s : SimpleMPI) (h : s.roundComplete s.vsize = true)
    (hiter : s.curIter < 65535) (hgroup : s.cGroup.length < 256) (hparent : s.sGroup.length < 256)
    (havg : s.avg.length ≤ 65500) :
    s.avgEnd past s.vsize = some (s.finishRound, roundEffects past s s.roundAvg) := by
  have hsends := sendResponseVToP_eq past s.finishRound hparent
    (by rw [finishRound_avg, length_roundAvg]; exact havg)
  rw [finishRound_avg, finishRound_sGroup] at hsends
  rw [avgEnd_complete past s h hiter, hsends, Option.bind_some, roundEffects]
  by_cases hlt : s.curIter + 1 < s.maxIteration
  · rw [if_pos hlt, if_pos hlt, sendRequestVToAll_eq _ _ (by rw [finishRound_cGroup]; exact hgroup)]
    rfl
  · rw [if_neg hlt, if_neg hlt]
    rfl

variable (past : UInt64) (hcs : cs.Nodup) (hlen : cs.length < 256)
include hcs hlen

/-- The part does not complete the round. -/
theorem Gathers.receive_open (h : Gathers V vec cs d taken s) (hV' : chunkCount V < 256)
    {v : Address} (hv : v ∈ cs) {i : Nat} (hi : i < chunkCount V)
    (ht : taken v = chunkCount V * d + i) {xs : List UInt64} (hxs : ChunkOf (vec v) i xs)
    (hle : xs.length ≤ k)
    (hopen : ¬ AllTaken V cs d (Function.update taken v (taken v + 1))) :
    ∃ c, receiveChunk past s (i * k) (pad xs) = some (s.setChunk (i * k) c, []) ∧
      Gathers V vec cs d (Function.update taken v (taken v + 1)) (s.setChunk (i * k) c) := by
  obtain ⟨c, hadd, hc⟩ := h.chunks.add h.cGroup hcs hlen hv hi ht hxs hle
  have hg : Gathers V vec cs d (Function.update taken v (taken v + 1)) (s.setChunk (i * k) c) :=
    ⟨h.cGroup, h.vsize, h.avg, h.curIter, h.asEnd, hc⟩
  refine ⟨c, receiveChunk_open past s _ _ _ hadd hg.asEnd ?_, hg⟩
  rw [← Bool.not_eq_true, hg.roundComplete_iff (List.ne_nil_of_mem hv) hlen (by omega) hV']
  exact hopen

/-- The part completes the round: the mean is written, and the map is new again. -/
theorem Gathers.receive_complete (h : Gathers V vec cs d taken s) (hV' : chunkCount V < 256)
    (hvec : ∀ u ∈ cs, (vec u).length = V) (hiter : d < 65535) (hparent : s.sGroup.length ≤ 1)
    {v : Address} (hv : v ∈ cs) {i : Nat} (hi : i < chunkCount V)
    (ht : taken v = chunkCount V * d + i) {xs : List UInt64} (hxs : ChunkOf (vec v) i xs)
    (hle : xs.length ≤ k)
    (hall : AllTaken V cs d (Function.update taken v (taken v + 1)))
    (hnext : ∀ u ∈ cs, Function.update taken v (taken v + 1) u ≤ chunkCount V * (d + 1))
    (vec' : Address → List UInt64) :
    ∃ s', receiveChunk past s (i * k) (pad xs) =
        some (s', roundEffects past s (meanVector V (cs.map vec))) ∧
      Gathers V vec' cs (d + 1) (Function.update taken v (taken v + 1)) s' ∧
      s'.sGroup = s.sGroup ∧ s'.maxIteration = s.maxIteration ∧ s'.rank = s.rank := by
  have hk : k = 100 := rfl
  have hVlt : V ≤ 65500 := by
    have := chunkCount_mul_le V
    rw [hk] at this
    omega
  obtain ⟨c, hadd, hc⟩ := h.chunks.add h.cGroup hcs hlen hv hi ht hxs hle
  generalize htt : s.setChunk (i * k) c = t at hadd hc
  have hg : Gathers V vec cs d (Function.update taken v (taken v + 1)) t := by
    rw [← htt] at hc ⊢
    exact ⟨h.cGroup, h.vsize, h.avg, h.curIter, h.asEnd, hc⟩
  have hcomplete := (hg.roundComplete_iff (List.ne_nil_of_mem hv) hlen (by omega) hV').2 hall
  have hfull : (t.chunk (i * k)).count = t.cGroup.length := by
    obtain ⟨f, -, hholds⟩ := hg.chunks i hi
    rw [hholds.count, arrived_eq_self hi hall, List.length_map, hg.cGroup]
  have havg := hg.roundAvg_eq hlen hV' (by omega) hvec hall
  have heffects : roundEffects past t t.roundAvg = roundEffects past s (meanVector V (cs.map vec)) := by
    rw [havg, ← htt]
    rfl
  refine ⟨t.finishRound, ?_, ⟨hg.cGroup, hg.vsize, ?_, ?_, rfl, ?_⟩, ?_, ?_, ?_⟩
  · rw [receiveChunk_complete past s t _ _ hadd hfull, ← heffects]
    refine avgEnd_complete_eq past t hcomplete (by rw [hg.curIter]; exact hiter)
      (by rw [hg.cGroup]; exact hlen) ?_ (by rw [hg.avg]; exact hVlt)
    rw [← htt]
    exact Nat.lt_of_le_of_lt hparent (by decide)
  · rw [finishRound_avg, length_roundAvg]
    exact hg.avg
  · rw [finishRound_curIter, hg.curIter]
  · exact ChunksOk.of_new (List.ne_nil_of_mem hv) hnext (finishRound_chunk t)
  all_goals
    rw [← htt]
    rfl

end

end InNetworkAgg
