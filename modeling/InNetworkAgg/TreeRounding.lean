import InNetworkAgg.ChunkMean
import InNetworkAgg.Lib.FloorMean

/-!
# Averaging in the tree and averaging at once

Every inner node of the aggregation tree truncates.  For producers that are
spread evenly, what the root gets is below what the one-level topology of
`CreateDirectTopo` computes by at most one for each level but the last:

    mean t - (height t - 1) ≤ treeResult t ≤ mean t        (tree_rounding)

`treeResult` does with the results of the children what `HandleResponseV` does
with their responses, in whatever order they come (`treeResult_of_run`).
-/

namespace InNetworkAgg

open RoseTree SimpleMPI

/-! ## Algorithm -/

/-- The vectors added to a new chunk one by one and divided by their number. -/
def averageChunks (vs : List (List UInt64)) : Option (List UInt64) :=
  avgVector (vs.foldl (fun data vec => sumVector data data vec) MyChunk.new.data) vs.length

/-- What a node of the tree sends up: a producer its vector, any other node the
average of what its children send. -/
def treeResult : RoseTree (List UInt64) → Option (List UInt64) :=
  RoseTree.fold fun v rs => if rs = [] then some v else (rs.mapM id).bind averageChunks

/-- One node above all producers, as `CreateDirectTopo` wires them. -/
def directTree (t : RoseTree (List UInt64)) : RoseTree (List UInt64) :=
  .node t.label (t.leafLabels.map fun v => .node v [])

/-- Element `j` of a producer's vector. -/
def element (j : Nat) (v : List UInt64) : Nat := (v.getD j 0).toNat

/-- At every inner node the results of the children add up without wrapping. -/
def NoOverflow (t : RoseTree (List UInt64)) : Prop :=
  ∀ s ∈ t.subtrees, ∀ rs, s.children.mapM treeResult = some rs → ∀ j < k, trueSum rs j < 2 ^ 64

/-- The producers send full chunks and no node has more children than a `uint8_t` counts. -/
structure ChunkTree (t : RoseTree (List UInt64)) : Prop where
  full : ∀ s ∈ t.subtrees, s.children = [] → s.label.length = k
  width : ∀ s ∈ t.subtrees, s.children.length ≤ 255

/-! ## One node -/

theorem foldl_sumVector (vs ws : List (List UInt64)) :
    vs.foldl (fun data vec => sumVector data data vec) (chunkSum ws) =
      chunkSum (vs.reverse ++ ws) := by
  induction vs generalizing ws with
  | nil => rfl
  | cons v vs ih =>
    rw [List.foldl_cons, sumVector_chunkSum ws v, ih]
    simp

theorem averageChunks_eq (vs : List (List UInt64)) (hne : vs ≠ []) :
    averageChunks vs = some (chunkAvg vs) := by
  have hk : k = 100 := rfl
  have hnew : MyChunk.new.data = chunkSum [] := chunkSum_nil.symm
  have hlen : vs.length ≠ 0 := fun h => hne (List.length_eq_zero_iff.1 h)
  rw [averageChunks, hnew, foldl_sumVector vs [], List.append_nil,
    avgVector_eq _ _ (by rw [length_chunkSum]; omega) hlen, chunkSum_perm (List.reverse_perm vs)]
  rfl

theorem treeResult_leaf (v : List UInt64) : treeResult (.node v []) = some v := by
  rw [treeResult, fold_node]
  rfl

theorem treeResult_node (v : List UInt64) {cs : List (RoseTree (List UInt64))} (hcs : cs ≠ []) :
    treeResult (.node v cs) = (cs.mapM treeResult).bind averageChunks := by
  rw [treeResult, fold_node, if_neg (by simpa using hcs), List.mapM_map]
  rfl

/-- A parent at the start of a round, and a run of `HandleResponseV` through the responses of all
its children for the offset `o`; theirs may come in any order, with others between. -/
structure ChunkRound (past : UInt64) (s u : SimpleMPI) (o : Nat) (rs : List Response)
    (last : Response) : Prop where
  group : s.cGroup.length < 256
  examined : Examined s.vsize o
  new : s.chunk o = .new
  fits : ∀ r ∈ rs ++ [last], r.Fits
  here : last.offset = o
  all : (vectorsAt o (rs ++ [last])).length = s.cGroup.length
  run : PartialRun.runs (respond past) s rs = some u

/-- When the responses are the results of the children of a node, the run leaves the result of
the node in the chunk. -/
theorem treeResult_of_run {v : List UInt64} {cs : List (RoseTree (List UInt64))} (hcs : cs ≠ [])
    {results : List (List UInt64)} (hresults : cs.mapM treeResult = some results) {past : UInt64}
    {s u : SimpleMPI} {o : Nat} {rs : List Response} {last : Response}
    (h : ChunkRound past s u o rs last)
    (hresponses : (last.padded :: paddedAt o rs).Perm results) :
    ∃ t, u.addChunk o last.padded = some t ∧ treeResult (.node v cs) = some (t.chunk o).data := by
  have hpos : 0 < s.cGroup.length := by
    rw [← h.all]
    simp [vectorsAt, h.here]
  obtain ⟨t, ht, -, -, hdata⟩ :=
    chunk_after hpos h.group h.examined h.new h.fits h.here h.all h.run
  have hne : results ≠ [] := fun hnil => by
    rw [hnil] at hresponses
    exact absurd hresponses.eq_nil (List.cons_ne_nil _ _)
  refine ⟨t, ht, ?_⟩
  rw [treeResult_node v hcs, hresults, Option.bind_some, averageChunks_eq _ hne, hdata,
    chunkAvg_perm hresponses]

/-- The average a node computes when its children's results add up below `2 ^ 64`. -/
theorem averageChunks_element (rs : List (List UInt64)) (hne : rs ≠ [])
    (hwidth : rs.length ≤ 255) (hno : ∀ j < k, trueSum rs j < 2 ^ 64) :
    ∃ r, averageChunks rs = some r ∧ r.length = k ∧
      ∀ j < k, element j r = (rs.map (element j)).sum / rs.length := by
  refine ⟨chunkAvg rs, averageChunks_eq rs hne, length_chunkAvg rs, fun j hj => ?_⟩
  rw [element, getD_chunkAvg rs hj (by omega), Nat.mod_eq_of_lt (hno j hj)]
  rfl

/-! ## The whole tree -/

theorem ChunkTree.child {v : List UInt64} {cs : List (RoseTree (List UInt64))}
    (h : ChunkTree (.node v cs)) {c : RoseTree (List UInt64)} (hc : c ∈ cs) : ChunkTree c where
  full s hs := h.full s (subtrees_child hc hs)
  width s hs := h.width s (subtrees_child hc hs)

theorem NoOverflow.child {v : List UInt64} {cs : List (RoseTree (List UInt64))}
    (h : NoOverflow (.node v cs)) {c : RoseTree (List UInt64)} (hc : c ∈ cs) : NoOverflow c :=
  fun s hs => h s (subtrees_child hc hs)

theorem exists_mapM_some {α β : Type} {f : α → Option β} {P : α → β → Prop} (l : List α)
    (h : ∀ a ∈ l, ∃ b, f a = some b ∧ P a b) :
    ∃ bs, l.mapM f = some bs ∧ List.Forall₂ P l bs := by
  induction l with
  | nil => exact ⟨[], rfl, .nil⟩
  | cons a l ih =>
    obtain ⟨b, hb, hab⟩ := h a List.mem_cons_self
    obtain ⟨bs, hbs, hl⟩ := ih fun a' ha' => h a' (List.mem_cons_of_mem _ ha')
    exact ⟨b :: bs, by rw [List.mapM_cons, hb, hbs]; rfl, .cons hab hl⟩

/-- The result of a tree is the mean rounded down at every node, element by element. -/
theorem treeResult_eq (t : RoseTree (List UInt64)) (ht : ChunkTree t) (hno : NoOverflow t) :
    ∃ r, treeResult t = some r ∧ r.length = k ∧ ∀ j < k, element j r = floorMean (element j) t := by
  induction t using induct with
  | h v cs ih =>
    by_cases hcs : cs = []
    · subst hcs
      exact ⟨v, treeResult_leaf v, ht.full _ (self_mem_subtrees _) rfl, fun j _ => rfl⟩
    · obtain ⟨rs, hrs, hforall⟩ := exists_mapM_some cs fun c hc => ih c hc (ht.child hc) (hno.child hc)
      have hlen : rs.length = cs.length := hforall.length_eq.symm
      have hne : rs ≠ [] := by
        rintro rfl
        exact hcs (List.length_eq_zero_iff.1 hlen.symm)
      obtain ⟨r, hr, hrlen, helem⟩ := averageChunks_element rs hne
        (by have := ht.width _ (self_mem_subtrees _); rw [children_node] at this; omega)
        (hno _ (self_mem_subtrees _) rs hrs)
      refine ⟨r, by rw [treeResult_node v hcs, hrs, Option.bind_some, hr], hrlen, fun j hj => ?_⟩
      have hmap : rs.map (element j) = cs.map (floorMean (element j)) := by
        apply List.ext_getElem
        · simp [hlen]
        · intro i h1 h2
          simp only [List.getElem_map]
          exact (hforall.get (by simpa using h2) (by simpa using h1)).2 j hj
      rw [helem j hj, hmap, hlen, floorMean_node _ _ hcs]

theorem children_ne_nil {t : RoseTree (List UInt64)} (h : 1 ≤ t.height) : t.children ≠ [] := by
  cases t with
  | node v cs =>
    rintro rfl
    rw [height, fold_node] at h
    simp at h

/-- The one-level tree computes the mean of the producers, rounded down once. -/
theorem directTree_result (t : RoseTree (List UInt64)) (hwidth : t.leaves ≤ 255)
    (hno : ∀ j < k, total (element j) t < 2 ^ 64) :
    ∃ r, treeResult (directTree t) = some r ∧ ∀ j < k, element j r = mean (element j) t := by
  have hpos := leaves_pos t
  rw [← length_leafLabels] at hwidth hpos
  have hne : t.leafLabels ≠ [] := List.ne_nil_of_length_pos hpos
  obtain ⟨r, hr, -, helem⟩ := averageChunks_element t.leafLabels hne hwidth hno
  have hmap : (t.leafLabels.map fun v => RoseTree.node v []).mapM treeResult = some t.leafLabels := by
    rw [List.mapM_map, mapM_some (treeResult ∘ fun v => .node v []) id _
      fun v _ => treeResult_leaf v, List.map_id]
  refine ⟨r, ?_, fun j hj => ?_⟩
  · rw [directTree, treeResult_node _ (by simpa using hne), hmap, Option.bind_some, hr]
  · rw [helem j hj, mean, ← length_leafLabels]
    rfl

/-- **Averaging in the tree** is averaging the producers directly, up to one for
each level above the first; the one-level topology does the latter.  At every inner
node this is what the runs of `HandleResponseV` through the results of the children do. -/
theorem tree_rounding (t : RoseTree (List UInt64)) (hh : 1 ≤ t.height) (ht : ChunkTree t)
    (hb : t.Balanced) (hno : NoOverflow t) :
    (∃ r, treeResult t = some r ∧ ∀ j < k,
      mean (element j) t ≤ element j r + (t.height - 1) ∧ element j r ≤ mean (element j) t) ∧
    (t.leaves ≤ 255 → (∀ j < k, total (element j) t < 2 ^ 64) →
      ∃ r, treeResult (directTree t) = some r ∧ ∀ j < k, element j r = mean (element j) t) ∧
    (∀ node ∈ t.subtrees, node.children ≠ [] → ∀ results, node.children.mapM treeResult = some results →
      ∀ past s u o rs last, ChunkRound past s u o rs last →
        (last.padded :: paddedAt o rs).Perm results →
        ∃ w, u.addChunk o last.padded = some w ∧ treeResult node = some (w.chunk o).data) := by
  refine ⟨?_, directTree_result t, ?_⟩
  · obtain ⟨r, hr, -, helem⟩ := treeResult_eq t ht hno
    refine ⟨r, hr, fun j hj => ?_⟩
    rw [helem j hj]
    exact floorMean_near (element j) t hb (children_ne_nil hh)
  · intro node _ hne results hresults past s u o rs last hround hresponses
    cases node with
    | node v cs => exact treeResult_of_run hne hresults hround hresponses

/-- Two aggregators above the values 1, 2 and 4, 5: the tree gives 2, the mean is 3. -/
def twoByTwo : RoseTree (List UInt64) :=
  .node [] [.node [] [.node (List.replicate k 1) [], .node (List.replicate k 2) []],
    .node [] [.node (List.replicate k 4) [], .node (List.replicate k 5) []]]

theorem tree_rounding_twoByTwo : ∃ r, treeResult twoByTwo = some r ∧ ∀ j < k,
    mean (element j) twoByTwo ≤ element j r + 1 ∧ element j r ≤ mean (element j) twoByTwo := by
  have hchunk : ChunkTree twoByTwo := ⟨by decide, by decide⟩
  have hno : NoOverflow twoByTwo := by
    have hall : ∀ s ∈ twoByTwo.subtrees, ∀ rs ∈ s.children.mapM treeResult, ∀ j < k,
        trueSum rs j < 2 ^ 64 := by decide +kernel
    exact fun s hs rs hrs => hall s hs rs hrs
  exact (tree_rounding twoByTwo (by decide) hchunk (by unfold RoseTree.Balanced; decide) hno).1

end InNetworkAgg
