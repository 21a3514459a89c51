import InNetworkAgg.Deployment

/-!
# What the root computes

In any order of polls and arrivals the `r`-th vector the root writes is the
average of the tree for round `r`, and rounds do not mix: a part is handled in
the round it was sent in, no part of a round is handled twice, and every entry
of a chunk map is the sum of the parts of one round that were handled
(`nested_average`).
-/

namespace InNetworkAgg

open PartialRun SimpleMPI World Rounds RoseTree

/-- Round and offset of a part. -/
def chunkId (e : Nat × List UInt8) : Nat × Option Nat := (e.1, (praseHeader e.2).map (·.offset))

/-- The parts of the answers of `c` that `p` has handled. -/
def handledIds (w : World) (c p : Address) : List (Nat × Option Nat) :=
  (w.link c p).handled.map chunkId

/-- Chunk `i` of a vector. -/
def chunkAt (i : Nat) (vec : List UInt64) : List UInt64 := (vec.drop (i * k)).take k

/-- What holds in every world a deployment for the tree `t` of addresses gets to, with vectors of
`m` chunks and at most `R` rounds. -/
structure RoundsApart (env : Env) (m R : Nat) (rank : Address → Nat) (t : RoseTree Address)
    (w : World) : Prop where
  /-- the results of the root, and the requests it has sent -/
  results : ∃ n ≤ R,
    w.results t.label = (List.range n).map (fun r => nestedAverage env (m * k) rank (r + 1) t) ∧
    ∀ c ∈ t.children, (w.link t.label c.label).sent.map Prod.snd =
      List.replicate (if w.started then min (n + 1) R else 0) (requestMessage (m * k))
  /-- a part is handled in the order and in the round it was sent in -/
  sameRound : ∀ s ∈ t.subtrees, ∀ c ∈ s.children,
    (w.link c.label s.label).handled <+: (w.link c.label s.label).sent
  /-- no part of a round is handled twice -/
  once : ∀ s ∈ t.subtrees, ∀ c ∈ s.children, (handledIds w c.label s.label).Nodup
  /-- an entry of a chunk map holds the parts of the node's round, one for each child -/
  entries : ∀ s ∈ t.subtrees, s.children ≠ [] → ∀ i < m,
    ChunkHolds s.children.length
      ((s.children.filter fun c =>
        ((w.node s.label).curIter + 1, some (i * k)) ∈ handledIds w c.label s.label).map fun c =>
          chunkAt i (nestedAverage env (m * k) rank ((w.node s.label).curIter + 1) c))
      ((w.node s.label).chunk (i * k))
  /-- a poll never fails an assertion -/
  polls : ∀ a, ∀ peer ∈ (w.node a).socketPool, ∀ past heap,
    (exec env w (.poll a peer past heap)).isSome = true

/-- Of a full chunk nothing is padded, and nothing behind the vector is read. -/
theorem ChunkOf.pad_eq {m i : Nat} {vec xs : List UInt64} (h : ChunkOf vec i xs)
    (hlen : vec.length = m * k) (hm : m * k < 65536) (hi : i < m) : pad xs = chunkAt i vec := by
  have hk : k = 100 := rfl
  obtain ⟨past, rfl⟩ := h
  have hfull : i * k + k ≤ vec.length := by
    rw [hlen, hk]
    omega
  rw [pad, responseElements_full past vec (i * k)
    (by rw [hlen, Nat.mod_eq_of_lt hm, ← hlen]; exact hfull)]
  have hl : ((vec.drop (i * k)).take k).length = k := by
    rw [List.length_take, List.length_drop]
    omega
  rw [hl, Nat.sub_self, zeros, List.replicate_zero, List.append_nil]
  rfl

theorem chunkId_chunkMessage (r offset : Nat) {xs : List UInt64} (hoff : offset < 65536)
    (hxs : xs.length ≤ k) : chunkId (r, chunkMessage offset xs) = (r, some offset) := by
  unfold chunkId
  rw [offset_chunkMessage offset xs hoff hxs]

/-- The parts are handled round by round. -/
theorem UpLog.ids {m n h : Nat} {value : Nat → List UInt64} {l : Link} (hl : UpLog m value n h l)
    (hle : h ≤ n) (hm : m * k < 65536) (hpos : 0 < m) (hvalue : ∀ r, (value (r + 1)).length = m * k) :
    l.handled.map chunkId = (List.range h).map fun j => (j / m + 1, some (j % m * k)) := by
  have hk : k = 100 := rfl
  apply List.ext_getElem?
  intro j
  rw [List.getElem?_map, List.getElem?_map, hl.handled, List.getElem?_take]
  by_cases hj : j < h
  · have hjn : j < l.sent.length := by
      rw [hl.length]
      omega
    obtain ⟨xs, hxs, he⟩ := hl.parts j _ (List.getElem?_eq_getElem hjn)
    have hmod := Nat.mod_lt j hpos
    have hxsle : xs.length ≤ k := by
      refine hxs.length_le (by rw [hvalue]; exact hm) ?_
      rw [hvalue, chunkCount_mul]
      exact hmod
    have hoff : j % m * k < 65536 := by
      rw [hk] at hm ⊢
      omega
    rw [if_pos hj, List.getElem?_eq_getElem hjn, he, List.getElem?_range hj, Option.map_some,
      Option.map_some, chunkId_chunkMessage _ _ hoff hxsle]
  · rw [if_neg hj, List.getElem?_eq_none (by simpa using hj)]
    rfl

theorem part_inj {m j j' : Nat} (h : ((j / m + 1, some (j % m * k)) : Nat × Option Nat) =
    (j' / m + 1, some (j' % m * k))) : j = j' := by
  have hk : k = 100 := rfl
  obtain ⟨h1, h2⟩ := Prod.mk.inj h
  have h3 := Option.some.inj h2
  rw [hk] at h3
  have h4 : j / m = j' / m := Nat.succ.inj h1
  have h5 := Nat.div_add_mod j m
  have h6 := Nat.div_add_mod j' m
  rw [h4] at h5
  omega

theorem mem_ids {m d i n : Nat} (hi : i < m) :
    ((d + 1, some (i * k)) : Nat × Option Nat) ∈
      ((List.range n).map fun j => (j / m + 1, some (j % m * k))) ↔ m * d + i < n := by
  obtain ⟨hdiv, hmod⟩ := part_div_mod (d := d) hi
  constructor
  · intro hmem
    obtain ⟨j, hj, heq⟩ := List.mem_map.1 hmem
    have hij : j = m * d + i := part_inj (m := m) (by rw [heq, hdiv, hmod])
    rw [← hij]
    exact List.mem_range.1 hj
  · intro hlt
    exact List.mem_map.2 ⟨m * d + i, List.mem_range.2 hlt, by rw [hdiv, hmod]⟩

section
variable {addrOf : String → Address} {t : RoseTree String} (h : IsAggTree addrOf t) {env : Env}
  (henv : env.consumer = addrOf t.label) {m : Nat} (hm : chunkCount (m * k) < 256)
  {R : Nat} (hR : R < 65536) {rank : Address → Nat} {ρ : State Address} {w : World}
  (hok : Ok (h.plan env henv (m * k) hm R hR rank) ρ w) {s : RoseTree Address}
  (hs : s ∈ (t.map addrOf).subtrees)

include hs

variable (rank) in
/-- The plan's children are those of the tree of addresses. -/
theorem IsAggTree.plan_kids_map :
    (h.plan env henv (m * k) hm R hR rank).tree.kids s.label = s.children.map label :=
  kidsOf_label (t.map addrOf) h.addresses hs

variable (rank) in
theorem IsAggTree.child_mem_plan {c : RoseTree Address} (hc : c ∈ s.children) :
    c.label ∈ (h.plan env henv (m * k) hm R hR rank).tree.kids s.label := by
  rw [h.plan_kids_map henv hm hR rank hs]
  exact List.mem_map_of_mem hc

include hok

/-- The parts handled on a link, in order. -/
theorem Ok.handledIds_eq (hpos : 0 < m) {c : RoseTree Address} (hc : c ∈ s.children) :
    handledIds w c.label s.label =
      (List.range (ρ.taken c.label)).map fun j => (j / m + 1, some (j % m * k)) := by
  have hk : k = 100 := rfl
  have hparts : (h.plan env henv (m * k) hm R hR rank).parts = m := chunkCount_mul m
  have hm' : m < 256 := by rwa [chunkCount_mul] at hm
  have hmem := h.child_mem_plan henv hm hR rank hs hc
  have hup := hok.sim.up _ _ hmem
  have hle := (hok.inv.edge _ _ hmem).taken_le
  rw [hparts] at hup hle
  exact hup.ids hle (by rw [hk]; omega) hpos fun r =>
    (h.plan env henv (m * k) hm R hR rank).length_value r c.label

/-- The children whose part of the node's round is in a chunk. -/
theorem Ok.arrived_eq (hpos : 0 < m) {i : Nat} (hi : i < m) :
    arrived (m * k) (s.children.map label) (ρ.done s.label) ρ.taken i =
      (s.children.filter fun c => (ρ.done s.label + 1, some (i * k)) ∈
        handledIds w c.label s.label).map label := by
  rw [arrived, List.filter_map]
  congr 1
  refine List.filter_congr fun c hc => ?_
  rw [hok.handledIds_eq h henv hm hR hs hpos hc]
  simp only [Function.comp, chunkCount_mul]
  exact decide_eq_decide.2 (mem_ids hi).symm

/-- An entry of a chunk map holds those parts. -/
theorem Ok.entry_holds (hpos : 0 < m) (hne : s.children ≠ []) {i : Nat} (hi : i < m) :
    ChunkHolds s.children.length
      ((s.children.filter fun c => (ρ.done s.label + 1, some (i * k)) ∈
        handledIds w c.label s.label).map fun c =>
          chunkAt i (nestedAverage env (m * k) rank (ρ.done s.label + 1) c))
      ((w.node s.label).chunk (i * k)) := by
  have hk : k = 100 := rfl
  have hm' : m < 256 := by rwa [chunkCount_mul] at hm
  have hkids := h.plan_kids_map henv hm hR rank hs
  have hparts : (h.plan env henv (m * k) hm R hR rank).parts = m := chunkCount_mul m
  obtain ⟨f, hf, hholds⟩ := (hok.sim.node s.label).chunks (by rw [hkids]; simpa using hne) i
    (Nat.lt_of_lt_of_eq hi hparts.symm)
  rw [hkids, List.length_map] at hholds
  rw [hkids] at hf
  have harrived : arrived (h.plan env henv (m * k) hm R hR rank).size (s.children.map label)
      (ρ.done s.label) ρ.taken i = _ := hok.arrived_eq h henv hm hR hs hpos hi
  rw [harrived] at hf hholds
  rw [List.map_map] at hholds
  have hsame : ((s.children.filter fun c => (ρ.done s.label + 1, some (i * k)) ∈
        handledIds w c.label s.label).map ((fun u => pad (f u)) ∘ label)) =
      (s.children.filter fun c => (ρ.done s.label + 1, some (i * k)) ∈
        handledIds w c.label s.label).map fun c =>
          chunkAt i (nestedAverage env (m * k) rank (ρ.done s.label + 1) c) := by
    refine List.map_congr_left fun c hc => ?_
    have hchild := child_mem_subtrees hs (List.mem_of_mem_filter hc)
    rw [← averageAt_label env (m * k) rank h.addresses hchild]
    exact (hf c.label (List.mem_map_of_mem hc)).pad_eq
      ((h.plan env henv (m * k) hm R hR rank).length_value _ _) (by rw [hk]; omega) hi
  rw [hsame] at hholds
  exact hholds

omit hs

/-- The root has sent one request for each round it has opened. -/
theorem Ok.root_requests {c : RoseTree Address} (hc : c ∈ (t.map addrOf).children) :
    (w.link (t.map addrOf).label c.label).sent.map Prod.snd =
      List.replicate (if w.started then min (ρ.done (t.map addrOf).label + 1) R else 0)
        (requestMessage (m * k)) := by
  have hmem := h.child_mem_plan henv hm hR rank (self_mem_subtrees (t.map addrOf)) hc
  have hasked : ρ.asked (t.map addrOf).label =
      if w.started then min (ρ.done (t.map addrOf).label + 1) R else 0 := by
    rw [hok.sim.started]
    exact hok.inv.root
  have hsent : (w.link (t.map addrOf).label c.label).sent =
      (List.range (ρ.asked (t.map addrOf).label)).map fun j => (j, requestMessage (m * k)) :=
    (hok.sim.down _ _ hmem).sent
  rw [hsent, hasked, List.map_map]
  refine List.eq_replicate_iff.2 ⟨by simp, fun b hb => ?_⟩
  obtain ⟨j, -, rfl⟩ := List.mem_map.1 hb
  rfl

/-- What the protocol says about the world, in terms of the tree. -/
theorem Ok.roundsApart (hpos : 0 < m) : RoundsApart env m R rank (t.map addrOf) w := by
  have hroot := (h.plan env henv (m * k) hm R hR rank).root_kids
  refine ⟨?_, fun s hs c hc => ?_, fun s hs c hc => ?_, fun s hs hne i hi => ?_, ?_⟩
  · refine ⟨ρ.done (t.map addrOf).label, hok.inv.done_root_le hroot, ?_,
      fun c hc => hok.root_requests h henv hm hR hc⟩
    refine (hok.sim.results _ hroot).trans (List.map_congr_left fun r _ => ?_)
    exact averageAt_label env (m * k) rank h.addresses (self_mem_subtrees _) (r + 1)
  · rw [(hok.sim.up _ _ (h.child_mem_plan henv hm hR rank hs hc)).handled]
    exact List.take_prefix _ _
  · rw [hok.handledIds_eq h henv hm hR hs hpos hc]
    exact List.Nodup.map (fun _ _ heq => part_inj heq) List.nodup_range
  · have hcur := (hok.sim.node s.label).curIter
      (by rw [h.plan_kids_map henv hm hR rank hs]; simpa using hne)
    rw [hcur]
    exact hok.entry_holds h henv hm hR hs hpos hne hi
  · intro a peer hpeer past heap
    obtain ⟨-, w', -, hw, -⟩ := hok.poll (hok.mem_socketPool.1 hpeer) past heap
    exact Option.isSome_iff_exists.2 ⟨w', hw⟩

end

/-- **Rounds do not mix.**  In every run of a deployment that `CreateAggTree` makes for an
aggregation tree, however polls and arrivals are ordered, the root's results are the nested
averages of the rounds, and it has sent one request for each round it has opened. -/
theorem nested_average {addrOf : String → Address} {t : RoseTree String} (h : IsAggTree addrOf t)
    (getAddress : String → Option Address) (haddr : Addressed getAddress addrOf t)
    (aggGroups : String → List String) (hgroups : Describes aggGroups t) (fuel : Nat)
    (hfuel : t.height < fuel) (m : Nat) (hpos : 1 ≤ m) (hm : m ≤ 255) (R : Nat) (hR : R < 65536)
    (port : Nat) (env : Env) (henv : env.consumer = addrOf t.label) (garbage : Address → Nat)
    (heap : Address → Address → Nat → UInt8) :
    ∃ apps, createAggTree getAddress R (m * k) port aggGroups fuel t.label [] 0 = some apps ∧
      ∀ acts w, runs (exec env) (World.init addrOf garbage heap apps) acts = some w →
        RoundsApart env m R (World.init addrOf garbage heap apps).ranks
          (t.map addrOf) w := by
  refine ⟨_,
    createAggTree_eq addrOf R (m * k) port aggGroups t hgroups haddr fuel hfuel [] 0 (by decide),
    fun acts w hw => ?_⟩
  have hm' : chunkCount (m * k) < 256 := by
    rw [chunkCount_mul]
    omega
  have happs := h.treeApps_wires R (m * k) port
  obtain ⟨ρ, hok⟩ := (h.ok_init henv hm' hR happs garbage heap).runs hw
  exact hok.roundsApart h henv hm' hR hpos

/-- One round of con0 over agg0 over pro0, up to the result of the consumer. -/
theorem nested_average_chain : ∃ apps w,
    createAggTree (addressesOf chainAddr chain) 1 (1 * k) 1234 chainGroups 3 "con0" [] 0 =
        some apps ∧
      runs (exec chainEnv) (World.init chainAddr (fun _ => 0) (fun _ _ _ => 0) apps)
        (chainAnswer ++ [.deliver 2 1 814, .poll 1 2 (fun _ => 0) fun _ _ => 0]) = some w ∧
      (w.results 1).length = 1 ∧
      RoundsApart chainEnv 1 1 (World.init chainAddr (fun _ => 0) (fun _ _ _ => 0) apps).ranks
        (chain.map chainAddr) w := by
  obtain ⟨apps, happs, hall⟩ := nested_average chain_isAggTree _
    (addressesOf_addressed chainAddr chain) chainGroups chain_describes 3 (by decide) 1 (by decide) (by decide) 1 (by decide) 1234 chainEnv rfl (fun _ => 0)
    (fun _ _ _ => 0)
  have hrun : ((createAggTree (addressesOf chainAddr chain) 1 (1 * k) 1234 chainGroups 3 "con0" []
      0).bind fun apps => (runs (exec chainEnv) (World.init chainAddr (fun _ => 0) (fun _ _ _ => 0) apps)
        (chainAnswer ++ [.deliver 2 1 814, .poll 1 2 (fun _ => 0) fun _ _ => 0])).map fun w =>
          (w.results 1).length) = some 1 := by decide +kernel
  have happs' : createAggTree (addressesOf chainAddr chain) 1 (1 * k) 1234 chainGroups 3 "con0" [] 0 =
      some apps := happs
  rw [happs', Option.bind_some, Option.map_eq_some_iff] at hrun
  obtain ⟨w, hw, hlen⟩ := hrun
  exact ⟨apps, w, happs', hw, hlen, hall _ w hw⟩

end InNetworkAgg
