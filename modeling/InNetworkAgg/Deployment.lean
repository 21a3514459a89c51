import InNetworkAgg.Run

/-!
# Deployments of `CreateAggTree`

The applications of an aggregation tree are the nodes of a plan: the world they
are set up in starts the protocol (`IsAggTree.ok_init`), with

    nestedAverage … r (a producer) = what it generates for its r-th request
    nestedAverage … r (any other node) = meanVector (nestedAverage … r of its children)
-/

namespace InNetworkAgg

open PartialRun SimpleMPI World Rounds RoseTree

/-! ## Aggregation trees -/

/-- The name of a node holds the word of one role. -/
structure IsRole (r : Role) (nodeName : String) : Prop where
  con : named "con" nodeName = decide (r = .con)
  agg : named "agg" nodeName = decide (r = .agg)
  pro : named "pro" nodeName = decide (r = .pro)

theorem isRole_iff (r : Role) (nodeName : String) : IsRole r nodeName ↔
    named "con" nodeName = decide (r = .con) ∧ named "agg" nodeName = decide (r = .agg) ∧
      named "pro" nodeName = decide (r = .pro) :=
  ⟨fun h => ⟨h.con, h.agg, h.pro⟩, fun h => ⟨h.1, h.2.1, h.2.2⟩⟩

instance (r : Role) (nodeName : String) : Decidable (IsRole r nodeName) :=
  decidable_of_iff _ (isRole_iff r nodeName).symm

/-- One consumer at the root, aggregators inside and producers as leaves. -/
structure IsAggTree (addrOf : String → Address) (t : RoseTree String) : Prop where
  root : IsRole .con t.label
  inner : t.children ≠ []
  below : ∀ s ∈ t.subtrees, ∀ c ∈ s.children, IsRole (if c.children = [] then .pro else .agg) c.label
  width : ∀ s ∈ t.subtrees, s.children.length ≤ 255
  addresses : (t.map addrOf).labels.Nodup

/-- The average of a tree, rounded down at every node: `r` counts from 1. -/
def nestedAverage (env : Env) (size : Nat) (rank : Address → Nat) (r : Nat) :
    RoseTree Address → List UInt64 :=
  RoseTree.fold fun a vs =>
    if vs = [] then env.vector a (r - 1) size (rank a) else meanVector size vs

theorem nestedAverage_leaf (env : Env) (size : Nat) (rank : Address → Nat) (r : Nat)
    {s : RoseTree Address} (hs : s.children = []) :
    nestedAverage env size rank r s = env.vector s.label (r - 1) size (rank s.label) := by
  cases s with
  | node a cs =>
    obtain rfl : cs = [] := hs
    rfl

theorem nestedAverage_inner (env : Env) (size : Nat) (rank : Address → Nat) (r : Nat)
    {s : RoseTree Address} (hs : s.children ≠ []) :
    nestedAverage env size rank r s =
      meanVector size (s.children.map (nestedAverage env size rank r)) := by
  cases s with
  | node a cs =>
    rw [nestedAverage, fold_node, if_neg (by simpa using hs)]
    rfl

/-! ## The applications -/

section
variable (addrOf : String → Address) (itr vsize port : Nat)

/-- The one application of a node with one role. -/
def appOf (r : Role) (nodeName : String) (pa cGroup : List Address) (rank : Nat) : App :=
  { role := r, node := nodeName, port := port, itr := if r = .con then itr else 0, rank := rank
    vsize := if r = .con then some vsize else none, sGroup := pa, cGroup := cGroup }

theorem IsRole.createApps {r : Role} {nodeName : String} (h : IsRole r nodeName)
    (pa cGroup : List Address) (rank : Nat) :
    createApps itr vsize port nodeName pa cGroup rank =
      [appOf itr vsize port r nodeName pa cGroup rank] := by
  unfold InNetworkAgg.createApps
  rw [h.con, h.agg, h.pro]
  cases r <;> rfl

theorem mem_childApps {pa : List Address} {rank : Nat} {cs : List (RoseTree String)} {app : App} :
    app ∈ childApps addrOf itr vsize port pa rank cs →
      ∃ c ∈ cs, ∃ rank', app ∈ treeApps addrOf itr vsize port pa rank' c := by
  induction cs generalizing rank with
  | nil =>
    intro h
    cases h
  | cons c cs ih =>
    intro h
    rw [childApps, List.mem_append] at h
    rcases h with h | h
    · exact ⟨c, List.mem_cons_self, _, h⟩
    · obtain ⟨d, hd, rank', h⟩ := ih h
      exact ⟨d, List.mem_cons_of_mem _ hd, rank', h⟩

/-- Where an application of the tree comes from. -/
theorem mem_treeApps {t : RoseTree String} {pa : List Address} {rank : Nat} {app : App}
    (h : app ∈ treeApps addrOf itr vsize port pa rank t) :
    ∃ s ∈ t.subtrees, ∃ pa' rank', app ∈ createApps itr vsize port s.label pa'
        (s.children.map fun c => addrOf c.label) rank' ∧
      (s = t ∧ pa' = pa ∨ ∃ q ∈ t.subtrees, s ∈ q.children ∧ pa' = [addrOf q.label]) := by
  induction t using induct generalizing pa rank with
  | h a cs ih =>
    rw [treeApps, List.mem_append] at h
    rcases h with h | h
    · obtain ⟨c, hc, rank', h⟩ := mem_childApps addrOf itr vsize port h
      obtain ⟨s, hs, pa', rank'', happ, hpa⟩ := ih c hc h
      refine ⟨s, subtrees_child hc hs, pa', rank'', happ, Or.inr ?_⟩
      rcases hpa with ⟨rfl, rfl⟩ | ⟨q, hq, hsq, rfl⟩
      · exact ⟨_, self_mem_subtrees _, hc, rfl⟩
      · exact ⟨q, subtrees_child hc hq, hsq, rfl⟩
    · exact ⟨_, self_mem_subtrees _, pa, _, h, Or.inl ⟨rfl, rfl⟩⟩

/-- Every node that runs an application has one. -/
theorem exists_childApps {pa : List Address} {cs : List (RoseTree String)} {c : RoseTree String}
    (hc : c ∈ cs) {nodeName : String}
    (h : ∀ rank, ∃ app ∈ treeApps addrOf itr vsize port pa rank c, app.node = nodeName)
    (rank : Nat) : ∃ app ∈ childApps addrOf itr vsize port pa rank cs, app.node = nodeName := by
  induction cs generalizing rank with
  | nil => cases hc
  | cons d cs ih =>
    rw [childApps]
    rcases List.mem_cons.1 hc with rfl | hc
    · obtain ⟨app, happ, hn⟩ := h ((rank + 1) % 256)
      exact ⟨app, List.mem_append_left _ happ, hn⟩
    · obtain ⟨app, happ, hn⟩ := ih hc ((rank + 1) % 256)
      exact ⟨app, List.mem_append_right _ happ, hn⟩

theorem exists_treeApps {t s : RoseTree String} (hs : s ∈ t.subtrees) {r : Role}
    (hr : IsRole r s.label) (pa : List Address) (rank : Nat) :
    ∃ app ∈ treeApps addrOf itr vsize port pa rank t, app.node = s.label := by
  induction t using induct generalizing pa rank with
  | h a cs ih =>
    rw [treeApps]
    rcases mem_subtrees_node.1 hs with rfl | ⟨c, hc, hs⟩
    · have happs := hr.createApps itr vsize port pa (cs.map fun c => addrOf c.label)
        ((rank + cs.length) % 256)
      rw [label_node] at happs
      rw [happs]
      exact ⟨_, List.mem_append_right _ (List.mem_singleton_self _), rfl⟩
    · obtain ⟨app, happ, hn⟩ := exists_childApps addrOf itr vsize port hc
        (fun rank => ih c hc hs [addrOf a] rank) rank
      exact ⟨app, List.mem_append_left _ happ, hn⟩

variable {addrOf itr vsize port} in
theorem childApps_nodes (cs : List (RoseTree String))
    (h : ∀ c ∈ cs, ∀ pa rank,
      ((treeApps addrOf itr vsize port pa rank c).map (·.node)).Perm c.labels)
    (pa : List Address) (rank : Nat) :
    ((childApps addrOf itr vsize port pa rank cs).map (·.node)).Perm (cs.flatMap labels) := by
  induction cs generalizing rank with
  | nil => exact .nil
  | cons c cs ih =>
    rw [childApps, List.map_append, List.flatMap_cons]
    exact (h c List.mem_cons_self pa _).append
      (ih (fun d hd => h d (List.mem_cons_of_mem c hd)) _)

/-- One application for each node with one role. -/
theorem treeApps_nodes (t : RoseTree String) (ht : ∀ s ∈ t.subtrees, ∃ r, IsRole r s.label)
    (pa : List Address) (rank : Nat) :
    ((treeApps addrOf itr vsize port pa rank t).map (·.node)).Perm t.labels := by
  induction t using induct generalizing pa rank with
  | h a cs ih =>
    obtain ⟨r, hr⟩ := ht _ (self_mem_subtrees _)
    have hr : IsRole r a := hr
    have hchildren := childApps_nodes cs
      (fun c hc => ih c hc fun s hs => ht s (subtrees_child hc hs)) [addrOf a] rank
    rw [treeApps, List.map_append, labels_node,
      IsRole.createApps itr vsize port hr]
    exact (hchildren.append_right [a]).trans List.perm_append_comm

end

/-! ## The world they are set up in -/

/-- The role of a node of the tree `t`. -/
def roleIn (t s : RoseTree String) : Role :=
  if s.label = t.label then .con else if s.children = [] then .pro else .agg

theorem IsAggTree.labels {addrOf : String → Address} {t : RoseTree String} (h : IsAggTree addrOf t) :
    t.labels.Nodup := by
  have := h.addresses
  rw [labels_map] at this
  exact this.of_map

theorem IsAggTree.isRole {addrOf : String → Address} {t s : RoseTree String}
    (h : IsAggTree addrOf t) (hs : s ∈ t.subtrees) : IsRole (roleIn t s) s.label := by
  unfold roleIn
  by_cases hroot : s.label = t.label
  · rw [if_pos hroot, hroot]
    exact h.root
  · rw [if_neg hroot]
    -- every other node is somebody's child
    have hmem := (subtrees_perm t).mem_iff.2 hs
    rcases List.mem_cons.1 hmem with rfl | hmem
    · exact absurd rfl hroot
    · obtain ⟨q, hq, hsq⟩ := List.mem_flatMap.1 hmem
      exact h.below q hq s hsq

/-- Different nodes have different addresses. -/
theorem IsAggTree.addr_inj {addrOf : String → Address} {t s s' : RoseTree String}
    (h : IsAggTree addrOf t) (hs : s ∈ t.subtrees) (hs' : s' ∈ t.subtrees)
    (heq : addrOf s.label = addrOf s'.label) : s = s' := by
  have hnd := h.addresses
  rw [labels_map] at hnd
  have hl : s.label = s'.label := by
    rw [labels_eq_map] at hnd
    exact List.inj_on_of_nodup_map hnd (List.mem_map_of_mem hs) (List.mem_map_of_mem hs') heq
  exact subtree_ext h.labels hs hs' hl

/-- The applications are one for each node, with its role, its parent and its children. -/
structure Wires (addrOf : String → Address) (itr vsize port : Nat) (t : RoseTree String)
    (apps : List App) : Prop where
  complete : ∀ s ∈ t.subtrees, ∃ app ∈ apps, app.node = s.label
  sound : ∀ app ∈ apps, ∃ s ∈ t.subtrees, ∃ pa rank,
    app = appOf itr vsize port (roleIn t s) s.label pa (s.children.map fun c => addrOf c.label) rank ∧
    (s = t ∧ pa = [] ∨ ∃ q ∈ t.subtrees, s ∈ q.children ∧ pa = [addrOf q.label])
  single : (apps.map (·.node)).Nodup

theorem IsAggTree.treeApps_wires {addrOf : String → Address} {t : RoseTree String}
    (h : IsAggTree addrOf t) (itr vsize port : Nat) :
    Wires addrOf itr vsize port t (treeApps addrOf itr vsize port [] 0 t) where
  complete := fun s hs => exists_treeApps addrOf itr vsize port hs (h.isRole hs) [] 0
  sound := by
    intro app happ
    obtain ⟨s, hs, pa, rank, happ, hpa⟩ := mem_treeApps addrOf itr vsize port happ
    rw [(h.isRole hs).createApps itr vsize port, List.mem_singleton] at happ
    exact ⟨s, hs, pa, rank, happ, hpa⟩
  single :=
    (treeApps_nodes addrOf itr vsize port t (fun s hs => ⟨_, h.isRole hs⟩) [] 0).nodup_iff.2 h.labels

/-- `CreateDirectTopo`: the producers, then the consumer above all of them. -/
def createDirectTopo (getAddress : String → Option Address) (itr vsize port : Nat) (cons : String)
    (pros : List String) : Option (List App) := do
  let consumer ← getAddress cons
  let producers ← pros.mapM getAddress
  some ((pros.mapIdx fun i pro =>
      { role := .pro, node := pro, port := port, itr := 0, rank := i % 256, vsize := none
        sGroup := [consumer], cGroup := [] }) ++
    [{ role := .con, node := cons, port := port, itr := itr, rank := pros.length % 256
       vsize := some vsize, sGroup := [], cGroup := producers }])

/-- The tree of that topology. -/
def directTopo (cons : String) (pros : List String) : RoseTree String :=
  .node cons (pros.map fun pro => .node pro [])

/-- What `CreateDirectTopo` creates for nodes with addresses. -/
def directApps (addrOf : String → Address) (itr vsize port : Nat) (cons : String)
    (pros : List String) : List App :=
  (pros.mapIdx fun i pro =>
    { role := .pro, node := pro, port := port, itr := 0, rank := i % 256, vsize := none
      sGroup := [addrOf cons], cGroup := [] }) ++
  [{ role := .con, node := cons, port := port, itr := itr, rank := pros.length % 256
     vsize := some vsize, sGroup := [], cGroup := pros.map addrOf }]

theorem mapM_eq_some_map {getAddress : String → Option Address} {addrOf : String → Address}
    (pros : List String) (h : ∀ pro ∈ pros, getAddress pro = some (addrOf pro)) :
    pros.mapM getAddress = some (pros.map addrOf) := by
  induction pros with
  | nil => rfl
  | cons pro pros ih =>
    rw [List.mapM_cons, h pro List.mem_cons_self, ih fun p hp => h p (List.mem_cons_of_mem _ hp)]
    rfl

theorem createDirectTopo_eq {getAddress : String → Option Address} {addrOf : String → Address}
    {cons : String} {pros : List String}
    (haddr : Addressed getAddress addrOf (directTopo cons pros)) (itr vsize port : Nat) :
    createDirectTopo getAddress itr vsize port cons pros =
      some (directApps addrOf itr vsize port cons pros) := by
  have hcons : getAddress cons = some (addrOf cons) := haddr _ (self_mem_subtrees _)
  have hpros : ∀ pro ∈ pros, getAddress pro = some (addrOf pro) := fun pro hpro =>
    haddr (.node pro []) (subtrees_child (List.mem_map_of_mem hpro) (self_mem_subtrees _))
  unfold createDirectTopo
  rw [hcons, mapM_eq_some_map pros hpros]
  rfl

theorem directApps_nodes (addrOf : String → Address) (itr vsize port : Nat) (cons : String)
    (pros : List String) :
    (directApps addrOf itr vsize port cons pros).map (·.node) = pros ++ [cons] := by
  unfold directApps
  rw [List.map_append]
  congr 1
  apply List.ext_getElem
  · simp
  · intro i hi hi'
    simp

theorem IsAggTree.roleIn_directTopo {addrOf : String → Address} {cons : String}
    {pros : List String} (h : IsAggTree addrOf (directTopo cons pros)) {pro : String}
    (hpro : pro ∈ pros) : roleIn (directTopo cons pros) (.node pro []) = .pro := by
  unfold roleIn
  rw [if_neg (root_not_child h.labels (self_mem_subtrees _)
    (List.mem_map_of_mem hpro : RoseTree.node pro [] ∈ (directTopo cons pros).children))]
  rfl

/-- An edge of the direct topology. -/
theorem edge_directTopo {cons : String} {pros : List String} {q c : RoseTree String}
    (hq : q ∈ (directTopo cons pros).subtrees) (hc : c ∈ q.children) :
    q = directTopo cons pros ∧ ∃ pro ∈ pros, c = .node pro [] := by
  rcases mem_subtrees_node.1 hq with rfl | ⟨leaf, hleaf, hq⟩
  · obtain ⟨pro, hpro, rfl⟩ := List.mem_map.1 hc
    exact ⟨rfl, pro, hpro, rfl⟩
  · obtain ⟨pro, -, rfl⟩ := List.mem_map.1 hleaf
    obtain rfl : q = .node pro [] := by simpa [subtrees_node] using hq
    exact absurd hc List.not_mem_nil

theorem IsAggTree.directApps_wires {addrOf : String → Address} {cons : String}
    {pros : List String} (h : IsAggTree addrOf (directTopo cons pros)) (itr vsize port : Nat) :
    Wires addrOf itr vsize port (directTopo cons pros)
      (directApps addrOf itr vsize port cons pros) := by
  have hroot : roleIn (directTopo cons pros) (directTopo cons pros) = .con := if_pos rfl
  have hleaf : ∀ pro ∈ pros, RoseTree.node pro [] ∈ (directTopo cons pros).children :=
    fun pro hpro => List.mem_map_of_mem hpro
  refine ⟨?_, ?_, ?_⟩
  · intro s hs
    rcases mem_subtrees_node.1 hs with rfl | ⟨c, hc, hs⟩
    · exact ⟨_, List.mem_append_right _ (List.mem_singleton_self _), rfl⟩
    · obtain ⟨pro, hpro, rfl⟩ := List.mem_map.1 hc
      obtain rfl : s = .node pro [] := by simpa [subtrees_node] using hs
      obtain ⟨i, hi, rfl⟩ := List.getElem_of_mem hpro
      exact ⟨_, List.mem_append_left _ (List.mem_mapIdx.2 ⟨i, hi, rfl⟩), rfl⟩
  · intro app happ
    have hself := self_mem_subtrees (directTopo cons pros)
    rcases List.mem_append.1 happ with happ | happ
    · obtain ⟨i, hi, rfl⟩ := List.mem_mapIdx.1 happ
      have hchild := hleaf _ (List.getElem_mem hi)
      have hrole := h.roleIn_directTopo (List.getElem_mem hi)
      refine ⟨_, child_mem_subtrees hself hchild, [addrOf cons], i % 256, ?_,
        Or.inr ⟨_, hself, hchild, rfl⟩⟩
      rw [hrole]
      rfl
    · rw [List.mem_singleton] at happ
      refine ⟨_, hself, [], pros.length % 256, ?_, Or.inl ⟨rfl, rfl⟩⟩
      rw [hroot, happ]
      simp [appOf, directTopo, Function.comp_def]
  · have hlabels : ([cons] ++ pros).Nodup := by
      have hnd := h.labels
      rw [directTopo, labels_node] at hnd
      simpa [List.flatMap_map, labels_node] using hnd
    rw [directApps_nodes]
    exact List.nodup_append_comm.1 hlabels

/-- What `main` creates, depending on `topotype`: the applications, for the tree they form. -/
inductive Deployed (addrOf : String → Address) (itr vsize port : Nat) :
    RoseTree String → List App → Prop
  | direct (getAddress : String → Option Address) (cons : String) (pros : List String)
    {apps : List App} (haddr : Addressed getAddress addrOf (directTopo cons pros))
    (happs : createDirectTopo getAddress itr vsize port cons pros = some apps) :
    Deployed addrOf itr vsize port (directTopo cons pros) apps
  | aggTree (getAddress : String → Option Address) {t : RoseTree String}
    (aggGroups : String → List String) (fuel : Nat) {apps : List App}
    (haddr : Addressed getAddress addrOf t) (hgroups : Describes aggGroups t)
    (hfuel : t.height < fuel)
    (happs : createAggTree getAddress itr vsize port aggGroups fuel t.label [] 0 = some apps) :
    Deployed addrOf itr vsize port t apps

theorem Deployed.wires {addrOf : String → Address} {itr vsize port : Nat} {t : RoseTree String}
    {apps : List App} (hd : Deployed addrOf itr vsize port t apps) (h : IsAggTree addrOf t) :
    Wires addrOf itr vsize port t apps := by
  cases hd with
  | direct getAddress cons pros haddr happs =>
    rw [createDirectTopo_eq haddr] at happs
    cases happs
    exact h.directApps_wires itr vsize port
  | aggTree getAddress aggGroups fuel haddr hgroups hfuel happs =>
    rw [createAggTree_eq addrOf itr vsize port aggGroups t hgroups haddr fuel hfuel [] 0
      (by decide)] at happs
    cases happs
    exact h.treeApps_wires itr vsize port

section
variable {addrOf : String → Address} {t : RoseTree String} (h : IsAggTree addrOf t)
  {itr vsize port : Nat} {apps : List App} (happs : Wires addrOf itr vsize port t apps)
  (garbage : Address → Nat) (heap : Address → Address → Nat → UInt8)

include h happs in
/-- What runs at a node of the tree. -/
theorem IsAggTree.node_eq {s : RoseTree String} (hs : s ∈ t.subtrees) :
    ∃ pa rank, (World.init addrOf garbage heap apps).node (addrOf s.label) =
        (appOf itr vsize port (roleIn t s) s.label pa (s.children.map fun c => addrOf c.label)
          rank).setup (garbage (addrOf s.label)) ∧
      (s = t ∧ pa = [] ∨ ∃ q ∈ t.subtrees, s ∈ q.children ∧ pa = [addrOf q.label]) := by
  obtain ⟨app₀, happ₀, hn₀⟩ := happs.complete s hs
  cases hf : apps.find? fun app => decide (addrOf app.node = addrOf s.label) with
  | none =>
    have hnone := List.find?_eq_none.1 hf app₀ happ₀
    rw [hn₀] at hnone
    exact absurd (decide_eq_true rfl) hnone
  | some app =>
    have haddr : addrOf app.node = addrOf s.label := by simpa using List.find?_some hf
    obtain ⟨s', hs', pa, rank, rfl, hpa⟩ := happs.sound app (List.mem_of_find?_eq_some hf)
    obtain rfl : s' = s := h.addr_inj hs' hs haddr
    refine ⟨pa, rank, ?_, hpa⟩
    unfold World.init
    dsimp only
    rw [hf]

include happs in
/-- What runs anywhere else. -/
theorem Wires.node_eq_fresh {a : Address} (ha : ∀ s ∈ t.subtrees, addrOf s.label ≠ a) :
    (World.init addrOf garbage heap apps).node a = SimpleMPI.fresh (garbage a) := by
  have hf : apps.find? (fun app => decide (addrOf app.node = a)) = none := by
    refine List.find?_eq_none.2 fun app happ => ?_
    obtain ⟨s, hs, pa, rank, rfl, -⟩ := happs.sound app happ
    simp only [decide_eq_true_eq]
    exact ha s hs
  unfold World.init
  dsimp only
  rw [hf]

include h in
/-- The consumer is the node at the consumer's address. -/
theorem IsAggTree.roleIn_con_iff {s : RoseTree String} (hs : s ∈ t.subtrees) :
    roleIn t s = .con ↔ addrOf s.label = addrOf t.label := by
  unfold roleIn
  constructor
  · intro hcon
    split at hcon
    · rename_i hl
      rw [hl]
    · split at hcon <;> cases hcon
  · intro heq
    rw [h.addr_inj hs (self_mem_subtrees t) heq, if_pos rfl]

theorem setup_cGroup (r : Role) (nodeName : String) (pa : List Address) {cGroup : List Address}
    (rank g : Nat) (hc : cGroup.length < 65536) :
    ((appOf itr vsize port r nodeName pa cGroup rank).setup g).cGroup = cGroup := by
  have hcopy := deepVectorCopy_nil cGroup hc
  cases r <;> simpa [App.setup, appOf, setupMPI, setVSize, SimpleMPI.fresh] using hcopy

theorem setup_sGroup (r : Role) (nodeName : String) {pa : List Address} (cGroup : List Address)
    (rank g : Nat) (hpa : pa.length < 65536) :
    ((appOf itr vsize port r nodeName pa cGroup rank).setup g).sGroup = pa := by
  have hcopy := deepVectorCopy_nil pa hpa
  cases r <;> simpa [App.setup, appOf, setupMPI, setVSize, SimpleMPI.fresh] using hcopy

include h happs in
theorem IsAggTree.init_cGroup {s : RoseTree String} (hs : s ∈ t.subtrees) :
    ((World.init addrOf garbage heap apps).node (addrOf s.label)).cGroup =
      s.children.map fun c => addrOf c.label := by
  obtain ⟨pa, rank, hnode, -⟩ := h.node_eq happs garbage heap hs
  have hw := h.width s hs
  rw [hnode]
  exact setup_cGroup _ _ _ _ _ (by simp; omega)

include h happs in
/-- The parent of every node but the consumer. -/
theorem IsAggTree.init_sGroup {s : RoseTree String} (hs : s ∈ t.subtrees) :
    s = t ∧ ((World.init addrOf garbage heap apps).node (addrOf s.label)).sGroup = [] ∨
      ∃ q ∈ t.subtrees, s ∈ q.children ∧
        ((World.init addrOf garbage heap apps).node (addrOf s.label)).sGroup = [addrOf q.label] := by
  obtain ⟨pa, rank, hnode, hpa⟩ := h.node_eq happs garbage heap hs
  rw [hnode]
  rcases hpa with ⟨hst, rfl⟩ | ⟨q, hq, hsq, rfl⟩
  · exact Or.inl ⟨hst, setup_sGroup _ _ _ _ _ (by decide)⟩
  · exact Or.inr ⟨q, hq, hsq, setup_sGroup _ _ _ _ _ (by simp)⟩

include h happs in
/-- Only the consumer is set up with iterations, and is the end of the tree. -/
theorem IsAggTree.init_consumer (a : Address) :
    ((World.init addrOf garbage heap apps).node a).maxIteration =
        (if a = addrOf t.label then itr else 0) ∧
      ((World.init addrOf garbage heap apps).node a).asEnd = decide (a = addrOf t.label) := by
  by_cases hin : ∃ s ∈ t.subtrees, addrOf s.label = a
  · obtain ⟨s, hs, rfl⟩ := hin
    obtain ⟨pa, rank, hnode, -⟩ := h.node_eq happs garbage heap hs
    rw [hnode]
    by_cases hcon : roleIn t s = .con
    · have ha := (h.roleIn_con_iff hs).1 hcon
      rw [if_pos ha, decide_eq_true ha]
      simp [App.setup, appOf, hcon, setupMPI, setVSize]
    · have ha : addrOf s.label ≠ addrOf t.label := fun e => hcon ((h.roleIn_con_iff hs).2 e)
      rw [if_neg ha, decide_eq_false ha]
      simp [App.setup, appOf, hcon, setupMPI]
  · replace hin : ∀ s ∈ t.subtrees, addrOf s.label ≠ a := fun s hs e => hin ⟨s, hs, e⟩
    have ha : a ≠ addrOf t.label := (hin t (self_mem_subtrees t)).symm
    rw [happs.node_eq_fresh garbage heap hin, if_neg ha, decide_eq_false ha]
    exact ⟨rfl, rfl⟩

include h happs in
/-- The consumer is set up with the size of its vector. -/
theorem IsAggTree.init_size :
    ((World.init addrOf garbage heap apps).node (addrOf t.label)).vsize = vsize ∧
      ((World.init addrOf garbage heap apps).node (addrOf t.label)).avg.length = vsize := by
  have ht := self_mem_subtrees t
  obtain ⟨pa, rank, hnode, -⟩ := h.node_eq happs garbage heap ht
  rw [hnode, (h.roleIn_con_iff ht).2 rfl]
  simp [App.setup, appOf, setupMPI, setVSize]

/-- No node has begun a round. -/
theorem init_fresh (addrOf : String → Address) (apps : List App) (a : Address) :
    ((World.init addrOf garbage heap apps).node a).curIter = 0 ∧
      ∀ o, ((World.init addrOf garbage heap apps).node a).chunk o = .new := by
  unfold World.init
  dsimp only
  split
  · unfold App.setup
    split <;> exact ⟨rfl, fun _ => rfl⟩
  · exact ⟨rfl, fun _ => rfl⟩

end

/-! ## The plan of a tree -/

/-- The average of the subtree at an address. -/
def averageAt (env : Env) (size : Nat) (rank : Address → Nat) (T : RoseTree Address) (r : Nat)
    (a : Address) : List UInt64 :=
  match T.subtrees.find? fun s => s.label = a with
  | some s => nestedAverage env size rank r s
  | none => env.vector a (r - 1) size (rank a)

theorem averageAt_label (env : Env) (size : Nat) (rank : Address → Nat) {T s : RoseTree Address}
    (hnd : T.labels.Nodup) (hs : s ∈ T.subtrees) (r : Nat) :
    averageAt env size rank T r s.label = nestedAverage env size rank r s := by
  rw [averageAt, find_label T hnd hs]

/-- The width of a tree does not depend on its labels. -/
theorem IsAggTree.kids_length {addrOf : String → Address} {t : RoseTree String}
    (h : IsAggTree addrOf t) (a : Address) : (kidsOf (t.map addrOf) a).length < 256 := by
  unfold kidsOf
  split
  · rename_i s hs
    have hs' := List.mem_of_find?_eq_some hs
    rw [subtrees_map] at hs'
    obtain ⟨u, hu, rfl⟩ := List.mem_map.1 hs'
    have := h.width u hu
    simp
    omega
  · decide

/-- An aggregation tree as a plan. -/
def IsAggTree.plan {addrOf : String → Address} {t : RoseTree String} (h : IsAggTree addrOf t)
    (env : Env) (henv : env.consumer = addrOf t.label) (size : Nat) (hsize : chunkCount size < 256)
    (rounds : Nat) (hrounds : rounds < 65536) (rank : Address → Nat) : Plan where
  tree := Topology.ofTree (t.map addrOf) h.addresses
  env := env
  size := size
  rounds := rounds
  rank := rank
  value := averageAt env size rank (t.map addrOf)
  consumer_eq := henv.trans (label_map addrOf t).symm
  root_kids := by
    have hkids := kidsOf_label (t.map addrOf) h.addresses (self_mem_subtrees _)
    show kidsOf (t.map addrOf) (t.map addrOf).label ≠ []
    rw [hkids]
    simpa using h.inner
  width := h.kids_length
  chunks := hsize
  rounds_lt := hrounds
  value_leaf := by
    intro r v hv
    replace hv : kidsOf (t.map addrOf) v = [] := hv
    unfold kidsOf at hv
    unfold averageAt
    cases hf : (t.map addrOf).subtrees.find? fun s => s.label = v with
    | none => rfl
    | some s =>
      rw [hf] at hv
      have hlabel : s.label = v := by simpa using List.find?_some hf
      have hleaf : s.children = [] := List.map_eq_nil_iff.1 hv
      show nestedAverage env size rank (r + 1) s = _
      rw [nestedAverage_leaf env size rank (r + 1) hleaf, hlabel]
      rfl
  value_inner := by
    intro r p hp
    obtain ⟨v, hv⟩ := List.exists_mem_of_ne_nil _ hp
    obtain ⟨s, hs, rfl, c, hc, -⟩ := mem_kidsOf (t.map addrOf) hv
    have hkids : (Topology.ofTree (t.map addrOf) h.addresses).kids s.label = s.children.map label :=
      kidsOf_label (t.map addrOf) h.addresses hs
    rw [averageAt_label env size rank h.addresses hs, hkids, List.map_map,
      nestedAverage_inner env size rank r (List.ne_nil_of_mem hc)]
    congr 1
    refine List.map_congr_left fun c hc => ?_
    exact (averageAt_label env size rank h.addresses (child_mem_subtrees hs hc) r).symm

section
variable {addrOf : String → Address} {t : RoseTree String} (h : IsAggTree addrOf t) {env : Env}
  (henv : env.consumer = addrOf t.label) {size : Nat} (hsize : chunkCount size < 256) {rounds : Nat}
  (hrounds : rounds < 65536) {port : Nat} {apps : List App}
  (happs : Wires addrOf rounds size port t apps) (garbage : Address → Nat)
  (heap : Address → Address → Nat → UInt8)

/-- The children of a node of the tree. -/
theorem IsAggTree.plan_kids (rank : Address → Nat) {s : RoseTree String} (hs : s ∈ t.subtrees) :
    (h.plan env henv size hsize rounds hrounds rank).tree.kids (addrOf s.label) =
      s.children.map fun c => addrOf c.label := by
  have hs' : s.map addrOf ∈ (t.map addrOf).subtrees := by
    rw [subtrees_map]
    exact List.mem_map_of_mem hs
  have hkids := kidsOf_label (t.map addrOf) h.addresses hs'
  rw [label_map, children_map, List.map_map] at hkids
  refine hkids.trans (List.map_congr_left fun c _ => ?_)
  exact label_map addrOf c

/-- Other addresses are neither parents nor children. -/
theorem IsAggTree.plan_foreign (rank : Address → Nat) {a : Address}
    (ha : ∀ s ∈ t.subtrees, addrOf s.label ≠ a) :
    (h.plan env henv size hsize rounds hrounds rank).tree.kids a = [] ∧
      ∀ p, a ∉ (h.plan env henv size hsize rounds hrounds rank).tree.kids p := by
  have hlabels : ∀ s ∈ (t.map addrOf).subtrees, s.label ≠ a := by
    intro s hs
    rw [subtrees_map] at hs
    obtain ⟨u, hu, rfl⟩ := List.mem_map.1 hs
    rw [label_map]
    exact ha u hu
  constructor
  · refine List.eq_nil_iff_forall_not_mem.2 fun v hv => ?_
    obtain ⟨s, hs, hlabel, -⟩ := mem_kidsOf (t.map addrOf) hv
    exact hlabels s hs hlabel
  · intro p hp
    obtain ⟨s, hs, -, c, hc, hlabel⟩ := mem_kidsOf (t.map addrOf) hp
    exact hlabels c (child_mem_subtrees hs hc) hlabel

include happs in
/-- The groups are the edges of the tree. -/
theorem IsAggTree.init_groups (rank : Address → Nat) (a : Address) :
    ((World.init addrOf garbage heap apps).node a).cGroup =
        (h.plan env henv size hsize rounds hrounds rank).tree.kids a ∧
      ((∃ p, a ∈ (h.plan env henv size hsize rounds hrounds rank).tree.kids p ∧
          ((World.init addrOf garbage heap apps).node a).sGroup = [p]) ∨
        (∀ p, a ∉ (h.plan env henv size hsize rounds hrounds rank).tree.kids p) ∧
          ((World.init addrOf garbage heap apps).node a).sGroup = []) := by
  by_cases hin : ∃ s ∈ t.subtrees, addrOf s.label = a
  · obtain ⟨s, hs, rfl⟩ := hin
    rw [h.init_cGroup happs garbage heap hs, h.plan_kids henv hsize hrounds rank hs]
    refine ⟨rfl, ?_⟩
    rcases h.init_sGroup happs garbage heap hs with ⟨rfl, hsg⟩ | ⟨q, hq, hsq, hsg⟩
    · refine Or.inr ⟨fun p => ?_, hsg⟩
      have hroot : (h.plan env henv size hsize rounds hrounds rank).tree.root = addrOf s.label :=
        label_map addrOf s
      rw [← hroot]
      exact (h.plan env henv size hsize rounds hrounds rank).tree.root_not_kid p
    · refine Or.inl ⟨addrOf q.label, ?_, hsg⟩
      rw [h.plan_kids henv hsize hrounds rank hq]
      exact List.mem_map_of_mem hsq
  · replace hin : ∀ s ∈ t.subtrees, addrOf s.label ≠ a := fun s hs e => hin ⟨s, hs, e⟩
    obtain ⟨hkids, hparents⟩ := h.plan_foreign henv hsize hrounds rank hin
    rw [happs.node_eq_fresh garbage heap hin, hkids]
    exact ⟨rfl, Or.inr ⟨hparents, rfl⟩⟩

include happs in
/-- A node as it is set up, seen from the protocol before the start. -/
theorem IsAggTree.nodeOk_init (rank : Address → Nat) (a : Address)
    (hrank : rank a = ((World.init addrOf garbage heap apps).node a).rank) :
    NodeOk (h.plan env henv size hsize rounds hrounds rank) .init a
      ((World.init addrOf garbage heap apps).node a) := by
  have hroot : (h.plan env henv size hsize rounds hrounds rank).tree.root = addrOf t.label :=
    label_map addrOf t
  obtain ⟨hcg, hsg⟩ := h.init_groups henv hsize hrounds happs garbage heap rank a
  obtain ⟨hmax, hend⟩ := h.init_consumer happs garbage heap a
  obtain ⟨hiter, hchunk⟩ := init_fresh garbage heap addrOf apps a
  refine ⟨hcg, hsg, hrank.symm, ?_, ?_, fun _ => hiter, fun hz => ?_, fun hne => ?_⟩
  · rw [hroot]
    exact hmax
  · rw [hend, hroot, decide_eq_true_eq]
    exact (and_iff_left rfl).symm
  · obtain rfl : a = addrOf t.label := hroot ▸ hz.resolve_right (Nat.lt_irrefl 0)
    exact h.init_size happs garbage heap
  · exact ChunksOk.of_new hne (fun _ _ => Nat.zero_le _) hchunk

/-- The rank each node was set up with. -/
def World.ranks (w : World) (a : Address) : Nat := (w.node a).rank

include happs in
/-- **The deployment starts the protocol.** -/
theorem IsAggTree.ok_init :
    Ok (h.plan env henv size hsize rounds hrounds (World.init addrOf garbage heap apps).ranks) .init
      (World.init addrOf garbage heap apps) where
  reachable := Reachable.refl _ _
  sim := by
    refine ⟨rfl, fun a => ?_, fun _ _ _ => rfl, fun _ _ _ => ⟨rfl, rfl⟩, fun p v _ => ⟨rfl, ?_, rfl⟩,
      fun _ _ _ _ => rfl, fun _ _ => rfl, ?_⟩
    · exact h.nodeOk_init henv hsize hrounds happs garbage heap _ a rfl
    · intro j e he
      cases he
    · intro st hst
      cases hst
  flows := by
    intro a b _
    unfold Plan.grain
    have hring : ∀ g, 2 ≤ g → g ∣ 10240 →
        RingOk g ((World.init addrOf garbage heap apps).link a b).chan.ring :=
      fun g hg hd => RingOk.new (heap a b) hg hd
    split
    · exact ⟨hring 5 (by decide) (by decide), Nat.le_refl _, rfl⟩
    · exact ⟨hring 2 (by decide) (by decide), Nat.le_refl _, rfl⟩

end

/-! ## The smallest trees

`directTopo "con0" ["pro0"]`, and the same with an aggregator between the two. -/

def directAddr (nodeName : String) : Address := if nodeName = "con0" then 1 else 2

def directGroups (nodeName : String) : List String := if nodeName = "con0" then ["pro0"] else []

theorem directTopo_isAggTree : IsAggTree directAddr (directTopo "con0" ["pro0"]) where
  root := by decide
  inner := by decide
  below := by decide
  width := by decide
  addresses := by decide

theorem directTopo_describes : Describes directGroups (directTopo "con0" ["pro0"]) := by
  unfold Describes
  decide

def chain : RoseTree String := .node "con0" [.node "agg0" [.node "pro0" []]]

def chainGroups (nodeName : String) : List String :=
  if nodeName = "con0" then ["agg0"] else if nodeName = "agg0" then ["pro0"] else []

def chainAddr (nodeName : String) : Address :=
  if nodeName = "con0" then 1 else if nodeName = "agg0" then 2 else 3

def chainEnv : Env := { consumer := 1, rand := fun _ j => j, time := fun _ r => r }

theorem chain_isAggTree : IsAggTree chainAddr chain where
  root := by decide
  inner := by decide
  below := by decide
  width := by decide
  addresses := by decide

theorem chain_describes : Describes chainGroups chain := by
  unfold Describes
  decide

/-- The consumer's request reaches the producer, and its answer the aggregator. -/
def chainAnswer : List World.Action :=
  [.start 0, .deliver 1 2 15, .poll 2 1 (fun _ => 0) fun _ _ => 0, .deliver 2 3 15,
    .poll 3 2 (fun _ => 0) fun _ _ => 0, .deliver 3 2 814, .poll 2 3 (fun _ => 0) fun _ _ => 0]

end InNetworkAgg
