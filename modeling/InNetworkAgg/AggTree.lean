import InNetworkAgg.Lib.RoseTree
import InNetworkAgg.SimpleMPI

/-!
# The aggregation tree (scratch/in-quic-topo.cc)

`CreateAggTree` walks down the groups of the aggtree file and creates the
applications.  For groups that describe a finite tree of nodes with addresses it
creates exactly what `treeApps` lists (`createAggTree_eq`).  `getAddress` is
`Names::Find<Node> (name)->GetObject<Ipv4> ()->GetAddress (1, 0)`: there is no
address for a name that no node has, and for a node without a link.

The rank is counted up over the children before a node takes it for itself, so
a node has the rank of its last child when that is a leaf:

    ranks = rankSums t                                                    (treeApps_ranks)
    if all nodes run applications, the ranks differ ↔ the root is alone   (ranks_distinct)
-/

namespace InNetworkAgg

open RoseTree

/-! ## Algorithm -/

inductive Role where
  | con
  | agg
  | pro
deriving DecidableEq, Repr

/-- What `Createcon`, `Createagg` and `Createpro` set an application up with; only a
consumer gets a vector size. -/
structure App where
  role : Role
  node : String
  port : Nat
  itr : Nat
  rank : Nat
  vsize : Option Nat
  sGroup : List Address
  cGroup : List Address
deriving DecidableEq, Repr

/-- `nodeName.find (word) != npos` -/
def named (word nodeName : String) : Bool := decide (word.toList <:+: nodeName.toList)

section
variable (getAddress : String → Option Address) (addrOf : String → Address) (itr vsize port : Nat)

/-- The end of `CreateAggTree`: one application for each word in the name. -/
def createApps (nodeName : String) (pa cGroup : List Address) (rank : Nat) : List App :=
  (if named "con" nodeName then
    [{ role := .con, node := nodeName, port := port, itr := itr, rank := rank, vsize := some vsize
       sGroup := pa, cGroup := cGroup }] else []) ++
  (if named "agg" nodeName then
    [{ role := .agg, node := nodeName, port := port, itr := 0, rank := rank, vsize := none
       sGroup := pa, cGroup := cGroup }] else []) ++
  (if named "pro" nodeName then
    [{ role := .pro, node := nodeName, port := port, itr := 0, rank := rank, vsize := none
       sGroup := pa, cGroup := cGroup }] else [])

/-- One pass of the loop of `CreateAggTree` over the children: the counted `rank` (a `uint8_t`),
the applications created so far and `cGroup`. -/
def createChild (create : String → Nat → Option (List App)) (st : Nat × List App × List Address)
    (str : String) : Option (Nat × List App × List Address) :=
  let rank := (st.1 + 1) % 256
  (create str rank).bind fun apps =>
    (getAddress str).map fun addr => (rank, st.2.1 ++ apps, st.2.2 ++ [addr])

/-- `CreateAggTree`, the calls nested at most `fuel` deep. -/
def createAggTree (aggGroups : String → List String) :
    Nat → String → List Address → Nat → Option (List App)
  | 0, _, _, _ => none
  | fuel + 1, nodeName, pa, rank =>
    (getAddress nodeName).bind fun addr =>
      ((aggGroups nodeName).foldlM
        (createChild getAddress fun str rank => createAggTree aggGroups fuel str [addr] rank)
        (rank, [], [])).map fun st =>
          st.2.1 ++ createApps itr vsize port nodeName pa st.2.2 st.1

/-- The groups describe the tree: every node has its children as group. -/
def Describes (aggGroups : String → List String) (t : RoseTree String) : Prop :=
  ∀ s ∈ t.subtrees, aggGroups s.label = s.children.map label

/-- The nodes of the tree have addresses. -/
def Addressed (t : RoseTree String) : Prop :=
  ∀ s ∈ t.subtrees, getAddress s.label = some (addrOf s.label)

/-- Addresses for the nodes of a tree only. -/
def addressesOf (t : RoseTree String) (nodeName : String) : Option Address :=
  if nodeName ∈ t.labels then some (addrOf nodeName) else none

theorem addressesOf_addressed (t : RoseTree String) : Addressed (addressesOf addrOf t) addrOf t :=
  fun _ hs => if_pos (labels_eq_map t ▸ List.mem_map_of_mem hs)

/-! ## The applications of a tree -/

mutual

/-- The applications below and at a node, in the order they are created. -/
def treeApps (pa : List Address) (rank : Nat) : RoseTree String → List App
  | .node a cs =>
    childApps [addrOf a] rank cs ++
      createApps itr vsize port a pa (cs.map fun c => addrOf c.label) ((rank + cs.length) % 256)

def childApps (pa : List Address) (rank : Nat) : List (RoseTree String) → List App
  | [] => []
  | c :: cs => treeApps pa ((rank + 1) % 256) c ++ childApps pa ((rank + 1) % 256) cs

end

theorem Describes.child {aggGroups : String → List String} {a : String}
    {cs : List (RoseTree String)} (h : Describes aggGroups (.node a cs)) {c : RoseTree String}
    (hc : c ∈ cs) : Describes aggGroups c :=
  fun s hs => h s (subtrees_child hc hs)

variable {getAddress addrOf} in
theorem Addressed.child {a : String} {cs : List (RoseTree String)}
    (h : Addressed getAddress addrOf (.node a cs)) {c : RoseTree String} (hc : c ∈ cs) :
    Addressed getAddress addrOf c :=
  fun s hs => h s (subtrees_child hc hs)

/-- The loop over the children. -/
theorem foldlM_createChild (create : String → Nat → Option (List App)) (pa : List Address)
    (cs : List (RoseTree String))
    (haddr : ∀ c ∈ cs, getAddress c.label = some (addrOf c.label))
    (ih : ∀ c ∈ cs, ∀ rank < 256,
      create c.label rank = some (treeApps addrOf itr vsize port pa rank c)) :
    ∀ rank apps (cGroup : List Address), rank < 256 →
      (cs.map label).foldlM (createChild getAddress create) (rank, apps, cGroup) =
        some ((rank + cs.length) % 256, apps ++ childApps addrOf itr vsize port pa rank cs,
          cGroup ++ cs.map fun c => addrOf c.label) := by
  induction cs with
  | nil =>
    intro rank apps cGroup hr
    simp [childApps, Nat.mod_eq_of_lt hr]
  | cons c cs ihcs =>
    intro rank apps cGroup hr
    have hr' : (rank + 1) % 256 < 256 := Nat.mod_lt _ (by decide)
    have hc : createChild getAddress create (rank, apps, cGroup) c.label =
        some ((rank + 1) % 256, apps ++ treeApps addrOf itr vsize port pa ((rank + 1) % 256) c,
          cGroup ++ [addrOf c.label]) := by
      rw [createChild, ih c List.mem_cons_self _ hr', haddr c List.mem_cons_self]
      rfl
    rw [List.map_cons, List.foldlM_cons, hc, Option.bind_eq_bind, Option.bind_some,
      ihcs (fun c' hc' => haddr c' (List.mem_cons_of_mem _ hc'))
        (fun c' hc' => ih c' (List.mem_cons_of_mem _ hc')) _ _ _ hr']
    simp only [childApps, List.append_assoc, List.map_cons, List.singleton_append, List.length_cons]
    congr 2
    omega

variable {getAddress} in
/-- `CreateAggTree` on groups that describe a tree of nodes with addresses. -/
theorem createAggTree_eq (aggGroups : String → List String) (t : RoseTree String)
    (ht : Describes aggGroups t) (haddr : Addressed getAddress addrOf t) (fuel : Nat)
    (hfuel : t.height < fuel) (pa : List Address) (rank : Nat) (hr : rank < 256) :
    createAggTree getAddress itr vsize port aggGroups fuel t.label pa rank =
      some (treeApps addrOf itr vsize port pa rank t) := by
  induction t using induct generalizing fuel pa rank with
  | h a cs ih =>
    obtain ⟨fuel, rfl⟩ : ∃ f, fuel = f + 1 := ⟨fuel - 1, by omega⟩
    have hgroup : aggGroups a = cs.map label := ht _ (self_mem_subtrees _)
    have hself : getAddress a = some (addrOf a) := haddr _ (self_mem_subtrees _)
    have hloop := foldlM_createChild getAddress addrOf itr vsize port
      (fun str rank => createAggTree getAddress itr vsize port aggGroups fuel str [addrOf a] rank)
      [addrOf a] cs (fun c hc => haddr c (subtrees_child hc (self_mem_subtrees c)))
      (fun c hc rank hr =>
        ih c hc (ht.child hc) (haddr.child hc) fuel (by have := height_child a hc; omega) _ rank hr)
      rank [] [] hr
    rw [label_node, createAggTree, hself, hgroup, Option.bind_some]
    simp only [hloop, Option.map_some, List.nil_append]
    rw [treeApps]

/-! ## Ranks -/

/-- The node runs an application. -/
def RunsApp (nodeName : String) : Prop :=
  named "con" nodeName = true ∨ named "agg" nodeName = true ∨ named "pro" nodeName = true

instance (nodeName : String) : Decidable (RunsApp nodeName) := instDecidableOr

theorem rank_mem_createApps {nodeName : String} (hrun : RunsApp nodeName) (pa cGroup : List Address)
    (rank : Nat) : rank ∈ (createApps itr vsize port nodeName pa cGroup rank).map (·.rank) := by
  rcases hrun with h | h | h <;> simp [createApps, h]

/-- The last child starts from the rank its parent ends with. -/
theorem childApps_concat (pa : List Address) (rank : Nat) (cs : List (RoseTree String))
    (c : RoseTree String) :
    childApps addrOf itr vsize port pa rank (cs ++ [c]) =
      childApps addrOf itr vsize port pa rank cs ++
        treeApps addrOf itr vsize port pa ((rank + (cs.length + 1)) % 256) c := by
  induction cs generalizing rank with
  | nil => simp [childApps]
  | cons d cs ih =>
    rw [List.cons_append, childApps, childApps, ih, List.append_assoc, List.length_cons,
      Nat.mod_add_mod, show rank + 1 + (cs.length + 1) = rank + (cs.length + 1 + 1) by omega]

/-- Some node with children shares its rank with the leaf that is its last child. -/
theorem treeApps_rank_twice (t : RoseTree String) (ht : t.children ≠ [])
    (hrun : ∀ s ∈ t.subtrees, RunsApp s.label) (pa : List Address) (rank : Nat) :
    ¬ ((treeApps addrOf itr vsize port pa rank t).map (·.rank)).Nodup := by
  induction t using induct generalizing pa rank with
  | h a cs ih =>
    obtain ⟨init, c, rfl⟩ := (List.eq_nil_or_concat' cs).resolve_left ht
    have hc : c ∈ init ++ [c] := by simp
    rw [treeApps, childApps_concat, List.map_append, List.map_append]
    intro hnd
    by_cases hleaf : c.children = []
    · -- both run an application under the rank the loop ended with
      cases c with
      | node x ds =>
        obtain rfl : ds = [] := hleaf
        have hchild := rank_mem_createApps itr vsize port
          (hrun (.node x []) (subtrees_child hc (self_mem_subtrees _))) [addrOf a] []
          ((rank + (init.length + 1)) % 256)
        have hown := rank_mem_createApps itr vsize port (hrun _ (self_mem_subtrees _)) pa
          ((init ++ [RoseTree.node x []]).map fun c => addrOf c.label) ((rank + (init.length + 1)) % 256)
        refine (List.nodup_append.1 hnd).2.2 ((rank + (init.length + 1)) % 256)
          (List.mem_append_right _ ?_) ((rank + (init.length + 1)) % 256) ?_ rfl
        · simpa [treeApps, childApps] using hchild
        · simpa using hown
    · refine ih c hc hleaf (fun s hs => hrun s (subtrees_child hc hs)) [addrOf a]
        ((rank + (init.length + 1)) % 256) ?_
      exact (List.nodup_append.1 (List.nodup_append.1 hnd).1).2.1

/-- The sum of the positions among siblings on the path to a node, and its number of children:
once for each application, in the order they are created. -/
def rankSums : RoseTree String → List Nat :=
  RoseTree.fold fun a ls =>
    (ls.mapIdx fun i l => l.map (· + (i + 1))).flatten ++
      List.replicate ((if named "con" a then 1 else 0) + (if named "agg" a then 1 else 0) +
        if named "pro" a then 1 else 0) ls.length

theorem rankSums_node (a : String) (cs : List (RoseTree String)) :
    rankSums (.node a cs) =
      ((cs.map rankSums).mapIdx fun i l => l.map (· + (i + 1))).flatten ++
        List.replicate ((if named "con" a then 1 else 0) + (if named "agg" a then 1 else 0) +
          if named "pro" a then 1 else 0) cs.length := by
  rw [rankSums, fold_node, List.length_map]

theorem createApps_ranks (nodeName : String) (pa cGroup : List Address) (rank : Nat) :
    (createApps itr vsize port nodeName pa cGroup rank).map (·.rank) =
      List.replicate ((if named "con" nodeName then 1 else 0) +
        (if named "agg" nodeName then 1 else 0) + if named "pro" nodeName then 1 else 0) rank := by
  simp only [createApps]
  cases named "con" nodeName <;> cases named "agg" nodeName <;> cases named "pro" nodeName <;> rfl

/-- The ranks of the children's applications, from those of each child. -/
theorem childApps_ranks (pa : List Address) (cs : List (RoseTree String))
    (ih : ∀ c ∈ cs, ∀ rank, (treeApps addrOf itr vsize port pa rank c).map (·.rank) =
      (rankSums c).map fun x => (rank + x) % 256) (rank : Nat) :
    (childApps addrOf itr vsize port pa rank cs).map (·.rank) =
      ((cs.map rankSums).mapIdx fun i l => l.map (· + (i + 1))).flatten.map
        fun x => (rank + x) % 256 := by
  induction cs generalizing rank with
  | nil => rfl
  | cons c cs ihcs =>
    rw [childApps, List.map_append, ih c List.mem_cons_self,
      ihcs (fun c' hc' => ih c' (List.mem_cons_of_mem _ hc')), List.map_cons, List.mapIdx_cons,
      List.flatten_cons, List.map_append]
    congr 1
    · rw [List.map_map]
      refine List.map_congr_left fun x _ => ?_
      simp only [Function.comp]
      omega
    · rw [List.map_flatten, List.map_flatten]
      congr 1
      apply List.ext_getElem
      · simp
      · intro i h1 h2
        simp only [List.getElem_map, List.getElem_mapIdx, List.map_map]
        refine List.map_congr_left fun x _ => ?_
        simp only [Function.comp]
        omega

/-- The ranks given in the tree. -/
theorem treeApps_ranks (t : RoseTree String) (pa : List Address) (rank : Nat) :
    (treeApps addrOf itr vsize port pa rank t).map (·.rank) =
      (rankSums t).map fun x => (rank + x) % 256 := by
  induction t using induct generalizing pa rank with
  | h a cs ih =>
    rw [treeApps, List.map_append, childApps_ranks addrOf itr vsize port [addrOf a] cs
      (fun c hc rank => ih c hc _ rank), createApps_ranks, rankSums_node, List.map_append,
      List.map_replicate]

theorem length_le_sum_size (cs : List (RoseTree String)) : cs.length ≤ (cs.map size).sum := by
  induction cs with
  | nil => exact Nat.le_refl _
  | cons c cs ih =>
    have := size_pos c
    rw [List.map_cons, List.sum_cons, List.length_cons]
    omega

/-- The siblings before a node have at least one node each. -/
theorem position_add_size (cs : List (RoseTree String)) (i : Nat) (hi : i < cs.length) :
    i + cs[i].size ≤ (cs.map size).sum := by
  induction cs generalizing i with
  | nil => cases hi
  | cons c cs ih =>
    rw [List.map_cons, List.sum_cons]
    cases i with
    | zero => simp
    | succ i =>
      have := size_pos c
      have := ih i (by simpa using hi)
      simp only [List.getElem_cons_succ]
      omega

/-- A path and the children at its end are part of the tree. -/
theorem rankSums_lt_size (t : RoseTree String) : ∀ x ∈ rankSums t, x < t.size := by
  induction t using induct with
  | h a cs ih =>
    intro x hx
    rw [rankSums_node, List.mem_append] at hx
    rw [size_node]
    rcases hx with hx | hx
    · obtain ⟨l, hl, hxl⟩ := List.mem_flatten.1 hx
      obtain ⟨i, hi, rfl⟩ := List.mem_mapIdx.1 hl
      obtain ⟨y, hy, rfl⟩ := List.mem_map.1 hxl
      have hi' : i < cs.length := by simpa using hi
      have hlt := ih cs[i] (List.getElem_mem hi') y (by simpa using hy)
      have := position_add_size cs i hi'
      omega
    · have hlen := length_le_sum_size cs
      rw [List.eq_of_mem_replicate hx]
      omega

/-- **Ranks.**  `CreateAggTree` started with rank 0 on groups that describe a tree below `con0`,
of nodes with addresses, gives each application the sum of the sibling positions on the path to its node plus the
number of the node's children.  These are never pairwise different when `con0` has
children and every node runs an application. -/
theorem ranks_distinct (aggGroups : String → List String) (t : RoseTree String)
    (hroot : t.label = "con0") (ht : Describes aggGroups t)
    (haddr : Addressed getAddress addrOf t) (hsize : t.size ≤ 255) :
    ∃ apps, (∀ fuel, 255 ≤ fuel →
        createAggTree getAddress itr vsize port aggGroups fuel "con0" [] 0 = some apps) ∧
      ((apps.map (·.rank)).Nodup ↔ (rankSums t).Nodup) ∧
      ((∀ s ∈ t.subtrees, RunsApp s.label) → ((apps.map (·.rank)).Nodup ↔ t.children = [])) := by
  refine ⟨treeApps addrOf itr vsize port [] 0 t, fun fuel hfuel => ?_, ?_, fun hrun => ?_⟩
  · have := height_lt_size t
    rw [← hroot]
    exact createAggTree_eq addrOf itr vsize port aggGroups t ht haddr fuel (by omega) [] 0
      (by decide)
  · have hsmall : (rankSums t).map (fun x => (0 + x) % 256) = rankSums t := by
      conv => rhs; rw [← List.map_id (rankSums t)]
      refine List.map_congr_left fun x hx => ?_
      have := rankSums_lt_size t x hx
      rw [Nat.zero_add, Nat.mod_eq_of_lt (by omega)]
      rfl
    rw [treeApps_ranks, hsmall]
  · constructor
    · intro hnd
      by_contra hne
      exact treeApps_rank_twice addrOf itr vsize port t hne hrun [] 0 hnd
    · intro hleaf
      cases t with
      | node a cs =>
        obtain rfl : cs = [] := hleaf
        obtain rfl : a = "con0" := hroot
        have hcon : named "con" "con0" = true := by decide
        have hagg : named "agg" "con0" = false := by decide
        have hpro : named "pro" "con0" = false := by decide
        simp [treeApps, childApps, createApps, hcon, hagg, hpro]

end

theorem ranks_distinct_con0 : ∃ apps,
    createAggTree (fun _ => some 0) 1000 1000 1234 (fun _ => []) 255 "con0" [] 0 = some apps ∧
      (apps.map (·.rank)).Nodup := by
  have hsub : ∀ s ∈ (RoseTree.node "con0" []).subtrees, s = .node "con0" [] := by
    intro s hs
    simpa [subtrees_node] using hs
  obtain ⟨apps, happs, -, hiff⟩ := ranks_distinct (fun _ => some 0) (fun _ => 0) 1000 1000 1234
    (fun _ => []) (.node "con0" []) rfl (fun s hs => by rw [hsub s hs]; rfl) (fun _ _ => rfl)
    (by decide)
  exact ⟨apps, happs 255 (Nat.le_refl _), (hiff fun s hs => by rw [hsub s hs]; decide).2 rfl⟩

/-- topofile/aggtree.txt -/
def aggtree (nodeName : String) : List String :=
  if nodeName = "con0" then ["agg0", "agg1", "agg2", "agg3", "agg4"]
  else if nodeName = "agg0" then ["pro0", "pro5", "pro10", "pro15", "pro20", "pro25"]
  else if nodeName = "agg1" then ["pro1", "pro6", "pro11", "pro16", "pro21", "pro26"]
  else if nodeName = "agg2" then ["pro2", "pro7", "pro12", "pro17", "pro22", "pro27"]
  else if nodeName = "agg3" then ["pro3", "pro8", "pro13", "pro18", "pro23", "pro28"]
  else if nodeName = "agg4" then ["pro4", "pro9", "pro14", "pro19", "pro24", "pro29"]
  else []

/-- On aggtree.txt ranks are given twice, also to two producers: pro5 under agg0 and
pro1 under agg1 both get 3. -/
theorem aggtree_ranks_repeat : ∃ apps,
    createAggTree (fun _ => some 0) 1000 1000 1234 aggtree 255 "con0" [] 0 = some apps ∧
      ¬ (apps.map (·.rank)).Nodup ∧
      ∃ a ∈ apps, ∃ b ∈ apps, a.role = .pro ∧ b.role = .pro ∧ a.node ≠ b.node ∧ a.rank = b.rank := by
  have hany : (createAggTree (fun _ => some 0) 1000 1000 1234 aggtree 255 "con0" [] 0).any (fun apps =>
      decide (¬ (apps.map (·.rank)).Nodup ∧ ∃ a ∈ apps, ∃ b ∈ apps,
        a.role = .pro ∧ b.role = .pro ∧ a.node ≠ b.node ∧ a.rank = b.rank)) = true := by
    decide +kernel
  cases happs : createAggTree (fun _ => some 0) 1000 1000 1234 aggtree 255 "con0" [] 0 with
  | none =>
    rw [happs] at hany
    cases hany
  | some apps =>
    rw [happs, Option.any_some, decide_eq_true_eq] at hany
    exact ⟨apps, rfl, hany⟩

end InNetworkAgg
