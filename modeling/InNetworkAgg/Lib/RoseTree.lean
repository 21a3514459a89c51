import Mathlib

/-!
Finite trees with labelled nodes of any width.  `fold` is the recursion over
them, `subtrees` lists every node's subtree, and with distinct labels a node is
found by its label, has one parent and no label occurs twice among children:

    t :: (subtrees t).flatMap children ~ subtrees t         (subtrees_perm)
    s, s' ∈ subtrees t, s.label = s'.label → s = s'          (subtree_ext)
    c ∈ s.children, c ∈ s'.children → s = s'                 (parent_unique)
-/

/-- A node and its children, in order. -/
inductive RoseTree (α : Type*) where
  | node (label : α) (children : List (RoseTree α))

namespace RoseTree

variable {α β : Type*}

def label : RoseTree α → α
  | node a _ => a

def children : RoseTree α → List (RoseTree α)
  | node _ cs => cs

@[simp] theorem label_node (a : α) (cs : List (RoseTree α)) : (node a cs).label = a := rfl
@[simp] theorem children_node (a : α) (cs : List (RoseTree α)) : (node a cs).children = cs := rfl

theorem node_eta (t : RoseTree α) : node t.label t.children = t := by cases t; rfl

/-- Induction with the hypothesis for every child. -/
theorem induct {P : RoseTree α → Prop} (h : ∀ a cs, (∀ c ∈ cs, P c) → P (node a cs)) :
    ∀ t, P t := by
  intro t
  refine @RoseTree.rec α P (fun cs => ∀ c ∈ cs, P c) h ?nil ?cons t
  case nil =>
    intro c hc
    cases hc
  case cons =>
    intro c cs hc hcs d hd
    rcases List.mem_cons.1 hd with rfl | hd
    · exact hc
    · exact hcs d hd

/-! ## Recursion -/

mutual

/-- A value for every node from its label and its children's values. -/
def fold (f : α → List β → β) : RoseTree α → β
  | node a cs => f a (foldList f cs)

def foldList (f : α → List β → β) : List (RoseTree α) → List β
  | [] => []
  | c :: cs => fold f c :: foldList f cs

end

theorem foldList_eq (f : α → List β → β) (cs : List (RoseTree α)) :
    foldList f cs = cs.map (fold f) := by
  induction cs with
  | nil => rfl
  | cons c cs ih => rw [foldList, ih, List.map_cons]

theorem fold_node (f : α → List β → β) (a : α) (cs : List (RoseTree α)) :
    fold f (node a cs) = f a (cs.map (fold f)) := by
  rw [fold, foldList_eq]

/-- Number of nodes. -/
def size : RoseTree α → Nat := fold fun _ ns => 1 + ns.sum

/-- Number of nodes without children. -/
def leaves : RoseTree α → Nat := fold fun _ ns => if ns = [] then 1 else ns.sum

/-- The labels of the nodes without children, in order. -/
def leafLabels : RoseTree α → List α := fold fun a ls => if ls = [] then [a] else ls.flatten

/-- Number of edges on the longest path down. -/
def height : RoseTree α → Nat := fold fun _ hs => (hs.map (· + 1)).foldr max 0

/-- The labels, a node before its children. -/
def labels : RoseTree α → List α := fold fun a ls => a :: ls.flatten

theorem size_node (a : α) (cs : List (RoseTree α)) :
    size (node a cs) = 1 + (cs.map size).sum := fold_node _ _ _

theorem size_pos (t : RoseTree α) : 0 < t.size := by
  cases t
  rw [size_node]
  omega

theorem leaves_node (a : α) (cs : List (RoseTree α)) :
    leaves (node a cs) = if cs = [] then 1 else (cs.map leaves).sum := by
  rw [leaves, fold_node]
  simp

theorem leafLabels_node (a : α) (cs : List (RoseTree α)) :
    leafLabels (node a cs) = if cs = [] then [a] else cs.flatMap leafLabels := by
  rw [leafLabels, fold_node]
  simp [List.flatMap_def]

theorem length_leafLabels (t : RoseTree α) : t.leafLabels.length = t.leaves := by
  induction t using induct with
  | h a cs ih =>
    rw [leafLabels_node, leaves_node]
    split
    · rfl
    · rw [List.length_flatMap, List.map_congr_left ih]

theorem labels_node (a : α) (cs : List (RoseTree α)) :
    labels (node a cs) = a :: cs.flatMap labels := by
  rw [labels, fold_node, List.flatMap_def]

theorem le_foldr_max {l : List Nat} {n : Nat} (h : n ∈ l) : n ≤ l.foldr max 0 := by
  induction l with
  | nil => cases h
  | cons a l ih =>
    rw [List.foldr_cons]
    rcases List.mem_cons.1 h with rfl | h
    · exact Nat.le_max_left _ _
    · exact Nat.le_trans (ih h) (Nat.le_max_right _ _)

theorem height_child (a : α) {c : RoseTree α} {cs : List (RoseTree α)} (h : c ∈ cs) :
    c.height + 1 ≤ (node a cs).height := by
  rw [height, fold_node]
  apply le_foldr_max
  rw [List.map_map]
  exact List.mem_map.2 ⟨c, h, rfl⟩

theorem leaves_pos (t : RoseTree α) : 0 < t.leaves := by
  induction t using induct with
  | h a cs ih =>
    rw [leaves_node]
    cases cs with
    | nil => simp
    | cons c cs =>
      have := ih c List.mem_cons_self
      simp
      omega

theorem size_child (a : α) {c : RoseTree α} {cs : List (RoseTree α)} (h : c ∈ cs) :
    c.size < (node a cs).size := by
  rw [size_node]
  have := List.single_le_sum (l := cs.map size) (fun _ _ => Nat.zero_le _) c.size
    (List.mem_map_of_mem h)
  omega

/-- A path down has at most as many edges as there are other nodes. -/
theorem height_lt_size (t : RoseTree α) : t.height < t.size := by
  induction t using induct with
  | h a cs ih =>
    rw [height, fold_node, size_node]
    have hmax : ∀ l : List (RoseTree α), (∀ c ∈ l, c.height < c.size) →
        ((l.map (fold fun _ hs => (hs.map (· + 1)).foldr max 0)).map (· + 1)).foldr max 0 ≤
          (l.map size).sum := by
      intro l
      induction l with
      | nil => intro _; exact Nat.le_refl _
      | cons c l ihl =>
        intro hl
        have hc : c.height + 1 ≤ c.size := hl c List.mem_cons_self
        have hrest := ihl fun c' hc' => hl c' (List.mem_cons_of_mem _ hc')
        rw [height] at hc
        simp only [List.map_cons, List.foldr_cons, List.sum_cons]
        omega
    have := hmax cs ih
    omega

/-! ## Subtrees -/

mutual

/-- The tree itself and all subtrees below it. -/
def subtrees : RoseTree α → List (RoseTree α)
  | node a cs => node a cs :: subtreesList cs

def subtreesList : List (RoseTree α) → List (RoseTree α)
  | [] => []
  | c :: cs => subtrees c ++ subtreesList cs

end

theorem subtreesList_eq (cs : List (RoseTree α)) : subtreesList cs = cs.flatMap subtrees := by
  induction cs with
  | nil => rfl
  | cons c cs ih => rw [subtreesList, ih, List.flatMap_cons]

theorem subtrees_node (a : α) (cs : List (RoseTree α)) :
    subtrees (node a cs) = node a cs :: cs.flatMap subtrees := by
  rw [subtrees, subtreesList_eq]

theorem self_mem_subtrees (t : RoseTree α) : t ∈ t.subtrees := by
  cases t
  rw [subtrees_node]
  exact List.mem_cons_self

theorem labels_eq_map (t : RoseTree α) : t.labels = t.subtrees.map label := by
  induction t using induct with
  | h a cs ih =>
    rw [labels_node, subtrees_node, List.map_cons, List.map_flatMap, label_node]
    congr 1
    exact List.flatMap_congr ih

/-- A child of a subtree is a subtree. -/
theorem child_mem_subtrees {t s c : RoseTree α} (hs : s ∈ t.subtrees) (hc : c ∈ s.children) :
    c ∈ t.subtrees := by
  induction t using induct with
  | h a cs ih =>
    rw [subtrees_node] at hs ⊢
    rcases List.mem_cons.1 hs with rfl | hs
    · exact List.mem_cons_of_mem _ (List.mem_flatMap.2 ⟨c, hc, self_mem_subtrees c⟩)
    · obtain ⟨d, hd, hs⟩ := List.mem_flatMap.1 hs
      exact List.mem_cons_of_mem _ (List.mem_flatMap.2 ⟨d, hd, ih d hd hs⟩)

/-- Every subtree but the tree itself is a child of exactly one. -/
theorem subtrees_perm (t : RoseTree α) : (t :: t.subtrees.flatMap children).Perm t.subtrees := by
  induction t using induct with
  | h a cs ih =>
    rw [subtrees_node, List.flatMap_cons, children_node]
    refine List.Perm.cons _ ?_
    -- both sides list every child, then what is below it
    have hsplit : ∀ ds : List (RoseTree α), (∀ c ∈ ds, c ∈ cs) →
        (ds ++ (ds.flatMap subtrees).flatMap children).Perm (ds.flatMap subtrees) := by
      intro ds
      induction ds with
      | nil => intro _; simp
      | cons d ds ihd =>
        intro hsub
        have hrest := ihd fun c hc => hsub c (List.mem_cons_of_mem _ hc)
        have hfirst := ih d (hsub d List.mem_cons_self)
        rw [List.flatMap_cons, List.flatMap_append]
        have hperm : ((d :: ds) ++ (d.subtrees.flatMap children ++
            (ds.flatMap subtrees).flatMap children)).Perm
            ((d :: d.subtrees.flatMap children) ++ (ds ++ (ds.flatMap subtrees).flatMap children)) := by
          simp only [List.cons_append]
          refine List.Perm.cons _ ?_
          rw [← List.append_assoc, ← List.append_assoc]
          exact List.Perm.append_right _ List.perm_append_comm
        exact hperm.trans (hfirst.append hrest)
    exact hsplit cs fun c hc => hc

theorem mem_subtrees_node {a : α} {cs : List (RoseTree α)} {s : RoseTree α} :
    s ∈ (node a cs).subtrees ↔ s = node a cs ∨ ∃ c ∈ cs, s ∈ c.subtrees := by
  rw [subtrees_node, List.mem_cons, List.mem_flatMap]

/-- Below a root whose children are leaves there are only leaves. -/
theorem leaf_of_flat {t s : RoseTree α} (h : ∀ c ∈ t.children, c.children = [])
    (hs : s ∈ t.subtrees) : s = t ∨ s.children = [] := by
  cases t with
  | node a cs =>
    rcases mem_subtrees_node.1 hs with rfl | ⟨c, hc, hs⟩
    · exact Or.inl rfl
    · right
      cases c with
      | node b ds =>
        obtain rfl : ds = [] := h _ hc
        rcases mem_subtrees_node.1 hs with rfl | ⟨d, hd, -⟩
        · rfl
        · cases hd

/-- What lies below a child lies below the node. -/
theorem subtrees_child {a : α} {cs : List (RoseTree α)} {c s : RoseTree α} (hc : c ∈ cs)
    (hs : s ∈ c.subtrees) : s ∈ (node a cs).subtrees :=
  mem_subtrees_node.2 (Or.inr ⟨c, hc, hs⟩)

/-- What holds at the root and goes from every node to its children holds everywhere. -/
theorem subtrees_induct {P : RoseTree α → Prop} {t : RoseTree α} (hroot : P t)
    (hchild : ∀ s ∈ t.subtrees, P s → ∀ c ∈ s.children, P c) : ∀ s ∈ t.subtrees, P s := by
  induction t using induct with
  | h a cs ih =>
    intro s hs
    rcases mem_subtrees_node.1 hs with rfl | ⟨c, hc, hs⟩
    · exact hroot
    · refine ih c hc (hchild _ (self_mem_subtrees _) hroot c hc) (fun u hu => ?_) s hs
      exact hchild u (subtrees_child hc hu)

/-! ## Relabelling -/

/-- The same tree with other labels. -/
def map (f : α → β) : RoseTree α → RoseTree β := fold fun a cs => node (f a) cs

theorem map_node (f : α → β) (a : α) (cs : List (RoseTree α)) :
    map f (node a cs) = node (f a) (cs.map (map f)) := fold_node _ _ _

@[simp] theorem label_map (f : α → β) (t : RoseTree α) : (t.map f).label = f t.label := by
  cases t
  rw [map_node]
  rfl

@[simp] theorem children_map (f : α → β) (t : RoseTree α) :
    (t.map f).children = t.children.map (map f) := by
  cases t
  rw [map_node]
  rfl

theorem subtrees_map (f : α → β) (t : RoseTree α) : (t.map f).subtrees = t.subtrees.map (map f) := by
  induction t using induct with
  | h a cs ih =>
    rw [map_node, subtrees_node, subtrees_node, List.map_cons, map_node, List.flatMap_map,
      List.map_flatMap]
    congr 1
    exact List.flatMap_congr ih

theorem labels_map (f : α → β) (t : RoseTree α) : (t.map f).labels = t.labels.map f := by
  rw [labels_eq_map, labels_eq_map, subtrees_map, List.map_map, List.map_map]
  exact List.map_congr_left fun s _ => label_map f s

/-! ## Distinct labels -/

section
variable {t : RoseTree α} (hnd : t.labels.Nodup)
include hnd

theorem subtree_ext {s s' : RoseTree α} (hs : s ∈ t.subtrees) (hs' : s' ∈ t.subtrees)
    (h : s.label = s'.label) : s = s' := by
  rw [labels_eq_map] at hnd
  exact List.inj_on_of_nodup_map hnd hs hs' h

theorem childLabels_nodup : (t.label :: (t.subtrees.flatMap children).map label).Nodup := by
  rw [labels_eq_map] at hnd
  rw [← List.map_cons]
  exact ((subtrees_perm t).map label).nodup_iff.2 hnd

/-- The root is nobody's child. -/
theorem root_not_child {s c : RoseTree α} (hs : s ∈ t.subtrees) (hc : c ∈ s.children) :
    c.label ≠ t.label := by
  intro h
  have := (List.nodup_cons.1 (childLabels_nodup hnd)).1
  exact this (List.mem_map.2 ⟨c, List.mem_flatMap.2 ⟨s, hs, hc⟩, h⟩)

theorem children_labels_nodup {s : RoseTree α} (hs : s ∈ t.subtrees) :
    (s.children.map label).Nodup := by
  have h := (List.nodup_cons.1 (childLabels_nodup hnd)).2
  rw [List.map_flatMap] at h
  exact (List.nodup_flatMap.1 h).1 s hs

/-- A child is not its parent's parent. -/
theorem parent_not_child {s s' c c' : RoseTree α} (hs : s ∈ t.subtrees) (hs' : s' ∈ t.subtrees)
    (hc : c ∈ s.children) (hc' : c' ∈ s'.children) (h : c.label = s'.label) : c'.label ≠ s.label := by
  intro h'
  obtain rfl := subtree_ext hnd (child_mem_subtrees hs hc) hs' h
  obtain rfl := subtree_ext hnd (child_mem_subtrees hs' hc') hs h'
  have h1 := size_child c'.label hc
  have h2 := size_child c.label hc'
  rw [node_eta] at h1 h2
  omega

/-- A node has one parent. -/
theorem parent_unique {s s' c c' : RoseTree α} (hs : s ∈ t.subtrees) (hs' : s' ∈ t.subtrees)
    (hc : c ∈ s.children) (hc' : c' ∈ s'.children) (h : c.label = c'.label) : s = s' := by
  by_contra hne
  have hd := (List.nodup_cons.1 (childLabels_nodup hnd)).2
  rw [List.map_flatMap] at hd
  have hpair := (List.nodup_flatMap.1 hd).2
  have hsymm : Std.Symm fun x y : RoseTree α =>
      List.Disjoint (x.children.map label) (y.children.map label) := ⟨fun _ _ hxy => hxy.symm⟩
  have hdisj : List.Disjoint (s.children.map label) (s'.children.map label) :=
    hpair.forall hs hs' hne
  exact hdisj (List.mem_map_of_mem hc) (h ▸ List.mem_map_of_mem hc')

end

end RoseTree
