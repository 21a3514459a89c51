import InNetworkAgg.Deployment
import InNetworkAgg.Lib.Split

/-!
# The aggtree file (scratch/in-quic-topo.cc, topofile/aggtree.txt)

`CreateAggGroup` reads a line for each node, its name with a character behind it
that is dropped, then the names of its children; a later line for the same node
replaces an earlier one.  `CreateAggTreeTopo` walks down the groups from `con0`.

    it returns ↔ no line is blank, and the groups describe a tree of nodes with addresses
                                                                     (createAggTreeTopo_returns_iff)
    a file that lists an aggregation tree gives its applications      (createAggTreeTopo_written)

A blank line has `pop_back` called on an empty name; groups that do not describe a
tree are circular, and the recursion does not end; and a name without a node or
without an address is a null pointer or an assertion.  Characters are bytes.
-/

namespace InNetworkAgg

open RoseTree Split

/-- `isspace` -/
def isspace (c : Char) : Bool := c.toNat = 32 || (9 ≤ c.toNat && c.toNat ≤ 13)

def isNewline (c : Char) : Bool := c.toNat = 10

/-- A pass of the loop of `CreateAggGroup`; there is no result where an empty name loses its
last character. -/
def readGroup (aggGroups : String → List String) (line : List Char) :
    Option (String → List String) :=
  match fields isspace line with
  | [] => none
  | nodeName :: nodes =>
    some (Function.update aggGroups (String.ofList nodeName.dropLast) (nodes.map String.ofList))

def createAggGroup (file : String) : Option (String → List String) :=
  (lines isNewline file.toList).foldlM readGroup fun _ => []

/-- `CreateAggTreeTopo`, the calls of `CreateAggTree` nested at most `fuel` deep. -/
def createAggTreeTopo (getAddress : String → Option Address) (itr vsize port fuel : Nat)
    (file : String) : Option (List App) :=
  (createAggGroup file).bind fun aggGroups =>
    createAggTree getAddress itr vsize port aggGroups fuel "con0" [] 0

/-! ## The groups of a file -/

/-- A node and its children. -/
abbrev Group := String × List String

def lineGroup (line : List Char) : Option Group :=
  match fields isspace line with
  | [] => none
  | nodeName :: nodes => some (String.ofList nodeName.dropLast, nodes.map String.ofList)

theorem readGroup_eq (aggGroups : String → List String) (line : List Char) :
    readGroup aggGroups line =
      (lineGroup line).map fun g => Function.update aggGroups g.1 g.2 := by
  unfold readGroup lineGroup
  cases fields isspace line <;> rfl

theorem lineGroup_eq_none (line : List Char) : lineGroup line = none ↔ Blank isspace line := by
  rw [← fields_eq_nil]
  unfold lineGroup
  cases fields isspace line <;> simp

/-- The group of a node: the last one that is listed. -/
def lastGroup (groups : List Group) (nodeName : String) : List String :=
  ((groups.reverse.find? fun g => g.1 = nodeName).map (·.2)).getD []

theorem lastGroup_append (groups : List Group) (g : Group) :
    lastGroup (groups ++ [g]) = Function.update (lastGroup groups) g.1 g.2 := by
  funext nodeName
  unfold lastGroup
  rw [List.reverse_append, List.reverse_singleton, List.singleton_append, List.find?_cons]
  by_cases h : g.1 = nodeName
  · subst h
    simp
  · simp [h, Function.update_of_ne (Ne.symm h)]

def fileGroups (file : String) : List Group := (lines isNewline file.toList).filterMap lineGroup

theorem foldlM_readGroup (ls : List (List Char)) : ∀ groups : List Group,
    ls.foldlM readGroup (lastGroup groups) =
      if ∀ line ∈ ls, ¬Blank isspace line then some (lastGroup (groups ++ ls.filterMap lineGroup))
      else none := by
  induction ls with
  | nil =>
    intro groups
    simp
  | cons line ls ih =>
    intro groups
    rw [List.foldlM_cons, readGroup_eq]
    cases h : lineGroup line with
    | none =>
      rw [lineGroup_eq_none] at h
      rw [if_neg fun hall => hall line List.mem_cons_self h]
      rfl
    | some g =>
      have hline : ¬Blank isspace line := by
        rw [← lineGroup_eq_none, h]
        simp
      rw [Option.map_some, Option.bind_eq_bind, Option.bind_some, ← lastGroup_append, ih]
      simp [hline, h]

/-- What `CreateAggGroup` reads. -/
theorem createAggGroup_eq (file : String) :
    createAggGroup file =
      if ∀ line ∈ lines isNewline file.toList, ¬Blank isspace line
      then some (lastGroup (fileGroups file)) else none := by
  have h := foldlM_readGroup (lines isNewline file.toList) []
  exact h

/-! ## When the recursion ends -/

section

variable {getAddress : String → Option Address} {itr vsize port : Nat}

/-- Every call that the loop made returned. -/
theorem foldlM_createChild_some {create : String → Nat → Option (List App)} (strs : List String) :
    ∀ st st', strs.foldlM (createChild getAddress create) st = some st' →
      ∀ str ∈ strs, ∃ rank apps, create str rank = some apps := by
  induction strs with
  | nil => exact fun _ _ _ _ h => absurd h List.not_mem_nil
  | cons str strs ih =>
    intro st st' h
    rw [List.foldlM_cons, Option.bind_eq_bind, Option.bind_eq_some_iff] at h
    obtain ⟨next, hnext, h⟩ := h
    obtain ⟨apps, happs, -⟩ := Option.bind_eq_some_iff.1 hnext
    exact List.forall_mem_cons.2 ⟨⟨_, apps, happs⟩, ih next st' h⟩

theorem describes_node {aggGroups : String → List String} {a : String}
    {cs : List (RoseTree String)} (ha : aggGroups a = cs.map label)
    (hcs : ∀ c ∈ cs, Describes aggGroups c) : Describes aggGroups (.node a cs) := by
  intro s hs
  rcases mem_subtrees_node.1 hs with rfl | ⟨c, hc, hs⟩
  · exact ha
  · exact hcs c hc s hs

/-- A call that returned went through a tree of nodes with addresses. -/
theorem exists_tree (aggGroups : String → List String) (fuel : Nat) :
    ∀ nodeName pa rank apps,
      createAggTree getAddress itr vsize port aggGroups fuel nodeName pa rank = some apps →
      ∃ t : RoseTree String, t.label = nodeName ∧ Describes aggGroups t ∧
        ∀ n ∈ t.labels, (getAddress n).isSome := by
  induction fuel with
  | zero => exact fun _ _ _ _ h => by cases h
  | succ fuel ih =>
    intro nodeName pa rank apps h
    unfold createAggTree at h
    obtain ⟨addr, haddr, h⟩ := Option.bind_eq_some_iff.1 h
    obtain ⟨st, hst, -⟩ := Option.map_eq_some_iff.1 h
    have hchildren : ∀ str ∈ aggGroups nodeName, ∃ t : RoseTree String,
        t.label = str ∧ Describes aggGroups t ∧ ∀ n ∈ t.labels, (getAddress n).isSome := by
      intro str hstr
      obtain ⟨rank, apps, happs⟩ := foldlM_createChild_some _ _ _ hst str hstr
      exact ih str _ rank apps happs
    have : Nonempty (RoseTree String) := ⟨.node nodeName []⟩
    choose! tree htree using hchildren
    have hlabels : (aggGroups nodeName).map (label ∘ tree) = (aggGroups nodeName).map id :=
      List.map_congr_left fun str hstr => (htree str hstr).1
    refine ⟨.node nodeName ((aggGroups nodeName).map tree), rfl, describes_node ?_ ?_, ?_⟩
    · rw [List.map_map, hlabels, List.map_id]
    · intro c hc
      obtain ⟨str, hstr, rfl⟩ := List.mem_map.1 hc
      exact (htree str hstr).2.1
    · intro n hn
      rw [labels_node] at hn
      rcases List.mem_cons.1 hn with rfl | hn
      · rw [haddr]
        rfl
      · obtain ⟨c, hc, hn⟩ := List.mem_flatMap.1 hn
        obtain ⟨str, hstr, rfl⟩ := List.mem_map.1 hc
        exact (htree str hstr).2.2 n hn

/-- **When `CreateAggTreeTopo` returns**: exactly when every line names a node and the groups,
the last one listed for each node, describe a tree with `con0` at its root, all of whose nodes
exist and have an address. -/
theorem createAggTreeTopo_returns_iff (getAddress : String → Option Address)
    (itr vsize port : Nat) (file : String) :
    (∃ fuel apps, createAggTreeTopo getAddress itr vsize port fuel file = some apps) ↔
      (∀ line ∈ lines isNewline file.toList, ¬Blank isspace line) ∧
        ∃ t : RoseTree String, t.label = "con0" ∧ Describes (lastGroup (fileGroups file)) t ∧
          ∀ n ∈ t.labels, (getAddress n).isSome := by
  unfold createAggTreeTopo
  rw [createAggGroup_eq]
  constructor
  · rintro ⟨fuel, apps, h⟩
    split at h
    · rename_i hlines
      exact ⟨hlines, exists_tree _ fuel "con0" [] 0 apps h⟩
    · cases h
  · rintro ⟨hlines, t, hroot, ht, haddr⟩
    let addrOf : String → Address := fun n => (getAddress n).getD 0
    have haddr : Addressed getAddress addrOf t := fun s hs => by
      have hsome := haddr s.label (labels_eq_map t ▸ List.mem_map_of_mem hs)
      obtain ⟨addr, h⟩ := Option.isSome_iff_exists.1 hsome
      simp only [addrOf, h, Option.getD_some]
    refine ⟨t.height + 1, treeApps addrOf itr vsize port [] 0 t, ?_⟩
    rw [if_pos hlines, Option.bind_some, ← hroot]
    exact createAggTree_eq addrOf itr vsize port _ t ht haddr _ (Nat.lt_succ_self _) [] 0
      (by decide)

end

/-! ## Files that list a tree -/

/-- A line for the group: the name and `:`, then the children, with spaces around. -/
structure Written (line : List Char) (g : Group) : Prop where
  oneLine : Plain isNewline line
  spaced : Spaced isspace line ((g.1.toList ++ [':']) :: g.2.map String.toList)

/-- The groups of the inner nodes are listed, and no other group of a node of the tree. -/
structure Lists (groups : List Group) (t : RoseTree String) : Prop where
  inner : ∀ s ∈ t.subtrees, s.children ≠ [] → (s.label, s.children.map label) ∈ groups
  right : ∀ g ∈ groups, ∀ s ∈ t.subtrees, s.label = g.1 → g.2 = s.children.map label

/-- The file has a line for each group; the newline at its end may be missing. -/
structure FileOf (file : String) (groups : List Group) : Prop where
  written : ∃ ls, List.Forall₂ Written ls groups ∧
    (file.toList = unlines '\n' ls ∨ file.toList ++ ['\n'] = unlines '\n' ls)

theorem Written.lineGroup {line : List Char} {g : Group} (h : Written line g) :
    lineGroup line = some g := by
  have hfields := (fields_iff line _).2 h.spaced
  unfold InNetworkAgg.lineGroup
  rw [hfields]
  simp [Function.comp_def]

theorem Written.ne_nil {line : List Char} {g : Group} (h : Written line g) : line ≠ [] := by
  rintro rfl
  have hfields := (fields_iff _ _).2 h.spaced
  cases hfields

theorem written_of_mem {ls : List (List Char)} {groups : List Group}
    (h : List.Forall₂ Written ls groups) : ∀ line ∈ ls, ∃ g, Written line g := by
  induction h with
  | nil => exact fun _ h => absurd h List.not_mem_nil
  | cons hw _ ih => exact List.forall_mem_cons.2 ⟨⟨_, hw⟩, ih⟩

theorem unlines_append (c : Char) (ls ls' : List (List Char)) :
    unlines c (ls ++ ls') = unlines c ls ++ unlines c ls' := List.flatMap_append ..

theorem FileOf.lines {file : String} {groups : List Group} (h : FileOf file groups) :
    ∃ ls, List.Forall₂ Written ls groups ∧ lines isNewline file.toList = ls := by
  obtain ⟨ls, hls, hfile⟩ := h.written
  have hplain : ∀ line ∈ ls, Plain isNewline line := fun line hline =>
    (written_of_mem hls line hline).elim fun _ hw => hw.oneLine
  refine ⟨ls, hls, ?_⟩
  rcases hfile with hfile | hfile
  · have hread : Split.lines isNewline (unlines '\n' ls ++ []) =
        ls ++ Split.lines isNewline [] :=
      lines_unlines rfl ls [] hplain
    rw [List.append_nil] at hread
    rw [hfile, hread]
    exact List.append_nil ls
  · -- the last line ends with the file
    rcases List.eq_nil_or_concat' ls with rfl | ⟨init, line, rfl⟩
    · exact absurd hfile (by simp [unlines])
    · have hlast : file.toList = unlines '\n' init ++ line := by
        have hsplit : file.toList ++ ['\n'] = unlines '\n' init ++ line ++ ['\n'] := by
          rw [hfile, unlines_append, List.append_assoc]
          simp [unlines]
        exact List.append_cancel_right hsplit
      obtain ⟨g, hw⟩ := written_of_mem hls line
        (List.mem_append_right _ (List.mem_singleton_self _))
      rw [hlast, lines_unlines rfl init line fun l hl => hplain l (List.mem_append_left _ hl),
        lines_last line hw.oneLine hw.ne_nil]

theorem filterMap_lineGroup {ls : List (List Char)} {groups : List Group}
    (h : List.Forall₂ Written ls groups) : ls.filterMap lineGroup = groups := by
  induction h with
  | nil => rfl
  | cons hw _ ih => rw [List.filterMap_cons, hw.lineGroup, ih]

/-- What is written is read. -/
theorem FileOf.createAggGroup_eq {file : String} {groups : List Group} (h : FileOf file groups) :
    createAggGroup file = some (lastGroup groups) := by
  obtain ⟨ls, hls, hlines⟩ := h.lines
  rw [InNetworkAgg.createAggGroup_eq, fileGroups, hlines, filterMap_lineGroup hls, if_pos]
  intro line hline
  obtain ⟨g, hw⟩ := written_of_mem hls line hline
  rw [← lineGroup_eq_none, hw.lineGroup]
  simp

theorem lastGroup_cases (groups : List Group) (nodeName : String) :
    (∃ g ∈ groups, g.1 = nodeName ∧ lastGroup groups nodeName = g.2) ∨
      (∀ g ∈ groups, g.1 ≠ nodeName) ∧ lastGroup groups nodeName = [] := by
  unfold lastGroup
  cases h : groups.reverse.find? fun g => g.1 = nodeName with
  | some g =>
    have hname := List.find?_some h
    have hmem := List.mem_of_find?_eq_some h
    exact .inl ⟨g, List.mem_reverse.1 hmem, by simpa using hname, rfl⟩
  | none =>
    refine .inr ⟨fun g hg => ?_, rfl⟩
    have hno := List.find?_eq_none.1 h g (List.mem_reverse.2 hg)
    simpa using hno

theorem Lists.describes {groups : List Group} {t : RoseTree String} (h : Lists groups t) :
    Describes (lastGroup groups) t := by
  intro s hs
  rcases lastGroup_cases groups s.label with ⟨g, hg, hname, hlast⟩ | ⟨hno, hlast⟩
  · rw [hlast]
    exact h.right g hg s hs hname.symm
  · rw [hlast]
    by_cases hleaf : s.children = []
    · rw [hleaf]
      rfl
    · exact absurd rfl (hno _ (h.inner s hs hleaf))

/-- **From the file to the applications**: a file with a line for each inner node of an
aggregation tree below `con0`, in any order and with any spacing, gives one application for
each node, with its role, its parent and its children. -/
theorem createAggTreeTopo_written (getAddress : String → Option Address)
    (addrOf : String → Address) (itr vsize port : Nat) (t : RoseTree String)
    (ht : IsAggTree addrOf t) (hroot : t.label = "con0") (haddr : Addressed getAddress addrOf t)
    (file : String) (groups : List Group) (hfile : FileOf file groups) (hgroups : Lists groups t)
    (fuel : Nat) (hfuel : t.height < fuel) :
    ∃ apps, createAggTreeTopo getAddress itr vsize port fuel file = some apps ∧
      Deployed addrOf itr vsize port t apps ∧ Wires addrOf itr vsize port t apps := by
  have happs := createAggTree_eq addrOf itr vsize port _ t hgroups.describes haddr fuel hfuel [] 0
    (by decide)
  refine ⟨treeApps addrOf itr vsize port [] 0 t, ?_, .aggTree _ _ fuel haddr hgroups.describes hfuel
    happs, ht.treeApps_wires itr vsize port⟩
  unfold createAggTreeTopo
  rw [hfile.createAggGroup_eq, Option.bind_some, ← hroot]
  exact happs

end InNetworkAgg
