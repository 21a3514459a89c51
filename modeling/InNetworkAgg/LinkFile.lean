import InNetworkAgg.AggFile

/-!
# The link file (scratch/in-quic-topo.cc, topofile/link-2.txt)

`BuileTopo` reads a link from each line that has six fields, and gives it a network
of its own: `10.2.ia.0` when an aggregator is at one of its ends, else `10.1.ic.0`.
The hosts in a network are up to ns-3 (`Ns3Addresses`), and so is the interface of a
node that `GetAddress (1, 0)` means.  With at most 255 networks of each kind

    two nodes with links have different addresses                          (addrOf_inj)
    the two files give the applications of an aggregation tree             (deployment_of_files)

The number in the fourth field is read by the standard library: `readDouble` is the
text behind it.  What ns-3 objects to in the other fields is left out.
-/

namespace InNetworkAgg

open RoseTree Split

/-! ## Reading -/

/-- `>>` on a string, and the text behind. -/
def readWord (x : List Char) : Option (List Char × List Char) :=
  let y := x.dropWhile isspace
  if y = [] then none
  else some (y.takeWhile fun c => !isspace c, y.dropWhile fun c => !isspace c)

structure P2pLink where
  node1 : String
  node2 : String
deriving DecidableEq, Repr

section

variable (readDouble : List Char → Option (List Char))

/-- The fields `node1 node2 dataRate lossRate delay queueSize`; other lines are skipped. -/
def readLink (line : List Char) : Option P2pLink := do
  let (node1, x) ← readWord line
  let (node2, x) ← readWord x
  let (_, x) ← readWord x
  let x ← readDouble x
  let (_, x) ← readWord x
  let _ ← readWord x
  some { node1 := String.ofList node1, node2 := String.ofList node2 }

def readLinks (linkFile : String) : List P2pLink :=
  (lines isNewline linkFile.toList).filterMap (readLink readDouble)

end

/-! ## Building -/

def conNum : Nat := 1
def proNum : Nat := 30
def fowNum : Nat := 10
def aggNum : Nat := 6

/-- `NameNodes` -/
def nameNodes (n : Nat) (baseName : String) : List String :=
  (List.range n).map fun i => baseName ++ toString i

/-- The names that `Names::Find` knows. -/
def nodeNames : List String :=
  nameNodes conNum "con" ++ nameNodes proNum "pro" ++ nameNodes fowNum "forwarder" ++
    nameNodes aggNum "agg"

/-- `10.second.third.host` -/
def ipv4 (second third host : Nat) : Address := 10 * 2 ^ 24 + second * 2 ^ 16 + third * 2 ^ 8 + host

/-- What ns-3 does about addresses: `Ipv4AddressHelper::Assign` to the two devices of a link, in
the network `10.second.third.0` with a mask of 24 bits, and `Ipv4::GetAddress (1, 0)` of a node
when these nodes have got these addresses. -/
structure Ns3Addresses where
  assign : Nat → Nat → Option (Address × Address)
  getAddress : List (String × Address) → String → Option Address

structure Ns3Addresses.Documented (ns3 : Ns3Addresses) : Prop where
  /-- two hosts of the network -/
  hosts : ∀ second third a b, third ≤ 255 → ns3.assign second third = some (a, b) →
    ∃ i j, a = ipv4 second third i ∧ b = ipv4 second third j ∧ i ≤ 255 ∧ j ≤ 255 ∧ i ≠ j
  /-- an address of this node, if it has one -/
  mem : ∀ interfaces nodeName a, ns3.getAddress interfaces nodeName = some a →
    (nodeName, a) ∈ interfaces
  exists_of_mem : ∀ interfaces nodeName a, (nodeName, a) ∈ interfaces →
    ∃ b, ns3.getAddress interfaces nodeName = some b

structure Topo where
  ia : Nat
  ic : Nat
  /-- the nodes of the interfaces and their addresses, in the order in which they are assigned -/
  interfaces : List (String × Address)
deriving DecidableEq, Repr

/-- The link has an aggregator at an end. -/
def P2pLink.atAgg (l : P2pLink) : Bool := named "agg" l.node1 || named "agg" l.node2

/-- The two ends of the link have got their addresses. -/
def Topo.assigned (topo : Topo) (l : P2pLink) (addrs : Address × Address) : Topo :=
  { topo with interfaces := topo.interfaces ++ [(l.node1, addrs.1), (l.node2, addrs.2)] }

section

variable (ns3 : Ns3Addresses)

/-- One link.  There is no result for a name that no node has. -/
def Topo.addLink (topo : Topo) (l : P2pLink) : Option Topo :=
  if l.node1 ∈ nodeNames ∧ l.node2 ∈ nodeNames then
    if l.atAgg then
      (ns3.assign 2 topo.ia).map fun addrs => { topo.assigned l addrs with ia := topo.ia + 1 }
    else
      (ns3.assign 1 topo.ic).map fun addrs => { topo.assigned l addrs with ic := topo.ic + 1 }
  else none

def buileTopo (readDouble : List Char → Option (List Char)) (linkFile : String) : Option Topo :=
  (readLinks readDouble linkFile).foldlM (Topo.addLink ns3) { ia := 1, ic := 1, interfaces := [] }

/-- The address of a node, where `GetAddress (1, 0)` has a result. -/
def Topo.addrOf (topo : Topo) (nodeName : String) : Address :=
  (ns3.getAddress topo.interfaces nodeName).getD 0

end

def Topo.linked (topo : Topo) (nodeName : String) : Prop :=
  ∃ i ∈ topo.interfaces, i.1 = nodeName

instance (topo : Topo) (nodeName : String) : Decidable (topo.linked nodeName) :=
  inferInstanceAs (Decidable (∃ i ∈ topo.interfaces, i.1 = nodeName))

/-! ## Addresses -/

theorem ipv4_inj {second third host second' third' host' : Nat} (hthird : third ≤ 255)
    (hthird' : third' ≤ 255) (hhost : host ≤ 255) (hhost' : host' ≤ 255)
    (h : ipv4 second third host = ipv4 second' third' host') :
    second = second' ∧ third = third' ∧ host = host' := by
  have h : 10 * 2 ^ 24 + second * 2 ^ 16 + third * 2 ^ 8 + host =
      10 * 2 ^ 24 + second' * 2 ^ 16 + third' * 2 ^ 8 + host' := h
  omega

/-- The numbers of the networks fit into their byte. -/
def Topo.Fits (topo : Topo) : Prop := topo.ia ≤ 256 ∧ topo.ic ≤ 256

instance (topo : Topo) : Decidable topo.Fits := inferInstanceAs (Decidable (_ ∧ _))

/-- An address of a link that was added already. -/
def Topo.Assigned (topo : Topo) (addr : Address) : Prop :=
  ∃ second third host, addr = ipv4 second third host ∧ third ≤ 255 ∧ host ≤ 255 ∧
    (second = 2 ∧ third < topo.ia ∨ second = 1 ∧ third < topo.ic)

structure Topo.Ok (topo : Topo) : Prop where
  assigned : ∀ i ∈ topo.interfaces, topo.Assigned i.2
  nodup : (topo.interfaces.map (·.2)).Nodup

/-- The two interfaces of a new link. -/
theorem Topo.Ok.add {topo next : Topo} (h : topo.Ok) (l : P2pLink) (second third i j : Nat)
    (hthird : third ≤ 255) (hi : i ≤ 255) (hj : j ≤ 255) (hij : i ≠ j)
    (hfresh : second = 2 ∧ third = topo.ia ∨ second = 1 ∧ third = topo.ic)
    (hnew : second = 2 ∧ third < next.ia ∨ second = 1 ∧ third < next.ic)
    (hia : topo.ia ≤ next.ia) (hic : topo.ic ≤ next.ic)
    (hinterfaces : next.interfaces = topo.interfaces ++
      [(l.node1, ipv4 second third i), (l.node2, ipv4 second third j)]) : next.Ok := by
  constructor
  · intro interface hmem
    rw [hinterfaces, List.mem_append] at hmem
    rcases hmem with hmem | hmem
    · obtain ⟨second', third', host, haddr, hthird', hhost, hold⟩ := h.assigned interface hmem
      exact ⟨second', third', host, haddr, hthird', hhost, by omega⟩
    · rcases List.mem_pair.1 hmem with rfl | rfl
      · exact ⟨second, third, i, rfl, hthird, hi, hnew⟩
      · exact ⟨second, third, j, rfl, hthird, hj, hnew⟩
  · rw [hinterfaces, List.map_append, List.nodup_append]
    refine ⟨h.nodup, ?_, ?_⟩
    · have hne : ipv4 second third i ≠ ipv4 second third j := fun heq =>
        hij (ipv4_inj hthird hthird hi hj heq).2.2
      simpa using hne
    · rintro a ha b hb rfl
      obtain ⟨interface, hmem, rfl⟩ := List.mem_map.1 ha
      obtain ⟨second', third', host, haddr, hthird', hhost, hold⟩ := h.assigned interface hmem
      -- the network of the new link is a new one
      have hhosts : ∃ host', host' ≤ 255 ∧ interface.2 = ipv4 second third host' := by
        rcases List.mem_pair.1 (by simpa using hb) with heq | heq
        · exact ⟨i, hi, heq⟩
        · exact ⟨j, hj, heq⟩
      obtain ⟨host', hhost', haddr'⟩ := hhosts
      obtain ⟨hsecond, hsame, -⟩ :=
        ipv4_inj hthird' hthird hhost hhost' (haddr.symm.trans haddr')
      omega

section

variable {ns3 : Ns3Addresses} (hns3 : ns3.Documented)
include hns3

theorem Topo.addLink_ok {topo next : Topo} (h : topo.Fits → topo.Ok) {l : P2pLink}
    (hadd : topo.addLink ns3 l = some next) (hfits : next.Fits) : next.Ok := by
  obtain ⟨hia, hic⟩ := hfits
  unfold Topo.addLink at hadd
  split at hadd
  · split at hadd
    · obtain ⟨⟨a, b⟩, hassign, rfl⟩ := Option.map_eq_some_iff.1 hadd
      have hia : topo.ia + 1 ≤ 256 := hia
      have hic : topo.ic ≤ 256 := hic
      obtain ⟨i, j, rfl, rfl, hi, hj, hij⟩ := hns3.hosts 2 topo.ia a b (by omega) hassign
      exact (h ⟨by omega, hic⟩).add l 2 topo.ia i j (by omega) hi hj hij (.inl ⟨rfl, rfl⟩)
        (.inl ⟨rfl, Nat.lt_succ_self _⟩) (Nat.le_succ _) (Nat.le_refl _) rfl
    · obtain ⟨⟨a, b⟩, hassign, rfl⟩ := Option.map_eq_some_iff.1 hadd
      have hia : topo.ia ≤ 256 := hia
      have hic : topo.ic + 1 ≤ 256 := hic
      obtain ⟨i, j, rfl, rfl, hi, hj, hij⟩ := hns3.hosts 1 topo.ic a b (by omega) hassign
      exact (h ⟨hia, by omega⟩).add l 1 topo.ic i j (by omega) hi hj hij (.inr ⟨rfl, rfl⟩)
        (.inr ⟨rfl, Nat.lt_succ_self _⟩) (Nat.le_refl _) (Nat.le_succ _) rfl
  · cases hadd

theorem buileTopo_ok {readDouble : List Char → Option (List Char)} {linkFile : String}
    {topo : Topo} (h : buileTopo ns3 readDouble linkFile = some topo) (hfits : topo.Fits) :
    topo.Ok :=
  PartialRun.runs_invariant (I := fun topo => topo.Fits → topo.Ok)
    (fun _ _ _ hok hadd => Topo.addLink_ok hns3 hok hadd)
    (fun _ => ⟨fun _ hi => absurd hi List.not_mem_nil, List.nodup_nil⟩) h hfits

/-- A node with a link has an address, that of one of its interfaces. -/
theorem Topo.getAddress_linked {topo : Topo} {nodeName : String} (h : topo.linked nodeName) :
    ns3.getAddress topo.interfaces nodeName = some (topo.addrOf ns3 nodeName) ∧
      (nodeName, topo.addrOf ns3 nodeName) ∈ topo.interfaces := by
  obtain ⟨⟨_, a⟩, hi, rfl⟩ := h
  obtain ⟨b, hb⟩ := hns3.exists_of_mem topo.interfaces _ a hi
  have haddr : topo.addrOf ns3 _ = b := congrArg (Option.getD · 0) hb
  rw [haddr]
  exact ⟨hb, hns3.mem _ _ b hb⟩

/-- **Addresses**: two nodes with links have different ones. -/
theorem Topo.Ok.addrOf_inj {topo : Topo} (h : topo.Ok) {n m : String} (hn : topo.linked n)
    (hm : topo.linked m) (heq : topo.addrOf ns3 n = topo.addrOf ns3 m) : n = m :=
  congrArg Prod.fst
    (List.inj_on_of_nodup_map h.nodup (Topo.getAddress_linked hns3 hn).2
      (Topo.getAddress_linked hns3 hm).2 heq)

end

/-! ## Both files -/

/-- An aggregation tree of names: a consumer at the root, aggregators inside, producers as
leaves, no name twice. -/
structure IsNameTree (t : RoseTree String) : Prop where
  root : IsRole .con t.label
  inner : t.children ≠ []
  below : ∀ s ∈ t.subtrees, ∀ c ∈ s.children, IsRole (if c.children = [] then .pro else .agg) c.label
  width : ∀ s ∈ t.subtrees, s.children.length ≤ 255
  labels : t.labels.Nodup

theorem IsNameTree.isAggTree {t : RoseTree String} (ht : IsNameTree t) {ns3 : Ns3Addresses}
    (hns3 : ns3.Documented) {topo : Topo} (hok : topo.Ok)
    (hlinked : ∀ n ∈ t.labels, topo.linked n) : IsAggTree (topo.addrOf ns3) t where
  root := ht.root
  inner := ht.inner
  below := ht.below
  width := ht.width
  addresses := by
    rw [labels_map]
    exact ht.labels.map_on fun n hn m hm heq =>
      hok.addrOf_inj hns3 (hlinked n hn) (hlinked m hm) heq

/-- **From the files to the deployment**: when `BuileTopo` gets to its end, with at most 255
networks of each kind, and the tree of names that the aggtree file lists has `con0` at its root
and a link for each of its nodes, `main` creates one application for each node, all at
different addresses. -/
theorem deployment_of_files (readDouble : List Char → Option (List Char)) (ns3 : Ns3Addresses)
    (hns3 : ns3.Documented) (linkFile aggFile : String) (topo : Topo)
    (htopo : buileTopo ns3 readDouble linkFile = some topo) (hfits : topo.Fits)
    (t : RoseTree String) (ht : IsNameTree t) (hroot : t.label = "con0")
    (hlinked : ∀ n ∈ t.labels, topo.linked n) (groups : List Group)
    (hfile : FileOf aggFile groups) (hgroups : Lists groups t) (itr vsize port : Nat) :
    IsAggTree (topo.addrOf ns3) t ∧ Addressed (ns3.getAddress topo.interfaces) (topo.addrOf ns3) t ∧
      ∃ fuel apps, createAggTreeTopo (ns3.getAddress topo.interfaces) itr vsize port fuel aggFile =
          some apps ∧
        Deployed (topo.addrOf ns3) itr vsize port t apps ∧
        Wires (topo.addrOf ns3) itr vsize port t apps := by
  have hagg := ht.isAggTree hns3 (buileTopo_ok hns3 htopo hfits) hlinked
  have haddr : Addressed (ns3.getAddress topo.interfaces) (topo.addrOf ns3) t := fun s hs =>
    (Topo.getAddress_linked hns3
      (hlinked s.label (labels_eq_map t ▸ List.mem_map_of_mem hs))).1
  exact ⟨hagg, haddr, t.height + 1,
    createAggTreeTopo_written _ _ itr vsize port t hagg hroot haddr aggFile groups hfile hgroups _
      (Nat.lt_succ_self _)⟩

/-- `>>` on a number without sign and exponent. -/
def readDigits (x : List Char) : Option (List Char) :=
  let y := x.dropWhile isspace
  let isDigit := fun c : Char => 48 ≤ c.toNat && c.toNat ≤ 57
  if y.head?.any isDigit then some (y.dropWhile fun c => isDigit c || c = '.') else none

def chainLinks : String :=
  "agg0 con0 1Mbps 0.5 2ms 30\n\nagg0  pro0 1Mbps 1 2ms 30\nagg1 pro0 1Mbps\n"

/-- The first two hosts of the network, and the first interface of the node. -/
def firstAddresses : Ns3Addresses where
  assign second third :=
    if third ≤ 255 then some (ipv4 second third 1, ipv4 second third 2) else none
  getAddress interfaces nodeName := (interfaces.find? fun i => i.1 = nodeName).map (·.2)

theorem firstAddresses_documented : firstAddresses.Documented where
  hosts second third a b hthird h := by
    unfold firstAddresses at h
    dsimp only at h
    rw [if_pos hthird, Option.some.injEq, Prod.mk.injEq] at h
    exact ⟨1, 2, h.1.symm, h.2.symm, by decide, by decide, by decide⟩
  mem interfaces nodeName a h := by
    obtain ⟨i, hi, rfl⟩ := Option.map_eq_some_iff.1 h
    have hname : i.1 = nodeName := by simpa using List.find?_some hi
    rw [← hname]
    exact List.mem_of_find?_eq_some hi
  exists_of_mem interfaces nodeName a h := by
    change ∃ b, (interfaces.find? fun i => i.1 = nodeName).map (·.2) = some b
    cases hfind : interfaces.find? fun i => i.1 = nodeName with
    | some i => exact ⟨i.2, rfl⟩
    | none =>
      have hno := List.find?_eq_none.1 hfind _ h
      exact absurd hno (by simp)

def chainTopo : Topo :=
  { ia := 3
    ic := 1
    interfaces := [("agg0", ipv4 2 1 1), ("con0", ipv4 2 1 2), ("agg0", ipv4 2 2 1),
      ("pro0", ipv4 2 2 2)] }

theorem buileTopo_chain : buileTopo firstAddresses readDigits chainLinks = some chainTopo := by
  decide

theorem chain_isNameTree : IsNameTree chain where
  root := by decide
  inner := by decide
  below := by decide
  width := by decide
  labels := by decide

def chainFile : String := "agg0:   pro0\ncon0: agg0"

theorem chainFile_groups : FileOf chainFile [("agg0", ["pro0"]), ("con0", ["agg0"])] where
  written := ⟨["agg0:   pro0".toList, "con0: agg0".toList],
    .cons ⟨by decide, (fields_iff _ _).1 (by decide)⟩
      (.cons ⟨by decide, (fields_iff _ _).1 (by decide)⟩ .nil), .inr (by decide)⟩

theorem chainFile_lists : Lists [("agg0", ["pro0"]), ("con0", ["agg0"])] chain where
  inner := by decide
  right := by decide

theorem deployment_of_files_chain : IsAggTree (chainTopo.addrOf firstAddresses) chain ∧
    Addressed (firstAddresses.getAddress chainTopo.interfaces) (chainTopo.addrOf firstAddresses)
      chain ∧
    ∃ fuel apps, createAggTreeTopo (firstAddresses.getAddress chainTopo.interfaces) 5 1000 1234
        fuel chainFile = some apps ∧
      Deployed (chainTopo.addrOf firstAddresses) 5 1000 1234 chain apps ∧
        Wires (chainTopo.addrOf firstAddresses) 5 1000 1234 chain apps :=
  deployment_of_files readDigits firstAddresses firstAddresses_documented chainLinks chainFile
    chainTopo buileTopo_chain (by decide) chain chain_isNameTree (by decide) (by decide) _
    chainFile_groups chainFile_lists 5 1000 1234

end InNetworkAgg
