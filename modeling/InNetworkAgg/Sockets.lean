import InNetworkAgg.Deployment

/-!
# Sockets (simpleMPI.cc, ns3-quic-myserver.cc, ns3-quic-myclient.cc)

`CreateSocketPool` opens one UDP socket for each peer: a `MyQuicServer` on the
common port for a parent, and for child number `i` a `MyQuicClient` on the port
`i + 1` above it.

    CreateSocketPool ends  ↔  at most one parent and 255 children    (createSocketPool_isSome_iff)

In a deployment the two ends of each edge of the tree name each other, and no
other sockets do (`sockets_paired`).
-/

namespace InNetworkAgg

open RoseTree

/-! ## State -/

/-- The UDP socket of a `MyQuicServer`, or of a `MyQuicClient` with its peer. -/
inductive Socket where
  | server (bindPort : Nat)
  | client (bindPort : Nat) (peerIp : Address) (peerPort : Nat)
deriving DecidableEq, Repr

def Socket.bindPort : Socket → Nat
  | .server bindPort => bindPort
  | .client bindPort _ _ => bindPort

/-- The sockets of a node in the order they are opened, each with its key in `socketPool`. -/
abbrev Sockets := List (Address × Socket)

namespace Sockets

def ports (ss : Sockets) : List Nat := ss.map (·.2.bindPort)

/-- `Bind` and its `NS_ASSERT (res == 0)`: the port the socket gets, a free one for 0. -/
def bind (ephemeral : List Nat → Nat) (ss : Sockets) (port : Nat) : Option Nat :=
  if port = 0 then some (ephemeral ss.ports)
  else if port ∈ ss.ports then none
  else some port

end Sockets

section
variable (ephemeral : List Nat → Nat) (port : Nat)

def openServer (sGroup : List Address) (ss : Sockets) (i : Nat) : Option Sockets :=
  (ss.bind ephemeral port).map fun p => ss ++ [(sGroup.getD i 0, .server p)]

def openClient (cGroup : List Address) (ss : Sockets) (i : Nat) : Option Sockets :=
  (ss.bind ephemeral ((port + i + 1) % 65536)).map fun p =>
    ss ++ [(cGroup.getD i 0, .client p (cGroup.getD i 0) port)]

/-- `CreateSocketPool`; the indices are `uint8_t`s. -/
def createSocketPool (sGroup cGroup : List Address) : Option Sockets := do
  let parents ← Counter.passes 256 1 sGroup.length
  let ss ← parents.foldlM (openServer ephemeral port sGroup) []
  let children ← Counter.passes 256 1 cGroup.length
  children.foldlM (openClient ephemeral port cGroup) ss

/-- `StartApplication` -/
def App.sockets (app : App) : Option Sockets :=
  createSocketPool ephemeral app.port (app.setup 0).sGroup (app.setup 0).cGroup

/-! ## One node -/

/-- What the two loops open. -/
def poolOf (sGroup cGroup : List Address) : Sockets :=
  sGroup.map (fun parent => (parent, .server port)) ++
    cGroup.mapIdx fun i child => (child, .client (port + i + 1) child port)

theorem Sockets.bind_fresh {ss : Sockets} {p : Nat} (hp : 0 < p) (hfree : p ∉ ss.ports) :
    ss.bind ephemeral p = some p := by
  rw [bind, if_neg (by omega), if_neg hfree]

theorem openClients_eq (hport : 0 < port) (cGroup : List Address) (ss : Sockets)
    (hss : ∀ p ∈ ss.ports, p ≤ port) (n : Nat) (hn : n ≤ cGroup.length)
    (hlast : port + cGroup.length < 65536) :
    (List.range n).foldlM (openClient ephemeral port cGroup) ss =
      some (ss ++ (cGroup.take n).mapIdx fun i child =>
        (child, .client (port + i + 1) child port)) := by
  induction n with
  | zero => simp
  | succ n ih =>
    obtain ⟨child, hchild⟩ : ∃ child, cGroup[n]? = some child :=
      ⟨cGroup[n], List.getElem?_eq_getElem hn⟩
    have htake : cGroup.take (n + 1) = cGroup.take n ++ [child] := by
      rw [List.take_add_one, hchild]
      rfl
    -- the ports that are taken lie below the next one
    have hfree : port + n + 1 ∉ (ss ++ (cGroup.take n).mapIdx fun i child =>
        (child, Socket.client (port + i + 1) child port)).ports := by
      intro hmem
      unfold Sockets.ports at hmem
      rw [List.map_append, List.mem_append] at hmem
      rcases hmem with hmem | hmem
      · have := hss _ hmem
        omega
      · obtain ⟨e, he, hport⟩ := List.mem_map.1 hmem
        obtain ⟨i, hi, rfl⟩ := List.mem_mapIdx.1 he
        rw [List.length_take] at hi
        have hport : port + i + 1 = port + n + 1 := hport
        omega
    rw [List.range_succ, List.foldlM_append, ih (by omega), Option.bind_eq_bind,
      Option.bind_some, List.foldlM_cons]
    simp only [List.foldlM_nil, bind_pure]
    rw [openClient, Nat.mod_eq_of_lt (by omega), Sockets.bind_fresh ephemeral (by omega) hfree,
      htake, List.mapIdx_append]
    simp [hchild, List.length_take, Nat.min_eq_left (Nat.le_of_succ_le hn)]

theorem createSocketPool_eq (hport : 0 < port) {sGroup cGroup : List Address}
    (hs : sGroup.length ≤ 1) (hc : cGroup.length ≤ 255)
    (hlast : port + cGroup.length < 65536) :
    createSocketPool ephemeral port sGroup cGroup = some (poolOf port sGroup cGroup) := by
  have hservers : (List.range sGroup.length).foldlM (openServer ephemeral port sGroup) [] =
      some (sGroup.map fun parent => (parent, .server port)) := by
    cases sGroup with
    | nil => rfl
    | cons parent rest =>
      obtain rfl : rest = [] := List.length_eq_zero_iff.1 (by simpa using hs)
      have hbind : Sockets.bind ephemeral [] port = some port :=
        Sockets.bind_fresh ephemeral hport List.not_mem_nil
      simp [openServer, hbind]
  have hbelow : ∀ p ∈ Sockets.ports (sGroup.map fun parent => (parent, .server port)), p ≤ port := by
    intro p hp
    obtain ⟨e, he, rfl⟩ := List.mem_map.1 hp
    obtain ⟨parent, -, rfl⟩ := List.mem_map.1 he
    exact Nat.le_refl port
  have hclients := openClients_eq ephemeral port hport cGroup _ hbelow cGroup.length
    (Nat.le_refl _) hlast
  rw [List.take_length] at hclients
  unfold createSocketPool
  rw [Counter.passes_one 256 _ (by omega), Counter.passes_one 256 _ (by omega)]
  simp only [Option.bind_eq_bind, Option.bind_some, hservers]
  exact hclients

theorem isSome_passes_bytes (n : Nat) : (Counter.passes 256 1 n).isSome = true ↔ n ≤ 255 := by
  rw [Counter.isSome_passes_iff 256 1 n (by decide)]
  constructor
  · rintro ⟨i, hi⟩
    omega
  · intro h
    exact ⟨n, by omega⟩

/-- **When `CreateSocketPool` ends**: a second server finds the port in use, and the counter
over the children does not get past 255. -/
theorem createSocketPool_isSome_iff (hport : 0 < port) (sGroup cGroup : List Address)
    (hlast : port + cGroup.length < 65536) :
    (createSocketPool ephemeral port sGroup cGroup).isSome = true ↔
      sGroup.length ≤ 1 ∧ cGroup.length ≤ 255 := by
  constructor
  · intro hsome
    unfold createSocketPool at hsome
    obtain ⟨ss, hss⟩ := Option.isSome_iff_exists.1 hsome
    obtain ⟨parents, hparents, hss⟩ := Option.bind_eq_some_iff.1 hss
    obtain ⟨ss', hservers, hss⟩ := Option.bind_eq_some_iff.1 hss
    obtain ⟨children, hchildren, -⟩ := Option.bind_eq_some_iff.1 hss
    have hs := (isSome_passes_bytes sGroup.length).1 (by rw [hparents]; rfl)
    refine ⟨?_, (isSome_passes_bytes cGroup.length).1 (by rw [hchildren]; rfl)⟩
    rw [Counter.passes_one 256 _ (by omega)] at hparents
    cases hparents
    by_contra hmany
    obtain ⟨n, hn⟩ : ∃ n, sGroup.length = n + 2 := ⟨sGroup.length - 2, by omega⟩
    -- the first two servers want the same port
    have hfirst : openServer ephemeral port sGroup [] 0 =
        some [(sGroup.getD 0 0, .server port)] := by
      rw [openServer, Sockets.bind_fresh ephemeral hport List.not_mem_nil]
      rfl
    have hsecond : openServer ephemeral port sGroup [(sGroup.getD 0 0, .server port)] 1 = none := by
      have htaken : port ∈ Sockets.ports [(sGroup.getD 0 0, .server port)] :=
        List.mem_singleton_self _
      rw [openServer, Sockets.bind, if_neg (by omega), if_pos htaken]
      rfl
    rw [hn, List.range_succ_eq_map, List.range_succ_eq_map, List.map_cons, List.foldlM_cons,
      hfirst, Option.bind_eq_bind, Option.bind_some, List.foldlM_cons, hsecond] at hservers
    cases hservers
  · rintro ⟨hs, hc⟩
    rw [createSocketPool_eq ephemeral port hport hs hc hlast]
    rfl

theorem mem_poolOf {sGroup cGroup : List Address} {x : Address} {socket : Socket} :
    (x, socket) ∈ poolOf port sGroup cGroup ↔
      x ∈ sGroup ∧ socket = .server port ∨
        ∃ i, cGroup[i]? = some x ∧ socket = .client (port + i + 1) x port := by
  unfold poolOf
  rw [List.mem_append]
  refine or_congr ?_ ?_
  · constructor
    · intro hmem
      obtain ⟨parent, hparent, heq⟩ := List.mem_map.1 hmem
      cases heq
      exact ⟨hparent, rfl⟩
    · rintro ⟨hx, rfl⟩
      exact List.mem_map.2 ⟨x, hx, rfl⟩
  · constructor
    · intro hmem
      obtain ⟨i, hi, heq⟩ := List.mem_mapIdx.1 hmem
      cases heq
      exact ⟨i, List.getElem?_eq_getElem hi, rfl⟩
    · rintro ⟨i, hi, rfl⟩
      obtain ⟨hlt, rfl⟩ := List.getElem?_eq_some_iff.1 hi
      exact List.mem_mapIdx.2 ⟨i, hlt, rfl⟩

theorem ports_poolOf_nodup {sGroup cGroup : List Address} (hs : sGroup.length ≤ 1) :
    (poolOf port sGroup cGroup).ports.Nodup := by
  have hservers : (Sockets.ports (sGroup.map fun parent => (parent, .server port))) =
      List.replicate sGroup.length port := by
    unfold Sockets.ports
    rw [List.map_map]
    exact List.map_const
  have hclients : Sockets.ports (cGroup.mapIdx fun i child =>
      (child, .client (port + i + 1) child port)) =
        (List.range cGroup.length).map (port + · + 1) := by
    unfold Sockets.ports
    apply List.ext_getElem
    · simp
    · intro i hi hi'
      simp [Socket.bindPort]
  have hparts : (poolOf port sGroup cGroup).ports =
      List.replicate sGroup.length port ++ (List.range cGroup.length).map (port + · + 1) := by
    rw [← hservers, ← hclients]
    exact List.map_append
  rw [hparts, List.nodup_append]
  refine ⟨List.nodup_replicate.2 hs, ?_, ?_⟩
  · refine List.nodup_range.map fun i j hij => ?_
    have hij : port + i + 1 = port + j + 1 := hij
    omega
  · intro p hp q hq
    obtain ⟨i, -, rfl⟩ := List.mem_map.1 hq
    rw [List.eq_of_mem_replicate hp]
    omega

end

/-! ## The two ends of an edge -/

section
variable {addrOf : String → Address} {itr vsize port : Nat}

/-- The application opens the socket and stores it under `peer`. -/
def App.Opens (ephemeral : List Nat → Nat) (app : App) (peer : Address) (socket : Socket) : Prop :=
  ∃ ss, app.sockets ephemeral = some ss ∧ (peer, socket) ∈ ss

variable {t : RoseTree String} {apps : List App} (h : IsAggTree addrOf t)
  (happs : Wires addrOf itr vsize port t apps) (ephemeral : List Nat → Nat) (hport : 0 < port)
  (hlast : port + 255 < 65536)

include h happs hport hlast

/-- What the application of a node opens. -/
theorem IsAggTree.app_sockets {app : App} (happ : app ∈ apps) :
    ∃ s ∈ t.subtrees, app.node = s.label ∧ ∃ parents, app.sockets ephemeral =
        some (poolOf port parents (s.children.map fun c => addrOf c.label)) ∧
      (s = t ∧ parents = [] ∨ ∃ q ∈ t.subtrees, s ∈ q.children ∧ parents = [addrOf q.label]) := by
  obtain ⟨s, hs, parents, rank, rfl, hparents⟩ := happs.sound app happ
  have hwidth := h.width s hs
  have hone : parents.length ≤ 1 := by
    rcases hparents with ⟨-, rfl⟩ | ⟨q, -, -, rfl⟩
    · exact Nat.zero_le 1
    · exact Nat.le_refl 1
  refine ⟨s, hs, rfl, parents, ?_, hparents⟩
  unfold App.sockets
  rw [setup_sGroup _ _ _ _ _ (by omega), setup_cGroup _ _ _ _ _ (by simp; omega)]
  refine createSocketPool_eq ephemeral port hport hone ?_ ?_
  · simpa using hwidth
  · simp only [List.length_map]
    omega

theorem IsAggTree.opens_iff {app : App} (happ : app ∈ apps) {s : RoseTree String}
    (hs : s ∈ t.subtrees) (hnode : app.node = s.label) (peer : Address) (socket : Socket) :
    app.Opens ephemeral peer socket ↔
      (∃ q ∈ t.subtrees, s ∈ q.children ∧ peer = addrOf q.label ∧ socket = .server port) ∨
        ∃ i c, s.children[i]? = some c ∧ peer = addrOf c.label ∧
          socket = .client (port + i + 1) (addrOf c.label) port := by
  obtain ⟨s', hs', hnode', parents, hss, hparents⟩ := h.app_sockets happs ephemeral hport hlast happ
  obtain rfl := subtree_ext h.labels hs' hs (hnode'.symm.trans hnode)
  have hopens : app.Opens ephemeral peer socket ↔
      (peer, socket) ∈ poolOf port parents (s'.children.map fun c => addrOf c.label) := by
    constructor
    · rintro ⟨ss, hss', hmem⟩
      cases hss.symm.trans hss'
      exact hmem
    · exact fun hmem => ⟨_, hss, hmem⟩
  rw [hopens, mem_poolOf]
  refine or_congr ?_ ?_
  · constructor
    · rintro ⟨hpeer, rfl⟩
      rcases hparents with ⟨-, rfl⟩ | ⟨q, hq, hsq, rfl⟩
      · cases hpeer
      · exact ⟨q, hq, hsq, List.mem_singleton.1 hpeer, rfl⟩
    · rintro ⟨q, hq, hsq, rfl, rfl⟩
      rcases hparents with ⟨rfl, rfl⟩ | ⟨q', hq', hsq', rfl⟩
      · exact absurd rfl (root_not_child h.labels hq hsq)
      · obtain rfl := parent_unique h.labels hq hq' hsq hsq' rfl
        exact ⟨List.mem_singleton_self _, rfl⟩
  · constructor
    · rintro ⟨i, hi, rfl⟩
      rw [List.getElem?_map, Option.map_eq_some_iff] at hi
      obtain ⟨c, hc, rfl⟩ := hi
      exact ⟨i, c, hc, rfl, rfl⟩
    · rintro ⟨i, c, hc, rfl, rfl⟩
      exact ⟨i, by rw [List.getElem?_map, hc]; rfl, rfl⟩

omit happs hport hlast in
theorem IsAggTree.child_index {s : RoseTree String} (hs : s ∈ t.subtrees) {i j : Nat}
    {c c' : RoseTree String} (hi : s.children[i]? = some c) (hj : s.children[j]? = some c')
    (hlabel : c.label = c'.label) : i = j := by
  have hnd := children_labels_nodup h.labels hs
  obtain ⟨hi', rfl⟩ := List.getElem?_eq_some_iff.1 hi
  obtain ⟨hj', rfl⟩ := List.getElem?_eq_some_iff.1 hj
  have hi : i < (s.children.map label).length := by simpa using hi'
  have hj : j < (s.children.map label).length := by simpa using hj'
  have hsame : (s.children.map label)[i] = (s.children.map label)[j] := by simpa using hlabel
  exact hnd.getElem_inj_iff.1 hsame

end

/-- **The sockets pair up.**  Every application gets through `CreateSocketPool` and no port is
bound twice.  A client is connected to the server that its peer opened for it, and each server
has one client in the whole deployment. -/
theorem sockets_paired {addrOf : String → Address} {itr vsize port : Nat} {t : RoseTree String}
    {apps : List App} (h : IsAggTree addrOf t) (hd : Deployed addrOf itr vsize port t apps)
    (ephemeral : List Nat → Nat) (hport : 0 < port) (hlast : port + 255 < 65536) :
    (∀ app ∈ apps, ∃ ss, app.sockets ephemeral = some ss ∧ ss.ports.Nodup) ∧
    (∀ app ∈ apps, ∀ peer p ip peerPort, app.Opens ephemeral peer (.client p ip peerPort) →
      peer = ip ∧ ∃ child ∈ apps, addrOf child.node = ip ∧
        child.Opens ephemeral (addrOf app.node) (.server peerPort)) ∧
    ∀ app ∈ apps, ∀ peer p, app.Opens ephemeral peer (.server p) →
      ∃ parent ∈ apps, addrOf parent.node = peer ∧ ∃ q,
        parent.Opens ephemeral (addrOf app.node) (.client q (addrOf app.node) p) ∧
        ∀ other ∈ apps, ∀ key q', other.Opens ephemeral key (.client q' (addrOf app.node) p) →
          other = parent ∧ key = addrOf app.node ∧ q' = q := by
  have happs := hd.wires h
  have hnodes := (hd.wires h).single
  refine ⟨fun app happ => ?_, fun app happ peer p ip peerPort hopens => ?_,
    fun app happ peer p hopens => ?_⟩
  · obtain ⟨s, hs, -, parents, hss, hparents⟩ := h.app_sockets happs ephemeral hport hlast happ
    refine ⟨_, hss, ports_poolOf_nodup port ?_⟩
    rcases hparents with ⟨-, rfl⟩ | ⟨q, -, -, rfl⟩
    · exact Nat.zero_le 1
    · exact Nat.le_refl 1
  · obtain ⟨s, hs, hnode, -⟩ := h.app_sockets happs ephemeral hport hlast happ
    rcases (h.opens_iff happs ephemeral hport hlast happ hs hnode _ _).1 hopens with
      ⟨q, -, -, -, hsocket⟩ | ⟨i, c, hc, rfl, hsocket⟩
    · cases hsocket
    · cases hsocket
      have hchild := List.mem_of_getElem? hc
      obtain ⟨child, hcapp, hcnode⟩ := happs.complete c (child_mem_subtrees hs hchild)
      refine ⟨rfl, child, hcapp, by rw [hcnode], ?_⟩
      exact (h.opens_iff happs ephemeral hport hlast hcapp (child_mem_subtrees hs hchild) hcnode
        _ _).2 (.inl ⟨s, hs, hchild, by rw [hnode], rfl⟩)
  · obtain ⟨c, hcs, hcnode, -⟩ := h.app_sockets happs ephemeral hport hlast happ
    rcases (h.opens_iff happs ephemeral hport hlast happ hcs hcnode _ _).1 hopens with
      ⟨q, hq, hcq, rfl, hsocket⟩ | ⟨i, d, hd, -, hsocket⟩
    · cases hsocket
      obtain ⟨parent, hpapp, hpnode⟩ := happs.complete q hq
      obtain ⟨i, hi⟩ := List.mem_iff_getElem?.1 hcq
      refine ⟨parent, hpapp, by rw [hpnode], port + i + 1, ?_, ?_⟩
      · rw [hcnode]
        exact (h.opens_iff happs ephemeral hport hlast hpapp hq hpnode _ _).2
          (.inr ⟨i, c, hi, rfl, rfl⟩)
      · -- a client with this peer belongs to a node that has the same child
        intro other hother key q' hopens'
        obtain ⟨s, hs, hsnode, -⟩ := h.app_sockets happs ephemeral hport hlast hother
        rcases (h.opens_iff happs ephemeral hport hlast hother hs hsnode _ _).1 hopens' with
          ⟨_, -, -, -, hsocket⟩ | ⟨j, d, hj, rfl, hsocket⟩
        · cases hsocket
        · have hdchild := List.mem_of_getElem? hj
          have heq : addrOf app.node = addrOf d.label := by
            injection hsocket
          obtain rfl : d = c := h.addr_inj (child_mem_subtrees hs hdchild) hcs
            (heq.symm.trans (by rw [hcnode]))
          obtain rfl := parent_unique h.labels hs hq hdchild hcq rfl
          obtain rfl := h.child_index hs hj hi rfl
          refine ⟨?_, heq.symm, ?_⟩
          · exact List.inj_on_of_nodup_map hnodes hother hpapp (hsnode.trans hpnode.symm)
          · injection hsocket
    · cases hsocket

/-- The applications of `chain`. -/
def chainApps : List App := treeApps chainAddr 2 100 1234 [] 0 chain

theorem chain_deployed : Deployed chainAddr 2 100 1234 chain chainApps :=
  .aggTree (addressesOf chainAddr chain) chainGroups 3 (addressesOf_addressed chainAddr chain)
    chain_describes (by decide)
    (createAggTree_eq chainAddr 2 100 1234 chainGroups chain chain_describes
      (addressesOf_addressed chainAddr chain) 3 (by decide) [] 0 (by decide))

/-- The aggregator's server on port 1234 has one client, the consumer's on port 1235. -/
theorem sockets_paired_chain : ∃ app ∈ chainApps, app.node = "agg0" ∧
    app.Opens (fun _ => 49153) 1 (.server 1234) ∧
    ∃ parent ∈ chainApps, chainAddr parent.node = 1 ∧ ∃ q,
      parent.Opens (fun _ => 49153) 2 (.client q 2 1234) ∧
      ∀ other ∈ chainApps, ∀ key q', other.Opens (fun _ => 49153) key (.client q' 2 1234) →
        other = parent ∧ key = 2 ∧ q' = q := by
  have hserver : ∃ app ∈ chainApps, app.node = "agg0" ∧
      (1, .server 1234) ∈ (app.sockets fun _ => 49153).getD [] := by decide
  obtain ⟨app, happ, hnode, hmem⟩ := hserver
  obtain ⟨hpool, -, hservers⟩ :=
    sockets_paired chain_isAggTree chain_deployed (fun _ => 49153) (by decide) (by decide)
  obtain ⟨ss, hss, -⟩ := hpool app happ
  rw [hss] at hmem
  have haddr : chainAddr app.node = 2 := by rw [hnode]; decide
  have hclient := hservers app happ 1 1234 ⟨ss, hss, hmem⟩
  rw [haddr] at hclient
  exact ⟨app, happ, hnode, ⟨ss, hss, hmem⟩, hclient⟩

end InNetworkAgg
