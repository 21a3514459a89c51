import InNetworkAgg.Lib.Outcome
import InNetworkAgg.Sockets

/-!
# Datagrams (ns3-quic-myserver.cc, ns3-quic-myclient.cc, ns3-quic-util.cc)

A `MyQuicClient` sends to its peer and asserts that every datagram it gets is
from this peer; a `MyQuicServer` answers to the addresses it has heard from.
A node may have many interfaces.  Its answer has the address of the one that the
route to the client leaves by, which need not be the one the client knows it under:

    no assertion fails in any run  ↔  on every edge the answer leaves from the address that the
      parent sends to                                               (datagrams_between_peers)

Interfaces and routes are ns-3's (`Routing`).  All sockets are running.
-/

namespace InNetworkAgg

open LittleEndian Outcome PartialRun RoseTree

/-! ## Addresses -/

/-- The `in_addr` of a host in memory and the port. -/
structure QuicSocketAddress where
  host : List UInt8
  port : Nat
deriving DecidableEq, Repr

/-- `GetQuicSocketAddr`: the bytes of the address, the highest first. -/
def getQuicSocketAddr (ip : Address) (port : Nat) : QuicSocketAddress :=
  { host := (leBytes 4 ip).reverse, port := port }

/-- `GetNs3SocketAddr` -/
def getNs3SocketAddr (addr : QuicSocketAddress) : Address × Nat :=
  (leValue addr.host.reverse, addr.port)

theorem getNs3SocketAddr_getQuicSocketAddr {ip : Address} (hip : ip < 2 ^ 32) (port : Nat) :
    getNs3SocketAddr (getQuicSocketAddr ip port) = (ip, port) := by
  unfold getNs3SocketAddr getQuicSocketAddr
  simp only [List.reverse_reverse, leValue_leBytes]
  rw [Nat.mod_eq_of_lt (Nat.lt_of_lt_of_le hip (by decide))]

/-- The interfaces and routes: the node that has an address, and the address that a node sends
from, which depends on where it sends to. -/
structure Routing where
  owner : Address → Option String
  source : String → Address → Address

/-- The nodes of the tree are known under addresses of their own, and what one of them sends to
another leaves from one of its addresses. -/
structure Routing.Serves (r : Routing) (addrOf : String → Address) (t : RoseTree String) :
    Prop where
  known : ∀ n ∈ t.labels, r.owner (addrOf n) = some n
  source : ∀ n ∈ t.labels, ∀ m ∈ t.labels, n ≠ m → ∀ dst, r.owner dst = some m →
    r.source n dst < 2 ^ 32 ∧ r.owner (r.source n dst) = some n

namespace Datagrams

/-! ## Steps -/

structure Datagram where
  srcIp : Address
  srcPort : Nat
  dstIp : Address
  dstPort : Nat
  size : Nat
deriving DecidableEq, Repr

structure Net where
  /-- all datagrams so far -/
  sent : List Datagram
  /-- the peers whose datagrams a server, at a node and on a port, has passed on -/
  heard : String → Nat → List QuicSocketAddress

def Net.init : Net := { sent := [], heard := fun _ _ => [] }

inductive Fault where
  /-- the `NS_ASSERT` in `MyQuicClient::RecvPacket` -/
  | assertion
  /-- `CopyData` behind the end of `buffer` -/
  | overrun
deriving DecidableEq, Repr

inductive Event where
  /-- `MyQuicClient::SendToNetwork` on socket number `i` of a node -/
  | clientSends (nodeName : String) (i size : Nat)
  /-- `MyQuicServer::SendToNetwork` to the peer it heard from as number `i` -/
  | serverSends (nodeName : String) (port i size : Nat)
  /-- datagram number `i` gets to its destination, for the first time or again -/
  | arrives (i : Nat)
deriving DecidableEq, Repr

/-- The size of what is sent. -/
def Event.size : Event → Nat
  | .clientSends _ _ size => size
  | .serverSends _ _ _ size => size
  | .arrives _ => 0

def Net.hear (s : Net) (nodeName : String) (port : Nat) (peer : QuicSocketAddress) : Net :=
  { s with heard := fun n p =>
      if n = nodeName ∧ p = port then s.heard n p ++ [peer] else s.heard n p }

/-- `RecvPacket` of a socket of a node. -/
def recvPacket (s : Net) (nodeName : String) (socket : Socket) (d : Datagram) : Except Fault Net :=
  if 1024 * 2 < d.size then .error .overrun
  else
    match socket with
    | .server bindPort => .ok (s.hear nodeName bindPort (getQuicSocketAddr d.srcIp d.srcPort))
    | .client _ peerIp peerPort =>
      if d.srcIp = peerIp ∧ d.srcPort = peerPort then .ok s else .error .assertion

/-- The socket a datagram is for. -/
def listener (sockets : String → Sockets) (r : Routing) (d : Datagram) :
    Option (String × Socket) := do
  let nodeName ← r.owner d.dstIp
  let e ← (sockets nodeName).find? fun e => e.2.bindPort = d.dstPort
  some (nodeName, e.2)

/-- What cannot happen changes nothing. -/
def step (sockets : String → Sockets) (r : Routing) (s : Net) : Event → Except Fault Net
  | .clientSends nodeName i size =>
    match (sockets nodeName)[i]? with
    | some (_, .client bindPort peerIp peerPort) => .ok { s with
        sent := s.sent ++ [{
          srcIp := r.source nodeName peerIp
          srcPort := bindPort
          dstIp := peerIp
          dstPort := peerPort
          size := size }] }
    | _ => .ok s
  | .serverSends nodeName port i size =>
    match (s.heard nodeName port)[i]? with
    | some peer =>
      let dest := getNs3SocketAddr peer
      .ok { s with
        sent := s.sent ++ [{
          srcIp := r.source nodeName dest.1
          srcPort := port
          dstIp := dest.1
          dstPort := dest.2
          size := size }] }
    | none => .ok s
  | .arrives i =>
    match s.sent[i]? with
    | some d =>
      match listener sockets r d with
      | some (nodeName, socket) => recvPacket s nodeName socket d
      | none => .ok s
    | none => .ok s

/-! ## The sockets of a deployment -/

/-- The sockets of the application at a node. -/
def socketsAt (ephemeral : List Nat → Nat) (apps : List App) (nodeName : String) : Sockets :=
  ((apps.find? fun app => app.node = nodeName).bind (App.sockets ephemeral)).getD []

/-- `c` is child number `i` of `q`. -/
structure Edge (t q : RoseTree String) (i : Nat) (c : RoseTree String) : Prop where
  parent : q ∈ t.subtrees
  child : q.children[i]? = some c

theorem Edge.child_mem {t q c : RoseTree String} {i : Nat} (he : Edge t q i c) :
    c ∈ q.children := List.mem_of_getElem? he.child

theorem Edge.child_subtree {t q c : RoseTree String} {i : Nat} (he : Edge t q i c) :
    c ∈ t.subtrees := child_mem_subtrees he.parent he.child_mem

theorem find_port {ss : Sockets} (hnd : ss.ports.Nodup) {e : Address × Socket} (he : e ∈ ss) :
    ss.find? (fun e' => e'.2.bindPort = e.2.bindPort) = some e := by
  cases hfind : ss.find? fun e' => decide (e'.2.bindPort = e.2.bindPort) with
  | none =>
    have hno := List.find?_eq_none.1 hfind e he
    exact absurd (decide_eq_true rfl) hno
  | some e' =>
    have hport : e'.2.bindPort = e.2.bindPort := by simpa using List.find?_some hfind
    rw [List.inj_on_of_nodup_map hnd (List.mem_of_find?_eq_some hfind) he hport]

/-- The sockets of a node are those of the application that is found there. -/
theorem mem_socketsAt_iff_opens {ephemeral : List Nat → Nat} {apps : List App} {nodeName : String}
    {key : Address} {socket : Socket} : (key, socket) ∈ socketsAt ephemeral apps nodeName ↔
      ∃ app, apps.find? (fun app => app.node = nodeName) = some app ∧
        app.Opens ephemeral key socket := by
  unfold socketsAt App.Opens
  cases apps.find? fun app => decide (app.node = nodeName) with
  | none => simp
  | some app =>
    simp only [Option.bind_some, Option.some.injEq, exists_eq_left']
    cases app.sockets ephemeral <;> simp

theorem exists_find_app {apps : List App} {app : App} (happ : app ∈ apps) :
    ∃ app' ∈ apps, app'.node = app.node ∧
      apps.find? (fun app' => app'.node = app.node) = some app' := by
  cases hfind : apps.find? fun app' => decide (app'.node = app.node) with
  | none =>
    have hno := List.find?_eq_none.1 hfind app happ
    exact absurd (decide_eq_true rfl) hno
  | some app' =>
    have hnode : app'.node = app.node := by simpa using List.find?_some hfind
    exact ⟨app', List.mem_of_find?_eq_some hfind, hnode, rfl⟩

section
variable {addrOf : String → Address} {itr vsize port : Nat} {t : RoseTree String}
  {apps : List App} (h : IsAggTree addrOf t) (hd : Deployed addrOf itr vsize port t apps)
  (ephemeral : List Nat → Nat) (hport : 0 < port) (hlast : port + 255 < 65536)

include h hd hport hlast

theorem mem_socketsAt {nodeName : String} {key : Address} {socket : Socket} :
    (key, socket) ∈ socketsAt ephemeral apps nodeName ↔ ∃ q i c, Edge t q i c ∧
      (nodeName = c.label ∧ key = addrOf q.label ∧ socket = .server port ∨
        nodeName = q.label ∧ key = addrOf c.label ∧
          socket = .client (port + i + 1) (addrOf c.label) port) := by
  have happs := hd.wires h
  rw [mem_socketsAt_iff_opens]
  constructor
  · rintro ⟨app, hfind, hopens⟩
    have hname : app.node = nodeName := by simpa using List.find?_some hfind
    have happ := List.mem_of_find?_eq_some hfind
    obtain ⟨s, hs, hnode, -⟩ := h.app_sockets happs ephemeral hport hlast happ
    rw [hnode] at hname
    rcases (h.opens_iff happs ephemeral hport hlast happ hs hnode _ _).1 hopens with
      ⟨q, hq, hsq, hkey, hsocket⟩ | ⟨i, c, hc, hkey, hsocket⟩
    · obtain ⟨i, hi⟩ := List.mem_iff_getElem?.1 hsq
      exact ⟨q, i, s, ⟨hq, hi⟩, .inl ⟨hname.symm, hkey, hsocket⟩⟩
    · exact ⟨s, i, c, ⟨hs, hc⟩, .inr ⟨hname.symm, hkey, hsocket⟩⟩
  · -- there is an application at the node, and each one there opens the socket
    have hopen : ∀ s ∈ t.subtrees, nodeName = s.label →
        ((∃ q ∈ t.subtrees, s ∈ q.children ∧ key = addrOf q.label ∧ socket = .server port) ∨
          ∃ i c, s.children[i]? = some c ∧ key = addrOf c.label ∧
            socket = .client (port + i + 1) (addrOf c.label) port) →
        ∃ app, apps.find? (fun app => app.node = nodeName) = some app ∧
          app.Opens ephemeral key socket := by
      rintro s hs rfl hsocket
      obtain ⟨app, happ, hnode⟩ := happs.complete s hs
      obtain ⟨app', happ', hnode', hfind⟩ := exists_find_app happ
      rw [hnode] at hnode' hfind
      exact ⟨app', hfind, (h.opens_iff happs ephemeral hport hlast happ' hs hnode' _ _).2 hsocket⟩
    rintro ⟨q, i, c, he, ⟨ha, hkey, hsocket⟩ | ⟨ha, hkey, hsocket⟩⟩
    · exact hopen c he.child_subtree ha (.inl ⟨q, he.parent, he.child_mem, hkey, hsocket⟩)
    · exact hopen q he.parent ha (.inr ⟨i, c, he.child, hkey, hsocket⟩)

theorem ports_socketsAt_nodup (nodeName : String) :
    (socketsAt ephemeral apps nodeName).ports.Nodup := by
  unfold socketsAt
  cases hfind : apps.find? fun app => decide (app.node = nodeName) with
  | none => exact List.nodup_nil
  | some app =>
    obtain ⟨s, -, -, parents, hss, hparents⟩ := h.app_sockets (hd.wires h) ephemeral hport hlast
      (List.mem_of_find?_eq_some hfind)
    rw [Option.bind_some, hss]
    refine ports_poolOf_nodup port ?_
    rcases hparents with ⟨-, rfl⟩ | ⟨q, -, -, rfl⟩
    · exact Nat.zero_le 1
    · exact Nat.le_refl 1

omit h hd hport hlast

/-! ## What is on the way -/

variable (addrOf port) (r : Routing)

/-- From the client of an edge to its server. -/
def request (q c : RoseTree String) (i size : Nat) : Datagram :=
  { srcIp := r.source q.label (addrOf c.label), srcPort := port + i + 1
    dstIp := addrOf c.label, dstPort := port, size := size }

/-- The peer of the server of an edge. -/
def peerOf (q c : RoseTree String) (i : Nat) : QuicSocketAddress :=
  getQuicSocketAddr (r.source q.label (addrOf c.label)) (port + i + 1)

/-- From the server of an edge back to its client. -/
def answer (q c : RoseTree String) (i size : Nat) : Datagram :=
  let ip := r.source q.label (addrOf c.label)
  { srcIp := r.source c.label ip, srcPort := port, dstIp := ip, dstPort := port + i + 1
    size := size }

/-- The answer of an edge leaves from the address the client sends to. -/
def AnswersFirst (q c : RoseTree String) : Prop :=
  r.source c.label (r.source q.label (addrOf c.label)) = addrOf c.label

variable (t)

/-- All datagrams run along edges of the tree. -/
structure Inv (s : Net) : Prop where
  sent : ∀ d ∈ s.sent, d.size ≤ 2048 ∧ ∃ q i c, Edge t q i c ∧
    (d = request addrOf port r q c i d.size ∨ d = answer addrOf port r q c i d.size)
  heard : ∀ n p, ∀ peer ∈ s.heard n p, ∃ q i c, Edge t q i c ∧ n = c.label ∧ p = port ∧
    peer = peerOf addrOf port r q c i

variable {addrOf port t r}

theorem inv_init : Inv addrOf port t r Net.init where
  sent _ hd := absurd hd List.not_mem_nil
  heard _ _ _ hp := absurd hp List.not_mem_nil

theorem Inv.send {s : Net} (hs : Inv addrOf port t r s) {d : Datagram} (hsize : d.size ≤ 2048)
    {q c : RoseTree String} {i : Nat} (he : Edge t q i c)
    (hd : d = request addrOf port r q c i d.size ∨ d = answer addrOf port r q c i d.size) :
    Inv addrOf port t r { s with sent := s.sent ++ [d] } where
  sent d' hd' := by
    rcases List.mem_append.1 hd' with hd' | hd'
    · exact hs.sent d' hd'
    · obtain rfl := List.mem_singleton.1 hd'
      exact ⟨hsize, q, i, c, he, hd⟩
  heard := hs.heard

theorem Inv.hear {s : Net} (hs : Inv addrOf port t r s) {q c : RoseTree String} {i : Nat}
    (he : Edge t q i c) :
    Inv addrOf port t r (s.hear c.label port (peerOf addrOf port r q c i)) where
  sent := hs.sent
  heard n p peer hpeer := by
    unfold Net.hear at hpeer
    dsimp only at hpeer
    split at hpeer
    · rename_i hat
      rcases List.mem_append.1 hpeer with hpeer | hpeer
      · exact hs.heard n p peer hpeer
      · exact ⟨q, i, c, he, hat.1, hat.2, List.mem_singleton.1 hpeer⟩
    · exact hs.heard n p peer hpeer

theorem Edge.parent_label {q c : RoseTree String} {i : Nat} (he : Edge t q i c) :
    q.label ∈ t.labels := labels_eq_map t ▸ List.mem_map_of_mem he.parent

theorem Edge.child_label {q c : RoseTree String} {i : Nat} (he : Edge t q i c) :
    c.label ∈ t.labels := labels_eq_map t ▸ List.mem_map_of_mem he.child_subtree

variable (hserves : r.Serves addrOf t)

include h hserves in
/-- The parent is heard from under one of its own addresses. -/
theorem source_parent {q c : RoseTree String} {i : Nat} (he : Edge t q i c) :
    r.source q.label (addrOf c.label) < 2 ^ 32 ∧
      r.owner (r.source q.label (addrOf c.label)) = some q.label :=
  hserves.source _ he.parent_label _ he.child_label
    (fun heq => parent_not_child h.labels he.parent he.parent he.child_mem he.child_mem heq.symm
      heq.symm) _
    (hserves.known _ he.child_label)

include h hd hport hlast

theorem listener_of_mem {d : Datagram} {nodeName : String} {key : Address} {socket : Socket}
    (howner : r.owner d.dstIp = some nodeName)
    (hmem : (key, socket) ∈ socketsAt ephemeral apps nodeName)
    (hdst : socket.bindPort = d.dstPort) :
    listener (socketsAt ephemeral apps) r d = some (nodeName, socket) := by
  have hfind := find_port (ports_socketsAt_nodup h hd ephemeral hport hlast nodeName) hmem
  unfold listener
  rw [howner, ← hdst]
  simp only [Option.bind_eq_bind, Option.bind_some, hfind]

include hserves

theorem listener_request {q c : RoseTree String} {i : Nat} (he : Edge t q i c) (size : Nat) :
    listener (socketsAt ephemeral apps) r (request addrOf port r q c i size) =
      some (c.label, .server port) :=
  listener_of_mem h hd ephemeral hport hlast (hserves.known _ he.child_label)
    ((mem_socketsAt h hd ephemeral hport hlast).2 ⟨q, i, c, he, .inl ⟨rfl, rfl, rfl⟩⟩) rfl

theorem listener_answer {q c : RoseTree String} {i : Nat} (he : Edge t q i c) (size : Nat) :
    listener (socketsAt ephemeral apps) r (answer addrOf port r q c i size) =
      some (q.label, .client (port + i + 1) (addrOf c.label) port) :=
  listener_of_mem h hd ephemeral hport hlast (source_parent h hserves he).2
    ((mem_socketsAt h hd ephemeral hport hlast).2 ⟨q, i, c, he, .inr ⟨rfl, rfl, rfl⟩⟩) rfl

/-- One event: the only failure is that of a client whose answer has another address. -/
theorem Inv.step {s : Net} (hs : Inv addrOf port t r s) (e : Event) (hsize : e.size ≤ 2048) :
    Ends (Inv addrOf port t r) (fun f => f = .assertion ∧
        ∃ q i c, Edge t q i c ∧ ¬AnswersFirst addrOf r q c)
      (step (socketsAt ephemeral apps) r s e) := by
  cases e with
  | clientSends nodeName i size =>
    unfold Datagrams.step
    dsimp only
    split
    · rename_i key bindPort peerIp peerPort hget
      obtain ⟨q, j, c, he, ⟨-, -, hsocket⟩ | ⟨rfl, -, hsocket⟩⟩ :=
        (mem_socketsAt h hd ephemeral hport hlast).1 (List.mem_of_getElem? hget)
      · cases hsocket
      · cases hsocket
        exact hs.send hsize he (.inl rfl)
    · exact hs
  | serverSends nodeName p i size =>
    unfold Datagrams.step
    dsimp only
    split
    · rename_i peer hget
      obtain ⟨q, j, c, he, rfl, rfl, rfl⟩ := hs.heard nodeName p peer (List.mem_of_getElem? hget)
      rw [peerOf, getNs3SocketAddr_getQuicSocketAddr (source_parent h hserves he).1]
      exact hs.send hsize he (.inr rfl)
    · exact hs
  | arrives i =>
    unfold Datagrams.step
    dsimp only
    split
    · rename_i d hget
      obtain ⟨hsmall, q, j, c, he, hreq | hans⟩ := hs.sent d (List.mem_of_getElem? hget)
      · have hlisten := listener_request h hd ephemeral hport hlast hserves he d.size
        rw [← hreq] at hlisten
        rw [hlisten]
        dsimp only
        rw [recvPacket, if_neg (by omega)]
        have hpeer : getQuicSocketAddr d.srcIp d.srcPort = peerOf addrOf port r q c j := by
          rw [hreq]
          rfl
        rw [hpeer]
        exact hs.hear he
      · have hlisten := listener_answer h hd ephemeral hport hlast hserves he d.size
        rw [← hans] at hlisten
        rw [hlisten]
        dsimp only
        rw [recvPacket, if_neg (by omega)]
        split
        · exact hs
        · rename_i hother
          refine ⟨rfl, q, j, c, he, fun hsame => hother ?_⟩
          rw [hans]
          exact ⟨hsame, rfl⟩
    · exact hs

/-- One datagram there, one back. -/
theorem answered {q c : RoseTree String} {i : Nat} (he : Edge t q i c) :
    ∃ events s, (∀ e ∈ events, e.size ≤ 1024 * 2) ∧
      runs (returning (step (socketsAt ephemeral apps) r)) Net.init events = some s ∧
      s.sent = [request addrOf port r q c i 0, answer addrOf port r q c i 0] := by
  have hclient : (addrOf c.label, .client (port + i + 1) (addrOf c.label) port) ∈
      socketsAt ephemeral apps q.label :=
    (mem_socketsAt h hd ephemeral hport hlast).2 ⟨q, i, c, he, .inr ⟨rfl, rfl, rfl⟩⟩
  obtain ⟨k, hk⟩ := List.mem_iff_getElem?.1 hclient
  let s₁ : Net := { Net.init with sent := [request addrOf port r q c i 0] }
  let s₂ : Net := s₁.hear c.label port (peerOf addrOf port r q c i)
  let s₃ : Net :=
    { s₂ with sent := [request addrOf port r q c i 0, answer addrOf port r q c i 0] }
  have hsend : step (socketsAt ephemeral apps) r Net.init
      (.clientSends q.label k 0) = .ok s₁ := by
    unfold step
    dsimp only
    rw [hk]
    rfl
  have harrive : step (socketsAt ephemeral apps) r s₁ (.arrives 0) = .ok s₂ := by
    have hget : s₁.sent[0]? = some (request addrOf port r q c i 0) := rfl
    unfold step
    dsimp only
    rw [hget]
    dsimp only
    rw [listener_request h hd ephemeral hport hlast hserves he 0]
    rfl
  have hreply : step (socketsAt ephemeral apps) r s₂
      (.serverSends c.label port 0 0) = .ok s₃ := by
    have hheard : s₂.heard c.label port = [peerOf addrOf port r q c i] :=
      if_pos ⟨rfl, rfl⟩
    unfold step
    dsimp only
    rw [hheard, List.getElem?_cons_zero]
    dsimp only
    rw [peerOf, getNs3SocketAddr_getQuicSocketAddr (source_parent h hserves he).1]
    rfl
  refine ⟨[.clientSends q.label k 0, .arrives 0, .serverSends c.label port 0 0],
    s₃, ?_, ?_, rfl⟩
  · intro e he
    simp only [List.mem_cons, List.not_mem_nil, or_false] at he
    rcases he with rfl | rfl | rfl <;> exact Nat.zero_le _
  · rw [runs_cons, returning_eq_some.2 hsend, Option.bind_some, runs_cons,
      returning_eq_some.2 harrive, Option.bind_some, runs_cons, returning_eq_some.2 hreply,
      Option.bind_some, runs_nil]

/-- **Who hears whom**, in every run with datagrams that fit into the buffers: a server only
hears the one client of its node's parent, nothing is written behind a buffer, and no client's
assertion fails in any run exactly when every server answers from the address that its client
sends to. -/
theorem datagrams_between_peers :
    (∀ events s, (∀ e ∈ events, e.size ≤ 1024 * 2) →
      runs (returning (step (socketsAt ephemeral apps) r)) Net.init events = some s →
      (∀ q i c, Edge t q i c → ∀ p, ∀ peer ∈ s.heard c.label p,
        p = port ∧ peer = peerOf addrOf port r q c i) ∧
      ∀ e, e.size ≤ 1024 * 2 →
        step (socketsAt ephemeral apps) r s e ≠ .error .overrun) ∧
    ((∀ events s, (∀ e ∈ events, e.size ≤ 1024 * 2) →
      runs (returning (step (socketsAt ephemeral apps) r)) Net.init events = some s →
      ∀ e, e.size ≤ 1024 * 2 →
        ∃ s', step (socketsAt ephemeral apps) r s e = .ok s') ↔
      ∀ q i c, Edge t q i c → AnswersFirst addrOf r q c) := by
  have hinv : ∀ events s, (∀ e ∈ events, e.size ≤ 1024 * 2) →
      runs (returning (step (socketsAt ephemeral apps) r)) Net.init events = some s →
      Inv addrOf port t r s := fun events s hsizes hrun =>
    runs_ends (fun _ e hs hsize => hs.step h hd ephemeral hport hlast hserves e hsize) events _ s
      inv_init hsizes hrun
  refine ⟨fun events s hsizes hrun => ⟨?_, ?_⟩, fun hall q i c he => ?_,
    fun hanswers events s hsizes hrun e hsize => ?_⟩
  · intro q i c he p peer hpeer
    obtain ⟨q', i', c', he', hname, rfl, rfl⟩ := (hinv events s hsizes hrun).heard _ _ _ hpeer
    -- a node has one parent, and is its child once
    obtain rfl : c = c' := subtree_ext h.labels he.child_subtree he'.child_subtree hname
    obtain rfl := parent_unique h.labels he.parent he'.parent he.child_mem he'.child_mem rfl
    obtain rfl := h.child_index he.parent he.child he'.child rfl
    exact ⟨rfl, rfl⟩
  · intro e hsize herr
    have hends := (hinv events s hsizes hrun).step h hd ephemeral hport hlast hserves e hsize
    cases (hends.of_error herr).1
  · by_contra hother
    obtain ⟨events, s, hsizes, hrun, hsent⟩ := answered h hd ephemeral hport hlast hserves he
    obtain ⟨s', hs'⟩ := hall events s hsizes hrun (.arrives 1) (Nat.zero_le _)
    have hget : s.sent[1]? = some (answer addrOf port r q c i 0) := by
      rw [hsent]
      rfl
    unfold step at hs'
    dsimp only at hs'
    rw [hget] at hs'
    dsimp only at hs'
    rw [listener_answer h hd ephemeral hport hlast hserves he 0] at hs'
    dsimp only at hs'
    have hsmall : ¬1024 * 2 < (answer addrOf port r q c i 0).size := Nat.not_lt_zero _
    rw [recvPacket, if_neg hsmall, if_neg fun hsame => hother hsame.1] at hs'
    cases hs'
  · have hends := (hinv events s hsizes hrun).step h hd ephemeral hport hlast hserves e hsize
    cases hstep : step (socketsAt ephemeral apps) r s e with
    | ok s' => exact ⟨s', rfl⟩
    | error f =>
      obtain ⟨-, q, i, c, he, hother⟩ := hends.of_error hstep
      exact absurd (hanswers q i c he) hother

end

/-- Two links, from `agg0` to `con0` (addresses 2 and 1) and to `pro0` (4 and 3). -/
def chainRouting : Routing where
  owner addr :=
    if addr = 1 then some "con0" else if addr = 3 then some "pro0"
    else if addr = 2 ∨ addr = 4 then some "agg0" else none
  source nodeName dst :=
    if nodeName = "con0" then 1 else if nodeName = "pro0" then 3
    else if dst = 1 then 2 else 4

theorem chainRouting_serves : chainRouting.Serves chainAddr chain where
  known := by decide
  source n hn m hm hne dst hdst := by
    have hn : n = "con0" ∨ n = "agg0" ∨ n = "pro0" := by simpa [chain, labels_node] using hn
    rcases hn with rfl | rfl | rfl
    · simp [chainRouting]
    · by_cases hone : dst = 1 <;> simp [chainRouting, hone]
    · simp [chainRouting]

/-- The answers of both servers get through: `agg0` is known under its address on the way to
`con0`. -/
theorem datagrams_between_peers_chain :
    ∃ s, runs (returning (step (socketsAt (fun _ => 49153) chainApps) chainRouting))
        Net.init [.clientSends "con0" 0 1200, .arrives 0, .serverSends "agg0" 1234 0 1200] = some s ∧
      s.heard "agg0" 1234 = [getQuicSocketAddr 1 1235] ∧
      ∃ s', step (socketsAt (fun _ => 49153) chainApps) chainRouting s (.arrives 1) = .ok s' := by
  have hpeers := datagrams_between_peers chain_isAggTree chain_deployed (fun _ => 49153)
    (by decide) (by decide) chainRouting_serves
  have hanswers : ∀ q i c, Edge chain q i c → AnswersFirst chainAddr chainRouting q c := by
    have hall : ∀ q ∈ chain.subtrees, ∀ c ∈ q.children,
        chainRouting.source c.label (chainRouting.source q.label (chainAddr c.label)) =
          chainAddr c.label := by decide
    exact fun q i c he => hall q he.parent c he.child_mem
  refine ⟨_, rfl, rfl, ?_⟩
  exact hpeers.2.2 hanswers
    [.clientSends "con0" 0 1200, .arrives 0, .serverSends "agg0" 1234 0 1200] _ (by decide) rfl _
    (by decide)

/-- With the link to `pro0` first in the file, `agg0` is known under its address there (2), and
answers `con0` from the other one. -/
example :
    let r : Routing := { chainRouting with
      source := fun nodeName dst =>
        if nodeName = "con0" then 1 else if nodeName = "pro0" then 3
        else if dst = 1 then 4 else 2 }
    let step := step (socketsAt (fun _ => 49153) chainApps) r
    ((runs (returning step) Net.init
      [.clientSends "con0" 0 1200, .arrives 0, .serverSends "agg0" 1234 0 1200]).bind fun s =>
        match step s (.arrives 1) with
        | .error fault => some fault
        | .ok _ => none) = some .assertion := by decide

end Datagrams

end InNetworkAgg
