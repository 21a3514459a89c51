import InNetworkAgg.AggTree
import InNetworkAgg.Framing

/-!
# A deployment in motion (scratch/in-quic-topo.cc, the `StartApplication`s)

Every application owns one `SimpleMPI`; between a node and each of its peers lie
two byte streams, one in each direction, that end in the ring of the receiver's
`MyChannel`.  The simulator takes the consumer's first `AVG`, arrivals
(`MyChannel::OnCanRead`) and polls (`ReceiveDataFrom`) in any order, as `exec`
does with the actions of a run.

`Link.sent` and `Link.handled` only record: a message with the round its sender,
or its receiver, is in.  Nothing reads them.
-/

namespace InNetworkAgg

open LittleEndian PartialRun RoseTree

/-! ## State -/

/-- The stream from one node to another. -/
structure Link where
  chan : Channel
  sent : List (Nat × List UInt8)
  handled : List (Nat × List UInt8)

structure World where
  /-- the consumer's scheduled `AVG` has run -/
  started : Bool
  node : Address → SimpleMPI
  /-- requests the node has handled -/
  requests : Address → Nat
  link : Address → Address → Link
  /-- what the node wrote to `avg` in the completion branch of `AVG` -/
  results : Address → List (List UInt64)
  /-- calls of `Simulator::Stop`: the node, and `curIter` of the consumer at the call -/
  stops : List (Address × Nat)

/-- What a run does not decide: where the consumer is, `rand()`, and the time when
a node handles its requests. -/
structure Env where
  consumer : Address
  rand : Nat → Nat → Nat
  time : Address → Nat → Nat

/-- What a node generates for its request number `r`. -/
def Env.vector (env : Env) (a : Address) (r size rank : Nat) : List UInt64 :=
  genetrateRandomVector env.rand (env.time a r) size rank

/-! ## Set-up -/

/-- `SetupConsumer`, `SetupAggregator` and `SetupProducer`. -/
def App.setup (garbage : Nat) (app : App) : SimpleMPI :=
  let s := (SimpleMPI.fresh garbage).setupMPI app.itr app.rank app.sGroup app.cGroup
    (decide (app.role = .con))
  match app.vsize with
  | some size => s.setVSize size
  | none => s

/-- Before anything is sent.  `garbage` and `heap` are what new memory holds. -/
def World.init (addrOf : String → Address) (garbage : Address → Nat)
    (heap : Address → Address → Nat → UInt8) (apps : List App) : World where
  started := false
  node := fun a =>
    match apps.find? fun app => addrOf app.node = a with
    | some app => app.setup (garbage a)
    | none => SimpleMPI.fresh (garbage a)
  requests := fun _ => 0
  link := fun src dst =>
    { chan := { inflight := [], ring := .new (heap src dst) }, sent := [], handled := [] }
  results := fun _ => []
  stops := []

/-! ## Steps -/

namespace World

def setLink (w : World) (src dst : Address) (l : Link) : World :=
  { w with link := Function.update w.link src (Function.update (w.link src) dst l) }

/-- The round the messages of a node belong to: a leaf answers its last request,
any other node has finished `curIter` rounds. -/
def stamp (w : World) (a : Address) : Nat :=
  if (w.node a).cGroup = [] then w.requests a else (w.node a).curIter

/-- A stream takes every write. -/
def send (w : World) (a toStr : Address) (packet : List UInt8) : World :=
  let l := w.link a toStr
  w.setLink a toStr
    { l with
      chan := { l.chan with inflight := l.chan.inflight ++ packet }
      sent := l.sent ++ [(w.stamp a, packet)] }

def effect (env : Env) (a : Address) (w : World) : Effect → World
  | .send toStr packet => w.send a toStr packet
  | .answer avg => { w with results := Function.update w.results a (w.results a ++ [avg]) }
  | .newRequest => w
  | .stop => { w with stops := w.stops ++ [(a, (w.node env.consumer).curIter)] }

/-- A handler of node `a` has returned. -/
def perform (env : Env) (a : Address) (w : World) (r : SimpleMPI × List Effect) : World :=
  r.2.foldl (effect env a) { w with node := Function.update w.node a r.1 }

/-- The message at the front of a buffer is handled in round `round`. -/
def log (w : World) (peer a : Address) (round : Nat) (buffer : List UInt8) : World :=
  let l := w.link peer a
  w.setLink peer a
    { l with handled := l.handled ++ [(round, buffer.take (leValue (buffer.take 2)))] }

/-- `HandleRequestV`, called for a message from `peer`.  `past n` is what lies behind
a vector when message number `n` of the peer is handled. -/
def onRequest (env : Env) (past : Nat → UInt64) (a peer : Address) (w : World)
    (buffer : List UInt8) : Option World :=
  let r := w.requests a
  ((w.node a).handleRequestV (past (w.link peer a).handled.length)
    (fun size => env.vector a r size (w.node a).rank) peer buffer).map
      ({ w.log peer a r buffer with requests := Function.update w.requests a (r + 1) }.perform env a)

/-- `HandleResponseV` -/
def onResponse (env : Env) (past : Nat → UInt64) (a peer : Address) (w : World)
    (buffer : List UInt8) : Option World :=
  ((w.node a).handleResponseV (past (w.link peer a).handled.length) buffer).map
    ((w.log peer a ((w.node a).curIter + 1) buffer).perform env a)

/-- `func_map` as `SetupMPI` fills it. -/
def funcMap (env : Env) (past : Nat → UInt64) (a peer : Address) : FuncMap World := fun key =>
  if key = commands .REQUESTV then some (onRequest env past a peer)
  else if key = commands .RESPONSEV then some (onResponse env past a peer)
  else none

def setRing (w : World) (src dst : Address) (ring : CircularBuffer) : World :=
  let l := w.link src dst
  w.setLink src dst { l with chan := { l.chan with ring := ring } }

inductive Action where
  /-- the `AVG` that `Consumer::StartApplication` schedules -/
  | start (past : UInt64)
  /-- `OnCanRead` at `dst` -/
  | deliver (src dst : Address) (n : Nat)
  /-- `ReceiveDataFrom (peer)` at `a` -/
  | poll (a peer : Address) (past : Nat → UInt64) (heap : Nat → Nat → UInt8)

def exec (env : Env) (w : World) : Action → Option World
  | .start past =>
    if w.started then none
    else ((w.node env.consumer).doAVG past).map ({ w with started := true }.perform env env.consumer)
  | .deliver src dst n =>
    ((w.link src dst).chan.onCanRead n).map fun c =>
      w.setLink src dst { w.link src dst with chan := c }
  | .poll a peer past heap =>
    if peer ∈ (w.node a).socketPool then
      (receiveDataFrom (funcMap env past a peer) heap (w.link peer a).chan.ring w).map fun r =>
        r.2.setRing peer a r.1
    else none

/-! ## What a step changes -/

section
variable (w : World) (src dst : Address) (l : Link)

@[simp] theorem setLink_node : (w.setLink src dst l).node = w.node := rfl
@[simp] theorem setLink_requests : (w.setLink src dst l).requests = w.requests := rfl
@[simp] theorem setLink_results : (w.setLink src dst l).results = w.results := rfl
@[simp] theorem setLink_stops : (w.setLink src dst l).stops = w.stops := rfl
@[simp] theorem setLink_started : (w.setLink src dst l).started = w.started := rfl

@[simp] theorem setLink_self : (w.setLink src dst l).link src dst = l := by
  simp [setLink]

theorem setLink_of_ne {x y : Address} (h : ¬ (x = src ∧ y = dst)) :
    (w.setLink src dst l).link x y = w.link x y := by
  unfold setLink
  by_cases hx : x = src
  · subst hx
    have hy : y ≠ dst := fun hy => h ⟨rfl, hy⟩
    simp [Function.update_of_ne hy]
  · simp [Function.update_of_ne hx]

end

/-- The packet an effect sends to `y`. -/
def packetTo (y : Address) : Effect → Option (List UInt8)
  | .send toStr packet => if toStr = y then some packet else none
  | .answer _ => none
  | .newRequest => none
  | .stop => none

/-- The packets for `y`, in order. -/
def packetsTo (y : Address) (es : List Effect) : List (List UInt8) := es.filterMap (packetTo y)

/-- The vector written in the completion branch of `AVG`. -/
def answerOf : Effect → Option (List UInt64)
  | .answer avg => some avg
  | .send _ _ => none
  | .newRequest => none
  | .stop => none

def answersIn (es : List Effect) : List (List UInt64) := es.filterMap answerOf

/-- The number of calls of `Simulator::Stop`. -/
def stopsIn (es : List Effect) : Nat := es.count .stop

end World

/-- A link after the packets were written to it. -/
def Link.sendAll (l : Link) (stamp : Nat) (packets : List (List UInt8)) : Link :=
  { l with
    chan := { l.chan with inflight := l.chan.inflight ++ packets.flatten }
    sent := l.sent ++ packets.map fun p => (stamp, p) }

@[simp] theorem Link.sendAll_nil (l : Link) (stamp : Nat) : l.sendAll stamp [] = l := by
  simp [Link.sendAll]

theorem Link.sendAll_cons (l : Link) (stamp : Nat) (p : List UInt8) (ps : List (List UInt8)) :
    l.sendAll stamp (p :: ps) =
      ({ l with
        chan := { l.chan with inflight := l.chan.inflight ++ p }
        sent := l.sent ++ [(stamp, p)] } : Link).sendAll stamp ps := by
  simp [Link.sendAll]

namespace World

/-- What a list of effects makes of the world, part by part. -/
theorem foldl_effect (env : Env) (a : Address) (es : List Effect) (w : World) :
    es.foldl (effect env a) w = { w with
      link := fun x y => if x = a then (w.link a y).sendAll (w.stamp a) (packetsTo y es) else w.link x y
      results := Function.update w.results a (w.results a ++ answersIn es)
      stops := w.stops ++ List.replicate (stopsIn es) (a, (w.node env.consumer).curIter) } := by
  induction es generalizing w with
  | nil =>
    have hlink : (fun x y => if x = a then w.link a y else w.link x y) = w.link := by
      funext x y
      split
      · rename_i hx
        rw [hx]
      · rfl
    simp [packetsTo, answersIn, stopsIn, hlink]
  | cons e es ih =>
    rw [List.foldl_cons, ih]
    cases e with
    | send toStr packet =>
      have hlink : (fun x y => if x = a then
            ((w.send a toStr packet).link a y).sendAll ((w.send a toStr packet).stamp a) (packetsTo y es)
          else (w.send a toStr packet).link x y) =
          fun x y => if x = a then
            (w.link a y).sendAll (w.stamp a) (packetsTo y (.send toStr packet :: es)) else w.link x y := by
        funext x y
        by_cases hx : x = a
        · subst hx
          rw [if_pos rfl, if_pos rfl]
          by_cases hy : toStr = y
          · subst hy
            have hp : packetsTo toStr (.send toStr packet :: es) = packet :: packetsTo toStr es :=
              List.filterMap_cons_some (if_pos rfl)
            rw [hp, Link.sendAll_cons, send, setLink_self]
            rfl
          · have hp : packetsTo y (.send toStr packet :: es) = packetsTo y es :=
              List.filterMap_cons_none (if_neg hy)
            rw [hp, send, setLink_of_ne _ _ _ _ fun h => hy h.2.symm]
            rfl
        · rw [if_neg hx, if_neg hx, send, setLink_of_ne _ _ _ _ fun h => hx h.1]
      simp only [effect, hlink]
      rfl
    | answer avg =>
      have ha : answersIn (.answer avg :: es) = avg :: answersIn es := rfl
      simp only [effect, ha, Function.update_self, Function.update_idem, List.append_assoc,
        List.singleton_append]
      rfl
    | newRequest => rfl
    | stop =>
      have hs : stopsIn (.stop :: es) = stopsIn es + 1 := List.count_cons_self
      simp only [effect, hs, List.replicate_succ, List.append_assoc, List.singleton_append]
      rfl

section
variable (env : Env) (a : Address) (w : World) (r : SimpleMPI × List Effect)

@[simp] theorem perform_node : (w.perform env a r).node = Function.update w.node a r.1 := by
  rw [perform, foldl_effect]

@[simp] theorem perform_requests : (w.perform env a r).requests = w.requests := by
  rw [perform, foldl_effect]

@[simp] theorem perform_started : (w.perform env a r).started = w.started := by
  rw [perform, foldl_effect]

theorem perform_results : (w.perform env a r).results =
    Function.update w.results a (w.results a ++ answersIn r.2) := by
  rw [perform, foldl_effect]

theorem perform_stops : (w.perform env a r).stops = w.stops ++
    List.replicate (stopsIn r.2) (a, (Function.update w.node a r.1 env.consumer).curIter) := by
  rw [perform, foldl_effect]

/-- Links from other nodes stay as they are. -/
theorem perform_link_of_ne {x : Address} (y : Address) (h : x ≠ a) :
    (w.perform env a r).link x y = w.link x y := by
  rw [perform, foldl_effect]
  exact if_neg h

theorem perform_link_self (y : Address) : (w.perform env a r).link a y =
    (w.link a y).sendAll (if r.1.cGroup = [] then w.requests a else r.1.curIter)
      (packetsTo y r.2) := by
  rw [perform, foldl_effect]
  refine (if_pos rfl).trans ?_
  simp [stamp]

end

/-- A delivery that fits. -/
theorem exec_deliver (env : Env) {w : World} {src dst : Address} (n : Nat) {c : Channel}
    (hc : (w.link src dst).chan = c) (hring : c.ring.WF) (hcap : c.ring.capacity = 10240) (hn : 0 < n)
    (hn' : n ≤ 8192) (hle : n ≤ c.inflight.length) (hfit : c.ring.size + n ≤ 10240) :
    ∃ u ring, exec env w (.deliver src dst n) = some u ∧ u.node = w.node ∧
      (∀ x y, ¬ (x = src ∧ y = dst) → u.link x y = w.link x y) ∧
      u.link src dst =
        { w.link src dst with chan := { inflight := c.inflight.drop n, ring := ring } } ∧
      c.ring.write (c.inflight.take n) = some ring ∧ ring.capacity = 10240 ∧
      ring.size = c.ring.size + n := by
  have hlen : (c.inflight.take n).length = n := by simp; omega
  obtain ⟨ring, hwrite, -, hcont, -, hcap'⟩ :=
    c.ring.write_spec (c.inflight.take n) hring (by rw [hlen, hcap]; omega)
  refine ⟨w.setLink src dst
    { w.link src dst with chan := { inflight := c.inflight.drop n, ring := ring } }, ring,
    ?_, rfl, fun x y h => setLink_of_ne _ _ _ _ h, by rw [setLink_self], hwrite, hcap'.trans hcap, ?_⟩
  · rw [exec, hc, Channel.onCanRead, if_pos ⟨hn, by omega, hle⟩, hwrite]
    rfl
  · have := congrArg List.length hcont
    rw [List.length_append, hlen] at this
    simpa using this

/-! ## The effects of the handlers -/

theorem packetsTo_append (y : Address) (es fs : List Effect) :
    packetsTo y (es ++ fs) = packetsTo y es ++ packetsTo y fs := List.filterMap_append

theorem answersIn_append (es fs : List Effect) :
    answersIn (es ++ fs) = answersIn es ++ answersIn fs := List.filterMap_append

theorem stopsIn_append (es fs : List Effect) : stopsIn (es ++ fs) = stopsIn es + stopsIn fs :=
  List.count_append

/-- One packet for each child. -/
theorem packetsTo_requests (y : Address) (cs : List Address) (hcs : cs.Nodup) (packet : List UInt8) :
    packetsTo y (cs.map fun c => .send c packet) = if y ∈ cs then [packet] else [] := by
  induction cs with
  | nil => rfl
  | cons c cs ih =>
    obtain ⟨hc, hcs⟩ := List.nodup_cons.1 hcs
    rw [List.map_cons, ← List.singleton_append, packetsTo_append, ih hcs]
    by_cases hy : c = y
    · subst hy
      simp [packetsTo, packetTo, hc]
    · simp [packetsTo, packetTo, hy, Ne.symm hy]

/-- All packets for the parent. -/
theorem packetsTo_responses (y p : Address) (is : List Nat) (packet : Nat → List UInt8) :
    packetsTo y (is.map fun i => .send p (packet i)) = if p = y then is.map packet else [] := by
  rw [packetsTo, List.filterMap_map]
  by_cases hy : p = y <;> simp [packetTo, hy, Function.comp_def]

/-- Effects that only send. -/
def Sends (es : List Effect) : Prop := ∀ e ∈ es, ∃ toStr packet, e = .send toStr packet

theorem Sends.map {ι : Type} (is : List ι) (toStr : ι → Address) (packet : ι → List UInt8) :
    Sends (is.map fun i => .send (toStr i) (packet i)) := by
  intro e he
  obtain ⟨i, -, rfl⟩ := List.mem_map.1 he
  exact ⟨_, _, rfl⟩

theorem Sends.answersIn {es : List Effect} (h : Sends es) : answersIn es = [] := by
  refine List.filterMap_eq_nil_iff.2 fun e he => ?_
  obtain ⟨toStr, packet, rfl⟩ := h e he
  rfl

theorem Sends.append {es fs : List Effect} (he : Sends es) (hf : Sends fs) : Sends (es ++ fs) :=
  fun e h => (List.mem_append.1 h).elim (he e) (hf e)

theorem Sends.stop_not_mem {es : List Effect} (h : Sends es) : .stop ∉ es := by
  intro he
  obtain ⟨toStr, packet, he⟩ := h _ he
  cases he

theorem Sends.stopsIn {es : List Effect} (h : Sends es) : stopsIn es = 0 :=
  List.count_eq_zero.2 h.stop_not_mem

end World

end InNetworkAgg
