import InNetworkAgg.Lib.Outcome
import InNetworkAgg.Sockets

/-!
# The clock of a simulation (in-quic-topo.cc, the `StartApplication`s, `ReceiveDataFromAll`)

`main` starts the applications and their polls at fixed times of the simulator's
clock.  A poll asks every socket for its buffer, and `GetBuffer` goes through a
null pointer as long as the socket has no stream: a client has one after the
handshake, a server after the first bytes of its client.
-/

namespace InNetworkAgg

open Outcome PartialRun RoseTree World

/-! ## Times -/

/-- In the simulator's nanoseconds. -/
def milliSeconds (n : Nat) : Nat := n * 1000000

def seconds (n : Nat) : Nat := n * 1000000000

/-- The arguments of `SetStartTime` and, for `basetime`, of `SetupConsumer`, `SetupAggregator` and
`SetupProducer`. -/
structure Times where
  startTime : Nat
  basetime : Nat
deriving DecidableEq, Repr

/-- `Createcon`, `Createagg` and `Createpro`.  A producer's parameter is a `uint16_t`. -/
def treeTimes (starttime basetime : Nat) : Role → Times
  | .con => { startTime := starttime + 2, basetime := basetime }
  | .agg => { startTime := starttime + 1, basetime := basetime }
  | .pro => { startTime := starttime, basetime := basetime * 6 % 65536 }

/-- `CreateDirectTopo`, which creates no aggregator. -/
def directTimes (starttime basetime : Nat) : Role → Times
  | .con => { startTime := starttime + 1, basetime := basetime }
  | .agg | .pro => { startTime := starttime, basetime := basetime * 2 % 65536 }

/-- The first `ReceiveDataFromAll`, as `StartApplication` schedules it. -/
def Times.firstPoll (ts : Times) : Role → Nat
  | .con => seconds ts.startTime + milliSeconds (ts.basetime + 30)
  | .agg => seconds ts.startTime + milliSeconds (2 * ts.basetime + 500)
  | .pro => seconds ts.startTime + milliSeconds (ts.basetime + 500)

/-- The `AVG` that `Consumer::StartApplication` schedules. -/
def Times.average (ts : Times) : Nat := seconds ts.startTime + milliSeconds ts.basetime

/-- When a node of the role can first send requests. -/
def asks (times : Role → Times) : Role → Nat
  | .con => (times .con).average
  | .agg => (times .agg).firstPoll .agg
  | .pro => (times .pro).firstPoll .pro

namespace Startup

/-! ## Runs with a clock -/

/-- How long a byte and a handshake take. -/
structure Network where
  shortest : Nat
  longest : Nat
  handshake : Nat

structure Scenario where
  env : Env
  addrOf : String → Address
  apps : List App
  times : Role → Times
  net : Network

structure Simulation where
  now : Nat
  world : World
  /-- the socket of a node for a peer has an endpoint with a `channel_` -/
  channel : Address → Address → Bool
  /-- when the bytes on the way were sent -/
  sentAt : Address → Address → List Nat
  /-- the scheduled `AVG` -/
  average : Option Nat
  /-- the scheduled `ReceiveDataFromAll` of a node -/
  nextPoll : Address → Option Nat
  /-- the end of the simulation, when it is set -/
  stopAt : Option Nat

/-- `Simulator::Stop (Seconds (Simulator::Now ().GetSeconds () + 1))`, called at the time `now`.
The argument is a delay. -/
def stopTime (now : Nat) : Nat := now + (now + seconds 1)

/-- Of two ends the first counts. -/
def earliest (t : Option Nat) (u : Nat) : Option Nat := some (t.elim u (min u))

/-- What ends the program. -/
inductive Fault where
  | nullPointer
  | assertion
deriving DecidableEq, Repr

inductive Event where
  /-- no event of the simulator for some time -/
  | wait (d : Nat)
  | average (past : UInt64)
  /-- `ReceiveDataFromAll` with the sockets in the order of the map -/
  | receiveDataFromAll (a : Address) (order : List Address) (past : Address → Nat → UInt64)
    (heap : Address → Nat → Nat → UInt8)
  /-- the handshake of a client is over -/
  | ready (a peer : Address)
  /-- a packet of the stream arrives, and `n` bytes can be read -/
  | arrives (src dst : Address) (n : Nat)

namespace Scenario

variable (sc : Scenario)

def appAt (a : Address) : Option App := sc.apps.find? fun app => decide (sc.addrOf app.node = a)

def nodes : List Address := sc.apps.map fun app => sc.addrOf app.node

def servers (a : Address) : List Address := (sc.appAt a).elim [] App.sGroup

def clients (a : Address) : List Address := (sc.appAt a).elim [] App.cGroup

def startAt (a : Address) : Nat := (sc.appAt a).elim 0 fun app => seconds (sc.times app.role).startTime

def firstPoll (a : Address) : Option Nat :=
  (sc.appAt a).map fun app => (sc.times app.role).firstPoll app.role

def asks (a : Address) : Nat := (sc.appAt a).elim 0 fun app => InNetworkAgg.asks sc.times app.role

/-- Before anything has happened. -/
def init (garbage : Address → Nat) (heap : Address → Address → Nat → UInt8) : Simulation where
  now := 0
  world := World.init sc.addrOf garbage heap sc.apps
  channel _ _ := false
  sentAt _ _ := []
  average := some (sc.times .con).average
  nextPoll := sc.firstPoll
  stopAt := none

end Scenario

/-- What a node has written since the last event is sent now, and a stop it has called for is set. -/
def Simulation.sent (s : Simulation) (a : Address) (w : World) : Simulation :=
  { s with
    world := w
    stopAt := if s.world.stops.length < w.stops.length then earliest s.stopAt (stopTime s.now)
      else s.stopAt
    sentAt := Function.update s.sentAt a fun b => s.sentAt a b ++
      List.replicate ((w.link a b).chan.inflight.length -
        (s.world.link a b).chan.inflight.length) s.now }

def Simulation.open (s : Simulation) (a peer : Address) : Simulation :=
  { s with channel := Function.update s.channel a (Function.update (s.channel a) peer true) }

/-- The first `n` bytes of those on the way have come. -/
def Simulation.arrived (s : Simulation) (src dst : Address) (n : Nat) (w : World) : Simulation :=
  { s with
    world := w
    sentAt := Function.update s.sentAt src
      (Function.update (s.sentAt src) dst ((s.sentAt src dst).drop n)) }

/-- `Send` of an endpoint without a `channel_` sends nothing. -/
def goesOut (channel : Address → Bool) : Effect → Bool
  | .send toStr _ => channel toStr
  | .answer _ | .newRequest | .stop => true

/-- The polls of one `ReceiveDataFromAll`. -/
def polls (a : Address) (past : Address → Nat → UInt64) (heap : Address → Nat → Nat → UInt8)
    (order : List Address) : List World.Action :=
  order.map fun peer => .poll a peer (past peer) (heap peer)

variable (sc : Scenario)

/-- An event can come next: it is its time, and no other event or delay is overdue. -/
def Enabled (s : Simulation) : Event → Prop
  | .wait d => (∀ t ∈ s.average, s.now + d ≤ t) ∧ (∀ t ∈ s.stopAt, s.now + d ≤ t) ∧
      (∀ a ∈ sc.nodes, (∀ t ∈ s.nextPoll a, s.now + d ≤ t) ∧
        (∀ b ∈ sc.nodes, ∀ t ∈ s.sentAt a b, s.now + d ≤ t + sc.net.longest) ∧
        ∀ b ∈ sc.clients a, s.channel a b = false →
          s.now + d ≤ max (sc.startAt a) (sc.startAt b) + sc.net.handshake)
  | .average _ => s.average = some s.now
  | .receiveDataFromAll a order _ _ =>
    s.nextPoll a = some s.now ∧ order.Perm (sc.servers a ++ sc.clients a)
  | .ready a peer => peer ∈ sc.clients a ∧ sc.startAt a ≤ s.now ∧ sc.startAt peer ≤ s.now
  | .arrives src dst n => n ≤ 1024 * 8 ∧ n ≤ (s.sentAt src dst).length ∧ s.sentAt src dst ≠ [] ∧
      ∀ t ∈ (s.sentAt src dst).take (max n 1), t + sc.net.shortest ≤ s.now

instance (s : Simulation) (e : Event) : Decidable (Enabled sc s e) := by
  cases e <;> (unfold Enabled; infer_instance)

def step (s : Simulation) : Event → Except Fault Simulation
  | .wait d => .ok { s with now := s.now + d }
  | .average past =>
    match (s.world.node sc.env.consumer).doAVG past with
    | none => .error .assertion
    | some r =>
      .ok { s.sent sc.env.consumer
        ({ s.world with started := true }.perform sc.env sc.env.consumer
          (r.1, r.2.filter (goesOut (s.channel sc.env.consumer)))) with average := none }
  | .receiveDataFromAll a order past heap =>
    -- whichever socket comes first, `GetBuffer` of one without a channel ends the program
    if ∃ peer ∈ order, s.channel a peer = false then .error .nullPointer
    else
      match runs (World.exec sc.env) s.world (polls a past heap order) with
      | none => .error .assertion
      | some w =>
        .ok { s.sent a w with
          nextPoll := Function.update s.nextPoll a
            (if (w.node a).asEnd = false ∨ (w.node a).cGroup = [] then
              some (s.now + milliSeconds 30) else none) }
  | .ready a peer => .ok (s.open a peer)
  | .arrives src dst n =>
    match if n = 0 then some s.world else s.world.exec sc.env (.deliver src dst n) with
    | none => .error .assertion
    | some w =>
      -- a server has a channel for the stream of its client from then on
      .ok (if src ∈ sc.servers dst then (s.arrived src dst n w).open dst src
        else s.arrived src dst n w)

/-! ## Fields -/

section
variable {s : Simulation}

theorem open_channel (s : Simulation) (a peer x y : Address) :
    (s.open a peer).channel x y = (decide (x = a ∧ y = peer) || s.channel x y) := by
  unfold Simulation.open
  by_cases hx : x = a
  · subst hx
    by_cases hy : y = peer <;> simp [hy]
  · simp [hx]

/-- What is closed then was closed before, and is not what was opened. -/
theorem open_closed {a peer x y : Address} (hno : (s.open a peer).channel x y = false) :
    ¬(x = a ∧ y = peer) ∧ s.channel x y = false := by
  rw [open_channel, Bool.or_eq_false_iff, decide_eq_false_iff_not] at hno
  exact hno

end

section
variable (s : Simulation) (src dst : Address) (n : Nat) (w : World)

theorem arrived_self : (s.arrived src dst n w).sentAt src dst = (s.sentAt src dst).drop n := by
  simp [Simulation.arrived]

theorem arrived_of_ne {a b : Address} (h : ¬(a = src ∧ b = dst)) :
    (s.arrived src dst n w).sentAt a b = s.sentAt a b := by
  unfold Simulation.arrived
  by_cases ha : a = src
  · subst ha
    have hb : b ≠ dst := fun hb => h ⟨rfl, hb⟩
    simp [hb]
  · simp [ha]

theorem mem_arrived {a b : Address} {t : Nat} (h : t ∈ (s.arrived src dst n w).sentAt a b) :
    t ∈ s.sentAt a b := by
  by_cases hab : a = src ∧ b = dst
  · obtain ⟨rfl, rfl⟩ := hab
    rw [arrived_self] at h
    exact List.mem_of_mem_drop h
  · rwa [arrived_of_ne s src dst n w hab] at h

end

section
variable (s : Simulation) (a : Address) (w : World)

theorem sent_of_ne {x : Address} (hx : x ≠ a) (y : Address) :
    (s.sent a w).sentAt x y = s.sentAt x y := by
  simp [Simulation.sent, hx]

theorem sent_self (y : Address) : (s.sent a w).sentAt a y = s.sentAt a y ++
    List.replicate ((w.link a y).chan.inflight.length - (s.world.link a y).chan.inflight.length)
      s.now := by
  simp [Simulation.sent]

end

end Startup

end InNetworkAgg
