import InNetworkAgg.Lib.Outcome
import InNetworkAgg.VegasSender

/-!
# The Copa congestion window (quic/model/cc-algo/copa_sender.cc)

The window doubles in slow start; afterwards every event adds or takes away an
amount proportional to `velocity`, which doubles with every round trip that
keeps its direction.  The sum is checked against overflow, the difference
against underflow, and nothing looks at `max_congestion_window_`.

    velocity = 0  ∨  velocity = 2 ^ (numTimesDirectionSame - 2) % 2 ^ 64      (Velocity.power)

`velocity` is a `uint64_t`, so that 66 round trips in one direction make it 0;
with it every amount is 0, the direction stays `Down` and the window does not
change any more.

The quotients of `double`s are the parameter `Doubles`, the windowed filters of
the QUIC library are the parameter `WindowedFilter`.  Times are in microseconds.
-/

namespace InNetworkAgg

open Outcome PartialRun

/-- A windowed filter: made with the length of its window, it is updated with samples. -/
structure WindowedFilter (F : Type) where
  new : Nat → F
  setWindowLength : F → Nat → F
  update : F → Nat → Nat → F
  getBest : F → Nat

/-- The expressions with `double`s; there is no result where the conversion back to an
integer is not defined.  `latencyFactor_` is 0.5. -/
structure Doubles where
  /-- `(1.0 * kDefaultTCPMSS * 1000000) / (latencyFactor_ * delayInMicroSec)` -/
  targetRate : Nat → Int
  /-- `(1.0 * window * 1000000) / rtt` -/
  currentRate : Nat → Nat → Option Int
  /-- `numerator / (latencyFactor_ * window)`, a `uint64_t` -/
  amount : Nat → Nat → Option Nat
  amount_lt : ∀ numerator window a, amount numerator window = some a → a < 2 ^ 64

namespace CopaSender

/-- Why a function does not return. -/
inductive Fault where
  | runtimeError (what : String)
  /-- `QUICHE_CHECK(0)` -/
  | check
  /-- undefined behaviour -/
  | undefined
deriving DecidableEq, Repr

def overflow : Fault := .runtimeError "Overflow bytes in flight"
def underflow : Fault := .runtimeError "Underflow bytes in flight"

def addAndCheckOverflow (value toAdd : Nat) : Except Fault Nat :=
  if 2 ^ 64 - 1 - toAdd < value then .error overflow else .ok (value + toAdd)

def subtractAndCheckUnderflow (value toSub : Nat) : Except Fault Nat :=
  if value < toSub then .error underflow else .ok (value - toSub)

inductive Direction where
  | none
  | up
  | down
deriving DecidableEq, Repr

/-- A time of 0 is one that is not initialized. -/
structure VelocityState where
  velocity : Nat := 1
  direction : Direction := .none
  numTimesDirectionSame : Nat := 0
  lastRecordedCwndBytes : Option Nat := .none
  lastCwndRecordTime : Nat := 0
deriving DecidableEq, Repr

end CopaSender

structure CopaSender (F : Type) where
  largestSentPacketNumber : Option Nat
  largestAckedPacketNumber : Option Nat
  largestSentAtLastCutback : Option Nat
  congestionWindow : Nat
  initialCongestionWindow : Nat
  maxCongestionWindow : Nat
  minCongestionWindow : Nat
  isSlowStart : Bool
  lastCwndDoubleTime : Nat
  minRTTFilter : F
  standingRTTFilter : F
  velocityState : CopaSender.VelocityState
deriving DecidableEq

namespace CopaSender

section

variable {F : Type} (filter : WindowedFilter F) (doubles : Doubles)

/-- The constructor; both windows are in packets. -/
def new (initialTcpCongestionWindow maxTcpCongestionWindow : Nat) : CopaSender F :=
  { largestSentPacketNumber := none
    largestAckedPacketNumber := none
    largestSentAtLastCutback := none
    congestionWindow := initialTcpCongestionWindow * kDefaultTCPMSS % 2 ^ 64
    initialCongestionWindow := initialTcpCongestionWindow * kDefaultTCPMSS % 2 ^ 64
    maxCongestionWindow := maxTcpCongestionWindow * kDefaultTCPMSS % 2 ^ 64
    minCongestionWindow := kDefaultMinimumCongestionWindow
    isSlowStart := true
    lastCwndDoubleTime := 0
    minRTTFilter := filter.new 10000000
    standingRTTFilter := filter.new 100000
    velocityState := {} }

def inRecovery (s : CopaSender F) : Bool :=
  match s.largestAckedPacketNumber, s.largestSentAtLastCutback with
  | some acked, some cutback => acked ≤ cutback
  | _, _ => false

def setInitialCongestionWindowInPackets (s : CopaSender F) (congestionWindow : Nat) :
    CopaSender F :=
  if s.isSlowStart then
    { s with
      initialCongestionWindow := congestionWindow * kDefaultTCPMSS % 2 ^ 64
      congestionWindow := congestionWindow * kDefaultTCPMSS % 2 ^ 64 }
  else s

/-- That the numbers increase is checked in debug builds only. -/
def onPacketSent (s : CopaSender F) (packetNumber : Nat) : CopaSender F :=
  { s with largestSentPacketNumber := some packetNumber }

/-- A loss marks the end of what recovery covers; the window stays as it is. -/
def onPacketLost (s : CopaSender F) (packetNumber : Nat) : CopaSender F :=
  if s.largestSentAtLastCutback.any (packetNumber ≤ ·) then s
  else { s with largestSentAtLastCutback := s.largestSentPacketNumber }

/-! ## Direction and velocity -/

/-- The part of `CheckAndUpdateDirection` that follows the comparison of the windows. -/
def VelocityState.turn (v : VelocityState) (newDirection : Direction) : VelocityState :=
  if newDirection ≠ v.direction then
    { v with velocity := 1, numTimesDirectionSame := 0, direction := newDirection }
  else
    let n := (v.numTimesDirectionSame + 1) % 2 ^ 64
    { v with
      numTimesDirectionSame := n
      velocity := if 3 ≤ n then 2 * v.velocity % 2 ^ 64 else v.velocity }

/-- Reading `lastRecordedCwndBytes` before it is written is undefined. -/
def checkAndUpdateDirection (s : CopaSender F) (ackTime srtt : Nat) :
    Except Fault (CopaSender F) :=
  let v := s.velocityState
  if v.lastCwndRecordTime = 0 then
    .ok { s with velocityState := { v with
      lastCwndRecordTime := ackTime
      lastRecordedCwndBytes := some s.congestionWindow } }
  else if (srtt : Int) ≤ (ackTime : Int) - v.lastCwndRecordTime then
    match v.lastRecordedCwndBytes with
    | none => .error .undefined
    | some recorded =>
      .ok { s with velocityState :=
        { v.turn (if recorded < s.congestionWindow then .up else .down) with
          lastCwndRecordTime := ackTime
          lastRecordedCwndBytes := some s.congestionWindow } }
  else .ok s

def changeDirection (s : CopaSender F) (newDirection : Direction) (ackTime : Nat) : CopaSender F :=
  if s.velocityState.direction = newDirection then s
  else
    { s with velocityState :=
      { direction := newDirection
        velocity := 1
        numTimesDirectionSame := 0
        lastCwndRecordTime := ackTime
        lastRecordedCwndBytes := some s.congestionWindow } }

/-- A sudden change of direction takes back a velocity that was meant for the other one. -/
def reset (s : CopaSender F) (newDirection : Direction) (eventTime : Nat) : CopaSender F :=
  if s.velocityState.direction ≠ newDirection ∧ 1 < s.velocityState.velocity then
    s.changeDirection newDirection eventTime
  else s

/-! ## The window -/

/-- `addition` and `reduction`; the numerator is a product of `uint64_t`s. -/
def amount (s : CopaSender F) (acked : Nat) : Except Fault Nat :=
  match doubles.amount
      (acked * kDefaultTCPMSS * kDefaultTCPMSS * s.velocityState.velocity % 2 ^ 64)
      s.congestionWindow with
  | some n => .ok n
  | none => .error .undefined

/-- `increaseCwnd` -/
def increaseCwnd (s : CopaSender F) (delay rttStanding : Nat) : Except Fault Bool :=
  if delay = 0 then .ok true
  else
    match doubles.currentRate s.congestionWindow rttStanding with
    | some currentRate => .ok (decide (currentRate ≤ doubles.targetRate delay))
    | none => .error .undefined

/-- An increase in slow start. -/
def slowStart (s : CopaSender F) (eventTime srtt : Nat) : Except Fault (CopaSender F) :=
  if s.lastCwndDoubleTime = 0 then .ok { s with lastCwndDoubleTime := eventTime }
  else if (srtt : Int) < (eventTime : Int) - s.lastCwndDoubleTime then do
    let cwnd ← addAndCheckOverflow s.congestionWindow s.congestionWindow
    .ok { s with congestionWindow := cwnd, lastCwndDoubleTime := eventTime }
  else .ok s

/-- An increase outside of slow start. -/
def increase (s : CopaSender F) (acked eventTime : Nat) : Except Fault (CopaSender F) := do
  let s := s.reset .up eventTime
  let addition ← s.amount doubles acked
  let cwnd ← addAndCheckOverflow s.congestionWindow addition
  .ok { s with congestionWindow := cwnd }

/-- The room down to the minimum is a difference of `uint64_t`s. -/
def decrease (s : CopaSender F) (acked eventTime : Nat) : Except Fault (CopaSender F) := do
  let s := s.reset .down eventTime
  let reduction ← s.amount doubles acked
  let room := (s.congestionWindow + 2 ^ 64 - s.minCongestionWindow) % 2 ^ 64
  let cwnd ← subtractAndCheckUnderflow s.congestionWindow (min reduction room)
  .ok { s with isSlowStart := false, congestionWindow := cwnd }

/-- The part of `OnPacketAcked` that follows the decision. -/
def adjust (s : CopaSender F) (increaseCwnd : Bool) (acked srtt eventTime : Nat) :
    Except Fault (CopaSender F) :=
  if increaseCwnd && s.isSlowStart then s.slowStart eventTime srtt
  else do
    let s ← s.checkAndUpdateDirection eventTime srtt
    if increaseCwnd then s.increase doubles acked eventTime else s.decrease doubles acked eventTime

/-- `largest_acked_packet_number_.UpdateMax` -/
def noteAcked (s : CopaSender F) (ackedPacketNumber : Nat) : CopaSender F :=
  { s with
    largestAckedPacketNumber := some (max ackedPacketNumber (s.largestAckedPacketNumber.getD 0)) }

/-- Both filters get the latest RTT. -/
def sample (s : CopaSender F) (latestRtt srtt eventTime : Nat) : CopaSender F :=
  { s with
    minRTTFilter := filter.update s.minRTTFilter latestRtt eventTime
    standingRTTFilter :=
      filter.update (filter.setWindowLength s.standingRTTFilter (srtt / 2)) latestRtt eventTime }

def onPacketAcked (s : CopaSender F) (latestRtt srtt eventTime : Nat) (acked : List Nat) :
    Except Fault (CopaSender F) := do
  let s := (acked.foldl noteAcked s).sample filter latestRtt srtt eventTime
  let rttMin := filter.getBest s.minRTTFilter
  let rttStanding := filter.getBest s.standingRTTFilter
  if latestRtt < rttMin then .error .check
  else if rttStanding = 0 then .error .check
  else do
    let increaseCwnd ← s.increaseCwnd doubles (latestRtt - rttMin) rttStanding
    s.adjust doubles increaseCwnd acked.length srtt eventTime

def onCongestionEvent (s : CopaSender F) (latestRtt srtt eventTime : Nat)
    (acked lost : List Nat) : Except Fault (CopaSender F) :=
  (lost.foldl onPacketLost s).onPacketAcked filter doubles latestRtt srtt eventTime acked

/-- What the connection calls; the RTTs are what `rtt_stats_` holds at the call. -/
inductive Call where
  | onPacketSent (packetNumber : Nat)
  | onCongestionEvent (latestRtt srtt eventTime : Nat) (acked lost : List Nat)
  | setInitialCongestionWindowInPackets (congestionWindow : Nat)
deriving DecidableEq, Repr

def call (s : CopaSender F) : Call → Except Fault (CopaSender F)
  | .onPacketSent packetNumber => .ok (s.onPacketSent packetNumber)
  | .onCongestionEvent latestRtt srtt eventTime acked lost =>
    s.onCongestionEvent filter doubles latestRtt srtt eventTime acked lost
  | .setInitialCongestionWindowInPackets congestionWindow =>
    .ok (s.setInitialCongestionWindowInPackets congestionWindow)

end

/-! ## What a call does -/

/-- What may happen to the velocity while the window is `window`. -/
inductive Turn (window : Nat) (v : VelocityState) : VelocityState → Prop where
  | first (time : Nat) :
    Turn window v { v with lastCwndRecordTime := time, lastRecordedCwndBytes := some window }
  | record (time recorded : Nat) (h : v.lastRecordedCwndBytes = some recorded) :
    Turn window v
      { v.turn (if recorded < window then .up else .down) with
        lastCwndRecordTime := time
        lastRecordedCwndBytes := some window }
  | reset (time : Nat) (direction : Direction) (h : 1 < v.velocity) :
    Turn window v
      { direction := direction
        velocity := 1
        numTimesDirectionSame := 0
        lastCwndRecordTime := time
        lastRecordedCwndBytes := some window }

/-- The numerator of `addition` and `reduction`. -/
def numerator (acked velocity : Nat) : Nat :=
  acked * kDefaultTCPMSS * kDefaultTCPMSS * velocity % 2 ^ 64

/-- The bytes that a decrease may take away. -/
def room (window minimum : Nat) : Nat := (window + 2 ^ 64 - minimum) % 2 ^ 64

variable {F : Type} {filter : WindowedFilter F} {doubles : Doubles} {s t u : CopaSender F}

/-- What may happen to the window. -/
inductive Adjusted (doubles : Doubles) (s : CopaSender F) : CopaSender F → Prop where
  | wait (time : Nat) (h : s.isSlowStart = true) :
    Adjusted doubles s { s with lastCwndDoubleTime := time }
  | double (time : Nat) (h : s.isSlowStart = true)
      (hfit : s.congestionWindow + s.congestionWindow < 2 ^ 64) :
    Adjusted doubles s
      { s with
        congestionWindow := s.congestionWindow + s.congestionWindow
        lastCwndDoubleTime := time }
  | add (v : VelocityState) (acked a : Nat) (h : s.isSlowStart = false)
      (hv : Relation.ReflTransGen (Turn s.congestionWindow) s.velocityState v)
      (ha : doubles.amount (numerator acked v.velocity) s.congestionWindow = some a)
      (hfit : s.congestionWindow + a < 2 ^ 64) :
    Adjusted doubles s
      { s with velocityState := v, congestionWindow := s.congestionWindow + a }
  | subtract (v : VelocityState) (acked a : Nat)
      (hv : Relation.ReflTransGen (Turn s.congestionWindow) s.velocityState v)
      (ha : doubles.amount (numerator acked v.velocity) s.congestionWindow = some a)
      (hfit : min a (room s.congestionWindow s.minCongestionWindow) ≤ s.congestionWindow) :
    Adjusted doubles s
      { s with
        velocityState := v
        isSlowStart := false
        congestionWindow :=
          s.congestionWindow - min a (room s.congestionWindow s.minCongestionWindow) }

theorem addAndCheckOverflow_ends (value toAdd : Nat) (h : 2 ^ 64 ≤ toAdd → 0 < value) :
    Ends (fun sum => sum = value + toAdd ∧ value + toAdd < 2 ^ 64) (· = overflow)
      (addAndCheckOverflow value toAdd) := by
  unfold addAndCheckOverflow
  split
  · rfl
  · exact ⟨rfl, by omega⟩

theorem subtractAndCheckUnderflow_ends (value toSub : Nat) :
    Ends (fun d => d = value - toSub ∧ toSub ≤ value) (fun e => e = underflow ∧ value < toSub)
      (subtractAndCheckUnderflow value toSub) := by
  unfold subtractAndCheckUnderflow
  split
  · exact ⟨rfl, ‹_›⟩
  · exact ⟨rfl, by omega⟩

theorem amount_ends (s : CopaSender F) (acked : Nat) :
    Ends (fun a => doubles.amount (numerator acked s.velocityState.velocity)
        s.congestionWindow = some a)
      (fun e => e = .undefined ∧ doubles.amount (numerator acked s.velocityState.velocity)
        s.congestionWindow = none) (s.amount doubles acked) := by
  unfold amount
  split
  · rename_i a h
    exact h
  · rename_i h
    exact ⟨rfl, h⟩

/-- Why the window may not be adjusted. -/
inductive Fails (doubles : Doubles) (s : CopaSender F) : Fault → Prop where
  | overflow : Fails doubles s overflow
  | underflow (a : Nat)
      (h : s.congestionWindow < min a (room s.congestionWindow s.minCongestionWindow)) :
    Fails doubles s underflow
  | unwritten (h : s.velocityState.lastCwndRecordTime ≠ 0)
      (hrecorded : s.velocityState.lastRecordedCwndBytes = none) : Fails doubles s .undefined
  | amount (acked velocity : Nat)
      (h : doubles.amount (numerator acked velocity) s.congestionWindow = none) :
    Fails doubles s .undefined

theorem checkAndUpdateDirection_ends (s : CopaSender F) (ackTime srtt : Nat) :
    Ends (fun t => ∃ v, Relation.ReflTransGen (Turn s.congestionWindow) s.velocityState v ∧
        t = { s with velocityState := v })
      (Fails doubles s) (s.checkAndUpdateDirection ackTime srtt) := by
  unfold checkAndUpdateDirection
  dsimp only
  split
  · exact ⟨_, .single (.first ackTime), rfl⟩
  · rename_i htime
    split
    · cases hrecorded : s.velocityState.lastRecordedCwndBytes with
      | none => exact .unwritten htime hrecorded
      | some recorded => exact ⟨_, .single (.record ackTime recorded hrecorded), rfl⟩
    · exact ⟨_, .refl, rfl⟩

theorem reset_eq (s : CopaSender F) (newDirection : Direction) (eventTime : Nat) :
    ∃ v, Relation.ReflTransGen (Turn s.congestionWindow) s.velocityState v ∧
      s.reset newDirection eventTime = { s with velocityState := v } := by
  unfold reset
  split
  · rename_i h
    refine ⟨_, .single (.reset eventTime newDirection h.2), ?_⟩
    unfold changeDirection
    rw [if_neg h.1]
  · exact ⟨_, .refl, rfl⟩

theorem slowStart_ends (s : CopaSender F) (hslow : s.isSlowStart = true) (eventTime srtt : Nat) :
    Ends (Adjusted doubles s) (Fails doubles s) (s.slowStart eventTime srtt) := by
  unfold slowStart
  split
  · exact .wait eventTime hslow
  · split
    · have hsum := addAndCheckOverflow_ends s.congestionWindow s.congestionWindow (by omega)
      refine (hsum.mono (fun _ h => h) fun e he => ?_).bind ?_
      · rw [he]
        exact .overflow
      · rintro cwnd ⟨rfl, hfit⟩
        exact .double eventTime hslow hfit
    · exact .wait s.lastCwndDoubleTime hslow

section

variable {v : VelocityState} {acked eventTime : Nat}

/-- The amount, at a velocity that the event has led to. -/
theorem amount_fails (s : CopaSender F) (w : VelocityState) :
    Ends (fun a => doubles.amount (numerator acked w.velocity) s.congestionWindow = some a)
      (Fails doubles s) ({ s with velocityState := w }.amount doubles acked) := by
  refine (amount_ends _ acked).mono (fun _ h => h) ?_
  rintro e ⟨rfl, h⟩
  exact .amount acked w.velocity h

theorem increase_ends (s : CopaSender F) (hslow : s.isSlowStart = false)
    (hv : Relation.ReflTransGen (Turn s.congestionWindow) s.velocityState v) :
    Ends (Adjusted doubles s) (Fails doubles s)
      ({ s with velocityState := v }.increase doubles acked eventTime) := by
  obtain ⟨w, hw, hreset⟩ := reset_eq { s with velocityState := v } .up eventTime
  unfold increase
  dsimp only
  rw [hreset]
  refine (amount_fails s w).bind fun a ha => ?_
  have hsum := addAndCheckOverflow_ends s.congestionWindow a
    fun h => absurd (doubles.amount_lt _ _ _ ha) (Nat.not_lt.2 h)
  refine (hsum.mono (fun _ h => h) fun e he => ?_).bind ?_
  · rw [he]
    exact .overflow
  · rintro cwnd ⟨rfl, hfit⟩
    exact .add w acked a hslow (hv.trans hw) ha hfit

theorem decrease_ends (s : CopaSender F)
    (hv : Relation.ReflTransGen (Turn s.congestionWindow) s.velocityState v) :
    Ends (Adjusted doubles s) (Fails doubles s)
      ({ s with velocityState := v }.decrease doubles acked eventTime) := by
  obtain ⟨w, hw, hreset⟩ := reset_eq { s with velocityState := v } .down eventTime
  unfold decrease
  dsimp only
  rw [hreset]
  refine (amount_fails s w).bind fun a ha => ?_
  have hdifference := subtractAndCheckUnderflow_ends s.congestionWindow
    (min a (room s.congestionWindow s.minCongestionWindow))
  refine (hdifference.mono (fun _ h => h) ?_).bind ?_
  · rintro e ⟨rfl, h⟩
    exact .underflow a h
  · rintro cwnd ⟨rfl, hfit⟩
    exact .subtract w acked a (hv.trans hw) ha hfit

/-- **One adjustment.** -/
theorem adjust_ends (s : CopaSender F) (increaseCwnd : Bool) (srtt : Nat) :
    Ends (Adjusted doubles s) (Fails doubles s)
      (s.adjust doubles increaseCwnd acked srtt eventTime) := by
  unfold adjust
  split
  · rename_i h
    rw [Bool.and_eq_true] at h
    exact slowStart_ends s h.2 eventTime srtt
  · rename_i h
    refine (checkAndUpdateDirection_ends s eventTime srtt).bind ?_
    rintro t ⟨v, hv, rfl⟩
    cases increaseCwnd with
    | true => exact increase_ends s (Bool.eq_false_iff.2 h) hv
    | false => exact decrease_ends s hv

end

/-- A loss is noted; nothing else happens. -/
theorem foldl_onPacketLost_eq (lost : List Nat) : ∀ s : CopaSender F, ∃ cutback,
    lost.foldl onPacketLost s = { s with largestSentAtLastCutback := cutback } := by
  induction lost with
  | nil => exact fun s => ⟨_, rfl⟩
  | cons packetNumber lost ih =>
    intro s
    obtain ⟨cutback, h⟩ := ih (s.onPacketLost packetNumber)
    rw [List.foldl_cons, h]
    unfold onPacketLost
    split <;> exact ⟨cutback, rfl⟩

theorem foldl_noteAcked_eq (acked : List Nat) : ∀ s : CopaSender F, ∃ largest,
    acked.foldl noteAcked s = { s with largestAckedPacketNumber := largest } := by
  induction acked with
  | nil => exact fun s => ⟨_, rfl⟩
  | cons ackedPacketNumber acked ih =>
    intro s
    obtain ⟨largest, h⟩ := ih (s.noteAcked ackedPacketNumber)
    rw [List.foldl_cons, h]
    exact ⟨largest, rfl⟩

variable (filter) in
/-- The sender when the decision is made. -/
def sampled (s : CopaSender F) (latestRtt srtt eventTime : Nat) (acked lost : List Nat) :
    CopaSender F :=
  (acked.foldl noteAcked (lost.foldl onPacketLost s)).sample filter latestRtt srtt eventTime

section

variable {latestRtt srtt eventTime : Nat} {acked lost : List Nat}

theorem sampled_eq (s : CopaSender F) : ∃ cutback largest,
    s.sampled filter latestRtt srtt eventTime acked lost =
      { s with
        largestSentAtLastCutback := cutback
        largestAckedPacketNumber := largest
        minRTTFilter := filter.update s.minRTTFilter latestRtt eventTime
        standingRTTFilter :=
          filter.update (filter.setWindowLength s.standingRTTFilter (srtt / 2)) latestRtt
            eventTime } := by
  obtain ⟨cutback, hlost⟩ := foldl_onPacketLost_eq lost s
  obtain ⟨largest, hacked⟩ := foldl_noteAcked_eq acked (lost.foldl onPacketLost s)
  unfold sampled
  rw [hacked, hlost]
  exact ⟨cutback, largest, rfl⟩

/-- What the window and its velocity depend on. -/
structure SameWindow (s t : CopaSender F) : Prop where
  window : t.congestionWindow = s.congestionWindow
  initial : t.initialCongestionWindow = s.initialCongestionWindow
  minimum : t.minCongestionWindow = s.minCongestionWindow
  slowStart : t.isSlowStart = s.isSlowStart
  velocity : t.velocityState = s.velocityState

theorem sampled_sameWindow (s : CopaSender F) :
    SameWindow s (s.sampled filter latestRtt srtt eventTime acked lost) := by
  obtain ⟨cutback, largest, h⟩ := s.sampled_eq
  rw [h]
  exact ⟨rfl, rfl, rfl, rfl, rfl⟩

/-- What a congestion event throws. -/
def EventFails (filter : WindowedFilter F) (doubles : Doubles) (u : CopaSender F)
    (latestRtt : Nat) (e : Fault) : Prop :=
  (e = .check ∧ (latestRtt < filter.getBest u.minRTTFilter ∨
    filter.getBest u.standingRTTFilter = 0)) ∨
  (¬(latestRtt < filter.getBest u.minRTTFilter ∨ filter.getBest u.standingRTTFilter = 0) ∧
    (Fails doubles u e ∨ (e = .undefined ∧
      doubles.currentRate u.congestionWindow (filter.getBest u.standingRTTFilter) = none)))

/-- **A congestion event**: the samples are taken and the window is adjusted. -/
theorem onCongestionEvent_ends (s : CopaSender F) :
    let u := s.sampled filter latestRtt srtt eventTime acked lost
    Ends (fun t => Adjusted doubles u t ∧
        ¬(latestRtt < filter.getBest u.minRTTFilter ∨ filter.getBest u.standingRTTFilter = 0))
      (EventFails filter doubles u latestRtt)
      (s.onCongestionEvent filter doubles latestRtt srtt eventTime acked lost) := by
  intro u
  change Ends _ _
    (if latestRtt < filter.getBest u.minRTTFilter then Except.error Fault.check
      else if filter.getBest u.standingRTTFilter = 0 then Except.error Fault.check
      else
        (u.increaseCwnd doubles (latestRtt - filter.getBest u.minRTTFilter)
          (filter.getBest u.standingRTTFilter)).bind fun increaseCwnd =>
            u.adjust doubles increaseCwnd acked.length srtt eventTime)
  split
  · exact .inl ⟨rfl, .inl ‹_›⟩
  · split
    · exact .inl ⟨rfl, .inr ‹_›⟩
    · have hchecks : ¬(latestRtt < filter.getBest u.minRTTFilter ∨
          filter.getBest u.standingRTTFilter = 0) := by tauto
      have hdecided : Ends (fun _ => True) (EventFails filter doubles u latestRtt)
          (u.increaseCwnd doubles (latestRtt - filter.getBest u.minRTTFilter)
            (filter.getBest u.standingRTTFilter)) := by
        unfold increaseCwnd
        split
        · trivial
        · cases hrate : doubles.currentRate u.congestionWindow
              (filter.getBest u.standingRTTFilter) with
          | some currentRate => trivial
          | none => exact .inr ⟨hchecks, .inr ⟨rfl, hrate⟩⟩
      refine hdecided.bind fun increaseCwnd _ => ?_
      exact (adjust_ends u increaseCwnd srtt).mono (fun t ht => ⟨ht, hchecks⟩)
        fun e he => .inr ⟨hchecks, .inl he⟩

end

/-- What a call does to the window, when it returns. -/
inductive Called (filter : WindowedFilter F) (doubles : Doubles) (s : CopaSender F) :
    Call → CopaSender F → Prop where
  | sent (packetNumber : Nat) :
    Called filter doubles s (.onPacketSent packetNumber) (s.onPacketSent packetNumber)
  | event (latestRtt srtt eventTime : Nat) (acked lost : List Nat) (t : CopaSender F)
      (h : Adjusted doubles (s.sampled filter latestRtt srtt eventTime acked lost) t) :
    Called filter doubles s (.onCongestionEvent latestRtt srtt eventTime acked lost) t
  | initial (congestionWindow : Nat) (h : s.isSlowStart = true) :
    Called filter doubles s (.setInitialCongestionWindowInPackets congestionWindow)
      { s with
        initialCongestionWindow := congestionWindow * kDefaultTCPMSS % 2 ^ 64
        congestionWindow := congestionWindow * kDefaultTCPMSS % 2 ^ 64 }
  | late (congestionWindow : Nat) (h : s.isSlowStart = false) :
    Called filter doubles s (.setInitialCongestionWindowInPackets congestionWindow) s

theorem called_of_call {c : Call} (h : s.call filter doubles c = .ok t) :
    Called filter doubles s c t := by
  cases c with
  | onPacketSent packetNumber =>
    cases h
    exact .sent packetNumber
  | onCongestionEvent latestRtt srtt eventTime acked lost =>
    exact .event latestRtt srtt eventTime acked lost t ((onCongestionEvent_ends s).of_ok h).1
  | setInitialCongestionWindowInPackets congestionWindow =>
    cases h
    unfold setInitialCongestionWindowInPackets
    split
    · exact .initial congestionWindow ‹_›
    · exact .late congestionWindow (Bool.eq_false_iff.2 ‹_›)

end CopaSender

end InNetworkAgg
