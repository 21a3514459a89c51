import InNetworkAgg.Lib.PartialRun
import InNetworkAgg.Lib.Window

/-!
# The Vegas congestion window (quic/model/cc-algo/vegas_sender.cc)

The window grows by a segment in slow start, in Reno mode after a loss and in
Vegas mode, shrinks by one in Vegas mode and is halved by a loss.  Every change
looks at `min_congestion_window_`; nothing looks at `max_congestion_window_`.
Slow start ends at the maximum anyway; congestion avoidance goes past it:

    growth outside of slow start only where a segment fits below the maximum  →
      min_congestion_window_ ≤ congestion_window_ ≤ max_congestion_window_    (window_bounds)

Each change is a `Window.Move` (`onPacketLost_move`, `onPacketAcked_spec`).

Byte counts are `uint64_t`, times are in microseconds.  `RTTFilter` is the
`WindowedFilter` of the QUIC library, which is not part of the repository.
-/

namespace InNetworkAgg

open PartialRun

/-- `kDefaultTCPMSS` of the QUIC library. -/
def kDefaultTCPMSS : Nat := 1460

def kDefaultMinimumCongestionWindow : Nat := 4 * kDefaultTCPMSS
def kAlphaCongestionWindow : Nat := 2 * kDefaultTCPMSS
def kBetaCongestionWindow : Nat := 4 * kDefaultTCPMSS
def kGammaCongestionWindow : Nat := 1 * kDefaultTCPMSS

/-- `QuicTime::Delta::Infinite()` -/
def infiniteDelta : Nat := 2 ^ 63 - 1

/-- A windowed filter: `Update(sample, time)` and `GetBest()`. -/
structure RTTFilter (F : Type) where
  empty : F
  update : F → Nat → Nat → F
  getBest : F → Nat

structure VegasSender (F : Type) where
  largestSentPacketNumber : Option Nat
  largestAckedPacketNumber : Option Nat
  /-- the largest packet number outstanding when the window was cut -/
  largestSentAtLastCutback : Option Nat
  congestionWindow : Nat
  maxCongestionWindow : Nat
  minCongestionWindow : Nat
  slowstartThreshold : Nat
  baseRTTFilter : F
  minRtt : Nat
  rttCount : Int
  begSendNext : Option Nat
  numAckedPackets : Nat
  vegasMode : Bool
deriving DecidableEq

namespace VegasSender

variable {F : Type} (filter : RTTFilter F)

/-- The constructor; both windows are in packets. -/
def new (initialTcpCongestionWindow maxTcpCongestionWindow : Nat) : VegasSender F :=
  { largestSentPacketNumber := none
    largestAckedPacketNumber := none
    largestSentAtLastCutback := none
    congestionWindow := initialTcpCongestionWindow * kDefaultTCPMSS % 2 ^ 64
    maxCongestionWindow := maxTcpCongestionWindow * kDefaultTCPMSS % 2 ^ 64
    minCongestionWindow := kDefaultMinimumCongestionWindow
    slowstartThreshold := maxTcpCongestionWindow * kDefaultTCPMSS % 2 ^ 64
    baseRTTFilter := filter.empty
    minRtt := infiniteDelta
    rttCount := 0
    begSendNext := none
    numAckedPackets := 0
    vegasMode := true }

def inSlowStart (s : VegasSender F) : Bool := s.congestionWindow < s.slowstartThreshold

def inRecovery (s : VegasSender F) : Bool :=
  match s.largestAckedPacketNumber, s.largestSentAtLastCutback with
  | some acked, some cutback => acked ≤ cutback
  | _, _ => false

/-- `congestion_window_ += kDefaultTCPMSS` -/
def grow (s : VegasSender F) : VegasSender F :=
  { s with congestionWindow := (s.congestionWindow + kDefaultTCPMSS) % 2 ^ 64 }

/-- Enough packets are acknowledged for one more segment. -/
def renoGrows (s : VegasSender F) : Bool :=
  s.congestionWindow ≤ (s.numAckedPackets + 1) % 2 ^ 64 * kDefaultTCPMSS % 2 ^ 64

def increaseCongestionWindowAsReno (s : VegasSender F) : VegasSender F :=
  if s.inSlowStart then s.grow
  else if s.renoGrows then { s.grow with numAckedPackets := 0 }
  else { s with numAckedPackets := (s.numAckedPackets + 1) % 2 ^ 64 }

def onPacketLost (s : VegasSender F) (packetNumber : Nat) : VegasSender F :=
  if s.largestSentAtLastCutback.any (packetNumber ≤ ·) then s
  else
    let cwnd := max (s.congestionWindow / 2) s.minCongestionWindow
    { s with
      congestionWindow := cwnd
      slowstartThreshold := cwnd
      largestSentAtLastCutback := s.largestSentPacketNumber
      numAckedPackets := 0 }

/-- The window that matches the actual rate, in whole segments. -/
def targetCwnd (s : VegasSender F) : Nat :=
  let target := s.congestionWindow * filter.getBest s.baseRTTFilter % 2 ^ 64 / s.minRtt
  (target + kDefaultTCPMSS - 1) % 2 ^ 64 / kDefaultTCPMSS * kDefaultTCPMSS % 2 ^ 64

/-- The bytes that wait in queues. -/
def vegasDiff (s : VegasSender F) : Nat :=
  s.congestionWindow * (s.minRtt - filter.getBest s.baseRTTFilter) % 2 ^ 64 /
    filter.getBest s.baseRTTFilter

/-- The part of `OnPacketAcked` for a round with enough samples.  There is no result
where a check fails or an integer is divided by zero. -/
def adjust (s : VegasSender F) : Option (VegasSender F) :=
  let baseRtt := filter.getBest s.baseRTTFilter
  if s.minRtt = 0 ∨ s.minRtt < baseRtt ∨ baseRtt = 0 then none
  else
    let diff := s.vegasDiff filter
    if kGammaCongestionWindow < diff ∧ s.inSlowStart then
      let cwnd := min s.congestionWindow (s.targetCwnd filter)
      some { s with congestionWindow := cwnd, slowstartThreshold := cwnd }
    else if s.inSlowStart then some s.grow
    else if kBetaCongestionWindow < diff then
      some (if s.minCongestionWindow < s.congestionWindow then
        { s with congestionWindow := (s.congestionWindow + 2 ^ 64 - kDefaultTCPMSS) % 2 ^ 64 }
      else s)
    else if diff < kAlphaCongestionWindow then some s.grow
    else some s

/-- `max(congestion_window_, min_congestion_window_)` -/
def clip (s : VegasSender F) : VegasSender F :=
  { s with congestionWindow := max s.congestionWindow s.minCongestionWindow }

/-- The branch of `OnPacketAcked` for a packet sent after the round began. -/
def endRound (s : VegasSender F) : Option (VegasSender F) := do
  let s := { s with begSendNext := s.largestSentPacketNumber }
  let s ← if s.rttCount ≤ 2 then some s.increaseCongestionWindowAsReno else s.adjust filter
  some { s with minRtt := infiniteDelta, rttCount := 0 }

/-- `largest_acked_packet_number_.UpdateMax` -/
def noteAcked (s : VegasSender F) (ackedPacketNumber : Nat) : VegasSender F :=
  { s with
    largestAckedPacketNumber := some (max ackedPacketNumber (s.largestAckedPacketNumber.getD 0)) }

def onPacketAcked (s : VegasSender F) (ackedPacketNumber : Nat) : Option (VegasSender F) :=
  let s := s.noteAcked ackedPacketNumber
  if s.vegasMode then do
    let beg ← s.begSendNext
    let s ← if beg ≤ ackedPacketNumber then s.endRound filter
      else some (if s.inSlowStart then s.grow else s)
    some s.clip
  else some s.increaseCongestionWindowAsReno

/-- The new sample of `OnCongestionEvent`; `rtt_count_` is an `int32_t`. -/
def sample (s : VegasSender F) (latestRtt eventTime : Nat) : VegasSender F :=
  let vrtt := latestRtt + 1
  { s with
    baseRTTFilter := filter.update s.baseRTTFilter vrtt eventTime
    minRtt := if vrtt < s.minRtt then vrtt else s.minRtt
    rttCount := (s.rttCount + 1).bmod (2 ^ 32) }

/-- The end of `OnCongestionEvent`: recovery has begun or ended. -/
def switchMode (s : VegasSender F) (before : Bool) : VegasSender F :=
  if s.inRecovery != before then
    if s.inRecovery then { s with vegasMode := false }
    else { s with
      vegasMode := true
      begSendNext := s.largestSentPacketNumber
      minRtt := infiniteDelta
      rttCount := 0 }
  else s

/-- The object when the loop over the acknowledged packets starts. -/
def beforeAcks (s : VegasSender F) (latestRtt eventTime : Nat) (acked lost : List Nat) :
    VegasSender F :=
  lost.foldl onPacketLost (if acked = [] then s else s.sample filter latestRtt eventTime)

def onCongestionEvent (s : VegasSender F) (latestRtt eventTime : Nat) (acked lost : List Nat) :
    Option (VegasSender F) := do
  let before := (if acked = [] then s else s.sample filter latestRtt eventTime).inRecovery
  let s ← runs (onPacketAcked filter) (s.beforeAcks filter latestRtt eventTime acked lost) acked
  some (s.switchMode before)

/-- That the numbers increase is checked in debug builds only. -/
def onPacketSent (s : VegasSender F) (packetNumber : Nat) : VegasSender F :=
  { s with
    largestSentPacketNumber := some packetNumber
    begSendNext := s.begSendNext.or (some packetNumber) }

/-- What the connection calls. -/
inductive Call where
  | onPacketSent (packetNumber : Nat)
  | onCongestionEvent (latestRtt eventTime : Nat) (acked lost : List Nat)
deriving DecidableEq, Repr

def call (s : VegasSender F) : Call → Option (VegasSender F)
  | .onPacketSent packetNumber => some (s.onPacketSent packetNumber)
  | .onCongestionEvent latestRtt eventTime acked lost =>
    s.onCongestionEvent filter latestRtt eventTime acked lost

/-! ## What a function does to the window -/

def win (s : VegasSender F) : Window.Win :=
  { size := s.congestionWindow, threshold := s.slowstartThreshold }

/-- The window makes a move; its bounds stay where they are. -/
structure Moves (s t : VegasSender F) : Prop where
  move : Window.Move kDefaultTCPMSS s.minCongestionWindow s.maxCongestionWindow s.win t.win
  min_eq : t.minCongestionWindow = s.minCongestionWindow
  max_eq : t.maxCongestionWindow = s.maxCongestionWindow

/-- The window of a sender whose maximum is `m` packets. -/
structure WindowOk (m : Nat) (s : VegasSender F) : Prop where
  min_eq : s.minCongestionWindow = kDefaultMinimumCongestionWindow
  max_eq : s.maxCongestionWindow = m * kDefaultTCPMSS
  max_lt : m * kDefaultTCPMSS < 2 ^ 64
  bounded : Window.Bounded kDefaultTCPMSS s.minCongestionWindow s.maxCongestionWindow s.win

variable {filter} {m : Nat} {s t : VegasSender F}

theorem WindowOk.moves (h : WindowOk m s) (hm : Moves s t) : WindowOk m t where
  min_eq := hm.min_eq.trans h.min_eq
  max_eq := hm.max_eq.trans h.max_eq
  max_lt := h.max_lt
  bounded := by
    rw [hm.min_eq, hm.max_eq]
    refine h.bounded.move ?_ ?_ hm.move
    · rw [h.min_eq]
      exact Nat.dvd_mul_left _ _
    · rw [h.max_eq]
      exact Nat.dvd_mul_left _ _

theorem inSlowStart_iff (s : VegasSender F) :
    s.inSlowStart = true ↔ s.congestionWindow < s.slowstartThreshold := by
  simp [inSlowStart]

theorem grow_min (s : VegasSender F) : s.grow.minCongestionWindow = s.minCongestionWindow := by
  simp only [grow]

theorem grow_max (s : VegasSender F) : s.grow.maxCongestionWindow = s.maxCongestionWindow := by
  simp only [grow]

/-- Below the maximum the sum does not wrap. -/
theorem WindowOk.grow_win (h : WindowOk m s)
    (hroom : s.congestionWindow + kDefaultTCPMSS ≤ s.maxCongestionWindow) :
    s.grow.win = { s.win with size := s.win.size + kDefaultTCPMSS } := by
  have hlt : s.congestionWindow + kDefaultTCPMSS < 2 ^ 64 := by
    have hmax := h.max_lt
    rw [← h.max_eq] at hmax
    omega
  unfold grow win
  dsimp only
  rw [Nat.mod_eq_of_lt hlt]

/-- In slow start there is always room. -/
theorem WindowOk.grow_slowStart (h : WindowOk m s) (hslow : s.inSlowStart = true) :
    Moves s s.grow := by
  rw [inSlowStart_iff] at hslow
  have hroom := h.bounded.room (by rw [h.max_eq]; exact Nat.dvd_mul_left _ _) hslow
  refine ⟨?_, grow_min s, grow_max s⟩
  rw [h.grow_win hroom]
  exact .slowStart s.win hslow

theorem WindowOk.grow_avoidance (h : WindowOk m s)
    (hroom : s.congestionWindow + kDefaultTCPMSS ≤ s.maxCongestionWindow) : Moves s s.grow := by
  refine ⟨?_, grow_min s, grow_max s⟩
  rw [h.grow_win hroom]
  exact .avoidance s.win hroom

theorem Moves.hold (hwin : t.win = s.win) (hmin : t.minCongestionWindow = s.minCongestionWindow)
    (hmax : t.maxCongestionWindow = s.maxCongestionWindow) : Moves s t := by
  refine ⟨?_, hmin, hmax⟩
  rw [hwin]
  exact .hold s.win

/-- Other fields do not matter. -/
theorem Moves.of_win {u : VegasSender F} (hm : Moves s t) (hwin : u.win = t.win)
    (hmin : u.minCongestionWindow = t.minCongestionWindow)
    (hmax : u.maxCongestionWindow = t.maxCongestionWindow) : Moves s u where
  move := hwin ▸ hm.move
  min_eq := hmin.trans hm.min_eq
  max_eq := hmax.trans hm.max_eq

theorem onPacketLost_moves (s : VegasSender F) (packetNumber : Nat) :
    Moves s (s.onPacketLost packetNumber) := by
  unfold onPacketLost
  split
  · exact .hold rfl rfl rfl
  · exact ⟨.cut s.win (s.congestionWindow / 2) (Nat.div_le_self _ _), rfl, rfl⟩

theorem WindowOk.reno_moves (h : WindowOk m s)
    (hroom : s.inSlowStart = false → s.renoGrows = true →
      s.congestionWindow + kDefaultTCPMSS ≤ s.maxCongestionWindow) :
    Moves s s.increaseCongestionWindowAsReno := by
  unfold increaseCongestionWindowAsReno
  split
  · rename_i hslow
    exact h.grow_slowStart hslow
  · rename_i hslow
    split
    · rename_i hgrows
      have hm := h.grow_avoidance (hroom (Bool.eq_false_iff.2 hslow) hgrows)
      exact hm.of_win (by simp only [win]) (by simp only) (by simp only)
    · exact .hold rfl rfl rfl

/-- A window that is at or above the minimum is not clipped. -/
theorem WindowOk.clip_win (h : WindowOk m s) : s.clip.win = s.win := by
  have hle : s.minCongestionWindow ≤ s.congestionWindow := h.bounded.floor_le
  unfold clip win
  dsimp only
  rw [Nat.max_eq_left hle]

theorem WindowOk.clip_moves (h : WindowOk m s) (hm : Moves s t) : Moves s t.clip := by
  refine ⟨?_, hm.min_eq, hm.max_eq⟩
  rw [(h.moves hm).clip_win]
  exact hm.move

/-! ## One acknowledged packet -/

variable (filter)

/-- The acknowledgement adds a segment outside of slow start. -/
def avoidanceGrows (s : VegasSender F) (packetNumber : Nat) : Bool :=
  !s.inSlowStart &&
    if s.vegasMode then
      s.begSendNext.any (· ≤ packetNumber) &&
        if s.rttCount ≤ 2 then s.renoGrows
        else decide (s.vegasDiff filter < kAlphaCongestionWindow)
    else s.renoGrows

/-- Where the acknowledgement adds a segment outside of slow start, the segment fits below
the maximum. -/
def Room (s : VegasSender F) (packetNumber : Nat) : Prop :=
  s.avoidanceGrows filter packetNumber = true →
    s.congestionWindow + kDefaultTCPMSS ≤ s.maxCongestionWindow

instance (s : VegasSender F) (packetNumber : Nat) : Decidable (s.Room filter packetNumber) := by
  unfold Room
  infer_instance

/-- What holds when packets are acknowledged: some packet was sent, and in a round that
will be looked at there is a base RTT, not above the samples of the round. -/
structure Ready (m : Nat) (s : VegasSender F) : Prop where
  window : WindowOk m s
  sent : s.largestSentPacketNumber.isSome = true
  beg : s.begSendNext.isSome = true
  rtt : s.rttCount ≤ 2 ∨
    0 < filter.getBest s.baseRTTFilter ∧ filter.getBest s.baseRTTFilter ≤ s.minRtt

variable {filter}

/-- The Vegas part: the window moves, up to the clipping that follows. -/
theorem WindowOk.adjust_moves (h : WindowOk m s) (hpos : 0 < filter.getBest s.baseRTTFilter)
    (hle : filter.getBest s.baseRTTFilter ≤ s.minRtt)
    (hroom : s.inSlowStart = false → s.vegasDiff filter < kAlphaCongestionWindow →
      s.congestionWindow + kDefaultTCPMSS ≤ s.maxCongestionWindow) :
    ∃ t, s.adjust filter = some t ∧ Moves s t.clip ∧
      t.largestSentPacketNumber = s.largestSentPacketNumber ∧ t.begSendNext = s.begSendNext := by
  have hfloor : s.minCongestionWindow ≤ s.congestionWindow := h.bounded.floor_le
  have hmin := h.min_eq
  unfold adjust
  dsimp only
  rw [if_neg (by omega)]
  split
  · -- too fast in slow start: down to the actual rate
    refine ⟨_, rfl, ⟨?_, rfl, rfl⟩, rfl, rfl⟩
    exact .leave s.win (min s.congestionWindow (s.targetCwnd filter)) (Nat.min_le_left _ _)
  · split
    · rename_i hslow
      exact ⟨_, rfl, h.clip_moves (h.grow_slowStart hslow), by simp only [grow],
        by simp only [grow]⟩
    · rename_i hslow
      split
      · split
        · rename_i hlarge
          -- above four segments the subtraction does not wrap
          have hmax := h.max_lt
          have hceiling : s.congestionWindow ≤ s.maxCongestionWindow := h.bounded.le_ceiling
          rw [h.max_eq] at hceiling
          have hsub : (s.congestionWindow + 2 ^ 64 - kDefaultTCPMSS) % 2 ^ 64 =
              s.congestionWindow - kDefaultTCPMSS := by
            unfold kDefaultMinimumCongestionWindow kDefaultTCPMSS at *
            omega
          rw [hsub]
          exact ⟨_, rfl, ⟨.shrink s.win, by simp only [clip], by simp only [clip]⟩, rfl, rfl⟩
        · exact ⟨_, rfl, h.clip_moves (.hold rfl rfl rfl), rfl, rfl⟩
      · split
        · rename_i hdiff
          exact ⟨_, rfl, h.clip_moves (h.grow_avoidance (hroom (Bool.eq_false_iff.2 hslow) hdiff)),
            by simp only [grow], by simp only [grow]⟩
        · exact ⟨_, rfl, h.clip_moves (.hold rfl rfl rfl), rfl, rfl⟩

/-- What a round begins with is not changed, or it is reset. -/
structure Keeps (s t : VegasSender F) : Prop where
  sent : t.largestSentPacketNumber = s.largestSentPacketNumber
  beg : t.begSendNext = s.begSendNext ∨ t.begSendNext = s.largestSentPacketNumber
  round : t.rttCount = 0 ∨ t.rttCount = s.rttCount ∧ t.minRtt = s.minRtt ∧
    t.baseRTTFilter = s.baseRTTFilter

theorem Ready.keeps (h : Ready filter m s) (hm : Moves s t) (hk : Keeps s t) :
    Ready filter m t where
  window := h.window.moves hm
  sent := by
    rw [hk.sent]
    exact h.sent
  beg := by
    rcases hk.beg with hbeg | hbeg <;> rw [hbeg]
    · exact h.beg
    · exact h.sent
  rtt := by
    rcases hk.round with hround | ⟨hcount, hmin, hfilter⟩
    · exact .inl (by omega)
    · rw [hcount, hmin, hfilter]
      exact h.rtt

theorem Ready.noteAcked (h : Ready filter m s) (packetNumber : Nat) :
    Ready filter m (s.noteAcked packetNumber) where
  window := h.window.moves (.hold rfl rfl rfl)
  sent := h.sent
  beg := h.beg
  rtt := h.rtt

theorem reno_keeps (s : VegasSender F) : Keeps s s.increaseCongestionWindowAsReno := by
  unfold increaseCongestionWindowAsReno grow
  split
  · exact ⟨rfl, .inl rfl, .inr ⟨rfl, rfl, rfl⟩⟩
  · split <;> exact ⟨rfl, .inl rfl, .inr ⟨rfl, rfl, rfl⟩⟩

/-- The end of a round: one move, with the clipping that follows. -/
theorem Ready.endRound_spec (h : Ready filter m s)
    (hroom : s.inSlowStart = false →
      (if s.rttCount ≤ 2 then s.renoGrows else s.vegasDiff filter < kAlphaCongestionWindow) →
        s.congestionWindow + kDefaultTCPMSS ≤ s.maxCongestionWindow) :
    ∃ t, s.endRound filter = some t ∧ Moves s t.clip ∧ Keeps s t.clip := by
  let u : VegasSender F := { s with begSendNext := s.largestSentPacketNumber }
  have hu : WindowOk m u := h.window.moves (.hold rfl rfl rfl)
  by_cases hcount : s.rttCount ≤ 2
  · rw [if_pos hcount] at hroom
    have hm := hu.clip_moves (hu.reno_moves hroom)
    have hk := reno_keeps u
    refine ⟨{ u.increaseCongestionWindowAsReno with minRtt := infiniteDelta, rttCount := 0 }, ?_,
      ⟨hm.move, hm.min_eq, hm.max_eq⟩, hk.sent, ?_, .inl rfl⟩
    · unfold endRound
      dsimp only
      rw [if_pos hcount]
      rfl
    · exact .inr (hk.beg.elim id id)
  · rw [if_neg hcount] at hroom
    obtain ⟨hpos, hle⟩ := h.rtt.resolve_left hcount
    obtain ⟨t, ht, hm, hsent, hbeg⟩ := hu.adjust_moves hpos hle hroom
    refine ⟨{ t with minRtt := infiniteDelta, rttCount := 0 }, ?_, ⟨hm.move, hm.min_eq, hm.max_eq⟩,
      hsent, .inr hbeg, .inl rfl⟩
    unfold endRound
    dsimp only
    rw [if_neg hcount, ht]
    rfl

/-- An acknowledged packet is one move of the window, and no check fails. -/
theorem Ready.onPacketAcked_spec (h : Ready filter m s) {packetNumber : Nat}
    (hroom : s.Room filter packetNumber) :
    ∃ t, s.onPacketAcked filter packetNumber = some t ∧ Moves s t ∧ Ready filter m t := by
  have hu : Ready filter m (s.noteAcked packetNumber) := h.noteAcked packetNumber
  have hroom : (s.noteAcked packetNumber).Room filter packetNumber := hroom
  -- what is shown of `u` holds of `s`, which has the same window
  suffices hspec : ∃ t, s.onPacketAcked filter packetNumber = some t ∧
      Moves (s.noteAcked packetNumber) t ∧ Keeps (s.noteAcked packetNumber) t by
    obtain ⟨t, ht, hm, hk⟩ := hspec
    exact ⟨t, ht, ⟨hm.move, hm.min_eq, hm.max_eq⟩, hu.keeps hm hk⟩
  unfold onPacketAcked
  generalize s.noteAcked packetNumber = u at hu hroom ⊢
  have hwindow := hu.window
  dsimp only
  obtain ⟨beg, hbeg⟩ := Option.isSome_iff_exists.1 hu.beg
  unfold Room avoidanceGrows at hroom
  by_cases hmode : u.vegasMode = true
  · rw [if_pos hmode, hbeg, Option.any_some] at hroom
    rw [if_pos hmode, hbeg, Option.bind_eq_bind, Option.bind_some]
    by_cases hround : beg ≤ packetNumber
    · obtain ⟨t, ht, hm, hk⟩ := hu.endRound_spec fun hslow hgrows => hroom (by
        rw [hslow, decide_eq_true hround]
        split at hgrows <;> rename_i hcount
        · rw [if_pos hcount, hgrows]
          rfl
        · rw [if_neg hcount, decide_eq_true hgrows]
          rfl)
      rw [if_pos hround, ht]
      exact ⟨_, rfl, hm, hk⟩
    · rw [if_neg hround]
      by_cases hslow : u.inSlowStart = true
      · rw [if_pos hslow]
        exact ⟨_, rfl, hwindow.clip_moves (hwindow.grow_slowStart hslow), by simp only [clip, grow],
          .inl (by simp only [clip, grow]), .inr (by simp only [clip, grow, and_self])⟩
      · rw [if_neg hslow]
        exact ⟨_, rfl, hwindow.clip_moves (.hold rfl rfl rfl), rfl, .inl rfl, .inr ⟨rfl, rfl, rfl⟩⟩
  · rw [if_neg hmode] at hroom
    rw [if_neg hmode]
    refine ⟨_, rfl, hwindow.reno_moves fun hslow hgrows => hroom ?_, reno_keeps u⟩
    rw [hslow, hgrows]
    rfl

/-! ### What `Room` leaves out breaks the bound -/

/-- The window with one more segment, before and after the clipping. -/
structure Grown (s t : VegasSender F) : Prop where
  cwnd : t.congestionWindow = (s.congestionWindow + kDefaultTCPMSS) % 2 ^ 64
  max_eq : t.maxCongestionWindow = s.maxCongestionWindow

theorem reno_grown (hslow : s.inSlowStart = false) (hgrows : s.renoGrows = true) :
    Grown s s.increaseCongestionWindowAsReno := by
  unfold increaseCongestionWindowAsReno
  rw [if_neg (by rw [hslow]; exact Bool.false_ne_true), if_pos hgrows]
  exact ⟨by simp only [grow], by simp only [grow]⟩

theorem adjust_grown (hpos : 0 < filter.getBest s.baseRTTFilter)
    (hle : filter.getBest s.baseRTTFilter ≤ s.minRtt) (hslow : s.inSlowStart = false)
    (hdiff : s.vegasDiff filter < kAlphaCongestionWindow) :
    ∃ t, s.adjust filter = some t ∧ Grown s t := by
  have hbeta : ¬ kBetaCongestionWindow < s.vegasDiff filter := by
    unfold kBetaCongestionWindow
    unfold kAlphaCongestionWindow at hdiff
    omega
  unfold adjust
  dsimp only
  rw [if_neg (by omega), hslow, if_neg fun h => Bool.false_ne_true h.2, if_neg Bool.false_ne_true,
    if_neg hbeta, if_pos hdiff]
  exact ⟨_, rfl, by simp only [grow], by simp only [grow]⟩

theorem Ready.endRound_grown (h : Ready filter m s) (hslow : s.inSlowStart = false)
    (hgrows : if s.rttCount ≤ 2 then s.renoGrows = true
      else s.vegasDiff filter < kAlphaCongestionWindow) :
    ∃ t, s.endRound filter = some t ∧ Grown s t := by
  let u : VegasSender F := { s with begSendNext := s.largestSentPacketNumber }
  unfold endRound
  dsimp only
  by_cases hcount : s.rttCount ≤ 2
  · rw [if_pos hcount] at hgrows
    have hu : Grown u u.increaseCongestionWindowAsReno := reno_grown hslow hgrows
    rw [if_pos hcount]
    exact ⟨_, rfl, hu.cwnd, hu.max_eq⟩
  · rw [if_neg hcount] at hgrows
    obtain ⟨hpos, hle⟩ := h.rtt.resolve_left hcount
    obtain ⟨t, ht, hu⟩ := adjust_grown (s := u) hpos hle hslow hgrows
    rw [if_neg hcount, ht]
    exact ⟨_, rfl, hu.cwnd, hu.max_eq⟩

theorem Ready.onPacketAcked_grown (h : Ready filter m s) {packetNumber : Nat}
    (hgrows : s.avoidanceGrows filter packetNumber = true) :
    ∃ t, s.onPacketAcked filter packetNumber = some t ∧
      (s.congestionWindow + kDefaultTCPMSS) % 2 ^ 64 ≤ t.congestionWindow ∧
      t.maxCongestionWindow = s.maxCongestionWindow := by
  have hu : Ready filter m (s.noteAcked packetNumber) := h.noteAcked packetNumber
  have hgrows : (s.noteAcked packetNumber).avoidanceGrows filter packetNumber = true := hgrows
  have hcwnd : s.congestionWindow = (s.noteAcked packetNumber).congestionWindow := rfl
  have hmax : s.maxCongestionWindow = (s.noteAcked packetNumber).maxCongestionWindow := rfl
  rw [hcwnd, hmax]
  unfold onPacketAcked
  generalize s.noteAcked packetNumber = u at hu hgrows ⊢
  dsimp only
  obtain ⟨beg, hbeg⟩ := Option.isSome_iff_exists.1 hu.beg
  unfold avoidanceGrows at hgrows
  rw [Bool.and_eq_true, Bool.not_eq_true'] at hgrows
  obtain ⟨hslow, hgrows⟩ := hgrows
  by_cases hmode : u.vegasMode = true
  · rw [if_pos hmode, hbeg, Option.any_some, Bool.and_eq_true, decide_eq_true_eq] at hgrows
    obtain ⟨hround, hgrows⟩ := hgrows
    obtain ⟨t, ht, hgrown⟩ := hu.endRound_grown hslow (by
      split at hgrows <;> rename_i hcount
      · rwa [if_pos hcount]
      · rw [if_neg hcount]
        exact of_decide_eq_true hgrows)
    rw [if_pos hmode, hbeg, Option.bind_eq_bind, Option.bind_some, if_pos hround, ht]
    refine ⟨t.clip, rfl, ?_, hgrown.max_eq⟩
    rw [← hgrown.cwnd]
    exact Nat.le_max_left _ _
  · rw [if_neg hmode] at hgrows
    have hgrown := reno_grown hslow hgrows
    rw [if_neg hmode]
    exact ⟨_, rfl, hgrown.cwnd.ge, hgrown.max_eq⟩

/-- `Room` is exactly what an acknowledgement needs to stay below the maximum. -/
theorem Ready.onPacketAcked_le_max_iff (h : Ready filter m s)
    (hfit : (m + 1) * kDefaultTCPMSS < 2 ^ 64) {packetNumber : Nat}
    (ht : s.onPacketAcked filter packetNumber = some t) :
    t.congestionWindow ≤ t.maxCongestionWindow ↔ s.Room filter packetNumber := by
  constructor
  · intro hle hgrows
    obtain ⟨t', ht', hcwnd, hmax⟩ := h.onPacketAcked_grown hgrows
    rw [ht, Option.some.injEq] at ht'
    subst ht'
    have hceiling : s.congestionWindow ≤ s.maxCongestionWindow := h.window.bounded.le_ceiling
    have hm := h.window.max_eq
    rw [Nat.succ_mul] at hfit
    rw [Nat.mod_eq_of_lt (by omega)] at hcwnd
    omega
  · intro hroom
    obtain ⟨t', ht', -, hready⟩ := h.onPacketAcked_spec hroom
    rw [ht, Option.some.injEq] at ht'
    subst ht'
    exact hready.window.bounded.le_ceiling

/-! ## Calls and runs -/

variable (filter)

/-- What the connection and the filter see to: packet numbers increase, only sent packets
are acknowledged or lost, and the base RTT is positive, as every sample is, and not above
the least sample of the round. -/
def Allowed (s : VegasSender F) : Call → Prop
  | .onPacketSent packetNumber => s.largestSentPacketNumber.all (· < packetNumber) = true
  | .onCongestionEvent latestRtt eventTime acked lost =>
    (∀ packetNumber ∈ acked ++ lost, s.largestSentPacketNumber.any (packetNumber ≤ ·) = true) ∧
      (acked ≠ [] →
        let u := s.sample filter latestRtt eventTime
        0 < filter.getBest u.baseRTTFilter ∧ filter.getBest u.baseRTTFilter ≤ u.minRtt)

/-- Each acknowledged packet of the call finds room. -/
def CallRoom (s : VegasSender F) : Call → Prop
  | .onPacketSent _ => True
  | .onCongestionEvent latestRtt eventTime acked lost =>
    Guarded (onPacketAcked filter) (Room filter)
      (s.beforeAcks filter latestRtt eventTime acked lost) acked

instance (s : VegasSender F) : (c : Call) → Decidable (s.Allowed filter c)
  | .onPacketSent packetNumber =>
    inferInstanceAs (Decidable (s.largestSentPacketNumber.all (· < packetNumber) = true))
  | .onCongestionEvent latestRtt eventTime acked lost =>
    inferInstanceAs (Decidable (
      (∀ packetNumber ∈ acked ++ lost, s.largestSentPacketNumber.any (packetNumber ≤ ·) = true) ∧
      (acked ≠ [] →
        0 < filter.getBest (s.sample filter latestRtt eventTime).baseRTTFilter ∧
          filter.getBest (s.sample filter latestRtt eventTime).baseRTTFilter ≤
            (s.sample filter latestRtt eventTime).minRtt)))

instance (s : VegasSender F) : (c : Call) → Decidable (s.CallRoom filter c)
  | .onPacketSent _ => isTrue trivial
  | .onCongestionEvent latestRtt eventTime acked lost =>
    decidableGuarded (onPacketAcked filter) (Room filter) acked
      (s.beforeAcks filter latestRtt eventTime acked lost)

variable {filter}

/-- Between two calls. -/
structure Sound (m : Nat) (s : VegasSender F) : Prop where
  window : WindowOk m s
  beg : s.largestSentPacketNumber.isSome = true → s.begSendNext.isSome = true

theorem sound_new (initial max : Nat) (h4 : 4 ≤ initial) (hle : initial ≤ max)
    (hfit : max * kDefaultTCPMSS < 2 ^ 64) : Sound max (new filter initial max) where
  window := by
    have hmul : initial * kDefaultTCPMSS ≤ max * kDefaultTCPMSS := Nat.mul_le_mul_right _ hle
    have hmin : 4 * kDefaultTCPMSS ≤ initial * kDefaultTCPMSS := Nat.mul_le_mul_right _ h4
    have hi : initial * kDefaultTCPMSS % 2 ^ 64 = initial * kDefaultTCPMSS :=
      Nat.mod_eq_of_lt (by omega)
    have hm : max * kDefaultTCPMSS % 2 ^ 64 = max * kDefaultTCPMSS := Nat.mod_eq_of_lt hfit
    unfold new
    rw [hi, hm]
    exact ⟨rfl, rfl, hfit, hmin, hmul, Nat.le_refl _, .inl (Nat.dvd_mul_left _ _)⟩
  beg h := by cases h

/-- A loss does not touch the round. -/
structure SameRound (s t : VegasSender F) : Prop where
  sent : t.largestSentPacketNumber = s.largestSentPacketNumber
  beg : t.begSendNext = s.begSendNext
  minRtt : t.minRtt = s.minRtt
  filter : t.baseRTTFilter = s.baseRTTFilter

theorem onPacketLost_sameRound (s : VegasSender F) (packetNumber : Nat) :
    SameRound s (s.onPacketLost packetNumber) := by
  unfold onPacketLost
  split <;> exact ⟨rfl, rfl, rfl, rfl⟩

theorem lost_spec (lost : List Nat) : ∀ s : VegasSender F, WindowOk m s →
    WindowOk m (lost.foldl onPacketLost s) ∧ SameRound s (lost.foldl onPacketLost s) := by
  induction lost with
  | nil => exact fun s h => ⟨h, rfl, rfl, rfl, rfl⟩
  | cons packetNumber lost ih =>
    intro s h
    obtain ⟨hw, hsame⟩ := ih (s.onPacketLost packetNumber)
      (h.moves (onPacketLost_moves s packetNumber))
    have hfirst := onPacketLost_sameRound s packetNumber
    exact ⟨hw, hsame.sent.trans hfirst.sent, hsame.beg.trans hfirst.beg,
      hsame.minRtt.trans hfirst.minRtt, hsame.filter.trans hfirst.filter⟩

theorem Sound.beforeAcks_spec (h : Sound m s) {latestRtt eventTime : Nat} {acked lost : List Nat}
    (hcall : s.Allowed filter (.onCongestionEvent latestRtt eventTime acked lost)) :
    WindowOk m (s.beforeAcks filter latestRtt eventTime acked lost) ∧
      (s.beforeAcks filter latestRtt eventTime acked lost).begSendNext = s.begSendNext ∧
      (s.beforeAcks filter latestRtt eventTime acked lost).largestSentPacketNumber =
        s.largestSentPacketNumber ∧
      (acked ≠ [] → Ready filter m (s.beforeAcks filter latestRtt eventTime acked lost)) := by
  unfold beforeAcks
  by_cases hacked : acked = []
  · rw [if_pos hacked]
    obtain ⟨hw, hsame⟩ := lost_spec lost s h.window
    exact ⟨hw, hsame.beg, hsame.sent, fun hne => absurd hacked hne⟩
  · rw [if_neg hacked]
    have hwindow : WindowOk m (s.sample filter latestRtt eventTime) :=
      h.window.moves (.hold rfl rfl rfl)
    obtain ⟨hw, hsame⟩ := lost_spec lost _ hwindow
    -- an acknowledged packet was sent
    obtain ⟨packetNumber, hmem⟩ := List.exists_mem_of_ne_nil acked hacked
    have hsent : s.largestSentPacketNumber.isSome = true := by
      have hany := hcall.1 packetNumber (List.mem_append_left lost hmem)
      cases hlargest : s.largestSentPacketNumber with
      | none =>
        rw [hlargest] at hany
        cases hany
      | some largest => rfl
    refine ⟨hw, hsame.beg, hsame.sent, fun _ => ⟨hw, ?_, ?_, .inr ?_⟩⟩
    · rw [hsame.sent]
      exact hsent
    · rw [hsame.beg]
      exact h.beg hsent
    · rw [hsame.filter, hsame.minRtt]
      exact hcall.2 hacked

/-- The packets acknowledged by one call. -/
theorem acked_spec (acked : List Nat) {s : VegasSender F} (h : Ready filter m s)
    (hroom : Guarded (onPacketAcked filter) (Room filter) s acked) :
    ∃ t, runs (onPacketAcked filter) s acked = some t ∧ Ready filter m t :=
  guarded_total (fun s _ hs hg => by
    obtain ⟨t, ht, -, hready⟩ := hs.onPacketAcked_spec hg
    exact ⟨t, ht, hready⟩) acked s h hroom

theorem Sound.switchMode (h : Sound m s) (before : Bool) : Sound m (s.switchMode before) := by
  unfold VegasSender.switchMode
  split
  · split
    · exact ⟨h.window.moves (.hold rfl rfl rfl), h.beg⟩
    · exact ⟨h.window.moves (.hold rfl rfl rfl), id⟩
  · exact h

theorem Sound.onPacketSent (h : Sound m s) (packetNumber : Nat) :
    Sound m (s.onPacketSent packetNumber) where
  window := h.window.moves (.hold rfl rfl rfl)
  beg _ := by
    unfold VegasSender.onPacketSent
    cases s.begSendNext <;> rfl

/-- **One call**: it returns, with the window in its bounds. -/
theorem Sound.call_spec (h : Sound m s) (c : Call) (hallowed : s.Allowed filter c)
    (hroom : s.CallRoom filter c) : ∃ t, s.call filter c = some t ∧ Sound m t := by
  cases c with
  | onPacketSent packetNumber => exact ⟨_, rfl, h.onPacketSent packetNumber⟩
  | onCongestionEvent latestRtt eventTime acked lost =>
    obtain ⟨hw, hbeg, hsent, hready⟩ := h.beforeAcks_spec hallowed
    show ∃ t, s.onCongestionEvent filter latestRtt eventTime acked lost = some t ∧ Sound m t
    unfold onCongestionEvent
    dsimp only
    by_cases hacked : acked = []
    · subst hacked
      rw [runs_nil]
      refine ⟨_, rfl, Sound.switchMode ⟨hw, fun hs => ?_⟩ _⟩
      rw [hsent] at hs
      rw [hbeg]
      exact h.beg hs
    · obtain ⟨t, ht, hready⟩ := acked_spec acked (hready hacked) hroom
      rw [ht]
      exact ⟨_, rfl, Sound.switchMode ⟨hready.window, fun _ => hready.beg⟩ _⟩

/-- The packets of a call up to one of them. -/
theorem Sound.onPacketAcked_iff (h : Sound m s) (hfit : (m + 1) * kDefaultTCPMSS < 2 ^ 64)
    {latestRtt eventTime packetNumber : Nat} {acked later lost : List Nat}
    (hallowed : s.Allowed filter
      (.onCongestionEvent latestRtt eventTime (acked ++ packetNumber :: later) lost))
    (hroom : Guarded (onPacketAcked filter) (Room filter)
      (s.beforeAcks filter latestRtt eventTime (acked ++ packetNumber :: later) lost) acked) :
    ∃ t u, runs (onPacketAcked filter)
          (s.beforeAcks filter latestRtt eventTime (acked ++ packetNumber :: later) lost) acked =
        some t ∧
      t.onPacketAcked filter packetNumber = some u ∧
      (u.congestionWindow ≤ u.maxCongestionWindow ↔ t.Room filter packetNumber) := by
  obtain ⟨-, -, -, hready⟩ := h.beforeAcks_spec hallowed
  obtain ⟨t, ht, ht'⟩ := acked_spec acked (hready (by simp)) hroom
  obtain ⟨u, hu⟩ : ∃ u, t.onPacketAcked filter packetNumber = some u := by
    by_cases hgrows : t.Room filter packetNumber
    · obtain ⟨u, hu, -⟩ := ht'.onPacketAcked_spec hgrows
      exact ⟨u, hu⟩
    · -- without room the packet is one that adds a segment
      obtain ⟨u, hu, -⟩ := ht'.onPacketAcked_grown
        (by_contra fun h => hgrows fun hadds => absurd hadds h)
      exact ⟨u, hu⟩
  exact ⟨t, u, ht, hu, ht'.onPacketAcked_le_max_iff hfit hu⟩

/-- **The window stays in its bounds** after the constructor and after every call, along
every run in which no acknowledgement adds a segment outside of slow start where there is
no room for it below the maximum; and the first one that does so takes it above the
maximum. -/
theorem window_bounds (initial max : Nat) (h4 : 4 ≤ initial) (hle : initial ≤ max)
    (hfit : max * kDefaultTCPMSS < 2 ^ 64) (calls : List Call)
    (hcalls : Guarded (call filter) (fun s c => s.Allowed filter c ∧ s.CallRoom filter c)
      (new filter initial max) calls) :
    (∀ before behind, calls = before ++ behind →
      ∃ t, runs (call filter) (new filter initial max) before = some t ∧
        t.minCongestionWindow ≤ t.congestionWindow ∧
        t.congestionWindow ≤ t.maxCongestionWindow) ∧
    ((max + 1) * kDefaultTCPMSS < 2 ^ 64 →
      ∀ s, runs (call filter) (new filter initial max) calls = some s →
      ∀ latestRtt eventTime acked packetNumber later lost,
        let event := Call.onCongestionEvent latestRtt eventTime (acked ++ packetNumber :: later) lost
        let start := s.beforeAcks filter latestRtt eventTime (acked ++ packetNumber :: later) lost
        s.Allowed filter event → Guarded (onPacketAcked filter) (Room filter) start acked →
          ∃ t u, runs (onPacketAcked filter) start acked = some t ∧
            t.onPacketAcked filter packetNumber = some u ∧
            (u.congestionWindow ≤ u.maxCongestionWindow ↔ t.Room filter packetNumber)) := by
  have hruns : ∀ before behind, calls = before ++ behind →
      ∃ t, runs (call filter) (new filter initial max) before = some t ∧ Sound max t := by
    rintro before behind rfl
    exact guarded_total (I := Sound max) (fun s c hs hg => hs.call_spec c hg.1 hg.2) before _
      (sound_new initial max h4 hle hfit) hcalls.of_append
  constructor
  · intro before behind hsplit
    obtain ⟨t, ht, hsound⟩ := hruns before behind hsplit
    exact ⟨t, ht, hsound.window.bounded.floor_le, hsound.window.bounded.le_ceiling⟩
  · intro hfit' s hs latestRtt eventTime acked packetNumber later lost event start hallowed hroom
    obtain ⟨t, ht, hsound⟩ := hruns calls [] (List.append_nil calls).symm
    rw [hs, Option.some.injEq] at ht
    subst ht
    exact hsound.onPacketAcked_iff hfit' hallowed hroom

/-- The filter where its window is longer than the run. -/
def leastSample : RTTFilter (Option Nat) where
  empty := none
  update best sample _ := some (min sample (best.getD sample))
  getBest best := best.getD 0

/-- Slow start, a loss, and the recovery from it. -/
theorem window_bounds_after_loss :
    ∃ t, runs (call leastSample) (new leastSample 4 10)
        [.onPacketSent 1, .onCongestionEvent 100 1000 [1] [], .onPacketSent 2, .onPacketSent 3,
          .onCongestionEvent 150 2000 [3] [2], .onPacketSent 4,
          .onCongestionEvent 120 3000 [4] []] = some t ∧
      t.minCongestionWindow ≤ t.congestionWindow ∧ t.congestionWindow ≤ t.maxCongestionWindow :=
  (window_bounds 4 10 (by decide) (by decide) (by decide) _ (by decide)).1 _ []
    (List.append_nil _).symm

/-- A window that starts at its maximum: the fourth acknowledgement makes it larger. -/
theorem window_exceeds_max :
    Guarded (call leastSample) (Allowed leastSample) (new leastSample 4 4)
        [.onPacketSent 1, .onCongestionEvent 100 1000 [1] [],
          .onPacketSent 2, .onCongestionEvent 100 2000 [2] [],
          .onPacketSent 3, .onCongestionEvent 100 3000 [3] [],
          .onPacketSent 4, .onCongestionEvent 100 4000 [4] []] ∧
      (runs (call leastSample) (new leastSample 4 4)
        [.onPacketSent 1, .onCongestionEvent 100 1000 [1] [],
          .onPacketSent 2, .onCongestionEvent 100 2000 [2] [],
          .onPacketSent 3, .onCongestionEvent 100 3000 [3] [],
          .onPacketSent 4, .onCongestionEvent 100 4000 [4] []]).map
        (fun t => decide (t.maxCongestionWindow < t.congestionWindow)) = some true := by
  constructor <;> decide

end VegasSender

end InNetworkAgg
