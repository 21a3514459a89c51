import InNetworkAgg.RttFilter

/-!
# Runs of the Copa sender

Whatever the quotients of the `double`s and the filters give:

    velocity is 0 or a power of two, and 0 after 66 round trips in one direction    (velocity_power)
    velocity is 0  →  the window does not change any more                           (window_stuck)
    in slow start the window is its initial value, doubled some number of times     (slowStart_window)
    the window is not below four segments; it is the sum that may overflow          (call_outcomes)

The window is stuck early enough for it to matter: a sender whose window has been
at its minimum for 66 round trips stays there, however fast the network gets.
-/

namespace InNetworkAgg

open Outcome PartialRun

namespace CopaSender

variable {F : Type} {filter : WindowedFilter F} {doubles : Doubles} {s t : CopaSender F}

/-- An invariant of runs: kept where the window is not touched, by each adjustment and by
a new initial window. -/
theorem runs_called {I : CopaSender F → Prop} {P : Call → Prop}
    (hcall : ∀ s c t, I s → P c → Called filter doubles s c t → I t)
    {calls : List Call} (hs : I s) (hcalls : ∀ c ∈ calls, P c)
    (h : runs (returning (call filter doubles)) s calls = some t) : I t := by
  refine runs_ends (Q := fun _ => True) (fun s c hI hc => ?_) calls s t hs hcalls h
  cases hok : s.call filter doubles c with
  | ok t => exact hcall s c t hI hc (called_of_call hok)
  | error e => trivial

/-! ## Velocity -/

/-- What holds of the velocity while the window is `window`. -/
structure Steady (window : Nat) (v : VelocityState) : Prop where
  power : v.velocity = 0 ∨ v.velocity = 2 ^ (v.numTimesDirectionSame - 2) % 2 ^ 64
  /-- The numerators are 0, so that the window has not changed since the last record. -/
  stale : 2 ^ 60 ∣ v.velocity → v.lastRecordedCwndBytes = some window
  down : v.velocity = 0 → v.direction = .down

theorem two_pow_mod_eq_zero {n : Nat} (h : 64 ≤ n) : 2 ^ n % 2 ^ 64 = 0 :=
  Nat.mod_eq_zero_of_dvd (Nat.pow_dvd_pow 2 h)

/-- From 66 on the power of two is a multiple of 2 ^ 64. -/
theorem Steady.velocity_eq_zero {window : Nat} {v : VelocityState} (h : Steady window v)
    (hmany : 66 ≤ v.numTimesDirectionSame) : v.velocity = 0 := by
  rcases h.power with hzero | hpower
  · exact hzero
  · rw [hpower]
    exact two_pow_mod_eq_zero (by omega)

section

variable {window : Nat} {v w : VelocityState} {d : Direction}

theorem turn_ne (h : d ≠ v.direction) :
    v.turn d = { v with velocity := 1, numTimesDirectionSame := 0, direction := d } := by
  unfold VelocityState.turn
  rw [if_pos h]

theorem turn_same (h : d = v.direction) :
    v.turn d = { v with
      numTimesDirectionSame := (v.numTimesDirectionSame + 1) % 2 ^ 64
      velocity := if 3 ≤ (v.numTimesDirectionSame + 1) % 2 ^ 64 then 2 * v.velocity % 2 ^ 64
        else v.velocity } := by
  unfold VelocityState.turn
  rw [if_neg (not_not.2 h)]

theorem double_two_pow_mod (n : Nat) : 2 * (2 ^ n % 2 ^ 64) % 2 ^ 64 = 2 ^ (n + 1) % 2 ^ 64 := by
  rw [Nat.mul_mod_mod, ← Nat.pow_succ']

/-- A round trip, in whatever direction. -/
theorem Steady.turn_power (h : Steady window v) (d : Direction) :
    (v.turn d).velocity = 0 ∨
      (v.turn d).velocity = 2 ^ ((v.turn d).numTimesDirectionSame - 2) % 2 ^ 64 := by
  by_cases hd : d = v.direction
  · rw [turn_same hd]
    dsimp only
    by_cases hwrap : v.numTimesDirectionSame + 1 < 2 ^ 64
    · rw [Nat.mod_eq_of_lt hwrap]
      rcases h.power with hzero | hpower
      · left
        rw [hzero]
        split <;> rfl
      · right
        rw [hpower]
        split
        · have hexp : v.numTimesDirectionSame + 1 - 2 = v.numTimesDirectionSame - 2 + 1 := by omega
          rw [double_two_pow_mod, hexp]
        · have hexp : v.numTimesDirectionSame + 1 - 2 = v.numTimesDirectionSame - 2 := by omega
          rw [hexp]
    · -- the count wraps; the velocity has been 0 for long
      left
      rw [h.velocity_eq_zero (by omega)]
      split <;> rfl
  · rw [turn_ne hd]
    exact .inr rfl

/-- Only a round trip in the same direction makes the velocity 0. -/
theorem turn_velocity_eq_zero (hzero : (v.turn d).velocity = 0) :
    d = v.direction ∧ 2 ^ 60 ∣ v.velocity := by
  by_cases hd : d = v.direction
  · refine ⟨hd, ?_⟩
    rw [turn_same hd] at hzero
    dsimp only at hzero
    split at hzero <;> omega
  · rw [turn_ne hd] at hzero
    cases hzero

theorem turn_direction (v : VelocityState) (d : Direction) : (v.turn d).direction = d := by
  by_cases hd : d = v.direction
  · rw [turn_same hd, hd]
  · rw [turn_ne hd]

theorem Steady.turn (h : Steady window v) (hturn : Turn window v w) : Steady window w := by
  cases hturn with
  | first time => exact ⟨h.power, fun _ => rfl, h.down⟩
  | record time recorded hrecorded =>
    refine ⟨h.turn_power _, fun _ => rfl, fun hzero => ?_⟩
    -- the numerators were 0, so that the window is the one recorded
    obtain ⟨-, hdvd⟩ := turn_velocity_eq_zero hzero
    have hstale := h.stale hdvd
    rw [hrecorded] at hstale
    cases hstale
    exact (turn_direction v _).trans (if_neg (Nat.lt_irrefl window))
  | reset time direction hlarge => exact ⟨.inr rfl, fun _ => rfl, fun hzero => by cases hzero⟩

theorem Steady.turns (h : Steady window v)
    (hturns : Relation.ReflTransGen (Turn window) v w) : Steady window w := by
  induction hturns with
  | refl => exact h
  | tail _ hturn ih => exact ih.turn hturn

/-- With a velocity of 0 the next record finds the same direction. -/
theorem Steady.turn_zero (h : Steady window v) (hzero : v.velocity = 0)
    (hturn : Turn window v w) : w.velocity = 0 := by
  cases hturn with
  | first time => exact hzero
  | record time recorded hrecorded =>
    have hstale := h.stale (by rw [hzero]; exact Nat.dvd_zero _)
    rw [hrecorded] at hstale
    cases hstale
    have hdown : (if window < window then Direction.up else Direction.down) = v.direction := by
      rw [if_neg (Nat.lt_irrefl window), h.down hzero]
    change (v.turn _).velocity = 0
    rw [turn_same hdown]
    dsimp only
    rw [hzero]
    split <;> rfl
  | reset time direction hlarge => omega

theorem Steady.turns_zero (h : Steady window v) (hzero : v.velocity = 0)
    (hturns : Relation.ReflTransGen (Turn window) v w) : w.velocity = 0 := by
  induction hturns with
  | refl => exact hzero
  | tail hturns hturn ih => exact (h.turns hturns).turn_zero ih hturn

end

/-- What is needed of the `double`s: 0 divided by a window is 0, and an integer that has
room for the quotient gets it. -/
structure Rounds (doubles : Doubles) : Prop where
  amount_zero : ∀ window a, doubles.amount 0 window = some a → a = 0
  amount_isSome : ∀ numerator window, numerator < 2 ^ 64 →
    kDefaultMinimumCongestionWindow ≤ window → (doubles.amount numerator window).isSome = true
  currentRate_isSome : ∀ window rtt, window < 2 ^ 43 → 0 < rtt →
    (doubles.currentRate window rtt).isSome = true

theorem numerator_eq_zero {velocity : Nat} (h : 2 ^ 60 ∣ velocity) (acked : Nat) :
    numerator acked velocity = 0 := by
  obtain ⟨k, rfl⟩ := h
  refine Nat.mod_eq_zero_of_dvd ⟨acked * (1460 * 1460 / 16) * k, ?_⟩
  unfold kDefaultTCPMSS
  ring

/-- A velocity that has left the `uint64_t`, or is about to, changes nothing. -/
theorem Rounds.amount_eq_zero (hdoubles : Rounds doubles) {velocity acked window a : Nat}
    (hdvd : 2 ^ 60 ∣ velocity)
    (ha : doubles.amount (numerator acked velocity) window = some a) : a = 0 := by
  rw [numerator_eq_zero hdvd] at ha
  exact hdoubles.amount_zero window a ha

structure VelocityOk (s : CopaSender F) : Prop where
  steady : Steady s.congestionWindow s.velocityState
  slowStart : s.isSlowStart = true → s.velocityState.velocity = 1

theorem velocityOk_new (initial max : Nat) : VelocityOk (new filter initial max) where
  steady := ⟨.inr rfl, fun h => absurd (show 2 ^ 60 ∣ 1 from h) (by decide), fun h => by cases h⟩
  slowStart _ := rfl

/-- The window and its record, when an amount of 0 is all that a stale velocity gives. -/
theorem Steady.window {window window' : Nat} {v : VelocityState} (h : Steady window v)
    (heq : 2 ^ 60 ∣ v.velocity → window' = window) : Steady window' v :=
  ⟨h.power, fun hdvd => by rw [h.stale hdvd, heq hdvd], h.down⟩

theorem VelocityOk.adjusted (hdoubles : Rounds doubles) (h : VelocityOk s)
    (hadjusted : Adjusted doubles s t) : VelocityOk t := by
  cases hadjusted with
  | wait time hslow => exact ⟨h.steady, h.slowStart⟩
  | double time hslow hfit =>
    refine ⟨h.steady.window fun hdvd => ?_, h.slowStart⟩
    rw [h.slowStart hslow] at hdvd
    exact absurd hdvd (by decide)
  | add v acked a hslow hv ha hfit =>
    refine ⟨(h.steady.turns hv).window fun hdvd => ?_, fun hs => ?_⟩
    · rw [hdoubles.amount_eq_zero hdvd ha, Nat.add_zero]
    · exact absurd hs (by rw [hslow]; decide)
  | subtract v acked a hv ha hfit =>
    refine ⟨(h.steady.turns hv).window fun hdvd => ?_, fun hs => by cases hs⟩
    rw [hdoubles.amount_eq_zero hdvd ha, Nat.zero_min, Nat.sub_zero]

theorem VelocityOk.sameWindow (h : VelocityOk s) (hsame : SameWindow s t) : VelocityOk t where
  steady := by
    rw [hsame.window, hsame.velocity]
    exact h.steady
  slowStart hs := by
    rw [hsame.velocity]
    exact h.slowStart (hsame.slowStart ▸ hs)

theorem VelocityOk.called (hdoubles : Rounds doubles) {c : Call} (h : VelocityOk s)
    (hcalled : Called filter doubles s c t) : VelocityOk t := by
  cases hcalled with
  | sent packetNumber => exact h.sameWindow ⟨rfl, rfl, rfl, rfl, rfl⟩
  | event latestRtt srtt eventTime acked lost t hadjusted =>
    exact (h.sameWindow s.sampled_sameWindow).adjusted hdoubles hadjusted
  | initial congestionWindow hslow =>
    refine ⟨h.steady.window fun hdvd => ?_, h.slowStart⟩
    rw [h.slowStart hslow] at hdvd
    exact absurd hdvd (by decide)
  | late congestionWindow hslow => exact h

theorem velocityOk_of_runs (hdoubles : Rounds doubles) {initial max : Nat} {calls : List Call}
    (h : runs (returning (call filter doubles)) (new filter initial max) calls = some s) :
    VelocityOk s :=
  runs_called (P := fun _ => True) (fun _ _ _ hs _ hcalled => hs.called hdoubles hcalled)
    (velocityOk_new initial max) (fun _ _ => trivial) h

/-- **The velocity in every run**: 0 or a power of two, and 0 after 66 round trips in one
direction, which is `Down`. -/
theorem velocity_power (hdoubles : Rounds doubles) (initial max : Nat) (calls : List Call)
    (s : CopaSender F)
    (h : runs (returning (call filter doubles)) (new filter initial max) calls = some s) :
    let v := s.velocityState
    (v.velocity = 0 ∨ v.velocity = 2 ^ (v.numTimesDirectionSame - 2) ∧ v.velocity < 2 ^ 64) ∧
      (66 ≤ v.numTimesDirectionSame → v.velocity = 0) ∧
      (v.velocity = 0 → v.direction = .down ∧ s.isSlowStart = false ∧
        v.lastRecordedCwndBytes = some s.congestionWindow) := by
  intro v
  have hok := velocityOk_of_runs hdoubles h
  have hmany : 66 ≤ v.numTimesDirectionSame → v.velocity = 0 := hok.steady.velocity_eq_zero
  refine ⟨?_, hmany, fun hzero => ⟨hok.steady.down hzero, ?_, ?_⟩⟩
  · rcases hok.steady.power with hzero | hpower
    · exact .inl hzero
    · by_cases hfew : v.numTimesDirectionSame < 66
      · have hlt : 2 ^ (v.numTimesDirectionSame - 2) < 2 ^ 64 :=
          Nat.pow_lt_pow_right (by decide) (by omega)
        have hvelocity : v.velocity = 2 ^ (v.numTimesDirectionSame - 2) :=
          hpower.trans (Nat.mod_eq_of_lt hlt)
        exact .inr ⟨hvelocity, hvelocity ▸ hlt⟩
      · exact .inl (hmany (Nat.not_lt.1 hfew))
  · refine Bool.eq_false_iff.2 fun hslow => ?_
    have hone := hok.slowStart hslow
    exact absurd (hzero.symm.trans hone) (by decide)
  · exact hok.steady.stale (hzero ▸ Nat.dvd_zero _)

/-! ## The window that is stuck -/

/-- One call with a velocity of 0. -/
theorem VelocityOk.called_stuck (hdoubles : Rounds doubles) {c : Call} (h : VelocityOk s)
    (hzero : s.velocityState.velocity = 0) (hcalled : Called filter doubles s c t) :
    t.velocityState.velocity = 0 ∧ t.congestionWindow = s.congestionWindow := by
  have hslow : s.isSlowStart = true → False := fun hs => by
    have hone := h.slowStart hs
    omega
  cases hcalled with
  | sent packetNumber => exact ⟨hzero, rfl⟩
  | initial congestionWindow hs => exact (hslow hs).elim
  | late congestionWindow _ => exact ⟨hzero, rfl⟩
  | event latestRtt srtt eventTime acked lost t hadjusted =>
    have hsame : SameWindow s (s.sampled filter latestRtt srtt eventTime acked lost) :=
      s.sampled_sameWindow
    have hok := h.sameWindow hsame
    have hzero' := hsame.velocity ▸ hzero
    rw [← hsame.window]
    cases hadjusted with
    | wait time hs => exact (hslow (hsame.slowStart ▸ hs)).elim
    | double time hs hfit => exact (hslow (hsame.slowStart ▸ hs)).elim
    | add v acked a hs hv ha hfit =>
      have hv0 := hok.steady.turns_zero hzero' hv
      refine ⟨hv0, ?_⟩
      rw [hdoubles.amount_eq_zero (hv0 ▸ Nat.dvd_zero _) ha, Nat.add_zero]
    | subtract v acked a hv ha hfit =>
      have hv0 := hok.steady.turns_zero hzero' hv
      refine ⟨hv0, ?_⟩
      rw [hdoubles.amount_eq_zero (hv0 ▸ Nat.dvd_zero _) ha, Nat.zero_min, Nat.sub_zero]

/-- **The window is stuck** once a run has kept its direction for 66 round trips: no later
call changes it, whatever the RTTs are. -/
theorem window_stuck (hdoubles : Rounds doubles) (initial max : Nat) (calls later : List Call)
    (s t : CopaSender F)
    (h : runs (returning (call filter doubles)) (new filter initial max) calls = some s)
    (hmany : 66 ≤ s.velocityState.numTimesDirectionSame)
    (hlater : runs (returning (call filter doubles)) s later = some t) :
    t.congestionWindow = s.congestionWindow := by
  have hok := velocityOk_of_runs hdoubles h
  have hstuck : VelocityOk t ∧ t.velocityState.velocity = 0 ∧
      t.congestionWindow = s.congestionWindow := by
    refine runs_called (P := fun _ => True)
      (I := fun u => VelocityOk u ∧ u.velocityState.velocity = 0 ∧
        u.congestionWindow = s.congestionWindow) ?_
      ⟨hok, hok.steady.velocity_eq_zero hmany, rfl⟩ (fun _ _ => trivial) hlater
    rintro u c w ⟨hu, hzero, hwindow⟩ - hcalled
    obtain ⟨hzero', hwindow'⟩ := hu.called_stuck hdoubles hzero hcalled
    exact ⟨hu.called hdoubles hcalled, hzero', hwindow'.trans hwindow⟩
  exact hstuck.2.2

/-! ## Slow start -/

theorem Adjusted.isSlowStart (hadjusted : Adjusted doubles s t) (hslow : t.isSlowStart = true) :
    s.isSlowStart = true := by
  cases hadjusted with
  | wait time h => exact h
  | double time h hfit => exact h
  | add v acked a h hv ha hfit => exact hslow
  | subtract v acked a hv ha hfit => cases hslow

/-- The window is a number of doublings of its initial value. -/
structure Doubled (s : CopaSender F) : Prop where
  initial_lt : s.initialCongestionWindow < 2 ^ 64
  doubled : s.isSlowStart = true → ∃ k, s.congestionWindow = s.initialCongestionWindow * 2 ^ k

theorem Doubled.called {c : Call} (h : Doubled s) (hcalled : Called filter doubles s c t) :
    Doubled t := by
  cases hcalled with
  | sent packetNumber => exact ⟨h.initial_lt, h.doubled⟩
  | initial congestionWindow hslow =>
    exact ⟨Nat.mod_lt _ (by decide), fun _ => ⟨0, (Nat.mul_one _).symm⟩⟩
  | late congestionWindow hslow => exact h
  | event latestRtt srtt eventTime acked lost t hadjusted =>
    have hsame : SameWindow s (s.sampled filter latestRtt srtt eventTime acked lost) :=
      s.sampled_sameWindow
    generalize s.sampled filter latestRtt srtt eventTime acked lost = u at hsame hadjusted
    have hu : Doubled u := ⟨hsame.initial ▸ h.initial_lt, fun hslow => by
      rw [hsame.window, hsame.initial]
      exact h.doubled (hsame.slowStart ▸ hslow)⟩
    cases hadjusted with
    | wait time hslow => exact ⟨hu.initial_lt, hu.doubled⟩
    | double time hslow hfit =>
      refine ⟨hu.initial_lt, fun _ => ?_⟩
      obtain ⟨k, hk⟩ := hu.doubled hslow
      refine ⟨k + 1, ?_⟩
      dsimp only
      rw [hk, Nat.pow_succ, ← Nat.mul_assoc, Nat.mul_two]
    | add v acked a hslow hv ha hfit =>
      exact ⟨hu.initial_lt, fun hs => absurd hs (by rw [hslow]; decide)⟩
    | subtract v acked a hv ha hfit => exact ⟨hu.initial_lt, fun hs => by cases hs⟩

theorem Called.isSlowStart {c : Call} (hcalled : Called filter doubles s c t)
    (hslow : t.isSlowStart = true) : s.isSlowStart = true := by
  cases hcalled with
  | sent packetNumber => exact hslow
  | initial congestionWindow h => exact h
  | late congestionWindow h => exact hslow
  | event latestRtt srtt eventTime acked lost t hadjusted =>
    have hsame : SameWindow s (s.sampled filter latestRtt srtt eventTime acked lost) :=
      s.sampled_sameWindow
    exact hsame.slowStart ▸ hadjusted.isSlowStart hslow

/-- **Slow start**: its window is its initial value, doubled some number of times, and a run
that has left it does not come back. -/
theorem slowStart_window (initial max : Nat) (before behind : List Call) (u s : CopaSender F)
    (hbefore : runs (returning (call filter doubles)) (new filter initial max) before = some u)
    (hbehind : runs (returning (call filter doubles)) u behind = some s)
    (hslow : s.isSlowStart = true) :
    u.isSlowStart = true ∧ ∃ k, s.congestionWindow = s.initialCongestionWindow * 2 ^ k := by
  constructor
  · by_contra hleft
    have hstays : ¬s.isSlowStart = true :=
      runs_called (I := fun v => ¬v.isSlowStart = true) (P := fun _ => True)
        (fun _ _ _ hv _ hcalled ht => hv (hcalled.isSlowStart ht)) hleft (fun _ _ => trivial)
        hbehind
    exact hstays hslow
  · have hrun : runs (returning (call filter doubles)) (new filter initial max)
        (before ++ behind) = some s := by
      rw [runs_append, hbefore]
      exact hbehind
    have hdoubled : Doubled s :=
      runs_called (P := fun _ => True) (fun _ _ _ hs _ hcalled => hs.called hcalled)
        ⟨Nat.mod_lt _ (by decide), fun _ => ⟨0, (Nat.mul_one _).symm⟩⟩ (fun _ _ => trivial) hrun
    exact hdoubled.doubled hslow

/-! ## What a call may throw -/

/-- A call that sets the initial window sets it to four packets at least. -/
def Call.Fits : Call → Prop
  | .setInitialCongestionWindowInPackets congestionWindow =>
    4 ≤ congestionWindow ∧ congestionWindow * kDefaultTCPMSS < 2 ^ 64
  | _ => True

instance : DecidablePred Call.Fits
  | .onPacketSent _ => isTrue trivial
  | .onCongestionEvent .. => isTrue trivial
  | .setInitialCongestionWindowInPackets _ => inferInstanceAs (Decidable (_ ∧ _))

/-- The latest RTT that the call sees. -/
def Call.latestRtt : Call → Option Nat
  | .onCongestionEvent latestRtt _ _ _ _ => some latestRtt
  | _ => none

structure Floor (s : CopaSender F) : Prop where
  min_eq : s.minCongestionWindow = kDefaultMinimumCongestionWindow
  min_le : kDefaultMinimumCongestionWindow ≤ s.congestionWindow
  lt : s.congestionWindow < 2 ^ 64
  written : s.velocityState.lastCwndRecordTime ≠ 0 →
    s.velocityState.lastRecordedCwndBytes.isSome = true

theorem floor_packets {packets : Nat} (h4 : 4 ≤ packets)
    (hfit : packets * kDefaultTCPMSS < 2 ^ 64) :
    kDefaultMinimumCongestionWindow ≤ packets * kDefaultTCPMSS % 2 ^ 64 := by
  rw [Nat.mod_eq_of_lt hfit]
  exact Nat.mul_le_mul_right _ h4

theorem floor_new {initial : Nat} (max : Nat) (h4 : 4 ≤ initial)
    (hfit : initial * kDefaultTCPMSS < 2 ^ 64) : Floor (new filter initial max) where
  min_eq := rfl
  min_le := floor_packets h4 hfit
  lt := Nat.mod_lt _ (by decide)
  written h := absurd rfl h

theorem Floor.room (h : Floor s) :
    room s.congestionWindow s.minCongestionWindow =
      s.congestionWindow - kDefaultMinimumCongestionWindow := by
  have hle := h.min_le
  have hlt := h.lt
  unfold CopaSender.room
  rw [h.min_eq]
  omega

theorem turns_written {window : Nat} {v w : VelocityState}
    (hv : v.lastCwndRecordTime ≠ 0 → v.lastRecordedCwndBytes.isSome = true)
    (hturns : Relation.ReflTransGen (Turn window) v w) :
    w.lastCwndRecordTime ≠ 0 → w.lastRecordedCwndBytes.isSome = true := by
  induction hturns with
  | refl => exact hv
  | tail _ hturn _ => cases hturn <;> exact fun _ => rfl

theorem Floor.adjusted (h : Floor s) (hadjusted : Adjusted doubles s t) : Floor t := by
  have hle := h.min_le
  have hlt := h.lt
  cases hadjusted with
  | wait time hslow => exact ⟨h.min_eq, hle, hlt, h.written⟩
  | double time hslow hfit => exact ⟨h.min_eq, hle.trans (Nat.le_add_right _ _), hfit, h.written⟩
  | add v acked a hslow hv ha hfit =>
    exact ⟨h.min_eq, hle.trans (Nat.le_add_right _ _), hfit, turns_written h.written hv⟩
  | subtract v acked a hv ha hfit =>
    refine ⟨h.min_eq, ?_, Nat.lt_of_le_of_lt (Nat.sub_le _ _) hlt, turns_written h.written hv⟩
    dsimp only
    rw [h.room]
    omega

theorem Floor.sameWindow (h : Floor s) (hsame : SameWindow s t) : Floor t where
  min_eq := hsame.minimum.trans h.min_eq
  min_le := hsame.window ▸ h.min_le
  lt := hsame.window ▸ h.lt
  written := hsame.velocity ▸ h.written

/-- The filters have seen samples, none of them 0. -/
structure Sampled (filter : WindowedFilter F) (s : CopaSender F) : Prop where
  minRTT : ∃ samples, Given filter s.minRTTFilter samples
  standingRTT : ∃ samples, Given filter s.standingRTTFilter samples ∧ ∀ x ∈ samples, 0 < x

theorem Adjusted.filters (hadjusted : Adjusted doubles s t) :
    t.minRTTFilter = s.minRTTFilter ∧ t.standingRTTFilter = s.standingRTTFilter := by
  cases hadjusted <;> exact ⟨rfl, rfl⟩

section

variable {latestRtt srtt eventTime : Nat} {acked lost : List Nat}

theorem Sampled.best_minRTT (hfilter : Least filter) (h : Sampled filter s) :
    filter.getBest (s.sampled filter latestRtt srtt eventTime acked lost).minRTTFilter ≤
      latestRtt := by
  obtain ⟨cutback, largest, hu⟩ := s.sampled_eq
  obtain ⟨samples, hmin⟩ := h.minRTT
  rw [hu]
  exact hfilter.le_last _ _ _ (.update _ _ _ _ hmin)

/-- The standing RTT is 0 only for a latest RTT of 0. -/
theorem Sampled.best_standingRTT (hfilter : Least filter) (h : Sampled filter s) :
    filter.getBest (s.sampled filter latestRtt srtt eventTime acked lost).standingRTTFilter = 0 ↔
      latestRtt = 0 := by
  obtain ⟨cutback, largest, hu⟩ := s.sampled_eq
  obtain ⟨samples, hstanding, hpos⟩ := h.standingRTT
  have hgiven := Given.update _ _ latestRtt eventTime
    (Given.setWindowLength _ _ (srtt / 2) hstanding)
  rw [hu]
  constructor
  · intro hzero
    have hmem := hfilter.mem _ _ _ hgiven
    rw [hzero] at hmem
    rcases List.mem_cons.1 hmem with hlatest | hold
    · exact hlatest.symm
    · exact absurd (hpos 0 hold) (Nat.lt_irrefl 0)
  · intro hzero
    have hle := hfilter.le_last _ _ _ hgiven
    exact Nat.eq_zero_of_le_zero (hle.trans (Nat.le_of_eq hzero))

theorem Sampled.sampled (h : Sampled filter s) (hpos : 0 < latestRtt) :
    Sampled filter (s.sampled filter latestRtt srtt eventTime acked lost) := by
  obtain ⟨cutback, largest, hu⟩ := s.sampled_eq
  obtain ⟨samples, hmin⟩ := h.minRTT
  obtain ⟨samples', hstanding, hpos'⟩ := h.standingRTT
  rw [hu]
  refine ⟨⟨_, .update _ _ _ _ hmin⟩, ⟨_, .update _ _ _ _ (.setWindowLength _ _ _ hstanding), ?_⟩⟩
  exact List.forall_mem_cons.2 ⟨hpos, hpos'⟩

end

/-- Between two calls. -/
structure Sound (filter : WindowedFilter F) (s : CopaSender F) : Prop where
  floor : Floor s
  sampled : Sampled filter s

theorem Sound.call_ok (hfilter : Least filter) (h : Sound filter s) {c : Call} (hc : c.Fits)
    (hok : s.call filter doubles c = .ok t) : Sound filter t := by
  cases c with
  | onPacketSent packetNumber =>
    cases hok
    exact ⟨h.floor.sameWindow ⟨rfl, rfl, rfl, rfl, rfl⟩, h.sampled.minRTT, h.sampled.standingRTT⟩
  | onCongestionEvent latestRtt srtt eventTime acked lost =>
    obtain ⟨hadjusted, hchecks⟩ := (onCongestionEvent_ends s).of_ok hok
    have hpos : 0 < latestRtt := Nat.pos_of_ne_zero fun hzero =>
      hchecks (.inr ((h.sampled.best_standingRTT hfilter).2 hzero))
    obtain ⟨hmin, hstanding⟩ := hadjusted.filters
    refine ⟨(h.floor.sameWindow s.sampled_sameWindow).adjusted hadjusted, ?_, ?_⟩
    · rw [hmin]
      exact (h.sampled.sampled hpos).minRTT
    · rw [hstanding]
      exact (h.sampled.sampled hpos).standingRTT
  | setInitialCongestionWindowInPackets congestionWindow =>
    cases hok
    unfold setInitialCongestionWindowInPackets
    split
    · have hfloor : Floor { s with
          initialCongestionWindow := congestionWindow * kDefaultTCPMSS % 2 ^ 64
          congestionWindow := congestionWindow * kDefaultTCPMSS % 2 ^ 64 } :=
        ⟨h.floor.min_eq, floor_packets hc.1 hc.2, Nat.mod_lt _ (by decide), h.floor.written⟩
      exact ⟨hfloor, h.sampled.minRTT, h.sampled.standingRTT⟩
    · exact h

/-- An adjustment at a window that is not below the minimum. -/
theorem Floor.fails (hdoubles : Rounds doubles) (h : Floor s) {e : Fault}
    (hfails : Fails doubles s e) : e = overflow := by
  cases hfails with
  | overflow => rfl
  | underflow a hlt =>
    rw [h.room] at hlt
    omega
  | unwritten htime hrecorded =>
    have hwritten := h.written htime
    rw [hrecorded] at hwritten
    cases hwritten
  | amount acked velocity hnone =>
    have hsome := hdoubles.amount_isSome (numerator acked velocity) s.congestionWindow
      (Nat.mod_lt _ (by decide)) h.min_le
    rw [hnone] at hsome
    cases hsome

/-- One congestion event that throws. -/
theorem Sound.eventFails (hfilter : Least filter) (hdoubles : Rounds doubles)
    (h : Sound filter s) {latestRtt srtt eventTime : Nat} {acked lost : List Nat} {e : Fault}
    (hfails : EventFails filter doubles (s.sampled filter latestRtt srtt eventTime acked lost)
      latestRtt e) :
    e = .check ∧ latestRtt = 0 ∨
      latestRtt ≠ 0 ∧ (e = overflow ∨ e = .undefined ∧ 2 ^ 43 ≤ s.congestionWindow) := by
  generalize hu : s.sampled filter latestRtt srtt eventTime acked lost = u at hfails
  have hmin : filter.getBest u.minRTTFilter ≤ latestRtt := hu ▸ h.sampled.best_minRTT hfilter
  have hstanding : filter.getBest u.standingRTTFilter = 0 ↔ latestRtt = 0 :=
    hu ▸ h.sampled.best_standingRTT hfilter
  have hsame : SameWindow s u := hu ▸ s.sampled_sameWindow
  rcases hfails with ⟨rfl, hlt | hzero⟩ | ⟨hchecks, hfails⟩
  · omega
  · exact .inl ⟨rfl, hstanding.1 hzero⟩
  · have hpos : filter.getBest u.standingRTTFilter ≠ 0 := fun hzero => hchecks (.inr hzero)
    refine .inr ⟨fun hzero => hpos (hstanding.2 hzero), ?_⟩
    rcases hfails with hfails | ⟨rfl, hnone⟩
    · exact .inl ((h.floor.sameWindow hsame).fails hdoubles hfails)
    · refine .inr ⟨rfl, Nat.not_lt.1 fun hlt => ?_⟩
      have hsome := hdoubles.currentRate_isSome u.congestionWindow _ (hsame.window ▸ hlt)
        (Nat.pos_of_ne_zero hpos)
      rw [hnone] at hsome
      cases hsome

theorem sound_new {initial : Nat} (max : Nat) (h4 : 4 ≤ initial)
    (hfit : initial * kDefaultTCPMSS < 2 ^ 64) : Sound filter (new filter initial max) where
  floor := floor_new max h4 hfit
  sampled := ⟨⟨[], .new _⟩, ⟨[], .new _, fun _ h => absurd h List.not_mem_nil⟩⟩

theorem sound_of_runs (hfilter : Least filter) {initial max : Nat} (h4 : 4 ≤ initial)
    (hfit : initial * kDefaultTCPMSS < 2 ^ 64) {calls : List Call} (hcalls : ∀ c ∈ calls, c.Fits)
    (h : runs (returning (call filter doubles)) (new filter initial max) calls = some s) :
    Sound filter s := by
  refine runs_ends (Q := fun _ => True) (fun u c hu hc => ?_) calls _ s (sound_new max h4 hfit)
    hcalls h
  cases hok : u.call filter doubles c with
  | ok t => exact hu.call_ok hfilter hc hok
  | error e => trivial

/-- **What a call does, in every run**: the window is not below four segments; a check fails
exactly when the latest RTT is 0; else the only exception is the overflow of the sum, as
long as the window has less than 2 ^ 43 bytes. -/
theorem call_outcomes (hfilter : Least filter) (hdoubles : Rounds doubles) (initial max : Nat)
    (h4 : 4 ≤ initial) (hfit : initial * kDefaultTCPMSS < 2 ^ 64) (calls : List Call)
    (hcalls : ∀ c ∈ calls, c.Fits) (s : CopaSender F)
    (h : runs (returning (call filter doubles)) (new filter initial max) calls = some s) (c : Call) :
    (kDefaultMinimumCongestionWindow ≤ s.congestionWindow ∧ s.congestionWindow < 2 ^ 64) ∧
      (s.call filter doubles c = .error .check ↔ c.latestRtt = some 0) ∧
      ∀ e, s.call filter doubles c = .error e →
        e = .check ∨ e = overflow ∨ e = .undefined ∧ 2 ^ 43 ≤ s.congestionWindow := by
  have hsound := sound_of_runs hfilter h4 hfit hcalls h
  refine ⟨⟨hsound.floor.min_le, hsound.floor.lt⟩, ?_⟩
  cases c with
  | onPacketSent packetNumber =>
    refine ⟨⟨fun he => ?_, fun he => ?_⟩, fun e he => ?_⟩ <;> cases he
  | setInitialCongestionWindowInPackets congestionWindow =>
    refine ⟨⟨fun he => ?_, fun he => ?_⟩, fun e he => ?_⟩ <;> cases he
  | onCongestionEvent latestRtt srtt eventTime acked lost =>
    have hends : Ends _ (EventFails filter doubles _ latestRtt)
        (s.onCongestionEvent filter doubles latestRtt srtt eventTime acked lost) :=
      s.onCongestionEvent_ends
    refine ⟨⟨fun he => ?_, fun hzero => ?_⟩, fun e he => ?_⟩
    · rcases hsound.eventFails hfilter hdoubles (hends.of_error he) with ⟨-, hzero⟩ | ⟨-, hother⟩
      · exact congrArg some hzero
      · rcases hother with hoverflow | ⟨hundefined, -⟩
        · cases hoverflow
        · cases hundefined
    · -- with a latest RTT of 0 the event cannot return
      have hzero : latestRtt = 0 := Option.some.inj hzero
      cases hok : s.onCongestionEvent filter doubles latestRtt srtt eventTime acked lost with
      | ok t =>
        exact absurd (.inr ((hsound.sampled.best_standingRTT hfilter).2 hzero))
          (hends.of_ok hok).2
      | error e =>
        rcases hsound.eventFails hfilter hdoubles (hends.of_error hok) with ⟨rfl, -⟩ | ⟨hne, -⟩
        · exact hok
        · exact absurd hzero hne
    · rcases hsound.eventFails hfilter hdoubles (hends.of_error he) with ⟨rfl, -⟩ | ⟨-, hother⟩
      · exact .inl rfl
      · exact .inr hother

/-! ## A run -/

/-- The quotients without rounding. -/
def exactDoubles : Doubles where
  targetRate delay := ((2 * (kDefaultTCPMSS * 1000000) / delay : Nat) : Int)
  currentRate window rtt :=
    if rtt = 0 ∨ 2 ^ 63 ≤ window * 1000000 / rtt then none
    else some ((window * 1000000 / rtt : Nat) : Int)
  amount numerator window :=
    if window = 0 ∨ 2 ^ 64 ≤ 2 * numerator / window then none
    else some (2 * numerator / window)
  amount_lt numerator window a h := by
    split at h
    · cases h
    · cases h
      omega

theorem exactDoubles_rounds : Rounds exactDoubles where
  amount_zero window a h := by
    change (if window = 0 ∨ 2 ^ 64 ≤ 2 * 0 / window then none else some (2 * 0 / window)) = some a
      at h
    split at h
    · cases h
    · simpa using h.symm
  amount_isSome numerator window hlt hle := by
    have hquotient : 2 * numerator / window ≤ numerator :=
      Nat.div_le_of_le_mul (Nat.mul_le_mul_right numerator
        (Nat.le_trans (by decide) hle))
    have hpos : window ≠ 0 := fun hzero => absurd (hzero ▸ hle) (by decide)
    change (if window = 0 ∨ 2 ^ 64 ≤ 2 * numerator / window then none
      else some (2 * numerator / window)).isSome = true
    rw [if_neg (by omega)]
    rfl
  currentRate_isSome window rtt hlt hpos := by
    have hquotient : window * 1000000 / rtt ≤ window * 1000000 := Nat.div_le_self _ _
    change (if rtt = 0 ∨ 2 ^ 63 ≤ window * 1000000 / rtt then none
      else some ((window * 1000000 / rtt : Nat) : Int)).isSome = true
    rw [if_neg (by omega)]
    rfl

/-- A sender at its minimum in `n` round trips with a queue: three times the least RTT. -/
def queued (n : Nat) : List Call :=
  .onCongestionEvent 100 100 1000 [1] [] ::
    (List.range n).map fun i => .onCongestionEvent 300 300 (2000 + 1000 * i) [i + 2] []

/-- The latest RTT is the least one again: `increaseCwnd` is true. -/
def drained : List Call := [.onCongestionEvent 100 300 200000 [100, 101, 102, 103] []]

/-- The sender after 68 round trips with a queue. -/
def queuedSender : CopaSender Estimates :=
  { largestSentPacketNumber := none
    largestAckedPacketNumber := some 69
    largestSentAtLastCutback := none
    congestionWindow := 5840
    initialCongestionWindow := 5840
    maxCongestionWindow := 14600
    minCongestionWindow := 5840
    isSlowStart := false
    lastCwndDoubleTime := 1000
    minRTTFilter := Estimates.reset { windowLength := 10000000 } ⟨100, 1000⟩
    standingRTTFilter := Estimates.reset { windowLength := 150 } ⟨300, 69000⟩
    velocityState :=
      { velocity := 0
        direction := .down
        numTimesDirectionSame := 66
        lastRecordedCwndBytes := some 5840
        lastCwndRecordTime := 69000 } }

/-- The sender when the queue is gone: its window would have to grow. -/
def drainedSender : CopaSender Estimates :=
  { queuedSender with
    largestAckedPacketNumber := some 103
    minRTTFilter := Estimates.reset { windowLength := 10000000 } ⟨100, 200000⟩
    standingRTTFilter := Estimates.reset { windowLength := 150 } ⟨100, 200000⟩
    velocityState :=
      { queuedSender.velocityState with
        numTimesDirectionSame := 67
        lastCwndRecordTime := 200000 } }

theorem runs_queued : runs (returning (call threeEstimates exactDoubles)) (new threeEstimates 4 10)
    (queued 68) = some queuedSender := by decide +kernel

theorem velocity_power_queued :
    let v := queuedSender.velocityState
    (v.velocity = 0 ∨ v.velocity = 2 ^ (v.numTimesDirectionSame - 2) ∧ v.velocity < 2 ^ 64) ∧
      (66 ≤ v.numTimesDirectionSame → v.velocity = 0) ∧
      (v.velocity = 0 → v.direction = .down ∧ queuedSender.isSlowStart = false ∧
        v.lastRecordedCwndBytes = some queuedSender.congestionWindow) :=
  velocity_power exactDoubles_rounds 4 10 (queued 68) queuedSender runs_queued

theorem window_stuck_queued :
    runs (returning (call threeEstimates exactDoubles)) queuedSender drained =
        some drainedSender ∧
      drainedSender.congestionWindow = queuedSender.congestionWindow :=
  have hlater : runs (returning (call threeEstimates exactDoubles)) queuedSender drained =
      some drainedSender := by decide +kernel
  ⟨hlater, window_stuck exactDoubles_rounds 4 10 (queued 68) drained queuedSender drainedSender
    runs_queued (by decide) hlater⟩

/-- After 60 round trips the window still grows when the queue is gone. -/
example : (runs (returning (call threeEstimates exactDoubles)) (new threeEstimates 4 10)
    (queued 60 ++ drained)).map (·.congestionWindow) = some 8760 := by decide +kernel

/-- The sender in slow start, after its first round trips. -/
def started (window ackedPacketNumber eventTime : Nat) : CopaSender Estimates :=
  { new threeEstimates 4 10 with
    largestAckedPacketNumber := some ackedPacketNumber
    congestionWindow := window
    lastCwndDoubleTime := eventTime
    minRTTFilter := Estimates.reset { windowLength := 10000000 } ⟨100, eventTime⟩
    standingRTTFilter := Estimates.reset { windowLength := 50 } ⟨100, eventTime⟩ }

theorem slowStart_window_started :
    (started 5840 1 1000).isSlowStart = true ∧
      ∃ k, (started 11680 2 2000).congestionWindow =
        (started 11680 2 2000).initialCongestionWindow * 2 ^ k :=
  have hbefore : runs (returning (call threeEstimates exactDoubles)) (new threeEstimates 4 10)
      [.onCongestionEvent 100 100 1000 [1] []] = some (started 5840 1 1000) := by decide
  have hbehind : runs (returning (call threeEstimates exactDoubles)) (started 5840 1 1000)
      [.onCongestionEvent 100 100 2000 [2] []] = some (started 11680 2 2000) := by decide
  slowStart_window 4 10 _ _ _ _ hbefore hbehind rfl

theorem call_outcomes_queued :
    (kDefaultMinimumCongestionWindow ≤ queuedSender.congestionWindow ∧
        queuedSender.congestionWindow < 2 ^ 64) ∧
      (queuedSender.call threeEstimates exactDoubles (.onCongestionEvent 0 100 300000 [104] []) =
          .error .check ↔
        (Call.onCongestionEvent 0 100 300000 [104] []).latestRtt = some 0) ∧
      ∀ e, queuedSender.call threeEstimates exactDoubles
          (.onCongestionEvent 0 100 300000 [104] []) = .error e →
        e = .check ∨ e = overflow ∨ e = .undefined ∧ 2 ^ 43 ≤ queuedSender.congestionWindow :=
  call_outcomes threeEstimates_least exactDoubles_rounds 4 10 (by decide) (by decide) (queued 68)
    (by decide +kernel) queuedSender runs_queued _

end CopaSender

end InNetworkAgg
