import InNetworkAgg.AlarmEngine

/-!
# The timer of the alarm engine

In every state the engine can reach, what decides whether a call passes the
assertions of the engine and leaves the timer pending in time is a condition on the
state before it (`CallCond`):

    CallOk s op ↔ CallCond s op        (alarm_timer)

`RegisterAlarm` and `OnTimeout` always do.  `ReregisterAlarm` asserts that the map is not
empty after it took the entry out, and does not move a past deadline to now as
`RegisterAlarm` does; `UnregisterAlarm` leaves other deadlines without a timer in the
middle of `OnTimeout`; `Shutdown` does not cancel the timer.

A deadline is in microseconds; the timer is in time for it when the microsecond it
fires in is not later.
-/

namespace InNetworkAgg

namespace AlarmEngine

open PartialRun

/-- A nonempty map has the timer pending, not later than its earliest deadline. -/
def TimerOk (s : AlarmEngine) : Prop :=
  s.alarmMap.entries ≠ [] →
    ∃ t, s.timer = some t ∧ ∀ e ∈ s.alarmMap.entries, ((t / 1000 : Nat) : Int) ≤ e.key

/-- What should hold after the calls of the engine that an operation makes.  A `cancel` of an
alarm that is not registered makes none. -/
def Post (s : AlarmEngine) (op : Op) (t : AlarmEngine) : Prop :=
  match op with
  | .set _ _ | .update _ _ | .finish => TimerOk t
  | .cancel a => (s.alarms a).registered = true → TimerOk t
  | .shutdown => t.timer = none
  | .tick _ | .timeout | .fire | .ret => True

/-- The operation passes all assertions and leaves the timer right. -/
def CallOk (s : AlarmEngine) (op : Op) : Prop := ∃ t, s.call op = some t ∧ Post s op t

/-- The token of the alarm denotes an entry. -/
def Denotes (s : AlarmEngine) (a : AlarmCB) : Prop :=
  ∃ e ∈ s.alarmMap.entries, e.token = (s.alarms a).token

/-- There is an entry besides the one the token of the alarm denotes. -/
def Other (s : AlarmEngine) (a : AlarmCB) : Prop :=
  ∃ e ∈ s.alarmMap.entries, e.token ≠ (s.alarms a).token

/-- When the calls of the engine go well. -/
def CallCond (s : AlarmEngine) (op : Op) : Prop :=
  match op with
  | .update a deadline =>
    (s.alarms a).registered = true → Denotes s a ∧ Other s a ∧ s.nowUs ≤ deadline
  | .cancel a => (s.alarms a).registered = true → Denotes s a ∧ (s.timer ≠ none ∨ ¬ Other s a)
  | .shutdown => s.timer = none
  | .tick _ | .set _ _ | .timeout | .fire | .ret | .finish => True

theorem erase_ne_nil {s : AlarmEngine} {a : AlarmCB} :
    (s.alarmMap.erase (s.alarms a).token).entries ≠ [] ↔ Other s a := by
  constructor
  · intro h
    obtain ⟨e, he⟩ := List.exists_mem_of_ne_nil _ h
    exact ⟨e, Multimap.mem_erase.1 he⟩
  · rintro ⟨e, he⟩
    exact List.ne_nil_of_mem (Multimap.mem_erase.2 he)

/-! ## The calls -/

/-- `RegisterAlarm` leaves the timer right. -/
theorem Inv.register_ok {s : AlarmEngine} (h : Inv s) (timeout : Int) (ac : AlarmCB) :
    ∃ t, s.registerAlarm timeout ac = some t ∧ TimerOk t := by
  obtain ⟨timer, heq, hne, hT⟩ := registerAlarm_spec h timeout ac
  refine ⟨_, heq, fun _ => ?_⟩
  obtain ⟨T, rfl⟩ := Option.ne_none_iff_exists'.1 hne
  exact ⟨T, rfl, (hT T rfl).2⟩

theorem Inv.update_ok {s : AlarmEngine} (h : Inv s) (a : AlarmCB) (deadline : Int) :
    CallOk s (.update a deadline) ↔ CallCond s (.update a deadline) := by
  by_cases hreg : (s.alarms a).registered = true
  · have hcall : s.call (.update a deadline) =
        (s.reregisterAlarm (s.alarms a).token deadline).map fun r =>
          r.1.setAlarm a { r.1.alarms a with token := r.2 } := by
      rw [call, updateImpl, if_pos hreg, if_pos (h.engine a hreg)]
    simp only [CallOk, CallCond, Post, hcall, Option.map_eq_some_iff]
    constructor
    · rintro ⟨t, ⟨r, hr, rfl⟩, -⟩ -
      obtain ⟨i, timer, hi, htoken, rfl, hother, hpast, -⟩ := reregisterAlarm_eq_some h hr
      rw [htoken] at hother
      exact ⟨⟨i, hi, htoken⟩, erase_ne_nil.1 hother, hpast⟩
    · intro hcond
      obtain ⟨⟨i, hi, htoken⟩, hother, hpast⟩ := hcond hreg
      rw [← erase_ne_nil, ← htoken] at hother
      obtain ⟨timer, heq, hne, hT⟩ := reregisterAlarm_spec h hi deadline hother hpast
      rw [htoken] at heq
      refine ⟨_, ⟨_, heq, rfl⟩, fun _ => ?_⟩
      obtain ⟨T, rfl⟩ := Option.ne_none_iff_exists'.1 hne
      refine ⟨T, rfl, fun e he => (hT T rfl).2 e ?_⟩
      rw [htoken]
      exact he
  · have hcall : s.call (.update a deadline) = s.registerAlarm deadline a := by
      rw [call, updateImpl, if_neg hreg]
    simp only [CallOk, CallCond, Post, hcall]
    exact ⟨fun _ h => absurd h hreg, fun _ => h.register_ok deadline a⟩

theorem Inv.cancel_ok {s : AlarmEngine} (h : Inv s) (a : AlarmCB) :
    CallOk s (.cancel a) ↔ CallCond s (.cancel a) := by
  by_cases hreg : (s.alarms a).registered = true
  · have hcall : s.call (.cancel a) = s.unregisterAlarm (s.alarms a).token := by
      rw [call, cancelImpl, if_pos hreg, if_pos (h.engine a hreg)]
    simp only [CallOk, CallCond, Post, hcall]
    constructor
    · rintro ⟨t, ht, hpost⟩ -
      obtain ⟨i, hi, htoken, rfl⟩ := unregisterAlarm_eq_some.1 ht
      refine ⟨⟨i, hi, htoken⟩, or_iff_not_imp_left.2 fun hnone hother => ?_⟩
      obtain ⟨T, hT, -⟩ := hpost hreg (erase_ne_nil.2 hother)
      exact absurd hT (by simp [not_not.1 hnone])
    · intro hcond
      obtain ⟨⟨i, hi, htoken⟩, hor⟩ := hcond hreg
      refine ⟨_, unregisterAlarm_eq_some.2 ⟨i, hi, htoken, rfl⟩, fun _ hne => ?_⟩
      rcases hor with hrun | hno
      · obtain ⟨T, hT⟩ := Option.ne_none_iff_exists'.1 hrun
        exact ⟨T, hT, fun e he => (h.timer T hT).2 e (Multimap.mem_erase.1 he).1⟩
      · exact absurd (erase_ne_nil.1 hne) hno
  · have hcall : s.call (.cancel a) = some s := by
      rw [call, cancelImpl, if_neg hreg]
    simp only [CallOk, CallCond, Post, hcall]
    exact ⟨fun _ h => absurd h hreg, fun _ => ⟨s, rfl, fun h => absurd h hreg⟩⟩

/-- The end of `OnTimeout` leaves the timer right. -/
theorem Inv.finish_ok {s : AlarmEngine} (h : Inv s) : CallOk s .finish := by
  obtain ⟨timer, heq, hne, hinv⟩ := h.finish
  refine ⟨_, heq, fun hentries => ?_⟩
  obtain ⟨T, rfl⟩ := Option.ne_none_iff_exists'.1 (hne hentries)
  exact ⟨T, rfl, (hinv.timer T rfl).2⟩

/-- **The timer.**  In every reachable state, an operation passes all assertions and leaves
the timer right exactly when `CallCond` holds before it. -/
theorem alarm_timer (now : Nat) (ops : List Op) (s : AlarmEngine)
    (hrun : runs step (AlarmEngine.new now) ops = some s) (op : Op) (hop : s.enabled op = true) :
    CallOk s op ↔ CallCond s op := by
  have h : Inv s := runs_invariant (fun _ _ _ hs hst => Inv.step hs hst) (Inv.new now) hrun
  cases op with
  | set a deadline => exact ⟨fun _ => trivial, fun _ => h.register_ok deadline a⟩
  | update a deadline => exact h.update_ok a deadline
  | cancel a => exact h.cancel_ok a
  | finish => exact ⟨fun _ => trivial, fun _ => h.finish_ok⟩
  | shutdown =>
    constructor
    · rintro ⟨t, ht, hpost⟩
      cases ht
      exact hpost
    · exact fun hnone => ⟨s.shutdown, rfl, hnone⟩
  | fire =>
    refine ⟨fun _ => trivial, fun _ => ?_⟩
    simp only [enabled] at hop
    split at hop
    · rename_i hphase
      exact ⟨_, by rw [call, hphase], trivial⟩
    · cases hop
  | tick ns => exact ⟨fun _ => trivial, fun _ => ⟨_, rfl, trivial⟩⟩
  | timeout => exact ⟨fun _ => trivial, fun _ => ⟨_, rfl, trivial⟩⟩
  | ret => exact ⟨fun _ => trivial, fun _ => ⟨_, rfl, trivial⟩⟩

theorem alarm_timer_set : ∃ s, runs step (AlarmEngine.new 0) [.set 0 10] = some s ∧
    CallOk s (.set 1 5) := by
  have hsome : (runs step (AlarmEngine.new 0) [.set 0 10]).isSome = true := by decide
  obtain ⟨s, hs⟩ := Option.isSome_iff_exists.1 hsome
  have hen : (runs step (AlarmEngine.new 0) [.set 0 10]).map (fun s => s.enabled (.set 1 5)) =
      some true := by decide
  rw [hs] at hen
  exact ⟨s, hs, (alarm_timer 0 _ s hs (.set 1 5) (Option.some.inj hen)).2 trivial⟩

/-- The only alarm is moved from 10 to 20 µs: the assertion on the map fails.  And a
shutdown with an alarm set leaves the timer pending. -/
theorem only_alarm_fails : ∃ s, runs step (AlarmEngine.new 0) [.set 0 10] = some s ∧
    s.enabled (.update 0 20) = true ∧ ¬ CallOk s (.update 0 20) ∧
    s.enabled .shutdown = true ∧ ¬ CallOk s .shutdown := by
  have hrun : ((runs step (AlarmEngine.new 0) [.set 0 10]).map fun s =>
      (s.enabled (.update 0 20), s.enabled .shutdown, (s.call (.update 0 20)).isNone, s.timer)) =
        some (true, true, true, some 10000) := by decide
  obtain ⟨s, hs, hobs⟩ := Option.map_eq_some_iff.1 hrun
  simp only [Prod.mk.injEq, Option.isNone_iff_eq_none] at hobs
  obtain ⟨hupdate, hshutdown, hnone, htimer⟩ := hobs
  refine ⟨s, hs, hupdate, ?_, hshutdown, ?_⟩
  · rintro ⟨t, ht, -⟩
    rw [hnone] at ht
    cases ht
  · rintro ⟨t, ht, hpost⟩
    cases ht
    exact absurd (htimer.symm.trans hpost) (by simp)

end AlarmEngine

end InNetworkAgg
