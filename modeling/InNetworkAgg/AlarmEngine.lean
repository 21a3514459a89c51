import InNetworkAgg.Lib.Multimap
import InNetworkAgg.Lib.PartialRun

/-!
# The alarm engine (quic/model/ns3-quic-alarm-engine.cc)

`Ns3QuicAlarmEngine` keeps the alarms in a multimap by deadline and one timer for
the first of them.  `OnTimeout` is cut at its callbacks: `timeout` takes the due
alarms out of the map, `fire` enters the callback of the next one, `ret` leaves it and
`finish` sets the timer again.  Between `fire` and `ret`, and while no timeout is
handled, alarms are set, updated and cancelled.

Times of the simulator are in nanoseconds, deadlines in microseconds.  A step has no
result where an assertion fails or an iterator that denotes nothing is used.
-/

namespace InNetworkAgg

/-! ## Data -/

/-- An `AlarmCB*`; two alarms have different addresses. -/
abbrev AlarmCB := Nat

structure BaseAlarm where
  /-- the token of the entry in `alarm_map_` -/
  token : Nat
  /-- whether `engine_` points to the engine -/
  engine : Bool
  registered : Bool
deriving DecidableEq, Repr

/-- How far `OnTimeout` is: not running, before the callback of the first of `cbs`, or
in a callback with `cbs` behind it. -/
inductive Phase where
  | idle
  | between (cbs : List AlarmCB)
  | running (cbs : List AlarmCB)
deriving DecidableEq, Repr

def Phase.cbs : Phase → List AlarmCB
  | .idle => []
  | .between cbs => cbs
  | .running cbs => cbs

structure AlarmEngine where
  /-- `Simulator::Now` -/
  now : Nat
  /-- when the event of `timer_` is due, if it is pending -/
  timer : Option Nat
  alarmMap : Multimap Int AlarmCB
  allAlarms : Finset AlarmCB
  alarms : AlarmCB → BaseAlarm
  phase : Phase

namespace BaseAlarm

def onAlarm (a : BaseAlarm) : BaseAlarm := { a with registered := false }

def onRegistration (a : BaseAlarm) (token : Nat) : BaseAlarm :=
  { a with token := token, engine := true, registered := true }

def onUnregistration (a : BaseAlarm) : BaseAlarm := { a with registered := false }

def onShutdown (a : BaseAlarm) : BaseAlarm := { a with registered := false, engine := false }

end BaseAlarm

namespace AlarmEngine

/-! ## The engine -/

/-- A new engine; `alarms` are the `BaseAlarm`s made for it, none registered yet. -/
def new (now : Nat) : AlarmEngine where
  now := now
  timer := none
  alarmMap := .empty 1
  allAlarms := ∅
  alarms := fun _ => { token := 0, engine := false, registered := false }
  phase := .idle

/-- `Now().GetMicroSeconds()` -/
def nowUs (s : AlarmEngine) : Int := (s.now / 1000 : Nat)

def setAlarm (s : AlarmEngine) (cb : AlarmCB) (a : BaseAlarm) : AlarmEngine :=
  { s with alarms := Function.update s.alarms cb a }

def updateTimer (s : AlarmEngine) : Option AlarmEngine :=
  match s.alarmMap.first with
  | none => some { s with timer := none }
  | some i =>
    if s.nowUs ≤ i.key then some { s with timer := some (s.now + 1000 * (i.key - s.nowUs).toNat) }
    else none

def registerAlarm (s : AlarmEngine) (timeout : Int) (ac : AlarmCB) : Option AlarmEngine :=
  let timeout := if timeout < s.nowUs then s.nowUs else timeout
  let update := match s.alarmMap.first with
    | none => true
    | some i => decide (timeout < i.key)
  let s :=
    if ac ∉ s.allAlarms then
      { s with
        alarmMap := s.alarmMap.insert timeout ac
        allAlarms := insert ac s.allAlarms
        alarms := Function.update s.alarms ac ((s.alarms ac).onRegistration s.alarmMap.next) }
    else s
  if s.timer = none ∨ update = true then s.updateTimer else some s

def unregisterAlarm (s : AlarmEngine) (token : Nat) : Option AlarmEngine :=
  (s.alarmMap.find token).map fun i =>
    { s with
      alarmMap := s.alarmMap.erase token
      allAlarms := s.allAlarms.erase i.value
      alarms := Function.update s.alarms i.value (s.alarms i.value).onUnregistration }

/-- The engine and the token it returns. -/
def reregisterAlarm (s : AlarmEngine) (token : Nat) (timeout : Int) : Option (AlarmEngine × Nat) := do
  let i ← s.alarmMap.find token
  let map := s.alarmMap.erase token
  let next ← map.first
  let ret := map.next
  let s := { s with alarmMap := map.insert timeout i.value }
  let s ← if s.timer = none ∨ timeout < next.key then s.updateTimer else some s
  if s.timer ≠ none then some (s, ret) else none

/-- `Shutdown` does not look at `timer_`. -/
def shutdown (s : AlarmEngine) : AlarmEngine :=
  let cbs := s.alarmMap.entries.map (·.value)
  { s with
    alarmMap := .empty s.alarmMap.next
    allAlarms := s.allAlarms.filter (· ∉ cbs)
    alarms := fun cb => if cb ∈ cbs then (s.alarms cb).onShutdown else s.alarms cb }

/-! ## `OnTimeout` -/

/-- The event of `timer_` executes: the due alarms leave the map. -/
def timeout (s : AlarmEngine) : AlarmEngine :=
  let due := (s.alarmMap.upTo s.nowUs).map (·.value)
  { s with
    timer := none
    alarmMap := s.alarmMap.after s.nowUs
    allAlarms := s.allAlarms.filter (· ∉ due)
    phase := .between due }

/-- `Ns3AlarmImpl::OnAlarm` up to `Fire`. -/
def fire (s : AlarmEngine) (cb : AlarmCB) (cbs : List AlarmCB) : AlarmEngine :=
  { s.setAlarm cb (s.alarms cb).onAlarm with phase := .running cbs }

/-! ## `Ns3Alarm` -/

/-- `SetImpl` -/
def setImpl (s : AlarmEngine) (a : AlarmCB) (deadline : Int) : Option AlarmEngine :=
  s.registerAlarm deadline a

/-- `CancelImpl` -/
def cancelImpl (s : AlarmEngine) (a : AlarmCB) : Option AlarmEngine :=
  if (s.alarms a).registered then
    if (s.alarms a).engine then s.unregisterAlarm (s.alarms a).token else none
  else some s

/-- `UpdateImpl` -/
def updateImpl (s : AlarmEngine) (a : AlarmCB) (deadline : Int) : Option AlarmEngine :=
  if (s.alarms a).registered then
    if (s.alarms a).engine then
      (s.reregisterAlarm (s.alarms a).token deadline).map fun r =>
        r.1.setAlarm a { r.1.alarms a with token := r.2 }
    else none
  else s.registerAlarm deadline a

/-! ## Steps -/

inductive Op where
  /-- nothing happens for some nanoseconds -/
  | tick (ns : Nat)
  | set (a : AlarmCB) (deadline : Int)
  | update (a : AlarmCB) (deadline : Int)
  | cancel (a : AlarmCB)
  | shutdown
  | timeout
  | fire
  | ret
  | finish
deriving DecidableEq, Repr

/-- The alarms that left the map in this timeout and whose callback has not begun. -/
abbrev waiting (s : AlarmEngine) : List AlarmCB := s.phase.cbs

/-- When an operation can happen: alarms are used by callbacks and, while no timeout is
handled, by other events; a pending timer is not passed over. -/
def enabled (s : AlarmEngine) : Op → Bool
  | .tick ns => decide (s.phase = .idle) && s.timer.all fun t => decide (s.now + ns ≤ t)
  | .set _ _ | .update _ _ | .cancel _ =>
    match s.phase with
    | .between _ => false
    | _ => true
  | .shutdown => decide (s.phase = .idle)
  | .timeout => decide (s.phase = .idle) && decide (s.timer = some s.now)
  | .fire =>
    match s.phase with
    | .between (_ :: _) => true
    | _ => false
  | .ret =>
    match s.phase with
    | .running _ => true
    | _ => false
  | .finish => decide (s.phase = .between [])

/-- What an operation does.  An `Ns3AlarmImpl` returns 0 from `OnAlarm`, so its loop runs
once and does not register it. -/
def call (s : AlarmEngine) : Op → Option AlarmEngine
  | .tick ns => some { s with now := s.now + ns }
  | .set a deadline => s.setImpl a deadline
  | .update a deadline => s.updateImpl a deadline
  | .cancel a => s.cancelImpl a
  | .shutdown => some s.shutdown
  | .timeout => some s.timeout
  | .fire =>
    match s.phase with
    | .between (cb :: cbs) => some (s.fire cb cbs)
    | _ => none
  | .ret => some { s with phase := .between s.waiting }
  | .finish => { s with phase := .idle }.updateTimer

def step (s : AlarmEngine) (op : Op) : Option AlarmEngine :=
  if s.enabled op then s.call op else none

theorem step_eq_some {s t : AlarmEngine} {op : Op} :
    s.step op = some t ↔ s.enabled op = true ∧ s.call op = some t := by
  rw [step]
  split <;> simp [*]

/-! ## What the operations do -/

/-- `UpdateTimer` with no deadline in the past. -/
theorem updateTimer_spec (s : AlarmEngine) (hdue : ∀ e ∈ s.alarmMap.entries, s.nowUs ≤ e.key) :
    ∃ timer, s.updateTimer = some { s with timer := timer } ∧
      (s.alarmMap.entries ≠ [] → timer ≠ none) ∧
      ∀ t, timer = some t → s.now ≤ t ∧ ∀ e ∈ s.alarmMap.entries, ((t / 1000 : Nat) : Int) ≤ e.key := by
  rw [updateTimer]
  cases hf : s.alarmMap.first with
  | none => exact ⟨none, rfl, fun h => absurd (Multimap.first_eq_none.1 hf) h, fun t h => nomatch h⟩
  | some i =>
    have hi := hdue i (Multimap.first_mem hf)
    refine ⟨some (s.now + 1000 * (i.key - s.nowUs).toNat), if_pos hi, fun _ => by simp, ?_⟩
    rintro t ⟨⟩
    refine ⟨Nat.le_add_right _ _, fun e he => ?_⟩
    have hle := Multimap.first_le hf e he
    have hdiv : (s.now + 1000 * (i.key - s.nowUs).toNat) / 1000 =
        s.now / 1000 + (i.key - s.nowUs).toNat := by omega
    rw [hdiv]
    rw [nowUs] at hi ⊢
    omega

/-- What every state keeps as long as the tokens that are used denote entries: no deadline
is in the past, a pending timer is not late, between timeouts the timer is pending for a
nonempty map, `all_alarms_` is the set of the alarms in the map, each once, and a
registered alarm knows the engine. -/
structure Inv (s : AlarmEngine) : Prop where
  due : ∀ e ∈ s.alarmMap.entries, s.nowUs ≤ e.key
  timer : ∀ t, s.timer = some t → s.now ≤ t ∧ ∀ e ∈ s.alarmMap.entries, ((t / 1000 : Nat) : Int) ≤ e.key
  armed : s.phase = .idle → s.alarmMap.entries ≠ [] → s.timer ≠ none
  listed : ∀ a, a ∈ s.allAlarms ↔ ∃ e ∈ s.alarmMap.entries, e.value = a
  single : ∀ e ∈ s.alarmMap.entries, ∀ e' ∈ s.alarmMap.entries, e.value = e'.value → e = e'
  engine : ∀ a, (s.alarms a).registered = true → (s.alarms a).engine = true

theorem Inv.new (now : Nat) : Inv (AlarmEngine.new now) where
  due := fun _ he => absurd he Multimap.mem_empty
  timer := fun _ h => nomatch h
  armed := fun _ h => absurd rfl h
  listed := fun a => ⟨fun h => absurd h (Finset.notMem_empty a),
    fun ⟨_, he, _⟩ => absurd he Multimap.mem_empty⟩
  single := fun _ he => absurd he Multimap.mem_empty
  engine := fun _ h => nomatch h

/-- The deadline an alarm is registered with. -/
def clamped (s : AlarmEngine) (timeout : Int) : Int := if timeout < s.nowUs then s.nowUs else timeout

/-- The engine with an entry for `ac`, before `RegisterAlarm` looks at the timer. -/
def added (s : AlarmEngine) (timeout : Int) (ac : AlarmCB) : AlarmEngine :=
  if ac ∉ s.allAlarms then
    { s with
      alarmMap := s.alarmMap.insert (s.clamped timeout) ac
      allAlarms := insert ac s.allAlarms
      alarms := Function.update s.alarms ac ((s.alarms ac).onRegistration s.alarmMap.next) }
  else s

theorem nowUs_le_clamped (s : AlarmEngine) (timeout : Int) : s.nowUs ≤ s.clamped timeout := by
  unfold clamped
  split <;> omega

theorem added_of_mem {s : AlarmEngine} {ac : AlarmCB} (h : ac ∈ s.allAlarms) (timeout : Int) :
    s.added timeout ac = s := if_neg (not_not.2 h)

theorem added_of_notMem {s : AlarmEngine} {ac : AlarmCB} (h : ac ∉ s.allAlarms) (timeout : Int) :
    s.added timeout ac =
      { s with
        alarmMap := s.alarmMap.insert (s.clamped timeout) ac
        allAlarms := insert ac s.allAlarms
        alarms := Function.update s.alarms ac ((s.alarms ac).onRegistration s.alarmMap.next) } :=
  if_pos h

theorem added_now (s : AlarmEngine) (timeout : Int) (ac : AlarmCB) :
    (s.added timeout ac).now = s.now := by
  unfold added
  split <;> rfl

theorem added_nowUs (s : AlarmEngine) (timeout : Int) (ac : AlarmCB) :
    (s.added timeout ac).nowUs = s.nowUs := by
  rw [nowUs, added_now, nowUs]

theorem added_timer (s : AlarmEngine) (timeout : Int) (ac : AlarmCB) :
    (s.added timeout ac).timer = s.timer := by
  unfold added
  split <;> rfl

theorem mem_of_mem_added {s : AlarmEngine} {timeout : Int} {ac : AlarmCB}
    {e : Multimap.Entry Int AlarmCB} (he : e ∈ (s.added timeout ac).alarmMap.entries) :
    e ∈ s.alarmMap.entries ∨ e.key = s.clamped timeout := by
  by_cases hac : ac ∈ s.allAlarms
  · rw [added_of_mem hac] at he
    exact .inl he
  · rw [added_of_notMem hac] at he
    rcases Multimap.mem_insert.1 he with rfl | he
    · exact .inr rfl
    · exact .inl he

theorem Inv.added_ne_nil {s : AlarmEngine} (h : Inv s) (timeout : Int) (ac : AlarmCB) :
    (s.added timeout ac).alarmMap.entries ≠ [] := by
  by_cases hac : ac ∈ s.allAlarms
  · rw [added_of_mem hac]
    obtain ⟨e, he, -⟩ := (h.listed ac).1 hac
    exact List.ne_nil_of_mem he
  · rw [added_of_notMem hac]
    exact List.ne_nil_of_mem (Multimap.mem_insert.2 (.inl rfl))

theorem Inv.added_due {s : AlarmEngine} (h : Inv s) (timeout : Int) (ac : AlarmCB) :
    ∀ e ∈ (s.added timeout ac).alarmMap.entries, (s.added timeout ac).nowUs ≤ e.key := by
  intro e he
  rw [added_nowUs]
  rcases mem_of_mem_added he with he | he
  · exact h.due e he
  · rw [he]
    exact s.nowUs_le_clamped timeout

/-- `RegisterAlarm` sets the timer, or leaves one that is pending because the deadline is
not before the first one. -/
theorem registerAlarm_cases (s : AlarmEngine) (timeout : Int) (ac : AlarmCB) :
    s.registerAlarm timeout ac = (s.added timeout ac).updateTimer ∨
      s.registerAlarm timeout ac = some (s.added timeout ac) ∧ s.timer ≠ none ∧
        ∃ i, s.alarmMap.first = some i ∧ i.key ≤ s.clamped timeout := by
  have hcall : s.registerAlarm timeout ac =
      if (s.added timeout ac).timer = none ∨ (match s.alarmMap.first with
        | none => true
        | some i => decide (s.clamped timeout < i.key)) = true
      then (s.added timeout ac).updateTimer else some (s.added timeout ac) := rfl
  rw [added_timer] at hcall
  cases hfirst : s.alarmMap.first with
  | none =>
    rw [hfirst, if_pos (.inr rfl)] at hcall
    exact .inl hcall
  | some i =>
    rw [hfirst] at hcall
    dsimp only at hcall
    by_cases hupdate : s.timer = none ∨ decide (s.clamped timeout < i.key) = true
    · rw [if_pos hupdate] at hcall
      exact .inl hcall
    · rw [if_neg hupdate] at hcall
      obtain ⟨hrun, hlate⟩ := not_or.1 hupdate
      exact .inr ⟨hcall, hrun, i, rfl, not_lt.1 fun h => hlate (decide_eq_true h)⟩

/-- A timer that was pending in time still is where no deadline has become the first. -/
theorem Inv.keep_timer {s : AlarmEngine} (h : Inv s) {entries : List (Multimap.Entry Int AlarmCB)}
    (hentries : ∀ e ∈ entries, ∃ e' ∈ s.alarmMap.entries, e'.key ≤ e.key) :
    ∀ T, s.timer = some T → s.now ≤ T ∧ ∀ e ∈ entries, ((T / 1000 : Nat) : Int) ≤ e.key := by
  intro T hT
  obtain ⟨hle, hkeys⟩ := h.timer T hT
  refine ⟨hle, fun e he => ?_⟩
  obtain ⟨e', he', hkey⟩ := hentries e he
  exact (hkeys e' he').trans hkey

/-- `RegisterAlarm` always succeeds: it adds one entry for an alarm that has none, and
leaves the timer pending in time. -/
theorem registerAlarm_spec {s : AlarmEngine} (h : Inv s) (timeout : Int) (ac : AlarmCB) :
    ∃ timer, s.registerAlarm timeout ac = some { s.added timeout ac with timer := timer } ∧
      timer ≠ none ∧
      ∀ T, timer = some T → (s.added timeout ac).now ≤ T ∧
        ∀ e ∈ (s.added timeout ac).alarmMap.entries, ((T / 1000 : Nat) : Int) ≤ e.key := by
  rcases s.registerAlarm_cases timeout ac with hcall | ⟨hcall, hrun, i, hfirst, hlate⟩
  · obtain ⟨timer, heq, hsome, hT⟩ := updateTimer_spec _ (h.added_due timeout ac)
    exact ⟨timer, hcall.trans heq, hsome (h.added_ne_nil timeout ac), hT⟩
  · -- the old timer is early enough
    refine ⟨s.timer, ?_, hrun, ?_⟩
    · rw [hcall, ← added_timer s timeout ac]
    · rw [added_now]
      refine h.keep_timer fun e he => ?_
      rcases mem_of_mem_added he with he | he
      · exact ⟨e, he, le_rfl⟩
      · exact ⟨i, Multimap.first_mem hfirst, he ▸ hlate⟩

theorem unregisterAlarm_eq_some {s t : AlarmEngine} {token : Nat} :
    s.unregisterAlarm token = some t ↔ ∃ i ∈ s.alarmMap.entries, i.token = token ∧
      t = { s with
        alarmMap := s.alarmMap.erase token
        allAlarms := s.allAlarms.erase i.value
        alarms := Function.update s.alarms i.value (s.alarms i.value).onUnregistration } := by
  rw [unregisterAlarm, Option.map_eq_some_iff]
  constructor
  · rintro ⟨i, hi, rfl⟩
    obtain ⟨hmem, htoken⟩ := Multimap.find_eq_some.1 hi
    exact ⟨i, hmem, htoken, rfl⟩
  · rintro ⟨i, hmem, htoken, rfl⟩
    exact ⟨i, Multimap.find_eq_some.2 ⟨hmem, htoken⟩, rfl⟩

/-- `ReregisterAlarm` on an entry with another one in the map. -/
theorem reregisterAlarm_eq {s : AlarmEngine} {i next : Multimap.Entry Int AlarmCB}
    (hi : i ∈ s.alarmMap.entries) (timeout : Int)
    (hnext : (s.alarmMap.erase i.token).first = some next) :
    s.reregisterAlarm i.token timeout =
      (if s.timer = none ∨ timeout < next.key then
        { s with alarmMap := (s.alarmMap.erase i.token).insert timeout i.value }.updateTimer
      else some { s with alarmMap := (s.alarmMap.erase i.token).insert timeout i.value }).bind
        fun t => if t.timer ≠ none then some (t, s.alarmMap.next) else none := by
  rw [reregisterAlarm, Multimap.find_eq_some.2 ⟨hi, rfl⟩]
  simp only [Option.bind_eq_bind, Option.bind_some, hnext]
  split <;> rfl

/-- `ReregisterAlarm` works on an entry that is not the only one, for a deadline that is
not in the past. -/
theorem reregisterAlarm_spec {s : AlarmEngine} (h : Inv s) {i : Multimap.Entry Int AlarmCB}
    (hi : i ∈ s.alarmMap.entries) (timeout : Int)
    (hother : (s.alarmMap.erase i.token).entries ≠ []) (hpast : s.nowUs ≤ timeout) :
    ∃ timer, s.reregisterAlarm i.token timeout =
        some ({ s with
          alarmMap := (s.alarmMap.erase i.token).insert timeout i.value
          timer := timer }, s.alarmMap.next) ∧
      timer ≠ none ∧
      ∀ T, timer = some T → s.now ≤ T ∧
        ∀ e ∈ ((s.alarmMap.erase i.token).insert timeout i.value).entries,
          ((T / 1000 : Nat) : Int) ≤ e.key := by
  obtain ⟨next, hnext⟩ : ∃ next, (s.alarmMap.erase i.token).first = some next := by
    cases hf : (s.alarmMap.erase i.token).first with
    | none => exact absurd (Multimap.first_eq_none.1 hf) hother
    | some next => exact ⟨next, rfl⟩
  obtain ⟨t, ht⟩ : ∃ t, t = { s with
    alarmMap := (s.alarmMap.erase i.token).insert timeout i.value } := ⟨_, rfl⟩
  have hmem : ∀ e, e ∈ t.alarmMap.entries ↔
      e = { token := s.alarmMap.next, key := timeout, value := i.value } ∨
        (e ∈ s.alarmMap.entries ∧ e.token ≠ i.token) := by
    intro e
    rw [ht, Multimap.mem_insert, Multimap.mem_erase]
    rfl
  have hdue : ∀ e ∈ t.alarmMap.entries, t.nowUs ≤ e.key := by
    intro e he
    rw [show t.nowUs = s.nowUs by rw [ht]; rfl]
    rcases (hmem e).1 he with rfl | he
    · exact hpast
    · exact h.due e he.1
  have hcall := reregisterAlarm_eq hi timeout hnext
  rw [← ht] at hcall
  by_cases hupdate : t.timer = none ∨ timeout < next.key
  · obtain ⟨timer, heq, hsome, hT⟩ := updateTimer_spec t hdue
    have hne := hsome (List.ne_nil_of_mem ((hmem _).2 (Or.inl rfl)))
    refine ⟨timer, ?_, hne, ?_⟩
    · rw [hcall, show s.timer = t.timer by rw [ht], if_pos hupdate, heq, Option.bind_some,
        if_pos hne, ht]
    · rw [ht] at hT
      exact hT
  · obtain ⟨hrun, hlate⟩ := not_or.1 hupdate
    refine ⟨s.timer, ?_, by rw [ht] at hrun; exact hrun, fun T hT => ?_⟩
    · rw [hcall, show s.timer = t.timer by rw [ht], if_neg hupdate, Option.bind_some,
        if_pos hrun, ht]
    · rw [ht] at hmem
      refine h.keep_timer (fun e he => ?_) T hT
      rcases (hmem e).1 he with rfl | he
      · exact ⟨next, (Multimap.mem_erase.1 (Multimap.first_mem hnext)).1, not_lt.1 hlate⟩
      · exact ⟨e, he.1, le_rfl⟩

/-- The assertion on the map fails for the only entry. -/
theorem reregisterAlarm_only {s : AlarmEngine} {i : Multimap.Entry Int AlarmCB}
    (hi : i ∈ s.alarmMap.entries) (timeout : Int)
    (honly : (s.alarmMap.erase i.token).entries = []) : s.reregisterAlarm i.token timeout = none := by
  rw [reregisterAlarm, Multimap.find_eq_some.2 ⟨hi, rfl⟩]
  simp only [Option.bind_eq_bind, Option.bind_some, Multimap.first_eq_none.2 honly]
  rfl

/-- The assertion of `UpdateTimer` fails for a deadline in the past. -/
theorem reregisterAlarm_past {s : AlarmEngine} (h : Inv s) {i : Multimap.Entry Int AlarmCB}
    (hi : i ∈ s.alarmMap.entries) (timeout : Int) (hpast : timeout < s.nowUs) :
    s.reregisterAlarm i.token timeout = none := by
  cases hf : (s.alarmMap.erase i.token).first with
  | none => exact reregisterAlarm_only hi timeout (Multimap.first_eq_none.1 hf)
  | some next =>
    have hnext := h.due next (Multimap.mem_erase.1 (Multimap.first_mem hf)).1
    rw [reregisterAlarm_eq hi timeout hf, if_pos (Or.inr (by omega)), updateTimer]
    simp only
    cases hfirst : ((s.alarmMap.erase i.token).insert timeout i.value).first with
    | none =>
      rw [Multimap.first_eq_none] at hfirst
      exact absurd hfirst (List.ne_nil_of_mem (Multimap.mem_insert.2 (Or.inl rfl)))
    | some j =>
      have hj := Multimap.first_le hfirst _ (Multimap.mem_insert.2 (Or.inl rfl))
      simp only at hj ⊢
      rw [if_neg (by show ¬ s.nowUs ≤ j.key; omega)]
      rfl

theorem reregisterAlarm_eq_some {s : AlarmEngine} (h : Inv s) {token : Nat} {timeout : Int}
    {r : AlarmEngine × Nat} (hr : s.reregisterAlarm token timeout = some r) :
    ∃ i timer, i ∈ s.alarmMap.entries ∧ i.token = token ∧
      r = ({ s with
        alarmMap := (s.alarmMap.erase i.token).insert timeout i.value
        timer := timer }, s.alarmMap.next) ∧
      (s.alarmMap.erase i.token).entries ≠ [] ∧ s.nowUs ≤ timeout ∧ timer ≠ none ∧
      ∀ T, timer = some T → s.now ≤ T ∧
        ∀ e ∈ ((s.alarmMap.erase i.token).insert timeout i.value).entries,
          ((T / 1000 : Nat) : Int) ≤ e.key := by
  cases hf : s.alarmMap.find token with
  | none =>
    rw [reregisterAlarm, hf] at hr
    cases hr
  | some i =>
    obtain ⟨hi, rfl⟩ := Multimap.find_eq_some.1 hf
    have hother : (s.alarmMap.erase i.token).entries ≠ [] := by
      intro honly
      rw [reregisterAlarm_only hi timeout honly] at hr
      cases hr
    have hpast : s.nowUs ≤ timeout := by
      by_contra hlt
      rw [reregisterAlarm_past h hi timeout (by omega)] at hr
      cases hr
    obtain ⟨timer, heq, hne, hT⟩ := reregisterAlarm_spec h hi timeout hother hpast
    rw [heq] at hr
    exact ⟨i, timer, hi, rfl, (Option.some.inj hr).symm, hother, hpast, hne, hT⟩

theorem updateImpl_cases {s t : AlarmEngine} {a : AlarmCB} {deadline : Int}
    (h : s.updateImpl a deadline = some t) :
    (s.alarms a).registered = true ∧ (∃ r, s.reregisterAlarm (s.alarms a).token deadline = some r ∧
        t = r.1.setAlarm a { r.1.alarms a with token := r.2 }) ∨
      (s.alarms a).registered ≠ true ∧ s.registerAlarm deadline a = some t := by
  unfold updateImpl at h
  by_cases hreg : (s.alarms a).registered = true
  · rw [if_pos hreg] at h
    split at h
    · obtain ⟨r, hr, ht⟩ := Option.map_eq_some_iff.1 h
      exact .inl ⟨hreg, r, hr, ht.symm⟩
    · cases h
  · rw [if_neg hreg] at h
    exact .inr ⟨hreg, h⟩

theorem cancelImpl_cases {s t : AlarmEngine} {a : AlarmCB} (h : s.cancelImpl a = some t) :
    s.unregisterAlarm (s.alarms a).token = some t ∨ t = s := by
  unfold cancelImpl at h
  split at h
  · split at h
    · exact .inl h
    · cases h
  · exact .inr (Option.some.inj h).symm

theorem call_fire_cases {s t : AlarmEngine} (h : s.call .fire = some t) :
    ∃ cb cbs, s.phase = .between (cb :: cbs) ∧ t = s.fire cb cbs := by
  unfold call at h
  dsimp only at h
  split at h
  · rename_i cb cbs hphase
    exact ⟨cb, cbs, hphase, (Option.some.inj h).symm⟩
  · cases h

/-! ## The invariant -/

/-- One alarm changes; if it is registered now, it knows the engine. -/
theorem Inv.engine_update {s : AlarmEngine} (h : Inv s) (cb : AlarmCB) {b : BaseAlarm}
    (hb : b.registered = true → b.engine = true) (a : AlarmCB) :
    (Function.update s.alarms cb b a).registered = true →
      (Function.update s.alarms cb b a).engine = true := by
  by_cases hne : a = cb
  · subst hne
    simpa using hb
  · simpa [Function.update_of_ne hne] using h.engine a

theorem Inv.added_listed {s : AlarmEngine} (h : Inv s) (timeout : Int) (ac a : AlarmCB) :
    a ∈ (s.added timeout ac).allAlarms ↔
      ∃ e ∈ (s.added timeout ac).alarmMap.entries, e.value = a := by
  by_cases hac : ac ∈ s.allAlarms
  · rw [added_of_mem hac]
    exact h.listed a
  · rw [added_of_notMem hac]
    simp only [Finset.mem_insert, Multimap.mem_insert, h.listed]
    constructor
    · rintro (rfl | ⟨e, he, rfl⟩)
      · exact ⟨_, .inl rfl, rfl⟩
      · exact ⟨e, .inr he, rfl⟩
    · rintro ⟨e, rfl | he, rfl⟩
      · exact .inl rfl
      · exact .inr ⟨e, he, rfl⟩

theorem Inv.added_single {s : AlarmEngine} (h : Inv s) (timeout : Int) (ac : AlarmCB) :
    ∀ e ∈ (s.added timeout ac).alarmMap.entries, ∀ e' ∈ (s.added timeout ac).alarmMap.entries,
      e.value = e'.value → e = e' := by
  by_cases hac : ac ∈ s.allAlarms
  · rw [added_of_mem hac]
    exact h.single
  · rw [added_of_notMem hac]
    have hnew : ∀ e ∈ s.alarmMap.entries, e.value ≠ ac := fun e he hv =>
      hac ((h.listed ac).2 ⟨e, he, hv⟩)
    intro e he e' he' hv
    rcases Multimap.mem_insert.1 he with rfl | he
    · rcases Multimap.mem_insert.1 he' with rfl | he'
      · rfl
      · exact absurd hv.symm (hnew e' he')
    · rcases Multimap.mem_insert.1 he' with rfl | he'
      · exact absurd hv (hnew e he)
      · exact h.single e he e' he' hv

theorem Inv.register {s t : AlarmEngine} (h : Inv s) {timeout : Int} {ac : AlarmCB}
    (ht : s.registerAlarm timeout ac = some t) : Inv t := by
  obtain ⟨timer, heq, hne, hT⟩ := registerAlarm_spec h timeout ac
  rw [heq] at ht
  cases ht
  refine ⟨h.added_due timeout ac, hT, fun _ _ => hne, h.added_listed timeout ac,
    h.added_single timeout ac, ?_⟩
  unfold added
  split
  · exact h.engine_update ac fun _ => rfl
  · exact h.engine

theorem Inv.setToken {s : AlarmEngine} (h : Inv s) (a : AlarmCB) (token : Nat) :
    Inv (s.setAlarm a { s.alarms a with token := token }) :=
  ⟨h.due, h.timer, h.armed, h.listed, h.single, h.engine_update a (h.engine a)⟩

theorem Inv.fire {s : AlarmEngine} (h : Inv s) (cb : AlarmCB) (cbs : List AlarmCB) :
    Inv (s.fire cb cbs) :=
  ⟨h.due, h.timer, fun hidle => (nomatch hidle), h.listed, h.single,
    h.engine_update cb fun hreg => (nomatch hreg)⟩

theorem Inv.unregister {s t : AlarmEngine} (h : Inv s) {token : Nat}
    (ht : s.unregisterAlarm token = some t) : Inv t := by
  obtain ⟨i, hi, rfl, rfl⟩ := unregisterAlarm_eq_some.1 ht
  refine ⟨fun e he => h.due e (Multimap.mem_erase.1 he).1,
    fun T hT => ⟨(h.timer T hT).1, fun e he => (h.timer T hT).2 e (Multimap.mem_erase.1 he).1⟩,
    fun hidle hne => h.armed hidle ?_, fun a => ?_, fun e he e' he' hv =>
      h.single e (Multimap.mem_erase.1 he).1 e' (Multimap.mem_erase.1 he').1 hv,
    h.engine_update i.value fun hreg => (nomatch hreg)⟩
  · obtain ⟨e, he⟩ := List.exists_mem_of_ne_nil _ hne
    exact List.ne_nil_of_mem (Multimap.mem_erase.1 he).1
  · simp only [Finset.mem_erase, Multimap.mem_erase, h.listed]
    constructor
    · rintro ⟨hne, e, he, rfl⟩
      exact ⟨e, ⟨he, fun htoken => hne (by rw [Multimap.token_inj he hi htoken])⟩, rfl⟩
    · rintro ⟨e, ⟨he, htoken⟩, rfl⟩
      exact ⟨fun hv => htoken (by rw [h.single e he i hi hv]), e, he, rfl⟩

theorem Inv.reregister {s : AlarmEngine} (h : Inv s) {token : Nat} {timeout : Int}
    {r : AlarmEngine × Nat} (hr : s.reregisterAlarm token timeout = some r) : Inv r.1 := by
  obtain ⟨i, timer, hi, rfl, rfl, -, hpast, hne, hT⟩ := reregisterAlarm_eq_some h hr
  have hmem : ∀ e, e ∈ ((s.alarmMap.erase i.token).insert timeout i.value).entries ↔
      e = { token := s.alarmMap.next, key := timeout, value := i.value } ∨
        (e ∈ s.alarmMap.entries ∧ e.token ≠ i.token) := by
    intro e
    rw [Multimap.mem_insert, Multimap.mem_erase]
    rfl
  have hrest : ∀ e ∈ s.alarmMap.entries, e.token ≠ i.token → e.value ≠ i.value :=
    fun e he htoken hv => htoken (by rw [h.single e he i hi hv])
  refine ⟨fun e he => ?_, hT, fun _ _ => hne, fun a => ?_, fun e he e' he' hv => ?_, h.engine⟩
  · rcases (hmem e).1 he with rfl | he
    · exact hpast
    · exact h.due e he.1
  · rw [h.listed]
    constructor
    · rintro ⟨e, he, rfl⟩
      by_cases htoken : e.token = i.token
      · exact ⟨_, (hmem _).2 (Or.inl rfl), by rw [Multimap.token_inj he hi htoken]⟩
      · exact ⟨e, (hmem e).2 (Or.inr ⟨he, htoken⟩), rfl⟩
    · rintro ⟨e, he, rfl⟩
      rcases (hmem e).1 he with rfl | he
      · exact ⟨i, hi, rfl⟩
      · exact ⟨e, he.1, rfl⟩
  · rcases (hmem e).1 he with rfl | he
    · rcases (hmem e').1 he' with rfl | he'
      · rfl
      · exact absurd hv.symm (hrest e' he'.1 he'.2)
    · rcases (hmem e').1 he' with rfl | he'
      · exact absurd hv (hrest e he.1 he.2)
      · exact h.single e he.1 e' he'.1 hv

theorem Inv.shutdown {s : AlarmEngine} (h : Inv s) : Inv s.shutdown where
  due := fun _ he => absurd he Multimap.mem_empty
  timer := fun T hT => ⟨(h.timer T hT).1, fun _ he => absurd he Multimap.mem_empty⟩
  armed := fun _ hne => absurd rfl hne
  listed := by
    intro a
    simp only [AlarmEngine.shutdown, Finset.mem_filter, h.listed, List.mem_map, Multimap.mem_empty]
    constructor
    · rintro ⟨⟨e, he, rfl⟩, hno⟩
      exact absurd ⟨e, he, rfl⟩ hno
    · rintro ⟨e, he, -⟩
      exact absurd he id
  single := fun _ he => absurd he Multimap.mem_empty
  engine := by
    intro a
    simp only [AlarmEngine.shutdown]
    split
    · intro hreg
      cases hreg
    · exact h.engine a

theorem Inv.timeout {s : AlarmEngine} (h : Inv s) : Inv s.timeout where
  due := fun e he => h.due e (Multimap.mem_after.1 he).1
  timer := fun _ hT => nomatch hT
  armed := fun hidle => nomatch hidle
  listed := by
    intro a
    simp only [AlarmEngine.timeout, Finset.mem_filter, h.listed, List.mem_map, Multimap.mem_upTo,
      Multimap.mem_after]
    constructor
    · rintro ⟨⟨e, he, rfl⟩, hno⟩
      exact ⟨e, ⟨he, not_le.1 fun hle => hno ⟨e, ⟨he, hle⟩, rfl⟩⟩, rfl⟩
    · rintro ⟨e, ⟨he, hlt⟩, rfl⟩
      refine ⟨⟨e, he, rfl⟩, ?_⟩
      rintro ⟨e', ⟨he', hle⟩, hv⟩
      rw [h.single e' he' e he hv] at hle
      exact absurd hle (not_le.2 hlt)
  single := fun e he e' he' hv =>
    h.single e (Multimap.mem_after.1 he).1 e' (Multimap.mem_after.1 he').1 hv
  engine := h.engine

/-- `UpdateTimer` at the end of `OnTimeout`. -/
theorem Inv.finish {s : AlarmEngine} (h : Inv s) :
    ∃ timer, { s with phase := .idle }.updateTimer = some { s with phase := .idle, timer := timer } ∧
      (s.alarmMap.entries ≠ [] → timer ≠ none) ∧ Inv { s with phase := .idle, timer := timer } := by
  obtain ⟨timer, heq, hne, hT⟩ := updateTimer_spec { s with phase := .idle } h.due
  exact ⟨timer, heq, hne, h.due, hT, fun _ => hne, h.listed, h.single, h.engine⟩

/-- Time passes up to the timer, so no deadline falls behind. -/
theorem Inv.tick {s : AlarmEngine} (h : Inv s) {ns : Nat} (hidle : s.phase = .idle)
    (hle : ∀ T, s.timer = some T → s.now + ns ≤ T) : Inv { s with now := s.now + ns } where
  due := by
    intro e he
    cases ht : s.timer with
    | none => exact absurd ht (h.armed hidle (List.ne_nil_of_mem he))
    | some T =>
      have h1 := (h.timer T ht).2 e he
      have h2 := Nat.div_le_div_right (c := 1000) (hle T ht)
      show (((s.now + ns) / 1000 : Nat) : Int) ≤ e.key
      omega
  timer := fun T hT => ⟨hle T hT, (h.timer T hT).2⟩
  armed := h.armed
  listed := h.listed
  single := h.single
  engine := h.engine

theorem Inv.step {s t : AlarmEngine} (h : Inv s) {op : Op} (hst : s.step op = some t) : Inv t := by
  obtain ⟨hen, hcall⟩ := step_eq_some.1 hst
  cases op with
  | tick ns =>
    simp only [enabled, Bool.and_eq_true, decide_eq_true_eq] at hen
    cases hcall
    refine h.tick hen.1 fun T hT => ?_
    rw [hT] at hen
    simpa using hen.2
  | set a deadline => exact h.register hcall
  | update a deadline =>
    rcases updateImpl_cases hcall with ⟨-, r, hr, rfl⟩ | ⟨-, hcall⟩
    · exact (h.reregister hr).setToken a r.2
    · exact h.register hcall
  | cancel a =>
    rcases cancelImpl_cases hcall with hcall | rfl
    · exact h.unregister hcall
    · exact h
  | shutdown =>
    cases hcall
    exact h.shutdown
  | timeout =>
    cases hcall
    exact h.timeout
  | fire =>
    obtain ⟨cb, cbs, -, rfl⟩ := call_fire_cases hcall
    exact h.fire cb cbs
  | ret =>
    cases hcall
    exact ⟨h.due, h.timer, fun hidle => (nomatch hidle), h.listed, h.single, h.engine⟩
  | finish =>
    obtain ⟨timer, heq, -, hinv⟩ := h.finish
    rw [call, heq] at hcall
    cases hcall
    exact hinv

end AlarmEngine

end InNetworkAgg
