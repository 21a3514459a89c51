import InNetworkAgg.AlarmEngine

/-!
# When an alarm fires

An alarm that is set and then left alone fires in the microsecond of its
deadline, or of the call when the deadline was in the past by then:

    no fire of it earlier; by the time the clock is past it, a fire at it     (alarm_fires)

Two things carry this.  The token an alarm holds denotes no entry of another
alarm (`Owned`), so that what other alarms do leaves the entry alone; and the
entry leaves the map in a timeout only, which comes in its microsecond
(`Pending.step`), with no time passing until its callback (`Waiting.step`).
-/

namespace InNetworkAgg

namespace AlarmEngine

open PartialRun

variable {s t : AlarmEngine} {a : AlarmCB} {d : Int} {op : Op}

/-! ## Tokens of other alarms -/

/-- Tokens were given out by the map, and what one denotes belongs to its alarm. -/
structure Owned (s : AlarmEngine) : Prop where
  inv : Inv s
  issued : ∀ b, (s.alarms b).token < s.alarmMap.next
  own : ∀ b, ∀ e ∈ s.alarmMap.entries, e.token = (s.alarms b).token → e.value = b

theorem Owned.new (now : Nat) : Owned (AlarmEngine.new now) where
  inv := Inv.new now
  issued _ := Nat.zero_lt_one
  own _ _ he := absurd he Multimap.mem_empty

/-- A new entry and the alarm that gets its token. -/
theorem Owned.insert {m : Multimap Int AlarmCB} {alarms : AlarmCB → BaseAlarm} {k : Int}
    {b : BaseAlarm} (hissued : ∀ c, (alarms c).token < m.next)
    (hown : ∀ c, ∀ e ∈ m.entries, e.token = (alarms c).token → e.value = c)
    (hb : b.token = m.next) :
    (∀ c, (Function.update alarms a b c).token < (m.insert k a).next) ∧
      ∀ c, ∀ e ∈ (m.insert k a).entries,
        e.token = (Function.update alarms a b c).token → e.value = c := by
  refine ⟨fun c => ?_, fun c e he htoken => ?_⟩
  · by_cases hc : c = a
    · rw [hc, Function.update_self, hb]
      exact Nat.lt_succ_self _
    · rw [Function.update_of_ne hc]
      exact Nat.lt_succ_of_lt (hissued c)
  · by_cases hc : c = a
    · rw [hc, Function.update_self, hb] at htoken
      rcases Multimap.mem_insert.1 he with rfl | he
      · exact hc.symm
      · exact absurd htoken (m.issued e he).ne
    · rw [Function.update_of_ne hc] at htoken
      rcases Multimap.mem_insert.1 he with rfl | he
      · exact absurd htoken.symm (hissued c).ne
      · exact hown c e he htoken

theorem Owned.register (h : Owned s) {timeout : Int} {ac : AlarmCB}
    (ht : s.registerAlarm timeout ac = some t) : Owned t := by
  have hinv := h.inv.register ht
  obtain ⟨timer, heq, -⟩ := registerAlarm_spec h.inv timeout ac
  rw [heq] at ht
  cases ht
  by_cases hac : ac ∈ s.allAlarms
  · rw [added_of_mem hac] at hinv ⊢
    exact ⟨hinv, h.issued, h.own⟩
  · rw [added_of_notMem hac] at hinv ⊢
    obtain ⟨hissued, hown⟩ := Owned.insert (a := ac) (k := s.clamped timeout)
      (b := (s.alarms ac).onRegistration s.alarmMap.next) h.issued h.own rfl
    exact ⟨hinv, hissued, hown⟩

/-- Entries leave the map, and no token changes. -/
theorem Owned.shrink (h : Owned s) (hinv : Inv t) (hnext : t.alarmMap.next = s.alarmMap.next)
    (htoken : ∀ b, (t.alarms b).token = (s.alarms b).token)
    (hentries : ∀ e ∈ t.alarmMap.entries, e ∈ s.alarmMap.entries) : Owned t where
  inv := hinv
  issued b := by
    rw [hnext, htoken]
    exact h.issued b
  own b e he heq := h.own b e (hentries e he) (heq.trans (htoken b))

theorem token_update {alarms : AlarmCB → BaseAlarm} {c : AlarmCB} {b : BaseAlarm}
    (hb : b.token = (alarms c).token) (x : AlarmCB) :
    (Function.update alarms c b x).token = (alarms x).token := by
  by_cases hx : x = c
  · rw [hx, Function.update_self, hb]
  · rw [Function.update_of_ne hx]

theorem Owned.reregister (h : Owned s) {timeout : Int} {r : AlarmEngine × Nat}
    (hr : s.reregisterAlarm (s.alarms a).token timeout = some r) :
    Owned (r.1.setAlarm a { r.1.alarms a with token := r.2 }) := by
  have hinv := (h.inv.reregister hr).setToken a r.2
  obtain ⟨i, timer, hi, htok, rfl, -⟩ := reregisterAlarm_eq_some h.inv hr
  obtain rfl : i.value = a := h.own a i hi htok
  obtain ⟨hissued, hown⟩ := Owned.insert (m := s.alarmMap.erase i.token) (a := i.value)
    (k := timeout) (b := { s.alarms i.value with token := s.alarmMap.next }) h.issued
    (fun c e he => h.own c e (Multimap.mem_erase.1 he).1) rfl
  exact ⟨hinv, hissued, hown⟩

theorem Owned.step (h : Owned s) (hst : s.step op = some t) : Owned t := by
  have hinv := h.inv.step hst
  obtain ⟨hen, hcall⟩ := step_eq_some.1 hst
  cases op with
  | tick ns =>
    cases hcall
    exact ⟨hinv, h.issued, h.own⟩
  | set b deadline => exact h.register hcall
  | update b deadline =>
    rcases updateImpl_cases hcall with ⟨-, r, hr, rfl⟩ | ⟨-, hcall⟩
    · exact h.reregister hr
    · exact h.register hcall
  | cancel b =>
    rcases cancelImpl_cases hcall with hcall | rfl
    · obtain ⟨i, hi, hitoken, rfl⟩ := unregisterAlarm_eq_some.1 hcall
      exact h.shrink hinv rfl (token_update rfl) fun e he => (Multimap.mem_erase.1 he).1
    · exact h
  | shutdown =>
    cases hcall
    refine h.shrink hinv rfl (fun b => ?_) fun e he => absurd he Multimap.mem_empty
    unfold shutdown
    dsimp only
    split <;> rfl
  | timeout =>
    cases hcall
    exact h.shrink hinv rfl (fun _ => rfl) fun e he => (Multimap.mem_after.1 he).1
  | fire =>
    obtain ⟨cb, cbs, -, rfl⟩ := call_fire_cases hcall
    exact h.shrink hinv rfl (token_update rfl) fun _ he => he
  | ret =>
    cases hcall
    exact ⟨hinv, h.issued, h.own⟩
  | finish =>
    obtain ⟨timer, heq, -⟩ := h.inv.finish
    rw [call, heq] at hcall
    cases hcall
    exact ⟨hinv, h.issued, h.own⟩

theorem owned_of_runs {now : Nat} {ops : List Op}
    (h : runs step (AlarmEngine.new now) ops = some s) : Owned s :=
  runs_invariant (fun _ _ _ hs hst => hs.step hst) (Owned.new now) h

/-! ## The way of an entry -/

/-- The operation does not end the registration of `a` or give it another deadline. -/
def LeavesAlone (a : AlarmCB) : Op → Prop
  | .update b _ | .cancel b => b ≠ a
  | .shutdown => False
  | _ => True

/-- `a` is in the map, with deadline `d`. -/
def Pending (a : AlarmCB) (d : Int) (s : AlarmEngine) : Prop :=
  ∃ e ∈ s.alarmMap.entries, e.value = a ∧ e.key = d

/-- The callback of `a` is to come, and it is time. -/
structure Waiting (a : AlarmCB) (d : Int) (s : AlarmEngine) : Prop where
  mem : a ∈ s.waiting
  now : s.nowUs = d

theorem Pending.nowUs_le (h : Pending a d s) (hs : Inv s) : s.nowUs ≤ d := by
  obtain ⟨e, he, -, rfl⟩ := h
  exact hs.due e he

theorem mem_added {timeout : Int} {ac : AlarmCB} {e : Multimap.Entry Int AlarmCB}
    (he : e ∈ s.alarmMap.entries) : e ∈ (s.added timeout ac).alarmMap.entries := by
  by_cases hac : ac ∈ s.allAlarms
  · rw [added_of_mem hac]
    exact he
  · rw [added_of_notMem hac]
    exact Multimap.mem_insert.2 (.inr he)

theorem Pending.register (h : Pending a d s) (hs : Inv s) {timeout : Int} {ac : AlarmCB}
    (ht : s.registerAlarm timeout ac = some t) : Pending a d t := by
  obtain ⟨timer, heq, -⟩ := registerAlarm_spec hs timeout ac
  rw [heq] at ht
  cases ht
  obtain ⟨e, he, hv, hk⟩ := h
  exact ⟨e, mem_added he, hv, hk⟩

/-- The entry of `a` stays in the map until the timeout in its microsecond takes it out. -/
theorem Pending.step (h : Pending a d s) (hs : Owned s) (hop : LeavesAlone a op)
    (hst : s.step op = some t) : Pending a d t ∨ Waiting a d t := by
  obtain ⟨hen, hcall⟩ := step_eq_some.1 hst
  have hpending := h
  obtain ⟨e, he, hv, hk⟩ := h
  cases op with
  | tick ns =>
    cases hcall
    exact .inl ⟨e, he, hv, hk⟩
  | set b deadline => exact .inl (hpending.register hs.inv hcall)
  | update b deadline =>
    rcases updateImpl_cases hcall with ⟨-, r, hr, rfl⟩ | ⟨-, hcall⟩
    · obtain ⟨i, timer, hi, htok, rfl, -⟩ := reregisterAlarm_eq_some hs.inv hr
      -- the entry that is moved belongs to `b`
      have hne : e.token ≠ i.token := fun heq =>
        hop ((hs.own b e he (heq.trans htok)).symm.trans hv)
      exact .inl ⟨e, Multimap.mem_insert.2 (.inr (Multimap.mem_erase.2 ⟨he, hne⟩)), hv, hk⟩
    · exact .inl (hpending.register hs.inv hcall)
  | cancel b =>
    rcases cancelImpl_cases hcall with hcall | rfl
    · obtain ⟨i, hi, htok, rfl⟩ := unregisterAlarm_eq_some.1 hcall
      have hne : e.token ≠ (s.alarms b).token := fun heq =>
        hop ((hs.own b e he heq).symm.trans hv)
      exact .inl ⟨e, Multimap.mem_erase.2 ⟨he, hne⟩, hv, hk⟩
    · exact .inl hpending
  | shutdown => exact hop.elim
  | timeout =>
    cases hcall
    by_cases hdue : e.key ≤ s.nowUs
    · refine .inr ⟨?_, le_antisymm (hpending.nowUs_le hs.inv) (hk ▸ hdue)⟩
      exact List.mem_map.2 ⟨e, Multimap.mem_upTo.2 ⟨he, hdue⟩, hv⟩
    · exact .inl ⟨e, Multimap.mem_after.2 ⟨he, not_le.1 hdue⟩, hv, hk⟩
  | fire =>
    obtain ⟨cb, cbs, -, rfl⟩ := call_fire_cases hcall
    exact .inl ⟨e, he, hv, hk⟩
  | ret =>
    cases hcall
    exact .inl ⟨e, he, hv, hk⟩
  | finish =>
    obtain ⟨timer, heq, -⟩ := hs.inv.finish
    rw [call, heq] at hcall
    cases hcall
    exact .inl ⟨e, he, hv, hk⟩

/-! ## What alarms do not change -/

theorem register_frame (hs : Inv s) {timeout : Int} {ac : AlarmCB}
    (ht : s.registerAlarm timeout ac = some t) : t.now = s.now ∧ t.phase = s.phase := by
  obtain ⟨timer, heq, -⟩ := registerAlarm_spec hs timeout ac
  rw [heq] at ht
  cases ht
  refine ⟨added_now s timeout ac, ?_⟩
  unfold added
  dsimp only
  split <;> rfl

/-- Setting, updating and cancelling take no time, within a timeout and outside. -/
theorem alarm_frame (hs : Inv s) (hcall : s.call op = some t)
    (hop : ∃ b deadline, op = .set b deadline ∨ op = .update b deadline ∨ op = .cancel b) :
    t.now = s.now ∧ t.phase = s.phase := by
  obtain ⟨b, deadline, rfl | rfl | rfl⟩ := hop
  · exact register_frame hs hcall
  · rcases updateImpl_cases hcall with ⟨-, r, hr, rfl⟩ | ⟨-, hcall⟩
    · obtain ⟨i, timer, -, -, rfl, -⟩ := reregisterAlarm_eq_some hs hr
      exact ⟨rfl, rfl⟩
    · exact register_frame hs hcall
  · rcases cancelImpl_cases hcall with hcall | rfl
    · obtain ⟨i, -, -, rfl⟩ := unregisterAlarm_eq_some.1 hcall
      exact ⟨rfl, rfl⟩
    · exact ⟨rfl, rfl⟩

/-- Time passes while no timeout is handled. -/
theorem now_step (hs : Inv s) (hst : s.step op = some t) :
    t.now = s.now ∨ s.now ≤ t.now ∧ s.phase = .idle := by
  obtain ⟨hen, hcall⟩ := step_eq_some.1 hst
  cases op with
  | tick ns =>
    cases hcall
    simp only [enabled, Bool.and_eq_true, decide_eq_true_eq] at hen
    exact .inr ⟨Nat.le_add_right _ _, hen.1⟩
  | set b deadline => exact .inl (alarm_frame hs hcall ⟨b, deadline, .inl rfl⟩).1
  | update b deadline => exact .inl (alarm_frame hs hcall ⟨b, deadline, .inr (.inl rfl)⟩).1
  | cancel b => exact .inl (alarm_frame hs hcall ⟨b, 0, .inr (.inr rfl)⟩).1
  | fire =>
    obtain ⟨cb, cbs, -, rfl⟩ := call_fire_cases hcall
    exact .inl rfl
  | finish =>
    obtain ⟨timer, heq, -⟩ := hs.finish
    rw [call, heq] at hcall
    cases hcall
    exact .inl rfl
  | _ =>
    cases hcall
    exact .inl rfl

theorem nowUs_mono (hs : Inv s) (hst : s.step op = some t) : s.nowUs ≤ t.nowUs := by
  have hle : s.now ≤ t.now := by
    rcases now_step hs hst with heq | ⟨hle, -⟩
    · exact heq.ge
    · exact hle
  exact Int.ofNat_le.2 (Nat.div_le_div_right hle)

/-- The callbacks that are to come, where no timeout begins: they stay, but for one that
begins. -/
theorem waiting_step (hs : Inv s) (hop : op ≠ .timeout) (hst : s.step op = some t) :
    t.waiting = s.waiting ∨ op = .fire ∧ ∃ cb, s.phase = .between (cb :: t.waiting) := by
  obtain ⟨hen, hcall⟩ := step_eq_some.1 hst
  cases op with
  | set b deadline =>
    exact .inl (congrArg Phase.cbs (alarm_frame hs hcall ⟨b, deadline, .inl rfl⟩).2)
  | update b deadline =>
    exact .inl (congrArg Phase.cbs (alarm_frame hs hcall ⟨b, deadline, .inr (.inl rfl)⟩).2)
  | cancel b =>
    exact .inl (congrArg Phase.cbs (alarm_frame hs hcall ⟨b, 0, .inr (.inr rfl)⟩).2)
  | fire =>
    obtain ⟨cb, cbs, hphase, rfl⟩ := call_fire_cases hcall
    exact .inr ⟨rfl, cb, hphase⟩
  | finish =>
    obtain ⟨timer, heq, -⟩ := hs.finish
    rw [call, heq] at hcall
    cases hcall
    have hphase : s.phase = .between [] := by simpa [enabled] using hen
    left
    rw [waiting, waiting, hphase]
    rfl
  | timeout => exact absurd rfl hop
  | _ =>
    cases hcall
    exact .inl rfl

theorem enabled_timeout (h : s.enabled .timeout = true) : s.phase = .idle := by
  simp only [enabled, Bool.and_eq_true, decide_eq_true_eq] at h
  exact h.1

theorem Waiting.ne_idle (h : Waiting a d s) : s.phase ≠ .idle := by
  intro hidle
  have hmem := h.mem
  rw [waiting, hidle] at hmem
  cases hmem

/-- No time passes until the callback begins. -/
theorem Waiting.step (h : Waiting a d s) (hs : Inv s) (hst : s.step op = some t) :
    Waiting a d t ∨ op = .fire ∧ ∃ cbs, s.phase = .between (a :: cbs) := by
  have hop : op ≠ .timeout := by
    rintro rfl
    exact h.ne_idle (enabled_timeout (step_eq_some.1 hst).1)
  have hnow : t.nowUs = d := by
    rcases now_step hs hst with heq | ⟨-, hidle⟩
    · rw [nowUs, heq]
      exact h.now
    · exact absurd hidle h.ne_idle
  rcases waiting_step hs hop hst with hsame | ⟨hfire, cb, hphase⟩
  · refine .inl ⟨?_, hnow⟩
    rw [hsame]
    exact h.mem
  · have hmem := h.mem
    rw [waiting, hphase] at hmem
    rcases List.mem_cons.1 hmem with rfl | hrest
    · exact .inr ⟨hfire, _, hphase⟩
    · exact .inl ⟨hrest, hnow⟩

/-! ## Runs -/

/-- By the time the clock is past the deadline the callback has begun, in its microsecond. -/
theorem fires_of_runs {ops : List Op} :
    ∀ {s : AlarmEngine}, Owned s → Pending a d s ∨ Waiting a d s →
      (∀ op ∈ ops, LeavesAlone a op) → runs step s ops = some t → d < t.nowUs →
      ∃ front back u cbs, ops = front ++ .fire :: back ∧ runs step s front = some u ∧
        u.phase = .between (a :: cbs) ∧ u.nowUs = d := by
  induction ops with
  | nil =>
    intro s hs hway _ hrun hlate
    cases hrun
    exfalso
    rcases hway with hpending | hwaiting
    · exact absurd (hpending.nowUs_le hs.inv) (not_le.2 hlate)
    · exact absurd hwaiting.now.le (not_le.2 hlate)
  | cons op ops ih =>
    intro s hs hway hops hrun hlate
    rw [runs_cons, Option.bind_eq_some_iff] at hrun
    obtain ⟨u, hu, hrun⟩ := hrun
    have hrest : ∀ o ∈ ops, LeavesAlone a o := fun o ho => hops o (List.mem_cons_of_mem _ ho)
    have hnext : (Pending a d u ∨ Waiting a d u) ∨
        op = .fire ∧ ∃ cbs, s.phase = .between (a :: cbs) ∧ s.nowUs = d := by
      rcases hway with hpending | hwaiting
      · exact .inl (hpending.step hs (hops op List.mem_cons_self) hu)
      · rcases hwaiting.step hs.inv hu with hwaiting' | ⟨hfire, cbs, hphase⟩
        · exact .inl (.inr hwaiting')
        · exact .inr ⟨hfire, cbs, hphase, hwaiting.now⟩
    rcases hnext with hway' | ⟨rfl, cbs, hphase, hnow⟩
    · obtain ⟨front, back, v, cbs, rfl, hv, hphase, hnow⟩ := ih (hs.step hu) hway' hrest hrun hlate
      refine ⟨op :: front, back, v, cbs, rfl, ?_, hphase, hnow⟩
      rw [runs_cons, hu]
      exact hv
    · exact ⟨[], ops, s, cbs, rfl, rfl, hphase, hnow⟩

/-- Not yet taken out, or time. -/
def NotEarly (a : AlarmCB) (d : Int) (s : AlarmEngine) : Prop :=
  Pending a d s ∧ a ∉ s.waiting ∨ d ≤ s.nowUs

theorem NotEarly.step (h : NotEarly a d s) (hs : Owned s) (hop : LeavesAlone a op)
    (hst : s.step op = some t) : NotEarly a d t := by
  rcases h with ⟨hpending, hnot⟩ | hle
  · rcases hpending.step hs hop hst with hpending' | hwaiting
    · by_cases htimeout : op = .timeout
      · subst htimeout
        obtain ⟨-, hcall⟩ := step_eq_some.1 hst
        cases hcall
        -- an entry that stays in the map is the only one of `a`
        refine .inl ⟨hpending', fun hmem => ?_⟩
        obtain ⟨e, he, hv⟩ := List.mem_map.1 hmem
        obtain ⟨e', he', hv', -⟩ := hpending'
        obtain ⟨he, hdue⟩ := Multimap.mem_upTo.1 he
        obtain ⟨he', hlate⟩ := Multimap.mem_after.1 he'
        have heq := hs.inv.single e he e' he' (hv.trans hv'.symm)
        rw [heq] at hdue
        exact absurd hdue (not_le.2 hlate)
      · refine .inl ⟨hpending', fun hmem => hnot ?_⟩
        rcases waiting_step hs.inv htimeout hst with hsame | ⟨-, cb, hphase⟩
        · exact hsame ▸ hmem
        · rw [waiting, hphase]
          exact List.mem_cons_of_mem cb hmem
    · exact .inr hwaiting.now.ge
  · exact .inr (hle.trans (nowUs_mono hs.inv hst))

theorem notEarly_of_runs {ops : List Op} :
    ∀ {s : AlarmEngine}, Owned s → NotEarly a d s → (∀ op ∈ ops, LeavesAlone a op) →
      runs step s ops = some t → NotEarly a d t := by
  induction ops with
  | nil =>
    intro s _ h _ hrun
    cases hrun
    exact h
  | cons op ops ih =>
    intro s hs h hops hrun
    rw [runs_cons, Option.bind_eq_some_iff] at hrun
    obtain ⟨u, hu, hrun⟩ := hrun
    exact ih (hs.step hu) (h.step hs (hops op List.mem_cons_self) hu)
      (fun o ho => hops o (List.mem_cons_of_mem _ ho)) hrun

/-- An alarm that has no entry gets one. -/
theorem register_pending (hs : Inv s) (ha : a ∉ s.allAlarms)
    (ht : s.registerAlarm d a = some t) : Pending a (max d s.nowUs) t := by
  obtain ⟨timer, heq, -⟩ := registerAlarm_spec hs d a
  rw [heq] at ht
  cases ht
  rw [added_of_notMem ha]
  refine ⟨_, Multimap.mem_insert.2 (.inl rfl), rfl, ?_⟩
  dsimp only
  unfold clamped
  split <;> omega

/-- The operation gives `a` the deadline. -/
def Sets (s : AlarmEngine) (a : AlarmCB) (deadline : Int) (op : Op) : Prop :=
  a ∉ s.allAlarms ∧ (op = .set a deadline ∨ op = .update a deadline) ∨
    op = .update a deadline ∧ (s.alarms a).registered = true

theorem Sets.pending {deadline : Int} (hsets : Sets s a deadline op) (hs : Owned s)
    (hst : s.step op = some t) : Pending a (max deadline s.nowUs) t := by
  obtain ⟨-, hcall⟩ := step_eq_some.1 hst
  rcases hsets with ⟨ha, rfl | rfl⟩ | ⟨rfl, hreg⟩
  · exact register_pending hs.inv ha hcall
  · rcases updateImpl_cases hcall with ⟨hreg, r, hr, rfl⟩ | ⟨-, hcall⟩
    · -- the token of an alarm that has no entry denotes nothing
      obtain ⟨i, timer, hi, htok, -⟩ := reregisterAlarm_eq_some hs.inv hr
      exact absurd ((hs.inv.listed a).2 ⟨i, hi, hs.own a i hi htok⟩) ha
    · exact register_pending hs.inv ha hcall
  · rcases updateImpl_cases hcall with ⟨-, r, hr, rfl⟩ | ⟨hno, -⟩
    · obtain ⟨i, timer, hi, htok, rfl, -, hpast, -⟩ := reregisterAlarm_eq_some hs.inv hr
      exact ⟨_, Multimap.mem_insert.2 (.inl rfl), hs.own a i hi htok, (max_eq_left hpast).symm⟩
    · exact absurd hreg hno

/-- **When an alarm fires.**  From the operation that gives an alarm its deadline, as long as
the alarm is left alone: it does not fire before the deadline, and by the time the clock is
past the deadline it has fired in its microsecond.  A deadline in the past counts as now. -/
theorem alarm_fires (now : Nat) (before ops : List Op) (s u t : AlarmEngine) (a : AlarmCB)
    (deadline : Int) (op : Op) (hbefore : runs step (AlarmEngine.new now) before = some s)
    (hsets : Sets s a deadline op) (hfresh : a ∉ s.waiting) (hst : s.step op = some u)
    (hops : ∀ o ∈ ops, LeavesAlone a o) (hrun : runs step u ops = some t) :
    (∀ front back v cbs, ops = front ++ .fire :: back → runs step u front = some v →
      v.phase = .between (a :: cbs) → max deadline s.nowUs ≤ v.nowUs) ∧
    (max deadline s.nowUs < t.nowUs → ∃ front back v cbs, ops = front ++ .fire :: back ∧
      runs step u front = some v ∧ v.phase = .between (a :: cbs) ∧
        v.nowUs = max deadline s.nowUs) := by
  have hs := owned_of_runs hbefore
  have hu := hs.step hst
  have hpending := hsets.pending hs hst
  have hclear : a ∉ u.waiting := by
    have hop : op ≠ .timeout ∧ op ≠ .fire := by
      rcases hsets with ⟨-, rfl | rfl⟩ | ⟨rfl, -⟩ <;> constructor <;> intro h <;> cases h
    rcases waiting_step hs.inv hop.1 hst with hsame | ⟨hfire, -⟩
    · rw [hsame]
      exact hfresh
    · exact absurd hfire hop.2
  refine ⟨fun front back v cbs hsplit hv hphase => ?_,
    fun hlate => fires_of_runs hu (.inl hpending) hops hrun hlate⟩
  have hfront : ∀ o ∈ front, LeavesAlone a o := fun o ho =>
    hops o (hsplit ▸ List.mem_append_left _ ho)
  rcases notEarly_of_runs hu (.inl ⟨hpending, hclear⟩) hfront hv with ⟨-, hnot⟩ | hle
  · refine absurd ?_ hnot
    rw [waiting, hphase]
    exact List.mem_cons_self
  · exact hle

/-- One alarm, with another one set in between and due earlier. -/
def leftAlone : List Op :=
  [.tick 2000, .set 1 5, .tick 3000, .timeout, .fire, .ret, .finish, .tick 5000, .timeout, .fire,
    .ret, .finish, .tick 4000]

theorem alarm_fires_leftAlone : ∃ u t, (AlarmEngine.new 0).step (.set 0 10) = some u ∧
    runs step u leftAlone = some t ∧
    ∃ front back v cbs, leftAlone = front ++ .fire :: back ∧ runs step u front = some v ∧
      v.phase = .between (0 :: cbs) ∧ v.nowUs = 10 := by
  have hsome : ((AlarmEngine.new 0).step (.set 0 10)).isSome = true := by decide
  obtain ⟨u, hu⟩ := Option.isSome_iff_exists.1 hsome
  have hend : (((AlarmEngine.new 0).step (.set 0 10)).bind fun u =>
      (runs step u leftAlone).map nowUs) = some 14 := by decide
  rw [hu, Option.bind_some, Option.map_eq_some_iff] at hend
  obtain ⟨t, ht, hnow⟩ := hend
  have hops : ∀ o ∈ leftAlone, LeavesAlone 0 o := by
    unfold leftAlone
    simp [LeavesAlone]
  exact ⟨u, t, hu, ht, (alarm_fires 0 [] leftAlone (AlarmEngine.new 0) u t 0 10 (.set 0 10) rfl
    (.inl ⟨Finset.notMem_empty 0, .inl rfl⟩) List.not_mem_nil hu hops ht).2
      (by rw [hnow]; decide)⟩

end AlarmEngine

end InNetworkAgg
