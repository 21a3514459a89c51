import InNetworkAgg.AlarmEngine

/-!
# Tokens of the alarm engine

`OnTimeout` takes the due alarms out of the map and runs their callbacks one after
the other, but leaves them `registered_` until their own callback begins.  Until
then their tokens denote nothing, and a cancel or update through them goes wrong:

    TokenOk s a ↔ s.waiting = []        at every use of a token        (alarm_tokens)

as long as the callbacks did not use tokens while alarms were waiting, nor set a
waiting alarm, which `all_alarms_` does not list either.
-/

namespace InNetworkAgg

namespace AlarmEngine

open PartialRun

/-- The operation passes the token of the alarm to `UnregisterAlarm` or `ReregisterAlarm`. -/
def usesToken (s : AlarmEngine) : Op → Option AlarmCB
  | .update a _ | .cancel a => if (s.alarms a).registered then some a else none
  | _ => none

/-- The token of `a` denotes an entry, and `registered_` says of every alarm whether it is
listed with one entry. -/
structure TokenOk (s : AlarmEngine) (a : AlarmCB) : Prop where
  denotes : ∃ e ∈ s.alarmMap.entries, e.token = (s.alarms a).token
  registered : ∀ b, (s.alarms b).registered = true ↔
    b ∈ s.allAlarms ∧ ∃! e, e ∈ s.alarmMap.entries ∧ e.value = b

/-- Tokens are used, and alarms are set, only clear of the alarms that wait for their
callback. -/
def TokenGuard (s : AlarmEngine) (op : Op) : Prop :=
  match op with
  | .set a _ => a ∉ s.waiting
  | op => s.usesToken op = none ∨ s.waiting = []

instance (s : AlarmEngine) (op : Op) : Decidable (TokenGuard s op) :=
  match op with
  | .set _ _ => instDecidableNot
  | .tick _ | .update _ _ | .cancel _ | .shutdown | .timeout | .fire | .ret | .finish =>
    instDecidableOr

/-- Registered are the alarms in the map, which know their entry, and the waiting ones. -/
structure TokenInv (s : AlarmEngine) : Prop where
  inv : Inv s
  registered : ∀ a, (s.alarms a).registered = true ↔ a ∈ s.allAlarms ∨ a ∈ s.waiting
  apart : ∀ a ∈ s.waiting, a ∉ s.allAlarms
  once : s.waiting.Nodup
  token : ∀ e ∈ s.alarmMap.entries, (s.alarms e.value).token = e.token

theorem TokenInv.new (now : Nat) : TokenInv (AlarmEngine.new now) where
  inv := Inv.new now
  registered := by
    intro a
    simp [AlarmEngine.new, waiting, Phase.cbs]
  apart := fun _ h => nomatch h
  once := List.nodup_nil
  token := fun _ he => absurd he Multimap.mem_empty

/-! ## The operations keep it -/

theorem TokenInv.register {s t : AlarmEngine} (h : TokenInv s) {timeout : Int} {ac : AlarmCB}
    (hac : ac ∉ s.waiting) (ht : s.registerAlarm timeout ac = some t) : TokenInv t := by
  have hinv := h.inv.register ht
  obtain ⟨timer, heq, -⟩ := registerAlarm_spec h.inv timeout ac
  rw [heq] at ht
  cases ht
  by_cases hall : ac ∈ s.allAlarms
  · rw [added_of_mem hall] at hinv ⊢
    exact ⟨hinv, h.registered, h.apart, h.once, h.token⟩
  · rw [added_of_notMem hall] at hinv ⊢
    refine ⟨hinv, fun a => ?_, fun a ha => ?_, h.once, fun e he => ?_⟩
    · by_cases hne : a = ac
      · subst hne
        simp [BaseAlarm.onRegistration]
      · have := h.registered a
        simp only [Function.update_of_ne hne, Finset.mem_insert, hne, false_or]
        exact this
    · have hne : a ≠ ac := by
        rintro rfl
        exact hac ha
      simpa [hne] using h.apart a ha
    · rcases Multimap.mem_insert.1 he with rfl | he
      · simp [BaseAlarm.onRegistration]
      · have hne : e.value ≠ ac := fun hv => hall ((h.inv.listed ac).2 ⟨e, he, hv⟩)
        simp only [Function.update_of_ne hne]
        exact h.token e he

theorem TokenInv.unregister {s t : AlarmEngine} (h : TokenInv s) {token : Nat}
    (ht : s.unregisterAlarm token = some t) : TokenInv t := by
  have hinv := h.inv.unregister ht
  obtain ⟨i, hi, rfl, rfl⟩ := unregisterAlarm_eq_some.1 ht
  have hmem : i.value ∈ s.allAlarms := (h.inv.listed _).2 ⟨i, hi, rfl⟩
  refine ⟨hinv, fun a => ?_, fun a ha => ?_, h.once, fun e he => ?_⟩
  · by_cases hne : a = i.value
    · subst hne
      have hw : i.value ∉ s.waiting := fun hw => h.apart _ hw hmem
      simpa [BaseAlarm.onUnregistration] using hw
    · have := h.registered a
      simp only [Function.update_of_ne hne, Finset.mem_erase, hne, ne_eq, not_false_eq_true, true_and]
      exact this
  · have hnot := h.apart a ha
    simp [hnot]
  · obtain ⟨he, htoken⟩ := Multimap.mem_erase.1 he
    have hne : e.value ≠ i.value := fun hv => htoken (by rw [h.inv.single e he i hi hv])
    simp only [Function.update_of_ne hne]
    exact h.token e he

theorem TokenInv.reregister {s : AlarmEngine} (h : TokenInv s) {a : AlarmCB} {timeout : Int}
    {r : AlarmEngine × Nat} (hr : s.reregisterAlarm (s.alarms a).token timeout = some r)
    (ha : a ∈ s.allAlarms) : TokenInv (r.1.setAlarm a { r.1.alarms a with token := r.2 }) := by
  have hinv := h.inv.reregister hr
  obtain ⟨i, timer, hi, htok, rfl, -⟩ := reregisterAlarm_eq_some h.inv hr
  have hval : i.value = a := by
    obtain ⟨e, he, rfl⟩ := (h.inv.listed a).1 ha
    rw [Multimap.token_inj hi he (htok.trans (h.token e he))]
  refine ⟨hinv.setToken a _, fun b => ?_, h.apart, h.once, fun e he => ?_⟩
  · by_cases hne : b = a
    · subst hne
      have := h.registered b
      simpa [setAlarm] using this
    · have := h.registered b
      simp only [setAlarm, Function.update_of_ne hne]
      exact this
  · rcases Multimap.mem_insert.1 he with rfl | he
    · simp only [hval, setAlarm, Function.update_self]
      rfl
    · obtain ⟨he, htoken⟩ := Multimap.mem_erase.1 he
      have hne : e.value ≠ a := fun hv => htoken (by rw [h.inv.single e he i hi (hv.trans hval.symm)])
      simp only [setAlarm, Function.update_of_ne hne]
      exact h.token e he

theorem TokenInv.shutdown {s : AlarmEngine} (h : TokenInv s) (hidle : s.phase = .idle) :
    TokenInv s.shutdown := by
  have hcbs : ∀ a, a ∈ s.alarmMap.entries.map (·.value) ↔ a ∈ s.allAlarms := by
    intro a
    rw [h.inv.listed, List.mem_map]
  have hwaiting : s.waiting = [] := by rw [waiting, hidle]; rfl
  refine ⟨h.inv.shutdown, fun a => ?_, fun a ha => ?_, h.once,
    fun _ he => absurd he Multimap.mem_empty⟩
  · have := h.registered a
    rw [hwaiting] at this
    by_cases ha : a ∈ s.allAlarms
    · simp [AlarmEngine.shutdown, hcbs, ha, BaseAlarm.onShutdown, hidle, waiting, Phase.cbs]
    · simpa [AlarmEngine.shutdown, hcbs, ha, hidle, waiting, Phase.cbs] using this
  · have hnot : a ∉ s.waiting := by rw [hwaiting]; exact List.not_mem_nil
    exact absurd ha hnot

theorem TokenInv.timeout {s : AlarmEngine} (h : TokenInv s) (hidle : s.phase = .idle) :
    TokenInv s.timeout := by
  have hdue : ∀ a ∈ (s.alarmMap.upTo s.nowUs).map (·.value), a ∈ s.allAlarms := by
    intro a ha
    obtain ⟨e, he, rfl⟩ := List.mem_map.1 ha
    exact (h.inv.listed _).2 ⟨e, (Multimap.mem_upTo.1 he).1, rfl⟩
  have hwaiting : s.waiting = [] := by rw [waiting, hidle]; rfl
  refine ⟨h.inv.timeout, fun a => ?_, fun a ha => ?_, ?_, fun e he => ?_⟩
  · have hreg := h.registered a
    rw [hwaiting] at hreg
    show (s.alarms a).registered = true ↔ a ∈ s.allAlarms.filter (· ∉ _) ∨ a ∈ _
    rw [hreg, Finset.mem_filter]
    constructor
    · rintro (hall | hno)
      · by_cases hd : a ∈ (s.alarmMap.upTo s.nowUs).map (·.value)
        · exact Or.inr hd
        · exact Or.inl ⟨hall, hd⟩
      · cases hno
    · rintro (hall | hd)
      · exact Or.inl hall.1
      · exact Or.inl (hdue a hd)
  · show a ∉ s.allAlarms.filter (· ∉ _)
    rw [Finset.mem_filter]
    exact fun hno => hno.2 ha
  · show ((s.alarmMap.upTo s.nowUs).map (·.value)).Nodup
    refine List.Nodup.map_on ?_ ?_
    · intro e he e' he' hv
      exact h.inv.single e (Multimap.mem_upTo.1 he).1 e' (Multimap.mem_upTo.1 he').1 hv
    · exact (List.Nodup.of_map _ s.alarmMap.nodup).sublist (List.takeWhile_sublist _)
  · exact h.token e (Multimap.mem_after.1 he).1

theorem TokenInv.fire {s : AlarmEngine} (h : TokenInv s) {cb : AlarmCB} {cbs : List AlarmCB}
    (hphase : s.phase = .between (cb :: cbs)) : TokenInv (s.fire cb cbs) := by
  have hwaiting : s.waiting = cb :: cbs := by rw [waiting, hphase]; rfl
  have honce := h.once
  rw [hwaiting] at honce
  obtain ⟨hcb, hcbs⟩ := List.nodup_cons.1 honce
  have hall : cb ∉ s.allAlarms := h.apart cb (by rw [hwaiting]; exact List.mem_cons_self)
  refine ⟨h.inv.fire cb cbs, fun a => ?_, fun a ha => h.apart a ?_, hcbs, fun e he => ?_⟩
  · have hreg := h.registered a
    rw [hwaiting] at hreg
    by_cases hne : a = cb
    · subst hne
      simp [AlarmEngine.fire, setAlarm, BaseAlarm.onAlarm, waiting, Phase.cbs, hall, hcb]
    · simpa [AlarmEngine.fire, setAlarm, Function.update_of_ne hne, waiting, Phase.cbs, hne] using hreg
  · rw [hwaiting]
    exact List.mem_cons_of_mem _ ha
  · have hne : e.value ≠ cb := fun hv => hall ((h.inv.listed cb).2 ⟨e, he, hv⟩)
    simp only [AlarmEngine.fire, setAlarm, Function.update_of_ne hne]
    exact h.token e he

/-- Every step that meets the guard keeps the tokens. -/
theorem TokenInv.step {s t : AlarmEngine} (h : TokenInv s) {op : Op} (hguard : TokenGuard s op)
    (hst : s.step op = some t) : TokenInv t := by
  have hinv := h.inv.step hst
  obtain ⟨hen, hcall⟩ := step_eq_some.1 hst
  cases op with
  | tick ns =>
    cases hcall
    exact ⟨hinv, h.registered, h.apart, h.once, h.token⟩
  | set a deadline => exact h.register hguard hcall
  | update a deadline =>
    rcases updateImpl_cases hcall with ⟨hreg, r, hr, rfl⟩ | ⟨hreg, hcall⟩
    · have hclear : s.waiting = [] :=
        Or.resolve_left hguard (by simp [usesToken, hreg])
      have ha : a ∈ s.allAlarms := by
        rcases (h.registered a).1 hreg with ha | ha
        · exact ha
        · rw [hclear] at ha
          cases ha
      exact h.reregister hr ha
    · exact h.register (fun hw => hreg ((h.registered a).2 (Or.inr hw))) hcall
  | cancel a =>
    rcases cancelImpl_cases hcall with hcall | rfl
    · exact h.unregister hcall
    · exact h
  | shutdown =>
    cases hcall
    exact h.shutdown (by simpa [enabled] using hen)
  | timeout =>
    cases hcall
    simp only [enabled, Bool.and_eq_true, decide_eq_true_eq] at hen
    exact h.timeout hen.1
  | fire =>
    obtain ⟨cb, cbs, hphase, rfl⟩ := call_fire_cases hcall
    exact h.fire hphase
  | ret =>
    cases hcall
    exact ⟨hinv, h.registered, h.apart, h.once, h.token⟩
  | finish =>
    obtain ⟨timer, heq, -, -⟩ := h.inv.finish
    rw [call, heq] at hcall
    cases hcall
    have hphase : s.phase = .between [] := by simpa [enabled] using hen
    have hwaiting : s.waiting = [] := by rw [waiting, hphase]; rfl
    have hreg := h.registered
    rw [hwaiting] at hreg
    exact ⟨hinv, hreg, fun _ hno => absurd hno List.not_mem_nil, List.nodup_nil, h.token⟩

/-! ## Which runs keep the tokens -/

theorem registered_of_usesToken {s : AlarmEngine} {op : Op} {a : AlarmCB}
    (hop : s.usesToken op = some a) : (s.alarms a).registered = true := by
  have hif : ∀ b, (if (s.alarms b).registered then some b else none) = some a →
      (s.alarms a).registered = true := by
    intro b hb
    split at hb
    · cases hb
      assumption
    · cases hb
  cases op with
  | update b deadline => exact hif b hop
  | cancel b => exact hif b hop
  | _ => cases hop

theorem waiting_of_guard {s : AlarmEngine} {op : Op} {a : AlarmCB} (hg : TokenGuard s op)
    (hop : s.usesToken op = some a) : s.waiting = [] := by
  cases op with
  | update b deadline => exact Or.resolve_left hg (by rw [hop]; simp)
  | cancel b => exact Or.resolve_left hg (by rw [hop]; simp)
  | _ => cases hop

/-- Clear of waiting alarms a token in use is good; with one waiting it is not, because that
alarm is registered but not listed. -/
theorem TokenInv.tokenOk_iff {s : AlarmEngine} (h : TokenInv s) {op : Op} {a : AlarmCB}
    (hop : s.usesToken op = some a) : TokenOk s a ↔ s.waiting = [] := by
  have hreg := registered_of_usesToken hop
  constructor
  · intro hok
    cases hw : s.waiting with
    | nil => rfl
    | cons w ws =>
      have hmem : w ∈ s.waiting := by rw [hw]; exact List.mem_cons_self
      have hlisted := ((hok.registered w).1 ((h.registered w).2 (Or.inr hmem))).1
      exact absurd hlisted (h.apart w hmem)
  · intro hclear
    have hall : ∀ b, (s.alarms b).registered = true ↔ b ∈ s.allAlarms := by
      intro b
      rw [h.registered, hclear]
      simp
    obtain ⟨e, he, rfl⟩ := (h.inv.listed a).1 ((hall a).1 hreg)
    refine ⟨⟨e, he, (h.token e he).symm⟩, fun b => ?_⟩
    rw [hall]
    constructor
    · intro hb
      obtain ⟨e', he', rfl⟩ := (h.inv.listed b).1 hb
      exact ⟨hb, e', ⟨he', rfl⟩, fun x hx => h.inv.single x hx.1 e' he' hx.2⟩
    · exact fun hb => hb.1

/-- **Tokens.**  In a run in which no token is used while alarms wait for their callback and
no waiting alarm is set, every token that is used denotes an entry and `registered_` is
right about every alarm.  The first token that is used while an alarm waits is not so. -/
theorem alarm_tokens (now : Nat) (ops : List Op) (s : AlarmEngine)
    (hrun : runs step (AlarmEngine.new now) ops = some s)
    (hguard : Guarded step TokenGuard (AlarmEngine.new now) ops) :
    (∀ before op after u a, ops = before ++ op :: after →
      runs step (AlarmEngine.new now) before = some u → u.usesToken op = some a → TokenOk u a) ∧
    ∀ op a, s.usesToken op = some a → (TokenOk s a ↔ s.waiting = []) := by
  have hkeep : ∀ (as : List Op) (u : AlarmEngine), Guarded step TokenGuard (AlarmEngine.new now) as →
      runs step (AlarmEngine.new now) as = some u → TokenInv u := fun as u hg hu =>
    guarded_invariant (fun s op t hs hop hst => TokenInv.step hs hop hst) as _ _
      (TokenInv.new now) hg hu
  refine ⟨fun before op after u a hsplit hu hop => ?_, fun op a hop => (hkeep ops s hguard hrun).tokenOk_iff hop⟩
  rw [hsplit] at hguard
  obtain ⟨hbefore, hrest⟩ := hguard.append hu
  exact ((hkeep before u hbefore hu).tokenOk_iff hop).2 (waiting_of_guard hrest.1 hop)

/-- Two alarms, the second cancelled in the callback of the first, which is due earlier. -/
def cancelLater : List Op := [.set 0 10, .set 1 20, .tick 10000, .timeout, .fire, .cancel 1]

theorem alarm_tokens_cancelLater : ∃ s, runs step (AlarmEngine.new 0) cancelLater = some s ∧
    ∀ u, runs step (AlarmEngine.new 0) (cancelLater.take 5) = some u → TokenOk u 1 := by
  have hsome : (runs step (AlarmEngine.new 0) cancelLater).isSome = true := by decide
  obtain ⟨s, hs⟩ := Option.isSome_iff_exists.1 hsome
  have huses : ((runs step (AlarmEngine.new 0) (cancelLater.take 5)).map fun u =>
      u.usesToken (.cancel 1)) = some (some 1) := by decide
  refine ⟨s, hs, fun u hu => (alarm_tokens 0 cancelLater s hs (by decide)).1
    (cancelLater.take 5) (.cancel 1) [] u 1 rfl hu ?_⟩
  rw [hu] at huses
  exact Option.some.inj huses

/-- Two alarms due together, the second cancelled in the callback of the first. -/
def cancelWaiting : List Op := [.set 0 10, .set 1 10, .tick 10000, .timeout, .fire]

/-- The token that is used denotes no entry. -/
theorem cancelWaiting_stale : ∃ s, runs step (AlarmEngine.new 0) cancelWaiting = some s ∧
    s.enabled (.cancel 1) = true ∧ s.usesToken (.cancel 1) = some 1 ∧ ¬ TokenOk s 1 := by
  have hrun : ((runs step (AlarmEngine.new 0) cancelWaiting).map fun s =>
      (s.enabled (.cancel 1), s.usesToken (.cancel 1), s.alarmMap.entries.map fun e => e.token)) =
        some (true, some 1, []) := by decide
  obtain ⟨s, hs, hobs⟩ := Option.map_eq_some_iff.1 hrun
  simp only [Prod.mk.injEq, List.map_eq_nil_iff] at hobs
  obtain ⟨hen, huses, hempty⟩ := hobs
  refine ⟨s, hs, hen, huses, fun hok => ?_⟩
  obtain ⟨e, he, -⟩ := hok.denotes
  rw [hempty] at he
  cases he

end AlarmEngine

end InNetworkAgg
