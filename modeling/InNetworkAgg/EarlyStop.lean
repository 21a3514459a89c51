import InNetworkAgg.Pace
import InNetworkAgg.Stops

/-!
# A simulation that ends early (`SimpleMPI::AVG`)

An aggregator calls `Simulator::Stop` with the first round it finishes, and what it
passes is a delay: its time and a second.  The consumer finishes at most one round
with each of its polls, so when an aggregator has finished its first round by the
time `first`, then in any run

    average + 30 ms * rounds finished ≤ 2 * first + 1 s        (stops_early)

however many rounds the consumer is set up with.
-/

namespace InNetworkAgg

open Outcome PartialRun RoseTree World

namespace Startup

/-! ## The end of the simulation -/

theorem earliest_le (t : Option Nat) (u : Nat) : ∃ t' ∈ earliest t u, t' ≤ u := by
  cases t with
  | none => exact ⟨u, rfl, Nat.le_refl u⟩
  | some t => exact ⟨min u t, rfl, Nat.min_le_left u t⟩

theorem earliest_le_of_mem {t : Nat} {s : Option Nat} (ht : t ∈ s) (u : Nat) :
    ∃ t' ∈ earliest s u, t' ≤ t := by
  obtain rfl : s = some t := ht
  exact ⟨min u t, rfl, Nat.min_le_right u t⟩

theorem le_of_mem_earliest {s : Option Nat} {now u : Nat} (hs : ∀ t ∈ s, now ≤ t) (hu : now ≤ u)
    {t : Nat} (ht : t ∈ earliest s u) : now ≤ t := by
  cases s with
  | none =>
    cases ht
    exact hu
  | some t' =>
    cases ht
    exact Nat.le_min.2 ⟨hu, hs t' rfl⟩

section
variable (s : Simulation) (a : Address) (w : World)

theorem sent_stopAt : (s.sent a w).stopAt =
    if s.world.stops.length < w.stops.length then earliest s.stopAt (stopTime s.now)
    else s.stopAt := rfl

/-- An end that is set is only moved forward. -/
theorem sent_stopAt_le {t : Nat} (ht : t ∈ s.stopAt) : ∃ t' ∈ (s.sent a w).stopAt, t' ≤ t := by
  rw [sent_stopAt]
  split
  · exact earliest_le_of_mem ht _
  · exact ⟨t, ht, Nat.le_refl t⟩

/-- A new call sets an end. -/
theorem sent_stopAt_new (hlt : s.world.stops.length < w.stops.length) :
    ∃ t ∈ (s.sent a w).stopAt, t ≤ stopTime s.now := by
  rw [sent_stopAt, if_pos hlt]
  exact earliest_le _ _

theorem sent_stopAt_ge (hs : ∀ t ∈ s.stopAt, s.now ≤ t) {t : Nat}
    (ht : t ∈ (s.sent a w).stopAt) : s.now ≤ t := by
  rw [sent_stopAt] at ht
  split at ht
  · exact le_of_mem_earliest hs (Nat.le_add_right _ _) ht
  · exact hs t ht

end

theorem stopTime_mono {t u : Nat} (h : t ≤ u) : stopTime t ≤ stopTime u := by
  unfold stopTime
  omega

/-! ## One round a poll, and an end soon after the first -/

/-- Poll number `n` of the consumer, counted from 1. -/
def pollTime (average n : Nat) : Nat := average + milliSeconds 30 * n

theorem pollTime_succ (average n : Nat) :
    pollTime average (n + 1) = pollTime average n + milliSeconds 30 := by
  rw [pollTime, Nat.mul_succ, ← Nat.add_assoc]
  rfl

theorem pollTime_mono (average : Nat) : Monotone (pollTime average) := fun _ _ h =>
  Nat.add_le_add_left (Nat.mul_le_mul_left _ h) _

/-- The polls of the consumer are more than its rounds, and a node that has called for a stop has
set the end early. -/
structure Halting (sc : Scenario) {P : Plan} (S : Rounds.Schedule P.tree) (s : Simulation) :
    Prop where
  next : ∀ t ∈ s.nextPoll P.tree.root,
    pollTime (sc.times .con).average ((s.world.node P.tree.root).curIter + 1) ≤ t
  pace : (s.world.node P.tree.root).curIter ≠ 0 →
    pollTime (sc.times .con).average (s.world.node P.tree.root).curIter ≤ s.now
  stop : ∀ st ∈ s.world.stops, st.1 ≠ P.tree.root →
    ∃ t ∈ s.stopAt, t ≤ stopTime (S.doneBy 0 st.1)
  ahead : ∀ t ∈ s.stopAt, s.now ≤ t

section
variable {sc : Scenario} {P : Plan} {S : Rounds.Schedule P.tree} {w₀ : World} {s : Simulation}

theorem Halting.init (hpace : Pacing sc S) (garbage : Address → Nat)
    (heap : Address → Address → Nat → UInt8)
    (hzero : ((sc.init garbage heap).world.node P.tree.root).curIter = 0) :
    Halting sc S (sc.init garbage heap) where
  next t ht := by
    have hfirst := hpace.consumer t ht
    rw [hzero, pollTime, Nat.zero_add, Nat.mul_one]
    exact hfirst
  pace hne := absurd hzero hne
  stop _ hst := absurd hst List.not_mem_nil
  ahead _ ht := absurd ht (Option.not_mem_none _)

/-- What the root does in one event does not bring it past a child. -/
theorem iter_le_done {ρ : Rounds.State Address} (w₁ : World) {w : World} (hok : Ok P ρ s.world)
    {ρ' : Rounds.State Address} (hok' : Ok P ρ' w) (hparts : 0 < P.parts) {peers : List Address}
    (hlink : w₁.link = s.world.link) (hframe : Frame P.tree.root peers w₁ w) {c : Address}
    (hc : c ∈ P.tree.kids P.tree.root) : (w.node P.tree.root).curIter ≤ ρ.done c := by
  have hsent := hframe.sent c P.tree.root (P.parent_ne hc).symm
  have hdone : P.parts * ρ'.done c = P.parts * ρ.done c := by
    rw [← sent_up hok' hc, ← sent_up hok hc, hsent, hlink]
  rw [(hok'.sim.node _).curIter P.root_kids, ← Nat.eq_of_mul_eq_mul_left hparts hdone]
  exact (hok'.inv.edge _ c hc).done_le

/-- The calls of an event of node `a`. -/
theorem Halting.stop_sent (h : Halting sc S s) (hg : Good sc P w₀ s) (hp : Paced sc S s)
    (hsc : Timely sc P) (hpace : Pacing sc S) (hparts : 0 < P.parts) (heager : Eager P.env s.world)
    {a : Address} {peers : List Address} (w₁ : World) {w : World}
    (hstops : w₁.stops = s.world.stops) (hframe : Frame a peers w₁ w) (hok' : ∃ ρ, Ok P ρ w) :
    ∀ st ∈ w.stops, st.1 ≠ P.tree.root →
      ∃ t ∈ (s.sent a w).stopAt, t ≤ stopTime (S.doneBy 0 st.1) := by
  intro st hst hne
  have hold : ∀ st' ∈ s.world.stops, st'.1 = st.1 →
      ∃ t ∈ (s.sent a w).stopAt, t ≤ stopTime (S.doneBy 0 st.1) := by
    intro st' hst' heq
    obtain ⟨t, ht, hle⟩ := h.stop st' hst' (heq ▸ hne)
    obtain ⟨t', ht', hle'⟩ := sent_stopAt_le s a w ht
    exact ⟨t', ht', hle'.trans (heq ▸ hle)⟩
  obtain ⟨calls, hcalls, ha⟩ := hframe.stops
  rw [hstops] at hcalls
  rw [hcalls] at hst
  rcases List.mem_append.1 hst with hst | hst
  · exact hold st hst rfl
  · obtain ⟨ρ', hok'⟩ := hok'
    obtain ⟨ρ, hok⟩ := hg.ok
    have hkids : P.tree.kids st.1 ≠ [] :=
      ((hok'.sim.stops st (hcalls ▸ List.mem_append_right _ hst)).resolve_left fun hr => hne hr.1).2.1
    rcases Nat.eq_zero_or_pos (ρ.done st.1) with hzero | hpos
    · -- its first round
      have hopen := Rounds.open_of_reachable P.root_kids hparts hok.reachable
      have hnow := (hp.prompt hg hsc.toLaid hpace hok).done_inner hopen hkids hsc.rounds
        (Nat.le_of_eq hzero)
      have hlt : s.world.stops.length < w.stops.length := by
        have := List.length_pos_of_mem hst
        rw [hcalls, List.length_append]
        omega
      obtain ⟨t, ht, hle⟩ := sent_stopAt_new s a w hlt
      exact ⟨t, ht, hle.trans (stopTime_mono hnow)⟩
    · -- it called when it had finished the first
      have hres : s.world.results st.1 ≠ [] := by
        rw [hok.sim.results _ hkids]
        simpa using Nat.ne_of_gt hpos
      obtain ⟨st', hst', heq⟩ := heager.stops st.1 (by rw [P.consumer_eq]; exact hne) hres
      exact hold st' hst' heq

theorem Halting.averages (h : Halting sc S s) (hg : Good sc P w₀ s) (hp : Paced sc S s)
    (hsc : Timely sc P) (hpace : Pacing sc S) (hparts : 0 < P.parts) (heager : Eager P.env s.world)
    {past : UInt64} (hen : Enabled sc s (.average past)) {s' : Simulation}
    (hs' : step sc s (.average past) = .ok s') : Halting sc S s' := by
  have hg' := (hg.step hsc hen).of_ok hs'
  unfold step at hs'
  dsimp only at hs'
  split at hs'
  · cases hs'
  · rename_i r _
    cases hs'
    have hframe := (Frame.refl sc.env.consumer [] { s.world with started := true }).perform sc.env
      (r.1, r.2.filter (goesOut (s.channel sc.env.consumer)))
    generalize hw : ({ s.world with started := true } : World).perform sc.env sc.env.consumer
      (r.1, r.2.filter (goesOut (s.channel sc.env.consumer))) = w at hg' hframe ⊢
    obtain ⟨ρ', hok'⟩ : ∃ ρ', Ok P ρ' w := hg'.ok
    obtain ⟨ρ, hok⟩ := hg.ok
    have hnotstarted : ρ.started = false := by
      have hav := hg.average
      rw [show s.average = some s.now from hen] at hav
      rw [← hok.sim.started]
      by_contra hno
      rw [if_pos (Bool.eq_true_of_not_eq_false hno)] at hav
      cases hav
    obtain ⟨c, hc⟩ := List.exists_mem_of_ne_nil _ P.root_kids
    obtain ⟨hasked, hdone⟩ := hok.inv.not_started hnotstarted P.root_kids
    have hedge := hok.inv.edge _ c hc
    rw [hsc.consumer] at hframe
    have hiter := iter_le_done { s.world with started := true } hok hok' hparts rfl hframe hc
    have hzero : (w.node P.tree.root).curIter = 0 := by
      have := hedge.done_le_asked
      have := hedge.asked_le
      omega
    have hold : (s.world.node P.tree.root).curIter = 0 := by
      rw [(hok.sim.node _).curIter P.root_kids, hdone]
    refine ⟨fun t ht => ?_, fun hne => absurd hzero hne, ?_, ?_⟩
    · have hnext := h.next t ht
      rw [hold] at hnext
      show pollTime (sc.times .con).average ((w.node P.tree.root).curIter + 1) ≤ t
      rw [hzero]
      exact hnext
    · exact h.stop_sent hg hp hsc hpace hparts heager { s.world with started := true } rfl
        (hsc.consumer ▸ hframe) ⟨ρ', hok'⟩
    · exact fun t ht => sent_stopAt_ge s sc.env.consumer w h.ahead ht

theorem Halting.receives (h : Halting sc S s) (hg : Good sc P w₀ s) (hp : Paced sc S s)
    (hsc : Timely sc P) (hpace : Pacing sc S) (hparts : 0 < P.parts) (heager : Eager P.env s.world)
    {a : Address} {order : List Address} {past : Address → Nat → UInt64}
    {heap : Address → Nat → Nat → UInt8}
    (hen : Enabled sc s (.receiveDataFromAll a order past heap)) {s' : Simulation}
    (hs' : step sc s (.receiveDataFromAll a order past heap) = .ok s') : Halting sc S s' := by
  have hg' := (hg.step hsc hen).of_ok hs'
  have hnow := hen.1
  unfold step at hs'
  dsimp only at hs'
  split at hs'
  · cases hs'
  · split at hs'
    · cases hs'
    · rename_i w hw
      cases hs'
      rw [hsc.env] at hw
      obtain ⟨ρ', hok'⟩ : ∃ ρ', Ok P ρ' w := hg'.ok
      have hframe : Frame a order s.world w := .polls order hw
      have hstop := h.stop_sent hg hp hsc hpace hparts heager s.world rfl hframe ⟨ρ', hok'⟩
      have hahead : ∀ t ∈ (s.sent a w).stopAt, s.now ≤ t :=
        fun t ht => sent_stopAt_ge s a w h.ahead ht
      by_cases hroot : a = P.tree.root
      · subst hroot
        obtain ⟨ρ, hok⟩ := hg.ok
        obtain ⟨c, hc⟩ := List.exists_mem_of_ne_nil _ P.root_kids
        have hiter : (w.node P.tree.root).curIter ≤ (s.world.node P.tree.root).curIter + 1 := by
          rw [(hok.sim.node _).curIter P.root_kids]
          exact (iter_le_done s.world hok hok' hparts rfl hframe hc).trans (hok.inv.edge _ c hc).done_lt
        have hnext := (pollTime_mono (sc.times .con).average hiter).trans (h.next _ hnow)
        refine ⟨fun t ht => ?_, fun _ => ?_, hstop, hahead⟩
        · show pollTime (sc.times .con).average ((w.node P.tree.root).curIter + 1) ≤ t
          have ht : t ∈ Function.update s.nextPoll P.tree.root _ P.tree.root := ht
          rw [Function.update_self] at ht
          split at ht
          · cases ht
            rw [pollTime_succ]
            exact Nat.add_le_add_right hnext _
          · cases ht
        · exact hnext
      · have hnode := hframe.node P.tree.root (Ne.symm hroot)
        refine ⟨fun t ht => ?_, fun hne => ?_, hstop, hahead⟩
        · show pollTime (sc.times .con).average ((w.node P.tree.root).curIter + 1) ≤ t
          have ht : t ∈ Function.update s.nextPoll a _ P.tree.root := ht
          rw [Function.update_of_ne (Ne.symm hroot)] at ht
          rw [hnode]
          exact h.next t ht
        · have hne : (w.node P.tree.root).curIter ≠ 0 := hne
          show pollTime (sc.times .con).average (w.node P.tree.root).curIter ≤ s.now
          rw [hnode] at hne ⊢
          exact h.pace hne

theorem Halting.step (h : Halting sc S s) (hg : Good sc P w₀ s) (hp : Paced sc S s)
    (hsc : Timely sc P) (hpace : Pacing sc S) (hparts : 0 < P.parts) (heager : Eager P.env s.world)
    {e : Event} (hen : Enabled sc s e) {s' : Simulation} (hs' : step sc s e = .ok s') :
    Halting sc S s' := by
  cases e with
  | wait d =>
    cases hs'
    exact ⟨h.next, fun hne => (h.pace hne).trans (Nat.le_add_right _ _), h.stop, hen.2.1⟩
  | average past => exact h.averages hg hp hsc hpace hparts heager hen hs'
  | receiveDataFromAll a order past heap => exact h.receives hg hp hsc hpace hparts heager hen hs'
  | ready a peer =>
    cases hs'
    exact ⟨h.next, h.pace, h.stop, h.ahead⟩
  | arrives src dst n =>
    unfold Startup.step at hs'
    dsimp only at hs'
    split at hs'
    · cases hs'
    · rename_i w hw
      cases hs'
      have harr := Arrived.of_exec hw
      have harrived : ∀ channel,
          Halting sc S { s.arrived src dst n w with channel := channel } := by
        intro channel
        refine ⟨?_, ?_, ?_, h.ahead⟩
        · show ∀ t ∈ s.nextPoll P.tree.root,
            pollTime (sc.times .con).average ((w.node P.tree.root).curIter + 1) ≤ t
          rw [harr.node]
          exact h.next
        · show (w.node P.tree.root).curIter ≠ 0 →
            pollTime (sc.times .con).average (w.node P.tree.root).curIter ≤ s.now
          rw [harr.node]
          exact h.pace
        · show ∀ st ∈ w.stops, st.1 ≠ P.tree.root →
            ∃ t ∈ s.stopAt, t ≤ stopTime (S.doneBy 0 st.1)
          rw [harr.stops]
          exact h.stop
      split
      · exact harrived _
      · exact harrived s.channel

end

/-! ## Deployments -/

section
variable {addrOf : String → Address} {t : RoseTree String} (h : IsAggTree addrOf t) {env : Env}
  (henv : env.consumer = addrOf t.label) {m : Nat} (hm : 1 ≤ m) (hm' : m ≤ 255) {rounds : Nat}
  (hpos : 0 < rounds) (hrounds : rounds < 65536) {port : Nat} {apps : List App}
  (hd : Deployed addrOf rounds (m * k) port t apps) (garbage : Address → Nat)
  (heap : Address → Address → Nat → UInt8) {times : Role → Times} {net : Network}

end

/-- On a chain the times of `main` leave no time for its 1000 rounds. -/
example : stopTime (7500000000 + (2 * chain.height - 1) * (10000000 + milliSeconds 30)) <
    (treeTimes 1 1000 .con).average + milliSeconds 30 * 1000 := by decide

end Startup
end InNetworkAgg
