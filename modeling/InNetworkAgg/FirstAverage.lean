import InNetworkAgg.Refinement

/-!
# The first `AVG`

    Sim ρ w, no round has started  →  Sim ρ.start (the world after the first AVG)    (Sim.start)
-/

namespace InNetworkAgg

open LittleEndian PartialRun SimpleMPI World Rounds

/-- The effects of the first `AVG`. -/
def startEffects (rounds size : Nat) (cs : List Address) : List Effect :=
  (if rounds = 0 then [.stop] else []) ++
    if 0 < rounds then .newRequest :: cs.map fun c => .send c (requestMessage size) else []

theorem doAVG_start (past : UInt64) (s : SimpleMPI) (hend : s.asEnd = true) (hiter : s.curIter = 0)
    (hgroup : s.cGroup.length < 256) :
    s.doAVG past = some ({ s with asEnd := false }, startEffects s.maxIteration s.vsize s.cGroup) := by
  unfold doAVG startEffects
  rw [if_pos hend]
  simp only [hiter, Nat.lt_irrefl, if_false, Option.bind_eq_bind, Option.bind_some, Nat.le_zero]
  by_cases hpos : 0 < s.maxIteration
  · rw [if_pos hpos, if_pos hpos,
      sendRequestVToAll_eq { s with asEnd := false, curIter := 0 } s.vsize hgroup]
    rfl
  · rw [if_neg hpos, if_neg hpos]
    rfl

theorem packetsTo_startEffects (rounds size : Nat) {cs : List Address} (hcs : cs.Nodup) (y : Address) :
    packetsTo y (startEffects rounds size cs) =
      if y ∈ cs ∧ 0 < rounds then [requestMessage size] else [] := by
  unfold startEffects
  rcases Nat.eq_zero_or_pos rounds with h0 | hpos
  · simp [h0, packetsTo, packetTo]
  · simp only [hpos, Nat.ne_of_gt hpos, if_true, if_false, and_true, List.nil_append]
    exact packetsTo_requests y cs hcs _

theorem answersIn_startEffects (rounds size : Nat) (cs : List Address) :
    answersIn (startEffects rounds size cs) = [] := by
  unfold startEffects
  rcases Nat.eq_zero_or_pos rounds with h0 | hpos
  · simp [h0, answersIn, answerOf]
  · simp only [hpos, Nat.ne_of_gt hpos, if_true, if_false, List.nil_append]
    exact (Sends.map cs id _).answersIn

theorem stopsIn_startEffects (rounds size : Nat) (cs : List Address)
    (h : stopsIn (startEffects rounds size cs) ≠ 0) : rounds = 0 := by
  unfold startEffects at h
  rcases Nat.eq_zero_or_pos rounds with h0 | hpos
  · exact h0
  · simp only [hpos, Nat.ne_of_gt hpos, if_true, if_false, List.nil_append] at h
    exact absurd (Sends.map cs id _).stopsIn h

section
variable {P : Plan} {ρ : State Address} {w w' : World}

/-- The consumer's first `AVG`: if there is a round to do, its children are asked for it. -/
structure Started (P : Plan) (w w' : World) : Prop where
  started : w'.started = true
  node : w'.node = Function.update w.node P.tree.root { w.node P.tree.root with asEnd := false }
  requests : w'.requests = w.requests
  own : ∀ y, w'.link P.tree.root y = (w.link P.tree.root y).sendAll 0
    (if y ∈ P.tree.kids P.tree.root ∧ 0 < P.rounds then [requestMessage P.size] else [])
  other : ∀ x y, x ≠ P.tree.root → w'.link x y = w.link x y
  results : w'.results = w.results
  stops : ∀ st ∈ w'.stops, st ∈ w.stops ∨ st.1 = P.tree.root ∧ P.rounds = 0

namespace Started

variable (hst : Started P w w')

include hst

theorem node_all (h : Sim P ρ w) (a : Address) : NodeOk P (ρ.start P.tree P.rounds) a (w'.node a) := by
  rw [hst.node]
  by_cases ha : a = P.tree.root
  · subst ha
    rw [Function.update_self]
    have hn := h.node P.tree.root
    exact ⟨hn.cGroup, hn.sGroup, hn.rank, hn.maxIteration, by simp [State.start], hn.curIter,
      fun _ => hn.sizes (Or.inl rfl), hn.chunks⟩
  · rw [Function.update_of_ne ha]
    refine (h.node a).congr (fun e => absurd e ha) (fun _ => rfl) (fun _ => ?_) fun _ _ => rfl
    rw [State.start_asked, if_neg ha]

/-- Nobody was asked before. -/
theorem down (h : Sim P ρ w) (hasked : ρ.asked P.tree.root = 0) {q u : Address}
    (hu : u ∈ P.tree.kids q) :
    DownLog P.size ((ρ.start P.tree P.rounds).asked q) ((ρ.start P.tree P.rounds).asked u)
      (w'.link q u) := by
  have hur : u ≠ P.tree.root := fun e => P.tree.root_not_kid q (e ▸ hu)
  have hlog := h.down q u hu
  rw [State.start_asked, State.start_asked, if_neg hur]
  by_cases hq : q = P.tree.root
  · subst hq
    rw [hasked] at hlog
    rw [if_pos rfl, hst.own]
    by_cases hpos : 0 < P.rounds
    · rw [if_pos hpos, if_pos ⟨hu, hpos⟩]
      exact hlog.sendAll
    · rw [if_neg hpos, if_neg fun e => hpos e.2, Link.sendAll_nil]
      exact hlog
  · rw [if_neg hq, hst.other q u hq]
    exact hlog

theorem idle (h : Sim P ρ w) {a b : Address} (hab : b ∉ P.tree.kids a) (hba : a ∉ P.tree.kids b) :
    (w'.link a b).chan.inflight = [] := by
  by_cases ha : a = P.tree.root
  · subst ha
    rw [hst.own, if_neg fun e => hab e.1, Link.sendAll_nil]
    exact h.idle _ b hab hba
  · rw [hst.other a b ha]
    exact h.idle a b hab hba

end Started

/-- The first round is open. -/
theorem Sim.started_avg (h : Sim P ρ w) (hasked : ρ.asked P.tree.root = 0) (hst : Started P w w') :
    Sim P (ρ.start P.tree P.rounds) w' where
  started := hst.started
  node := hst.node_all h
  requests := by
    intro q u hu
    have hur : u ≠ P.tree.root := fun e => P.tree.root_not_kid q (e ▸ hu)
    rw [hst.requests, State.start_asked, if_neg hur]
    exact h.requests q u hu
  down := fun _ _ hu => hst.down h hasked hu
  up := by
    intro q u hu
    have hur : u ≠ P.tree.root := fun e => P.tree.root_not_kid q (e ▸ hu)
    rw [hst.other u q hur]
    exact h.up q u hu
  idle := fun _ _ hab hba => hst.idle h hab hba
  results := by
    rw [hst.results]
    exact h.results
  stops := by
    intro st hmem
    rcases hst.stops st hmem with hold | ⟨hroot, hzero⟩
    · exact h.stops st hold
    · exact Or.inl ⟨hroot, by rw [hzero]; exact Nat.zero_le _⟩

/-- What `DoAVG` does to the world. -/
theorem started_perform {s : SimpleMPI} (hs : s = { w.node P.tree.root with asEnd := false })
    (hkids : s.cGroup ≠ []) (hiter : s.curIter = 0) :
    Started P w (({ w with started := true } : World).perform P.env P.tree.root
      (s, startEffects P.rounds P.size (P.tree.kids P.tree.root))) where
  started := by rw [perform_started]
  node := by rw [perform_node, hs]
  requests := by rw [perform_requests]
  own := by
    intro y
    rw [perform_link_self, if_neg hkids, hiter,
      packetsTo_startEffects P.rounds P.size (P.tree.kids_nodup P.tree.root)]
  other := fun _ y hx => perform_link_of_ne _ _ _ _ y hx
  results := by
    rw [perform_results, answersIn_startEffects, List.append_nil]
    exact Function.update_eq_self _ _
  stops := by
    intro st hst
    rw [perform_stops, List.mem_append] at hst
    rcases hst with hst | hst
    · exact Or.inl hst
    · obtain ⟨hne, rfl⟩ := List.mem_replicate.1 hst
      exact Or.inr ⟨rfl, stopsIn_startEffects _ _ _ hne⟩

/-- The consumer's first `AVG` opens the first round. -/
theorem Sim.start (h : Sim P ρ w) (hinv : Inv P.tree P.parts P.rounds ρ) (hs : w.started = false)
    (past : UInt64) :
    ∃ s es, (w.node P.env.consumer).doAVG past = some (s, es) ∧ s.cGroup ≠ [] ∧
      Sim P (ρ.start P.tree P.rounds)
        (({ w with started := true } : World).perform P.env P.env.consumer (s, es)) := by
  have hn := h.node P.tree.root
  have hs' : ρ.started = false := by rw [← h.started, hs]
  obtain ⟨hasked, hdone⟩ := hinv.not_started hs' P.root_kids
  have hiter : (w.node P.tree.root).curIter = 0 := by rw [hn.curIter P.root_kids, hdone]
  have havg := doAVG_start past (w.node P.tree.root) (hn.asEnd.2 ⟨rfl, hs'⟩) hiter
    (by rw [hn.cGroup]; exact P.width _)
  have hes : startEffects (w.node P.tree.root).maxIteration (w.node P.tree.root).vsize
      (w.node P.tree.root).cGroup = startEffects P.rounds P.size (P.tree.kids P.tree.root) := by
    rw [hn.maxIteration, if_pos rfl, (hn.sizes (Or.inl rfl)).1, hn.cGroup]
  rw [hes] at havg
  have hkids : (w.node P.tree.root).cGroup ≠ [] := by
    rw [hn.cGroup]
    exact P.root_kids
  rw [P.consumer_eq]
  exact ⟨_, _, havg, hkids, h.started_avg hasked (started_perform rfl hkids hiter)⟩

end

end InNetworkAgg
