import InNetworkAgg.Deployment
import InNetworkAgg.Lib.Quiet

/-!
# Rounds end

A run that is cut anywhere can be continued until the consumer has finished all
its rounds (`IsAggTree.can_finish`): while a message is on the way, the rest of it
can arrive and a poll handles it (`Ok.handle`), and the protocol ends (`Lib/Quiet`).
-/

namespace InNetworkAgg

open PartialRun SimpleMPI World Rounds RoseTree

section
variable {P : Plan} {ρ : State Address} {w : World}

/-- The rest of the message at the front of a link can arrive. -/
theorem Ok.arrive (h : Ok P ρ w) {peer a : Address} (hl : P.Linked peer a) {msg : List UInt8}
    {ms : List (List UInt8)} (hpending : (w.link peer a).pending = msg :: ms) :
    ∃ acts w', PartialRun.runs (World.exec P.env) w acts = some w' ∧ Ok P ρ w' ∧
      (w'.link peer a).pending = msg :: ms ∧ msg.length ≤ (w'.link peer a).chan.ring.size := by
  by_cases hwhole : msg.length ≤ (w.link peer a).chan.ring.size
  · exact ⟨[], w, rfl, h, hpending, hwhole⟩
  · have hflows := h.flows peer a hl
    have hshort := h.sim.length_le h.inv hl msg (hpending ▸ List.mem_cons_self)
    have hlen := congrArg List.length hflows.bytes
    rw [hpending, List.flatten_cons, List.length_append, List.length_append,
      CircularBuffer.length_contents] at hlen
    obtain ⟨w', ring, hw', -, -, hchan, -, -, hsize⟩ := exec_deliver P.env
      (msg.length - (w.link peer a).chan.ring.size) rfl hflows.ring.wf hflows.ring.cap
      (by omega) (by omega) (by omega) (by omega)
    have hsame : (w'.link peer a).pending = (w.link peer a).pending := by
      rw [hchan]
      rfl
    refine ⟨[.deliver peer a (msg.length - (w.link peer a).chan.ring.size)], w', ?_, h.deliver hw',
      hsame.trans hpending, ?_⟩
    · rw [runs_cons, hw']
      rfl
    · rw [hchan]
      show msg.length ≤ ring.size
      omega

/-- A message on the way can be handled. -/
theorem Ok.handle (h : Ok P ρ w) {peer a : Address} (hl : P.Linked peer a)
    (hpending : (w.link peer a).pending ≠ []) :
    ∃ acts w' ρ' steps, PartialRun.runs (World.exec P.env) w acts = some w' ∧ Ok P ρ' w' ∧
      PartialRun.runs P.step ρ steps = some ρ' ∧ .start ∉ steps ∧ steps ≠ [] := by
  obtain ⟨msg, ms, hms⟩ := List.exists_cons_of_ne_nil hpending
  obtain ⟨acts, u, hu, hok, hmsu, hwhole⟩ := h.arrive hl hms
  obtain ⟨ρ', w', steps, hw', hok', hpolled⟩ := hok.poll hl (fun _ => 0) fun _ _ => 0
  refine ⟨acts ++ [.poll a peer (fun _ => 0) fun _ _ => 0], w', ρ', steps, ?_, hok', hpolled.runs,
    hpolled.started, hpolled.some_step msg ?_ hwhole⟩
  · rw [runs_append, hu, Option.bind_some, runs_cons, hw']
    rfl
  · rw [hmsu]
    exact rfl

/-- When no link has a message the protocol has nothing to do. -/
theorem Ok.quiet (h : Ok P ρ w) (hnone : ∀ a b, P.Linked a b → (w.link a b).pending = []) :
    ρ.Quiet P.tree P.parts where
  heard := by
    intro p v hv
    have hp := hnone p v (Or.inl hv)
    rw [(h.sim.down p v hv).pending, List.replicate_eq_nil_iff] at hp
    have := (h.inv.edge p v hv).asked_le
    omega
  taken := by
    intro p v hv
    have hup := h.sim.up p v hv
    have hle := (h.inv.edge p v hv).taken_le
    have hp := hnone v p (Or.inr hv)
    rw [hup.pending hle, List.map_eq_nil_iff, List.drop_eq_nil_iff, hup.length] at hp
    omega

/-- A run can be continued until nothing is on the way.  Induction on the work left. -/
theorem Ok.can_settle (h : Ok P ρ w) {ns : List Address}
    (hns : ∀ p v, v ∈ P.tree.kids p → v ∈ ns) :
    ∃ acts w' ρ', PartialRun.runs (World.exec P.env) w acts = some w' ∧ Ok P ρ' w' ∧ ρ'.started = ρ.started ∧
      ρ'.Quiet P.tree P.parts := by
  induction hwork : ρ.work P.parts P.rounds ns using Nat.strong_induction_on generalizing ρ w with
  | h n ih =>
    by_cases hbusy : ∃ a b, P.Linked a b ∧ (w.link a b).pending ≠ []
    · obtain ⟨a, b, hl, hne⟩ := hbusy
      obtain ⟨acts, u, ρ₁, steps, hu, hok, hsteps, hstart, hsome⟩ := h.handle hl hne
      obtain ⟨hle, hst⟩ := runs_work P.root_kids hns steps ρ h.inv hstart hsteps
      have hpos := List.length_pos_iff.2 hsome
      obtain ⟨acts', w', ρ', hw', hok', hst', hquiet⟩ := ih _ (by omega) hok rfl
      refine ⟨acts ++ acts', w', ρ', ?_, hok', hst'.trans hst, hquiet⟩
      rw [runs_append, hu]
      exact hw'
    · refine ⟨[], w, ρ, rfl, h, rfl, h.quiet fun a b hl => ?_⟩
      by_contra hne
      exact hbusy ⟨a, b, hl, hne⟩

/-- A run can be continued until it has started. -/
theorem Ok.can_start (h : Ok P ρ w) : ∃ acts w' ρ',
    PartialRun.runs (World.exec P.env) w acts = some w' ∧ Ok P ρ' w' ∧ ρ'.started = true := by
  cases hs : w.started with
  | true => exact ⟨[], w, ρ, rfl, h, by rw [← h.sim.started, hs]⟩
  | false =>
    obtain ⟨ρ', w', hw', hok⟩ := h.start hs 0
    refine ⟨[.start 0], w', ρ', by rw [runs_cons, hw']; rfl, hok, ?_⟩
    rw [← hok.sim.started]
    rw [World.exec, hs, if_neg Bool.false_ne_true, Option.map_eq_some_iff] at hw'
    obtain ⟨r, -, rfl⟩ := hw'
    rw [perform_started]

end

section
variable {addrOf : String → Address} {t : RoseTree String} (h : IsAggTree addrOf t) {env : Env}
  (henv : env.consumer = addrOf t.label) {size : Nat} (hpos : 0 < size)
  (hsize : chunkCount size < 256) {rounds : Nat} (hrounds : rounds < 65536) {port : Nat}
  {apps : List App} (happs : Wires addrOf rounds size port t apps) (garbage : Address → Nat)
  (heap : Address → Address → Nat → UInt8)

include h henv hpos hsize hrounds happs

/-- **Every run can be completed**: all nodes but the producers answer all rounds. -/
theorem IsAggTree.can_finish {acts : List World.Action} {w : World}
    (hw : runs (exec env) (World.init addrOf garbage heap apps) acts = some w) :
    ∃ acts' w', runs (exec env) w acts' = some w' ∧
      ∀ s ∈ t.subtrees, s.children ≠ [] → (w'.results (addrOf s.label)).length = rounds := by
  obtain ⟨ρ, hok⟩ := (h.ok_init henv hsize hrounds happs garbage heap).runs hw
  obtain ⟨acts₁, w₁, ρ₁, hw₁, hok₁, hst₁⟩ := hok.can_start
  obtain ⟨acts₂, w₂, ρ₂, hw₂, hok₂, hst₂, hquiet⟩ :=
    hok₁.can_settle (kid_mem_labels (t.map addrOf) h.addresses)
  have hparts : 0 < chunkCount size := (lt_chunkCount 0 size).2 (by omega)
  have hdone := hquiet.done_root hok₂.inv
    (open_of_reachable (Plan.root_kids _) hparts hok₂.reachable)
    (kids_wf (t.map addrOf) h.addresses) (Plan.root_kids _) (hst₂.trans hst₁)
  have hall : ∀ s ∈ t.subtrees, ρ₂.done (addrOf s.label) = rounds := by
    refine subtrees_induct ?_ fun s hs hdone c hc => ?_
    · rw [← label_map addrOf t]
      exact hdone
    · refine hok₂.inv.done_kid ?_ hdone
      rw [h.plan_kids henv hsize hrounds _ hs]
      exact List.mem_map_of_mem hc
  refine ⟨acts₁ ++ acts₂, w₂, ?_, fun s hs hne => ?_⟩
  · rw [runs_append]
    exact (congrArg (Option.bind · _) hw₁).trans hw₂
  · rw [hok₂.sim.results _ ?_, List.length_map, List.length_range, hall s hs]
    rw [h.plan_kids henv hsize hrounds _ hs]
    simpa using hne

end

end InNetworkAgg
