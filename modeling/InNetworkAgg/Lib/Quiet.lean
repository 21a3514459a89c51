import InNetworkAgg.Lib.Rounds

/-!
Rounds on a tree end.  Every request that is heard and every part that is taken
leaves less to hear and to take (`work_lt`), and when there is nothing left every
node has finished what it was asked for, so the root all its rounds:

    Quiet s, started  →  done root = R                        (Quiet.done_root)
-/

namespace Rounds

open PartialRun

variable {α : Type*} (T : Topology α) (m R : Nat)

/-- Nothing is on the way. -/
structure State.Quiet (s : State α) : Prop where
  heard : ∀ p v, v ∈ T.kids p → s.asked v = s.asked p
  taken : ∀ p v, v ∈ T.kids p → s.taken v = m * s.done v

/-- No node has all parts of a round it has not finished. -/
def State.Open (s : State α) : Prop := ∀ p, T.kids p ≠ [] → ¬ s.Complete T m p

/-- The requests to be heard by the nodes `ns` and the parts to be taken from them. -/
def State.work (ns : List α) (s : State α) : Nat :=
  (ns.map fun v => (R - s.asked v) + (m * R - s.taken v)).sum

variable {T m R} {s s' : State α}

/-! ## A node with all parts finishes the round -/

theorem State.Open.init (hm : 0 < m) : (State.init : State α).Open T m := by
  intro p hp hc
  obtain ⟨u, hu⟩ := List.exists_mem_of_ne_nil _ hp
  have := hc u hu
  simp [State.init] at this
  omega

/-- A round that has just been finished has no part of the next one. -/
theorem Inv.not_complete (h : Inv T m R s) (hm : 0 < m) {p : α} (hp : T.kids p ≠ [])
    (hdone : s'.done p = s.done p + 1) (htaken : ∀ u ∈ T.kids p, s'.taken u = s.taken u) :
    ¬ s'.Complete T m p := by
  intro hc
  obtain ⟨u, hu⟩ := List.exists_mem_of_ne_nil _ hp
  have hge := hc u hu
  have hle := (h.edge p u hu).taken_lt
  rw [htaken u hu, hdone, Nat.mul_succ] at hge
  omega

variable [DecidableEq α]

theorem State.Open.hear (h : s.Open T m) (v : α) : (s.hear T v).Open T m := by
  intro p hp hc
  refine h p hp fun u hu => ?_
  have hdone : (s.hear T v).done p = s.done p := by
    rw [State.hear_done, if_neg]
    rintro ⟨rfl, hl⟩
    exact hp hl
  have := hc u hu
  rwa [hdone] at this

theorem State.Open.take (h : s.Open T m) (hinv : Inv T m R s) {p v : α} (hv : v ∈ T.kids p)
    (hlt : s.taken v < m * s.done v) : (s.take T m R p v).Open T m := by
  have hm : 0 < m := Nat.pos_of_ne_zero fun h0 => by
    rw [h0, Nat.zero_mul] at hlt
    exact Nat.not_lt_zero _ hlt
  have hp : T.kids p ≠ [] := List.ne_nil_of_mem hv
  have hother : ∀ q, q ≠ p → T.kids q ≠ [] → ¬ (s.takePart v).Complete T m q := by
    intro q hq hk hc
    refine h q hk fun u hu => ?_
    have hne : u ≠ v := fun e => hq (T.parent_unique q p v (e ▸ hu) hv)
    have := hc u hu
    rwa [State.takePart_taken, if_neg hne] at this
  intro q hq
  unfold State.take
  by_cases hc : (s.takePart v).Complete T m p
  · rw [if_pos hc]
    by_cases hqp : q = p
    · subst hqp
      refine (hinv.takePart hlt).not_complete hm hq ?_ fun u _ => rfl
      rw [State.finish_done, if_pos rfl]
    · intro hcq
      refine hother q hqp hq fun u hu => ?_
      have := hcq u hu
      rwa [State.finish_done, if_neg hqp] at this
  · rw [if_neg hc]
    by_cases hqp : q = p
    · rw [hqp]
      exact hc
    · exact hother q hqp hq

theorem step_open (hinv : Inv T m R s) (h : s.Open T m) {a : Action α}
    (hs : step T m R s a = some s') : s'.Open T m := by
  cases a with
  | start =>
    rw [step] at hs
    split at hs
    · cases hs
      exact h
    · cases hs
  | hear p v =>
    rw [step] at hs
    split at hs
    · cases hs
      exact h.hear v
    · cases hs
  | take p v =>
    rw [step] at hs
    split at hs
    · rename_i hg
      cases hs
      exact h.take hinv hg.1 hg.2
    · cases hs

theorem open_of_reachable (hkids : T.kids T.root ≠ []) (hm : 0 < m)
    (h : Reachable (step T m R) .init s) : s.Open T m := by
  obtain ⟨as, has⟩ := h
  exact (runs_invariant (I := fun s => Inv T m R s ∧ s.Open T m)
    (fun _ _ _ hi hs => ⟨step_inv hkids hi.1 hs, step_open hi.1 hi.2 hs⟩)
    ⟨Inv.init, State.Open.init hm⟩ has).2

/-! ## Every message leaves less to do -/

section
variable {ns : List α}

omit [DecidableEq α] in
theorem work_lt (hasked : ∀ u, s.asked u ≤ s'.asked u) (htaken : ∀ u, s.taken u ≤ s'.taken u)
    {v : α} (hv : v ∈ ns)
    (hless : s.asked v < s'.asked v ∧ s.asked v < R ∨ s.taken v < s'.taken v ∧ s.taken v < m * R) :
    s'.work m R ns < s.work m R ns := by
  refine List.sum_lt_sum _ _ (fun u _ => ?_) ⟨v, hv, ?_⟩
  · have := hasked u
    have := htaken u
    omega
  · have := hasked v
    have := htaken v
    omega

theorem State.take_asked_le (p v u : α) : s.asked u ≤ (s.take T m R p v).asked u := by
  unfold State.take
  split
  · rw [State.finish_asked]
    split
    · rename_i hu
      rw [hu.1]
      exact Nat.le_succ _
    · exact Nat.le_refl _
  · exact Nat.le_refl _

theorem State.take_taken (p v u : α) :
    (s.take T m R p v).taken u = if u = v then s.taken v + 1 else s.taken u := by
  unfold State.take
  split
  · exact State.takePart_taken s v u
  · exact State.takePart_taken s v u

theorem Inv.work_hear (h : Inv T m R s) {p v : α} (hv : v ∈ ns) (hlt : s.asked v < s.asked p) :
    (s.hear T v).work m R ns < s.work m R ns := by
  refine work_lt (fun u => ?_) (fun _ => Nat.le_refl _) hv (Or.inl ⟨?_, ?_⟩)
  · rw [State.hear_asked]
    split
    · rename_i hu
      rw [hu]
      exact Nat.le_succ _
    · exact Nat.le_refl _
  · rw [State.hear_asked, if_pos rfl]
    exact Nat.lt_succ_self _
  · exact Nat.lt_of_lt_of_le hlt (h.asked_le p)

theorem Inv.work_take (h : Inv T m R s) {p v : α} (hkid : v ∈ T.kids p) (hv : v ∈ ns)
    (hlt : s.taken v < m * s.done v) : (s.take T m R p v).work m R ns < s.work m R ns := by
  refine work_lt (fun u => State.take_asked_le p v u) (fun u => ?_) hv (Or.inr ⟨?_, ?_⟩)
  · rw [State.take_taken]
    split
    · rename_i hu
      rw [hu]
      exact Nat.le_succ _
    · exact Nat.le_refl _
  · rw [State.take_taken, if_pos rfl]
    exact Nat.lt_succ_self _
  · have hdone := Nat.le_trans (h.edge p v hkid).done_le_asked (h.asked_le v)
    exact Nat.lt_of_lt_of_le hlt (Nat.mul_le_mul_left m hdone)

theorem step_work (hns : ∀ p v, v ∈ T.kids p → v ∈ ns) (h : Inv T m R s) {a : Action α}
    (ha : a ≠ .start) (hs : step T m R s a = some s') :
    s'.work m R ns < s.work m R ns ∧ s'.started = s.started := by
  cases a with
  | start => exact absurd rfl ha
  | hear p v =>
    rw [step] at hs
    split at hs
    · rename_i hg
      cases hs
      exact ⟨h.work_hear (hns p v hg.1) hg.2, rfl⟩
    · cases hs
  | take p v =>
    rw [step] at hs
    split at hs
    · rename_i hg
      cases hs
      refine ⟨h.work_take hg.1 (hns p v hg.1) hg.2, ?_⟩
      unfold State.take
      split <;> rfl
    · cases hs

/-- A run after the start is at most as long as there was work. -/
theorem runs_work (hkids : T.kids T.root ≠ []) (hns : ∀ p v, v ∈ T.kids p → v ∈ ns)
    (as : List (Action α)) : ∀ s : State α, Inv T m R s → .start ∉ as →
      runs (step T m R) s as = some s' →
      s'.work m R ns + as.length ≤ s.work m R ns ∧ s'.started = s.started := by
  induction as with
  | nil =>
    intro s _ _ h
    cases h
    exact ⟨Nat.le_refl _, rfl⟩
  | cons a as ih =>
    intro s hinv ha h
    rw [runs_cons, Option.bind_eq_some_iff] at h
    obtain ⟨u, hu, h⟩ := h
    have hstep := step_work hns hinv (fun e => ha (e ▸ List.mem_cons_self)) hu
    have hrest := ih u (step_inv hkids hinv hu) (fun e => ha (List.mem_cons_of_mem _ e)) h
    refine ⟨?_, hrest.2.trans hstep.2⟩
    have := hrest.1
    have := hstep.1
    rw [List.length_cons]
    omega

end

/-! ## When nothing is left -/

omit [DecidableEq α] in
/-- Every node has finished what it was asked for: the leaves first. -/
theorem State.Quiet.done_eq (hq : s.Quiet T m) (h : Inv T m R s) (hopen : s.Open T m)
    (hwf : WellFounded fun v p => v ∈ T.kids p) (hroot : T.kids T.root ≠ []) (p : α)
    (hp : p = T.root ∨ ∃ q, p ∈ T.kids q) : s.done p = s.asked p := by
  induction p using hwf.induction with
  | h p ih =>
    by_cases hl : T.kids p = []
    · rcases hp with rfl | ⟨q, hpq⟩
      · exact absurd hl hroot
      · exact h.leaf q p hpq hl
    · obtain ⟨v, hv⟩ := List.exists_mem_of_ne_nil _ hl
      have hle := (h.edge p v hv).done_le_asked_parent
      by_contra hne
      refine hopen p hl fun u hu => ?_
      have hasked := (h.edge p u hu).asked_le_done
      rw [hq.taken p u hu, ih u hu (Or.inr ⟨p, hu⟩), hq.heard p u hu]
      exact Nat.mul_le_mul_left m (by omega)

omit [DecidableEq α] in
/-- The root has finished all rounds. -/
theorem State.Quiet.done_root (hq : s.Quiet T m) (h : Inv T m R s) (hopen : s.Open T m)
    (hwf : WellFounded fun v p => v ∈ T.kids p) (hroot : T.kids T.root ≠ [])
    (hs : s.started = true) : s.done T.root = R := by
  have hdone := hq.done_eq h hopen hwf hroot T.root (Or.inl rfl)
  have hasked := h.root
  rw [hs, if_pos rfl] at hasked
  have := h.done_root_le hroot
  omega

omit [DecidableEq α] in
/-- A node has finished all rounds when its parent has. -/
theorem Inv.done_kid (h : Inv T m R s) {p v : α} (hv : v ∈ T.kids p) (hp : s.done p = R) :
    s.done v = R := by
  have he := h.edge p v hv
  have := h.asked_le v
  have := he.done_le
  have := he.done_le_asked
  omega

/-! ## Labelled trees are finite -/

section
variable (t : RoseTree α) (hnd : t.labels.Nodup)

open RoseTree

theorem kid_mem_labels (p v : α) (hv : v ∈ (Topology.ofTree t hnd).kids p) : v ∈ t.labels := by
  obtain ⟨s, hs, -, c, hc, rfl⟩ := mem_kidsOf t hv
  rw [labels_eq_map]
  exact List.mem_map_of_mem (child_mem_subtrees hs hc)

/-- The subtree of a child is smaller. -/
theorem kids_wf : WellFounded fun v p => v ∈ (Topology.ofTree t hnd).kids p := by
  refine Subrelation.wf (r := InvImage (· < ·) fun a =>
    ((t.subtrees.find? fun s => s.label = a).map size).getD 0) ?_ (InvImage.wf _ Nat.lt_wfRel.wf)
  intro v p hv
  obtain ⟨s, hs, rfl, c, hc, rfl⟩ := mem_kidsOf t hv
  show ((t.subtrees.find? fun u => u.label = c.label).map size).getD 0 <
    ((t.subtrees.find? fun u => u.label = s.label).map size).getD 0
  rw [find_label t hnd hs, find_label t hnd (child_mem_subtrees hs hc)]
  cases s with
  | node a cs => exact size_child a hc

end

end Rounds
