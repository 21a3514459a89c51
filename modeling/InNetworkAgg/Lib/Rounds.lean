import InNetworkAgg.Lib.PartialRun
import InNetworkAgg.Lib.RoseTree

/-!
Rounds on a tree by request and answer.  The root opens a round by asking its
children; a node that is asked asks its own children, and a leaf answers; an
answer comes in `m` parts, and a node that has taken all parts of a round from
all its children has finished the round and answers its parent.  Nothing in a
message says which round it belongs to.  Still a node and its children are
never more than one round apart:

    done p ≤ done v ≤ asked v ≤ asked p ≤ done p + 1
    m * done p ≤ taken v ≤ m * done v                         (Inv, step_inv, inv_of_reachable)

so a part that can be taken is part `taken v - m * done p < m` of the round that
its taker is in (`Inv.part`), and the root has asked for `min (done + 1) R` rounds.
-/

namespace Rounds

open PartialRun

/-- The children of every node of a tree. -/
structure Topology (α : Type*) where
  root : α
  kids : α → List α
  kids_nodup : ∀ p, (kids p).Nodup
  root_not_kid : ∀ p, root ∉ kids p
  parent_unique : ∀ p q v, v ∈ kids p → v ∈ kids q → p = q
  asymm : ∀ p v, v ∈ kids p → p ∉ kids v

structure State (α : Type*) where
  started : Bool
  /-- requests that reached the node; at the root the rounds it has opened -/
  asked : α → Nat
  /-- rounds the node has finished, that is answered -/
  done : α → Nat
  /-- parts of the node's answers that its parent has taken -/
  taken : α → Nat

inductive Action (α : Type*) where
  | start
  | hear (p v : α)
  | take (p v : α)

variable {α : Type*} (T : Topology α) (m R : Nat)

/-! ## Algorithm -/

def State.init : State α :=
  { started := false, asked := fun _ => 0, done := fun _ => 0, taken := fun _ => 0 }

/-- Node `p` has all parts of its round. -/
def State.Complete (s : State α) (p : α) : Prop := ∀ u ∈ T.kids p, m * (s.done p + 1) ≤ s.taken u

instance (s : State α) (p : α) : Decidable (s.Complete T m p) := by
  unfold State.Complete
  infer_instance

section
variable [DecidableEq α]

def State.start (s : State α) : State α :=
  { s with started := true, asked := Function.update s.asked T.root (if 0 < R then 1 else 0) }

/-- A request reaches `v`. -/
def State.hear (s : State α) (v : α) : State α :=
  { s with
    asked := Function.update s.asked v (s.asked v + 1)
    done := if T.kids v = [] then Function.update s.done v (s.done v + 1) else s.done }

/-- One part of an answer goes from `v` on. -/
def State.takePart (s : State α) (v : α) : State α :=
  { s with taken := Function.update s.taken v (s.taken v + 1) }

/-- Node `p` finishes its round; the root goes on to the next. -/
def State.finish (s : State α) (p : α) : State α :=
  { s with
    done := Function.update s.done p (s.done p + 1)
    asked := if p = T.root ∧ s.done p + 1 < R then Function.update s.asked p (s.asked p + 1)
      else s.asked }

def State.take (s : State α) (p v : α) : State α :=
  if (s.takePart v).Complete T m p then (s.takePart v).finish T R p else s.takePart v

def step (s : State α) : Action α → Option (State α)
  | .start => if s.started = false then some (s.start T R) else none
  | .hear p v => if v ∈ T.kids p ∧ s.asked v < s.asked p then some (s.hear T v) else none
  | .take p v =>
    if v ∈ T.kids p ∧ s.taken v < m * s.done v then some (s.take T m R p v) else none

variable (s : State α) (p v u : α)

theorem State.start_asked :
    (s.start T R).asked u = if u = T.root then (if 0 < R then 1 else 0) else s.asked u :=
  Function.update_apply _ _ _ _

theorem State.hear_asked : (s.hear T v).asked u = if u = v then s.asked v + 1 else s.asked u :=
  Function.update_apply _ _ _ _

theorem State.hear_done :
    (s.hear T v).done u = if u = v ∧ T.kids v = [] then s.done v + 1 else s.done u := by
  unfold State.hear
  by_cases hl : T.kids v = []
  · rw [if_pos hl]
    simp only [hl, and_true]
    exact Function.update_apply _ _ _ _
  · rw [if_neg hl, if_neg fun h => hl h.2]

theorem State.takePart_taken :
    (s.takePart v).taken u = if u = v then s.taken v + 1 else s.taken u :=
  Function.update_apply _ _ _ _

theorem State.finish_done :
    (s.finish T R p).done u = if u = p then s.done p + 1 else s.done u :=
  Function.update_apply _ _ _ _

theorem State.finish_asked : (s.finish T R p).asked u =
    if u = p ∧ p = T.root ∧ s.done p + 1 < R then s.asked p + 1 else s.asked u := by
  unfold State.finish
  by_cases hr : p = T.root ∧ s.done p + 1 < R
  · rw [if_pos hr]
    show Function.update s.asked p (s.asked p + 1) u = _
    rw [Function.update_apply]
    by_cases hu : u = p
    · rw [if_pos hu, if_pos ⟨hu, hr⟩]
    · rw [if_neg hu, if_neg fun h => hu h.1]
  · rw [if_neg hr, if_neg fun h => hr h.2]

end

/-! ## The invariant -/

/-- What holds between a node and its child. -/
structure Edge (s : State α) (p v : α) : Prop where
  done_le : s.done p ≤ s.done v
  done_le_asked : s.done v ≤ s.asked v
  asked_le : s.asked v ≤ s.asked p
  asked_le_done : s.asked p ≤ s.done p + 1
  taken_ge : m * s.done p ≤ s.taken v
  taken_le : s.taken v ≤ m * s.done v

structure Inv (s : State α) : Prop where
  root : s.asked T.root = if s.started then min (s.done T.root + 1) R else 0
  asked_le : ∀ v, s.asked v ≤ R
  leaf : ∀ p v, v ∈ T.kids p → T.kids v = [] → s.done v = s.asked v
  edge : ∀ p v, v ∈ T.kids p → Edge m s p v
  silent : m = 0 → ∀ p, T.kids p ≠ [] → s.done p = 0

variable {T m R} {s : State α}

theorem Inv.init : Inv T m R (.init : State α) where
  root := rfl
  asked_le := fun _ => Nat.zero_le _
  leaf := fun _ _ _ _ => rfl
  edge := fun _ _ _ => ⟨Nat.le_refl _, Nat.le_refl _, Nat.le_refl _, Nat.zero_le _, Nat.le_refl _, Nat.le_refl _⟩
  silent := fun _ _ _ => rfl

/-! ## Consequences -/

/-- A node is at most one round behind its parent's request. -/
theorem Edge.done_lt {p v : α} (h : Edge m s p v) : s.done v ≤ s.done p + 1 :=
  Nat.le_trans h.done_le_asked (Nat.le_trans h.asked_le h.asked_le_done)

theorem Edge.taken_lt {p v : α} (h : Edge m s p v) : s.taken v ≤ m * (s.done p + 1) :=
  Nat.le_trans h.taken_le (Nat.mul_le_mul_left m h.done_lt)

/-- At most one request is on the way. -/
theorem Edge.request {p v : α} (h : Edge m s p v) : s.asked p ≤ s.asked v + 1 := by
  have := h.asked_le_done
  have := h.done_le
  have := h.done_le_asked
  omega

theorem Edge.done_le_asked_parent {p v : α} (h : Edge m s p v) : s.done p ≤ s.asked p :=
  Nat.le_trans h.done_le (Nat.le_trans h.done_le_asked h.asked_le)

/-- It looks at five counters. -/
theorem Edge.congr {s' : State α} {p v : α} (h : Edge m s p v) (hdp : s'.done p = s.done p)
    (hap : s'.asked p = s.asked p) (hdv : s'.done v = s.done v) (hav : s'.asked v = s.asked v)
    (htv : s'.taken v = s.taken v) : Edge m s' p v where
  done_le := by rw [hdp, hdv]; exact h.done_le
  done_le_asked := by rw [hdv, hav]; exact h.done_le_asked
  asked_le := by rw [hav, hap]; exact h.asked_le
  asked_le_done := by rw [hap, hdp]; exact h.asked_le_done
  taken_ge := by rw [hdp, htv]; exact h.taken_ge
  taken_le := by rw [htv, hdv]; exact h.taken_le

/-- A part that can be taken belongs to the round its taker is in. -/
theorem Edge.part {p v : α} (h : Edge m s p v) (ht : s.taken v < m * s.done v) :
    s.done v = s.done p + 1 ∧ ∃ i < m, s.taken v = m * s.done p + i := by
  have hge := h.taken_ge
  have hlt : s.done p < s.done v := by
    by_contra hcon
    have := Nat.mul_le_mul_left m (show s.done v ≤ s.done p by omega)
    omega
  have hdone : s.done v = s.done p + 1 := Nat.le_antisymm h.done_lt hlt
  refine ⟨hdone, s.taken v - m * s.done p, ?_, by omega⟩
  rw [hdone, Nat.mul_succ] at ht
  omega

/-- Before the start nothing has been asked of the root's children. -/
theorem Inv.not_started (h : Inv T m R s) (hs : s.started = false) (hkids : T.kids T.root ≠ []) :
    s.asked T.root = 0 ∧ s.done T.root = 0 := by
  have hroot : s.asked T.root = 0 := by rw [h.root, hs]; rfl
  obtain ⟨v, hv⟩ := List.exists_mem_of_ne_nil _ hkids
  have hle := (h.edge _ v hv).done_le_asked_parent
  rw [hroot] at hle
  exact ⟨hroot, Nat.le_zero.1 hle⟩

theorem Inv.done_root_le (h : Inv T m R s) (hkids : T.kids T.root ≠ []) : s.done T.root ≤ R := by
  obtain ⟨v, hv⟩ := List.exists_mem_of_ne_nil _ hkids
  exact Nat.le_trans (h.edge _ v hv).done_le_asked_parent (h.asked_le _)

/-- A node with all parts of its round has been asked for it, and so have its children. -/
theorem Inv.complete {p : α} (h : Inv T m R s) (hm : 0 < m) (hc : s.Complete T m p) {u : α}
    (hu : u ∈ T.kids p) : s.done p + 1 ≤ s.done u ∧ s.done p + 1 ≤ s.asked p := by
  have he := h.edge p u hu
  have hle : s.done p + 1 ≤ s.done u := by
    have h1 := Nat.le_trans (hc u hu) he.taken_le
    exact Nat.le_of_mul_le_mul_left h1 hm
  exact ⟨hle, Nat.le_trans hle (Nat.le_trans he.done_le_asked he.asked_le)⟩

/-! ## Steps -/

variable [DecidableEq α]

theorem Inv.start (h : Inv T m R s) (hs : s.started = false) (hkids : T.kids T.root ≠ []) :
    Inv T m R (s.start T R) := by
  obtain ⟨hasked, hdone⟩ := h.not_started hs hkids
  have hother : ∀ v, v ≠ T.root → (s.start T R).asked v = s.asked v := by
    intro v hv
    rw [State.start_asked, if_neg hv]
  have hself : (s.start T R).asked T.root = if 0 < R then 1 else 0 := by
    rw [State.start_asked, if_pos rfl]
  refine ⟨?_, fun v => ?_, fun p v hv hleaf => ?_, fun p v hv => ?_, h.silent⟩
  · rw [hself]
    show _ = min (s.done T.root + 1) R
    rw [hdone]
    split <;> omega
  · by_cases hv : v = T.root
    · rw [hv, hself]
      split <;> omega
    · rw [hother v hv]
      exact h.asked_le v
  · rw [hother v fun hr => T.root_not_kid p (hr ▸ hv)]
    exact h.leaf p v hv hleaf
  · have he := h.edge p v hv
    have hv' := hother v fun hr => T.root_not_kid p (hr ▸ hv)
    refine ⟨he.done_le, ?_, ?_, ?_, he.taken_ge, he.taken_le⟩
    · rw [hv']
      exact he.done_le_asked
    · rw [hv']
      by_cases hp : p = T.root
      · have := he.asked_le
        rw [hp, hasked] at this
        omega
      · rw [hother p hp]
        exact he.asked_le
    · by_cases hp : p = T.root
      · rw [hp, hself]
        split <;> omega
      · rw [hother p hp]
        exact he.asked_le_done

theorem State.hear_asked_of_ne {u v : α} (hu : u ≠ v) : (s.hear T v).asked u = s.asked u := by
  rw [State.hear_asked, if_neg hu]

theorem State.hear_done_of_ne {u v : α} (hu : u ≠ v) : (s.hear T v).done u = s.done u := by
  rw [State.hear_done, if_neg fun h => hu h.1]

/-- A node with children does not answer. -/
theorem State.hear_done_inner {v : α} (hl : T.kids v ≠ []) : (s.hear T v).done v = s.done v := by
  rw [State.hear_done, if_neg fun h => hl h.2]

/-- The edge the request came over. -/
theorem Edge.hear_over {p v : α} (h : Edge m s p v) (hv : v ∈ T.kids p) (hlt : s.asked v < s.asked p) :
    Edge m (s.hear T v) p v := by
  have hp : p ≠ v := fun heq => T.asymm p v hv (heq ▸ hv)
  have hself : (s.hear T v).asked v = s.asked v + 1 := by rw [State.hear_asked, if_pos rfl]
  have hmono : s.done v ≤ (s.hear T v).done v ∧ (s.hear T v).done v ≤ s.asked v + 1 := by
    have := h.done_le_asked
    rw [State.hear_done]
    split <;> omega
  refine ⟨?_, ?_, ?_, ?_, ?_, ?_⟩
  · rw [State.hear_done_of_ne hp]
    exact Nat.le_trans h.done_le hmono.1
  · rw [hself]
    exact hmono.2
  · rw [hself, State.hear_asked_of_ne hp]
    omega
  · rw [State.hear_asked_of_ne hp, State.hear_done_of_ne hp]
    exact h.asked_le_done
  · rw [State.hear_done_of_ne hp]
    exact h.taken_ge
  · exact Nat.le_trans h.taken_le (Nat.mul_le_mul_left m hmono.1)

/-- The edges below the node that was asked. -/
theorem Edge.hear_below {p v u : α} (h : Edge m s v u) (hp : Edge m s p v) (hu : u ∈ T.kids v)
    (hlt : s.asked v < s.asked p) : Edge m (s.hear T v) v u := by
  have huv : u ≠ v := fun heq => T.asymm v u hu (heq ▸ hu)
  have hinner : (s.hear T v).done v = s.done v := State.hear_done_inner (List.ne_nil_of_mem hu)
  have hself : (s.hear T v).asked v = s.asked v + 1 := by rw [State.hear_asked, if_pos rfl]
  refine ⟨?_, ?_, ?_, ?_, ?_, ?_⟩
  · rw [hinner, State.hear_done_of_ne huv]
    exact h.done_le
  · rw [State.hear_done_of_ne huv, State.hear_asked_of_ne huv]
    exact h.done_le_asked
  · rw [State.hear_asked_of_ne huv, hself]
    have := h.asked_le
    omega
  · rw [hself, hinner]
    have := hp.asked_le_done
    have := hp.done_le
    omega
  · rw [hinner]
    exact h.taken_ge
  · rw [State.hear_done_of_ne huv]
    exact h.taken_le

theorem Inv.hear (h : Inv T m R s) {p v : α} (hv : v ∈ T.kids p) (hlt : s.asked v < s.asked p) :
    Inv T m R (s.hear T v) := by
  have hroot : v ≠ T.root := fun hr => T.root_not_kid p (hr ▸ hv)
  refine ⟨?_, fun u => ?_, fun q u hu hl => ?_, fun q u hu => ?_, fun hm q hq => ?_⟩
  · rw [State.hear_asked_of_ne hroot.symm, State.hear_done_of_ne hroot.symm]
    exact h.root
  · rw [State.hear_asked]
    split
    · have := h.asked_le p
      omega
    · exact h.asked_le u
  · by_cases huv : u = v
    · subst huv
      rw [State.hear_asked, State.hear_done, if_pos rfl, if_pos ⟨rfl, hl⟩, h.leaf q u hu hl]
    · rw [State.hear_asked_of_ne huv, State.hear_done_of_ne huv]
      exact h.leaf q u hu hl
  · have he := h.edge q u hu
    by_cases huv : u = v
    · subst huv
      obtain rfl : q = p := T.parent_unique q p u hu hv
      exact he.hear_over hu hlt
    · by_cases hqv : q = v
      · subst hqv
        exact he.hear_below (h.edge p q hv) hu hlt
      · exact he.congr (State.hear_done_of_ne hqv) (State.hear_asked_of_ne hqv)
          (State.hear_done_of_ne huv) (State.hear_asked_of_ne huv) rfl
  · by_cases hqv : q = v
    · subst hqv
      rw [State.hear_done_inner hq]
      exact h.silent hm q hq
    · rw [State.hear_done_of_ne hqv]
      exact h.silent hm q hq

theorem Inv.takePart (h : Inv T m R s) {v : α} (hlt : s.taken v < m * s.done v) :
    Inv T m R (s.takePart v) := by
  refine ⟨h.root, h.asked_le, h.leaf, fun q u hu => ?_, h.silent⟩
  have he := h.edge q u hu
  have hge := he.taken_ge
  have hle := he.taken_le
  refine ⟨he.done_le, he.done_le_asked, he.asked_le, he.asked_le_done, ?_, ?_⟩
  · rw [State.takePart_taken]
    show m * s.done q ≤ _
    split
    · rename_i huv
      rw [← huv]
      omega
    · exact hge
  · rw [State.takePart_taken]
    show _ ≤ m * s.done u
    split
    · rename_i huv
      rw [huv]
      omega
    · exact hle

theorem State.finish_done_of_ne {p q : α} (hq : q ≠ p) : (s.finish T R p).done q = s.done q := by
  rw [State.finish_done, if_neg hq]

/-- Only the root goes on to the next round by itself. -/
theorem State.finish_asked_of_ne {p q : α} (hq : q ≠ p ∨ q ≠ T.root) :
    (s.finish T R p).asked q = s.asked q := by
  rw [State.finish_asked, if_neg]
  rintro ⟨rfl, hr, -⟩
  exact hq.elim (fun h => h rfl) fun h => h hr

/-- What a node that has all parts of its round was asked for, and what it is asked for then. -/
structure Finishing (T : Topology α) (R : Nat) (s : State α) (p : α) : Prop where
  asked_eq : s.asked p = s.done p + 1
  le_rounds : s.done p + 1 ≤ R
  started : p = T.root → s.started = true
  next : (s.finish T R p).asked p = if p = T.root then min (s.done p + 2) R else s.asked p

theorem Inv.finishing (h : Inv T m R s) {p : α} (hm : 0 < m) (hkids : T.kids p ≠ [])
    (hc : s.Complete T m p) : Finishing T R s p := by
  obtain ⟨u, hu⟩ := List.exists_mem_of_ne_nil _ hkids
  have hge := (h.complete hm hc hu).2
  have hle := (h.edge p u hu).asked_le_done
  have hR := h.asked_le p
  refine ⟨by omega, by omega, fun hp => ?_, ?_⟩
  · by_contra hcon
    have := h.root
    rw [if_neg hcon, ← hp] at this
    omega
  · rw [State.finish_asked]
    by_cases hp : p = T.root
    · rw [if_pos hp]
      by_cases hlt : s.done p + 1 < R
      · rw [if_pos ⟨rfl, hp, hlt⟩]
        omega
      · rw [if_neg fun h => hlt h.2.2]
        omega
    · rw [if_neg hp, if_neg fun h => hp h.2.1]

theorem Finishing.asked_mono {p : α} (h : Finishing T R s p) :
    s.asked p ≤ (s.finish T R p).asked p ∧ (s.finish T R p).asked p ≤ s.done p + 2 := by
  have := h.asked_eq
  have := h.le_rounds
  rw [h.next]
  split <;> omega

/-- The edge to the parent. -/
theorem Edge.finish_above {q p : α} (h : Edge m s q p) (hp : p ∈ T.kids q) (hf : Finishing T R s p) :
    Edge m (s.finish T R p) q p := by
  have hq : q ≠ p := fun e => T.asymm q p hp (e ▸ hp)
  have hr : p ≠ T.root := fun e => T.root_not_kid q (e ▸ hp)
  have hself : (s.finish T R p).done p = s.done p + 1 := by rw [State.finish_done, if_pos rfl]
  refine ⟨?_, ?_, ?_, ?_, ?_, ?_⟩
  · rw [hself, State.finish_done_of_ne hq]
    exact Nat.le_succ_of_le h.done_le
  · rw [hself, State.finish_asked_of_ne (Or.inr hr)]
    exact hf.asked_eq.ge
  · rw [State.finish_asked_of_ne (Or.inr hr), State.finish_asked_of_ne (Or.inl hq)]
    exact h.asked_le
  · rw [State.finish_asked_of_ne (Or.inl hq), State.finish_done_of_ne hq]
    exact h.asked_le_done
  · rw [State.finish_done_of_ne hq]
    exact h.taken_ge
  · rw [hself]
    exact Nat.le_trans h.taken_le (Nat.mul_le_mul_left m (Nat.le_succ _))

/-- The edges to the children. -/
theorem Edge.finish_below {p v : α} (h : Edge m s p v) (hv : v ∈ T.kids p) (hf : Finishing T R s p)
    (hdone : s.done p + 1 ≤ s.done v) (htaken : m * (s.done p + 1) ≤ s.taken v) :
    Edge m (s.finish T R p) p v := by
  have hvp : v ≠ p := fun e => T.asymm p v hv (e ▸ hv)
  have hself : (s.finish T R p).done p = s.done p + 1 := by rw [State.finish_done, if_pos rfl]
  refine ⟨?_, ?_, ?_, ?_, ?_, ?_⟩
  · rw [hself, State.finish_done_of_ne hvp]
    exact hdone
  · rw [State.finish_done_of_ne hvp, State.finish_asked_of_ne (Or.inl hvp)]
    exact h.done_le_asked
  · rw [State.finish_asked_of_ne (Or.inl hvp)]
    exact Nat.le_trans h.asked_le hf.asked_mono.1
  · rw [hself]
    exact hf.asked_mono.2
  · rw [hself]
    exact htaken
  · rw [State.finish_done_of_ne hvp]
    exact h.taken_le

theorem Inv.finish (h : Inv T m R s) {p : α} (hm : 0 < m) (hkids : T.kids p ≠ [])
    (hc : s.Complete T m p) : Inv T m R (s.finish T R p) := by
  have hf := h.finishing hm hkids hc
  have hself : (s.finish T R p).done p = s.done p + 1 := by rw [State.finish_done, if_pos rfl]
  refine ⟨?_, fun v => ?_, fun q v hv hl => ?_, fun q v hv => ?_, fun h0 => absurd h0 (by omega)⟩
  · by_cases hp : p = T.root
    · show _ = if s.started then _ else 0
      rw [if_pos (hf.started hp), ← hp, hself, hf.next, if_pos hp]
    · rw [State.finish_asked_of_ne (Or.inl (Ne.symm hp)), State.finish_done_of_ne (Ne.symm hp)]
      exact h.root
  · by_cases hv : v = p
    · rw [hv, hf.next]
      split
      · exact Nat.min_le_right _ _
      · exact h.asked_le p
    · rw [State.finish_asked_of_ne (Or.inl hv)]
      exact h.asked_le v
  · have hvp : v ≠ p := fun e => hkids (e ▸ hl)
    rw [State.finish_done_of_ne hvp, State.finish_asked_of_ne (Or.inl hvp)]
    exact h.leaf q v hv hl
  · have he := h.edge q v hv
    by_cases hvp : v = p
    · subst hvp
      exact he.finish_above hv hf
    · by_cases hqp : q = p
      · subst hqp
        exact he.finish_below hv hf (h.complete hm hc hv).1 (hc v hv)
      · exact he.congr (State.finish_done_of_ne hqp) (State.finish_asked_of_ne (Or.inl hqp))
          (State.finish_done_of_ne hvp) (State.finish_asked_of_ne (Or.inl hvp)) rfl

theorem step_inv (hkids : T.kids T.root ≠ []) {a : Action α} {s' : State α} (h : Inv T m R s)
    (hs : step T m R s a = some s') : Inv T m R s' := by
  cases a with
  | start =>
    rw [step] at hs
    split at hs
    · cases hs
      exact h.start ‹_› hkids
    · cases hs
  | hear p v =>
    rw [step] at hs
    split at hs
    · rename_i hg
      cases hs
      exact h.hear hg.1 hg.2
    · cases hs
  | take p v =>
    rw [step] at hs
    split at hs
    · rename_i hg
      cases hs
      have hm : 0 < m := Nat.pos_of_ne_zero fun h0 => by
        rw [h0, Nat.zero_mul] at hg
        omega
      have hpart := h.takePart hg.2
      unfold State.take
      split
      · exact hpart.finish hm (List.ne_nil_of_mem hg.1) ‹_›
      · exact hpart
    · cases hs

theorem inv_of_reachable (hkids : T.kids T.root ≠ []) (h : Reachable (step T m R) .init s) :
    Inv T m R s := by
  obtain ⟨as, has⟩ := h
  exact runs_invariant (fun _ _ _ hi hs => step_inv hkids hi hs) Inv.init has

/-! ## The topology of a labelled tree -/

section
variable (t : RoseTree α)

open RoseTree

/-- The labels of the children of the node with a label. -/
def kidsOf (a : α) : List α :=
  match t.subtrees.find? fun s => s.label = a with
  | some s => s.children.map label
  | none => []

/-- Where a label is looked up. -/
theorem find_label (hnd : t.labels.Nodup) {s : RoseTree α} (hs : s ∈ t.subtrees) :
    (t.subtrees.find? fun u => u.label = s.label) = some s := by
  cases hf : t.subtrees.find? fun u => u.label = s.label with
  | none =>
    have := List.find?_eq_none.1 hf s hs
    simp at this
  | some u =>
    have hlabel : u.label = s.label := by simpa using List.find?_some hf
    rw [subtree_ext hnd (List.mem_of_find?_eq_some hf) hs hlabel]

theorem kidsOf_label (hnd : t.labels.Nodup) {s : RoseTree α} (hs : s ∈ t.subtrees) :
    kidsOf t s.label = s.children.map label := by
  rw [kidsOf, find_label t hnd hs]

theorem mem_kidsOf {a v : α} (h : v ∈ kidsOf t a) :
    ∃ s ∈ t.subtrees, s.label = a ∧ ∃ c ∈ s.children, c.label = v := by
  unfold kidsOf at h
  cases hf : t.subtrees.find? fun s => s.label = a with
  | none =>
    rw [hf] at h
    cases h
  | some s =>
    rw [hf] at h
    exact ⟨s, List.mem_of_find?_eq_some hf, by simpa using List.find?_some hf, List.mem_map.1 h⟩

/-- A tree with distinct labels is a topology. -/
def Topology.ofTree (hnd : t.labels.Nodup) : Topology α where
  root := t.label
  kids := kidsOf t
  kids_nodup := by
    intro p
    unfold kidsOf
    split
    · rename_i s hs
      exact children_labels_nodup hnd (List.mem_of_find?_eq_some hs)
    · exact List.nodup_nil
  root_not_kid := by
    intro p hr
    obtain ⟨s, hs, -, c, hc, hlabel⟩ := mem_kidsOf t hr
    exact root_not_child hnd hs hc hlabel
  parent_unique := by
    intro p q v hp hq
    obtain ⟨s, hs, rfl, c, hc, rfl⟩ := mem_kidsOf t hp
    obtain ⟨s', hs', rfl, c', hc', hlabel⟩ := mem_kidsOf t hq
    rw [RoseTree.parent_unique hnd hs hs' hc hc' hlabel.symm]
  asymm := by
    intro p v hv hp
    obtain ⟨s, hs, rfl, c, hc, rfl⟩ := mem_kidsOf t hv
    obtain ⟨s', hs', hlabel, c', hc', hlabel'⟩ := mem_kidsOf t hp
    exact parent_not_child hnd hs hs' hc hc' hlabel.symm hlabel'

end

end Rounds
