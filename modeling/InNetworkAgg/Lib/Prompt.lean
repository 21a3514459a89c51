import InNetworkAgg.Lib.Quiet

/-!
Rounds on a tree end in time.  When the root starts by the time `first` and every
message is handled at most `hop` after it was sent, then round number `r`, counted
from 0, has come down to a node and up to it again by

    askedBy r v = first + (2 * height root * r + (height root - height v)) * hop
    doneBy r v = first + (2 * height root * r + (height root + height v)) * hop

(`Prompt.asked`, `Prompt.done`), and the root has finished `r` rounds when
`2 * height root * r * hop` is over (`Prompt.done_root`).
-/

namespace Rounds

variable {α : Type*}

/-! ## When a message is due -/

structure Schedule (T : Topology α) where
  first : Nat
  hop : Nat
  height : α → Nat
  height_kid : ∀ p v, v ∈ T.kids p → height v < height p
  height_le : ∀ v, height v ≤ height T.root

namespace Schedule

variable {T : Topology α} (S : Schedule T)

/-- The node has heard request number `r`. -/
def askedBy (r : Nat) (v : α) : Nat :=
  S.first + (2 * S.height T.root * r + (S.height T.root - S.height v)) * S.hop

/-- The node has finished round number `r`. -/
def doneBy (r : Nat) (v : α) : Nat :=
  S.first + (2 * S.height T.root * r + (S.height T.root + S.height v)) * S.hop

theorem first_le_askedBy (r : Nat) (v : α) : S.first ≤ S.askedBy r v := Nat.le_add_right _ _

theorem add_hop_le {n n' : Nat} (h : n < n') :
    S.first + n * S.hop + S.hop ≤ S.first + n' * S.hop := by
  have hmul := Nat.mul_le_mul_right S.hop (Nat.succ_le_of_lt h)
  rw [Nat.succ_mul] at hmul
  omega

theorem askedBy_kid {p v : α} (hv : v ∈ T.kids p) (r : Nat) :
    S.askedBy r p + S.hop ≤ S.askedBy r v := by
  have hlt := S.height_kid p v hv
  have hle := S.height_le p
  exact S.add_hop_le (by omega)

theorem doneBy_kid {p v : α} (hv : v ∈ T.kids p) (r : Nat) :
    S.doneBy r v + S.hop ≤ S.doneBy r p := by
  have hlt := S.height_kid p v hv
  exact S.add_hop_le (by omega)

theorem askedBy_le_doneBy (r : Nat) (v : α) : S.askedBy r v ≤ S.doneBy r v :=
  Nat.add_le_add_left (Nat.mul_le_mul_right _ (by omega)) _

theorem askedBy_mono {r r' : Nat} (h : r ≤ r') (v : α) : S.askedBy r v ≤ S.askedBy r' v :=
  Nat.add_le_add_left (Nat.mul_le_mul_right _ (Nat.add_le_add_right (Nat.mul_le_mul_left _ h) _)) _

theorem doneBy_mono {r r' : Nat} (h : r ≤ r') (v : α) : S.doneBy r v ≤ S.doneBy r' v :=
  Nat.add_le_add_left (Nat.mul_le_mul_right _ (Nat.add_le_add_right (Nat.mul_le_mul_left _ h) _)) _

/-- The root goes on with the next round when it has finished one. -/
theorem doneBy_root (r : Nat) : S.doneBy r T.root = S.askedBy (r + 1) T.root := by
  unfold doneBy askedBy
  rw [Nat.sub_self, Nat.add_zero, Nat.mul_succ]
  congr 2
  omega

end Schedule

/-! ## No message is overdue -/

/-- At the time `now` no message that has not been handled is overdue. -/
structure Prompt {T : Topology α} (S : Schedule T) (m R : Nat) (s : State α) (now : Nat) : Prop where
  start : s.started = false → now ≤ S.first
  hear : ∀ p v, v ∈ T.kids p → ∀ r < R, s.asked v ≤ r → now ≤ S.askedBy r p + S.hop
  take : ∀ p v, v ∈ T.kids p → ∀ j < m * R, s.taken v ≤ j → now ≤ S.doneBy (j / m) v + S.hop

section
variable {T : Topology α} {S : Schedule T} {m R : Nat} {s : State α} {now : Nat}

/-- A node that has not finished a round waits for a child. -/
theorem Prompt.done_inner (h : Prompt S m R s now) (hopen : s.Open T m) {p : α}
    (hkids : T.kids p ≠ []) {r : Nat} (hr : r < R) (hdone : s.done p ≤ r) :
    now ≤ S.doneBy r p := by
  obtain ⟨u, hu, htaken⟩ : ∃ u ∈ T.kids p, s.taken u < m * (s.done p + 1) := by
    have hnot := hopen p hkids
    unfold State.Complete at hnot
    push Not at hnot
    exact hnot
  have hm : 0 < m := Nat.pos_of_mul_pos_right (Nat.lt_of_le_of_lt (Nat.zero_le _) htaken)
  have hle := Nat.mul_le_mul_left m (show s.done p + 1 ≤ R by omega)
  have hsucc : m * (s.done p + 1) = m * s.done p + m := Nat.mul_succ m (s.done p)
  have hround : (m * (s.done p + 1) - 1) / m = s.done p := by
    refine Nat.div_eq_of_lt_le ?_ ?_
    · rw [Nat.mul_comm (s.done p)]
      omega
    · rw [Nat.mul_comm (s.done p + 1)]
      omega
  have hnow := h.take p u hu (m * (s.done p + 1) - 1) (by omega) (by omega)
  rw [hround] at hnow
  exact hnow.trans ((S.doneBy_kid hu _).trans (S.doneBy_mono hdone p))

theorem Prompt.asked (h : Prompt S m R s now) (hinv : Inv T m R s) (hopen : s.Open T m)
    (hroot : T.kids T.root ≠ []) {v : α} (hv : v = T.root ∨ ∃ p, v ∈ T.kids p) {r : Nat}
    (hr : r < R) (hasked : s.asked v ≤ r) : now ≤ S.askedBy r v := by
  rcases hv with rfl | ⟨p, hp⟩
  · have heq := hinv.root
    split at heq
    · -- the request of the next round goes out with the end of the one before
      obtain ⟨r', rfl⟩ : ∃ r', r = r' + 1 := ⟨r - 1, by omega⟩
      rw [← S.doneBy_root]
      exact h.done_inner hopen hroot (by omega) (by omega)
    · exact (h.start (Bool.eq_false_iff.2 ‹_›)).trans (S.first_le_askedBy r _)
  · exact (h.hear p v hp r hr hasked).trans (S.askedBy_kid hp r)

theorem Prompt.done (h : Prompt S m R s now) (hinv : Inv T m R s) (hopen : s.Open T m)
    (hroot : T.kids T.root ≠ []) {p v : α} (hv : v ∈ T.kids p) {r : Nat} (hr : r < R)
    (hdone : s.done v ≤ r) : now ≤ S.doneBy r v := by
  by_cases hleaf : T.kids v = []
  · rw [hinv.leaf p v hv hleaf] at hdone
    exact (h.asked hinv hopen hroot (.inr ⟨p, hv⟩) hr hdone).trans (S.askedBy_le_doneBy r v)
  · exact h.done_inner hopen hleaf hr hdone

/-- The root has finished its rounds in time. -/
theorem Prompt.done_root (h : Prompt S m R s now) (hopen : s.Open T m) (hroot : T.kids T.root ≠ [])
    {r : Nat} (hr : r ≤ R) (hnow : S.first + 2 * S.height T.root * r * S.hop < now) :
    r ≤ s.done T.root := by
  by_contra hlt
  obtain ⟨r', rfl⟩ : ∃ r', r = r' + 1 := ⟨r - 1, by omega⟩
  have hle := h.done_inner hopen hroot (r := r') (by omega) (by omega)
  rw [S.doneBy_root] at hle
  unfold Schedule.askedBy at hle
  rw [Nat.sub_self, Nat.add_zero] at hle
  omega

end

/-! ## The heights of a labelled tree -/

section
variable (t : RoseTree α)

open RoseTree

theorem height_subtree {s : RoseTree α} (hs : s ∈ t.subtrees) : s.height ≤ t.height := by
  induction t using RoseTree.induct with
  | h a cs ih =>
    rcases mem_subtrees_node.1 hs with rfl | ⟨c, hc, hsc⟩
    · exact Nat.le_refl _
    · exact (ih c hc hsc).trans (Nat.le_of_succ_le (height_child a hc))

variable [DecidableEq α]

/-- The height of the subtree with a label. -/
def heightOf (a : α) : Nat := ((t.subtrees.find? fun s => s.label = a).map height).getD 0

theorem heightOf_label (hnd : t.labels.Nodup) {s : RoseTree α} (hs : s ∈ t.subtrees) :
    heightOf t s.label = s.height := by
  rw [heightOf, find_label t hnd hs]
  rfl

theorem heightOf_le (hnd : t.labels.Nodup) (a : α) : heightOf t a ≤ heightOf t t.label := by
  rw [heightOf_label t hnd (self_mem_subtrees t), heightOf]
  cases hf : t.subtrees.find? fun s => s.label = a with
  | none => exact Nat.zero_le _
  | some s => exact height_subtree t (List.mem_of_find?_eq_some hf)

theorem heightOf_kid (hnd : t.labels.Nodup) {p v : α}
    (hv : v ∈ (Topology.ofTree t hnd).kids p) : heightOf t v < heightOf t p := by
  obtain ⟨s, hs, rfl, c, hc, rfl⟩ := mem_kidsOf t hv
  rw [heightOf_label t hnd hs, heightOf_label t hnd (child_mem_subtrees hs hc)]
  cases s with
  | node a cs => exact height_child a hc

/-- The schedule of a tree that starts by `first`, with `hop` for a message. -/
def Schedule.ofTree (hnd : t.labels.Nodup) (first hop : Nat) : Schedule (Topology.ofTree t hnd) where
  first := first
  hop := hop
  height := heightOf t
  height_kid _ _ := heightOf_kid t hnd
  height_le := heightOf_le t hnd

end

end Rounds
