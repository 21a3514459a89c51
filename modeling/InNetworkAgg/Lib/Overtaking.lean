import Mathlib

/-!
Numbered packets in the order they come in.  A packet is late when one with a
larger number came before it.  A receiver that only knows the largest number so
far can count the numbers it sees skipped (`gaps`), as a measure of what was
lost.  It never takes back what turns up late:

    gaps l + length l = top l + late l                      (gaps_add_length)
-/

namespace Overtaking

/-! ## Late elements -/

section
variable {α : Type*} [LinearOrder α]

/-- The largest element, or `b` when all are smaller. -/
def top (b : α) (l : List α) : α := l.foldl max b

/-- How many elements are behind a larger one. -/
def late (l : List α) : Nat := l.zipIdx.countP fun p => (l.take p.2).any (p.1 < ·)

@[simp] theorem top_nil (b : α) : top b [] = b := rfl

@[simp] theorem top_concat (b : α) (l : List α) (x : α) : top b (l ++ [x]) = max (top b l) x := by
  rw [top, List.foldl_append]
  rfl

@[simp] theorem late_nil : late ([] : List α) = 0 := rfl

theorem lt_top_iff {b x : α} (hx : b ≤ x) (l : List α) : x < top b l ↔ ∃ y ∈ l, x < y := by
  induction l using List.reverseRecOn with
  | nil => simpa using hx
  | append_singleton l y ih =>
    rw [top_concat, lt_max_iff, ih]
    simp [or_and_right, exists_or]

theorem top_eq_or_mem (b : α) (l : List α) : top b l = b ∨ top b l ∈ l := by
  induction l using List.reverseRecOn with
  | nil => exact .inl rfl
  | append_singleton l x ih =>
    rw [top_concat]
    rcases max_choice (top b l) x with hmax | hmax
    · rw [hmax]
      exact ih.imp_right (List.mem_append_left [x])
    · rw [hmax]
      exact .inr (List.mem_append_right l List.mem_cons_self)

theorem late_concat {b x : α} (hx : b ≤ x) (l : List α) :
    late (l ++ [x]) = late l + if x < top b l then 1 else 0 := by
  have hfront : ∀ p ∈ l.zipIdx, (l ++ [x]).take p.2 = l.take p.2 := by
    intro p hp
    have := (List.mem_zipIdx hp).2.1
    exact List.take_append_of_le_length (by omega)
  have hlate : ((l ++ [x]).take l.length).any (x < ·) = decide (x < top b l) := by
    rw [List.take_left, Bool.eq_iff_iff, decide_eq_true_iff, lt_top_iff hx]
    simp
  unfold late
  rw [List.zipIdx_append, List.countP_append]
  congr 1
  · apply List.countP_congr
    intro p hp
    rw [hfront p hp]
  · rw [Nat.zero_add, List.zipIdx_singleton, List.countP_singleton, hlate]
    simp only [decide_eq_true_iff]

theorem late_le_length (l : List α) : late l ≤ l.length := by
  have := List.countP_le_length (p := fun p => (l.take p.2).any (p.1 < ·)) (l := l.zipIdx)
  rwa [List.length_zipIdx] at this

end

/-! ## Gaps -/

/-- The largest number so far and the count of the numbers that were skipped. -/
def countGap (s : Int × Int) (x : Int) : Int × Int :=
  (max s.1 x, if s.1 ≤ x then s.2 + (x - s.1 - 1) else s.2)

def gaps (l : List Int) : Int := (l.foldl countGap (0, 0)).2

theorem foldl_countGap (l : List Int) : l.foldl countGap (0, 0) = (top 0 l, gaps l) := by
  have hfst : (l.foldl countGap (0, 0)).1 = top 0 l := by
    induction l using List.reverseRecOn with
    | nil => rfl
    | append_singleton l x ih =>
      rw [List.foldl_append, top_concat, ← ih]
      rfl
  rw [← hfst]
  rfl

theorem gaps_concat (l : List Int) (x : Int) :
    gaps (l ++ [x]) = if top 0 l ≤ x then gaps l + (x - top 0 l - 1) else gaps l := by
  rw [gaps, List.foldl_append, foldl_countGap]
  rfl

/-- What is counted as skipped: nothing is taken back for a late number. -/
theorem gaps_add_length {l : List Int} (hl : ∀ x ∈ l, 0 ≤ x) :
    gaps l + l.length = top 0 l + late l := by
  induction l using List.reverseRecOn with
  | nil => rfl
  | append_singleton l x ih =>
    have hx : 0 ≤ x := hl x (by simp)
    have ih := ih fun y hy => hl y (List.mem_append_left [x] hy)
    rw [gaps_concat, top_concat, late_concat hx, List.length_append, List.length_singleton]
    by_cases htop : top 0 l ≤ x
    · rw [if_pos htop, if_neg (by omega), max_eq_right htop]
      push_cast
      omega
    · rw [if_neg htop, if_pos (by omega), max_eq_left (by omega)]
      push_cast
      omega

theorem gaps_le_top {l : List Int} (hl : ∀ x ∈ l, 0 ≤ x) : gaps l ≤ top 0 l := by
  have hgaps := gaps_add_length hl
  have hlate := late_le_length l
  omega

/-- Where no number comes twice the count never goes down. -/
theorem gaps_nonneg {l : List Int} (hl : ∀ x ∈ l, 0 < x) (hnodup : l.Nodup) : 0 ≤ gaps l := by
  induction l using List.reverseRecOn with
  | nil => exact le_rfl
  | append_singleton l x ih =>
    obtain ⟨hl', -, hdisj⟩ := List.nodup_append.1 hnodup
    have hrest := ih (fun y hy => hl y (List.mem_append_left [x] hy)) hl'
    have hx : 0 < x := hl x (by simp)
    rw [gaps_concat]
    by_cases htop : top 0 l ≤ x
    · rw [if_pos htop]
      have hne : top 0 l ≠ x := by
        rcases top_eq_or_mem 0 l with h0 | hmem
        · omega
        · exact hdisj _ hmem x List.mem_cons_self
      omega
    · rwa [if_neg htop]

end Overtaking
