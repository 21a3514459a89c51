import InNetworkAgg.Lib.RoseTree

/-!
Averages of natural numbers that are rounded down at every node of a tree.
When the children of a node have the same number of leaves, the result is at
most one unit for each level below the exact mean of the leaves:

    floorMean t * leaves t ≤ total t ≤ (floorMean t + height t) * leaves t     (floorMean_bounds)
    mean t ≤ floorMean t + (height t - 1),   floorMean t ≤ mean t                (floorMean_near)
-/

namespace RoseTree

variable {α : Type*} (val : α → Nat)

/-- The sum of the leaves. -/
def total (t : RoseTree α) : Nat := (t.leafLabels.map val).sum

/-- The mean of the leaves, rounded down once. -/
def mean (t : RoseTree α) : Nat := t.total val / t.leaves

/-- The mean rounded down at every node. -/
def floorMean : RoseTree α → Nat := fold fun a ns => if ns = [] then val a else ns.sum / ns.length

/-- All children of a node have equally many leaves. -/
def Balanced (t : RoseTree α) : Prop :=
  ∀ s ∈ t.subtrees, ∀ c ∈ s.children, ∀ c' ∈ s.children, c.leaves = c'.leaves

theorem floorMean_leaf (a : α) : floorMean val (node a []) = val a := rfl

theorem floorMean_node (a : α) {cs : List (RoseTree α)} (hcs : cs ≠ []) :
    floorMean val (node a cs) = (cs.map (floorMean val)).sum / cs.length := by
  rw [floorMean, fold_node, if_neg (by simpa using hcs), List.length_map]

theorem total_leaf (a : α) : total val (node a []) = val a := by
  simp [total, leafLabels_node]

theorem total_node (a : α) {cs : List (RoseTree α)} (hcs : cs ≠ []) :
    total val (node a cs) = (cs.map (total val)).sum := by
  rw [total, leafLabels_node, if_neg hcs, List.map_flatMap, List.flatMap_def, List.sum_flatten,
    List.map_map]
  rfl

theorem Balanced.child {a : α} {cs : List (RoseTree α)} (h : Balanced (node a cs)) {c : RoseTree α}
    (hc : c ∈ cs) : Balanced c :=
  fun s hs => h s (subtrees_child hc hs)

/-- The children of a balanced node share out its leaves. -/
theorem Balanced.leaves {a : α} {cs : List (RoseTree α)} (h : Balanced (node a cs)) (hcs : cs ≠ []) :
    ∃ l, 0 < l ∧ (∀ c ∈ cs, c.leaves = l) ∧ (node a cs).leaves = cs.length * l := by
  obtain ⟨c₀, hc₀⟩ := List.exists_mem_of_ne_nil cs hcs
  have hall : ∀ c ∈ cs, c.leaves = c₀.leaves := fun c hc =>
    h _ (self_mem_subtrees _) c hc c₀ hc₀
  refine ⟨c₀.leaves, leaves_pos c₀, hall, ?_⟩
  rw [leaves_node, if_neg hcs, List.map_congr_left hall]
  simp

/-- Rounding a mean of `n` numbers down loses less than one. -/
theorem le_floor_mul (s n : Nat) (hn : 0 < n) : s + 1 ≤ (s / n + 1) * n := by
  have := Nat.lt_mul_div_succ s hn
  rw [Nat.mul_comm] at this
  exact this

/-- Rounding the mean of `n` numbers of sum `s`, each at most `h - 1` too low for `l` leaves,
makes it less than `h` too low for all of them. -/
theorem lt_floor_add_mul {x s n l h : Nat} (hn : 0 < n) (hl : 0 < l) (hh : 1 ≤ h)
    (hx : x ≤ (s + n * (h - 1)) * l) : x < (s / n + h) * (n * l) := by
  have hfloor := le_floor_mul s n hn
  calc x
      ≤ (s + n * (h - 1)) * l := hx
    _ < (s + 1 + n * (h - 1)) * l := Nat.mul_lt_mul_of_pos_right (by omega) hl
    _ ≤ ((s / n + 1) * n + n * (h - 1)) * l := Nat.mul_le_mul_right l (by omega)
    _ = (s / n + h) * (n * l) := by
        obtain ⟨g, rfl⟩ : ∃ g, h = g + 1 := ⟨h - 1, by omega⟩
        rw [Nat.add_sub_cancel]
        ring

/-- The lower bounds of the children add up. -/
theorem sum_floorMean_mul_le {cs : List (RoseTree α)} {l : Nat}
    (h : ∀ c ∈ cs, floorMean val c * l ≤ total val c) :
    (cs.map (floorMean val)).sum * l ≤ (cs.map (total val)).sum := by
  rw [← List.sum_map_mul_right]
  exact List.sum_le_sum h

/-- So do the upper ones. -/
theorem sum_total_le {cs : List (RoseTree α)} {l g : Nat}
    (h : ∀ c ∈ cs, total val c ≤ (floorMean val c + g) * l) :
    (cs.map (total val)).sum ≤ ((cs.map (floorMean val)).sum + cs.length * g) * l := by
  have hsum : ((cs.map (floorMean val)).sum + cs.length * g) * l =
      (cs.map fun c => (floorMean val c + g) * l).sum := by
    rw [List.sum_map_mul_right, List.sum_map_add]
    simp
  rw [hsum]
  exact List.sum_le_sum h

/-- Induction over the tree; every level adds one rounding, which the leaves of a
child share. -/
theorem floorMean_bounds (t : RoseTree α) (hb : Balanced t) :
    floorMean val t * t.leaves ≤ total val t ∧
      total val t ≤ (floorMean val t + t.height) * t.leaves ∧
      (t.children ≠ [] → total val t < (floorMean val t + t.height) * t.leaves) := by
  induction t using induct with
  | h a cs ih =>
    by_cases hcs : cs = []
    · subst hcs
      rw [floorMean_leaf, total_leaf, leaves_node, if_pos rfl]
      exact ⟨by omega, by omega, fun h => absurd rfl h⟩
    · obtain ⟨l, hl, hleaves, htotal⟩ := hb.leaves hcs
      have hn : 0 < cs.length := List.length_pos_of_ne_nil hcs
      rw [floorMean_node val a hcs, total_node val a hcs, htotal]
      generalize hh : (node a cs).height = h
      have hpos : 1 ≤ h := by
        obtain ⟨c, hc⟩ := List.exists_mem_of_ne_nil cs hcs
        have := height_child a hc
        omega
      have hlow : ∀ c ∈ cs, floorMean val c * l ≤ total val c := by
        intro c hc
        rw [← hleaves c hc]
        exact (ih c hc (hb.child hc)).1
      have hup : ∀ c ∈ cs, total val c ≤ (floorMean val c + (h - 1)) * l := by
        intro c hc
        have hc' := (ih c hc (hb.child hc)).2.1
        have hheight := height_child a hc
        rw [hleaves c hc] at hc'
        exact Nat.le_trans hc' (Nat.mul_le_mul_right l (by omega))
      replace hlow := sum_floorMean_mul_le val hlow
      have hstrict := lt_floor_add_mul hn hl hpos (sum_total_le val hup)
      generalize (cs.map (floorMean val)).sum = s at hlow hstrict ⊢
      refine ⟨?_, Nat.le_of_lt hstrict, fun _ => hstrict⟩
      calc s / cs.length * (cs.length * l)
          = s / cs.length * cs.length * l := (Nat.mul_assoc _ _ _).symm
        _ ≤ s * l := Nat.mul_le_mul_right l (Nat.div_mul_le_self _ _)
        _ ≤ _ := hlow

/-- **Rounding at every node** is at most one unit a level below rounding once, the
last level excepted. -/
theorem floorMean_near (t : RoseTree α) (hb : Balanced t) (ht : t.children ≠ []) :
    mean val t ≤ floorMean val t + (t.height - 1) ∧ floorMean val t ≤ mean val t := by
  obtain ⟨hlow, -, hup⟩ := floorMean_bounds val t hb
  have hpos := leaves_pos t
  constructor
  · have := (Nat.div_lt_iff_lt_mul hpos).2 (hup ht)
    rw [mean]
    omega
  · exact (Nat.le_div_iff_mul_le hpos).2 hlow

end RoseTree
