import Mathlib

/-!
Loops over a fixed-width counter: `for (c = 0; c < bound; c += step)` with `c`
reduced modulo `M`.  `values` is what the counter holds in the first passes;
`passes` is the whole sequence when the loop ends.  A loop that ran `M` passes
has repeated a value and never ends.

    n * step < M, bound ≤ n * step, (n - 1) * step < bound  →
      passes M step bound = some [0, step, …, (n - 1) * step]        (passes_eq)
    passes M step bound ends  ↔  ∃ i, bound ≤ i * step % M        (isSome_passes_iff)
-/

namespace Counter

/-- Values of the counter in the first `fuel` passes, from the value `c` on. -/
def values (M step bound : Nat) : Nat → Nat → List Nat
  | 0, _ => []
  | fuel + 1, c =>
    if c < bound then c :: values M step bound fuel ((c + step) % M) else []

/-- All values of the counter, if the loop ends. -/
def passes (M step bound : Nat) : Option (List Nat) :=
  let vs := values M step bound M 0
  if vs.length < M then some vs else none

/-- While the counter does not wrap it holds the multiples of the step. -/
theorem values_eq (M step bound n : Nat) (hwrap : n * step < M) (hend : bound ≤ n * step)
    (hlast : ∀ i, i < n → i * step < bound) (fuel : Nat) :
    ∀ i, i ≤ n → values M step bound fuel (i * step) =
      ((List.range (n - i)).map fun j => (i + j) * step).take fuel := by
  induction fuel with
  | zero => intro i _; simp [values]
  | succ fuel ih =>
    intro i hi
    rw [values]
    rcases Nat.lt_or_eq_of_le hi with hlt | rfl
    · have hnext : (i * step + step) % M = (i + 1) * step := by
        rw [← Nat.succ_mul]
        exact Nat.mod_eq_of_lt (Nat.lt_of_le_of_lt (Nat.mul_le_mul_right step hlt) hwrap)
      obtain ⟨r, hr⟩ : ∃ r, n - i = r + 1 := ⟨n - i - 1, by omega⟩
      rw [if_pos (hlast i hlt), hnext, ih (i + 1) hlt, hr, show n - (i + 1) = r by omega,
        List.range_succ_eq_map]
      simp only [List.map_cons, List.map_map, List.take_succ_cons, Nat.add_zero]
      congr 3
      funext j
      simp only [Function.comp, Nat.succ_eq_add_one]
      rw [show i + 1 + j = i + (j + 1) by omega]
    · rw [if_neg (by omega)]
      simp

/-- Also a counter that wraps holds its multiples, as long as none reaches the bound. -/
theorem getElem?_values (M step bound i : Nat) (fuel : Nat) (hi : i < fuel) :
    ∀ c, c < M → (∀ j ≤ i, (c + j * step) % M < bound) →
      (values M step bound fuel c)[i]? = some ((c + i * step) % M) := by
  induction i generalizing fuel with
  | zero =>
    intro c hc h
    obtain ⟨fuel, rfl⟩ : ∃ f, fuel = f + 1 := ⟨fuel - 1, by omega⟩
    have h0 := h 0 (Nat.le_refl _)
    rw [Nat.zero_mul, Nat.add_zero, Nat.mod_eq_of_lt hc] at h0
    rw [values, if_pos h0, Nat.zero_mul, Nat.add_zero, Nat.mod_eq_of_lt hc]
    rfl
  | succ i ih =>
    intro c hc h
    obtain ⟨fuel, rfl⟩ : ∃ f, fuel = f + 1 := ⟨fuel - 1, by omega⟩
    have h0 := h 0 (Nat.zero_le _)
    rw [Nat.zero_mul, Nat.add_zero, Nat.mod_eq_of_lt hc] at h0
    have hshift : ∀ j, ((c + step) % M + j * step) % M = (c + (j + 1) * step) % M := by
      intro j
      rw [Nat.mod_add_mod, Nat.succ_mul]
      congr 1
      omega
    rw [values, if_pos h0, List.getElem?_cons_succ,
      ih fuel (by omega) _ (Nat.mod_lt _ (by omega)) fun j hj => by rw [hshift]; exact h _ (by omega),
      hshift]

/-- More fuel only adds passes behind. -/
theorem take_values (M step bound n fuel c : Nat) (h : n ≤ fuel) :
    (values M step bound fuel c).take n = values M step bound n c := by
  induction n generalizing fuel c with
  | zero => simp [values]
  | succ n ih =>
    obtain ⟨fuel, rfl⟩ : ∃ f, fuel = f + 1 := ⟨fuel - 1, by omega⟩
    rw [values, values]
    split
    · rw [List.take_succ_cons, ih fuel _ (by omega)]
    · rfl

theorem length_values_le (M step bound fuel c : Nat) :
    (values M step bound fuel c).length ≤ fuel := by
  induction fuel generalizing c with
  | zero => simp [values]
  | succ fuel ih =>
    rw [values]
    split
    · have := ih ((c + step) % M)
      simp only [List.length_cons]
      omega
    · simp

theorem lt_of_mem_values {M step bound fuel c v : Nat} (h : v ∈ values M step bound fuel c) :
    v < bound := by
  induction fuel generalizing c with
  | zero => cases h
  | succ fuel ih =>
    rw [values] at h
    split at h
    · rename_i hlt
      rcases List.mem_cons.1 h with rfl | h
      · exact hlt
      · exact ih h
    · cases h

theorem lt_of_mem_passes {M step bound v : Nat} {vs : List Nat} (h : passes M step bound = some vs)
    (hv : v ∈ vs) : v < bound := by
  simp only [passes] at h
  split at h
  · cases h
    exact lt_of_mem_values hv
  · cases h

/-- In every pass that is made the counter is below the bound. -/
theorem lt_of_lt_length_values (M step bound fuel : Nat) :
    ∀ i c, c < M → i < (values M step bound fuel c).length → (c + i * step) % M < bound := by
  induction fuel with
  | zero =>
    intro i c _ hi
    cases hi
  | succ fuel ih =>
    intro i c hc hi
    rw [values] at hi
    split at hi
    · rename_i hlt
      cases i with
      | zero => rwa [Nat.zero_mul, Nat.add_zero, Nat.mod_eq_of_lt hc]
      | succ i =>
        have h := ih i _ (Nat.mod_lt (c + step) (by omega)) (by simpa using hi)
        rw [Nat.mod_add_mod] at h
        rwa [Nat.succ_mul, Nat.add_comm (i * step), ← Nat.add_assoc]
    · cases hi

/-- The loop ends exactly when the counter reaches the bound at some time. -/
theorem isSome_passes_iff (M step bound : Nat) (hM : 0 < M) :
    (passes M step bound).isSome = true ↔ ∃ i, bound ≤ i * step % M := by
  have hle := length_values_le M step bound M 0
  constructor
  · intro h
    by_contra hnever
    simp only [not_exists, Nat.not_le] at hnever
    have hlast := getElem?_values M step bound (M - 1) M (by omega) 0 hM
      (fun j _ => by simpa using hnever j)
    obtain ⟨hlen, -⟩ := List.getElem?_eq_some_iff.1 hlast
    simp only [passes] at h
    rw [if_neg (by omega)] at h
    cases h
  · rintro ⟨i, hi⟩
    -- the counter has period `M`
    have hperiod : i % M * step % M = i * step % M := Nat.mod_mul_mod i step M
    have hlen : (values M step bound M 0).length < M := by
      by_contra hge
      have := lt_of_lt_length_values M step bound M (i % M) 0 hM
        (Nat.lt_of_lt_of_le (Nat.mod_lt i hM) (by omega))
      rw [Nat.zero_add] at this
      omega
    simp only [passes]
    rw [if_pos hlen]
    rfl

/-- A loop whose counter passes the bound before it wraps. -/
theorem passes_eq (M step bound n : Nat) (hwrap : n * step < M) (hend : bound ≤ n * step)
    (hlast : ∀ i, i < n → i * step < bound) (hn : n < M) :
    passes M step bound = some ((List.range n).map fun j => j * step) := by
  have hv := values_eq M step bound n hwrap hend hlast M 0 (Nat.zero_le _)
  rw [Nat.zero_mul] at hv
  have hlist : values M step bound M 0 = (List.range n).map fun j => j * step := by
    rw [hv, List.take_of_length_le (by simp; omega)]
    simp
  simp only [passes, hlist]
  rw [if_pos (by simpa using hn)]

/-- The loop `for (c = 0; c < bound; ++c)`. -/
theorem passes_one (M bound : Nat) (h : bound < M) :
    passes M 1 bound = some (List.range bound) := by
  rw [passes_eq M 1 bound bound (by omega) (by omega) (fun i hi => by omega) h]
  simp

end Counter
