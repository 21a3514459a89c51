import Mathlib

/-!
A stream of bytes that carries messages of known sizes, with the time at which
each byte on the way was sent.  `due j` is a time by which message number `j` is
sent.  When the receiver has left a message because it is not whole, then one of
its bytes is on the way and was sent in time:

    handled ≤ j  →  ∃ t ∈ stamps, t ≤ due j            (InTime.exists_le)
-/

namespace Stamps

/-- `sizes` are those of all messages so far, `stamps` the times of the bytes on the way, which
are the last ones. -/
structure InTime (due : Nat → Nat) (sizes stamps : List Nat) : Prop where
  length_le : stamps.length ≤ sizes.sum
  sent : ∀ j < sizes.length,
    ∀ t ∈ stamps.take (stamps.length - (sizes.drop (j + 1)).sum), t ≤ due j

variable {due : Nat → Nat} {sizes stamps : List Nat}

theorem InTime.nil (due : Nat → Nat) : InTime due [] [] where
  length_le := Nat.le_refl _
  sent _ hj := absurd hj (Nat.not_lt_zero _)

/-- The first bytes arrive. -/
theorem InTime.drop (h : InTime due sizes stamps) (n : Nat) : InTime due sizes (stamps.drop n) where
  length_le := by
    have hle := h.length_le
    rw [List.length_drop]
    omega
  sent j hj t ht := by
    refine h.sent j hj t ?_
    rw [List.length_drop, List.take_drop] at ht
    have hlen := List.length_pos_of_mem ht
    rw [List.length_drop, List.length_take] at hlen
    exact (List.take_prefix_take_left (by omega)).subset (List.mem_of_mem_drop ht)

/-- All bytes on the way belong to the messages so far. -/
theorem InTime.le_of_length_le (h : InTime due sizes stamps) (hmono : Monotone due) {j : Nat}
    (hj : sizes.length ≤ j) {t : Nat} (ht : t ∈ stamps) : t ≤ due j := by
  have hpos : 0 < sizes.length := by
    rw [List.length_pos_iff]
    rintro rfl
    have hle := h.length_le
    have := List.length_pos_of_mem ht
    rw [List.sum_nil] at hle
    omega
  have hlast := h.sent (sizes.length - 1) (by omega) t (by
    rw [Nat.sub_add_cancel hpos, List.drop_length, List.sum_nil, Nat.sub_zero, List.take_length]
    exact ht)
  exact hlast.trans (hmono (by omega))

/-- More messages are sent, at the time `now`. -/
theorem InTime.send (h : InTime due sizes stamps) (hmono : Monotone due) (new : List Nat) {now : Nat}
    (hnow : ∀ j, sizes.length ≤ j → j < sizes.length + new.length → now ≤ due j) :
    InTime due (sizes ++ new) (stamps ++ List.replicate new.sum now) where
  length_le := by
    have hle := h.length_le
    rw [List.length_append, List.length_replicate, List.sum_append]
    omega
  sent j hj t ht := by
    rw [List.length_append] at hj
    rcases Nat.lt_or_ge j sizes.length with hlt | hge
    · -- the bytes of the old messages are the ones they were
      refine h.sent j hlt t ?_
      rw [List.drop_append_of_le_length hlt, List.sum_append, List.length_append,
        List.length_replicate, Nat.add_sub_add_right,
        List.take_append_of_le_length (Nat.sub_le _ _)] at ht
      exact ht
    · rcases List.mem_append.1 (List.mem_of_mem_take ht) with hold | hnew
      · exact h.le_of_length_le hmono hge hold
      · rw [(List.mem_replicate.1 hnew).2]
        exact hnow j hge hj

/-- When message number `handled` is not whole, the messages from there on are on the way. -/
theorem InTime.exists_le (h : InTime due sizes stamps) {handled ring j : Nat}
    (hbytes : ring + stamps.length = (sizes.drop handled).sum)
    (hring : ∀ size ∈ (sizes.drop handled).head?, ring < size) (hle : handled ≤ j)
    (hj : j < sizes.length) : ∃ t ∈ stamps, t ≤ due j := by
  have hlt : handled < sizes.length := Nat.lt_of_le_of_lt hle hj
  rw [List.drop_eq_getElem_cons hlt] at hbytes hring
  have hhead := hring _ rfl
  rw [List.sum_cons] at hbytes
  have hsum : (sizes.drop (j + 1)).sum ≤ (sizes.drop (handled + 1)).sum := by
    obtain ⟨d, rfl⟩ := Nat.exists_eq_add_of_le hle
    rw [show handled + d + 1 = handled + 1 + d by omega, ← List.drop_drop]
    exact (List.drop_sublist d _).sum_le_sum fun _ _ => Nat.zero_le _
  obtain ⟨t, ts, hts⟩ := List.exists_cons_of_ne_nil
    (show stamps.take (stamps.length - (sizes.drop (j + 1)).sum) ≠ [] by
      rw [← List.length_pos_iff, List.length_take]
      omega)
  have hmem : t ∈ stamps.take (stamps.length - (sizes.drop (j + 1)).sum) :=
    hts ▸ List.mem_cons_self
  exact ⟨t, List.mem_of_mem_take hmem, h.sent j hj t hmem⟩

end Stamps
