import Mathlib

/-!
Send windows that grow by a unit, shrink by a unit and are cut, between a floor
and a ceiling (`Move`).  Below its threshold a window grows freely (slow start);
at or above it grows only where the ceiling leaves room.

    floor and ceiling multiples of the unit, Bounded w, Move w w'  →  Bounded w'    (Bounded.move)

That slow start needs no look at the ceiling is a fact about remainders: a
window below its threshold is a whole number of units below it, or a whole number
of units itself.
-/

namespace Window

structure Win where
  size : Nat
  threshold : Nat
deriving DecidableEq, Repr

/-- What may happen to a window in one go. -/
inductive Move (unit floor ceiling : Nat) : Win → Win → Prop where
  | hold (w : Win) : Move unit floor ceiling w w
  | slowStart (w : Win) (h : w.size < w.threshold) :
    Move unit floor ceiling w { w with size := w.size + unit }
  | avoidance (w : Win) (h : w.size + unit ≤ ceiling) :
    Move unit floor ceiling w { w with size := w.size + unit }
  | shrink (w : Win) : Move unit floor ceiling w { w with size := max (w.size - unit) floor }
  /-- cut down to `a`, and slow start up to there -/
  | cut (w : Win) (a : Nat) (h : a ≤ w.size) :
    Move unit floor ceiling w { size := max a floor, threshold := max a floor }
  /-- the same with the threshold below the floor, where `a` is -/
  | leave (w : Win) (a : Nat) (h : a ≤ w.size) :
    Move unit floor ceiling w { size := max a floor, threshold := a }

structure Bounded (unit floor ceiling : Nat) (w : Win) : Prop where
  floor_le : floor ≤ w.size
  le_ceiling : w.size ≤ ceiling
  threshold_le : w.threshold ≤ ceiling
  aligned : unit ∣ w.size ∨ w.size ≡ w.threshold [MOD unit]

section

variable {unit floor ceiling : Nat} {w w' : Win}

/-- Slow start never overshoots. -/
theorem Bounded.room (hceiling : unit ∣ ceiling) (h : Bounded unit floor ceiling w)
    (hslow : w.size < w.threshold) : w.size + unit ≤ ceiling := by
  rcases h.aligned with hunit | hmod
  · have hlt : w.size < ceiling := Nat.lt_of_lt_of_le hslow h.threshold_le
    have hmod : w.size ≡ ceiling [MOD unit] :=
      (Nat.modEq_zero_iff_dvd.2 hunit).trans (Nat.modEq_zero_iff_dvd.2 hceiling).symm
    exact hmod.add_le_of_lt hlt
  · exact (hmod.add_le_of_lt hslow).trans h.threshold_le

/-- One unit more: the remainder is the same. -/
theorem Bounded.grow (h : Bounded unit floor ceiling w) (hroom : w.size + unit ≤ ceiling) :
    Bounded unit floor ceiling { w with size := w.size + unit } where
  floor_le := h.floor_le.trans (Nat.le_add_right _ _)
  le_ceiling := hroom
  threshold_le := h.threshold_le
  aligned := by
    rcases h.aligned with hunit | hmod
    · exact .inl (hunit.add (Nat.dvd_refl unit))
    · exact .inr ((Nat.add_modEq_right).trans hmod)

theorem Bounded.shrink (hfloor : unit ∣ floor) (h : Bounded unit floor ceiling w) :
    Bounded unit floor ceiling { w with size := max (w.size - unit) floor } where
  floor_le := Nat.le_max_right _ _
  le_ceiling := by
    have := h.floor_le
    have := h.le_ceiling
    dsimp only
    omega
  threshold_le := h.threshold_le
  aligned := by
    rcases Nat.le_total (w.size - unit) floor with hle | hle
    · exact .inl (by rwa [Nat.max_eq_right hle])
    · rw [Nat.max_eq_left hle]
      rcases Nat.lt_or_ge w.size unit with hlt | hge
      · exact .inl (by rw [Nat.sub_eq_zero_of_le hlt.le]; exact Nat.dvd_zero unit)
      · rcases h.aligned with hunit | hmod
        · exact .inl (Nat.dvd_sub hunit (Nat.dvd_refl unit))
        · refine .inr (Nat.ModEq.trans ?_ hmod)
          have hsplit : w.size - unit + unit = w.size := Nat.sub_add_cancel hge
          rw [Nat.ModEq, ← hsplit, Nat.add_mod_right, Nat.sub_add_cancel hge]

/-- **A move keeps the window in its bounds.** -/
theorem Bounded.move (hfloor : unit ∣ floor) (hceiling : unit ∣ ceiling)
    (h : Bounded unit floor ceiling w) (hm : Move unit floor ceiling w w') :
    Bounded unit floor ceiling w' := by
  have hle : floor ≤ ceiling := h.floor_le.trans h.le_ceiling
  cases hm with
  | hold => exact h
  | slowStart hslow => exact h.grow (h.room hceiling hslow)
  | avoidance hroom => exact h.grow hroom
  | shrink => exact h.shrink hfloor
  | cut a ha =>
    have hmax : max a floor ≤ ceiling := Nat.max_le.2 ⟨ha.trans h.le_ceiling, hle⟩
    exact ⟨Nat.le_max_right _ _, hmax, hmax, .inr rfl⟩
  | leave a ha =>
    have hsize : a ≤ ceiling := ha.trans h.le_ceiling
    refine ⟨Nat.le_max_right _ _, Nat.max_le.2 ⟨hsize, hle⟩, hsize, ?_⟩
    rcases Nat.le_total a floor with hle | hle
    · exact .inl (by rwa [Nat.max_eq_right hle])
    · exact .inr (by rw [Nat.max_eq_left hle])

end

end Window
