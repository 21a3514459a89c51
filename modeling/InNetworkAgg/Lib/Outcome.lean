import InNetworkAgg.Lib.PartialRun

/-!
Functions that return a value or throw.  `Ends P Q x` says what `x` may return
and what it may throw; it composes along binds (`Ends.bind`).  A run of a step
function that may throw goes on for as long as nothing is thrown (`returning`):

    each step from I ends in I or throws within Q  →  a run from I ends in I    (runs_ends)
-/

namespace Outcome

open PartialRun

universe u

variable {σ ε : Type*} {α β : Type u}

/-- What is returned satisfies `P`, what is thrown satisfies `Q`. -/
def Ends (P : α → Prop) (Q : ε → Prop) : Except ε α → Prop
  | .ok a => P a
  | .error e => Q e

section

variable {P P' : α → Prop} {Q Q' : ε → Prop} {R : β → Prop} {x : Except ε α}

theorem Ends.of_ok (h : Ends P Q x) {a : α} (hx : x = .ok a) : P a := by
  subst hx
  exact h

theorem Ends.of_error (h : Ends P Q x) {e : ε} (hx : x = .error e) : Q e := by
  subst hx
  exact h

theorem Ends.mono (h : Ends P Q x) (hP : ∀ a, P a → P' a) (hQ : ∀ e, Q e → Q' e) :
    Ends P' Q' x := by
  cases x with
  | ok a => exact hP a h
  | error e => exact hQ e h

theorem Ends.bind {f : α → Except ε β} (h : Ends P Q x) (hf : ∀ a, P a → Ends R Q (f a)) :
    Ends R Q (x >>= f) := by
  cases x with
  | ok a => exact hf a h
  | error e => exact h

end

/-- The step where it returns. -/
def returning (step : σ → α → Except ε σ) (s : σ) (a : α) : Option σ := (step s a).toOption

theorem returning_eq_some {step : σ → α → Except ε σ} {s t : σ} {a : α} :
    returning step s a = some t ↔ step s a = .ok t := by
  unfold returning
  cases step s a <;> simp [Except.toOption]

theorem runs_ends {step : σ → α → Except ε σ} {G : α → Prop} {I : σ → Prop} {Q : ε → Prop}
    (hstep : ∀ s a, I s → G a → Ends I Q (step s a)) (as : List α) :
    ∀ s t, I s → (∀ a ∈ as, G a) → runs (returning step) s as = some t → I t := by
  induction as with
  | nil =>
    intro s t hs _ h
    cases h
    exact hs
  | cons a as ih =>
    intro s t hs hg h
    rw [runs_cons, Option.bind_eq_some_iff] at h
    obtain ⟨u, hu, h⟩ := h
    have hI := (hstep s a hs (hg a List.mem_cons_self)).of_ok (returning_eq_some.1 hu)
    exact ih u t hI (fun b hb => hg b (List.mem_cons_of_mem a hb)) h

end Outcome
