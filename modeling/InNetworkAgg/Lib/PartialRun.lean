import Mathlib

/-!
Runs of a partial step function.  `step s a = none` means that action `a` is
not possible (or not defined) in `s`; `runs step s as` takes the actions in
order.  An invariant of single steps is an invariant of runs (`runs_invariant`),
also when only the steps that meet a guard keep it (`guarded_invariant`), and a
function that commutes with single steps commutes with runs (`runs_map`).
-/

namespace PartialRun

variable {σ α : Type*}

/-- The state after the actions, when each of them is possible. -/
def runs (step : σ → α → Option σ) (s : σ) (as : List α) : Option σ := as.foldlM step s

theorem runs_nil (step : σ → α → Option σ) (s : σ) : runs step s [] = some s := rfl

theorem runs_cons (step : σ → α → Option σ) (s : σ) (a : α) (as : List α) :
    runs step s (a :: as) = (step s a).bind fun t => runs step t as := rfl

theorem runs_append (step : σ → α → Option σ) (s : σ) (as bs : List α) :
    runs step s (as ++ bs) = (runs step s as).bind fun t => runs step t bs := by
  simp [runs, List.foldlM_append, Option.bind_eq_bind]

/-- Reachability by some list of actions. -/
def Reachable (step : σ → α → Option σ) (s t : σ) : Prop := ∃ as, runs step s as = some t

theorem Reachable.refl (step : σ → α → Option σ) (s : σ) : Reachable step s s := ⟨[], rfl⟩

theorem Reachable.trans {step : σ → α → Option σ} {s t u : σ} (h : Reachable step s t)
    (h' : Reachable step t u) : Reachable step s u := by
  obtain ⟨as, has⟩ := h
  obtain ⟨bs, hbs⟩ := h'
  exact ⟨as ++ bs, by rw [runs_append, has]; exact hbs⟩

theorem Reachable.step {step : σ → α → Option σ} {s t : σ} {a : α} (h : step s a = some t) :
    Reachable step s t :=
  ⟨[a], by rw [runs_cons, h]; rfl⟩

/-- Every step of the run from `s` along the actions meets the guard. -/
def Guarded (step : σ → α → Option σ) (G : σ → α → Prop) : σ → List α → Prop
  | _, [] => True
  | s, a :: as => G s a ∧ ∀ t, step s a = some t → Guarded step G t as

instance decidableGuarded (step : σ → α → Option σ) (G : σ → α → Prop)
    [∀ s a, Decidable (G s a)] : ∀ (as : List α) (s : σ), Decidable (Guarded step G s as)
  | [], _ => isTrue trivial
  | a :: as, s =>
    match h : step s a with
    | none => decidable_of_iff (G s a)
        ⟨fun hg => ⟨hg, fun t ht => by rw [h] at ht; cases ht⟩, fun hg => hg.1⟩
    | some t =>
      have := decidableGuarded step G as t
      decidable_of_iff (G s a ∧ Guarded step G t as)
        ⟨fun hg => ⟨hg.1, fun u hu => by rw [h] at hu; cases hu; exact hg.2⟩,
          fun hg => ⟨hg.1, hg.2 t h⟩⟩

theorem guarded_of_forall {step : σ → α → Option σ} {P : α → Prop} {as : List α}
    (h : ∀ a ∈ as, P a) (s : σ) : Guarded step (fun _ a => P a) s as := by
  induction as generalizing s with
  | nil => trivial
  | cons a as ih =>
    exact ⟨h a List.mem_cons_self, fun t _ => ih (fun b hb => h b (List.mem_cons_of_mem a hb)) t⟩

/-- The two parts of a guarded run. -/
theorem Guarded.append {step : σ → α → Option σ} {G : σ → α → Prop} {as bs : List α} :
    ∀ {s t : σ}, Guarded step G s (as ++ bs) → runs step s as = some t →
      Guarded step G s as ∧ Guarded step G t bs := by
  induction as with
  | nil =>
    intro s t hg h
    cases h
    exact ⟨trivial, hg⟩
  | cons a as ih =>
    intro s t hg h
    rw [runs_cons, Option.bind_eq_some_iff] at h
    obtain ⟨u, hu, h⟩ := h
    refine ⟨⟨hg.1, fun v hv => ?_⟩, (ih (hg.2 u hu) h).2⟩
    rw [hu] at hv
    cases hv
    exact (ih (hg.2 u hu) h).1

theorem Guarded.of_append {step : σ → α → Option σ} {G : σ → α → Prop} {as bs : List α} :
    ∀ {s : σ}, Guarded step G s (as ++ bs) → Guarded step G s as := by
  induction as with
  | nil => exact fun _ => trivial
  | cons a as ih => exact fun hg => ⟨hg.1, fun t ht => ih (hg.2 t ht)⟩

/-- Where the guard makes each step possible, a guarded run gets to its end. -/
theorem guarded_total {step : σ → α → Option σ} {G : σ → α → Prop} {I : σ → Prop}
    (hstep : ∀ s a, I s → G s a → ∃ t, step s a = some t ∧ I t) (as : List α) :
    ∀ s, I s → Guarded step G s as → ∃ t, runs step s as = some t ∧ I t := by
  induction as with
  | nil => exact fun s hs _ => ⟨s, rfl, hs⟩
  | cons a as ih =>
    intro s hs hg
    obtain ⟨t, ht, hIt⟩ := hstep s a hs hg.1
    rw [runs_cons, ht]
    exact ih t hIt (hg.2 t ht)

theorem guarded_invariant {step : σ → α → Option σ} {G : σ → α → Prop} {I : σ → Prop}
    (hstep : ∀ s a t, I s → G s a → step s a = some t → I t) (as : List α) :
    ∀ s t, I s → Guarded step G s as → runs step s as = some t → I t := by
  induction as with
  | nil =>
    intro s t hs _ h
    cases h
    exact hs
  | cons a as ih =>
    intro s t hs hg h
    rw [runs_cons, Option.bind_eq_some_iff] at h
    obtain ⟨u, hu, h⟩ := h
    exact ih u t (hstep s a u hs hg.1 hu) (hg.2 u hu) h

theorem runs_invariant {step : σ → α → Option σ} {I : σ → Prop}
    (hstep : ∀ s a t, I s → step s a = some t → I t) {s t : σ} {as : List α}
    (hs : I s) (h : runs step s as = some t) : I t := by
  exact guarded_invariant (G := fun _ _ => True) (fun s a t hi _ => hstep s a t hi) as s t hs
    (guarded_of_forall (P := fun _ => True) (fun _ _ => trivial) s) h

/-- A run seen through `f`: where each step is a step of the other system, and possible
when that is, so are runs. -/
theorem runs_map {τ : Type*} {step : σ → α → Option σ} {step' : τ → α → Option τ} {f : σ → τ}
    {I : σ → Prop} (hstep : ∀ s a, I s → (step s a).map f = step' (f s) a)
    (hinv : ∀ s a t, I s → step s a = some t → I t) (as : List α) :
    ∀ s, I s → (runs step s as).map f = runs step' (f s) as := by
  induction as with
  | nil => exact fun s _ => rfl
  | cons a as ih =>
    intro s hs
    rw [runs_cons, runs_cons, ← hstep s a hs]
    cases h : step s a with
    | none => rfl
    | some t => exact ih t (hinv s a t hs h)

end PartialRun
