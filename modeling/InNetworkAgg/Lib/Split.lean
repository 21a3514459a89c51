import Mathlib

/-!
Texts cut at separators, as `std::getline` and `>>` on strings do: the pieces
between separators, where a piece at the end counts only if there is something
in it (`lines`), or a piece anywhere (`fields`).

    lines:   every list of pieces without separators comes back           (lines_unlines)
    fields:  fields x = ws ↔ x is ws with separators around and between   (fields_iff)
-/

namespace Split

variable {α : Type*}

/-- The pieces of a text, `w` being what was read of the current one; `keep` says whether a
separator ends an empty piece. -/
def pieces (sep : α → Bool) (keep : Bool) : List α → List α → List (List α)
  | w, [] => if w.isEmpty then [] else [w]
  | w, c :: x =>
    if sep c then
      if w.isEmpty && !keep then pieces sep keep [] x else w :: pieces sep keep [] x
    else pieces sep keep (w ++ [c]) x

def lines (sep : α → Bool) (x : List α) : List (List α) := pieces sep true [] x
def fields (sep : α → Bool) (x : List α) : List (List α) := pieces sep false [] x

section

variable {sep : α → Bool} {k : Bool}

/-- No separators. -/
def Plain (sep : α → Bool) (w : List α) : Prop := ∀ c ∈ w, sep c = false

/-- Nothing but separators. -/
def Blank (sep : α → Bool) (x : List α) : Prop := ∀ c ∈ x, sep c = true

instance (w : List α) : Decidable (Plain sep w) := inferInstanceAs (Decidable (∀ c ∈ w, _))
instance (x : List α) : Decidable (Blank sep x) := inferInstanceAs (Decidable (∀ c ∈ x, _))

theorem pieces_plain (w u x : List α) (hu : Plain sep u) :
    pieces sep k w (u ++ x) = pieces sep k (w ++ u) x := by
  induction u generalizing w with
  | nil => rw [List.nil_append, List.append_nil]
  | cons c u ih =>
    obtain ⟨hc, hu⟩ := List.forall_mem_cons.1 hu
    rw [List.cons_append, pieces, if_neg (by simp [hc]), ih _ hu, List.append_assoc,
      List.singleton_append]

theorem pieces_end (w : List α) (hw : w ≠ []) : pieces sep k w [] = [w] := by
  rw [pieces, if_neg (by simpa using hw)]

theorem pieces_sep (w : List α) (hw : w ≠ []) {c : α} (hc : sep c = true) (x : List α) :
    pieces sep k w (c :: x) = w :: pieces sep k [] x := by
  rw [pieces, if_pos hc, if_neg (by simp [hw])]

/-! ## Lines -/

theorem lines_cons (w : List α) (hw : Plain sep w) {c : α} (hc : sep c = true) (x : List α) :
    lines sep (w ++ c :: x) = w :: lines sep x := by
  unfold lines
  rw [pieces_plain [] w _ hw, List.nil_append, pieces, if_pos hc, if_neg (by simp)]

theorem lines_last (w : List α) (hw : Plain sep w) (hne : w ≠ []) : lines sep w = [w] := by
  have h := pieces_plain (k := true) [] w [] hw
  rw [List.append_nil, List.nil_append] at h
  rw [lines, h, pieces_end w hne]

/-- The pieces, each with a separator behind it. -/
def unlines (c : α) (ws : List (List α)) : List α := ws.flatMap (· ++ [c])

/-- What was written line by line is read line by line; the separator at the end may be
missing. -/
theorem lines_unlines {c : α} (hc : sep c = true) (ws : List (List α)) (x : List α)
    (hws : ∀ w ∈ ws, Plain sep w) : lines sep (unlines c ws ++ x) = ws ++ lines sep x := by
  induction ws with
  | nil => rfl
  | cons w ws ih =>
    obtain ⟨hw, hws⟩ := List.forall_mem_cons.1 hws
    have hx : unlines c (w :: ws) ++ x = w ++ c :: (unlines c ws ++ x) := by
      simp [unlines]
    rw [hx, lines_cons w hw hc, ih hws, List.cons_append]

/-! ## Fields -/

/-- The words with separators around them, at least one between two words. -/
inductive Spaced (sep : α → Bool) : List α → List (List α) → Prop where
  | nil (x : List α) (h : Blank sep x) : Spaced sep x []
  | last (x w : List α) (hx : Blank sep x) (hw : Plain sep w) (hne : w ≠ []) :
    Spaced sep (x ++ w) [w]
  | cons (x w : List α) (c : α) (y : List α) (ws : List (List α)) (hx : Blank sep x)
      (hw : Plain sep w) (hne : w ≠ []) (hc : sep c = true) (h : Spaced sep y ws) :
    Spaced sep (x ++ w ++ c :: y) (w :: ws)

theorem fields_sep {c : α} (hc : sep c = true) (x : List α) :
    fields sep (c :: x) = fields sep x := by
  simp [fields, pieces, hc]

theorem fields_blank (x y : List α) (hx : Blank sep x) : fields sep (x ++ y) = fields sep y := by
  induction x with
  | nil => rfl
  | cons c x ih =>
    obtain ⟨hc, hx⟩ := List.forall_mem_cons.1 hx
    rw [List.cons_append, fields_sep hc, ih hx]

theorem fields_last (w : List α) (hw : Plain sep w) (hne : w ≠ []) : fields sep w = [w] := by
  have h := pieces_plain (k := false) [] w [] hw
  rw [List.append_nil, List.nil_append] at h
  rw [fields, h, pieces_end w hne]

theorem fields_cons (w : List α) (hw : Plain sep w) (hne : w ≠ []) {c : α} (hc : sep c = true)
    (x : List α) : fields sep (w ++ c :: x) = w :: fields sep x := by
  rw [fields, pieces_plain [] w _ hw, List.nil_append, pieces_sep w hne hc]
  rfl

/-- A spaced text starts with a word, or with a separator and a spaced text. -/
theorem Spaced.sep_cons {c : α} (hc : sep c = true) {x : List α} {ws : List (List α)}
    (h : Spaced sep x ws) : Spaced sep (c :: x) ws := by
  have hblank : ∀ {y : List α}, Blank sep y → Blank sep (c :: y) :=
    fun hy => List.forall_mem_cons.2 ⟨hc, hy⟩
  cases h with
  | nil x h => exact .nil _ (hblank h)
  | last x w hx hw hne => exact .last (c :: x) w (hblank hx) hw hne
  | cons x w d y ws hx hw hne hd h => exact .cons (c :: x) w d y ws (hblank hx) hw hne hd h

theorem pieces_spaced (x : List α) : ∀ w, Plain sep w →
    Spaced sep (w ++ x) (pieces sep false w x) := by
  induction x with
  | nil =>
    intro w hw
    rw [List.append_nil]
    by_cases hne : w = []
    · subst hne
      exact .nil [] fun _ h => absurd h List.not_mem_nil
    · rw [pieces_end w hne]
      exact .last [] w (fun _ h => absurd h List.not_mem_nil) hw hne
  | cons c x ih =>
    intro w hw
    have hnil : Plain sep ([] : List α) := fun _ h => absurd h List.not_mem_nil
    cases hc : sep c with
    | true =>
      by_cases hne : w = []
      · subst hne
        have hsep : pieces sep false [] (c :: x) = pieces sep false [] x := fields_sep hc x
        rw [hsep]
        exact (ih [] hnil).sep_cons hc
      · rw [pieces_sep w hne hc]
        exact .cons [] w c x _ (fun _ h => absurd h List.not_mem_nil) hw hne hc (ih [] hnil)
    | false =>
      rw [pieces, if_neg (by simp [hc])]
      have hw' : Plain sep (w ++ [c]) := by
        intro d hd
        rcases List.mem_append.1 hd with hd | hd
        · exact hw d hd
        · rw [List.mem_singleton.1 hd]
          exact hc
      have h := ih (w ++ [c]) hw'
      rwa [List.append_assoc, List.singleton_append] at h

/-- **What `fields` reads.** -/
theorem fields_iff (x : List α) (ws : List (List α)) : fields sep x = ws ↔ Spaced sep x ws := by
  constructor
  · rintro rfl
    exact pieces_spaced x [] fun _ h => absurd h List.not_mem_nil
  · intro h
    induction h with
    | nil x h =>
      have hx := fields_blank x [] h
      rwa [List.append_nil] at hx
    | last x w hx hw hne => rw [fields_blank x w hx, fields_last w hw hne]
    | cons x w c y ws hx hw hne hc h ih =>
      rw [List.append_assoc, fields_blank x _ hx, fields_cons w hw hne hc, ih]

theorem fields_eq_nil (x : List α) : fields sep x = [] ↔ Blank sep x := by
  rw [fields_iff]
  constructor
  · intro h
    cases h with
    | nil x h => exact h
  · exact fun h => .nil x h

end

end Split
