import InNetworkAgg.CopaSender

/-!
# The windowed RTT filter

`Least` is what the Copa sender relies on in the `WindowedFilter` of the QUIC library,
which is not part of the repository.  `threeEstimates` follows its documentation: the
best, second and third best sample of the window are kept with their times, and the next
one takes over when one gets too old.  It is such a filter, whatever its window lengths
and the times are (`threeEstimates_least`); runs can be computed with it.
-/

namespace InNetworkAgg

namespace CopaSender

variable {F : Type} {filter : WindowedFilter F}

/-- The samples that a filter was given, the last one first. -/
inductive Given (filter : WindowedFilter F) : F → List Nat → Prop where
  | new (length : Nat) : Given filter (filter.new length) []
  | setWindowLength (f : F) (samples : List Nat) (length : Nat) (h : Given filter f samples) :
    Given filter (filter.setWindowLength f length) samples
  | update (f : F) (samples : List Nat) (sample time : Nat) (h : Given filter f samples) :
    Given filter (filter.update f sample time) (sample :: samples)

/-- The best sample is one of the samples, and not above the last one. -/
structure Least (filter : WindowedFilter F) : Prop where
  le_last : ∀ f sample samples, Given filter f (sample :: samples) → filter.getBest f ≤ sample
  mem : ∀ f sample samples, Given filter f (sample :: samples) →
    filter.getBest f ∈ sample :: samples

end CopaSender

/-! ## Three estimates -/

structure Sample where
  sample : Nat
  time : Nat
deriving DecidableEq, Repr

/-- The estimates are in the order of their times; 0 is a sample that was not taken. -/
structure Estimates where
  windowLength : Nat
  best : Sample := ⟨0, 0⟩
  second : Sample := ⟨0, 0⟩
  third : Sample := ⟨0, 0⟩
deriving DecidableEq, Repr

namespace Estimates

/-- The time since an estimate, a difference of `uint64_t`s. -/
def age (newTime : Nat) (estimate : Sample) : Nat := (newTime + 2 ^ 64 - estimate.time) % 2 ^ 64

def reset (e : Estimates) (new : Sample) : Estimates :=
  { e with best := new, second := new, third := new }

/-- A sample that is at most an estimate takes its place, and that of the later ones. -/
def insert (e : Estimates) (new : Sample) : Estimates :=
  if new.sample ≤ e.second.sample then { e with second := new, third := new }
  else if new.sample ≤ e.third.sample then { e with third := new }
  else e

/-- The best estimate is older than the window: the others move up, twice if need be. -/
def promote (e : Estimates) (new : Sample) : Estimates :=
  let e := { e with best := e.second, second := e.third, third := new }
  if e.windowLength < age new.time e.best then { e with best := e.second, second := e.third }
  else e

/-- No better sample for a quarter, or for half of the window. -/
def renew (e : Estimates) (new : Sample) : Estimates :=
  if e.second.sample = e.best.sample ∧ e.windowLength / 4 < age new.time e.second then
    { e with second := new, third := new }
  else if e.third.sample = e.second.sample ∧ e.windowLength / 2 < age new.time e.third then
    { e with third := new }
  else e

def update (e : Estimates) (new : Sample) : Estimates :=
  if e.best.sample = 0 ∨ new.sample ≤ e.best.sample ∨ e.windowLength < age new.time e.third then
    e.reset new
  else if e.windowLength < age new.time e.best then (e.insert new).promote new
  else (e.insert new).renew new

/-- All three estimates. -/
def All (P : Sample → Prop) (e : Estimates) : Prop := P e.best ∧ P e.second ∧ P e.third

variable {P : Sample → Prop} {e : Estimates} {new : Sample}

theorem All.insert (h : e.All P) (hnew : P new) : (e.insert new).All P := by
  obtain ⟨hbest, hsecond, hthird⟩ := h
  unfold Estimates.insert
  split
  · exact ⟨hbest, hnew, hnew⟩
  · split
    · exact ⟨hbest, hsecond, hnew⟩
    · exact ⟨hbest, hsecond, hthird⟩

theorem All.promote (h : e.All P) (hnew : P new) : (e.promote new).All P := by
  obtain ⟨-, hsecond, hthird⟩ := h
  unfold Estimates.promote
  dsimp only
  split
  · exact ⟨hthird, hnew, hnew⟩
  · exact ⟨hsecond, hthird, hnew⟩

theorem All.renew (h : e.All P) (hnew : P new) : (e.renew new).All P := by
  obtain ⟨hbest, hsecond, hthird⟩ := h
  unfold Estimates.renew
  split
  · exact ⟨hbest, hnew, hnew⟩
  · split
    · exact ⟨hbest, hsecond, hnew⟩
    · exact ⟨hbest, hsecond, hthird⟩

/-- An update, by what it does to an estimate that is there already. -/
theorem update_all (hnew : P new)
    (hinsert : e.best.sample ≠ 0 → e.best.sample < new.sample → (e.insert new).All P) :
    (e.update new).All P := by
  unfold update
  split
  · exact ⟨hnew, hnew, hnew⟩
  · rename_i hreset
    have hall : (e.insert new).All P := hinsert (by tauto) (by omega)
    split
    · exact hall.promote hnew
    · exact hall.renew hnew

/-- Above the best estimate, a sample takes the place of those that are above it. -/
theorem insert_le (h : e.best.sample < new.sample) :
    (e.insert new).All (·.sample ≤ new.sample) := by
  unfold insert
  split
  · exact ⟨h.le, le_rfl, le_rfl⟩
  · split
    · exact ⟨h.le, by dsimp only; omega, le_rfl⟩
    · exact ⟨h.le, by omega, by omega⟩

end Estimates

/-- The filter; a new one has no estimate yet. -/
def threeEstimates : WindowedFilter Estimates where
  new windowLength := { windowLength }
  setWindowLength e windowLength := { e with windowLength }
  update e sample time := e.update ⟨sample, time⟩
  getBest e := e.best.sample

/-- What the estimates are, after some samples. -/
structure Estimated (samples : List Nat) (e : Estimates) : Prop where
  none : samples = [] → e.best.sample = 0
  mem : samples ≠ [] → e.All (·.sample ∈ samples)
  le_last : ∀ last ∈ samples.head?, e.All (·.sample ≤ last)

theorem Estimated.update {samples : List Nat} {e : Estimates} (h : Estimated samples e)
    (sample time : Nat) : Estimated (sample :: samples) (e.update ⟨sample, time⟩) where
  none hnil := by cases hnil
  mem _ := by
    refine Estimates.update_all List.mem_cons_self fun hbest _ => ?_
    have hall : e.All (·.sample ∈ samples) := h.mem fun hnil => hbest (h.none hnil)
    have hmore : e.All (·.sample ∈ sample :: samples) :=
      ⟨List.mem_cons_of_mem _ hall.1, List.mem_cons_of_mem _ hall.2.1,
        List.mem_cons_of_mem _ hall.2.2⟩
    exact hmore.insert List.mem_cons_self
  le_last last hlast := by
    obtain rfl : sample = last := Option.some.inj hlast
    exact Estimates.update_all le_rfl fun _ hlt => Estimates.insert_le hlt

theorem estimated_of_given {e : Estimates} {samples : List Nat}
    (h : CopaSender.Given threeEstimates e samples) : Estimated samples e := by
  induction h with
  | new windowLength => exact ⟨fun _ => rfl, fun hne => absurd rfl hne, fun _ h => by cases h⟩
  | setWindowLength e samples windowLength h ih => exact ⟨ih.none, ih.mem, ih.le_last⟩
  | update e samples sample time h ih => exact ih.update sample time

theorem threeEstimates_least : CopaSender.Least threeEstimates where
  le_last _ sample _ h := ((estimated_of_given h).le_last sample rfl).1
  mem _ _ _ h := ((estimated_of_given h).mem (by simp)).1

end InNetworkAgg
