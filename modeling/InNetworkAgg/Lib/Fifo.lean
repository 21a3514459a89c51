import InNetworkAgg.Lib.PartialRun

/-!
A first-in first-out queue of bounded size, with the record of all that was
written to it and returned from it.

    runs (step cap) empty ops = some q  →  q.returned ++ q.stored = q.written      (runs_ok)
-/

namespace Fifo

open PartialRun

variable {α : Type*}

inductive Op (α : Type*) where
  | write (data : List α)
  | read (n : Nat)
deriving Repr

structure Queue (α : Type*) where
  /-- oldest first -/
  stored : List α
  written : List α
  returned : List α

def Queue.empty : Queue α := { stored := [], written := [], returned := [] }

/-- A write has to fit; a read takes what there is. -/
def step (cap : Nat) (q : Queue α) : Op α → Option (Queue α)
  | .write data =>
    if data.length ≤ cap - q.stored.length then
      some { q with stored := q.stored ++ data, written := q.written ++ data }
    else none
  | .read n =>
    some { q with stored := q.stored.drop n, returned := q.returned ++ q.stored.take n }

structure Queue.Ok (cap : Nat) (q : Queue α) : Prop where
  history : q.returned ++ q.stored = q.written
  fits : q.stored.length ≤ cap

theorem Queue.empty_ok (cap : Nat) : (Queue.empty : Queue α).Ok cap := ⟨rfl, Nat.zero_le _⟩

theorem step_ok {cap : Nat} (q : Queue α) (op : Op α) (q' : Queue α) (hq : q.Ok cap)
    (h : step cap q op = some q') : q'.Ok cap := by
  obtain ⟨hhist, hfits⟩ := hq
  cases op with
  | write data =>
    rw [step] at h
    split at h
    · cases h
      refine ⟨?_, ?_⟩
      · show q.returned ++ (q.stored ++ data) = q.written ++ data
        rw [← List.append_assoc, hhist]
      · show (q.stored ++ data).length ≤ cap
        rw [List.length_append]
        omega
    · cases h
  | read n =>
    cases h
    refine ⟨?_, ?_⟩
    · show q.returned ++ q.stored.take n ++ q.stored.drop n = q.written
      rw [List.append_assoc, List.take_append_drop, hhist]
    · show (q.stored.drop n).length ≤ cap
      rw [List.length_drop]
      omega

/-- Nothing is lost, doubled or put out of order. -/
theorem runs_ok {cap : Nat} {ops : List (Op α)} {q : Queue α}
    (h : runs (step cap) Queue.empty ops = some q) : q.Ok cap :=
  runs_invariant step_ok (Queue.empty_ok cap) h

theorem Queue.Ok.returned_prefix {cap : Nat} {q : Queue α} (h : q.Ok cap) :
    q.returned <+: q.written := ⟨q.stored, h.history⟩

theorem Queue.Ok.length_stored {cap : Nat} {q : Queue α} (h : q.Ok cap) :
    q.stored.length = q.written.length - q.returned.length := by
  rw [← h.history, List.length_append]
  omega

end Fifo
