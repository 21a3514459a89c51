import Mathlib

/-!
Numbers of variable length: the digits of `n` in base `B`, lowest first, all but
the last one with a mark (`B` added).  The mark says where the number ends, so
numbers can be packed back to back:

    decode B (encode B n ++ rest) = some (n, rest)      for n ≠ 0        (decode_encode)

Zero has no digits: nothing is written for it.
-/

namespace Varint

variable {B : Nat}

/-- The mark on all digits but the last. -/
def mark (B : Nat) : List Nat → List Nat
  | [] => []
  | [d] => [d]
  | d :: e :: ds => (d + B) :: mark B (e :: ds)

def encode (B n : Nat) : List Nat := mark B (Nat.digits B n)

/-- The number in front and what is behind it; `none` when the bytes end inside it. -/
def decode (B : Nat) : List Nat → Option (Nat × List Nat)
  | [] => none
  | b :: bs => if b < B then some (b, bs) else (decode B bs).map fun r => (b - B + B * r.1, r.2)

@[simp] theorem length_mark (ds : List Nat) : (mark B ds).length = ds.length := by
  induction ds with
  | nil => rfl
  | cons d ds ih =>
    cases ds with
    | nil => rfl
    | cons e ds => rw [mark, List.length_cons, ih]; rfl

theorem decode_mark (ds rest : List Nat) (hne : ds ≠ []) (hlt : ∀ d ∈ ds, d < B) :
    decode B (mark B ds ++ rest) = some (Nat.ofDigits B ds, rest) := by
  induction ds with
  | nil => exact absurd rfl hne
  | cons d ds ih =>
    have hd := hlt d List.mem_cons_self
    cases ds with
    | nil =>
      rw [mark, List.singleton_append, decode, if_pos hd, Nat.ofDigits_singleton]
    | cons e ds =>
      have htail := ih (List.cons_ne_nil e ds) fun c hc => hlt c (List.mem_cons_of_mem _ hc)
      rw [mark, List.cons_append, decode, if_neg (by omega), htail, Nat.ofDigits_cons,
        Option.map_some, Nat.add_sub_cancel]
      rfl

/-- Packed numbers come apart again. -/
theorem decode_encode (hB : 1 < B) {n : Nat} (hn : n ≠ 0) (rest : List Nat) :
    decode B (encode B n ++ rest) = some (n, rest) := by
  rw [encode, decode_mark _ rest (Nat.digits_ne_nil_iff_ne_zero.2 hn)
    fun d hd => Nat.digits_lt_base hB hd, Nat.ofDigits_digits]

theorem encode_zero (B : Nat) : encode B 0 = [] := by rw [encode, Nat.digits_zero, mark]

/-- The last digit. -/
theorem encode_of_lt {n : Nat} (hn : n ≠ 0) (h : n < B) : encode B n = [n] := by
  rw [encode, Nat.digits_of_lt B n hn h, mark]

/-- A digit with more behind it. -/
theorem encode_of_le (hB : 1 < B) {n : Nat} (h : B ≤ n) :
    encode B n = (n % B + B) :: encode B (n / B) := by
  have hdiv : n / B ≠ 0 := Nat.div_ne_zero_iff.2 ⟨by omega, h⟩
  obtain ⟨e, ds, hds⟩ := List.exists_cons_of_ne_nil (Nat.digits_ne_nil_iff_ne_zero.2 hdiv)
  rw [encode, encode, Nat.digits_def' hB (by omega), hds, mark]

end Varint
