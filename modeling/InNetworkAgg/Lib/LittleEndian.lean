import Mathlib

/-!
Little-endian words in byte lists: `leBytes k n` is what a copy of a `k`-byte
unsigned integer leaves in memory, `leValue` reads it back, and `load` is a
bounds-checked copy out of a byte buffer (`none` where the copy would leave
the buffer).

    leValue (leBytes k n) = n % 256 ^ k                          (leValue_leBytes)
    load k (pre ++ leBytes k n ++ post) pre.length = some (n % 256 ^ k)  (load_leBytes)
-/

namespace LittleEndian

/-- The `k` low bytes of `n`, least significant first. -/
def leBytes : Nat → Nat → List UInt8
  | 0, _ => []
  | k + 1, n => UInt8.ofNat n :: leBytes k (n / 256)

/-- The number whose bytes are `bs`, least significant first. -/
def leValue : List UInt8 → Nat
  | [] => 0
  | b :: bs => b.toNat + 256 * leValue bs

/-- Copy a `k`-byte word out of `buf` at `off`. -/
def load (k : Nat) (buf : List UInt8) (off : Nat) : Option Nat :=
  if off + k ≤ buf.length then some (leValue ((buf.drop off).take k)) else none

@[simp] theorem length_leBytes (k n : Nat) : (leBytes k n).length = k := by
  induction k generalizing n with
  | zero => rfl
  | succ k ih => simp [leBytes, ih]

theorem leValue_leBytes (k n : Nat) : leValue (leBytes k n) = n % 256 ^ k := by
  induction k generalizing n with
  | zero => simp [leBytes, leValue, Nat.mod_one]
  | succ k ih =>
    have hb : (UInt8.ofNat n).toNat = n % 256 := by simp
    rw [leBytes, leValue, ih, hb, Nat.pow_succ, Nat.mul_comm (256 ^ k), Nat.mod_mul]

theorem leValue_lt (bs : List UInt8) : leValue bs < 256 ^ bs.length := by
  induction bs with
  | nil => simp [leValue]
  | cons b bs ih =>
    have := b.toNat_lt
    rw [leValue, List.length_cons, Nat.pow_succ]
    omega

theorem load_leBytes (k n : Nat) (pre post : List UInt8) :
    load k (pre ++ (leBytes k n ++ post)) pre.length = some (n % 256 ^ k) := by
  have hlen : pre.length + k ≤ (pre ++ (leBytes k n ++ post)).length := by simp
  have htake : ((pre ++ (leBytes k n ++ post)).drop pre.length).take k = leBytes k n := by
    rw [List.drop_left, List.take_left' (length_leBytes k n)]
  rw [load, if_pos hlen, htake, leValue_leBytes]

end LittleEndian
