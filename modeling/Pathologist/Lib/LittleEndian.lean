import Mathlib.Tactic.Ring

/-!
# Little-endian numbers in a stream of bytes

Numbers of a fixed width written one after the other, and read back at an offset.
-/
namespace Pathologist.Lib

/-- The lowest `width` bytes of a number, the lowest first. -/
def toLE : ℕ → ℕ → List UInt8
  | 0, _ => []
  | width + 1, n => UInt8.ofNat n :: toLE width (n / 256)

def fromLE : List UInt8 → ℕ
  | [] => 0
  | byte :: bytes => byte.toNat + 256 * fromLE bytes

@[simp] lemma length_toLE (width n : ℕ) : (toLE width n).length = width := by
  induction width generalizing n with
  | zero => rfl
  | succ width ih => rw [toLE, List.length_cons, ih]

lemma fromLE_toLE {width n : ℕ} (h : n < 256 ^ width) : fromLE (toLE width n) = n := by
  induction width generalizing n with
  | zero =>
    rw [pow_zero, Nat.lt_one_iff] at h
    rw [h]
    rfl
  | succ width ih =>
    have hdiv : n / 256 < 256 ^ width := by
      rw [Nat.div_lt_iff_lt_mul (by decide)]
      exact h
    rw [toLE, fromLE, ih hdiv]
    exact Nat.mod_add_div n 256

/-- The number of `width` bytes at `offset`. -/
def readLE (width : ℕ) (bytes : List UInt8) (offset : ℕ) : ℕ :=
  fromLE ((bytes.drop offset).take width)

lemma readLE_of_drop {width n offset : ℕ} {bytes rest} (h : n < 256 ^ width)
    (hd : bytes.drop offset = toLE width n ++ rest) : readLE width bytes offset = n := by
  rw [readLE, hd, List.take_append_of_le_length (length_toLE width n).ge,
    List.take_of_length_le (length_toLE width n).le, fromLE_toLE h]

/-- What follows a number starts right after its bytes. -/
lemma drop_add_of_drop {α : Type*} {offset k : ℕ} {xs ys rest : List α}
    (hd : xs.drop offset = ys ++ rest) (hl : ys.length = k) : xs.drop (offset + k) = rest := by
  rw [← List.drop_drop, hd, ← hl, List.drop_left]

end Pathologist.Lib
