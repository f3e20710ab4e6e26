import Mathlib.Algebra.Order.Group.Nat
import Mathlib.Tactic.Ring

/-!
# Numbers as bytes

Little-endian representations of fixed width.
-/

namespace Cakemaster.Wire

abbrev Bytes := List UInt8

def littleEndian : ℕ → ℕ → Bytes
  | 0, _ => []
  | width + 1, x => UInt8.ofNat x :: littleEndian width (x / 256)

def ofLittleEndian : Bytes → ℕ
  | [] => 0
  | b :: bs => b.toNat + 256 * ofLittleEndian bs

@[simp] theorem length_littleEndian (width x : ℕ) : (littleEndian width x).length = width := by
  induction width generalizing x with
  | zero => rfl
  | succ width ih => rw [littleEndian, List.length_cons, ih]

theorem ofLittleEndian_littleEndian (h : x < 256 ^ width) :
    ofLittleEndian (littleEndian width x) = x := by
  induction width generalizing x with
  | zero =>
    rw [pow_zero, Nat.lt_one_iff] at h
    rw [h]
    rfl
  | succ width ih =>
    have hdiv : x / 256 < 256 ^ width := by
      rw [Nat.div_lt_iff_lt_mul (by decide), ← pow_succ]
      exact h
    have hbyte : (UInt8.ofNat x).toNat = x % 256 := UInt8.toNat_ofNat'
    rw [littleEndian, ofLittleEndian, ih hdiv, hbyte]
    omega

end Cakemaster.Wire
