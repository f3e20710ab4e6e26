import Mathlib.Order.CompletePartialOrder
import Mathlib.Order.Interval.Set.Disjoint
import Mathlib.Tactic.Linarith

/-!
# Bounded words

Natural numbers that a program keeps in a fixed number of bits: checked,
saturating and wrapping arithmetic, and the power-of-two scaling of ranges.
-/

namespace Cakemaster.Machine.Word

open Nat

def maxOf (w : ℕ) : ℕ := 2 ^ w - 1

def checkedAdd (w a b : ℕ) : Option ℕ := if a + b < 2 ^ w then some (a + b) else none

def checkedSub (a b : ℕ) : Option ℕ := if b ≤ a then some (a - b) else none

def checkedMul (w a b : ℕ) : Option ℕ := if a * b < 2 ^ w then some (a * b) else none

def satAdd (w a b : ℕ) : ℕ := min (a + b) (maxOf w)

def wrapAdd (w a b : ℕ) : ℕ := (a + b) % 2 ^ w

theorem checkedAdd_eq_some : checkedAdd w a b = some c ↔ a + b < 2 ^ w ∧ c = a + b := by
  unfold checkedAdd
  split <;> simp_all [eq_comm]

theorem checkedSub_of_le (h : b ≤ a) : checkedSub a b = some (a - b) := by
  simp [checkedSub, h]

/-- A sum computed in a word that is wide enough for it. -/
theorem foldl_eq_sum (hf : ∀ a b, a + b < 2 ^ w → f a b = a + b) (values : List ℕ)
    (h : n + values.sum < 2 ^ w) : values.foldl f n = n + values.sum := by
  induction values generalizing n with
  | nil => rfl
  | cons value rest ih =>
    rw [List.sum_cons] at h ⊢
    rw [List.foldl_cons, hf _ _ (by omega), ih (by omega)]
    omega

theorem satAdd_le_satAdd (a : ℕ) (h : b ≤ c) : satAdd w a b ≤ satAdd w a c := by
  unfold satAdd
  omega

/-- The number of blocks of `quantum` that hold `n`. -/
def ceilDiv (n quantum : ℕ) : ℕ := n / quantum + if n % quantum = 0 then 0 else 1

theorem le_ceilDiv_mul (n : ℕ) (hquantum : 0 < quantum) : n ≤ ceilDiv n quantum * quantum := by
  unfold ceilDiv
  have hdiv := div_add_mod n quantum
  have hmod := mod_lt n hquantum
  split <;> nlinarith

theorem ceilDiv_le (n : ℕ) (hquantum : 0 < quantum) : ceilDiv n quantum ≤ n := by
  have hpts := Nat.div_add_mod n quantum
  have hle := Nat.le_mul_of_pos_left (n / quantum) hquantum
  rw [ceilDiv]
  split <;> omega

theorem ceilDiv_pos (hn : 0 < n) : 0 < ceilDiv n quantum := by
  unfold ceilDiv
  split
  case isTrue h =>
    have hdvd : quantum ∣ n := dvd_of_mod_eq_zero h
    have hquantum : 0 < quantum := pos_of_dvd_of_pos hdvd hn
    have := div_pos (le_of_dvd hn hdvd) hquantum
    omega
  case isFalse => exact succ_pos _

/-- Scaling by a common factor keeps half-open ranges apart. -/
theorem disjoint_Ico_scale (quantum : ℕ) (h : Disjoint (Set.Ico a (a + m)) (Set.Ico b (b + n))) :
    Disjoint (Set.Ico (a * quantum) (a * quantum + m * quantum))
      (Set.Ico (b * quantum) (b * quantum + n * quantum)) := by
  rw [Set.Ico_disjoint_Ico] at h ⊢
  have hscl := mul_le_mul_right quantum h
  rcases le_total a b with hab | hab <;>
    rcases le_total (a + m) (b + n) with hend | hend <;>
    have hab' := mul_le_mul_right quantum hab <;>
    have hend' := mul_le_mul_right quantum hend <;>
    simp only [hab, hend, min_eq_left, min_eq_right, max_eq_left, max_eq_right, add_mul]
      at hscl hab' hend' ⊢ <;>
    omega

/-- Ranges shorter than disjoint ones with the same starts are disjoint. -/
theorem disjoint_Ico_shorten {a m m' b n n' : ℕ} (hm : m' ≤ m) (hn : n' ≤ n)
    (h : Disjoint (Set.Ico a (a + m)) (Set.Ico b (b + n))) :
    Disjoint (Set.Ico a (a + m')) (Set.Ico b (b + n')) :=
  h.mono (Set.Ico_subset_Ico_right (by omega)) (Set.Ico_subset_Ico_right (by omega))

end Cakemaster.Machine.Word
