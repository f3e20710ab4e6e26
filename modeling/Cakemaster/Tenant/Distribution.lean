import Cakemaster.Machine.Word
import Mathlib.Algebra.Group.Action.Defs
import Mathlib.Algebra.Order.BigOperators.Group.List

/-!
# Effective quotas

If the accepting capacity covers all requests, each tenant gets the quota it requests.
Otherwise it gets its share of the capacity, rounded down, and what rounding leaves over
goes to the first tenants in the order of their ids, one byte each.
-/

namespace Cakemaster.Tenant

open Machine Nat List Word

/-- The loop that hands out the remainder over requests with their shares. -/
def giveRemainder : ℕ → List (ℕ × ℕ) → List ℕ
  | _, [] => []
  | remainder, (requested, share) :: rest =>
    if remainder = 0 then share :: rest.map (·.2)
    else if share < requested then wrapAdd 64 share 1 :: giveRemainder (remainder - 1) rest
    else share :: giveRemainder remainder rest

/-- The effective quotas that are set for requests in the order of the tenants' ids. The
requests are summed and multiplied in 128 bits, the shares are in 64. -/
def distributeEffectiveQuota (capacity : ℕ) (requested : List ℕ) : List ℕ :=
  let totalRequested := requested.foldl (wrapAdd 128) 0
  if totalRequested ≤ capacity then requested
  else
    let shares := requested.map fun request => (request, request * capacity % 2 ^ 128 / totalRequested % 2 ^ 64)
    let assigned := (shares.map (·.2)).foldl (satAdd 64) 0
    giveRemainder (capacity - assigned) shares

/-- A request's share of the capacity, rounded down. -/
def shareOf (capacity total request : ℕ) : ℕ := request * capacity / total

/-- The share with one of the bytes that rounding has left over, unless nothing was requested. -/
def shareUp (capacity total request : ℕ) : ℕ :=
  shareOf capacity total request + if request = 0 then 0 else 1

/-- Shares of a capacity that does not cover the requests. The first requests get a byte more,
no share is more than was requested, and their sum fits a word like the requests themselves. -/
structure Rounded (capacity : ℕ) (requested effective : List ℕ) : Prop where
  sum : effective.sum = capacity
  shares : ∃ first rest, requested = first ++ rest ∧
    effective = first.map (shareUp capacity requested.sum) ++ rest.map
    (shareOf capacity requested.sum)
  le : ∀ request, shareUp capacity requested.sum request ≤ request
  assigned : (requested.map (shareOf capacity requested.sum)).sum ≤ capacity

section Rounding

variable {capacity total : ℕ}

theorem shareOf_lt (hless : capacity < total) (hpos : 0 < request) :
    shareOf capacity total request < request := by
  apply Nat.div_lt_of_lt_mul
  rw [mul_comm total]
  exact Nat.mul_lt_mul_of_pos_left hless hpos

theorem shareUp_le (hless : capacity < total) (request : ℕ) :
    shareUp capacity total request ≤ request := by
  unfold shareUp
  split
  case isTrue hzero => simp [shareOf, hzero]
  case isFalse hne => exact shareOf_lt hless (pos_of_ne_zero hne)

/-- What rounding takes from the shares, in units of `1 / total`. -/
theorem sum_shares (requests : List ℕ) :
    total * (requests.map (shareOf capacity total)).sum +
      (requests.map fun request => request * capacity % total).sum = requests.sum * capacity := by
  induction requests with
  | nil => simp
  | cons request rest ih =>
    have hdiv := div_add_mod (request * capacity) total
    simp only [map_cons, sum_cons, shareOf, mul_add, add_mul] at ih ⊢
    omega

theorem sum_remainders_le (htot : 0 < total) (requests : List ℕ) :
    (requests.map fun request => request * capacity % total).sum ≤ total * requests.countP (0 < ·) := by
  induction requests with
  | nil => simp
  | cons request rest ih =>
    have hmod := mod_lt (request * capacity) htot
    rcases Nat.eq_zero_or_pos request with hzero | hpos
    · simpa [hzero] using ih
    · simp only [map_cons, sum_cons, countP_cons, hpos, decide_true, if_true, mul_add]
      omega

variable {requests : List ℕ}

/-- There are enough tenants with a request for the bytes that rounding leaves over. -/
theorem remainder_bounds (hless : capacity < requests.sum) :
    (requests.map (shareOf capacity requests.sum)).sum ≤ capacity ∧
      capacity - (requests.map (shareOf capacity requests.sum)).sum ≤ requests.countP (0 < ·) := by
  have hpos := zero_lt_of_lt hless
  have hsum := @sum_shares capacity requests.sum requests
  have hle := @sum_remainders_le capacity _ hpos requests
  constructor
  · apply le_of_mul_le_mul_left _ hpos
    omega
  · apply le_of_mul_le_mul_left _ hpos
    rw [Nat.mul_sub]
    omega

/-- The loop raises the first shares that can be raised, one for each byte of the remainder. -/
theorem giveRemainder_eq (hless : capacity < total)
    (hwords : ∀ request ∈ requests, request < 2 ^ 64)
    (henough : remainder ≤ requests.countP (0 < ·)) :
    ∃ first rest, requests = first ++ rest ∧
      giveRemainder remainder (requests.map fun request => (request, shareOf capacity total request)) =
        first.map (shareUp capacity total) ++ rest.map (shareOf capacity total) ∧
      (first.map (shareUp capacity total) ++ rest.map (shareOf capacity total)).sum =
        (requests.map (shareOf capacity total)).sum + remainder := by
  induction requests generalizing remainder with
  | nil =>
    obtain rfl : remainder = 0 := by simpa using henough
    exact ⟨[], [], rfl, rfl, rfl⟩
  | cons request others ih =>
    rw [forall_mem_cons] at hwords
    by_cases hnone : remainder = 0
    · exact ⟨[], request :: others, rfl, by simp [giveRemainder, hnone], by simp [hnone]⟩
    rcases Nat.eq_zero_or_pos request with rfl | hpos
    · obtain ⟨first, rest, hspl, hgive, hsum⟩ := ih hwords.2 (by simpa using henough)
      have hzero : shareOf capacity total 0 = 0 := by simp [shareOf]
      have hup : shareUp capacity total 0 = 0 := by simp [shareUp, hzero]
      exact ⟨0 :: first, rest, by rw [hspl, cons_append], by simp [giveRemainder, hnone, hgive, hzero, hup],
        by simpa [hzero, hup] using hsum⟩
    have hlt := shareOf_lt hless hpos
    have hup : shareUp capacity total request = shareOf capacity total request + 1 := by
      simp [shareUp, ne_of_gt hpos]
    have hword : wrapAdd 64 (shareOf capacity total request) 1 = shareOf capacity total request + 1 :=
      mod_eq_of_lt (by omega)
    simp only [countP_cons, hpos, decide_true, if_true] at henough
    obtain ⟨first, rest, hspl, hgive, hsum⟩ := ih hwords.2 (show remainder - 1 ≤ _ by omega)
    refine ⟨request :: first, rest, by rw [hspl, cons_append],
      by simp [giveRemainder, hnone, hlt, hgive, hup, hword], ?_⟩
    simp only [map_cons, cons_append, sum_cons, hsum, hup]
    omega

end Rounding

/-- The distribution of any capacity over any requests. Nothing in it overflows: the sum of the
requests and the products fit 128 bits, the shares fit 64. -/
theorem quota_distributed {capacity : ℕ} {requested : List ℕ} (hcapacity : capacity < 2 ^ 64)
    (hwords : ∀ request ∈ requested, request < 2 ^ 64) (hcount : requested.length < 2 ^ 64) :
    requested.sum < 2 ^ 128 ∧ (∀ request ∈ requested, request * capacity < 2 ^ 128) ∧
      (requested.sum ≤ capacity → distributeEffectiveQuota capacity requested = requested) ∧
      (capacity < requested.sum →
      Rounded capacity requested (distributeEffectiveQuota capacity requested)) := by
  have htotal : requested.sum < 2 ^ 128 := by
    have hsum := List.sum_le_card_nsmul requested (2 ^ 64 - 1) fun request h =>
      le_pred_of_lt (hwords request h)
    rw [smul_eq_mul] at hsum
    omega
  have hproducts : ∀ request ∈ requested, request * capacity < 2 ^ 128 := fun request h =>
    (Nat.mul_lt_mul'' (hwords request h) hcapacity).trans_eq (by norm_num)
  have hfold :=
    foldl_eq_sum (f := wrapAdd 128) (fun _ _ h => mod_eq_of_lt h) requested (n := 0) (by omega)
  rw [zero_add] at hfold
  refine ⟨htotal, hproducts, fun hcovered => ?_, fun hless => ?_⟩
  · simp only [distributeEffectiveQuota, hfold, if_pos hcovered]
  have hshares : (requested.map fun request => (request, request * capacity % 2 ^ 128 / requested.sum % 2 ^ 64))
      = requested.map fun request => (request, shareOf capacity requested.sum request) := by
    refine List.map_congr_left fun request h => ?_
    have hle : shareOf capacity requested.sum request ≤ request :=
      le_trans (le_add_right _ _) (shareUp_le hless request)
    rw [mod_eq_of_lt (hproducts request h), ← shareOf, mod_eq_of_lt (hle.trans_lt (hwords request h))]
  obtain ⟨hassigned, henough⟩ := remainder_bounds hless
  have hassign := foldl_eq_sum (w := 64) (f := satAdd 64) (fun _ _ h => min_eq_left
    (le_pred_of_lt h)) (requested.map (shareOf capacity requested.sum)) (n := 0) (by omega)
  obtain ⟨first, rest, hsplit, hgive, hsum⟩ := giveRemainder_eq hless hwords henough
  rw [← hgive] at hsum
  have heffective : distributeEffectiveQuota capacity requested =
      giveRemainder (capacity - (requested.map (shareOf capacity requested.sum)).sum)
        (requested.map fun request => (request, shareOf capacity requested.sum request)) := by
    simp only [distributeEffectiveQuota, hfold, if_neg (not_le.mpr hless), hshares, List.map_map,
      Function.comp_def]
    rw [hassign, zero_add]
  rw [heffective]
  exact ⟨by omega, ⟨first, rest, hsplit, hgive⟩, shareUp_le hless, hassigned⟩

theorem quota_distributed_short :
    distributeEffectiveQuota 10 [5, 0, 7, 9] = [3, 0, 3, 4] ∧
      Rounded 10 [5, 0, 7, 9] [3, 0, 3, 4] :=
  ⟨by decide, (quota_distributed (by decide) (by decide) (by decide)).2.2.2 (by decide)⟩

end Cakemaster.Tenant
