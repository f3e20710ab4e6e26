import Cakemaster.Object.MoveSound

/-!
# Moves keep calls apart

What one move takes nobody else holds: a lock that was free, the gate that was free, a
version that did not exist, the base of a commit.
-/

namespace Cakemaster.Object

open Segment

variable {A : UnitAllocator} {x x' y : Ghost A} {u u' : View A}

namespace Move

theorem kind (h : Move u x u' x') : x'.kind = x.kind := by
  cases h <;> rfl

theorem fitting (hx : x.Fitting) (h : Move u x u' x') : x'.Fitting where
  hand hhand := by
    cases h with
    | pop hkind => exact .inr ⟨_, hkind⟩
    | publish hkind => exact .inl ⟨_, _, hkind⟩
    | push | drop | lose | departEvicted => exact absurd rfl hhand
    | _ => exact hx.hand hhand
  sealing s a v hf := by
    cases h with
    | record _ _ _ hkind =>
      cases hf
      exact hkind
    | observe _ _ _ hfoc =>
      rcases hfoc with rfl | ⟨rfl, -⟩
      · exact hx.sealing s a v hf
      · cases hf
    | unlock hlock =>
      have hnone := Focus.lock_unlocked x.focus
      rw [show x.focus.unlocked = _ from hf] at hnone
      cases hnone
    | _ => first | exact hx.sealing s a v hf | cases hf
  staging hmak := by
    cases h with
    | make _ hkind => exact ⟨_, hkind⟩
    | enterGate hm | stage hm | enqueue hm | leaveGate hm | backOut hm | pass hm | refuse hm
    | discard hm =>
      exact hx.staging (by simp [hm])
    | resolve s id v | @abandon s _ v =>
      refine hx.staging fun hnone => hmak ?_
      simp [Ghost.resolve, hnone]
    | _ => exact hx.staging hmak
  gate hgate := by
    cases h with
    | gate hkind => exact hkind
    | ungate => cases hgate
    | _ => exact hx.gate hgate
  writing hwrt := by
    cases h with
    | closeGate hkind => exact hkind
    | openGate => cases hwrt
    | _ => exact hx.writing hwrt

theorem lock_cases (h : Move u x u' x') (hs : x'.focus.lock = some s) :
    x.focus.lock = some s ∨ (u.slots s).locked = false := by
  cases h with
  | lock _ _ _ hunl =>
    cases hs
    exact .inr hunl
  | unlock =>
    rw [Focus.lock_unlocked] at hs
    cases hs
  | observe _ _ _ hfoc =>
    rcases hfoc with rfl | ⟨rfl, -⟩
    · exact .inl hs
    · cases hs
  | keep hf | free hf | base hf | meet hf | vacant hf | point hf | hollow hf | idle hf | examine hf | condemn hf
  | claim _ _ hf | unclaim hf | stage _ hf | abandon _ hf | agree hf | number hf | record _ _ _ _ hf
  | publish _ hf | withdraw hf | restore hf | depart hf | departEvicted hf | expel _ hf | lose _ hf
  | prune hf => exact .inl (hf ▸ hs)
  | see | sample | raise | mark | confirm | retry | sampleReplaced | retire | popRetired
  | take => cases hs
  | _ => exact .inl hs

theorem detached_cases (hu : u.Wellformed) (hx : x.Sound u) (h : Move u x u' x')
    (hv : x'.focus.detached = some v) :
    x.focus.detached = some v ∨ ∃ s, u.standing v = .published s := by
  cases h with
  | @publish s a _ _ hf =>
    exact .inr ⟨s, hu.committed ((hx.holds hf).1.2.2.trans hv)⟩
  | unlock =>
    left
    cases hf : x.focus with
    | replacing s base => cases base <;> simp_all [Focus.unlocked, Focus.detached]
    | _ => simp_all [Focus.unlocked, Focus.detached]
  | observe _ _ _ hfoc =>
    rcases hfoc with rfl | ⟨rfl, -⟩
    · exact .inl hv
    · cases hv
  | _ => first | exact .inl hv | cases hv

theorem made_cases (h : Move u x u' x') (hv : x'.making.made = some v) :
    x.making.made = some v ∨ v = u.versionCount := by
  cases h with
  | make => exact .inr (Option.some.inj hv).symm
  | enterGate hm | stage hm | enqueue hm | leaveGate hm | backOut hm | pass hm | refuse hm
  | discard hm =>
    exact .inl (hm ▸ hv)
  | resolve s id v' | @abandon s a v' =>
    left
    rwa [← Ghost.resolve_made x]
  | _ => exact .inl hv

theorem gate_cases (h : Move u x u' x') (hgate : x'.gate = true) :
    x.gate = true ∨ u.stepGate = false := by
  cases h with
  | gate _ hfree => exact .inr hfree
  | ungate => cases hgate
  | _ => exact .inl hgate

theorem apart (hu : u.Wellformed) (hx : x.Sound u) (hy : y.Sound u) (happ : x.Apart y)
    (h : Move u x u' x') : x'.Apart y where
  lock s hs hys := by
    rcases h.lock_cases hs with hs | hfree
    · exact happ.lock s hs hys
    · rw [(hy.lock s hys).1] at hfree
      cases hfree
  detached v hv hyv := by
    rcases h.detached_cases hu hx hv with hv | ⟨s, hpub⟩
    · exact happ.detached v hv hyv
    have hdet : u.standing v = .detached := by
      cases hf : y.focus with
      | replaced old =>
        rw [hf] at hyv
        cases hyv
        exact hy.holds hf
      | replacing s base =>
        rw [hf] at hyv
        exact hy.holds hf v hyv
      | _ =>
        rw [hf] at hyv
        cases hyv
    cases hdet.symm.trans hpub
  made v hv hyv := by
    rcases h.made_cases hv with hv | rfl
    · exact happ.made v hv hyv
    · exact hy.made _ hyv (hu.unborn le_rfl).1
  gate hgate := by
    rcases h.gate_cases hgate with hgate | hfree
    · exact happ.gate hgate
    · by_contra hyg
      rw [hy.gate (Bool.not_eq_false _ ▸ hyg)] at hfree
      cases hfree

theorem retiring (hx : x.Sound u) (hrtd : u.Retiring) (hrely : Rely x u u') (h : Move u x u' x') :
    u'.Retiring := by
  have hkept : ∀ r ∈ u.retired, u'.Settled r.version r.reclaimAfter := fun r hr =>
    hrely.settled (hrtd r hr)
  cases h with
  | retire r hf =>
    refine List.forall_mem_append.mpr ⟨hkept, List.forall_mem_singleton.mpr ?_⟩
    exact hrely.settled (hx.holds hf)
  | popRetired _ hr =>
    rw [hr] at hkept
    exact (List.forall_mem_cons.mp hkept).2
  | _ => exact hkept

end Move

end Cakemaster.Object
