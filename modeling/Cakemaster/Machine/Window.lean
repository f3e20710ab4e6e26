import Cakemaster.Machine.Schedule
import Mathlib.Data.List.Infix

/-!
# The time of a call

The states of a system between the invocation of a call and its return, whatever the
other calls do meanwhile. What a call returns is compared with these moments.
-/

namespace Cakemaster.Machine

open Function

variable {σ ι Call ρ X : Type} [DecidableEq ι]

namespace System

/-- Thread `t` runs `call`, and the shared state has gone through `moments` since it was
invoked. -/
inductive InCall (sys : System σ ι Call ρ) (t : ι) (call : Call) : List σ → Config σ ι Call ρ → Prop
  | invoke (hrch : sys.Reachable c) (hidle : c.threads t = none) :
      InCall sys t call [c.shared]
        { c with threads := Function.update c.threads t (some ⟨call, sys.code t call, []⟩) }
  | step (h : InCall sys t call moments c) (hstep : sys.Step c c')
      (hbusy : c'.threads t ≠ none) : InCall sys t call (moments ++ [c'.shared]) c'

variable {sys : System σ ι Call ρ} {t : ι} {call : Call} {moments : List σ}
  {c c' : Config σ ι Call ρ}

theorem Step.call_eq (h : sys.Step c c') (hr : c.threads t = some r) :
    (∃ r', c'.threads t = some r' ∧ r'.call = r.call) ∨ c'.threads t = none ∧
      ∃ result, r.prog = .ret result ∧
      c'.completed = ⟨t, r.call, result, r.trace⟩ :: c.completed := by
  -- a step of thread `t'` that does not end its call
  have hset : ∀ {t' r'}, (∀ r, c.threads t' = some r → r'.call = r.call) →
      c'.threads = update c.threads t' (some r') → ∃ r', c'.threads t = some r' ∧
      r'.call = r.call := by
    intro t' r' hcall hthrs
    by_cases ht : t = t'
    · subst ht
      exact ⟨r', by rw [hthrs, update_self], hcall r hr⟩
    · exact ⟨r, by rw [hthrs, update_of_ne ht, hr], rfl⟩
  cases h with
  | invoke t' call' hidle => exact .inl (hset (fun r hr => by simp [hidle] at hr) rfl)
  | act hthr | choose _ hthr | loop hthr =>
    refine .inl (hset (fun r hr => ?_) rfl)
    cases hthr.symm.trans hr
    rfl
  | @finish t' r' result hthr hprog =>
    by_cases ht : t = t'
    · subst ht
      cases hthr.symm.trans hr
      exact .inr ⟨update_self .., result, hprog, rfl⟩
    · exact .inl ⟨r, (update_of_ne ht _ _).trans hr, rfl⟩
  | env => exact .inl ⟨r, hr, rfl⟩

namespace InCall

variable (h : sys.InCall t call moments c)
include h

theorem running : ∃ r, c.threads t = some r ∧ r.call = call := by
  induction h with
  | invoke => exact ⟨_, update_self .., rfl⟩
  | step _ hstep hbusy ih =>
    obtain ⟨r, hr, hcall⟩ := ih
    rcases hstep.call_eq hr with ⟨r', hr', hcall'⟩ | ⟨hnone, -⟩
    · exact ⟨r', hr', hcall'.trans hcall⟩
    · exact absurd hnone hbusy

theorem shared_mem : c.shared ∈ moments := by
  cases h with
  | invoke => exact List.mem_singleton_self _
  | step => exact List.mem_append_right _ (List.mem_singleton_self _)

theorem exists_play (turns : List (Turn ι Call))
    (hbusy : ∀ before ∈ turns.inits, ((sys.play c before).threads t).isSome = true) :
    ∃ moments', sys.InCall t call moments' (sys.play c turns) := by
  induction turns generalizing c moments with
  | nil => exact ⟨moments, h⟩
  | cons a rest ih =>
    have hrest : ∀ before ∈ rest.inits, ((sys.play (sys.turn c a) before).threads t).isSome = true :=
      fun before hmem => hbusy (a :: before) (by simpa using hmem)
    rcases sys.turn_cases c a with hsame | hstep
    · exact ih (hsame.symm ▸ h) hrest
    · exact ih (h.step hstep (Option.isSome_iff_ne_none.mp (hrest [] (by simp)))) hrest

end InCall

end System

namespace Outline

variable {sys : System σ ι Call ρ} {o : Outline sys X} {track : Call → List (σ × σ) → X → Prop}
  {inv : σ → (ι → X) → List (Completed σ ι Call ρ) → Prop}

/-- A property of the moments of a call, the shared state and the call's ghost that every
step keeps. -/
structure During (o : Outline sys X) (inv : σ → (ι → X) → List (Completed σ ι Call ρ) → Prop)
    (t : ι) (call : Call) (P : List σ → σ → X → Prop) : Prop where
  start : ∀ {s gs done}, inv s gs done → P [s] s (o.start call)
  own : ∀ {moments s gs done s' x'}, inv s gs done → s ∈ moments → P moments s (gs t) →
    o.rel t s (gs t) s' x' → P (moments ++ [s']) s' x'
  other : ∀ {moments s gs done t' s' x'}, inv s gs done → P moments s (gs t) →
    o.rel t' s (gs t') s' x' → P (moments ++ [s']) s' (gs t)
  env : ∀ {moments s gs done s'}, inv s gs done → P moments s (gs t) → sys.env s s' →
    P (moments ++ [s']) s' (gs t)
  still : ∀ {moments s gs done}, inv s gs done → P moments s (gs t) → P (moments ++ [s]) s (gs t)

variable {t : ι} {call : Call} {P : List σ → σ → X → Prop} {moments : List σ}
  {c c' : Config σ ι Call ρ}

theorem during (hkp : Keeps o (fun _ _ => True) track inv) (hduring : During o inv t call P)
    (h : sys.InCall t call moments c) :
    ∃ gs, Ghosts o track c gs ∧ inv c.shared gs c.completed ∧ P moments c.shared (gs t) := by
  induction h with
  | @invoke c hrch hidle =>
    obtain ⟨gs, hgh, hinv⟩ := reachable hkp hrch
    refine ⟨_, hgh.update (o.start call) _ (by simp) ?_, hkp.invoke t call hinv (hgh.idle t hidle), ?_⟩
    · intro r hr
      cases hr
      exact ⟨o.conforms t call, hkp.track_start call⟩
    · rw [update_self]
      exact hduring.start hinv
  | @step moments c c' h hstep hbusy ih =>
    obtain ⟨gs, hgh, hinv, hP⟩ := ih
    obtain ⟨gs', hgh', hinv', hadvances⟩ := hgh.step hkp hinv hstep trivial
    refine ⟨gs', hgh', hinv', ?_⟩
    cases hadvances with
    | move t' r x' hthr hrel hgs =>
      by_cases ht : t = t'
      · subst ht
        rw [hgs, update_self]
        exact hduring.own hinv h.shared_mem hP hrel
      · rw [hgs, update_of_ne ht]
        exact hduring.other hinv hP hrel
    | env henv hgs =>
      rw [hgs]
      exact hduring.env hinv hP henv
    | quiet hshr hgs =>
      obtain ⟨r, hr, -⟩ := h.running
      rw [hgs t (by simp [hr]) hbusy, hshr]
      exact hduring.still hinv hP

theorem During.returns (hduring : During o inv t call P) (hkp : Keeps o (fun _ _ => True) track inv)
    (h : sys.InCall t call moments c) (hstep : sys.Step c c') (hnone : c'.threads t = none) :
    ∃ result trace x, c'.completed = ⟨t, call, result, trace⟩ :: c.completed ∧
    o.post call result x ∧
      P moments c.shared x := by
  obtain ⟨gs, hgh, -, hP⟩ := during hkp hduring h
  obtain ⟨r, hr, rfl⟩ := h.running
  rcases hstep.call_eq hr with ⟨_, hr', -⟩ | ⟨-, result, hprog, hcompleted⟩
  · cases hnone.symm.trans hr'
  · obtain ⟨hconf, -⟩ := hgh.running t r hr
    rw [hprog] at hconf
    exact ⟨result, r.trace, gs t, hcompleted, Conforms.ret_iff.mp hconf, hP⟩

end Outline

end Cakemaster.Machine
