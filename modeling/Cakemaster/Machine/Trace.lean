import Cakemaster.Machine.Interleaving

/-!
# Traces of calls

What a call has in hand can be read off the transitions it has made: something was
taken and has not been put down since.
-/

namespace Cakemaster.Machine

open List Function

variable {σ : Type} {start stop : σ → σ → Prop} {trace : List (σ × σ)} {s s' : σ}

/-- A transition of the first kind was made, and none of the second kind since. -/
def Since (start stop : σ → σ → Prop) (trace : List (σ × σ)) : Prop :=
  ∃ before p after, trace = before ++ p :: after ∧ start p.1 p.2 ∧ ∀ q ∈ after, ¬stop q.1 q.2

theorem Since.now (h : start s s') : Since start stop (trace ++ [(s, s')]) :=
  ⟨trace, (s, s'), [], rfl, h, nofun⟩

theorem Since.still (h : Since start stop trace) (hstep : ¬stop s s') :
    Since start stop (trace ++ [(s, s')]) := by
  obtain ⟨before, p, after, rfl, hstart, haft⟩ := h
  refine ⟨before, p, after ++ [(s, s')], by simp, hstart, ?_⟩
  exact forall_mem_append.mpr ⟨haft, forall_mem_singleton.mpr hstep⟩

theorem Since.mono {start' stop' : σ → σ → Prop} (h : Since start stop trace)
    (hstart : ∀ s s', start s s' → start' s s') (hstop : ∀ s s', stop' s s' → stop s s') :
    Since start' stop' trace := by
  obtain ⟨before, p, after, htrc, hp, haft⟩ := h
  exact ⟨before, p, after, htrc, hstart _ _ hp, fun q hq hstop' => haft q hq (hstop _ _ hstop')⟩

theorem Since.append_cases (h : Since start stop (trace ++ [(s, s')])) :
    start s s' ∨ Since start stop trace ∧ ¬stop s s' := by
  obtain ⟨before, p, after, htrc, hstart, haft⟩ := h
  rcases eq_nil_or_concat after with rfl | ⟨rest, _, rfl⟩
  · obtain ⟨-, hp⟩ := append_inj' htrc rfl
    cases hp
    exact .inl hstart
  · rw [concat_eq_append, ← cons_append, ← append_assoc] at htrc
    obtain ⟨rfl, hq⟩ := append_inj' htrc rfl
    cases hq
    rw [concat_eq_append, forall_mem_append] at haft
    exact .inr ⟨⟨before, p, rest, rfl, hstart, haft.1⟩, haft.2 _ (mem_singleton_self _)⟩

theorem exists_append {P : σ × σ → Prop} (h : (∃ p ∈ trace, P p) ∨ P (s, s')) :
    ∃ p ∈ trace ++ [(s, s')], P p := by
  rcases h with ⟨p, hp, h⟩ | h
  · exact ⟨p, mem_append_left _ hp, h⟩
  · exact ⟨(s, s'), by simp, h⟩

/-- Every transition is as `P` says, given the transitions before it. -/
def AtEach (P : List (σ × σ) → σ → σ → Prop) (trace : List (σ × σ)) : Prop :=
  ∀ before p after, trace = before ++ p :: after → P before p.1 p.2

variable {P : List (σ × σ) → σ → σ → Prop}

theorem AtEach.nil : AtEach P [] := by
  intro before p after h
  simp at h

theorem AtEach.append (h : AtEach P trace) (hstep : P trace s s') :
    AtEach P (trace ++ [(s, s')]) := by
  intro before p after htrc
  rcases eq_nil_or_concat after with rfl | ⟨rest, _, rfl⟩
  · obtain ⟨rfl, hp⟩ := append_inj' htrc rfl
    cases hp
    exact hstep
  · rw [concat_eq_append, ← cons_append, ← append_assoc] at htrc
    exact h before p rest (append_inj' htrc rfl).1

theorem AtEach.mono {P Q : List (σ × σ) → σ → σ → Prop} (h : AtEach P trace)
    (hPQ : ∀ before s s', P before s s' → Q before s s') : AtEach Q trace :=
  fun before p after htrc => hPQ before p.1 p.2 (h before p after htrc)

/-! ### What calls have done -/

section Calls

variable {ι Call ρ : Type} {sys : System σ ι Call ρ} {c c' : Config σ ι Call ρ}
  {calls : Call → Prop} {R : σ → σ → Prop}

/-- A call of the given kind, running or returned, has made a transition of the given kind. -/
def Config.Performed (calls : Call → Prop) (R : σ → σ → Prop) (c : Config σ ι Call ρ) : Prop :=
  (∃ t r, c.threads t = some r ∧ calls r.call ∧ ∃ p ∈ r.trace, R p.1 p.2) ∨
    ∃ d ∈ c.completed, calls d.call ∧ ∃ p ∈ d.trace, R p.1 p.2

variable [DecidableEq ι]

/-- What a thread runs goes on with its trace, or has returned with it. -/
theorem System.Step.running (hstep : sys.Step c c') (hr : c.threads t = some r) :
    (∃ r', c'.threads t = some r' ∧ r'.call = r.call ∧ r.trace ⊆ r'.trace) ∨
      ∃ d ∈ c'.completed, d.call = r.call ∧ d.trace = r.trace := by
  have hsame : ∀ {t' r'}, t ≠ t' → c'.threads = update c.threads t' r' →
      ∃ r', c'.threads t = some r' ∧ r'.call = r.call ∧ r.trace ⊆ r'.trace := by
    intro t' r' hne hthrs
    exact ⟨r, by rw [hthrs, update_of_ne hne, hr], rfl, List.Subset.refl _⟩
  cases hstep with
  | @invoke t' call hidle =>
    refine .inl (hsame ?_ rfl)
    rintro rfl
    cases hidle.symm.trans hr
  | @act t' r' _ f k b s' hthr =>
    by_cases ht : t = t'
    · subst ht
      cases hr.symm.trans hthr
      exact .inl ⟨_, update_self .., rfl, subset_append_left _ _⟩
    · exact .inl (hsame ht rfl)
  | @choose t' r' _ _ k b hthr | @loop t' r' _ _ body x k hthr =>
    by_cases ht : t = t'
    · subst ht
      cases hr.symm.trans hthr
      exact .inl ⟨_, update_self .., rfl, List.Subset.refl _⟩
    · exact .inl (hsame ht rfl)
  | @finish t' r' result hthr =>
    by_cases ht : t = t'
    · subst ht
      cases hr.symm.trans hthr
      exact .inr ⟨_, mem_cons_self, rfl, rfl⟩
    · exact .inl (hsame ht rfl)
  | env => exact .inl ⟨r, hr, rfl, List.Subset.refl _⟩

theorem Config.Performed.step (h : c.Performed calls R) (hstep : sys.Step c c') :
    c'.Performed calls R := by
  rcases h with ⟨t, _, hr, hcalls, p, hp, hR⟩ | ⟨d, hd, hdone⟩
  · rcases hstep.running hr with ⟨r', hr', hcall, hsub⟩ | ⟨d, hd, hcall, htrc⟩
    · exact .inl ⟨t, r', hr', hcall ▸ hcalls, p, hsub hp, hR⟩
    · exact .inr ⟨d, hd, hcall ▸ hcalls, p, htrc ▸ hp, hR⟩
  · refine .inr ⟨d, ?_, hdone⟩
    cases hstep with
    | finish => exact mem_cons_of_mem _ hd
    | _ => exact hd

end Calls

end Cakemaster.Machine
