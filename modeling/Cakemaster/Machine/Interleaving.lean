import Cakemaster.Machine.Program
import Mathlib.Logic.Function.Basic

/-!
# Interleavings of calls

A system has threads that invoke calls. Each call runs a program of atomic
actions on the shared state, and the actions of all threads interleave freely.
A completed call is kept with its result and the transitions it made.

The proof rule follows the steps of one thread at a time. A call `Conforms` to a
step relation when each of its actions is a step of that relation on the shared
state and a ghost value of the thread; a property of the shared state, all ghosts
and the completed calls that every step keeps then holds in every reachable
configuration (`Outline.reachable`).
-/

namespace Cakemaster.Machine

open Function Prog

/-- The programs of a system's calls, where it may start, and what the outside
world may do to the shared state between two actions. -/
structure System (σ ι Call ρ : Type) where
  init : σ → Prop
  code : ι → Call → Prog σ ρ
  env : σ → σ → Prop

/-- A call that has not returned, with the transitions it has made. -/
structure Running (σ Call ρ : Type) where
  call : Call
  prog : Prog σ ρ
  trace : List (σ × σ)

structure Completed (σ ι Call ρ : Type) where
  thread : ι
  call : Call
  result : ρ
  trace : List (σ × σ)

@[ext]
structure Config (σ ι Call ρ : Type) where
  shared : σ
  threads : ι → Option (Running σ Call ρ)
  completed : List (Completed σ ι Call ρ)

namespace System

variable {σ ι Call ρ : Type} [DecidableEq ι] (sys : System σ ι Call ρ) {c c' : Config σ ι Call ρ}
  {k : β → Prog σ α} {t : ι} {p : Prog σ α} {gs : ι → X}

inductive Step (c : Config σ ι Call ρ) : Config σ ι Call ρ → Prop
  | invoke (t : ι) (call : Call) (hidle : c.threads t = none) :
      Step c { c with threads := update c.threads t (some ⟨call, sys.code t call, []⟩) }
  | act {t : ι} {r : Running σ Call ρ} {β : Type}
      {f : σ → Option (β × σ)} {k : β → Prog σ ρ} {b : β} {s' : σ} (hthr : c.threads t = some r)
      (hprog : r.prog = .act f k) (hact : f c.shared = some (b, s')) :
      Step c { c with
        shared := s'
        threads := update c.threads t (some ⟨r.call, k b, r.trace ++ [(c.shared, s')]⟩) }
  | choose {t : ι} {r : Running σ Call ρ} {β : Type} {usual : β}
      {k : β → Prog σ ρ} (b : β) (hthr : c.threads t = some r) (hprog : r.prog = .choose usual k) :
      Step c { c with threads := update c.threads t (some ⟨r.call, k b, r.trace⟩) }
  | loop {t : ι} {r : Running σ Call ρ} {β τ : Type}
      {body : τ → Prog σ (τ ⊕ β)} {x : τ} {k : β → Prog σ ρ} (hthr : c.threads t = some r)
      (hprog : r.prog = .loop body x k) :
      Step c { c with
        threads := update c.threads t (some ⟨r.call, unroll body x k, r.trace⟩) }
  | finish {t : ι} {r : Running σ Call ρ} {result : ρ}
      (hthr : c.threads t = some r) (hprog : r.prog = .ret result) :
      Step c { c with
        threads := update c.threads t none
        completed := ⟨t, r.call, result, r.trace⟩ :: c.completed }
  | env {s' : σ} (henv : sys.env c.shared s') : Step c { c with shared := s' }

/-- The configurations that some interleaving reaches whose transitions of the shared
state all satisfy `ok`. -/
inductive ReachableVia (ok : σ → σ → Prop) : Config σ ι Call ρ → Prop
  | init {s : σ} (hinit : sys.init s) : ReachableVia ok ⟨s, fun _ => none, []⟩
  | step {c c' : Config σ ι Call ρ} (hrch : ReachableVia ok c) (hstep : sys.Step c c')
      (hok : ok c.shared c'.shared) : ReachableVia ok c'

/-- The configurations that some interleaving reaches. -/
abbrev Reachable : Config σ ι Call ρ → Prop := sys.ReachableVia fun _ _ => True

theorem ReachableVia.reachable {ok : σ → σ → Prop} (h : sys.ReachableVia ok c) :
    sys.Reachable c := by
  induction h with
  | init hinit => exact .init hinit
  | step _ hstep _ ih => exact .step ih hstep trivial

/-- The step is an action of a call of thread `t`, which has it in its trace. -/
def Acts (c c' : Config σ ι Call ρ) (t : ι) (r : Running σ Call ρ) : Prop :=
  c.threads t = some r ∧ ∃ r', c'.threads t = some r' ∧
    r'.trace = r.trace ++ [(c.shared, c'.shared)]

end System

/-- After a round of a loop: the invariant before the next round, or what must hold
when the loop ends. -/
def LoopPost {τ β X : Type} (inv : τ → X → Prop) (done : β → X → Prop) : τ ⊕ β → X → Prop
  | .inl next, x => inv next x
  | .inr b, x => done b x

/-- Every action of the program is a step of `rel`, and the program ends in a
ghost value that satisfies `post`. A loop comes with an invariant. -/
def Conforms {σ X : Type} (rel : σ → X → σ → X → Prop) :
    {α : Type} → Prog σ α → X → (α → X → Prop) → Prop
  | _, .ret a, x, post => post a x
  | _, .act f k, x, post => ∀ s b s', f s = some (b, s') → ∃ x', rel s x s' x' ∧
    Conforms rel (k b) x' post
  | _, .choose _ k, x, post => ∀ b, Conforms rel (k b) x post
  | _, @loop _ _ _ τ body t k, x, post => ∃ inv : τ → X → Prop, inv t x ∧
      ∀ t x, inv t x → Conforms rel (body t) x (LoopPost inv fun b x => Conforms rel (k b) x post)

namespace Conforms

variable {σ X α β τ : Type} {rel : σ → X → σ → X → Prop} {x : X} {post : α → X → Prop}

theorem ret_iff {a : α} : Conforms rel (.ret a) x post ↔ post a x := Iff.rfl

theorem act_iff {f : σ → Option (β × σ)} : Conforms rel (.act f k) x post ↔
      ∀ s b s', f s = some (b, s') → ∃ x', rel s x s' x' ∧ Conforms rel (k b) x' post := Iff.rfl

theorem choose_iff {usual : β} :
    Conforms rel (.choose usual k) x post ↔ ∀ b, Conforms rel (k b) x post := Iff.rfl

variable {body : τ → Prog σ (τ ⊕ β)}

theorem loop_iff {t : τ} :
    Conforms rel (.loop body t k) x post ↔ ∃ inv : τ → X → Prop, inv t x ∧ ∀ t x, inv t x →
      Conforms rel (body t) x (LoopPost inv fun b x => Conforms rel (k b) x post) := Iff.rfl

attribute [irreducible] Conforms

theorem ret (h : post a x) : Conforms rel (.ret a) x post := ret_iff.mpr h

theorem mono {post' : α → X → Prop} (h : Conforms rel p x post)
    (hpost : ∀ a x, post a x → post' a x) : Conforms rel p x post' := by
  induction p generalizing x with
  | ret a => exact ret (hpost a x (ret_iff.mp h))
  | act f k ih =>
    rw [act_iff] at h ⊢
    intro s b s' hf
    obtain ⟨x', hrel, hk⟩ := h s b s' hf
    exact ⟨x', hrel, ih b hk hpost⟩
  | choose usual k ih =>
    rw [choose_iff] at h ⊢
    exact fun b => ih b (h b) hpost
  | loop body t k ihbody ih =>
    rw [loop_iff] at h ⊢
    obtain ⟨inv, hinv, hbody⟩ := h
    refine ⟨inv, hinv, fun t x hx => ihbody t (hbody t x hx) ?_⟩
    intro r x' hr
    cases r with
    | inl next => exact hr
    | inr b => exact ih b hr hpost

theorem bind {p : Prog σ β} {f : β → Prog σ α}
    (h : Conforms rel p x fun b x' => Conforms rel (f b) x' post) :
    Conforms rel (p.bind f) x post := by
  induction p generalizing x with
  | ret a =>
    rw [ret_iff] at h
    exact h
  | act g k ih =>
    rw [act_iff] at h
    rw [act_bind, act_iff]
    intro s b s' hg
    obtain ⟨x', hrel, hk⟩ := h s b s' hg
    exact ⟨x', hrel, ih b hk⟩
  | choose usual k ih =>
    rw [choose_iff] at h
    rw [choose_bind, choose_iff]
    exact fun b => ih b (h b)
  | loop body t k _ ih =>
    rw [loop_iff] at h
    rw [loop_bind, loop_iff]
    obtain ⟨inv, hinv, hbody⟩ := h
    refine ⟨inv, hinv, fun t x hx => (hbody t x hx).mono ?_⟩
    intro r x' hr
    cases r with
    | inl next => exact hr
    | inr b => exact ih b hr

theorem unroll {t : τ}
    (h : Conforms rel (.loop body t k) x post) : Conforms rel (unroll body t k) x post := by
  obtain ⟨inv, hinv, hbody⟩ := loop_iff.mp h
  apply bind
  refine (hbody t x hinv).mono ?_
  intro r x' hr
  cases r with
  | inl next => exact loop_iff.mpr ⟨inv, hr, hbody⟩
  | inr b => exact hr

/-- A program whose last action stands without a continuation. -/
theorem of_bind_ret (h : Conforms rel (p.bind .ret) x post) : Conforms rel p x post := by
  rwa [bind_ret] at h

theorem ite {condition : Prop} [Decidable condition]
    (hpos : condition → Conforms rel p x post) (hneg : ¬condition → Conforms rel q x post) :
    Conforms rel (if condition then p else q) x post := by
  by_cases hc : condition
  · rw [if_pos hc]
    exact hpos hc
  · rw [if_neg hc]
    exact hneg hc

end Conforms

/-- A proof outline of a system: a ghost value for each thread, what each action
may do to it and to the shared state, and what holds when a call returns. -/
structure Outline {σ ι Call ρ : Type} (sys : System σ ι Call ρ) (X : Type) where
  idle : X
  start : Call → X
  rel : ι → σ → X → σ → X → Prop
  post : Call → ρ → X → Prop
  conforms : ∀ t call, Conforms (rel t) (sys.code t call) (start call) (post call)

namespace Outline

variable {σ ι Call ρ X : Type} [DecidableEq ι] {sys : System σ ι Call ρ}

/-- A property that the steps of an outline keep, when all transitions satisfy `ok`.
`track` relates the ghost of a running call to the call and to the transitions it
has made. -/
structure Keeps (o : Outline sys X) (ok : σ → σ → Prop) (track : Call → List (σ × σ) → X → Prop)
    (inv : σ → (ι → X) → List (Completed σ ι Call ρ) → Prop) : Prop where
  init : ∀ s, sys.init s → inv s (fun _ => o.idle) []
  track_start : ∀ call, track call [] (o.start call)
  track_step : ∀ {t s gs done s' x' call trace}, inv s gs done → o.rel t s (gs t) s' x' →
    track call trace (gs t) → track call (trace ++ [(s, s')]) x'
  invoke : ∀ {s gs done} t call, inv s gs done → gs t = o.idle →
    inv s (update gs t (o.start call)) done
  step : ∀ {s gs done t s' x'}, inv s gs done → o.rel t s (gs t) s' x' → ok s s' →
    inv s' (update gs t x') done
  finish : ∀ {s gs done t call result trace}, inv s gs done → o.post call result (gs t) →
    track call trace (gs t) → inv s (update gs t o.idle) (⟨t, call, result, trace⟩ :: done)
  env : ∀ {s s' gs done}, inv s gs done → sys.env s s' → ok s s' → inv s' gs done

/-- The ghosts of a configuration: idle threads are idle, and what is left of a
running call still conforms. -/
structure Ghosts (o : Outline sys X) (track : Call → List (σ × σ) → X → Prop)
    (c : Config σ ι Call ρ) (gs : ι → X) : Prop where
  idle : ∀ t, c.threads t = none → gs t = o.idle
  running : ∀ t r, c.threads t = some r →
    Conforms (o.rel t) r.prog (gs t) (o.post r.call) ∧ track r.call r.trace (gs t)

variable {o : Outline sys X} {ok : σ → σ → Prop} {track : Call → List (σ × σ) → X → Prop}
  {inv : σ → (ι → X) → List (Completed σ ι Call ρ) → Prop}

omit [DecidableEq ι] in
theorem Ghosts.exists_running (h : Ghosts o track c gs)
    (hbusy : gs t ≠ o.idle) : ∃ r, c.threads t = some r ∧ track r.call r.trace (gs t) := by
  cases ht : c.threads t with
  | none => exact absurd (h.idle t ht) hbusy
  | some r => exact ⟨r, rfl, (h.running t r ht).2⟩

theorem Ghosts.update {s' : σ} {done : List (Completed σ ι Call ρ)} (h : Ghosts o track c gs)
    (x' : X) (r' : Option (Running σ Call ρ)) (hidle : r' = none → x' = o.idle)
    (hrng : ∀ r, r' = some r → Conforms (o.rel t) r.prog x' (o.post r.call) ∧ track r.call r.trace x') :
    Ghosts o track ⟨s', update c.threads t r', done⟩ (update gs t x') := by
  constructor
  · intro u hu
    dsimp only at hu
    by_cases hut : u = t
    · subst hut
      rw [update_self] at hu ⊢
      exact hidle hu
    · rw [update_of_ne hut] at hu ⊢
      exact h.idle u hu
  · intro u r hu
    dsimp only at hu
    by_cases hut : u = t
    · subst hut
      rw [update_self] at hu ⊢
      exact hrng r hu
    · rw [update_of_ne hut] at hu ⊢
      exact h.running u r hu

/-- How ghosts change in a step: one call moves, the outside world does something, or
nothing happens to the shared state and to the calls that run before and after. -/
inductive Advances (o : Outline sys X) (c c' : Config σ ι Call ρ) (gs gs' : ι → X) : Prop
  | move (t : ι) (r : Running σ Call ρ) (x' : X) (hthr : c.threads t = some r)
      (hrel : o.rel t c.shared (gs t) c'.shared x') (hgs : gs' = update gs t x')
  | env (henv : sys.env c.shared c'.shared) (hgs : gs' = gs)
  | quiet (hshr : c'.shared = c.shared)
      (hgs : ∀ t, c.threads t ≠ none → c'.threads t ≠ none → gs' t = gs t)

variable (hkp : Keeps o ok track inv)
include hkp

theorem Ghosts.step (h : Ghosts o track c gs) (hinv : inv c.shared gs c.completed)
    (hstep : sys.Step c c') (hok : ok c.shared c'.shared) :
    ∃ gs', Ghosts o track c' gs' ∧ inv c'.shared gs' c'.completed ∧ Advances o c c' gs gs' := by
  cases hstep with
  | invoke t call hidle =>
    refine ⟨_, h.update (o.start call) _ (by simp) ?_, hkp.invoke t call hinv (h.idle t hidle),
      .quiet rfl fun t' hbusy _ => update_of_ne ?_ _ _⟩
    · intro r hr
      cases hr
      exact ⟨o.conforms t call, hkp.track_start call⟩
    · rintro rfl
      exact hbusy hidle
  | @act t r _ f k b s' hthr hprog hact =>
    obtain ⟨hconf, htrk⟩ := h.running t r hthr
    rw [hprog] at hconf
    obtain ⟨x', hrel, hk⟩ := Conforms.act_iff.mp hconf c.shared b s' hact
    refine ⟨_, h.update x' _ (by simp) ?_, hkp.step hinv hrel hok, .move t r x' hthr hrel rfl⟩
    intro r' hr
    cases hr
    exact ⟨hk, hkp.track_step hinv hrel htrk⟩
  | @choose t r _ usual k b hthr hprog =>
    obtain ⟨hconf, htrk⟩ := h.running t r hthr
    rw [hprog] at hconf
    have hsame := update_eq_self t gs
    refine ⟨_, h.update (gs t) _ (by simp) ?_, hsame.symm ▸ hinv, .quiet rfl fun t' _ _ => by rw [hsame]⟩
    intro r' hr
    cases hr
    exact ⟨Conforms.choose_iff.mp hconf b, htrk⟩
  | @loop t r _ _ body x k hthr hprog =>
    obtain ⟨hconf, htrk⟩ := h.running t r hthr
    rw [hprog] at hconf
    have hsame := update_eq_self t gs
    refine ⟨_, h.update (gs t) _ (by simp) ?_, hsame.symm ▸ hinv, .quiet rfl fun t' _ _ => by rw [hsame]⟩
    intro r' hr
    cases hr
    exact ⟨hconf.unroll, htrk⟩
  | @finish t r result hthr hprog =>
    obtain ⟨hconf, htrk⟩ := h.running t r hthr
    rw [hprog] at hconf
    refine ⟨_, h.update o.idle none (fun _ => rfl) (by simp),
      hkp.finish hinv (Conforms.ret_iff.mp hconf) htrk,
      .quiet rfl fun t' _ hbusy => update_of_ne ?_ _ _⟩
    rintro rfl
    exact hbusy (update_self ..)
  | env henv => exact ⟨gs, ⟨h.idle, h.running⟩, hkp.env hinv henv hok, .env henv rfl⟩

/-- A property that the outline's steps keep holds in every reachable configuration. -/
theorem reachable (hrch : sys.ReachableVia ok c) :
    ∃ gs, Ghosts o track c gs ∧ inv c.shared gs c.completed := by
  induction hrch with
  | init hinit => exact ⟨fun _ => o.idle, ⟨fun _ _ => rfl, by simp⟩, hkp.init _ hinit⟩
  | step _ hstep hok ih =>
    obtain ⟨gs, hgh, hinv⟩ := ih
    obtain ⟨gs', hgh', hinv', -⟩ := hgh.step hkp hinv hstep hok
    exact ⟨gs', hgh', hinv'⟩

/-- What a running call does in a step of a reachable configuration. -/
theorem acts {r : Running σ Call ρ}
    (hrch : sys.ReachableVia ok c) (hstep : sys.Step c c') (hacts : System.Acts c c' t r) :
    ∃ gs, Ghosts o track c gs ∧ inv c.shared gs c.completed ∧
    ∃ x', o.rel t c.shared (gs t) c'.shared x' := by
  obtain ⟨gs, hgh, hinv⟩ := reachable hkp hrch
  refine ⟨gs, hgh, hinv, ?_⟩
  obtain ⟨hthr, r', hthr', htrc⟩ := hacts
  -- the trace of a thread that does not act stays as it is
  have hlth : r'.trace ≠ r.trace := by simp [htrc]
  cases hstep with
  | @invoke t' _ hidle =>
    rcases eq_or_ne t t' with rfl | hne
    · cases hthr.symm.trans hidle
    · cases hthr.symm.trans ((update_of_ne hne _ _).symm.trans hthr')
      exact absurd rfl hlth
  | @act t' r₀ _ f k b s' hthr₀ hprog hact =>
    rcases eq_or_ne t t' with rfl | hne
    · cases hthr.symm.trans hthr₀
      obtain ⟨hconf, -⟩ := hgh.running t r hthr
      rw [hprog] at hconf
      obtain ⟨x', hrel, -⟩ := Conforms.act_iff.mp hconf c.shared b s' hact
      exact ⟨x', hrel⟩
    · cases hthr.symm.trans ((update_of_ne hne _ _).symm.trans hthr')
      exact absurd rfl hlth
  | @choose t' r₀ _ _ _ _ hthr₀ | @loop t' r₀ _ _ _ _ _ hthr₀ =>
    rcases eq_or_ne t t' with rfl | hne
    · cases hthr.symm.trans hthr₀
      cases (update_self ..).symm.trans hthr'
      exact absurd rfl hlth
    · cases hthr.symm.trans ((update_of_ne hne _ _).symm.trans hthr')
      exact absurd rfl hlth
  | @finish t' r₀ _ hthr₀ =>
    rcases eq_or_ne t t' with rfl | hne
    · cases (update_self ..).symm.trans hthr'
    · cases hthr.symm.trans ((update_of_ne hne _ _).symm.trans hthr')
      exact absurd rfl hlth
  | env =>
    cases hthr.symm.trans hthr'
    exact absurd rfl hlth

/-- What a step of a reachable configuration does to the shared state: nothing, what the
outside world may do, or what the outline allows a running call. -/
theorem transition (hrch : sys.ReachableVia ok c) (hstep : sys.Step c c') :
    ∃ gs, Ghosts o track c gs ∧
        inv c.shared gs c.completed ∧ (c'.shared = c.shared ∨ sys.env c.shared c'.shared ∨
        ∃ t r prog x', c.threads t = some r ∧ o.rel t c.shared (gs t) c'.shared x' ∧
          c'.threads t = some ⟨r.call, prog, r.trace ++ [(c.shared, c'.shared)]⟩) := by
  obtain ⟨gs, hgh, hinv⟩ := reachable hkp hrch
  refine ⟨gs, hgh, hinv, ?_⟩
  cases hstep with
  | invoke | choose | loop | finish => exact .inl rfl
  | @act t r _ f k b s' hthr hprog hact =>
    obtain ⟨hconf, -⟩ := hgh.running t r hthr
    rw [hprog] at hconf
    obtain ⟨x', hrel, -⟩ := Conforms.act_iff.mp hconf c.shared b s' hact
    exact .inr (.inr ⟨t, r, k b, x', hthr, hrel, update_self ..⟩)
  | env henv => exact .inr (.inl henv)

end Outline

end Cakemaster.Machine
