import Mathlib.Data.Nat.Notation
import Mathlib.Logic.Relation
import Mathlib.Tactic.TypeStar

/-!
# Programs of atomic actions

A program over a shared state is a tree of atomic actions. An action may be
blocked in a state, which is how a lock is waited for; a nondeterministic choice
stands for what the machine may decide, such as a weak compare-and-swap that
fails spuriously; a loop is unrolled one round at a time. This file has the
big-step meaning of a program, in which it runs alone.
-/

namespace Cakemaster.Machine

inductive Prog (σ : Type) : Type → Type 1
  | ret {α : Type} (a : α) : Prog σ α
  | act {α β : Type} (f : σ → Option (β × σ)) (k : β → Prog σ α) : Prog σ α
  | choose {α β : Type} (usual : β) (k : β → Prog σ α) : Prog σ α
  | loop {α β τ : Type} (body : τ → Prog σ (τ ⊕ β)) (t : τ) (k : β → Prog σ α) : Prog σ α

namespace Prog

variable {σ α β γ τ : Type} {s s' : σ} {a : α} {k : β → Prog σ α} {body : τ → Prog σ (τ ⊕ β)}
  {t : τ} {b : β} {p : Prog σ α}

def bind {α β : Type} : Prog σ α → (α → Prog σ β) → Prog σ β
  | ret a, f => f a
  | act g k, f => act g fun b => (k b).bind f
  | choose usual k, f => choose usual fun b => (k b).bind f
  | loop body t k, f => loop body t fun b => (k b).bind f

instance : Monad (Prog σ) where
  pure := ret
  bind := bind

@[simp] theorem pure_eq (a : α) : (pure a : Prog σ α) = ret a := rfl

@[simp] theorem bind_eq (p : Prog σ α) (f : α → Prog σ β) : p >>= f = p.bind f := rfl

@[simp] theorem ret_bind (a : α) (f : α → Prog σ β) : (ret a : Prog σ α).bind f = f a := rfl

@[simp] theorem act_bind (g : σ → Option (γ × σ)) (k : γ → Prog σ α) (f : α → Prog σ β) :
    (act g k).bind f = act g fun b => (k b).bind f := rfl

@[simp] theorem choose_bind (usual : γ) (k : γ → Prog σ α) (f : α → Prog σ β) :
    (choose usual k).bind f = choose usual fun b => (k b).bind f := rfl

@[simp] theorem loop_bind (body : τ → Prog σ (τ ⊕ γ)) (t : τ) (k : γ → Prog σ α)
    (f : α → Prog σ β) :
    (loop body t k).bind f = loop body t fun b => (k b).bind f := rfl

theorem bind_ret (p : Prog σ α) : p.bind ret = p := by
  induction p with
  | ret a => rfl
  | act f k ih => simp only [act_bind, ih]
  | choose usual k ih => simp only [choose_bind, ih]
  | loop body t k _ ih => simp only [loop_bind, ih]

theorem bind_assoc (p : Prog σ α) (f : α → Prog σ β) (g : β → Prog σ γ) :
    (p.bind f).bind g = p.bind fun a => (f a).bind g := by
  induction p with
  | ret a => rfl
  | act h k ih => simp only [act_bind, ih]
  | choose usual k ih => simp only [choose_bind, ih]
  | loop body t k _ ih => simp only [loop_bind, ih]

instance : LawfulMonad (Prog σ) :=
  LawfulMonad.mk' (Prog σ) bind_ret (fun _ _ => rfl) bind_assoc

/-! ### Single actions -/

def await (f : σ → Option (β × σ)) : Prog σ β := act f ret

/-- A panic: the thread never continues. -/
def crash : Prog σ β := await fun _ => none

def update (f : σ → β × σ) : Prog σ β := await fun s => some (f s)

def read (f : σ → β) : Prog σ β := update fun s => (f s, s)

def modify (f : σ → σ) : Prog σ Unit := update fun s => ((), f s)

def pick (usual : β) : Prog σ β := choose usual ret

def iterate (body : τ → Prog σ (τ ⊕ β)) (t : τ) : Prog σ β := loop body t ret

/-- One round of a loop, followed by the next one or by what comes after. -/
def unroll (body : τ → Prog σ (τ ⊕ β)) (t : τ) (k : β → Prog σ α) : Prog σ α :=
  (body t).bind fun
    | .inl next => loop body next k
    | .inr b => k b

/-- At most `n` rounds of `body`, which answers with `inr` to break off. -/
def upTo (body : τ → Prog σ (τ ⊕ τ)) : ℕ → τ → Prog σ τ
  | 0, t => ret t
  | n + 1, t =>
    (body t).bind fun
      | .inl next => upTo body n next
      | .inr last => ret last

/-- A fold over a list, one program for each element. -/
def foldOver {γ : Type} (f : τ → γ → Prog σ τ) : List γ → τ → Prog σ τ
  | [], t => ret t
  | c :: rest, t => (f t c).bind (foldOver f rest)

/-! ### Running alone -/

/-- The program, run with no other thread, ends with a result and a state. -/
inductive Runs : {α : Type} → Prog σ α → σ → α → σ → Prop
  | ret {α : Type} {a : α} {s : σ} : Runs (ret a) s a s
  | act {α β : Type} {f : σ → Option (β × σ)} {k : β → Prog σ α} {s s₁ s' : σ} {b : β} {a : α}
      (h : f s = some (b, s₁)) (hk : Runs (k b) s₁ a s') : Runs (act f k) s a s'
  | choose {α β : Type} {usual : β} {k : β → Prog σ α} {s s' : σ} {a : α} (b : β)
      (hk : Runs (k b) s a s') : Runs (choose usual k) s a s'
  | again {α β τ : Type} {body : τ → Prog σ (τ ⊕ β)} {t next : τ} {k : β → Prog σ α}
      {s s₁ s' : σ} {a : α} (hbody : Runs (body t) s (.inl next) s₁)
      (hloop : Runs (loop body next k) s₁ a s') : Runs (loop body t k) s a s'
  | done {α β τ : Type} {body : τ → Prog σ (τ ⊕ β)} {t : τ} {b : β} {k : β → Prog σ α}
      {s s₁ s' : σ} {a : α} (hbody : Runs (body t) s (.inr b) s₁) (hk : Runs (k b) s₁ a s') :
      Runs (loop body t k) s a s'

/-- At most `fuel` rounds of a loop whose round is the given function. -/
def rounds (round : τ → σ → Option ((τ ⊕ β) × σ)) : ℕ → τ → σ → Option (β × σ)
  | 0, _, _ => none
  | fuel + 1, t, s =>
    match round t s with
    | none => none
    | some (.inl next, s) => rounds round fuel next s
    | some (.inr b, s) => some (b, s)

/-- An executable run: `fuel` bounds the rounds of each loop, and every choice is
the usual one. -/
def eval (fuel : ℕ) {α : Type} : Prog σ α → σ → Option (α × σ)
  | ret a, s => some (a, s)
  | act f k, s =>
    match f s with
    | none => none
    | some (b, s) => eval fuel (k b) s
  | choose usual k, s => eval fuel (k usual) s
  | loop body t k, s =>
    match rounds (fun t s => eval fuel (body t) s) fuel t s with
    | none => none
    | some (b, s) => eval fuel (k b) s

theorem runs_of_rounds {round : τ → σ → Option ((τ ⊕ β) × σ)}
    (hround : ∀ {t s r s'}, round t s = some (r, s') → Runs (body t) s r s') {fuel : ℕ} {s₁ : σ}
    (h : rounds round fuel t s = some (b, s₁)) (hk : Runs (k b) s₁ a s') :
    Runs (loop body t k) s a s' := by
  induction fuel generalizing t s with
  | zero => simp [rounds] at h
  | succ fuel ih =>
    simp only [rounds] at h
    split at h
    · cases h
    next next s₂ hbody => exact .again (hround hbody) (ih h)
    next b' s₂ hbody =>
    obtain ⟨rfl, rfl⟩ := Prod.mk.inj (Option.some.inj h)
    exact .done (hround hbody) hk

/-- What the executable run computes is a run of the program. -/
theorem runs_of_eval {fuel : ℕ} (h : eval fuel p s = some (a, s')) : Runs p s a s' := by
  induction p generalizing s s' with
  | ret b =>
    obtain ⟨rfl, rfl⟩ := Prod.mk.inj (Option.some.inj h)
    exact .ret
  | act f k ih =>
    simp only [eval] at h
    split at h
    · cases h
    next b s₁ hf => exact .act hf (ih b h)
  | choose usual k ih => exact .choose usual (ih usual h)
  | loop body t k ihbody ih =>
    simp only [eval] at h
    split at h
    · cases h
    next b s₁ hrounds => exact runs_of_rounds (fun hbody => ihbody _ hbody) hrounds (ih b h)

/-! ### Inversion of runs -/

theorem runs_ret_iff {b : α} : Runs (ret a) s b s' ↔ b = a ∧ s' = s := by
  constructor
  · intro h
    cases h
    exact ⟨rfl, rfl⟩
  · rintro ⟨rfl, rfl⟩
    exact .ret

theorem runs_act_iff {f : σ → Option (β × σ)} :
    Runs (act f k) s a s' ↔ ∃ b s₁, f s = some (b, s₁) ∧ Runs (k b) s₁ a s' := by
  constructor
  · intro h
    cases h with
    | act hf hk => exact ⟨_, _, hf, hk⟩
  · rintro ⟨b, s₁, hf, hk⟩
    exact .act hf hk

theorem runs_choose_iff {usual : β} : Runs (choose usual k) s a s' ↔ ∃ b, Runs (k b) s a s' := by
  constructor
  · intro h
    cases h with
    | choose b hk => exact ⟨b, hk⟩
  · rintro ⟨b, hk⟩
    exact .choose b hk

/-- The rounds of a loop, up to the one that answers with a result. -/
inductive LoopRuns (body : τ → Prog σ (τ ⊕ β)) : τ → σ → β → σ → Prop
  | again {t next : τ} {s s₁ s' : σ} {b : β} (hbody : Runs (body t) s (.inl next) s₁)
      (hloop : LoopRuns body next s₁ b s') : LoopRuns body t s b s'
  | done {t : τ} {s s' : σ} {b : β} (hbody : Runs (body t) s (.inr b) s') : LoopRuns body t s b s'

theorem LoopRuns.runs {s₁ : σ}
    (h : LoopRuns body t s b s₁) (hk : Runs (k b) s₁ a s') : Runs (loop body t k) s a s' := by
  induction h with
  | again hbody _ ih => exact .again hbody (ih hk)
  | done hbody => exact .done hbody hk

theorem loopRuns_of_runs (h : Runs p s a s') :
    ∀ {β τ : Type} {body : τ → Prog σ (τ ⊕ β)} {t : τ} {k : β → Prog σ α}, p = loop body t k →
      ∃ b s₁, LoopRuns body t s b s₁ ∧ Runs (k b) s₁ a s' := by
  induction h with
  | ret => intro _ _ _ _ _ hp; cases hp
  | act => intro _ _ _ _ _ hp; cases hp
  | choose => intro _ _ _ _ _ hp; cases hp
  | again hbody _ _ ih =>
    intro _ _ _ _ _ hp
    cases hp
    obtain ⟨b, s₁, hrounds, hk⟩ := ih rfl
    exact ⟨b, s₁, .again hbody hrounds, hk⟩
  | done hbody hk =>
    intro _ _ _ _ _ hp
    cases hp
    exact ⟨_, _, .done hbody, hk⟩

theorem runs_loop_iff :
    Runs (loop body t k) s a s' ↔ ∃ b s₁, LoopRuns body t s b s₁ ∧ Runs (k b) s₁ a s' := by
  constructor
  · intro h
    exact loopRuns_of_runs h rfl
  · rintro ⟨b, s₁, hrounds, hk⟩
    exact hrounds.runs hk

theorem runs_bind_iff {f : α → Prog σ β} :
    Runs (p.bind f) s b s' ↔ ∃ a s₁, Runs p s a s₁ ∧ Runs (f a) s₁ b s' := by
  induction p generalizing s with
  | ret a =>
    simp only [ret_bind, runs_ret_iff]
    constructor
    · exact fun h => ⟨a, s, ⟨rfl, rfl⟩, h⟩
    · rintro ⟨_, _, ⟨rfl, rfl⟩, h⟩
      exact h
  | act g k ih =>
    simp only [act_bind, runs_act_iff, ih]
    constructor
    · rintro ⟨c, s₁, hg, a, s₂, hk, hf⟩
      exact ⟨a, s₂, ⟨c, s₁, hg, hk⟩, hf⟩
    · rintro ⟨a, s₂, ⟨c, s₁, hg, hk⟩, hf⟩
      exact ⟨c, s₁, hg, a, s₂, hk, hf⟩
  | choose usual k ih =>
    simp only [choose_bind, runs_choose_iff, ih]
    constructor
    · rintro ⟨c, a, s₂, hk, hf⟩
      exact ⟨a, s₂, ⟨c, hk⟩, hf⟩
    · rintro ⟨a, s₂, ⟨c, hk⟩, hf⟩
      exact ⟨c, a, s₂, hk, hf⟩
  | loop body t k _ ih =>
    simp only [loop_bind, runs_loop_iff, ih]
    constructor
    · rintro ⟨c, s₁, hrounds, a, s₂, hk, hf⟩
      exact ⟨a, s₂, ⟨c, s₁, hrounds, hk⟩, hf⟩
    · rintro ⟨a, s₂, ⟨c, s₁, hrounds, hk⟩, hf⟩
      exact ⟨c, s₁, hrounds, a, s₂, hk, hf⟩

end Prog

end Cakemaster.Machine
