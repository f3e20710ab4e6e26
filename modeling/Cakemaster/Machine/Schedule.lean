import Cakemaster.Machine.Interleaving

/-!
# Schedules

An interleaving given as a list of turns. Each turn invokes a call or lets one
thread make its next step, with the usual outcome of a choice; a turn that is not
possible changes nothing. Every configuration played this way is reachable.
-/

namespace Cakemaster.Machine

open Function

inductive Turn (ι Call : Type)
  | invoke (t : ι) (call : Call)
  | step (t : ι)

def Turn.thread {ι Call : Type} : Turn ι Call → ι
  | invoke t _ | step t => t

namespace System

variable {σ ι Call ρ : Type} [DecidableEq ι] (sys : System σ ι Call ρ)
  {c : Config σ ι Call ρ} {t : ι}

def advance (c : Config σ ι Call ρ) (t : ι) (r : Running σ Call ρ) : Config σ ι Call ρ :=
  match r.prog with
  | .ret result =>
    { c with
      threads := update c.threads t none
      completed := ⟨t, r.call, result, r.trace⟩ :: c.completed }
  | .act f k =>
    match f c.shared with
    | none => c
    | some (b, s') =>
      { c with
        shared := s'
        threads := update c.threads t (some ⟨r.call, k b, r.trace ++ [(c.shared, s')]⟩) }
  | .choose usual k =>
    { c with threads := update c.threads t (some ⟨r.call, k usual, r.trace⟩) }
  | .loop body x k =>
    { c with threads := update c.threads t (some ⟨r.call, Prog.unroll body x k, r.trace⟩) }

def turn (c : Config σ ι Call ρ) : Turn ι Call → Config σ ι Call ρ
  | .invoke t call =>
    match c.threads t with
    | none => { c with threads := update c.threads t (some ⟨call, sys.code t call, []⟩) }
    | some _ => c
  | .step t =>
    match c.threads t with
    | none => c
    | some r => advance c t r

def play (c : Config σ ι Call ρ) (turns : List (Turn ι Call)) : Config σ ι Call ρ :=
  turns.foldl sys.turn c

variable {sys}

theorem advance_cases (hthr : c.threads t = some r) :
    advance c t r = c ∨ sys.Step c (advance c t r) := by
  unfold System.advance
  split
  case h_1 hprog => exact .inr (.finish hthr hprog)
  case h_2 hprog =>
    split
    · exact .inl rfl
    next hact => exact .inr (.act hthr hprog hact)
  case h_3 hprog => exact .inr (.choose _ hthr hprog)
  case h_4 hprog => exact .inr (.loop hthr hprog)

/-- A turn is a step, or it is not possible. -/
theorem turn_cases (sys : System σ ι Call ρ) (c : Config σ ι Call ρ) (a : Turn ι Call) :
    sys.turn c a = c ∨ sys.Step c (sys.turn c a) := by
  cases a with
  | invoke t call =>
    simp only [System.turn]
    split
    next hidle => exact .inr (.invoke t call hidle)
    · exact .inl rfl
  | step t =>
    simp only [System.turn]
    split
    · exact .inl rfl
    next hthr => exact advance_cases hthr

/-- All transitions of a schedule satisfy `ok`. -/
def Plays (sys : System σ ι Call ρ) (ok : σ → σ → Prop) :
    Config σ ι Call ρ → List (Turn ι Call) → Prop
  | _, [] => True
  | c, a :: rest => ok c.shared (sys.turn c a).shared ∧ sys.Plays ok (sys.turn c a) rest

instance Plays.decidable (sys : System σ ι Call ρ) (ok : σ → σ → Prop) [DecidableRel ok] :
    (c : Config σ ι Call ρ) → (turns : List (Turn ι Call)) → Decidable (sys.Plays ok c turns)
  | _, [] => isTrue trivial
  | c, a :: rest =>
    have := Plays.decidable sys ok (sys.turn c a) rest
    inferInstanceAs (Decidable (ok c.shared (sys.turn c a).shared ∧ sys.Plays ok (sys.turn c a) rest))

theorem reachableVia_play {ok : σ → σ → Prop} (hrch : sys.ReachableVia ok c)
    (turns : List (Turn ι Call)) (hplays : sys.Plays ok c turns) :
    sys.ReachableVia ok (sys.play c turns) := by
  induction turns generalizing c with
  | nil => exact hrch
  | cons a rest ih =>
    refine ih ?_ hplays.2
    rcases sys.turn_cases c a with hsame | hstep
    · rwa [hsame]
    · exact hrch.step hstep hplays.1

theorem plays_true (c : Config σ ι Call ρ) (turns : List (Turn ι Call)) :
    sys.Plays (fun _ _ => True) c turns := by
  induction turns generalizing c with
  | nil => trivial
  | cons a rest ih => exact ⟨trivial, ih _⟩

theorem reachable_play (hrch : sys.Reachable c) (turns : List (Turn ι Call)) :
    sys.Reachable (sys.play c turns) :=
  reachableVia_play hrch turns (plays_true c turns)

/-- A thread that has no turn stays as it is. -/
theorem threads_turn (h : a.thread ≠ t) : (sys.turn c a).threads t = c.threads t := by
  cases a with
  | invoke t' call =>
    simp only [turn]
    split
    · exact update_of_ne (Ne.symm h) _ _
    · rfl
  | step t' =>
    simp only [turn]
    split
    · rfl
    · simp only [advance]
      split
      · exact update_of_ne (Ne.symm h) _ _
      · split
        · rfl
        · exact update_of_ne (Ne.symm h) _ _
      · exact update_of_ne (Ne.symm h) _ _
      · exact update_of_ne (Ne.symm h) _ _

theorem threads_play (h : ∀ a ∈ turns, a.thread ≠ t) :
    (sys.play c turns).threads t = c.threads t := by
  induction turns generalizing c with
  | nil => rfl
  | cons a rest ih =>
    rw [List.forall_mem_cons] at h
    exact (ih h.2).trans (threads_turn h.1)

end System

end Cakemaster.Machine
