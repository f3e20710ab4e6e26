import Cakemaster.Machine.Atomic

/-!
# Runs of a single thread

`Total p s post` says that the program, run alone from `s`, has a run to its end and
that every run ends in `post`. An action that is blocked, which stands for a panic or
for a lock that nobody will release, has no run. The rules follow the program;
those for deterministic actions are equivalences, so that `simp` executes them.
-/

namespace Cakemaster.Machine

open Prog

variable {σ τ υ α β γ : Type}
variable {usual : β} {k : β → Prog σ α}

def Total (p : Prog σ α) (s : σ) (post : α → σ → Prop) : Prop :=
  (∃ a s', Runs p s a s') ∧ ∀ a s', Runs p s a s' → post a s'

namespace Total

variable {s : σ} {post : α → σ → Prop}

@[simp] theorem ret_iff : Total (ret a) s post ↔ post a s := by
  constructor
  · intro h
    exact h.2 a s .ret
  · intro h
    refine ⟨⟨a, s, .ret⟩, fun b s' hrun => ?_⟩
    obtain ⟨rfl, rfl⟩ := runs_ret_iff.mp hrun
    exact h

theorem act_iff (hf : f s = some (b, s₁)) : Total (act f k) s post ↔ Total (k b) s₁ post := by
  have hruns : ∀ a s', Runs (act f k) s a s' ↔ Runs (k b) s₁ a s' := by
    intro a s'
    rw [runs_act_iff]
    constructor
    · rintro ⟨_, _, hf', hk⟩
      obtain ⟨rfl, rfl⟩ := Prod.mk.inj (Option.some.inj (hf.symm.trans hf'))
      exact hk
    · exact fun hk => ⟨b, s₁, hf, hk⟩
  simp only [Total, hruns]

theorem choose (h : ∀ b, Total (k b) s post) : Total (.choose usual k) s post := by
  constructor
  · obtain ⟨a, s', hrun⟩ := (h usual).1
    exact ⟨a, s', .choose usual hrun⟩
  · intro a s' hrun
    obtain ⟨b, hk⟩ := runs_choose_iff.mp hrun
    exact (h b).2 a s' hk

/-! ### Single actions -/

theorem await_iff (hf : f s = some (b, s₁)) :
    Total ((Prog.await f).bind k) s post ↔ Total (k b) s₁ post :=
  act_iff hf

@[simp] theorem read_iff : Total ((read f).bind k) s post ↔ Total (k (f s)) s post := by
  exact await_iff (b := _) rfl

@[simp] theorem modify_iff {f : σ → σ} {k : Unit → Prog σ α} :
    Total ((modify f).bind k) s post ↔ Total (k ()) (f s) post := by
  exact await_iff (b := _) rfl

theorem pick (h : ∀ b, Total (k b) s post) : Total ((Prog.pick usual).bind k) s post := choose h

/-- A choice on which nothing depends. -/
theorem pick_iff {result : Prop} (h : ∀ b, Total (k b) s post ↔ result) :
    Total ((Prog.pick usual).bind k) s post ↔ result := by
  constructor
  · intro htot
    obtain ⟨a, s', hrun⟩ := htot.1
    obtain ⟨b, hk⟩ := runs_choose_iff.mp hrun
    exact (h b).mp ⟨⟨a, s', hk⟩, fun a s' hk => htot.2 a s' (.choose b hk)⟩
  · exact fun hres => pick fun b => (h b).mpr hres

end Total

end Cakemaster.Machine
