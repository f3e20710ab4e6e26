import Cakemaster.Machine.Atomic
import Mathlib.Data.Set.Finite.Basic

/-!
# Calls that run alone

`Ensures p s post` says that every run of the program from `s` that comes to its end does so in
`post`; other threads may hold locks for which it waits for ever. The rules follow the
program. A call that runs alone is one of the schedules of a system.
-/

namespace Cakemaster.Machine

open Prog Function Prog

variable {σ τ α β γ : Type}
variable {p : Prog σ α} {k : β → Prog σ α}

def Ensures (p : Prog σ α) (s : σ) (post : α → σ → Prop) : Prop := ∀ a s', Runs p s a s' → post a s'

namespace Ensures

variable {s : σ} {post : α → σ → Prop}

theorem mono {post' : α → σ → Prop} (h : Ensures p s post)
    (hpost : ∀ a s', post a s' → post' a s') : Ensures p s post' :=
  fun a s' hrun => hpost a s' (h a s' hrun)

@[simp] theorem ret_iff : Ensures (ret a) s post ↔ post a s := by
  constructor
  · intro h
    exact h a s .ret
  · intro h b s' hrun
    obtain ⟨rfl, rfl⟩ := runs_ret_iff.mp hrun
    exact h

theorem ret (h : post a s) : Ensures (.ret a) s post := ret_iff.mpr h

theorem act_iff :
    Ensures (act f k) s post ↔ ∀ b s₁, f s = some (b, s₁) → Ensures (k b) s₁ post := by
  constructor
  · intro h b s₁ hf a s' hrun
    exact h a s' (runs_act_iff.mpr ⟨b, s₁, hf, hrun⟩)
  · intro h a s' hrun
    obtain ⟨b, s₁, hf, hrest⟩ := runs_act_iff.mp hrun
    exact h b s₁ hf a s' hrest

theorem bind_iff {p : Prog σ β} {f : β → Prog σ α} :
    Ensures (p.bind f) s post ↔ Ensures p s fun b s' => Ensures (f b) s' post := by
  constructor
  · intro h b s₁ hp a s' hf
    exact h a s' (runs_bind_iff.mpr ⟨b, s₁, hp, hf⟩)
  · intro h a s' hrun
    obtain ⟨b, s₁, hp, hf⟩ := runs_bind_iff.mp hrun
    exact h b s₁ hp a s' hf

theorem seq {p : Prog σ β} {f : β → Prog σ α} {mid : β → σ → Prop} (h : Ensures p s mid)
    (hf : ∀ b s', mid b s' → Ensures (f b) s' post) : Ensures (p.bind f) s post :=
  bind_iff.mpr (h.mono hf)

@[simp] theorem await_iff :
    Ensures ((await f).bind k) s post ↔ ∀ b s₁, f s = some (b, s₁) →
      Ensures (k b) s₁ post := act_iff

@[simp] theorem update_iff :
    Ensures ((update f).bind k) s post ↔ Ensures (k (f s).1) (f s).2 post := by
  rw [Prog.update, await_iff]
  constructor
  · intro h
    exact h _ _ rfl
  · intro h b s₁ hf
    rw [Option.some.inj hf] at h
    exact h

theorem update (h : Ensures (k (f s).1) (f s).2 post) : Ensures ((update f).bind k) s post :=
  update_iff.mpr h

@[simp] theorem read_iff : Ensures ((read f).bind k) s post ↔ Ensures (k (f s)) s post := update_iff

@[simp] theorem modify_iff {f : σ → σ} {k : Unit → Prog σ α} :
    Ensures ((modify f).bind k) s post ↔ Ensures (k ()) (f s) post := update_iff

@[simp] theorem pick_iff : Ensures ((pick usual).bind k) s post ↔ ∀ b, Ensures (k b) s post := by
  constructor
  · intro h b a s' hrun
    exact h a s' (runs_choose_iff.mpr ⟨b, hrun⟩)
  · intro h a s' hrun
    obtain ⟨b, hk⟩ := runs_choose_iff.mp hrun
    exact h b a s' hk

theorem bind_ret_iff : Ensures (p.bind .ret) s post ↔ Ensures p s post := by
  rw [bind_ret]

theorem foldOver (inv : List γ → τ → σ → Prop) (hinv : inv xs t s)
    (hstep : ∀ c rest t s, inv (c :: rest) t s → Ensures (f t c) s fun t' s' => inv rest t' s') :
    Ensures (foldOver f xs t) s fun t' s' => inv [] t' s' := by
  induction xs generalizing t s with
  | nil => exact ret hinv
  | cons c rest ih => exact (hstep c rest t s hinv).seq fun t' s' h => ih h

end Ensures

/-- A program that conforms keeps, when it runs alone, what its steps keep. -/
theorem Conforms.runs {X : Type} {rel : σ → X → σ → X → Prop} {inv : σ → X → Prop} {x : X}
    {post : α → X → Prop} {s s' : σ} {a : α} (hrun : Runs p s a s') (h : Conforms rel p x post)
    (hstep : ∀ s x s' x', inv s x → rel s x s' x' → inv s' x') (hinv : inv s x) :
    ∃ x', post a x' ∧ inv s' x' := by
  induction hrun generalizing x with
  | ret => exact ⟨x, ret_iff.mp h, hinv⟩
  | act hf _ ih =>
    obtain ⟨x', hrel, hk⟩ := act_iff.mp h _ _ _ hf
    exact ih hk (hstep _ _ _ _ hinv hrel)
  | choose b _ ih => exact ih (choose_iff.mp h b) hinv
  | again _ _ ihbody ih =>
    obtain ⟨loop, hloop, hbody⟩ := loop_iff.mp h
    obtain ⟨x₁, hnext, hinv₁⟩ := ihbody (hbody _ _ hloop) hinv
    exact ih (loop_iff.mpr ⟨loop, hnext, hbody⟩) hinv₁
  | done _ _ ihbody ih =>
    obtain ⟨loop, hloop, hbody⟩ := loop_iff.mp h
    obtain ⟨x₁, hnext, hinv₁⟩ := ihbody (hbody _ _ hloop) hinv
    exact ih hnext hinv₁

/-! ### Calls alone in a system -/

namespace System

variable {ι Call ρ : Type} [DecidableEq ι] {sys : System σ ι Call ρ}

/-- Only finitely many threads have ever been used. -/
theorem ReachableVia.finite_running {ok : σ → σ → Prop} (h : sys.ReachableVia ok c) :
    { t | c.threads t ≠ none }.Finite := by
  have hupda : ∀ {threads : ι → Option (Running σ Call ρ)} (t : ι) (r : Option (Running σ Call ρ)),
      { t | threads t ≠ none }.Finite → { t' | update threads t r t' ≠ none }.Finite := by
    intro threads t r hfinite
    refine (hfinite.insert t).subset fun t' hrng => ?_
    by_cases ht : t' = t
    · exact .inl ht
    · exact .inr (by rwa [Set.mem_ofPred_eq, update_of_ne ht] at hrng)
  induction h with
  | init => simp
  | step _ hstep _ ih =>
    cases hstep with
    | env => exact ih
    | invoke | act | choose | loop | finish => exact hupda _ _ ih

theorem ReachableVia.exists_idle [Infinite ι] {ok : σ → σ → Prop} (h : sys.ReachableVia ok c) :
    ∃ t, c.threads t = none := by
  obtain ⟨t, ht⟩ := h.finite_running.exists_notMem
  exact ⟨t, not_not.mp ht⟩

/-- A thread runs a part of its program alone. -/
theorem reachable_part (hrun : Runs p s a s') (hrch : sys.Reachable c)
    (hthr : c.threads t = some ⟨call, p.bind f, trace⟩) (hshr : c.shared = s) :
    ∃ c' trace', sys.Reachable c' ∧ c'.shared = s' ∧
    c'.threads = update c.threads t (some ⟨call, f a, trace'⟩) := by
  induction hrun generalizing c trace with
  | ret => exact ⟨c, trace, hrch, hshr, (update_eq_self_iff.mpr hthr.symm).symm⟩
  | act hf _ ih =>
    subst hshr
    obtain ⟨c', trace', hrch', hshr', hthrs⟩ :=
      ih (.step hrch (.act hthr rfl hf) trivial) (update_self ..) rfl
    exact ⟨c', trace', hrch', hshr', hthrs.trans (update_idem ..)⟩
  | choose b _ ih =>
    obtain ⟨c', trace', hrch', hshr', hthrs⟩ :=
      ih (.step hrch (.choose b hthr rfl) trivial) (update_self ..) hshr
    exact ⟨c', trace', hrch', hshr', hthrs.trans (update_idem ..)⟩
  | again _ _ ihbody ih =>
    obtain ⟨c₁, trace₁, hrch₁, hshr₁, hthrs₁⟩ :=
      ihbody (.step hrch (.loop hthr rfl) trivial) (update_self ..) hshr
    obtain ⟨c', trace', hrch', hshr', hthrs⟩ :=
      ih hrch₁ (by rw [hthrs₁, update_self]; rfl) hshr₁
    exact ⟨c', trace', hrch', hshr', by rw [hthrs, hthrs₁, update_idem, update_idem]⟩
  | done _ _ ihbody ih =>
    obtain ⟨c₁, trace₁, hrch₁, hshr₁, hthrs₁⟩ :=
      ihbody (.step hrch (.loop hthr rfl) trivial) (update_self ..) hshr
    obtain ⟨c', trace', hrch', hshr', hthrs⟩ :=
      ih hrch₁ (by rw [hthrs₁, update_self]) hshr₁
    exact ⟨c', trace', hrch', hshr', by rw [hthrs, hthrs₁, update_idem, update_idem]⟩

theorem reachable_call (hrch : sys.Reachable c) (hidle : c.threads t = none)
    (hrun : Runs (sys.code t call) c.shared a s') :
    ∃ c', sys.Reachable c' ∧ c'.shared = s' ∧ c'.threads = c.threads := by
  obtain ⟨c', trace', hrch', hshr', hthrs⟩ := reachable_part (t := t) (f := ret) hrun
    (.step hrch (.invoke t call hidle) trivial) (by rw [bind_ret]; exact update_self ..) rfl
  have hthr : c'.threads t = some ⟨call, .ret a, trace'⟩ := by rw [hthrs, update_self]
  refine ⟨_, .step hrch' (.finish hthr rfl) trivial, hshr', ?_⟩
  rw [hthrs, update_idem, update_idem, ← hidle, update_eq_self]

end System

end Cakemaster.Machine
