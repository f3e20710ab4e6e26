import Cakemaster.Machine.Interleaving
import Cakemaster.Machine.Word

/-!
# Atomic variables

Loads, stores, additions and compare-and-swaps on one component of a shared
state, given by a lens, and the programs over a component embedded in programs
over the whole state.
-/

namespace Cakemaster.Machine

/-- A component of a state, with the laws of reading and writing it. -/
structure Lens (σ τ : Type) where
  get : σ → τ
  set : τ → σ → σ
  get_set : ∀ t s, get (set t s) = t
  set_get : ∀ s, set (get s) s = s
  set_set : ∀ t t' s, set t (set t' s) = set t s

namespace Lens

variable {σ τ υ : Type} {k : β → Prog σ α} {t : τ} {l : Lens σ τ}

attribute [simp] get_set set_get set_set

def comp (l : Lens σ τ) (m : Lens τ υ) : Lens σ υ where
  get s := m.get (l.get s)
  set u s := l.set (m.set u (l.get s)) s
  get_set := by simp
  set_get := by simp
  set_set := by simp

end Lens

namespace Prog

variable {σ τ α β : Type}

/-- A program over a component, run on the whole state. -/
def zoom (l : Lens σ τ) {α : Type} : Prog τ α → Prog σ α
  | ret a => ret a
  | act f k => act (fun s => (f (l.get s)).map fun (b, t) => (b, l.set t s)) fun b => (k b).zoom l
  | choose usual k => choose usual fun b => (k b).zoom l
  | loop body t k => loop (fun t => (body t).zoom l) t fun b => (k b).zoom l

/-- `p` when the condition holds, nothing otherwise. -/
def guarded (condition : Prop) [Decidable condition] (p : Prog σ Unit) : Prog σ Unit :=
  if condition then p else ret ()

def load (l : Lens σ τ) : Prog σ τ := read l.get

def store (l : Lens σ τ) (value : τ) : Prog σ Unit := modify (l.set value)

/-- Adds in 64 bits and answers with the value before. -/
def fetchAdd (l : Lens σ ℕ) (amount : ℕ) : Prog σ ℕ :=
  update fun s => (l.get s, l.set (Word.wrapAdd 64 (l.get s) amount) s)

/-- A strong compare-and-swap: the expected value, or what was found instead. -/
def compareExchange [DecidableEq τ] (l : Lens σ τ) (expected next : τ) : Prog σ (Except τ τ) :=
  update fun s => if l.get s = expected then (.ok expected, l.set next s) else (.error (l.get s), s)

/-- A weak compare-and-swap, which may fail although the expected value is there. -/
def compareExchangeWeak [DecidableEq τ] (l : Lens σ τ) (expected next : τ) : Prog σ (Except τ τ) :=
  (pick false).bind fun spurious =>
    if spurious then (load l).bind fun found => ret (.error found) else compareExchange l expected next

end Prog

namespace Conforms

open Prog Prog

variable {σ X α β τ : Type} {rel : σ → X → σ → X → Prop} {x : X} {post : α → X → Prop}

theorem await {f : σ → Option (β × σ)}
    (h : ∀ s b s', f s = some (b, s') → ∃ x', rel s x s' x' ∧ Conforms rel (k b) x' post) :
    Conforms rel ((await f).bind k) x post := act_iff.mpr h

theorem update {f : σ → β × σ}
    (h : ∀ s, ∃ x', rel s x (f s).2 x' ∧ Conforms rel (k (f s).1) x' post) :
    Conforms rel ((update f).bind k) x post := by
  apply await
  intro s b s' hf
  have hfs := Option.some.inj hf
  have hs := h s
  rw [hfs] at hs
  exact hs

theorem read {f : σ → β} (h : ∀ s, ∃ x', rel s x s x' ∧ Conforms rel (k (f s)) x' post) :
    Conforms rel ((read f).bind k) x post := update h

theorem modify {f : σ → σ} {k : Unit → Prog σ α}
    (h : ∀ s, ∃ x', rel s x (f s) x' ∧ Conforms rel (k ()) x' post) :
    Conforms rel ((modify f).bind k) x post := update h

theorem pick {usual : β} (h : ∀ b, Conforms rel (k b) x post) :
    Conforms rel ((pick usual).bind k) x post := choose_iff.mpr h

theorem iterate {body : τ → Prog σ (τ ⊕ β)} (inv : τ → X → Prop) (hinv : inv t x)
    (hbody : ∀ t x, inv t x → Conforms rel (body t) x (LoopPost inv fun b x => Conforms rel (k b) x post)) :
    Conforms rel ((Prog.iterate body t).bind k) x post := loop_iff.mpr ⟨inv, hinv, hbody⟩

theorem iterate_ret (inv : τ → X → Prop) (hinv : inv t x)
    (hbody : ∀ t x, inv t x → Conforms rel (body t) x (LoopPost inv post)) :
    Conforms rel (Prog.iterate body t) x post := by
  refine loop_iff.mpr ⟨inv, hinv, fun t x hx => (hbody t x hx).mono ?_⟩
  intro r x' hr
  cases r with
  | inl next => exact hr
  | inr b => exact ret hr

theorem guarded {condition : Prop} [Decidable condition]
    (hpos : condition → Conforms rel (p.bind k) x post)
    (hneg : ¬condition → Conforms rel (k ()) x post) :
    Conforms rel ((Prog.guarded condition p).bind k) x post := by
  by_cases hc : condition
  · rw [Prog.guarded, if_pos hc]
    exact hpos hc
  · rw [Prog.guarded, if_neg hc]
    exact hneg hc

theorem seq {mid : β → X → Prop} (h : Conforms rel p x mid)
    (hf : ∀ b x', mid b x' → Conforms rel (f b) x' post) : Conforms rel (p.bind f) x post :=
  bind (h.mono hf)

/-- One program after another that ends in a known ghost value. -/
theorem andThen {p : Prog σ β} {f : β → Prog σ α} {next : β → X}
    (h : Conforms rel p x fun b x' => x' = next b) (hf : ∀ b, Conforms rel (f b) (next b) post) :
    Conforms rel (p.bind f) x post := by
  apply seq h
  rintro b x' rfl
  exact hf b

/-- A bounded loop; the invariant speaks of the number of rounds that are left. -/
theorem upToWithin (inv : ℕ → τ → X → Prop)
    {done : τ → X → Prop} (hinv : inv n t x) (hdone : ∀ t x, inv 0 t x → done t x)
    (hbody : ∀ n t x, inv (n + 1) t x → Conforms rel (body t) x (LoopPost (inv n) done)) :
    Conforms rel (upTo body n t) x done := by
  induction n generalizing t x with
  | zero => exact ret (hdone t x hinv)
  | succ n ih =>
    apply seq (hbody n t x hinv)
    intro r x' hr
    cases r with
    | inl next => exact ih hr
    | inr last => exact ret hr

theorem upTo (inv : τ → X → Prop) (hinv : inv t x)
    (hbody : ∀ t x, inv t x → Conforms rel (body t) x (LoopPost inv inv)) :
    Conforms rel (upTo body n t) x inv :=
  upToWithin (fun _ => inv) hinv (fun _ _ h => h) fun _ => hbody

/-- A fold; the invariant speaks of the elements that are still ahead. -/
theorem foldOver {γ : Type} {f : τ → γ → Prog σ τ} {l : List γ} (inv : List γ → τ → X → Prop)
    (hinv : inv l t x)
    (hbody : ∀ c rest t x, inv (c :: rest) t x → Conforms rel (f t c) x (inv rest)) :
    Conforms rel (foldOver f l t) x (inv []) := by
  induction l generalizing t x with
  | nil => exact ret hinv
  | cons c rest ih => exact seq (hbody c rest t x hinv) fun t' x' h => ih h

/-- What a compare-and-swap step can be: a swap where the expected value was
found, or a look at the value. -/
theorem compareExchangeWeak [DecidableEq τ] {k : Except τ τ → Prog σ α} (hswap : ∀ s,
    l.get s = expected → ∃ x', rel s x (l.set next s) x' ∧ Conforms rel (k (.ok expected)) x' post)
    (hfail : ∀ s, ∃ x', rel s x s x' ∧ Conforms rel (k (.error (l.get s))) x' post) :
    Conforms rel ((compareExchangeWeak l expected next).bind k) x post := by
  rw [Prog.compareExchangeWeak, Prog.bind_assoc]
  apply pick
  intro spurious
  cases spurious with
  | true =>
    rw [if_pos rfl, bind_assoc]
    exact read hfail
  | false =>
    rw [if_neg Bool.false_ne_true]
    apply update
    intro s
    by_cases heq : l.get s = expected
    · simpa [heq] using hswap s heq
    · simpa [heq] using hfail s

/-- A program over a component conforms when its steps, replayed on the whole
state, do. -/
theorem zoom {p : Prog τ α}
    (h : Conforms (fun t x t' x' => ∀ s, l.get s = t → rel s x (l.set t' s) x') p x post) :
    Conforms rel (p.zoom l) x post := by
  induction p generalizing x with
  | ret a => exact ret (ret_iff.mp h)
  | act f k ih =>
    rw [act_iff] at h
    rw [zoom, act_iff]
    intro s b s' hf
    obtain ⟨⟨b', t'⟩, hft, heq⟩ := Option.map_eq_some_iff.mp hf
    obtain ⟨rfl, rfl⟩ := Prod.mk.inj heq
    obtain ⟨x', hrel, hk⟩ := h _ _ _ hft
    exact ⟨x', hrel s rfl, ih b' hk⟩
  | choose usual k ih =>
    rw [choose_iff] at h
    rw [zoom, choose_iff]
    exact fun b => ih b (h b)
  | loop body t k ihbody ih =>
    rw [loop_iff] at h
    rw [zoom, loop_iff]
    obtain ⟨inv, hinv, hbody⟩ := h
    refine ⟨inv, hinv, fun t x hx => ihbody t ((hbody t x hx).mono ?_)⟩
    intro r x' hr
    cases r with
    | inl next => exact hr
    | inr b => exact ih b hr

/-- Any program conforms to a relation that allows every step from a ghost value. -/
theorem stutter (p : Prog σ α) (h : ∀ s s', rel s x s' x) :
    Conforms rel p x fun _ x' => x' = x := by
  induction p with
  | ret a => exact ret rfl
  | act f k ih =>
    rw [act_iff]
    exact fun s b s' _ => ⟨x, h s s', ih b⟩
  | choose usual k ih =>
    rw [choose_iff]
    exact ih
  | loop body t k ihbody ih =>
    rw [loop_iff]
    refine ⟨fun _ x' => x' = x, rfl, ?_⟩
    rintro t x' rfl
    refine (ihbody t).mono ?_
    rintro r x' rfl
    cases r with
    | inl next => exact rfl
    | inr b => exact ih b

/-- A program over a component that the relation does not look at. -/
theorem zoom_stutter (p : Prog τ α) (h : ∀ s t, rel s x (l.set t s) x) :
    Conforms rel (p.zoom l) x fun _ x' => x' = x :=
  zoom (stutter p fun _ t' s _ => h s t')

end Conforms

end Cakemaster.Machine
