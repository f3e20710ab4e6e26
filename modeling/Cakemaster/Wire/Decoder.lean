import Cakemaster.Wire.Bytes

/-!
# Decoders

Programs that take a value off the front of some bytes. `Reads d bytes a` says that the
decoder takes exactly these bytes for `a`, whatever follows; `Stable d` that bytes behind those
it has used do not matter. `Follows` compares a decoder with a coarser one, which takes the
same bytes and which the finer one may only refuse to follow for a tolerated error.
-/

namespace Cakemaster.Wire

variable {ε α β γ : Type}
variable {p : Prop} {err : ε} {rel' : β → γ → Prop} {bytes s : Bytes} {a : α} {r : Bytes} {b : β}

abbrev Decoder (ε α : Type) := StateT Bytes (Except ε) α

namespace Decoder

theorem run_bind_ok {f : α → Decoder ε β} (h : d.run s = .ok (a, r)) :
    (d >>= f).run s = (f a).run r := by
  rw [StateT.run_bind, h]
  rfl

theorem run_bind_error {f : α → Decoder ε β} (h : d.run s = .error err) :
    (d >>= f).run s = .error err := by
  rw [StateT.run_bind, h]
  rfl

theorem run_bind_eq_ok {f : α → Decoder ε β} :
    (d >>= f).run s = .ok (b, r) ↔ ∃ a s', d.run s = .ok (a, s') ∧ (f a).run s' = .ok (b, r) := by
  constructor
  · intro h
    cases hd : d.run s with
    | error err =>
      rw [run_bind_error hd] at h
      cases h
    | ok result =>
      obtain ⟨a, s'⟩ := result
      rw [run_bind_ok hd] at h
      exact ⟨a, s', rfl, h⟩
  · rintro ⟨a, s', hd, hf⟩
    rw [run_bind_ok hd, hf]

def fail (err : ε) : Decoder ε α := throw err

def exactly (short : ℕ → ε) (length : ℕ) : Decoder ε Bytes := fun s =>
  if s.length < length then .error (short s.length) else .ok (s.take length, s.drop length)

def replicate (d : Decoder ε α) : ℕ → Decoder ε (List α)
  | 0 => return []
  | n + 1 => do
    let a ← d
    let rest ← replicate d n
    return a :: rest

end Decoder

open Decoder Pure List

/-! ### Exact reading -/

/-- The decoder takes exactly these bytes for the value. -/
def Reads (d : Decoder ε α) (bytes : Bytes) (a : α) : Prop :=
  ∀ rest, d.run (bytes ++ rest) = .ok (a, rest)

namespace Reads

theorem pure (a : α) : Reads (pure a : Decoder ε α) [] a := fun _ => rfl

theorem bind {f : α → Decoder ε β} (h : Reads d bytes a)
    (hf : Reads (f a) bytes' b) : Reads (d >>= f) (bytes ++ bytes') b := by
  intro rest
  rw [append_assoc, run_bind_ok (h _), hf]

/-- A last step that takes no bytes. -/
theorem map {d : Decoder ε α} {f : α → Decoder ε β} (h : Reads d bytes a)
    (hf : Reads (f a) [] b) : Reads (d >>= f) bytes b := by
  have hbind := h.bind hf
  rwa [append_nil] at hbind

theorem exactly {short : ℕ → ε} {length : ℕ} {bytes : Bytes} (h : bytes.length = length) :
    Reads (exactly short length) bytes bytes := by
  intro rest
  have hlong : ¬(bytes ++ rest).length < length := by
    rw [length_append]
    omega
  show (if _ then _ else _) = _
  rw [if_neg hlong, take_left' h, drop_left' h]

theorem replicate {d : Decoder ε α} {parts : List Bytes} {l : List α}
    (h : List.Forall₂ (Reads d) parts l) :
    Reads (d.replicate l.length) parts.flatten l := by
  induction h with
  | nil => exact Reads.pure []
  | cons hhead _ ih => exact hhead.bind (ih.map (Reads.pure _))

end Reads

/-! ### Bytes behind -/

def Stable (d : Decoder ε α) : Prop :=
  ∀ s a r t, d.run s = .ok (a, r) → d.run (s ++ t) = .ok (a, r ++ t)

namespace Stable

theorem pure (a : α) : Stable (pure a : Decoder ε α) := by
  rintro _ a _ _ ⟨⟩
  rfl

theorem fail (err : ε) : Stable (fail err : Decoder ε α) := by
  intro s a r t h
  cases h

theorem bind {f : α → Decoder ε β} (h : Stable d) (hf : ∀ a, Stable (f a)) : Stable (d >>= f) := by
  intro s b r t hrun
  obtain ⟨a, s', hd, hrest⟩ := run_bind_eq_ok.mp hrun
  exact run_bind_eq_ok.mpr ⟨a, s' ++ t, h _ _ _ t hd, hf a _ _ _ t hrest⟩

theorem exactly (short : ℕ → ε) (length : ℕ) : Stable (exactly short length) := by
  intro s a r t h
  change (if _ then _ else _) = _ at h
  show (if _ then _ else _) = _
  split at h
  · cases h
  next hlong =>
  cases h
  have hlong' : ¬(s ++ t).length < length := by
    rw [length_append]
    omega
  rw [if_neg hlong', take_append_of_le_length (not_lt.mp hlong),
    drop_append_of_le_length (not_lt.mp hlong)]

theorem replicate {d : Decoder ε α} (h : Stable d) (n : ℕ) : Stable (d.replicate n) := by
  induction n with
  | zero => exact Stable.pure []
  | succ n ih => exact h.bind fun a => ih.bind fun rest => Stable.pure _

theorem ite [Decidable p] {d d' : Decoder ε α} (h : Stable d) (h' : Stable d') :
    Stable (if p then d else d') := by
  split
  · exact h
  · exact h'

theorem dite [Decidable p] {d : p → Decoder ε α} {d' : ¬p → Decoder ε α} (h : ∀ hp, Stable (d hp))
    (h' : ∀ hp, Stable (d' hp)) : Stable (if hp : p then d hp else d' hp) := by
  split
  · exact h _
  · exact h' _

end Stable

/-! ### Coarser decoders -/

section Follows

variable {tolerated : ε → Prop} {rel : α → γ → Prop}

/-- Where the coarser decoder succeeds, the finer one takes the same bytes or fails with a tolerated
error; where the coarser one fails, so does the finer one. -/
def Follows (tolerated : ε → Prop) (rel : α → γ → Prop) (d : Decoder ε α)
    (coarse : Decoder ε γ) : Prop :=
  ∀ s, match coarse.run s with
    | .ok (c, r) => (∃ a, d.run s = .ok (a, r) ∧ rel a c) ∨ ∃ err, d.run s = .error err ∧
      tolerated err
    | .error _ => ∃ err, d.run s = .error err

namespace Follows

theorem refl (d : Decoder ε α) : Follows tolerated Eq d d := by
  intro s
  cases d.run s with
  | ok result => exact .inl ⟨result.1, rfl, rfl⟩
  | error err => exact ⟨err, rfl⟩

theorem pure (h : rel a c) :
    Follows tolerated rel (pure a : Decoder ε α) (pure c) := fun _ => .inl ⟨a, rfl, h⟩

theorem fail (h : tolerated err) :
    Follows tolerated rel (fail err : Decoder ε α) (Pure.pure c) := fun _ => .inr ⟨err, rfl, h⟩

theorem bind {δ : Type} {rel' : β → δ → Prop} {f : α → Decoder ε β}
    {g : γ → Decoder ε δ} (h : Follows tolerated rel d coarse)
    (hf : ∀ a c, rel a c → Follows tolerated rel' (f a) (g c)) :
    Follows tolerated rel' (d >>= f) (coarse >>= g) := by
  intro s
  have hs := h s
  cases hc : coarse.run s with
  | error err =>
    rw [hc] at hs
    obtain ⟨err', hd⟩ := hs
    rw [run_bind_error hc]
    exact ⟨err', run_bind_error hd⟩
  | ok result =>
    obtain ⟨c, r⟩ := result
    rw [hc] at hs
    rw [run_bind_ok hc]
    rcases hs with ⟨a, hd, hrel⟩ | ⟨err, hd, herr⟩
    · rw [run_bind_ok hd]
      exact hf a c hrel r
    · cases (g c).run r with
      | ok result => exact .inr ⟨err, run_bind_error hd, herr⟩
      | error _ => exact ⟨err, run_bind_error hd⟩

theorem bind_self {g : α → Decoder ε γ}
    (h : ∀ a, Follows tolerated rel' (f a) (g a)) : Follows tolerated rel' (d >>= f) (d >>= g) := by
  refine (refl d).bind fun a c hac => ?_
  rw [hac]
  exact h c

/-- A last step of the finer decoder alone. -/
theorem map {d : Decoder ε α} {coarse : Decoder ε γ} {f : α → β}
    (h : Follows tolerated rel d coarse) (hf : ∀ a c, rel a c → rel' (f a) c) :
    Follows tolerated rel' (d >>= fun a => Pure.pure (f a)) coarse := by
  have hbind : Follows tolerated rel' (d >>= fun a => Pure.pure (f a)) (coarse >>= Pure.pure) :=
    h.bind fun a c hac => .pure (hf a c hac)
  rwa [bind_pure] at hbind

/-- The result of the coarser decoder is not used. -/
theorem discard {c : β} {d : Decoder ε α} {coarse : Decoder ε γ}
    (h : Follows tolerated rel d coarse) :
    Follows tolerated (fun _ _ => True) d (coarse >>= fun _ => Pure.pure c) := by
  have hbind : Follows tolerated (fun _ _ => True) (d >>= Pure.pure)
    (coarse >>= fun _ => Pure.pure c) :=
    h.bind fun _ _ _ => .pure trivial
  rwa [bind_pure] at hbind

theorem failed : Follows tolerated rel (Decoder.fail err : Decoder ε α) (Decoder.fail err') :=
  fun _ => ⟨err, rfl⟩

theorem ite [Decidable p] {d d' : Decoder ε α} {coarse coarse' : Decoder ε γ}
    (h : Follows tolerated rel d coarse) (h' : Follows tolerated rel d' coarse') :
    Follows tolerated rel (if p then d else d') (if p then coarse else coarse') := by
  split
  · exact h
  · exact h'

theorem replicate {d : Decoder ε α} {coarse : Decoder ε γ}
    (h : Follows tolerated rel d coarse) (n : ℕ) :
    Follows tolerated (fun l _ => l.length = n) (d.replicate n) (coarse.replicate n) := by
  induction n with
  | zero => exact .pure rfl
  | succ n ih =>
    refine h.bind fun a _ _ => ih.bind fun l _ hl => .pure ?_
    rw [length_cons, hl]

/-- Two decoders that follow a third take the same bytes, and one refuses what the other accepts
only for a tolerated error. -/
theorem agree (h : Follows tolerated rel d coarse) (h' : Follows tolerated rel' d' coarse)
    (hd : d.run s = .ok (a, r)) :
    (∃ b, d'.run s = .ok (b, r)) ∨ ∃ err, d'.run s = .error err ∧ tolerated err := by
  have hs := h s
  have hs' := h' s
  cases hc : coarse.run s with
  | error err =>
    rw [hc] at hs
    obtain ⟨_, herr⟩ := hs
    cases hd.symm.trans herr
  | ok result =>
    obtain ⟨_, _⟩ := result
    rw [hc] at hs hs'
    rcases hs with ⟨_, hd', -⟩ | ⟨err, herr, -⟩
    · cases hd.symm.trans hd'
      exact hs'.imp (fun ⟨b, hb, _⟩ => ⟨b, hb⟩) id
    · cases hd.symm.trans herr

end Follows

end Follows

end Cakemaster.Wire
