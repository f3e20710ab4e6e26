import Cakemaster.Object.MoveApart
import Cakemaster.Object.MoveCases

/-!
# All calls together

`Core` is what holds of the store and of the ghosts of all threads at every point of
every run. A move of one thread keeps it.
-/

namespace Cakemaster.Object

open Segment Function View

variable {A : UnitAllocator} {x x' : Ghost A} {u u' : View A}
variable (kind : CallKind) (lenient : Bool) {s : SlotRef} {v : VersionRef} {gs : ℕ → Ghost A}

/-- What some thread has, some thread still has after a step, unless the one that has
it gives it up. -/
theorem exists_update (P : Ghost A → Prop) {Q : Prop} (h : ∃ t, P (gs t))
    (hkeep : P (gs t) → P x' ∨ Q) : (∃ t', P (update gs t x' t')) ∨ Q := by
  obtain ⟨t', ht'⟩ := h
  by_cases heq : t' = t
  · subst heq
    refine (hkeep ht').imp_left fun hx' => ⟨t', ?_⟩
    rwa [update_self]
  · refine .inl ⟨t', ?_⟩
    rwa [update_of_ne heq]

theorem exists_update_of_not (P : Ghost A → Prop) (h : ∃ t, P (gs t))
    (hnot : ¬P (gs t)) : ∃ t', P (update gs t x' t') :=
  (exists_update P h fun ht => .inr (hnot ht)).resolve_right id

theorem exists_update_self (P : Ghost A → Prop) (h : P x') :
    ∃ t', P (update gs t x' t') := ⟨t, by rwa [update_self]⟩

/-- What at most one thread has, at most one thread has after a step, unless a thread
takes what another one has. -/
theorem unique_update {α : Type} (f : Ghost A → Option α)
    (h : ∀ t t' a, f (gs t) = some a → f (gs t') = some a → t = t')
    (hnew : ∀ a, f x' = some a → f (gs t) = some a ∨ ∀ t', f (gs t') ≠ some a) (t₁ t₂ : ℕ) (a : α)
    (h₁ : f (update gs t x' t₁) = some a) (h₂ : f (update gs t x' t₂) = some a) : t₁ = t₂ := by
  have hoth : ∀ t', t' ≠ t → f x' = some a → f (gs t') ≠ some a := by
    intro t' hne ha ha'
    rcases hnew a ha with hold | hnone
    · exact hne (h t' t a ha' hold)
    · exact hnone t' ha'
  by_cases ht₁ : t₁ = t
  · subst ht₁
    by_contra hne
    rw [update_self] at h₁
    rw [update_of_ne (Ne.symm hne)] at h₂
    exact hoth t₂ (Ne.symm hne) h₁ h₂
  · rw [update_of_ne ht₁] at h₁
    by_cases ht₂ : t₂ = t
    · subst ht₂
      rw [update_self] at h₂
      exact absurd h₁ (hoth t₁ ht₁ h₂)
    · rw [update_of_ne ht₂] at h₂
      exact h t₁ t₂ a h₁ h₂

namespace Move

/-- A version that is off its slot for a while is in the hand of the call that took it. -/
theorem withdrawn_cases (h : Move u x u' x')
    (hv : u'.standing v = .withdrawn s) : u.standing v = .withdrawn s ∨ x'.focus = .taken s v := by
  rcases h.standing_cases v with hsame | hturn
  · exact .inl (hsame ▸ hv)
  · rw [hv] at hturn
    cases hturn with
    | withdraw _ hf' => exact .inr hf'

/-- A call that has taken a version off its slot or sealed the version to be committed
is not done before it has put it back or published it. -/
theorem critical_kept (h : Move u x u' x') :
    (∀ s v, x.focus = .taken s v → x'.focus = .taken s v ∨ u'.standing v ≠ .withdrawn s) ∧
    ∀ s a v, x.focus = .sealed s a v → x'.focus = .sealed s a v ∨ u'.active s = none := by
  cases h with
  | restore hf | depart hf | departEvicted hf =>
    refine ⟨fun s v hf' => ?_, by simp [hf]⟩
    cases hf.symm.trans hf'
    simp [standing, setStanding, setVersion]
  | publish _ hf =>
    refine ⟨by simp [hf], fun s a v hf' => ?_⟩
    cases hf.symm.trans hf'
    simp [active, setStanding, setVersion, detach, setSlot]
  | observe _ _ _ hfoc =>
    rcases hfoc with rfl | ⟨rfl, hlock, -⟩
    · exact ⟨fun _ _ => .inl, fun _ _ _ => .inl⟩
    · exact ⟨fun s v hf => by simp [hf, Focus.lock] at hlock,
      fun s a v hf => by simp [hf, Focus.lock] at hlock⟩
  | retry hlock =>
    exact ⟨fun s v hf => by simp [hf, Focus.lock] at hlock,
      fun s a v hf => by simp [hf, Focus.lock] at hlock⟩
  | unlock _ hmay =>
    exact ⟨fun s v hf => by simp [hf, Focus.mayUnlock] at hmay,
      fun s a v hf => by simp [hf, Focus.mayUnlock] at hmay⟩
  | sample hf => rcases hf with hf | ⟨_, hf⟩ <;> simp [hf]
  | see _ hf | raise hf | mark hf | confirm _ hf | lock _ hf | keep hf | free hf | base hf | meet hf | vacant hf
  | point hf | hollow hf | idle hf | examine hf | condemn hf | claim _ _ hf | unclaim hf | stage _ hf
  | abandon _ hf | agree hf | number hf | record _ _ _ _ hf | sampleReplaced hf | withdraw hf | expel _ hf
  | lose _ hf | prune hf | retire _ hf | popRetired hf | take hf => simp [hf]
  | _ => exact ⟨fun _ _ => .inl, fun _ _ _ => .inl⟩

/-- A transaction that waits with a sealed version has waited with it before, or the
version has just been sealed. -/
theorem sealing_cases (hu : u.Wellformed) (hx : x.Sound u) (h : Move u x u' x')
    (ha : u'.active s = some a) (hph : a.phase = .staged v)
    (hseal : (u'.versions v).sealed = true) :
    u.active s = some a ∧ (u.versions v).sealed = true ∨ x'.focus = .sealed s a v := by
  rcases h.sealed_cases hseal with hv | ⟨_, _, _, hf, hf'⟩
  · rcases h.active_cases s with hsame | htra
    · exact .inl ⟨hsame ▸ ha, hv⟩
    · rw [ha] at htra
      cases htra with
      | insert | claim => cases hph
      | stage hm =>
        cases hph
        rw [(hx.makes hm).1.2.2.1] at hv
        cases hv
  obtain ⟨⟨hactv, hph', -⟩, -⟩ := hx.holds hf
  rcases h.active_cases s with hsame | htra
  · rw [hsame] at ha
    have hs := (hu.staged ha hph).1.symm.trans (hu.staged hactv hph').1
    cases hs
    cases ha.symm.trans hactv
    exact .inr hf'
  · rw [ha] at htra
    cases htra with
    | insert | claim => cases hph
    | stage _ hf'' => cases hf.symm.trans hf''

end Move

namespace Ghost

theorem Sound.start (u : View A) : (Ghost.start kind lenient : Ghost A).Sound u where
  lock := nofun
  focus := trivial
  making := trivial
  made := nofun
  gate := nofun
  writing := nofun
  drained h := h.elim (absurd rfl) (absurd rfl)
  seen := List.nil_subset _
  queue := nofun
  early := nofun
  ready _ := rfl
  due := nofun
  expected := nofun
  fence := nofun
  dead := nofun
  batch := nofun
  known := List.nil_subset _
  owes := nofun
  emptied := nofun
  uncounted := nofun
  astray := rfl
  notes := ⟨nofun, nofun⟩

theorem Fitting.start : (Ghost.start kind lenient : Ghost A).Fitting where
  hand := absurd rfl
  sealing := nofun
  staging := absurd rfl
  gate := nofun
  writing := nofun

theorem Apart.start (y : Ghost A) : (Ghost.start kind lenient).Apart y where
  lock := nofun
  detached := nofun
  made := nofun
  gate := nofun

end Ghost

/-- What holds of the store and of the calls of all threads. -/
structure Core (u : View A) (gs : ℕ → Ghost A) : Prop where
  wellformed : u.Wellformed
  logged : u.Logged
  retiring : u.Retiring
  sound : ∀ t, (gs t).Sound u
  fitting : ∀ t, (gs t).Fitting
  apart : ∀ t t', t ≠ t' → (gs t).Apart (gs t')
  taken : ∀ {s v}, u.standing v = .withdrawn s → ∃ t, (gs t).focus = .taken s v
  sealing : ∀ {s a v}, u.active s = some a → a.phase = .staged v → (u.versions v).sealed = true →
    ∃ t, (gs t).focus = .sealed s a v

namespace Core

variable {gs : ℕ → Ghost A} {t : ℕ}

variable (h : Core u gs)
include h

theorem rely (hmove : Move u (gs t) u' x') : Rely (gs t) u u' :=
  hmove.rely h.wellformed (h.sound t)

theorem alone (hlock : (gs t).focus.lock = some s) (hv : u.standing v = .withdrawn s) :
    (gs t).focus = .taken s v := by
  obtain ⟨t', ht'⟩ := h.taken hv
  by_cases heq : t' = t
  · exact heq ▸ ht'
  · exact absurd hlock ((h.apart t' t heq).lock s (ht' ▸ rfl))

theorem step (hmove : Move u (gs t) u' x') : Core u' (update gs t x') where
  wellformed := hmove.wellformed h.wellformed (h.sound t) fun s v hlock hv => h.alone hlock hv
  logged := hmove.logged h.wellformed (h.sound t) h.logged
  retiring := hmove.retiring (h.sound t) h.retiring (h.rely hmove)
  sound := by
    refine (forall_update_iff gs fun _ x => x.Sound u').mpr ⟨?_, fun t' ht' => ?_⟩
    · exact hmove.sound h.wellformed h.logged h.retiring (h.sound t) (h.fitting t)
    · exact (h.sound t').stable (h.sound t) (h.apart t t' ht'.symm) (h.rely hmove)
  fitting := (forall_update_iff gs fun _ x => x.Fitting).mpr
    ⟨hmove.fitting (h.fitting t), fun t' _ => h.fitting t'⟩
  apart := by
    have hoths : ∀ t', t' ≠ t → x'.Apart (gs t') :=
      fun t' ht' => hmove.apart h.wellformed (h.sound t) (h.sound t') (h.apart t t' ht'.symm)
    intro t₁ t₂ hne
    by_cases h₁ : t₁ = t
    · subst h₁
      rw [update_self, update_of_ne hne.symm]
      exact hoths t₂ hne.symm
    · rw [update_of_ne h₁]
      by_cases h₂ : t₂ = t
      · subst h₂
        rw [update_self]
        exact (hoths t₁ h₁).symm
      · rw [update_of_ne h₂]
        exact h.apart t₁ t₂ hne
  taken {s v} hv := by
    rcases hmove.withdrawn_cases hv with hold | hnew
    · exact (exists_update (·.focus = .taken s v) (h.taken hold)
        (hmove.critical_kept.1 s v)).resolve_right (absurd hv)
    · exact exists_update_self (·.focus = .taken s v) hnew
  sealing {s a v} ha hph hseal := by
    rcases hmove.sealing_cases h.wellformed (h.sound t) ha hph hseal with ⟨ha', hseal'⟩ | hnew
    · refine (exists_update (·.focus = .sealed s a v) (h.sealing ha' hph hseal')
        (hmove.critical_kept.2 s a v)).resolve_right ?_
      simp [ha]
    · exact exists_update_self (·.focus = .sealed s a v) hnew

theorem restart (hlock : (gs t).focus.lock = none) (kind : CallKind) (lenient : Bool) :
    Core u (update gs t (Ghost.start kind lenient)) where
  wellformed := h.wellformed
  logged := h.logged
  retiring := h.retiring
  sound :=
    (forall_update_iff gs fun _ x => x.Sound u).mpr ⟨.start kind lenient u, fun t' _ => h.sound t'⟩
  fitting :=
    (forall_update_iff gs fun _ x => x.Fitting).mpr ⟨.start kind lenient, fun t' _ => h.fitting t'⟩
  apart t₁ t₂ hne := by
    by_cases h₁ : t₁ = t
    · subst h₁
      rw [update_self]
      exact .start kind lenient _
    · rw [update_of_ne h₁]
      by_cases h₂ : t₂ = t
      · subst h₂
        rw [update_self]
        exact (Ghost.Apart.start kind lenient _).symm
      · rw [update_of_ne h₂]
        exact h.apart t₁ t₂ hne
  taken {s v} hv := by
    refine exists_update_of_not (·.focus = .taken s v) (h.taken hv) fun hf => ?_
    rw [hf] at hlock
    cases hlock
  sealing {s a v} ha hph hseal := by
    refine exists_update_of_not (·.focus = .sealed s a v) (h.sealing ha hph hseal) fun hf => ?_
    rw [hf] at hlock
    cases hlock

end Core

end Cakemaster.Object
