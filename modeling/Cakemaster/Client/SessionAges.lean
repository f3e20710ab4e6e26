import Cakemaster.Client.SessionInvariant

/-!
# Entries of the registry over time

Most operations keep every entry with its session; they may fence it, and nothing makes
a fenced session active again. Only the creation of a session, the rollback of one and
the end of a cleanup add or remove an entry.
-/

namespace Cakemaster.Client

open Machine Segment AList RegistryState
open Object (ClientSession)

/-- No entry comes or goes, sessions stay, and no session becomes active. -/
structure RegistryState.Ages (r r' : RegistryState) : Prop where
  absent : ∀ c, r.entries.lookup c = none → r'.entries.lookup c = none
  present : ∀ c e, r.entries.lookup c = some e → ∃ e', r'.entries.lookup c = some e' ∧
    e'.session = e.session ∧ (e'.phase = .active → e.phase = .active)

namespace RegistryState.Ages

variable {r r' r'' : RegistryState} {c : ClientId} {e e' : ClientEntry}

theorem refl : Ages r r where
  absent _ h := h
  present _ e h := ⟨e, h, rfl, id⟩

theorem of_entries (h : r'.entries = r.entries) : Ages r r' where
  absent c hc := by rw [h, hc]
  present c e hc := ⟨e, by rw [h, hc], rfl, id⟩

theorem trans (h : Ages r r') (h' : Ages r' r'') : Ages r r'' where
  absent c hc := h'.absent c (h.absent c hc)
  present c e hc := by
    obtain ⟨e₁, he₁, hsess₁, hactv₁⟩ := h.present c e hc
    obtain ⟨e₂, he₂, hsess₂, hactv₂⟩ := h'.present c e₁ he₁
    exact ⟨e₂, he₂, hsess₂.trans hsess₁, fun ha => hactv₁ (hactv₂ ha)⟩

variable (hent : r.entries.lookup c = some e)
include hent

theorem setEntry (hsess : e'.session = e.session)
    (hactv : e'.phase = .active → e.phase = .active) : Ages r (r.setEntry c e') where
  absent c' hc' := by
    have hne : c' ≠ c := by
      rintro rfl
      cases hent.symm.trans hc'
    rw [RegistryState.setEntry, lookup_insert_ne hne, hc']
  present c' k hc' := by
    by_cases hne : c' = c
    · subst hne
      cases hent.symm.trans hc'
      exact ⟨e', lookup_insert _, hsess, hactv⟩
    · exact ⟨k, by rw [RegistryState.setEntry, lookup_insert_ne hne, hc'], rfl, id⟩

theorem fenceEntry (reason : CleanupReason) : Ages r (r.fenceEntry c e reason) :=
  (@setEntry r c e (e.fence reason) hent rfl nofun).trans (of_entries rfl)

theorem claimEntry (expected : CleanupClaimState) : Ages r (r.claimEntry c e expected).2 := by
  rw [RegistryState.claimEntry]
  split
  · exact .refl
  next cleanup e' hclaim =>
  rw [ClientEntry.claimCleanup] at hclaim
  split at hclaim
  · cases hclaim
  · split at hclaim
    · cases hclaim
    · cases hclaim
      exact setEntry hent rfl (by simp)

end RegistryState.Ages

namespace RegistryState

variable {r : RegistryState}

theorem ages_activate (cfg : ClientLifecycleConfig) (c : ClientId) (now : ClientTick)
    (hcreate : ∀ session, (r.activate cfg c now).1 ≠ .ok (.activated session)) :
    r.Ages (r.activate cfg c now).2 := by
  have hactvs := activates cfg c now r
  generalize r.activate cfg c now = result at hactvs hcreate ⊢
  obtain ⟨_, _⟩ := result
  cases hactvs with
  | refuse => exact .refl
  | expire e hent => exact .fenceEntry hent _
  | refresh e hent => exact .setEntry hent rfl id
  | create => exact absurd rfl (hcreate _)

theorem ages_heartbeat (cfg : ClientLifecycleConfig) (c : ClientId) (now : ClientTick) :
    r.Ages (r.heartbeat cfg c now).2 := by
  have hbeats := beats cfg c now r
  generalize r.heartbeat cfg c now = result at hbeats ⊢
  obtain ⟨_, _⟩ := result
  cases hbeats with
  | ignore => exact .refl
  | expire e hent => exact .fenceEntry hent _
  | refresh e hent => exact .setEntry hent rfl id

theorem ages_beginDrain (session : ClientSession) (reason : CleanupReason) :
    r.Ages (r.beginDrain session reason).2 := by
  have hdrains := drains session reason r
  generalize r.beginDrain session reason = result at hdrains ⊢
  obtain ⟨_, _⟩ := result
  cases hdrains with
  | refuse => exact .refl
  | fence e hent =>
    exact (Ages.fenceEntry hent reason).trans (.setEntry (e := e.fence reason) (lookup_insert _) rfl nofun)
  | claim e old hent => exact .setEntry hent rfl nofun
  | leave => exact .refl

theorem ages_takeReady (session : ClientSession) (rest : List ClientSession) :
    r.Ages (r.takeReady session rest).2 := by
  have hrest : r.Ages { r with cleanupReady := rest } := .of_entries rfl
  rw [takeReady]
  dsimp only
  split
  · exact hrest
  next e hent =>
  split
  · exact hrest.trans (Ages.claimEntry (r := { r with cleanupReady := rest }) hent _)
  · exact hrest

theorem ages_claimReady (budget : ℕ) (cleanups : List ClientCleanup) :
    r.Ages (r.claimReady budget cleanups).2.2 := by
  induction budget generalizing r cleanups with
  | zero => exact .refl
  | succ budget ih =>
    rw [claimReady]
    split
    · exact .refl
    · exact (ages_takeReady _ _).trans (ih _)

theorem ages_takeDue (now : ClientTick) (record : DeadlineRecord) (rest : List DeadlineRecord) :
    r.Ages (r.takeDue now record rest).2 := by
  have hrest : r.Ages { r with deadlines := rest } := .of_entries rfl
  rw [takeDue]
  dsimp only
  split
  · exact hrest
  next e hent =>
  split
  · exact hrest
  · split
    · split
      · exact .of_entries rfl
      · exact (hrest.trans (Ages.fenceEntry (r := { r with deadlines := rest }) hent _)).trans
          (.claimEntry (lookup_insert _) _)
    · exact hrest.trans (Ages.claimEntry (r := { r with deadlines := rest }) hent _)
    · exact hrest

theorem ages_claimExpired (now : ClientTick) (budget : ℕ) (cleanups : List ClientCleanup) :
    r.Ages (r.claimExpired now budget cleanups).2.2 := by
  induction budget generalizing r cleanups with
  | zero => exact .refl
  | succ budget ih =>
    rw [claimExpired]
    split
    · exact .refl
    · split
      · exact .refl
      · exact (ages_takeDue _ _ _).trans (ih _)

theorem ages_claimDueCleanups (cfg : ClientLifecycleConfig) (now : ClientTick) (budget : ℕ) :
    r.Ages (r.claimDueCleanups cfg now budget).2 :=
  (ages_claimReady _ _).trans (ages_claimExpired now _ _)

theorem ages_releaseCleanup (session : ClientSession) : r.Ages (r.releaseCleanup session) := by
  have hreleases := releases session r
  generalize r.releaseCleanup session = r' at hreleases ⊢
  cases hreleases with
  | requeue e reason hent =>
    have hset : r.Ages (r.setEntry session.clientId { e with phase := .cleanupPending reason .queued }) :=
      .setEntry hent rfl nofun
    exact hset.trans (.of_entries rfl)
  | leave => exact .refl

end RegistryState

/-! ### Entries that come and go -/

namespace Lifecycle

variable {l : Lifecycle} {cfg : ClientLifecycleConfig} {c : ClientId} {now : ClientTick}
  {session : ClientSession}

theorem activate_activated (h : (l.activate cfg c now).1 = .ok (.activated session)) :
    c.isNil = false ∧ l.entry c = none ∧ session.clientId = c ∧
      session.generation = l.registry.nextGeneration ∧ ∀ c', (l.activate cfg c now).2.entry c' =
        if c' = c then some ⟨session, .active, Word.satAdd 64 now cfg.ttlTicks⟩ else l.entry c' := by
  have hnil : c.isNil = false := by
    rw [← Bool.not_eq_true]
    intro hnil
    rw [activate, RegistryState.activate, if_pos hnil] at h
    cases h
  have hactvs := activates cfg c now l.registry
  rw [activate] at h ⊢
  generalize l.registry.activate cfg c now = result at hactvs h ⊢
  obtain ⟨_, _⟩ := result
  cases hactvs with
  | refuse | expire | refresh => cases h
  | create hent =>
    cases h
    refine ⟨hnil, hent, rfl, rfl, fun c' => ?_⟩
    by_cases hc : c' = c
    · rw [if_pos hc, hc]
      exact lookup_insert _
    · rw [if_neg hc]
      exact lookup_insert_ne hc

theorem rollbackActivation_ok (h : (l.rollbackActivation session).1 = .ok ()) : l.Active session ∧
    ∀ c', (l.rollbackActivation session).2.entry c' = if c' = session.clientId then none else
    l.entry c' := by
  have hrollsBack := rollsBack session l.registry
  rw [rollbackActivation] at h ⊢
  generalize l.registry.rollbackActivation session = result at hrollsBack h ⊢
  obtain ⟨_, _⟩ := result
  cases hrollsBack with
  | refuse => cases h
  | remove e hent hsess hactv =>
    refine ⟨⟨e, hent, hsess, hactv⟩, fun c' => ?_⟩
    by_cases hc : c' = session.clientId
    · rw [if_pos hc, hc]
      exact lookup_erase _ _
    · rw [if_neg hc]
      exact lookup_erase_ne hc

theorem rollbackActivation_error (h : (l.rollbackActivation session).1 = .error err) :
    (l.rollbackActivation session).2 = l ∧ ¬l.Active session := by
  have hrollsBack := RegistryState.rollsBack session l.registry
  have hrefd : ¬l.Active session := by
    rintro ⟨e, hent, hsess, hactv⟩
    have hent' : l.registry.entries.lookup session.clientId = some e := hent
    simp [rollbackActivation, RegistryState.rollbackActivation, hent', ClientEntry.ensureSession,
      hsess, ClientEntry.isActive, hactv] at h
  refine ⟨?_, hrefd⟩
  rw [rollbackActivation] at h ⊢
  generalize l.registry.rollbackActivation session = result at hrollsBack h ⊢
  obtain ⟨_, _⟩ := result
  cases hrollsBack with
  | refuse => rfl
  | remove => cases h

end Lifecycle

theorem History.finish_ok (h : History cfg events l) (hmem : cleanup ∈ l.unfinished) :
    (l.finish cleanup).1 = .ok () ∧ (l.finish cleanup).2.unfinished = l.unfinished.erase cleanup ∧
      ∀ c', (l.finish cleanup).2.entry c' = if c' = cleanup.session.clientId then none else l.entry c' := by
  obtain ⟨_, reason, hent, hsess, hph⟩ := h.invariant.running hmem
  have hfinishes := finishes cleanup.session l.registry
  rw [Lifecycle.finish]
  generalize l.registry.finishCleanup cleanup.session = result at hfinishes ⊢
  obtain ⟨_, _⟩ := result
  cases hfinishes with
  | absent hnone => cases hnone.symm.trans hent
  | remove =>
    refine ⟨rfl, rfl, fun c' => ?_⟩
    by_cases hc : c' = cleanup.session.clientId
    · rw [if_pos hc, hc]
      exact lookup_erase _ _
    · rw [if_neg hc]
      exact lookup_erase_ne hc
  | refuse e' err hent' hstl =>
    cases hent.symm.trans hent'
    exact absurd hph (hstl hsess reason)

end Cakemaster.Client
