import Cakemaster.Client.SessionInvariant

/-!
# Cleanup work is neither lost nor duplicated

In every history of a registry, whatever becomes of its cleanups, the work for a fenced
session is in one place: in the hands of one cleanup, in the queue of work to be
retried, or behind a deadline record.
-/

namespace Cakemaster.Client

open Machine Segment Lifecycle Multiset
open Object (ClientSession)

namespace Lifecycle

/-- The cleanup of the entry runs, and one `ClientCleanup` is in existence for it. -/
def CleanupRuns (s : Lifecycle) (e : ClientEntry) : Prop :=
  (∃ reason, e.phase = .cleanupPending reason .running) ∧
    s.unfinished.countP (·.session = e.session) = 1

/-- The cleanup of the entry is queued, once. -/
def CleanupQueued (s : Lifecycle) (e : ClientEntry) : Prop :=
  (∃ reason, e.phase = .cleanupPending reason .queued) ∧ s.registry.cleanupReady.count e.session = 1

/-- The entry has expired by heartbeat, and a deadline record leads to it. -/
def CleanupDue (s : Lifecycle) (e : ClientEntry) : Prop :=
  e.phase = .cleanupPending .heartbeatExpired .ready ∧ ∃ record ∈ s.registry.deadlines,
    record.clientId = e.session.clientId ∧ record.generation = e.session.generation

end Lifecycle

def ExactlyOne (p q r : Prop) : Prop := p ∧ ¬q ∧ ¬r ∨ ¬p ∧ q ∧ ¬r ∨ ¬p ∧ ¬q ∧ r

/-- The cleanup work of a registry after a run with the given events. -/
structure CleanupsOwned (cfg : ClientLifecycleConfig) (events : List RegistryEvent)
    (s : Lifecycle) : Prop where
  situation : ∀ c e, s.entry c = some e → e.phase ≠ .active →
    ExactlyOne (s.CleanupRuns e) (s.CleanupQueued e) (s.CleanupDue e)
  -- there is no cleanup and no place in the queue for anything else
  unfinished : ∀ cleanup ∈ s.unfinished, ∃ e reason, s.entry cleanup.session.clientId = some e ∧
    e.session = cleanup.session ∧ e.phase = .cleanupPending reason .running
  queued : ∀ session ∈ s.registry.cleanupReady, ∃ e reason, s.entry session.clientId = some e ∧
    e.session = session ∧ e.phase = .cleanupPending reason .queued
  generations : (events.filterMap (·.handedOut)).Pairwise (· < ·)
  bounded : s.registry.len ≤ cfg.maxClients
  stale : ∀ (cleanup : ClientCleanup) c e, s.entry c = some e → e.session ≠ cleanup.session →
    (s.finish cleanup).2.entry c = some e ∧ (s.drop cleanup).entry c = some e

section Sound

variable {cfg : ClientLifecycleConfig} {refreshes : ClientSession → List ClientTick} {s : Lifecycle}
  {c : ClientId} {e : ClientEntry} {reason : CleanupReason}

variable (h : (s.view c).Sound cfg c s.registry.nextGeneration refreshes)
  (hent : s.entry c = some e)
include h hent

theorem cleanupRuns_of_sound (hph : e.phase = .cleanupPending reason .running) :
    s.CleanupRuns e := by
  have hcl := h.owner e hent
  have hview : (s.view c).unfinished = {⟨e.session, reason⟩} := by
    rw [h.unfinished, show (s.view c).entry = some e from hent]
    simp [ClientEntry.cleanups, hph]
  have hcnt : (s.view c).unfinished.countP (·.session = e.session) = s.unfinished.countP
      (·.session = e.session) := by
    simp only [view, RegistryState.view, countP_filter, coe_countP]
    refine List.countP_congr fun cleanup _ => ?_
    rw [decide_eq_true_iff, decide_eq_true_iff]
    exact ⟨And.left, fun hsess => ⟨hsess, hsess ▸ hcl⟩⟩
  refine ⟨⟨reason, hph⟩, ?_⟩
  rw [← hcnt, hview]
  exact countP_cons_of_pos (p := fun cleanup : ClientCleanup => cleanup.session = e.session) 0 rfl

theorem cleanupQueued_of_sound (hph : e.phase = .cleanupPending reason .queued) :
    s.CleanupQueued e := by
  have hview : (s.view c).ready = {e.session} := by
    rw [h.ready, show (s.view c).entry = some e from hent]
    simp [ClientEntry.queued, hph]
  have hcnt : (s.view c).ready.count e.session = s.registry.cleanupReady.count e.session := by
    simp [view, RegistryState.view, h.owner e hent]
  refine ⟨⟨reason, hph⟩, ?_⟩
  rw [← hcnt, hview]
  simp

theorem cleanupDue_of_sound (hph : e.phase = .cleanupPending reason .ready) : s.CleanupDue e := by
  obtain ⟨rfl, record, hmem, hgen⟩ := h.expired e reason hent hph
  obtain ⟨hmem, hcl⟩ := mem_records_view.mp hmem
  exact ⟨hph, record, hmem, hcl.trans (h.owner e hent).symm, hgen⟩

end Sound

/-- A cleanup that is finished or dropped leaves the entries of other sessions alone. -/
theorem entry_drop {s : Lifecycle} {e : ClientEntry} (cleanup : ClientCleanup)
    (hent : s.entry c = some e) (hsess : e.session ≠ cleanup.session) :
    (s.drop cleanup).entry c = some e := by
  have h := s.registry.releases cleanup.session
  unfold drop
  generalize s.registry.releaseCleanup cleanup.session = r at h
  cases h with
  | requeue e' reason hent' hsess' =>
    have hc : c ≠ cleanup.session.clientId := by
      rintro rfl
      cases hent.symm.trans hent'
      exact hsess hsess'
    exact (AList.lookup_insert_ne hc).trans hent
  | leave => exact hent

theorem entry_finish {s : Lifecycle} {e : ClientEntry} (cleanup : ClientCleanup)
    (hent : s.entry c = some e) (hsess : e.session ≠ cleanup.session) :
    (s.finish cleanup).2.entry c = some e := by
  have h := s.registry.finishes cleanup.session
  unfold finish
  generalize s.registry.finishCleanup cleanup.session = finished at h
  obtain ⟨_, _⟩ := finished
  dsimp only at h
  cases h with
  | absent => exact hent
  | remove e' reason hent' hsess' =>
    have hc : c ≠ cleanup.session.clientId := by
      rintro rfl
      cases hent.symm.trans hent'
      exact hsess hsess'
    exact (AList.lookup_erase_ne hc).trans hent
  | refuse => exact entry_drop cleanup hent hsess

/-- Cleanup work is in one place, in every history. -/
theorem cleanups_owned {cfg : ClientLifecycleConfig} {events : List RegistryEvent} {s : Lifecycle}
    (h : History cfg events s) : CleanupsOwned cfg events s := by
  have hinv := h.invariant
  refine ⟨fun c e hentry hphase => ?_, fun cleanup hmem => ?_, fun session hmem => ?_,
    hinv.increasing, hinv.bounded, fun cleanup c e hentry hsession =>
    ⟨entry_finish cleanup hentry hsession, entry_drop cleanup hentry hsession⟩⟩
  · cases hclaim : e.phase with
    | active => exact absurd hclaim hphase
    | cleanupPending reason claim =>
      cases claim with
      | running =>
        exact .inl ⟨cleanupRuns_of_sound (hinv.clients c) hentry hclaim,
          by simp [Lifecycle.CleanupQueued, hclaim], by simp [Lifecycle.CleanupDue, hclaim]⟩
      | queued =>
        exact .inr (.inl ⟨by simp [Lifecycle.CleanupRuns, hclaim],
          cleanupQueued_of_sound (hinv.clients c) hentry hclaim, by simp [Lifecycle.CleanupDue, hclaim]⟩)
      | ready =>
        exact .inr (.inr ⟨by simp [Lifecycle.CleanupRuns, hclaim], by simp [Lifecycle.CleanupQueued, hclaim],
          cleanupDue_of_sound (hinv.clients c) hentry hclaim⟩)
  · exact hinv.running hmem
  have hview := Lifecycle.mem_ready_view.mpr ⟨hmem, rfl⟩
  rw [(hinv.clients _).ready] at hview
  cases hentry : (s.view session.clientId).entry with
  | none => simp [hentry] at hview
  | some e =>
    rw [hentry, Option.map_some, Option.getD_some, ClientEntry.queued] at hview
    split at hview
    next reason hphase =>
      rw [mem_singleton] at hview
      exact ⟨e, reason, hentry, hview.symm, hphase⟩
    · exact absurd hview (notMem_zero _)

/-- A session expires, its cleanup is claimed and dropped, and waits to be claimed again. -/
theorem cleanups_owned_retried : ∃ events s, History ⟨5, 1, 4⟩ events s ∧
    s.registry.cleanupReady = [⟨⟨0, 1⟩, 1, Nat.one_pos⟩] ∧ s.unfinished = [] ∧
    CleanupsOwned ⟨5, 1, 4⟩ events s := by
  have hclaimed : History ⟨5, 1, 4⟩ _ _ :=
    .step (.step .new (.activate ⟨0, 1⟩ 0)) (.claimDueCleanups 10 4)
  have hdropped :=
    hclaimed.step (.drop ⟨⟨⟨0, 1⟩, 1, Nat.one_pos⟩, .heartbeatExpired⟩ (by decide +kernel))
  exact ⟨_, _, hdropped, by decide +kernel, by decide +kernel, cleanups_owned hdropped⟩

end Cakemaster.Client
