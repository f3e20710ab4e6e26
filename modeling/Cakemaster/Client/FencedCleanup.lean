import Cakemaster.Client.SlotAgreement

/-!
# Cleanups and later sessions

A fenced session keeps its entry until its cleanup is finished, so that no later session
can begin before. While the segments of a client are invalidated, the session of the cleanup
is the latest one of the client, and no call has segments of that client half mounted.
-/

namespace Cakemaster.Client

open Machine Segment
open Object (ClientSession)

variable {A : UnitAllocator} {cfg : ClientLifecycleConfig} {allowed : ManagerCall → Prop}

/-- A call of the cleanup of sessions. -/
def ManagerCall.isCleanup : ManagerCall → Bool
  | drainSessions .. | runCleanupStep .. => true
  | _ => false

theorem ManagerCall.role_of_isCleanup {call : ManagerCall} (h : call.isCleanup = true) :
    call.role = .cleaning := by
  cases call <;> first | rfl | cases h

/-- Cleanups are fenced by the generations of their sessions, in one step of the manager. -/
structure Fenced (c c' : ManagerConfig A allowed) : Prop where
  consistent : ∀ d ∈ c'.completed, d.result ≠ .cleaned (.error .inconsistentSlot)
  slot : ∀ cleanup ∈ c.shared.lifecycle.unfinished, ∀ r,
    c.shared.slots.lookup cleanup.session.clientId = some r →
    (c.shared.cells r).mountState.session = none ∨
    (c.shared.cells r).mountState.session = some cleanup.session
  -- a session that is not active any more keeps its entry, or its cleanup is finished
  entry : ∀ client e, c.shared.lifecycle.entry client = some e → e.phase ≠ .active →
    (∃ e', c'.shared.lifecycle.entry client = some e' ∧ e'.session = e.session ∧ e'.phase ≠ .active) ∨
      c'.shared.lifecycle.entry client = none ∧ ∃ cleanup ∈ c.shared.lifecycle.unfinished,
        cleanup.session = e.session ∧ c.shared.lifecycle.finish cleanup = (.ok (), c'.shared.lifecycle)
  -- a call invalidates segments of a client whose latest session is the one that a cleanup it has
  -- claimed is for, and no call is between attaching a segment for that client and leaving
  -- the client's slot
  invalidate : ∀ t r, System.Acts c c' t r → r.call.1.isCleanup = true → ∀ id k,
    c.shared.pool.mount id = some k → c'.shared.pool.mount id = none →
    ∃ cleanup ∈ c.shared.lifecycle.unfinished,
      (∃ p ∈ r.trace, Claims cleanup p.1 p.2) ∧ cleanup.session.clientId = k.owner ∧
      (∀ x ∈ c.shared.established, x.1.clientId = k.owner → x.1.generation ≤ cleanup.session.generation) ∧
        ∀ t' r', c.threads t' = some r' → r'.call.1.mountsFor = some k.owner → ¬Since Attaches Releases r'.trace

theorem Coherent.slot_of_unfinished {m : ClientManager A} {gs : ℕ → Ghost} (h : Coherent cfg m gs)
    {cleanup : ClientCleanup} (hmem : cleanup ∈ m.lifecycle.unfinished) {r : SlotRef}
    (hslot : m.slots.lookup cleanup.session.clientId = some r) :
    (m.cells r).mountState.session = none ∨
    (m.cells r).mountState.session = some cleanup.session := by
  obtain ⟨_, hhist, -⟩ := h.registry
  obtain ⟨_, _, he, hsess, -⟩ := hhist.invariant.running hmem
  cases hbd : (m.cells r).mountState.session with
  | none => exact .inl rfl
  | some session =>
    obtain ⟨_, he', hsess'⟩ := h.bound _ r session hslot hbd
    cases he.symm.trans he'
    exact .inr (congrArg some (hsess'.symm.trans hsess))

theorem Coherent.entry_of_fenced {m m' : ClientManager A} {gs : ℕ → Ghost} {t : ℕ} {g' : Ghost}
    (h : Coherent cfg m gs) (hmove : Move cfg m (gs t) m' g') {client : ClientId} {e : ClientEntry}
    (he : m.lifecycle.entry client = some e) (hph : e.phase ≠ .active) :
    (∃ e', m'.lifecycle.entry client = some e' ∧ e'.session = e.session ∧ e'.phase ≠ .active) ∨
      m'.lifecycle.entry client = none ∧ ∃ cleanup ∈ m.lifecycle.unfinished,
        cleanup.session = e.session ∧ m.lifecycle.finish cleanup = (.ok (), m'.lifecycle) := by
  have hturn := hmove.entryTurn (h.relies t) client
  rw [he] at hturn
  generalize m'.lifecycle.entry client = o at hturn ⊢
  cases hturn with
  | age haged =>
    obtain ⟨e', rfl, hsess, hactv⟩ := haged.2 e rfl
    exact .inl ⟨e', rfl, hsess, fun ha => hph (hactv ha)⟩
  | withdraw _ _ _ _ hactv => exact absurd hactv hph
  | finish hmem _ _ hsess hfinish =>
    exact .inr ⟨rfl, _, (h.relies t).mem_unfinished (Multiset.mem_add.mpr (.inr hmem)), hsess.symm, hfinish⟩

/-- In every step of every run the cleanups are fenced. -/
theorem cleanup_fenced {c c' : ManagerConfig A allowed}
    (h : (managerSystem A cfg allowed).Reachable c)
    (hstep : (managerSystem A cfg allowed).Step c c') : Fenced c c' := by
  obtain ⟨gs, hexplains, hmoves⟩ := preserved_true.transition h hstep
  obtain ⟨_, hexplains'⟩ := preserved_true.reachable (h.step hstep trivial)
  have hcoherent := hexplains.coherent
  refine ⟨hexplains'.consistent, fun cleanup hmem r hslot => hcoherent.slot_of_unfinished hmem hslot, ?_, ?_⟩
  · intro client e he hphase
    rcases hmoves with hsame | ⟨t, g', hmove⟩
    · exact .inl ⟨e, hsame ▸ he, rfl, hphase⟩
    · exact hcoherent.entry_of_fenced hmove he hphase
  intro t r hacts hcleanup id k hmount hmount'
  obtain ⟨gs, hexplains, g', hmove⟩ := preserved_true.acts h hstep hacts
  have hcoherent := hexplains.coherent
  have hrole : (gs t).role = .cleaning :=
    (hexplains.running t r hacts.1).role.trans (ManagerCall.role_of_isCleanup hcleanup)
  have hturn := hmove.mountTurn (hcoherent.relies t) id
  rw [hmount] at hturn
  generalize c'.shared.pool.mount id = o at hturn hmount'
  cases hturn with
  | same | reactivate => cases hmount'
  | detach _ _ _ hcause =>
    rcases hcause with ⟨hrole', -⟩ | ⟨⟨_, _, hrole'⟩, -⟩ <;> cases hrole.symm.trans hrole'
  | @invalidate cleanup _ hmem hclient =>
    have hmem' := (hcoherent.relies t).mem_unfinished (Multiset.mem_add.mpr (.inr hmem))
    obtain ⟨e, _, he, hsession, -⟩ := hcoherent.entry_of_cleared hmem
    have hclaimed := (hexplains.running t r hacts.1).claimed cleanup (Multiset.mem_add.mpr (.inr hmem))
    refine ⟨cleanup, hmem', hclaimed, hclient, fun x hx hx' => ?_, fun t' r' hr' hmounts hsince => ?_⟩
    · rw [← hsession]
      exact hcoherent.latest _ e he x hx (hx'.trans hclient.symm)
    · obtain ⟨k', _, _, hk', hengaged, hrole'⟩ := (hexplains.running t' r' hr').attached hsince
      rw [(hexplains.running t' r' hr').role] at hrole'
      have hclient' : k'.client = k.owner :=
        Option.some.inj ((ManagerCall.mountsFor_of_role hrole').symm.trans hmounts)
      exact hcoherent.fenced t cleanup hmem t' k' hk' (hclient'.trans hclient.symm) hengaged

namespace Sample

/-- A session with a segment is drained; its segments are about to be invalidated. -/
def drain : List (Turn ℕ { _call : ManagerCall // True }) :=
  .invoke 0 ⟨.remount client [spec] 0, trivial⟩ :: List.replicate 9 (.step 0) ++
    .invoke 0 ⟨.drainSessions [⟨client, 1, Nat.one_pos⟩] .serverShutdown, trivial⟩ :: List.replicate
    5 (.step 0)

end Sample

open Sample

set_option maxRecDepth 20000 in
theorem cleanup_fenced_draining :
    ((system.play start drain).shared.pool.mount ⟨0, 1⟩).isSome = true ∧
    (system.turn (system.play start drain) (.step 0)).shared.pool.mount ⟨0, 1⟩ = none ∧
    Fenced (system.play start drain) (system.turn (system.play start drain) (.step 0)) := by
  have hbefore : ((system.play start drain).shared.pool.mount ⟨0, 1⟩).isSome = true := by
    decide +kernel
  have hafter : (system.turn (system.play start drain) (.step 0)).shared.pool.mount ⟨0, 1⟩ =
      none := by decide +kernel
  refine ⟨hbefore, hafter, cleanup_fenced (System.reachable_play reachable_start drain) ?_⟩
  refine (System.turn_cases _ _ _).resolve_left fun hsame => ?_
  rw [hsame] at hafter
  simp [hafter] at hbefore

end Cakemaster.Client
