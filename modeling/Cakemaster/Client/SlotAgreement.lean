import Cakemaster.Client.ManagerRuns

/-!
# Slots and the registry

An active session is the session of its client's slot, or the call that has established it
is about to say so. What may break this is `prune_unused_slot`: it looks at the session in
one section and takes the slot off the map in another, and a session that the slot was given
in between is lost with it.
-/

namespace Cakemaster.Client

open Machine Segment Function
open Object (ClientSession)

variable {A : UnitAllocator} {cfg : ClientLifecycleConfig} {m m' : ClientManager A} {g g' : Ghost}

/-- The client whose segments a call mounts. -/
def ManagerCall.mountsFor : ManagerCall → Option ClientId
  | mountSegment clientId _ _ | remount clientId _ _ => some clientId
  | _ => none

/-- A step takes no slot off the map that has a session. -/
def PrunesUnbound (m m' : ClientManager A) : Prop :=
  ∀ c r, m.slots.lookup c = some r → (m.cells r).mountState.session ≠ none →
    m'.slots.lookup c = some r

instance : DecidableRel (PrunesUnbound (A := A)) := fun m m' =>
  decidable_of_iff (∀ x ∈ m.slots.entries, (m.cells x.2).mountState.session ≠ none →
      m'.slots.lookup x.1 = some x.2) <| by
    refine ⟨fun h c r hr => h ⟨c, r⟩ (AList.mem_lookup_iff.mp hr),
      fun h x hx => h x.1 x.2 (AList.mem_lookup_iff.mpr hx)⟩

def ClientManager.BoundTo (m : ClientManager A) (session : ClientSession) : Prop :=
  ∃ r, m.slots.lookup session.clientId = some r ∧ (m.cells r).mountState.session = some session

theorem ManagerCall.mountsFor_of_role {call : ManagerCall}
    (h : call.role = .mounting c request early) : call.mountsFor = some c := by
  cases call <;> cases h <;> rfl

/-- An active session is known to its slot or to the call that has established it. -/
def Agreed (m : ClientManager A) (gs : ℕ → Ghost) : Prop :=
  ∀ session, m.lifecycle.Active session → m.BoundTo session ∨ ∃ t k ready, (gs t).held = some k ∧
    k.client = session.clientId ∧ k.phase = .established session ready

/-- A bound slot stays bound as long as its session is active. -/
theorem Coherent.boundTo_step (h : Coherent cfg m gs) (hmove : Move cfg m (gs t) m' g')
    (hok : PrunesUnbound m m') (hactv : m.lifecycle.Active session)
    (hbd : m.BoundTo session) : m'.BoundTo session := by
  obtain ⟨r, hslot, hsess⟩ := hbd
  refine ⟨r, hok _ r hslot (by simp [hsess]), ?_⟩
  have hturn := hmove.stateTurn r
  generalize hst : (m.cells r).mountState = state at hturn hsess
  generalize (m'.cells r).mountState = state' at hturn ⊢
  cases hturn with
  | same => exact hsess
  | make _ hnew => exact absurd (h.table.old _ r hslot) (hnew ▸ lt_irrefl _)
  | @unlock k _ _ hheld hk hlv =>
    subst hk
    have hfnd := (h.sound t k hheld).state
    rcases hlv with ⟨rfl, -⟩ | ⟨_, hsess', hph | hsame⟩
    · rw [← hfnd, hst, hsess]
    · rw [← hst, hfnd, ((h.sound t k hheld).established _ _ hph).1] at hsess
      cases hsess
    · rw [← hst, hfnd, hsame] at hsess
      rw [hsess', ← hsess]
  | @clear cleanup _ hmem _ hsame =>
    cases hsess.symm.trans hsame
    obtain ⟨_, hhist, -⟩ := h.registry
    obtain ⟨_, _, he, -, hph⟩ :=
      hhist.invariant.running ((h.relies t).mem_unfinished (Multiset.mem_add.mpr (.inl hmem)))
    obtain ⟨_, he', -, hph'⟩ := hactv
    cases he.symm.trans he'
    cases hph.symm.trans hph'

/-- The call that has established a session keeps it, makes it ready, or hands it over to the
slot; or the session is active no more. -/
theorem Move.established_next (h : Move cfg m g m' g') (hloc : Local cfg m g)
    (hheld : g.held = some k) (hcl : k.client = session.clientId)
    (hph : k.phase = .established session ready) (hactv : m'.lifecycle.Active session) :
    ready ∧ m'.BoundTo session ∨ ∃ k', g'.held = some k' ∧ k'.client = k.client ∧
      (k'.phase = .established session ready ∨ k'.phase = .established session true ∧
        ∃ request early, g.role = .mounting k.client request early ∧ k'.Covers request []) := by
  obtain ⟨huses, hsnd⟩ := hloc.held k hheld
  cases h with
  | establish hheld' hph' | absent hheld' hph' =>
    cases hheld.symm.trans hheld'
    cases hph.symm.trans hph'
  | withdraw hheld' hph' hres =>
    cases hheld.symm.trans hheld'
    cases hph.symm.trans hph'
    obtain ⟨_, he, -⟩ := hactv
    rw [(Lifecycle.rollbackActivation_ok hres).2, if_pos rfl] at he
    cases he
  | lapse hheld' hph' hlost =>
    cases hheld.symm.trans hheld'
    cases hph.symm.trans hph'
    exact absurd hactv hlost
  | lock _ hnone | prune _ hnone | release _ hnone => cases hnone.symm.trans hheld
  | unlock state hheld' hlv =>
    cases hheld.symm.trans hheld'
    rcases hlv with ⟨-, hno⟩ | ⟨_, hsess', hph' | hst⟩
    · exact absurd hph (hno session ready)
    · cases hph.symm.trans hph'
      refine .inl ⟨rfl, k.slot, hcl ▸ (hloc.uses _ _ huses).1, ?_⟩
      rw [ClientManager.unlockMountState, ClientManager.cells_modifyCell, if_pos rfl, hsess']
    · cases (hsnd.established session ready hph).1.symm.trans hst
  | attach hheld' | see hheld' | detach _ hheld' =>
    cases hheld.symm.trans hheld'
    exact .inr ⟨_, rfl, rfl, .inl hph⟩
  | reactivate _ hheld' _ _ _ hph' =>
    cases hheld.symm.trans hheld'
    rcases hph' with ⟨rfl, -⟩ | ⟨_, request, early, herly, rfl, hrole, hcov⟩
    · exact .inr ⟨_, rfl, rfl, .inl hph⟩
    · cases hph.symm.trans herly
      exact .inr ⟨_, rfl, rfl, .inr ⟨rfl, request, early, hrole, hcov.reactivated⟩⟩
  | _ => exact .inr ⟨k, hheld, rfl, .inl hph⟩

theorem preserved_agreed {allowed : ManagerCall → Prop} :
    Preserved (A := A) cfg allowed PrunesUnbound Agreed where
  init := by
    rintro _ _ _ session ⟨e, he, -⟩
    cases he
  restart := by
    intro m gs t role _ hinv hdone _ session hactv
    refine (hinv session hactv).imp_right ?_
    rintro ⟨t', k, ready, hheld, hrest⟩
    refine ⟨t', k, ready, ?_, hrest⟩
    rw [update_of_ne, hheld]
    rintro rfl
    cases hdone.held.symm.trans hheld
  step := by
    intro m m' gs g' t hcoh hinv hmove hok session hactv'
    -- a session that was active before
    have hold : m.lifecycle.Active session → m'.BoundTo session ∨ ∃ t' k ready,
        (update gs t g' t').held = some k ∧ k.client = session.clientId ∧
          k.phase = .established session ready := by
      intro hactv
      rcases hinv session hactv with hbd | ⟨t', k, ready, hheld, hcl, hph⟩
      · exact .inl (hcoh.boundTo_step hmove hok hactv hbd)
      · by_cases ht : t' = t
        · subst ht
          rcases hmove.established_next (hcoh.relies t') hheld hcl hph hactv' with
            ⟨-, hbd⟩ | ⟨k', hheld', hcl', hph' | ⟨hph', -⟩⟩
          · exact .inl hbd
          all_goals exact .inr ⟨t', k', _, by rwa [update_self], hcl'.trans hcl, hph'⟩
        · exact .inr ⟨t', k, ready, by rwa [update_of_ne ht], hcl, hph⟩
    obtain ⟨e', he', hsess, hph⟩ := hactv'
    rcases hmove.established_cases (hcoh.relies t) with ⟨-, hback⟩ | ⟨k, _, _, early, hest⟩
    · obtain ⟨e, he, hsess', hph'⟩ := hback _ e' he'
      exact hold ⟨e, he, hsess'.symm.trans hsess, hph' hph⟩
    · obtain ⟨e, hsess', -, hents⟩ := hest.entry
      rw [hents] at he'
      split at he'
      next hcl =>
        cases he'
        cases hsess.symm.trans hsess'
        refine .inr ⟨t, { k with phase := .established session !early }, _, ?_, hcl.symm, rfl⟩
        rw [update_self, hest.held']
      · exact hold ⟨e', he', hsess, hph⟩

/-- In every run in which no slot with a session is taken off the map, an active session is the
session of its client's slot whenever no call mounts segments for that client. -/
theorem slot_agrees {allowed : ManagerCall → Prop} {c : ManagerConfig A allowed}
    (h : (managerSystem A cfg allowed).ReachableVia PrunesUnbound c) {session : ClientSession}
    (hactive : c.shared.lifecycle.Active session)
    (hquiet : ∀ t r, c.threads t = some r → r.call.1.mountsFor ≠ some session.clientId) :
    c.shared.BoundTo session := by
  obtain ⟨_, hexplains⟩ := preserved_agreed.reachable h
  rcases hexplains.inv session hactive with hbound | ⟨t, k, ready, hheld, hclient, hphase⟩
  · exact hbound
  · cases hthread : c.threads t with
    | none =>
      rw [hexplains.idle t hthread] at hheld
      cases hheld
    | some r =>
      have htracked := hexplains.running t r hthread
      obtain ⟨_, _, hrole, -⟩ := htracked.established k session ready hheld hphase
      rw [htracked.role] at hrole
      exact absurd (hclient ▸ ManagerCall.mountsFor_of_role hrole) (hquiet t r hthread)

namespace Sample

/-- A segment without a name, which no pool attaches. -/
def unnamed : SegmentSpec := ⟨⟨⟨0, 1⟩, client, "", "host"⟩, ⟨4096, 1024⟩, ⟨.tcp, "endpoint"⟩⟩

/-- Thread 0 fails to mount a segment and sees that the slot has no session. Thread 1 gives it
one before thread 0 goes on to prune the slot. -/
def race : List (Turn ℕ { _call : ManagerCall // True }) :=
  .invoke 0 ⟨.mountSegment client unnamed 0, trivial⟩ :: List.replicate 6 (.step 0) ++
    .invoke 1 ⟨.remount client [] 0, trivial⟩ :: List.replicate 8 (.step 1) ++ List.replicate
    3 (.step 0)

def turns : List (Turn ℕ { _call : ManagerCall // True }) :=
  .invoke 0 ⟨.mountSegment client unnamed 0, trivial⟩ :: List.replicate 9 (.step 0) ++
    .invoke 0 ⟨.remount client [] 0, trivial⟩ :: List.replicate 8 (.step 0)

end Sample

open Sample

set_option maxRecDepth 20000 in
theorem slot_agrees_in_turn :
    (system.play start turns).shared.BoundTo ⟨client, 1, Nat.one_pos⟩ := by
  refine slot_agrees (System.reachableVia_play reachable_start turns (by decide +kernel))
    ⟨⟨_, .active, 10⟩, by decide +kernel, rfl, rfl⟩ ?_
  intro t r hr
  have hnone : (system.play start turns).threads t = none := by
    match t with
    | 0 => decide +kernel
    | t + 1 =>
      refine (System.threads_play ?_).trans rfl
      have hturns : ∀ a ∈ turns, a.thread = 0 := by decide +kernel
      intro a ha
      simp [hturns a ha]
  cases hnone.symm.trans hr

set_option maxRecDepth 20000 in
/-- The registry has an active session, the map has no slot for it, and no call is running. -/
theorem slot_lost : ∃ c, system.Reachable c ∧ (∀ t, c.threads t = none) ∧
    ∃ session, c.shared.lifecycle.Active session ∧
    c.shared.slots.lookup session.clientId = none := by
  refine ⟨_, System.reachable_play reachable_start race, fun t => ?_, ⟨client, 1, Nat.one_pos⟩,
    ⟨⟨_, .active, 10⟩, ?_, rfl, rfl⟩, ?_⟩
  · match t with
    | 0 => decide +kernel
    | 1 => decide +kernel
    | t + 2 =>
      refine (System.threads_play ?_).trans rfl
      have hturns : ∀ a ∈ race, a.thread < 2 := by decide +kernel
      intro a ha
      have hlt := hturns a ha
      omega
  · decide +kernel
  · decide +kernel

end Cakemaster.Client
