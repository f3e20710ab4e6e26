import Cakemaster.Client.MountsAlone

/-!
# Failed mounting

A call of `mount_segment` or `remount` that fails and runs alone leaves nothing behind. It may
be made in any configuration that an interleaving of calls reaches; the segments that it is
given belong to the caller.
-/

namespace Cakemaster.Client

open Machine Machine.Prog Segment ClientManager
open Object (ClientSession)

variable {A : UnitAllocator} {cfg : ClientLifecycleConfig} {m m' : ClientManager A} {c : ClientId}
  {now : ClientTick} {specs : List SegmentSpec}

/-- The segments that a call is to mount for a client. -/
inductive ManagerCall.Requests : ManagerCall → ClientId → List SegmentSpec → ClientTick → Prop
  | mountSegment (c : ClientId) (spec : SegmentSpec) (now : ClientTick) :
      Requests (.mountSegment c spec now) c [spec] now
  | remount (c : ClientId) (specs : List SegmentSpec) (now : ClientTick) :
      Requests (.remount c specs now) c specs now

/-- The mounted segments with their specifications and states, the mount states of the clients
and the sessions are as before, but for a session of the client that was overdue. -/
structure Untouched (c : ClientId) (now : ClientTick) (m m' : ClientManager A) : Prop where
  mount : m'.pool.mount = m.pool.mount
  mountState : m'.mountState = m.mountState
  sessions : m'.lifecycle = m.lifecycle ∨ ∃ e, m.lifecycle.entry c = some e ∧ e.phase = .active ∧
    e.expiresAt ≤ now ∧ m'.lifecycle =
    { m.lifecycle with registry := m.lifecycle.registry.fenceEntry c e .heartbeatExpired }

theorem MountsAlone.untouched (h : MountsAlone cfg c now specs false m (.error err) m') :
    Untouched c now m m' := by
  obtain ⟨state, hmtg, hview⟩ := h.mounting
  have hmtg' : state = m.mountState c ∧ m'.pool.mount = m.pool.mount ∧ (m'.lifecycle = m.lifecycle ∨
      ∃ e, m.lifecycle.entry c = some e ∧ e.phase = .active ∧ e.expiresAt ≤ now ∧
        m'.lifecycle =
        { m.lifecycle with registry := m.lifecycle.registry.fenceEntry c e .heartbeatExpired }) := by
    generalize m'.pool.mount = mount at hmtg ⊢
    generalize m'.lifecycle = lifecycle at hmtg ⊢
    cases hmtg with
    | refuse _ _ hrev => exact ⟨rfl, hrev, .inl rfl⟩
    | expire _ e hent hactv hdue => exact ⟨rfl, rfl, .inr ⟨e, hent, hactv, hdue, rfl⟩⟩
  obtain ⟨rfl, hmt, hlif⟩ := hmtg'
  exact ⟨hmt, hview.trans (Function.update_eq_self ..), hlif⟩

/-- What a request to mount segments of the caller leaves behind. -/
theorem Coherent.requests {gs : ℕ → Ghost} (h : Coherent cfg m gs) {call : ManagerCall}
    (hcall : call.Requests c specs now) (howrs : ∀ spec ∈ specs, spec.identity.owner = c) :
    Ensures (call.code cfg) m fun result m' => ∃ answer, result = .mounted answer ∧
      MountsAlone cfg c now specs false m answer m' := by
  cases hcall with
  | mountSegment _ spec =>
    exact (ensures_mountSegment h spec).seq fun answer m' hmnts => .ret ⟨answer, rfl, hmnts.1⟩
  | remount =>
    refine (ensures_remount h).seq fun answer m' hmnts => .ret ⟨answer, rfl, ?_⟩
    rwa [strands_owned howrs] at hmnts

theorem failed_mount_atomic {allowed : ManagerCall → Prop} {k : ManagerConfig A allowed}
    (hreach : (managerSystem A cfg allowed).Reachable k) {call : ManagerCall}
    (hcall : call.Requests c specs now) (howners : ∀ spec ∈ specs, spec.identity.owner = c)
    {err : ClientManagerError} (hrun : Runs (call.code cfg) k.shared (.mounted (.error err)) m') :
    Untouched c now k.shared m' := by
  obtain ⟨_, hexplains⟩ := preserved_true.reachable hreach
  obtain ⟨_, hanswer, hmounts⟩ := hexplains.coherent.requests hcall howners _ _ hrun
  cases hanswer
  exact hmounts.untouched

namespace Sample

/-- A segment of the client beside the first one. -/
def other : SegmentSpec := ⟨⟨⟨0, 2⟩, client, "other", "host"⟩, ⟨8192, 1024⟩, ⟨.tcp, "endpoint"⟩⟩

def conflicting : SegmentSpec :=
  ⟨⟨⟨0, 1⟩, client, "conflicting", "host"⟩, ⟨16384, 1024⟩, ⟨.tcp, "endpoint"⟩⟩

/-- Two segments, the first of them twice, and one that is refused. -/
def request : List SegmentSpec := [spec, other, spec, conflicting]

def refused : Option (ManagerResult × ClientManager bumpAllocator) :=
  Prog.eval 0 ((ManagerCall.remount client request 0).code ⟨10, 4, 4⟩) initial

end Sample

open Sample

set_option maxRecDepth 20000 in
theorem failed_mount_atomic_refused :
    ∃ m', Runs ((ManagerCall.remount client request 0).code ⟨10, 4, 4⟩) initial
      (.mounted (.error (.attach (.conflictingSegmentId ⟨0, 1⟩)))) m' ∧
      Untouched client 0 initial m' := by
  have hanswer : refused.map Prod.fst =
      some (.mounted (.error (.attach (.conflictingSegmentId ⟨0, 1⟩)))) := by rfl
  obtain ⟨⟨_, m'⟩, hrefused, rfl⟩ := Option.map_eq_some_iff.mp hanswer
  have hrun := runs_of_eval hrefused
  exact ⟨m', hrun, failed_mount_atomic reachable_initial (.remount _ _ _) (by decide) hrun⟩

end Cakemaster.Client
