import Cakemaster.Client.CallsAlone
import Cakemaster.Client.FailedMounts

/-!
# Slots and the pool

Calls of the manager that follow one another, over a pool that only the manager changes. As
long as the segments of every remount name the caller as their owner, the slot of a client
has exactly the mounted segments that the client owns, and a client without an entry owns none.
-/

namespace Cakemaster.Client

open Machine Machine.Prog Segment ClientManager
open Object (ClientSession)

variable {A : UnitAllocator} {cfg : ClientLifecycleConfig} {m m' m'' : ClientManager A}

inductive InTurn (cfg : ClientLifecycleConfig) (ok : ManagerCall → Prop) (m : ClientManager A) :
    ClientManager A → Prop
  | refl : InTurn cfg ok m m
  | call {m' m'' : ClientManager A} (h : InTurn cfg ok m m') (hok : ok call)
      (hrun : Runs (call.code cfg) m' result m'') : InTurn cfg ok m m''

/-- The manager is at rest, and its slots agree with the pool. -/
structure Orderly (cfg : ClientLifecycleConfig) (m : ClientManager A) : Prop where
  settled : Settled cfg m
  agrees : m.ledger.Agrees

namespace Orderly

theorem new {pool : SegmentPool A} (hp : PoolInvariant pool held)
    (hemp : ∀ id, pool.mount id = none) : Orderly cfg (.new pool) where
  settled := .init pool hp .reading
  agrees := by
    constructor
    · exact fun _ => rfl
    · intro c id
      simp [ledger, ClientManager.new, Ledger.Owns, mountState, ClientMountState.default, hemp]
    · rintro c - id ⟨_, hk, -⟩
      cases (hemp id).symm.trans hk

theorem call (h : Orderly cfg m) {call : ManagerCall} (hcall : call.NamesCaller)
    (hrun : Runs (call.code cfg) m result m') : Orderly cfg m' :=
  ⟨h.settled.call hrun, (ensures_turns h.settled (t := 0) ⟨rfl, rfl, rfl, rfl⟩ hcall _ _ hrun).agrees h.agrees⟩

end Orderly

theorem InTurn.orderly (h : InTurn cfg ManagerCall.NamesCaller m m') (hm : Orderly cfg m) :
    Orderly cfg m' := by
  induction h with
  | refl => exact hm
  | call _ hok hrun ih => exact ih.call hok hrun

/-- The slot of an active client has exactly the mounted segments of that client, which are
accepting or quiesced, and a client without an entry has no mounted segment. -/
structure SlotsShowPool (m : ClientManager A) : Prop where
  active : ∀ c e, m.lifecycle.entry c = some e → e.phase = .active → ∃ r,
    m.slots.lookup c = some r ∧
    ∀ id, id ∈ (m.cells r).mountState.segments ↔ ∃ k, m.pool.mount id = some k ∧ k.owner = c
  state : ∀ id k, m.pool.mount id = some k → k.state = .accepting ∨ k.state = .quiesced
  absent : ∀ c, m.lifecycle.entry c = none → ∀ id k, m.pool.mount id = some k → k.owner ≠ c

theorem Orderly.slotsShowPool (h : Orderly cfg m) : SlotsShowPool m where
  active c e hent _ := by
    have hsess : (m.mountState c).session = some e.session := by
      have hagr := h.agrees.session c
      rw [show m.ledger.entry c = some e from hent] at hagr
      exact hagr
    cases hslot : m.slots.lookup c with
    | none =>
      rw [mountState_none hslot] at hsess
      cases hsess
    | some r =>
      refine ⟨r, rfl, fun id => ?_⟩
      rw [← mountState_some hslot]
      exact h.agrees.segments c id
  state id k hk := by
    obtain ⟨_, hp⟩ := h.settled.pool
    exact (hp.mounts.mount_spec hk).2
  absent c hent id k hk hownr := h.agrees.absent c hent id ⟨k, hk, hownr⟩

/-- Whatever calls follow one another on a manager of an empty pool. -/
theorem slots_show_pool {pool : SegmentPool A} {held : Multiset (Reservation A)}
    (hp : PoolInvariant pool held) (hempty : ∀ id, pool.mount id = none)
    (h : InTurn cfg ManagerCall.NamesCaller (.new pool) m) : SlotsShowPool m :=
  (h.orderly (.new hp hempty)).slotsShowPool

/-! ### Evaluation -/

theorem InTurn.perform {ok : ManagerCall → Prop} {call : ManagerCall} (h : InTurn cfg ok m m')
    (hok : ok call) :
    InTurn cfg ok m (perform cfg m' call) := by
  rw [Client.perform]
  cases heval : eval 0 (call.code cfg) m' with
  | none => exact h
  | some result => exact h.call hok (runs_of_eval (a := result.1) heval)

theorem InTurn.performAll {ok : ManagerCall → Prop} {calls : List ManagerCall}
    (h : InTurn cfg ok m m') (hok : ∀ call ∈ calls, ok call) :
    InTurn cfg ok m (calls.foldl (Client.perform cfg) m') := by
  induction calls generalizing m' with
  | nil => exact h
  | cons call rest ih =>
    obtain ⟨hcall, hrest⟩ := List.forall_mem_cons.mp hok
    exact ih (h.perform hcall) hrest

namespace Sample

/-- Two segments are mounted, one of them is to be unmounted gracefully, and the other is
unmounted at once. -/
def calls : List ManagerCall :=
  [.mountSegment client spec 0, .mountSegment client other 1,
    .scheduleGracefulUnmount client spec.identity.id 5, .unmountSegment client other.identity.id]

def afterCalls : ClientManager bumpAllocator :=
  calls.foldl (perform ⟨10, 4, 4⟩) initial

end Sample

open Sample

set_option maxRecDepth 20000 in
theorem slots_show_pool_after_calls : (∃ k, afterCalls.pool.mount spec.identity.id = some k ∧
    k.state = .quiesced) ∧ SlotsShowPool afterCalls := by
  have hturn : InTurn ⟨10, 4, 4⟩ ManagerCall.NamesCaller initial afterCalls :=
    .performAll .refl (by decide)
  refine ⟨?_, slots_show_pool (.empty 0 .default) (fun _ => rfl) hturn⟩
  exact ⟨⟨0, spec, .quiesced⟩, by rfl, rfl⟩

end Cakemaster.Client
