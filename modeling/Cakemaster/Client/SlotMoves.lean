import Cakemaster.Client.Manager
import Cakemaster.Client.SessionAges

/-!
# Moves of the client manager

What a running call of the manager has in hand, as a ghost value: references to slots,
the slot it has locked with what it knows under that lock, and the cleanups it has
claimed. `Move` lists everything that an action may do to the manager and to this value.
The facts that a thread knows of the manager hold whenever it is its turn (`Local`); the
actions of a call are moves in states of this kind.
-/

namespace Cakemaster.Client

open Machine Machine.Prog Segment Function Prog
open Object (ClientSession)

variable {A : UnitAllocator}

/-- What a call is to the others. -/
inductive Role
  | reading
  -- an early session is established before its segments are reactivated
  | mounting (client : ClientId) (request : List SegmentSpec) (early : Bool)
  | unmounting
  | cleaning
deriving DecidableEq

def ManagerCall.role : ManagerCall → Role
  | mountSegment clientId spec _ => .mounting clientId [spec] true
  | remount clientId segments _ => .mounting clientId segments false
  | unmountSegment .. | scheduleGracefulUnmount .. | runGracefulUnmountStep .. => .unmounting
  | drainSessions .. | runCleanupStep .. => .cleaning
  | heartbeat .. | writeOwner .. | writeAdmission .. | nextGracefulUnmountDeadline => .reading

/-- How far an operation under the lock of a mount state has come. -/
inductive Phase
  | entered
  -- the registry has no entry of the client
  | absent
  -- there is a new session of which the slot does not know yet; it may be ready for use
  | established (session : ClientSession) (ready : Bool)
  -- the new session was fenced before it could be taken back
  | lapsed
deriving DecidableEq

/-- A locked slot. -/
structure Held where
  client : ClientId
  slot : SlotRef
  state : ClientMountState
  phase : Phase
  -- segments that were found or attached, those of them that accept, and the new ones
  mounted : List (SegmentSpec × EntryRef)
  accepting : List (SegmentSpec × EntryRef)
  fresh : List SegmentId

namespace Held

def enter (client : ClientId) (slot : SlotRef) (state : ClientMountState) : Held :=
  ⟨client, slot, state, .entered, [], [], []⟩

/-- The operation may change the segments of its client. -/
def Engaged (h : Held) : Prop := h.phase ≠ .entered ∨ h.state.session ≠ none

/-- The mount state that may be left behind: the one that was found, or one of a session
that the client has. -/
def MayLeave (h : Held) (state : ClientMountState) : Prop :=
  state = h.state ∧ (∀ session ready, h.phase ≠ .established session ready) ∨
    ∃ session, state.session = some session ∧
    (h.phase = .established session true ∨ h.state.session = some session)

/-- The client's segments among the given ones are known to be mounted, and to accept where
their ids are not listed. -/
def Covers (h : Held) (specs : List SegmentSpec) (ids : List SegmentId) : Prop :=
  ∀ spec ∈ specs, spec.identity.owner = h.client →
    ∃ ref, (spec, ref) ∈ h.mounted ∧ (spec.identity.id ∈ ids ∨ (spec, ref) ∈ h.accepting)

/-- A segment that the operation may take away. -/
def MayDetach (h : Held) (role : Role) (id : SegmentId) : Prop :=
  role = .unmounting ∧ h.phase = .entered ∨
    (∃ request early, role = .mounting h.client request early) ∧
      (h.phase = .absent ∨ h.phase = .lapsed ∨ h.phase = .entered ∧ id ∈ h.fresh)

/-- What the holder of the lock knows. -/
structure Sound (m : ClientManager A) (h : Held) : Prop where
  locked : (m.cells h.slot).locked = true
  state : (m.cells h.slot).mountState = h.state
  absent : h.phase = .absent → m.lifecycle.entry h.client = none
  established : ∀ session ready, h.phase = .established session ready → h.state.session = none ∧
    ∃ e, m.lifecycle.entry h.client = some e ∧ e.session = session
  lapsed : h.phase = .lapsed → h.state.session = none ∧
    ∃ e, m.lifecycle.entry h.client = some e ∧ e.phase ≠ .active
  engaged : h.mounted ≠ [] → h.Engaged
  mounted : ∀ x ∈ h.mounted, x.1.identity.owner = h.client → ∃ k, m.pool.mount x.1.identity.id =
    some k ∧ k.spec = x.1 ∧ k.entry = x.2 ∧ (x ∈ h.accepting → k.state = .accepting)
  accepting : h.accepting ⊆ h.mounted

end Held

structure Ghost where
  role : Role
  references : Multiset SlotRef
  -- the slots of the map that the call works with
  uses : ClientId → Option SlotRef
  held : Option Held
  -- cleanups whose slots are still to be cleared, and those whose slots are
  claims : Multiset ClientCleanup
  cleared : Multiset ClientCleanup

namespace Ghost

def start (role : Role) : Ghost := ⟨role, 0, fun _ => none, none, 0, 0⟩

def take (c : ClientId) (r : SlotRef) (g : Ghost) : Ghost :=
  { g with
    references := r ::ₘ g.references
    uses := update g.uses c (some r) }

@[simp] theorem uses_take (c : ClientId) (r : SlotRef) (g : Ghost) : (g.take c r).uses c = some r :=
  update_self ..

def forget (r : SlotRef) (g : Ghost) : Ghost :=
  { g with
    references := g.references.erase r
    uses := fun c => if g.uses c = some r then none else g.uses c }

def clear (cleanup : ClientCleanup) (g : Ghost) : Ghost :=
  { g with
    claims := g.claims.erase cleanup
    cleared := cleanup ::ₘ g.cleared }

/-- The call has put down everything. -/
structure Done (g : Ghost) : Prop where
  references : g.references = 0
  held : g.held = none
  claims : g.claims = 0
  cleared : g.cleared = 0

end Ghost

/-- What a thread may rely on when it is its turn. -/
structure Local (cfg : ClientLifecycleConfig) (m : ClientManager A) (g : Ghost) : Prop where
  registry : ∃ events, History cfg events m.lifecycle
  pool : ∃ leases, PoolInvariant m.pool leases
  bound : ∀ c r session, m.slots.lookup c = some r → (m.cells r).mountState.session = some session →
    ∃ e, m.lifecycle.entry c = some e ∧ e.session = session
  uses : ∀ c r, g.uses c = some r → m.slots.lookup c = some r ∧ r ∈ g.references
  held : ∀ h, g.held = some h → g.uses h.client = some h.slot ∧ h.Sound m
  claims : g.claims + g.cleared ≤ (m.lifecycle.unfinished : Multiset ClientCleanup)
  cleared : ∀ x ∈ g.cleared, ∀ r, m.slots.lookup x.session.clientId = some r →
    (m.cells r).mountState.session = none

def KeepsPool (pool pool' : SegmentPool A) : Prop :=
  ∀ leases, PoolInvariant pool leases → PoolInvariant pool' leases

inductive Move (cfg : ClientLifecycleConfig) (m : ClientManager A) :
    Ghost → ClientManager A → Ghost → Prop
  | look {g : Ghost} : Move cfg m g m g
  | queue {g : Ghost} (queue : GracefulUnmountQueue) (locked : Bool) :
      Move cfg m g { m with gracefulUnmounts := queue, gracefulLocked := locked } g
  -- the registry
  | registry {g : Ghost} (new : List ClientCleanup) (hstep : Performs cfg m.lifecycle event lifecycle)
      (hages : m.lifecycle.registry.Ages lifecycle.registry)
      (hnew : lifecycle.unfinished = m.lifecycle.unfinished ++ new) :
      Move cfg m g { m with lifecycle } { g with claims := g.claims + new }
  | dropClaim {g : Ghost} (cleanup : ClientCleanup) (hmem : cleanup ∈ g.claims) :
      Move cfg m g { m with lifecycle := m.lifecycle.drop cleanup } { g with claims := g.claims.erase cleanup }
  | finish {g : Ghost} (cleanup : ClientCleanup) (hmem : cleanup ∈ g.cleared)
      (hrole : g.role = .cleaning) :
      Move cfg m g { m with lifecycle := (m.lifecycle.finish cleanup).2 }
      { g with cleared := g.cleared.erase cleanup }
  | establish {g : Ghost} (hheld : g.held = some h) (hph : h.phase = .absent)
      (hrole : g.role = .mounting h.client request early)
      (hres : (m.lifecycle.activate cfg h.client now).1 = .ok (.activated session))
      (hrdy : early = false → h.Covers request []) :
      Move cfg m g { m with
          lifecycle := (m.lifecycle.activate cfg h.client now).2
          established := m.established ++ [(session, request)] }
        { g with held := some { h with phase := .established session !early } }
  | withdraw {g : Ghost} (hheld : g.held = some h) (hph : h.phase = .established session ready)
      (hres : (m.lifecycle.rollbackActivation session).1 = .ok ()) :
      Move cfg m g { m with lifecycle := (m.lifecycle.rollbackActivation session).2 }
        { g with held := some { h with phase := .absent } }
  | lapse {g : Ghost}
      (hheld : g.held = some h) (hph : h.phase = .established session ready)
      (hlost : ¬m.lifecycle.Active session) :
      Move cfg m g m { g with held := some { h with phase := .lapsed } }
  -- slots
  | take {g : Ghost} (hslot : m.slots.lookup c = some r) :
      Move cfg m g (m.retain r) (g.take c r)
  | make {g : Ghost} (hslot : m.slots.lookup c = none) :
      Move cfg m g (m.insertSlot c) (g.take c m.slotCount)
  | lock {g : Ghost} (huses : g.uses c = some r) (hheld : g.held = none)
      (hfree : (m.cells r).locked = false) :
      Move cfg m g (m.modifyCell r fun slot => { slot with locked := true })
        { g with held := some (.enter c r (m.cells r).mountState) }
  | unlock {g : Ghost} (state : ClientMountState) (hheld : g.held = some h)
      (hst : h.MayLeave state) :
      Move cfg m g (m.unlockMountState h.slot state) { g with held := none }
  | prune {g : Ghost} (huses : g.uses c = some r) (hheld : g.held = none) :
      Move cfg m g (m.removeUnused c r) { g with uses := update g.uses c none }
  | release {g : Ghost} (hmem : r ∈ g.references) (hheld : g.held = none) :
      Move cfg m g (m.release r) (g.forget r)
  -- under the lock of a mount state
  | absent {g : Ghost} (hheld : g.held = some h) (hph : h.phase = .entered)
      (hent : m.lifecycle.entry h.client = none) :
      Move cfg m g m { g with held := some { h with phase := .absent } }
  | attach {g : Ghost} (hheld : g.held = some h) (heng : h.Engaged)
      (hph : h.phase = .absent ∨ h.phase = .entered) (hrole : g.role = .mounting h.client request early)
      (hatt : m.pool.attachQuiesced spec = some (.ok outcome, pool)) :
      Move cfg m g { m with pool } { g with held := some { h with
        mounted := (spec, outcome.segment.entry) :: h.mounted
        fresh := if outcome.isNew then spec.identity.id :: h.fresh else h.fresh } }
  | see {g : Ghost} (hheld : g.held = some h) (hmem : (spec, handle.entry) ∈ h.mounted)
      (hst : m.pool.stateAt handle = some .accepting) :
      Move cfg m g m { g with held := some { h with accepting := (spec, handle.entry) :: h.accepting } }
  | reactivate {g : Ghost} (phase : Phase) (hheld : g.held = some h) (heng : h.Engaged)
      (hmt : Reactivating m.pool.mount h.client ids (.ok ()) pool.mount) (hpool : KeepsPool m.pool pool)
      (hph : phase = h.phase ∧ (h.phase = .absent ∨ h.phase = .entered) ∨
        ∃ session request early, h.phase = .established session false ∧ phase = .established session true ∧
          g.role = .mounting h.client request early ∧ h.Covers request ids) :
      Move cfg m g { m with pool } { g with held := some { h with
        phase
        accepting := h.mounted.filter (·.1.identity.id ∈ ids) ++ h.accepting } }
  | detach {g : Ghost} {h : Held} {id : SegmentId} {k : Mount} {pool : SegmentPool A}
      (left : Option Mount) (hheld : g.held = some h) (heng : h.Engaged) (hmt : m.pool.mount id = some k)
      (hownr : k.owner = h.client) (hleft : left = none ∨ left = some { k with state := .quiesced })
      (hpool : KeepsPool m.pool pool) (hmt' : pool.mount = update m.pool.mount id left)
      (hcau : h.MayDetach g.role id) :
      Move cfg m g { m with pool } { g with held := some { h with mounted := [], accepting := [] } }
  -- cleanups
  | pass {g : Ghost} (hmem : cleanup ∈ g.claims)
      (hslot : m.slots.lookup cleanup.session.clientId = none) : Move cfg m g m (g.clear cleanup)
  | clear {g : Ghost} (hmem : cleanup ∈ g.claims) (huses : g.uses cleanup.session.clientId = some r)
      (hclr : m.clearMountState cleanup.session r = some (true, m')) :
      Move cfg m g m' (g.clear cleanup)
  | invalidate {g : Ghost}
      (hrole : g.role = .cleaning) (howrs : ∀ c ∈ owners, ∃ x ∈ g.cleared, x.session.clientId = c)
      (hpool : m.pool.invalidateOwners owners = some (n, pool)) : Move cfg m g { m with pool } g

/-- The actions of the threads, as long as what they rely on holds. -/
inductive Advance (cfg : ClientLifecycleConfig) (m : ClientManager A) :
    Option Ghost → ClientManager A → Option Ghost → Prop
  | move {g g' : Ghost} (h : Move cfg m g m' g') : Advance cfg m (some g) m' (some g')
  | lose {g : Ghost} (h : ¬Local cfg m g) : Advance cfg m (some g) m' none
  | lost : Advance cfg m none m' none

/-! ### Walks through a program -/

section Walks

variable {cfg : ClientLifecycleConfig} {α β τ γ : Type} {g : Ghost} {post : α → Ghost → Prop}

theorem conforms_lost (p : ManagerM A α) : Conforms (Advance cfg) p none fun _ x => x = none :=
  Conforms.stutter p fun _ _ => .lost

/-- From the ghost value `g` every action of the program is a move, and it ends as
`post` says. -/
def Walks (cfg : ClientLifecycleConfig) (p : ManagerM A α) (g : Ghost)
    (post : α → Ghost → Prop) : Prop :=
  Conforms (Advance cfg) p (some g) fun a x => ∀ g', x = some g' → post a g'

namespace Walks

theorem mono {p : ManagerM A α} {post' : α → Ghost → Prop} (h : Walks cfg p g post)
    (hpost : ∀ a g, post a g → post' a g) : Walks cfg p g post' :=
  Conforms.mono h fun a _ hx g' hg' => hpost a g' (hx g' hg')

theorem ret (h : post a g) : Walks cfg (.ret a : ManagerM A α) g post := by
  refine Conforms.ret ?_
  rintro _ ⟨⟩
  exact h

variable {k : β → ManagerM A α} {f : ClientManager A → Option (β × ClientManager A)}

theorem act
    (h : ∀ m b m', f m = some (b, m') → Local cfg m g → ∃ g', Move cfg m g m' g' ∧ Walks cfg (k b) g' post) :
    Walks cfg (.act f k) g post := by
  rw [Walks, Conforms.act_iff]
  intro m b m' hf
  by_cases hloc : Local cfg m g
  · obtain ⟨g', hmove, hk⟩ := h m b m' hf hloc
    exact ⟨some g', .move hmove, hk⟩
  · refine ⟨none, .lose hloc, (conforms_lost (k b)).mono ?_⟩
    rintro _ _ rfl g' hg'
    cases hg'

theorem await
    (h : ∀ m b m', f m = some (b, m') → Local cfg m g → ∃ g', Move cfg m g m' g' ∧ Walks cfg (k b) g' post) :
    Walks cfg ((await f).bind k) g post := act h

theorem update {f : ClientManager A → β × ClientManager A}
    (h : ∀ m, Local cfg m g → ∃ g', Move cfg m g (f m).2 g' ∧ Walks cfg (k (f m).1) g' post) :
    Walks cfg ((update f).bind k) g post := by
  apply await
  intro m b m' hf
  have hm := h m
  rw [Option.some.inj hf] at hm
  exact hm

theorem read {f : ClientManager A → β}
    (h : ∀ m, Local cfg m g → ∃ g', Move cfg m g m g' ∧ Walks cfg (k (f m)) g' post) :
    Walks cfg ((read f).bind k) g post := update h

theorem modify {f : ClientManager A → ClientManager A} {k : Unit → ManagerM A α}
    (h : ∀ m, Local cfg m g → ∃ g', Move cfg m g (f m) g' ∧ Walks cfg (k ()) g' post) :
    Walks cfg ((modify f).bind k) g post := update h

theorem pick {usual : β} (h : ∀ b, Walks cfg (k b) g post) :
    Walks cfg ((pick usual).bind k) g post := Conforms.pick h

theorem seq {p : ManagerM A β} {f : β → ManagerM A α} {mid : β → Ghost → Prop}
    (h : Walks cfg p g mid) (hf : ∀ b g', mid b g' → Walks cfg (f b) g' post) :
    Walks cfg (p.bind f) g post := by
  refine Conforms.bind (Conforms.mono h ?_)
  intro b x hx
  cases x with
  | some g' => exact hf b g' (hx g' rfl)
  | none =>
    refine (conforms_lost (f b)).mono ?_
    rintro _ x rfl g' hg'
    cases hg'

theorem foldOver {f : τ → γ → ManagerM A τ} {l : List γ} {t : τ} (inv : List γ → τ → Ghost → Prop)
    (hinv : inv l t g)
    (hbody : ∀ c rest t g, inv (c :: rest) t g → Walks cfg (f t c) g (inv rest)) :
    Walks cfg (foldOver f l t) g (inv []) := by
  induction l generalizing t g with
  | nil => exact .ret hinv
  | cons c rest ih => exact seq (hbody c rest t g hinv) fun t' g' h => ih h

end Walks

end Walks

end Cakemaster.Client
