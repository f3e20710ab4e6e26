import Cakemaster.Client.SlotInvariant
import Cakemaster.Machine.Schedule
import Cakemaster.Machine.Trace
import Cakemaster.Segment.BumpAllocator

/-!
# Runs of the client manager

The proof outline of the manager: every call conforms to the moves, so that the manager
is coherent in every reachable configuration. What a running call has in hand shows in the
transitions that it has made (`Tracked`).
-/

namespace Cakemaster.Client

open Machine Machine.Prog Segment Walks Function Multiset
open Object (ClientSession)

variable {A : UnitAllocator} {cfg : ClientLifecycleConfig} {m m' : ClientManager A} {g g' : Ghost}

/-! ### Calls -/

theorem walks_code (call : ManagerCall) : Walks cfg (call.code cfg : ManagerM A ManagerResult)
    (.start call.role) fun result g => g.Done ∧ result ≠ .cleaned (.error .inconsistentSlot) := by
  have hstart : ∀ role, (Ghost.start role).Done := fun _ => ⟨rfl, rfl, rfl, rfl⟩
  have hbat : (Ghost.start .cleaning).Batch [] [] := ⟨rfl, rfl, rfl, rfl, rfl⟩
  cases call with
  | heartbeat clientId now =>
    refine .update fun m _ => ⟨_, move_registry (.heartbeat clientId now)
      (RegistryState.ages_heartbeat cfg clientId now) rfl, .ret ⟨hstart _, nofun⟩⟩
  | writeOwner clientId | writeAdmission clientId =>
    exact walks_readRegistry fun m _ => .ret ⟨hstart _, nofun⟩
  | drainSessions sessions reason =>
    refine seq (walks_drainSessions hbat) ?_
    rintro result g ⟨hdone, hres⟩
    exact .ret ⟨hdone, fun heq => hres (ManagerResult.cleaned.inj heq)⟩
  | runCleanupStep clientNow =>
    refine seq (walks_runCleanupStep hbat) ?_
    rintro result g ⟨hdone, hres⟩
    exact .ret ⟨hdone, fun heq => hres (ManagerResult.cleaned.inj heq)⟩
  | mountSegment clientId spec now =>
    exact seq (walks_mountSegment rfl rfl) fun result g hput => .ret ⟨hput.done (hstart _), nofun⟩
  | unmountSegment clientId segmentId =>
    exact seq (walks_unmountSegment rfl rfl) fun result g hput => .ret ⟨hput.done (hstart _), nofun⟩
  | scheduleGracefulUnmount clientId segmentId deadline =>
    exact seq (walks_scheduleGracefulUnmount rfl rfl) fun result g hput =>
      .ret ⟨hput.done (hstart _), nofun⟩
  | runGracefulUnmountStep now =>
    exact seq (walks_runGracefulUnmountStep rfl rfl) fun result g hput =>
      .ret ⟨hput.done (hstart _), nofun⟩
  | nextGracefulUnmountDeadline =>
    exact walks_onGraceful fun _ => .ret ⟨hstart _, nofun⟩
  | remount clientId segments now =>
    exact seq (walks_remount rfl rfl) fun result g hput => .ret ⟨hput.done (hstart _), nofun⟩

/-! ### Traces -/

def Attaches (m m' : ClientManager A) : Prop :=
  ∃ id, m.pool.mount id = none ∧ m'.pool.mount id ≠ none

def Releases (m m' : ClientManager A) : Prop :=
  ∃ r, (m.cells r).locked = true ∧ (m'.cells r).locked = false

def Establishes (session : ClientSession) (m m' : ClientManager A) : Prop :=
  ∃ request, m'.established = m.established ++ [(session, request)]

def ChangesPool (m m' : ClientManager A) : Prop := m'.pool ≠ m.pool

def Claims (cleanup : ClientCleanup) (m m' : ClientManager A) : Prop :=
  ∃ new, m'.lifecycle.unfinished = m.lifecycle.unfinished ++ new ∧ cleanup ∈ new

/-- What a call has in hand, as its transitions show it. -/
structure Tracked (call : ManagerCall) (trace : List (ClientManager A × ClientManager A))
    (g : Ghost) : Prop where
  role : g.role = call.role
  established : ∀ k session ready, g.held = some k → k.phase = .established session ready →
    ∃ request early, g.role = .mounting k.client request early ∧ (ready = false → early = true)
  attached : Since Attaches Releases trace →
    ∃ k request early, g.held = some k ∧ k.Engaged ∧ g.role = .mounting k.client request early
  early : ∀ k session, g.held = some k → k.phase = .established session false →
    Since (Establishes session) ChangesPool trace
  claimed : ∀ cleanup ∈ g.claims + g.cleared, ∃ p ∈ trace, Claims cleanup p.1 p.2

theorem Tracked.start (call : ManagerCall) :
    Tracked call ([] : List (ClientManager A × ClientManager A)) (.start call.role) where
  role := rfl
  established := nofun
  attached := by
    rintro ⟨_, _, _, htrc, -⟩
    simp at htrc
  early := nofun
  claimed := by simp [Ghost.start]

section

variable (h : Move cfg m g m' g')
include h

theorem Move.role_eq : g'.role = g.role := by
  cases h <;> rfl

/-- An engaged thread stays engaged until it releases its lock. -/
theorem Move.engaged_cases (hloc : Local cfg m g) (hheld : g.held = some k) (heng : k.Engaged) :
    Releases m m' ∨ ∃ k', g'.held = some k' ∧ k'.client = k.client ∧ k'.Engaged := by
  cases h with
  | unlock state hheld' =>
    cases hheld.symm.trans hheld'
    refine .inl ⟨k.slot, (hloc.held k hheld).2.locked, ?_⟩
    rw [ClientManager.unlockMountState, ClientManager.cells_modifyCell, if_pos rfl]
  | lock _ hnone | prune _ hnone | release _ hnone => cases hnone.symm.trans hheld
  | establish hheld' | withdraw hheld' | lapse hheld' | absent hheld' =>
    cases hheld.symm.trans hheld'
    exact .inr ⟨_, rfl, rfl, .inl (by simp)⟩
  | reactivate phase hheld' _ _ _ hph =>
    cases hheld.symm.trans hheld'
    refine .inr ⟨_, rfl, rfl, ?_⟩
    rcases hph with ⟨rfl, -⟩ | ⟨_, _, _, -, rfl, -⟩
    · exact heng
    · exact .inl (by simp)
  | attach hheld' | see hheld' | detach _ hheld' =>
    cases hheld.symm.trans hheld'
    exact .inr ⟨_, rfl, rfl, heng⟩
  | _ => exact .inr ⟨k, hheld, rfl, heng⟩

theorem Move.claimed_cases (hmem : cleanup ∈ g'.claims + g'.cleared) :
    cleanup ∈ g.claims + g.cleared ∨ Claims cleanup m m' := by
  cases h with
  | registry new _ _ hnew =>
    rw [add_right_comm] at hmem
    exact (mem_add.mp hmem).imp_right fun hmem => ⟨new, hnew, hmem⟩
  | dropClaim | finish => exact .inl (mem_of_le (by gcongr; exact erase_le ..) hmem)
  | pass hmem' | clear hmem' =>
    rw [Ghost.clear, add_cons, ← cons_add, cons_erase hmem'] at hmem
    exact .inl hmem
  | _ => exact .inl hmem

/-- A session that was established too early: this is so now, or the thread has left the pool
alone. -/
theorem Move.early_cases (hheld' : g'.held = some k')
    (hph' : k'.phase = .established session false) :
    Establishes session m m' ∨ g.role = .cleaning ∨
      ∃ k, g.held = some k ∧ k.phase = .established session false ∧ m'.pool = m.pool := by
  cases h with
  | unlock => cases hheld'
  | lock =>
    cases hheld'
    cases hph'
  | establish =>
    cases hheld'
    obtain ⟨rfl, -⟩ := Phase.established.inj hph'
    exact .inl ⟨_, rfl⟩
  | withdraw | lapse | absent =>
    cases hheld'
    cases hph'
  | @attach _ _ _ _ _ _ _ _ _ hph =>
    cases hheld'
    rcases hph with hph | hph <;> cases hph.symm.trans hph'
  | reactivate _ _ _ _ _ hph =>
    cases hheld'
    rcases hph with ⟨rfl, hph | hph⟩ | ⟨_, _, _, -, rfl, -⟩
    · cases hph.symm.trans hph'
    · cases hph.symm.trans hph'
    · cases hph'
  | detach _ _ _ _ _ _ _ _ hcau =>
    cases hheld'
    rcases hcau with ⟨-, hph⟩ | ⟨-, hph | hph | ⟨hph, -⟩⟩ <;> cases hph.symm.trans hph'
  | see hheld =>
    cases hheld'
    exact .inr (.inr ⟨_, hheld, hph', rfl⟩)
  | invalidate hrole => exact .inr (.inl hrole)
  | clear _ _ hclr =>
    obtain ⟨-, ⟨rfl, -⟩ | ⟨-, rfl⟩⟩ := ClientManager.clearMountState_cases hclr <;>
      exact .inr (.inr ⟨k', hheld', hph', rfl⟩)
  | prune _ hnone => cases hnone.symm.trans hheld'
  | _ => exact .inr (.inr ⟨k', hheld', hph', rfl⟩)

theorem Move.established_back (hheld' : g'.held = some k')
    (hph' : k'.phase = .established session ready) :
    (∃ k before, g.held = some k ∧ k.client = k'.client ∧ k.phase = .established session before ∧
      (ready = false → before = false)) ∨
      ∃ request early, g.role = .mounting k'.client request early ∧ (ready = false → early = true) ∧
        session.generation = m.lifecycle.registry.nextGeneration ∧
          m'.established = m.established ++ [(session, request)] := by
  cases h with
  | unlock => cases hheld'
  | lock | withdraw | lapse | absent =>
    cases hheld'
    cases hph'
  | establish _ _ hrole hres =>
    cases hheld'
    cases hph'
    obtain ⟨-, -, -, hgen, -⟩ := Lifecycle.activate_activated hres
    exact .inr ⟨_, _, hrole, by simp, hgen, rfl⟩
  | reactivate _ hheld _ _ _ hph =>
    cases hheld'
    rcases hph with ⟨rfl, -⟩ | ⟨_, _, _, herly, rfl, -⟩
    · exact .inl ⟨_, ready, hheld, rfl, hph', id⟩
    · cases hph'
      exact .inl ⟨_, false, hheld, rfl, herly, fun _ => rfl⟩
  | attach hheld | see hheld | detach _ hheld =>
    cases hheld'
    exact .inl ⟨_, ready, hheld, rfl, hph', id⟩
  | prune _ hnone => cases hnone.symm.trans hheld'
  | _ => exact .inl ⟨k', ready, hheld', rfl, hph', id⟩

end

theorem Tracked.step (h : Tracked call trace g)
    (hloc : Local cfg m g) (hmove : Move cfg m g m' g') : Tracked call (trace ++ [(m, m')]) g' where
  role := hmove.role_eq.trans h.role
  established k' session ready hheld' hph' := by
    rw [hmove.role_eq]
    rcases hmove.established_back hheld' hph' with
      ⟨k, before, hheld, hcl, hph, hrdy⟩ | ⟨request, early, hrole, hrdy, -⟩
    · obtain ⟨request, early, hrole, herly⟩ := h.established k session before hheld hph
      exact ⟨request, early, hcl ▸ hrole, fun hr => herly (hrdy hr)⟩
    · exact ⟨request, early, hrole, hrdy⟩
  attached hsince := by
    rw [hmove.role_eq]
    rcases hsince.append_cases with ⟨id, hnone, hsome⟩ | ⟨hbef, hheld⟩
    · have hturn := hmove.mountTurn hloc id
      rw [hnone] at hturn
      generalize m'.pool.mount id = o at hturn hsome
      cases hturn with
      | same => exact absurd rfl hsome
      | attach _ _ hrole hheld' hcl heng' => exact ⟨_, _, _, hheld', heng', hcl ▸ hrole⟩
    · obtain ⟨k, request, early, hk, heng, hrole⟩ := h.attached hbef
      rcases hmove.engaged_cases hloc hk heng with hreleases | ⟨k', hk', hcl, heng'⟩
      · exact absurd hreleases hheld
      · exact ⟨k', request, early, hk', heng', hcl ▸ hrole⟩
  early k' session hheld' hph' := by
    rcases hmove.early_cases hheld' hph' with hnow | hcleaning | ⟨k, hheld, hph, hpool⟩
    · exact .now hnow
    · rcases hmove.established_back hheld' hph' with ⟨k, before, hheld, -, hph, -⟩ | ⟨_, _, hrole, -⟩
      · obtain ⟨_, _, hrole, -⟩ := h.established k session before hheld hph
        cases hcleaning.symm.trans hrole
      · cases hcleaning.symm.trans hrole
    · exact (h.early k session hheld hph).still (not_not.mpr hpool)
  claimed cleanup hmem := by
    rcases hmove.claimed_cases hmem with hmem | hclaims
    · obtain ⟨p, hp, hclaims⟩ := h.claimed cleanup hmem
      exact ⟨p, List.mem_append_left _ hp, hclaims⟩
    · exact ⟨(m, m'), by simp, hclaims⟩

/-! ### The outline -/

variable {allowed : ManagerCall → Prop}

def managerOutline (A : UnitAllocator) (cfg : ClientLifecycleConfig)
    (allowed : ManagerCall → Prop) :
    Outline (managerSystem A cfg allowed) (Option Ghost) where
  idle := some (.start .reading)
  start call := some (.start call.1.role)
  rel _ := Advance cfg
  post _ result x := ∀ g, x = some g → g.Done ∧ result ≠ .cleaned (.error .inconsistentSlot)
  conforms _ call := walks_code call.1

abbrev ManagerConfig (A : UnitAllocator) (allowed : ManagerCall → Prop) :=
  Config (ClientManager A) ℕ { call : ManagerCall // allowed call } ManagerResult

theorem Local.move (h : Local cfg m g) (hrel : Advance cfg m (some g) m' x') :
    ∃ g', Move cfg m g m' g' := by
  cases hrel with
  | move hmove => exact ⟨_, hmove⟩
  | lose hlost => exact absurd h hlost

/-- The ghosts of a configuration: what its threads have in hand, and a property of all of it. -/
structure Explains (cfg : ClientLifecycleConfig) (inv : ClientManager A → (ℕ → Ghost) → Prop)
    (c : ManagerConfig A allowed) (gs : ℕ → Ghost) : Prop where
  coherent : Coherent cfg c.shared gs
  idle : ∀ t, c.threads t = none → gs t = .start .reading
  running : ∀ t r, c.threads t = some r → Tracked r.call.1 r.trace (gs t)
  consistent : ∀ d ∈ c.completed, d.result ≠ .cleaned (.error .inconsistentSlot)
  inv : inv c.shared gs

/-- A property of the manager and of the ghosts of its threads that every move keeps. -/
structure Preserved (cfg : ClientLifecycleConfig) (allowed : ManagerCall → Prop)
    (ok : ClientManager A → ClientManager A → Prop) (inv : ClientManager A → (ℕ → Ghost) → Prop) :
    Prop where
  init : ∀ pool leases, PoolInvariant pool leases → inv (.new pool) fun _ => .start .reading
  restart : ∀ {m gs t} role, Coherent cfg m gs → inv m gs → (gs t).Done →
    (role = .reading ∨ ∃ call, allowed call ∧ role = call.role) →
    inv m (Function.update gs t (.start role))
  step : ∀ {m m' gs g' t}, Coherent cfg m gs → inv m gs → Move cfg m (gs t) m' g' → ok m m' →
    inv m' (Function.update gs t g')

variable {ok : ClientManager A → ClientManager A → Prop}
  {inv : ClientManager A → (ℕ → Ghost) → Prop}

section

variable (h : Preserved cfg allowed ok inv)
include h

theorem Preserved.keeps :
    Outline.Keeps (managerOutline A cfg allowed) ok (fun call trace x => ∀ g, x = some g →
      Tracked call.1 trace g) fun m xs done => ∃ gs, xs = some ∘ gs ∧ Coherent cfg m gs ∧
        (∀ d ∈ done, d.result ≠ .cleaned (.error .inconsistentSlot)) ∧ inv m gs where
  init := by
    rintro m ⟨pool, leases, hp, rfl⟩
    exact ⟨fun _ => .start .reading, rfl, .init pool hp .reading, nofun, h.init pool leases hp⟩
  track_start := by
    rintro call g ⟨⟩
    exact .start call.1
  track_step := by
    rintro t m xs done m' x' call trace ⟨gs, rfl, hcoh, -, -⟩ hrel htrk _ rfl
    generalize hx : (some ∘ gs) t = x at hrel htrk
    cases hrel with
    | move hmove =>
      cases hx
      exact (htrk _ rfl).step (hcoh.relies t) hmove
  invoke := by
    rintro m xs done t call ⟨gs, rfl, hcoh, hdone, hinv⟩ hidle
    have hgs : (gs t).Done := by
      rw [Option.some.inj hidle]
      exact ⟨rfl, rfl, rfl, rfl⟩
    refine ⟨update gs t (.start call.1.role), (comp_update some gs t _).symm,
      hcoh.restart hgs _, hdone, h.restart _ hcoh hinv hgs (.inr ⟨call.1, call.2, rfl⟩)⟩
  step := by
    rintro m xs done t m' x' ⟨gs, rfl, hcoh, hdone, hinv⟩ hrel hok
    generalize hx : (some ∘ gs) t = x at hrel
    cases hrel with
    | move hmove =>
      cases hx
      exact ⟨_, (comp_update some gs t _).symm, hcoh.step hmove, hdone, h.step hcoh hinv hmove hok⟩
    | lose hlost =>
      cases hx
      exact absurd (hcoh.relies t) hlost
    | lost => cases hx
  finish := by
    rintro m xs done t call result trace ⟨gs, rfl, hcoh, hdone, hinv⟩ hpost -
    obtain ⟨hgs, hres⟩ := hpost _ rfl
    exact ⟨update gs t (.start .reading), (comp_update some gs t _).symm, hcoh.restart hgs _,
      List.forall_mem_cons.mpr ⟨hres, hdone⟩, h.restart _ hcoh hinv hgs (.inl rfl)⟩
  env := nofun

theorem Preserved.reachable {c : ManagerConfig A allowed}
    (hrch : (managerSystem A cfg allowed).ReachableVia ok c) : ∃ gs, Explains cfg inv c gs := by
  obtain ⟨_, hgh, gs, rfl, hcoh, hdone, hinv⟩ := Outline.reachable h.keeps hrch
  refine ⟨gs, hcoh, fun t ht => Option.some.inj (hgh.idle t ht), fun t r hr => ?_, hdone, hinv⟩
  exact (hgh.running t r hr).2 _ rfl

variable {c c' : ManagerConfig A allowed}

theorem Preserved.acts {t : ℕ}
    {r : Running (ClientManager A) { call : ManagerCall // allowed call } ManagerResult}
    (hrch : (managerSystem A cfg allowed).ReachableVia ok c)
    (hstep : (managerSystem A cfg allowed).Step c c') (hacts : System.Acts c c' t r) :
    ∃ gs, Explains cfg inv c gs ∧ ∃ g', Move cfg c.shared (gs t) c'.shared g' := by
  obtain ⟨_, hgh, ⟨gs, rfl, hcoh, hdone, hinv⟩, _, hrel⟩ := Outline.acts h.keeps hrch hstep hacts
  refine ⟨gs, ⟨hcoh, fun t ht => Option.some.inj (hgh.idle t ht), fun t r hr => ?_, hdone, hinv⟩, ?_⟩
  · exact (hgh.running t r hr).2 _ rfl
  · exact (hcoh.relies t).move hrel

/-- What a step of a reachable configuration does to the manager: nothing, or a move of a
thread. -/
theorem Preserved.transition (hrch : (managerSystem A cfg allowed).ReachableVia ok c)
    (hstep : (managerSystem A cfg allowed).Step c c') :
    ∃ gs, Explains cfg inv c gs ∧
    (c'.shared = c.shared ∨ ∃ t g', Move cfg c.shared (gs t) c'.shared g') := by
  obtain ⟨_, hgh, ⟨gs, rfl, hcoh, hdone, hinv⟩, hrel⟩ := Outline.transition h.keeps hrch hstep
  refine ⟨gs, ⟨hcoh, fun t ht => Option.some.inj (hgh.idle t ht), fun t r hr => ?_, hdone, hinv⟩, ?_⟩
  · exact (hgh.running t r hr).2 _ rfl
  rcases hrel with hsame | henv | ⟨t, r, _, _, -, hrel, -⟩
  · exact .inl hsame
  · cases henv
  · exact .inr ⟨t, (hcoh.relies t).move hrel⟩

end

theorem preserved_true : Preserved (A := A) cfg allowed ok fun _ _ => True where
  init _ _ _ := trivial
  restart _ _ _ _ _ := trivial
  step _ _ _ _ := trivial

namespace Sample

abbrev system :
    System (ClientManager bumpAllocator) ℕ { _call : ManagerCall // True } ManagerResult :=
  managerSystem bumpAllocator ⟨10, 4, 4⟩ fun _ => True

/-- A manager of an empty pool. -/
def start {allowed : ManagerCall → Prop} : ManagerConfig bumpAllocator allowed :=
  ⟨.new (.empty bumpAllocator 0 .default), fun _ => none, []⟩

theorem reachable_start {ok : ClientManager bumpAllocator → ClientManager bumpAllocator → Prop} :
    (managerSystem bumpAllocator cfg allowed).ReachableVia ok start :=
  .init ⟨_, 0, .empty 0 .default, rfl⟩

def initial : ClientManager bumpAllocator := .new (.empty bumpAllocator 0 .default)

theorem reachable_initial : system.Reachable start := reachable_start

def client : ClientId := ⟨0, 1⟩

def spec : SegmentSpec := ⟨⟨⟨0, 1⟩, client, "segment", "host"⟩, ⟨4096, 1024⟩, ⟨.tcp, "endpoint"⟩⟩

end Sample

end Cakemaster.Client
