import Cakemaster.Client.SlotTable
import Cakemaster.Client.CleanupWalks

/-!
# Sessions, slots and cleanups together

What holds of the manager at every point of every run, whatever its threads do: the
session of a slot has its entry in the registry, what a thread knows under the lock of a
slot is so, and the slot of a cleanup in progress stays free until the cleanup is finished.
-/

namespace Cakemaster.Client

open Machine Segment Function ClientManager Multiset List Lifecycle Ghost
open Object (ClientSession)

variable {A : UnitAllocator} {cfg : ClientLifecycleConfig} {m m' : ClientManager A} {g g' : Ghost}
variable {t' : ℕ} {x : ClientCleanup} {k : Held} {r : SlotRef}

/-! ### What a move does to one client -/

/-- An entry over time: no entry comes or goes, and no session becomes active. -/
def Aged (o o' : Option ClientEntry) : Prop :=
  (o = none → o' = none) ∧
    ∀ e, o = some e → ∃ e', o' = some e' ∧ e'.session = e.session ∧
    (e'.phase = .active → e.phase = .active)

theorem Aged.refl (o : Option ClientEntry) : Aged o o := ⟨id, fun e he => ⟨e, he, rfl, id⟩⟩

theorem RegistryState.Ages.aged {r r' : RegistryState} (h : r.Ages r') (c : ClientId) :
    Aged (r.entries.lookup c) (r'.entries.lookup c) := ⟨h.absent c, h.present c⟩

inductive EntryTurn (m m' : ClientManager A) (g g' : Ghost) (c : ClientId) :
    Option ClientEntry → Option ClientEntry → Prop
  | age {o o' : Option ClientEntry} (h : Aged o o') : EntryTurn m m' g g' c o o'
  | establish {k : Held} (hheld : g.held = some k) (hcl : k.client = c) (hph : k.phase = .absent)
      (hheld' : g'.held = some { k with phase := .established session ready })
      (hsess : e.session = session) (hactv : e.phase = .active) :
      EntryTurn m m' g g' c none (some e)
  | withdraw {k : Held} {session : ClientSession} {ready : Bool} {e : ClientEntry}
      (hheld : g.held = some k) (hcl : k.client = c) (hph : k.phase = .established session ready)
      (hsess : e.session = session) (hactv : e.phase = .active) :
      EntryTurn m m' g g' c (some e) none
  | finish {cleanup : ClientCleanup} {e : ClientEntry} (hmem : cleanup ∈ g.cleared)
      (hcl : cleanup.session.clientId = c) (hrole : g.role = .cleaning) (hsess : e.session = cleanup.session)
      (hfinish : m.lifecycle.finish cleanup = (.ok (), m'.lifecycle)) :
      EntryTurn m m' g g' c (some e) none

theorem Move.entryTurn (h : Move cfg m g m' g') (hloc : Local cfg m g) (c : ClientId) :
    EntryTurn m m' g g' c (m.lifecycle.entry c) (m'.lifecycle.entry c) := by
  obtain ⟨_, hhist⟩ := hloc.registry
  cases h with
  | registry _ _ hages => exact .age (hages.aged c)
  | dropClaim cleanup => exact .age ((RegistryState.ages_releaseCleanup cleanup.session).aged c)
  | finish cleanup hmem hrole =>
    have hmem' := hloc.mem_unfinished (mem_add.mpr (.inr hmem))
    obtain ⟨e, _, hent, hsess, -⟩ := hhist.invariant.running hmem'
    obtain ⟨hok, -, hents⟩ := hhist.finish_ok hmem'
    rw [hents]
    split
    next hc =>
      rw [hc, hent]
      exact .finish hmem rfl hrole hsess (Prod.ext hok rfl)
    · exact .age (.refl _)
  | @establish k request early now session _ hheld hph hrole hres =>
    obtain ⟨-, hnone, -, -, hents⟩ := Lifecycle.activate_activated hres
    dsimp only
    rw [hents]
    split
    next hc =>
      rw [hc, hnone]
      exact .establish hheld rfl hph rfl rfl rfl
    · exact .age (.refl _)
  | @withdraw k session ready _ hheld hph hres =>
    obtain ⟨⟨e, hent, hsess, hactv⟩, hents⟩ := rollbackActivation_ok hres
    obtain ⟨-, e', hent', hsess'⟩ := (hloc.held k hheld).2.established session ready hph
    have hcl : session.clientId = k.client := by
      rw [← hsess']
      exact hhist.invariant.owned k.client e' hent'
    dsimp only
    rw [hents]
    split
    next hc =>
      rw [hc, hent]
      exact .withdraw hheld hcl.symm hph hsess hactv
    · exact .age (.refl _)
  | clear _ _ hclr =>
    obtain ⟨-, ⟨rfl, -⟩ | ⟨-, rfl⟩⟩ := clearMountState_cases hclr <;> exact .age (.refl _)
  | prune =>
    rw [removeUnused]
    split <;> exact .age (.refl _)
  | _ => exact .age (.refl _)

structure Establishing (cfg : ClientLifecycleConfig) (m : ClientManager A) (g : Ghost)
    (m' : ClientManager A) (g' : Ghost) (k : Held) (session : ClientSession)
    (request : List SegmentSpec) (early : Bool) : Prop where
  held : g.held = some k
  phase : k.phase = .absent
  role : g.role = .mounting k.client request early
  covers : early = false → k.Covers request []
  held' : g'.held = some { k with phase := .established session !early }
  client : session.clientId = k.client
  generation : session.generation = m.lifecycle.registry.nextGeneration
  event : ∃ now, Performs cfg m.lifecycle (.activate k.client now (.ok (.activated session)))
    m'.lifecycle
  established : m'.established = m.established ++ [(session, request)]
  pool : m'.pool = m.pool
  entry : ∃ e : ClientEntry, e.session = session ∧ e.phase = .active ∧
    ∀ c, m'.lifecycle.entry c = if c = k.client then some e else m.lifecycle.entry c

/-- A session is established, or all sessions are old ones. -/
theorem Move.established_cases (h : Move cfg m g m' g') (hloc : Local cfg m g) :
    (m'.established = m.established ∧ ∀ c e', m'.lifecycle.entry c = some e' →
      ∃ e, m.lifecycle.entry c = some e ∧ e'.session = e.session ∧ (e'.phase = .active → e.phase = .active)) ∨
      ∃ k session request early, Establishing cfg m g m' g' k session request early := by
  have hages : ∀ {r' : RegistryState}, m.lifecycle.registry.Ages r' →
      ∀ c e', r'.entries.lookup c = some e' → ∃ e, m.lifecycle.entry c = some e ∧
      e'.session = e.session ∧ (e'.phase = .active → e.phase = .active) := by
    intro r' hages c e' he'
    cases he : m.lifecycle.registry.entries.lookup c with
    | none => cases (hages.absent c he).symm.trans he'
    | some e =>
      obtain ⟨_, he'', hsess⟩ := hages.present c e he
      cases he'.symm.trans he''
      exact ⟨e, he, hsess⟩
  have herased : ∀ {l' : Lifecycle} {c₀ : ClientId},
      (∀ c, l'.entry c = if c = c₀ then none else m.lifecycle.entry c) →
      ∀ c e', l'.entry c = some e' → ∃ e, m.lifecycle.entry c = some e ∧ e'.session = e.session ∧
        (e'.phase = .active → e.phase = .active) := by
    intro l' c₀ hents c e' he'
    rw [hents] at he'
    split at he'
    · cases he'
    · exact ⟨e', he', rfl, id⟩
  cases h with
  | registry _ _ h => exact .inl ⟨rfl, hages h⟩
  | dropClaim cleanup => exact .inl ⟨rfl, hages (RegistryState.ages_releaseCleanup cleanup.session)⟩
  | finish cleanup hmem =>
    obtain ⟨_, hhist⟩ := hloc.registry
    obtain ⟨-, -, hents⟩ := hhist.finish_ok (hloc.mem_unfinished (mem_add.mpr (.inr hmem)))
    exact .inl ⟨rfl, herased hents⟩
  | withdraw _ _ hres => exact .inl ⟨rfl, herased (rollbackActivation_ok hres).2⟩
  | @establish k request early now session _ hheld hph hrole hres hrdy =>
    obtain ⟨-, -, hcl, hgen, hents⟩ := Lifecycle.activate_activated hres
    have hevent := @Performs.activate cfg m.lifecycle k.client now
    rw [hres] at hevent
    exact .inr ⟨k, session, request, early, hheld, hph, hrole, hrdy, rfl, hcl, hgen, ⟨now, hevent⟩,
      rfl, rfl, _, rfl, rfl, hents⟩
  | clear _ _ hclr =>
    obtain ⟨-, ⟨rfl, -⟩ | ⟨-, rfl⟩⟩ := clearMountState_cases hclr <;>
      exact .inl ⟨rfl, fun c e he => ⟨e, he, rfl, id⟩⟩
  | prune =>
    rw [removeUnused]
    split <;> exact .inl ⟨rfl, fun c e he => ⟨e, he, rfl, id⟩⟩
  | _ => exact .inl ⟨rfl, fun c e he => ⟨e, he, rfl, id⟩⟩

/-- What happens to what is mounted under an id. -/
inductive MountTurn (g g' : Ghost) (id : SegmentId) : Option Mount → Option Mount → Prop
  | same (o : Option Mount) : MountTurn g g' id o o
  | attach {k k' : Held} (hheld : g.held = some k)
      (heng : k.Engaged) (hrole : g.role = .mounting k.client request early)
      (hheld' : g'.held = some k') (hcl : k'.client = k.client) (heng' : k'.Engaged) :
      MountTurn g g' id none (some j)
  | reactivate {k : Held} (hheld : g.held = some k) (hownr : j.owner = k.client) :
      MountTurn g g' id (some j) (some { j with state := .accepting })
  | detach {k : Held} (left : Option Mount) (hheld : g.held = some k) (hownr : j.owner = k.client)
      (hcau : k.MayDetach g.role id) : MountTurn g g' id (some j) left
  | invalidate (hmem : cleanup ∈ g.cleared)
      (hcl : cleanup.session.clientId = j.owner) (hrole : g.role = .cleaning) :
      MountTurn g g' id (some j) none

theorem Move.mountTurn (h : Move cfg m g m' g') (hloc : Local cfg m g) (id : SegmentId) :
    MountTurn g g' id (m.pool.mount id) (m'.pool.mount id) := by
  obtain ⟨_, hp⟩ := hloc.pool
  cases h with
  | @attach k request early spec pool outcome _ hheld heng _ hrole hatt =>
    obtain ⟨_, pool', hrun, -, -, heffc⟩ := attaching hp spec
    cases hatt.symm.trans hrun
    generalize hmt : pool.mount = mount' at heffc
    cases heffc with
    | existing => exact .same _
    | new hnone =>
      by_cases hid : id = spec.identity.id
      · rw [hid, update_self, hnone]
        exact .attach hheld heng hrole rfl rfl heng
      · rw [update_of_ne hid]
        exact .same _
  | @reactivate k ids pool _ phase hheld heng hmt =>
    dsimp only
    generalize hmt' : pool.mount = mount' at hmt
    cases hmt with
    | reactivate howd =>
      dsimp only
      split
      next hid =>
        obtain ⟨j, hj, hownr⟩ := howd id hid
        rw [hj]
        exact .reactivate hheld hownr
      · exact .same _
  | @detach _ k id' j pool left hheld heng hmt hownr _ _ hmt' hcau =>
    dsimp only
    rw [hmt', update_apply]
    split
    next hid =>
      subst hid
      rw [hmt]
      exact .detach left hheld hownr hcau
    · exact .same _
  | @invalidate owners n pool _ hrole howrs hpool =>
    obtain ⟨_, pool', hrun, -, -, hmt⟩ := invalidating hp owners
    cases hpool.symm.trans hrun
    dsimp only
    rw [hmt]
    dsimp only
    cases hid : m.pool.mount id with
    | none => exact .same _
    | some j =>
      rw [Option.filter_some]
      split
      · exact .same _
      next hownr =>
      simp only [decide_eq_true_eq, not_not] at hownr
      obtain ⟨_, hmem, hcl⟩ := howrs _ hownr
      exact .invalidate hmem hcl hrole
  | clear _ _ hclr =>
    obtain ⟨-, ⟨rfl, -⟩ | ⟨-, rfl⟩⟩ := clearMountState_cases hclr <;> exact .same _
  | prune =>
    rw [removeUnused]
    split <;> exact .same _
  | _ => exact .same _

inductive StateTurn (m m' : ClientManager A) (g : Ghost) (r : SlotRef) :
    ClientMountState → ClientMountState → Prop
  | same (state : ClientMountState) : StateTurn m m' g r state state
  | make (state : ClientMountState) (hnew : r = m.slotCount) : StateTurn m m' g r state .default
  | unlock {k : Held} (state state' : ClientMountState) (hheld : g.held = some k)
      (hslot : k.slot = r) (hlv : k.MayLeave state') (hsame : m'.lifecycle = m.lifecycle) :
      StateTurn m m' g r state state'
  | clear (hmem : cleanup ∈ g.claims)
      (huses : g.uses cleanup.session.clientId = some r)
      (hsess : state.session = some cleanup.session) :
      StateTurn m m' g r state .default

theorem Move.stateTurn (h : Move cfg m g m' g') (r : SlotRef) :
    StateTurn m m' g r (m.cells r).mountState (m'.cells r).mountState := by
  cases h with
  | take =>
    rw [retain, cells_modifyCell]
    split
    next hr => exact hr ▸ .same _
    · exact .same _
  | make =>
    rw [cells_insertSlot]
    split
    next hr => exact .make _ hr
    · exact .same _
  | lock =>
    rw [cells_modifyCell]
    split
    next hr => exact hr ▸ .same _
    · exact .same _
  | unlock state hheld hlv =>
    rw [unlockMountState, cells_modifyCell]
    split
    next hr => exact .unlock _ _ hheld hr.symm hlv rfl
    · exact .same _
  | @prune c r' =>
    rcases m.removeUnused_cases r' c with hsame | ⟨-, -, hrem⟩
    · rw [hsame]
      exact .same _
    · rw [hrem]
      exact (SlotTable.cells_release m r' r).2 ▸ .same _
  | @release r' => exact (SlotTable.cells_release m r' r).2 ▸ .same _
  | clear hmem huses hclr =>
    obtain ⟨-, ⟨rfl, -⟩ | ⟨hsess, rfl⟩⟩ := clearMountState_cases hclr
    · exact .same _
    · rw [cells_modifyCell]
      split
      next hr => exact .clear hmem (hr ▸ huses) (hr ▸ hsess)
      · exact .same _
  | _ => exact .same _

theorem Move.lookup_cases (h : Move cfg m g m' g') (hslot : m'.slots.lookup c = some r) :
    m.slots.lookup c = some r ∨ r = m.slotCount ∧ (m'.cells r).mountState = .default := by
  cases h with
  | make =>
    rw [lookup_insertSlot] at hslot
    split at hslot
    · cases hslot
      exact .inr ⟨rfl, by rw [cells_insertSlot, if_pos rfl]⟩
    · exact .inl hslot
  | @prune c' r' =>
    rcases m.removeUnused_cases r' c' with hsame | ⟨-, -, hrem⟩
    · exact .inl (hsame ▸ hslot)
    · rw [hrem] at hslot
      refine .inl ?_
      rcases eq_or_ne c c' with rfl | hne
      · rw [AList.lookup_erase] at hslot
        cases hslot
      · rwa [AList.lookup_erase_ne hne] at hslot
  | clear _ _ hclr =>
    obtain ⟨-, ⟨rfl, -⟩ | ⟨-, rfl⟩⟩ := clearMountState_cases hclr <;> exact .inl hslot
  | _ => exact .inl hslot

theorem Move.held_cases (h : Move cfg m g m' g') (hheld' : g'.held = some k') :
    (∃ k, g.held = some k ∧ k'.client = k.client ∧
      (k'.Engaged → k.Engaged ∨ m.lifecycle.entry k.client = none)) ∨ ∃ c r,
      k' = .enter c r (m.cells r).mountState ∧ g.uses c = some r ∧ m'.lifecycle = m.lifecycle := by
  cases h with
  | lock huses =>
    cases hheld'
    exact .inr ⟨_, _, rfl, huses, rfl⟩
  | unlock => cases hheld'
  | absent hheld _ hent =>
    cases hheld'
    exact .inl ⟨_, hheld, rfl, fun _ => .inr hent⟩
  | establish hheld hph =>
    cases hheld'
    exact .inl ⟨_, hheld, rfl, fun _ => .inl (.inl (by simp [hph]))⟩
  | withdraw hheld hph | lapse hheld hph =>
    cases hheld'
    exact .inl ⟨_, hheld, rfl, fun _ => .inl (.inl (by simp [hph]))⟩
  | reactivate _ hheld heng =>
    cases hheld'
    exact .inl ⟨_, hheld, rfl, fun _ => .inl heng⟩
  | attach hheld | see hheld | detach _ hheld =>
    cases hheld'
    exact .inl ⟨_, hheld, rfl, .inl⟩
  | _ => exact .inl ⟨k', hheld', rfl, .inl⟩

/-! ### Cleanups -/

/-- The cleanups that a thread has in hand. -/
def Ghost.tokens (g : Ghost) : Multiset ClientCleanup := g.claims + g.cleared

/-- What happens to the cleanups in existence and to those of the thread. -/
inductive TokenTurn : List ClientCleanup → Multiset ClientCleanup → List ClientCleanup →
    Multiset ClientCleanup → Prop
  | same (unfinished : List ClientCleanup) (tokens : Multiset ClientCleanup) :
      TokenTurn unfinished tokens unfinished tokens
  | claim (unfinished : List ClientCleanup) (tokens : Multiset ClientCleanup)
      (new : List ClientCleanup) :
      TokenTurn unfinished tokens (unfinished ++ new) (tokens + new)
  | drop (unfinished : List ClientCleanup) (tokens : Multiset ClientCleanup)
      {cleanup : ClientCleanup} (hmem : cleanup ∈ tokens) :
      TokenTurn unfinished tokens (unfinished.erase cleanup) (tokens.erase cleanup)

theorem Ghost.tokens_clear (hmem : cleanup ∈ g.claims) : (g.clear cleanup).tokens = g.tokens := by
  rw [tokens, clear, tokens]
  dsimp only
  rw [add_cons, ← cons_add, cons_erase hmem]

theorem Move.tokenTurn (h : Move cfg m g m' g') (hloc : Local cfg m g) :
    TokenTurn m.lifecycle.unfinished g.tokens m'.lifecycle.unfinished g'.tokens := by
  obtain ⟨_, hhist⟩ := hloc.registry
  cases h with
  | registry new _ _ hnew =>
    have htokens : g.claims + new + g.cleared = g.claims + g.cleared + new := by rw [add_right_comm]
    simp only [tokens, hnew, htokens]
    exact .claim _ _ new
  | dropClaim cleanup hmem =>
    have htokens : g.claims.erase cleanup + g.cleared = (g.claims + g.cleared).erase cleanup :=
      (erase_add_left_pos _ hmem).symm
    simp only [tokens, htokens]
    exact .drop _ _ (mem_add.mpr (.inl hmem))
  | finish cleanup hmem =>
    have hmem' : cleanup ∈ g.tokens := mem_add.mpr (.inr hmem)
    have htokens : g.claims + g.cleared.erase cleanup = (g.claims + g.cleared).erase cleanup :=
      (erase_add_right_pos _ hmem).symm
    obtain ⟨-, hunf, -⟩ := hhist.finish_ok (hloc.mem_unfinished hmem')
    simp only [tokens, htokens, hunf]
    exact .drop _ _ hmem'
  | pass hmem =>
    rw [tokens_clear hmem]
    exact .same _ _
  | clear hmem _ hclr =>
    rw [tokens_clear hmem]
    obtain ⟨-, ⟨rfl, -⟩ | ⟨-, rfl⟩⟩ := clearMountState_cases hclr <;> exact .same _ _
  | prune =>
    rw [removeUnused]
    split <;> exact .same _ _
  | _ => exact .same _ _

/-- The cleanups of all threads exist, and those of two threads belong to different clients. -/
structure Tokens (unfinished : List ClientCleanup) (gs : ℕ → Ghost) : Prop where
  exist : ∀ t, (gs t).tokens ≤ (unfinished : Multiset ClientCleanup)
  apart : ∀ t t', t ≠ t' →
    ∀ x ∈ (gs t).tokens, ∀ y ∈ (gs t').tokens, x.session.clientId ≠ y.session.clientId

theorem Tokens.step {gs : ℕ → Ghost} {t : ℕ} {unfinished unfinished' : List ClientCleanup}
    (h : Tokens unfinished gs) (hturn : TokenTurn unfinished (gs t).tokens unfinished' g'.tokens)
    (hunique : ∀ c, ((unfinished' : Multiset ClientCleanup).filter (·.session.clientId = c)).card ≤ 1) :
    Tokens unfinished' (update gs t g') := by
  -- it is enough that the thread's cleanups exist, the others' still do, and that they are apart
  have hupda : g'.tokens ≤ (unfinished' : Multiset ClientCleanup) →
      (∀ t' ≠ t, (gs t').tokens ≤ (unfinished' : Multiset ClientCleanup)) →
      (∀ t' ≠ t, ∀ x ∈ g'.tokens, ∀ y ∈ (gs t').tokens, x.session.clientId ≠ y.session.clientId) →
      Tokens unfinished' (update gs t g') := by
    intro hself hoths hapart
    constructor
    · exact (forall_update_iff gs fun _ g => tokens g ≤ (unfinished' : Multiset ClientCleanup)).mpr
        ⟨hself, hoths⟩
    intro t₁ t₂ hne x hx y hy
    by_cases ht₁ : t₁ = t
    · have ht₂ : t₂ ≠ t := fun heq => hne (ht₁.trans heq.symm)
      rw [ht₁, update_self] at hx
      rw [update_of_ne ht₂] at hy
      exact hapart t₂ ht₂ x hx y hy
    · rw [update_of_ne ht₁] at hx
      by_cases ht₂ : t₂ = t
      · rw [ht₂, update_self] at hy
        exact (hapart t₁ ht₁ y hy x hx).symm
      · rw [update_of_ne ht₂] at hy
        exact h.apart t₁ t₂ hne x hx y hy
  generalize htokens : (gs t).tokens = tokens at hturn
  generalize htokens' : g'.tokens = tokens' at hturn hupda
  have hexist := h.exist t
  rw [htokens] at hexist
  have hapart : ∀ t' ≠ t, ∀ x ∈ tokens, ∀ y ∈ (gs t').tokens,
    x.session.clientId ≠ y.session.clientId :=
    fun t' ht x hx => h.apart t t' (Ne.symm ht) x (htokens ▸ hx)
  cases hturn with
  | same => exact hupda hexist (fun t' _ => h.exist t') hapart
  | claim new =>
    rw [← coe_add] at hupda hunique
    refine hupda (add_le_add_left hexist _) (fun t' _ => (h.exist t').trans (le_add_right _ _)) ?_
    intro t' ht x hx y hy heq
    rcases mem_add.mp hx with hx | hx
    · exact hapart t' ht x hx y hy heq
    · -- both would be cleanups of one client
      have hle := hunique x.session.clientId
      rw [filter_add, card_add] at hle
      have hpos : 0 < ((unfinished : Multiset ClientCleanup).filter
        (·.session.clientId = x.session.clientId)).card :=
        card_pos_iff_exists_mem.mpr
          ⟨y, mem_filter.mpr ⟨mem_of_le (h.exist t') hy, heq.symm⟩⟩
      have hpos' : 0 < ((new : Multiset ClientCleanup).filter (·.session.clientId = x.session.clientId)).card :=
        card_pos_iff_exists_mem.mpr ⟨x, mem_filter.mpr ⟨hx, rfl⟩⟩
      omega
  | drop hmem =>
    rw [← coe_erase] at hupda
    refine hupda (erase_le_erase _ hexist) (fun t' ht => ?_) fun t' ht x hx =>
      hapart t' ht x (mem_of_mem_erase hx)
    have hnot : _ ∉ (gs t').tokens := fun hmem' => hapart t' ht _ hmem _ hmem' rfl
    rw [← erase_of_notMem hnot]
    exact erase_le_erase _ (h.exist t')

/-- What the holder of a lock knows stays so when nothing happens to its slot, its client and
its segments. -/
theorem Held.Sound.kept (h : k.Sound m) (hlck : (m'.cells k.slot).locked = true)
    (hst : (m'.cells k.slot).mountState = k.state)
    (hent : k.Engaged → Aged (m.lifecycle.entry k.client) (m'.lifecycle.entry k.client))
    (hmt : k.Engaged → ∀ id j, m.pool.mount id = some j → j.owner = k.client → m'.pool.mount id = some j) :
    k.Sound m' where
  locked := hlck
  state := hst
  absent hph := (hent (.inl (by simp [hph]))).1 (h.absent hph)
  established session ready hph := by
    obtain ⟨hnone, e, he, hsess⟩ := h.established session ready hph
    obtain ⟨e', he', hsess', -⟩ := (hent (.inl (by simp [hph]))).2 e he
    exact ⟨hnone, e', he', hsess'.trans hsess⟩
  lapsed hph := by
    obtain ⟨hnone, e, he, hactv⟩ := h.lapsed hph
    obtain ⟨e', he', -, hactv'⟩ := (hent (.inl (by simp [hph]))).2 e he
    exact ⟨hnone, e', he', fun ha => hactv (hactv' ha)⟩
  engaged := h.engaged
  mounted x hx hownr := by
    obtain ⟨j, hj, hspec, hent, haccp⟩ := h.mounted x hx hownr
    have heng := h.engaged (ne_nil_of_mem hx)
    refine ⟨j, hmt heng _ j hj ?_, hspec, hent, haccp⟩
    rw [Mount.owner, hspec, hownr]
  accepting := h.accepting

/-! ### All threads together -/

structure Coherent (cfg : ClientLifecycleConfig) (m : ClientManager A) (gs : ℕ → Ghost) : Prop where
  registry : ∃ events, History cfg events m.lifecycle ∧
    ∀ x ∈ m.established, x.1.generation ∈ events.filterMap (·.handedOut)
  latest : ∀ c e, m.lifecycle.entry c = some e → ∀ x ∈ m.established, x.1.clientId = c →
    x.1.generation ≤ e.session.generation
  pool : ∃ leases, PoolInvariant m.pool leases
  table : SlotTable m gs
  tokens : Tokens m.lifecycle.unfinished gs
  sound : ∀ t k, (gs t).held = some k → k.Sound m
  bound : ∀ c r session, m.slots.lookup c = some r → (m.cells r).mountState.session = some session →
    ∃ e, m.lifecycle.entry c = some e ∧ e.session = session
  empty : ∀ r, (m.cells r).mountState.session = none → (m.cells r).mountState.segments = ∅
  cleared : ∀ t, ∀ x ∈ (gs t).cleared, ∀ r, m.slots.lookup x.session.clientId = some r →
    (m.cells r).mountState.session = none
  -- while a cleanup is about to be finished, no one works on the segments of its client
  fenced : ∀ t, ∀ x ∈ (gs t).cleared, ∀ t' k, (gs t').held = some k →
    k.client = x.session.clientId → ¬k.Engaged

namespace Coherent

variable {gs : ℕ → Ghost} {t : ℕ}

theorem init (pool : SegmentPool A) (hp : PoolInvariant pool leases) (role : Role) :
    Coherent cfg (.new pool) fun _ => .start role where
  registry := ⟨[], .new, nofun⟩
  latest := nofun
  pool := ⟨leases, hp⟩
  table := .init pool role
  tokens := ⟨fun _ => zero_le _, nofun⟩
  sound := nofun
  bound := nofun
  empty _ _ := rfl
  cleared := nofun
  fenced := nofun

section

variable (h : Coherent cfg m gs)
include h

/-- What a thread relies on holds when it is its turn. -/
theorem relies (t : ℕ) : Local cfg m (gs t) where
  registry := h.registry.imp fun _ => And.left
  pool := h.pool
  bound := h.bound
  uses := (h.table.refers t).uses
  held k hk := ⟨((h.table.refers t).held k hk).1, h.sound t k hk⟩
  claims := h.tokens.exist t
  cleared := h.cleared t

theorem restart (hdone : (gs t).Done) (role : Role) :
    Coherent cfg m (update gs t (.start role)) := by
  have huses : (gs t).uses = fun _ => none := by
    funext c
    by_contra hne
    obtain ⟨r, hr⟩ := Option.ne_none_iff_exists'.mp hne
    have hmem := ((h.table.refers t).uses c r hr).2
    simp [hdone.references] at hmem
  have htokens : (start role).tokens = (gs t).tokens := by
    rw [Ghost.tokens, Ghost.tokens, hdone.claims, hdone.cleared]
    rfl
  -- a lock or a cleanup after the step was there before it
  have hheld : ∀ {t' k}, (update gs t (.start role) t').held = some k → (gs t').held = some k := by
    intro t' k hk
    by_cases ht : t' = t
    · rw [ht, update_self] at hk
      cases hk
    · rwa [update_of_ne ht] at hk
  have hclrd : ∀ {t' x}, x ∈ (update gs t (.start role) t').cleared → x ∈ (gs t').cleared := by
    intro t' x hx
    by_cases ht : t' = t
    · rw [ht, update_self] at hx
      cases hx
    · rwa [update_of_ne ht] at hx
  exact { h with
    table := h.table.congr rfl rfl rfl hdone.references.symm huses.symm nofun
    tokens := by
      obtain ⟨_, hhist, -⟩ := h.registry
      refine h.tokens.step (htokens ▸ .same _ _) hhist.invariant.unfinished_le
    sound := fun t' k hk => h.sound t' k (hheld hk)
    cleared := fun t' x hx => h.cleared t' x (hclrd hx)
    fenced := fun u x hx t' k hk => h.fenced u x (hclrd hx) t' k (hheld hk) }

theorem entry_of_cleared (hx : x ∈ (gs t).cleared) :
    ∃ e reason, m.lifecycle.entry x.session.clientId = some e ∧ e.session = x.session ∧
      e.phase = .cleanupPending reason .running := by
  obtain ⟨_, hhist, -⟩ := h.registry
  have hmem : x ∈ (gs t).tokens := mem_add.mpr (.inr hx)
  exact hhist.invariant.running (mem_coe.mp (mem_of_le (h.tokens.exist t) hmem))

/-- Sessions that were established have older generations than the next one. -/
theorem generation_lt {x : ClientSession × List SegmentSpec} (hx : x ∈ m.established) :
    x.1.generation < m.lifecycle.registry.nextGeneration := by
  obtain ⟨_, hhist, hissued⟩ := h.registry
  exact hhist.invariant.past _ (hissued x hx)

end

section Step

variable (h : Coherent cfg m gs) (hmove : Move cfg m (gs t) m' g')
include h hmove

theorem step_registry : ∃ events, History cfg events m'.lifecycle ∧
    ∀ x ∈ m'.established, x.1.generation ∈ events.filterMap (·.handedOut) := by
  obtain ⟨events, hhist, hissued⟩ := h.registry
  rcases hmove.established_cases (h.relies t) with ⟨hsame, -⟩ | ⟨_, _, _, _, hest⟩
  · rw [hsame]
    have hstep : ∀ {event l}, Performs cfg m.lifecycle event l → ∃ events, History cfg events l ∧
        ∀ x ∈ m.established, x.1.generation ∈ events.filterMap (·.handedOut) := by
      intro event l hperforms
      refine ⟨events ++ [event], hhist.step hperforms, fun x hx => ?_⟩
      rw [filterMap_append]
      exact mem_append_left _ (hissued x hx)
    have hmem : ∀ {x}, x ∈ (gs t).tokens → x ∈ m.lifecycle.unfinished := (h.relies t).mem_unfinished
    cases hmove with
    | registry _ hperforms => exact hstep hperforms
    | dropClaim cleanup hx => exact hstep (.drop cleanup (hmem (mem_add.mpr (.inl hx))))
    | finish cleanup hx => exact hstep (.finish cleanup (hmem (mem_add.mpr (.inr hx))))
    | establish => exact hstep (.activate _ _)
    | withdraw => exact hstep (.rollbackActivation _)
    | clear _ _ hclr =>
      obtain ⟨-, ⟨rfl, -⟩ | ⟨-, rfl⟩⟩ := clearMountState_cases hclr <;>
        exact ⟨events, hhist, hissued⟩
    | prune =>
      rw [removeUnused]
      split <;> exact ⟨events, hhist, hissued⟩
    | _ => exact ⟨events, hhist, hissued⟩
  · obtain ⟨_, hevent⟩ := hest.event
    refine ⟨_, hhist.step hevent, ?_⟩
    rw [hest.established, filterMap_append]
    refine forall_mem_append.mpr ⟨fun x hx => mem_append_left _ (hissued x hx), ?_⟩
    simp [RegistryEvent.handedOut]

theorem step_latest (c : ClientId) (e' : ClientEntry) (he' : m'.lifecycle.entry c = some e')
    (x : ClientSession × List SegmentSpec) (hx : x ∈ m'.established) (hcl : x.1.clientId = c) :
    x.1.generation ≤ e'.session.generation := by
  rcases hmove.established_cases (h.relies t) with ⟨hsame, hold⟩ | ⟨_, session, _, _, hest⟩
  · obtain ⟨e, he, hsess, -⟩ := hold c e' he'
    rw [hsess]
    exact h.latest c e he x (hsame ▸ hx) hcl
  obtain ⟨e, hsess, -, hents⟩ := hest.entry
  rw [hest.established] at hx
  rw [hents] at he'
  rcases mem_append.mp hx with hx | hx
  · split at he'
    · cases he'
      rw [hsess, hest.generation]
      exact (h.generation_lt hx).le
    · exact h.latest c e' he' x hx hcl
  · cases List.mem_singleton.mp hx
    rw [if_pos (hcl.symm.trans hest.client)] at he'
    cases he'
    exact hsess.symm ▸ le_rfl

theorem step_pool : ∃ leases, PoolInvariant m'.pool leases := by
  obtain ⟨leases, hp⟩ := h.pool
  cases hmove with
  | @attach _ _ _ spec _ _ _ _ _ _ _ hatt =>
    obtain ⟨_, pool, hrun, hp', -⟩ := attaching hp spec
    cases hatt.symm.trans hrun
    exact ⟨leases, hp'⟩
  | reactivate _ _ _ _ hpool => exact ⟨leases, hpool leases hp⟩
  | detach _ _ _ _ _ _ hpool => exact ⟨leases, hpool leases hp⟩
  | @invalidate owners _ _ _ _ _ hinvd =>
    obtain ⟨_, pool, hrun, hp', -⟩ := invalidating hp owners
    cases hinvd.symm.trans hrun
    exact ⟨leases, hp'⟩
  | clear _ _ hclr =>
    obtain ⟨-, ⟨rfl, -⟩ | ⟨-, rfl⟩⟩ := clearMountState_cases hclr <;> exact ⟨leases, hp⟩
  | prune =>
    rw [removeUnused]
    split <;> exact ⟨leases, hp⟩
  | _ => exact ⟨leases, hp⟩

/-- What the other threads know of their slots stays so. -/
theorem step_sound_other (ht : t' ≠ t) (hk : (gs t').held = some k) : k.Sound m' := by
  have hcell := ((h.table.step hmove).refers t').held k (by rwa [update_of_ne ht])
  refine (h.sound t' k hk).kept hcell.2.1 hcell.2.2 (fun heng => ?_) fun heng id j hj hownr => ?_
  · have hturn := hmove.entryTurn (h.relies t) k.client
    generalize m.lifecycle.entry k.client = o at hturn ⊢
    generalize m'.lifecycle.entry k.client = o' at hturn ⊢
    cases hturn with
    | age haged => exact haged
    | establish hheld hcl => exact absurd (h.table.holder hk hheld hcl.symm) ht
    | withdraw hheld hcl => exact absurd (h.table.holder hk hheld hcl.symm) ht
    | finish hmem hcl => exact absurd heng (h.fenced t _ hmem t' k hk hcl.symm)
  · have hturn := hmove.mountTurn (h.relies t) id
    rw [hj] at hturn
    generalize m'.pool.mount id = o at hturn ⊢
    cases hturn with
    | same => rfl
    | reactivate hheld hownr' => exact absurd (h.table.holder hk hheld (hownr.symm.trans hownr')) ht
    | detach _ hheld hownr' => exact absurd (h.table.holder hk hheld (hownr.symm.trans hownr')) ht
    | invalidate hmem hcl => exact absurd heng (h.fenced t _ hmem t' k hk (hownr.symm.trans hcl.symm))

/-- What the moving thread knows of its slot is so. -/
theorem step_sound_self {k' : Held} (hk' : g'.held = some k') : k'.Sound m' := by
  obtain ⟨_, hp⟩ := h.pool
  have hcell : (m'.cells k'.slot).locked = true ∧ (m'.cells k'.slot).mountState = k'.state :=
    (((h.table.step hmove).refers t).held k' (by rwa [update_self])).2
  cases hmove with
  | look => exact h.sound t k' hk'
  | queue => exact (h.sound t k' hk').kept hcell.1 hcell.2 (fun _ => .refl _) fun _ _ _ hj _ => hj
  | registry _ _ hages =>
    exact (h.sound t k' hk').kept hcell.1 hcell.2 (fun _ => hages.aged _) fun _ _ _ hj _ => hj
  | dropClaim cleanup =>
    exact (h.sound t k' hk').kept hcell.1 hcell.2
      (fun _ => (RegistryState.ages_releaseCleanup cleanup.session).aged _) fun _ _ _ hj _ => hj
  | finish cleanup hmem =>
    refine (h.sound t k' hk').kept hcell.1 hcell.2 (fun heng => ?_) fun _ _ _ hj _ => hj
    obtain ⟨events, hhist, -⟩ := h.registry
    obtain ⟨-, -, hents⟩ := hhist.finish_ok ((h.relies t).mem_unfinished (mem_add.mpr (.inr hmem)))
    rw [hents, if_neg fun hc => h.fenced t _ hmem t k' hk' hc heng]
    exact .refl _
  | @establish k _ _ _ session _ hheld hph _ hres =>
    cases hk'
    have hsnd := h.sound t k hheld
    obtain ⟨-, hnone, -, -, hents⟩ := Lifecycle.activate_activated hres
    refine ⟨hcell.1, hcell.2, (by simp), ?_, (by simp), fun _ => .inl (by simp), hsnd.mounted, hsnd.accepting⟩
    rintro _ _ ⟨⟩
    refine ⟨?_, _, by rw [hents, if_pos rfl], rfl⟩
    by_contra hbd
    obtain ⟨s, hs⟩ := Option.ne_none_iff_exists'.mp hbd
    obtain ⟨e, he, -⟩ := h.bound _ _ s (h.table.lookup hheld).1 (by rw [hsnd.state, hs])
    cases hnone.symm.trans he
  | @withdraw k session ready _ hheld hph hres =>
    cases hk'
    have hsnd := h.sound t k hheld
    refine ⟨hcell.1, hcell.2, fun _ => ?_, (by simp), (by simp), fun _ => .inl (by simp),
      hsnd.mounted, hsnd.accepting⟩
    obtain ⟨⟨e, hent, hsess, -⟩, hents⟩ := rollbackActivation_ok hres
    obtain ⟨-, e', hent', hsess'⟩ := hsnd.established session ready hph
    obtain ⟨events, hhist, -⟩ := h.registry
    rw [hents, if_pos]
    rw [← hhist.invariant.owned _ e' hent', hsess']
  | @lapse k session ready _ hheld hph hlost =>
    cases hk'
    have hsnd := h.sound t k hheld
    obtain ⟨hnone, e, he, hsess⟩ := hsnd.established session ready hph
    refine ⟨hcell.1, hcell.2, (by simp), (by simp), fun _ => ⟨hnone, e, he, fun hactv => hlost ?_⟩,
      fun _ => .inl (by simp), hsnd.mounted, hsnd.accepting⟩
    obtain ⟨events, hhist, -⟩ := h.registry
    have hcl : session.clientId = k.client := by rw [← hsess, hhist.invariant.owned _ e he]
    exact ⟨e, hcl ▸ he, hsess, hactv⟩
  | take | make =>
    exact (h.sound t k' hk').kept hcell.1 hcell.2 (fun _ => .refl _) fun _ _ _ hj _ => hj
  | lock =>
    cases hk'
    exact ⟨hcell.1, hcell.2, (by rintro ⟨⟩), (by rintro _ _ ⟨⟩),
      (by rintro ⟨⟩), by simp [Held.enter], (by rintro _ ⟨⟩), (by rintro _ ⟨⟩)⟩
  | unlock => cases hk'
  | prune _ hheld => cases hheld.symm.trans hk'
  | release _ hheld => cases hheld.symm.trans hk'
  | absent hheld hph hent =>
    cases hk'
    have hsnd := h.sound t _ hheld
    exact ⟨hcell.1, hcell.2, fun _ => hent, (by simp), (by simp), fun _ => .inl (by simp),
      hsnd.mounted, hsnd.accepting⟩
  | @attach k _ _ spec pool outcome _ hheld heng _ _ hatt =>
    cases hk'
    have hsnd := h.sound t k hheld
    obtain ⟨_, pool', hrun, -, -, heffc⟩ := attaching hp spec
    cases hatt.symm.trans hrun
    obtain ⟨j, hj, hspec, hent⟩ := heffc.mounted
    refine ⟨hcell.1, hcell.2, hsnd.absent, hsnd.established, hsnd.lapsed, fun _ => heng, ?_,
      fun x hx => mem_cons_of_mem _ (hsnd.accepting hx)⟩
    -- what was known to be mounted is, and a segment that is found is one of these or is not
    -- known to accept
    have hold : ∀ x ∈ k.mounted, x.1.identity.owner = k.client → ∃ j, pool.mount x.1.identity.id =
        some j ∧ j.spec = x.1 ∧ j.entry = x.2 ∧ (x ∈ k.accepting → j.state = .accepting) := by
      intro x hx hownr
      obtain ⟨j', hj', hrest⟩ := hsnd.mounted x hx hownr
      refine ⟨j', ?_, hrest⟩
      generalize pool.mount = mount' at heffc ⊢
      cases heffc with
      | existing => exact hj'
      | new hnone =>
        rw [update_of_ne, hj']
        intro heq
        rw [heq, hnone] at hj'
        cases hj'
    intro x hx hownr
    rcases mem_cons.mp hx with rfl | hx
    · refine ⟨j, hj, hspec, hent, fun haccp => ?_⟩
      obtain ⟨j', hj', -, -, haccp'⟩ := hold _ (hsnd.accepting haccp) hownr
      cases hj.symm.trans hj'
      exact haccp' haccp
    · exact hold x hx hownr
  | @see k spec segment _ hheld hmem hst =>
    cases hk'
    have hsnd := h.sound t k hheld
    refine ⟨hcell.1, hcell.2, hsnd.absent, hsnd.established, hsnd.lapsed, hsnd.engaged, ?_, ?_⟩
    · intro x hx hownr
      obtain ⟨j, hj, hspec, hent, haccp⟩ := hsnd.mounted x hx hownr
      refine ⟨j, hj, hspec, hent, fun hx' => ?_⟩
      rcases mem_cons.mp hx' with rfl | hx'
      · have hst' : m.pool.stateAt segment = some j.state := by
          rw [← stateAt_mount hj, hent]
          rfl
        exact Option.some.inj (hst'.symm.trans hst)
      · exact haccp hx'
    · exact cons_subset.mpr ⟨hmem, hsnd.accepting⟩
  | @reactivate k ids pool _ phase hheld heng hmt _ hph =>
    cases hk'
    have hsnd := h.sound t k hheld
    refine ⟨hcell.1, hcell.2, ?_, ?_, ?_, fun _ => ?_, ?_, ?_⟩
    · intro heq
      rcases hph with ⟨hsame, -⟩ | ⟨_, _, _, _, hrdy, -⟩
      · exact hsnd.absent (hsame ▸ heq)
      · cases heq.symm.trans hrdy
    · intro session ready heq
      rcases hph with ⟨hsame, -⟩ | ⟨_, _, _, hph, hrdy, -⟩
      · exact hsnd.established session ready (hsame ▸ heq)
      · cases heq.symm.trans hrdy
        exact hsnd.established session false hph
    · intro heq
      rcases hph with ⟨hsame, -⟩ | ⟨_, _, _, _, hrdy, -⟩
      · exact hsnd.lapsed (hsame ▸ heq)
      · cases heq.symm.trans hrdy
    · rcases hph with ⟨hsame, -⟩ | ⟨_, _, _, _, hrdy, -⟩
      · exact heng.imp_left (hsame ▸ ·)
      · exact .inl (by simp [hrdy])
    · intro x hx hownr
      obtain ⟨j, hj, hspec, hent, haccp⟩ := hsnd.mounted x hx hownr
      dsimp only
      generalize pool.mount = mount' at hmt ⊢
      cases hmt with
      | reactivate =>
        by_cases hid : x.1.identity.id ∈ ids
        · exact ⟨{ j with state := .accepting }, by simp [hid, hj], hspec, hent, fun _ => rfl⟩
        · refine ⟨j, by simp [hid, hj], hspec, hent, fun hx' => ?_⟩
          rcases mem_append.mp hx' with hx' | hx'
          · exact absurd (of_decide_eq_true (mem_filter.mp hx').2) hid
          · exact haccp hx'
    · exact append_subset.mpr ⟨filter_subset_self _, hsnd.accepting⟩
  | detach _ hheld heng =>
    cases hk'
    have hsnd := h.sound t _ hheld
    exact ⟨hcell.1, hcell.2, hsnd.absent, hsnd.established, hsnd.lapsed, fun _ => heng, (by simp), (by simp)⟩
  | pass => exact h.sound t k' hk'
  | clear _ _ hclr =>
    obtain ⟨-, ⟨rfl, -⟩ | ⟨-, rfl⟩⟩ := clearMountState_cases hclr
    · exact h.sound t k' hk'
    · exact (h.sound t k' hk').kept hcell.1 hcell.2 (fun _ => .refl _) fun _ _ _ hj _ => hj
  | @invalidate owners _ pool _ _ howrs hinvd =>
    refine (h.sound t k' hk').kept hcell.1 hcell.2 (fun _ => .refl _) fun heng id j hj hownr => ?_
    obtain ⟨_, pool', hrun, -, -, hmt⟩ := invalidating hp owners
    cases hinvd.symm.trans hrun
    have hnot : j.owner ∉ owners := by
      intro hmem
      obtain ⟨x, hx, hcl⟩ := howrs _ hmem
      exact h.fenced t x hx t k' hk' (hownr.symm.trans hcl.symm) heng
    simp [hmt, hj, hnot]

/-- A mapped slot after the step: it has its old mount state, it is empty, or its holder has
left a new one. -/
theorem step_slot {c : ClientId} (hslot : m'.slots.lookup c = some r) :
    (m'.cells r).mountState = .default ∨ m.slots.lookup c = some r ∧
      ((m'.cells r).mountState = (m.cells r).mountState ∨ ∃ k, (gs t).held = some k ∧ k.client = c ∧
      k.slot = r ∧
        k.MayLeave (m'.cells r).mountState ∧ m'.lifecycle = m.lifecycle) := by
  rcases hmove.lookup_cases hslot with hslot' | ⟨-, hdefault⟩
  · have hturn := hmove.stateTurn r
    generalize (m'.cells r).mountState = state' at hturn ⊢
    cases hturn with
    | same => exact .inr ⟨hslot', .inl rfl⟩
    | make => exact .inl rfl
    | clear => exact .inl rfl
    | @unlock k _ _ hheld hk hlv hsame =>
      subst hk
      have hcl := h.table.injective k.client c k.slot (h.table.lookup hheld).1 hslot'
      exact .inr ⟨hslot', .inr ⟨k, hheld, hcl, rfl, hlv, hsame⟩⟩
  · exact .inl hdefault

theorem step_bound {c : ClientId} {session : ClientSession} (hslot : m'.slots.lookup c = some r)
    (hsess : (m'.cells r).mountState.session = some session) :
    ∃ e, m'.lifecycle.entry c = some e ∧ e.session = session := by
  -- the entry of a session that the slot had
  have hkept : m.slots.lookup c = some r → (m.cells r).mountState.session = some session →
      ∃ e, m'.lifecycle.entry c = some e ∧ e.session = session := by
    intro hslot' hsess'
    obtain ⟨e, he, hsess₀⟩ := h.bound c r session hslot' hsess'
    have hturn := hmove.entryTurn (h.relies t) c
    rw [he] at hturn
    generalize m'.lifecycle.entry c = o' at hturn ⊢
    cases hturn with
    | age haged =>
      obtain ⟨e', he', hsess₁, -⟩ := haged.2 e rfl
      exact ⟨e', he', hsess₁.trans hsess₀⟩
    | @withdraw k _ _ _ hheld hcl hph =>
      subst hcl
      cases (h.table.lookup hheld).1.symm.trans hslot'
      have hsnd := h.sound t k hheld
      rw [hsnd.state, (hsnd.established _ _ hph).1] at hsess'
      cases hsess'
    | finish hmem hcl =>
      rw [h.cleared t _ hmem r (hcl ▸ hslot')] at hsess'
      cases hsess'
  rcases h.step_slot hmove hslot with hdefault | ⟨hslot', hsame | ⟨k, hheld, rfl, rfl, hlv, hlif⟩⟩
  · rw [hdefault] at hsess
    cases hsess
  · exact hkept hslot' (hsame ▸ hsess)
  · have hsnd := h.sound t k hheld
    rcases hlv with ⟨hst, -⟩ | ⟨_, hsess', hph | hst⟩
    · exact hkept hslot' (by rw [hsnd.state, ← hst, hsess])
    · cases hsess'.symm.trans hsess
      rw [hlif]
      exact (hsnd.established _ _ hph).2
    · cases hsess'.symm.trans hsess
      exact hkept hslot' (by rw [hsnd.state, hst])

theorem step_empty (r : SlotRef) (hnone : (m'.cells r).mountState.session = none) :
    (m'.cells r).mountState.segments = ∅ := by
  have hturn := hmove.stateTurn r
  generalize (m'.cells r).mountState = state' at hturn hnone ⊢
  cases hturn with
  | same => exact h.empty r hnone
  | make => rfl
  | clear => rfl
  | @unlock k _ _ hheld hslot hlv =>
    rcases hlv with ⟨rfl, -⟩ | ⟨session, hsess, -⟩
    · rw [← (h.sound t k hheld).state] at hnone ⊢
      exact h.empty _ hnone
    · cases hnone.symm.trans hsess

theorem step_free (hx : x ∈ (gs u).cleared)
    (hslot : m'.slots.lookup x.session.clientId = some r) :
    (m'.cells r).mountState.session = none := by
  rcases h.step_slot hmove hslot with hdefault | ⟨hslot', hsame | ⟨k, hheld, hcl, rfl, hlv, -⟩⟩
  · rw [hdefault]
    rfl
  · rw [hsame]
    exact h.cleared u x hx r hslot'
  · have hsnd := h.sound t k hheld
    have hfree : k.state.session = none := by
      rw [← hsnd.state]
      exact h.cleared u x hx k.slot hslot'
    rcases hlv with ⟨hst, -⟩ | ⟨session, -, hph | hst⟩
    · rw [hst, hfree]
    · exact absurd (.inl (by simp [hph])) (h.fenced u x hx t k hheld hcl)
    · cases hfree.symm.trans hst

/-- A cleanup that has just been cleared: its client has no slot, or an empty one that is not
locked. -/
theorem step_clear (hx : x ∈ g'.cleared) :
    x ∈ (gs t).cleared ∨ ∀ r, m'.slots.lookup x.session.clientId = some r →
    (m'.cells r).mountState.session = none ∧ (m'.cells r).locked = false := by
  cases hmove with
  | finish cleanup => exact .inl (mem_of_mem_erase hx)
  | pass _ hslot =>
    rcases mem_cons.mp hx with rfl | hx
    · exact .inr fun r hr => by cases hslot.symm.trans hr
    · exact .inl hx
  | @clear cleanup r _ _ _ huses hclr =>
    rcases mem_cons.mp hx with rfl | hx
    · refine .inr ?_
      have hslot := ((h.table.refers t).uses _ r huses).1
      obtain ⟨hfree, ⟨rfl, hnone⟩ | ⟨-, rfl⟩⟩ := clearMountState_cases hclr
      · intro r' hr'
        cases hslot.symm.trans hr'
        exact ⟨hnone, hfree⟩
      · intro r' hr'
        cases hslot.symm.trans hr'
        rw [cells_modifyCell, if_pos rfl]
        exact ⟨rfl, hfree⟩
    · exact .inl hx
  | _ => exact .inl hx

theorem step_cleared (hx : x ∈ (update gs t g' t').cleared)
    (hslot : m'.slots.lookup x.session.clientId = some r) :
    (m'.cells r).mountState.session = none := by
  by_cases ht : t' = t
  · rw [ht, update_self] at hx
    rcases h.step_clear hmove hx with hx | hfree
    · exact h.step_free hmove hx hslot
    · exact (hfree r hslot).1
  · rw [update_of_ne ht] at hx
    exact h.step_free hmove hx hslot

theorem step_fenced (hx : x ∈ (update gs t g' u).cleared)
    (hk : (update gs t g' t').held = some k) (hcl : k.client = x.session.clientId) :
    ¬k.Engaged := by
  have hlook := (h.table.step hmove).lookup hk
  have hlck := ((h.table.step hmove).refers t').held k hk
  -- the lock was there before the cleanup was cleared, or it was taken since
  have hold : ∀ u', x ∈ (gs u').cleared → ¬k.Engaged := by
    intro u' hx'
    by_cases ht : t' = t
    · rw [ht, update_self] at hk
      rcases hmove.held_cases hk with ⟨k₀, hk₀, hcl₀, heng⟩ | ⟨c, r, rfl, huses, -⟩
      · intro hk'
        rcases heng hk' with heng | hnone
        · exact h.fenced u' x hx' t k₀ hk₀ (hcl₀.symm.trans hcl) heng
        · obtain ⟨_, -, he, -⟩ := h.entry_of_cleared hx'
          rw [← hcl, hcl₀, hnone] at he
          cases he
      · rintro (hph | hsess)
        · exact hph rfl
        · exact hsess (h.cleared u' x hx' r (hcl ▸ ((h.table.refers t).uses c r huses).1))
    · rw [update_of_ne ht] at hk
      exact h.fenced u' x hx' t' k hk hcl
  by_cases hu : u = t
  · rw [hu, update_self] at hx
    rcases h.step_clear hmove hx with hx | hfree
    · exact hold t hx
    · rw [(hfree k.slot (hcl ▸ hlook.1)).2] at hlck
      cases hlck.2.1
  · rw [update_of_ne hu] at hx
    exact hold u hx

/-- A move of one thread keeps the manager coherent. -/
theorem step : Coherent cfg m' (update gs t g') where
  registry := h.step_registry hmove
  latest := h.step_latest hmove
  pool := h.step_pool hmove
  table := h.table.step hmove
  tokens := by
    obtain ⟨_, hhist, -⟩ := h.step_registry hmove
    exact h.tokens.step (hmove.tokenTurn (h.relies t)) hhist.invariant.unfinished_le
  sound t' k hk := by
    by_cases ht : t' = t
    · rw [ht, update_self] at hk
      exact h.step_sound_self hmove hk
    · rw [update_of_ne ht] at hk
      exact h.step_sound_other hmove ht hk
  bound _ _ _ hslot hsess := h.step_bound hmove hslot hsess
  empty := h.step_empty hmove
  cleared _ _ hx _ hslot := h.step_cleared hmove hx hslot
  fenced _ _ hx _ _ hk hcl := h.step_fenced hmove hx hk hcl

end Step

end Coherent

end Cakemaster.Client
