import Cakemaster.Client.Ledger

/-!
# Calls that run alone: the books

Calls that mount and unmount segments and the jobs of the queue, as turns of the books.
-/

namespace Cakemaster.Client

open Machine Machine.Prog Segment ClientManager Function Ensures
open Object (ClientSession)

variable {A : UnitAllocator} {cfg : ClientLifecycleConfig} {m m' : ClientManager A} {α : Type}
  {gs : ℕ → Ghost} {c : ClientId} {id : SegmentId}
variable {session : ClientSession} {p : SegmentPool A} {held : Multiset (Reservation A)}
    {job : GracefulUnmountJob} {k : Mount} {m₁ : ClientManager A}

def ClientManager.ledger (m : ClientManager A) : Ledger where
  entry := m.lifecycle.entry
  slot := m.mountState
  mount := m.pool.mount
  poolId := m.pool.poolId
  next := m.pool.entries.length
  queue := m.gracefulUnmounts

theorem ClientManager.SameBooks.ledger (h : SameBooks m m') :
    m'.ledger = { m.ledger with slot := m'.mountState } := by
  rw [ClientManager.ledger, ClientManager.ledger, h.lifecycle, h.pool, h.gracefulUnmounts]

/-- The books after a change of one segment, of its client's slot and of the queue. -/
theorem ClientManager.Alike.ledger {m₂ : ClientManager A}
    {f : GracefulUnmountQueue → GracefulUnmountQueue} (h : Alike m m₁) (hbk : SameBooks m₂ m')
    (hlif : m₂.lifecycle = m₁.lifecycle) (hkp : m₁.pool.Keeps m₂.pool)
    (hmt : m₂.pool.mount = update m₁.pool.mount id left)
    (hque : m₂.gracefulUnmounts = f m₁.gracefulUnmounts) : m'.ledger = { m.ledger with
      slot := m'.mountState
      mount := update m.pool.mount id left
      queue := f m.gracefulUnmounts } := by
  rw [h.pool] at hkp hmt
  rw [h.gracefulUnmounts] at hque
  rw [h.lifecycle] at hlif
  refine hbk.ledger.trans (Ledger.ext ?_ rfl hmt hkp.poolId hkp.entries hque)
  exact congrArg Lifecycle.entry hlif

theorem ClientManager.Alike.ledger_same (h : Alike m m₁) (hbk : SameBooks m₁ m')
    (hview : m'.mountState = update m.mountState c (m.mountState c)) : m'.ledger = m.ledger := by
  rw [update_eq_self] at hview
  rw [(h.toSameBooks.trans hbk).ledger, hview]
  rfl

/-! ### Mounting -/

theorem MountsAlone.turn (h : MountsAlone cfg c now specs false m result m')
    (howrs : ∀ session, result = .ok (.activated session) → ∀ spec ∈ specs, spec.identity.owner = c) :
    m.ledger.Turn (.serve [c]) m'.ledger := by
  obtain ⟨state, hmtg, hview⟩ := h.mounting
  obtain ⟨hpoolId, hnext⟩ := h.growth
  have hldg : m'.ledger = { m.ledger with
      entry := m'.lifecycle.entry
      slot := update m.mountState c state
      mount := m'.pool.mount
      next := m'.pool.entries.length } := by
    rw [ClientManager.ledger, hview, hpoolId, h.gracefulUnmounts]
    rfl
  rw [hldg]
  generalize m'.pool.entries.length = next at hnext
  generalize m'.pool.mount = mount at hmtg
  generalize m'.lifecycle = lifecycle at hmtg
  cases hmtg with
  | refuse _ _ hrev =>
    cases hrev
    rw [update_eq_self]
    exact .age _ _ next (fun _ => .refl _) hnext
  | expire _ e hent =>
    rw [update_eq_self]
    exact .age _ _ next (fun c' => (RegistryState.Ages.fenceEntry hent _).aged c') hnext
  | refresh session hacv =>
    rw [update_eq_self]
    have hages := RegistryState.ages_activate (r := m.lifecycle.registry) cfg c now fun session' heq => by
      cases hacv.symm.trans heq
    exact .age _ _ next (fun c' => hages.aged c') hnext
  | add session spec hspecs hownr hacv hsess hmt =>
    subst hspecs hownr
    have hages := RegistryState.ages_activate (r := m.lifecycle.registry) cfg spec.identity.owner
      now fun session' heq => by cases hacv.symm.trans heq
    have hturn := @Ledger.Turn.add m.ledger session spec _ next (fun c' => hages.aged c') hnext hsess hmt
    rw [show (⟨some session, insert spec.identity.id (m.ledger.slot spec.identity.owner).segments⟩ :
      ClientMountState) = { m.mountState spec.identity.owner with
        segments := insert spec.identity.id (m.mountState spec.identity.owner).segments } by
          rw [← hsess]
          rfl] at hturn
    exact hturn
  | establish session _ _ hacv hmt =>
    obtain ⟨-, hent, -, -, hents⟩ := Lifecycle.activate_activated hacv
    have hturn := Ledger.Turn.establish (b := m.ledger)
      (e := ⟨session, .active, Word.satAdd 64 now cfg.ttlTicks⟩) next hent (howrs _ rfl) hmt hnext
    have hupda : (m.lifecycle.activate cfg c now).2.entry = update m.lifecycle.entry c
        (some ⟨session, .active, Word.satAdd 64 now cfg.ttlTicks⟩) := by
      funext c'
      rw [hents, update_apply]
    rw [hupda]
    exact hturn

/-! ### Unmounting -/

section Unmounting

variable {post : α → ClientManager A → Prop}

theorem ensures_onGraceful {β : Type} {f : GracefulUnmountQueue → β × GracefulUnmountQueue}
    {k : β → ManagerM A α}
    (hk : Ensures (k (f m.gracefulUnmounts).1) { m with gracefulUnmounts := (f m.gracefulUnmounts).2 } post) :
    Ensures ((onGraceful f).bind k) m post := by
  refine await_iff.mpr fun b m₁ hrun => ?_
  split at hrun
  · cases hrun
  · cases hrun
    exact hk

theorem ensures_lockGraceful {k : Unit → ManagerM A α}
    (hk : Ensures (k ()) { m with gracefulLocked := true } post) :
    Ensures (lockGraceful.bind k) m post := by
  refine await_iff.mpr fun b m₁ hrun => ?_
  split at hrun
  · cases hrun
  · cases hrun
    exact hk

theorem Coherent.clientId (h : Coherent cfg m gs)
    (hsess : m.lifecycle.registry.activeSession c = .ok session) :
    session.clientId = c ∧ ∃ e, m.lifecycle.entry c = some e ∧ e.session = session := by
  obtain ⟨e, hent, -, rfl⟩ := Lifecycle.activeSession_ok hsess
  obtain ⟨_, hhist, -⟩ := h.registry
  exact ⟨hhist.invariant.owned c e hent, e, hent, rfl⟩

theorem quiesce_remove (hp : PoolInvariant p held) (hmt : p.mount id = some k)
    (hownr : k.owner = c) :
    (p.quiesce c id).1 = .ok () ∧ ((p.quiesce c id).2.remove c id).1 = .ok () ∧
      p.Keeps ((p.quiesce c id).2.remove c id).2 ∧
        ((p.quiesce c id).2.remove c id).2.mount = update p.mount id none := by
  obtain ⟨hpool, hkp, hchg⟩ := quiescing hp c id
  obtain ⟨hok, hmt'⟩ := hchg.owned hmt hownr
  obtain ⟨-, hkp', hrmg⟩ := removing hpool c id
  obtain ⟨hok', hmt''⟩ := hrmg.quiesced (k := { k with state := .quiesced })
    (by rw [hmt', update_self]) hownr rfl
  refine ⟨hok, hok', hkp.trans hkp', ?_⟩
  rw [hmt'', hmt', update_idem]

/-- The guard of an operation on a mounted segment. -/
theorem ledger_records (hcl : session.clientId = c)
    (hgrd : ¬((m.mountState c).session ≠ some session ∨ id ∉ (m.mountState c).segments))
    (hmt : m.pool.mount id = some k) (hownr : k.owner = c) : m.ledger.Records ⟨session, id⟩ k := by
  rw [not_or, not_not, not_not] at hgrd
  subst hcl
  exact ⟨hgrd.1, hgrd.2, hmt, hownr⟩

theorem ensures_unmountLocked (hp : PoolInvariant m.pool held) (hlike : Alike m m₁)
    (hcl : session.clientId = c) (hmt : m.pool.mount id = some k) (hownr : k.owner = c) :
    Ensures (unmountLocked c session id (m.mountState c)) m₁ fun x m₂ => SameSlots m₁ m₂ ∧
      (x.2.session = none → x.2.segments = ∅ ∨ x.2 = m.mountState c) ∧
      ∀ m', SameBooks m₂ m' → m'.mountState = update m.mountState c x.2 →
      m.ledger.Turn (.serve [c]) m'.ledger := by
  have hsame : ∀ m', SameBooks m₁ m' → m'.mountState = update m.mountState c (m.mountState c) →
      m.ledger.Turn (.serve [c]) m'.ledger := by
    intro m' hbk hview
    rw [hlike.ledger_same hbk hview]
    exact .same _ _
  rw [unmountLocked]
  split
  · exact .ret ⟨⟨rfl, rfl, rfl⟩, fun _ => .inr rfl, hsame⟩
  next hgrd =>
  have hrec := ledger_records hcl hgrd hmt hownr
  have hpool₁ : PoolInvariant m₁.pool held := by rwa [hlike.pool]
  obtain ⟨hok, hok', hkp, hmt'⟩ := quiesce_remove hpool₁ (by rwa [hlike.pool]) hownr
  refine .update ?_
  dsimp only
  rw [hok]
  refine .update ?_
  dsimp only
  rw [hok']
  refine ensures_onGraceful (.ret ⟨⟨rfl, rfl, rfl⟩, ?_, ?_⟩)
  · intro hnone
    rw [not_or, not_not] at hgrd
    cases hgrd.1.symm.trans hnone
  · intro m' hbk hview
    subst hcl
    rw [hlike.ledger (f := (·.cancel ⟨session, id⟩)) hbk rfl hkp hmt' rfl, hview]
    exact .unmount hrec

theorem ensures_unmountSegment (h : Coherent cfg m gs) :
    Ensures (unmountSegment c id) m fun _ m' => m.ledger.Turn (.serve [c]) m'.ledger := by
  obtain ⟨_, hp⟩ := h.pool
  rw [unmountSegment]
  split
  · exact .ret (.same _ _)
  split
  · exact .ret (.same _ _)
  refine read_iff.mpr ?_
  dsimp only [SegmentPool.segment]
  cases hmt : m.pool.mount id with
  | none => exact .ret (.same _ _)
  | some k =>
    dsimp only [Option.map_some]
    split
    · exact .ret (.same _ _)
    next hownr =>
    refine read_iff.mpr ?_
    dsimp only
    cases hsess : m.lifecycle.registry.activeSession c with
    | error err => exact .ret (.same _ _)
    | ok session =>
      obtain ⟨hcl, -⟩ := h.clientId hsess
      refine ensures_atSlot h.slotMap (fun _ => .ret (.same _ _)) (fun _ => rfl) fun r m₁ hlike hslot => ?_
      refine (ensures_unmountLocked hp hlike hcl hmt (not_not.mp hownr)).seq ?_
      rintro ⟨_, _⟩ _ ⟨hsame, hst, hturn⟩
      exact ensures_leave h.slotMap hlike hslot hsame hst hturn

/-- The answer to a request for a graceful unmount and what it makes of the books. -/
def Schedules (c : ClientId) (id : SegmentId) (deadline : ClientTick) (m : ClientManager A) :
    Except ClientManagerError Unit → ClientManager A → Prop
  | .error _, m' => m.ledger.Turn (.serve [c]) m'.ledger
  | .ok (), m' => ∃ session k, m.lifecycle.registry.activeSession c = .ok session ∧ m.pool.mount id = some k ∧
      m.ledger.Turn (.schedule ⟨⟨session, id⟩, m.pool.handle k.entry, deadline⟩) m'.ledger

theorem Schedules.refuse (deadline : ClientTick) (err : ClientManagerError)
    (h : m'.ledger = m.ledger) :
    Schedules c id deadline m (.error err) m' := by
  rw [Schedules, h]
  exact .same _ _

theorem ensures_scheduleLocked {deadline : ClientTick} (hp : PoolInvariant m.pool held)
    (hlike : Alike m m₁) (hcl : session.clientId = c)
    (hsess : m.lifecycle.registry.activeSession c = .ok session) (hmt : m.pool.mount id = some k)
    (hownr : k.owner = c) :
    Ensures (scheduleLocked c session (m.pool.handle k.entry) id deadline (m.mountState c)) m₁
    fun result m₂ =>
      SameSlots m₁ m₂ ∧ ∀ m', SameBooks m₂ m' → m'.mountState = m.mountState →
          Schedules c id deadline m result m' := by
  have hmt₁ : m₁.pool.mount id = some k := by rwa [hlike.pool]
  have hpool₁ : PoolInvariant m₁.pool held := by rwa [hlike.pool]
  -- the books after a refusal
  have hrefuse : ∀ {m₂ : ClientManager A} err, SameSlots m₁ m₂ ∧ SameBooks m₁ m₂ → SameSlots m₁ m₂ ∧
      ∀ m', SameBooks m₂ m' → m'.mountState = m.mountState →
      Schedules c id deadline m (.error err) m' := by
    rintro m₂ err ⟨hslots, hbk⟩
    refine ⟨hslots, fun m' hbk' hview => .refuse deadline err ?_⟩
    rw [((hlike.toSameBooks.trans hbk).trans hbk').ledger, hview]
    rfl
  rw [scheduleLocked]
  split
  · exact .ret (hrefuse _ ⟨⟨rfl, rfl, rfl⟩, ⟨rfl, rfl, rfl, rfl⟩⟩)
  next hgrd =>
  have hrec := ledger_records hcl hgrd hmt hownr
  refine ensures_lockGraceful (ensures_segmentState hmt₁ rfl ?_)
  rcases (hp.mounts.mount_spec hmt).2 with hst | hst
  · rw [hst]
    obtain ⟨_, hkp, hchg⟩ := quiescing hpool₁ c id
    obtain ⟨hok, hmt'⟩ := hchg.owned hmt₁ hownr
    refine .update ?_
    dsimp only
    rw [hok]
    refine modify_iff.mpr (.ret ⟨⟨rfl, rfl, rfl⟩, fun m' hbk hview => ?_⟩)
    refine ⟨session, k, hsess, hmt, ?_⟩
    rw [hlike.ledger (f := (·.schedule ⟨session, id⟩ (m.pool.handle k.entry) deadline)) hbk rfl hkp
      hmt' rfl, hview]
    exact .schedule deadline hrec (.inl hst)
  rw [hst]
  refine read_iff.mpr ?_
  dsimp only
  split
  next hcontains =>
    refine modify_iff.mpr (.ret ⟨⟨rfl, rfl, rfl⟩, fun m' hbk hview => ?_⟩)
    refine ⟨session, k, hsess, hmt, ?_⟩
    have hsame : m₁.pool.mount = update m₁.pool.mount id (some { k with state := .quiesced }) := by
      rw [← hst, ← hmt₁, update_eq_self]
    rw [hlike.ledger (f := (·.schedule ⟨session, id⟩ (m.pool.handle k.entry) deadline)) hbk rfl
      (.refl _) hsame rfl, hview]
    rw [hlike.gracefulUnmounts] at hcontains
    exact .schedule deadline hrec (.inr ⟨hst, hcontains⟩)
  · refine modify_iff.mpr (.ret (hrefuse _ ⟨⟨rfl, rfl, rfl⟩, ⟨rfl, rfl, rfl, rfl⟩⟩))

theorem ensures_scheduleGracefulUnmount (h : Coherent cfg m gs) :
    Ensures (scheduleGracefulUnmount c id deadline) m (Schedules c id deadline m) := by
  obtain ⟨_, hp⟩ := h.pool
  rw [scheduleGracefulUnmount]
  split
  · exact .ret (.refuse deadline _ rfl)
  split
  · exact .ret (.refuse deadline _ rfl)
  refine read_iff.mpr ?_
  dsimp only [SegmentPool.segment]
  cases hmt : m.pool.mount id with
  | none => exact .ret (.refuse deadline _ rfl)
  | some k =>
    dsimp only [Option.map_some]
    split
    · exact .ret (.refuse deadline _ rfl)
    next hownr =>
    refine read_iff.mpr ?_
    dsimp only
    cases hsess : m.lifecycle.registry.activeSession c with
    | error err => exact .ret (.refuse deadline _ rfl)
    | ok session =>
      obtain ⟨hcl, -⟩ := h.clientId hsess
      refine ensures_atSlot h.slotMap (fun _ => .ret (.refuse deadline _ rfl)) (fun _ => rfl)
        fun r m₁ hlike hslot => ?_
      refine (ensures_scheduleLocked hp hlike hcl hsess hmt (not_not.mp hownr)).seq ?_
      rintro _ _ ⟨hsame, hschedules⟩
      refine ensures_leave h.slotMap hlike hslot hsame (fun _ => .inr rfl) fun m' hbk hview => ?_
      rw [update_eq_self] at hview
      exact hschedules m' hbk hview

/-! ### Graceful jobs -/

section

variable (hp : PoolInvariant p held) (hmt : p.mount id = some k) (hownr : k.owner ≠ c)
include hp hmt hownr

theorem quiesce_foreign : ∃ err, (p.quiesce c id).1 = .error err := by
  obtain ⟨-, -, hchg⟩ := quiescing hp c id
  generalize (p.quiesce c id).1 = result at hchg
  generalize (p.quiesce c id).2.mount = mount at hchg
  cases hchg with
  | refuse err => exact ⟨err, rfl⟩
  | change k' hk' hownr' =>
    cases hmt.symm.trans hk'
    exact absurd hownr' hownr

theorem remove_foreign : ∃ err, (p.remove c id).1 = .error err := by
  obtain ⟨-, -, hrmg⟩ := removing hp c id
  generalize (p.remove c id).1 = result at hrmg
  generalize (p.remove c id).2.mount = mount at hrmg
  cases hrmg with
  | refuse err => exact ⟨err, rfl⟩
  | remove k' hk' hownr' =>
    cases hmt.symm.trans hk'
    exact absurd hownr' hownr

end

theorem quiesce_error (h : (p.quiesce c id).1 = .error err) :
    (p.quiesce c id).2 = p := updateDirectCatalog_error h

/-- The answer to a job of the queue and what it makes of the books. -/
def Completes (job : GracefulUnmountJob) (b : Ledger) :
    Except SegmentStateError Bool → Ledger → Prop
  | .ok true, b' => b' = b.without job.key ∧ ∃ k, b.Records job.key k ∧
    job.incarnation = b.incarnation k ∧ k.state = .quiesced
  | .ok false, b' => b' = b ∧ ∀ k, b.Records job.key k → job.incarnation ≠ b.incarnation k
  | .error _, b' => (∃ k, b.Records job.key k ∧ job.incarnation = b.incarnation k ∧ k.state = .accepting ∧
      b' = { b with mount := Function.update b.mount job.key.segment (some { k with state := .quiesced }) }) ∨
      b' = b ∧ job.key.segment ∈ (b.slot job.key.session.clientId).segments ∧
        ∃ k, b.mount job.key.segment = some k ∧ k.owner ≠ job.key.session.clientId

theorem ensures_completeLocked (hp : PoolInvariant m.pool held) (hlike : Alike m m₁) :
    Ensures (completeLocked job (m.mountState job.key.session.clientId)) m₁ fun x m₂ => SameSlots m₁
      m₂ ∧ (x.2.session = none → x.2.segments = ∅ ∨ x.2 = m.mountState job.key.session.clientId) ∧
      ∀ m', SameBooks m₂ m' → m'.mountState = update m.mountState job.key.session.clientId x.2 →
        Completes job m.ledger x.1 m'.ledger := by
  have hstl : (∀ k, m.ledger.Records job.key k → job.incarnation ≠ m.ledger.incarnation k) →
        ∀ m', SameBooks m₁ m' → m'.mountState = update m.mountState job.key.session.clientId
        (m.mountState job.key.session.clientId) →
          Completes job m.ledger (.ok false) m'.ledger := by
    intro hrec m' hbk hview
    exact ⟨hlike.ledger_same hbk hview, hrec⟩
  rw [completeLocked]
  split
  next hgrd =>
    refine .ret ⟨⟨rfl, rfl, rfl⟩, fun _ => .inr rfl, hstl ?_⟩
    intro k hrec
    rcases hgrd with hgrd | hgrd
    · exact absurd hrec.session hgrd
    · exact absurd hrec.segment hgrd
  next hgrd =>
  refine read_iff.mpr ?_
  dsimp only [SegmentPool.segment]
  rw [hlike.pool]
  cases hmt : m.pool.mount job.key.segment with
  | none =>
    refine .ret ⟨⟨rfl, rfl, rfl⟩, fun _ => .inr rfl, hstl fun k hrec => ?_⟩
    cases hmt.symm.trans hrec.mount
  | some k =>
    have hmt₁ : m₁.pool.mount job.key.segment = some k := by rwa [hlike.pool]
    have hpool₁ : PoolInvariant m₁.pool held := by rwa [hlike.pool]
    have hsgm : job.key.segment ∈ (m.mountState job.key.session.clientId).segments := by
      rw [not_or, not_not, not_not] at hgrd
      exact hgrd.2
    dsimp only [Option.map_some]
    split
    next hoth =>
      refine .ret ⟨⟨rfl, rfl, rfl⟩, fun _ => .inr rfl, hstl fun k' hrec' => ?_⟩
      cases hmt.symm.trans hrec'.mount
      exact hoth
    next hinc =>
    refine ensures_segmentState hmt₁ rfl ?_
    by_cases hownr : k.owner = job.key.session.clientId
    swap
    · -- the pool refuses a client that is not the owner
      have hfgn : ∀ {err : SegmentStateError} m', SameBooks m₁ m' → m'.mountState =
          update m.mountState job.key.session.clientId (m.mountState job.key.session.clientId) →
            Completes job m.ledger (.error err) m'.ledger :=
        fun m' hbk hview => .inr ⟨hlike.ledger_same hbk hview, hsgm, k, hmt, hownr⟩
      rcases (hp.mounts.mount_spec hmt).2 with hst | hst
      · rw [hst]
        refine .update ?_
        obtain ⟨err, herr⟩ := quiesce_foreign hpool₁ hmt₁ hownr
        dsimp only
        rw [herr, quiesce_error herr]
        exact .ret ⟨⟨rfl, rfl, rfl⟩, fun _ => .inr rfl, hfgn⟩
      · rw [hst]
        refine .update ?_
        obtain ⟨err, herr⟩ := remove_foreign hpool₁ hmt₁ hownr
        dsimp only
        rw [herr, remove_error herr]
        exact .ret ⟨⟨rfl, rfl, rfl⟩, fun _ => .inr rfl, hfgn⟩
    have hrec : m.ledger.Records job.key k := ledger_records rfl hgrd hmt hownr
    rcases (hp.mounts.mount_spec hmt).2 with hst | hst
    · rw [hst]
      obtain ⟨-, hkp, hchg⟩ := quiescing hpool₁ job.key.session.clientId job.key.segment
      obtain ⟨hok, hmt'⟩ := hchg.owned hmt₁ hownr
      refine .update ?_
      dsimp only
      rw [hok]
      refine .ret ⟨⟨rfl, rfl, rfl⟩, fun _ => .inr rfl, fun m' hbk hview => ?_⟩
      rw [update_eq_self] at hview
      rw [hlike.ledger (f := fun queue => queue) hbk rfl hkp hmt' rfl, hview]
      exact .inl ⟨k, hrec, not_not.mp hinc, hst, rfl⟩
    rw [hst]
    obtain ⟨-, hkp, hrmg⟩ := removing hpool₁ job.key.session.clientId job.key.segment
    obtain ⟨hok, hmt'⟩ := hrmg.quiesced hmt₁ hownr hst
    refine .update ?_
    dsimp only
    rw [hok]
    refine .ret ⟨⟨rfl, rfl, rfl⟩, ?_, fun m' hbk hview => ?_⟩
    · intro hnone
      rw [not_or, not_not] at hgrd
      cases hgrd.1.symm.trans hnone
    rw [hlike.ledger (f := fun queue => queue) hbk rfl hkp hmt' rfl, hview]
    exact ⟨rfl, k, hrec, not_not.mp hinc, hst⟩

theorem ensures_completeGracefulUnmount (h : Coherent cfg m gs) :
    Ensures (completeGracefulUnmount job) m fun result m' =>
      Completes job m.ledger result m'.ledger := by
  obtain ⟨_, hp⟩ := h.pool
  rw [completeGracefulUnmount]
  refine ensures_atSlot h.slotMap (fun hnone => .ret ⟨rfl, fun k hrec => ?_⟩) (fun _ => rfl)
    fun r m₁ hlike hslot => ?_
  · have hsess : (m.mountState job.key.session.clientId).session = some job.key.session :=
      hrec.session
    rw [mountState_none hnone] at hsess
    cases hsess
  refine (ensures_completeLocked hp hlike).seq ?_
  rintro ⟨result, _⟩ _ ⟨hsame, hst, hcpl⟩
  exact ensures_leave h.slotMap hlike hslot hsame hst hcpl

theorem ensures_runGracefulJob (h : Coherent cfg m gs) :
    Ensures (runGracefulJob now report job) m fun _ m' =>
      m.ledger.Turn (.complete job) m'.ledger := by
  rw [runGracefulJob]
  refine (ensures_completeGracefulUnmount h).seq fun result m₁ hcpl => ?_
  -- the queue is all that is left to change
  have hque : ∀ queue,
    ({ m₁ with gracefulUnmounts := queue } : ClientManager A).ledger = { m₁.ledger with queue } :=
    fun _ => rfl
  have hbef : m₁.gracefulUnmounts = m.gracefulUnmounts := by
    have hldg : m₁.ledger.queue = m.ledger.queue := by
      cases result with
      | error err =>
        rcases hcpl with ⟨k, -, -, -, heq⟩ | ⟨heq, -⟩
        · rw [heq]
        · rw [heq]
      | ok removed =>
        cases removed with
        | false => rw [hcpl.1]
        | true => rw [hcpl.1, Ledger.without]
    exact hldg
  cases result with
  | error err =>
    refine ensures_onGraceful ?_
    have hpost : m.ledger.Turn (.complete job) ({ m₁ with
        gracefulUnmounts := (m₁.gracefulUnmounts.retry job (Word.satAdd 64 now gracefulUnmountRetryTicks)).2 } :
          ClientManager A).ledger := by
      rw [hque, hbef]
      rcases hcpl with ⟨k, hrec, hinc, hst, hldg⟩ | ⟨hldg, hsgm, k, hmt, hownr⟩
      · rw [hldg]
        exact .retry (Word.satAdd 64 now gracefulUnmountRetryTicks) hrec hinc hst
      · rw [hldg]
        exact .refuse _ hsgm hmt hownr
    split <;> exact .ret hpost
  | ok removed =>
    cases removed with
    | false =>
      refine ensures_onGraceful (.ret ?_)
      rw [hque, hcpl.1, hbef]
      exact .stale hcpl.2
    | true =>
      obtain ⟨hldg, k, hrec, hinc, hst⟩ := hcpl
      refine ensures_onGraceful (.ret ?_)
      rw [hque, hldg, hbef]
      exact .remove hrec hinc hst

end Unmounting

end Cakemaster.Client
