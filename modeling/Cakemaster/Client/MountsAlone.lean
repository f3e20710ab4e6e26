import Cakemaster.Client.SlotFrames

/-!
# Calls that run alone: mounting

What `mount_segment` and `remount` do to the table of mounted segments. Segments are attached
one by one, reactivated together and followed by the activation of the session; when one of
these fails, the rollback leaves the table as it was, but for the new segments of other clients,
which it cannot take off.
-/

namespace Cakemaster.Client

open Machine Machine.Prog Segment ClientManager Function Lifecycle List Ensures Option RegistryState
open Object (ClientSession)

variable {A : UnitAllocator} {cfg : ClientLifecycleConfig} {m m' : ClientManager A} {α : Type}
  {held : Multiset (Reservation A)} {c : ClientId} {mount mount' : MountTable}
variable {gs : ℕ → Ghost} {l : Lifecycle} {session : ClientSession} {k : Mount} {id : SegmentId}

abbrev MountTable := SegmentId → Option Mount

/-- A pool in order that has come from another one and shows the given table. -/
structure Shows (held : Multiset (Reservation A)) (before : SegmentPool A) (mount : MountTable)
    (p : SegmentPool A) :
    Prop where
  invariant : PoolInvariant p held
  growth : before.Extends p
  mount : p.mount = mount

/-! ### Rolling back -/

/-- The table after a rollback: the owner's segments are taken off or quiesced. -/
def rolledBack (c : ClientId) (attached reactivated : List SegmentId) (mount : MountTable) :
    MountTable := fun id =>
  (mount id).bind fun k =>
    if k.owner ≠ c then some k
    else if id ∈ attached then none
    else if id ∈ reactivated then some { k with state := .quiesced }
    else some k

/-- The table is as it was before the request, or a new segment of another client is left. -/
def Reverts (c : ClientId) (foreign : Bool) (mount₀ mount : MountTable) : Prop :=
  match foreign with
  | false => mount = mount₀
  | true => ∃ id k, mount₀ id = none ∧ mount id = some k ∧ k.owner ≠ c

theorem rolledBack_nil (mount : MountTable) : rolledBack c [] [] mount = mount := by
  funext id
  cases hid : mount id <;> simp [rolledBack, hid]

theorem rolledBack_rolledBack (attached reactivated : List SegmentId) (mount : MountTable) :
    rolledBack c attached [] (rolledBack c [] reactivated mount) = rolledBack c attached reactivated mount := by
  funext id
  cases hid : mount id with
  | none => simp [rolledBack, hid]
  | some k =>
    by_cases hownr : k.owner = c
    · by_cases hmem : id ∈ reactivated
      · have hownr' : Mount.owner { k with state := SegmentState.quiesced } = c := hownr
        simp [rolledBack, hid, hownr, hmem, hownr']
      · simp [rolledBack, hid, hownr, hmem]
    · simp [rolledBack, hid, hownr]

theorem rolledBack_quiesce (h : Changing mount c id .quiesced result mount')
    (rest : List SegmentId) :
    rolledBack c [] rest mount' = rolledBack c [] (id :: rest) mount := by
  cases h with
  | refuse err hmt =>
    funext id'
    by_cases hid : id' = id
    · subst hid
      cases hk : mount id' with
      | none => simp [rolledBack, hk]
      | some k => simp [rolledBack, hk, hmt k hk]
    · simp [rolledBack, hid]
  | change k hk hownr =>
    funext id'
    by_cases hid : id' = id
    · subst hid
      have hownr' : Mount.owner { k with state := SegmentState.quiesced } = c := hownr
      simp [rolledBack, hk, hownr, hownr']
    · simp [rolledBack, hid]

theorem rolledBack_remove {mount₁ : MountTable} {result : Except SegmentStateError Unit}
    (hqui : Changing mount c id .quiesced (.ok ()) mount₁) (h : Removing mount₁ c id result mount')
    (rest : List SegmentId) : rolledBack c rest [] mount' = rolledBack c (id :: rest) [] mount := by
  cases hqui with
  | change k hk hownr =>
    cases h with
    | refuse err hmt =>
      have hst := hmt _ (update_self ..) hownr
      cases hst
    | remove =>
      funext id'
      by_cases hid : id' = id
      · subst hid
        simp [rolledBack, hk, hownr]
      · simp [rolledBack, hid]

theorem rolledBack_refused (h : Changing mount c id .quiesced (.error err) mount')
    (rest : List SegmentId) :
    rolledBack c rest [] mount' = rolledBack c (id :: rest) [] mount := by
  cases h with
  | refuse _ hmt =>
    funext id'
    by_cases hid : id' = id
    · subst hid
      cases hk : mount id' with
      | none => simp [rolledBack, hk]
      | some k => simp [rolledBack, hk, hmt k hk]
    · simp [rolledBack, hid]

theorem rolledBack_reverse (attached reactivated : List SegmentId) (mount : MountTable) :
    rolledBack c attached.reverse reactivated.reverse mount = rolledBack c attached reactivated mount := by
  funext id
  simp [rolledBack]

/-- A loop of a rollback. What its rest makes of the table is what the whole loop makes of the
table before. -/
theorem ensures_rollbackLoop {ε : Type} {f : ε → SegmentId → ManagerM A ε}
    (back : List SegmentId → MountTable → MountTable) (hback : ∀ mount, back [] mount = mount)
    (hstep : ∀ firstError id rest pool, PoolInvariant pool held →
    Ensures (f firstError id) { m with pool } fun _ m' =>
      ∃ pool', m' = { m with pool := pool' } ∧ PoolInvariant pool' held ∧ pool.Keeps pool' ∧
        back rest pool'.mount = back (id :: rest) pool.mount)
    {pool : SegmentPool A} (hp : PoolInvariant pool held) (ids : List SegmentId) (firstError : ε) :
    Ensures (foldOver f ids firstError) { m with pool } fun _ m' =>
      ∃ pool', m' = { m with pool := pool' } ∧ Shows held pool (back ids pool.mount) pool' := by
  induction ids generalizing pool firstError with
  | nil => exact .ret ⟨pool, rfl, hp, .refl _, (hback _).symm⟩
  | cons id rest ih =>
    refine (hstep firstError id rest pool hp).seq ?_
    rintro firstError' _ ⟨_, rfl, hp₁, hkp, hmt⟩
    refine (ih hp₁ firstError').mono ?_
    rintro _ _ ⟨pool₂, rfl, hshw⟩
    rw [hmt] at hshw
    exact ⟨pool₂, rfl, hshw.invariant, ((SegmentPool.Extends.refl pool).keep hkp).trans hshw.growth, hshw.mount⟩

theorem ensures_rollback (hp : PoolInvariant m.pool held) (attached reactivated : List SegmentId) :
    Ensures (rollback c attached reactivated) m fun _ m' => ∃ pool, m' = { m with pool } ∧
      Shows held m.pool (rolledBack c attached reactivated m.pool.mount) pool := by
  rw [rollback]
  refine (ensures_rollbackLoop (m := m) (rolledBack c []) rolledBack_nil ?_ hp _ _).seq ?_
  · intro firstError id rest pool hpool
    obtain ⟨hpool', hkp, hchg⟩ := quiescing hpool c id
    refine .update ?_
    split <;> exact .ret ⟨_, rfl, hpool', hkp, rolledBack_quiesce hchg rest⟩
  rintro firstError _ ⟨_, rfl, hshw₁⟩
  refine (ensures_rollbackLoop (m := m) (fun ids => rolledBack c ids []) rolledBack_nil ?_
    hshw₁.invariant _ _).seq ?_
  · intro firstError id rest pool hpool
    obtain ⟨hpool', hkp, hchg⟩ := quiescing hpool c id
    refine .update ?_
    cases hqui : (pool.quiesce c id).1 with
    | error err =>
      rw [hqui] at hchg
      exact .ret ⟨_, rfl, hpool', hkp, rolledBack_refused hchg rest⟩
    | ok =>
      rw [hqui] at hchg
      obtain ⟨hpool'', hkp', hrmg⟩ := removing hpool' c id
      refine .update ?_
      split <;>
        exact .ret ⟨_, rfl, hpool'', hkp.trans hkp', rolledBack_remove hchg hrmg rest⟩
  rintro firstError _ ⟨pool, rfl, hshw⟩
  rw [hshw₁.mount, rolledBack_rolledBack, rolledBack_reverse] at hshw
  cases firstError <;>
    exact .ret ⟨pool, rfl, hshw.invariant, hshw₁.growth.trans hshw.growth, hshw.mount⟩

theorem ensures_failWith (hp : PoolInvariant m.pool held) (attached reactivated : List SegmentId)
    (err : ClientManagerError) :
    Ensures (failWith c attached reactivated err) m fun _ m' => ∃ pool, m' = { m with pool } ∧
      Shows held m.pool (rolledBack c attached reactivated m.pool.mount) pool := by
  rw [failWith]
  refine (ensures_rollback hp attached reactivated).seq fun result m' hpost => ?_
  cases result <;> exact .ret hpost

/-! ### Attaching -/

section Attaching

variable {post : α → ClientManager A → Prop} {spec : SegmentSpec} {specs : List SegmentSpec}
  {attached quiescedExisting : List SegmentId} {next : EntryRef} {mount₀ mount mount' : MountTable}

theorem ensures_attachQuiesced (hp : PoolInvariant m.pool held)
    {k : Except AttachError (AttachOutcome × SegmentId) → ManagerM A α}
    (herro : ∀ err pool, m.pool.attachQuiesced spec = some (.error err, pool) → Ensures (k (.error err)) m post)
    (hok : ∀ outcome pool, m.pool.attachQuiesced spec = some (.ok outcome, pool) → PoolInvariant pool held →
      m.pool.Extends pool →
      Attaching m.pool.mount m.pool.poolId m.pool.entries.length spec (.ok outcome) pool.mount →
        Ensures (k (.ok (outcome, spec.identity.id))) { m with pool } post) :
    Ensures ((attachQuiesced spec).bind k) m post := by
  refine await_iff.mpr fun answer m₁ hrun => ?_
  obtain ⟨result, pool, hatt, hpool, hgrth, heffc⟩ := attaching hp spec
  simp only [hatt, map_some, some.injEq, Prod.mk.injEq] at hrun
  obtain ⟨rfl, rfl⟩ := hrun
  cases result with
  | error err =>
    rw [attachQuiesced_error hatt]
    exact herro err pool hatt
  | ok outcome =>
    obtain ⟨k, hmt, hspec, hent⟩ := heffc.mounted
    have hid : pool.idAt outcome.segment.entry = spec.identity.id := by rw [← hent, idAt_mount hmt, hspec]
    have hnext := hok outcome pool hatt hpool hgrth heffc
    rw [← hid] at hnext
    exact hnext

theorem ensures_segmentState (hmt : m.pool.mount id = some k) (hent : handle.entry = k.entry)
    (hf : Ensures (f k.state) m post) : Ensures ((segmentState handle).bind f) m post := by
  refine await_iff.mpr fun state m₁ hrun => ?_
  have hst : m.pool.stateAt handle = some k.state := by
    rw [← stateAt_mount hmt, SegmentPool.stateAt, SegmentPool.stateAt, hent]
    rfl
  simp only [hst, map_some, some.injEq, Prod.mk.injEq] at hrun
  obtain ⟨rfl, rfl⟩ := hrun
  exact hf

/-- The loop that attaches the segments of a remount of client `c` attaches a new one that
belongs to another client. -/
def attachesForeign (c : ClientId) : List SegmentSpec → SegmentPool A → Bool
  | [], _ => false
  | spec :: rest, p =>
    match p.attachQuiesced spec with
    | some (.ok outcome, p) => (outcome.isNew && spec.identity.owner ≠ c) || attachesForeign c rest p
    | _ => false

theorem attachesForeign_owned (howrs : ∀ spec ∈ specs, spec.identity.owner = c)
    (p : SegmentPool A) :
    attachesForeign c specs p = false := by
  induction specs generalizing p with
  | nil => rfl
  | cons spec rest ih =>
    obtain ⟨hownr, howrs⟩ := forall_mem_cons.mp howrs
    rw [attachesForeign]
    split
    · simp [hownr, ih howrs]
    · rfl

/-- The table after some of the segments of a request have been attached. New entries come
after those of the table before; `foreign` says whether one of them is another client's. -/
structure Attached (c : ClientId) (foreign : Bool) (next : EntryRef) (mount₀ : MountTable)
    (specs : List SegmentSpec) (attached quiescedExisting : List SegmentId) (mount : MountTable) :
    Prop where
  new : ∀ id ∈ attached, mount₀ id = none ∧ ∃ k, mount id = some k ∧ k.state = .quiesced ∧
    next ≤ k.entry
  foreign : foreign = true ↔ ∃ id ∈ attached, ∃ k, mount id = some k ∧ k.owner ≠ c
  same : ∀ id, id ∉ attached → mount id = mount₀ id
  existing : ∀ id ∈ quiescedExisting, ∃ k, mount id = some k ∧ k.state = .quiesced
  mounted : ∀ spec ∈ specs, ∃ k, mount spec.identity.id = some k ∧ k.spec = spec ∧
    (spec.identity.id ∈ attached ++ quiescedExisting ∨ k.state = .accepting)
  asked : ∀ id ∈ attached ++ quiescedExisting, id ∈ specs.map (·.identity.id)

namespace Attached

theorem nil (next : EntryRef) (mount : MountTable) : Attached c false next mount [] [] [] mount :=
  ⟨nofun, by simp, fun _ _ => rfl, nofun, nofun, nofun⟩

variable {foreign : Bool} (h : Attached c foreign next mount₀ specs attached quiescedExisting mount)
include h

theorem owned (hfgn : foreign = false) (hid : id ∈ attached) (hk : mount id = some k) :
    k.owner = c := by
  by_contra hne
  cases hfgn.symm.trans (h.foreign.mpr ⟨id, hid, k, hk, hne⟩)

theorem attach (hnone : mount spec.identity.id = none) (hfrs : next ≤ fresh) :
    Attached c (foreign || spec.identity.owner ≠ c) next mount₀ (specs ++ [spec])
      (attached ++ [spec.identity.id]) quiescedExisting
      (update mount spec.identity.id (some ⟨fresh, spec, .quiesced⟩)) := by
  have hkeep : ∀ id k, mount id = some k →
      update mount spec.identity.id (some ⟨fresh, spec, .quiesced⟩) id = some k := by
    intro id k hk
    rw [update_of_ne, hk]
    rintro rfl
    cases hnone.symm.trans hk
  constructor
  · intro id hid
    rcases mem_append.mp hid with hid | hid
    · obtain ⟨hnew, k, hk, hrest⟩ := h.new id hid
      exact ⟨hnew, k, hkeep id k hk, hrest⟩
    · cases mem_singleton.mp hid
      have hnot : spec.identity.id ∉ attached := by
        intro hmem
        obtain ⟨-, k, hk, -⟩ := h.new _ hmem
        cases hnone.symm.trans hk
      exact ⟨(h.same _ hnot).symm.trans hnone, _, update_self .., rfl, hfrs⟩
  · rw [Bool.or_eq_true, h.foreign, decide_eq_true_eq]
    constructor
    · rintro (⟨id, hid, k, hk, hne⟩ | hne)
      · exact ⟨id, mem_append_left _ hid, k, hkeep id k hk, hne⟩
      · exact ⟨_, mem_append_right _ (mem_singleton_self _), _, update_self .., hne⟩
    · rintro ⟨id, hid, k, hk, hne⟩
      by_cases h' : id = spec.identity.id
      · subst h'
        cases (update_self ..).symm.trans hk
        exact .inr hne
      · rw [update_of_ne h'] at hk
        exact .inl ⟨id, (mem_append.mp hid).resolve_right (by simpa using h'), k, hk, hne⟩
  · intro id hid
    rw [mem_append, not_or, mem_singleton] at hid
    rw [update_of_ne hid.2]
    exact h.same id hid.1
  · intro id hid
    obtain ⟨k, hk, hrest⟩ := h.existing id hid
    exact ⟨k, hkeep id k hk, hrest⟩
  · intro spec' hspec'
    rcases mem_append.mp hspec' with hspec' | hspec'
    · obtain ⟨k, hk, hspec, hst⟩ := h.mounted spec' hspec'
      refine ⟨k, hkeep _ k hk, hspec, hst.imp_left ?_⟩
      simp only [mem_append]
      tauto
    · cases mem_singleton.mp hspec'
      exact ⟨_, update_self .., rfl, .inl (by simp)⟩
  · intro id hid
    have hasked := h.asked id
    simp only [mem_append, mem_singleton, map_append, map_cons, map_nil] at hid hasked ⊢
    tauto

section

variable (hmt : mount spec.identity.id = some k) (hspec : k.spec = spec)
include hmt hspec

/-- A segment that was there and quiesced. -/
theorem see (hst : k.state = .quiesced) :
    Attached c foreign next mount₀ (specs ++ [spec]) attached
      (quiescedExisting ++ [spec.identity.id]) mount := by
  constructor
  · exact h.new
  · exact h.foreign
  · exact h.same
  · intro id hid
    rcases mem_append.mp hid with hid | hid
    · exact h.existing id hid
    · cases mem_singleton.mp hid
      exact ⟨k, hmt, hst⟩
  · intro spec' hspec'
    rcases mem_append.mp hspec' with hspec' | hspec'
    · obtain ⟨k', hk', hspec, hst⟩ := h.mounted spec' hspec'
      refine ⟨k', hk', hspec, hst.imp_left ?_⟩
      simp only [mem_append]
      tauto
    · cases mem_singleton.mp hspec'
      exact ⟨k, hmt, hspec, .inl (by simp)⟩
  · intro id hid
    have hasked := h.asked id
    simp only [mem_append, mem_singleton, map_append, map_cons, map_nil] at hid hasked ⊢
    tauto

/-- A segment that was there and accepting. -/
theorem pass (hst : k.state = .accepting) :
    Attached c foreign next mount₀ (specs ++ [spec]) attached quiescedExisting mount := by
  constructor
  · exact h.new
  · exact h.foreign
  · exact h.same
  · exact h.existing
  · intro spec' hspec'
    rcases mem_append.mp hspec' with hspec' | hspec'
    · exact h.mounted spec' hspec'
    · cases mem_singleton.mp hspec'
      exact ⟨k, hmt, hspec, .inr hst⟩
  · intro id hid
    have hasked := h.asked id hid
    rw [map_append, mem_append]
    exact .inl hasked

end

theorem rollback (hre : reactivated ⊆ quiescedExisting) :
    Reverts c foreign mount₀ (rolledBack c attached reactivated mount) := by
  cases hfgn : foreign with
  | true =>
    obtain ⟨id, hid, k, hk, hne⟩ := h.foreign.mp hfgn
    exact ⟨id, k, (h.new id hid).1, by simp [rolledBack, hk, hne], hne⟩
  | false =>
    funext id
    by_cases hid : id ∈ attached
    · obtain ⟨hnone, k, hk, -⟩ := h.new id hid
      simp [rolledBack, hk, h.owned hfgn hid hk, hid, hnone]
    · rw [← h.same id hid]
      by_cases hid' : id ∈ reactivated
      · obtain ⟨k, hk, hst⟩ := h.existing id (hre hid')
        simp [rolledBack, hk, hid, hid', ← hst]
      · cases hk : mount id <;> simp [rolledBack, hk, hid, hid']

theorem rollback_reactivated (hrvg : Reactivating mount c (attached ++ quiescedExisting) (.ok ()) mount') :
    foreign = false ∧ rolledBack c attached quiescedExisting mount' = mount₀ := by
  cases hrvg with
  | reactivate hmts =>
    constructor
    · rw [← Bool.not_eq_true, h.foreign]
      rintro ⟨id, hid, k, hk, hne⟩
      obtain ⟨k', hk', hownr⟩ := hmts id (mem_append_left _ hid)
      cases hk.symm.trans hk'
      exact hne hownr
    funext id
    by_cases hid : id ∈ attached
    · obtain ⟨hnone, k, hk, -⟩ := h.new id hid
      obtain ⟨k', hk', hownr⟩ := hmts id (mem_append_left _ hid)
      cases hk.symm.trans hk'
      have hownr' : Mount.owner { k with state := SegmentState.accepting } = c := hownr
      simp [rolledBack, hk, hownr', hid, hnone]
    · rw [← h.same id hid]
      by_cases hid' : id ∈ quiescedExisting
      · obtain ⟨k, hk, hst⟩ := h.existing id hid'
        obtain ⟨k', hk', hownr⟩ := hmts id (mem_append_right _ hid')
        cases hk.symm.trans hk'
        have hownr' : Mount.owner { k with state := SegmentState.accepting } = c := hownr
        simp [rolledBack, hk, hownr', hid, hid', ← hst]
      · cases hk : mount id <;> simp [rolledBack, hk, hid, hid']

end Attached

/-- The table after all segments of a request have been mounted. -/
structure Mounted (next : EntryRef) (mount₀ : MountTable) (specs : List SegmentSpec)
    (mount : MountTable) : Prop where
  other : ∀ id, id ∉ requestedIds specs → mount id = mount₀ id
  each : ∀ spec ∈ specs, ∃ k, mount spec.identity.id = some k ∧ k.spec = spec ∧
    k.state = .accepting ∧ (mount₀ spec.identity.id = none → next ≤ k.entry)
  before : ∀ spec ∈ specs, ∀ k, mount₀ spec.identity.id = some k → k.spec = spec

theorem Attached.reactivate {foreign : Bool}
    (h : Attached c foreign next mount₀ specs attached quiescedExisting mount)
    (hrvg : Reactivating mount c (attached ++ quiescedExisting) (.ok ()) mount') :
    Mounted next mount₀ specs mount' := by
  cases hrvg with
  | reactivate =>
    constructor
    · intro id hid
      have hnot : id ∉ attached ++ quiescedExisting := fun hmem => hid (mem_toFinset.mpr (h.asked id hmem))
      rw [if_neg hnot]
      exact h.same id fun hmem => hnot (mem_append_left _ hmem)
    · intro spec hspec
      obtain ⟨k, hk, hkspec, hst⟩ := h.mounted spec hspec
      have hfrs : mount₀ spec.identity.id = none → next ≤ k.entry := by
        intro hnone
        by_cases hmem : spec.identity.id ∈ attached
        · obtain ⟨-, k', hk', -, hnext⟩ := h.new _ hmem
          cases hk.symm.trans hk'
          exact hnext
        · cases hnone.symm.trans ((h.same _ hmem).symm.trans hk)
      split
      · exact ⟨{ k with state := .accepting }, by rw [hk, map_some], hkspec, rfl, hfrs⟩
      next hnot => exact ⟨k, hk, hkspec, hst.resolve_left hnot, hfrs⟩
    · intro spec hspec k hk
      obtain ⟨k', hk', hkspec, -⟩ := h.mounted spec hspec
      have hnot : spec.identity.id ∉ attached := by
        intro hmem
        cases (h.new _ hmem).1.symm.trans hk
      rw [h.same _ hnot, hk] at hk'
      cases hk'
      exact hkspec

/-- What the loop that attaches the segments of a request has made of the table. -/
def AttachPost (c : ClientId) (foreign : Bool) (next : EntryRef) (mount₀ : MountTable)
    (specs : List SegmentSpec) (mount : MountTable) :
    Except ClientManagerError (List SegmentId × List SegmentId) → Prop
  | .error _ => Reverts c foreign mount₀ mount
  | .ok (attached, quiescedExisting) =>
    Attached c foreign next mount₀ specs attached quiescedExisting mount

theorem ensures_attachSegments (hp : PoolInvariant m.pool held)
    (hnext : next ≤ m.pool.entries.length)
    (h : Attached c foreign next mount₀ specs attached quiescedExisting m.pool.mount) :
    Ensures (attachSegments c rest attached quiescedExisting) m fun result m' =>
    ∃ pool, m' = { m with pool } ∧
      PoolInvariant pool held ∧ m.pool.Extends pool ∧
        AttachPost c (foreign || attachesForeign c rest m.pool) next mount₀ (specs ++ rest)
        pool.mount result := by
  induction rest generalizing m specs attached quiescedExisting foreign with
  | nil =>
    rw [attachSegments]
    refine .ret ⟨_, rfl, hp, .refl _, ?_⟩
    rwa [append_nil, attachesForeign, Bool.or_false]
  | cons spec rest ih =>
    rw [attachSegments]
    refine ensures_attachQuiesced hp (fun err p hatt => ?_) fun outcome pool hatt hpool hgrth hattg => ?_
    · refine (ensures_failWith hp attached [] _).seq ?_
      rintro _ _ ⟨pool, rfl, hshw⟩
      refine .ret ⟨pool, rfl, hshw.invariant, hshw.growth, ?_⟩
      rw [AttachPost, hshw.mount, attachesForeign, hatt, Bool.or_false]
      exact h.rollback (nil_subset _)
    -- the rest of the loop, from the pool that the segment has been attached to
    have hrest : ∀ {attached' quiescedExisting'},
      Attached c (foreign || (outcome.isNew && spec.identity.owner ≠ c))
          next mount₀ (specs ++ [spec]) attached' quiescedExisting' pool.mount →
        Ensures (attachSegments c rest attached' quiescedExisting') { m with pool } fun result m' =>
          ∃ pool, m' = { m with pool } ∧ PoolInvariant pool held ∧ m.pool.Extends pool ∧
            AttachPost c (foreign || attachesForeign c (spec :: rest) m.pool) next mount₀
            (specs ++ spec :: rest)
              pool.mount result := by
      intro attached' quiescedExisting' hattd
      refine (ih (m := { m with pool }) hpool (hnext.trans hgrth.entries) hattd).mono ?_
      rintro result m' ⟨pool', rfl, hpool', hgrth', hres⟩
      rw [append_assoc, singleton_append, Bool.or_assoc] at hres
      refine ⟨pool', rfl, hpool', hgrth.trans hgrth', ?_⟩
      rwa [attachesForeign, hatt]
    generalize hmt : pool.mount = mount at hattg
    cases hattg with
    | new hnone =>
      refine hrest ?_
      rw [hmt]
      exact h.attach hnone hnext
    | existing k hk hspec =>
      have hk' : ({ m with pool } : ClientManager A).pool.mount spec.identity.id = some k := by rw [hmt, hk]
      refine ensures_segmentState hk' rfl ?_
      rcases (hpool.mounts.mount_spec hk').2 with hst | hst <;> rw [hst] <;> refine hrest ?_ <;>
        rw [hmt, AttachOutcome.isNew, Bool.false_and, Bool.or_false]
      · exact h.pass hk hspec hst
      · exact h.see hk hspec hst

end Attaching

/-! ### The operations -/

/-- What a request to mount segments makes of the registry, the table and the mount state of
the client. -/
inductive Mounting (cfg : ClientLifecycleConfig) (c : ClientId) (now : ClientTick)
    (specs : List SegmentSpec) (foreign : Bool) (l : Lifecycle) (next : EntryRef)
    (mount : MountTable) (state : ClientMountState) :
    Except ClientManagerError ActivateOutcome → Lifecycle → MountTable → ClientMountState → Prop
  | refuse (err : ClientManagerError) (mount' : MountTable)
      (hrev : Reverts c foreign mount mount') :
      Mounting cfg c now specs foreign l next mount state (.error err) l mount' state
  | expire (err : ClientManagerError) (e : ClientEntry) (hent : l.entry c = some e)
      (hactv : e.phase = .active) (hdue : e.expiresAt ≤ now) :
      Mounting cfg c now specs foreign l next mount state (.error err)
        { l with registry := l.registry.fenceEntry c e .heartbeatExpired } mount state
  | refresh (session : ClientSession)
      (hacv : (l.activate cfg c now).1 = .ok (.alreadyActive session)) :
      Mounting cfg c now specs foreign l next mount state (.ok (.alreadyActive session))
      (l.activate cfg c now).2 mount
        state
  | add (session : ClientSession) (spec : SegmentSpec) (hspecs : specs = [spec])
      (hownr : spec.identity.owner = c) (hacv : (l.activate cfg c now).1 = .ok (.alreadyActive session))
      (hsess : state.session = some session) (hmt : mount spec.identity.id = none) :
      Mounting cfg c now specs foreign l next mount state (.ok (.alreadyActive session))
      (l.activate cfg c now).2
        (Function.update mount spec.identity.id (some ⟨next, spec, .accepting⟩))
        { state with segments := insert spec.identity.id state.segments }
  | establish (session : ClientSession) (mount' : MountTable) (hown : foreign = false)
      (hacv : (l.activate cfg c now).1 = .ok (.activated session))
      (hmt : Mounted next mount specs mount') :
      Mounting cfg c now specs foreign l next mount state (.ok (.activated session))
      (l.activate cfg c now).2 mount'
        ⟨some session, requestedIds specs⟩

section Operations

variable {now : ClientTick} {spec : SegmentSpec} {specs : List SegmentSpec}
  {state : ClientMountState} {next : EntryRef}

theorem Lifecycle.activeSession_ok (h : l.registry.activeSession c = .ok session) :
    ∃ e, l.entry c = some e ∧ e.phase = .active ∧ e.session = session := by
  rw [activeSession] at h
  split at h
  · cases h
  split at h
  · cases h
  next e hent =>
  split at h
  next hactv =>
    cases h
    exact ⟨e, hent, of_decide_eq_true hactv, rfl⟩
  · cases h

theorem Lifecycle.state_none (h : l.registry.state c = none) : l.entry c = none :=
  map_eq_none_iff.mp h

theorem Mounting.activate_error (h : (l.activate cfg c now).1 = .error err)
    (err' : ClientManagerError) :
    Mounting cfg c now specs false l next mount state (.error err') (l.activate cfg c now).2 mount
    state := by
  have hactvs := activates cfg c now l.registry
  rw [Lifecycle.activate] at h ⊢
  generalize l.registry.activate cfg c now = result at h hactvs
  obtain ⟨_, _⟩ := result
  cases hactvs with
  | refuse => exact .refuse err' _ rfl
  | expire e hent hactv hdue => exact .expire err' e hent hactv hdue
  | refresh | create => cases h

theorem Lifecycle.alreadyActive (h : (l.activate cfg c now).1 = .ok (.alreadyActive session)) :
    ∃ e, l.entry c = some e ∧ e.phase = .active ∧ e.session = session := by
  have hactvs := activates cfg c now l.registry
  rw [activate] at h
  generalize l.registry.activate cfg c now = result at h hactvs
  obtain ⟨_, _⟩ := result
  cases hactvs with
  | refuse | expire | create => cases h
  | refresh e hent hactv =>
    cases h
    exact ⟨e, hent, hactv, rfl⟩

/-- What an operation leaves behind under the lock of the mount state. -/
def Leaves (cfg : ClientLifecycleConfig) (c : ClientId) (now : ClientTick)
    (specs : List SegmentSpec) (foreign : Bool) (held : Multiset (Reservation A))
    (m : ClientManager A) (state : ClientMountState)
    (x : Except ClientManagerError ActivateOutcome × ClientMountState)
    (m' : ClientManager A) : Prop :=
  ∃ lifecycle pool established, m' = { m with lifecycle, pool, established } ∧
    PoolInvariant pool held ∧ m.pool.Extends pool ∧
      Mounting cfg c now specs foreign m.lifecycle m.pool.entries.length m.pool.mount state x.1
      lifecycle pool.mount x.2

theorem Leaves.refuse (hp : PoolInvariant m.pool held) (err : ClientManagerError) :
    Leaves cfg c now specs false held m state (.error err, state) m :=
  ⟨_, _, _, rfl, hp, .refl _, .refuse err _ rfl⟩

theorem ensures_activate_error {pool : SegmentPool A} {attached reactivated : List SegmentId}
    {established : List (ClientSession × List SegmentSpec)} {err : ClientLifecycleError}
    (hp : PoolInvariant pool held) (hgrth : m.pool.Extends pool)
    (hback : rolledBack c attached reactivated pool.mount = m.pool.mount)
    (hacv : (m.lifecycle.activate cfg c now).1 = .error err) (err' : ClientManagerError) :
    Ensures ((failWith c attached reactivated err').bind fun err => .ret (.error err, state))
      { m with pool, lifecycle := (m.lifecycle.activate cfg c now).2, established }
      (Leaves cfg c now specs false held m state) := by
  refine (ensures_failWith hp attached reactivated err').seq ?_
  rintro err'' _ ⟨pool', rfl, hshw⟩
  refine .ret ⟨_, pool', _, rfl, hshw.invariant, hgrth.trans hshw.growth, ?_⟩
  rw [hshw.mount, hback]
  exact .activate_error hacv err''

/-- A client without an entry gets a new session or none. -/
theorem Lifecycle.activate_absent (cfg : ClientLifecycleConfig) (now : ClientTick)
    (hent : l.entry c = none) :
    (∃ err, (l.activate cfg c now).1 = .error err) ∨
    ∃ session, (l.activate cfg c now).1 = .ok (.activated session) := by
  cases hres : (l.activate cfg c now).1 with
  | error err => exact .inl ⟨err, rfl⟩
  | ok outcome =>
    cases outcome with
    | activated session => exact .inr ⟨session, rfl⟩
    | alreadyActive session =>
      obtain ⟨_, he, -⟩ := alreadyActive hres
      cases hent.symm.trans he

theorem ensures_remountAbsent (hp : PoolInvariant m.pool held) (hent : m.lifecycle.entry c = none) :
    Ensures (remountAbsent cfg c specs now state) m
      (Leaves cfg c now specs (attachesForeign c specs m.pool) held m state) := by
  rw [remountAbsent]
  refine (ensures_attachSegments hp le_rfl (.nil m.pool.entries.length m.pool.mount)).seq ?_
  rintro result m₁ ⟨pool₁, rfl, hpool₁, hgrth₁, hres⟩
  cases result with
  | error err =>
    exact .ret ⟨m.lifecycle, pool₁, m.established, rfl, hpool₁, hgrth₁, .refuse err _ hres⟩
  | ok segments =>
    obtain ⟨attached, quiescedExisting⟩ := segments
    have hattd : Attached c (attachesForeign c specs m.pool) m.pool.entries.length m.pool.mount
      specs attached quiescedExisting pool₁.mount := hres
    refine .update ?_
    obtain ⟨hpool₂, hkp, hrvg⟩ := reactivatingMany hpool₁ c (attached ++ quiescedExisting)
    have hgrth₂ := hgrth₁.keep hkp
    cases hmany : (pool₁.reactivateMany c (attached ++ quiescedExisting)).1 with
    | error err =>
      -- one of them belongs to another client
      rw [hmany] at hrvg
      have hsame : (pool₁.reactivateMany c (attached ++ quiescedExisting)).2.mount = pool₁.mount := by
        generalize (pool₁.reactivateMany c (attached ++ quiescedExisting)).2.mount = mount' at hrvg
        cases hrvg
        rfl
      refine (ensures_failWith hpool₂ attached quiescedExisting _).seq ?_
      rintro _ m₁ ⟨pool, rfl, hshw⟩
      refine .ret ⟨m.lifecycle, pool, m.established, rfl, hshw.invariant, hgrth₂.trans hshw.growth,
        .refuse _ _ ?_⟩
      rw [hshw.mount, show ClientManager.pool _ = _ from rfl, hsame]
      exact hattd.rollback (List.Subset.refl _)
    | ok =>
      rw [hmany] at hrvg
      obtain ⟨hown, hback⟩ := hattd.rollback_reactivated hrvg
      refine .update ?_
      rcases activate_absent cfg now hent with ⟨err, herr⟩ | ⟨session, hsess⟩
      · simp only [ClientManager.activate, herr]
        rw [hown]
        exact ensures_activate_error hpool₂ hgrth₂ hback herr _
      · simp only [ClientManager.activate, hsess]
        exact .ret ⟨_, _, _, rfl, hpool₂, hgrth₂,
          .establish session _ hown hsess (hattd.reactivate hrvg)⟩

theorem ensures_allMounted (specs : List SegmentSpec) :
    Ensures (allMounted specs) m fun _ m' => m' = m := by
  induction specs with
  | nil => exact .ret rfl
  | cons spec rest ih =>
    rw [allMounted]
    refine read_iff.mpr ?_
    split
    · exact .ret rfl
    · split
      · exact .ret rfl
      · exact ih

section

variable (hp : PoolInvariant m.pool held)
include hp

theorem ensures_activate_bound (hent : m.lifecycle.entry c = some e)
    (request : List SegmentSpec) : Ensures ((activate cfg c now request).bind fun result =>
        match result with
        | .error err => .ret (.error (.lifecycle err))
        | .ok outcome => .ret (.ok outcome)) m
      fun result m' => Leaves cfg c now specs false held m state (result, state) m' := by
  refine .update ?_
  cases hres : (m.lifecycle.activate cfg c now).1 with
  | error err =>
    simp only [ClientManager.activate, hres]
    exact .ret ⟨_, _, _, rfl, hp, .refl _, .activate_error hres _⟩
  | ok outcome =>
    cases outcome with
    | activated session =>
      obtain ⟨-, hnone, -⟩ := Lifecycle.activate_activated hres
      cases hnone.symm.trans hent
    | alreadyActive session =>
      simp only [ClientManager.activate, hres]
      exact .ret ⟨_, _, _, rfl, hp, .refl _, .refresh session hres⟩

theorem ensures_remountActive : Ensures (remountActive cfg c specs now state) m
      fun result m' => Leaves cfg c now specs false held m state (result, state) m' := by
  rw [remountActive]
  refine read_iff.mpr ?_
  dsimp only
  cases hsess : m.lifecycle.registry.activeSession c with
  | error err => exact .ret (.refuse hp _)
  | ok session =>
    obtain ⟨_, hent, -⟩ := Lifecycle.activeSession_ok hsess
    dsimp only
    split
    · exact .ret (.refuse hp _)
    split
    · exact .ret (.refuse hp _)
    refine (ensures_allMounted specs).seq ?_
    rintro _ _ rfl
    split
    · exact .ret (.refuse hp _)
    · exact ensures_activate_bound hp hent specs

theorem ensures_remountLocked :
    Ensures (remountLocked cfg c specs now state) m (Leaves cfg c now specs
    ((m.lifecycle.registry.state c).isNone && attachesForeign c specs m.pool) held m state) := by
  rw [remountLocked]
  refine read_iff.mpr ?_
  dsimp only
  cases hst : m.lifecycle.registry.state c with
  | none => exact ensures_remountAbsent hp (state_none hst)
  | some st =>
    cases st with
    | active => exact (ensures_remountActive hp).seq fun result m' h => .ret h
    | _ => exact .ret (.refuse hp _)

end

theorem rolledBack_new (hmt : mount spec.identity.id = none) (hownr : k.owner = c) :
    rolledBack c [spec.identity.id] [] (update mount spec.identity.id (some k)) = mount := by
  funext id
  by_cases hid : id = spec.identity.id
  · subst hid
    simp [rolledBack, hownr, hmt]
  · cases hk : mount id <;> simp [rolledBack, hid, hk]

theorem reactivate_owned (hp : PoolInvariant p held)
    (hmt : p.mount id = some k) (hownr : k.owner = c) : (p.reactivate c id).1 = .ok () ∧
      PoolInvariant (p.reactivate c id).2 held ∧ p.Keeps (p.reactivate c id).2 ∧
        (p.reactivate c id).2.mount = update p.mount id (some { k with state := .accepting }) := by
  obtain ⟨hpool, hkp, hchg⟩ := reactivating hp c id
  obtain ⟨hok, hmt'⟩ := hchg.owned hmt hownr
  exact ⟨hok, hpool, hkp, hmt'⟩

section

variable (hp : PoolInvariant m.pool held)
include hp

theorem ensures_mountSegmentNew (hownr : spec.identity.owner = c)
    (hactv : ∃ e, m.lifecycle.entry c = some e ∧ e.session = session)
    (hsess : state.session = some session) :
    Ensures (mountSegmentNew cfg c session spec now state) m (Leaves cfg c now [spec] false held m state) := by
  rw [mountSegmentNew]
  refine ensures_attachQuiesced hp (fun err _ _ => .ret (.refuse hp _)) ?_
  intro outcome pool _ hpool hgrth hattg
  generalize hmt : pool.mount = mount at hattg
  cases hattg with
  | existing k hk =>
    exact .ret ⟨m.lifecycle, pool, m.established, rfl, hpool, hgrth, .refuse _ _ hmt⟩
  | new hnone =>
    have hk : pool.mount spec.identity.id = some ⟨m.pool.entries.length, spec, .quiesced⟩ := by
      rw [hmt, update_self]
    obtain ⟨hok, hpool', hkp, hmt'⟩ := reactivate_owned hpool hk hownr
    have hgrth' := hgrth.keep hkp
    rw [hmt, update_idem] at hmt'
    have hback : rolledBack c [spec.identity.id] [] (pool.reactivate c spec.identity.id).2.mount =
        m.pool.mount := by
      rw [hmt']
      exact rolledBack_new hnone hownr
    refine .update ?_
    dsimp only
    rw [hok]
    refine .update ?_
    cases hres : (m.lifecycle.activate cfg c now).1 with
    | error err =>
      simp only [ClientManager.activate, hres]
      exact ensures_activate_error hpool' hgrth' hback hres _
    | ok outcome =>
      cases outcome with
      | activated session' =>
        obtain ⟨-, hnone', -⟩ := Lifecycle.activate_activated hres
        obtain ⟨e, hent, -⟩ := hactv
        cases hnone'.symm.trans hent
      | alreadyActive current =>
        have hcurr : current = session := by
          obtain ⟨e, hent, rfl⟩ := hactv
          obtain ⟨_, hent', -, rfl⟩ := alreadyActive hres
          cases hent.symm.trans hent'
          rfl
        subst hcurr
        simp only [ClientManager.activate, hres, if_true]
        refine .ret ⟨_, _, _, rfl, hpool', hgrth', ?_⟩
        rw [hmt']
        exact .add current spec rfl hownr hres hsess hnone

theorem ensures_mountSegmentAgain (hent : m.lifecycle.entry c = some e) :
    Ensures (mountSegmentAgain cfg c spec now) m
      fun result m' => Leaves cfg c now [spec] false held m state (result, state) m' := by
  rw [mountSegmentAgain]
  refine read_iff.mpr ?_
  dsimp only [SegmentPool.segment]
  cases hmt : m.pool.mount spec.identity.id with
  | none => exact .ret (.refuse hp _)
  | some k =>
    dsimp only [map_some]
    split
    · exact .ret (.refuse hp _)
    refine ensures_segmentState hmt rfl ?_
    split
    · exact ensures_activate_bound hp hent [spec]
    · exact .ret (.refuse hp _)

theorem ensures_mountSegmentActive (hownr : spec.identity.owner = c) :
    Ensures (mountSegmentActive cfg c spec now state) m (Leaves cfg c now [spec] false held m state) := by
  rw [mountSegmentActive]
  refine read_iff.mpr ?_
  dsimp only
  cases hsess : m.lifecycle.registry.activeSession c with
  | error err => exact .ret (.refuse hp _)
  | ok session =>
    obtain ⟨e, hent, -, hesession⟩ := Lifecycle.activeSession_ok hsess
    dsimp only
    split
    · exact .ret (.refuse hp _)
    next hsame =>
    split
    · exact (ensures_mountSegmentAgain hp hent).seq fun result m' h => .ret h
    · exact ensures_mountSegmentNew hp hownr ⟨e, hent, hesession⟩ (not_not.mp hsame)

end

theorem Mounted.single (hspec : k.spec = spec)
    (hbef : ∀ k, mount spec.identity.id = some k → k.spec = spec) (hst : k.state = .accepting)
    (hfrs : mount spec.identity.id = none → next ≤ k.entry) :
    Mounted next mount [spec] (update mount spec.identity.id (some k)) where
  other id hid := update_of_ne (by simpa [requestedIds] using hid) _ _
  each spec' hspec' := by
    cases mem_singleton.mp hspec'
    exact ⟨k, update_self .., hspec, hst, hfrs⟩
  before spec' hspec' := by
    cases mem_singleton.mp hspec'
    exact hbef

variable (hp : PoolInvariant m.pool held) (hownr : spec.identity.owner = c)
include hp hownr

theorem ensures_mountSegmentAbsent (hent : m.lifecycle.entry c = none) (hst : state.segments = ∅) :
    Ensures (mountSegmentAbsent cfg c spec now state) m (Leaves cfg c now [spec] false held m state) := by
  rw [mountSegmentAbsent]
  refine ensures_attachQuiesced hp (fun err _ _ => .ret (.refuse hp _)) ?_
  intro outcome pool _ hpool hgrth hattg
  -- taking back what was attached
  have hback : rolledBack c (if outcome.isNew then [spec.identity.id] else []) []
      pool.mount = m.pool.mount := by
    generalize pool.mount = mount at hattg
    cases hattg with
    | existing => exact rolledBack_nil _
    | new hnone => exact rolledBack_new hnone hownr
  -- the segment is there now, new or as it was found
  obtain ⟨k, hk, hspec, hfrs, hbef⟩ : ∃ k, pool.mount = update m.pool.mount spec.identity.id (some k) ∧
      k.spec = spec ∧ (m.pool.mount spec.identity.id = none → m.pool.entries.length ≤ k.entry) ∧
        ∀ k, m.pool.mount spec.identity.id = some k → k.spec = spec := by
    generalize pool.mount = mount at hattg
    cases hattg with
    | existing k hk hspec =>
      refine ⟨k, ?_, hspec, fun hnone => ?_, fun k' hk' => ?_⟩
      · rw [← hk, update_eq_self]
      · cases hnone.symm.trans hk
      · cases hk.symm.trans hk'
        exact hspec
    | new hnone => exact ⟨_, rfl, rfl, fun _ => le_rfl, fun k' hk' => by cases hnone.symm.trans hk'⟩
  have hmt : pool.mount spec.identity.id = some k := by rw [hk, update_self]
  obtain ⟨hok, hpool', hkp, hmt'⟩ := reactivate_owned hpool hmt (by rw [Mount.owner, hspec, hownr])
  have hgrth' := hgrth.keep hkp
  refine .update ?_
  rcases activate_absent cfg now hent with ⟨err, herr⟩ | ⟨session, hsess⟩
  · simp only [ClientManager.activate, herr]
    exact ensures_activate_error hpool hgrth hback herr _
  simp only [ClientManager.activate, hsess]
  refine .update ?_
  dsimp only
  rw [hok]
  refine .ret ⟨_, _, _, rfl, hpool', hgrth', ?_⟩
  have hids : insert spec.identity.id state.segments = requestedIds
    [spec] := by simp [hst, requestedIds]
  rw [hmt', hk, update_idem]
  dsimp only
  rw [hids]
  exact .establish session _ rfl hsess (.single hspec hbef rfl hfrs)

theorem ensures_mountSegmentLocked (hst : m.lifecycle.entry c = none → state.segments = ∅) :
    Ensures (mountSegmentLocked cfg c spec now state) m (Leaves cfg c now [spec] false held m state) := by
  rw [mountSegmentLocked]
  refine read_iff.mpr ?_
  split
  next hnone =>
    have hent := state_none hnone
    exact ensures_mountSegmentAbsent hp hownr hent (hst hent)
  · exact ensures_mountSegmentActive hp hownr
  · exact .ret (.refuse hp _)

end Operations

/-! ### The calls -/

section Calls

variable {now : ClientTick}

/-- What a call that mounts segments leaves behind. -/
structure MountsAlone (cfg : ClientLifecycleConfig) (c : ClientId) (now : ClientTick)
    (specs : List SegmentSpec) (foreign : Bool) (m : ClientManager A)
    (result : Except ClientManagerError ActivateOutcome) (m' : ClientManager A) : Prop where
  growth : m.pool.Extends m'.pool
  gracefulUnmounts : m'.gracefulUnmounts = m.gracefulUnmounts
  mounting : ∃ state, Mounting cfg c now specs foreign m.lifecycle m.pool.entries.length
      m.pool.mount (m.mountState c) result m'.lifecycle m'.pool.mount state ∧
      m'.mountState = Function.update m.mountState c state

theorem MountsAlone.refuse (err : ClientManagerError) :
    MountsAlone cfg c now specs false m (.error err) m :=
  ⟨.refl _, rfl, m.mountState c, .refuse err _ rfl, (update_eq_self ..).symm⟩

theorem Coherent.mountState_absent (h : Coherent cfg m gs) (hent : m.lifecycle.entry c = none) :
    m.mountState c = .default := by
  refine h.slotMap.mountState_empty ?_
  cases hslot : m.slots.lookup c with
  | none => rw [mountState_none hslot, ClientMountState.default]
  | some r =>
    rw [mountState_some hslot]
    by_contra hne
    obtain ⟨session, hsess⟩ := ne_none_iff_exists'.mp hne
    obtain ⟨_, he, -⟩ := h.bound c r session hslot hsess
    cases hent.symm.trans he

/-- The frame around an operation that mounts segments. -/
theorem ensures_mounting_leaves {foreign : Bool} (held : Multiset (Reservation A))
    (h : Coherent cfg m gs) (hop : ∀ m₁, m₁.lifecycle = m.lifecycle → m₁.pool = m.pool →
      Ensures (operation (m.mountState c)) m₁ (Leaves cfg c now specs foreign held m₁ (m.mountState c))) :
    Ensures (mounting c operation) m (MountsAlone cfg c now specs foreign m) := by
  refine ensures_mounting h.slotMap fun m₁ hlike => ?_
  refine (hop m₁ hlike.lifecycle hlike.pool).mono ?_
  rintro ⟨_, state⟩ _ ⟨lifecycle, pool, _, rfl, _, hgrth, hmtg⟩
  rw [hlike.lifecycle, hlike.pool] at hmtg
  rw [hlike.pool] at hgrth
  refine ⟨⟨rfl, rfl, rfl⟩, ?_, ?_⟩
  · intro hnone
    have hemp : (m.mountState c).session = none → (m.mountState c).segments = ∅ := fun hsess => by
      rw [h.slotMap.mountState_empty hsess, ClientMountState.default]
    generalize pool.mount = mount at hmtg
    cases hmtg with
    | refuse | expire | refresh => exact hemp hnone
    | add session _ _ _ _ hsess => cases hsess.symm.trans hnone
    | establish => cases hnone
  · intro m' hbk hview
    refine ⟨by rwa [hbk.pool], by rw [hbk.gracefulUnmounts, hlike.gracefulUnmounts], state, ?_, hview⟩
    rw [hbk.lifecycle, hbk.pool]
    exact hmtg

theorem ensures_mountSegment (h : Coherent cfg m gs) (spec : SegmentSpec) :
    Ensures (mountSegment cfg c spec now) m fun result m' => MountsAlone cfg c now [spec] false m
      result m' ∧ (spec.identity.owner ≠ c → ∃ err, result = .error err) := by
  obtain ⟨held, hp⟩ := h.pool
  rw [mountSegment]
  split
  · exact .ret ⟨.refuse _, fun _ => ⟨_, rfl⟩⟩
  split
  · exact .ret ⟨.refuse _, fun _ => ⟨_, rfl⟩⟩
  next hownr =>
  refine (ensures_mounting_leaves held h ?_).mono fun _ _ hmnts =>
    ⟨hmnts, fun hne => absurd hne hownr⟩
  intro m₁ hlif hpool
  refine ensures_mountSegmentLocked (hpool ▸ hp) (not_not.mp hownr) fun hent => ?_
  rw [h.mountState_absent (hlif ▸ hent), ClientMountState.default]

/-- A remount of client `c` reaches the loop that attaches segments, and a new one that belongs
to another client is attached there. -/
def ClientManager.strands (c : ClientId) (specs : List SegmentSpec) (m : ClientManager A) : Bool :=
  !c.isNil && ((m.lifecycle.registry.state c).isNone && attachesForeign c specs m.pool)

theorem strands_owned (howrs : ∀ spec ∈ specs, spec.identity.owner = c) (m : ClientManager A) :
    m.strands c specs = false := by
  rw [ClientManager.strands, attachesForeign_owned howrs, Bool.and_false, Bool.and_false]

theorem ensures_remount (h : Coherent cfg m gs) :
    Ensures (remount cfg c specs now) m (MountsAlone cfg c now specs (m.strands c specs) m) := by
  obtain ⟨held, hp⟩ := h.pool
  rw [remount, ClientManager.strands]
  split
  next hnil =>
    rw [hnil]
    exact .ret (.refuse _)
  next hnil =>
    rw [Bool.not_eq_true] at hnil
    rw [hnil, Bool.not_false, Bool.true_and]
    refine ensures_mounting_leaves held h fun m₁ hlif hpool => ?_
    rw [← hlif, ← hpool]
    exact ensures_remountLocked (hpool ▸ hp)

end Calls

end Cakemaster.Client
