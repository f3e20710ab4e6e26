import Cakemaster.Segment.Mounts
import Cakemaster.Segment.BumpAllocator

/-!
# Isolation of live reservations

Runs of a pool together with the reservations its callers hold. Any two live
reservations of one owner and transport occupy disjoint addresses, and each one
has exactly the requested size inside its segment, however segment ids, address
ranges and stale handles are reused.
-/

namespace Cakemaster.Segment

open Machine Multiset

variable {A : UnitAllocator}

/-- A reservation that has not been dropped, with the size its caller asked for. -/
structure Outstanding (A : UnitAllocator) where
  reservation : Reservation A
  requested : ℕ

structure PoolSystem (A : UnitAllocator) where
  pool : SegmentPool A
  outstanding : List (Outstanding A)

inductive PoolOp
  | attach (spec : SegmentSpec)
  | attachQuiesced (spec : SegmentSpec)
  | quiesce (owner : ClientId) (id : SegmentId)
  | reactivate (owner : ClientId) (id : SegmentId)
  | reactivateMany (owner : ClientId) (ids : List SegmentId)
  | remove (owner : ClientId) (id : SegmentId)
  | invalidateOwners (owners : List ClientId)
  | reserve (candidate : SegmentHandle) (bytes : ℕ)
  | dropReservation (index : ℕ)

inductive PoolReply (A : UnitAllocator)
  | attached (result : Except AttachError AttachOutcome)
  | changed (result : Except SegmentStateError Unit)
  | invalidated (count : ℕ)
  | reserved (result : Except ReserveError (Reservation A))
  | dropped
  | absent

namespace PoolSystem

def held (sys : PoolSystem A) : Multiset (Reservation A) :=
  (sys.outstanding.map (·.reservation) : List (Reservation A))

/-- One call. A handle of this pool that no entry answers to, and a position that
holds no reservation, do not occur in the source: such a call does nothing. -/
def step (sys : PoolSystem A) : PoolOp → Option (PoolReply A × PoolSystem A)
  | .attach spec => do
    let (result, pool) ← sys.pool.attach spec
    some (.attached result, { sys with pool })
  | .attachQuiesced spec => do
    let (result, pool) ← sys.pool.attachQuiesced spec
    some (.attached result, { sys with pool })
  | .quiesce owner id =>
    let (result, pool) := sys.pool.quiesce owner id
    some (.changed result, { sys with pool })
  | .reactivate owner id =>
    let (result, pool) := sys.pool.reactivate owner id
    some (.changed result, { sys with pool })
  | .reactivateMany owner ids =>
    let (result, pool) := sys.pool.reactivateMany owner ids
    some (.changed result, { sys with pool })
  | .remove owner id =>
    let (result, pool) := sys.pool.remove owner id
    some (.changed result, { sys with pool })
  | .invalidateOwners owners => do
    let (count, pool) ← sys.pool.invalidateOwners owners
    some (.invalidated count, { sys with pool })
  | .reserve candidate bytes =>
    if candidate.poolId ≠ sys.pool.poolId ∨ candidate.entry < sys.pool.entries.length then do
      let (result, pool) ← sys.pool.reserve candidate bytes
      match result with
      | .error _ => some (.reserved result, { sys with pool })
      | .ok r => some (.reserved result, { pool, outstanding := ⟨r, bytes⟩ :: sys.outstanding })
    else some (.absent, sys)
  | .dropReservation index =>
    match sys.outstanding[index]? with
    | none => some (.absent, sys)
    | some dropped => do
      let pool ← sys.pool.dropReservation dropped.reservation
      some (.dropped, { pool, outstanding := sys.outstanding.eraseIdx index })

def run (sys : PoolSystem A) : List PoolOp → Option (List (PoolReply A) × PoolSystem A)
  | [] => some ([], sys)
  | op :: rest => do
    let (reply, sys) ← sys.step op
    let (replies, sys) ← sys.run rest
    some (reply :: replies, sys)

/-- The pool's invariant for the outstanding reservations, each of the requested size. -/
structure Invariant (sys : PoolSystem A) : Prop where
  pool : PoolInvariant sys.pool sys.held
  size_eq : ∀ x ∈ sys.outstanding, x.reservation.region.size = x.requested

def AddressFits (reply : PoolReply A) : Prop :=
  ∀ id, reply ≠ .reserved (.error (.addressOverflow id))

variable {sys : PoolSystem A}

theorem Invariant.withPool (hsys : sys.Invariant) {pool : SegmentPool A}
    (hpool : PoolInvariant pool sys.held) : ({ sys with pool } : PoolSystem A).Invariant :=
  ⟨hpool, hsys.size_eq⟩

theorem held_eraseIdx (hx : sys.outstanding[index]? = some x) : sys.held = x.reservation ::ₘ
      ((sys.outstanding.eraseIdx index).map (·.reservation) : List (Reservation A)) := by
  obtain ⟨hlt, rfl⟩ := List.getElem?_eq_some_iff.mp hx
  have hperm := (List.getElem_cons_eraseIdx_perm hlt).map (·.reservation)
  rw [held, ← coe_eq_coe.mpr hperm]
  rfl

/-- Every call returns, keeps the invariant and never overflows an address. -/
theorem step_keeps (hA : A.Sound) (hsys : sys.Invariant) (op : PoolOp) :
    ∃ reply sys', sys.step op = some (reply, sys') ∧ sys'.Invariant ∧ AddressFits reply := by
  cases op with
  | attach spec =>
    obtain ⟨result, pool, hatt, hpool⟩ := attach_keeps hsys.pool spec
    exact ⟨.attached result, _, by simp [step, hatt], hsys.withPool hpool, by simp [AddressFits]⟩
  | attachQuiesced spec =>
    obtain ⟨result, pool, hatt, hpool, -⟩ := attaching hsys.pool spec
    exact ⟨.attached result, _, by simp [step, hatt], hsys.withPool hpool, by simp [AddressFits]⟩
  | quiesce owner id =>
    exact ⟨_, _, rfl, hsys.withPool (quiescing hsys.pool owner id).1, by simp [AddressFits]⟩
  | reactivate owner id =>
    exact ⟨_, _, rfl, hsys.withPool (reactivating hsys.pool owner id).1, by simp [AddressFits]⟩
  | reactivateMany owner ids =>
    exact ⟨_, _, rfl, hsys.withPool (reactivatingMany hsys.pool owner ids).1, by simp [AddressFits]⟩
  | remove owner id =>
    exact ⟨_, _, rfl, hsys.withPool (removing hsys.pool owner id).1, by simp [AddressFits]⟩
  | invalidateOwners owners =>
    obtain ⟨count, pool, hinvd, hpool, -⟩ := invalidating hsys.pool owners
    exact ⟨.invalidated count, _, by simp [step, hinvd], hsys.withPool hpool, by simp [AddressFits]⟩
  | reserve candidate bytes =>
    simp only [step]
    by_cases hkn : candidate.poolId ≠ sys.pool.poolId ∨ candidate.entry < sys.pool.entries.length
    · rw [if_pos hkn]
      rcases reserve_cases hA hsys.pool hkn bytes with
        ⟨err, pool, hreserve, herr, hpool⟩ | ⟨r, pool, hreserve, hpool, hsize⟩
      · refine ⟨.reserved (.error err), _, by simp [hreserve], hsys.withPool hpool, ?_⟩
        simpa [AddressFits] using herr
      · refine ⟨.reserved (.ok r), _, by simp [hreserve]; rfl, ⟨hpool, ?_⟩, by simp [AddressFits]⟩
        intro x hx
        rcases List.mem_cons.mp hx with rfl | hx
        · exact hsize
        · exact hsys.size_eq x hx
    · rw [if_neg hkn]
      exact ⟨_, _, rfl, hsys, by simp [AddressFits]⟩
  | dropReservation index =>
    simp only [step]
    cases hx : sys.outstanding[index]? with
    | none => exact ⟨_, _, rfl, hsys, by simp [AddressFits]⟩
    | some x =>
      have hheld := hsys.pool
      rw [held_eraseIdx hx] at hheld
      obtain ⟨pool, hdrop, hpool⟩ := dropReservation_keeps hheld
      refine ⟨.dropped, _, by simp [hdrop]; rfl, ⟨hpool, ?_⟩, by simp [AddressFits]⟩
      exact fun y hy => hsys.size_eq y (List.mem_of_mem_eraseIdx hy)

theorem run_keeps (hA : A.Sound) (hsys : sys.Invariant) (ops : List PoolOp) :
    ∃ replies sys', sys.run ops = some (replies, sys') ∧ sys'.Invariant ∧
      ∀ reply ∈ replies, AddressFits reply := by
  induction ops generalizing sys with
  | nil => exact ⟨[], sys, rfl, hsys, by simp⟩
  | cons op rest ih =>
    obtain ⟨reply, _, hstep, hnext, hfits⟩ := step_keeps hA hsys op
    obtain ⟨replies, final, hrun, hfinal, hall⟩ := ih hnext
    refine ⟨reply :: replies, final, by simp [run, hstep, hrun], hfinal, ?_⟩
    intro r hr
    rcases List.mem_cons.mp hr with rfl | hr
    · exact hfits
    · exact hall r hr

theorem invariant_new (hnew : SegmentPool.withConfig A poolId config = .ok p) :
    ({ pool := p, outstanding := [] } : PoolSystem A).Invariant := by
  simp only [SegmentPool.withConfig] at hnew
  split at hnew
  · cases hnew
    exact ⟨.empty poolId config, by simp⟩
  · cases hnew

theorem reservation_inside (hA : A.Sound) {p : SegmentPool A} {held : Multiset (Reservation A)}
    (hp : MountInvariant p held) {r : Reservation A} (hr : r ∈ held) :
    r.region.addresses ⊆ r.segment.region.addresses := by
  obtain ⟨_, he, hseg, hreg⟩ := hp.reserved hr
  obtain ⟨rest, rfl⟩ := exists_cons_of_mem hr
  have hsrv := (hp.entry he).serves
  rw [heldAt_cons_self] at hsrv
  have hmem : r.allocation ∈ r.allocation ::ₘ heldAt rest r.entry := mem_cons_self _ _
  have hrqd := hsrv.requested_le_reserved hA hmem
  have hinside := hsrv.range_inside hA hmem
  have hmgd := hsrv.managed_le
  rw [hseg, hreg]
  apply Set.Ico_subset_Ico <;> dsimp only <;> omega

/-- Two held reservations on live segments of one owner and transport: on one
entry their ranges are two grants of its allocator, on two entries they lie in
the disjoint regions of two mounted segments. -/
theorem reservations_apart (hA : A.Sound) {p : SegmentPool A}
    {r k : Reservation A} (hp : MountInvariant p (r ::ₘ k ::ₘ rest)) (hr : p.isLive r = true)
    (hk : p.isLive k = true) (hownr : r.segment.identity.owner = k.segment.identity.owner)
    (htrp : r.segment.transport = k.segment.transport) :
    Disjoint r.region.addresses k.region.addresses := by
  have hrmem : r ∈ r ::ₘ k ::ₘ rest := by simp
  have hkmem : k ∈ r ::ₘ k ::ₘ rest := by simp
  obtain ⟨_, he, hseg, hreg⟩ := hp.reserved hrmem
  obtain ⟨_, he', hseg', hreg'⟩ := hp.reserved hkmem
  by_cases hent : r.entry = k.entry
  · rw [← hent, he, Option.some.injEq] at he'
    subst he'
    have hsrv := (hp.entry he).serves
    rw [heldAt_cons_self, hent, heldAt_cons_self] at hsrv
    have hrqd := hsrv.requested_le_reserved hA (mem_cons_self _ _)
    have hrqd' := hsrv.requested_le_reserved hA (mem_cons_of_mem (mem_cons_self _ _))
    have hbyt := Word.disjoint_Ico_shorten hrqd hrqd' (hsrv.range_disjoint hA)
    rw [hreg, hreg']
    simp only [MemoryRegion.addresses, Set.Ico_disjoint_Ico] at hbyt ⊢
    omega
  · simp only [SegmentPool.isLive, he, he', Option.all_some] at hr hk
    rw [hseg, hseg'] at hownr htrp
    have happ := hp.apart hent he he' hr hk hownr htrp
    rw [← hseg, ← hseg'] at happ
    exact happ.mono (reservation_inside hA hp hrmem) (reservation_inside hA hp hkmem)

theorem outstanding_pairwise (hA : A.Sound) (hsys : sys.Invariant) :
    sys.outstanding.Pairwise fun x y =>
      sys.pool.isLive x.reservation = true → sys.pool.isLive y.reservation = true →
      x.reservation.segment.identity.owner = y.reservation.segment.identity.owner →
      x.reservation.segment.transport = y.reservation.segment.transport →
      Disjoint x.reservation.region.addresses y.reservation.region.addresses := by
  rw [List.pairwise_iff_forall_sublist]
  intro x y hsub
  obtain ⟨rest, hperm⟩ := hsub.exists_perm_append
  have hheld : sys.held = x.reservation ::ₘ y.reservation ::ₘ
    (rest.map (·.reservation) : List (Reservation A)) :=
    coe_eq_coe.mpr (hperm.map (·.reservation))
  have hmnts := hsys.pool.mounts
  rw [hheld] at hmnts
  exact reservations_apart hA hmnts

/-- What callers may rely on after a run with the given replies. -/
structure Isolated (replies : List (PoolReply A)) (sys : PoolSystem A) : Prop where
  disjoint : sys.outstanding.Pairwise fun x y =>
    sys.pool.isLive x.reservation = true → sys.pool.isLive y.reservation = true →
    x.reservation.segment.identity.owner = y.reservation.segment.identity.owner →
    x.reservation.segment.transport = y.reservation.segment.transport →
    Disjoint x.reservation.region.addresses y.reservation.region.addresses
  inside : ∀ x ∈ sys.outstanding, sys.pool.isLive x.reservation = true →
    x.reservation.region.addresses ⊆ x.reservation.segment.region.addresses
  size_eq : ∀ x ∈ sys.outstanding, sys.pool.isLive x.reservation = true →
    x.reservation.region.size = x.requested
  no_overflow : ∀ id, PoolReply.reserved (.error (.addressOverflow id)) ∉ replies

/-- Every run of a new pool returns from each call and isolates the live reservations. -/
theorem run_isolates_reservations (hA : A.Sound) {poolId : ℕ} {config : SegmentPoolConfig}
    {p : SegmentPool A} (hnew : SegmentPool.withConfig A poolId config = .ok p)
    (ops : List PoolOp) :
    ∃ replies sys, run { pool := p, outstanding := [] } ops = some (replies, sys) ∧
    Isolated replies sys := by
  obtain ⟨replies, sys, hrun, hsys, hfits⟩ := run_keeps hA (invariant_new hnew) ops
  refine ⟨replies, sys, hrun, outstanding_pairwise hA hsys, ?_, ?_, ?_⟩
  · intro x hx _
    exact reservation_inside hA hsys.pool.mounts (Multiset.mem_coe.mpr (List.mem_map_of_mem hx))
  · exact fun x hx _ => hsys.size_eq x hx
  · exact fun id hmem => hfits _ hmem id rfl

/-- A removed segment's id and range are reused while a stale handle still reserves. -/
theorem run_isolates_reservations_reused :
    SegmentPool.withConfig bumpAllocator 1 .default = .ok (.empty bumpAllocator 1 .default) ∧
    ∃ replies sys, run { pool := .empty bumpAllocator 1 .default, outstanding := [] }
        [.attach ⟨⟨⟨0, 7⟩, ⟨0, 3⟩, "first", ""⟩, ⟨4096, 1024⟩, ⟨.tcp, "host:1"⟩⟩,
          .reserve ⟨1, 0⟩ 100, .quiesce ⟨0, 3⟩ ⟨0, 7⟩, .remove ⟨0, 3⟩ ⟨0, 7⟩,
          .attach ⟨⟨⟨0, 7⟩, ⟨0, 3⟩, "second", ""⟩, ⟨4096, 2048⟩, ⟨.tcp, "host:1"⟩⟩,
          .reserve ⟨1, 0⟩ 50, .reserve ⟨1, 1⟩ 50, .reserve ⟨1, 1⟩ 60, .dropReservation 2] =
        some (replies, sys) ∧ Isolated replies sys :=
  ⟨SegmentPool.withConfig_default _ _,
    run_isolates_reservations bumpAllocator_sound (SegmentPool.withConfig_default _ _) _⟩

end PoolSystem

end Cakemaster.Segment
