import Cakemaster.Segment.CatalogIndexes
import Cakemaster.Segment.Placement

/-!
# Runs of the catalog

In every state that a pool reaches, its candidate list is the accepting part of the catalog in
increasing order of ids and its owner index is the inverse of ownership. No call panics, and
a refused call changes nothing.
-/

namespace Cakemaster.Segment

open Machine Option List Word AList

variable {A : UnitAllocator} {p p' : SegmentPool A} {held : Multiset (Reservation A)}

/-! ### The order of the candidates -/

theorem SegmentId.le_total (a b : SegmentId) : a.le b = true ∨ b.le a = true := by
  simp only [SegmentId.le, decide_eq_true_eq]
  omega

theorem SegmentId.le_trans {a b c : SegmentId} (hab : a.le b = true) (hbc : b.le c = true) :
    a.le c = true := by
  simp only [SegmentId.le, decide_eq_true_eq] at hab hbc ⊢
  omega

theorem mem_mountedRefs : ref ∈ p.mountedRefs ↔ ∃ id, p.segments.lookup id = some ref := by
  simp only [SegmentPool.mountedRefs, List.mem_map]
  constructor
  · rintro ⟨⟨id, _⟩, hmem, rfl⟩
    exact ⟨id, mem_lookup_iff.mpr hmem⟩
  · rintro ⟨id, hid⟩
    exact ⟨⟨id, ref⟩, mem_lookup_iff.mp hid, rfl⟩

theorem mem_candidates :
    ref ∈ candidates p ↔ (∃ id, p.segments.lookup id = some ref) ∧ p.acceptingAt ref = true := by
  rw [candidates, List.mem_insertionSort, List.mem_filter, mem_mountedRefs]

theorem MountInvariant.idAt_eq (hp : MountInvariant p held) {id : SegmentId} {ref : EntryRef}
    (hid : p.segments.lookup id = some ref) : p.idAt ref = id := by
  obtain ⟨_, he, hspec, -⟩ := hp.mounted hid
  simp [SegmentPool.idAt, he, hspec]

theorem MountInvariant.ids_nodup (hp : MountInvariant p held) :
    (p.mountedRefs.map p.idAt).Nodup := by
  have hkeys : p.mountedRefs.map p.idAt = p.segments.keys := by
    rw [SegmentPool.mountedRefs, List.map_map, AList.keys, List.keys]
    refine map_congr_left ?_
    rintro ⟨_, _⟩ hmem
    exact hp.idAt_eq (mem_lookup_iff.mpr hmem)
  rw [hkeys]
  exact p.segments.keys_nodup

theorem candidates_sorted (p : SegmentPool A) :
    (candidates p).Pairwise fun a b => (p.idAt a).le (p.idAt b) = true := by
  have : Std.Total fun a b : EntryRef => (p.idAt a).le (p.idAt b) = true :=
    ⟨fun a b => SegmentId.le_total _ _⟩
  have : IsTrans EntryRef fun a b => (p.idAt a).le (p.idAt b) = true :=
    ⟨fun a b c => SegmentId.le_trans⟩
  exact pairwise_insertionSort _ _

theorem MountInvariant.candidate_ids_nodup (hp : MountInvariant p held) :
    ((candidates p).map p.idAt).Nodup := by
  have hperm : (candidates p).Perm (p.mountedRefs.filter p.acceptingAt) := perm_insertionSort _ _
  refine (hperm.map p.idAt).nodup_iff.mpr (hp.ids_nodup.sublist ?_)
  exact filter_sublist.map p.idAt

/-! ### The representation -/

/-- The catalog and its indexes agree. -/
structure Represented (p : SegmentPool A) : Prop where
  candidate : ∀ ref, ref ∈ p.direct ↔ ∃ id k, p.mount id = some k ∧ k.entry = ref ∧
    k.state = .accepting
  increasing : p.direct.Pairwise fun a b => (p.idAt a).le (p.idAt b) = true ∧ p.idAt a ≠ p.idAt b
  nodup : p.direct.Nodup
  owners : ∀ owner id, (∃ ids, p.segmentsByOwner.lookup owner = some ids ∧ id ∈ ids) ↔
    p.ownerOf id = some owner
  owned : ∀ owner ids, p.segmentsByOwner.lookup owner = some ids → ids ≠ [] ∧ ids.Nodup
  mounted : ∀ id ref, p.segments.lookup id = some ref →
    ∃ e, p.entries[ref]? = some e ∧ e.spec.identity.id = id ∧ e.state ≠ .removed
  detached : ∀ ref e, p.entries[ref]? = some e → (∀ id, p.segments.lookup id ≠ some ref) →
    e.state = .removed ∧ ∀ r : Reservation A, r.entry = ref → p.isLive r = false

theorem represented (hp : PoolInvariant p held) (h : Indexed p) : Represented p where
  candidate ref := by
    rw [h.direct, mem_candidates]
    constructor
    · rintro ⟨⟨id, hid⟩, hacc⟩
      obtain ⟨e, he, -, -, hmt⟩ := hp.mounts.mount_some hid
      refine ⟨id, _, hmt, rfl, ?_⟩
      rw [SegmentPool.acceptingAt, he, any_some, SegmentEntry.isAccepting] at hacc
      cases hst : e.state <;> simp_all [SegmentState.isAccepting]
    · rintro ⟨id, _, hk, rfl, hst⟩
      obtain ⟨hid, e, he, -, hst'⟩ := mount_eq_some.mp hk
      refine ⟨⟨id, hid⟩, ?_⟩
      simp [SegmentPool.acceptingAt, he, SegmentEntry.isAccepting, hst', hst, SegmentState.isAccepting]
  increasing := by
    rw [h.direct]
    exact (candidates_sorted p).and (pairwise_map.mp hp.mounts.candidate_ids_nodup)
  nodup := by
    rw [h.direct]
    exact hp.mounts.candidate_ids_nodup.of_map p.idAt
  owners owner id := by
    rw [← hp.index.mem_iff, SegmentPool.ownedIds]
    cases p.segmentsByOwner.lookup owner <;> simp
  owned owner ids hids := by
    have hnd := hp.index.nodup owner
    rw [SegmentPool.ownedIds, hids] at hnd
    exact ⟨h.nonempty owner ids hids, hnd⟩
  mounted id ref hid := by
    obtain ⟨e, he, hspec, hst, -⟩ := hp.mounts.mount_some hid
    exact ⟨e, he, hspec, hst⟩
  detached ref e he hunmounted := by
    have hdead : e.lifetime.live = false := by
      cases hlive : e.lifetime.live with
      | false => rfl
      | true => exact absurd (hp.mounts.live_mounted he hlive) (hunmounted _)
    refine ⟨?_, ?_⟩
    · by_contra hst
      rw [(hp.mounts.entry he).live_iff.mpr hst] at hdead
      cases hdead
    · intro r hr
      rw [SegmentPool.isLive, hr, he, all_some, hdead]

/-! ### Steps and runs -/

theorem indexing_updateDirectCatalog (h : Indexed p)
    (hop : ∀ p', operation p = .ok p' → Indexing p p' 1) :
    Indexing p (p.updateDirectCatalog operation).2 1 := by
  rw [SegmentPool.updateDirectCatalog]
  cases hs : operation p with
  | error err => exact (Indexing.refl h).mono zero_le_one
  | ok p' => exact (hop p' hs).bumpDirectCapacityEpoch

/-- How far the generation has moved on, as a `u64`. -/
def generationsBetween (p p' : SegmentPool A) : ℕ :=
  (((p'.directGeneration : ℤ) - p.directGeneration) % 2 ^ 64).toNat

theorem Advance.generationsBetween_eq (h : Advance p p' n) (hn : n < 2 ^ 64) :
    generationsBetween p p' = n := by
  have hcast : ((p'.directGeneration : ℤ)) ≡ p.directGeneration + n [ZMOD 2 ^ 64] := by
    have hgen := Int.natCast_modEq_iff.mpr h.generation
    push_cast at hgen
    exact hgen
  have hdiff : (p'.directGeneration : ℤ) - p.directGeneration ≡ n [ZMOD 2 ^ 64] := by
    have hsub := hcast.sub_right (p.directGeneration : ℤ)
    rwa [add_sub_cancel_left] at hsub
  rw [generationsBetween, hdiff.eq, Int.emod_eq_of_lt (by omega) (by exact_mod_cast hn),
    Int.toNat_natCast]

/-- A list of candidates is told apart from an earlier one by its generation, unless 2^64
generations lie between them. -/
theorem Advance.snapshot_eq (h : Advance p p' n) (hn : n < 2 ^ 64)
    (hgen : p'.directGeneration = p.directGeneration) (replicaClass : ReplicaClass) :
    p'.snapshotFor replicaClass = p.snapshotFor replicaClass := by
  have hzero : n ≡ 0 [MOD 2 ^ 64] := by
    have hadv := h.generation
    rw [hgen] at hadv
    exact (Nat.ModEq.add_left_cancel' p.directGeneration hadv).symm
  have hdir := h.direct (hzero.eq_of_lt_of_lt hn (by norm_num))
  have hhandle : p'.handle = p.handle := by
    funext ref
    rw [SegmentPool.handle, h.poolId, SegmentPool.handle]
  rw [SegmentPool.snapshotFor, hgen, hdir, hhandle, SegmentPool.snapshotFor]

namespace PoolSystem

variable {sys next : PoolSystem A}

/-- The number of generations that a run goes through. -/
def generationsPassed (sys : PoolSystem A) : List PoolOp → ℕ
  | [] => 0
  | op :: rest =>
    match sys.step op with
    | none => 0
    | some (_, next) => generationsBetween sys.pool next.pool + next.generationsPassed rest

def PoolReply.refused : PoolReply A → Bool
  | .attached (.error _) | .changed (.error _) => true
  | _ => false

theorem step_indexing (hsys : sys.Invariant) (h : Indexed sys.pool)
    (hstep : sys.step op = some (reply, next)) : Indexing sys.pool next.pool 2 := by
  cases op with
  | attach spec =>
    obtain ⟨⟨result, pool⟩, hatt, hstep⟩ := bind_eq_some_iff.mp hstep
    cases hstep
    exact (indexing_attach hsys.pool h hatt).mono one_le_two
  | attachQuiesced spec =>
    obtain ⟨⟨result, pool⟩, hatt, hstep⟩ := bind_eq_some_iff.mp hstep
    cases hstep
    exact indexing_attachQuiesced hsys.pool h hatt
  | quiesce owner id =>
    cases hstep
    have hcat : Indexing sys.pool (sys.pool.quiesce owner id).2 1 :=
      indexing_updateDirectCatalog h fun p' => indexing_quiesce h
    exact hcat.mono one_le_two
  | reactivate owner id =>
    cases hstep
    have hcat : Indexing sys.pool (sys.pool.reactivate owner id).2 1 :=
      indexing_updateDirectCatalog h fun p' => indexing_reactivate h
    exact hcat.mono one_le_two
  | reactivateMany owner ids =>
    cases hstep
    show Indexing sys.pool (sys.pool.reactivateMany owner ids).2 2
    rw [SegmentPool.reactivateMany]
    split
    · exact (Indexing.refl h).mono zero_le_two
    · exact (indexing_updateDirectCatalog h fun p' => indexing_reactivateMany h).mono one_le_two
  | remove owner id =>
    cases hstep
    have hcat : Indexing sys.pool (sys.pool.updateDirectCatalog (·.catalogRemove owner id)).2 1 :=
      indexing_updateDirectCatalog h fun p' => indexing_remove h
    show Indexing sys.pool (sys.pool.remove owner id).2 2
    rw [SegmentPool.remove]
    split
    next err p' hupda =>
      rw [hupda] at hcat
      exact hcat.mono one_le_two
    next p' hupda =>
    rw [hupda] at hcat
    exact hcat.bumpInvalidationEpoch.mono one_le_two
  | invalidateOwners owners =>
    obtain ⟨⟨_, pool⟩, hinvd, hstep⟩ := bind_eq_some_iff.mp hstep
    cases hstep
    exact (indexing_invalidateOwners h hinvd).mono one_le_two
  | reserve candidate bytes =>
    simp only [step] at hstep
    split at hstep
    · obtain ⟨⟨result, pool⟩, hreserve, hstep⟩ := bind_eq_some_iff.mp hstep
      cases result <;> cases hstep <;> exact (indexing_reserve h hreserve).mono zero_le_two
    · cases hstep
      exact (Indexing.refl h).mono zero_le_two
  | dropReservation index =>
    simp only [step] at hstep
    split at hstep
    · cases hstep
      exact (Indexing.refl h).mono zero_le_two
    · obtain ⟨pool, hdrop, hstep⟩ := bind_eq_some_iff.mp hstep
      cases hstep
      exact (indexing_dropReservation h hdrop).mono zero_le_two

theorem changed_refused (result : Except SegmentStateError Unit × SegmentPool A)
    {reply : PoolReply A} (hsame : ∀ err, result.1 = .error err → result.2 = sys.pool)
    (hstep : some (PoolReply.changed result.1, { sys with pool := result.2 }) = some (reply, next))
    (hrefd : PoolReply.refused reply = true) : next = sys := by
  cases hstep
  cases hres : result.1 with
  | error err => rw [hsame err hres]
  | ok =>
    rw [hres] at hrefd
    cases hrefd

theorem step_refused (hstep : sys.step op = some (reply, next))
    (hrefd : PoolReply.refused reply = true) : next = sys := by
  cases op with
  | attach spec =>
    obtain ⟨⟨result, pool⟩, hatt, hstep⟩ := bind_eq_some_iff.mp hstep
    cases hstep
    cases result with
    | error err => rw [attach_error hatt]
    | ok => cases hrefd
  | attachQuiesced spec =>
    obtain ⟨⟨result, pool⟩, hatt, hstep⟩ := bind_eq_some_iff.mp hstep
    cases hstep
    cases result with
    | error err => rw [attachQuiesced_error hatt]
    | ok => cases hrefd
  | quiesce owner id =>
    exact changed_refused (sys.pool.quiesce owner id) (fun err => updateDirectCatalog_error) hstep hrefd
  | reactivate owner id =>
    exact changed_refused (sys.pool.reactivate owner id) (fun err => updateDirectCatalog_error) hstep hrefd
  | reactivateMany owner ids =>
    exact changed_refused (sys.pool.reactivateMany owner ids) (fun err => reactivateMany_error) hstep hrefd
  | remove owner id =>
    exact changed_refused (sys.pool.remove owner id) (fun err => remove_error) hstep hrefd
  | invalidateOwners owners =>
    obtain ⟨⟨_, pool⟩, -, hstep⟩ := bind_eq_some_iff.mp hstep
    cases hstep
    cases hrefd
  | reserve candidate bytes =>
    simp only [step] at hstep
    split at hstep
    · obtain ⟨⟨result, pool⟩, -, hstep⟩ := bind_eq_some_iff.mp hstep
      cases result <;> cases hstep <;> cases hrefd
    · cases hstep
      cases hrefd
  | dropReservation index =>
    simp only [step] at hstep
    split at hstep
    · cases hstep
      cases hrefd
    · obtain ⟨pool, -, hstep⟩ := bind_eq_some_iff.mp hstep
      cases hstep
      cases hrefd

theorem reactivateMany_refused (hsys : sys.Invariant) {owner : ClientId} {ids : List SegmentId}
    {id : SegmentId} (hmem : id ∈ ids) (hownr : sys.pool.ownerOf id ≠ some owner) :
    ∃ err, sys.step (.reactivateMany owner ids) = some (.changed (.error err), sys) := by
  have hres : ∃ err, (sys.pool.reactivateMany owner ids).1 = .error err := by
    obtain ⟨-, -, heffc⟩ := reactivatingMany hsys.pool owner ids
    generalize (sys.pool.reactivateMany owner ids).1 = result at heffc
    generalize (sys.pool.reactivateMany owner ids).2.mount = mount at heffc
    cases heffc with
    | refuse err => exact ⟨err, rfl⟩
    | reactivate hmt =>
      obtain ⟨_, hk, hown⟩ := hmt id hmem
      exact absurd (by rw [ownerOf_mount, hk, map_some, hown]) hownr
  obtain ⟨err, herr⟩ := hres
  have hstep : sys.step (.reactivateMany owner ids) =
      some (.changed (.error err), { sys with pool := (sys.pool.reactivateMany owner ids).2 }) := by
    rw [← herr]
    rfl
  exact ⟨err, by rw [hstep, reactivateMany_error herr]⟩

/-- Every run keeps the indexes up to date and moves the generation on by as much as its steps do.
-/
theorem run_advance (hA : A.Sound) (hsys : sys.Invariant) (h : Indexed sys.pool)
    (ops : List PoolOp) :
    ∃ replies final, sys.run ops = some (replies, final) ∧ final.Invariant ∧ Indexed final.pool ∧
      Advance sys.pool final.pool (sys.generationsPassed ops) := by
  induction ops generalizing sys with
  | nil => exact ⟨[], sys, rfl, hsys, h, .of_eq rfl rfl rfl⟩
  | cons op rest ih =>
    obtain ⟨reply, _, hstep, hnext, -⟩ := step_keeps hA hsys op
    have hindexing := step_indexing hsys h hstep
    obtain ⟨_, hn, hadv⟩ := hindexing.advance
    obtain ⟨replies, final, hrun, hfinal, hidx, hrest⟩ := ih hnext hindexing.indexed
    refine ⟨reply :: replies, final, by simp [run, hstep, hrun], hfinal, hidx, ?_⟩
    rw [generationsPassed, hstep]
    dsimp only
    rw [hadv.generationsBetween_eq (hn.trans_lt (by norm_num))]
    exact hadv.trans hrest

theorem indexed_new (hnew : SegmentPool.withConfig A poolId config = .ok p) : Indexed p := by
  simp only [SegmentPool.withConfig] at hnew
  split at hnew
  · cases hnew
    exact ⟨rfl, (by rintro _ _ ⟨⟩)⟩
  · cases hnew

/-- The catalog after any run of a new pool, and after any run from there. -/
theorem catalog_represented (hA : A.Sound) {poolId : ℕ} {config : SegmentPoolConfig}
    (hnew : SegmentPool.withConfig A poolId config = .ok p) (ops : List PoolOp) :
    ∃ replies sys, run ⟨p, []⟩ ops = some (replies, sys) ∧ Represented sys.pool ∧
      (∀ op, ∃ reply next, sys.step op = some (reply, next) ∧ (PoolReply.refused reply = true → next = sys)) ∧
      (∀ owner ids id, id ∈ ids → sys.pool.ownerOf id ≠ some owner →
        ∃ err, sys.step (.reactivateMany owner ids) = some (.changed (.error err), sys)) ∧
      ∀ later, ∃ replies' sys', sys.run later = some (replies', sys') ∧
        (sys.generationsPassed later < 2 ^ 64 → sys'.pool.directGeneration = sys.pool.directGeneration →
          ∀ replicaClass, sys'.pool.snapshotFor replicaClass = sys.pool.snapshotFor replicaClass) := by
  obtain ⟨replies, sys, hrun, hsys, hindexed, -⟩ :=
    run_advance hA (invariant_new hnew) (indexed_new hnew) ops
  refine ⟨replies, sys, hrun, represented hsys.pool hindexed, ?_, ?_, ?_⟩
  · intro op
    obtain ⟨reply, next, hstep, -, -⟩ := step_keeps hA hsys op
    exact ⟨reply, next, hstep, step_refused hstep⟩
  · intro owner ids id hmem howner
    exact reactivateMany_refused hsys hmem howner
  · intro later
    obtain ⟨replies', sys', hrun', -, -, hadvance⟩ := run_advance hA hsys hindexed later
    exact ⟨replies', sys', hrun', hadvance.snapshot_eq⟩

/-- A run with a reservation, a removal and a refused batch. -/
theorem catalog_represented_sample : bumpAllocator.Sound ∧
    SegmentPool.withConfig bumpAllocator 1 .default = .ok (.empty bumpAllocator 1 .default) ∧
    ∃ replies sys, run ⟨.empty bumpAllocator 1 .default, []⟩
      [.attach ⟨⟨⟨0, 7⟩, ⟨0, 3⟩, "first", ""⟩, ⟨4096, 1024⟩, ⟨.tcp, "host:1"⟩⟩, .reserve ⟨1, 0⟩ 100,
        .attachQuiesced ⟨⟨⟨0, 5⟩, ⟨0, 3⟩, "second", ""⟩, ⟨8192, 1024⟩, ⟨.tcp, "host:1"⟩⟩,
        .reactivateMany ⟨0, 3⟩ [⟨0, 5⟩, ⟨0, 9⟩], .quiesce ⟨0, 3⟩ ⟨0, 7⟩, .remove ⟨0, 3⟩ ⟨0, 7⟩,
        .invalidateOwners [⟨0, 3⟩]] = some (replies, sys) ∧ Represented sys.pool :=
  let ⟨replies, sys, hrun, hrepresented, _⟩ :=
    catalog_represented bumpAllocator_sound (SegmentPool.withConfig_default _ _) _
  ⟨bumpAllocator_sound, SegmentPool.withConfig_default _ _, replies, sys, hrun, hrepresented⟩

/-! ### The generation comes round -/

theorem run_append (hrun : sys.run ops = some (replies, mid))
    (hrun' : mid.run ops' = some (replies', next)) :
    sys.run (ops ++ ops') = some (replies ++ replies', next) := by
  induction ops generalizing sys replies with
  | nil =>
    cases hrun
    exact hrun'
  | cons op rest ih =>
    obtain ⟨⟨_, _⟩, hstep, hrun⟩ := bind_eq_some_iff.mp hrun
    obtain ⟨⟨_, _⟩, hrest, hrun⟩ := bind_eq_some_iff.mp hrun
    cases hrun
    simp [run, hstep, ih hrest]

def firstSpec : SegmentSpec := ⟨⟨⟨0, 1⟩, ⟨0, 3⟩, "first", ""⟩, ⟨4096, 1024⟩, ⟨.tcp, "host:1"⟩⟩

def secondSpec : SegmentSpec := ⟨⟨⟨0, 2⟩, ⟨0, 3⟩, "second", ""⟩, ⟨8192, 1024⟩, ⟨.tcp, "host:1"⟩⟩

def freshEntry (spec : SegmentSpec) : SegmentEntry bumpAllocator :=
  .new spec (.new _ spec.region.size SegmentPoolConfig.default.maxAllocatorNodesPerSegment)

/-- A pool with two accepting segments, at the given generation. -/
def twoSegments (generation epoch : ℕ) : PoolSystem bumpAllocator where
  pool :=
    { poolId := 1
      config := .default
      entries := [freshEntry firstSpec, freshEntry secondSpec]
      segments := insert ⟨0, 2⟩ 1 (insert ⟨0, 1⟩ 0 ∅)
      segmentsByOwner := insert ⟨0, 3⟩ [⟨0, 2⟩, ⟨0, 1⟩] (insert ⟨0, 3⟩ [⟨0, 1⟩] ∅)
      directGeneration := generation
      direct := [0, 1]
      directCapacityEpoch := epoch
      invalidationEpoch := 0 }
  outstanding := []

theorem run_twoSegments :
    run ⟨.empty bumpAllocator 1 .default, []⟩ [.attach firstSpec, .attach secondSpec] =
    some ([.attached (.ok (.attached ⟨1, 0⟩)), .attached (.ok (.attached ⟨1, 1⟩))], twoSegments 2 2) := rfl

/-- The second segment leaves the candidates and comes back. -/
def cycle : List PoolOp := [.quiesce ⟨0, 3⟩ ⟨0, 2⟩, .reactivate ⟨0, 3⟩ ⟨0, 2⟩]

theorem run_cycle (generation epoch : ℕ) : (twoSegments generation epoch).run cycle =
    some ([.changed (.ok ()), .changed (.ok ())], twoSegments (wrapAdd 64 (wrapAdd 64 generation 1) 1)
      (wrapAdd 64 (wrapAdd 64 epoch 1) 1)) := rfl

theorem run_cycles (k generation epoch : ℕ) (hgen : generation < 2 ^ 64) :
    ∃ replies epoch', (twoSegments generation epoch).run (replicate k cycle).flatten =
      some (replies, twoSegments ((generation + 2 * k) % 2 ^ 64) epoch') := by
  induction k generalizing generation epoch with
  | zero =>
    refine ⟨[], epoch, ?_⟩
    rw [Nat.mul_zero, Nat.add_zero, Nat.mod_eq_of_lt hgen]
    rfl
  | succ k ih =>
    obtain ⟨replies, epoch', hrest⟩ := ih (wrapAdd 64 (wrapAdd 64 generation 1) 1)
      (wrapAdd 64 (wrapAdd 64 epoch 1) 1) (Nat.mod_lt _ (by norm_num))
    have hgenerations : (wrapAdd 64 (wrapAdd 64 generation 1) 1 + 2 * k) % 2 ^ 64 =
        (generation + 2 * (k + 1)) % 2 ^ 64 := by
      simp only [wrapAdd]
      omega
    rw [hgenerations] at hrest
    exact ⟨_, epoch', run_append (run_cycle generation epoch) hrest⟩

/-- After 2^64 generations a snapshot of two candidates has the generation of the empty one. -/
theorem generation_recurs :
    ∃ ops replies sys, run ⟨.empty bumpAllocator 1 .default, []⟩ ops = some (replies, sys) ∧
    sys.pool.directGeneration = (SegmentPool.empty bumpAllocator 1 .default).directGeneration ∧
    (sys.pool.snapshotFor .memory).candidates ≠
        ((SegmentPool.empty bumpAllocator 1 .default).snapshotFor .memory).candidates := by
  obtain ⟨replies, _, hcycles⟩ := run_cycles (2 ^ 63 - 1) 2 2 (by norm_num)
  refine ⟨_, _, _, run_append run_twoSegments hcycles, ?_, ?_⟩
  · show (2 + 2 * (2 ^ 63 - 1)) % 2 ^ 64 = 0
    norm_num
  · exact cons_ne_nil _ _

end PoolSystem

end Cakemaster.Segment
