import Cakemaster.Segment.PoolDetach

/-!
# Mounted segments

What a pool shows to those who mount and unmount segments: under each id the mounted
entry, its specification and its state. Every operation of the pool is described by
what it does to this table. A pool keeps its id and all of its entries: what is mounted
later is mounted under an entry that no handle of an earlier time shows.
-/

namespace Cakemaster.Segment

open Machine Function Option List AList

variable {A : UnitAllocator}
variable {ids : List SegmentId} {err : SegmentStateError}

structure Mount where
  entry : EntryRef
  spec : SegmentSpec
  state : SegmentState
deriving DecidableEq

def Mount.owner (k : Mount) : ClientId := k.spec.identity.owner

namespace SegmentPool

def mount (p : SegmentPool A) (id : SegmentId) : Option Mount :=
  (p.segments.lookup id).bind fun ref => (p.entries[ref]?).map fun e => ⟨ref, e.spec, e.state⟩

/-- `SegmentPool::segment`, together with the specification that the handle shows. -/
def segment (p : SegmentPool A) (id : SegmentId) : Option (SegmentHandle × SegmentSpec) :=
  (p.mount id).map fun k => (p.handle k.entry, k.spec)

/-- The state in `SegmentHandle::stats`. -/
def stateAt (p : SegmentPool A) (segment : SegmentHandle) : Option SegmentState :=
  (p.entries[segment.entry]?).map (·.stats.state)

end SegmentPool

def AttachOutcome.segment : AttachOutcome → SegmentHandle
  | attached segment | alreadyAttached segment => segment

/-! ### Entries over time -/

section Growth

variable {p p' p'' : SegmentPool A}

/-- No entry is added. -/
structure SegmentPool.Keeps (p p' : SegmentPool A) : Prop where
  poolId : p'.poolId = p.poolId
  entries : p'.entries.length = p.entries.length

structure SegmentPool.Extends (p p' : SegmentPool A) : Prop where
  poolId : p'.poolId = p.poolId
  entries : p.entries.length ≤ p'.entries.length

namespace SegmentPool.Keeps

theorem refl (p : SegmentPool A) : p.Keeps p := ⟨rfl, rfl⟩

section

variable (h : p.Keeps p')
include h

theorem trans (h' : p'.Keeps p'') : p.Keeps p'' :=
  ⟨h'.poolId.trans h.poolId, h'.entries.trans h.entries⟩

theorem congr (hpool : p''.poolId = p'.poolId) (hents : p''.entries = p'.entries) : p.Keeps p'' :=
  h.trans ⟨hpool, by rw [hents]⟩

theorem rebuildIndexes : p.Keeps p'.rebuildIndexes := h.congr (by simp) (by simp)

theorem bumpDirectCapacityEpoch : p.Keeps p'.bumpDirectCapacityEpoch := h.congr rfl rfl

theorem bumpInvalidationEpoch : p.Keeps p'.bumpInvalidationEpoch := h.congr rfl rfl

end

theorem modifyEntry (p : SegmentPool A) (ref : EntryRef) (f : SegmentEntry A → SegmentEntry A) :
    p.Keeps (p.modifyEntry ref f) := ⟨rfl, by simp [SegmentPool.modifyEntry]⟩

theorem reactivateAll (p : SegmentPool A) (owned : List (EntryRef × SegmentEntry A)) :
    p.Keeps (owned.foldl (fun p owned => p.modifyEntry owned.1 (·.reactivate)) p) := by
  induction owned generalizing p with
  | nil => exact refl p
  | cons o owned ih => exact (modifyEntry p _ _).trans (ih _)

theorem removeOwnerSegment (h : p.Keeps p') (c : ClientId) (id : SegmentId) :
    p.Keeps (p'.removeOwnerSegment c id) := by
  refine h.congr ?_ (removeOwnerSegment_frame p' c id).1
  rw [SegmentPool.removeOwnerSegment]
  split
  · rfl
  · split <;> rfl

theorem unmount (p : SegmentPool A) (ref : EntryRef) (id : SegmentId) :
    p.Keeps (unmount p ref id) :=
  (modifyEntry p ref _).congr rfl rfl

theorem invalidateIds (h : p.invalidateIds ids = some p') : p.Keeps p' := by
  induction ids generalizing p with
  | nil =>
    cases h
    exact refl _
  | cons id rest ih =>
    obtain ⟨ref, -, hrest⟩ := bind_eq_some_iff.mp h
    exact (unmount p ref id).trans (ih hrest)

end SegmentPool.Keeps

namespace SegmentPool.Extends

theorem refl (p : SegmentPool A) : p.Extends p := ⟨rfl, le_rfl⟩

theorem trans (h : p.Extends p') (h' : p'.Extends p'') : p.Extends p'' :=
  ⟨h'.poolId.trans h.poolId, h.entries.trans h'.entries⟩

theorem keep (h : p.Extends p') (hkp : p'.Keeps p'') : p.Extends p'' :=
  h.trans ⟨hkp.poolId, hkp.entries.ge⟩

end SegmentPool.Extends

end Growth

section Table

variable {p p' : SegmentPool A} {held : Multiset (Reservation A)} {id : SegmentId} {k : Mount}

theorem mount_eq_some : p.mount id = some k ↔ p.segments.lookup id = some k.entry ∧
    ∃ e, p.entries[k.entry]? = some e ∧ e.spec = k.spec ∧ e.state = k.state := by
  simp only [SegmentPool.mount, bind_eq_some_iff, map_eq_some_iff]
  constructor
  · rintro ⟨_, hid, e, he, rfl⟩
    exact ⟨hid, e, he, rfl, rfl⟩
  · rintro ⟨hid, e, he, hspec, hst⟩
    exact ⟨k.entry, hid, e, he, by rw [hspec, hst]⟩

theorem mount_congr (hents : p'.entries = p.entries) (hsegs : p'.segments = p.segments) :
    p'.mount = p.mount := by
  funext id
  rw [SegmentPool.mount, hents, hsegs, SegmentPool.mount]

@[simp] theorem mount_rebuildIndexes :
    p.rebuildIndexes.mount = p.mount := mount_congr (by simp) (by simp)

@[simp] theorem mount_bumpDirectCapacityEpoch : p.bumpDirectCapacityEpoch.mount = p.mount := rfl

@[simp] theorem mount_bumpInvalidationEpoch : p.bumpInvalidationEpoch.mount = p.mount := rfl

theorem stateAt_mount (h : p.mount id = some k) : p.stateAt (p.handle k.entry) = some k.state := by
  obtain ⟨-, _, he, -, hst⟩ := mount_eq_some.mp h
  simp [SegmentPool.stateAt, SegmentPool.handle, he, SegmentEntry.stats, hst]

theorem mount_entry_lt (h : p.mount id = some k) : k.entry < p.entries.length := by
  obtain ⟨-, _, he, -⟩ := mount_eq_some.mp h
  exact (List.getElem?_eq_some_iff.mp he).1

theorem mount_none : p.segments.lookup id = none → p.mount id = none := by
  intro hid
  rw [SegmentPool.mount, hid, bind_none]

namespace MountInvariant

variable {ref : EntryRef} {e : SegmentEntry A}

variable (hp : MountInvariant p held)
include hp

theorem mount_some (hid : p.segments.lookup id = some ref) :
    ∃ e, p.entries[ref]? = some e ∧ e.spec.identity.id = id ∧ e.state ≠ .removed ∧
      p.mount id = some ⟨ref, e.spec, e.state⟩ := by
  obtain ⟨e, he, hspec, hlive⟩ := hp.mounted hid
  exact ⟨e, he, hspec, (hp.entry he).live_iff.mp hlive, mount_eq_some.mpr ⟨hid, e, he, rfl, rfl⟩⟩

/-- A segment is mounted under its id, and it has not been removed. -/
theorem mount_spec (h : p.mount id = some k) :
    k.spec.identity.id = id ∧ (k.state = .accepting ∨ k.state = .quiesced) := by
  obtain ⟨hid, e, he, hspec, hst⟩ := mount_eq_some.mp h
  obtain ⟨_, he', hid', hrem, -⟩ := hp.mount_some hid
  cases he.symm.trans he'
  refine ⟨hspec ▸ hid', ?_⟩
  rw [← hst]
  cases hs : e.state with
  | accepting => exact .inl rfl
  | quiesced => exact .inr rfl
  | removed => exact absurd hs hrem

theorem entry_ne (hid : p.segments.lookup id = some ref)
    (hid' : p.segments.lookup id' = some ref') (hne : id' ≠ id) : ref' ≠ ref := by
  rintro rfl
  obtain ⟨_, he, hspec, -⟩ := hp.mounted hid
  obtain ⟨_, he', hspec', -⟩ := hp.mounted hid'
  cases he.symm.trans he'
  exact hne (hspec'.symm.trans hspec)

/-- The table after a change that concerns one mounted entry. -/
theorem mount_update (hid : p.segments.lookup id = some ref)
    (hsegs : ∀ id' ≠ id, p'.segments.lookup id' = p.segments.lookup id')
    (hents : ∀ ref' ≠ ref, p'.entries[ref']? = p.entries[ref']?) :
    p'.mount = update p.mount id (p'.mount id) := by
  funext id'
  by_cases hne : id' = id
  · subst hne
    rw [update_self]
  rw [update_of_ne hne, SegmentPool.mount, hsegs id' hne]
  cases hid' : p.segments.lookup id' with
  | none => exact (mount_none hid').symm
  | some ref' => rw [bind_some, hents ref' (hp.entry_ne hid hid' hne), SegmentPool.mount, hid',
    bind_some]

end MountInvariant

variable (hp : MountInvariant p held)
include hp

theorem mount_modifyEntry (hid : p.segments.lookup id = some ref) (he : p.entries[ref]? = some e) :
    (p.modifyEntry ref f).mount = update p.mount id (some ⟨ref, (f e).spec, (f e).state⟩) := by
  have hmt : (p.modifyEntry ref f).mount = update p.mount id ((p.modifyEntry ref f).mount id) :=
    hp.mount_update hid (fun _ _ => rfl) fun ref' hne => by rw [getElem?_modifyEntry, if_neg (Ne.symm hne)]
  rw [hmt]
  congr 1
  refine mount_eq_some.mpr ⟨hid, f e, ?_, rfl, rfl⟩
  rw [getElem?_modifyEntry, if_pos rfl, he, map_some]

theorem mount_mountNew (e : SegmentEntry A) : (mountNew p e).mount =
    update p.mount e.spec.identity.id (some ⟨p.entries.length, e.spec, e.state⟩) := by
  funext id
  by_cases hne : id = e.spec.identity.id
  · subst hne
    rw [update_self]
    refine mount_eq_some.mpr ⟨lookup_insert _, e, ?_, rfl, rfl⟩
    rw [getElem?_mountNew, if_pos rfl]
  rw [update_of_ne hne]
  have hlook : (mountNew p e).segments.lookup id = p.segments.lookup id := lookup_insert_ne hne
  rw [SegmentPool.mount, hlook]
  cases hid : p.segments.lookup id with
  | none => exact (mount_none hid).symm
  | some ref =>
    obtain ⟨_, hk, -⟩ := hp.mounted hid
    rw [bind_some, getElem?_mountNew_old hk, SegmentPool.mount, hid, bind_some, hk]

theorem mount_unmount (hid : p.segments.lookup id = some ref) :
    (unmount p ref id).mount = update p.mount id none := by
  have hmt : (unmount p ref id).mount = update p.mount id ((unmount p ref id).mount id) :=
    hp.mount_update hid (fun id' hne => lookup_erase_ne hne)
      fun ref' hne => by rw [getElem?_unmount, if_neg (Ne.symm hne)]
  rw [hmt]
  congr 1
  exact mount_none (lookup_erase id p.segments)

end Table

/-! ### The operations -/

section Effects

variable {p p' : SegmentPool A} {held : Multiset (Reservation A)} {id : SegmentId} {c : ClientId}
  {spec : SegmentSpec}

theorem ownedEntry_cases (hp : PoolInvariant p held) (c : ClientId) (id : SegmentId) :
    (∃ err, p.ownedEntry c id = .error err ∧ ∀ k, p.mount id = some k → k.owner ≠ c) ∨
      ∃ ref e, p.ownedEntry c id = .ok (ref, e) ∧ p.segments.lookup id = some ref ∧
      p.entries[ref]? = some e ∧
        p.mount id = some ⟨ref, e.spec, e.state⟩ ∧ e.spec.identity.owner = c ∧ e.state ≠ .removed := by
  rw [SegmentPool.ownedEntry]
  cases hid : p.segments.lookup id with
  | none => exact .inl ⟨_, rfl, by simp [mount_none hid]⟩
  | some ref =>
    obtain ⟨e, he, -, hrem, hmt⟩ := hp.mounts.mount_some hid
    simp only [he]
    by_cases hownr : e.spec.identity.owner = c
    · exact .inr ⟨ref, e, by simp [hownr], rfl, he, hmt, hownr, hrem⟩
    · refine .inl ⟨_, by rw [if_pos hownr], ?_⟩
      intro k hk
      cases hmt.symm.trans hk
      exact hownr

/-- The answer and the table after `attach_quiesced`. -/
inductive Attaching (mount : SegmentId → Option Mount) (poolId : ℕ) (fresh : EntryRef)
    (spec : SegmentSpec) :
    Except AttachError AttachOutcome → (SegmentId → Option Mount) → Prop
  | refuse (err : AttachError) : Attaching mount poolId fresh spec (.error err) mount
  | existing (k : Mount) (hmt : mount spec.identity.id = some k) (hspec : k.spec = spec) :
      Attaching mount poolId fresh spec (.ok (.alreadyAttached ⟨poolId, k.entry⟩)) mount
  | new (hmt : mount spec.identity.id = none) :
      Attaching mount poolId fresh spec (.ok (.attached ⟨poolId, fresh⟩))
      (update mount spec.identity.id (some ⟨fresh, spec, .quiesced⟩))

/-- The answer and the table after a change of state. -/
inductive Changing (mount : SegmentId → Option Mount) (c : ClientId) (id : SegmentId)
    (state : SegmentState) :
    Except SegmentStateError Unit → (SegmentId → Option Mount) → Prop
  | refuse (err : SegmentStateError) (hmt : ∀ k, mount id = some k → k.owner ≠ c) :
      Changing mount c id state (.error err) mount
  | change (k : Mount) (hmt : mount id = some k) (hownr : k.owner = c) :
      Changing mount c id state (.ok ()) (update mount id (some { k with state }))

/-- The answer and the table after `remove`. -/
inductive Removing (mount : SegmentId → Option Mount) (c : ClientId) (id : SegmentId) :
    Except SegmentStateError Unit → (SegmentId → Option Mount) → Prop
  | refuse (err : SegmentStateError)
      (hmt : ∀ k, mount id = some k → k.owner = c → k.state = .accepting) :
      Removing mount c id (.error err) mount
  | remove (k : Mount) (hmt : mount id = some k) (hownr : k.owner = c) (hst : k.state = .quiesced) :
      Removing mount c id (.ok ()) (update mount id none)

/-- The answer and the table after `reactivate_many`. -/
inductive Reactivating (mount : SegmentId → Option Mount) (c : ClientId) (ids : List SegmentId) :
    Except SegmentStateError Unit → (SegmentId → Option Mount) → Prop
  | refuse (err : SegmentStateError) (hmt : ∃ id ∈ ids, ∀ k, mount id = some k → k.owner ≠ c) :
      Reactivating mount c ids (.error err) mount
  | reactivate (hmt : ∀ id ∈ ids, ∃ k, mount id = some k ∧ k.owner = c) :
      Reactivating mount c ids (.ok ()) fun id =>
      if id ∈ ids then (mount id).map ({ · with state := .accepting }) else mount id

theorem mount_quiesce (e : SegmentEntry A) (hrem : e.state ≠ .removed) :
    e.quiesce.spec = e.spec ∧ e.quiesce.state = .quiesced := by
  rw [SegmentEntry.quiesce, SegmentEntry.isAccepting, SegmentState.isAccepting]
  cases hst : e.state <;> simp_all

theorem mount_reactivate (e : SegmentEntry A) (hrem : e.state ≠ .removed) :
    e.reactivate.spec = e.spec ∧ e.reactivate.state = .accepting := by
  rw [SegmentEntry.reactivate]
  cases hst : e.state <;> simp_all

section

variable (hp : PoolInvariant p held)
include hp

theorem attaching (spec : SegmentSpec) :
    ∃ result p', p.attachQuiesced spec = some (result, p') ∧ PoolInvariant p' held ∧ p.Extends p' ∧
      Attaching p.mount p.poolId p.entries.length spec result p'.mount := by
  rcases attachQuiesced_cases hp spec with ⟨err, h⟩ | ⟨ref, hid, hspec, h⟩ | ⟨e, rfl, hst, hid, hmtd, h⟩
  · exact ⟨_, _, h, hp, .refl p, .refuse err⟩
  · obtain ⟨e, he, rfl⟩ := map_eq_some_iff.mp hspec
    exact ⟨_, _, h, hp.bumpDirectCapacityEpoch,
      (SegmentPool.Extends.refl p).keep (SegmentPool.Keeps.refl p).bumpDirectCapacityEpoch,
      .existing ⟨ref, e.spec, e.state⟩ (mount_eq_some.mpr ⟨hid, e, he, rfl, rfl⟩) rfl⟩
  have hrem : e.state ≠ .removed := by simp [hst]
  obtain ⟨hspec', hst'⟩ := mount_quiesce e hrem
  have hnew : p.Extends (mountNew p e) := ⟨rfl, by simp [mountNew]⟩
  refine ⟨_, _, h,
    (hmtd.rebuildIndexes.stateChange stateChange_quiesce _).rebuildIndexes.bumpDirectCapacityEpoch,
    hnew.keep ((SegmentPool.Keeps.refl _).rebuildIndexes.trans
      (.modifyEntry _ _ _)).rebuildIndexes.bumpDirectCapacityEpoch, ?_⟩
  have hmt : ((mountNew p e).rebuildIndexes.modifyEntry p.entries.length (·.quiesce)).mount =
      update p.mount e.spec.identity.id (some ⟨p.entries.length, e.spec, .quiesced⟩) := by
    rw [mount_modifyEntry (e := e) hmtd.rebuildIndexes.mounts, mount_rebuildIndexes,
      mount_mountNew hp.mounts, update_idem, hspec', hst']
    · rw [segments_rebuildIndexes]
      exact lookup_insert _
    · rw [entries_rebuildIndexes, getElem?_mountNew, if_pos rfl]
  rw [mount_bumpDirectCapacityEpoch, mount_rebuildIndexes, hmt]
  exact .new (mount_none hid)

theorem changing (hf : StateChange f)
    (hst : ∀ e : SegmentEntry A, e.state ≠ .removed → (f e).spec = e.spec ∧ (f e).state = state)
    (c : ClientId) (id : SegmentId)
    (hop : operation p = (p.ownedEntry c id).map fun owned => (p.modifyEntry owned.1 f).rebuildIndexes) :
    PoolInvariant (p.updateDirectCatalog operation).2 held ∧
    p.Keeps (p.updateDirectCatalog operation).2 ∧
      Changing p.mount c id state (p.updateDirectCatalog operation).1
      (p.updateDirectCatalog operation).2.mount := by
  rw [SegmentPool.updateDirectCatalog, hop]
  rcases ownedEntry_cases hp c id with ⟨err, h, hmt⟩ | ⟨ref, e, h, hid, he, hmt, hownr, hrem⟩
  · rw [h]
    exact ⟨hp, .refl p, .refuse err hmt⟩
  · obtain ⟨hspec, hst'⟩ := hst e hrem
    rw [h]
    refine ⟨(hp.stateChange hf ref).rebuildIndexes.bumpDirectCapacityEpoch,
      (SegmentPool.Keeps.modifyEntry p ref f).rebuildIndexes.bumpDirectCapacityEpoch, ?_⟩
    simp only [Except.map, mount_bumpDirectCapacityEpoch, mount_rebuildIndexes,
      mount_modifyEntry hp.mounts hid he, hspec, hst']
    exact .change ⟨ref, e.spec, e.state⟩ hmt hownr

theorem quiescing (c : ClientId) (id : SegmentId) :
    PoolInvariant (p.quiesce c id).2 held ∧ p.Keeps (p.quiesce c id).2 ∧
      Changing p.mount c id .quiesced (p.quiesce c id).1 (p.quiesce c id).2.mount :=
  changing hp stateChange_quiesce mount_quiesce c id (by
    rw [SegmentPool.catalogQuiesce]
    cases p.ownedEntry c id <;> rfl)

theorem reactivating (c : ClientId) (id : SegmentId) :
    PoolInvariant (p.reactivate c id).2 held ∧ p.Keeps (p.reactivate c id).2 ∧
      Changing p.mount c id .accepting (p.reactivate c id).1 (p.reactivate c id).2.mount :=
  changing hp stateChange_reactivate mount_reactivate c id (by
    rw [SegmentPool.catalogReactivate]
    cases p.ownedEntry c id <;> rfl)

end

@[simp] theorem mount_removeOwnerSegment (c : ClientId) (id : SegmentId) :
    (p.removeOwnerSegment c id).mount = p.mount :=
  mount_congr (removeOwnerSegment_frame p c id).1 (removeOwnerSegment_frame p c id).2

theorem removing (hp : PoolInvariant p held) (c : ClientId) (id : SegmentId) :
    PoolInvariant (p.remove c id).2 held ∧ p.Keeps (p.remove c id).2 ∧
      Removing p.mount c id (p.remove c id).1 (p.remove c id).2.mount := by
  rw [SegmentPool.remove, SegmentPool.updateDirectCatalog]
  rcases ownedEntry_cases hp c id with ⟨err, h, hmt⟩ | ⟨ref, e, h, hid, he, hmt, hownr, hrem⟩
  · have hremove : p.catalogRemove c id = .error
      err := by simp [SegmentPool.catalogRemove, h, bind, Except.bind]
    simp only [hremove]
    exact ⟨hp, .refl p, .refuse err fun k hk hown => absurd hown (hmt k hk)⟩
  cases hst : e.state with
  | accepting =>
    simp only [catalogRemove_accepting h hst]
    refine ⟨hp, .refl p, .refuse _ fun k hk _ => ?_⟩
    cases hmt.symm.trans hk
    exact hst
  | quiesced =>
    have hownr' : p.ownerOf id = some c := by simp [SegmentPool.ownerOf, hid, he, hownr]
    simp only [catalogRemove_quiesced h hst]
    refine ⟨(hp.unmount_owned hid hownr').rebuildIndexes.bumpDirectCapacityEpoch.bumpInvalidationEpoch,
      ((SegmentPool.Keeps.unmount p ref id).removeOwnerSegment c
        id).rebuildIndexes.bumpDirectCapacityEpoch.bumpInvalidationEpoch, ?_⟩
    rw [mount_bumpInvalidationEpoch, mount_bumpDirectCapacityEpoch, mount_rebuildIndexes,
      mount_removeOwnerSegment, mount_unmount hp.mounts hid]
    exact .remove ⟨ref, e.spec, e.state⟩ hmt hownr hst
  | removed => exact absurd hst hrem

theorem mapM_ownedEntry (c : ClientId) (ids : List SegmentId) :
    (∃ err, ids.mapM (p.ownedEntry c) = .error err ∧ ∃ id ∈ ids, ∃ err,
      p.ownedEntry c id = .error err) ∨ ∃ owned, ids.mapM (p.ownedEntry c) = .ok owned ∧
      (∀ id ∈ ids, ∃ o, p.ownedEntry c id = .ok o) ∧
        List.Forall₂ (fun id o => p.segments.lookup id = some o.1) ids owned := by
  induction ids with
  | nil => exact .inr ⟨[], rfl, by simp, .nil⟩
  | cons id rest ih =>
    simp only [mapM_cons, bind, Except.bind]
    cases hid : p.ownedEntry c id with
    | error err => exact .inl ⟨err, rfl, id, mem_cons_self, err, hid⟩
    | ok o =>
      rcases ih with ⟨err, h, id', hmem, herr⟩ | ⟨owned, h, hevery, hall⟩
      · exact .inl ⟨err, by simp only [h], id', mem_cons_of_mem _ hmem, herr⟩
      · exact .inr ⟨o :: owned, by simp only [h]; rfl, forall_mem_cons.mpr ⟨⟨o, hid⟩, hevery⟩,
          .cons (ownedEntry_ok (e := o.2) hid).1 hall⟩

theorem mount_reactivateAll (hp : PoolInvariant p held) {owned : List (EntryRef × SegmentEntry A)}
    (hall : List.Forall₂ (fun id o => p.segments.lookup id = some o.1) ids owned) :
    (owned.foldl (fun p owned => p.modifyEntry owned.1 (·.reactivate)) p).mount =
      fun id => if id ∈ ids then (p.mount id).map ({ · with state := .accepting }) else p.mount id := by
  induction ids generalizing p owned with
  | nil =>
    cases hall
    simp
  | cons id ids ih =>
    obtain ⟨o, owned, hid, hrest, rfl⟩ := forall₂_cons_left_iff.mp hall
    obtain ⟨e, he, -, hrem, hmt⟩ := hp.mounts.mount_some hid
    obtain ⟨hspec, hst⟩ := mount_reactivate e hrem
    rw [foldl_cons, ih (hp.stateChange stateChange_reactivate o.1) hrest,
      mount_modifyEntry hp.mounts hid he, hspec, hst]
    funext id'
    by_cases hne : id' = id
    · subst hne
      simp [hmt]
    · simp [hne]

theorem reactivatingMany (hp : PoolInvariant p held) (c : ClientId) (ids : List SegmentId) :
    PoolInvariant (p.reactivateMany c ids).2 held ∧ p.Keeps (p.reactivateMany c ids).2 ∧
      Reactivating p.mount c ids (p.reactivateMany c ids).1 (p.reactivateMany c ids).2.mount := by
  rw [SegmentPool.reactivateMany]
  split
  next hnil =>
    subst hnil
    refine ⟨hp, .refl p, ?_⟩
    have hrvt := @Reactivating.reactivate p.mount c [] (by simp)
    simpa using hrvt
  · rw [SegmentPool.updateDirectCatalog, SegmentPool.catalogReactivateMany]
    rcases mapM_ownedEntry (p := p) c ids with ⟨err, h, id, hmem, _, hid⟩ | ⟨owned, h, hevery, hall⟩
    · simp only [h, bind, Except.bind]
      refine ⟨hp, .refl p, .refuse err ⟨id, hmem, ?_⟩⟩
      rcases ownedEntry_cases hp c id with ⟨_, -, hmt⟩ | ⟨_, e, hok, -⟩
      · exact hmt
      · cases hid.symm.trans hok
    · simp only [h, bind, Except.bind]
      refine ⟨(hp.reactivateAll owned).rebuildIndexes.bumpDirectCapacityEpoch,
        (SegmentPool.Keeps.reactivateAll p owned).rebuildIndexes.bumpDirectCapacityEpoch, ?_⟩
      rw [mount_bumpDirectCapacityEpoch, mount_rebuildIndexes, mount_reactivateAll hp hall]
      refine .reactivate fun id hmem => ?_
      obtain ⟨o, ho⟩ := hevery id hmem
      obtain ⟨hid, he, hownr⟩ := ownedEntry_ok (e := o.2) ho
      exact ⟨⟨o.1, o.2.spec, o.2.state⟩, mount_eq_some.mpr ⟨hid, o.2, he, rfl, rfl⟩, hownr⟩

theorem mount_invalidateIds (hp : MountInvariant p held) (h : p.invalidateIds ids = some p') :
    p'.mount = fun id => if id ∈ ids then none else p.mount id := by
  induction ids generalizing p with
  | nil =>
    cases h
    simp
  | cons id rest ih =>
    obtain ⟨_, hid, hrest⟩ := bind_eq_some_iff.mp h
    have hmt := ih (hp.unmount hid) hrest
    rw [show p'.mount = _ from hmt, mount_unmount hp hid]
    funext id'
    by_cases hne : id' = id
    · simp [hne]
    · simp [hne]

theorem ownerOf_mount (id : SegmentId) : p.ownerOf id = (p.mount id).map (·.owner) := by
  rw [SegmentPool.ownerOf, SegmentPool.mount]
  cases p.segments.lookup id with
  | none => rfl
  | some ref => cases hent : p.entries[ref]? <;> simp [Mount.owner, hent]

theorem mount_invalidateEach (hp : PoolInvariant p held) (owners : List ClientId) (n : ℕ) :
    ∃ m p', p.invalidateEach n owners = some (m, p') ∧ PoolInvariant p' held ∧ p.Keeps p' ∧
      p'.mount = fun id => (p.mount id).filter fun k => k.owner ∉ owners := by
  induction owners generalizing p n with
  | nil =>
    refine ⟨n, p, rfl, hp, .refl p, ?_⟩
    funext id
    cases p.mount id <;> simp [Option.filter]
  | cons owner rest ih =>
    simp only [SegmentPool.invalidateEach]
    cases hids : p.segmentsByOwner.lookup owner with
    | none =>
      obtain ⟨m, p', hrun, hp', hkp, hmt⟩ := ih hp n
      refine ⟨m, p', hrun, hp', hkp, hmt.trans ?_⟩
      -- the owner has no mounted segment
      have hnone : ∀ id k, p.mount id = some k → k.owner ≠ owner := by
        intro id k hk hownr
        have hmem := hp.index.mem_iff.mpr
          (show p.ownerOf id = some owner by rw [ownerOf_mount, hk, map_some, hownr])
        simp [SegmentPool.ownedIds, hids] at hmem
      funext id
      cases hk : p.mount id with
      | none => rfl
      | some k => simp [Option.filter, hnone id k hk]
    | some ids =>
      obtain ⟨_, hrun₁, hp₁⟩ := invalidateOwner_keeps hp hids
      obtain ⟨m, p', hrun, hp', hkp, hmt⟩ := ih hp₁ (n + ids.length)
      simp only [hrun₁, bind_eq_bind, bind_some]
      have herase : p.Keeps { p with segmentsByOwner := p.segmentsByOwner.erase owner } := ⟨rfl, rfl⟩
      refine ⟨m, p', hrun, hp', (herase.trans (.invalidateIds hrun₁)).trans hkp, hmt.trans ?_⟩
      have hmnts : MountInvariant { p with segmentsByOwner := p.segmentsByOwner.erase owner } held :=
        hp.mounts.congr rfl rfl
      have hmt₁ := mount_invalidateIds hmnts hrun₁
      have hids' : ∀ id, id ∈ ids ↔ p.ownerOf id = some owner := by
        intro id
        rw [← hp.index.mem_iff, SegmentPool.ownedIds, hids, getD_some]
      funext id
      rw [hmt₁]
      show Option.filter _ (if id ∈ ids then none else p.mount id) = _
      simp only [hids', ownerOf_mount]
      cases hk : p.mount id with
      | none => simp
      | some k => by_cases hownr : k.owner = owner <;> simp [Option.filter, hownr]

theorem invalidating (hp : PoolInvariant p held) (owners : List ClientId) :
    ∃ n p', p.invalidateOwners owners = some (n, p') ∧ PoolInvariant p' held ∧ p.Keeps p' ∧
      p'.mount = fun id => (p.mount id).filter fun k => k.owner ∉ owners := by
  obtain ⟨_, p', hrun, hp', hkp, hmt⟩ := mount_invalidateEach hp owners 0
  simp only [SegmentPool.invalidateOwners, hrun, bind_eq_bind, bind_some]
  split
  · exact ⟨_, _, rfl, hp', hkp, hmt⟩
  · refine ⟨_, _, rfl, hp'.rebuildIndexes.bumpDirectCapacityEpoch.bumpInvalidationEpoch,
      hkp.rebuildIndexes.bumpDirectCapacityEpoch.bumpInvalidationEpoch, ?_⟩
    rw [mount_bumpInvalidationEpoch, mount_bumpDirectCapacityEpoch, mount_rebuildIndexes, hmt]

theorem updateDirectCatalog_error (h : (p.updateDirectCatalog operation).1 = .error err) :
    (p.updateDirectCatalog operation).2 = p := by
  rw [SegmentPool.updateDirectCatalog] at h ⊢
  split
  · rfl
  next hok => simp [hok] at h

theorem remove_error (h : (p.remove c id).1 = .error err) : (p.remove c id).2 = p := by
  rw [SegmentPool.remove, SegmentPool.updateDirectCatalog] at h ⊢
  cases hremove : p.catalogRemove c id with
  | error err => rfl
  | ok p' => simp [hremove] at h

theorem reactivateMany_error (h : (p.reactivateMany c ids).1 = .error err) :
    (p.reactivateMany c ids).2 = p := by
  rw [SegmentPool.reactivateMany] at h ⊢
  split
  · rfl
  next hids =>
  rw [if_neg hids] at h
  exact updateDirectCatalog_error h

theorem attach_error {err : AttachError} (h : p.attach spec = some (.error err, p')) : p' = p := by
  rw [SegmentPool.attach] at h
  split at h
  · cases h
    rfl
  · obtain ⟨_, -, h⟩ := bind_eq_some_iff.mp h
    split at h <;> cases h
    rfl

theorem attachQuiesced_error {err : AttachError}
    (h : p.attachQuiesced spec = some (.error err, p')) : p' = p := by
  rw [SegmentPool.attachQuiesced] at h
  split at h
  · cases h
    rfl
  · obtain ⟨_, -, h⟩ := bind_eq_some_iff.mp h
    split at h
    · cases h
      rfl
    · split at h
      · obtain ⟨_, -, h⟩ := bind_eq_some_iff.mp h
        cases h
      · cases h

theorem Attaching.mounted (h : Attaching mount poolId fresh spec (.ok outcome) mount') :
    ∃ k, mount' spec.identity.id = some k ∧ k.spec = spec ∧ k.entry = outcome.segment.entry := by
  cases h with
  | existing k hmt hspec => exact ⟨k, hmt, hspec, rfl⟩
  | new => exact ⟨_, update_self .., rfl, rfl⟩

theorem idAt_mount (h : p.mount id = some k) : p.idAt k.entry = k.spec.identity.id := by
  obtain ⟨-, _, he, hspec, -⟩ := mount_eq_some.mp h
  simp [SegmentPool.idAt, he, hspec]

theorem Changing.owned (h : Changing mount c id state result mount') (hmt : mount id = some k)
    (hownr : k.owner = c) : result = .ok () ∧ mount' = update mount id (some { k with state }) := by
  cases h with
  | refuse _ hoth => exact absurd hownr (hoth k hmt)
  | change k' hk' =>
    cases hmt.symm.trans hk'
    exact ⟨rfl, rfl⟩

theorem Removing.quiesced (h : Removing mount c id result mount') (hmt : mount id = some k)
    (hownr : k.owner = c) (hst : k.state = .quiesced) :
    result = .ok () ∧ mount' = update mount id none := by
  cases h with
  | refuse _ hacc => cases hst.symm.trans (hacc k hmt hownr)
  | remove => exact ⟨rfl, rfl⟩

/-- The change of one segment to accepting, as a batch. -/
theorem Changing.batch (h : Changing mount c id .accepting (.ok ()) mount') :
    Reactivating mount c [id] (.ok ()) mount' := by
  cases h with
  | change k hmt hownr =>
    have hrvt := @Reactivating.reactivate mount c [id] (by simp [hmt, hownr])
    convert hrvt using 1
    funext id'
    by_cases hne : id' = id
    · subst hne
      simp [hmt]
    · simp [hne]

end Effects

end Cakemaster.Segment
