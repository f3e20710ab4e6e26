import Cakemaster.Segment.PoolInvariant

/-!
# Mounting segments keeps the invariant of the pool

State changes of mounted segments and the attachment of new ones. None of these
operations panics in a state of the invariant.
-/

namespace Cakemaster.Segment

open Machine SegmentPool AList
open Option (bind_eq_bind bind_some)

variable {A : UnitAllocator} {p p' : SegmentPool A} {held : Multiset (Reservation A)}

/-- A change of an entry's state that is no removal and touches nothing else. -/
structure StateChange (f : SegmentEntry A → SegmentEntry A) : Prop where
  spec : ∀ e, (f e).spec = e.spec
  allocator : ∀ e, (f e).allocator = e.allocator
  lifetime : ∀ e, (f e).lifetime = e.lifetime
  removed : ∀ e, (f e).state = .removed ↔ e.state = .removed

theorem stateChange_quiesce : StateChange (SegmentEntry.quiesce (A := A)) := by
  constructor <;> intro e <;> unfold SegmentEntry.quiesce <;> split <;>
    simp_all [SegmentEntry.isAccepting, SegmentState.isAccepting]

theorem stateChange_reactivate : StateChange (SegmentEntry.reactivate (A := A)) := by
  constructor <;> intro e <;> unfold SegmentEntry.reactivate <;> split <;> simp_all

theorem PoolInvariant.stateChange (hp : PoolInvariant p held)
    (hf : StateChange f) (ref : EntryRef) : PoolInvariant (p.modifyEntry ref f) held := by
  constructor
  · cases he : p.entries[ref]? with
    | none =>
      refine hp.mounts.congr ?_ rfl
      exact List.modify_eq_self (List.getElem?_eq_none_iff.mp he)
    | some e =>
      have hent := hp.mounts.entry he
      refine hp.mounts.modifyEntry he rfl (hf.spec e) (by rw [hf.lifetime]) ?_ (fun _ _ => rfl)
        (fun r hr => .inl hr)
      constructor
      · rw [hf.spec]
        exact hent.range
      · rw [hf.spec, hf.allocator]
        exact hent.serves
      · rw [hf.lifetime]
        exact hent.leases
      · rw [hf.lifetime, ne_eq, hf.removed]
        exact hent.live_iff
  · exact hp.index.congr (ownerOf_modifyEntry fun e _ => hf.spec e) rfl

theorem PoolInvariant.reactivateAll (hp : PoolInvariant p held)
    (owned : List (EntryRef × SegmentEntry A)) :
    PoolInvariant (owned.foldl (fun p owned => p.modifyEntry owned.1 (·.reactivate)) p) held := by
  induction owned generalizing p with
  | nil => exact hp
  | cons first rest ih => exact ih (hp.stateChange stateChange_reactivate first.1)

section Attach

variable {spec : SegmentSpec} {stop : ℕ}

theorem findOverlap_total (hspecs : ∀ s ∈ specs, s.region.base + s.region.size < 2 ^ 64) :
    ∃ found, findOverlap spec stop specs = some found := by
  induction specs with
  | nil => exact ⟨none, rfl⟩
  | cons s rest ih =>
    have hrest := ih fun t ht => hspecs t (List.mem_cons_of_mem _ ht)
    have hstop : s.region.stop = some (s.region.base + s.region.size) :=
      Word.checkedAdd_eq_some.mpr ⟨hspecs s (List.mem_cons_self ..), rfl⟩
    simp only [findOverlap, hstop, bind_eq_bind, bind_some]
    split
    · split
      · exact ⟨_, rfl⟩
      · exact hrest
    · exact hrest

theorem disjoint_of_findOverlap (hstop : spec.region.stop = some stop)
    (h : findOverlap spec stop specs = some none) (hs : s ∈ specs)
    (hownr : s.identity.owner = spec.identity.owner) (htrp : s.transport = spec.transport) :
    Disjoint s.region.addresses spec.region.addresses := by
  induction specs with
  | nil => cases hs
  | cons first rest ih =>
    simp only [findOverlap] at h
    rcases List.mem_cons.mp hs with rfl | hmem
    · rw [if_pos ⟨hownr, htrp⟩] at h
      cases hfirst : s.region.stop with
      | none => simp [hfirst] at h
      | some firstStop =>
        simp only [hfirst, bind_eq_bind, bind_some] at h
        split at h
        · cases h
        next hno =>
        obtain ⟨-, rfl⟩ := Word.checkedAdd_eq_some.mp hstop
        obtain ⟨-, rfl⟩ := Word.checkedAdd_eq_some.mp hfirst
        simp only [MemoryRegion.addresses, Set.Ico_disjoint_Ico]
        omega
    · split at h
      · cases hfirst : first.region.stop with
        | none => simp [hfirst] at h
        | some firstStop =>
          simp only [hfirst, bind_eq_bind, bind_some] at h
          split at h
          · cases h
          · exact ih h hmem
      · exact ih h hmem

theorem mem_mountedEntries {e : SegmentEntry A} {id : SegmentId} {ref : EntryRef}
    (hid : p.segments.lookup id = some ref) (he : p.entries[ref]? = some e) :
    e ∈ p.mountedEntries := by
  refine List.mem_filterMap.mpr ⟨ref, List.mem_map.mpr ⟨⟨id, ref⟩, ?_, rfl⟩, he⟩
  exact mem_lookup_iff.mp hid

theorem MountInvariant.length_of_held (hp : MountInvariant p held) :
    heldAt held p.entries.length = 0 := by
  rw [heldAt, Multiset.map_eq_zero, Multiset.filter_eq_nil]
  intro r hr hent
  obtain ⟨_, he, -⟩ := hp.reserved hr
  rw [hent, List.getElem?_length] at he
  cases he

/-- The catalog with a new entry mounted at the end of the entries. -/
def mountNew (p : SegmentPool A) (e : SegmentEntry A) : SegmentPool A :=
  { p with
    entries := p.entries ++ [e]
    segments := p.segments.insert e.spec.identity.id p.entries.length
    segmentsByOwner := p.segmentsByOwner.insert e.spec.identity.owner
      (e.spec.identity.id :: p.ownedIds e.spec.identity.owner) }

variable {e : SegmentEntry A}

theorem getElem?_mountNew (p : SegmentPool A) (e : SegmentEntry A) (ref : EntryRef) :
    (mountNew p e).entries[ref]? = if ref = p.entries.length then some e else p.entries[ref]? := by
  simp only [mountNew, List.getElem?_append]
  by_cases hlt : ref < p.entries.length
  · rw [if_pos hlt, if_neg hlt.ne]
  · rw [if_neg hlt]
    by_cases heq : ref = p.entries.length
    · simp [heq]
    · have hgt : p.entries.length < ref := lt_of_le_of_ne (not_lt.mp hlt) (Ne.symm heq)
      have hpast : [e].length ≤ ref - p.entries.length := Nat.sub_pos_of_lt hgt
      rw [if_neg heq, List.getElem?_eq_none hpast, List.getElem?_eq_none hgt.le]

theorem getElem?_mountNew_old {k : SegmentEntry A} {ref : EntryRef} (h : p.entries[ref]? = some k) :
    (mountNew p e).entries[ref]? = some k := by
  have hlt := (List.getElem?_eq_some_iff.mp h).1
  rw [getElem?_mountNew, if_neg hlt.ne, h]

theorem MountInvariant.mountNew (hp : MountInvariant p held) (hent : EntryInvariant e 0)
    (hlive : e.lifetime.live = true) (hfrs : p.segments.lookup e.spec.identity.id = none)
    (hapart : ∀ k ∈ p.mountedEntries, k.spec.identity.owner = e.spec.identity.owner →
      k.spec.transport = e.spec.transport →
      Disjoint k.spec.region.addresses e.spec.region.addresses) :
    MountInvariant (mountNew p e) held := by
  have hlook : ∀ {id : SegmentId}, id ≠ e.spec.identity.id →
      (Segment.mountNew p e).segments.lookup id = p.segments.lookup id :=
    fun hid => lookup_insert_ne hid
  have hnew : (Segment.mountNew p e).segments.lookup e.spec.identity.id = some p.entries.length :=
    lookup_insert _
  constructor
  · intro ref k hk
    rw [getElem?_mountNew] at hk
    split at hk
    case isTrue heq =>
      cases hk
      rw [heq, hp.length_of_held]
      exact hent
    case isFalse => exact hp.entry hk
  · intro ref k hk hklive
    rw [getElem?_mountNew] at hk
    split at hk
    case isTrue heq =>
      cases hk
      rw [heq, hnew]
    case isFalse =>
      have hmtd := hp.live_mounted hk hklive
      rw [hlook, hmtd]
      intro heq
      rw [heq, hfrs] at hmtd
      cases hmtd
  · intro id ref hid
    by_cases heq : id = e.spec.identity.id
    · subst heq
      rw [hnew, Option.some.injEq] at hid
      subst hid
      exact ⟨e, by rw [getElem?_mountNew, if_pos rfl], rfl, hlive⟩
    · rw [hlook heq] at hid
      obtain ⟨k, hk, hkid, hklive⟩ := hp.mounted hid
      exact ⟨k, getElem?_mountNew_old hk, hkid, hklive⟩
  · -- an entry that was live before is mounted, so the overlap check has seen it
    have hold : ∀ {ref : EntryRef} {k : SegmentEntry A}, p.entries[ref]? = some k →
        k.lifetime.live = true → k.spec.identity.owner = e.spec.identity.owner →
        k.spec.transport = e.spec.transport →
        Disjoint k.spec.region.addresses e.spec.region.addresses :=
      fun hk hklive => hapart _ (mem_mountedEntries (hp.live_mounted hk hklive) hk)
    intro r₁ r₂ k₁ k₂ hne h₁ h₂ hl₁ hl₂ hownr htrp
    rw [getElem?_mountNew] at h₁ h₂
    by_cases h₁' : r₁ = p.entries.length <;> by_cases h₂' : r₂ = p.entries.length
    · exact absurd (h₁'.trans h₂'.symm) hne
    · rw [if_pos h₁'] at h₁
      rw [if_neg h₂'] at h₂
      cases h₁
      exact (hold h₂ hl₂ hownr.symm htrp.symm).symm
    · rw [if_neg h₁'] at h₁
      rw [if_pos h₂'] at h₂
      cases h₂
      exact hold h₁ hl₁ hownr htrp
    · rw [if_neg h₁'] at h₁
      rw [if_neg h₂'] at h₂
      exact hp.apart hne h₁ h₂ hl₁ hl₂ hownr htrp
  · intro r hr
    obtain ⟨k, hk, hseg, hreg⟩ := hp.reserved hr
    exact ⟨k, getElem?_mountNew_old hk, hseg, hreg⟩

theorem ownerOf_mountNew (hp : MountInvariant p held) (id : SegmentId) : (mountNew p e).ownerOf id =
      if id = e.spec.identity.id then some e.spec.identity.owner else p.ownerOf id := by
  by_cases heq : id = e.spec.identity.id
  · subst heq
    simp only [ownerOf, if_pos]
    rw [show (mountNew p e).segments.lookup e.spec.identity.id = some p.entries.length from
      lookup_insert _, bind_some, getElem?_mountNew, if_pos rfl]
    rfl
  · rw [if_neg heq]
    simp only [ownerOf]
    rw [show (mountNew p e).segments.lookup id = p.segments.lookup id from lookup_insert_ne heq]
    cases hid : p.segments.lookup id with
    | none => rfl
    | some ref =>
      obtain ⟨_, hk, -⟩ := hp.mounted hid
      rw [bind_some, bind_some, getElem?_mountNew_old hk, hk]

theorem ownedIds_mountNew (p : SegmentPool A) (e : SegmentEntry A) (owner : ClientId) :
    (mountNew p e).ownedIds owner =
      if owner = e.spec.identity.owner then e.spec.identity.id :: p.ownedIds owner
      else p.ownedIds owner := by
  by_cases heq : owner = e.spec.identity.owner
  · subst heq
    simp [ownedIds, mountNew]
  · simp [ownedIds, mountNew, lookup_insert_ne heq, heq]

theorem OwnerIndex.mountNew (hp : MountInvariant p held) (hindex : OwnerIndex p)
    (hfrs : p.segments.lookup e.spec.identity.id = none) : OwnerIndex (mountNew p e) := by
  have hunowned : ∀ owner, e.spec.identity.id ∉ p.ownedIds owner := by
    intro owner hmem
    have hownr := hindex.mem_iff.mp hmem
    rw [ownerOf, hfrs] at hownr
    cases hownr
  constructor
  · intro owner id
    rw [ownedIds_mountNew, ownerOf_mountNew hp]
    by_cases hid : id = e.spec.identity.id <;> by_cases hownr : owner = e.spec.identity.owner
    · simp [hid, hownr]
    · simp [hid, hownr, hunowned owner, Ne.symm hownr]
    · simp [hid, hownr, hindex.mem_iff]
    · simp [hid, hownr, hindex.mem_iff]
  · intro owner
    rw [ownedIds_mountNew]
    split
    · exact List.nodup_cons.mpr ⟨hunowned owner, hindex.nodup owner⟩
    · exact hindex.nodup owner

theorem entryInvariant_new (hrange : 0 < spec.region.size ∧ spec.region.base + spec.region.size < 2 ^ 64)
    (maxAllocatorNodes : ℕ) :
    EntryInvariant (SegmentEntry.new spec (ByteAllocator.new A spec.region.size maxAllocatorNodes)) 0 where
  range := hrange
  serves := ByteAllocator.serves_new maxAllocatorNodes (show spec.region.size < 2 ^ 64 by omega)
  leases := rfl
  live_iff := by simp [SegmentEntry.new]

theorem catalogAttach_cases (hp : PoolInvariant p held)
    (hrange : 0 < spec.region.size ∧ spec.region.base + spec.region.size < 2 ^ 64) :
    (∃ err, p.catalogAttach spec = some (.error err)) ∨
    (∃ ref, p.segments.lookup spec.identity.id = some ref ∧ (p.entries[ref]?).map (·.spec) = some spec ∧
      p.catalogAttach spec = some (.ok (.alreadyAttached (p.handle ref), p))) ∨
    (∃ e, e.spec = spec ∧ e.state = .accepting ∧ p.segments.lookup spec.identity.id = none ∧
      PoolInvariant (mountNew p e) held ∧ p.catalogAttach spec =
        some (.ok (.attached (p.handle p.entries.length), (mountNew p e).rebuildIndexes))) := by
  simp only [catalogAttach]
  cases hid : p.segments.lookup spec.identity.id with
  | some ref =>
    by_cases hsame : (p.entries[ref]?).map (·.spec) = some spec
    · exact .inr (.inl ⟨ref, rfl, hsame, by simp only [hsame, if_pos]⟩)
    · exact .inl ⟨_, by simp only [hsame, if_neg, not_false_eq_true]; rfl⟩
  | none =>
    have hstop : spec.region.stop = some (spec.region.base + spec.region.size) :=
      Word.checkedAdd_eq_some.mpr ⟨hrange.2, rfl⟩
    have hmountedRange : ∀ s ∈ p.mountedEntries.map (·.spec), s.region.base + s.region.size < 2 ^ 64 := by
      intro s hs
      obtain ⟨k, hk, rfl⟩ := List.mem_map.mp hs
      obtain ⟨ref, -, hent⟩ := List.mem_filterMap.mp hk
      exact (hp.mounts.entry hent).range.2
    have htot : ∃ found, findOverlap spec (spec.region.base + spec.region.size)
        (p.mountedEntries.map (·.spec)) = some found := findOverlap_total hmountedRange
    obtain ⟨found, hfnd⟩ := htot
    simp only [hstop, hfnd, bind_eq_bind, bind_some]
    cases found with
    | some existing => exact .inl ⟨_, rfl⟩
    | none =>
      refine .inr (.inr ⟨_, rfl, rfl, trivial, ?_, rfl⟩)
      have hmnts := hp.mounts.mountNew
        (entryInvariant_new (A := A) hrange p.config.maxAllocatorNodesPerSegment) rfl hid
        (fun k hk => disjoint_of_findOverlap hstop hfnd (List.mem_map_of_mem hk))
      exact ⟨hmnts, OwnerIndex.mountNew hp.mounts hp.index hid⟩

theorem attach_keeps (hp : PoolInvariant p held) (spec : SegmentSpec) :
    ∃ result p', p.attach spec = some (result, p') ∧ PoolInvariant p' held := by
  simp only [attach]
  cases hvld : validateSpec spec with
  | error err => exact ⟨_, _, rfl, hp⟩
  | ok =>
    rcases catalogAttach_cases hp (validateSpec_ok hvld) with
      ⟨err, h⟩ | ⟨ref, -, -, h⟩ | ⟨e, -, -, -, hmtd, h⟩
    · exact ⟨_, _, by simp only [h, bind_eq_bind, bind_some]; rfl, hp⟩
    · exact ⟨_, _, by simp only [h, bind_eq_bind, bind_some]; rfl, hp.bumpDirectCapacityEpoch⟩
    · exact ⟨_, _, by simp only [h, bind_eq_bind, bind_some]; rfl,
        hmtd.rebuildIndexes.bumpDirectCapacityEpoch⟩

/-- A newly mounted segment is owned by its owner, so hiding it cannot fail. -/
theorem ownedEntry_mountNew (p : SegmentPool A) (e : SegmentEntry A) :
    (mountNew p e).rebuildIndexes.ownedEntry e.spec.identity.owner e.spec.identity.id =
      .ok (p.entries.length, e) := by
  have hid : (mountNew p e).rebuildIndexes.segments.lookup e.spec.identity.id = some p.entries.length := by
    rw [segments_rebuildIndexes]
    exact lookup_insert _
  have he : (mountNew p e).rebuildIndexes.entries[p.entries.length]? = some e := by
    rw [entries_rebuildIndexes, getElem?_mountNew, if_pos rfl]
  simp only [ownedEntry, hid, he, ne_eq, not_true_eq_false, if_false]

/-- `attach_quiesced` either leaves the catalog as it is or mounts one new entry, quiesced. -/
theorem attachQuiesced_cases (hp : PoolInvariant p held) (spec : SegmentSpec) :
    (∃ err, p.attachQuiesced spec = some (.error err, p)) ∨
    (∃ ref, p.segments.lookup spec.identity.id = some ref ∧
      (p.entries[ref]?).map (·.spec) = some spec ∧
      p.attachQuiesced spec = some (.ok (.alreadyAttached (p.handle ref)), p.bumpDirectCapacityEpoch)) ∨
    (∃ e, e.spec = spec ∧ e.state = .accepting ∧ p.segments.lookup spec.identity.id = none ∧
      PoolInvariant (mountNew p e) held ∧
      p.attachQuiesced spec = some (.ok (.attached (p.handle p.entries.length)),
        ((mountNew p e).rebuildIndexes.modifyEntry p.entries.length
          (·.quiesce)).rebuildIndexes.bumpDirectCapacityEpoch)) := by
  simp only [attachQuiesced]
  cases hvld : validateSpec spec with
  | error err => exact .inl ⟨err, rfl⟩
  | ok =>
    rcases catalogAttach_cases hp (validateSpec_ok hvld) with
      ⟨err, h⟩ | ⟨ref, hid, hspec, h⟩ | ⟨e, rfl, hst, hid, hmtd, h⟩
    · exact .inl ⟨err, by simp only [h, bind_eq_bind, bind_some]⟩
    · exact .inr (.inl ⟨ref, hid, hspec, by simp only [h, bind_eq_bind, bind_some]; rfl⟩)
    · refine .inr (.inr ⟨e, rfl, hst, hid, hmtd, ?_⟩)
      simp only [h, bind_eq_bind, bind_some, AttachOutcome.isNew, if_true, catalogQuiesce,
        ownedEntry_mountNew]
      rfl

end Attach

end Cakemaster.Segment
