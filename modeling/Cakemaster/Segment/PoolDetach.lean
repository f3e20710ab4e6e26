import Cakemaster.Segment.PoolAttach

/-!
# Detaching segments and using reservations keeps the invariant of the pool

Removal and invalidation fence an entry before they detach it, so a live entry
stays mounted. A reservation and its drop change one entry's allocator.
-/

namespace Cakemaster.Segment

open Machine SegmentPool Option AList Multiset List

variable {A : UnitAllocator} {p p' : SegmentPool A} {held : Multiset (Reservation A)}
variable {owner : ClientId}

section Unmount

variable {id : SegmentId} {ref : EntryRef}

/-- The catalog after the segment `id`, mounted at `ref`, was fenced and detached. -/
def unmount (p : SegmentPool A) (ref : EntryRef) (id : SegmentId) : SegmentPool A :=
  { p.modifyEntry ref (·.invalidate) with segments := p.segments.erase id }

theorem getElem?_unmount (p : SegmentPool A) (ref : EntryRef) (id : SegmentId) (ref' : EntryRef) :
    (unmount p ref id).entries[ref']? =
      if ref = ref' then (p.entries[ref']?).map (·.invalidate) else p.entries[ref']? :=
  getElem?_modifyEntry p ref _ ref'

theorem MountInvariant.unmount (hp : MountInvariant p held)
    (hid : p.segments.lookup id = some ref) :
    MountInvariant (unmount p ref id) held := by
  have herase : (Segment.unmount p ref id).segments = p.segments.erase id := rfl
  -- a live entry of the new catalog is another one, unchanged and mounted under another id
  have hlive : ∀ {ref' : EntryRef} {k : SegmentEntry A},
      (Segment.unmount p ref id).entries[ref']? = some k → k.lifetime.live = true →
      ref ≠ ref' ∧ p.entries[ref']? = some k ∧ k.spec.identity.id ≠ id := by
    intro ref' k hk hklive
    rw [getElem?_unmount] at hk
    split at hk
    case isTrue =>
      obtain ⟨k', -, rfl⟩ := map_eq_some_iff.mp hk
      cases hklive
    case isFalse hne =>
      refine ⟨hne, hk, ?_⟩
      intro heq
      have hmtd := hp.live_mounted hk hklive
      rw [heq, hid, some.injEq] at hmtd
      exact hne hmtd
  have hspec : ∀ {ref' : EntryRef} {k : SegmentEntry A}, p.entries[ref']? = some k →
      ∃ k', (Segment.unmount p ref id).entries[ref']? = some k' ∧ k'.spec = k.spec := by
    intro ref' k hk
    rw [getElem?_unmount, hk]
    split
    · exact ⟨_, rfl, rfl⟩
    · exact ⟨_, rfl, rfl⟩
  constructor
  · intro ref' k hk
    rw [getElem?_unmount] at hk
    split at hk
    case isTrue =>
      obtain ⟨k', hk', rfl⟩ := map_eq_some_iff.mp hk
      obtain ⟨hrange, hsrv, hlss, -⟩ := hp.entry hk'
      exact ⟨hrange, hsrv, hlss, by simp [SegmentEntry.invalidate]⟩
    case isFalse => exact hp.entry hk
  · intro ref' k hk hklive
    obtain ⟨-, hk', hne⟩ := hlive hk hklive
    rw [herase, lookup_erase_ne hne]
    exact hp.live_mounted hk' hklive
  · intro id' ref' hid'
    rw [herase] at hid'
    by_cases heq : id' = id
    · rw [heq, lookup_erase] at hid'
      cases hid'
    · rw [lookup_erase_ne heq] at hid'
      obtain ⟨k, hk, hkid, hklive⟩ := hp.mounted hid'
      have hne : ref ≠ ref' := by
        rintro rfl
        obtain ⟨k', hk', hkid', -⟩ := hp.mounted hid
        rw [hk, some.injEq] at hk'
        exact heq (hkid ▸ hk' ▸ hkid')
      exact ⟨k, by rw [getElem?_unmount, if_neg hne, hk], hkid, hklive⟩
  · intro r₁ r₂ k₁ k₂ hne h₁ h₂ hl₁ hl₂
    exact hp.apart hne (hlive h₁ hl₁).2.1 (hlive h₂ hl₂).2.1 hl₁ hl₂
  · intro r hr
    obtain ⟨k, hk, hseg, hreg⟩ := hp.reserved hr
    obtain ⟨k', hk', hkspec⟩ := hspec hk
    exact ⟨k', hk', hseg.trans hkspec.symm, by rw [hkspec]; exact hreg⟩

theorem ownerOf_unmount (p : SegmentPool A) (ref : EntryRef) (id id' : SegmentId) :
    (unmount p ref id).ownerOf id' = if id' = id then none else p.ownerOf id' := by
  have hownr : (unmount p ref id).ownerOf id' = ((p.segments.erase id).lookup id').bind fun ref' =>
        (p.entries[ref']?).map (·.spec.identity.owner) := by
    simp only [ownerOf]
    congr 1
    funext ref'
    rw [getElem?_unmount]
    split <;> cases p.entries[ref']? <;> rfl
  rw [hownr]
  split
  case isTrue heq => rw [heq, lookup_erase, bind_none]
  case isFalse hne =>
    rw [lookup_erase_ne hne]
    rfl

theorem ownedEntry_ok (h : p.ownedEntry owner id = .ok (ref, e)) :
    p.segments.lookup id = some ref ∧ p.entries[ref]? = some e ∧ e.spec.identity.owner = owner := by
  simp only [ownedEntry] at h
  cases hid : p.segments.lookup id with
  | none => simp [hid] at h
  | some ref' =>
    simp only [hid] at h
    cases he : p.entries[ref']? with
    | none => simp [he] at h
    | some e' =>
      simp only [he] at h
      split at h
      · cases h
      next hownr =>
      obtain ⟨rfl, rfl⟩ := Prod.mk.inj (Except.ok.inj h)
      exact ⟨rfl, he, not_ne_iff.mp hownr⟩

theorem ownedIds_removeOwnerSegment (p : SegmentPool A) (owner owner' : ClientId) (id : SegmentId) :
    (p.removeOwnerSegment owner id).ownedIds owner' =
      if owner' = owner then (p.ownedIds owner').erase id else p.ownedIds owner' := by
  simp only [removeOwnerSegment]
  cases hids : p.segmentsByOwner.lookup owner with
  | none =>
    dsimp only
    split
    case isTrue heq =>
      subst heq
      simp [ownedIds, hids]
    case isFalse => rfl
  | some ids =>
    dsimp only
    by_cases heq : owner' = owner
    · subst heq
      split
      case isTrue hemp => simp [ownedIds, hids, hemp]
      case isFalse => simp [ownedIds, hids]
    · rw [if_neg heq]
      split <;> simp [ownedIds, lookup_erase_ne heq, lookup_insert_ne heq]

theorem removeOwnerSegment_frame (p : SegmentPool A) (owner : ClientId) (id : SegmentId) :
    (p.removeOwnerSegment owner id).entries = p.entries ∧
      (p.removeOwnerSegment owner id).segments = p.segments := by
  simp only [removeOwnerSegment]
  cases p.segmentsByOwner.lookup owner with
  | none => exact ⟨rfl, rfl⟩
  | some ids =>
    dsimp only
    split <;> exact ⟨rfl, rfl⟩

theorem PoolInvariant.unmount_owned (hp : PoolInvariant p held)
    (hid : p.segments.lookup id = some ref) (hownr : p.ownerOf id = some owner) :
    PoolInvariant ((unmount p ref id).removeOwnerSegment owner id) held := by
  obtain ⟨hents, hsegs⟩ := removeOwnerSegment_frame (unmount p ref id) owner id
  have hsame : ∀ owner, (unmount p ref id).ownedIds owner = p.ownedIds owner := fun _ => rfl
  refine ⟨(hp.mounts.unmount hid).congr hents hsegs, ?_, ?_⟩
  · intro owner' id'
    rw [ownedIds_removeOwnerSegment, ownerOf_congr hents hsegs, ownerOf_unmount, hsame]
    by_cases hid' : id' = id <;> by_cases hownr' : owner' = owner
    · simp [hid', hownr', (hp.index.nodup owner).mem_erase_iff]
    · have hoth : id ∉ p.ownedIds owner' := by
        rw [hp.index.mem_iff, hownr]
        simp [Ne.symm hownr']
      simp [hid', hownr', hoth]
    · simp [hid', hownr', (hp.index.nodup owner).mem_erase_iff, hp.index.mem_iff]
    · simp [hid', hownr', hp.index.mem_iff]
  · intro owner'
    rw [ownedIds_removeOwnerSegment, hsame]
    split
    · exact (hp.index.nodup owner').erase id
    · exact hp.index.nodup owner'

theorem catalogRemove_quiesced (howd : p.ownedEntry owner id = .ok (ref, e))
    (hst : e.state = .quiesced) :
    p.catalogRemove owner id = .ok ((unmount p ref id).removeOwnerSegment owner id).rebuildIndexes := by
  obtain ⟨-, he, -⟩ := ownedEntry_ok howd
  have hmodify : p.modifyEntry ref (fun _ => e.invalidate) = p.modifyEntry ref (·.invalidate) := by
    simp only [modifyEntry]
    congr 1
    apply ext_getElem?
    intro i
    rw [getElem?_modify, getElem?_modify]
    by_cases hi : ref = i
    · subst hi
      simp [he]
    · simp [hi]
  simp only [catalogRemove, howd, Bind.bind, Except.bind, SegmentEntry.prepareRemove, hst,
    hmodify, unmount]

theorem catalogRemove_accepting (howd : p.ownedEntry owner id = .ok (ref, e))
    (hst : e.state = .accepting) :
    p.catalogRemove owner id = .error (.stillAccepting e.spec.identity.id) := by
  simp only [catalogRemove, howd, Bind.bind, Except.bind, SegmentEntry.prepareRemove, hst]

theorem invalidateIds_keeps (hp : MountInvariant p held) (hnd : ids.Nodup)
    (hmtd : ∀ id ∈ ids, ∃ owner, p.ownerOf id = some owner) :
    ∃ p', p.invalidateIds ids = some p' ∧ MountInvariant p' held ∧
    p'.segmentsByOwner = p.segmentsByOwner ∧
      ∀ id, p'.ownerOf id = if id ∈ ids then none else p.ownerOf id := by
  induction ids generalizing p with
  | nil => exact ⟨p, rfl, hp, rfl, by simp⟩
  | cons id rest ih =>
    obtain ⟨hhead, hrest⟩ := nodup_cons.mp hnd
    obtain ⟨owner, hownr⟩ := hmtd id (mem_cons_self ..)
    obtain ⟨ref, hid, -⟩ := bind_eq_some_iff.mp hownr
    have hstill : ∀ id' ∈ rest, ∃ owner, (unmount p ref id).ownerOf id' = some owner := by
      intro id' hmem
      have hne : id' ≠ id := by
        rintro rfl
        exact hhead hmem
      rw [ownerOf_unmount, if_neg hne]
      exact hmtd id' (mem_cons_of_mem _ hmem)
    obtain ⟨p', hrun, hmnts, hindex, howrs⟩ := ih (hp.unmount hid) hrest hstill
    refine ⟨p', ?_, hmnts, hindex, ?_⟩
    · simp only [invalidateIds, hid, bind_eq_bind, bind_some]
      exact hrun
    · intro id'
      rw [howrs, ownerOf_unmount]
      by_cases hmem : id' ∈ rest <;> by_cases heq : id' = id <;> simp [hmem, heq]

theorem invalidateOwner_keeps (hp : PoolInvariant p held)
    (hids : p.segmentsByOwner.lookup owner = some ids) :
    ∃ p', ({ p with segmentsByOwner := p.segmentsByOwner.erase owner } : SegmentPool
    A).invalidateIds ids = some p' ∧
      PoolInvariant p' held := by
  have howd : p.ownedIds owner = ids := by simp [ownedIds, hids]
  have hmnts : MountInvariant
      { p with segmentsByOwner := p.segmentsByOwner.erase owner } held := hp.mounts.congr rfl rfl
  have hmtd : ∀ id ∈ ids, ∃ owner,
      ({ p with segmentsByOwner := p.segmentsByOwner.erase owner } : SegmentPool A).ownerOf id = some owner :=
    fun id hmem => ⟨owner, hp.index.mem_iff.mp (howd ▸ hmem)⟩
  obtain ⟨p', hrun, hmnts', hindex, howrs⟩ :=
    invalidateIds_keeps hmnts (howd ▸ hp.index.nodup owner) hmtd
  have howd' : ∀ owner', p'.ownedIds owner' =
      if owner' = owner then [] else p.ownedIds owner' := by
    intro owner'
    simp only [ownedIds, hindex]
    split
    case isTrue heq => rw [heq, lookup_erase, getD_none]
    case isFalse hne => rw [lookup_erase_ne hne]
  have howrs' : ∀ id, p'.ownerOf id = if id ∈ ids then none else p.ownerOf id := howrs
  refine ⟨p', hrun, hmnts', ?_, ?_⟩
  · intro owner' id
    rw [howd', howrs']
    by_cases hmem : id ∈ ids <;> by_cases heq : owner' = owner
    · simp [hmem, heq]
    · have hoth : id ∉ p.ownedIds owner' := by
        rw [hp.index.mem_iff, hp.index.mem_iff.mp (howd.symm ▸ hmem)]
        simp [Ne.symm heq]
      simp [hmem, heq, hoth]
    · have hnot : p.ownerOf id ≠ some owner := fun h => hmem (howd ▸ hp.index.mem_iff.mpr h)
      simp [hmem, heq, hnot]
    · simp [hmem, heq, hp.index.mem_iff]
  · intro owner'
    rw [howd']
    split
    · exact nodup_nil
    · exact hp.index.nodup owner'

end Unmount

section Reservations

variable {e : SegmentEntry A} {ref : EntryRef} {bytes : ℕ}

/-- What `reserve` can do: fail and at most refresh the hint, or hand out a range
whose address is inside `u64` because the allocator stays inside the segment. -/
theorem entry_reserve_cases (hA : A.Sound) (hent : EntryInvariant e allocations) (ref : EntryRef)
    (bytes : ℕ) :
    (∃ err e', e.reserve ref bytes = some (.error err, e') ∧ (∀ id, err ≠ .addressOverflow id) ∧
      EntryInvariant e' allocations ∧ e'.spec = e.spec ∧ e'.lifetime = e.lifetime) ∨
    (∃ r e', e.reserve ref bytes = some (.ok r, e') ∧ EntryInvariant e' (r.allocation ::ₘ allocations) ∧
      e'.spec = e.spec ∧ e'.lifetime.live = e.lifetime.live ∧ r.entry = ref ∧ r.segment = e.spec ∧
      r.region = ⟨e.spec.region.base + r.allocation.offset, r.allocation.requestedBytes⟩ ∧
      r.allocation.requestedBytes = bytes) := by
  obtain ⟨hrange, hsrv, hlss, hlive⟩ := hent
  simp only [SegmentEntry.reserve]
  by_cases hzero : bytes = 0
  · rw [if_pos hzero]
    exact .inl ⟨_, _, rfl, by simp, ⟨hrange, hsrv, hlss, hlive⟩, rfl, rfl⟩
  rw [if_neg hzero]
  by_cases hmay : (!e.allocator.maySatisfy bytes) = true
  · rw [if_pos hmay]
    exact .inl ⟨_, _, rfl, by simp, ⟨hrange, hsrv, hlss, hlive⟩, rfl, rfl⟩
  rw [if_neg hmay]
  by_cases hacc : (!e.isAccepting) = true
  · rw [if_pos hacc]
    exact .inl ⟨_, _, rfl, by simp, ⟨hrange, hsrv, hlss, hlive⟩, rfl, rfl⟩
  rw [if_neg hacc]
  rcases hallocate : e.allocator.allocateAfterPrecheck bytes with ⟨_ | allocation, allocator⟩
  · exact .inl ⟨_, _, rfl, by simp, ⟨hrange, hsrv.of_allocate_none hallocate, hlss, hlive⟩, rfl, rfl⟩
  obtain ⟨hsrv', hbyt⟩ := hsrv.of_allocate_some (Nat.pos_of_ne_zero hzero) hallocate
  have hmem : allocation ∈ allocation ::ₘ allocations := mem_cons_self _ _
  have hinside := hsrv'.range_inside hA hmem
  have hmgd := hsrv'.managed_le
  have haddress : Word.checkedAdd 64 e.spec.region.base allocation.offset =
      some (e.spec.region.base + allocation.offset) :=
    Word.checkedAdd_eq_some.mpr ⟨by omega, rfl⟩
  simp only [haddress]
  refine .inr ⟨_, _, rfl, ⟨hrange, hsrv', ?_, hlive⟩, rfl, rfl, rfl, rfl, by rw [hbyt], hbyt⟩
  rw [card_cons, hlss]

/-- What `SegmentPool::reserve` can do with a handle of this pool, stale or not. -/
theorem reserve_cases (hA : A.Sound) (hp : PoolInvariant p held)
    (hkn : candidate.poolId ≠ p.poolId ∨ candidate.entry < p.entries.length) (bytes : ℕ) :
    (∃ err p', p.reserve candidate bytes = some (.error err, p') ∧
      (∀ id, err ≠ .addressOverflow id) ∧ PoolInvariant p' held) ∨
    (∃ r p', p.reserve candidate bytes = some (.ok r, p') ∧ PoolInvariant p' (r ::ₘ held) ∧
      r.region.size = bytes) := by
  simp only [reserve]
  by_cases hfgn : candidate.poolId ≠ p.poolId
  · rw [if_pos hfgn]
    exact .inl ⟨_, _, rfl, by simp, hp⟩
  rw [if_neg hfgn]
  have hlt := hkn.resolve_left hfgn
  obtain ⟨e, he⟩ : ∃ e, p.entries[candidate.entry]? = some e := ⟨_, getElem?_eq_getElem hlt⟩
  have hent := hp.mounts.entry he
  rcases entry_reserve_cases hA hent candidate.entry bytes with
    ⟨err, e', hreserve, herr, hent', hspec, hlife⟩ |
    ⟨r, e', hreserve, hent', hspec, hlive, href, hseg, hreg, hbyt⟩
  · refine .inl ⟨err, p.modifyEntry candidate.entry fun _ => e', by simp [he, hreserve], herr, ?_, ?_⟩
    · exact hp.mounts.modifyEntry he rfl hspec (by rw [hlife]) hent' (fun _ _ => rfl) (fun r hr => .inl hr)
    · refine hp.index.congr (ownerOf_modifyEntry ?_) rfl
      intro k hk
      rw [he, some.injEq] at hk
      exact hk ▸ hspec
  refine .inr ⟨r, p.modifyEntry candidate.entry fun _ => e', by simp [he, hreserve], ⟨?_, ?_⟩, ?_⟩
  · rw [← href] at hent' he ⊢
    refine hp.mounts.modifyEntry he rfl hspec hlive ?_ ?_ ?_
    · rw [heldAt_cons_self]
      exact hent'
    · exact fun ref' hne => heldAt_cons_ne hne held
    · intro k hk
      rcases mem_cons.mp hk with rfl | hk
      · exact .inr ⟨rfl, hseg, hreg⟩
      · exact .inl hk
  · refine hp.index.congr (ownerOf_modifyEntry ?_) rfl
    intro k hk
    rw [he, some.injEq] at hk
    exact hk ▸ hspec
  · rw [hreg, hbyt]

/-- Dropping a held reservation frees exactly its range, without a panic. -/
theorem dropReservation_keeps (hp : PoolInvariant p (r ::ₘ held)) :
    ∃ p', p.dropReservation r = some p' ∧ PoolInvariant p' held := by
  obtain ⟨_, he, -, -⟩ := hp.mounts.reserved (mem_cons_self r held)
  obtain ⟨hrange, hsrv, hlss, hlive⟩ := hp.mounts.entry he
  rw [heldAt_cons_self] at hsrv hlss
  obtain ⟨_, hrls, hsrv'⟩ := hsrv.release
  refine ⟨_, by simp [dropReservation, SegmentEntry.drop, he, hrls]; rfl, ?_, ?_⟩
  · refine hp.mounts.modifyEntry he rfl rfl rfl ⟨hrange, hsrv', ?_, hlive⟩ ?_ ?_
    · rw [card_cons] at hlss
      simp [hlss]
    · exact fun ref' hne => (heldAt_cons_ne hne held).symm
    · exact fun k hk => .inl (mem_cons_of_mem hk)
  · refine hp.index.congr (ownerOf_modifyEntry ?_) rfl
    intro k hk
    rw [he, some.injEq] at hk
    exact hk ▸ rfl

end Reservations

end Cakemaster.Segment
