import Cakemaster.Segment.Isolation
import Mathlib.Data.Int.ModEq

/-!
# The indexes of the catalog

The candidate list and the owner index are redundant: the first is what
`rebuild_indexes` computes from the mounted segments, the second lists the owners of these
segments. Every operation leaves both up to date, and the generation
of the candidate list tells two different lists apart as long as it has not come round.
-/

namespace Cakemaster.Segment

open Machine SegmentPool AList

variable {A : UnitAllocator} {p p' : SegmentPool A} {held : Multiset (Reservation A)}
variable {owner : ClientId} {id : SegmentId} {n : ℕ}

/-! ### Rebuilding -/

def candidates (p : SegmentPool A) : List EntryRef :=
  (p.mountedRefs.filter p.acceptingAt).insertionSort fun a b => (p.idAt a).le (p.idAt b)

@[simp] theorem direct_rebuildIndexes : p.rebuildIndexes.direct = candidates p := by
  simp only [rebuildIndexes, candidates]
  split
  next h => exact h.symm
  next => rfl

theorem candidates_congr (hsegs : p'.segments = p.segments)
    (hacc : ∀ ref, p'.acceptingAt ref = p.acceptingAt ref) (hid : ∀ ref, p'.idAt ref = p.idAt ref) :
    candidates p' = candidates p := by
  have hrefs : p'.mountedRefs = p.mountedRefs := by rw [mountedRefs, hsegs, mountedRefs]
  rw [candidates, hrefs, funext hacc, funext hid, candidates]

theorem candidates_of_frame (hsegs : p'.segments = p.segments) (hents : p'.entries = p.entries) :
    candidates p' = candidates p :=
  candidates_congr hsegs (fun ref => by rw [acceptingAt, hents, acceptingAt])
    fun ref => by rw [idAt, hents, idAt]

structure Indexed (p : SegmentPool A) : Prop where
  direct : p.direct = candidates p
  nonempty : ∀ owner ids, p.segmentsByOwner.lookup owner = some ids → ids ≠ []

theorem Indexed.of_rebuild (h : ∀ owner ids, p.segmentsByOwner.lookup owner = some ids → ids ≠ []) :
    Indexed p.rebuildIndexes where
  direct := by
    rw [direct_rebuildIndexes]
    exact (candidates_of_frame segments_rebuildIndexes entries_rebuildIndexes).symm
  nonempty := by
    rw [segmentsByOwner_rebuildIndexes]
    exact h

theorem Indexed.congr (h : Indexed p) (hdir : p'.direct = p.direct)
    (hcand : candidates p' = candidates p) (hindex : p'.segmentsByOwner = p.segmentsByOwner) :
    Indexed p' where
  direct := by rw [hdir, hcand, h.direct]
  nonempty := by
    rw [hindex]
    exact h.nonempty

/-! ### Generations -/

/-- The generation has moved on by the given number; without a move the candidates are the same. -/
structure Advance (p p' : SegmentPool A) (n : ℕ) : Prop where
  poolId : p'.poolId = p.poolId
  generation : p'.directGeneration ≡ p.directGeneration + n [MOD 2 ^ 64]
  direct : n = 0 → p'.direct = p.direct

variable {p₁ p₂ p₃ : SegmentPool A}

namespace Advance

theorem of_eq (hpool : p'.poolId = p.poolId) (hgen : p'.directGeneration = p.directGeneration)
    (hdir : p'.direct = p.direct) : Advance p p' 0 :=
  ⟨hpool, by rw [hgen]; exact Nat.ModEq.rfl, fun _ => hdir⟩

theorem trans {m : ℕ} (h : Advance p₁ p₂ n) (h' : Advance p₂ p₃ m) :
    Advance p₁ p₃ (n + m) where
  poolId := h'.poolId.trans h.poolId
  generation := by
    rw [← Nat.add_assoc]
    exact h'.generation.trans (h.generation.add_right m)
  direct hzero := (h'.direct (by omega)).trans (h.direct (by omega))

theorem rebuild (p : SegmentPool A) : ∃ n ≤ 1, Advance p p.rebuildIndexes n := by
  by_cases h : candidates p = p.direct
  · have hsame : p.rebuildIndexes = p := if_pos h
    refine ⟨0, Nat.zero_le _, ?_⟩
    rw [hsame]
    exact .of_eq rfl rfl rfl
  · have hnew : p.rebuildIndexes =
        { p with direct := candidates p, directGeneration := Word.wrapAdd 64 p.directGeneration 1 } := if_neg h
    refine ⟨1, le_rfl, poolId_rebuildIndexes, ?_, nofun⟩
    rw [hnew]
    exact Nat.mod_modEq _ _

end Advance

/-! ### Operations -/

/-- What an operation does to the indexes that rebuilds them at most the given number of times. -/
structure Indexing (p p' : SegmentPool A) (bound : ℕ) : Prop where
  indexed : Indexed p'
  advance : ∃ n ≤ bound, Advance p p' n

namespace Indexing

variable {bound : ℕ}

/-- The operation leaves the candidates and the owners alone. -/
theorem of_frame (h : Indexed p) (hcand : candidates p' = candidates p)
    (hpool : p'.poolId = p.poolId) (hgen : p'.directGeneration = p.directGeneration)
    (hdir : p'.direct = p.direct) (hindex : p'.segmentsByOwner = p.segmentsByOwner) :
    Indexing p p' 0 :=
  ⟨h.congr hdir hcand hindex, 0, le_rfl, .of_eq hpool hgen hdir⟩

theorem refl (h : Indexed p) : Indexing p p 0 := .of_frame h rfl rfl rfl rfl rfl

theorem trans {bound' : ℕ} (h : Indexing p₁ p₂ bound) (h' : Indexing p₂ p₃ bound') :
    Indexing p₁ p₃ (bound + bound') := by
  obtain ⟨n, hn, hadv⟩ := h.advance
  obtain ⟨m, hm, hadv'⟩ := h'.advance
  exact ⟨h'.indexed, n + m, Nat.add_le_add hn hm, hadv.trans hadv'⟩

theorem mono (h : Indexing p p' bound) (hle : bound ≤ bound') : Indexing p p' bound' := by
  obtain ⟨n, hn, hadv⟩ := h.advance
  exact ⟨h.indexed, n, hn.trans hle, hadv⟩

theorem bumpDirectCapacityEpoch (h : Indexing p p' bound) :
    Indexing p p'.bumpDirectCapacityEpoch bound := by
  have hbump : Indexing p' p'.bumpDirectCapacityEpoch 0 := .of_frame h.indexed rfl rfl rfl rfl rfl
  exact h.trans hbump

theorem bumpInvalidationEpoch (h : Indexing p p' bound) :
    Indexing p p'.bumpInvalidationEpoch bound := by
  have hbump : Indexing p' p'.bumpInvalidationEpoch 0 := .of_frame h.indexed rfl rfl rfl rfl rfl
  exact h.trans hbump

theorem rebuild (hpool : p'.poolId = p.poolId) (hgen : p'.directGeneration = p.directGeneration)
    (hdir : p'.direct = p.direct)
    (hnem : ∀ owner ids, p'.segmentsByOwner.lookup owner = some ids → ids ≠ []) :
    Indexing p p'.rebuildIndexes 1 := by
  obtain ⟨n, hn, hadv⟩ := Advance.rebuild p'
  have htot := (Advance.of_eq hpool hgen hdir).trans hadv
  rw [Nat.zero_add] at htot
  exact ⟨.of_rebuild hnem, n, hn, htot⟩

end Indexing

theorem exists_of_bind_eq_ok {ε α β : Type} {x : Except ε α} {f : α → Except ε β} {b : β}
    (h : x >>= f = .ok b) :
    ∃ a, x = .ok a ∧ f a = .ok b := by
  cases x with
  | error err => cases h
  | ok a => exact ⟨a, rfl, h⟩

theorem indexing_quiesce (h : Indexed p) (hs : p.catalogQuiesce owner id = .ok p') :
    Indexing p p' 1 := by
  obtain ⟨_, -, hs⟩ := exists_of_bind_eq_ok hs
  cases hs
  exact .rebuild rfl rfl rfl h.nonempty

theorem indexing_reactivate (h : Indexed p) (hs : p.catalogReactivate owner id = .ok p') :
    Indexing p p' 1 := by
  obtain ⟨_, -, hs⟩ := exists_of_bind_eq_ok hs
  cases hs
  exact .rebuild rfl rfl rfl h.nonempty

theorem reactivateAll_frame (p : SegmentPool A) (owned : List (EntryRef × SegmentEntry A)) :
    let p' := owned.foldl (fun p owned => p.modifyEntry owned.1 (·.reactivate)) p
    p'.directGeneration = p.directGeneration ∧ p'.direct = p.direct ∧
        p'.segmentsByOwner = p.segmentsByOwner := by
  induction owned generalizing p with
  | nil => exact ⟨rfl, rfl, rfl⟩
  | cons first rest ih => exact ih (p.modifyEntry first.1 (·.reactivate))

theorem indexing_reactivateMany {ids : List SegmentId} (h : Indexed p)
    (hs : p.catalogReactivateMany owner ids = .ok p') : Indexing p p' 1 := by
  obtain ⟨owned, -, hs⟩ := exists_of_bind_eq_ok hs
  cases hs
  obtain ⟨hgen, hdir, hindex⟩ := reactivateAll_frame p owned
  exact .rebuild (SegmentPool.Keeps.reactivateAll p owned).poolId hgen hdir
    (by rw [hindex]; exact h.nonempty)

theorem removeOwnerSegment_indexes (p : SegmentPool A) (owner : ClientId) (id : SegmentId) :
    (p.removeOwnerSegment owner id).directGeneration = p.directGeneration ∧
      (p.removeOwnerSegment owner id).direct = p.direct := by
  simp only [removeOwnerSegment]
  cases p.segmentsByOwner.lookup owner with
  | none => exact ⟨rfl, rfl⟩
  | some ids =>
    dsimp only
    split <;> exact ⟨rfl, rfl⟩

/-- An owner without segments leaves the index. -/
theorem removeOwnerSegment_nonempty (owner : ClientId) (id : SegmentId)
    (h : ∀ owner ids, p.segmentsByOwner.lookup owner = some ids → ids ≠ []) :
    ∀ owner' ids, (p.removeOwnerSegment owner id).segmentsByOwner.lookup owner' = some ids →
    ids ≠ [] := by
  intro owner' ids hids
  simp only [removeOwnerSegment] at hids
  cases howd : p.segmentsByOwner.lookup owner with
  | none =>
    rw [howd] at hids
    exact h owner' ids hids
  | some old =>
    rw [howd] at hids
    dsimp only at hids
    by_cases hsame : owner' = owner
    · subst hsame
      split at hids
      · rw [lookup_erase] at hids
        cases hids
      next hleft =>
      rw [lookup_insert, Option.some.injEq] at hids
      rwa [← hids]
    · split at hids
      · rw [lookup_erase_ne hsame] at hids
        exact h owner' ids hids
      · rw [lookup_insert_ne hsame] at hids
        exact h owner' ids hids

theorem indexing_remove (h : Indexed p) (hs : p.catalogRemove owner id = .ok p') :
    Indexing p p' 1 := by
  obtain ⟨owned, -, hs⟩ := exists_of_bind_eq_ok hs
  obtain ⟨e, -, hs⟩ := exists_of_bind_eq_ok hs
  cases hs
  obtain ⟨hgen, hdir⟩ := removeOwnerSegment_indexes
    { p.modifyEntry owned.1 (fun _ => e) with segments := p.segments.erase id } owner id
  exact .rebuild ((SegmentPool.Keeps.refl _).removeOwnerSegment owner id).poolId hgen hdir
    (removeOwnerSegment_nonempty owner id h.nonempty)

theorem indexing_mountNew (h : Indexed p) (e : SegmentEntry A) :
    Indexing p (mountNew p e).rebuildIndexes 1 := by
  refine .rebuild rfl rfl rfl ?_
  intro owner ids hids
  by_cases hsame : owner = e.spec.identity.owner
  · subst hsame
    rw [mountNew, lookup_insert, Option.some.injEq] at hids
    rw [← hids]
    exact List.cons_ne_nil _ _
  · rw [mountNew, lookup_insert_ne hsame] at hids
    exact h.nonempty owner ids hids

theorem indexing_attach (hp : PoolInvariant p held)
    (h : Indexed p) (hs : p.attach spec = some (result, p')) : Indexing p p' 1 := by
  rw [attach] at hs
  cases hvld : validateSpec spec with
  | error err =>
    simp only [hvld, Option.some.injEq, Prod.mk.injEq] at hs
    exact hs.2 ▸ (Indexing.refl h).mono zero_le_one
  | ok =>
    simp only [hvld] at hs
    rcases catalogAttach_cases hp (validateSpec_ok hvld) with
      ⟨err, hatt⟩ | ⟨ref, -, -, hatt⟩ | ⟨e, rfl, -, -, -, hatt⟩ <;>
      simp only [hatt, Option.bind_eq_bind, Option.bind_some, Option.some.injEq, Prod.mk.injEq] at hs
    · exact hs.2 ▸ (Indexing.refl h).mono zero_le_one
    · exact hs.2 ▸ (Indexing.refl h).bumpDirectCapacityEpoch.mono zero_le_one
    · exact hs.2 ▸ (indexing_mountNew h e).bumpDirectCapacityEpoch

theorem indexing_attachQuiesced
    (hp : PoolInvariant p held) (h : Indexed p) (hs : p.attachQuiesced spec = some (result, p')) :
    Indexing p p' 2 := by
  rcases attachQuiesced_cases hp spec with ⟨_, hatt⟩ | ⟨_, -, -, hatt⟩ | ⟨e, -, -, -, -, hatt⟩ <;>
    cases hatt.symm.trans hs
  · exact (Indexing.refl h).mono zero_le_two
  · exact (Indexing.refl h).bumpDirectCapacityEpoch.mono zero_le_two
  · have hnew := indexing_mountNew h e
    have hqui : Indexing (mountNew p e).rebuildIndexes
        ((mountNew p e).rebuildIndexes.modifyEntry p.entries.length (·.quiesce)).rebuildIndexes 1 :=
      .rebuild rfl rfl rfl hnew.indexed.nonempty
    exact (hnew.trans hqui).bumpDirectCapacityEpoch

theorem invalidateIds_indexes (h : p.invalidateIds ids = some p') :
    p'.directGeneration = p.directGeneration ∧ p'.direct = p.direct ∧
      p'.segmentsByOwner = p.segmentsByOwner := by
  induction ids generalizing p with
  | nil =>
    cases h
    exact ⟨rfl, rfl, rfl⟩
  | cons id rest ih =>
    obtain ⟨_, -, hrest⟩ := Option.bind_eq_some_iff.mp h
    have hfrm := ih hrest
    exact hfrm

/-- As long as no segment is invalidated, nothing is changed: every owner of the index has a
segment. -/
theorem invalidateEach_indexes (hnem : ∀ owner ids, p.segmentsByOwner.lookup owner = some ids →
    ids ≠ []) (h : p.invalidateEach n owners = some (m, p')) :
    n ≤ m ∧ (m = n → p' = p) ∧ p'.poolId = p.poolId ∧ p'.directGeneration = p.directGeneration ∧
      p'.direct = p.direct ∧ ∀ owner ids, p'.segmentsByOwner.lookup owner = some ids →
      ids ≠ [] := by
  induction owners generalizing p n with
  | nil =>
    cases h
    exact ⟨le_rfl, fun _ => rfl, rfl, rfl, rfl, hnem⟩
  | cons owner rest ih =>
    rw [invalidateEach] at h
    cases hids : p.segmentsByOwner.lookup owner with
    | none =>
      rw [hids] at h
      exact ih hnem h
    | some ids =>
      rw [hids] at h
      obtain ⟨p₁, hinvd, h⟩ := Option.bind_eq_some_iff.mp h
      obtain ⟨hgen, hdir, hindex⟩ := invalidateIds_indexes hinvd
      have hpool := (SegmentPool.Keeps.invalidateIds hinvd).poolId
      have hnem₁ : ∀ owner' ids', p₁.segmentsByOwner.lookup owner' = some ids' → ids' ≠ [] := by
        intro owner' ids' hids'
        rw [hindex] at hids'
        by_cases hsame : owner' = owner
        · subst hsame
          rw [lookup_erase] at hids'
          cases hids'
        · rw [lookup_erase_ne hsame] at hids'
          exact hnem owner' ids' hids'
      have hpositive := List.length_pos_of_ne_nil (hnem owner ids hids)
      obtain ⟨_, -, hpool', hgen', hdir', hnem'⟩ := ih hnem₁ h
      exact ⟨by omega, fun heq => absurd heq (by omega), hpool'.trans hpool, hgen'.trans hgen,
        hdir'.trans hdir, hnem'⟩

theorem indexing_invalidateOwners (h : Indexed p)
    (hs : p.invalidateOwners owners = some (n, p')) : Indexing p p' 1 := by
  obtain ⟨⟨_, _⟩, heach, hs⟩ := Option.bind_eq_some_iff.mp hs
  obtain ⟨-, hsame, hpool, hgen, hdir, hnem⟩ := invalidateEach_indexes h.nonempty heach
  dsimp only at hs
  split at hs
  next hzero =>
    cases hs
    rw [hsame hzero]
    exact (Indexing.refl h).mono zero_le_one
  next =>
  cases hs
  exact (Indexing.rebuild hpool hgen hdir hnem).bumpDirectCapacityEpoch.bumpInvalidationEpoch

/-! ### Reservations -/

theorem indexing_modifyEntry (h : Indexed p)
    (hfrm : ∀ e, p.entries[ref]? = some e → (f e).spec = e.spec ∧ (f e).state = e.state) :
    Indexing p (p.modifyEntry ref f) 0 := by
  refine .of_frame h (candidates_congr rfl ?_ ?_) rfl rfl rfl rfl
  · intro ref'
    rw [acceptingAt, getElem?_modifyEntry]
    split
    next hsame =>
      subst hsame
      cases he : p.entries[ref]? with
      | none => simp [acceptingAt, he]
      | some e => simp [acceptingAt, he, SegmentEntry.isAccepting, (hfrm e he).2]
    next => rfl
  · intro ref'
    rw [idAt, getElem?_modifyEntry]
    split
    next hsame =>
      subst hsame
      cases he : p.entries[ref]? with
      | none => simp [idAt, he]
      | some e => simp [idAt, he, (hfrm e he).1]
    next => rfl

theorem reserve_frame {e e' : SegmentEntry A}
    (h : e.reserve ref bytes = some (result, e')) : e'.spec = e.spec ∧ e'.state = e.state := by
  simp only [SegmentEntry.reserve] at h
  split at h
  · cases h
    exact ⟨rfl, rfl⟩
  split at h
  · cases h
    exact ⟨rfl, rfl⟩
  split at h
  · cases h
    exact ⟨rfl, rfl⟩
  split at h
  · cases h
    exact ⟨rfl, rfl⟩
  split at h
  · obtain ⟨_, -, h⟩ := Option.bind_eq_some_iff.mp h
    cases h
    exact ⟨rfl, rfl⟩
  · cases h
    exact ⟨rfl, rfl⟩

theorem indexing_reserve {candidate : SegmentHandle} {bytes : ℕ}
    {result : Except ReserveError (Reservation A)} (h : Indexed p)
    (hs : p.reserve candidate bytes = some (result, p')) : Indexing p p' 0 := by
  rw [reserve] at hs
  split at hs
  · cases hs
    exact .refl h
  · obtain ⟨_, he, hs⟩ := Option.bind_eq_some_iff.mp hs
    obtain ⟨⟨_, _⟩, hreserve, hs⟩ := Option.bind_eq_some_iff.mp hs
    cases hs
    refine indexing_modifyEntry h fun k hk => ?_
    cases he.symm.trans hk
    exact reserve_frame hreserve

theorem indexing_dropReservation (h : Indexed p) (hs : p.dropReservation r = some p') :
    Indexing p p' 0 := by
  obtain ⟨_, he, hs⟩ := Option.bind_eq_some_iff.mp hs
  obtain ⟨_, hdrop, hs⟩ := Option.bind_eq_some_iff.mp hs
  cases hs
  obtain ⟨_, -, hdrop⟩ := Option.bind_eq_some_iff.mp hdrop
  cases hdrop
  refine indexing_modifyEntry h fun k hk => ?_
  cases he.symm.trans hk
  exact ⟨rfl, rfl⟩

end Cakemaster.Segment
