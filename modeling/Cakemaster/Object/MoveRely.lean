import Cakemaster.Object.Ownership

/-!
# Moves keep what others rely on
-/

namespace Cakemaster.Object

open Segment Function Rely View List

variable {A : UnitAllocator} {x x' : Ghost A} {u u' : View A}
variable {v : VersionRef} {s : SlotRef} {y : VersionView A} {f : SlotView → SlotView}
  {standing : Standing}

/-! ### One version -/

namespace VersionRely

theorem refl (x : Ghost A) (u : View A) (v : VersionRef) (y : VersionView A) :
    VersionRely x u v y y where
  sealed h := ⟨h, le_rfl, rfl⟩
  pins _ := ⟨rfl, le_rfl⟩
  born h := ⟨h, rfl, rfl⟩
  old h := h
  settled _ := rfl
  gone h := h
  onSlot _ h := .inl h
  safe _ h := h
  replicas _ := List.Subset.refl _
  fresh h _ := ⟨h, rfl, rfl⟩
  check _ _ := rfl
  detached h _ := h
  withdrawn _ h _ := h
  examined _ _ _ := rfl

theorem update (h : VersionRely x u v (u.versions v) y')
    (v' : VersionRef) : VersionRely x u v' (u.versions v') (update u.versions v y' v') := by
  by_cases hv : v' = v
  · subst hv
    rwa [update_self]
  · rw [update_of_ne hv]
    exact .refl ..

/-- A version moves on in its life, in the hands of the call that may move it. -/
theorem setStanding (hy : y.standing = standing) (hnew : standing'.isNew = false)
    (hstld : standing.isSettled = false) (hgone : standing.isGone = true → standing'.isGone = true)
    (hat : ∀ s, standing.isAt s = true → standing'.isAt s = true ∨ standing'.isGone = true)
    (hmade : standing = .fresh → x.making.made = some v)
    (hdet : standing = .detached → x.focus.detached = some v)
    (hlock : ∀ s, standing = .withdrawn s → x.focus.lock = some s)
    (hsafe : standing.isYoung = false → standing'.isYoung = false ∧
      ∀ reclaimAfter, standing' = .left reclaimAfter → y.lease ≤ reclaimAfter) :
    VersionRely x u v y { y with standing := standing' } where
  sealed h := ⟨h, le_rfl, rfl⟩
  pins _ := ⟨rfl, le_rfl⟩
  born _ := by
    refine ⟨?_, rfl, rfl⟩
    rintro rfl
    cases hnew
  old _ := hnew
  settled h := by
    rw [hy, hstld] at h
    cases h
  gone h := hgone (hy ▸ h)
  onSlot s h := hat s (hy ▸ h)
  safe deadline h := by
    obtain ⟨hyoung, hleft⟩ := hsafe (hy ▸ h.standing)
    exact ⟨h.sealed, h.lease, hyoung, fun r hr => h.lease.trans (hleft r hr)⟩
  replicas _ := List.Subset.refl _
  fresh h hne := absurd (hmade (hy ▸ h)) hne
  check _ _ := rfl
  detached h hne := absurd (hdet (hy ▸ h)) hne
  withdrawn s h hne := absurd (hlock s (hy ▸ h)) hne
  examined _ _ _ := rfl

theorem make (hstd : y.standing = .unborn)
    (hseal : y.sealed = false) (hcomm : ∀ s, u.committed s ≠ some v) :
    VersionRely x u v y y' where
  sealed h := by simp [hseal] at h
  pins h := by simp [hseal] at h
  born h := absurd hstd h
  old h := by simp [hstd, Standing.isNew] at h
  settled h := by simp [hstd, Standing.isSettled] at h
  gone h := by simp [hstd, Standing.isGone] at h
  onSlot s h := by simp [hstd, Standing.isAt] at h
  safe _ h := by
    have hs := h.sealed
    simp [hseal] at hs
  replicas h := absurd hstd h
  fresh h _ := by simp [hstd] at h
  check h := absurd hstd h
  detached h _ := by simp [hstd] at h
  withdrawn _ h _ := by simp [hstd] at h
  examined s h _ := absurd h (hcomm s)

theorem record {number : VersionId} {commit : Option ObjectCommit} {hardPinned : Bool}
    {softPin : CatalogTick} (hseal : y.sealed = false) (hstd : y.standing = .staged s) :
    VersionRely x u v y
    { y with sealed := true, number, commit, hardPinned, softPin, lease := 0, recent := false } :=
  { VersionRely.refl x u v y with
    sealed := fun h => by simp [hseal] at h
    pins := fun h => by simp [hseal] at h
    safe := fun _ h => by
      have hs := h.sealed
      simp [hseal] at hs
    fresh := fun h => by simp [hstd] at h }

theorem raise (hle : y.lease ≤ lease) : VersionRely x u v y { y with lease } :=
  { VersionRely.refl x u v y with
    sealed := fun h => ⟨h, hle, rfl⟩
    safe := fun _ h => ⟨h.sealed, h.lease.trans hle, h.standing, h.left⟩ }

theorem unpin : VersionRely x u v y { y with softPin := 0 } :=
  { VersionRely.refl x u v y with
    pins := fun _ => ⟨rfl, Nat.zero_le _⟩
    safe := fun _ h => ⟨h.sealed, h.lease, h.standing, h.left⟩ }

theorem setRecent (recent : Bool) : VersionRely x u v y { y with recent } :=
  { VersionRely.refl x u v y with safe := fun _ h => ⟨h.sealed, h.lease, h.standing, h.left⟩ }

theorem setCheck (check : AdmissionCheck) (hmade : x.making.made = some v) :
    VersionRely x u v y { y with check } :=
  { VersionRely.refl x u v y with
    safe := fun _ h => ⟨h.sealed, h.lease, h.standing, h.left⟩
    check := fun _ hne => absurd hmade hne }

theorem prune {replicas : ReplicaSet A} (hsub : replicas ⊆ y.replicas)
    (hlock : ∀ s, u.committed s = some v → x.focus.lock = some s) :
    VersionRely x u v y { y with replicas } :=
  { VersionRely.refl x u v y with
    safe := fun _ h => ⟨h.sealed, h.lease, h.standing, h.left⟩
    replicas := fun _ => hsub
    examined := fun s hs hne => absurd (hlock s hs) hne }

theorem clear (hfrs : y.standing = .fresh → x.making.made = some v)
    (hcomm : ∀ s, u.committed s ≠ some v) :
    VersionRely x u v y { y with replicas := [], reclaimed := true } :=
  { VersionRely.refl x u v y with
    safe := fun _ h => ⟨h.sealed, h.lease, h.standing, h.left⟩
    replicas := fun _ => nil_subset _
    fresh := fun h hne => absurd (hfrs h) hne
    examined := fun s hs _ => absurd hs (hcomm s) }

end VersionRely

/-! ### Slots and versions -/

theorem SlotKept.refl (y : SlotView) : SlotKept y y := ⟨rfl, rfl, rfl, rfl, id⟩

namespace Rely

theorem refl (x : Ghost A) (u : View A) : Rely x u u where
  slotCount := le_rfl
  identity _ _ := rfl
  versions _ := .refl ..
  slots _ _ _ := .refl _
  indexed _ _ _ := rfl
  staged _ _ _ h _ := .inl h
  readers _ h _ := h
  pending _ := prefix_refl _
  resolved := ⟨[], (append_nil _).symm, fun _ h => absurd h not_mem_nil⟩
  stepGate _ h := h
  stageWriter _ h := h
  sessions _ h := h
  live _ h := h

/-- One slot, under its lock, and versions. -/
theorem update {y : SlotView} (versions : VersionRef → VersionView A)
    (hlock : x.focus.lock = some s) (hiden : y.identity = (u.slots s).identity)
    (hactv : ∀ a v, y.active = some a → a.phase = .staged v → u.active s = some a ∨ u.standing v = .fresh)
    (hvers : ∀ v, VersionRely x u v (u.versions v) (versions v)) :
    Rely x u { u with slots := update u.slots s y, versions } := by
  have hne : ∀ s', x.focus.lock ≠ some s' → s' ≠ s := by
    rintro s' hs' rfl
    exact hs' hlock
  refine { refl x u with
    versions := hvers
    identity := fun s' _ => ?_, slots := fun s' _ hs' => ?_, indexed := fun s' _ hs' => ?_
    staged := fun s' a v ha hph => ?_ }
  · by_cases hs : s' = s
    · subst hs
      simp [hiden]
    · simp [hs]
  · simpa [hne s' hs'] using SlotKept.refl _
  · simp [View.indexed, hne s' hs']
  · by_cases hs : s' = s
    · subst hs
      exact hactv a v (by simpa [active] using ha) hph
    · exact .inl (by simpa [active, hs] using ha)

theorem setSlot (hlock : x.focus.lock = some s)
    (hiden : (f (u.slots s)).identity = (u.slots s).identity)
    (hactv : ∀ a v, (f (u.slots s)).active = some a → a.phase = .staged v →
      u.active s = some a ∨ u.standing v = .fresh) : Rely x u (u.setSlot s f) :=
  update u.versions hlock hiden hactv fun _ => .refl ..

theorem touchSlot (hiden : (f (u.slots s)).identity = (u.slots s).identity)
    (h : SlotKept (u.slots s) (f (u.slots s))) : Rely x u (u.setSlot s f) := by
  refine { refl x u with
    identity := fun s' _ => ?_, slots := fun s' _ _ => ?_, indexed := fun s' _ _ => ?_
    staged := fun s' a v ha _ => .inl ?_ }
  all_goals by_cases hs : s' = s
  · subst hs
    simp [View.setSlot, hiden]
  · simp [View.setSlot, hs]
  · subst hs
    simpa [View.setSlot] using h
  · simpa [View.setSlot, hs] using SlotKept.refl _
  · subst hs
    simp [View.setSlot, View.indexed, hiden]
  · simp [View.setSlot, View.indexed, hs]
  · subst hs
    simpa [View.setSlot, View.active, h.active] using ha
  · simpa [View.setSlot, View.active, hs] using ha

theorem setVersion {f : VersionView A → VersionView A}
    (h : VersionRely x u v (u.versions v) (f (u.versions v))) : Rely x u (u.setVersion v f) :=
  { refl x u with versions := h.update }

theorem setHand (h : Rely x u u') (hand : Multiset GcCandidate) : Rely x u { u' with hand } :=
  { h with }

theorem setCounter (h : Rely x u u') (counter : Counter) :
    Rely x u { u' with counter } := { h with }

theorem setBegun (h : Rely x u u') (begun : List (SlotRef × TransactionId)) :
    Rely x u { u' with begun } := { h with }

theorem setResolved (h : Rely x u u') (hlock : x.focus.lock = some r.slot) :
    Rely x u { u' with resolved := u.resolved ++ [r] } :=
  { h with resolved := ⟨[r], rfl, fun _ hr => mem_singleton.mp hr ▸ hlock⟩ }

/-- One slot, under its lock, and the standing of a version. -/
theorem setSlot_setStanding (hlock : x.focus.lock = some s)
    (hiden : (f (u.slots s)).identity = (u.slots s).identity)
    (hactv : ∀ a v, (f (u.slots s)).active = some a → a.phase = .staged v →
      u.active s = some a ∨ u.standing v = .fresh)
    (h : VersionRely x u v (u.versions v) { u.versions v with standing }) :
    Rely x u ((u.setSlot s f).setStanding v standing) := update _ hlock hiden hactv h.update

theorem setStanding (h : VersionRely x u v (u.versions v) { u.versions v with standing }) :
    Rely x u (u.setStanding v standing) := setVersion h

end Rely

namespace View.Wellformed

variable (hu : u.Wellformed) (hv : u.standing v = standing)
include hu hv

theorem committed_ne (hne : ∀ s, standing ≠ .published s) (s : SlotRef) :
    u.committed s ≠ some v := fun hs => hne s (hv.symm.trans (hu.committed hs))

theorem staged_ne (hne : ∀ s, standing ≠ .staged s) (s : SlotRef)
    (a : ActiveTransaction) (ha : u.active s = some a) : a.phase ≠ .staged v :=
  fun hph => hne s (hv.symm.trans (hu.staged ha hph).1)

end View.Wellformed

theorem View.Settled.isSettled (h : u.Settled v reclaimAfter) :
    (u.standing v).isSettled = true := by
  rcases h with h | h | h <;> rw [h] <;> rfl

theorem View.Settled.ne (h : u.Settled v reclaimAfter) (hne : standing.isSettled = false) :
    u.standing v ≠ standing := by
  rintro rfl
  rw [h.isSettled] at hne
  cases hne

/-- What one call does leaves the others what they know. -/
theorem Move.rely (hu : u.Wellformed) (hx : x.Sound u) (h : Move u x u' x') : Rely x u u' := by
  have hkn := hx.focus
  have hmak := hx.making
  cases h with
  | seeDead | observe | see | sample | confirm | retry | keep | free | base | meet | vacant | point
  | hollow | idle | examine | condemn | learn | settle | dropEmpty | resolve | agree | disagree | miss
  | expect | popNone | finishDrain | fence | spare | seeUnpinned | seeSoft => exact .refl x u
  | enqueueEmpty | popEmpty | pushEmpty | pop | push | drop | retire | popRetired =>
    exact { refl x u with }
  | enqueue | requeue =>
    exact { refl x u with pending := fun _ => prefix_append _ _ }
  | popSpare hgate => exact { refl x u with pending := fun hfree => by simp [hgate] at hfree }
  | popDrained hwrt =>
    exact { refl x u with pending := fun hfree => by simp [(hx.writing hwrt).1] at hfree }
  | frame hlive hsss =>
    exact { refl x u with
      live := fun r hr => by simpa using mt (hlive r) (by simp [hr])
      sessions := fun r hr => by simpa using mt (hsss r) (by simp [hr]) }
  | release hlive =>
    exact { refl x u with live := fun r hr => by simpa using mt (hlive r) (by simp [hr]) }
  | gate hgate => exact { refl x u with stepGate := fun _ _ => rfl }
  | ungate hgate => exact { refl x u with stepGate := fun hfree => by simp [hgate] at hfree }
  | closeGate => exact { refl x u with stageWriter := fun _ _ => rfl }
  | openGate hwrt =>
    exact { refl x u with stageWriter := fun hfree => by simp [hwrt] at hfree }
  | enterGate => exact { refl x u with readers := fun _ hv _ => Multiset.mem_cons_of_mem hv }
  | leaveGate hm | backOut hm =>
    refine { refl x u with readers := fun v' hv hne => ?_ }
    refine (Multiset.mem_erase_of_ne fun hv' => hne ?_).mpr hv
    rw [hm, hv']
    rfl
  | lock => exact touchSlot rfl ⟨rfl, rfl, rfl, rfl, fun _ => rfl⟩
  | count | uncount => exact (touchSlot rfl ⟨rfl, rfl, rfl, rfl, id⟩).setCounter _
  | unlock hlock => exact setSlot hlock rfl fun a v ha _ => .inl ha
  | number hf => exact setSlot (hf ▸ rfl) rfl fun a v ha _ => .inl ha
  | @insert identity owner pins _ hnone =>
    refine { refl x u with
      slotCount := Nat.le_succ _
      identity := fun s hs => ?_, slots := fun s hs _ => ?_, indexed := fun s hs _ => ?_
      staged := fun s a v ha hv => ?_ }
    · simp [hs.ne]
    · simpa [hs.ne] using SlotKept.refl _
    · by_cases hi : (u.slots s).identity = identity
      · simp [View.indexed, hs.ne, hi, hnone, hs.ne']
      · simp [View.indexed, hs.ne, hi]
    · by_cases hs : s = u.slotCount
      · have ha : (⟨1, owner, none, pins, .claimed⟩ : ActiveTransaction) = a := by
          simpa [active, hs] using ha
        rw [← ha] at hv
        cases hv
      · exact .inl (by simpa [active, hs] using ha)
  | claim _ _ hf =>
    refine (setSlot (hf ▸ rfl) rfl fun a' v ha hv => ?_).setBegun _
    rw [← Option.some.inj ha] at hv
    cases hv
  | unclaim hf => exact setSlot (hf ▸ rfl) rfl fun a' v ha _ => by simp at ha
  | @unindex s identity _ hf hlook =>
    refine { refl x u with indexed := fun s' _ hne => ?_ }
    have hs : s ≠ s' := fun hs => hne (by rw [← hs, hf]; rfl)
    by_cases hi : (u.slots s').identity = identity
    · simp [View.indexed, hi, hlook, hs]
    · simp [View.indexed, hi]
  | make y =>
    obtain ⟨hstd, hseal⟩ := hu.unborn le_rfl
    refine { refl x u with versions := (VersionRely.make hstd hseal ?_).update }
    exact hu.committed_ne hstd nofun
  | @stage v o s a hm hf hownr =>
    rw [hm] at hmak
    refine setSlot_setStanding (hf ▸ rfl) rfl (fun a' v' ha hv => .inr ?_) ?_
    · cases ha
      cases hv
      exact hmak.1.1
    · exact .setStanding hmak.1.1 rfl rfl nofun nofun (fun _ => by rw [hm]; rfl) nofun nofun nofun
  | pass hm | refuse hm => exact setVersion (.setCheck _ (by rw [hm]; rfl))
  | discard hm =>
    rw [hm] at hmak
    refine setVersion (.clear (fun _ => by rw [hm]; rfl) ?_)
    exact hu.committed_ne hmak.1 nofun
  | raise hf hle =>
    refine setVersion ?_
    split
    · exact .raise hle
    · exact .refl ..
  | unpin => exact setVersion .unpin
  | mark | unmark => exact setVersion (.setRecent _)
  | @record s a v _ _ _ _ hkind hf hseal =>
    rw [hf] at hkn
    exact setVersion (.record hseal (hu.staged hkn.1.1 hkn.1.2.1).1)
  | sampleReplaced hf =>
    rw [hf] at hkn
    refine setVersion (.setStanding hkn rfl rfl (fun _ => rfl) nofun nofun
      (fun _ => by rw [hf]; rfl) nofun ?_)
    intro _
    refine ⟨rfl, ?_⟩
    rintro _ ⟨⟩
    exact le_rfl
  | @prune s v replicas live hf hsub =>
    rw [hf] at hkn
    refine setVersion (.prune (hkn.2 ▸ hsub.subset) fun s' hs' => ?_)
    have hsame := (hu.committed hs').symm.trans (hu.committed hkn.1)
    cases hsame
    rw [hf]
    rfl
  | take hf =>
    rw [hf] at hkn
    refine setVersion (.clear (fun hfrs => absurd hfrs (View.Settled.ne hkn rfl)) ?_)
    exact hu.committed_ne rfl fun s => View.Settled.ne hkn rfl
  | @abandon s a v now hf hph =>
    rw [hf] at hkn
    refine (setSlot_setStanding (hf ▸ rfl) rfl (fun a' v' ha _ => by simp at ha) ?_).setResolved (hf ▸ rfl)
    exact .setStanding (hu.staged hkn hph).1 rfl rfl nofun nofun nofun nofun nofun nofun
  | @publish s a v _ hf =>
    rw [hf] at hkn
    obtain ⟨⟨hactv, hph, hbase⟩, -⟩ := hkn
    have hlock : x.focus.lock = some s := hf ▸ rfl
    have hv : VersionRely x u v (u.versions v) { u.versions v with standing := .published s } :=
      .setStanding (hu.staged hactv hph).1 rfl rfl nofun nofun nofun nofun nofun nofun
    generalize a.base = base at hbase
    suffices hrest : Rely x u (((u.setSlot s fun y => { y with committed := some v, active := none }).detach
        base).setStanding v (.published s)) from
      (hrest.setHand (⟨s, v⟩ ::ₘ u.hand)).setResolved (r := ⟨s, u.activeId s, v, _⟩) hlock
    cases base with
    | none =>
      exact setSlot_setStanding (f := fun y => { y with committed := some v, active := none }) hlock
        rfl (fun a' v' ha _ => by simp at ha) hv
    | some old =>
      have hold := hu.committed hbase
      have hne : v ≠ old := by
        rintro rfl
        rw [(hu.staged hactv hph).1] at hold
        cases hold
      refine update (update (update u.versions old _) v _) hlock rfl
        (fun a' v' ha _ => by simp at ha) fun v' => ?_
      by_cases hv' : v' = v
      · subst hv'
        simp only [View.setSlot, View.detach, View.setStanding, View.setVersion, update_self, update_of_ne hne]
        exact hv
      · simp only [update_of_ne hv']
        refine VersionRely.update ?_ v'
        exact .setStanding hold rfl rfl nofun (fun _ _ => .inr rfl) nofun nofun nofun fun _ => ⟨rfl, nofun⟩
  | @withdraw s v hf =>
    rw [hf] at hkn
    refine setSlot_setStanding (hf ▸ rfl) rfl (fun a' v' ha _ => .inl ha) ?_
    exact .setStanding (hu.committed hkn.2) rfl rfl nofun (fun _ hs => .inl hs) nofun nofun nofun
      fun _ => ⟨rfl, nofun⟩
  | @expel s v _ hf =>
    rw [hf] at hkn
    refine setSlot_setStanding (hf ▸ rfl) rfl (fun a' v' ha _ => .inl ha) ?_
    exact .setStanding (hu.committed hkn.2) rfl rfl nofun (fun _ _ => .inr rfl) nofun nofun nofun
      fun _ => ⟨rfl, nofun⟩
  | @restore s v hf =>
    rw [hf] at hkn
    refine setSlot_setStanding (hf ▸ rfl) rfl (fun a' v' ha _ => .inl ha) ?_
    refine .setStanding hkn rfl rfl nofun (fun _ hs => .inl hs) nofun nofun ?_ fun _ => ⟨rfl, nofun⟩
    rintro _ ⟨⟩
    rw [hf]
    rfl
  | @depart s v now hf hle | @departEvicted s v now hf hle =>
    rw [hf] at hkn
    refine { setStanding (v := v)
      (.setStanding hkn rfl rfl nofun (fun _ _ => .inr rfl) nofun nofun ?_ ?_) with }
    · rintro _ ⟨⟩
      rw [hf]
      rfl
    · intro _
      refine ⟨rfl, ?_⟩
      rintro _ ⟨⟩
      exact hle
  | @lose s v replicas now hf =>
    rw [hf] at hkn
    refine (setSlot_setStanding (hf ▸ rfl) rfl (fun a' v' ha _ => .inl ha) ?_).setHand _
    exact .setStanding (hu.committed hkn.2.1) rfl rfl nofun (fun _ _ => .inr rfl) nofun nofun nofun
      fun _ => ⟨rfl, nofun⟩

end Cakemaster.Object
