import Cakemaster.Object.MoveRely

/-!
# What a move changes

One inversion for each component of the view: where versions stand, what slots have
committed and which transaction they have, the queues. Invariants are proved from these,
not from the moves.
-/

namespace Cakemaster.Object

open Segment Function

variable {A : UnitAllocator} {x x' : Ghost A} {u u' : View A}

/-- The moves by which version `v` comes to stand elsewhere. -/
inductive Turn (u : View A) (x x' : Ghost A) (v : VersionRef) : Standing → Prop
  | make (hnew : v = u.versionCount) : Turn u x x' v .fresh
  | stage (hm : x.making = .gated a.id v o) (hf : x.focus = .busy s a) : Turn u x x' v (.staged s)
  | abandon (now : CatalogTick) (hf : x.focus = .busy s a) (hph : a.phase = .staged v) :
      Turn u x x' v (.left now)
  | publish (hkind : x.kind = .committing s a.id)
      (hf : x.focus = .sealed s a v) (hhand : x'.hand = some ⟨s, v⟩) : Turn u x x' v (.published s)
  | replace (hkind : x.kind = .committing s a.id)
      (hf : x.focus = .sealed s a w) (hbase : a.base = some v) : Turn u x x' v .detached
  | sample (hf : x.focus = .replaced v) : Turn u x x' v (.left (u.versions v).lease)
  | withdraw (hf : x.focus = .idle s v) (hf' : x'.focus = .taken s v) :
      Turn u x x' v (.withdrawn s)
  | restore (hf : x.focus = .taken s v) : Turn u x x' v (.published s)
  | depart (hf : x.focus = .taken s v)
      (hle : (u.versions v).lease ≤ now) (hkind : ∀ now, x.kind ≠ .collecting now) :
      Turn u x x' v (.left now)
  | evict (hf : x.focus = .taken s v) (hle : (u.versions v).lease ≤ now)
      (hhand : x.hand = some ⟨s, v⟩) (hkind : x.kind = .collecting now)
      (hunp : x.notes.unpinned = some v) (hunr : x.notes.unread = some v)
      (hclr : x.notes.cleared = false) (hsoft : x.notes.soft = some v ∨ x.lenient = true) :
      Turn u x x' v (.left now)
  | expel (hf : x.focus = .idle s v) (hkind : x.kind = .removing true) : Turn u x x' v .forced
  | lose (hf : x.focus = .condemned s v replicas)
      (hhand : x.hand = some ⟨s, v⟩) (hdead : ∀ replica ∈ replicas, replica.reservation ∈ x.dead) :
      Turn u x x' v .lost

/-- The moves by which the committed version of slot `s` changes. -/
inductive Commits (u : View A) (x : Ghost A) (u' : View A) (x' : Ghost A) (s : SlotRef) :
    Option VersionRef → Prop
  | insert (hnew : s = u.slotCount) : Commits u x u' x' s none
  | publish (hkind : x.kind = .committing s a.id)
      (hf : x.focus = .sealed s a v) (hactv : u'.active s = none) : Commits u x u' x' s (some v)
  | withdraw (hf : x.focus = .idle s v) (hf' : x'.focus = .taken s v) :
      Commits u x u' x' s none
  | restore (hf : x.focus = .taken s v) : Commits u x u' x' s (some v)
  | expel (hf : x.focus = .idle s v) : Commits u x u' x' s none
  | lose (hf : x.focus = .condemned s v replicas) (hhand : x.hand = some ⟨s, v⟩) :
      Commits u x u' x' s none

/-- The moves by which the transaction of slot `s` changes. -/
inductive Transacts (u : View A) (x : Ghost A) (u' : View A) (x' : Ghost A) (s : SlotRef) :
    Option ActiveTransaction → Prop
  | insert (hnew : s = u.slotCount) (hbgn : u'.begun = u.begun ++ [(s, 1)]) :
      Transacts u x u' x' s (some ⟨1, owner, none, pins, .claimed⟩)
  | claim (hf : x.focus = .based s next base)
      (hbgn : u'.begun = u.begun ++ [(s, (u.slots s).nextTransactionId)]) :
      Transacts u x u' x' s (some ⟨(u.slots s).nextTransactionId, owner, base, pins, .claimed⟩)
  | unclaim (hf : x.focus = .busy s a) (hph : a.phase = .claimed)
      (howes : x'.owes = s :: x.owes) : Transacts u x u' x' s none
  | stage (hm : x.making = .gated a.id v o)
      (hf : x.focus = .busy s a) (hph : a.phase = .claimed) (hm' : x'.making = .unqueued s a.id v o)
      (hownr : a.owner = o) : Transacts u x u' x' s (some { a with phase := .staged v })
  | abandon (hf : x.focus = .busy s a) (hph : a.phase = .staged v) (howes : x'.owes = s :: x.owes)
      (hrsv : u'.resolved = u.resolved ++ [⟨s, u.activeId s, v, none⟩])
      (hcomm : u'.committed s = u.committed s) : Transacts u x u' x' s none
  | publish (hkind : x.kind = .committing s a.id) (hf : x.focus = .sealed s a v)
      (hrsv : u'.resolved = u.resolved ++ [⟨s, u.activeId s, v, some (u.versions v).number⟩])
      (hcomm : u'.committed s = some v) : Transacts u x u' x' s none

namespace View

theorem standing_setStanding_self (u : View A) (v : VersionRef) (standing : Standing) :
    (u.setStanding v standing).standing v = standing := by
  simp [View.standing, View.setStanding, View.setVersion]

theorem standing_setStanding_of_ne (u : View A) (h : v ≠ w) (standing : Standing) :
    (u.setStanding w standing).standing v = u.standing v := by
  simp [View.standing, View.setStanding, View.setVersion, h]

theorem standing_setVersion (u : View A) (h : (f (u.versions w)).standing = u.standing w)
    (v : VersionRef) :
    (u.setVersion w f).standing v = u.standing v := by
  by_cases hv : v = w
  · subst hv
    simpa [View.standing, View.setVersion] using h
  · simp [View.standing, View.setVersion, hv]

theorem standing_detach (u : View A) (base : Option VersionRef) (v : VersionRef) :
    (u.detach base).standing v = u.standing v ∨ base = some v ∧
      (u.detach base).standing v = .detached := by
  cases base with
  | none => exact .inl rfl
  | some old =>
    by_cases hv : v = old
    · subst hv
      exact .inr ⟨rfl, u.standing_setStanding_self v .detached⟩
    · exact .inl (u.standing_setStanding_of_ne hv .detached)

theorem committed_of_update (hslots : u'.slots = update u.slots s y)
    (s' : SlotRef) : u'.committed s' = u.committed s' ∨ s' = s ∧ u'.committed s' = y.committed := by
  by_cases hs : s' = s
  · subst hs
    simp [View.committed, hslots]
  · simp [View.committed, hslots, hs]

theorem active_of_update (hslots : u'.slots = update u.slots s y)
    (s' : SlotRef) : u'.active s' = u.active s' ∨ s' = s ∧ u'.active s' = y.active := by
  by_cases hs : s' = s
  · subst hs
    simp [View.active, hslots]
  · simp [View.active, hslots, hs]

theorem version_of_update (hvers : u'.versions = update u.versions w y) (v : VersionRef) :
    u'.versions v = u.versions v ∨ v = w ∧ u'.versions v = y := by
  by_cases hv : v = w
  · subst hv
    simp [hvers]
  · simp [hvers, hv]

/-- The versions that a commit puts on their slot and takes off it change in nothing else. -/
theorem version_publish (u : View A) (base : Option VersionRef) (w : VersionRef)
    (standing : Standing) (v : VersionRef) :
    ∃ after, ((u.detach base).setStanding w standing).versions v = { u.versions v with standing := after } := by
  have hbase : ∃ after, (u.detach base).versions v = { u.versions v with standing := after } := by
    cases base with
    | none => exact ⟨(u.versions v).standing, rfl⟩
    | some old =>
      have hvers : (u.detach (some old)).versions = update u.versions old _ := rfl
      rcases version_of_update hvers v with hsame | ⟨rfl, hnew⟩
      · exact ⟨(u.versions v).standing, hsame⟩
      · exact ⟨.detached, hnew⟩
  obtain ⟨after, haft⟩ := hbase
  have hvers : ((u.detach base).setStanding w standing).versions = update (u.detach base).versions
    w _ := rfl
  rcases version_of_update hvers v with hsame | ⟨rfl, hnew⟩
  · exact ⟨after, hsame.trans haft⟩
  · refine ⟨standing, hnew.trans ?_⟩
    rw [haft]

end View

theorem Turn.setStanding (h : Turn u x x' w standing) (v : VersionRef) :
    (u.setStanding w standing).standing v = u.standing v ∨
      Turn u x x' v ((u.setStanding w standing).standing v) := by
  by_cases hv : v = w
  · subst hv
    rw [View.standing_setStanding_self]
    exact .inr h
  · exact .inl (u.standing_setStanding_of_ne hv standing)

namespace Move

variable (h : Move u x u' x')
include h

theorem standing_cases (v : VersionRef) :
    u'.standing v = u.standing v ∨ Turn u x x' v (u'.standing v) := by
  cases h with
  | make _ _ _ _ _ _ hstd =>
    by_cases hv : v = u.versionCount
    · subst hv
      right
      simp only [View.standing, update_self, hstd]
      exact .make rfl
    · exact .inl (by simp [View.standing, hv])
  | stage hm hf => exact Turn.setStanding (u := u) (.stage hm hf) v
  | abandon now hf hph => exact Turn.setStanding (u := u) (.abandon now hf hph) v
  | @publish s a w hkind hf =>
    change ((u.detach a.base).setStanding w (.published s)).standing v = u.standing v ∨
      Turn u x _ v (((u.detach a.base).setStanding w (.published s)).standing v)
    by_cases hv : v = w
    · subst hv
      rw [View.standing_setStanding_self]
      exact .inr (.publish hkind hf rfl)
    · rw [View.standing_setStanding_of_ne _ hv]
      rcases u.standing_detach a.base v with hsame | ⟨hbase, hdet⟩
      · exact .inl hsame
      · rw [hdet]
        exact .inr (.replace hkind hf hbase)
  | sampleReplaced hf => exact Turn.setStanding (u := u) (.sample hf) v
  | withdraw hf => exact Turn.setStanding (u := u) (.withdraw hf rfl) v
  | restore hf => exact Turn.setStanding (u := u) (.restore hf) v
  | depart hf hle hkind => exact Turn.setStanding (u := u) (.depart hf hle hkind) v
  | departEvicted hf hle hhand hkind hunp hunr hclr hsoft =>
    exact Turn.setStanding (u := u) (.evict hf hle hhand hkind hunp hunr hclr hsoft) v
  | expel now hf _ hkind => exact Turn.setStanding (u := u) (.expel hf hkind) v
  | lose now hf hhand hdead => exact Turn.setStanding (u := u) (.lose hf hhand hdead) v
  | raise | mark | unmark | pass | refuse | discard | record | unpin | prune | take =>
    exact .inl (u.standing_setVersion rfl v)
  | _ => exact .inl rfl

theorem committed_cases (s : SlotRef) :
    u'.committed s = u.committed s ∨ Commits u x u' x' s (u'.committed s) := by
  -- the update of one slot, and what it is there
  have hset : ∀ {s' y}, u'.slots = update u.slots s' y →
      (y.committed = u.committed s' ∨ Commits u x u' x' s' y.committed) →
      u'.committed s = u.committed s ∨ Commits u x u' x' s (u'.committed s) := by
    intro s' y hslots hy
    rcases View.committed_of_update hslots s with hsame | ⟨rfl, hnew⟩
    · exact .inl hsame
    · rwa [hnew]
  cases h with
  | insert => exact hset rfl (.inr (.insert rfl))
  | lock | unlock | claim | unclaim | stage | abandon | number | count | uncount =>
    exact hset rfl (.inl rfl)
  | publish hkind hf =>
    refine hset rfl (.inr (.publish hkind hf ?_))
    simp [View.active, View.setStanding, View.setVersion, View.detach, View.setSlot]
  | withdraw hf => exact hset rfl (.inr (.withdraw hf rfl))
  | restore hf => exact hset rfl (.inr (.restore hf))
  | expel _ hf => exact hset rfl (.inr (.expel hf))
  | lose _ hf hhand => exact hset rfl (.inr (.lose hf hhand))
  | _ => exact .inl rfl

theorem active_cases (s : SlotRef) :
    u'.active s = u.active s ∨ Transacts u x u' x' s (u'.active s) := by
  have hset : ∀ {s' y}, u'.slots = update u.slots s' y → (y.active = u.active s' ∨ Transacts u x u'
      x' s' y.active) → u'.active s = u.active s ∨ Transacts u x u' x' s (u'.active s) := by
    intro s' y hslots hy
    rcases View.active_of_update hslots s with hsame | ⟨rfl, hnew⟩
    · exact .inl hsame
    · rwa [hnew]
  cases h with
  | insert => exact hset rfl (.inr (.insert rfl rfl))
  | claim _ _ hf => exact hset rfl (.inr (.claim hf rfl))
  | unclaim hf hph => exact hset rfl (.inr (.unclaim hf hph rfl))
  | stage hm hf hph hownr => exact hset rfl (.inr (.stage hm hf hph rfl hownr))
  | @abandon s' a v now hf hph =>
    refine hset rfl (.inr (.abandon hf hph rfl rfl ?_))
    simp [View.committed, View.setStanding, View.setVersion, View.setActive, View.setSlot]
  | @publish s' a v hkind hf =>
    refine hset rfl (.inr (.publish hkind hf rfl ?_))
    simp [View.committed, View.setStanding, View.setVersion, View.detach, View.setSlot]
  | lock | unlock | number | count | uncount | withdraw | restore | expel | lose =>
    exact hset rfl (.inl rfl)
  | _ => exact .inl rfl

/-- Only a commit seals a version, and it then holds the lock of the slot. -/
theorem sealed_cases (hv : (u'.versions v).sealed = true) :
    (u.versions v).sealed = true ∨ ∃ s a number, x.focus = .numbered s a v number ∧
      x'.focus = .sealed s a v := by
  have hset : ∀ {w y}, u'.versions = update u.versions w y → (y.sealed = true →
      (u.versions w).sealed = true ∨ ∃ s a number, x.focus = .numbered s a w number ∧
      x'.focus = .sealed s a w) → (u.versions v).sealed = true ∨
      ∃ s a number, x.focus = .numbered s a v number ∧ x'.focus = .sealed s a v := by
    intro w y hvers hy
    rcases View.version_of_update hvers v with hsame | ⟨rfl, hnew⟩
    · exact .inl (hsame ▸ hv)
    · exact hy (hnew ▸ hv)
  cases h with
  | make _ _ _ _ hseal => exact hset rfl fun hy => by simp [hseal] at hy
  | record _ _ _ _ hf => exact hset rfl fun _ => .inr ⟨_, _, _, hf, rfl⟩
  | @publish s a w =>
    left
    obtain ⟨_, haft⟩ := u.version_publish a.base w (.published s) v
    have hseal : (((u.detach a.base).setStanding w (.published s)).versions v).sealed = true := hv
    rwa [haft] at hseal
  | raise | mark | unmark | pass | refuse | discard | unpin | prune | take | stage | abandon | sampleReplaced
  | withdraw | restore | depart | departEvicted | expel | lose => exact hset rfl fun hy => .inl hy
  | _ => exact .inl hv

end Move

end Cakemaster.Object
