import Cakemaster.Object.MoveKeeps

/-!
# The log of transactions

`begun` and `resolved` say in which order the transactions of all slots were begun and
resolved. Ids are not reused within a slot, no transaction is resolved twice, and the
numbers of a slot's commits increase.
-/

namespace Cakemaster.Object

open Segment List View

variable {A : UnitAllocator} {x x' : Ghost A} {u u' : View A}
variable {s : SlotRef} {v : VersionRef} {f : SlotView → SlotView}

/-- What a resolution stands for, in a slot as it is. -/
structure Resolution.Past (y : SlotView) (r : Resolution) : Prop where
  id : r.id < y.nextTransactionId
  number : ∀ number, r.outcome = some number → number < y.nextVersionId
  active : ∀ a, y.active = some a → a.id ≠ r.id

structure View.Logged (u : View A) : Prop where
  begun : u.begun.Nodup
  past : ∀ b ∈ u.begun, b.1 < u.slotCount ∧ b.2 < (u.slots b.1).nextTransactionId
  active : ∀ {s a}, u.active s = some a → a.id < (u.slots s).nextTransactionId
  resolved : ∀ r ∈ u.resolved, r.slot < u.slotCount ∧ r.Past (u.slots r.slot)
  once : (u.resolved.map fun r => (r.slot, r.id)).Nodup
  increasing : u.resolved.Pairwise fun r r' => r.slot = r'.slot →
    ∀ number number', r.outcome = some number → r'.outcome = some number' → number < number'
  onSlot : ∀ {s v}, (u.standing v).isAt s = true →
    ⟨s, (u.versions v).origin, v, some (u.versions v).number⟩ ∈ u.resolved

theorem View.activeId_eq (h : u.active s = some a) : u.activeId s = a.id := by
  rw [activeId, h]
  rfl

namespace View.Logged

section

variable (h : u.Logged)
include h

/-- A slot under its lock, with ids that do not go down. -/
theorem setSlot (hid : (u.slots s).nextTransactionId ≤ (f (u.slots s)).nextTransactionId)
    (hnum : (u.slots s).nextVersionId ≤ (f (u.slots s)).nextVersionId)
    (hactv : ∀ a, (f (u.slots s)).active = some a → a.id < (f (u.slots s)).nextTransactionId ∧
      ∀ r ∈ u.resolved, r.slot = s → a.id ≠ r.id) : (u.setSlot s f).Logged where
  begun := h.begun
  past b hb := by
    obtain ⟨hlt, hpast⟩ := h.past b hb
    refine ⟨hlt, ?_⟩
    by_cases hs : b.1 = s
    · subst hs
      simpa [setSlot] using hpast.trans_le hid
    · simpa [View.setSlot, hs] using hpast
  active {s' a} ha := by
    by_cases hs : s' = s
    · subst hs
      have ha : (f (u.slots s')).active = some a := by simpa [View.setSlot, View.active] using ha
      simpa [setSlot] using (hactv a ha).1
    · have ha : u.active s' = some a := by simpa [View.setSlot, View.active, hs] using ha
      simpa [View.setSlot, hs] using h.active ha
  resolved r hr := by
    obtain ⟨hlt, hpast⟩ := h.resolved r hr
    refine ⟨hlt, ?_⟩
    by_cases hs : r.slot = s
    · have hslot : (u.setSlot s f).slots r.slot = f (u.slots s) := by simp [View.setSlot, hs]
      rw [hs] at hpast
      rw [hslot]
      exact ⟨hpast.id.trans_le hid, fun n hn => (hpast.number n hn).trans_le hnum,
        fun a ha => (hactv a ha).2 r hr hs⟩
    · simpa [View.setSlot, hs] using hpast
  once := h.once
  increasing := h.increasing
  onSlot := h.onSlot

theorem touchSlot (hid : (f (u.slots s)).nextTransactionId = (u.slots s).nextTransactionId)
    (hnum : (u.slots s).nextVersionId ≤ (f (u.slots s)).nextVersionId)
    (hactv : ∀ a, (f (u.slots s)).active = some a → ∃ b, u.active s = some b ∧ b.id = a.id) :
    (u.setSlot s f).Logged := by
  refine h.setSlot hid.ge hnum fun a ha => ?_
  obtain ⟨b, hb, hba⟩ := hactv a ha
  rw [hid, ← hba]
  exact ⟨h.active hb, fun r hr hs => (h.resolved r hr).2.active b (hs ▸ hb)⟩

variable {f : VersionView A → VersionView A}

theorem setVersion (hat : ∀ s, (f (u.versions v)).standing.isAt s = true →
      ⟨s, (f (u.versions v)).origin, v, some (f (u.versions v)).number⟩ ∈ u.resolved) :
    (u.setVersion v f).Logged :=
  { h with
    onSlot := fun {s v'} hv => by
      by_cases hv' : v' = v
      · subst hv'
        simpa [setVersion] using hat s (by simpa [setVersion, standing] using hv)
      · simpa [View.setVersion, hv'] using
          h.onSlot (s := s) (v := v') (by simpa [View.setVersion, View.standing, hv'] using hv) }

theorem touchVersion (hstd : (f (u.versions v)).standing = u.standing v)
    (horigin : (f (u.versions v)).origin = (u.versions v).origin)
    (hnum : (f (u.versions v)).number = (u.versions v).number) : (u.setVersion v f).Logged := by
  refine h.setVersion fun s hs => ?_
  rw [hstd] at hs
  rw [horigin, hnum]
  exact h.onSlot hs

theorem setStanding (standing : Standing) (hat : ∀ s, standing.isAt s = true →
      ⟨s, (u.versions v).origin, v, some (u.versions v).number⟩ ∈ u.resolved) :
    (u.setStanding v standing).Logged := h.setVersion hat

theorem setCommitted (s : SlotRef) (committed : Option VersionRef) :
    (u.setCommitted s committed).Logged := h.touchSlot rfl le_rfl fun a ha => ⟨a, ha, rfl⟩

theorem setHand (hand : Multiset GcCandidate) : ({ u with hand } : View A).Logged :=
  { h with }

theorem setCounter (counter : Counter) : ({ u with counter } : View A).Logged :=
  { h with }

theorem begin {id : TransactionId} (hs : s < u.slotCount)
    (hid : id < (u.slots s).nextTransactionId) (hnew : (s, id) ∉ u.begun) :
    ({ u with begun := u.begun ++ [(s, id)] } : View A).Logged :=
  { h with
    begun := nodup_append.mpr ⟨h.begun, nodup_singleton _, fun b hb c hc hbc =>
      hnew (mem_singleton.mp hc ▸ hbc ▸ hb)⟩
    past := fun b hb => by
      rcases mem_append.mp hb with hb | hb
      · exact h.past b hb
      · rw [mem_singleton.mp hb]
        exact ⟨hs, hid⟩ }

theorem resolve (hs : s < u.slotCount) (hactv : u.active s = some a)
    (committed : Option VersionRef) (v : VersionRef) (outcome : Option VersionId)
    (hnext : ∀ number, outcome = some number → u.NextNumber s number) :
    ({ u.setSlot s fun x => { x with committed, active := none } with
      resolved := u.resolved ++ [⟨s, u.activeId s, v, outcome⟩] } : View A).Logged :=
  have hclsd : (u.setSlot s fun x => { x with committed, active := none }).Logged :=
    h.touchSlot rfl le_rfl nofun
  { hclsd with
    resolved := fun r hr => by
      rcases mem_append.mp hr with hr | hr
      · exact hclsd.resolved r hr
      · rw [mem_singleton.mp hr]
        refine ⟨hs, ?_, fun n hn => ?_, fun b hb => ?_⟩
        · simpa [View.setSlot, activeId_eq hactv] using h.active hactv
        · simpa [View.setSlot] using (hnext n hn).1
        · simp [View.setSlot] at hb
    once := by
      rw [map_append]
      refine nodup_append.mpr ⟨h.once, nodup_singleton _, fun b hb c hc hbc => ?_⟩
      obtain ⟨r, hr, rfl⟩ := mem_map.mp hb
      rw [mem_singleton.mp hc, activeId_eq hactv] at hbc
      obtain ⟨rfl, hid⟩ := Prod.mk.inj hbc
      exact (h.resolved r hr).2.active a hactv hid.symm
    increasing := by
      refine pairwise_append.mpr ⟨h.increasing, pairwise_singleton _ _, fun r hr c hc => ?_⟩
      rw [mem_singleton.mp hc]
      exact fun hslot n n' hn hn' => (hnext n' hn').2 r hr hslot n hn
    onSlot := fun hv => mem_append_left _ (h.onSlot hv) }

end

theorem publish {resolved : List Resolution}
    (h : ({ u.setSlot s f with resolved } : View A).Logged) (base : Option VersionRef)
    (hent : ⟨s, (u.versions v).origin, v, some (u.versions v).number⟩ ∈ resolved) :
    ({ ((u.setSlot s f).detach base).setStanding v (.published s) with resolved } : View A).Logged := by
  have hat : ∀ s', Standing.isAt s' (.published s) = true →
      ⟨s', (u.versions v).origin, v, some (u.versions v).number⟩ ∈ resolved := by
    intro s' hs'
    rwa [← of_decide_eq_true hs']
  cases base with
  | none => exact h.setStanding _ hat
  | some old =>
    refine (h.setStanding (v := old) .detached nofun).setStanding _ fun s' hs' => ?_
    by_cases hv : v = old
    · subst hv
      simpa [View.setStanding, View.setVersion, View.setSlot] using hat s' hs'
    · simpa [View.setStanding, View.setVersion, View.setSlot, hv] using hat s' hs'

theorem insert (h : u.Logged) (identity : ObjectIdentity) (owner : WriteOwner)
    (pins : ResolvedObjectPinRequest) (lookup : ObjectIdentity → Option SlotRef) :
    ({ u with
      slots := Function.update u.slots u.slotCount
        ⟨identity, none, some ⟨1, owner, none, pins, .claimed⟩, false, 2, 1, 0⟩
      slotCount := u.slotCount + 1
      lookup
      begun := u.begun ++ [(u.slotCount, 1)] } : View A).Logged :=
  { h with
    begun := nodup_append.mpr ⟨h.begun, nodup_singleton _, fun b hb c hc hbc => by
      have hlt := (h.past b hb).1
      rw [hbc, mem_singleton.mp hc] at hlt
      exact hlt.false⟩
    past := fun b hb => by
      rcases mem_append.mp hb with hb | hb
      · obtain ⟨hlt, hpast⟩ := h.past b hb
        exact ⟨hlt.trans (Nat.lt_succ_self _), by simpa [hlt.ne] using hpast⟩
      · simp [mem_singleton.mp hb]
    active := fun {s a} ha => by
      by_cases hs : s = u.slotCount
      · subst hs
        have ha : (⟨1, owner, none, pins, .claimed⟩ : ActiveTransaction) = a := by
          simpa [View.active] using ha
        simp [← ha]
      · have ha : u.active s = some a := by simpa [View.active, hs] using ha
        simpa [hs] using h.active ha
    resolved := fun r hr => by
      obtain ⟨hlt, hpast⟩ := h.resolved r hr
      exact ⟨hlt.trans (Nat.lt_succ_self _), by simpa [hlt.ne] using hpast⟩ }

end View.Logged

theorem Move.logged (hu : u.Wellformed) (hx : x.Sound u) (hlog : u.Logged) (h : Move u x u' x') :
    u'.Logged := by
  have hkn := hx.focus
  cases h with
  | seeDead | observe | see | sample | confirm | retry | keep | free | base | meet | vacant | point
  | hollow | idle | examine | condemn | learn | settle | dropEmpty | resolve | agree | disagree | miss
  | expect | popNone | finishDrain | fence | spare | seeUnpinned | seeSoft => exact hlog
  | frame | release | enqueueEmpty | popEmpty | pushEmpty | pop | push | drop | retire | popRetired
  | enqueue | requeue | popSpare | popDrained | gate | ungate | closeGate | openGate | enterGate
  | leaveGate | backOut | unindex => exact { hlog with }
  | lock | unlock => exact hlog.touchSlot rfl le_rfl fun a ha => ⟨a, ha, rfl⟩
  | number => exact hlog.touchSlot rfl (Nat.le_succ _) fun a ha => ⟨a, ha, rfl⟩
  | count | uncount => exact (hlog.touchSlot rfl le_rfl fun a ha => ⟨a, ha, rfl⟩).setCounter _
  | unclaim => exact hlog.touchSlot rfl le_rfl (by simp)
  | raise | mark | unmark | unpin | pass | refuse | discard | prune | take =>
    exact hlog.touchVersion rfl rfl rfl
  | insert owner pins => exact hlog.insert ..
  | @claim s next base owner pins hf =>
    refine (hlog.setSlot (Nat.le_succ _) le_rfl fun a ha => ?_).begin (hx.lock s (hf ▸ rfl)).2.1 ?_ ?_
    · cases ha
      exact ⟨Nat.lt_succ_self _, fun r hr hs => hs ▸ ((hlog.resolved r hr).2.id).ne'⟩
    · simp [setSlot]
    · exact fun hb => (hlog.past _ hb).2.false
  | make y _ _ _ _ _ hstd =>
    refine { hlog with onSlot := fun {s v} hv => ?_ }
    by_cases hv' : v = u.versionCount
    · subst hv'
      simp [standing, hstd, Standing.isAt] at hv
    · simpa [hv'] using hlog.onSlot (s := s) (v := v) (by simpa [standing, hv'] using hv)
  | @stage v o s a hm hf =>
    rw [hf] at hkn
    refine (hlog.touchSlot (s := s) (f := fun y => { y with active := some { a with phase := .staged v } })
      rfl le_rfl fun b hb => ?_).setStanding (.staged s) (by rintro _ ⟨⟩)
    cases hb
    exact ⟨a, hkn, rfl⟩
  | @record s a v number _ _ _ _ hf =>
    rw [hf] at hkn
    refine hlog.setVersion fun s' hs' => ?_
    change (u.standing v).isAt s' = true at hs'
    rw [(hu.staged hkn.1.1 hkn.1.2.1).1] at hs'
    cases hs'
  | @abandon s a v now hf =>
    rw [hf] at hkn
    have hs := (hx.lock s (hf ▸ rfl)).2.1
    exact (hlog.resolve hs hkn (u.committed s) v none (fun _ => (by simp))).setStanding (.left now)
      (by rintro _ ⟨⟩)
  | @publish s a v _ hf =>
    rw [hf] at hkn
    obtain ⟨⟨hactv, hph, -⟩, -, hnext⟩ := hkn
    have hs := (hx.lock s (hf ▸ rfl)).2.1
    refine (View.Logged.publish (hlog.resolve hs hactv (some v) v _ fun n hn =>
      Option.some.inj hn ▸ hnext) a.base ?_).setHand _
    rw [activeId_eq hactv, ← (hu.staged hactv hph).2.2]
    exact mem_append_right _ (mem_singleton_self _)
  | restore hf =>
    rw [hf] at hkn
    refine (hlog.setCommitted _ _).setStanding _ fun s' hs' => hlog.onSlot ?_
    rw [show u.standing _ = _ from hkn]
    exact hs'
  | @withdraw s v hf =>
    rw [hf] at hkn
    refine (hlog.setCommitted s none).setStanding _ fun s' hs' => hlog.onSlot ?_
    rw [hu.committed hkn.2]
    exact hs'
  | expel => exact (hlog.setCommitted _ none).setStanding .forced (by rintro _ ⟨⟩)
  | lose => exact ((hlog.setCommitted _ none).setStanding .lost (by rintro _ ⟨⟩)).setHand _
  | depart | sampleReplaced => exact hlog.setStanding (.left _) (by rintro _ ⟨⟩)
  | departEvicted => exact (hlog.setStanding (.left _) (by rintro _ ⟨⟩)).setHand _

end Cakemaster.Object
