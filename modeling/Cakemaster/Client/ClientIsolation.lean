import Cakemaster.Client.CallsAlone
import Cakemaster.Client.FailedMounts

/-!
# Isolation of the clients

A call on behalf of some clients leaves the segments of the others alone: none of them is
attached, changes its state or is removed, and none gets into a slot that is not its owner's.
Each turn of the books is isolated in this sense, and so is every call that is a sequence of
turns. The exception are remounts that take a segment of another client, since `remount`
compares no owners: a call is isolated exactly if it does not do so.
-/

namespace Cakemaster.Client

open Machine Machine.Prog Segment ClientManager Function List Function Option
open Object (ClientSession)

namespace Ledger

variable {b b' b'' : Ledger} {event : LedgerEvent} {concerns : ClientId → SegmentId → Prop}

/-- Nothing has happened to the mounted segments and the slots but to the segments that are
concerned, which are given by their owners and ids, and every segment that has got into a slot
belongs to the client of the slot. -/
structure Isolated (concerns : ClientId → SegmentId → Prop) (b b' : Ledger) : Prop where
  mount : ∀ id k, ¬concerns k.owner id → (b'.mount id = some k ↔ b.mount id = some k)
  slot : ∀ c, (∀ id, ¬concerns c id) → b'.slot c = b.slot c
  recorded : ∀ c id, id ∈ (b'.slot c).segments → (id ∈ (b.slot c).segments → b.Owns c id) →
    b'.Owns c id

namespace Isolated

theorem same (hmt : b'.mount = b.mount) (hslot : b'.slot = b.slot) : Isolated concerns b b' where
  mount id k _ := by rw [hmt]
  slot c _ := by rw [hslot]
  recorded c id hmem howns := by
    rw [hslot] at hmem
    obtain ⟨k, hk, hownr⟩ := howns hmem
    exact ⟨k, by rw [hmt, hk], hownr⟩

theorem trans (h : Isolated concerns b b') (h' : Isolated concerns b' b'') :
    Isolated concerns b b'' where
  mount id k hk := (h'.mount id k hk).trans (h.mount id k hk)
  slot c hc := (h'.slot c hc).trans (h.slot c hc)
  recorded c id hmem howns := h'.recorded c id hmem fun hmem' => h.recorded c id hmem' howns

theorem mono {concerns' : ClientId → SegmentId → Prop} (h : Isolated concerns b b')
    (hcons : ∀ c id, concerns c id → concerns' c id) : Isolated concerns' b b' where
  mount id k hk := h.mount id k fun hconcerned => hk (hcons _ _ hconcerned)
  slot c hc := h.slot c fun id hconcerned => hc id (hcons c id hconcerned)
  recorded := h.recorded

/-- One segment is replaced or removed, and the slot of its owner is changed with it. -/
theorem update {c : ClientId} {id : SegmentId} {o : Option Mount} {state : ClientMountState}
    (hcons : concerns c id) (hbef : ∀ k, b.mount id = some k → k.owner = c)
    (haft : ∀ k, o = some k → k.owner = c)
    (hst : ∀ id' ∈ state.segments, id' ≠ id → id' ∈ (b.slot c).segments)
    (hid : id ∈ state.segments → o.isSome) (hmt : b'.mount = update b.mount id o)
    (hslot : b'.slot = update b.slot c state) :
    Isolated concerns b b' where
  mount id' k hk := by
    by_cases h : id' = id
    · subst h
      rw [hmt, update_self]
      constructor
      · intro ho
        rw [haft k ho] at hk
        exact absurd hcons hk
      · intro ho
        rw [hbef k ho] at hk
        exact absurd hcons hk
    · rw [hmt, update_of_ne h]
  slot c' hc' := by
    have hne : c' ≠ c := by
      rintro rfl
      exact hc' id hcons
    rw [hslot, update_of_ne hne]
  recorded c' id' hmem howns := by
    rw [hslot] at hmem
    by_cases h : id' = id
    · subst h
      by_cases hc : c' = c
      · subst hc
        rw [update_self] at hmem
        obtain ⟨k, rfl⟩ := isSome_iff_exists.mp (hid hmem)
        exact ⟨k, by rw [hmt, update_self], haft k rfl⟩
      · rw [update_of_ne hc] at hmem
        obtain ⟨k, hk, rfl⟩ := howns hmem
        exact absurd (hbef k hk) hc
    · have hmem' : id' ∈ (b.slot c').segments := by
        by_cases hc : c' = c
        · subst hc
          rw [update_self] at hmem
          exact hst id' hmem h
        · rwa [update_of_ne hc] at hmem
      obtain ⟨k, hk, hownr⟩ := howns hmem'
      exact ⟨k, by rw [hmt, update_of_ne h, hk], hownr⟩

theorem establish (hcons : ∀ id, concerns c id)
    (howrs : ∀ spec ∈ specs, spec.identity.owner = c) (hmt : Mounted b.next b.mount specs b'.mount)
    (hslot : b'.slot = Function.update b.slot c state) (hst : state.segments = requestedIds specs) :
    Isolated concerns b b' := by
  -- what is mounted under a requested id belongs to the client, before and after
  have hrqd : ∀ id ∈ requestedIds specs, (∀ k, b.mount id = some k → k.owner = c) ∧
      b'.Owns c id := by
    intro id hid
    obtain ⟨spec, hspec, rfl⟩ := mem_map.mp (mem_toFinset.mp hid)
    obtain ⟨k, hk, hkspec, -⟩ := hmt.each spec hspec
    constructor
    · intro k' hk'
      rw [Mount.owner, hmt.before spec hspec k' hk', howrs spec hspec]
    · exact ⟨k, hk, by rw [Mount.owner, hkspec, howrs spec hspec]⟩
  constructor
  · intro id k hk
    have hne : k.owner ≠ c := by
      rintro rfl
      exact hk (hcons id)
    by_cases hid : id ∈ requestedIds specs
    · obtain ⟨hbef, k', hk', hownr'⟩ := hrqd id hid
      constructor
      · intro haft
        cases hk'.symm.trans haft
        exact absurd hownr' hne
      · intro hmtd
        exact absurd (hbef k hmtd) hne
    · rw [hmt.other id hid]
  · intro c' hc'
    have hne : c' ≠ c := by
      rintro rfl
      exact hc' ⟨0, 0⟩ (hcons _)
    rw [hslot, update_of_ne hne]
  intro c' id hmem howns
  rw [hslot] at hmem
  by_cases hc : c' = c
  · subst hc
    rw [update_self, hst] at hmem
    exact (hrqd id hmem).2
  · rw [update_of_ne hc] at hmem
    obtain ⟨k, hk, rfl⟩ := howns hmem
    have hid : id ∉ requestedIds specs := fun hid => hc ((hrqd id hid).1 k hk)
    exact ⟨k, by rw [hmt.other id hid, hk], rfl⟩

theorem clean {clients : List ClientId} (hcons : ∀ c ∈ clients, ∀ id, concerns c id)
    (hmt : b'.mount = fun id => (b.mount id).filter fun k => k.owner ∉ clients)
    (hslot : b'.slot = fun c => if c ∈ clients then .default else b.slot c) :
    Isolated concerns b b' where
  mount id k hk := by
    have hkept : k.owner ∉ clients := fun hmem => hk (hcons _ hmem id)
    simp [hmt, filter_eq_some_iff, hkept]
  slot c hc := by
    have hkept : c ∉ clients := fun hmem => hc ⟨0, 0⟩ (hcons c hmem _)
    rw [hslot]
    exact if_neg hkept
  recorded c id hmem howns := by
    rw [hslot] at hmem
    dsimp only at hmem
    split at hmem
    · cases hmem
    next hkept =>
    obtain ⟨k, hk, rfl⟩ := howns hmem
    exact ⟨k, by simp [hmt, hk, hkept], rfl⟩

theorem without {key : GracefulUnmountKey} {k : Mount} {queue : GracefulUnmountQueue}
    (hrec : b.Records key k) (hcons : concerns key.session.clientId key.segment) :
    Isolated concerns b { b.without key with queue } := by
  refine .update (o := none) hcons ?_ nofun ?_ ?_ rfl rfl
  · intro k' hk'
    cases hrec.mount.symm.trans hk'
    exact hrec.owner
  · exact fun id hmem _ => Finset.mem_of_mem_erase hmem
  · exact fun hmem => absurd rfl (Finset.ne_of_mem_erase hmem)

theorem quiesce {key : GracefulUnmountKey} {k : Mount} {queue : GracefulUnmountQueue}
    (hrec : b.Records key k) (hcons : concerns key.session.clientId key.segment) :
    Isolated concerns b { b with
      mount := Function.update b.mount key.segment (some { k with state := .quiesced }), queue } := by
  refine .update hcons ?_ ?_ (fun _ hmem _ => hmem) (fun _ => rfl) rfl (update_eq_self ..).symm
  · intro k' hk'
    cases hrec.mount.symm.trans hk'
    exact hrec.owner
  · rintro k' ⟨⟩
    exact hrec.owner

end Isolated

theorem Turn.isolated (h : b.Turn event b') : Isolated event.Concerns b b' := by
  cases h with
  | age | prune | claim | stale | refuse => exact .same rfl rfl
  | @add session spec _ _ _ _ hsess hmt =>
    refine .update (mem_singleton_self _) ?_ ?_ ?_ ?_ rfl rfl
    · intro k hk
      cases hmt.symm.trans hk
    · rintro k ⟨⟩
      rfl
    · exact fun id hmem hne => Finset.mem_of_mem_insert_of_ne hmem hne
    · exact fun _ => rfl
  | establish _ _ howrs hmt =>
    exact .establish (fun _ => List.mem_singleton_self _) howrs hmt rfl rfl
  | unmount hrec => exact .without hrec (List.mem_singleton_self _)
  | remove hrec => exact .without hrec ⟨rfl, rfl⟩
  | schedule _ hrec | retry _ hrec => exact .quiesce hrec ⟨rfl, rfl⟩
  | clean sessions _ hclients =>
    refine .clean (fun c hmem _ => ?_) rfl rfl
    obtain ⟨session, hsess, rfl⟩ := mem_map.mp hmem
    exact hclients session hsess

theorem Turns.isolated (h : Turns (LedgerEvent.Within concerns) b b') : Isolated concerns b b' :=
  h.keeps (Isolated concerns b) (.same rfl rfl) fun hwithin hturn hisolated =>
    hisolated.trans (hturn.isolated.mono hwithin)

end Ledger

variable {A : UnitAllocator} {cfg : ClientLifecycleConfig} {m m' : ClientManager A}

theorem MountsAlone.isolated (h : MountsAlone cfg c now specs false m result m')
    (howrs : ∀ session, result = .ok (.activated session) → ∀ spec ∈ specs, spec.identity.owner = c) :
    Ledger.Isolated (fun c' _ => c' = c) m.ledger m'.ledger :=
  (h.turn howrs).isolated.mono fun _ _ hmem => mem_singleton.mp hmem

/-- A new segment of another client stays in the pool. -/
theorem MountsAlone.not_isolated_strand (h : MountsAlone cfg c now specs true m result m')
    (hent : m.lifecycle.entry c = none) :
    ¬Ledger.Isolated (fun c' _ => c' = c) m.ledger m'.ledger := by
  intro hisolated
  obtain ⟨_, hmtg, -⟩ := h.mounting
  have hmt := hisolated.mount
  change ∀ id k, ¬k.owner = c → (m'.pool.mount id = some k ↔ m.pool.mount id = some k) at hmt
  generalize m'.pool.mount = mount at hmtg hmt
  generalize m'.lifecycle = lifecycle at hmtg
  cases hmtg with
  | refuse _ _ hrev =>
    obtain ⟨id, k, hnone, hk, hne⟩ := hrev
    cases hnone.symm.trans ((hmt id k hne).mp hk)
  | expire _ e he => cases hent.symm.trans he
  | refresh _ hacv | add _ _ _ _ hacv =>
    obtain ⟨e, he, -⟩ := Lifecycle.alreadyActive hacv
    cases hent.symm.trans he
  | establish _ _ hown => cases hown

/-- A segment of another client is in the slot of the caller. -/
theorem MountsAlone.not_isolated_bind {gs : ℕ → Ghost} (hcoh : Coherent cfg m gs)
    (h : MountsAlone cfg c now specs foreign m (.ok (.activated session)) m') (hspec : spec ∈ specs)
    (hne : spec.identity.owner ≠ c) : ¬Ledger.Isolated (fun c' _ => c' = c) m.ledger m'.ledger := by
  intro hisolated
  obtain ⟨_, hmtg, hview⟩ := h.mounting
  have howns := hisolated.recorded c spec.identity.id
  change spec.identity.id ∈ (m'.mountState c).segments →
    (spec.identity.id ∈ (m.mountState c).segments → _) →
    ∃ k, m'.pool.mount spec.identity.id = some k ∧ k.owner = c at howns
  generalize m'.pool.mount = mount at hmtg howns
  generalize m'.lifecycle = lifecycle at hmtg
  cases hmtg with
  | establish _ _ _ hacv hmt =>
    obtain ⟨-, hent, -⟩ := Lifecycle.activate_activated hacv
    rw [hview, update_self, hcoh.mountState_absent hent] at howns
    obtain ⟨k, hk, hownr⟩ := howns (mem_toFinset.mpr (mem_map_of_mem hspec)) nofun
    obtain ⟨_, hk', hkspec, -⟩ := hmt.each spec hspec
    cases hk.symm.trans hk'
    exact hne (hkspec ▸ hownr)

/-- A remount attaches a new segment of another client, or binds one that was there to a new
session of the caller. -/
def ManagerCall.TakesForeign (m : ClientManager A) (result : ManagerResult) : ManagerCall → Prop
  | remount c specs _ => m.strands c specs = true ∨
      (∃ session, result = .mounted (.ok (.activated session))) ∧
      ∃ spec ∈ specs, spec.identity.owner ≠ c
  | _ => False

namespace Sample

def stranger : ClientId := ⟨0, 2⟩

/-- A segment of another client. -/
def foreign : SegmentSpec :=
  ⟨⟨⟨0, 3⟩, stranger, "foreign", "host"⟩, ⟨8192, 1024⟩, ⟨.tcp, "endpoint"⟩⟩

def withForeign : ClientManager bumpAllocator :=
  perform ⟨10, 4, 4⟩ initial (.mountSegment stranger foreign 0)

def remounted (m : ClientManager bumpAllocator) (segments : List SegmentSpec) :
    Option (ManagerResult × ClientManager bumpAllocator) :=
  Prog.eval 0 ((ManagerCall.remount client segments 0).code ⟨10, 4, 4⟩) m

end Sample

end Cakemaster.Client
