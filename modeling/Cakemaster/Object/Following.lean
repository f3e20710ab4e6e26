import Cakemaster.Object.Lifecycle

/-!
# Calls follow the life of versions

The view of a store, and the programs of the catalog as sequences of moves.
-/

namespace Cakemaster.Object

open Machine Machine.Prog Segment Tenant Conforms Prog World

variable {A : UnitAllocator}
variable {u : View A} (replicas : ReplicaSet A) {s : SlotRef} (w : World A) {u' : View A}
  {g g' : Ghost A}
variable (entry : TenantRef) (v : VersionRef)

/-! ### The view of a store -/

def ObjectSlot.view (x : ObjectSlot) : SlotView where
  identity := x.identity
  committed := x.committed
  active := x.active
  locked := x.locked
  nextTransactionId := x.nextTransactionId
  nextVersionId := x.nextVersionId
  counted := x.counted

/-- The access control of a version, which has none before its commit. -/
def ObjectVersion.access (x : ObjectVersion A) : AccessControl :=
  (x.committed.map CommittedVersion.access).getD ⟨0, false, 0, false⟩

def ObjectVersion.view (x : ObjectVersion A) : VersionView A where
  origin := x.origin
  owner := x.owner
  content := x.content
  replicas := x.replicas
  sealed := x.committed.isSome
  number := (x.committed.map (·.id)).getD 0
  commit := x.committed.map (·.commit)
  hardPinned := x.access.hardPinned
  softPin := x.access.softPinUntil
  lease := x.access.leaseUntil
  recent := x.access.recent
  reclaimed := x.reclaimed
  check := x.admissionCheck
  standing := x.standing

namespace World

def view (w : World A) : View A where
  slots s := (w.slots s).view
  slotCount := w.slotCount
  lookup := w.lookupSlot
  counter := w.index.slots
  versions v := (w.versions v).view
  versionCount := w.versionCount
  queued := w.eviction.young + w.eviction.protectedQueue
  hand := w.eviction.hand
  pending := w.pending.candidates
  stageReaders := w.pending.stageReaders
  stageWriter := w.pending.stageWriter
  retired := w.retired
  empties := w.emptySlots
  stepGate := w.stepGate
  sessions := w.activeSessions
  live := w.pool.isLive
  released := w.history.released
  begun := w.history.begun
  resolved := w.history.resolved

theorem view_modifySlot (hview : (f (w.slots s)).view = h (w.slots s).view) :
    (w.modifySlot s f).view = w.view.setSlot s h := by
  have hslots : (fun r => ((w.modifySlot s f).slots r).view) =
      Function.update (fun r => (w.slots r).view) s (h (w.slots s).view) := by
    funext r
    by_cases hr : r = s
    · subst hr
      simp [modifySlot, hview]
    · simp [modifySlot, hr]
  simp only [view, View.setSlot, hslots]
  rfl

theorem view_modifyVersion {v : VersionRef}
    (hview : (f (w.versions v)).view = h (w.versions v).view) :
    (w.modifyVersion v f).view = w.view.setVersion v h := by
  have hvers : (fun r => ((w.modifyVersion v f).versions r).view) =
      Function.update (fun r => (w.versions r).view) v (h (w.versions v).view) := by
    funext r
    by_cases hr : r = v
    · subst hr
      simp [modifyVersion, hview]
    · simp [modifyVersion, hr]
  simp only [view, View.setVersion, hvers]
  rfl

theorem view_modifyVersion_same {v : VersionRef}
    (hview : (f (w.versions v)).view = (w.versions v).view) :
    (w.modifyVersion v f).view = w.view := by
  rw [view_modifyVersion w (h := id) hview]
  simp [View.setVersion]

theorem view_setStanding (standing : Standing) :
    (w.setStanding v standing).view = w.view.setStanding v standing := view_modifyVersion w rfl

theorem view_setCommitted (s : SlotRef) (committed : Option VersionRef) :
    (w.setCommitted s committed).view = w.view.setCommitted s committed := view_modifySlot w rfl

theorem view_setActive (s : SlotRef) (active : Option ActiveTransaction) :
    (w.setActive s active).view = w.view.setActive s active := view_modifySlot w rfl

theorem view_detach (base : Option VersionRef) : (w.detach base).view = w.view.detach base := by
  cases base with
  | none => rfl
  | some old => exact w.view_setStanding old .detached

end World

/-! ### Programs that move nothing -/

/-- Every action of the program is a move. -/
abbrev Follows {α : Type} (p : CatalogM A α) (g : Ghost A) (post : α → Ghost A → Prop) : Prop :=
  Conforms (fun w g w' g' => Move w.view g w'.view g') p g post

theorem Move.same : Move u g u g := .frame (fun _ h => h) fun _ h => h

theorem Move.to (h : Move u g u' g') (heq : u'' = u') : Move u g u'' g' := heq ▸ h

theorem Move.to' (h : Move u g u' g') (heq : u'' = u') (hghost : g'' = g') :
    Move u g u'' g'' := heq ▸ hghost ▸ h

theorem Move.of_view_eq (h : u' = u) : Move u g u' g := Move.same.to h

/-- The program leaves the view as it is, but for the loss of segments. -/
def Quiet {α : Type} (p : CatalogM A α) : Prop := ∀ g, Follows p g fun _ g' => g' = g

namespace Quiet

variable {α β : Type}

/-- What comes after a quiet program starts with the same ghost. -/
theorem andThen {p : CatalogM A β} {k : β → CatalogM A α} {g : Ghost A}
    {post : α → Ghost A → Prop} (h : Quiet p) (hk : ∀ b, Follows (k b) g post) :
    Follows (p.bind k) g post := by
  refine (h g).andThen fun b => ?_
  exact hk b

theorem bind {p : CatalogM A β} {k : β → CatalogM A α} (h : Quiet p) (hk : ∀ b, Quiet (k b)) :
    Quiet (p.bind k) := fun g => h.andThen fun b => hk b g

theorem ret (a : α) : Quiet (ret a : CatalogM A α) := fun _ => Conforms.ret rfl

theorem ite {condition : Prop} [Decidable condition] {p q : CatalogM A α} (hp : Quiet p)
    (hq : Quiet q) : Quiet (if condition then p else q) :=
  fun g => .ite (fun _ => hp g) fun _ => hq g

theorem guarded {condition : Prop} [Decidable condition] {p : CatalogM A Unit} (hp : Quiet p) :
    Quiet (guarded condition p) := ite hp (ret ())

theorem await {f : World A → Option (β × World A)}
    (h : ∀ w b w', f w = some (b, w') → w'.view = w.view) : Quiet (await f) :=
  fun g => .of_bind_ret (.await fun w b w' hf =>
    ⟨g, .of_view_eq (h w b w' hf), .ret rfl⟩)

theorem update {f : World A → β × World A} (h : ∀ w, (f w).2.view = w.view) : Quiet (update f) :=
  fun g => .of_bind_ret (.update fun w => ⟨g, .of_view_eq (h w), .ret rfl⟩)

theorem read (f : World A → β) : Quiet (read f) := update fun _ => rfl

theorem modify {f : World A → World A} (h : ∀ w, (f w).view = w.view) : Quiet (modify f) :=
  update h

theorem pick (usual : β) : Quiet (pick usual : CatalogM A β) :=
  fun _ => .of_bind_ret (.pick fun _ => .ret rfl)

theorem crash : Quiet (crash : CatalogM A β) := await (by simp)

theorem zoom {τ : Type} {l : Lens (World A) τ} (p : Prog τ α)
    (h : ∀ w t, (l.set t w).view = w.view) :
    Quiet (p.zoom l) := fun _ => zoom_stutter p fun w t => .of_view_eq (h w t)

end Quiet

variable {α : Type}

theorem quiet_lifecycle (p : Prog LifecycleCounters α) :
    Quiet (p.zoom (lifecycleVar (A := A))) := .zoom p fun _ _ => rfl

theorem quiet_reclaim (p : Prog ReclaimDebt α) :
    Quiet (p.zoom (reclaimVar (A := A))) := .zoom p fun _ _ => rfl

theorem quiet_liveness (p : Prog LivenessSweep α) :
    Quiet (p.zoom (livenessVar (A := A))) := .zoom p fun _ _ => rfl

theorem quiet_account (p : Prog QuotaAccount α) :
    Quiet (p.zoom (accountVar (A := A) entry)) := .zoom p fun _ _ => rfl

theorem quiet_requestLiveness : Quiet (requestLiveness (A := A)) := quiet_liveness _

theorem quiet_upgradeSlot (s : SlotRef) : Quiet (upgradeSlot (A := A) s) :=
  .bind (.pick false) fun _ => .read _

/-! ### Accounting -/

theorem World.view_setChargePhase (phase : ChargePhase) :
    (w.setChargePhase v phase).view = w.view := view_modifyVersion_same w rfl

theorem quiet_assertPhase (expected : ChargePhase) : Quiet (assertPhase (A := A) v expected) := by
  apply Quiet.modify
  intro w
  split <;> rfl

theorem quiet_withAccounting {v : VersionRef} {charge : TenantRef → ℕ → CatalogM A Unit}
    (h : ∀ entry bytes, Quiet (charge entry bytes)) : Quiet (withAccounting v charge) := by
  refine .bind (.read _) fun accounted => ?_
  cases accounted with
  | none => exact .ret ()
  | some charged => exact h charged.1 charged.2

theorem quiet_subtractFrom (value : Lens QuotaAccount ℕ) (bytes : ℕ) :
    Quiet (subtractFrom (A := A) entry value bytes) := quiet_account entry _

theorem quiet_addTo (value : Lens QuotaAccount ℕ) (bytes : ℕ) :
    Quiet (addTo (A := A) entry value bytes) := .bind (quiet_account entry _) fun _ => .ret ()

theorem quiet_setChargePhase (phase : ChargePhase) :
    Quiet (modify (setChargePhase (A := A) v phase)) :=
  .modify fun w => w.view_setChargePhase v phase

theorem quiet_commitAccounting : Quiet (commitAccounting (A := A) v) :=
  quiet_withAccounting fun entry bytes =>
    .bind (quiet_assertPhase v _) fun _ => .bind (quiet_addTo entry _ bytes) fun _ =>
      quiet_setChargePhase v _

theorem quiet_abortAccounting : Quiet (abortAccounting (A := A) v) :=
  quiet_withAccounting fun entry bytes =>
    .bind (quiet_assertPhase v _) fun _ => .bind (quiet_subtractFrom entry _ bytes) fun _ =>
      quiet_setChargePhase v _

theorem quiet_markAccountingRetiring : Quiet (markAccountingRetiring (A := A) v) :=
  quiet_withAccounting fun entry bytes =>
    .bind (quiet_assertPhase v _) fun _ => .bind (quiet_addTo entry _ bytes) fun _ =>
      quiet_setChargePhase v _

theorem quiet_releaseAccounting : Quiet (releaseAccounting (A := A) v) := by
  refine quiet_withAccounting fun entry bytes => .bind (.read _) fun phase =>
    .bind (quiet_setChargePhase v _) fun _ => ?_
  cases phase with
  | reserved => exact quiet_subtractFrom entry _ bytes
  | committed =>
    exact .bind (quiet_subtractFrom entry _ bytes) fun _ => quiet_subtractFrom entry _ bytes
  | retiring =>
    exact .bind (quiet_subtractFrom entry _ bytes) fun _ =>
      .bind (quiet_subtractFrom entry _ bytes) fun _ => quiet_subtractFrom entry _ bytes
  | released => exact .ret ()

theorem quiet_releasePrunedAccounting (stale : ReplicaSet A) :
    Quiet (releasePrunedAccounting v stale) := by
  refine .bind (.read _) fun version => ?_
  split
  · split
    · exact .crash
    · exact .bind (quiet_assertPhase v _) fun _ =>
        .bind (quiet_subtractFrom _ _ _) fun _ => quiet_subtractFrom _ _ _
  · exact .ret ()

/-! ### Liveness -/

theorem quiet_isLive (replica : ReplicaLease A) : Quiet (isLive replica) := .read _

theorem quiet_everyLive (replicas : ReplicaSet A) : Quiet (everyLive replicas) := by
  induction replicas with
  | nil => exact .ret true
  | cons replica rest ih => exact .bind (quiet_isLive replica) fun _ => .ite ih (.ret false)

theorem quiet_someLive (replicas : ReplicaSet A) : Quiet (someLive replicas) := by
  induction replicas with
  | nil => exact .ret false
  | cons replica rest ih => exact .bind (quiet_isLive replica) fun _ => .ite (.ret true) ih

theorem quiet_allLiveIn : Quiet (allLiveIn replicas) :=
  .ite (.ret false) (quiet_everyLive replicas)

theorem quiet_allLive : Quiet (allLive (A := A) v) :=
  .bind (.read _) quiet_allLiveIn

theorem quiet_hasLive : Quiet (hasLive (A := A) v) := .bind (.read _) quiet_someLive

theorem quiet_baseIsInvalid (base : Option VersionRef) : Quiet (baseIsInvalid (A := A) base) := by
  cases base with
  | none => exact .ret false
  | some base => exact .bind (quiet_hasLive base) fun _ => .ret _

/-- The ghost has seen more dead reservations, has taken more replicas, knows of more
resolutions or has made notes. -/
def Ghost.Grows (g g' : Ghost A) : Prop :=
  ∃ dead batch known notes, g' = { g with dead, batch, known, notes } ∧ g.dead ⊆ dead ∧
    g.batch ⊆ batch

namespace Ghost.Grows

theorem refl (g : Ghost A) : g.Grows g := ⟨_, _, _, _, rfl, List.Subset.refl _, List.Subset.refl _⟩

theorem trans (h : g.Grows g') (h' : g'.Grows g'') : g.Grows g'' := by
  obtain ⟨_, _, _, _, rfl, hdead, hbat⟩ := h
  obtain ⟨dead', batch', known', notes', rfl, hdead', hbat'⟩ := h'
  exact ⟨dead', batch', known', notes', rfl, List.Subset.trans hdead hdead', List.Subset.trans hbat hbat'⟩

theorem noted (g : Ghost A) (notes : Notes) : g.Grows { g with notes } :=
  ⟨_, _, _, _, rfl, List.Subset.refl _, List.Subset.refl _⟩

theorem dead_subset (h : g.Grows g') : g.dead ⊆ g'.dead := by
  obtain ⟨dead, _, _, _, rfl, hdead, -⟩ := h
  exact hdead

end Ghost.Grows

theorem follows_isLive (replica : ReplicaLease A) (g : Ghost A) :
    Follows (isLive replica) g fun live g' =>
      g.Grows g' ∧ (live = false → replica.reservation ∈ g'.dead) := by
  refine .of_bind_ret (.read fun w => ?_)
  cases hlive : w.pool.isLive replica.reservation with
  | true => exact ⟨g, .same, .ret ⟨.refl g, by simp⟩⟩
  | false =>
    exact ⟨_, .seeDead replica.reservation hlive, .ret
      ⟨⟨_, _, _, _, rfl, List.subset_cons_self _ _, List.Subset.refl _⟩, by simp⟩⟩

theorem follows_countLive (g : Ghost A) : Follows (countLive replicas) g fun count g' =>
      g.Grows g' ∧ (count = 0 → ∀ replica ∈ replicas, replica.reservation ∈ g'.dead) := by
  induction replicas generalizing g with
  | nil => exact .ret ⟨.refl g, by simp⟩
  | cons replica rest ih =>
    apply seq (follows_isLive replica g)
    rintro _ g₁ ⟨hmore, hdead⟩
    apply seq (ih g₁)
    rintro count _ ⟨hmore', hrest⟩
    refine .ret ⟨hmore.trans hmore', fun hcnt => ?_⟩
    obtain ⟨hlive, hzero⟩ := Nat.add_eq_zero_iff.mp hcnt
    rintro r (_ | ⟨_, hr⟩)
    · exact hmore'.dead_subset (hdead (by simpa using hlive))
    · exact hrest hzero r hr

theorem follows_partitionLive (g : Ghost A) : Follows (partitionLive replicas) g fun parts g' =>
      g.Grows g' ∧ parts.1.Sublist replicas ∧ (∀ replica ∈ parts.2, replica.reservation ∈ g'.dead) ∧
        ∀ replica ∈ replicas, replica ∈ parts.1 ∨ replica.reservation ∈ g'.dead := by
  induction replicas generalizing g with
  | nil => exact .ret ⟨.refl g, List.Sublist.refl [], by simp, by simp⟩
  | cons replica rest ih =>
    apply seq (follows_isLive replica g)
    rintro live g₁ ⟨hmore, hdead⟩
    apply seq (ih g₁)
    rintro parts _ ⟨hmore', hsub, hstl, hpts⟩
    refine .ret ⟨hmore.trans hmore', ?_⟩
    cases live with
    | true =>
      refine ⟨hsub.cons_cons replica, hstl, ?_⟩
      rintro r (_ | ⟨_, hr⟩)
      · exact .inl List.mem_cons_self
      · exact (hpts r hr).imp_left (List.mem_cons_of_mem _)
    | false =>
      have hgone := hmore'.dead_subset (hdead rfl)
      refine ⟨hsub.cons replica, ?_, ?_⟩
      · rintro r (_ | ⟨_, hr⟩)
        · exact hgone
        · exact hstl r hr
      · rintro r (_ | ⟨_, hr⟩)
        · exact .inr hgone
        · exact hpts r hr

theorem quiet_dropReservations (reservations : List (Reservation A)) :
    Quiet (dropReservations reservations) := by
  intro g
  refine zoom (.foldOver (fun _ _ g' => g' = g) rfl ?_)
  rintro _ _ _ g' rfl
  refine .of_bind_ret (.await fun p b p' hdrop => ?_)
  obtain ⟨_, hdrop, heq⟩ := Option.map_eq_some_iff.mp hdrop
  cases heq
  refine ⟨g', ?_, .ret rfl⟩
  rintro _ rfl
  exact .frame (fun k hk => (SegmentPool.isLive_dropReservation hdrop k).symm.trans hk) fun _ h => h

/-! ### Locks -/

theorem follows_lock (hmay : g.MayLock s) :
    Follows (lock s) (g.on .none) fun _ g' => g' = g.on (.locked s) := by
  refine .of_bind_ret (.await fun w _ w' hlock => ?_)
  simp only [lockSlot, Option.ite_none_right_eq_some, Option.some.injEq, Prod.mk.injEq] at hlock
  obtain ⟨⟨hcnt, hunl⟩, -, rfl⟩ := hlock
  exact ⟨_, (Move.lock (g := g.on .none) hmay rfl hcnt hunl).to (w.view_modifySlot rfl), .ret rfl⟩

theorem follows_unlock (g : Ghost A) (hlock : f.lock = some s)
    (hmay : f.mayUnlock = true) : Follows (unlock s) (g.on f) fun _ g' => g' = g.on f.unlocked :=
  .of_bind_ret (.modify fun w =>
    ⟨_, (Move.unlock hlock hmay).to (w.view_modifySlot rfl), .ret rfl⟩)

variable {k : Unit → CatalogM A α}

theorem Follows.lock_andThen {post : α → Ghost A → Prop} (hmay : g.MayLock s)
    (hk : Follows (k ()) (g.on (.locked s)) post) :
    Follows ((lock s).bind k) (g.on .none) post := by
  refine (follows_lock hmay).andThen fun _ => ?_
  exact hk

theorem Follows.unlock_andThen {post : α → Ghost A → Prop} {f : Focus A} (hlock : f.lock = some s)
    (hmay : f.mayUnlock = true) (hk : Follows (k ()) (g.on f.unlocked) post) :
    Follows ((unlock s).bind k) (g.on f) post := by
  refine (follows_unlock g hlock hmay).andThen fun _ => ?_
  exact hk

theorem Ghost.mayLock_of_kind {kind : CallKind} (hkind : g.kind = kind)
    (hhome : kind.home = none ∨ kind.home = some s) : g.MayLock s := by
  rintro home hg
  rw [hkind] at hg
  rcases hhome with hhome | hhome <;> rw [hhome] at hg <;> cases hg
  rfl

theorem follows_enqueueEmpty (cfg : CatalogConfig) (now : CatalogTick) (g : Ghost A) :
    Follows (enqueueEmpty cfg s now) (g.owing (s :: g.owes)) fun _ g' => g' = g := by
  refine .of_bind_ret (.modify fun w => ⟨_, .enqueueEmpty
    ⟨(w.slots s).identity, s, Word.satAdd 64 now cfg.emptySlotGraceTicks⟩ rfl
    List.mem_cons_self, ?_⟩)
  simp [Ghost.owing, ret_iff]

/-- Moves nothing and learns nothing. -/
theorem Follows.read_andThen {α β : Type} {f : World A → β} {k : β → CatalogM A α}
    {post : α → Ghost A → Prop} (hk : ∀ b, Follows (k b) g post) :
    Follows ((read f).bind k) g post :=
  (Quiet.read f).andThen hk

theorem Follows.crash {post : α → Ghost A → Prop} : Follows (crash : CatalogM A α) g post :=
  .of_bind_ret (.await (by simp))

end Cakemaster.Object
