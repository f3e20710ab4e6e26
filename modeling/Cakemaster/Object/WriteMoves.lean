import Cakemaster.Object.Following

/-!
# The moves of write transactions
-/

namespace Cakemaster.Object

open Machine Machine.Prog Segment Tenant Follows Ghost World Conforms Multiset Option

variable {A : UnitAllocator} {g : Ghost A} {v : VersionRef} {active : ActiveTransaction}
  {transaction : WriteTransaction} {s : SlotRef}
variable (cfg : CatalogConfig) (w : World A) (identity : ObjectIdentity)
  (admission : WriteAdmission)

/-! ### begin_write -/

namespace World

theorem lookupSlot_insertSlot (other : ObjectIdentity) (owner : WriteOwner)
    (pins : ResolvedObjectPinRequest) :
    (w.insertSlot identity owner pins).lookupSlot other =
      if other = identity then some w.slotCount else w.lookupSlot other := by
  by_cases h : other = identity
  · subst h
    simp [lookupSlot, insertSlot]
  · simp [lookupSlot, insertSlot, h, AList.lookup_insert_ne h]

theorem view_insertSlot (owner : WriteOwner) (pins : ResolvedObjectPinRequest) :
    (w.insertSlot identity owner pins).view = { w.view with
        slots := Function.update w.view.slots w.slotCount
          ⟨identity, none, some ⟨1, owner, none, pins, .claimed⟩, false, 2, 1, 0⟩
        slotCount := w.slotCount + 1
        lookup := Function.update w.view.lookup identity (some w.slotCount)
        begun := w.view.begun ++ [(w.slotCount, 1)] } := by
  have hslots : (fun r => ((w.insertSlot identity owner pins).slots r).view) =
      Function.update w.view.slots w.slotCount
        ⟨identity, none, some ⟨1, owner, none, pins, .claimed⟩, false, 2, 1, 0⟩ := by
    funext r
    by_cases h : r = w.slotCount
    · subst h
      simp [insertSlot, ObjectSlot.view]
    · simp [insertSlot, h, view]
  have hlook : (w.insertSlot identity owner pins).lookupSlot =
      Function.update w.view.lookup identity (some w.slotCount) := by
    funext other
    rw [lookupSlot_insertSlot, Function.update_apply]
    rfl
  simp only [view, hslots, hlook]
  rfl

theorem view_claimSlot (s : SlotRef) (owner : WriteOwner) (base : Option VersionRef)
    (pins : ResolvedObjectPinRequest) :
    (w.claimSlot s owner base pins).view = { w.view.setSlot s fun x => { x with
          nextTransactionId := x.nextTransactionId + 1
          active := some ⟨x.nextTransactionId, owner, base, pins, .claimed⟩ } with
        begun := w.view.begun ++ [(s, (w.view.slots s).nextTransactionId)] } := by
  rw [← w.view_modifySlot (f := fun x => { x with
    nextTransactionId := x.nextTransactionId + 1
    active := some ⟨x.nextTransactionId, owner, base, pins, .claimed⟩ }) rfl]
  rfl

theorem view_countSlot (s : SlotRef) :
    (w.countSlot s).view = { w.view.setSlot s fun x => { x with counted := x.counted + 1 } with
      counter := w.view.counter.add 1 } := by
  rw [← w.view_modifySlot (f := fun x => { x with counted := x.counted + 1 }) rfl]
  rfl

theorem view_abandon (s : SlotRef) (v : VersionRef) (now : CatalogTick) :
    (w.abandon s v now).view = { (w.view.setActive s none).setStanding v (.left now) with
      resolved := w.view.resolved ++ [⟨s, w.view.activeId s, v, none⟩] } := by
  rw [← w.view_setActive, ← view_setStanding]
  rfl

end World

def ClaimPost (g : Ghost A) (result : Except BeginError WriteClaim) (g' : Ghost A) : Prop :=
  match result with
  | .ok claim => g' = { g.on .none with claimed := some (claim.slot, claim.id) }
  | .error _ => g' = g.on .none

theorem follows_claimLocked (s : SlotRef) (admission : WriteAdmission) (mode : WriteMode)
    (pins : ResolvedObjectPinRequest) (now : CatalogTick) (g : Ghost A) :
    Follows (claimLocked s admission mode pins now) (g.on (.kept s)) (ClaimPost g) := by
  refine .read fun w => ?_
  cases hactv : (w.slots s).active with
  | some active =>
    refine ⟨_, .same, .ite (fun _ => ?_) fun hnone => absurd rfl hnone⟩
    exact unlock_andThen rfl rfl (.ret rfl)
  | none =>
    refine ⟨_, .free rfl hactv, .ite (fun hsome => by simp at hsome) fun _ => ?_⟩
    refine .read fun w' => ⟨_, .base rfl, .ite (fun _ => ?_) fun _ =>
      .ite (fun _ => crash) fun _ => ?_⟩
    · exact unlock_andThen (g := g) (f := .based s _ _) rfl rfl (.ret rfl)
    refine .modify fun w'' =>
      ⟨_, (Move.claim admission.owner pins rfl).to (w''.view_claimSlot ..), ?_⟩
    refine (quiet_lifecycle _).andThen fun _ => ?_
    exact .unlock_andThen (g := { g with claimed := _ }) (f := .locked s) rfl rfl (.ret rfl)

theorem follows_beginRound (mode : WriteMode)
    (pins : ResolvedObjectPinRequest) (now : CatalogTick) (hhome : g.kind.home = none)
    (hcntd : g.uncounted = none) :
    Follows (beginRound identity admission mode pins now) (g.on .none)
      (LoopPost (fun _ g' => g' = g.on .none) (ClaimPost g)) := by
  have hmay : ∀ s, g.MayLock s := fun s => g.mayLock_of_kind rfl (.inl hhome)
  refine .update fun w => ?_
  unfold findOrInsert
  split
  case h_1 s hlook =>
    refine ⟨_, .same, lock_andThen (hmay s) (.read fun w => ?_)⟩
    cases hidx : w.indexed s with
    | true =>
      refine ⟨_, .keep rfl hidx, ?_⟩
      apply seq (follows_claimLocked s admission mode pins now g)
      intro result g' hpost
      exact .ret hpost
    | false =>
      exact ⟨_, .same, unlock_andThen rfl rfl (.ret rfl)⟩
  case h_2 hnone =>
    refine ⟨_, (Move.insert (g := g.on .none) admission.owner pins hhome hnone hcntd).to
      (w.view_insertSlot identity admission.owner pins), ?_⟩
    refine .modify fun w' => ⟨_, (Move.count (g := { g.on .none with
      claimed := some (w.slotCount, 1), uncounted := some (w.slotCount, true) }) hhome rfl).to
        (w'.view_countSlot _), ?_⟩
    refine (quiet_lifecycle _).andThen fun _ => .ret ?_
    simp [LoopPost, ClaimPost, on, hcntd]

theorem follows_beginWrite (mode : WriteMode) (pins : ObjectPinRequest) (now : CatalogTick)
    (hhome : g.kind.home = none) (hcntd : g.uncounted = none) :
    Follows (beginWrite cfg identity admission mode pins now) (g.on .none) (ClaimPost g) := by
  unfold beginWrite
  split
  · exact .ret rfl
  apply Conforms.ite
  · exact fun _ => .ret rfl
  intro _
  apply read_andThen
  intro retired
  apply Conforms.ite
  · exact fun _ => .ret rfl
  intro _
  refine .iterate_ret (fun _ g' => g' = g.on .none) rfl ?_
  rintro _ g' rfl
  exact follows_beginRound identity admission mode _ now hhome hcntd

/-! ### Dropping a claim, aborting -/

/-- The slot that the call has cleared has a committed version after all. -/
theorem follows_hasCommitted (s : SlotRef) (g : Ghost A) :
    Follows (hasCommitted s) (g.owing (s :: g.owes)) fun published g' =>
      g' = if published then g else g.owing (s :: g.owes) := by
  refine .of_bind_ret (.read fun w => ?_)
  cases hcomm : w.committed s with
  | none => exact ⟨_, .same, .ret rfl⟩
  | some v =>
    have hne : w.view.committed s ≠ none := fun h => by
      rw [show w.view.committed s = some v from hcomm] at h
      cases h
    refine ⟨_, .settle hne, .ret ?_⟩
    simp [owing]

theorem follows_enqueueUnless (s : SlotRef) (now : CatalogTick) (published : Bool) (g : Ghost A) :
    Follows (guarded (!published) (enqueueEmpty cfg s now))
      (if published then g else g.owing (s :: g.owes)) fun _ g' => g' = g := by
  cases published with
  | true => exact .ret rfl
  | false => exact follows_enqueueEmpty cfg now g

theorem follows_dropClaim (hmay : g.MayLock claim.slot) (hcln : g.Clean) :
    Follows (dropClaim cfg claim) (g.on .none) fun _ g' => g' = g.on .none := by
  refine (quiet_upgradeSlot _).andThen fun upgraded => .ite (fun _ => ?_) fun _ => .ret rfl
  refine lock_andThen hmay (.read fun w => ?_)
  cases hactv : w.active claim.slot with
  | none => exact ⟨_, .same, follows_unlock g rfl rfl⟩
  | some active =>
    refine ⟨_, .meet rfl hactv, .ite (fun _ => follows_unlock g rfl rfl) fun hmat => ?_⟩
    have hph : active.phase = .claimed := by
      simp only [not_or, not_not] at hmat
      exact hmat.2
    refine (quiet_baseIsInvalid _).andThen fun invalid => .modify fun w =>
      ⟨_, (Move.unclaim (g := g.on (.busy claim.slot active)) rfl hph hcln).to (w.view_setActive _ none), ?_⟩
    refine (quiet_lifecycle _).andThen fun _ => ?_
    refine (follows_hasCommitted claim.slot (g.on (.locked claim.slot))).andThen fun published => ?_
    have hon : ∀ f : Focus A, (if published then g.on f else
        (g.on f).owing (claim.slot :: (g.on f).owes)) =
        (if published then g else g.owing (claim.slot :: g.owes)).on f := by
      intro f
      cases published <;> rfl
    rw [hon]
    refine unlock_andThen (f := .locked claim.slot) rfl rfl ?_
    rw [← hon]
    refine (follows_enqueueUnless cfg claim.slot claim.startedAt published _).andThen fun _ => ?_
    exact Quiet.guarded quiet_requestLiveness _

theorem follows_retire (v : VersionRef) (bytes : ℕ) (reclaimAfter : CatalogTick) (g : Ghost A) :
    Follows (modify (retire v bytes reclaimAfter)) (g.on (.leaving v reclaimAfter))
      fun _ g' => g' = g.on .none :=
  .of_bind_ret (.modify fun _ =>
    ⟨_, .retire ⟨v, bytes, reclaimAfter⟩ rfl, .ret rfl⟩)

theorem follows_retireAbortedPending (v : VersionRef) (now : CatalogTick) (g : Ghost A) :
    Follows (retireAbortedPending v now) (g.on (.leaving v now)) fun _ g' => g' = g.on .none := by
  refine .read_andThen fun bytes => .read_andThen fun memory => ?_
  exact (quiet_abortAccounting v).andThen fun _ => (quiet_lifecycle _).andThen fun _ =>
    follows_retire v bytes now g

theorem follows_abortStaged (now : CatalogTick) (hph : active.phase = .staged v) (hcln : g.Clean) :
    Follows (abortStaged cfg s v active.base now) (g.on (.busy s active)) fun _ g' =>
      g' = ((g.resolve s active.id v).on .none).knowing (⟨s, active.id, v, none⟩ :: g.known) := by
  let g₁ : Ghost A := (g.resolve s active.id v).knowing (⟨s, active.id, v, none⟩ :: g.known)
  refine (quiet_baseIsInvalid _).andThen fun invalid => .modify fun w =>
    ⟨_, (Move.abandon (g := g.on (.busy s active)) now rfl hph hcln).to (w.view_abandon s v now), ?_⟩
  refine (follows_hasCommitted s (g₁.on (.closing s v now))).andThen fun published => ?_
  have hon : ∀ f : Focus A, (if published then g₁.on f else (g₁.on f).owing (s :: (g₁.on f).owes)) =
      (if published then g₁ else g₁.owing (s :: g₁.owes)).on f := by
    intro f
    cases published <;> rfl
  rw [hon]
  refine unlock_andThen (f := .closing s v now) rfl rfl ?_
  refine (follows_retireAbortedPending v now _).andThen fun _ => ?_
  rw [← hon]
  refine (follows_enqueueUnless cfg s now published _).andThen fun _ => ?_
  exact Quiet.guarded quiet_requestLiveness _

/-- The slot is not staged with the version: an upgrade that fails shows it. -/
theorem follows_upgradeSlot_resolve (s : SlotRef) (id : TransactionId) (v : VersionRef)
    (g : Ghost A) :
    Follows (upgradeSlot s) (g.on .none) fun upgraded g' =>
      g' = if upgraded then g.on .none else (g.resolve s id v).on .none := by
  refine .pick fun alive => .of_bind_ret (.read fun w => ?_)
  cases hup : w.indexed s || alive with
  | true => exact ⟨_, .same, .ret rfl⟩
  | false =>
    have hidx : w.view.indexed s = false := (Bool.or_eq_false_iff.mp hup).1
    exact ⟨_, .resolve s id v (.inr (.inr (.inl hidx))), .ret rfl⟩

theorem View.not_stagedAt_of_none {u : View A} {id : TransactionId} (h : u.active s = none) :
    ¬u.StagedAt s id v := by
  rintro ⟨_, ha, -⟩
  rw [h] at ha
  cases ha

theorem View.not_stagedAt_of_ne {u : View A} {id : TransactionId} (h : u.active s = some active)
    (hne : ¬(active.id = id ∧ active.phase = .staged v)) : ¬u.StagedAt s id v := by
  rintro ⟨_, ha, hid⟩
  rw [h] at ha
  cases ha
  exact hne hid

/-- How an abort ends: the call is done with the transaction, and knows what became of it
if it has aborted it itself. -/
def AbortPost (transaction : WriteTransaction) (g : Ghost A) (result : Except AbortError Unit)
    (g' : Ghost A) : Prop :=
  ∃ known, g' = ((g.resolve transaction.slot transaction.id transaction.pending).on .none).knowing known ∧
    (result = .ok () → ⟨transaction.slot, transaction.id, transaction.pending, none⟩ ∈ known)

theorem AbortPost.same : AbortPost transaction g (.error err)
      ((g.resolve transaction.slot transaction.id transaction.pending).on .none) :=
  ⟨g.known, rfl, nofun⟩

theorem follows_abort (transaction : WriteTransaction) (now : CatalogTick)
    (hmay : g.MayLock transaction.slot) (hcln : g.Clean)
    (hcat : transaction.catalog = cfg.catalogId) :
    Follows (abort cfg transaction now) (g.on .none) (AbortPost transaction g) := by
  simp only [abort, hcat, ne_eq, not_true_eq_false, if_false]
  apply seq (follows_upgradeSlot_resolve transaction.slot transaction.id transaction.pending g)
  intro upgraded g' hg'
  cases upgraded with
  | false =>
    subst hg'
    exact .ret .same
  | true =>
    subst hg'
    refine lock_andThen hmay (.read fun w => ?_)
    cases hactv : w.active transaction.slot with
    | none =>
      refine ⟨_, .resolve transaction.slot transaction.id transaction.pending
        (.inr (.inr (.inr (View.not_stagedAt_of_none hactv)))), ?_⟩
      exact read_andThen fun committed => .unlock_andThen
        (g := g.resolve _ _ _) (f := .locked transaction.slot) rfl rfl (.ret .same)
    | some active =>
      by_cases hmat : active.id = transaction.id ∧ active.phase = .staged transaction.pending
      · refine ⟨_, .meet rfl hactv, ?_⟩
        simp only [hmat, and_self, if_true]
        refine (follows_abortStaged cfg now hmat.2 hcln).andThen fun _ => ?_
        rw [hmat.1]
        exact .ret ⟨_, rfl, fun _ => List.mem_cons_self⟩
      · refine ⟨_, .resolve transaction.slot transaction.id transaction.pending
          (.inr (.inr (.inr (View.not_stagedAt_of_ne hactv hmat)))), ?_⟩
        simp only [hmat, if_false]
        exact unlock_andThen (g := g.resolve _ _ _) (f := .locked transaction.slot) rfl rfl (.ret .same)

theorem follows_abort_foreign (now : CatalogTick) (g : Ghost A)
    (hcat : transaction.catalog ≠ cfg.catalogId) :
    Follows (abort cfg transaction now) g fun result g' => g' = g ∧ result ≠ .ok () := by
  simp only [abort, hcat, ne_eq, not_false_eq_true, if_true]
  exact .ret ⟨rfl, nofun⟩

/-! ### stage -/

theorem quiet_isActive : Quiet (isActive (A := A) admission) := by
  cases admission with
  | unmanaged client => exact .ret true
  | guarded session => exact .read _

theorem quiet_validateReplicas (requiredBytes : ℕ) (replicas : ReplicaSet A)
    (undersized : Option (ReplicaId × ℕ)) :
    Quiet (validateReplicas requiredBytes replicas undersized) := by
  induction replicas generalizing undersized with
  | nil => cases undersized <;> exact .ret _
  | cons replica rest ih => exact .bind (quiet_isLive replica) fun _ => .ite (ih _) (.ret _)

theorem quiet_validateStageReplicas (replicas : ReplicaSet A) (requiredBytes : ℕ) :
    Quiet (validateStageReplicas replicas requiredBytes) :=
  .ite (.ret _) (quiet_validateReplicas requiredBytes replicas none)

theorem quiet_dropGuard (reservation : Option QuotaReservationGuard) :
    Quiet (dropGuard (A := A) reservation) := by
  cases reservation with
  | none => exact .ret ()
  | some reservation => exact quiet_account _ _

theorem follows_dropStageInputs (replicas : ReplicaSet A)
    (accounting : Option QuotaReservationGuard) (hmay : g.MayLock claim.slot) (hcln : g.Clean) :
    Follows (dropStageInputs cfg claim replicas accounting) (g.on .none) fun _ g' =>
    g' = g.on .none :=
  (quiet_dropGuard accounting).andThen fun _ => (quiet_dropReservations _).andThen fun _ =>
    follows_dropClaim cfg hmay hcln

theorem follows_dropVersion (id : TransactionId) (v : VersionRef) (o : WriteOwner) (g : Ghost A) :
    Follows (dropVersion v) (g.during (.fresh id v o)) fun _ g' =>
      g' = g.during (.done v .lost) := by
  refine (quiet_releaseAccounting v).andThen fun _ => .update fun w =>
    ⟨_, (Move.discard rfl).to (w.view_modifyVersion rfl), ?_⟩
  exact quiet_dropReservations _ _

theorem World.view_leaveStageGate (v : VersionRef) :
    (w.leaveStageGate v).view = { w.view with stageReaders := w.view.stageReaders.erase v } := by
  simp [leaveStageGate, view]
  rfl

/-- The session of an admission is active when its last check passes. -/
theorem sessions_of_checkAdmission {w : World A} {admission : WriteAdmission}
    (hpassed : (w.checkAdmission admission v).1 = true) (session : ClientSession)
    (hownr : admission.owner = .forSession session) : w.activeSessions session = true := by
  cases admission with
  | unmanaged client =>
    have hzero : 0 = session.generation := congrArg WriteOwner.sessionGeneration hownr
    exact absurd hzero.symm session.generation_pos.ne'
  | guarded guard =>
    cases forSession_injective hownr
    exact hpassed

/-- The ghost of a stage call between two critical sections. -/
abbrev Ghost.staging (claim : WriteClaim) (making : Making) : Ghost A :=
  (Ghost.start (.staging claim.slot)).during making

theorem Ghost.mayLock_staging (claim : WriteClaim) (making : Making) :
    (staging (A := A) claim making).MayLock claim.slot := mayLock_of_kind rfl (.inr rfl)

/-- How a stage call ends: what became of its version, if it made one. -/
def StagePost (claim : WriteClaim) (result : Except StageError WriteTransaction)
    (g' : Ghost A) : Prop :=
  ∃ making known, g' = (Ghost.staging claim making).knowing known ∧
    match making with
    | .none => ∃ err, result = .error err
    | .done v .passed => ∃ transaction, result = .ok transaction ∧ transaction.pending = v
    | .done _ .lost => result = .error .claimLost
    | .done _ .refused => result = .error .ownerInactive
    | _ => False

theorem follows_loseStage (claim : WriteClaim) (v : VersionRef) (o : WriteOwner)
    {f : Focus A} (hlock : f.lock = some claim.slot) (hmay : f.mayUnlock = true)
    (hnone : f.unlocked = .none) :
    Follows (loseStage cfg claim v) ((staging claim (.gated claim.id v o)).on f)
    (StagePost claim) := by
  refine .unlock_andThen hlock hmay (.modify fun w =>
    ⟨_, (Move.backOut (g := (staging claim (.gated claim.id v o)).on f.unlocked) rfl).to
      (w.view_leaveStageGate v), ?_⟩)
  rw [hnone]
  refine (follows_dropVersion claim.id v o (staging claim .none)).andThen fun _ => ?_
  refine (follows_dropClaim cfg (mayLock_staging claim (.done v .lost)) ⟨rfl, rfl⟩).andThen
    fun _ => ?_
  exact .ret ⟨_, [], rfl, rfl⟩

theorem follows_finishStage (claim : WriteClaim) (v : VersionRef) :
    Follows (finishStage (A := A) cfg claim v)
    (staging claim (.unqueued claim.slot claim.id v claim.admission.owner)) (StagePost claim) := by
  refine .modify fun w => ⟨_, .enqueue (c := ⟨claim.slot, v, claim.id, _⟩) rfl, ?_⟩
  refine .modify fun w => ⟨_, (Move.leaveGate rfl).to (w.view_leaveStageGate v), ?_⟩
  refine .update fun w => ?_
  cases hpassed : (w.checkAdmission claim.admission v).1 with
  | true =>
    refine ⟨_, (Move.pass rfl (sessions_of_checkAdmission hpassed)).to
      (w.view_modifyVersion ?_), .ret ⟨.done v .passed, [], rfl, _, rfl, rfl⟩⟩
    simp only [checkAdmission] at hpassed
    simp [hpassed, ObjectVersion.view, ObjectVersion.access]
  | false =>
    refine ⟨_, (Move.refuse rfl).to (w.view_modifyVersion ?_), ?_⟩
    · simp only [checkAdmission] at hpassed
      simp [hpassed, ObjectVersion.view, ObjectVersion.access]
    apply seq (follows_abort cfg ⟨cfg.catalogId, claim.slot, v, claim.id⟩ claim.startedAt
      (mayLock_staging claim (.refused claim.slot claim.id v)) ⟨rfl, rfl⟩ rfl)
    rintro _ _ ⟨known, rfl, -⟩
    refine .ret ⟨.done v .refused, known, ?_, rfl⟩
    simp [resolve, on, during, start, knowing]

theorem follows_stageVersion (claim : WriteClaim) (v : VersionRef) :
    Follows (stageVersion (A := A) cfg claim v)
    (staging claim (.fresh claim.id v claim.admission.owner)) (StagePost claim) := by
  refine .read_andThen fun reservedBytes => .await fun w _ w' henter => ?_
  simp only [enterStageGate, ite_none_left_eq_some, some.injEq, Prod.mk.injEq] at henter
  obtain ⟨hwr, -, rfl⟩ := henter
  refine ⟨_, .enterGate rfl (Bool.not_eq_true _ ▸ hwr), ?_⟩
  refine lock_andThen (mayLock_staging claim (.gated claim.id v claim.admission.owner))
    (.read fun w => ?_)
  cases hactv : w.active claim.slot with
  | none => exact ⟨_, .same, follows_loseStage cfg claim v _ rfl rfl rfl⟩
  | some active =>
    refine ⟨_, .meet rfl hactv, .ite (fun _ => follows_loseStage cfg claim v _ rfl rfl rfl) ?_⟩
    intro hmat
    obtain ⟨hid, hownr, hph⟩ : active.id = claim.id ∧ active.owner = claim.admission.owner ∧
      active.phase = .claimed := by simpa [not_or] using hmat
    rw [← hid]
    refine .modify fun w => ⟨_, (Move.stage rfl rfl hph hownr).to ?_, ?_⟩
    · rw [stageSlot, view_setStanding, view_setActive]
    refine (quiet_lifecycle _).andThen fun _ => .unlock_andThen
      (g := staging claim (.unqueued claim.slot active.id v claim.admission.owner))
      (f := .locked claim.slot) rfl rfl ?_
    rw [hid]
    exact follows_finishStage cfg claim v

theorem World.view_newVersion (version : ObjectVersion A) :
    (w.newVersion version).2.view = { w.view with
      versions := Function.update w.view.versions w.versionCount version.view
      versionCount := w.versionCount + 1 } := by
  have hvers : (fun r => ((w.newVersion version).2.versions r).view) =
      Function.update (fun r => (w.versions r).view) w.versionCount version.view := by
    funext r
    by_cases h : r = w.versionCount
    · subst h
      simp [newVersion]
    · simp [newVersion, h]
  simp only [view, hvers]
  rfl

theorem follows_stageInner (claim : WriteClaim) (content : ObjectContent)
    (replicas : ReplicaSet A) (accounting : Option QuotaReservationGuard) :
    Follows (stageInner cfg claim content replicas accounting) (start (.staging claim.slot))
      (StagePost claim) := by
  have hgiveUp : ∀ err : StageError, Follows ((dropStageInputs cfg claim replicas accounting).bind
      fun _ => ret (.error err : Except StageError WriteTransaction))
      (start (.staging claim.slot)) (StagePost claim) := by
    intro err
    refine (follows_dropStageInputs cfg replicas accounting
      (mayLock_staging claim .none) ⟨rfl, rfl⟩).andThen fun _ => ?_
    exact .ret ⟨.none, [], rfl, err, rfl⟩
  refine (quiet_isActive _).andThen fun isActive => .ite (fun _ => ?_) fun _ => hgiveUp _
  refine .ite (fun _ => hgiveUp _) fun _ => ?_
  refine (quiet_validateStageReplicas _ _).andThen fun validated => ?_
  cases validated with
  | error err => exact hgiveUp err
  | ok _ =>
    refine (quiet_upgradeSlot _).andThen fun upgraded => .ite (fun _ => ?_) fun _ => hgiveUp _
    refine .update fun w => ⟨_, (Move.make _ rfl rfl rfl rfl rfl rfl).to
      (w.view_newVersion (pendingVersion claim content replicas accounting)), ?_⟩
    exact follows_stageVersion cfg claim _

/-! ### commit -/

theorem follows_baseMatches (s : SlotRef) (hph : active.phase = .staged v) (g : Ghost A) :
    Follows (baseMatches s active.base) (g.on (.busy s active)) fun matching g' =>
      g' = if matching then g.on (.ready s active v)
        else ({ g with astray := true } : Ghost A).on (.busy s active) := by
  cases hbase : active.base with
  | none =>
    refine .read fun w => ?_
    cases hcomm : w.committed s with
    | none =>
      have heq : w.view.committed s = active.base := by rw [hbase]; exact hcomm
      exact ⟨_, .agree rfl hph heq, .ret rfl⟩
    | some old =>
      have hne : w.view.committed s ≠ active.base := fun h => by
        rw [hbase, show w.view.committed s = some old from hcomm] at h
        cases h
      exact ⟨_, .disagree rfl hne, .ret rfl⟩
  | some base =>
    refine .of_bind_ret (.read fun w => ?_)
    by_cases hcomm : w.committed s = some base
    · have heq : w.view.committed s = active.base := by rw [hbase]; exact hcomm
      exact ⟨_, .agree rfl hph heq, .ret (by simp [hcomm]; rfl)⟩
    · have hne : w.view.committed s ≠ active.base := by rw [hbase]; exact hcomm
      exact ⟨_, .disagree rfl hne, .ret (by simp [hcomm]; rfl)⟩

theorem World.view_pushCandidate (generation : Generation) (c : GcCandidate) :
    (w.pushCandidate generation c).view =
    { w.view with queued := c ::ₘ w.view.queued, hand := w.view.hand.erase c } := by
  have happend : ∀ l : List GcCandidate,
      ((l ++ [c] : List GcCandidate) : Multiset GcCandidate) = c ::ₘ (l : Multiset GcCandidate) := by
    intro l
    rw [← coe_add, add_comm]
    rfl
  cases generation with
  | young =>
    simp only [pushCandidate, setQueue, setHand, queue, view, happend, cons_add, ← coe_erase]
    rfl
  | protectedQueue =>
    simp only [pushCandidate, setQueue, setHand, queue, view, happend, add_cons, ← coe_erase]
    rfl

/-- The call has put down its candidate and is in no critical section. -/
abbrev Ghost.rest (g : Ghost A) : Ghost A := (g.holding none).on .none

theorem follows_pushCandidate (generation : Generation) (hhand : g.hand = some c) :
    Follows (modify (pushCandidate generation c)) g fun _ g' => g' = g.holding none :=
  .of_bind_ret (.modify fun w =>
    ⟨_, (Move.push hhand).to (w.view_pushCandidate generation c), .ret rfl⟩)

theorem World.view_publish (s : SlotRef) (v : VersionRef) (base : Option VersionRef) :
    (w.publish s v base).view =
    { ((w.view.setSlot s fun x => { x with committed := some v, active := none }).detach
          base).setStanding v (.published s) with
        hand := ⟨s, v⟩ ::ₘ w.view.hand
        resolved := w.view.resolved ++ [⟨s, w.view.activeId s, v, some (w.view.versions v).number⟩] } := by
  have hview : (((w.modifySlot s fun x => { x with committed := some v, active := none }).detach
      base).setStanding v (.published s)).view =
      ((w.view.setSlot s fun x => { x with committed := some v, active := none }).detach
        base).setStanding v (.published s) := by
    rw [view_setStanding, view_detach,
      w.view_modifySlot (h := fun x => { x with committed := some v, active := none }) rfl]
  rw [← hview]
  cases base <;> rfl

theorem quiet_softPinOf (base : Option VersionRef) : Quiet (softPinOf (A := A) base) := by
  cases base with
  | none => exact .ret 0
  | some base => exact .read _

theorem quiet_replacedBytes (base : Option VersionRef) : Quiet (replacedBytes (A := A) base) := by
  cases base with
  | none => exact .ret _
  | some old => exact .bind (.read _) fun _ => .bind (.read _) fun _ => .ret _

theorem quiet_addHandle (v : VersionRef) : Quiet (modify (addHandle (A := A) v)) :=
  .modify fun _ => rfl

theorem follows_retireReplaced (s : SlotRef) (base : Option VersionRef) (g : Ghost A) :
    Follows (retireReplaced base) (g.on (Focus.replacing s base).unlocked) fun _ g' =>
      g' = g.on .none := by
  cases base with
  | none => exact .ret rfl
  | some old =>
    refine (quiet_markAccountingRetiring old).andThen fun _ => .update fun w =>
      ⟨_, (Move.sampleReplaced rfl).to (w.view_setStanding old _), ?_⟩
    exact .of_bind_ret (.modify fun w' =>
      ⟨_, .retire ⟨old, (w'.versions old).reservedBytes, w.leaseUntil old⟩ rfl, .ret rfl⟩)

/-- How a commit ends: it knows of the resolution that a successful one reports, and one
that finds its transaction gone has seen that it is not staged or that its base changed. -/
def CommitPost (transaction : WriteTransaction) (g : Ghost A)
    (result : Except CommitError VersionRef) (g' : Ghost A) : Prop :=
  ∃ known missing astray, g' = { g.rest with known, missing, astray } ∧
    (∀ v, result = .ok v → ∃ number, ⟨transaction.slot, transaction.id, v, some number⟩ ∈ known) ∧
    (result = .error .transactionGone →
      missing = some (transaction.slot, transaction.id, transaction.pending) ∨ astray = true)

theorem CommitPost.error (hg' : ∃ known missing astray, g' = { g.rest with known, missing, astray })
    (herr : err ≠ .transactionGone) : CommitPost transaction g (.error err) g' := by
  obtain ⟨known, missing, astray, rfl⟩ := hg'
  refine ⟨known, missing, astray, rfl, nofun, fun h => absurd ?_ herr⟩
  cases h
  rfl

theorem CommitPost.gone (hg' : ∃ known missing astray, g' = { g.rest with known, missing, astray } ∧
      (missing = some (transaction.slot, transaction.id, transaction.pending) ∨ astray = true)) :
    CommitPost transaction g (.error .transactionGone) g' := by
  obtain ⟨known, missing, astray, rfl, h⟩ := hg'
  exact ⟨known, missing, astray, rfl, nofun, fun _ => h⟩

theorem follows_finishCommit (s : SlotRef) (v : VersionRef) (base : Option VersionRef)
    (g : Ghost A) :
    Follows (finishCommit s v base) ((g.holding (some ⟨s, v⟩)).on (Focus.replacing s base).unlocked)
      fun result g' => result = .ok v ∧ g' = g.rest := by
  refine (follows_pushCandidate .young rfl).andThen fun _ => ?_
  refine read_andThen fun deadline => Quiet.andThen (.guarded (.modify fun _ => rfl)) fun _ => ?_
  refine (follows_retireReplaced s base (g.holding none)).andThen fun _ => ?_
  exact (quiet_allLive v).andThen fun live => (Quiet.guarded quiet_requestLiveness).andThen fun _ =>
    (quiet_addHandle v).andThen fun _ => .ret ⟨rfl, rfl⟩

theorem follows_publishStaged (transaction : WriteTransaction) (v : VersionRef)
    (active : ActiveTransaction) (commit : ObjectCommit) (now : CatalogTick)
    (hkind : g.kind = .committing transaction.slot transaction.id)
    (hid : active.id = transaction.id) :
    Follows (publishStaged transaction.slot v active.base active.pins commit now)
      ((g.holding none).on (.ready transaction.slot active v)) (CommitPost transaction g) := by
  rw [← hid] at hkind
  refine .await fun w id w' halloc => ?_
  simp only [allocateVersionId, ite_none_left_eq_some, some.injEq, Prod.mk.injEq] at halloc
  obtain ⟨-, rfl, rfl⟩ := halloc
  refine ⟨_, (Move.number rfl).to (w.view_modifySlot rfl), ?_⟩
  refine (quiet_softPinOf _).andThen fun baseSoftPin => .read_andThen fun baseHardPinned => ?_
  refine .await fun w₁ _ w₁' hinit => ?_
  simp only [initializeCommit, ite_none_left_eq_some, some.injEq, Prod.mk.injEq] at hinit
  obtain ⟨hseal, -, rfl⟩ := hinit
  refine ⟨_, (Move.record (g := (g.holding none).on (.numbered transaction.slot active v _)) commit
    _ _ hkind rfl (Bool.not_eq_true _ ▸ hseal)).to (w₁.view_modifyVersion rfl), ?_⟩
  refine (quiet_commitAccounting v).andThen fun _ => .modify fun w =>
    ⟨_, (Move.publish (g := (g.holding none).on (.sealed transaction.slot active v)) hkind rfl
      rfl).to (w.view_publish transaction.slot v active.base), ?_⟩
  refine read_andThen fun bytes => (quiet_replacedBytes _).andThen fun replaced =>
    (quiet_lifecycle _).andThen fun _ => ?_
  let g₁ : Ghost A :=
    g.knowing (⟨transaction.slot, active.id, v, some (w.view.versions v).number⟩ :: g.known)
  refine .unlock_andThen (g := g₁.holding (some ⟨transaction.slot, v⟩))
    (f := .replacing transaction.slot active.base) rfl rfl
    ((follows_finishCommit transaction.slot v active.base g₁).mono ?_)
  rintro _ _ ⟨rfl, rfl⟩
  refine ⟨g₁.known, g.missing, g.astray, rfl, fun v' hv' => ⟨(w.view.versions v).number, ?_⟩, nofun⟩
  cases hv'
  rw [← hid]
  exact List.mem_cons_self

theorem follows_commitAgain (transaction : WriteTransaction) (commit : ObjectCommit)
    (hmis : g.missing = some (transaction.slot, transaction.id, transaction.pending)) :
    Follows (commitAgain transaction.slot transaction.id commit)
      ((g.holding none).on (.locked transaction.slot)) (CommitPost transaction g) := by
  refine .read fun w => ?_
  cases hcomm : w.committed transaction.slot with
  | none =>
    refine ⟨_, .same, unlock_andThen (f := .locked transaction.slot) rfl rfl (.ret ?_)⟩
    exact .gone ⟨g.known, g.missing, g.astray, rfl, .inl hmis⟩
  | some v =>
    refine ⟨_, .point rfl hcomm, .read fun w' => ⟨_, .learn rfl, ?_⟩⟩
    refine unlock_andThen (g := (g.holding none).knowing _) (f := .pointed transaction.slot v)
      rfl rfl ?_
    refine .ite (fun _ => .ret (.gone ⟨_, g.missing, g.astray, rfl, .inl hmis⟩))
      fun horigin => .ite (fun _ => ?_) fun _ =>
        .ret (.error ⟨_, g.missing, g.astray, rfl⟩ nofun)
    refine (quiet_addHandle v).andThen fun _ => .ret ⟨_, g.missing, g.astray, rfl,
      fun v' hv' => ⟨(w'.view.versions v).number, ?_⟩, nofun⟩
    cases hv'
    rw [← not_not.mp horigin]
    exact List.mem_cons_self

/-- A commit whose transaction is not the staged one of its slot. -/
theorem follows_commitActive_other (transaction : WriteTransaction) (commit : ObjectCommit)
    (now : CatalogTick)
    (hoth : ¬(active.id = transaction.id ∧ active.phase = .staged transaction.pending))
    (hmis : g.missing = some (transaction.slot, transaction.id, transaction.pending)) :
    Follows (commitActive transaction active commit now)
      ((g.holding none).on (.locked transaction.slot)) (CommitPost transaction g) := by
  have hgone : Follows ((unlock transaction.slot).bind fun _ =>
      ret (.error .transactionGone : Except CommitError VersionRef))
      ((g.holding none).on (.locked transaction.slot)) (CommitPost transaction g) :=
    .unlock_andThen rfl rfl (.ret (.gone ⟨g.known, g.missing, g.astray, rfl, .inl hmis⟩))
  refine .ite (fun _ => hgone) fun hid => ?_
  cases hph : active.phase with
  | claimed =>
    exact unlock_andThen rfl rfl (.ret (.error ⟨g.known, g.missing, g.astray, rfl⟩ nofun))
  | staged v =>
    refine .ite (fun _ => hgone) fun hv => absurd ⟨not_not.mp hid, ?_⟩ hoth
    rw [hph, not_not.mp hv]

theorem follows_commitActive (transaction : WriteTransaction) (commit : ObjectCommit)
    (now : CatalogTick) (hkind : g.kind = .committing transaction.slot transaction.id)
    (hid : active.id = transaction.id) (hph : active.phase = .staged transaction.pending) :
    Follows (commitActive transaction active commit now)
      ((g.holding none).on (.busy transaction.slot active)) (CommitPost transaction g) := by
  simp only [commitActive, hid, hph, ne_eq, not_true_eq_false, if_false]
  refine (quiet_allLive _).andThen fun live => .ite (fun _ => ?_) fun _ => ?_
  · apply seq (follows_baseMatches transaction.slot hph (g.holding none))
    intro matching g' hg'
    subst hg'
    cases matching with
    | true => exact follows_publishStaged transaction _ active commit now hkind hid
    | false =>
      refine unlock_andThen (g := { g.holding none with astray := true })
        (f := .busy transaction.slot active) rfl rfl (.ret ?_)
      exact .gone ⟨g.known, g.missing, true, rfl, .inr rfl⟩
  · exact unlock_andThen rfl rfl (.ret (.error ⟨g.known, g.missing, g.astray, rfl⟩ nofun))

theorem follows_upgradeSlot_miss (s : SlotRef) (id : TransactionId) (v : VersionRef) (g : Ghost A) :
    Follows (upgradeSlot s) g fun upgraded g' =>
      g' = if upgraded then g else { g with missing := some (s, id, v) } := by
  refine .pick fun alive => .of_bind_ret (.read fun w => ?_)
  cases hup : w.indexed s || alive with
  | true => exact ⟨_, .same, .ret rfl⟩
  | false =>
    have hidx : w.view.indexed s = false := (Bool.or_eq_false_iff.mp hup).1
    exact ⟨_, .miss s id v (.inl hidx), .ret rfl⟩

theorem follows_commit (transaction : WriteTransaction) (content : ObjectCommit)
    (now : CatalogTick) :
    Follows (commit (A := A) cfg transaction content now) (start (.committing transaction.slot transaction.id))
      (CommitPost transaction (start (.committing transaction.slot transaction.id))) := by
  let g : Ghost A := start (.committing transaction.slot transaction.id)
  let gm : Ghost A :=
    { g with missing := some (transaction.slot, transaction.id, transaction.pending) }
  have hmay : g.MayLock transaction.slot := mayLock_of_kind rfl (.inr rfl)
  refine .ite (fun _ => .ret (.error ⟨[], none, false, rfl⟩ nofun)) fun _ => ?_
  apply seq (follows_upgradeSlot_miss transaction.slot transaction.id transaction.pending g)
  intro upgraded g' hg'
  subst hg'
  cases upgraded with
  | false => exact .ret (.gone ⟨[], _, false, rfl, .inl rfl⟩)
  | true =>
    refine lock_andThen (g := g) hmay (.read fun w => ?_)
    cases hactv : w.active transaction.slot with
    | none =>
      refine ⟨gm.on (.locked transaction.slot),
        .miss transaction.slot _ _ (.inr (View.not_stagedAt_of_none hactv)), ?_⟩
      exact follows_commitAgain transaction content (g := gm) rfl
    | some active =>
      by_cases hmat : active.id = transaction.id ∧ active.phase = .staged transaction.pending
      · refine ⟨_, .meet rfl hactv, ?_⟩
        exact follows_commitActive transaction content now (g := g) rfl hmat.1 hmat.2
      · refine ⟨gm.on (.locked transaction.slot),
          .miss transaction.slot _ _ (.inr (View.not_stagedAt_of_ne hactv hmat)), ?_⟩
        exact follows_commitActive_other transaction content now (g := gm) hmat rfl

theorem follows_resolveWrite (hmay : ∀ s, g.MayLock s) :
    Follows (resolveWrite cfg identity) (g.on .none) fun _ g' => g' = g.on .none := by
  refine .read_andThen fun found => ?_
  cases found with
  | none => exact .ret rfl
  | some s =>
    refine .lock_andThen (hmay s) (.read_andThen fun active => ?_)
    cases active with
    | none =>
      refine .read_andThen fun committed => .unlock_andThen rfl rfl ?_
      cases committed <;> exact .ret rfl
    | some active =>
      refine .unlock_andThen rfl rfl ?_
      split <;> exact .ret rfl

end Cakemaster.Object
