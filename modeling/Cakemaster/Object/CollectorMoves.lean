import Cakemaster.Object.WriteMoves

/-!
# The moves of reads and of the collector
-/

namespace Cakemaster.Object

open Machine Machine.Prog Segment World Follows Conforms

variable {A : UnitAllocator} {g : Ghost A} {now : CatalogTick} {v : VersionRef} {s : SlotRef}
  {identity : ObjectIdentity} {c : GcCandidate} {f : Focus A} {pass : Pass A} {u : View A}
  {before : Reading A} {replicas : ReplicaSet A} {batch : List (VersionRef × Reservation A)}
variable (cfg : CatalogConfig) (w : World A) (dead : List (Reservation A)) (generation : Generation)
  (report : CollectReport)

/-! ### get -/

namespace World

variable (v : VersionRef)

theorem view_mark : (w.modifyAccess v fun a => { a with recent := true }).view =
      w.view.setVersion v fun x => { x with recent := x.sealed || x.recent } := by
  apply view_modifyVersion
  cases hcomm : (w.versions v).committed <;> simp [ObjectVersion.view, ObjectVersion.access, hcomm]

theorem view_unmark : (w.modifyAccess v fun a => { a with recent := false }).view =
      w.view.setVersion v fun x => { x with recent := false } := by
  apply view_modifyVersion
  cases hcomm : (w.versions v).committed <;> simp [ObjectVersion.view, ObjectVersion.access, hcomm]

theorem view_unpin : (w.modifyAccess v fun a => { a with softPinUntil := 0 }).view =
      w.view.setVersion v fun x => { x with softPin := 0 } := by
  apply view_modifyVersion
  cases hcomm : (w.versions v).committed <;> simp [ObjectVersion.view, ObjectVersion.access, hcomm]

theorem view_setLease (deadline : CatalogTick) : (w.setLease v deadline).view =
      w.view.setVersion v fun x => { x with lease := if x.sealed then deadline else x.lease } := by
  apply view_modifyVersion
  cases hcomm : (w.versions v).committed <;> simp [ObjectVersion.view, ObjectVersion.access, hcomm]

end World

theorem follows_swapLease (seen : CatalogTick) (hle : current ≤ desired) (g : Ghost A) :
    Follows (swapLease v current desired) (g.on (.granted v seen)) fun swapped g' =>
      g' = g.on (.granted v (match swapped with | .ok _ => desired | .error observed => observed)) := by
  refine .pick fun spurious => .ite (fun _ => ?_) fun _ => ?_
  · exact .read fun w => ⟨_, .sample (.inr ⟨seen, rfl⟩), .ret rfl⟩
  refine .of_bind_ret (.update fun w => ?_)
  by_cases hlease : w.leaseUntil v = current
  · rw [if_pos hlease]
    have hle' : (w.view.versions v).lease ≤ desired := hlease.trans_le hle
    exact ⟨_, (Move.raise rfl hle').to (w.view_setLease v desired), .ret rfl⟩
  · rw [if_neg hlease]
    exact ⟨_, .sample (.inr ⟨seen, rfl⟩), .ret rfl⟩

theorem follows_acquireLease (v : VersionRef) (now : CatalogTick) (g : Ghost A) :
    Follows (acquireLease cfg v now) (g.on (.saw v)) fun deadline g' =>
      g' = g.on (.granted v deadline) := by
  refine .read fun w => ⟨_, .sample (.inl rfl), ?_⟩
  refine .iterate_ret (fun current g' => g' = g.on (.granted v current)) rfl ?_
  rintro current g' rfl
  refine .ite (fun hlt => ?_) fun _ => .ret rfl
  have hle : current ≤ Word.satAdd 64 now cfg.leaseTtlTicks :=
    hlt.le.trans (Word.satAdd_le_satAdd now cfg.leaseRefresh_le)
  refine (follows_swapLease current hle g).andThen fun swapped => ?_
  cases swapped <;> exact .ret rfl

theorem follows_recordAccess (v : VersionRef) (now : CatalogTick) (g : Ghost A) :
    Follows (recordAccess cfg v now) (g.on (.saw v)) fun deadline g' =>
      g' = g.on (.noted v deadline) := by
  refine (follows_acquireLease cfg v now g).andThen fun deadline => ?_
  exact .modify fun w => ⟨_, (Move.mark rfl).to (w.view_mark v), .ret rfl⟩

def Ghost.reader (identity : ObjectIdentity) (focus : Focus A) (reading : Reading A)
    (dead : List (Reservation A)) : Ghost A :=
  { kind := .reading identity, focus, reading, dead }

def ReadPost (identity : ObjectIdentity) (result : Except LookupError ObjectRead) (g' : Ghost A) :
    Prop :=
  ∃ dead, g' = match result with
    | .ok found =>
      .reader identity (.returned found.object found.leaseExpiresAt) (.present found.object) dead
    | .error .notFound => .reader identity .none .absent dead
    | .error .notReady => .reader identity .none .notReady dead

/-- A look that a reader draws a conclusion from. -/
theorem Move.look (h : Observes u (Ghost.reader identity f before d) identity before after) :
    Move u (Ghost.reader identity f before d) u (Ghost.reader identity f after d) :=
  .observe f rfl h (.inl rfl)

theorem Move.lookFree {dead : List (Reservation A)}
    (h : Observes u (Ghost.reader identity (.noted v deadline) before dead) identity before after) :
    Move u (Ghost.reader identity (.noted v deadline) before dead) u
    (Ghost.reader identity .none after dead) :=
  .observe .none rfl h (.inr ⟨rfl, rfl, rfl⟩)

theorem follows_someLive (rest : ReplicaSet A) (dead : List (Reservation A))
    (hsub : rest ⊆ replicas) (hdead : ∀ r ∈ replicas, r ∈ rest ∨ r.reservation ∈ dead) :
    Follows (someLive rest) (.reader identity f (.listed s v replicas) dead) fun live g' =>
      ∃ dead', g' = .reader identity f (if live then .live s v else .listed s v replicas) dead' ∧
        (live = false → ∀ r ∈ replicas, r.reservation ∈ dead') := by
  induction rest generalizing dead with
  | nil => exact .ret ⟨dead, rfl, fun _ r hr => (hdead r hr).resolve_left List.not_mem_nil⟩
  | cons replica rest ih =>
    refine .read fun w => ?_
    cases hlive : w.pool.isLive replica.reservation with
    | true =>
      exact ⟨_, .look (.live (hsub List.mem_cons_self) hlive), .ret ⟨dead, rfl, nofun⟩⟩
    | false =>
      refine ⟨_, .seeDead replica.reservation hlive, ih (replica.reservation :: dead)
        (List.Subset.trans (List.subset_cons_self _ _) hsub) fun r hr => ?_⟩
      rcases hdead r hr with hmem | hmem
      · rcases List.mem_cons.mp hmem with rfl | hmem
        · exact .inr List.mem_cons_self
        · exact .inl hmem
      · exact .inr (List.mem_cons_of_mem _ hmem)

theorem follows_hasLive : Follows (hasLive v) (.reader identity f (.saw s v) dead) fun live g' =>
      ∃ replicas dead', g' = .reader identity f (if live then .live s v else .listed s v replicas)
        dead' ∧ (live = false → ∀ r ∈ replicas, r.reservation ∈ dead') := by
  refine .read fun w => ⟨_, .look .list, ?_⟩
  refine (follows_someLive _ dead (List.Subset.refl _) fun r hr => .inl hr).mono ?_
  rintro live g' ⟨dead', rfl, h⟩
  exact ⟨_, dead', rfl, h⟩

/-- Between two rounds of a read. -/
def ReadLoop (identity : ObjectIdentity) (s : SlotRef) (_ : Unit) (g' : Ghost A) : Prop :=
  ∃ dead, g' = .reader identity .none (.found s) dead

/-- The last look of a round that has not succeeded. -/
theorem follows_recheck (hbef : before = .missed s v ∨ before = .dead s v) :
    Follows (do if ← committedPointsTo s v then return .inr (.error .notFound) else return .inl ())
      (.reader identity (.noted v deadline) before dead)
      (LoopPost (ReadLoop identity s) (ReadPost identity)) := by
  refine .read fun w => ?_
  by_cases hptd : w.committed s = some v
  · refine ⟨_, .lookFree (.giveUp hbef hptd), ?_⟩
    simp only [hptd, decide_true, if_true]
    exact .ret ⟨dead, rfl⟩
  · refine ⟨_, .lookFree (.retry hbef), ?_⟩
    simp only [hptd, decide_false, Bool.false_eq_true, if_false]
    exact .ret ⟨dead, rfl⟩

theorem follows_readVersion (identity : ObjectIdentity) (s : SlotRef)
    (v : VersionRef) (now : CatalogTick) (dead : List (Reservation A)) :
    Follows (readVersion cfg s v now) (.reader identity (.saw v) (.saw s v) dead)
      (LoopPost (ReadLoop identity s) (ReadPost identity)) := by
  refine (follows_recordAccess cfg v now (.reader identity .none (.saw s v) dead)).andThen
    fun deadline => ?_
  apply seq (follows_hasLive (f := .noted v deadline) dead)
  rintro live _ ⟨_, dead', rfl, hdead⟩
  refine .read fun w => ?_
  cases live with
  | false =>
    refine ⟨_, .look (.dead (hdead rfl)), ?_⟩
    rw [if_neg (by simp)]
    exact follows_recheck dead' (.inr rfl)
  | true =>
    by_cases hptd : w.committed s = some v
    · refine ⟨_, .confirm rfl rfl rfl hptd, ?_⟩
      rw [if_pos (by simp [hptd])]
      exact (quiet_addHandle v).andThen fun _ => .ret ⟨dead', rfl⟩
    · refine ⟨_, .look (.lose hptd), ?_⟩
      rw [if_neg (by simp [hptd])]
      exact follows_recheck dead' (.inl rfl)

theorem follows_explainMissing (identity : ObjectIdentity) (s : SlotRef)
    (dead : List (Reservation A)) :
    Follows (explainMissing s) (.reader identity .none (.found s) dead)
      (LoopPost (ReadLoop identity s) (ReadPost identity)) := by
  refine .lock_andThen (g := .reader identity .none (.found s) dead)
    (Ghost.mayLock_of_kind rfl (.inl rfl)) (.read fun w => ?_)
  cases hcomm : w.committed s with
  | some v => exact ⟨_, .same, unlock_andThen rfl rfl (.ret ⟨dead, rfl⟩)⟩
  | none =>
    refine ⟨_, .hollow rfl hcomm, .read fun w' => ?_⟩
    cases hactv : w'.active s with
    | none =>
      refine ⟨_, Move.look (f := .hollow s) (.nothing rfl hactv), ?_⟩
      exact unlock_andThen (g := .reader identity .none .absent dead) (f := .hollow s) rfl rfl
        (.ret ⟨dead, rfl⟩)
    | some active =>
      have hne : w'.view.active s ≠ none := fun h => by
        rw [show w'.view.active s = some active from hactv] at h
        cases h
      refine ⟨_, Move.look (f := .hollow s) (.unready rfl hne), ?_⟩
      exact unlock_andThen (g := .reader identity .none .notReady dead) (f := .hollow s) rfl rfl
        (.ret ⟨dead, rfl⟩)

theorem follows_get (identity : ObjectIdentity) (now : CatalogTick) :
    Follows (A := A) (get cfg identity now) (Ghost.start (.reading identity)) (ReadPost identity) := by
  refine .read fun w => ?_
  cases hlook : w.lookupSlot identity with
  | none => exact ⟨_, Move.look (d := []) (.miss hlook), .ret ⟨[], rfl⟩⟩
  | some s =>
    refine ⟨_, Move.look (d := []) (.find hlook), ?_⟩
    refine .iterate_ret (ReadLoop identity s) ⟨[], rfl⟩ ?_
    rintro _ _ ⟨dead, rfl⟩
    refine .read fun w => ?_
    cases hcomm : w.committed s with
    | none => exact ⟨_, .same, follows_explainMissing identity s dead⟩
    | some v =>
      exact ⟨_, .see rfl rfl rfl hcomm, follows_readVersion cfg identity s v now dead⟩

/-! ### Removal -/

theorem follows_retirePublished (s : SlotRef) (v : VersionRef) (now : CatalogTick) (g : Ghost A) :
    Follows (retirePublished cfg s v now) ((g.owing (s :: g.owes)).on (.leaving v now))
      fun _ g' => g' = g.on .none := by
  refine .read_andThen fun bytes => .read_andThen fun memory =>
    (quiet_markAccountingRetiring v).andThen fun _ => (quiet_lifecycle _).andThen fun _ => ?_
  refine (follows_retire v bytes now (g.owing (s :: g.owes))).andThen fun _ => ?_
  exact follows_enqueueEmpty cfg now (g.on .none)

/-- The way back of a withdrawn version: the slot is not left empty. -/
theorem Move.putBack (g : Ghost A) : Move u ((g.owing (s :: g.owes)).on (.taken s v))
      ((u.setCommitted s (some v)).setStanding v (.published s)) (g.on (.locked s)) :=
  (Move.restore rfl).to' rfl (by simp [Ghost.owing, Ghost.on])

section

variable (s : SlotRef) (v : VersionRef) (now : CatalogTick) (hcln : g.Clean)
include hcln

theorem follows_removeUnleased (hkind : g.kind = .removing false) (hnotes : g.notes = {}) :
    Follows (removeUnleased cfg s v now) (g.on (.idle s v)) fun _ g' => g' = g.on .none := by
  refine .read_andThen fun leaseUntil => .ite (fun _ => ?_) fun _ =>
    read_andThen fun hardPinned => .ite (fun _ => ?_) fun _ => ?_
  · exact unlock_andThen rfl rfl (.ret rfl)
  · exact unlock_andThen rfl rfl (ret rfl)
  refine .modify fun w => ⟨(g.owing (s :: g.owes)).on (.taken s v),
    (Move.withdraw (g := g.on (.idle s v)) rfl hcln).to' ?_ ?_, .update fun w => ?_⟩
  · rw [withdraw, view_setStanding, view_setCommitted]
  · simp [Ghost.owing, Ghost.on, hnotes]
  by_cases hlsd : now < w.leaseUntil v
  · simp only [sampleWithdrawn, hlsd, if_true]
    refine ⟨_, .same, .modify fun w => ⟨_, (Move.putBack g).to ?_, ?_⟩⟩
    · rw [restore, view_setStanding, view_setCommitted]
    · exact unlock_andThen (f := .locked s) rfl rfl (.ret rfl)
  · simp only [sampleWithdrawn, hlsd, if_false]
    refine ⟨_, (Move.depart rfl (not_lt.mp hlsd) (by simp [Ghost.on, Ghost.owing, hkind])).to
      (w.view_setStanding v _), ?_⟩
    refine unlock_andThen (g := g.owing (s :: g.owes)) (f := .closing s v now) rfl rfl ?_
    exact (follows_retirePublished cfg s v now g).andThen fun _ => .ret rfl

theorem follows_removeForced (hkind : g.kind = .removing true) :
    Follows (removeForced cfg s v now) (g.on (.idle s v)) fun _ g' => g' = g.on .none := by
  refine .modify fun w => ⟨_, (Move.expel (g := g.on (.idle s v)) now rfl hcln hkind).to ?_, ?_⟩
  · rw [expel, view_setStanding, view_setCommitted]
  refine unlock_andThen (g := g.owing (s :: g.owes)) (f := .closing s v now) rfl rfl ?_
  exact (follows_retirePublished cfg s v now g).andThen fun _ => .ret rfl

end

theorem follows_removeWithForce (identity : ObjectIdentity) (now : CatalogTick)
    (force : Bool) (hkind : g.kind = .removing force) (hcln : g.Clean) (hnotes : g.notes = {}) :
    Follows (removeWithForce cfg identity now force) (g.on .none) fun _ g' => g' = g.on .none := by
  refine .read_andThen fun found => ?_
  cases found with
  | none => exact .ret rfl
  | some s =>
    refine .lock_andThen (g.mayLock_of_kind hkind (.inl rfl)) (.read fun w => ?_)
    cases hactv : w.active s with
    | some active =>
      exact ⟨_, .same, unlock_andThen (f := .locked s) rfl rfl (.ret rfl)⟩
    | none =>
    refine ⟨_, .vacant rfl hactv, .read fun w => ?_⟩
    cases hcomm : w.committed s with
    | none => exact ⟨_, .same, unlock_andThen (f := .vacant s) rfl rfl (.ret rfl)⟩
    | some v =>
      refine ⟨_, .idle rfl hcomm, read_andThen fun pointed =>
        .ite (fun _ => ?_) fun _ => ?_⟩
      · cases force with
        | true => exact follows_removeForced cfg s v now hcln hkind
        | false => exact follows_removeUnleased cfg s v now hcln hkind hnotes
      · exact unlock_andThen (f := .idle s v) rfl rfl (.ret rfl)

/-! ### Candidates -/

namespace World

theorem view_dropCandidate (c : GcCandidate) :
    (w.dropCandidate c).view = { w.view with hand := w.view.hand.erase c } := by
  simp only [dropCandidate, setHand, view, ← Multiset.coe_erase]
  rfl

theorem view_popCandidate {w : World A} {generation : Generation}
    (hque : w.queue generation = c :: rest) :
    ∃ others, w.view.queued = c ::ₘ others ∧
    ((w.setQueue generation rest).setHand (c :: w.eviction.hand)).view =
        { w.view with queued := others, hand := c ::ₘ w.view.hand } := by
  cases generation with
  | young =>
    refine ⟨rest + w.eviction.protectedQueue, ?_, rfl⟩
    simp only [queue] at hque
    simp [view, hque]
  | protectedQueue =>
    refine ⟨w.eviction.young + rest, ?_, rfl⟩
    simp only [queue] at hque
    simp only [view, hque]
    rw [← Multiset.cons_coe, Multiset.add_cons]

end World

/-- A look at the candidate in hand, which shows why it is given up. -/
theorem follows_keepIf (hstl : ∀ w, keep w = false → w.view.committed c.slot ≠ some c.version ∨
      w.view.indexed c.slot = false ∨ (w.view.versions c.version).reclaimed = true) (g : Ghost A) :
    Follows (update (keepIf c keep)) (g.holding (some c)) fun kept g' =>
      g' = g.holding (if kept then some c else none) := by
  refine .of_bind_ret (.update fun w => ?_)
  cases hkeep : keep w with
  | true =>
    simp only [keepIf, hkeep, if_true]
    exact ⟨_, .same, .ret rfl⟩
  | false =>
    simp only [keepIf, hkeep, Bool.false_eq_true, if_false]
    exact ⟨_, (Move.drop rfl (hstl w hkeep)).to (w.view_dropCandidate c), .ret rfl⟩

theorem stale_of_not_pointed (h : decide (w.committed c.slot = some c.version) = false) :
    w.view.committed c.slot ≠ some c.version ∨ w.view.indexed c.slot = false ∨
      (w.view.versions c.version).reclaimed = true := .inl (of_decide_eq_false h)

theorem follows_reachCandidate (c : GcCandidate) (g : Ghost A) :
    Follows (reachCandidate c) (g.holding (some c)) fun reached g' =>
      g' = g.holding (if reached then some c else none) := by
  refine .pick fun alive => ?_
  refine (follows_keepIf (fun w h => .inr (.inl (Bool.or_eq_false_iff.mp h).1)) g).andThen
    fun upgraded => ?_
  cases upgraded with
  | false => exact .ret rfl
  | true =>
    refine (follows_keepIf (fun w h => .inr (.inr (Bool.not_eq_eq_eq_not.mp h))) g).andThen fun upgraded => ?_
    cases upgraded with
    | false => exact .ret rfl
    | true => exact follows_keepIf stale_of_not_pointed g

/-! ### Soft pins -/

theorem follows_expireSoftPin (v : VersionRef) (expected : CatalogTick)
    (hkind : g.kind = .collecting now) :
    Follows (expireSoftPin v expected now) g fun _ g' => g' = g := by
  refine .ite (fun hdue => ?_) fun _ => .ret rfl
  refine .of_bind_ret (.update fun w => ?_)
  by_cases hsame : (w.access v).softPinUntil = expected
  · simp only [hsame, if_true]
    cases hcomm : (w.versions v).committed with
    | none =>
      refine ⟨_, .of_view_eq (w.view_modifyVersion_same ?_), .ret rfl⟩
      simp [ObjectVersion.view, ObjectVersion.access, hcomm]
    | some c =>
      have hseal : (w.view.versions v).sealed = true := by
        simp [view, ObjectVersion.view, hcomm]
      exact ⟨_, (Move.unpin hkind hseal (le_of_eq_of_le hsame hdue)).to (w.view_unpin v), .ret rfl⟩
  · simp only [hsame, if_false]
    exact ⟨_, .same, .ret rfl⟩

theorem follows_expireSoftPinRound (hkind : g.kind = .collecting now) :
    Follows (expireSoftPinRound now report) g (LoopPost (fun _ g' => g' = g) fun _ g' => g' = g) := by
  apply Quiet.andThen
  · apply Quiet.update
    intro w
    unfold popSoftPin
    split <;> rfl
  intro popped
  cases popped with
  | none => exact .ret rfl
  | some pin =>
    refine (quiet_upgradeSlot _).andThen fun _ => .ite (fun _ => read_andThen fun _ =>
      .ite (fun _ => read_andThen fun _ => .ite (fun _ =>
        .ite (fun _ => ?_) fun _ => ?_) fun _ => .ret rfl)
        fun _ => .ret rfl) fun _ => .ret rfl
    · apply Quiet.andThen
      · exact .modify fun _ => rfl
      · exact fun _ => .ret rfl
    · refine (follows_expireSoftPin _ _ hkind).andThen fun _ => ?_
      exact .ite (fun _ => .ret rfl) fun _ => .ret rfl

theorem follows_expireSoftPins (budget : CollectBudget) (report : CollectReport)
    (hkind : g.kind = .collecting now) :
    Follows (expireSoftPins now budget report) g fun _ g' => g' = g := by
  refine .read_andThen fun _ => .upTo (fun _ g' => g' = g) rfl ?_
  rintro report g' rfl
  exact follows_expireSoftPinRound report hkind

theorem quiet_beginIfRequested : Quiet (beginIfRequested (A := A)) :=
  .bind (.update fun _ => rfl) fun _ => .guarded <| .bind (.read _) fun _ =>
    .bind (.modify fun _ => rfl) fun _ => .bind (.read _) fun _ => .modify fun _ => rfl

/-! ### The batch -/

/-- Every entry of the batch is dead or was taken from a version that may be reclaimed. -/
def Ghost.Covers (g : Ghost A) (now : CatalogTick) (batch : List (VersionRef × Reservation A)) :
    Prop :=
  ∀ e ∈ batch, e.2 ∈ g.dead ∨ (e.1, e.2, now) ∈ g.batch

theorem Ghost.Covers.mono (h : g.Covers now batch) (hgrw : g.Grows g') : g'.Covers now batch := by
  obtain ⟨_, _, _, _, rfl, hdead, htaken⟩ := hgrw
  exact fun e he => (h e he).imp (fun hmem => hdead hmem) fun hmem => htaken hmem

theorem Ghost.Covers.append (h : g.Covers now batch) (hmore : g.Covers now more) :
    g.Covers now (batch ++ more) := by
  intro e he
  rcases List.mem_append.mp he with he | he
  · exact h e he
  · exact hmore e he

theorem follows_releaseBatch (hcov : g.Covers now batch) :
    Follows (releaseBatch now batch) g fun _ g' => g' = g := by
  have hgroups : ∀ group ∈ entryGroups (·.2.entry) batch, g.Covers now group := by
    intro group hgroup e he
    exact hcov e ((flatten_entryGroups_perm _ batch).subset (List.mem_flatten_of_mem hgroup he))
  refine (foldOver (fun groups _ g' => g' = g ∧ ∀ group ∈ groups, g.Covers now group) ⟨rfl, hgroups⟩
    ?_).mono fun _ _ h => h.1
  rintro group _ _ g' ⟨rfl, hcov⟩
  refine .of_bind_ret (.await fun w _ w' hrls => ?_)
  simp only [releaseGroup, Option.bind_eq_bind, Option.bind_eq_some_iff, Option.some.injEq,
    Prod.mk.injEq] at hrls
  obtain ⟨_, hpool, -, rfl⟩ := hrls
  refine ⟨_, .release (fun r hr => ?_) (hcov group List.mem_cons_self),
    .ret ⟨rfl, fun other h => hcov other (List.mem_cons_of_mem group h)⟩⟩
  exact (SegmentPool.isLive_releaseGroup hpool r).symm.trans hr

/-! ### The liveness sweep -/

/-- What pruning has seen: the replicas it started from, and which of them are dead. -/
def PrunePost (g : Ghost A) (s : SlotRef) (v : VersionRef) (pruned : ReplicaPrune A)
    (g' : Ghost A) : Prop :=
  ∃ replicas, (g.on (.examined s v replicas)).Grows g' ∧
    match pruned with
    | .allLive => True
    | .allStale => ∀ replica ∈ replicas, replica.reservation ∈ g'.dead
    | .mixed stale => ∀ replica ∈ stale, replica.reservation ∈ g'.dead

theorem follows_keepLive (stale : ReplicaSet A) (hsub : live.Sublist replicas)
    (hdead : ∀ replica ∈ replicas, replica ∈ live ∨ replica.reservation ∈ g.dead) :
    Follows (keepLive v live stale) (g.on (.examined s v replicas)) fun _ g' =>
    g' = g.on (.examined s v live) := by
  refine Quiet.andThen (.modify fun w => w.view_modifyVersion_same rfl) fun _ => ?_
  exact .of_bind_ret (.modify fun w =>
    ⟨_, (Move.prune (g := g.on _) rfl hsub hdead).to (w.view_modifyVersion rfl), .ret rfl⟩)

theorem follows_pruneInvalidated (s : SlotRef) (v : VersionRef) (g : Ghost A) :
    Follows (pruneInvalidated v) (g.on (.pointed s v)) (PrunePost g s v) := by
  refine .read fun w => ⟨g.on (.examined s v (w.versions v).replicas), .examine rfl, ?_⟩
  generalize (w.versions v).replicas = replicas
  refine (quiet_allLiveIn _).andThen fun allLive => .ite (fun _ => ?_) fun _ => ?_
  · exact .ret ⟨replicas, .refl _, trivial⟩
  apply seq (follows_countLive replicas _)
  rintro _ _ ⟨hgrw, hdead⟩
  refine .ite (fun hzero => ?_) fun _ => .ite (fun _ => ?_) fun _ => ?_
  · exact .ret ⟨replicas, hgrw, hdead hzero⟩
  · exact .ret ⟨replicas, hgrw, trivial⟩
  apply seq (follows_partitionLive replicas _)
  rintro parts _ ⟨hgrw', hsub, hstl, hlive⟩
  obtain ⟨dead, batch, known, notes, rfl, hsubset⟩ := hgrw.trans hgrw'
  refine (follows_keepLive parts.2 hsub (g := { g with dead, batch, known, notes }) hlive).andThen
    fun _ => ?_
  exact .ret ⟨parts.1, ⟨dead, batch, known, notes, rfl, hsubset⟩, hstl⟩

theorem follows_sweepLost (now : CatalogTick) (pass : Pass A)
    (hdead : ∀ replica ∈ replicas, replica.reservation ∈ g.dead) (hcln : g.Clean) :
    Follows (sweepLost cfg generation c now pass)
    ((g.holding (some c)).on (.examined c.slot c.version replicas))
      fun pass' g' => g' = g.rest ∧ pass'.batch = pass.batch := by
  refine .read fun w => ?_
  cases hactv : w.active c.slot with
  | some active =>
    refine ⟨_, .same, unlock_andThen (f := .examined c.slot c.version replicas) rfl rfl ?_⟩
    exact (follows_pushCandidate generation rfl).andThen fun _ => .ret ⟨rfl, rfl⟩
  | none =>
    refine ⟨_, .condemn rfl hactv, read_andThen fun bytes => .modify fun w =>
      ⟨_, (Move.lose (g := (g.holding (some c)).on (.condemned c.slot c.version replicas)) now rfl
        rfl hdead hcln).to ?_, ?_⟩⟩
    · rw [lose, view_dropCandidate, view_setStanding, view_setCommitted]
      rfl
    refine unlock_andThen (g := (g.holding none).owing (c.slot :: g.owes))
      (f := .closing c.slot c.version now) rfl rfl ?_
    exact (follows_retirePublished cfg c.slot c.version now (g.holding none)).andThen fun _ =>
      .ret ⟨rfl, rfl⟩

theorem follows_sweepMixed (c : GcCandidate) (stale : ReplicaSet A)
    (pass : Pass A) (replicas : ReplicaSet A) (g : Ghost A) :
    Follows (sweepMixed generation c stale pass) ((g.holding (some c)).on (.examined c.slot c.version replicas))
      fun pass' g' => g' = g.rest ∧ pass'.batch = pass.batch ++ tag c.version stale := by
  refine (quiet_releasePrunedAccounting _ _).andThen fun _ => (quiet_lifecycle _).andThen fun _ =>
    (quiet_reclaim _).andThen fun _ => .unlock_andThen rfl rfl ?_
  exact (follows_pushCandidate generation rfl).andThen fun _ => .ret ⟨rfl, rfl⟩

/-- After a candidate of a sweep or of a reclamation. -/
def PassPost (g : Ghost A) (now : CatalogTick) (pass : Pass A) (g' : Ghost A) : Prop :=
  g.rest.Grows g' ∧ g'.Covers now pass.batch

theorem covers_tag (now : CatalogTick)
    (hstl : ∀ replica ∈ stale, replica.reservation ∈ g.dead) : g.Covers now (tag v stale) := by
  intro e he
  obtain ⟨replica, hmem, rfl⟩ := List.mem_map.mp he
  exact .inl (hstl replica hmem)

theorem follows_sweepCandidate (c : GcCandidate)
    (hkind : g.kind = .collecting now) (hcln : g.Clean) (hcov : g.Covers now pass.batch) :
    Follows (sweepCandidate cfg generation c now pass) ((g.holding (some c)).on .none)
    (PassPost g now) := by
  have hrest : g.rest.Covers now pass.batch := hcov
  have hdone : PassPost g now pass g.rest := ⟨.refl _, hrest⟩
  refine (follows_reachCandidate c (g.on .none)).andThen fun reached => ?_
  cases reached with
  | false => exact .ret hdone
  | true =>
    refine lock_andThen (g := g.holding (some c)) (g.mayLock_of_kind hkind (.inl rfl)) (.update fun w => ?_)
    by_cases hptd : w.committed c.slot = some c.version
    swap
    · simp only [keepIf, hptd, decide_false, Bool.false_eq_true, if_false]
      refine ⟨_, (Move.drop (u := w.view) (c := c) rfl (.inl hptd)).to (w.view_dropCandidate c), ?_⟩
      exact unlock_andThen (g := g.holding none) (f := .locked c.slot) rfl rfl (.ret hdone)
    simp only [keepIf, hptd, decide_true, if_true]
    refine ⟨_, .point rfl hptd, ?_⟩
    apply seq (follows_pruneInvalidated c.slot c.version (g.holding (some c)))
    rintro pruned g' ⟨replicas, ⟨dead, batch, known, notes, rfl, hsubset⟩, hpruned⟩
    have hgrw : g.rest.Grows
        ((({ g with dead, batch, known, notes } : Ghost A).holding none).on .none) :=
        ⟨dead, batch, known, notes, rfl, hsubset⟩
    cases pruned with
    | allLive =>
      refine unlock_andThen (g := ({ g with dead, batch, known, notes } : Ghost A).holding (some c))
        (f := .examined c.slot c.version replicas) rfl rfl ?_
      exact (follows_pushCandidate generation rfl).andThen fun _ => .ret ⟨hgrw, hrest.mono hgrw⟩
    | allStale =>
      refine (follows_sweepLost cfg generation (g := { g with dead, batch, known, notes }) now pass
        hpruned hcln).mono ?_
      rintro pass' g' ⟨rfl, hbat⟩
      exact ⟨hgrw, hbat ▸ hrest.mono hgrw⟩
    | mixed stale =>
      refine (follows_sweepMixed generation c stale pass replicas { g with dead, batch, known, notes }).mono ?_
      rintro pass' g' ⟨rfl, hbat⟩
      exact ⟨hgrw, hbat ▸ (hrest.mono hgrw).append (covers_tag now hpruned)⟩

section

variable (hkind : g.kind = .collecting now)
include hkind

theorem follows_popCandidate : Follows (update (popCandidate generation)) (g.holding none)
      fun popped g' => g' = match popped with
        | none => g.holding none
        | some c => ({ g with notes := {} } : Ghost A).holding (some c) := by
  refine .of_bind_ret (.update fun w => ?_)
  cases hque : w.queue generation with
  | nil =>
    simp only [popCandidate, hque]
    exact ⟨_, .same, .ret rfl⟩
  | cons c rest =>
    simp only [popCandidate, hque]
    obtain ⟨_, hqd, hview⟩ := view_popCandidate hque
    exact ⟨_, (Move.pop (g := g.holding none) hkind rfl hqd).to hview, .ret rfl⟩

variable (hcln : g.Clean) (hcov : g.Covers now pass.batch)
include hcln hcov

theorem follows_sweepRound : Follows (sweepRound cfg generation now pass) g.rest
      (LoopPost (PassPost g now) (PassPost g now)) := by
  refine (follows_popCandidate generation (g := g.on .none) hkind).andThen fun popped => ?_
  cases popped with
  | none => exact (quiet_liveness _).andThen fun _ => .ret ⟨.refl _, hcov⟩
  | some c =>
    refine (quiet_liveness _).andThen fun _ => ?_
    refine seq (follows_sweepCandidate cfg generation c (g := { g with notes := {} }) hkind hcln ?_)
        fun pass' g' h =>
      .ret ⟨(Ghost.Grows.noted _ _).trans h.1, h.2⟩
    exact hcov

/-- A pass over a queue, by rounds that keep the batch covered. -/
theorem follows_pass
    (hbody : ∀ (pass : Pass A) (g : Ghost A), g.kind = .collecting now → g.Clean → g.Covers now pass.batch →
      Follows (body pass) g.rest (LoopPost (PassPost g now) (PassPost g now))) :
    Follows (upTo body n pass) g.rest (PassPost g now) := by
  refine .upTo (PassPost g now) ⟨.refl _, hcov⟩ ?_
  rintro pass g' ⟨⟨dead, batch, known, notes, rfl, hsubset⟩, hcov⟩
  have hgrw : g.rest.Grows
      ((({ g with dead, batch, known, notes } : Ghost A).holding none).on .none) :=
      ⟨dead, batch, known, notes, rfl, hsubset⟩
  refine (hbody pass { g with dead, batch, known, notes } hkind hcln hcov).mono ?_
  rintro (_ | _) g' h
  · exact ⟨hgrw.trans h.1, h.2⟩
  · exact ⟨hgrw.trans h.1, h.2⟩

theorem follows_sweepGeneration :
    Follows (sweepGeneration cfg generation now pass) g.rest (PassPost g now) :=
  .read_andThen fun _ => follows_pass hkind hcln hcov fun _ _ => follows_sweepRound cfg generation

end

theorem follows_retireInvalidatedPublished
    (budget : CollectBudget) (report : CollectReport) (hkind : g.kind = .collecting now)
    (hcln : g.Clean) :
    Follows (retireInvalidatedPublished cfg now budget report) g.rest fun _ g' =>
    g.rest.Grows g' := by
  have hfinish : ∀ (pass : Pass A) (g' : Ghost A), PassPost g now pass g' →
      Follows ((releaseBatch now pass.batch).bind fun _ => ret (pass.report, pass.scanned)) g'
        fun _ g' => g.rest.Grows g' := by
    rintro pass g' ⟨hgrw, hcov⟩
    exact (follows_releaseBatch hcov).andThen fun _ => .ret hgrw
  have hemp : g.Covers now (⟨report, [], budget.maxCandidates, 0⟩ : Pass A).batch :=
    fun _ he => absurd he List.not_mem_nil
  apply seq (follows_sweepGeneration cfg .young hkind hcln hemp)
  intro pass g' h
  refine .ite (fun _ => hfinish pass g' h) fun _ => ?_
  obtain ⟨⟨dead, batch, known, notes, rfl, hsubset⟩, hcov⟩ := h
  have hgrw : g.rest.Grows
      ((({ g with dead, batch, known, notes } : Ghost A).holding none).on .none) :=
      ⟨dead, batch, known, notes, rfl, hsubset⟩
  apply seq (follows_sweepGeneration cfg .protectedQueue (g := { g with dead, batch, known, notes })
    hkind hcln hcov)
  rintro pass' g' ⟨hgrw', hcov'⟩
  exact hfinish pass' g' ⟨hgrw.trans hgrw', hcov'⟩

/-! ### Eviction -/

theorem quiet_isPinned (v : VersionRef) (now : CatalogTick) : Quiet (isPinned (A := A) cfg v now) :=
  .bind (.read _) fun _ => .ite (.ret true) (.bind (.read _) fun _ => .ret _)

theorem follows_takeRecent (v : VersionRef) (hkind : g.kind = .collecting now) :
    Follows (takeRecent v) g fun recent g' => g' = { g with notes := { g.notes with
      unread := if recent then none else some v
      cleared := g.notes.cleared || recent } } :=
  .of_bind_ret (.update fun w =>
    ⟨_, (Move.unmark v hkind).to (w.view_unmark v), .ret rfl⟩)

/-- A version on an idle slot that is not pinned stays so. -/
theorem follows_isPinned (v : VersionRef) (hkind : g.kind = .collecting now) :
    Follows (isPinned cfg v now) (g.on (.idle s v)) fun pinned g' => ∃ notes,
      g' = ({ g with notes } : Ghost A).on (.idle s v) ∧ notes.cleared = g.notes.cleared ∧
        (pinned = false → notes.unpinned = some v ∧
          (notes.soft = some v ∨ cfg.allowEvictSoftPinnedObjects = true)) := by
  refine .read fun w => ?_
  cases hpinned : (w.access v).hardPinned with
  | true => exact ⟨_, .same, .ret ⟨g.notes, rfl, rfl, nofun⟩⟩
  | false =>
    refine ⟨_, .seeUnpinned rfl hpinned, .read fun w => ?_⟩
    by_cases hsoft : now < (w.access v).softPinUntil
    · refine ⟨_, .same, .ret ⟨_, rfl, rfl, fun hallow => ⟨rfl, .inr ?_⟩⟩⟩
      simpa [hsoft] using hallow
    · exact ⟨_, .seeSoft hkind rfl (not_lt.mp hsoft), .ret ⟨_, rfl, rfl, fun _ => ⟨rfl, .inl rfl⟩⟩⟩

theorem follows_spare
    (hlock : f.lock = some c.slot) (hmay : f.mayUnlock = true) (hnone : f.unlocked = .none)
    (g : Ghost A) :
    Follows (spare generation c report) ((g.holding (some c)).on f) fun _ g' => g' = g.rest := by
  refine .unlock_andThen hlock hmay ?_
  rw [hnone]
  exact (follows_pushCandidate generation rfl).andThen fun _ => .ret rfl

theorem follows_accessedSince (c : GcCandidate) (hkind : g.kind = .collecting now)
    (hclr : g.notes.cleared = false) (hunp : g.notes.unpinned = some c.version)
    (hsoft : g.notes.soft = some c.version ∨ g.lenient = true) :
    Follows (accessedSince c now) ((g.holding (some c)).on (.taken c.slot c.version))
    fun accessed g' => ∃ notes,
      g' = if accessed then (({ g with notes } : Ghost A).holding (some c)).on (.taken c.slot c.version)
        else (({ g with notes } : Ghost A).holding none).on (.closing c.slot c.version now) := by
  refine (follows_takeRecent c.version (g := (g.holding (some c)).on (.taken c.slot c.version))
    hkind).andThen fun recent => ?_
  cases recent with
  | true => exact .ret ⟨_, rfl⟩
  | false =>
    refine .of_bind_ret (.update fun w => ?_)
    by_cases hlsd : now < w.leaseUntil c.version
    · simp only [sampleEvicted, hlsd, if_true]
      exact ⟨_, .same, .ret ⟨_, rfl⟩⟩
    · simp only [sampleEvicted, hlsd, if_false]
      let g₁ : Ghost A := { g with notes := { g.notes with
        unread := some c.version, cleared := g.notes.cleared || false } }
      refine ⟨_, (Move.departEvicted (u := w.view)
        (g := (g₁.holding (some c)).on (.taken c.slot c.version)) rfl (not_lt.mp hlsd) rfl hkind
        hunp rfl (by simp [g₁, Ghost.on, Ghost.holding, hclr]) hsoft).to ?_, .ret ⟨_, rfl⟩⟩
      rw [view_dropCandidate, view_setStanding]
      rfl

theorem follows_evictUnread (c : GcCandidate) (report : CollectReport)
    (hkind : g.kind = .collecting now) (hcln : g.Clean) (hclr : g.notes.cleared = false)
    (hunp : g.notes.unpinned = some c.version)
    (hsoft : g.notes.soft = some c.version ∨ g.lenient = true) :
    Follows (evictUnread cfg c now report) ((g.holding (some c)).on (.idle c.slot c.version))
      fun _ g' => g.rest.Grows g' := by
  let g₁ : Ghost A := { g.owing (c.slot :: g.owes) with notes := { g.notes with unread := none } }
  refine .modify fun w => ⟨(g₁.holding (some c)).on (.taken c.slot c.version),
    (Move.withdraw (g := (g.holding (some c)).on (.idle c.slot c.version)) rfl hcln).to ?_, ?_⟩
  · rw [withdraw, view_setStanding, view_setCommitted]
  apply seq (follows_accessedSince c (g := g₁) hkind hclr hunp hsoft)
  rintro accessed g' ⟨notes, rfl⟩
  let g₂ : Ghost A := { g with notes }
  cases accessed with
  | true =>
    refine .modify fun w =>
      ⟨_, (Move.putBack (s := c.slot) (v := c.version) (g₂.holding (some c))).to ?_, ?_⟩
    · rw [restore, view_setStanding, view_setCommitted]
    · refine (follows_spare .protectedQueue report (f := .locked c.slot) rfl rfl rfl g₂).mono ?_
      rintro _ g' rfl
      exact .noted _ notes
  | false =>
    refine read_andThen fun bytes => .read_andThen fun accounted =>
      .unlock_andThen (g := (g₂.holding none).owing (c.slot :: g₂.owes))
        (f := .closing c.slot c.version now) rfl rfl ?_
    exact (follows_retirePublished cfg c.slot c.version now (g₂.holding none)).andThen fun _ =>
      .ret (.noted _ notes)

/-- What a collector knows of the slot after the checks for an idle slot. -/
def IdlePost (s : SlotRef) (v : VersionRef) (g : Ghost A) (isIdle : Bool) (g' : Ghost A) : Prop :=
  match isIdle with
  | true => g' = g.on (.idle s v)
  | false => g' = g.on (.locked s) ∨ g' = g.on (.vacant s)

theorem follows_isIdleWith (s : SlotRef) (v : VersionRef) (g : Ghost A) :
    Follows (isIdleWith s v) (g.on (.locked s)) (IdlePost s v g) := by
  refine .read fun w => ?_
  cases hactv : w.active s with
  | some active => exact ⟨_, .same, .ret (.inl rfl)⟩
  | none =>
    refine ⟨_, .vacant rfl hactv, .of_bind_ret (.read fun w => ?_)⟩
    by_cases hptd : w.committed s = some v
    · refine ⟨_, .idle rfl hptd, ?_⟩
      simp only [hptd, decide_true]
      exact .ret rfl
    · refine ⟨_, .same, ?_⟩
      simp only [hptd, decide_false]
      exact .ret (.inr rfl)

variable (c : GcCandidate) (report : CollectReport) (hkind : g.kind = .collecting now)
  (hcln : g.Clean) (hlenient : cfg.allowEvictSoftPinnedObjects = true → g.lenient = true)
  (hclr : g.notes.cleared = false)
include hkind hcln hlenient hclr

theorem follows_evictIdle :
    Follows (evictIdle cfg generation c now report)
      ((g.holding (some c)).on (.idle c.slot c.version)) fun _ g' => g.rest.Grows g' := by
  have hspr : ∀ (generation : Generation) (notes : Notes), Follows (spare generation c report)
        ((({ g with notes } : Ghost A).holding (some c)).on (.idle c.slot c.version))
        fun _ g' => g.rest.Grows g' := by
    intro generation notes
    refine (follows_spare generation report (f := .idle c.slot c.version) rfl rfl rfl { g with notes }).mono ?_
    rintro _ g' rfl
    exact .noted _ notes
  apply seq (follows_isPinned cfg c.version (g := g.holding (some c)) hkind)
  rintro pinned g' ⟨notes, rfl, hclr', hnotes⟩
  cases pinned with
  | true => exact hspr generation notes
  | false =>
    obtain ⟨hunp, hsoft⟩ := hnotes rfl
    refine (follows_takeRecent c.version
      (g := (({ g with notes } : Ghost A).holding (some c)).on (.idle c.slot c.version))
      hkind).andThen fun recent => ?_
    cases recent with
    | true => exact hspr .protectedQueue _
    | false =>
      refine read_andThen fun leased => .ite (fun _ => hspr .protectedQueue _) fun _ => ?_
      refine (follows_evictUnread cfg c report (g := { g with notes := { notes with
        unread := some c.version, cleared := notes.cleared || false } })
        hkind hcln (by simp [hclr'.trans hclr]) hunp (hsoft.imp_right hlenient)).mono ?_
      exact fun _ g' hgrw => (Ghost.Grows.noted _ _).trans hgrw

theorem follows_evictCandidate :
    Follows (evictCandidate cfg generation c now report) ((g.holding (some c)).on .none)
      fun _ g' => g.rest.Grows g' := by
  have hpush : ∀ (generation : Generation) (report : CollectReport),
      Follows ((modify (pushCandidate generation c)).bind fun _ => ret (report, RetiredBytes.zero))
        ((g.holding (some c)).on .none) fun _ g' => g.rest.Grows g' := by
    intro generation report
    exact (follows_pushCandidate generation rfl).andThen fun _ => .ret (.refl _)
  refine (follows_reachCandidate c (g.on .none)).andThen fun reached => ?_
  cases reached with
  | false => exact .ret (.refl _)
  | true =>
    refine (quiet_isPinned cfg _ now).andThen fun pinned => .ite (fun _ => hpush _ _) fun _ =>
      lock_andThen (g := g.holding (some c)) (g.mayLock_of_kind hkind (.inl rfl)) ?_
    apply seq (follows_isIdleWith c.slot c.version (g.holding (some c)))
    intro isIdle g' hg'
    cases isIdle with
    | true =>
      obtain rfl : g' = (g.holding (some c)).on (.idle c.slot c.version) := hg'
      exact follows_evictIdle cfg generation c _ hkind hcln hlenient hclr
    | false =>
      obtain ⟨f, rfl, hlock, hmay, hnone⟩ : ∃ f : Focus A, g' = (g.holding (some c)).on f ∧
          f.lock = some c.slot ∧ f.mayUnlock = true ∧ f.unlocked = .none := by
        rcases hg' with rfl | rfl
        · exact ⟨_, rfl, rfl, rfl, rfl⟩
        · exact ⟨_, rfl, rfl, rfl, rfl⟩
      refine unlock_andThen hlock hmay ?_
      rw [hnone]
      refine (follows_keepIf stale_of_not_pointed (g.on .none)).andThen fun kept => ?_
      cases kept with
      | true => exact hpush _ _
      | false => exact .ret (.refl _)

end Cakemaster.Object
