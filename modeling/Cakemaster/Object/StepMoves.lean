import Cakemaster.Object.CollectorMoves

/-!
# The moves of a collector step and of a revocation
-/

namespace Cakemaster.Object

open Machine Machine.Prog Segment Conforms Ghost Follows List

variable {A : UnitAllocator} {lenient : Bool} {now : CatalogTick} {g : Ghost A}
variable (cfg : CatalogConfig) (s : SlotRef) (generation : Generation) (id : TransactionId)
    (budget : CollectBudget) (v : VersionRef) (report : CollectReport)

/-! ### Eviction -/

/-- The ghost of a collector step that evicts, under the given policy for soft pins. -/
structure Ghost.Evicting (lenient : Bool) (now : CatalogTick) (g : Ghost A) : Prop where
  kind : g.kind = .collecting now
  clean : g.Clean
  lenient : lenient = true → g.lenient = true

theorem Ghost.Evicting.grows (h : g.Evicting lenient now)
    (hgrw : g.rest.Grows g') : g'.Evicting lenient now ∧ g'.rest = g' := by
  obtain ⟨_, _, _, _, rfl, -⟩ := hgrw
  exact ⟨⟨h.kind, h.clean, h.lenient⟩, rfl⟩

theorem follows_evictions {α : Type} {body : α → CatalogM A (α ⊕ α)} (hg : g.Evicting lenient now)
    (n : ℕ) (a : α)
    (hbody : ∀ (a : α) (g : Ghost A), g.Evicting lenient now → Follows (body a) g.rest
      (LoopPost (fun _ g' => g.rest.Grows g') fun _ g' => g.rest.Grows g')) :
    Follows (upTo body n a) g.rest fun _ g' => g.rest.Grows g' := by
  refine .upTo (fun _ g' => g.rest.Grows g') (.refl _) ?_
  intro a g' hgrw
  obtain ⟨hg', hrest⟩ := hg.grows hgrw
  have hround := hbody a g' hg'
  rw [hrest] at hround
  refine hround.mono ?_
  rintro (_ | _) _ h
  · exact hgrw.trans h
  · exact hgrw.trans h

theorem follows_evictRound (pass : EvictPass)
    (hg : g.Evicting cfg.allowEvictSoftPinnedObjects now) :
    Follows (evictRound cfg generation now pass) g.rest (LoopPost (fun _ g' => g.rest.Grows g')
        fun _ g' => g.rest.Grows g') := by
  refine Quiet.andThen (.bind (.read _) fun _ => .bind (.read _) fun _ => .ret _) fun covered =>
    .ite (fun _ => .ret (.refl _)) fun _ => ?_
  refine (follows_popCandidate generation (g := g.on .none) hg.kind).andThen fun popped => ?_
  cases popped with
  | none => exact .ret (.refl _)
  | some c =>
    apply seq (follows_evictCandidate cfg generation c pass.report (g := { g with notes := {} })
      hg.kind hg.clean hg.lenient rfl)
    exact fun evicted g' hgrw => .ret ((Ghost.Grows.noted _ _).trans hgrw)

theorem follows_evict (hg : g.Evicting cfg.allowEvictSoftPinnedObjects now) :
    Follows (evict cfg now budget report) g.rest fun _ g' => g.rest.Grows g' := by
  refine .read_andThen fun young => .read_andThen fun protectedCount => ?_
  apply seq (follows_evictions hg _ _ fun _ _ => follows_evictRound cfg .young _)
  intro pass g₁ hgrw
  refine .ite (fun _ => .ret hgrw) fun _ => ?_
  obtain ⟨hg₁, hrest⟩ := hg.grows hgrw
  rw [← hrest]
  apply seq (follows_evictions hg₁ _ pass fun _ _ => follows_evictRound cfg .protectedQueue _)
  intro pass' g₂ hgrw'
  rw [hrest] at hgrw'
  exact .ret (hgrw.trans hgrw')

/-- A stale candidate is given up, any other one stays in hand. -/
def ScopedCandidate.inHand (c : GcCandidate) : ScopedCandidate → Option GcCandidate
  | .stale => none
  | .unmatched | .matching _ => some c

theorem follows_classifyScopedCandidate (c : GcCandidate) (debts : List ReclaimTarget)
    (g : Ghost A) :
    Follows (classifyScopedCandidate c debts) (g.holding (some c)) fun classified g' =>
      g' = g.holding (classified.inHand c) := by
  refine (follows_reachCandidate c g).andThen fun reached => ?_
  cases reached with
  | false => exact .ret rfl
  | true =>
    refine read_andThen fun version => .ret ?_
    rw [if_pos rfl, apply_ite (ScopedCandidate.inHand c)]
    exact (ite_self (some c)).symm ▸ rfl

theorem follows_scopedCandidate
    (c : GcCandidate) (pass : ScopedPass) (hg : g.Evicting cfg.allowEvictSoftPinnedObjects now)
    (hclr : g.notes.cleared = false) :
    Follows (scopedCandidate cfg generation now c pass) ((g.holding (some c)).on .none)
      fun _ g' => g.rest.Grows g' := by
  refine (follows_classifyScopedCandidate c pass.debts (g.on .none)).andThen fun classified => ?_
  cases classified with
  | stale => exact .ret (.refl _)
  | unmatched =>
    exact (follows_pushCandidate generation rfl).andThen fun _ => .ret (.refl _)
  | matching indices =>
    apply seq (follows_evictCandidate cfg generation c pass.report hg.kind hg.clean hg.lenient hclr)
    exact fun evicted g' hgrw => .ret hgrw

theorem follows_scopedRound (pass : ScopedPass)
    (hg : g.Evicting cfg.allowEvictSoftPinnedObjects now) :
    Follows (scopedRound cfg generation now pass) g.rest (LoopPost (fun _ g' => g.rest.Grows g')
        fun _ g' => g.rest.Grows g') := by
  refine .ite (fun _ => .ret (.refl _)) fun _ => ?_
  refine (follows_popCandidate generation (g := g.on .none) hg.kind).andThen fun popped => ?_
  cases popped with
  | none => exact .ret (.refl _)
  | some c =>
    apply seq (follows_scopedCandidate cfg generation c _ (g := { g with notes := {} })
      ⟨hg.kind, hg.clean, hg.lenient⟩ rfl)
    exact fun pass' g' hgrw => .ret ((Ghost.Grows.noted _ _).trans hgrw)

theorem follows_evictScoped (targets : List ReclaimTarget) (report : CollectReport)
    (hg : g.Evicting cfg.allowEvictSoftPinnedObjects now) :
    Follows (evictScoped cfg now budget targets report) g.rest fun _ g' => g.rest.Grows g' := by
  refine .ite (fun _ => .ret (.refl _)) fun _ =>
    read_andThen fun young => .read_andThen fun protectedCount => ?_
  apply seq (follows_evictions hg _ _ fun _ _ => follows_scopedRound cfg .young _)
  intro pass g₁ hgrw
  refine .ite (fun _ => .ret hgrw) fun _ => ?_
  obtain ⟨hg₁, hrest⟩ := hg.grows hgrw
  rw [← hrest]
  apply seq (follows_evictions hg₁ _ pass fun _ _ => follows_scopedRound cfg .protectedQueue _)
  intro pass' g₂ hgrw'
  rw [hrest] at hgrw'
  exact .ret (hgrw.trans hgrw')

theorem follows_evictAll (targets : List ReclaimTarget) (report : CollectReport)
    (hg : g.Evicting cfg.allowEvictSoftPinnedObjects now) :
    Follows (evictAll cfg now budget targets report) g.rest fun _ g' => g.rest.Grows g' := by
  refine (quiet_liveness _).andThen fun incomplete => .ite (fun _ => .ret (.refl _)) fun _ => ?_
  apply seq (follows_evictScoped cfg budget targets report hg)
  intro evicted g₁ hgrw
  obtain ⟨hg₁, hrest⟩ := hg.grows hgrw
  have hevict := follows_evict cfg { budget with maxCandidates := budget.maxCandidates - evicted.2 }
    evicted.1 hg₁
  rw [hrest] at hevict
  exact hevict.mono fun _ _ hgrw' => hgrw.trans hgrw'

/-! ### Reclamation -/

theorem follows_reclaimVersion {pass : Pass A} (hle : retired.reclaimAfter ≤ now)
    (hcov : g.Covers now pass.batch) :
    Follows (reclaimVersion retired pass)
      ((g.holding none).on (.leaving retired.version retired.reclaimAfter)) (PassPost g now) := by
  refine .read_andThen fun memory => (quiet_releaseAccounting _).andThen fun _ =>
    .update fun w => ⟨_, (Move.take rfl hle).to (w.view_modifyVersion rfl), ?_⟩
  refine (quiet_lifecycle _).andThen fun _ => (quiet_reclaim _).andThen fun _ => .ret ?_
  have hgrw : g.rest.Grows { g.rest with
      batch := g.batch ++ (w.versions retired.version).replicas.map fun r =>
        (retired.version, r.reservation, now) } :=
    ⟨_, _, _, _, rfl, List.Subset.refl _, subset_append_left _ _⟩
  have hrest : g.rest.Covers now pass.batch := hcov
  refine ⟨hgrw, (hrest.mono hgrw).append ?_⟩
  intro e he
  obtain ⟨replica, hmem, rfl⟩ := mem_map.mp he
  exact .inr (mem_append_right _ (mem_map.mpr ⟨replica, hmem, rfl⟩))

theorem follows_reclaimRound {pass : Pass A} (hcov : g.Covers now pass.batch) :
    Follows (reclaimRound now pass) g.rest (LoopPost (PassPost g now) (PassPost g now)) := by
  have hback : ∀ (retired : RetiredObject) (pass : Pass A), g.Covers now pass.batch →
      Follows ((modify (World.pushRetired retired)).bind fun _ => ret (.inl pass : Pass A ⊕ Pass A))
        ((g.holding none).on (.leaving retired.version retired.reclaimAfter))
        (LoopPost (PassPost g now) (PassPost g now)) :=
    fun retired pass hcov => .modify fun _ =>
      ⟨_, .retire retired rfl, .ret ⟨.refl _, hcov⟩⟩
  refine .update fun w => ?_
  cases hrtd : w.retired with
  | nil =>
    simp only [World.popRetired, hrtd]
    exact ⟨_, .same, .ret ⟨.refl _, hcov⟩⟩
  | cons retired rest =>
    simp only [World.popRetired, hrtd]
    refine ⟨_, .popRetired (u := w.view) rfl hrtd, .ite (fun _ => ?_) fun hdue =>
      Quiet.andThen (.bind (.pick true) fun _ => .read _) fun unwrapped =>
        .ite (fun _ => ?_) fun _ => ?_⟩
    · exact hback retired _ hcov
    · refine seq (follows_reclaimVersion (g := g) (not_lt.mp hdue) ?_) fun pass' g' h =>
        .ret h
      exact hcov
    · exact hback retired _ hcov

theorem follows_reclaim (maxReclaims : ℕ) (report : CollectReport)
    (hkind : g.kind = .collecting now) (hcln : g.Clean) :
    Follows (reclaim now maxReclaims report) g.rest fun _ g' => g.rest.Grows g' := by
  refine .read_andThen fun retired => ?_
  have hemp : g.Covers now (⟨report, [], 0, 0⟩ : Pass A).batch :=
    fun _ he => absurd he not_mem_nil
  apply seq (follows_pass hkind hcln hemp fun _ _ _ _ => follows_reclaimRound)
  rintro _ g' ⟨hgrw, hcov⟩
  exact (follows_releaseBatch hcov).andThen fun _ => .ret hgrw

/-! ### Pending transactions -/

theorem follows_abortPending {s : SlotRef} (now : CatalogTick) (hmay : g.MayLock s)
    (hcln : g.Clean) :
    Follows (abortPending cfg s id v now) (g.on .none) fun _ g' =>
      ∃ known, g' = ((g.resolve s id v).on .none).knowing known := by
  refine .lock_andThen hmay (.read fun w => ?_)
  cases hactv : w.active s with
  | none =>
    refine ⟨_, .resolve s id v (.inr (.inr (.inr (View.not_stagedAt_of_none hactv)))), ?_⟩
    exact unlock_andThen (g := g.resolve s id v) (f := .locked s) rfl rfl (.ret ⟨_, rfl⟩)
  | some active =>
    by_cases hmat : active.id = id ∧ active.phase = .staged v
    · refine ⟨_, .meet rfl hactv, ?_⟩
      simp only [hmat, and_self, if_true]
      refine (follows_abortStaged cfg now hmat.2 hcln).andThen fun _ => ?_
      rw [hmat.1]
      exact .ret ⟨_, rfl⟩
    · refine ⟨_, .resolve s id v (.inr (.inr (.inr (View.not_stagedAt_of_ne hactv hmat)))), ?_⟩
      simp only [hmat, if_false]
      exact unlock_andThen (g := g.resolve s id v) (f := .locked s) rfl rfl (.ret ⟨_, rfl⟩)

/-- A version that is gone or sealed needs no candidate. -/
theorem follows_upgradeVersion (g : Ghost A) :
    Follows (upgradeVersion v) g fun upgraded g' =>
      g' = if upgraded then g else g.resolve s id v := by
  refine .of_bind_ret (.read fun w => ?_)
  cases hrcl : (w.versions v).reclaimed with
  | true => exact ⟨_, .resolve s id v (.inl hrcl), .ret rfl⟩
  | false => exact ⟨_, .same, .ret rfl⟩

theorem follows_isCommitted (g : Ghost A) :
    Follows (isCommitted v) g fun committed g' => g' = if committed then g.resolve s id v else g := by
  refine .of_bind_ret (.read fun w => ?_)
  cases hcomm : (w.versions v).committed with
  | none => exact ⟨_, .same, .ret rfl⟩
  | some c =>
    have hseal : (w.view.versions v).sealed = true := by simp [World.view, ObjectVersion.view, hcomm]
    exact ⟨_, .resolve s id v (.inr (.inl hseal)), .ret rfl⟩

/-- The ghost of a collector step between two of its parts. -/
structure Ghost.InStep (now : CatalogTick) (lenient : Bool) (g : Ghost A) : Prop where
  kind : g.kind = .collecting now
  focus : g.focus = .none
  hand : g.hand = none
  gate : g.gate = true
  writing : g.writing = false
  drained : g.drained = []
  spare : g.spare = []
  making : g.making = .none
  owes : g.owes = []
  emptied : g.emptied = none
  uncounted : g.uncounted = none
  lenient : lenient = true → g.lenient = true

namespace Ghost.InStep

variable (h : g.InStep now lenient)
include h

theorem clean : g.Clean := ⟨h.owes, h.emptied⟩

theorem evicting : g.Evicting lenient now := ⟨h.kind, h.clean, h.lenient⟩

theorem on_none : g.on .none = g := by
  rw [← h.focus]
  rfl

theorem at_rest : g.rest = g := by
  rw [rest, ← h.hand]
  exact h.on_none

theorem grows (hgrw : g.Grows g') :
    g'.InStep now lenient ∧ g'.expected = g.expected ∧ g'.due = g.due := by
  obtain ⟨_, _, _, _, rfl, -⟩ := hgrw
  exact ⟨{ h with }, rfl, rfl⟩

theorem advance (known : List Resolution) (expected : Option (List PendingCandidate))
    (due seen : List PendingCandidate) :
    ({ g with known, expected, due, seen } : Ghost A).InStep now lenient :=
  { h with }

theorem resolve_popped (c : PendingCandidate) (due seen : List PendingCandidate) :
    ({ g with spare := [c], due, seen } : Ghost A).resolve c.slot c.transactionId c.pending =
      { g with due, seen } := by
  obtain ⟨-, -, -, -, -, hdrn, hspr, hmak, -⟩ := h
  simp [resolve, isFor, hdrn, hmak, hspr]

end Ghost.InStep

/-- After a round over the pending candidates: one fewer is due. -/
def RoundPost (g : Ghost A) (due : List PendingCandidate) (g' : Ghost A) : Prop :=
  ∃ known seen, g' = { g with known, due, seen }

theorem follows_expireCandidate (c : PendingCandidate)
    (live : Bool) (report : CollectReport) (hg : g.InStep now lenient)
    (due seen : List PendingCandidate) :
    Follows (expireCandidate cfg c now live report) { g with spare := [c], due, seen }
      fun _ g' => RoundPost g due g' := by
  have hon : ({ g with spare := [c], due, seen } : Ghost A).on .none = { g with spare := [c], due, seen } := by
    rw [on, ← hg.focus]
  rw [← hon]
  apply seq (follows_upgradeSlot_resolve c.slot c.transactionId c.pending { g with spare := [c], due, seen })
  intro upgraded g' hg'
  subst hg'
  have hdone : (({ g with spare := [c], due, seen } : Ghost A).resolve c.slot c.transactionId
      c.pending).on .none = { g with due, seen } := by
    rw [hg.resolve_popped, on, ← hg.focus]
  cases upgraded with
  | false => exact .ret ⟨g.known, seen, hdone⟩
  | true =>
    apply seq (follows_abortPending cfg c.transactionId c.pending now
      (mayLock_of_kind (g := { g with spare := [c], due, seen }) hg.kind (.inl rfl)) hg.clean)
    rintro _ g' ⟨known, rfl⟩
    have hpost : RoundPost g due ((({ g with spare := [c], due, seen } : Ghost A).resolve c.slot
        c.transactionId c.pending).on .none |>.knowing known) :=
      ⟨known, seen, by rw [hdone]; rfl⟩
    exact .ite (fun _ => .ret hpost) fun _ => .ret hpost

theorem follows_expirePendingRound (hg : g.InStep now lenient) (hexp : g.expected.isSome = true) :
    Follows (expirePendingRound cfg now report) g
      (LoopPost (fun _ => RoundPost g g.due.tail) fun _ => RoundPost g []) := by
  refine .update fun w => ?_
  cases hcand : w.pending.candidates with
  | nil =>
    simp only [World.popPending, hcand]
    exact ⟨_, .popNone hg.gate hcand, .ret ⟨g.known, g.seen, rfl⟩⟩
  | cons c rest =>
    simp only [World.popPending, hcand]
    let g₁ : Ghost A := { g with spare := [c], due := g.due.tail, seen := c :: g.seen }
    have hpop : Move w.view g { w.view with pending := rest } g₁ :=
      (Move.popSpare hg.gate hexp hcand).to' rfl (by rw [hg.spare])
    have hrsv : RoundPost g g.due.tail (g₁.resolve c.slot c.transactionId c.pending) :=
      ⟨g.known, c :: g.seen, hg.resolve_popped c g.due.tail (c :: g.seen)⟩
    refine ⟨g₁, hpop, ?_⟩
    apply seq (follows_upgradeVersion c.slot c.transactionId c.pending g₁)
    intro upgraded g' hg'
    subst hg'
    cases upgraded with
    | false => exact .ret hrsv
    | true =>
      apply seq (follows_isCommitted c.slot c.transactionId c.pending g₁)
      intro committed g' hg'
      subst hg'
      cases committed with
      | true => exact .ret hrsv
      | false =>
        refine (quiet_allLive _).andThen fun live => .ite (fun hwait => ?_) fun _ => ?_
        · have herly : now < c.deadline := of_decide_eq_true (Bool.and_eq_true_iff.mp hwait).2
          refine .modify fun w => ⟨{ g with due := g.due.tail, seen := c :: g.seen },
            (Move.requeue (g := g₁) c hg.gate hg.writing (fun now' hnow => ?_) mem_cons_self
              ?_).to' rfl ?_, .ret ⟨g.known, c :: g.seen, rfl⟩⟩
          · cases hg.kind.symm.trans hnow
            exact herly
          · simp [g₁, hg.drained]
          · simp [g₁, hg.spare, hg.drained]
        · apply seq (follows_expireCandidate cfg c live report hg g.due.tail (c :: g.seen))
          intro report' g' h
          exact .ret h

/-- What a collector step knows after its pass over the pending candidates: which ones it
found, and that all of them had their turn if the budget allows it. -/
def ExpirePost (now : CatalogTick) (lenient : Bool) (budget : CollectBudget)
    (g' : Ghost A) : Prop :=
  g'.InStep now lenient ∧ ∃ found, g'.expected = some found ∧
    (found.length ≤ budget.maxCandidates → g'.due = [])

theorem follows_expirePending (hg : g.InStep now lenient) (hexp : g.expected = none) :
    Follows (expirePending cfg now budget report) g fun _ g' =>
      ExpirePost now lenient budget g' := by
  refine .read fun w => ⟨_, .expect hg.kind hg.gate hexp hg.spare, ?_⟩
  change Follows (upTo _ (min w.view.pending.length _) report) _ _
  generalize w.view.pending = found
  refine .upToWithin (fun n _ g' => ∃ known due seen, g' = { g with known, expected := some found, due, seen } ∧
      (found.length ≤ budget.maxCandidates → due.length ≤ n)) ⟨g.known, found, g.seen, rfl, ?_⟩ ?_ ?_
  · intro hbud
    exact (min_eq_left hbud).symm.le
  · rintro report g' ⟨known, due, seen, rfl, hdue⟩
    exact ⟨hg.advance known _ due seen, found, rfl, fun hbud =>
      eq_nil_of_length_eq_zero (Nat.le_zero.mp (hdue hbud))⟩
  · rintro n report g' ⟨known, due, seen, rfl, hdue⟩
    refine (follows_expirePendingRound cfg report (hg.advance known (some found) due seen) rfl).mono ?_
    rintro (report' | report') g' ⟨known', seen', rfl⟩
    · refine ⟨known', due.tail, seen', rfl, fun hbud => ?_⟩
      rw [length_tail]
      exact Nat.sub_le_of_le_add (hdue hbud)
    · exact ⟨hg.advance known' (some found) [] seen', found, rfl, fun _ => rfl⟩

/-! ### Empty slots -/

theorem World.view_unindex (w : World A) (identity : ObjectIdentity) :
    { w with index := { w.index with entries := w.index.entries.erase identity } }.view =
      { w.view with lookup := Function.update w.view.lookup identity none } := by
  have hlook : ({ w with index := { w.index with entries := w.index.entries.erase identity } } :
      World A).lookupSlot = Function.update w.lookupSlot identity none := by
    funext other
    by_cases h : other = identity
    · subst h
      simp [lookupSlot]
    · simp [lookupSlot, h, AList.lookup_erase_ne h]
  simp only [view, hlook]

theorem Move.dropCleaned (hempd : g.emptied = none)
    (hstl : u.lookup c.identity ≠ some c.slot ∨ u.indexed c.slot = false ∨
      u.committed c.slot ≠ none ∨ u.active c.slot ≠ none) :
    Move u (({ g with emptied := some c } : Ghost A).on f) u (g.on f) :=
  (Move.dropEmpty rfl hstl).to' rfl (by simp [on, ← hempd])

/-- A slot that is gone needs no candidate. -/
theorem follows_upgradeSlot_clean (c : EmptySlotCandidate) (hempd : g.emptied = none) :
    Follows (upgradeSlot c.slot) (({ g with emptied := some c } : Ghost A).on .none) fun upgraded g' =>
        g' = if upgraded then ({ g with emptied := some c } : Ghost A).on .none else g.on .none := by
  refine .pick fun alive => .of_bind_ret (.read fun w => ?_)
  cases hup : w.indexed c.slot || alive with
  | true => exact ⟨_, .same, .ret rfl⟩
  | false =>
    have hidx : w.view.indexed c.slot = false := (Bool.or_eq_false_iff.mp hup).1
    exact ⟨_, .dropCleaned hempd (.inr (.inl hidx)), .ret rfl⟩

theorem follows_cleanSlot (c : EmptySlotCandidate) (report : CollectReport)
    (hhome : g.kind.home = none) (hempd : g.emptied = none) (hunc : g.uncounted = none) :
    Follows (cleanSlot c report) (({ g with emptied := some c } : Ghost A).on .none) fun _ g' =>
    g' = g.on .none := by
  apply seq (follows_upgradeSlot_clean c hempd)
  intro upgraded g' hg'
  subst hg'
  cases upgraded with
  | false => exact .ret rfl
  | true =>
  refine lock_andThen (mayLock_of_kind rfl (.inl hhome)) (.read fun w => ?_)
  cases hused : (w.committed c.slot).isSome || (w.active c.slot).isSome with
  | true =>
    have hstl : w.view.committed c.slot ≠ none ∨ w.view.active c.slot ≠ none := by
      rcases Bool.or_eq_true_iff.mp hused with h | h
      · exact .inl (Option.isSome_iff_ne_none.mp h)
      · exact .inr (Option.isSome_iff_ne_none.mp h)
    exact ⟨_, .dropCleaned hempd (.inr (.inr hstl)),
      unlock_andThen (f := .locked c.slot) rfl rfl (.ret rfl)⟩
  | false =>
  refine ⟨_, .same, .update fun w => ?_⟩
  by_cases hemp : w.lookupSlot c.identity = some c.slot ∧ w.committed c.slot = none ∧
    w.active c.slot = none
  · simp only [World.unindex, hemp, and_self, if_true]
    let g₁ : Ghost A := ({ g with emptied := some c } : Ghost A).on (.locked c.slot)
    have hslot : ∀ d, g₁.emptied = some d → d.slot = c.slot := by
      rintro d hd
      cases hd
      rfl
    have hmove := Move.unindex (u := w.view) (g := g₁) hhome rfl hemp.1 hemp.2.1 hemp.2.2 hunc hslot
    let g₂ : Ghost A := { g₁ with emptied := none, uncounted := some (c.slot, false) }
    refine ⟨g₂, hmove.to (w.view_unindex c.identity), .modify fun w =>
      ⟨g.on (.locked c.slot), ?_, ?_⟩⟩
    · refine (Move.uncount (g := g₂) (s := c.slot) hhome rfl).to' ?_ ?_
      · have hview : (w.modifySlot c.slot fun x => { x with counted := x.counted - 1 }).view =
          w.view.setSlot c.slot fun x => { x with counted := x.counted - 1 } := w.view_modifySlot rfl
        rw [← hview]
        rfl
      · simp [g₂, g₁, on, ← hempd, ← hunc]
    · exact unlock_andThen (f := .locked c.slot) rfl rfl (.ret rfl)
  · simp only [World.unindex, hemp, if_false]
    refine ⟨_, .dropCleaned hempd ?_, unlock_andThen (f := .locked c.slot) rfl rfl (.ret rfl)⟩
    by_contra hstl
    simp only [not_or, not_not] at hstl
    exact hemp ⟨hstl.1, hstl.2.2.1, hstl.2.2.2⟩

theorem follows_cleanRound (hg : g.InStep now lenient) :
    Follows (cleanRound now report) g (LoopPost (fun _ g' => g' = g) fun _ g' => g' = g) := by
  refine .update fun w => ?_
  cases hslots : w.emptySlots with
  | nil =>
    simp only [World.popEmptySlot, hslots]
    exact ⟨_, .same, .ret rfl⟩
  | cons c rest =>
    simp only [World.popEmptySlot, hslots]
    refine ⟨_, .popEmpty (u := w.view) hslots hg.clean, .ite (fun _ => ?_) fun _ => ?_⟩
    · refine .modify fun _ => ⟨g, (Move.pushEmpty rfl).to' rfl ?_, .ret rfl⟩
      simp [← hg.emptied]
    · have hon : ({ g with emptied := some c } : Ghost A).on .none = { g with emptied := some c } := by
        simp [on, ← hg.focus]
      rw [← hon]
      refine (follows_cleanSlot c report (hg.kind ▸ rfl) hg.emptied hg.uncounted).andThen fun report' => ?_
      exact .ret hg.on_none

theorem follows_cleanEmptySlots (hg : g.InStep now lenient) :
    Follows (cleanEmptySlots now budget report) g fun _ g' => g' = g := by
  refine .read_andThen fun candidates => .upTo (fun _ g' => g' = g) rfl ?_
  rintro report g' rfl
  exact follows_cleanRound report hg

/-! ### The step -/

theorem follows_firstReclaim (reclaimFirst : Bool) (hkind : g.kind = .collecting now)
    (hcln : g.Clean) :
    Follows (firstReclaim now budget reclaimFirst) g.rest fun _ g' => g.rest.Grows g' :=
  .ite (fun _ => follows_reclaim _ _ hkind hcln) fun _ => .ret (.refl _)

theorem follows_collectGated (targets : List ReclaimTarget) (reclaimFirst : Bool)
    (hprepare : Quiet prepareWatermark) (hfinish : ∀ report, Quiet (finishWatermark report))
    (hg : g.InStep now cfg.allowEvictSoftPinnedObjects) (hexp : g.expected = none) :
    Follows (collectGated cfg now budget targets reclaimFirst prepareWatermark finishWatermark) g
      fun _ g' => ExpirePost now cfg.allowEvictSoftPinnedObjects budget g' := by
  rw [← hg.at_rest]
  apply seq (follows_firstReclaim budget reclaimFirst hg.kind hg.clean)
  intro first g₁ hgrw
  rw [hg.at_rest] at hgrw
  obtain ⟨hg₁, hexp₁, -⟩ := hg.grows hgrw
  refine hprepare.andThen fun watermark => quiet_beginIfRequested.andThen fun _ => ?_
  refine (follows_expireSoftPins budget first.1 hg₁.kind).andThen fun report => ?_
  rw [← hg₁.at_rest]
  apply seq (follows_retireInvalidatedPublished cfg budget report hg₁.kind hg₁.clean)
  intro swept g₂ hgrw
  rw [hg₁.at_rest] at hgrw
  obtain ⟨hg₂, hexp₂, -⟩ := hg₁.grows hgrw
  apply seq (follows_expirePending cfg budget swept.1 hg₂ (hexp₂.trans (hexp₁.trans hexp)))
  rintro report _ ⟨hg₃, found, hfnd, hdue⟩
  rw [← hg₃.at_rest]
  apply seq (follows_evictAll cfg _ _ report hg₃.evicting)
  intro report g₄ hgrw
  rw [hg₃.at_rest] at hgrw
  obtain ⟨hg₄, hfnd₄, hdue₄⟩ := hg₃.grows hgrw
  rw [← hg₄.at_rest]
  apply seq (follows_reclaim _ report hg₄.kind hg₄.clean)
  intro reclaimed g₅ hgrw
  rw [hg₄.at_rest] at hgrw
  obtain ⟨hg₅, hfnd₅, hdue₅⟩ := hg₄.grows hgrw
  refine (follows_cleanEmptySlots budget reclaimed.1 hg₅).andThen fun report => ?_
  exact (hfinish report).andThen fun _ => .ret
    ⟨hg₅, found, hfnd₅.trans (hfnd₄.trans hfnd), fun hbud => hdue₅.trans (hdue₄.trans (hdue hbud))⟩

/-- A call that is done with everything it had in hand. -/
structure Ghost.AtRest (g : Ghost A) : Prop where
  lock : g.focus.lock = none
  gate : g.gate = false
  hand : g.hand = none
  drained : g.drained = []
  spare : g.spare = []
  making : g.making.version = none
  owes : g.owes = []
  emptied : g.emptied = none
  uncounted : g.uncounted = none

theorem Ghost.AtRest.start (kind : CallKind) (lenient : Bool) :
    (start (A := A) kind lenient).AtRest :=
  ⟨rfl, rfl, rfl, rfl, rfl, rfl, rfl, rfl, rfl⟩

def StepPost (budget : CollectBudget) (report : CollectReport) (g' : Ghost A) : Prop :=
  g'.AtRest ∧ (report.busy = false → ∃ found, g'.expected = some found ∧
    (found.length ≤ budget.maxCandidates → g'.due = []))

theorem follows_collectStepInner (now : CatalogTick) (budget : CollectBudget)
    (targets : List ReclaimTarget) (reclaimFirst : Bool) {prepareWatermark : CatalogM A ℕ}
    {finishWatermark : CollectReport → CatalogM A Unit} (hprepare : Quiet prepareWatermark)
    (hfinish : ∀ report, Quiet (finishWatermark report)) :
    Follows (collectStepInner cfg now budget targets reclaimFirst prepareWatermark finishWatermark)
      (start (.collecting now) cfg.allowEvictSoftPinnedObjects) (StepPost budget) := by
  refine .update fun w => ?_
  cases hgate : w.stepGate with
  | true =>
    simp only [World.tryLockStep, hgate, Bool.not_true, Bool.false_eq_true, if_false]
    refine ⟨_, .of_view_eq ?_, .ret ⟨.start _ _, nofun⟩⟩
    simp [World.view, hgate]
    rfl
  | false =>
    simp only [World.tryLockStep, hgate, Bool.not_false, if_true]
    refine ⟨_, .gate (u := w.view) (.inr ⟨now, rfl⟩) hgate rfl, ?_⟩
    apply seq (follows_collectGated cfg budget targets reclaimFirst hprepare hfinish
      ⟨rfl, rfl, rfl, rfl, rfl, rfl, rfl, rfl, rfl, rfl, rfl, id⟩ rfl)
    rintro report _ ⟨hg', hexpire⟩
    exact .modify fun w => ⟨_, .ungate hg'.gate hg'.writing hg'.drained hg'.spare,
      .ret ⟨⟨hg'.focus ▸ rfl, rfl, hg'.hand, hg'.drained, hg'.spare, hg'.making ▸ rfl, hg'.owes, hg'.emptied,
        hg'.uncounted⟩, fun _ => hexpire⟩⟩

/-! ### Revocation -/

/-- The ghost of a revocation, with the candidates that it still has to look at. -/
structure Ghost.Revoking (sessions : List ClientSession) (writing fenced : Bool)
    (drained spare : List PendingCandidate) (g : Ghost A) : Prop where
  kind : g.kind = .revoking
  focus : g.focus = .none
  hand : g.hand = none
  gate : g.gate = true
  writing : g.writing = writing
  fenced : g.fenced = fenced
  fence : g.fence = sessions
  drained : g.drained = drained
  spare : g.spare = spare
  making : g.making = .none
  owes : g.owes = []
  emptied : g.emptied = none
  uncounted : g.uncounted = none

namespace Ghost.Revoking

variable {sessions : List ClientSession} {writing fenced : Bool}
  {drained spare : List PendingCandidate}

section

variable (h : g.Revoking sessions writing fenced drained spare)
include h

theorem on_none : g.on .none = g := by
  rw [← h.focus]
  rfl

theorem mayLock (s : SlotRef) : g.MayLock s :=
  mayLock_of_kind h.kind (.inl rfl)

end

theorem resolve (h : g.Revoking sessions writing fenced drained []) (s : SlotRef)
    (id : TransactionId) (v : VersionRef) (known : List Resolution) :
    (((g.resolve s id v).on .none).knowing known).Revoking sessions writing fenced
      (drained.filter fun c => !isFor s id v c) [] where
  kind := h.kind
  focus := rfl
  hand := h.hand
  gate := h.gate
  writing := h.writing
  fenced := h.fenced
  fence := h.fence
  drained := congrArg (filter _) h.drained
  spare := congrArg (filter _) h.spare
  making := by
    have hne : g.making ≠ .refused s id v := by rw [h.making]; exact nofun
    rw [show (((g.resolve s id v).on .none).knowing known).making = g.making from if_neg hne]
    exact h.making
  owes := h.owes
  emptied := h.emptied
  uncounted := h.uncounted

end Ghost.Revoking

/-- The candidates that are left after one has been dealt with. -/
theorem subset_of_subset_cons {α : Type} {c : α} {l rest : List α} {p : α → Bool}
    (hsub : l ⊆ c :: rest) (hc : p c = false) : l.filter p ⊆ rest := by
  intro d hd
  obtain ⟨hmem, hp⟩ := mem_filter.mp hd
  rcases mem_cons.mp (hsub hmem) with rfl | h
  · rw [hc] at hp
    cases hp
  · exact h

/-- What `pending_snapshot` shows of a candidate. -/
def SnapshotPost (sessions : List ClientSession) (g : Ghost A) (c : PendingCandidate)
    (owner : Option WriteOwner) (g' : Ghost A) : Prop :=
  match owner with
  | none => g' = (g.resolve c.slot c.transactionId c.pending).on .none
  | some owner =>
    g' = if owner ∈ sessions.map .forSession ∨ c ∉ g.drained then g.on .none
      else ({ g with drained := g.drained.filter (· ≠ c), spare := [c] } : Ghost A).on .none

variable {sessions : List ClientSession}

theorem follows_pendingSnapshot {drained : List PendingCandidate}
    (c : PendingCandidate) (hg : g.Revoking sessions false true drained []) :
    Follows (A := A) (pendingSnapshot c) (g.on .none) (SnapshotPost sessions g c) := by
  apply seq (follows_upgradeVersion c.slot c.transactionId c.pending _)
  intro upgraded g' hg'
  subst hg'
  cases upgraded with
  | false => exact .ret rfl
  | true =>
  apply seq (follows_isCommitted c.slot c.transactionId c.pending _)
  intro committed g' hg'
  subst hg'
  cases committed with
  | true => exact .ret rfl
  | false =>
  apply seq (follows_upgradeSlot_resolve c.slot c.transactionId c.pending g)
  intro upgraded g' hg'
  subst hg'
  cases upgraded with
  | false => exact .ret rfl
  | true =>
  refine lock_andThen (hg.mayLock c.slot) (.read fun w => ?_)
  cases hactv : w.active c.slot with
  | none =>
    refine ⟨_, .resolve c.slot c.transactionId c.pending
      (.inr (.inr (.inr (View.not_stagedAt_of_none hactv)))), ?_⟩
    exact unlock_andThen (g := g.resolve _ _ _) (f := .locked c.slot) rfl rfl (.ret rfl)
  | some a =>
    by_cases hmat : a.id = c.transactionId ∧ a.phase = .staged c.pending
    swap
    · refine ⟨_, .resolve c.slot c.transactionId c.pending
        (.inr (.inr (.inr (View.not_stagedAt_of_ne hactv hmat)))), ?_⟩
      refine unlock_andThen (g := g.resolve _ _ _) (f := .locked c.slot) rfl rfl ?_
      simp only [hmat, if_false]
      exact .ret rfl
    by_cases hownr : a.owner ∈ sessions.map .forSession ∨ c ∉ g.drained
    · refine ⟨_, .same, unlock_andThen (g := g) (f := .locked c.slot) rfl rfl ?_⟩
      simp only [hmat, and_self, if_true]
      exact .ret (by simp only [SnapshotPost, hownr, if_true]; rfl)
    let g₁ : Ghost A := { g with drained := g.drained.filter (· ≠ c), spare := [c] }
    have hmove : Move w.view (g.on (.locked c.slot)) w.view (g₁.on (.locked c.slot)) := by
      refine (Move.spare (u := w.view) (g := g.on (.locked c.slot)) (c := c) hg.gate hg.writing
        (not_not.mp fun h => hownr (.inr h)) hactv hmat.2 ?_).to' rfl ?_
      · intro session hsess heq
        exact hownr (.inl (heq ▸ mem_map_of_mem (hg.fence ▸ hsess)))
      · simp [g₁, on, hg.spare]
    refine ⟨_, hmove, unlock_andThen (g := g₁) (f := .locked c.slot) rfl rfl ?_⟩
    simp only [hmat, and_self, if_true]
    exact .ret (by simp only [SnapshotPost, hownr, if_false]; rfl)

/-- Between two candidates of a revocation, with those that are still ahead. -/
def RevokeLoop (sessions : List ClientSession) (rest : List PendingCandidate)
    (g : Ghost A) : Prop :=
  rest ⊆ g.seen ∧ ∃ left ⊆ rest, g.Revoking sessions false true left []

theorem follows_revokeCandidate (cfg : CatalogConfig)
    {owners : List WriteOwner} (howrs : ∀ o, o ∈ owners ↔ o ∈ sessions.map .forSession)
    (now : CatalogTick) (revoked : ℕ) {c : PendingCandidate} {rest : List PendingCandidate}
    (hloop : RevokeLoop sessions (c :: rest) g) :
    Follows (A := A) (revokeCandidate cfg owners now revoked c) g fun _ g' =>
    RevokeLoop sessions rest g' := by
  obtain ⟨hseen, left, hsub, hg⟩ := hloop
  obtain ⟨hmem, hseen⟩ := cons_subset.mp hseen
  have hrsv : ∀ known, RevokeLoop sessions rest
      (((g.resolve c.slot c.transactionId c.pending).on .none).knowing known) := fun known =>
    ⟨hseen, _, subset_of_subset_cons (p := fun d => !isFor c.slot c.transactionId c.pending d) hsub
      (by simp [isFor]), hg.resolve c.slot c.transactionId c.pending known⟩
  rw [← hg.on_none]
  apply seq (follows_pendingSnapshot c hg)
  intro owner g' hg'
  cases owner with
  | none =>
    obtain rfl : g' = (g.resolve c.slot c.transactionId c.pending).on .none := hg'
    exact .ret (hrsv g.known)
  | some owner =>
    simp only [SnapshotPost] at hg'
    subst hg'
    by_cases hownr : owner ∈ sessions.map .forSession
    · simp only [hownr, (howrs owner).mpr hownr, true_or, if_true]
      apply seq (follows_abortPending cfg c.transactionId c.pending now (hg.mayLock c.slot)
        ⟨hg.owes, hg.emptied⟩)
      rintro _ g' ⟨known, rfl⟩
      exact .ret (hrsv known)
    simp only [hownr, mt (howrs owner).mp hownr, false_or, if_false]
    have hlate : ∀ now', g.kind = .collecting now' → now' < c.deadline := by
      intro now' hnow
      cases hg.kind.symm.trans hnow
    by_cases hdrn : c ∈ g.drained
    · simp only [hdrn, not_true_eq_false, if_false]
      refine .modify fun w => ⟨_, .requeue c hg.gate hg.writing hlate hmem (by simp [on]), .ret ⟨hseen, ?_⟩⟩
      refine ⟨_, subset_of_subset_cons (p := (· ≠ c)) hsub (by simp),
        { hg with focus := rfl, drained := ?_, spare := ?_ }⟩
      · simp [on, hg.drained]
      · simp [on]
    · simp only [hdrn, not_false_eq_true, if_true]
      refine .modify fun w => ⟨_, .requeue c hg.gate hg.writing hlate hmem hdrn, .ret ⟨hseen, ?_⟩⟩
      refine ⟨left, fun d hd => ?_, { hg with focus := rfl, spare := ?_ }⟩
      · refine (mem_cons.mp (hsub hd)).resolve_left ?_
        rintro rfl
        exact hdrn (hg.drained ▸ hd)
      · simp [on, hg.spare]

theorem follows_drain (sessions : List ClientSession) (hg : g.Revoking sessions true false [] []) :
    Follows (iterate drainRound []) g fun candidates g' =>
      candidates ⊆ g'.seen ∧ ∃ drained ⊆ candidates, g'.Revoking sessions true true drained [] := by
  refine .iterate_ret (fun candidates g' =>
    candidates ⊆ g'.seen ∧ ∃ drained ⊆ candidates, g'.Revoking sessions true false drained [])
    ⟨nil_subset _, [], List.Subset.refl _, hg⟩ ?_
  rintro candidates g' ⟨hseen, drained, hsub, hg'⟩
  refine .update fun w => ?_
  cases hcand : w.pending.candidates with
  | nil =>
    simp only [World.popPending, hcand]
    exact ⟨_, .finishDrain hg'.writing hcand, .ret ⟨hseen, drained, hsub, { hg' with fenced := rfl }⟩⟩
  | cons c rest =>
    simp only [World.popPending, hcand]
    refine ⟨_, .popDrained (u := w.view) hg'.writing hcand, .ret ⟨?_, c :: drained, ?_,
      { hg' with drained := congrArg (c :: ·) hg'.drained }⟩⟩
    · refine append_subset.mpr ⟨fun d hd => mem_cons_of_mem _ (hseen hd), ?_⟩
      simp
    · intro d hd
      rcases mem_cons.mp hd with rfl | h
      · simp
      · exact mem_append_left _ (hsub h)

/-- Sessions have nonzero generations, so no owner is filtered out. -/
theorem mem_filter_forSession (o : WriteOwner) :
    o ∈ (sessions.map .forSession).filter (fun owner => owner.sessionGeneration ≠ 0) ↔
      o ∈ sessions.map .forSession := by
  simp only [mem_filter, and_iff_left_iff_imp, mem_map]
  rintro ⟨session, -, rfl⟩
  exact decide_eq_true session.generation_pos.ne'

/-- How a revocation ends: it has drained the queue after the sessions were seen inactive. -/
def CleanupPost (sessions : List ClientSession) (g' : Ghost A) : Prop :=
  g'.AtRest ∧ g'.fence = sessions ∧ (sessions = [] ∨ g'.fenced = true)

theorem follows_cleanupBatch (cfg : CatalogConfig) (sessions : List ClientSession)
    (now : CatalogTick) :
    Follows (A := A) (cleanupBatch cfg sessions now) (start .revoking) fun _ g' =>
    CleanupPost sessions g' := by
  refine .await fun w _ w' hina => ?_
  simp only [Option.ite_none_right_eq_some, Option.some.injEq, Prod.mk.injEq] at hina
  obtain ⟨hina, -, rfl⟩ := hina
  refine ⟨_, .fence sessions rfl fun session hsess => ?_, ?_⟩
  · exact Bool.not_eq_eq_eq_not.mp (all_eq_true.mp hina session hsess)
  refine .ite (fun hemp => ?_) fun _ => ?_
  · have hnil : sessions = [] := by
      rw [List.isEmpty_iff] at hemp
      refine List.eq_nil_iff_forall_not_mem.mpr fun session hsess => ?_
      have hmem := (mem_filter_forSession _).mpr (mem_map_of_mem hsess)
      rw [hemp] at hmem
      exact not_mem_nil hmem
    exact .ret ⟨⟨rfl, rfl, rfl, rfl, rfl, rfl, rfl, rfl, rfl⟩, rfl, .inl hnil⟩
  refine .await fun w _ w' hlock => ?_
  simp only [World.lockStep, Option.ite_none_left_eq_some, Option.some.injEq,
    Prod.mk.injEq] at hlock
  obtain ⟨hgate, -, rfl⟩ := hlock
  refine ⟨_, .gate (u := w.view) (.inl rfl) (Bool.not_eq_true _ ▸ hgate) rfl, .await fun w _ w' hclose => ?_⟩
  simp only [World.closeStageGate, Option.ite_none_right_eq_some, Option.some.injEq,
    Prod.mk.injEq] at hclose
  obtain ⟨⟨hwr, hreaders⟩, -, rfl⟩ := hclose
  refine ⟨_, .closeGate (u := w.view) rfl rfl hwr (by simp [World.view, hreaders]) rfl, ?_⟩
  apply seq (follows_drain sessions ⟨rfl, rfl, rfl, rfl, rfl, rfl, rfl, rfl, rfl, rfl, rfl, rfl, rfl⟩)
  rintro candidates g' ⟨hseen, drained, hsub, hg'⟩
  refine .modify fun w => ⟨_, .openGate (u := w.view) hg'.writing, ?_⟩
  have hloop : RevokeLoop sessions candidates { g' with writing := false } :=
    ⟨hseen, drained, hsub, { hg' with writing := rfl }⟩
  apply seq (.foldOver (fun rest _ g' => RevokeLoop sessions rest g') hloop ?_)
  · rintro revoked g' ⟨-, _, hleft, hg'⟩
    rw [subset_nil] at hleft
    subst hleft
    exact .modify fun w => ⟨_, .ungate hg'.gate hg'.writing hg'.drained hg'.spare,
      .ret ⟨⟨hg'.focus ▸ rfl, rfl, hg'.hand, hg'.drained, hg'.spare, hg'.making ▸ rfl, hg'.owes, hg'.emptied,
        hg'.uncounted⟩, hg'.fence, .inr hg'.fenced⟩⟩
  · intro c rest revoked g' h
    exact follows_revokeCandidate cfg mem_filter_forSession now revoked h

end Cakemaster.Object
