import Cakemaster.Object.Invisibility

/-!
# No pending write is forgotten

A staged transaction has a candidate in the pending queue, or a running call has the
candidate in hand. A collector step that covers the queue therefore ends every staged
transaction whose deadline has come.
-/

namespace Cakemaster.Object

open Machine Segment List

variable {A : UnitAllocator} {x x' : Ghost A} {u u' : View A}
variable {gs : ℕ → Ghost A} {s : SlotRef} {id : TransactionId} {v : VersionRef}

/-- The candidate is for the transaction and its version. -/
def PendingCandidate.IsFor (c : PendingCandidate) (s : SlotRef) (id : TransactionId)
    (v : VersionRef) : Prop :=
  c.slot = s ∧ c.transactionId = id ∧ c.pending = v

/-! ### What one move does to candidates -/

namespace Move

variable (h : Move u x u' x')
include h

theorem pending_kept (hc : c ∈ u.pending) : c ∈ u'.pending ∨ c ∈ x'.drained ++ x'.spare := by
  cases h with
  | enqueue | requeue => exact .inl (mem_append_left _ hc)
  | popSpare _ _ hpend =>
    rw [hpend] at hc
    refine (mem_cons.mp hc).symm.imp_right fun hc => mem_append_right _ ?_
    exact hc ▸ mem_cons_self
  | popDrained _ hpend =>
    rw [hpend] at hc
    refine (mem_cons.mp hc).symm.imp_right fun hc => mem_append_left _ ?_
    exact hc ▸ mem_cons_self
  | _ => exact .inl hc

theorem unqueued_kept (hm : x.making = .unqueued s id v o) :
    x'.making = .unqueued s id v o ∨ ∃ c ∈ u'.pending, c.IsFor s id v := by
  cases h with
  | @enqueue o' c hm' =>
    cases hm.symm.trans hm'
    exact .inr ⟨c, mem_append_right _ (mem_singleton_self c), rfl, rfl, rfl⟩
  | resolve | abandon =>
    left
    simp [Ghost.resolve, hm]
  | make _ _ hm' | enterGate hm' | stage hm' | leaveGate hm' | backOut hm' | pass hm' | refuse hm'
  | discard hm' =>
    cases hm.symm.trans hm'
  | _ => exact .inl hm

/-- A candidate in hand stays there, goes back to the queue, or is not needed any more. -/
theorem popped_kept (hc : c ∈ x.drained ++ x.spare) :
    c ∈ x'.drained ++ x'.spare ∨ c ∈ u'.pending ∨ u.Resolved c.slot c.transactionId c.pending ∨
      u'.active c.slot = none := by
  -- candidates for one transaction are given up
  have hfilter : ∀ s id v, (Ghost.isFor s id v c = true → u.Resolved c.slot c.transactionId c.pending ∨
      u'.active c.slot = none) → c ∈ (x.resolve s id v).drained ++ (x.resolve s id v).spare ∨
      c ∈ u'.pending ∨ u.Resolved c.slot c.transactionId c.pending ∨ u'.active c.slot = none := by
    intro s id v hdone
    by_cases hfor : Ghost.isFor s id v c = true
    · exact .inr (.inr (hdone hfor))
    · refine .inl (mem_append.mpr ((mem_append.mp hc).imp (fun hc => ?_) fun hc => ?_))
      · exact mem_filter.mpr ⟨hc, by simpa using hfor⟩
      · exact mem_filter.mpr ⟨hc, by simpa using hfor⟩
  cases h with
  | resolve s id v hrsv =>
    refine hfilter s id v fun hfor => .inl ?_
    obtain ⟨rfl, rfl, rfl⟩ : c.slot = s ∧ c.transactionId = id ∧ c.pending = v :=
      of_decide_eq_true hfor
    exact hrsv
  | @abandon s a v =>
    refine hfilter s a.id v fun hfor => .inr ?_
    obtain ⟨rfl, -, -⟩ : c.slot = s ∧ c.transactionId = a.id ∧ c.pending = v :=
      of_decide_eq_true hfor
    simp [View.active, View.setStanding, View.setVersion, View.setActive, View.setSlot]
  | popSpare =>
    refine .inl (mem_append.mpr ((mem_append.mp hc).imp_right ?_))
    exact mem_cons_of_mem _
  | popDrained => exact .inl (mem_cons_of_mem _ hc)
  | requeue d =>
    by_cases hd : c = d
    · exact .inr (.inl (mem_append_right _ (mem_singleton.mpr hd)))
    · refine .inl (mem_append.mpr ((mem_append.mp hc).imp_right fun hc => ?_))
      exact mem_filter.mpr ⟨hc, decide_eq_true hd⟩
  | @spare d =>
    left
    by_cases hd : c = d
    · exact mem_append_right _ (hd ▸ mem_cons_self)
    · refine mem_append.mpr ((mem_append.mp hc).imp (fun hc => ?_) (mem_cons_of_mem _))
      exact mem_filter.mpr ⟨hc, decide_eq_true hd⟩
  | _ => exact .inl hc

end Move

/-! ### Where candidates are -/

/-- The candidate of a staged transaction is queued or in the hand of a call. -/
inductive Waits (u : View A) (gs : ℕ → Ghost A) (s : SlotRef) (id : TransactionId)
    (v : VersionRef) : Prop
  | queued (h : ∃ c ∈ u.pending, c.IsFor s id v)
  | staging (h : ∃ t, ∃ o, (gs t).making = .unqueued s id v o)
  | popped (h : ∃ t, ∃ c ∈ (gs t).drained ++ (gs t).spare, c.IsFor s id v)

/-- A thread that has no candidate in hand makes way for another call. -/
theorem Waits.restart (h : Waits u gs s id v) (hrest : (gs t).AtRest) :
    Waits u (Function.update gs t x') s id v := by
  cases h with
  | queued h => exact .queued h
  | staging h =>
    refine .staging (exists_update_of_not (fun x => ∃ o, x.making = .unqueued s id v o) h ?_)
    rintro ⟨o, hm⟩
    have hver := hrest.making
    rw [hm] at hver
    cases hver
  | popped h =>
    refine .popped (exists_update_of_not (fun x => ∃ c ∈ x.drained ++ x.spare, c.IsFor s id v) h ?_)
    rintro ⟨c, hc, -⟩
    rw [hrest.drained, hrest.spare] at hc
    cases hc

theorem Waits.step (hmove : Move u (gs t) u' x') (hrsv : ¬u.Resolved s id v)
    (hactv : u'.active s ≠ none) (h : Waits u gs s id v) :
    Waits u' (Function.update gs t x') s id v := by
  have hself : ∀ c ∈ x'.drained ++ x'.spare, c.IsFor s id v →
    Waits u' (Function.update gs t x') s id v :=
    fun c hc hfor =>
    .popped (exists_update_self (fun x => ∃ c ∈ x.drained ++ x.spare, c.IsFor s id v) ⟨c, hc, hfor⟩)
  cases h with
  | queued h =>
    obtain ⟨c, hc, hfor⟩ := h
    rcases hmove.pending_kept hc with hc | hc
    · exact .queued ⟨c, hc, hfor⟩
    · exact hself c hc hfor
  | staging h =>
    have hkeep : (∃ o, (gs t).making = .unqueued s id v o) →
        (∃ o, x'.making = .unqueued s id v o) ∨ ∃ c ∈ u'.pending, c.IsFor s id v := by
      rintro ⟨o, hm⟩
      exact (hmove.unqueued_kept hm).imp_left fun hm => ⟨o, hm⟩
    rcases exists_update (fun x => ∃ o, x.making = .unqueued s id v o) h hkeep with h | h
    · exact .staging h
    · exact .queued h
  | popped h =>
    have hkeep : (∃ c ∈ (gs t).drained ++ (gs t).spare, c.IsFor s id v) →
        (∃ c ∈ x'.drained ++ x'.spare, c.IsFor s id v) ∨ ∃ c ∈ u'.pending, c.IsFor s id v := by
      rintro ⟨c, hc, rfl, rfl, rfl⟩
      rcases hmove.popped_kept hc with hc | hc | hc | hc
      · exact .inl ⟨c, hc, rfl, rfl, rfl⟩
      · exact .inr ⟨c, hc, rfl, rfl, rfl⟩
      · exact absurd hc hrsv
      · exact absurd hc hactv
    rcases exists_update (fun x => ∃ c ∈ x.drained ++ x.spare, c.IsFor s id v) h hkeep with h | h
    · exact .popped h
    · exact .queued h

/-- A transaction that waits with a version that is not sealed still needs its candidate. -/
theorem View.Wellformed.not_resolved (hu : u.Wellformed)
    (ha : u.active s = some a) (hph : a.phase = .staged v) (hseal : (u.versions v).sealed = false) :
    ¬u.Resolved s a.id v := by
  rintro (hrcl | hseal' | hidx | hgone)
  · have hstd : (u.versions v).standing = .staged s := (hu.staged ha hph).1
    rcases (hu.sane v).reclaimed hrcl with h | h
    · cases hstd.symm.trans h
    · rw [hstd] at h
      cases h
  · simp [hseal] at hseal'
  · simp [hu.used (.inr (ha ▸ Option.some_ne_none a))] at hidx
  · exact hgone ⟨a, ha, rfl, hph⟩

/-! ### Runs -/

/-- Staged transactions have candidates, and collector steps end those that are due. -/
structure Pended (u : View A) (gs : ℕ → Ghost A) (done : Returned A) : Prop where
  waits : ∀ s a v, u.active s = some a → a.phase = .staged v → (u.versions v).sealed = false →
    Waits u gs s a.id v
  expired : ∀ d ∈ done, ∀ now budget targets watermark report,
    d.call = .collectStep now budget targets watermark → d.result = .collected report →
    report.busy = false → ∃ p ∈ d.trace, p.1.stepGate = false ∧ p.2.stepGate = true ∧
      ∃ q ∈ d.trace, p.1.pending.candidates ⊆ q.1.pending.candidates ∧
        (q.1.pending.candidates.length ≤ budget.maxCandidates →
          ∀ c ∈ q.1.pending.candidates, c.deadline ≤ now → u.Over c)

theorem pended_lasting : Lasting (A := A) cfg (fun _ _ => True) Pended where
  new {w} hw := by
    refine ⟨fun s a v ha => ?_, by simp⟩
    have hnone : w.view.active s = none := (hw.slots s).2.1
    cases hnone.symm.trans ha
  invoke {u gs done t} kind _ h hidle := by
    have hrest : (gs t).AtRest := hidle ▸ .start _ _
    exact ⟨fun s a v ha hph hseal => (h.waits s a v ha hph hseal).restart hrest, h.expired⟩
  step {u gs done t u' x'} hcore h hmove _ := by
    have hrely := hcore.rely hmove
    refine ⟨fun s a v ha hph hseal => ?_, fun d hd now budget targets watermark report hcall hres hbusy => ?_⟩
    · rcases hmove.active_cases s with hsame | htra
      · rw [hsame] at ha
        have hunsealed : (u.versions v).sealed = false := by
          by_contra hseal'
          have hv := ((hrely.versions v).sealed (Bool.not_eq_false _ ▸ hseal')).1
          exact Bool.false_ne_true (hseal.symm.trans hv)
        refine (h.waits s a v ha hph hunsealed).step hmove (hcore.wellformed.not_resolved ha hph hunsealed) ?_
        rw [hsame, ha]
        exact Option.some_ne_none a
      · rw [ha] at htra
        cases htra with
        | insert | claim => cases hph
        | stage _ _ _ hm' =>
          cases hph
          exact .staging (exists_update_self (fun x => ∃ o, x.making = .unqueued s _ v o) ⟨_, hm'⟩)
    · obtain ⟨p, hp, hfree, hgate, q, hq, hsub, hover⟩ :=
        h.expired d hd now budget targets watermark report hcall hres hbusy
      exact ⟨p, hp, hfree, hgate, q, hq, hsub, fun hle c hc hdue => hrely.isOver (hover hle c hc hdue)⟩
  finish {u gs done t call result trace} hcore h hpost htrk := by
    have hrest := CatalogCall.Post.atRest hpost
    refine ⟨fun s a v ha hph hseal => (h.waits s a v ha hph hseal).restart hrest,
      forall_mem_cons.mpr ⟨?_, h.expired⟩⟩
    rintro now budget targets watermark report rfl rfl hbusy
    obtain ⟨_, hr, -, hfnd⟩ := hpost
    cases hr
    obtain ⟨found, hexp, hdue⟩ := hfnd hbusy
    obtain ⟨herly, _, hkind, hdone⟩ := (hcore.sound t).expected found hexp
    cases htrk.kind.symm.trans hkind
    obtain ⟨p, hp, hfree, hgate, hp'⟩ := htrk.early (.inr (by simp [hexp]))
    obtain ⟨q, hq, rfl⟩ := htrk.expected found hexp
    refine ⟨p, hp, hfree, hgate, q, hq, hp' ▸ herly, fun hle c hc hreached => ?_⟩
    rcases hdone c hc hreached with hmem | hmem | hover
    · simp [hdue hle] at hmem
    · simp [hrest.spare] at hmem
    · exact hover

/-- A running call commits the transaction and is in the critical section of its slot. -/
def Committing (c : RunningCatalog A) (s : SlotRef) (id : TransactionId) : Prop :=
  ∃ t r transaction content now, c.threads t = some r ∧ r.call = .commit transaction content now ∧
    transaction.slot = s ∧ transaction.id = id ∧ (c.shared.slots s).locked = true

/-- Where the candidate of a staged transaction is: in the queue, in the hand of the
stage call, or in the hand of a collector step or revocation that took it off the queue
and has not put it back. A commit that is about to publish the version needs none. -/
inductive CandidateKept (c : RunningCatalog A) (s : SlotRef) (id : TransactionId)
    (v : VersionRef) : Prop
  | queued (candidate : PendingCandidate) (h : candidate ∈ c.shared.pending.candidates)
      (hfor : candidate.IsFor s id v)
  | staging (t : ℕ) (r : Running (World A) (CatalogCall A) CatalogResult) (hr : c.threads t = some r)
      (hcall : ∃ claim content replicas accounting, r.call = .stage claim content replicas accounting)
      (h : Since (onViews (View.Stages s id v)) (onViews (View.Queues s id v)) r.trace)
  | collecting (t : ℕ) (r : Running (World A) (CatalogCall A) CatalogResult) (hr : c.threads t = some r)
      (hcall : (∃ now budget targets watermark, r.call = .collectStep now budget targets watermark) ∨
        ∃ sessions now, r.call = .cleanupBatch sessions now)
      (candidate : PendingCandidate) (hfor : candidate.IsFor s id v)
      (h : Since (onViews (View.TakesPending candidate)) (onViews (View.PutsPending candidate)) r.trace)
  | committing (h : Committing c s id)

/-- Pending writes in every interleaving. -/
structure PendingWritesKept (c : RunningCatalog A) : Prop where
  kept : ∀ s a v, c.shared.active s = some a → a.phase = .staged v → CandidateKept c s a.id v
  -- a step that takes the gate, and then finds a queue that its budget covers
  expired : ∀ d ∈ c.completed, ∀ now budget targets watermark report,
    d.call = .collectStep now budget targets watermark → d.result = .collected report →
    report.busy = false → ∃ p ∈ d.trace, p.1.stepGate = false ∧ p.2.stepGate = true ∧
      ∃ q ∈ d.trace, p.1.pending.candidates ⊆ q.1.pending.candidates ∧
        (q.1.pending.candidates.length ≤ budget.maxCandidates →
          ∀ candidate ∈ q.1.pending.candidates, candidate.deadline ≤ now →
            c.shared.Staged candidate.slot candidate.transactionId candidate.pending →
            Committing c candidate.slot candidate.transactionId)

theorem Core.committing (hcore : Core c.shared.view gs)
    (hgh : Outline.Ghosts (catalogOutline cfg hooks) Track c gs) (ha : c.shared.active s = some a)
    (hph : a.phase = .staged v) (hseal : (c.shared.view.versions v).sealed = true) :
    Committing c s a.id := by
  obtain ⟨t, hf⟩ := hcore.sealing ha hph hseal
  obtain ⟨r, hr, htrk⟩ :=
    hgh.exists_running (t := t) (by rintro h; simp [h, catalogOutline, Ghost.start] at hf)
  obtain ⟨transaction, content, now, hcall, hslot, hid⟩ :=
    CatalogCall.eq_commit_of_kind (htrk.kind.symm.trans ((hcore.fitting t).sealing s a v hf))
  exact ⟨t, r, transaction, content, now, hr, hcall, hslot, hid, ((hcore.sound t).lock s (hf ▸ rfl)).1⟩

/-- No pending write is forgotten: its candidate is queued or in the hand of a running
call, and a collector step that covers the queue ends every one that is due. -/
theorem pending_writes_kept {cfg : CatalogConfig} {hooks : WatermarkHooks A}
    {c : RunningCatalog A} (hreach : (catalogSystem cfg hooks).Reachable c) :
    PendingWritesKept c := by
  obtain ⟨_, hghosts, hcore, hpended⟩ := pended_lasting.reachable hreach
  refine ⟨fun s a v ha hphase => ?_, fun d hd now budget targets watermark report hcall hresult hbusy => ?_⟩
  · cases hsealed : (c.shared.view.versions v).sealed with
    | true => exact .committing (hcore.committing hghosts ha hphase hsealed)
    | false =>
      cases hpended.waits s a v ha hphase hsealed with
      | queued h =>
        obtain ⟨candidate, hmem, hfor⟩ := h
        exact .queued candidate hmem hfor
      | staging h =>
        obtain ⟨t, o, hm⟩ := h
        obtain ⟨r, hr, htrack⟩ :=
          hghosts.exists_running (t := t) (by rintro h; simp [h, catalogOutline, Ghost.start] at hm)
        obtain ⟨_, hkind⟩ := (hcore.fitting t).staging (by simp [hm])
        refine .staging t r hr (CatalogCall.eq_stage_of_kind (htrack.kind.symm.trans hkind)) ?_
        exact htrack.unqueued s a.id v o hm
      | popped h =>
        obtain ⟨t, candidate, hmem, hfor⟩ := h
        obtain ⟨r, hr, htrack⟩ := hghosts.exists_running (t := t)
          (by rintro h; simp [h, catalogOutline, Ghost.start] at hmem)
        have hgate := (hcore.sound t).drained
          ((List.mem_append.mp hmem).imp List.ne_nil_of_mem List.ne_nil_of_mem)
        refine .collecting t r hr ?_ candidate hfor (htrack.popped candidate hmem)
        rcases (hcore.fitting t).gate hgate with hkind | ⟨now, hkind⟩
        · exact .inr (CatalogCall.eq_cleanupBatch_of_kind (htrack.kind.symm.trans hkind))
        · exact .inl ⟨now, CatalogCall.eq_collectStep_of_kind (htrack.kind.symm.trans hkind)⟩
  · obtain ⟨p, hp, hfree, hgate, q, hq, hsub, hover⟩ :=
      hpended.expired d hd now budget targets watermark report hcall hresult hbusy
    refine ⟨p, hp, hfree, hgate, q, hq, hsub, fun hle candidate hc hdue hstaged => ?_⟩
    have hsealed := (hover hle candidate hc hdue).2 hstaged
    obtain ⟨a, ha, hid, hphase⟩ := hstaged
    exact hid ▸ hcore.committing hghosts ha hphase hsealed

set_option maxRecDepth 20000 in
/-- A staged write that a collector step finds overdue. -/
theorem pending_writes_kept_expired :
    ∃ c, Sample.system.Reachable c ∧ (∃ d ∈ c.completed, d.result = .collected
      { expiredPending := 1, reclaimedObjects := 1, reclaimedBytes := 8, reclaimedMemoryBytes := 8 }) ∧
      c.shared.pending.candidates = [] ∧ PendingWritesKept c := by
  have hreach := Sample.reachable_after (Sample.stage ++ Sample.collect 30010)
  exact ⟨_, hreach, by decide +kernel, by decide +kernel, pending_writes_kept hreach⟩

end Cakemaster.Object
