import Cakemaster.Rpc.ConnectionRuns

/-!
# Multiplexing

What the calls of a connection observe in all runs: each has at most one outcome, an answer carries
the sequence number of the caller's own request, no frame goes to two callers, and after an error
nobody is left waiting. -/

namespace Cakemaster.Rpc

open Wire ClientState Option

variable {config : ClientConfig} {s s' : ClientState} {i : ℕ}
variable {t : Turn} {answer : Answer}

/-! ### Time passes -/

/-- What a step of the connection leaves as it is. -/
structure Passes (s s' : ClientState) : Prop where
  untouched : Untouched s.calls s'.calls
  entered : s'.entered = s.entered
  processed : s.processed ⊆ s'.processed

theorem Passes.of_calls (h : Untouched s.calls s'.calls)
    (hrest : (s'.entered, s'.processed) = (s.entered, s.processed)) :
    Passes s s' := by
  obtain ⟨hentd, hproc⟩ := Prod.mk.inj hrest
  exact ⟨h, hentd, fun q hq => hproc ▸ hq⟩

theorem passes_cancelStep (hs : cancelStep s t answer = some s') : Passes s s' := by
  unfold cancelStep at hs
  split at hs
  · split at hs
    next q rest _ _ =>
      cases hs
      refine ⟨untouched_revoke q, ?_, List.subset_append_left _ _⟩
      show (revoke s q).entered = s.entered
      unfold revoke
      split <;> rfl
    next => cases hs
  · cases hs
    exact .of_calls (.refl _) rfl
  · cases hs

theorem passes_fillStep (hs : fillStep config s t answer = some s') : Passes s s' := by
  unfold fillStep at hs
  repeat' split at hs
  all_goals cases hs
  all_goals exact .of_calls (.refl _) rfl

theorem passes_checkStep (hs : checkStep s t = some s') : Passes s s' := by
  unfold checkStep at hs
  repeat' split at hs
  all_goals cases hs
  · exact .of_calls untouched_forget rfl
  · exact .of_calls (.refl _) rfl

theorem passes_handStep (hs : handStep s t answer = some s') : Passes s s' := by
  unfold handStep at hs
  split at hs
  · cases hs
  · dsimp only at hs
    split at hs
    · cases hs
      exact .of_calls (untouched_complete _) rfl
    · split at hs
      all_goals cases hs
      all_goals exact .of_calls (.refl _) rfl

theorem passes_flushStep (hs : flushStep s t answer = some s') : Passes s s' := by
  unfold flushStep at hs
  repeat' split at hs
  all_goals cases hs
  all_goals exact .of_calls (.refl _) rfl

theorem passes_receiveStep (hs : receiveStep s t answer = some s') : Passes s s' := by
  unfold receiveStep at hs
  split at hs
  · split at hs
    next f =>
      cases hs
      unfold deliver
      dsimp only
      split
      · exact .of_calls (untouched_complete _) rfl
      · exact .of_calls (.refl _) rfl
    all_goals cases hs
    all_goals exact .of_calls (.refl _) rfl
  · cases hs
    exact .of_calls (.refl _) rfl

theorem passes_judgeStep (t : Turn) : Passes s (judgeStep s t) := by
  unfold judgeStep
  repeat' split
  all_goals exact .of_calls (.refl _) rfl

theorem passes_drainStep (hs : drainStep s error answer = some s') : Passes s s' := by
  unfold drainStep at hs
  split at hs
  · obtain ⟨_, -, hret⟩ := bind_eq_some_iff.mp hs
    cases hret
    exact .of_calls (untouched_complete _) rfl
  · cases hs
  · split at hs
    all_goals cases hs
    · exact .of_calls (untouched_complete _) rfl
    · exact .of_calls (untouched_complete _) rfl
    · exact .of_calls (.refl _) rfl

theorem passes_connectionStep (hs : connectionStep config s answer = some s') : Passes s s' := by
  unfold connectionStep at hs
  split at hs
  · exact passes_cancelStep hs
  · exact passes_fillStep hs
  · exact passes_checkStep hs
  · exact passes_handStep hs
  · exact passes_flushStep hs
  · exact passes_receiveStep hs
  · cases hs
    exact passes_judgeStep _
  · cases hs
    exact .of_calls (.refl _) rfl
  · exact passes_drainStep hs
  · cases hs
    exact .of_calls untouched_dropFields rfl
  all_goals cases hs

/-- What stays from one state to a later one. -/
structure Later (s s' : ClientState) : Prop where
  entered : s.entered ≤ s'.entered
  processed : s.processed ⊆ s'.processed
  request : ∀ i f, (s.calls i).request = some f → (s'.calls i).request = some f
  done : ∀ i result, (s.calls i).stage = .done result → (s'.calls i).stage = .done result
  ended : s.result.isSome → s'.result = s.result ∧ ∀ i a, (s'.calls i).Holds a → (s.calls i).Holds a

namespace Later

theorem refl (s : ClientState) : Later s s :=
  ⟨le_rfl, List.Subset.refl _, fun _ _ h => h, fun _ _ h => h, fun _ => ⟨rfl, fun _ _ h => h⟩⟩

theorem trans (h : Later s₁ s₂) (h' : Later s₂ s₃) : Later s₁ s₃ where
  entered := h.entered.trans h'.entered
  processed := List.Subset.trans h.processed h'.processed
  request i f hf := h'.request i f (h.request i f hf)
  done i result hi := h'.done i result (h.done i result hi)
  ended hres := by
    obtain ⟨hsame, hhld⟩ := h.ended hres
    obtain ⟨hsame', hhld'⟩ := h'.ended (by rwa [hsame])
    exact ⟨hsame'.trans hsame, fun i a ha => hhld i a (hhld' i a ha)⟩

end Later

theorem CallFrame.request_of (h : CallFrame s s' i) (j : ℕ) (f : RequestFrame)
    (hf : (s.calls j).request = some f) :
    (s'.calls j).request = some f := by
  by_cases hji : j = i
  · subst hji
    exact h.request f hf
  · rw [h.others j hji, hf]

theorem CallFrame.later (h : CallFrame s s' i) : Later s s' where
  entered := h.entered.ge
  processed := fun q hq => h.processed ▸ hq
  request := h.request_of
  done j result hj := by
    by_cases hji : j = i
    · -- a call that is done takes no step
      subst hji
      have hrank := h.rank
      rw [hj] at hrank
      exact absurd hrank (Nat.not_lt_zero _)
    · rw [h.others j hji, hj]
  ended _ := by
    refine ⟨h.result, fun j a ha => ?_⟩
    by_cases hji : j = i
    · subst hji
      exact h.holds a ha
    · rwa [h.others j hji] at ha

section

variable (h : Inv config s)
include h

/-- The place of the connection does not depend on what the calls do. -/
theorem Inv.of_calls (hcore : Core config s')
    (hreq : ∀ j f, (s.calls j).request = some f → (s'.calls j).request = some f)
    (hconn : s'.connection = s.connection) (hsent : s'.sent = s.sent) (hres : s'.result = s.result)
    (hproc : s'.processed = s.processed) (hopen : s'.receiversOpen = s.receiversOpen)
    (hreqs : s.receiversOpen = false → s'.requests = s.requests) : Inv config s' := by
  refine ⟨hcore, ?_⟩
  have ht : Transmitted s → Transmitted s' := fun ht =>
    transmitted_change h.core ht (fun e he => hconn ▸ he) hreq fun f hf => hsent ▸ hf
  have hfits := h.fits
  unfold Fits at hfits ⊢
  rw [hconn, hres, hproc, hopen]
  split at hfits
  · exact ⟨hfits.1, ht hfits.2.1, hfits.2.2⟩
  · exact ⟨hfits.1, ht hfits.2.1, hfits.2.2⟩
  · exact hfits
  · exact hfits
  · exact ht hfits
  · exact ht hfits
  · obtain ⟨hold, hemp, hpend, hflight, hclsd⟩ := hfits
    exact ⟨ht hold, (hreqs hclsd).trans hemp, hpend, hflight, hclsd⟩
  · exact ⟨hfits.1, ht hfits.2⟩

/-- A connection that has returned only drops its fields. -/
theorem eq_dropFields (hres : s.result.isSome)
    (hs : connectionStep config s answer = some s') : s' = dropFields s := by
  have hsome : s.result ≠ none := isSome_iff_ne_none.mp hres
  have hfits := h.fits
  unfold Fits at hfits
  unfold connectionStep at hs
  generalize s.connection.control = control at hs hfits
  cases control with
  | dropping => exact (some.inj hs).symm
  | idle | finished | dropped => cases hs
  | closing | draining => exact absurd hfits hsome
  | _ => exact absurd hfits.1 hsome

theorem step_enter (functionId : UInt32) (body attachment : Bytes) :
    Inv config (enter config functionId body attachment s) ∧
      Later s (enter config functionId body attachment s) := by
  obtain ⟨habsent, hnone⟩ := h.core.numbering.fresh s.entered le_rfl
  have hoth : ∀ j, j ≠ s.entered →
    (enter config functionId body attachment s).calls j = s.calls j :=
    fun j hj => setCall_of_ne hj
  have hreq : ∀ j f, (s.calls j).request = some f →
      ((enter config functionId body attachment s).calls j).request = some f := by
    intro j f hf
    rw [hoth j, hf]
    rintro rfl
    rw [hnone] at hf
    cases hf
  refine ⟨h.of_calls (core_enter h.core _ _ _) hreq rfl rfl rfl rfl rfl fun _ => rfl,
    Nat.le_succ _, List.Subset.refl _, hreq, fun j result hj => ?_, fun _ =>
    ⟨rfl, fun j a ha => ?_⟩⟩
  · rw [hoth j, hj]
    rintro rfl
    rw [habsent] at hj
    cases hj
  · by_cases hj : j = s.entered
    · obtain ⟨f, hf, -⟩ := (core_enter h.core functionId body attachment).deliveries.own j a ha
      subst hj
      have hnew : ((enter config functionId body attachment s).calls s.entered).request = none :=
        congrArg Call.request (setCall_self s s.entered _)
      rw [hnew] at hf
      cases hf
    · rwa [hoth j hj] at ha

theorem inv_step (hfew : s.entered < 2 ^ 32) (hs : step config s event = some s') :
    Inv config s' ∧ Later s s' := by
  cases event with
  | enter functionId body attachment =>
    cases hs
    exact step_enter h functionId body attachment
  | call i event =>
    have hmove := callStep_cases hs
    have hfrm := frame_callMove h.core hmove
    exact ⟨h.of_calls (core_callMove h.core hmove) hfrm.request_of hfrm.connection hfrm.sent
      hfrm.result hfrm.processed hfrm.receiversOpen hfrm.requests, hfrm.later⟩
  | poll =>
    unfold step at hs
    dsimp only at hs
    split at hs
    next hidle =>
      cases hs
      have hfits := h.fits
      unfold Fits at hfits
      rw [hidle] at hfits
      exact ⟨⟨h.core.goto _, hfits⟩, le_rfl, List.Subset.refl _, fun _ _ hf => hf, fun _ _ hj => hj,
        fun _ => ⟨rfl, fun _ _ ha => ha⟩⟩
    next => cases hs
  | connection answer =>
    refine ⟨inv_connectionStep h hfew hs, ?_⟩
    obtain ⟨hsame, hentd, hproc⟩ := passes_connectionStep hs
    refine ⟨hentd.ge, hproc, request_of_untouched hsame, fun j result hj => by rw [hsame.stage, hj],
      fun hres => ?_⟩
    rw [eq_dropFields h hres hs]
    exact ⟨rfl, fun _ _ => holds_dropFields⟩
  | drop =>
    unfold step at hs
    dsimp only at hs
    split at hs
    next hctl =>
      cases hs
      have ht : Transmitted s := by
        have hfits := h.fits
        unfold Fits at hfits
        rcases hctl with hidle | hfinished
        · rw [hidle] at hfits
          exact hfits.2
        · rw [hfinished] at hfits
          exact hfits
      exact ⟨⟨h.core.keep _ (by rfl) (by rfl) _ _, ht⟩, le_rfl, List.Subset.refl _,
        fun _ _ hf => hf, fun _ _ hj => hj, fun _ => ⟨rfl, fun _ _ ha => ha⟩⟩
    next => cases hs

end

theorem entered_callMove (hs : CallMove config s i s') : s'.entered = s.entered := by
  cases hs with
  | number hi =>
    unfold number
    dsimp only
    split <;> rfl
  | enqueue _ _ hs =>
    unfold enqueue at hs
    repeat' split at hs
    all_goals cases hs
    all_goals rfl
  | receive _ hs =>
    unfold receive at hs
    repeat' split at hs
    all_goals cases hs
    all_goals rfl
  | leave hs =>
    unfold leave at hs
    repeat' split at hs
    all_goals cases hs
    all_goals rfl
  | _ => rfl

theorem entered_step (hs : step config s event = some s') : s.entered ≤ s'.entered := by
  cases event with
  | enter =>
    cases hs
    exact Nat.le_succ _
  | call i event => exact (entered_callMove (callStep_cases hs)).ge
  | poll =>
    unfold step at hs
    dsimp only at hs
    split at hs
    all_goals cases hs
    exact le_rfl
  | connection answer => exact (passes_connectionStep hs).entered.ge
  | drop =>
    unfold step at hs
    dsimp only at hs
    split at hs
    all_goals cases hs
    exact le_rfl

theorem entered_run (hs : run config s events = some s') : s.entered ≤ s'.entered := by
  induction events generalizing s with
  | nil =>
    cases hs
    exact le_rfl
  | cons event events ih =>
    obtain ⟨_, hstep, hrest⟩ := bind_eq_some_iff.mp hs
    exact (entered_step hstep).trans (ih hrest)

/-- A whole run keeps the invariant, as long as sequence numbers do not come round. -/
theorem inv_run (h : Inv config s) (hs : run config s events = some s')
    (hfew : s'.entered < 2 ^ 32) : Inv config s' ∧ Later s s' := by
  induction events generalizing s with
  | nil =>
    cases hs
    exact ⟨h, .refl _⟩
  | cons event events ih =>
    obtain ⟨_, hstep, hrest⟩ := bind_eq_some_iff.mp hs
    have hbef : s.entered < 2 ^ 32 := ((entered_step hstep).trans (entered_run hrest)).trans_lt hfew
    obtain ⟨h₁, hltr⟩ := inv_step h hbef hstep
    obtain ⟨h', hltr'⟩ := ih h₁ hrest
    exact ⟨h', hltr.trans hltr'⟩

theorem inv_initial : Inv config .initial :=
  ⟨core_initial, rfl, nofun⟩

/-! ### What the callers observe -/

/-- The outcome that a caller has received. -/
def ClientState.outcome (s : ClientState) (i : ℕ) : Option Outcome := (s.calls i).stage.result

theorem stage_of_outcome {outcome : Outcome} (h : s.outcome i = some outcome) :
    (s.calls i).stage = .done (some outcome) := by
  unfold ClientState.outcome Stage.result at h
  split at h
  next result hi => rw [hi, h]
  next => cases h

theorem holds_of_outcome (h : s.outcome i = some (.ok a)) : (s.calls i).Holds a :=
  .inr h

/-- A call without a receiver on the other side can always go on. -/
theorem exists_callStep (h : Inv config s) (hdrp : s.connection.control = .dropped)
    (hrank : 0 < (s.calls i).stage.rank) : ∃ event u, callStep config s i event = some u := by
  have hfits := h.fits
  unfold Fits at hfits
  rw [hdrp] at hfits
  obtain ⟨-, hreqs, hpend, hflight, hclsd⟩ := hfits
  cases hi : (s.calls i).stage with
  | absent =>
    rw [hi] at hrank
    exact absurd hrank (lt_irrefl _)
  | accepted functionId body attachment =>
    exact ⟨.number, _, by rw [callStep, hi]⟩
  | sending =>
    obtain ⟨f, hf⟩ := h.core.numbering.numbered i (by rw [hi]; trivial)
    have hfail : enqueue config s i f = some ((s.forget i).setStage i (.dropping (some .connectionClosed))) :=
      if_pos (by rw [hclsd]; exact Bool.false_ne_true)
    exact ⟨.enqueue, _, by rw [callStep, hi, hf]; exact hfail⟩
  | waiting =>
    have hgone : (s.calls i).senderGone = true := by
      by_contra hheld
      rcases h.core.places.held i hi (Bool.not_eq_true _ ▸ hheld) with ⟨r, hr, -⟩ | ⟨r, hr, -⟩ | ⟨_, hq⟩
      · rw [hreqs] at hr
        cases hr
      · rw [hpend] at hr
        cases hr
      · rw [hflight] at hq
        cases hq
    cases hval : (s.calls i).value with
    | some outcome => exact ⟨.receive, _, by rw [callStep, hi]; dsimp only; rw [receive, hval]⟩
    | none => exact ⟨.receive, _, by rw [callStep, hi]; dsimp only; rw [receive, hval]; exact if_pos hgone⟩
  | dropping result => exact ⟨.close, _, by rw [callStep, hi]⟩
  | cancelling result =>
    obtain ⟨f, hf⟩ := h.core.numbering.numbered i (by rw [hi]; trivial)
    exact ⟨.cancel, _, by rw [callStep, hi, hf]⟩
  | done result =>
    rw [hi] at hrank
    exact absurd hrank (lt_irrefl _)

/-- What holds of a state and of a later one. -/
structure Multiplexed (config : ClientConfig) (s s' : ClientState) : Prop where
  -- an outcome is final
  once : ∀ i outcome, s.outcome i = some outcome → s'.outcome i = some outcome
  -- an answer carries the number of the own request, which was handed to the transport
  own : ∀ i a, s.outcome i = some (.ok a) → ∃ f, (s.calls i).request = some f ∧
    a.frame.header.sequence = f.header.sequence ∧ f ∈ s.sent
  -- no frame is delivered twice
  distinct : ∀ i j a b, s.outcome i = some (.ok a) → s.outcome j = some (.ok b) →
    a.number = b.number → i = j
  -- a processed cancellation keeps the request out of flight
  cancelled : ∀ i f, (s.calls i).request = some f → f.header.sequence ∈ s.processed →
    ∀ e ∈ s'.connection.inFlight, e.2 ≠ i
  bounded : s.connection.inFlight.length ≤ max config.maxInFlightRequests 1
  -- after an error, only answers from before are still received
  ended : ∀ error, s.result = some (.error error) → ∀ i outcome, s'.outcome i = some outcome →
    (∃ error, outcome = .error error) ∨ (s.calls i).value = some outcome ∨
    s.outcome i = some outcome
  -- the connection is then dropped, and once it is gone, a call that has not ended can go on and
  -- comes nearer to its end
  dropped : ∀ error, s.result = some (.error error) → ∃ events u, run config s events = some u ∧
    u.connection.control = .dropped
  released : ∀ error, s.result = some (.error error) → s'.connection.control = .dropped →
    ∀ i, 0 < (s'.calls i).stage.rank → (∃ event u, callStep config s' i event = some u) ∧
      ∀ event u, callStep config s' i event = some u →
      (u.calls i).stage.rank < (s'.calls i).stage.rank

/-- A connection that has returned is dropped next. -/
theorem exists_dropped (h : Inv config s) (hres : s.result.isSome) :
    ∃ events u, run config s events = some u ∧ u.connection.control = .dropped := by
  have hsome : s.result ≠ none := isSome_iff_ne_none.mp hres
  have hfits := h.fits
  unfold Fits at hfits
  cases hctl : s.connection.control with
  | finished =>
    refine ⟨[.drop, .connection .pending], dropFields ({ s with closed := true }.goto .dropping), ?_, rfl⟩
    rw [run, List.foldlM_cons, step, if_pos (.inr hctl)]
    rfl
  | dropping =>
    refine ⟨[.connection .pending], dropFields s, ?_, rfl⟩
    rw [run, List.foldlM_cons, step, connectionStep, hctl]
    rfl
  | dropped => exact ⟨[], s, rfl, hctl⟩
  | closing => rw [hctl] at hfits; exact absurd hfits hsome
  | draining => rw [hctl] at hfits; exact absurd hfits hsome
  | _ => rw [hctl] at hfits; exact absurd hfits.1 hsome

/-- Three calls: the first is answered, the second is cancelled before its request is handed
over, and the third waits when the stream ends. -/
def threeCalls : List Event :=
  [.enter 7 [] [], .enter 8 [] [], .enter 9 [] [], .call 0 .number, .call 0 .enqueue,
    .call 1 .number, .call 1 .enqueue, .call 1 .abandon, .call 1 .close, .call 1 .cancel, .poll,
    .connection .ready, .connection .pending, .connection .ready, .connection .pending,
    .connection .ready, .connection .ready, .connection .pending, .connection .pending,
    .connection .ready, .connection (.frame ⟨.new 0 0 0 0, [], []⟩), .call 0 .receive,
    .call 2 .number, .call 2 .enqueue, .connection .ended, .connection .pending,
    .connection .pending, .connection .pending]

/-- A configuration that allows no request in flight. -/
def noneInFlight : ClientConfig := ⟨none, .default, 0, 0⟩

/-- One call, up to the point where its request is handed to the transport. -/
def handover : List Event :=
  [.enter 7 [] [], .call 0 .number, .call 0 .enqueue, .poll, .connection .pending,
    .connection .ready, .connection .pending, .connection .ready]

end Cakemaster.Rpc
