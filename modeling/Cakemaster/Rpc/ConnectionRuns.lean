import Cakemaster.Rpc.ConnectionInvariant

/-!
# Runs of the client

Every step keeps the facts of `Core`, and with them what belongs to the place of the
connection in its loop: there is room before a request is handed over, nobody has had the
cancellation of this request processed, and what is in flight was handed to the transport unless the
connection is already ending.
-/

namespace Cakemaster.Rpc

open Wire ClientState Stage List Option

variable {config : ClientConfig} {s s' : ClientState} {i : ℕ}
variable {functionId : UInt32} (q : UInt32) {error : Option RpcError} {frame : RequestFrame}
    {t : Turn} {body : Bytes} {answer : Answer} {attachment : Bytes}

def Transmitted (s : ClientState) : Prop :=
  ∀ e ∈ s.connection.inFlight, ∀ f, (s.calls e.2).request = some f → f ∈ s.sent

def Fits (config : ClientConfig) (s : ClientState) : Prop :=
  match s.connection.control with
  | .checking _ => s.result = none ∧ Transmitted s ∧
    s.connection.inFlight.length < config.maxInFlight
  | .handing _ => s.result = none ∧ Transmitted s ∧
    s.connection.inFlight.length < config.maxInFlight ∧ ∀ r, s.connection.pendingRequest = some r →
    r.frame.header.sequence ∉ s.processed
  | .closing _ | .draining _ => s.result = none
  | .finished | .dropping => Transmitted s
  | .dropped => Transmitted s ∧ s.requests = [] ∧ s.connection.pendingRequest = none ∧
    s.connection.inFlight = [] ∧ s.receiversOpen = false
  | _ => s.result = none ∧ Transmitted s

structure Inv (config : ClientConfig) (s : ClientState) : Prop where
  core : Core config s
  fits : Fits config s

/-! ### Steps of a call -/

theorem Core.update {c : Call} {entered : ℕ} {issued : List ℕ} {next : UInt32} (h : Core config s)
    (hnumbering : Numbering (Function.update s.calls i c) entered issued next)
    (hreq : ∀ f, (s.calls i).request = some f → c.request = some f) (hwaiting : c.stage ≠ .waiting)
    (hhld : ∀ a, c.Holds a → (s.calls i).Holds a)
    (hclsd : ∀ f, (s.calls i).request = some f → (s.calls i).receiverClosed = true → c.receiverClosed = true)
    (hcancelling : ∀ result, c.stage = .cancelling result → c.receiverClosed = true) :
    Core config { s.setCall i c with entered, issued, nextSequence := next } where
  numbering := hnumbering
  places := h.places.update hreq hwaiting
  deliveries := h.deliveries.change (holds_setCall hhld) (fun _ _ hf => request_update hreq hf)
    (List.Subset.refl _) le_rfl
  cancellations := h.cancellations.update hreq hclsd hcancelling
  limit := h.limit

/-- A call that has begun goes on to a stage with a result or to its end. -/
theorem Core.setStage (h : Core config s) {stage : Stage} (hbgn : (s.calls i).stage ≠ .absent)
    (haccd : ∀ functionId body attachment, stage ≠ .accepted functionId body attachment)
    (hnbd : stage.Numbered → (s.calls i).stage.Numbered) (hwaiting : stage ≠ .waiting)
    (hres : ∀ a, stage.result = some (.ok a) → (s.calls i).Holds a)
    (hcancelling : ∀ result, stage ≠ .cancelling result) : Core config (s.setStage i stage) := by
  refine h.update (h.numbering.update rfl hbgn haccd hnbd) (fun _ hf => hf) hwaiting ?_
    (fun _ _ hc => hc) fun result hstage => absurd hstage (hcancelling result)
  rintro a (hval | ha)
  · exact .inl hval
  · exact hres a ha

theorem sequence_of_new {sequence : UInt32}
    (h : RequestFrame.new sequence functionId body attachment = .ok f) :
    f.header.sequence = sequence := by
  unfold RequestFrame.new at h
  cases hlengths : payloadLengths body attachment with
  | error err =>
    rw [hlengths] at h
    cases h
  | ok lengths =>
    rw [hlengths] at h
    cases h
    rfl

section

variable (h : Core config s)
include h

theorem core_enter (functionId : UInt32) (body attachment : Bytes) :
    Core config (enter config functionId body attachment s) := by
  have hnone : (s.calls s.entered).request = none := (h.numbering.fresh _ le_rfl).2
  have hupda : ∀ stage : Stage, ¬stage.Numbered → stage ≠ .waiting →
      (∀ a, stage.result ≠ some (.ok a)) → (∀ result, stage ≠ .cancelling result) → Core config
      { s.setCall s.entered { Call.absent with stage } with entered := s.entered + 1 } := by
    intro stage hnbd hwaiting hres hcancelling
    refine h.update (h.numbering.enter rfl hnbd) (fun f hf => ?_) hwaiting ?_ (fun f hf => ?_)
      fun result hstage => absurd hstage (hcancelling result)
    · rw [hnone] at hf
      cases hf
    · rintro a (hval | ha)
      · cases hval
      · exact absurd ha (hres a)
    · rw [hnone] at hf
      cases hf
  unfold enter
  dsimp only
  split
  · exact hupda _ id nofun nofun nofun
  · split
    · exact hupda _ id nofun nofun nofun
    · exact hupda _ id nofun nofun nofun

theorem core_number (hi : (s.calls i).stage = .accepted functionId body attachment) :
    Core config (number s i functionId body attachment) := by
  have hnone : (s.calls i).request = none := (h.numbering.accepted i _ _ _ hi).2
  have hres : (s.calls i).stage.result = none := by rw [hi]; rfl
  unfold number
  dsimp only
  split
  next error hnew =>
    refine h.update (h.numbering.issue hi nofun (fun f hf => ?_) nofun) (fun _ hf => hf) nofun ?_
      (fun _ _ hc => hc) nofun
    · rw [hnone] at hf
      cases hf
    · rintro a (hval | ha)
      · exact .inl hval
      · cases ha
  next frame hnew =>
  refine h.update (h.numbering.issue hi nofun (fun f hf => ?_) fun _ => ⟨frame, rfl⟩)
    (fun f hf => ?_) nofun ?_ (fun _ _ hc => hc) nofun
  · cases hf
    exact sequence_of_new hnew
  · rw [hnone] at hf
    cases hf
  · rintro a (hval | ha)
    · exact .inl hval
    · cases ha

theorem core_enqueue (hi : (s.calls i).stage = .sending)
    (hfrm : (s.calls i).request = some frame) (hs : enqueue config s i frame = some s') :
    Core config s' := by
  unfold enqueue at hs
  split at hs
  · cases hs
    have hstage : ((s.forget i).calls i).stage = .sending := (untouched_forget.stage i).trans hi
    exact h.forget.setStage (by rw [hstage]; nofun) nofun (fun _ => by rw [hstage]; trivial) nofun nofun nofun
  split at hs
  · cases hs
    have hreq : ∀ j f, (s.calls j).request = some f →
      ((s.setStage i .waiting).calls j).request = some f :=
      fun j f hf => request_update (fun _ hf => hf) hf
    refine ⟨h.numbering.update rfl (by rw [hi]; nofun) nofun (fun _ => by rw [hi]; trivial),
      ⟨?_, ?_, ?_, ?_⟩, ?_, ?_, h.limit⟩
    · intro r hr
      rcases mem_append.mp hr with hold | hnew
      · exact hreq _ _ (h.places.queued r hold)
      · rw [mem_singleton.mp hnew]
        exact hreq _ _ hfrm
    · exact fun r hr => hreq _ _ (h.places.taken r hr)
    · intro e he
      obtain ⟨f, hf, hsq⟩ := h.places.flying e he
      exact ⟨f, hreq _ _ hf, hsq⟩
    · intro j hj hgone
      by_cases hji : j = i
      · exact .inl ⟨⟨frame, i⟩, mem_append_right _ mem_cons_self, hji.symm⟩
      · replace hj : ((s.setStage i .waiting).calls j).stage = .waiting := hj
        replace hgone : ((s.setStage i .waiting).calls j).senderGone = false := hgone
        rw [setStage, setCall_of_ne hji] at hj hgone
        exact (h.places.held j hj hgone).imp_left fun ⟨r, hr, hrj⟩ => ⟨r, mem_append_left _ hr, hrj⟩
    · refine h.deliveries.change (holds_setCall ?_) hreq (List.Subset.refl _) le_rfl
      rintro _ (hval | ha)
      · exact .inl hval
      · cases ha
    · exact h.cancellations.update (fun _ hf => hf) (fun _ _ hc => hc) nofun
  · cases hs

theorem core_leave (hs : leave s i error = some s') : Core config s' := by
  unfold leave at hs
  split at hs
  next hi =>
    cases hs
    have hstage : ((s.forget i).calls i).stage = .sending := (untouched_forget.stage i).trans hi
    exact h.forget.setStage (by rw [hstage]; nofun) nofun (fun _ => by rw [hstage]; trivial) nofun nofun nofun
  next hi =>
    cases hs
    exact h.setStage (by rw [hi]; nofun) nofun (fun _ => by rw [hi]; trivial) nofun nofun nofun
  next => cases hs

theorem core_receive (hi : (s.calls i).stage = .waiting) (hs : receive s i = some s') :
    Core config s' := by
  have hbgn : (s.calls i).stage ≠ .absent := by rw [hi]; nofun
  unfold receive at hs
  split at hs
  next outcome hval =>
    cases hs
    refine h.setStage hbgn nofun nofun nofun (fun a ha => ?_) nofun
    rw [some.inj ha] at hval
    exact .inl hval
  next hval =>
  split at hs
  · cases hs
    exact h.setStage hbgn nofun nofun nofun nofun nofun
  · cases hs

theorem core_close (hi : (s.calls i).stage = .dropping error) :
    Core config (s.setCall i { s.calls i with stage := .cancelling error, receiverClosed := true }) := by
  refine h.update (h.numbering.update rfl (by rw [hi]; nofun) nofun (fun _ => by rw [hi]; trivial))
    (fun _ hf => hf) nofun ?_ (fun _ _ _ => rfl) fun _ _ => rfl
  exact fun a ha => ha.elim .inl nofun

end

theorem map_error_ne (error : Option RpcError) (a : Arrival) :
    error.map Except.error ≠ some (Except.ok a) := by
  cases error <;> nofun

section

variable (h : Core config s) (hi : (s.calls i).stage = .cancelling error)
include h hi

theorem core_end : Core config (s.setStage i (.done (error.map .error))) :=
  h.setStage (by rw [hi]; nofun) nofun nofun nofun (fun a ha => absurd ha (map_error_ne error a)) nofun

theorem core_cancel (hfrm : (s.calls i).request = some frame) :
    Core config { s.setStage i (.done (error.map .error)) with cancellations :=
      s.cancellations ++ [frame.header.sequence] } := by
  have hdone := core_end h hi
  refine ⟨hdone.numbering, hdone.places, hdone.deliveries,
    ⟨hdone.cancellations.closing, ?_, hdone.cancellations.landed⟩, hdone.limit⟩
  intro q hq
  rcases hq with hq | hq
  · rcases mem_append.mp hq with hold | hnew
    · exact hdone.cancellations.closed q (.inl hold)
    · refine ⟨i, frame, ?_, (mem_singleton.mp hnew).symm, ?_⟩
      · exact request_update (fun _ hf => hf) hfrm
      · show ((s.setStage i (.done (error.map .error))).calls i).receiverClosed = true
        rw [setStage, setCall_self]
        exact h.cancellations.closing i error hi
  · exact hdone.cancellations.closed q (.inr hq)

end

/-- What a call does in one step. -/
inductive CallMove (config : ClientConfig) (s : ClientState) (i : ℕ) : ClientState → Prop
  | number {functionId : UInt32} {body attachment : Bytes}
      (hi : (s.calls i).stage = .accepted functionId body attachment) :
      CallMove config s i (number s i functionId body attachment)
  | enqueue {frame : RequestFrame} {s' : ClientState} (hi : (s.calls i).stage = .sending)
      (hfrm : (s.calls i).request = some frame) (hs : enqueue config s i frame = some s') :
      CallMove config s i s'
  | receive {s' : ClientState} (hi : (s.calls i).stage = .waiting) (hs : receive s i = some s') :
      CallMove config s i s'
  | leave {error : Option RpcError} {s' : ClientState} (hs : leave s i error = some s') :
      CallMove config s i s'
  | close {error : Option RpcError} (hi : (s.calls i).stage = .dropping error) :
      CallMove config s i (s.setCall i { s.calls i with stage := .cancelling error, receiverClosed := true })
  | cancel {error : Option RpcError} {frame : RequestFrame}
      (hi : (s.calls i).stage = .cancelling error) (hfrm : (s.calls i).request = some frame) :
      CallMove config s i { s.setStage i (.done (error.map .error)) with
        cancellations := s.cancellations ++ [frame.header.sequence] }
  | end {error : Option RpcError} (hi : (s.calls i).stage = .cancelling error) :
      CallMove config s i (s.setStage i (.done (error.map .error)))

theorem callStep_cases (hs : callStep config s i event = some s') : CallMove config s i s' := by
  unfold callStep at hs
  split at hs
  · split at hs
    next hi => exact some.inj hs ▸ .number hi
    next => cases hs
  · split at hs
    next hi hfrm => exact .enqueue hi hfrm hs
    next => cases hs
  · split at hs
    next hi => exact .receive hi hs
    next => cases hs
  · exact .leave (ite_none_right_eq_some.mp hs).2
  · exact .leave hs
  · split at hs
    next hi => exact some.inj hs ▸ .close hi
    next => cases hs
  · split at hs
    next hi hfrm =>
      cases hs
      split
      · exact .cancel hi hfrm
      · exact .end hi
    next => cases hs

theorem core_callMove (h : Core config s) (hs : CallMove config s i s') : Core config s' := by
  cases hs with
  | number hi => exact core_number h hi
  | enqueue hi hfrm hs => exact core_enqueue h hi hfrm hs
  | receive hi hs => exact core_receive h hi hs
  | leave hs => exact core_leave h hs
  | close hi => exact core_close h hi
  | cancel hi hfrm => exact core_cancel h hi hfrm
  | «end» hi => exact core_end h hi

/-! ### Steps of the connection -/

theorem transmitted_change (h : Core config s) (ht : Transmitted s)
    (hfly : ∀ e ∈ s'.connection.inFlight, e ∈ s.connection.inFlight)
    (hreq : ∀ j f, (s.calls j).request = some f → (s'.calls j).request = some f)
    (hsent : s.sent ⊆ s'.sent) :
    Transmitted s' := by
  intro e he f hf
  obtain ⟨g, hg, -⟩ := h.places.flying e (hfly e he)
  have hfg : f = g := some.inj (hf.symm.trans (hreq _ _ hg))
  rw [hfg]
  exact hsent (ht e (hfly e he) g hg)

theorem request_of_untouched (h : Untouched s.calls s'.calls) :
    ∀ j f, (s.calls j).request = some f → (s'.calls j).request = some f :=
  fun j f hf => by rw [h.request, hf]

theorem Core.revoke (h : Core config s) (hfew : s.entered < 2 ^ 32) (q : UInt32) :
    Core config (revoke s q) ∧ ∀ e ∈ (revoke s q).connection.inFlight, e ∈ s.connection.inFlight ∧
      e.1 ≠ q := by
  unfold Rpc.revoke
  split
  next i hi =>
    have hgone : ((s.forget i).calls i).senderGone = true := by rw [ClientState.forget, setCall_self]; rfl
    exact ⟨h.forget.land hfew hi hgone, fun e he => mem_land.mp he⟩
  next hnone => exact ⟨h, fun e he => ⟨he, ne_of_flying_none hnone e he⟩⟩

theorem untouched_revoke : Untouched s.calls (revoke s q).calls := by
  unfold revoke
  split
  · exact untouched_forget
  · exact .refl _

theorem revoke_frame : (revoke s q).sent = s.sent ∧ (revoke s q).result = s.result ∧
    (revoke s q).cancellations = s.cancellations ∧ (revoke s q).processed = s.processed := by
  unfold revoke
  split <;> exact ⟨rfl, rfl, rfl, rfl⟩

section

variable (h : Core config s)
include h

theorem inv_cancelStep (hfew : s.entered < 2 ^ 32)
    (hres : s.result = none) (ht : Transmitted s) (hs : cancelStep s t answer = some s') :
    Inv config s' := by
  unfold cancelStep at hs
  split at hs
  · split at hs
    next q rest hbud hq =>
      cases hs
      obtain ⟨hcore, hlanded⟩ := h.revoke hfew q
      obtain ⟨hsent, hsame, hcancellations, hproc⟩ := revoke_frame (s := s) q
      rw [← hproc]
      refine ⟨(hcore.process (hcancellations.trans hq) fun e he => (hlanded e he).2).goto _,
        hsame.trans hres, ?_⟩
      exact transmitted_change h ht (fun e he => (hlanded e he).1)
        (request_of_untouched (untouched_revoke q)) (fun _ hf => hsent ▸ hf)
    next => cases hs
  · cases hs
    exact ⟨h.goto _, hres, ht⟩
  · cases hs

theorem inv_fillStep (hres : s.result = none) (ht : Transmitted s)
    (hs : fillStep config s t answer = some s') : Inv config s' := by
  unfold fillStep at hs
  split at hs
  next hroom =>
    split at hs
    · cases hs
      exact ⟨h.goto _, hres, ht, hroom.1⟩
    next hpend =>
    split at hs
    · cases hs
      exact ⟨h.goto _, hres, ht⟩
    · split at hs
      next request rest hreqs =>
        cases hs
        exact ⟨(h.take hreqs (not_isSome_iff_eq_none.mp hpend)).goto _, hres, ht, hroom.1⟩
      · cases hs
        exact ⟨h.keep _ (by rfl) (by rfl) _ _, hres, ht⟩
      · cases hs
        exact ⟨h.goto _, hres, ht⟩
      · cases hs
  · cases hs
    exact ⟨h.goto _, hres, ht⟩

theorem inv_checkStep (hfew : s.entered < 2 ^ 32) (hres : s.result = none)
    (ht : Transmitted s) (hroom : s.connection.inFlight.length < config.maxInFlight)
    (hs : checkStep s t = some s') :
    Inv config s' := by
  unfold checkStep at hs
  split at hs
  · cases hs
  next request hpend =>
  split at hs
  next hclsd =>
    cases hs
    have hgone : ((s.forget request.completion).calls request.completion).senderGone = true := by
      rw [ClientState.forget, setCall_self]; rfl
    refine ⟨(h.forget.release hpend hgone).goto _, hres, ?_⟩
    exact transmitted_change h ht (fun _ he => he) (request_of_untouched untouched_forget) (List.Subset.refl _)
  next hopen =>
  cases hs
  refine ⟨h.goto _, hres, ht, hroom, fun r hr hproc => ?_⟩
  -- a processed cancellation comes from a call whose receiver is closed
  cases hpend.symm.trans hr
  obtain ⟨i, _, hf, hsq, hclsd⟩ := h.cancellations.closed _ (.inr hproc)
  have hi : i = request.completion :=
    h.numbering.injective hfew hf (h.places.taken request hpend) hsq
  rw [hi] at hclsd
  exact hopen hclsd

theorem inv_handStep (hres : s.result = none) (ht : Transmitted s)
    (hroom : s.connection.inFlight.length < config.maxInFlight)
    (hfree : ∀ r, s.connection.pendingRequest = some r → r.frame.header.sequence ∉ s.processed)
    (hs : handStep s t answer = some s') : Inv config s' := by
  unfold handStep at hs
  split at hs
  · cases hs
  next request hpend =>
  have hreq := h.places.taken request hpend
  have hcore := h.hand hpend (hfree request hpend) hroom
  dsimp only at hs
  split at hs
  · cases hs
    have hgone : ((s.complete request.completion (.error .serialNumberConflict)).calls
      request.completion).senderGone =
        true := by
      rw [complete, setCall_self, Call.complete_eq]
    refine ⟨((h.complete_error _).release hpend hgone).goto _, hres, ?_⟩
    exact transmitted_change h ht (fun _ he => he) (request_of_untouched (untouched_complete _))
      (List.Subset.refl _)
  split at hs
  · cases hs
    refine ⟨(hcore.transmit request.frame).keep _ (by rfl) (by rfl) _ _, hres, fun e he f hf => ?_⟩
    rcases mem_cons.mp he with rfl | hold
    · cases hf.symm.trans hreq
      exact mem_append_right _ mem_cons_self
    · exact mem_append_left _ (ht e hold f hf)
  · cases hs
    exact ⟨hcore.goto _, hres⟩
  · cases hs
    exact ⟨h.goto _, hres⟩
  · cases hs
    exact ⟨h.goto _, hres, ht⟩
  · cases hs

theorem inv_flushStep (hres : s.result = none) (ht : Transmitted s)
    (hs : flushStep s t answer = some s') : Inv config s' := by
  unfold flushStep at hs
  split at hs
  · split at hs
    · cases hs
      exact ⟨h.keep _ (by rfl) (by rfl) _ _, hres, ht⟩
    · cases hs
      exact ⟨h.goto _, hres⟩
    · cases hs
      exact ⟨h.goto _, hres, ht⟩
    · cases hs
  · cases hs
    exact ⟨h.goto _, hres, ht⟩

theorem core_deliver (hfew : s.entered < 2 ^ 32) (ht : Transmitted s) (f : ResponseFrame) :
    Core config (deliver s f) ∧ Transmitted (deliver s f) ∧ (deliver s f).result = s.result := by
  unfold deliver
  dsimp only
  split
  next i hi =>
    obtain ⟨g, hg, hsq⟩ := h.places.flying _ (mem_of_flying hi)
    have hsent : g ∈ s.sent := ht _ (mem_of_flying hi) g hg
    have hcore := h.answer hg hsq.symm hsent
    have hgone : ((s.complete i (.ok ⟨s.arrived, f⟩)).calls i).senderGone = true := by
      rw [complete, setCall_self, Call.complete_eq]
    refine ⟨hcore.land hfew hi hgone, ?_, rfl⟩
    exact transmitted_change h ht (fun _ he => (mem_land.mp he).1)
      (request_of_untouched (untouched_complete _)) (List.Subset.refl _)
  next => exact ⟨h.ignore, ht, rfl⟩

theorem inv_receiveStep (hfew : s.entered < 2 ^ 32)
    (hres : s.result = none) (ht : Transmitted s) (hs : receiveStep s t answer = some s') :
    Inv config s' := by
  unfold receiveStep at hs
  split at hs
  · split at hs
    next f =>
      cases hs
      obtain ⟨hcore, ht', hsame⟩ := core_deliver h hfew ht f
      exact ⟨hcore.goto _, hsame.trans hres, ht'⟩
    · cases hs
      exact ⟨h.goto _, hres⟩
    · cases hs
      exact ⟨h.goto _, hres⟩
    · cases hs
      exact ⟨h.goto _, hres, ht⟩
    · cases hs
  · cases hs
    exact ⟨h.goto _, hres, ht⟩

theorem inv_judgeStep (hres : s.result = none) (ht : Transmitted s) :
    Inv config (judgeStep s t) := by
  unfold judgeStep
  split
  · exact ⟨h.keep _ (by rfl) (by rfl) _ _, ht⟩
  · split
    · exact ⟨h.goto _, hres, ht⟩
    · exact ⟨h.goto _, hres, ht⟩

theorem inv_drainStep (hfew : s.entered < 2 ^ 32) {error : RpcError}
    (hctl : s.connection.control = .draining error) (hres : s.result = none)
    (hs : drainStep s error answer = some s') : Inv config s' := by
  have hgone : ∀ i, ((s.complete i (.error error)).calls i).senderGone = true := fun i => by
    rw [complete, setCall_self, Call.complete_eq]
  have hfits : ∀ {u : ClientState}, u.connection.control = s.connection.control → u.result = none →
      Fits config u := by
    intro u hu hnone
    rw [Fits, hu, hctl]
    exact hnone
  unfold drainStep at hs
  split at hs
  next sequence =>
    obtain ⟨i, hi, hret⟩ := bind_eq_some_iff.mp hs
    cases hret
    exact ⟨(h.complete_error error).land hfew hi (hgone i), hfits rfl hres⟩
  next => cases hs
  next hemp =>
  split at hs
  next request hpend =>
    cases hs
    exact ⟨(h.complete_error error).release hpend (hgone _), hfits rfl hres⟩
  next request rest hpend hreqs =>
    cases hs
    exact ⟨(h.complete_error error).skip hreqs (hgone _), hfits rfl hres⟩
  next hpend hreqs =>
  cases hs
  refine ⟨h.keep _ (by rfl) (by rfl) _ _, fun e he => ?_⟩
  have hmem : e ∈ s.connection.inFlight := he
  rw [hemp] at hmem
  cases hmem

end

theorem inv_connectionStep (h : Inv config s) (hfew : s.entered < 2 ^ 32)
    (hs : connectionStep config s answer = some s') : Inv config s' := by
  obtain ⟨hcore, hfits⟩ := h
  unfold connectionStep at hs
  unfold Fits at hfits
  generalize hctl : s.connection.control = control at hs hfits
  cases control with
  | cancelling t => exact inv_cancelStep hcore hfew hfits.1 hfits.2 hs
  | filling t => exact inv_fillStep hcore hfits.1 hfits.2 hs
  | checking t => exact inv_checkStep hcore hfew hfits.1 hfits.2.1 hfits.2.2 hs
  | handing t => exact inv_handStep hcore hfits.1 hfits.2.1 hfits.2.2.1 hfits.2.2.2 hs
  | flushing t => exact inv_flushStep hcore hfits.1 hfits.2 hs
  | receiving t => exact inv_receiveStep hcore hfew hfits.1 hfits.2 hs
  | judging t =>
    cases hs
    exact inv_judgeStep hcore hfits.1 hfits.2
  | closing error =>
    cases hs
    exact ⟨hcore.keep _ (by rfl) (by rfl) _ _, hfits⟩
  | draining error => exact inv_drainStep hcore hfew hctl hfits hs
  | dropping =>
    cases hs
    exact ⟨hcore.dropFields, nofun, rfl, rfl, rfl, rfl⟩
  | _ => cases hs

/-! ### What a call leaves as it is -/

/-- How many steps a call may still take. -/
def Stage.rank : Stage → ℕ
  | .accepted _ _ _ => 5
  | .sending => 4
  | .waiting => 3
  | .dropping _ => 2
  | .cancelling _ => 1
  | .absent | .done _ => 0

/-- A step of one call: the connection and the other calls do not notice it. -/
structure CallFrame (s s' : ClientState) (i : ℕ) : Prop where
  others : ∀ j, j ≠ i → s'.calls j = s.calls j
  request : ∀ f, (s.calls i).request = some f → (s'.calls i).request = some f
  holds : ∀ a, (s'.calls i).Holds a → (s.calls i).Holds a
  rank : (s'.calls i).stage.rank < (s.calls i).stage.rank
  connection : s'.connection = s.connection
  sent : s'.sent = s.sent
  result : s'.result = s.result
  processed : s'.processed = s.processed
  entered : s'.entered = s.entered
  receiversOpen : s'.receiversOpen = s.receiversOpen
  requests : s.receiversOpen = false → s'.requests = s.requests

theorem CallFrame.of_setCall (hcalls : s'.calls = (s.setCall i c).calls)
    (hreq : ∀ f, (s.calls i).request = some f → c.request = some f)
    (hhld : ∀ a, c.Holds a → (s.calls i).Holds a) (hrank : c.stage.rank < (s.calls i).stage.rank)
    (hrest : (s'.connection, s'.sent, s'.result, s'.processed, s'.entered, s'.receiversOpen) =
      (s.connection, s.sent, s.result, s.processed, s.entered, s.receiversOpen))
    (hreqs : s.receiversOpen = false → s'.requests = s.requests) : CallFrame s s' i := by
  simp only [Prod.mk.injEq] at hrest
  obtain ⟨hconn, hsent, hres, hproc, hentd, hopen⟩ := hrest
  refine ⟨fun j hj => ?_, fun f hf => ?_, fun a ha => ?_, ?_, hconn, hsent, hres, hproc, hentd, hopen, hreqs⟩
  · rw [hcalls, setCall_of_ne hj]
  · rw [hcalls, setCall_self]
    exact hreq f hf
  · rw [hcalls, setCall_self] at ha
    exact hhld a ha
  · rwa [hcalls, setCall_self]

theorem frame_setStage (hcalls : s'.calls = (s.setStage i stage).calls)
    (hres : ∀ a, stage.result = some (.ok a) → (s.calls i).Holds a)
    (hrank : stage.rank < (s.calls i).stage.rank)
    (hrest : (s'.connection, s'.sent, s'.result, s'.processed, s'.entered, s'.receiversOpen) =
      (s.connection, s.sent, s.result, s.processed, s.entered, s.receiversOpen))
    (hreqs : s.receiversOpen = false → s'.requests = s.requests) : CallFrame s s' i :=
  .of_setCall hcalls (fun _ hf => hf) (fun a ha => ha.elim .inl (hres a)) hrank hrest hreqs

theorem forget_setStage (s : ClientState) (i : ℕ) (stage : Stage) :
    ((s.forget i).setStage i stage).calls =
      (s.setCall i { s.calls i with stage, senderGone := true }).calls := by
  rw [setStage, ClientState.forget, setCall_self]
  exact Function.update_idem ..

theorem frame_leave (hs : leave s i error = some s') : CallFrame s s' i := by
  unfold leave at hs
  split at hs
  next hi =>
    cases hs
    exact .of_setCall (forget_setStage ..) (fun _ hf => hf) (fun a ha => ha.elim .inl nofun)
      (by simp [hi, rank]) rfl fun _ => rfl
  next hi =>
    cases hs
    exact frame_setStage rfl nofun (by simp [hi, rank]) rfl fun _ => rfl
  next => cases hs

theorem frame_number (h : Core config s)
    (hi : (s.calls i).stage = .accepted functionId body attachment) :
    CallFrame s (number s i functionId body attachment) i := by
  have hnone : (s.calls i).request = none := (h.numbering.accepted i _ _ _ hi).2
  unfold number
  dsimp only
  split
  · exact frame_setStage rfl nofun (by simp [hi, rank]) rfl fun _ => rfl
  · refine .of_setCall rfl (fun f hf => ?_) (fun a ha => ha.elim .inl nofun) (by simp [hi, rank])
      rfl fun _ => rfl
    rw [hnone] at hf
    cases hf

theorem frame_enqueue (hi : (s.calls i).stage = .sending)
    (hs : enqueue config s i frame = some s') : CallFrame s s' i := by
  unfold enqueue at hs
  split at hs
  · cases hs
    exact .of_setCall (forget_setStage ..) (fun _ hf => hf) (fun a ha => ha.elim .inl nofun)
      (by simp [hi, rank]) rfl fun _ => rfl
  next hopen =>
  split at hs
  · cases hs
    refine frame_setStage rfl nofun (by simp [hi, rank]) rfl fun hclsd => ?_
    rw [hclsd] at hopen
    exact absurd Bool.false_ne_true hopen
  · cases hs

theorem frame_receive (hi : (s.calls i).stage = .waiting) (hs : receive s i = some s') :
    CallFrame s s' i := by
  unfold receive at hs
  split at hs
  next outcome hval =>
    cases hs
    refine frame_setStage rfl (fun a ha => ?_) (by simp [hi, rank]) rfl fun _ => rfl
    rw [some.inj ha] at hval
    exact .inl hval
  next =>
  split at hs
  · cases hs
    exact frame_setStage rfl nofun (by simp [hi, rank]) rfl fun _ => rfl
  · cases hs

theorem frame_callMove (h : Core config s) (hs : CallMove config s i s') : CallFrame s s' i := by
  cases hs with
  | number hi => exact frame_number h hi
  | enqueue hi _ hs => exact frame_enqueue hi hs
  | receive hi hs => exact frame_receive hi hs
  | leave hs => exact frame_leave hs
  | close hi =>
    exact .of_setCall rfl (fun _ hf => hf) (fun a ha => ha.elim .inl nofun) (by simp [hi, rank]) rfl
      fun _ => rfl
  | cancel hi | «end» hi =>
    exact frame_setStage rfl (fun a ha => absurd ha (map_error_ne _ a)) (by simp [hi, rank]) rfl fun _ => rfl

end Cakemaster.Rpc
