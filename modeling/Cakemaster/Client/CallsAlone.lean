import Cakemaster.Client.CleanupsAlone

/-!
# Calls and the books

What a whole call makes of the books when it runs alone, in a configuration that other calls
may have left in the middle of their work: a sequence of turns, each of which concerns only
what the call is about.
-/

namespace Cakemaster.Client

open Machine Machine.Prog Segment ClientManager
open Object (ClientSession)

variable {A : UnitAllocator} {cfg : ClientLifecycleConfig} {m m' : ClientManager A}
  {gs : ℕ → Ghost} {t : ℕ}

/-- The segments of a remount name the calling client as their owner; `mount_segment` checks
this itself. -/
def ManagerCall.NamesCaller : ManagerCall → Prop
  | remount clientId segments _ => ∀ spec ∈ segments, spec.identity.owner = clientId
  | _ => True

instance : DecidablePred ManagerCall.NamesCaller := fun call => by
  cases call <;> simp only [ManagerCall.NamesCaller] <;> infer_instance

/-- The segments, by owner and id, that an event is about. -/
def LedgerEvent.Concerns : LedgerEvent → ClientId → SegmentId → Prop
  | serve clients, c, _ => c ∈ clients
  | schedule request, c, id => c = request.key.session.clientId ∧ id = request.key.segment
  | claim _ _, _, _ => False
  | complete job, c, id => c = job.key.session.clientId ∧ id = job.key.segment

/-- The segments, by owner and id, that a call is about: those of the caller or of the clients
that are cleaned up, and those of the jobs that are due. -/
def ManagerCall.Concerns (cfg : ClientLifecycleConfig) (m : ClientManager A) :
    ManagerCall → ClientId → SegmentId → Prop
  | drainSessions sessions _, c, _ => c ∈ sessions.map (·.clientId)
  | runCleanupStep now, c, _ =>
    c ∈ (m.lifecycle.claimDueCleanups cfg now cfg.cleanupScanBudget).1.map (·.session.clientId)
  | mountSegment clientId _ _, c, _ => c = clientId
  | remount clientId _ _, c, _ => c = clientId
  | unmountSegment clientId _, c, _ => c = clientId
  | scheduleGracefulUnmount clientId _ _, c, _ => c = clientId
  | runGracefulUnmountStep now, c, id => ∃ job ∈ (m.gracefulUnmounts.claimDue now
      cfg.cleanupScanBudget).1, c = job.key.session.clientId ∧ id = job.key.segment
  | _, _, _ => False

/-- The event is about nothing but what the call is about. -/
def LedgerEvent.Within (concerns : ClientId → SegmentId → Prop) (event : LedgerEvent) : Prop :=
  ∀ c id, event.Concerns c id → concerns c id

theorem ensures_runGracefulUnmountStep (h : Coherent cfg m gs) (ht : (gs t).Done)
    (now : ClientTick) :
    Ensures (runGracefulUnmountStep cfg now) m fun _ m' =>
      Ledger.Turns (LedgerEvent.Within ((ManagerCall.runGracefulUnmountStep now).Concerns cfg m))
          m.ledger m'.ledger := by
  rw [runGracefulUnmountStep]
  refine ensures_onGraceful ((Ensures.foldOver (fun rest _ m' => (∃ gs t, Coherent cfg m' gs ∧ (gs t).Done) ∧
    rest ⊆ (m.gracefulUnmounts.claimDue now cfg.cleanupScanBudget).1 ∧
      Ledger.Turns (LedgerEvent.Within ((ManagerCall.runGracefulUnmountStep now).Concerns cfg m))
      m.ledger m'.ledger)
    ?_ ?_).mono fun _ _ hend => hend.2.2)
  · refine ⟨⟨_, t, h.step (t := t) (.queue _ m.gracefulLocked), by rwa [Function.update_self]⟩,
      List.Subset.refl _, ?_⟩
    exact .single (.claim (b := m.ledger) now cfg.cleanupScanBudget) (by rintro _ _ ⟨⟩)
  · rintro job rest _ _ ⟨⟨_, t₁, h₁, ht₁⟩, hdue, htns⟩ _ _ hrun
    obtain ⟨hjob, hrest⟩ := List.cons_subset.mp hdue
    refine ⟨⟨_, t₁, h₁.runs_done ht₁ (walks_runGracefulJob rfl rfl) ?_ hrun, ?_⟩, hrest, htns.tail ?_⟩
    · exact fun _ _ hput => hput.done (⟨rfl, rfl, rfl, rfl⟩ : (Ghost.start .unmounting).Done)
    · rw [Function.update_self]
      exact ⟨rfl, rfl, rfl, rfl⟩
    · exact ⟨.complete job, fun c id hcons => ⟨job, hjob, hcons⟩, ensures_runGracefulJob h₁ _ _ hrun⟩

/-- What a call makes of the books, the graceful unmounts apart. -/
theorem ensures_serves (h : Coherent cfg m gs) {call : ManagerCall} (hcall : call.NamesCaller)
    (hsch : ∀ c id deadline, call ≠ .scheduleGracefulUnmount c id deadline)
    (hstep : ∀ now, call ≠ .runGracefulUnmountStep now) :
    Ensures (call.code cfg) m fun _ m' =>
      Ledger.Turns (fun event => (∃ clients, event = .serve clients) ∧
        event.Within (call.Concerns cfg m)) m.ledger m'.ledger := by
  have hcaller : ∀ {c : ClientId}, LedgerEvent.Within (fun c' _ => c' = c) (.serve [c]) :=
    fun c' _ hmem => List.mem_singleton.mp hmem
  cases call with
  | heartbeat clientId now =>
    have hages := RegistryState.ages_heartbeat (r := m.lifecycle.registry) cfg clientId now
    have hturn := Ledger.Turn.age (b := m.ledger) [] _ m.ledger.next (fun c => hages.aged c) le_rfl
    exact .update (.ret (.single hturn ⟨⟨_, rfl⟩, nofun⟩))
  | writeOwner | writeAdmission => exact Ensures.read_iff.mpr (.ret .refl)
  | drainSessions sessions reason =>
    refine (ensures_drainSessions h sessions reason).seq fun _ m' htns => .ret (htns.mono ?_)
    rintro event rfl
    exact ⟨⟨_, rfl⟩, fun c id hmem => hmem⟩
  | runCleanupStep clientNow =>
    refine (ensures_runCleanupStep h clientNow).seq fun _ m' htns => .ret (htns.mono ?_)
    rintro event rfl
    exact ⟨⟨_, rfl⟩, fun c id hmem => hmem⟩
  | mountSegment clientId spec now =>
    refine (ensures_mountSegment h spec).seq fun answer m' ⟨hmnts, hrefd⟩ =>
      .ret (.single (hmnts.turn ?_) ⟨⟨_, rfl⟩, hcaller⟩)
    rintro _ rfl _ hspec'
    cases List.mem_singleton.mp hspec'
    by_contra hne
    obtain ⟨_, herr⟩ := hrefd hne
    cases herr
  | unmountSegment clientId segmentId =>
    exact (ensures_unmountSegment h).seq fun _ m' hturn => .ret (.single hturn ⟨⟨_, rfl⟩, hcaller⟩)
  | scheduleGracefulUnmount c id deadline => exact absurd rfl (hsch c id deadline)
  | runGracefulUnmountStep now => exact absurd rfl (hstep now)
  | nextGracefulUnmountDeadline =>
    exact ensures_onGraceful (.ret (.single (.prune (b := m.ledger)) ⟨⟨_, rfl⟩, nofun⟩))
  | remount clientId segments now =>
    refine (ensures_remount h).seq fun _ m' hmnts => .ret (.single ?_ ⟨⟨_, rfl⟩, hcaller⟩)
    rw [strands_owned hcall] at hmnts
    exact hmnts.turn fun _ _ => hcall

theorem ensures_turns (h : Coherent cfg m gs) (ht : (gs t).Done) {call : ManagerCall}
    (hcall : call.NamesCaller) :
    Ensures (call.code cfg) m fun _ m' =>
      Ledger.Turns (LedgerEvent.Within (call.Concerns cfg m)) m.ledger m'.ledger := by
  by_cases hsch : ∃ c id deadline, call = .scheduleGracefulUnmount c id deadline
  · obtain ⟨c, id, deadline, rfl⟩ := hsch
    refine (ensures_scheduleGracefulUnmount h).seq fun answer m' hschedules => .ret ?_
    cases answer with
    | error err => exact .single hschedules fun c' _ hmem => List.mem_singleton.mp hmem
    | ok =>
      obtain ⟨_, _, hsess, -, hturn⟩ := hschedules
      refine .single hturn ?_
      rintro c' _ ⟨rfl, -⟩
      exact (h.clientId hsess).1
  by_cases hstep : ∃ now, call = .runGracefulUnmountStep now
  · obtain ⟨now, rfl⟩ := hstep
    exact (ensures_runGracefulUnmountStep h ht now).seq fun _ m' htns => .ret htns
  · refine (ensures_serves h hcall (fun c id deadline heq => hsch ⟨c, id, deadline, heq⟩)
      fun now heq => hstep ⟨now, heq⟩).mono fun _ m' htns => ?_
    exact htns.mono fun event hevent => hevent.2

/-! ### Evaluation -/

/-- A call that runs alone, when it comes to its end. -/
def perform (cfg : ClientLifecycleConfig) (m : ClientManager A) (call : ManagerCall) :
    ClientManager A :=
  ((eval 0 (call.code cfg) m).map Prod.snd).getD m

/-- Calls that run alone, one after the other, are one of the interleavings. -/
theorem reachable_perform {allowed : ManagerCall → Prop} {k : ManagerConfig A allowed}
    (hrch : (managerSystem A cfg allowed).Reachable k) (call : ManagerCall) (hald : allowed call) :
    ∃ k' : ManagerConfig A allowed, (managerSystem A cfg allowed).Reachable k' ∧
    k'.shared = perform cfg k.shared call := by
  rw [perform]
  cases heval : eval 0 (call.code cfg) k.shared with
  | none => exact ⟨k, hrch, rfl⟩
  | some result =>
    obtain ⟨t, hidle⟩ := hrch.exists_idle
    have hrun : Runs ((managerSystem A cfg allowed).code t ⟨call, hald⟩) k.shared result.1
      result.2 := runs_of_eval heval
    obtain ⟨k', hrch', hshr, -⟩ := System.reachable_call hrch hidle hrun
    exact ⟨k', hrch', hshr⟩

end Cakemaster.Client
