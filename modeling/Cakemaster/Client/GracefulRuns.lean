import Cakemaster.Client.GracefulInvariant
import Cakemaster.Client.ClientIsolation
import Cakemaster.Client.SlotsAndPool

/-!
# Runs with graceful unmounts

Calls of the manager follow one another, and a step of the graceful unmounts is taken apart:
the due jobs are claimed, and each of them is completed later, after any other calls. A run
remembers the jobs that are claimed and not completed, and the requests that were accepted.
-/

namespace Cakemaster.Client

open Machine Machine.Prog Segment ClientManager
open Object (ClientSession)

variable {A : UnitAllocator} {cfg : ClientLifecycleConfig}
variable {m : ClientManager A} {now : ClientTick} {m' : ClientManager A}

/-- The first part of `run_graceful_unmount_step`. -/
def claimGraceful (cfg : ClientLifecycleConfig) (now : ClientTick) :
    ManagerM A (List GracefulUnmountJob × ℕ) :=
  onGraceful fun queue =>
    let (jobs, queue) := queue.claimDue now cfg.cleanupScanBudget
    let (cancelled, queue) := queue.takeCancelled
    ((jobs, cancelled), queue)

theorem runs_claimGraceful (hrun : Runs (claimGraceful cfg now) m (jobs, cancelled) m') :
    jobs = (m.gracefulUnmounts.claimDue now cfg.cleanupScanBudget).1 ∧ m' = { m with
      gracefulUnmounts := (m.gracefulUnmounts.claimDue now cfg.cleanupScanBudget).2.takeCancelled.2 } := by
  have hensures : Ensures (claimGraceful cfg now) m fun x m' =>
      x.1 = (m.gracefulUnmounts.claimDue now cfg.cleanupScanBudget).1 ∧ m' = { m with
        gracefulUnmounts := (m.gracefulUnmounts.claimDue now cfg.cleanupScanBudget).2.takeCancelled.2 } :=
    Ensures.bind_ret_iff.mp (ensures_onGraceful (.ret ⟨rfl, rfl⟩))
  exact hensures _ _ hrun

theorem Settled.queue (h : Settled cfg m) (queue : GracefulUnmountQueue) :
    Settled cfg { m with gracefulUnmounts := queue } := by
  have hstep := Coherent.step h (t := 0) (.queue queue m.gracefulLocked)
  rwa [Function.update_eq_self] at hstep

theorem Settled.runGracefulJob (h : Settled cfg m)
    (hrun : Runs (runGracefulJob now report job) m report' m') : Settled cfg m' :=
  h.runs (walks_runGracefulJob rfl rfl)
    (fun _ _ hput => hput.done (⟨rfl, rfl, rfl, rfl⟩ : (Ghost.start .unmounting).Done)) hrun

/-- The request that a call has been accepted with. -/
def ManagerCall.accepted (m : ClientManager A) : ManagerCall → ManagerResult → List ScheduledUnmount
  | scheduleGracefulUnmount clientId segmentId deadline, .scheduled (.ok ()) =>
    match m.lifecycle.registry.activeSession clientId, m.pool.segment segmentId with
    | .ok session, some (segment, _) => [⟨⟨session, segmentId⟩, segment, deadline⟩]
    | _, _ => []
  | _, _ => []

structure UnmountRun (A : UnitAllocator) where
  manager : ClientManager A
  claimed : ClaimedJobs
  requests : List ScheduledUnmount

namespace UnmountRun

variable {meets : UnmountRun A → ManagerCall → Prop} {s s' : UnmountRun A}

inductive Step (cfg : ClientLifecycleConfig) (meets : UnmountRun A → ManagerCall → Prop)
    (s : UnmountRun A) :
    UnmountRun A → Prop
  | call {m' : ClientManager A} (hcall : ∀ now, call ≠ .runGracefulUnmountStep now)
      (hmeets : meets s call) (hrun : Runs (call.code cfg) s.manager result m') :
      Step cfg meets s ⟨m', s.claimed, call.accepted s.manager result ++ s.requests⟩
  | claim {now : ClientTick} {m' : ClientManager A}
      (hrun : Runs (claimGraceful cfg now) s.manager (jobs, cancelled) m') :
      Step cfg meets s ⟨m', jobs.map (now, ·) ++ s.claimed, s.requests⟩
  | complete {m' : ClientManager A}
      (hx : x ∈ s.claimed) (hrun : Runs (runGracefulJob x.1 report x.2) s.manager report' m') :
      Step cfg meets s ⟨m', s.claimed.erase x, s.requests⟩

/-- What runs over a pool reach that only the manager changes. -/
inductive Reached (cfg : ClientLifecycleConfig) (meets : UnmountRun A → ManagerCall → Prop) :
    UnmountRun A → Prop
  | start {pool : SegmentPool A} (hp : PoolInvariant pool held)
      (hemp : ∀ id, pool.mount id = none) : Reached cfg meets ⟨.new pool, [], []⟩
  | step {s s' : UnmountRun A} (h : Reached cfg meets s) (hstep : Step cfg meets s s') :
      Reached cfg meets s'

/-- The segments of a remount name the caller as their owner, and no unmount is entered under the
revision of a job for the same segment that is claimed and not completed (revisions wrap around
at `2 ^ 64`). -/
def Meets (s : UnmountRun A) : ManagerCall → Prop
  | .remount clientId segments _ => ∀ spec ∈ segments, spec.identity.owner = clientId
  | .scheduleGracefulUnmount _ segmentId _ =>
    ∀ x ∈ s.claimed, x.2.key.segment = segmentId →
      x.2.revision ≠ s.manager.gracefulUnmounts.nextFree
  | _ => True

/-! ### The invariant along a run -/

structure InOrder (cfg : ClientLifecycleConfig) (s : UnmountRun A) : Prop where
  orderly : Orderly cfg s.manager
  tidy : s.manager.ledger.Tidy s.claimed s.requests

namespace InOrder

theorem start {pool : SegmentPool A} (hp : PoolInvariant pool held)
    (hemp : ∀ id, pool.mount id = none) : InOrder cfg ⟨.new pool, [], []⟩ where
  orderly := .new hp hemp
  tidy := by
    refine ⟨fun key p hp => ?_, fun key k hrec => ?_, nofun, List.Pairwise.nil⟩
    · cases (AList.lookup_empty key).symm.trans hp
    · cases (hemp key.segment).symm.trans hrec.mount

variable (h : InOrder cfg s)
include h

theorem serve {call : ManagerCall}
    (hcall : call.NamesCaller)
    (hsch : ∀ c id deadline, call ≠ .scheduleGracefulUnmount c id deadline)
    (hstep : ∀ now, call ≠ .runGracefulUnmountStep now)
    (hrun : Runs (call.code cfg) s.manager result m') :
    InOrder cfg ⟨m', s.claimed, s.requests⟩ := by
  have htns := ensures_serves h.orderly.settled hcall hsch hstep _ _ hrun
  obtain ⟨hagr, htidy⟩ := htns.keeps (fun b => b.Agrees ∧ b.Tidy s.claimed s.requests)
    ⟨h.orderly.agrees, h.tidy⟩ (by
      rintro b _ _ ⟨⟨_, rfl⟩, -⟩ hturn ⟨hagr, htidy⟩
      exact ⟨hturn.agrees hagr, htidy.sheds (hturn.sheds hagr)⟩)
  exact ⟨⟨h.orderly.settled.call hrun, hagr⟩, htidy⟩

theorem schedule {c : ClientId} {id : SegmentId} {deadline : ClientTick} {result : ManagerResult}
    (hmeets : s.Meets (.scheduleGracefulUnmount c id deadline))
    (hrun : Runs ((ManagerCall.scheduleGracefulUnmount c id deadline).code cfg) s.manager result m') :
    InOrder cfg ⟨m', s.claimed, (ManagerCall.scheduleGracefulUnmount c id deadline).accepted
    s.manager result ++ s.requests⟩ := by
  have hcall : (ManagerCall.scheduleGracefulUnmount c id deadline).NamesCaller := trivial
  refine ⟨h.orderly.call hcall hrun, ?_⟩
  have hensures : Ensures ((ManagerCall.scheduleGracefulUnmount c id deadline).code cfg) s.manager
      fun result m' =>
      m'.ledger.Tidy s.claimed
        ((ManagerCall.scheduleGracefulUnmount c id deadline).accepted s.manager result ++ s.requests) := by
    refine (ensures_scheduleGracefulUnmount h.orderly.settled).seq fun answer m' hschedules => .ret ?_
    cases answer with
    | error err => exact h.tidy.sheds (Ledger.Turn.sheds hschedules h.orderly.agrees)
    | ok =>
      obtain ⟨_, _, hsess, hmt, hturn⟩ := hschedules
      rw [ManagerCall.accepted, hsess, SegmentPool.segment, hmt]
      refine h.tidy.schedule hturn fun x hx hkey => hmeets x hx ?_
      rw [hkey]
  exact hensures _ _ hrun

theorem claim (hrun : Runs (claimGraceful cfg now) s.manager (jobs, cancelled) m') :
    InOrder cfg ⟨m', jobs.map (now, ·) ++ s.claimed, s.requests⟩ := by
  obtain ⟨rfl, rfl⟩ := runs_claimGraceful hrun
  refine ⟨⟨h.orderly.settled.queue _, h.orderly.agrees.queue _⟩, ?_⟩
  exact h.tidy.claim (fun id k hk => mount_entry_lt hk) now cfg.cleanupScanBudget

theorem complete (hx : x ∈ s.claimed)
    (hrun : Runs (runGracefulJob x.1 report x.2) s.manager report' m') :
    InOrder cfg ⟨m', s.claimed.erase x, s.requests⟩ := by
  have hturn := ensures_runGracefulJob h.orderly.settled _ _ hrun
  exact ⟨⟨h.orderly.settled.runGracefulJob hrun, hturn.agrees h.orderly.agrees⟩,
    h.tidy.complete h.orderly.agrees hx hturn⟩

theorem step (hstep : Step cfg Meets s s') : InOrder cfg s' := by
  cases hstep with
  | @call call result m' hcall hmeets hrun =>
    by_cases hsch : ∃ c id deadline, call = .scheduleGracefulUnmount c id deadline
    · obtain ⟨c, id, deadline, rfl⟩ := hsch
      exact h.schedule hmeets hrun
    have hnames : call.NamesCaller := by
      cases call with
      | remount => exact hmeets
      | _ => trivial
    have haccd : call.accepted s.manager result = [] := by
      cases call with
      | scheduleGracefulUnmount c id deadline => exact absurd ⟨c, id, deadline, rfl⟩ hsch
      | _ => rfl
    rw [haccd]
    exact h.serve hnames (fun c id deadline heq => hsch ⟨c, id, deadline, heq⟩) hcall hrun
  | claim hrun => exact h.claim hrun
  | complete hx hrun => exact h.complete hx hrun

end InOrder

theorem Reached.inOrder (h : Reached cfg Meets s) : InOrder cfg s := by
  induction h with
  | start hp hemp => exact .start hp hemp
  | step _ hstep ih => exact ih.step hstep

/-! ### Exactness -/

/-- The job was claimed for this very incarnation of the segment, after the deadline of a request
that was accepted for it. -/
structure Entitled (s : UnmountRun A) (x : ClientTick × GracefulUnmountJob) (id : SegmentId)
    (k : Mount) : Prop where
  segment : id = x.2.key.segment
  owner : k.owner = x.2.key.session.clientId
  incarnation : x.2.incarnation = s.manager.pool.handle k.entry
  request : ∃ request ∈ s.requests, request.key = x.2.key ∧ request.incarnation = x.2.incarnation ∧
    request.deadline ≤ x.1

/-- A claimed job removes only what it is entitled to. When no job is claimed, every quiesced
segment of an active client is pending for the session of the client and its incarnation; it is
claimed by the first step after its deadline that has budget left, and its completion removes
the segment. -/
structure Exact (cfg : ClientLifecycleConfig) (s : UnmountRun A) : Prop where
  removes : ∀ x ∈ s.claimed, ∀ report report' m', Runs (runGracefulJob x.1 report x.2) s.manager
    report' m' → ∀ id k, s.manager.pool.mount id = some k → m'.pool.mount id = none →
    s.Entitled x id k
  pending : s.claimed = [] → ∀ id k e, s.manager.pool.mount id = some k → k.state = .quiesced →
    s.manager.lifecycle.entry k.owner = some e → e.phase = .active →
      ∃ p, s.manager.gracefulUnmounts.pending.lookup ⟨e.session, id⟩ = some p ∧
        p.incarnation = s.manager.pool.handle k.entry ∧ p.claimed = false
  claims : ∀ key p, s.manager.gracefulUnmounts.pending.lookup key = some p → p.claimed = false →
    ∀ now jobs cancelled m', Runs (claimGraceful cfg now) s.manager (jobs, cancelled) m' →
    p.deadline ≤ now →
      jobs.length < cfg.cleanupScanBudget → ⟨key, p.incarnation, p.revision⟩ ∈ jobs
  completes : ∀ x ∈ s.claimed, ∀ p, s.manager.gracefulUnmounts.pending.lookup x.2.key = some p →
    p.revision = x.2.revision →
    ∀ report report' m', Runs (runGracefulJob x.1 report x.2) s.manager report' m' →
      m'.pool.mount x.2.key.segment = none

theorem InOrder.exact (h : InOrder cfg s) : Exact cfg s where
  removes x hx report report' m' hrun id k hbef haft := by
    have hturn := ensures_runGracefulJob h.orderly.settled _ _ hrun
    obtain ⟨hid, hrec, hinc⟩ := hturn.removes hbef haft
    exact ⟨hid, hrec.owner, hinc, (h.tidy.outstanding x hx).requested⟩
  pending hnone id k e hmt hst hent _ := by
    have hcl : e.session.clientId = k.owner := by
      obtain ⟨_, hhist, -⟩ := h.orderly.settled.registry
      exact hhist.invariant.owned k.owner e hent
    have hrec : s.manager.ledger.Records ⟨e.session, id⟩ k := by
      refine ⟨?_, ?_, hmt, hcl.symm⟩
      · rw [h.orderly.agrees.session]
        show ((s.manager.lifecycle.entry e.session.clientId).map (·.session)) = some e.session
        rw [hcl, hent, Option.map_some]
      · exact (h.orderly.agrees.segments _ id).mpr ⟨k, hmt, hcl.symm⟩
    obtain ⟨p, hp, hinc⟩ := h.tidy.quiesced _ k hrec hst
    refine ⟨p, hp, hinc, Bool.eq_false_of_not_eq_true fun htrue => ?_⟩
    obtain ⟨x, hx, -⟩ := (h.tidy.pending _ p hp).claimed htrue
    rw [hnone] at hx
    cases hx
  claims key p hp hunclaimed now jobs cancelled m' hrun hdue hbud := by
    obtain ⟨rfl, -⟩ := runs_claimGraceful hrun
    exact GracefulUnmountQueue.mem_claimDue h.tidy.sorted hbud hp hunclaimed hdue
      ((h.tidy.pending key p hp).listed hunclaimed)
  completes x hx p hp hrev report report' m' hrun := by
    have hturn := ensures_runGracefulJob h.orderly.settled _ _ hrun
    exact h.tidy.completes hx hp hrev hturn

/-! ### Evaluation -/

/-- A call in a run, when it comes to its end. -/
def perform (cfg : ClientLifecycleConfig) (s : UnmountRun A) (call : ManagerCall) : UnmountRun A :=
  match eval 0 (call.code cfg) s.manager with
  | some (result, m') => ⟨m', s.claimed, call.accepted s.manager result ++ s.requests⟩
  | none => s

theorem Reached.perform (h : Reached cfg meets s) (call : ManagerCall)
    (hcall : ∀ now, call ≠ .runGracefulUnmountStep now) (hmeets : meets s call) :
    Reached cfg meets (s.perform cfg call) := by
  rw [UnmountRun.perform]
  cases heval : eval 0 (call.code cfg) s.manager with
  | none => exact h
  | some result => exact h.step (.call hcall hmeets (runs_of_eval (a := result.1) heval))

end UnmountRun

/-- Runs whose calls all meet the condition. -/
theorem graceful_unmounts_exact {s : UnmountRun A} (h : UnmountRun.Reached cfg UnmountRun.Meets s) :
    s.Exact cfg :=
  h.inOrder.exact

namespace Sample

/-- No call has been made. -/
def idle : UnmountRun bumpAllocator := ⟨initial, [], []⟩

theorem reached_idle {meets : UnmountRun bumpAllocator → ManagerCall → Prop} :
    UnmountRun.Reached ⟨10, 4, 4⟩ meets idle :=
  .start (.empty 0 .default) fun _ => rfl

/-- A segment is mounted and is to be unmounted gracefully. -/
def scheduled : UnmountRun bumpAllocator :=
  (idle.perform ⟨10, 4, 4⟩ (.mountSegment client spec 0)).perform ⟨10, 4, 4⟩
    (.scheduleGracefulUnmount client spec.identity.id 5)

def stray : SegmentSpec := ⟨⟨⟨0, 4⟩, stranger, "stray", "host"⟩, ⟨16384, 1024⟩, ⟨.tcp, "endpoint"⟩⟩

/-- One client mounts a segment, and the other remounts a segment of the first. -/
def strayed : UnmountRun bumpAllocator :=
  (idle.perform ⟨10, 4, 4⟩ (.mountSegment stranger foreign 0)).perform ⟨10, 4, 4⟩
    (.remount client [stray] 0)

end Sample

open Sample

set_option maxRecDepth 20000 in
theorem graceful_unmounts_exact_scheduled :
    (∃ k, scheduled.manager.pool.mount spec.identity.id = some k ∧ k.state = .quiesced) ∧
    scheduled.claimed = [] ∧ scheduled.Exact ⟨10, 4, 4⟩ := by
  refine ⟨⟨⟨0, spec, .quiesced⟩, by rfl, rfl⟩, by rfl, graceful_unmounts_exact ?_⟩
  refine (reached_idle.perform (.mountSegment client spec 0) nofun trivial).perform
    (.scheduleGracefulUnmount client spec.identity.id 5) nofun ?_
  intro x hx
  cases hx

set_option maxRecDepth 20000 in
/-- The segment that was remounted for the wrong client stays quiesced, though its owner is
active: no unmount is pending. -/
theorem stray_stays_quiesced : UnmountRun.Reached ⟨10, 4, 4⟩ (fun _ _ => True) strayed ∧
    strayed.claimed = [] ∧
      strayed.manager.pool.mount stray.identity.id = some ⟨1, stray, .quiesced⟩ ∧
        (∃ e, strayed.manager.lifecycle.entry stranger = some e ∧ e.phase = .active) ∧
          strayed.manager.gracefulUnmounts.pending.keys = [] ∧ ¬strayed.Exact ⟨10, 4, 4⟩ := by
  have hmount : strayed.manager.pool.mount stray.identity.id = some ⟨1, stray, .quiesced⟩ := by rfl
  have hpending : strayed.manager.gracefulUnmounts.pending.keys = [] := by rfl
  have hentry : ∃ e, strayed.manager.lifecycle.entry stranger = some e ∧ e.phase = .active :=
    ⟨⟨⟨stranger, 1, Nat.one_pos⟩, .active, 10⟩, by rfl, rfl⟩
  have hreached : UnmountRun.Reached ⟨10, 4, 4⟩ (fun _ _ => True) strayed :=
    (reached_idle.perform (.mountSegment stranger foreign 0) nofun trivial).perform
      (.remount client [stray] 0) nofun trivial
  refine ⟨hreached, by rfl, hmount, hentry, hpending, fun hexact => ?_⟩
  obtain ⟨e, he, hactive⟩ := hentry
  obtain ⟨p, hp, -⟩ := hexact.pending rfl _ _ e hmount rfl he hactive
  have hsome : (strayed.manager.gracefulUnmounts.pending.lookup ⟨e.session, stray.identity.id⟩).isSome :=
    Option.isSome_iff_exists.mpr ⟨p, hp⟩
  have hmem := AList.mem_keys.mp (AList.lookup_isSome.mp hsome)
  rw [hpending] at hmem
  cases hmem

end Cakemaster.Client
