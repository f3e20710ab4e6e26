import Cakemaster.Client.SessionTurns
import Mathlib.Order.Bounds.Basic

/-!
# The invariant of the registry

What holds of each client after any run: its guard, its deadline record, its place in
the queue and its cleanup all agree with the phase of its entry. Each turn of a client
keeps this, so every history does.
-/

namespace Cakemaster.Client

open Machine Segment Multiset ClientEntry Option Function
open Object (ClientSession)

/-- The cleanup that is in existence for the entry. -/
def ClientEntry.cleanups (e : ClientEntry) : Multiset ClientCleanup :=
  match e.phase with
  | .cleanupPending reason .running => {⟨e.session, reason⟩}
  | _ => 0

/-- The place of the entry in the queue of cleanups to be retried. -/
def ClientEntry.queued (e : ClientEntry) : Multiset ClientSession :=
  match e.phase with
  | .cleanupPending _ .queued => {e.session}
  | _ => 0

/-- The part of client `c` fits together; `refreshes` are the times at which sessions were
activated or heard of. -/
structure SessionView.Sound (cfg : ClientLifecycleConfig) (c : ClientId) (next : ℕ)
    (refreshes : ClientSession → List ClientTick) (v : SessionView) : Prop where
  owner : ∀ e, v.entry = some e → e.session.clientId = c
  old : ∀ e, v.entry = some e → e.session.generation < next
  oldRecord : ∀ record ∈ v.records, record.generation < next
  guard : ∀ x, v.active x = true ↔ ∃ e, v.entry = some e ∧ e.session = x ∧ e.phase = .active
  record : ∀ e, v.entry = some e → e.phase = .active → ∃ d ≤ e.expiresAt,
    v.records.filter (·.generation = e.session.generation) = {⟨d, c, e.session.generation⟩}
  expired : ∀ e reason, v.entry = some e → e.phase = .cleanupPending reason .ready →
    reason = .heartbeatExpired ∧ ∃ record ∈ v.records, record.generation = e.session.generation
  unfinished : v.unfinished = (v.entry.map (·.cleanups)).getD 0
  ready : v.ready = (v.entry.map (·.queued)).getD 0
  deadline : ∀ e, v.entry = some e → e.phase = .active →
    IsGreatest {d | ∃ now ∈ refreshes e.session, d = Word.satAdd 64 now cfg.ttlTicks} e.expiresAt

namespace SessionView.Sound

variable {cfg : ClientLifecycleConfig} {c : ClientId} {next next' : ℕ}
  {refreshes refreshes' : ClientSession → List ClientTick} {v v' : SessionView} {e : ClientEntry}

theorem empty : SessionView.Sound cfg c next refreshes ⟨none, 0, 0, 0, fun _ => false⟩ where
  owner := nofun
  old := nofun
  oldRecord := by simp
  guard := by simp
  record := nofun
  expired := nofun
  unfinished := rfl
  ready := rfl
  deadline := nofun

section

variable (h : v.Sound cfg c next refreshes)
include h

/-- Later generations and refreshes of other clients do not matter. -/
theorem mono (hnext : next ≤ next')
    (hrefreshes : ∀ x, x.clientId = c → refreshes' x = refreshes x) :
    v.Sound cfg c next' refreshes' :=
  { h with
    old := fun e he => (h.old e he).trans_le hnext
    oldRecord := fun record hrcd => (h.oldRecord record hrcd).trans_le hnext
    deadline := fun e he hactv => by
      rw [hrefreshes _ (h.owner e he)]
      exact h.deadline e he hactv }

variable (hent : v.entry = some e)
include hent

variable {records : Multiset DeadlineRecord} {active : ClientSession → Bool}

variable {ready : Multiset ClientSession}

theorem leave {phase : ClientPhase}
    {unfinished : Multiset ClientCleanup}
    (hph : phase ≠ .active) (hactv : ∀ x, active x = false)
    (hrec : ∀ record ∈ records, record.generation < next)
    (hexpired : ∀ reason, phase = .cleanupPending reason .ready →
      reason = .heartbeatExpired ∧ ∃ record ∈ records, record.generation = e.session.generation)
    (hunf : unfinished = cleanups { e with phase })
    (hrdy : ready = queued { e with phase }) :
    SessionView.Sound cfg c next refreshes ⟨some { e with phase }, records, ready, unfinished, active⟩ where
  owner := by
    rintro _ ⟨⟩
    exact h.owner e hent
  old := by
    rintro _ ⟨⟩
    exact h.old e hent
  oldRecord := hrec
  guard x := by
    dsimp only
    rw [hactv]
    refine ⟨nofun, ?_⟩
    rintro ⟨_, ⟨⟩, -, h⟩
    exact absurd h hph
  record := by
    rintro _ ⟨⟩ h
    exact absurd h hph
  expired := by
    rintro _ reason ⟨⟩ h
    exact hexpired reason h
  unfinished := hunf
  ready := hrdy
  deadline := by
    rintro _ ⟨⟩ h
    exact absurd h hph

theorem fenced (x : ClientSession) : update v.active e.session false x = false := by
  by_cases hx : x = e.session
  · rw [hx, update_self]
  · rw [update_of_ne hx, ← Bool.not_eq_true, h.guard]
    rintro ⟨_, he', hsess, -⟩
    cases hent.symm.trans he'
    exact hx hsess.symm

theorem inactive (hph : e.phase ≠ .active) (x : ClientSession) : v.active x = false := by
  rw [← Bool.not_eq_true, h.guard]
  rintro ⟨_, he', -, hactv⟩
  cases hent.symm.trans he'
  exact hph hactv

theorem unfinished_eq_zero (hph : ∀ reason, e.phase ≠ .cleanupPending reason .running) :
    v.unfinished = 0 := by
  rw [h.unfinished, hent, map_some, getD_some, cleanups]
  split
  next reason hrng => exact absurd hrng (hph reason)
  · rfl

theorem ready_eq_zero (hph : ∀ reason, e.phase ≠ .cleanupPending reason .queued) : v.ready = 0 := by
  rw [h.ready, hent, map_some, getD_some, queued]
  split
  next reason hqd => exact absurd hqd (hph reason)
  · rfl

theorem claimed {reason : CleanupReason}
    (hph : ∀ reason, e.phase ≠ .cleanupPending reason .running) (hactv : ∀ x, active x = false)
    (hrec : records ⊆ v.records) (hrdy : ready = 0) :
    SessionView.Sound cfg c next refreshes { v.claimed e reason with records, ready, active } := by
  refine h.leave hent nofun hactv (fun record hrcd => h.oldRecord record (hrec hrcd)) nofun ?_ hrdy
  change ⟨e.session, reason⟩ ::ₘ v.unfinished = _
  rw [h.unfinished_eq_zero hent hph]
  rfl

end

theorem deadline_snoc {ticks : List ClientTick} {d : ClientTick} {ttlTicks : ℕ}
    (h : IsGreatest {d | ∃ now ∈ ticks, d = Word.satAdd 64 now ttlTicks} d) (now : ClientTick) :
    IsGreatest {d | ∃ now' ∈ ticks ++ [now], d = Word.satAdd 64 now' ttlTicks}
      (max d (Word.satAdd 64 now ttlTicks)) := by
  constructor
  · rcases le_total d (Word.satAdd 64 now ttlTicks) with hle | hle
    · rw [max_eq_right hle]
      exact ⟨now, by simp, rfl⟩
    · rw [max_eq_left hle]
      obtain ⟨now', hmem, hd⟩ := h.1
      exact ⟨now', List.mem_append_left _ hmem, hd⟩
  · rintro _ ⟨now', hmem, rfl⟩
    rcases List.mem_append.mp hmem with hmem | hmem
    · exact le_max_of_le_left (h.2 ⟨now', hmem, rfl⟩)
    · rw [List.mem_singleton.mp hmem]
      exact le_max_right _ _

end SessionView.Sound

/-- The refreshes after an event. -/
def RegistryEvent.extend (event : RegistryEvent) (refreshes : ClientSession → List ClientTick)
    (x : ClientSession) : List ClientTick :=
  refreshes x ++ (event.refreshes x).toList

theorem RegistryEvent.Quiet.extend {event : RegistryEvent} (h : event.Quiet)
    (refreshes : ClientSession → List ClientTick) : event.extend refreshes = refreshes := by
  funext x
  simp [RegistryEvent.extend, h.2 x]

section Turn

variable {cfg : ClientLifecycleConfig} {event : RegistryEvent} {c : ClientId} {next next' : ℕ}
  {refreshes : ClientSession → List ClientTick} {v v' : SessionView}

variable (h : SessionTurn cfg event c next v next' v')
include h

theorem SessionTurn.sound (hv : v.Sound cfg c next refreshes)
    (hfrs : ∀ x : ClientSession, next ≤ x.generation → refreshes x = []) :
    v'.Sound cfg c next' (event.extend refreshes) := by
  -- a turn without a refresh
  have hqt : event.Quiet → v'.Sound cfg c next' refreshes →
    v'.Sound cfg c next' (event.extend refreshes) :=
    fun hqt h => (hqt.extend refreshes).symm ▸ h
  cases h with
  | @create session now hent hcl hgen hout hnow =>
    have hticks : event.extend refreshes session = [now] := by
      simp [RegistryEvent.extend, hnow, hfrs session hgen.ge]
    have hnone : v.records.filter (·.generation = next) = 0 :=
      filter_eq_nil.mpr fun record hrcd => (hv.oldRecord record hrcd).ne
    constructor
    · rintro _ ⟨⟩
      exact hcl
    · rintro _ ⟨⟩
      exact hgen.trans_lt (Nat.lt_succ_self next)
    · intro record hrcd
      rcases mem_cons.mp hrcd with rfl | hrcd
      · exact Nat.lt_succ_self next
      · exact (hv.oldRecord record hrcd).trans (Nat.lt_succ_self next)
    · intro x
      dsimp only
      by_cases hx : x = session
      · subst hx
        simp
      · rw [update_of_ne hx, hv.guard]
        simp [hent, Ne.symm hx]
    · rintro _ ⟨⟩ -
      refine ⟨_, le_rfl, ?_⟩
      dsimp only
      rw [hgen, filter_cons_of_pos (p := fun r : DeadlineRecord => r.generation = next) _ rfl, hnone]
      rfl
    · rintro _ reason ⟨⟩ ⟨⟩
    · dsimp only
      rw [hv.unfinished, hent]
      rfl
    · dsimp only
      rw [hv.ready, hent]
      rfl
    · rintro _ ⟨⟩ -
      dsimp only
      rw [hticks]
      refine ⟨⟨now, by simp, rfl⟩, ?_⟩
      rintro _ ⟨_, hmem, rfl⟩
      rw [List.mem_singleton.mp hmem]
  | @refresh e now hent hactv hout hnow =>
    have hticks : event.extend refreshes e.session = refreshes e.session ++ [now] := by
      simp [RegistryEvent.extend, hnow]
    constructor
    · rintro _ ⟨⟩
      exact hv.owner e hent
    · rintro _ ⟨⟩
      exact hv.old e hent
    · exact hv.oldRecord
    · intro x
      rw [hv.guard]
      simp [hent, ClientEntry.refresh]
    · rintro _ ⟨⟩ -
      obtain ⟨d, hd, hrec⟩ := hv.record e hent hactv
      exact ⟨d, hd.trans (le_max_left _ _), hrec⟩
    · rintro _ reason ⟨⟩ hrdy
      cases hactv.symm.trans hrdy
    · dsimp only
      rw [hv.unfinished, hent]
      rfl
    · dsimp only
      rw [hv.ready, hent]
      rfl
    · rintro _ ⟨⟩ -
      change IsGreatest {d | ∃ now ∈ event.extend refreshes e.session, _} _
      rw [hticks]
      exact SessionView.Sound.deadline_snoc (hv.deadline e hent hactv) now
  | @expire e now hent hactv hq hnow hdue =>
    refine hqt hq (hv.leave hent (by simp) (hv.fenced hent) hv.oldRecord ?_ ?_ ?_)
    · rintro reason ⟨⟩
      obtain ⟨d, -, hrec⟩ := hv.record e hent hactv
      have hmem : (⟨d, c, e.session.generation⟩ : DeadlineRecord) ∈ v.records.filter
          (·.generation = e.session.generation) := by
        rw [hrec]
        exact mem_singleton_self _
      exact ⟨rfl, _, (mem_filter.mp hmem).1, rfl⟩
    · exact hv.unfinished_eq_zero hent (by simp [hactv])
    · exact hv.ready_eq_zero hent (by simp [hactv])
  | @rollback e hent hactv hq =>
    refine hqt hq ⟨(by rintro _ ⟨⟩), (by rintro _ ⟨⟩), hv.oldRecord, fun x => ?_, (by rintro _ ⟨⟩),
      (by rintro _ _ ⟨⟩), ?_, ?_, (by rintro _ ⟨⟩)⟩
    · simp [SessionView.fenced, hv.fenced hent]
    · exact hv.unfinished_eq_zero hent (by simp [hactv])
    · exact hv.ready_eq_zero hent (by simp [hactv])
  | @drain reason _ e hent hactv hq =>
    exact hqt hq (hv.claimed hent (by simp [hactv]) (hv.fenced hent) (Multiset.Subset.refl _)
      (hv.ready_eq_zero hent (by simp [hactv])))
  | @claim reason e hent hrdy hq =>
    exact hqt hq (hv.claimed hent (by simp [hrdy]) (hv.inactive hent (by simp [hrdy]))
      (Multiset.Subset.refl _) (hv.ready_eq_zero hent (by simp [hrdy])))
  | @claimQueued reason rest e hent hqd hq hrdy =>
    have hrest : rest = 0 := by
      have hone := hv.ready
      rw [hrdy, hent] at hone
      simp only [map_some, getD_some, queued, hqd] at hone
      exact ((singleton_eq_cons_iff _).mp hone.symm).2
    exact hqt hq (hv.claimed hent (by simp [hqd]) (hv.inactive hent (by simp [hqd]))
      (Multiset.Subset.refl _) hrest)
  | @dropReady rest session hq hrdy hstl =>
    -- every session in the queue has its entry waiting
    exfalso
    have hone := hv.ready
    rw [hrdy] at hone
    cases hent : v.entry with
    | none => simp [hent] at hone
    | some e =>
      rw [hent, map_some, getD_some, queued] at hone
      split at hone
      next reason hph =>
        exact hstl e reason hent ((singleton_eq_cons_iff _).mp hone.symm).1 hph
      · exact cons_ne_zero hone
  | @requeue record rest e hent hactv hq hrec hgen =>
    refine hqt hq { hv with oldRecord := ?_, record := ?_, expired := ?_ }
    · intro record' hrcd'
      rcases mem_cons.mp hrcd' with rfl | hmem
      · exact hgen ▸ hv.old e hent
      · exact hv.oldRecord record' (hrec ▸ mem_cons_of_mem hmem)
    · intro e' he' _
      cases hent.symm.trans he'
      obtain ⟨d, -, hone⟩ := hv.record e hent hactv
      rw [hrec, filter_cons_of_pos
        (p := fun r : DeadlineRecord => r.generation = e.session.generation) _ hgen.symm] at hone
      have hrest := ((singleton_eq_cons_iff _).mp hone.symm).2
      refine ⟨e.expiresAt, le_rfl, ?_⟩
      dsimp only
      rw [← hgen, filter_cons_of_pos
        (p := fun r : DeadlineRecord => r.generation = e.session.generation) _ rfl, hrest]
      rfl
    · intro e' reason he' hrdy
      cases hent.symm.trans he'
      cases hactv.symm.trans hrdy
  | @due record rest e now hent hactv hq _ _ hrec =>
    exact hqt hq (hv.claimed hent (by simp [hactv]) (hv.fenced hent)
      (hrec ▸ subset_cons _ _) (hv.ready_eq_zero hent (by simp [hactv])))
  | @dueReady record rest e hent hrdy hq hrec =>
    exact hqt hq (hv.claimed hent (by simp [hrdy]) (hv.inactive hent (by simp [hrdy]))
      (hrec ▸ subset_cons _ _) (hv.ready_eq_zero hent (by simp [hrdy])))
  | @dropRecord record rest hq hrec hstl =>
    refine hqt hq { hv with oldRecord := ?_, record := ?_, expired := ?_ }
    · exact fun record' hmem => hv.oldRecord record' (hrec ▸ mem_cons_of_mem hmem)
    · intro e he hactv
      obtain ⟨d, hd, hone⟩ := hv.record e he hactv
      have hne : record.generation ≠ e.session.generation := fun h => (hstl e he h.symm).1 hactv
      rw [hrec, filter_cons_of_neg
        (p := fun r : DeadlineRecord => r.generation = e.session.generation) _ hne] at hone
      exact ⟨d, hd, hone⟩
    · intro e reason he hrdy
      obtain ⟨rfl, record', hmem, hgen⟩ := hv.expired e reason he hrdy
      rw [hrec] at hmem
      rcases mem_cons.mp hmem with rfl | hmem
      · exact absurd hrdy (hstl e he hgen.symm).2
      · exact ⟨rfl, record', hmem, hgen⟩
  | @finish cleanup hq hmem hrng =>
    obtain ⟨e, reason, hent, hsess, hph⟩ := hrng
    have hone : v.unfinished = {⟨e.session, reason⟩} := by
      rw [hv.unfinished, hent]
      simp [cleanups, hph]
    refine hqt hq ⟨(by simp), (by simp), hv.oldRecord, fun x => ?_, (by simp), (by simp), ?_, ?_, (by simp)⟩
    · simp [hv.inactive hent (by simp [hph])]
    · rw [hone, mem_singleton] at hmem
      simp [hone, hmem]
    · exact hv.ready_eq_zero hent (by simp [hph])
  | @release reason e cleanup hent hrng hq hmem hsess =>
    have hone : v.unfinished = {⟨e.session, reason⟩} := by
      rw [hv.unfinished, hent]
      simp [cleanups, hrng]
    refine hqt hq (hv.leave hent (by simp) (hv.inactive hent (by simp [hrng])) hv.oldRecord (by simp) ?_ ?_)
    · rw [hone, mem_singleton] at hmem
      simp [hone, hmem, cleanups]
    · rw [hv.ready_eq_zero hent (by simp [hrng])]
      rfl
  | @dispose cleanup hq hmem hstl =>
    -- every cleanup has its entry running
    exfalso
    rw [hv.unfinished] at hmem
    cases hent : v.entry with
    | none => simp [hent] at hmem
    | some e =>
      rw [hent, map_some, getD_some, cleanups] at hmem
      split at hmem
      next reason hph =>
        rw [mem_singleton] at hmem
        exact hstl ⟨e, reason, hent, by rw [hmem], hph⟩
      · exact notMem_zero _ hmem

/-- What a turn does to the counter of generations and to what is known of sessions. -/
theorem SessionTurn.next_cases :
    next' = next ∧ event.handedOut = none ∨ next' = next + 1 ∧ event.handedOut = some next := by
  cases h with
  | create _ _ _ hout => exact .inr ⟨rfl, hout⟩
  | refresh _ _ hout => exact .inl ⟨rfl, hout⟩
  | expire _ _ hqt | rollback _ _ hqt | drain _ _ hqt | claim _ _ hqt | claimQueued _ _ hqt
  | dropReady hqt | requeue _ _ hqt | due _ _ hqt | dueReady _ _ hqt | dropRecord hqt | finish hqt
  | release _ _ hqt | dispose hqt => exact .inl ⟨rfl, hqt.1⟩

/-- A turn refreshes sessions of its client that are there after it. -/
theorem SessionTurn.refreshes_cases (hv : v.Sound cfg c next refreshes)
    (hx : event.refreshes x ≠ none) : x.clientId = c ∧ x.generation < next' := by
  cases h with
  | @create session now hent hcl hgen hout hnow =>
    rw [hnow] at hx
    by_cases hsess : session = x
    · exact ⟨hsess ▸ hcl, hsess ▸ hgen.trans_lt (Nat.lt_succ_self next)⟩
    · simp [hsess] at hx
  | @refresh e now hent hactv hout hnow =>
    rw [hnow] at hx
    by_cases hsess : e.session = x
    · exact ⟨hsess ▸ hv.owner e hent, hsess ▸ hv.old e hent⟩
    · simp [hsess] at hx
  | expire _ _ hqt | rollback _ _ hqt | drain _ _ hqt | claim _ _ hqt | claimQueued _ _ hqt
  | dropReady hqt | requeue _ _ hqt | due _ _ hqt | dueReady _ _ hqt | dropRecord hqt | finish hqt
  | release _ _ hqt | dispose hqt => exact absurd (hqt.2 x) hx

end Turn

/-! ### Runs -/

/-- The invariant of a run that has handed out the listed generations. -/
structure RegistryInvariant (cfg : ClientLifecycleConfig) (handedOut : List ℕ)
    (refreshes : ClientSession → List ClientTick) (s : Lifecycle) : Prop where
  clients : ∀ c, (s.view c).Sound cfg c s.registry.nextGeneration refreshes
  ordered : s.Ordered
  bounded : s.registry.len ≤ cfg.maxClients
  increasing : handedOut.Pairwise (· < ·)
  past : ∀ generation ∈ handedOut, generation < s.registry.nextGeneration
  fresh : ∀ x : ClientSession, s.registry.nextGeneration ≤ x.generation → refreshes x = []

namespace RegistryInvariant

variable {cfg : ClientLifecycleConfig} {event : RegistryEvent} {c : ClientId} {handedOut : List ℕ}
  {refreshes : ClientSession → List ClientTick} {s s' : Lifecycle}

theorem new : RegistryInvariant cfg [] (fun _ => []) .new where
  clients c := by
    have hview : Lifecycle.new.view c = ⟨none, 0, 0, 0, fun _ => false⟩ := by
      simp [Lifecycle.view, RegistryState.view, Lifecycle.new, RegistryState.new]
    rw [hview]
    exact .empty
  ordered := List.Pairwise.nil
  bounded := Nat.zero_le _
  increasing := List.Pairwise.nil
  past := by simp
  fresh _ _ := rfl

variable (h : RegistryInvariant cfg handedOut refreshes s)
include h

theorem owned : s.Owned :=
  fun c => (h.clients c).owner

theorem running (hmem : cleanup ∈ s.unfinished) : ∃ e reason, s.entry cleanup.session.clientId =
    some e ∧ e.session = cleanup.session ∧ e.phase = .cleanupPending reason .running := by
  have hview := Lifecycle.mem_unfinished_view.mpr ⟨hmem, rfl⟩
  rw [(h.clients _).unfinished] at hview
  cases hent : (s.view cleanup.session.clientId).entry with
  | none => simp [hent] at hview
  | some e =>
    rw [hent, map_some, getD_some, cleanups] at hview
    split at hview
    next reason hph =>
      rw [mem_singleton] at hview
      exact ⟨e, reason, hent, by rw [hview], hph⟩
    · exact absurd hview (notMem_zero _)

theorem unfinished_le (c : ClientId) :
    ((s.unfinished : Multiset ClientCleanup).filter (·.session.clientId = c)).card ≤ 1 := by
  have hview : (s.unfinished : Multiset ClientCleanup).filter (·.session.clientId = c) =
      ((s.entry c).map (·.cleanups)).getD 0 := (h.clients c).unfinished
  rw [hview]
  cases s.entry c with
  | none => simp
  | some e =>
    rw [map_some, getD_some, cleanups]
    split <;> simp

theorem turn (hturn : RegistryTurn cfg event c s s') :
    RegistryInvariant cfg (handedOut ++ event.handedOut.toList) (event.extend refreshes) s' := by
  have hnext : s.registry.nextGeneration ≤ s'.registry.nextGeneration := by
    rcases hturn.turn.next_cases with ⟨heq, -⟩ | ⟨heq, -⟩ <;> omega
  have hnone : ∀ x : ClientSession, x.clientId ≠ c ∨ s'.registry.nextGeneration ≤ x.generation →
      event.refreshes x = none := by
    intro x hx
    by_contra hsome
    obtain ⟨hcl, _⟩ := hturn.turn.refreshes_cases (h.clients c) hsome
    rcases hx with hx | hx
    · exact hx hcl
    · omega
  constructor
  · intro c'
    by_cases hc : c' = c
    · subst hc
      exact hturn.turn.sound (h.clients c') h.fresh
    · rw [hturn.others c' hc]
      refine (h.clients c').mono hnext fun x hx => ?_
      simp [RegistryEvent.extend, hnone x (.inl (hx.trans_ne hc))]
  · exact hturn.ordered h.ordered
  · exact hturn.bounded.trans (max_le h.bounded le_rfl)
  · rcases hturn.turn.next_cases with ⟨-, hout⟩ | ⟨-, hout⟩
    · simpa [hout] using h.increasing
    · rw [hout]
      refine List.pairwise_append.mpr ⟨h.increasing, List.pairwise_singleton _ _, fun g hg g' hg' => ?_⟩
      rw [List.mem_singleton.mp hg']
      exact h.past g hg
  · intro generation hmem
    rcases List.mem_append.mp hmem with hmem | hmem
    · exact (h.past generation hmem).trans_le hnext
    · rcases hturn.turn.next_cases with ⟨-, hout⟩ | ⟨heq, hout⟩
      · simp [hout] at hmem
      · rw [hout, toList_some, List.mem_singleton] at hmem
        omega
  · intro x hx
    simp [RegistryEvent.extend, hnone x (.inr hx), h.fresh x (hnext.trans hx)]

theorem turns (hqt : event.Quiet) (htns : Turns cfg event s s') :
    RegistryInvariant cfg handedOut refreshes s' := by
  induction htns with
  | refl => exact h
  | tail _ hturn ih =>
    obtain ⟨_, hturn⟩ := hturn
    have hinv := ih.turn hturn
    rwa [hqt.1, toList_none, List.append_nil, hqt.extend] at hinv

theorem performs (hstep : Performs cfg s event s') :
    RegistryInvariant cfg (handedOut ++ event.handedOut.toList) (event.extend refreshes) s' := by
  rcases hstep.turns h.owned with ⟨hqt, htns⟩ | ⟨_, hturn⟩
  · rw [hqt.1, toList_none, List.append_nil, hqt.extend]
    exact h.turns hqt htns
  · exact h.turn hturn

end RegistryInvariant

theorem History.invariant (h : History cfg events s) : RegistryInvariant cfg
    (events.filterMap (·.handedOut)) (fun x => events.filterMap (·.refreshes x)) s := by
  induction h with
  | new => exact .new
  | @step events s event s' _ hstep ih =>
    have hinv := ih.performs hstep
    have hrefreshes : event.extend (fun x => events.filterMap (·.refreshes x)) =
        fun x => (events ++ [event]).filterMap (·.refreshes x) := by
      funext x
      cases hx : event.refreshes x <;> simp [RegistryEvent.extend, hx]
    have hout : events.filterMap (·.handedOut) ++ event.handedOut.toList =
        (events ++ [event]).filterMap (·.handedOut) := by
      cases hx : event.handedOut <;> simp [hx]
    rwa [hrefreshes, hout] at hinv

end Cakemaster.Client
