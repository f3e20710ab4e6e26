import Cakemaster.Client.SlotAgreement

/-!
# Publication of sessions

A session is published by its activation: from then on writes of the client are admitted.
`remount` reactivates the segments of its request before, so that they accept when the first
write is admitted. `mount_segment` of a client without a session activates first and
reactivates the segment afterwards; in between, the session is published too early.
-/

namespace Cakemaster.Client

open Machine Segment Function List
open Object (ClientSession)

variable {A : UnitAllocator} {cfg : ClientLifecycleConfig} {m m' : ClientManager A} {g g' : Ghost}
variable {session : ClientSession} {k' : Held} {request : List SegmentSpec}

/-- The segment is mounted as it is specified, and it accepts. -/
def ClientManager.Accepts (m : ClientManager A) (spec : SegmentSpec) : Prop :=
  ∃ k, m.pool.mount spec.identity.id = some k ∧ k.spec = spec ∧ k.state = .accepting

/-- Calls that mount segments or ask for the admission of writes. -/
def ManagerCall.MountsOrAdmits : ManagerCall → Prop
  | mountSegment .. | remount .. | writeAdmission .. => True
  | _ => False

/-- No operation on the client's slot may take the segment away. -/
def Unthreatened (gs : ℕ → Ghost) (c : ClientId) (id : SegmentId) : Prop :=
  ∀ t k, (gs t).held = some k → k.client = c → k.phase = .entered → id ∉ k.fresh

/-- The sessions that were established, with their requests. -/
structure Published (m : ClientManager A) (gs : ℕ → Ghost) : Prop where
  roles : ∀ t, (gs t).role ≠ .unmounting ∧ (gs t).role ≠ .cleaning
  recorded : ∀ session, m.lifecycle.Active session → ∃ request, (session, request) ∈ m.established
  request : ∀ t k session ready request early, (gs t).held = some k →
    k.phase = .established session ready → (gs t).role = .mounting k.client request early →
    ∀ x ∈ m.established, x.1 = session → x.2 = request
  -- the segments of an active session accept, unless it was established early
  settled : ∀ x ∈ m.established, m.lifecycle.Active x.1 →
    (∃ t k, (gs t).held = some k ∧ k.client = x.1.clientId ∧ k.phase = .established x.1 false) ∨
      ∀ spec ∈ x.2, spec.identity.owner = x.1.clientId →
        m.Accepts spec ∧ Unthreatened gs x.1.clientId spec.identity.id

/-- A segment that is new to the operation was not mounted before. -/
theorem Move.fresh_cases (h : Move cfg m g m' g') (hloc : Local cfg m g)
    (hheld' : g'.held = some k') (hph' : k'.phase = .entered) {id : SegmentId}
    (hid : id ∈ k'.fresh) :
    m.pool.mount id = none ∨ ∃ k, g.held = some k ∧ k.client = k'.client ∧ k.phase = .entered ∧
    id ∈ k.fresh := by
  cases h with
  | establish | withdraw | lapse | absent =>
    cases hheld'
    cases hph'
  | lock =>
    cases hheld'
    cases hid
  | unlock => cases hheld'
  | @attach k _ _ spec pool outcome _ hheld _ _ _ hatt =>
    cases hheld'
    obtain ⟨_, hp⟩ := hloc.pool
    obtain ⟨_, _, hrun, -, -, heffc⟩ := attaching hp spec
    cases hatt.symm.trans hrun
    generalize pool.mount = mount' at heffc
    cases heffc with
    | existing => exact .inr ⟨k, hheld, rfl, hph', hid⟩
    | new hnone =>
      rcases mem_cons.mp hid with rfl | hid
      · exact .inl hnone
      · exact .inr ⟨k, hheld, rfl, hph', hid⟩
  | reactivate _ hheld _ _ _ hph =>
    cases hheld'
    rcases hph with ⟨rfl, -⟩ | ⟨_, _, _, -, rfl, -⟩
    · exact .inr ⟨_, hheld, rfl, hph', hid⟩
    · cases hph'
  | see hheld | detach _ hheld =>
    cases hheld'
    exact .inr ⟨_, hheld, rfl, hph', hid⟩
  | _ => exact .inr ⟨k', hheld', rfl, hph', hid⟩

theorem Held.Sound.accepts {k : Held} {spec : SegmentSpec} (h : k.Sound m)
    (hcov : k.Covers request []) (hspec : spec ∈ request) (hownr : spec.identity.owner = k.client) :
    m.Accepts spec := by
  obtain ⟨_, hmem, hid | hacc⟩ := hcov spec hspec hownr
  · cases hid
  · obtain ⟨j, hj, hspec', -, haccp⟩ := h.mounted _ hmem hownr
    exact ⟨j, hj, hspec', haccp hacc⟩

theorem Coherent.unthreatened (hcoh : Coherent cfg m gs) (hmove : Move cfg m (gs t) m' g')
    (hk' : g'.held = some k') (hph : k'.phase = .established session ready) (id : SegmentId) :
    Unthreatened (update gs t g') k'.client id := by
  intro t' k hk hcl hentd
  have hself : (update gs t g' t).held = some k' := by rwa [update_self]
  have ht := (hcoh.step hmove).table.holder hk hself hcl
  rw [ht, update_self] at hk
  cases hk.symm.trans hk'
  cases hph.symm.trans hentd

namespace Published

variable {gs : ℕ → Ghost} {t : ℕ}

section Step

variable (hcoh : Coherent cfg m gs) (h : Published m gs) (hmove : Move cfg m (gs t) m' g')
include hcoh h hmove

theorem accepts_step (hactv : m.lifecycle.Active session) {spec : SegmentSpec}
    (hownr : spec.identity.owner = session.clientId) (haccepts : m.Accepts spec)
    (hsafe : Unthreatened gs session.clientId spec.identity.id) :
    m'.Accepts spec ∧ Unthreatened (update gs t g') session.clientId spec.identity.id := by
  obtain ⟨j, hj, hspec, hst⟩ := haccepts
  constructor
  · have hturn := hmove.mountTurn (hcoh.relies t) spec.identity.id
    rw [hj] at hturn
    rw [ClientManager.Accepts]
    generalize m'.pool.mount spec.identity.id = o at hturn ⊢
    cases hturn with
    | same => exact ⟨j, rfl, hspec, hst⟩
    | reactivate => exact ⟨_, rfl, hspec, rfl⟩
    | invalidate _ _ hrole => exact absurd hrole (h.roles t).2
    | @detach _ k _ hheld hownr' hcau =>
      exfalso
      have hcl : k.client = session.clientId := by rw [← hownr', Mount.owner, hspec, hownr]
      have hsnd := hcoh.sound t k hheld
      obtain ⟨_, he, -, hph⟩ := hactv
      rw [← hcl] at he
      rcases hcau with ⟨hrole, -⟩ | ⟨-, habsent | hlapsed | ⟨hentd, hfrs⟩⟩
      · exact (h.roles t).1 hrole
      · cases (hsnd.absent habsent).symm.trans he
      · obtain ⟨-, _, he', hph'⟩ := hsnd.lapsed hlapsed
        cases he.symm.trans he'
        exact hph' hph
      · exact hsafe t k hheld hcl hentd hfrs
  · intro t' k' hk' hcl hph hfrs
    by_cases ht : t' = t
    · rw [ht, update_self] at hk'
      rcases hmove.fresh_cases (hcoh.relies t) hk' hph hfrs with hnone | ⟨k, hk, hcl', hph', hfrs'⟩
      · cases hnone.symm.trans hj
      · exact hsafe t k hk (hcl'.trans hcl) hph' hfrs'
    · rw [update_of_ne ht] at hk'
      exact hsafe t' k' hk' hcl hph hfrs

omit hcoh in
theorem roles_step (t' : ℕ) :
    (update gs t g' t').role ≠ .unmounting ∧ (update gs t g' t').role ≠ .cleaning := by
  by_cases ht : t' = t
  · rw [ht, update_self, hmove.role_eq]
    exact h.roles t
  · rw [update_of_ne ht]
    exact h.roles t'

theorem recorded_step (hactv : m'.lifecycle.Active session) :
    ∃ request, (session, request) ∈ m'.established := by
  obtain ⟨e', he', hsess, hph⟩ := hactv
  rcases hmove.established_cases (hcoh.relies t) with ⟨hsame, hback⟩ | ⟨_, _, request, _, hest⟩
  · obtain ⟨e, he, hsess', hph'⟩ := hback _ e' he'
    rw [hsame]
    exact h.recorded session ⟨e, he, hsess'.symm.trans hsess, hph' hph⟩
  · rw [hest.established]
    obtain ⟨e, hsess', -, hents⟩ := hest.entry
    rw [hents] at he'
    split at he'
    · cases he'
      cases hsess.symm.trans hsess'
      exact ⟨request, by simp⟩
    · obtain ⟨request', hmem⟩ := h.recorded session ⟨e', he', hsess, hph⟩
      exact ⟨request', mem_append_left _ hmem⟩

theorem request_step (hheld' : (update gs t g' t').held = some k')
    (hph' : k'.phase = .established session ready)
    (hrole' : (update gs t g' t').role = .mounting k'.client request early)
    (hx : x ∈ m'.established) (hsess : x.1 = session) : x.2 = request := by
  subst hsess
  by_cases ht : t' = t
  · rw [ht, update_self] at hheld' hrole'
    rw [hmove.role_eq] at hrole'
    rcases hmove.established_back hheld' hph' with
      ⟨k, before, hheld, hcl, hph, -⟩ | ⟨request', early', hrole, -, hgen, hestablished⟩
    · rcases hmove.established_cases (hcoh.relies t) with ⟨hsame, -⟩ | ⟨_, _, _, _, hest⟩
      · exact h.request t k x.1 before request early hheld hph (hcl ▸ hrole') x (hsame ▸ hx) rfl
      · cases hheld.symm.trans hest.held
        cases hph.symm.trans hest.phase
    · cases hrole.symm.trans hrole'
      rw [hestablished] at hx
      rcases mem_append.mp hx with hx | hx
      · exact absurd (hcoh.generation_lt hx) (hgen ▸ lt_irrefl _)
      · rw [mem_singleton.mp hx]
  rw [update_of_ne ht] at hheld' hrole'
  have hreq : x ∈ m.established → x.2 = request :=
    fun hx => h.request t' k' x.1 ready request early hheld' hph' hrole' x hx rfl
  rcases hmove.established_cases (hcoh.relies t) with ⟨hsame, -⟩ | ⟨k, session, _, _, hest⟩
  · exact hreq (hsame ▸ hx)
  rw [hest.established] at hx
  rcases mem_append.mp hx with hx | hx
  · exact hreq hx
  · -- both threads would hold the slot of the client
    cases mem_singleton.mp hx
    obtain ⟨-, e, he, hsess⟩ := (hcoh.sound t' k' hheld').established _ _ hph'
    obtain ⟨_, hhist, -⟩ := hcoh.registry
    have hcl : session.clientId = k'.client := by
      rw [← hhist.invariant.owned _ e he, hsess]
    exact absurd (hcoh.table.holder hheld' hest.held (hcl.symm.trans hest.client)) ht

theorem settled_step {x : ClientSession × List SegmentSpec} (hx : x ∈ m'.established)
    (hactv' : m'.lifecycle.Active x.1) :
    (∃ t' k, (update gs t g' t').held = some k ∧ k.client = x.1.clientId ∧ k.phase = .established x.1 false) ∨
      ∀ spec ∈ x.2, spec.identity.owner = x.1.clientId →
        m'.Accepts spec ∧ Unthreatened (update gs t g') x.1.clientId spec.identity.id := by
  -- a session that was established and active before
  have hold : x ∈ m.established → m.lifecycle.Active x.1 →
      (∃ t' k, (update gs t g' t').held = some k ∧ k.client = x.1.clientId ∧ k.phase = .established x.1 false) ∨
        ∀ spec ∈ x.2, spec.identity.owner = x.1.clientId →
          m'.Accepts spec ∧ Unthreatened (update gs t g') x.1.clientId spec.identity.id := by
    intro hx hactv
    rcases h.settled x hx hactv with ⟨t', k, hheld, hcl, hph⟩ | hstld
    · by_cases ht : t' = t
      · subst ht
        obtain ⟨⟨⟩, -⟩ | ⟨k', hheld', hcl', herly | ⟨hrdy, request, early, hrole, hcov⟩⟩ :=
          hmove.established_next (hcoh.relies t') hheld hcl hph hactv'
        · exact .inl ⟨t', k', by rwa [update_self], hcl'.trans hcl, herly⟩
        · refine .inr fun spec hspec hownr => ?_
          have hreq := h.request t' k x.1 false request early hheld hph hrole x hx rfl
          have hownr' : spec.identity.owner = k'.client := by rw [hownr, hcl', hcl]
          have hsnd := hcoh.step_sound_self hmove hheld'
          refine ⟨hsnd.accepts hcov (hreq ▸ hspec) hownr', ?_⟩
          rw [← hcl, ← hcl']
          exact hcoh.unthreatened hmove hheld' hrdy _
      · exact .inl ⟨t', k, by rwa [update_of_ne ht], hcl, hph⟩
    · refine .inr fun spec hspec hownr => ?_
      obtain ⟨haccepts, hsafe⟩ := hstld spec hspec hownr
      exact accepts_step hcoh h hmove hactv hownr haccepts hsafe
  obtain ⟨e', he', hsess, hph⟩ := hactv'
  rcases hmove.established_cases (hcoh.relies t) with ⟨hsame, hback⟩ | ⟨k, session, request, early, hest⟩
  · obtain ⟨e, he, hsess', hph'⟩ := hback _ e' he'
    exact hold (hsame ▸ hx) ⟨e, he, hsess'.symm.trans hsess, hph' hph⟩
  obtain ⟨e, hsess', -, hents⟩ := hest.entry
  rw [hest.established] at hx
  rw [hents] at he'
  rcases mem_append.mp hx with hx | hx
  · split at he'
    · -- the new session is not an old one
      cases he'
      have hlt := hcoh.generation_lt hx
      rw [← hsess, hsess', hest.generation] at hlt
      exact absurd hlt (lt_irrefl _)
    · exact hold hx ⟨e', he', hsess, hph⟩
  cases mem_singleton.mp hx
  cases early with
  | true =>
    refine .inl ⟨t, { k with phase := .established session false }, ?_, hest.client.symm, rfl⟩
    rw [update_self, hest.held']
    rfl
  | false =>
    refine .inr fun spec hspec hownr => ?_
    have hsnd := hcoh.step_sound_self hmove hest.held'
    refine ⟨hsnd.accepts (hest.covers rfl) hspec (hownr.trans hest.client), ?_⟩
    rw [hest.client]
    exact hcoh.unthreatened hmove hest.held' rfl _

end Step

end Published

theorem ManagerCall.MountsOrAdmits.role {call : ManagerCall} (h : call.MountsOrAdmits) :
    call.role ≠ .unmounting ∧ call.role ≠ .cleaning := by
  cases call with
  | mountSegment | remount | writeAdmission => exact ⟨nofun, nofun⟩
  | _ => exact h.elim

theorem ManagerCall.mountSegment_of_role {call : ManagerCall}
    (h : call.role = .mounting client request true) :
    ∃ spec now, call = .mountSegment client spec now := by
  cases call <;> cases h
  exact ⟨_, _, rfl⟩

theorem preserved_published :
    Preserved (A := A) cfg ManagerCall.MountsOrAdmits (fun _ _ => True) Published where
  init pool leases _ := by
    refine ⟨fun _ => ⟨nofun, nofun⟩, ?_, ?_, ?_⟩
    · rintro session ⟨_, he, -⟩
      cases he
    · intro t k session ready request early hheld
      cases hheld
    · intro x hx
      cases hx
  restart := by
    intro m gs t role hcoh h hdone hrole
    have hheld : ∀ {t' k}, (update gs t (.start role) t').held = some k → t' ≠ t ∧ (gs t').held = some k := by
      intro t' k hk
      by_cases ht : t' = t
      · rw [ht, update_self] at hk
        cases hk
      · exact ⟨ht, by rwa [update_of_ne ht] at hk⟩
    refine ⟨fun t' => ?_, h.recorded, ?_, fun x hx hactv => ?_⟩
    · by_cases ht : t' = t
      · rw [ht, update_self]
        rcases hrole with rfl | ⟨_, hald, rfl⟩
        · exact ⟨nofun, nofun⟩
        · exact hald.role
      · rw [update_of_ne ht]
        exact h.roles t'
    · intro t' k session ready request early hk hph hrole'
      obtain ⟨ht, hk⟩ := hheld hk
      rw [update_of_ne ht] at hrole'
      exact h.request t' k session ready request early hk hph hrole'
    · rcases h.settled x hx hactv with ⟨t', k, hk, hrest⟩ | hstld
      · refine .inl ⟨t', k, ?_, hrest⟩
        rw [update_of_ne, hk]
        rintro rfl
        cases hdone.held.symm.trans hk
      · refine .inr fun spec hspec hownr => ⟨(hstld spec hspec hownr).1, fun t' k hk => ?_⟩
        exact (hstld spec hspec hownr).2 t' k (hheld hk).2
  step hcoh h hmove _ :=
    ⟨h.roles_step hmove, fun _ => h.recorded_step hcoh hmove,
      fun _ _ _ _ _ _ hheld hph hrole _ hx => h.request_step hcoh hmove hheld hph hrole hx,
      fun _ hx => h.settled_step hcoh hmove hx⟩

theorem RegistryState.activeSession_ok {r : RegistryState}
    (h : r.activeSession client = .ok session) :
    ∃ e, r.entries.lookup client = some e ∧ e.session = session ∧ e.phase = .active := by
  unfold activeSession at h
  split at h
  · cases h
  · split at h
    · cases h
    next e he =>
    split at h
    next hactv => exact ⟨e, he, Except.ok.inj h, by simpa [ClientEntry.isActive] using hactv⟩
    · cases h

/-- At every moment at which a write is admitted, the segments of the client that were to be
mounted with its session are mounted and accept, if no `mount_segment` call is between the
activation of the session and its next change of the pool. -/
theorem session_published {c : ManagerConfig A ManagerCall.MountsOrAdmits}
    (h : (managerSystem A cfg ManagerCall.MountsOrAdmits).Reachable c) {client : ClientId}
    {session : ClientSession}
    (hadmitted : c.shared.lifecycle.registry.activeSession client = .ok session)
    (hlate : ∀ t r spec now, c.threads t = some r → r.call.1 = .mountSegment client spec now →
      ¬Since (Establishes session) ChangesPool r.trace) :
    (∃ request, (session, request) ∈ c.shared.established) ∧
        ∀ request, (session, request) ∈ c.shared.established →
        ∀ spec ∈ request, spec.identity.owner = client → c.shared.Accepts spec := by
  obtain ⟨_, hexplains⟩ := preserved_published.reachable h
  obtain ⟨e, he, hsession, hphase⟩ := RegistryState.activeSession_ok hadmitted
  obtain ⟨_, hhistory, -⟩ := hexplains.coherent.registry
  have hclient : session.clientId = client := by rw [← hhistory.invariant.owned _ e he, hsession]
  subst hclient
  have hactive : c.shared.lifecycle.Active session := ⟨e, he, hsession, hphase⟩
  refine ⟨hexplains.inv.recorded session hactive, fun request hrequest spec hspec howner => ?_⟩
  rcases hexplains.inv.settled _ hrequest hactive with ⟨t, k, hheld, hk, hearly⟩ | hsettled
  · -- the session was established early: by a `mount_segment` call, which is still running
    exfalso
    cases hthread : c.threads t with
    | none =>
      rw [hexplains.idle t hthread] at hheld
      cases hheld
    | some r =>
      have htracked := hexplains.running t r hthread
      obtain ⟨_, early, hrole, hready⟩ := htracked.established k session false hheld hearly
      rw [htracked.role, hready rfl, hk] at hrole
      obtain ⟨spec', now, hcall⟩ := ManagerCall.mountSegment_of_role hrole
      exact hlate t r spec' now hthread hcall (htracked.early k session hheld hearly)
  · exact (hsettled spec hspec howner).1

namespace Sample

abbrev admitting : System (ClientManager bumpAllocator) ℕ
    { call : ManagerCall // call.MountsOrAdmits } ManagerResult :=
  managerSystem bumpAllocator ⟨10, 4, 4⟩ ManagerCall.MountsOrAdmits

/-- Thread 0 mounts a segment and is stopped after the activation of its session. Thread 1
asks for the admission of a write. -/
def mounting : List (Turn ℕ { call : ManagerCall // call.MountsOrAdmits }) :=
  .invoke 0 ⟨.mountSegment client spec 0, trivial⟩ :: replicate 5 (.step 0) ++
    .invoke 1 ⟨.writeAdmission client, trivial⟩ :: replicate 2 (.step 1)

def remounting : List (Turn ℕ { call : ManagerCall // call.MountsOrAdmits }) :=
  .invoke 0 ⟨.remount client [spec] 0, trivial⟩ :: replicate 7 (.step 0) ++
    .invoke 1 ⟨.writeAdmission client, trivial⟩ :: replicate 2 (.step 1)

end Sample

set_option maxRecDepth 20000 in
theorem session_published_remounting : (∃ request, (⟨Sample.client, 1, Nat.one_pos⟩, request) ∈
      (Sample.admitting.play Sample.start Sample.remounting).shared.established) ∧
      ∀ request, (⟨Sample.client, 1, Nat.one_pos⟩, request) ∈
        (Sample.admitting.play Sample.start Sample.remounting).shared.established →
        ∀ spec ∈ request, spec.identity.owner = Sample.client →
          (Sample.admitting.play Sample.start Sample.remounting).shared.Accepts spec := by
  refine session_published (System.reachable_play Sample.reachable_start Sample.remounting)
    (by decide +kernel) ?_
  intro t r spec now hr hcall
  have hcalls : ∀ t, ((Sample.admitting.play Sample.start Sample.remounting).threads t).map (·.call.1) = none ∨
      ((Sample.admitting.play Sample.start Sample.remounting).threads t).map (·.call.1) =
        some (.remount Sample.client [Sample.spec] 0) := by
    intro t
    match t with
    | 0 => decide +kernel
    | 1 => decide +kernel
    | t + 2 =>
      rw [System.threads_play]
      · exact .inl rfl
      have hturns : ∀ a ∈ Sample.remounting, a.thread < 2 := by decide +kernel
      intro a ha
      have hlt := hturns a ha
      omega
  rcases hcalls t with hnone | hremount
  · rw [hr] at hnone
    cases hnone
  · rw [hr, Option.map_some, hcall] at hremount
    cases hremount

set_option maxRecDepth 20000 in
/-- A write is admitted for a session whose segment does not accept. -/
theorem session_early : ∃ c, Sample.admitting.Reachable c ∧ ∃ session,
    c.shared.lifecycle.registry.activeSession Sample.client = .ok session ∧
      (∃ d ∈ c.completed, d.call.1 = .writeAdmission Sample.client ∧ d.result = .session (.ok session)) ∧
        (session, [Sample.spec]) ∈ c.shared.established ∧ ¬c.shared.Accepts Sample.spec := by
  refine ⟨_, System.reachable_play Sample.reachable_start Sample.mounting, ⟨Sample.client, 1, Nat.one_pos⟩,
    by decide +kernel, ⟨_, mem_singleton.mpr rfl, rfl, rfl⟩, by decide +kernel, ?_⟩
  rintro ⟨_, hk, -, haccepting⟩
  have hstate : (((Sample.admitting.play Sample.start Sample.mounting).shared.pool.mount
      Sample.spec.identity.id).map (·.state)) = some .quiesced := by decide +kernel
  rw [hk, Option.map_some, haccepting] at hstate
  cases hstate

end Cakemaster.Client
