import Cakemaster.Client.CallsAlone
import Cakemaster.Client.GracefulClaims

/-!
# The invariant of graceful unmounts

Over the books of the manager, the jobs that have been claimed and are not completed, and the
log of accepted requests: what is pending is a quiesced segment that the client's slot records,
under the incarnation of an accepted request; every quiesced segment is pending; and a claimed
job whose incarnation is still there is the one that is pending. Most turns only let pending
unmounts go together with their segments.
-/

namespace Cakemaster.Client

open Machine Machine.Prog Segment ClientManager GracefulUnmountQueue Function List Option
open Object (ClientSession)

variable {key : GracefulUnmountKey} {x : ClientTick × GracefulUnmountJob} {k : Mount}
  {next : EntryRef}

/-- Jobs that have been claimed, with the time of the claim. -/
abbrev ClaimedJobs := List (ClientTick × GracefulUnmountJob)

namespace Ledger

variable {b b' : Ledger} {claimed : ClaimedJobs} {requests : List ScheduledUnmount}

/-- A pending unmount. -/
structure Awaits (b : Ledger) (claimed : ClaimedJobs) (requests : List ScheduledUnmount)
    (key : GracefulUnmountKey) (p : PendingGracefulUnmount) : Prop where
  records : ∃ k, b.Records key k ∧ k.state = .quiesced ∧ p.incarnation = b.incarnation k
  requested : ⟨key, p.incarnation, p.deadline⟩ ∈ requests
  claimed : p.claimed = true → ∃ x ∈ claimed, x.2 = ⟨key, p.incarnation, p.revision⟩
  listed : p.claimed = false → b.queue.Listed key p

/-- A claimed job. -/
structure Outstanding (b : Ledger) (requests : List ScheduledUnmount)
    (x : ClientTick × GracefulUnmountJob) : Prop where
  requested : ∃ request ∈ requests, request.key = x.2.key ∧ request.incarnation = x.2.incarnation ∧
    request.deadline ≤ x.1
  old : x.2.incarnation.entry < b.next
  current : ∀ k, b.Records x.2.key k → x.2.incarnation = b.incarnation k →
    ∃ p, b.queue.pending.lookup x.2.key = some p ∧ p.revision = x.2.revision ∧ p.claimed = true
  revision : ∀ p, b.queue.pending.lookup x.2.key = some p → p.revision = x.2.revision →
    p.incarnation = x.2.incarnation

structure Tidy (b : Ledger) (claimed : ClaimedJobs) (requests : List ScheduledUnmount) : Prop where
  pending : ∀ key p, b.queue.pending.lookup key = some p → b.Awaits claimed requests key p
  quiesced : ∀ key k, b.Records key k → k.state = .quiesced →
    ∃ p, b.queue.pending.lookup key = some p ∧ p.incarnation = b.incarnation k
  outstanding : ∀ x ∈ claimed, b.Outstanding requests x
  sorted : b.queue.Sorted

/-- Pending unmounts and recorded segments may go, but only together. What is recorded anew is a
new incarnation that accepts. -/
structure Sheds (b b' : Ledger) : Prop where
  poolId : b'.poolId = b.poolId
  next : b.next ≤ b'.next
  pending : ∀ key p, b'.queue.pending.lookup key = some p → b.queue.pending.lookup key = some p
  listed : ∀ key p, b'.queue.pending.lookup key = some p → b.queue.Listed key p →
    b'.queue.Listed key p
  sorted : b.queue.Sorted → b'.queue.Sorted
  keeps : ∀ key p k, b'.queue.pending.lookup key = some p → b.Records key k → b'.Records key k
  records : ∀ key k, b'.Records key k → b.next ≤ k.entry ∧ k.state = .accepting ∨
    b.Records key k ∧ b'.queue.pending.lookup key = b.queue.pending.lookup key

theorem Sheds.incarnation (h : b.Sheds b') (k : Mount) : b'.incarnation k = b.incarnation k := by
  rw [Ledger.incarnation, Ledger.incarnation, h.poolId]

theorem Tidy.sheds (h : b.Tidy claimed requests) (hsheds : b.Sheds b') :
    b'.Tidy claimed requests where
  pending key p hp := by
    have hawaits := h.pending key p (hsheds.pending key p hp)
    obtain ⟨k, hrec, hst, hinc⟩ := hawaits.records
    refine ⟨⟨k, hsheds.keeps key p k hp hrec, hst, ?_⟩, hawaits.requested, hawaits.claimed, ?_⟩
    · rw [hsheds.incarnation, hinc]
    · exact fun hunclaimed => hsheds.listed key p hp (hawaits.listed hunclaimed)
  quiesced key k hrec hst := by
    rcases hsheds.records key k hrec with ⟨-, hacc⟩ | ⟨hbef, hlook⟩
    · cases hst.symm.trans hacc
    · rw [hlook, hsheds.incarnation]
      exact h.quiesced key k hbef hst
  outstanding x hx := by
    obtain ⟨hrqd, hold, hcurr, hrev⟩ := h.outstanding x hx
    refine ⟨hrqd, hold.trans_le hsheds.next, fun k hrec hinc => ?_, fun p hp => ?_⟩
    · rw [hsheds.incarnation] at hinc
      rcases hsheds.records _ k hrec with ⟨hnew, -⟩ | ⟨hbef, hlook⟩
      · rw [hinc] at hold
        exact absurd hnew (Nat.not_le_of_lt hold)
      · rw [hlook]
        exact hcurr k hbef hinc
    · exact hrev p (hsheds.pending _ p hp)
  sorted := hsheds.sorted h.sorted

/-! ### Turns that shed -/

/-- Slots that say the same of a segment, and the same mount of it. -/
theorem records_congr (hsess : (b'.slot key.session.clientId).session = (b.slot key.session.clientId).session)
    (hsgm : key.segment ∈ (b'.slot key.session.clientId).segments ↔
    key.segment ∈ (b.slot key.session.clientId).segments)
    (hmt : b'.mount key.segment = b.mount key.segment) : b'.Records key k ↔ b.Records key k := by
  constructor
  · rintro ⟨hs, hseg, hm, hownr⟩
    exact ⟨hsess.symm.trans hs, hsgm.mp hseg, hmt.symm.trans hm, hownr⟩
  · rintro ⟨hs, hseg, hm, hownr⟩
    exact ⟨hsess.trans hs, hsgm.mpr hseg, hmt.trans hm, hownr⟩

theorem records_congr_slot (hslot : b'.slot key.session.clientId = b.slot key.session.clientId)
    (hmt : b'.mount key.segment = b.mount key.segment) : b'.Records key k ↔ b.Records key k :=
  records_congr (by rw [hslot]) (by rw [hslot]) hmt

/-- A segment is recorded under one key only. -/
theorem Records.key_eq (h : b.Records key k) (h' : b.Records key' k')
    (hid : key'.segment = key.segment) : key' = key := by
  obtain ⟨session, segment⟩ := key
  obtain ⟨session', _⟩ := key'
  cases hid
  cases h.mount.symm.trans h'.mount
  have hcl : session'.clientId = session.clientId := h'.owner.symm.trans h.owner
  have hsess := h'.session
  rw [hcl, h.session] at hsess
  cases hsess
  rfl

namespace Sheds

theorem queue {queue : GracefulUnmountQueue}
    (hlook : ∀ key, queue.pending.lookup key = b.queue.pending.lookup key)
    (hlst : ∀ key p, b.queue.pending.lookup key = some p → b.queue.Listed key p → queue.Listed key p)
    (hsrt : b.queue.Sorted → queue.Sorted) : b.Sheds { b with queue } where
  poolId := rfl
  next := le_rfl
  pending key _ hp := (hlook key).symm.trans hp
  listed key p hp := hlst key p ((hlook key).symm.trans hp)
  sorted := hsrt
  keeps _ _ _ _ hrec := ⟨hrec.session, hrec.segment, hrec.mount, hrec.owner⟩
  records key _ hrec := .inr ⟨⟨hrec.session, hrec.segment, hrec.mount, hrec.owner⟩, hlook key⟩

variable {entry : ClientId → Option ClientEntry}

theorem age (hnext : b.next ≤ next) : b.Sheds { b with entry, next } where
  poolId := rfl
  next := hnext
  pending _ _ hp := hp
  listed _ _ _ hlst := hlst
  sorted hsrt := hsrt
  keeps _ _ _ _ hrec := ⟨hrec.session, hrec.segment, hrec.mount, hrec.owner⟩
  records _ _ hrec := .inr ⟨⟨hrec.session, hrec.segment, hrec.mount, hrec.owner⟩, rfl⟩

theorem add {spec : SegmentSpec}
    (hnext : b.next ≤ next) (hsess : (b.slot spec.identity.owner).session = some session)
    (hmt : b.mount spec.identity.id = none) : b.Sheds { b with
      entry
      next
      slot := update b.slot spec.identity.owner
        ⟨some session, insert spec.identity.id (b.slot spec.identity.owner).segments⟩
      mount := update b.mount spec.identity.id (some ⟨b.next, spec, .accepting⟩) } := by
  have hoth : ∀ (key : GracefulUnmountKey) k, key.segment ≠ spec.identity.id → (Records { b with
      entry
      next
      slot := update b.slot spec.identity.owner
        ⟨some session, insert spec.identity.id (b.slot spec.identity.owner).segments⟩
      mount := update b.mount spec.identity.id (some ⟨b.next, spec, .accepting⟩) } key k ↔
          b.Records key k) := by
    intro key k hid
    refine records_congr ?_ ?_ (update_of_ne hid _ _)
    · by_cases hc : key.session.clientId = spec.identity.owner
      · simp [hc, hsess]
      · simp [hc]
    · by_cases hc : key.session.clientId = spec.identity.owner
      · simp [hc, hid]
      · simp [hc]
  refine ⟨rfl, hnext, fun _ _ hp => hp, fun _ _ _ hlst => hlst, id, ?_, ?_⟩
  · intro key p k _ hrec
    refine (hoth key k fun hid => ?_).mpr hrec
    rw [← hid, hrec.mount] at hmt
    cases hmt
  · intro key k hrec
    by_cases hid : key.segment = spec.identity.id
    · have hmt' := hrec.mount
      dsimp only at hmt'
      rw [hid, update_self] at hmt'
      cases hmt'
      exact .inl ⟨le_rfl, rfl⟩
    · exact .inr ⟨(hoth key k hid).mp hrec, rfl⟩

theorem establish (h : b.Agrees) {c : ClientId} {e : ClientEntry} {specs : List SegmentSpec}
    {mount : MountTable} (hent : b.entry c = none) (howrs : ∀ spec ∈ specs, spec.identity.owner = c)
    (hmt : Mounted b.next b.mount specs mount) (hnext : b.next ≤ next) : b.Sheds { b with
      entry := update b.entry c (some e)
      slot := update b.slot c ⟨some e.session, requestedIds specs⟩
      mount
      next } := by
  -- a client without an entry owned nothing, so all that was asked for is new
  have hnew : ∀ id ∈ requestedIds specs, ∃ k, mount id = some k ∧ k.state = .accepting ∧
      b.next ≤ k.entry ∧ b.mount id = none := by
    intro id hid
    obtain ⟨spec, hspec, rfl⟩ := mem_map.mp (mem_toFinset.mp hid)
    obtain ⟨k, hk, -, hst, hfrs⟩ := hmt.each spec hspec
    have hnone : b.mount spec.identity.id = none := by
      by_contra hsome
      obtain ⟨k', hk'⟩ := ne_none_iff_exists'.mp hsome
      exact h.absent c hent _ ⟨k', hk', by rw [Mount.owner, hmt.before spec hspec k' hk', howrs spec hspec]⟩
    exact ⟨k, hk, hst, hfrs hnone, hnone⟩
  refine ⟨rfl, hnext, fun _ _ hp => hp, fun _ _ _ hlst => hlst, id, ?_, ?_⟩
  · intro key p k _ hrec
    have hc : key.session.clientId ≠ c := by
      intro hc
      have hsess := h.session c
      rw [hent, ← hc, hrec.session] at hsess
      cases hsess
    have hid : key.segment ∉ requestedIds specs := by
      intro hid
      obtain ⟨-, -, -, -, hnone⟩ := hnew _ hid
      cases hnone.symm.trans hrec.mount
    exact (records_congr_slot (update_of_ne hc _ _) (hmt.other _ hid)).mpr hrec
  intro key k hrec
  by_cases hid : key.segment ∈ requestedIds specs
  · obtain ⟨k', hk', hst, hent', -⟩ := hnew _ hid
    cases hk'.symm.trans hrec.mount
    exact .inl ⟨hent', hst⟩
  · have hc : key.session.clientId ≠ c := by
      intro hc
      have hsgm := hrec.segment
      dsimp only at hsgm
      rw [hc, update_self] at hsgm
      exact hid hsgm
    exact .inr ⟨(records_congr_slot (update_of_ne hc _ _) (hmt.other _ hid)).mp hrec, rfl⟩

theorem without {queue : GracefulUnmountQueue} (hrec : b.Records key k)
    (hlook : ∀ key', queue.pending.lookup key' = if key' = key then none else b.queue.pending.lookup key')
    (hdls : queue.deadlines = b.queue.deadlines) : b.Sheds { b.without key with queue } := by
  have hpend : ∀ key' p, queue.pending.lookup key' = some p → key' ≠ key ∧
      b.queue.pending.lookup key' = some p := by
    intro key' p hp
    rw [hlook] at hp
    split at hp
    · cases hp
    next hne => exact ⟨hne, hp⟩
  have hoth : ∀ (key' : GracefulUnmountKey) k', key'.segment ≠ key.segment →
      (Records { b.without key with queue } key' k' ↔ b.Records key' k') := by
    intro key' k' hid
    refine records_congr ?_ ?_ (update_of_ne hid _ _)
    · by_cases hc : key'.session.clientId = key.session.clientId
      · simp [Ledger.without, hc]
      · simp [Ledger.without, hc]
    · by_cases hc : key'.session.clientId = key.session.clientId
      · simp [Ledger.without, hc, hid]
      · simp [Ledger.without, hc]
  refine ⟨rfl, le_rfl, fun key' p hp => (hpend key' p hp).2, fun key' p _ hlst => ?_, fun hsrt => ?_, ?_, ?_⟩
  · rw [GracefulUnmountQueue.Listed] at hlst ⊢
    rwa [← hdls] at hlst
  · rw [GracefulUnmountQueue.Sorted] at hsrt ⊢
    rwa [← hdls] at hsrt
  · intro key' p k' hp hrec'
    exact (hoth key' k' fun hid => (hpend key' p hp).1 (hrec.key_eq hrec' hid)).mpr hrec'
  · intro key' k' hrec'
    have hid : key'.segment ≠ key.segment := by
      intro hid
      have hmt : update b.mount key.segment none key'.segment = some k' := hrec'.mount
      rw [hid, update_self] at hmt
      cases hmt
    have hkey : key' ≠ key := fun hkey => hid (congrArg _ hkey)
    exact .inr ⟨(hoth key' k' hid).mp hrec', (hlook key').trans (if_neg hkey)⟩

theorem clean (h : b.Agrees) {sessions : List ClientSession}
    (hsss : ∀ session ∈ sessions, ∃ e, b.entry session.clientId = some e ∧ e.session = session) :
    b.Sheds { b with
      entry := fun c => if c ∈ sessions.map (·.clientId) then none else b.entry c
      slot := fun c => if c ∈ sessions.map (·.clientId) then .default else b.slot c
      mount := fun id => (b.mount id).filter fun k => k.owner ∉ sessions.map (·.clientId)
      queue := sessions.foldl (fun queue session => queue.cancelSession session) b.queue } := by
  refine ⟨rfl, le_rfl, ?_, ?_, ?_, ?_, ?_⟩
  · intro key p hp
    rw [lookup_cancelSessions] at hp
    split at hp
    · cases hp
    · exact hp
  · intro key p _ hlst
    rw [GracefulUnmountQueue.Listed] at hlst ⊢
    rwa [deadlines_cancelSessions]
  · intro hsrt
    rw [GracefulUnmountQueue.Sorted] at hsrt ⊢
    rwa [deadlines_cancelSessions]
  · intro key p k hp hrec
    have hkept : key.session.clientId ∉ sessions.map (·.clientId) := by
      intro hmem
      obtain ⟨session, hsess, hcl⟩ := mem_map.mp hmem
      obtain ⟨e, hent, rfl⟩ := hsss session hsess
      have hslot := h.session key.session.clientId
      rw [← hcl, hent, hcl, hrec.session] at hslot
      have hcancelled : key.session ∈ sessions := some.inj hslot ▸ hsess
      rw [lookup_cancelSessions, if_pos hcancelled] at hp
      cases hp
    refine (records_congr_slot (if_neg hkept) ?_).mpr hrec
    show (b.mount key.segment).filter _ = b.mount key.segment
    rw [hrec.mount, filter_some, if_pos]
    rw [hrec.owner]
    exact decide_eq_true hkept
  · intro key k hrec
    have hkept : key.session.clientId ∉ sessions.map (·.clientId) := by
      intro hmem
      cases (congrArg ClientMountState.session (if_pos hmem)).symm.trans hrec.session
    have hmt : (b.mount key.segment).filter (fun k => k.owner ∉ sessions.map (·.clientId)) =
      some k := hrec.mount
    refine .inr ⟨(records_congr_slot (if_neg hkept) ?_).mp hrec, ?_⟩
    · exact hmt.trans (filter_eq_some_iff.mp hmt).1.symm
    · rw [lookup_cancelSessions, if_neg fun hmem => hkept (mem_map_of_mem hmem)]

end Sheds

theorem Turn.sheds {clients : List ClientId} (h : b.Turn (.serve clients) b') (hagr : b.Agrees) :
    b.Sheds b' := by
  cases h with
  | age _ _ _ _ hnext => exact .age hnext
  | add _ _ _ hnext hsess hmt => exact .add hnext hsess hmt
  | establish _ hent howrs hmt hnext => exact .establish hagr hent howrs hmt hnext
  | unmount hrec => exact .without hrec lookup_cancel rfl
  | prune =>
    exact .queue (fun _ => rfl) (fun _ _ hp hlst => hlst.pruneStaleDeadlines hp) (·.pruneStaleDeadlines)
  | clean sessions hsss => exact .clean hagr hsss

/-! ### Turns of the queue -/

namespace Tidy

variable (h : b.Tidy claimed requests)
include h

theorem requests_mono (hsub : requests ⊆ requests') : b.Tidy claimed requests' where
  pending key p hp :=
    let hawaits := h.pending key p hp
    ⟨hawaits.records, hsub hawaits.requested, hawaits.claimed, hawaits.listed⟩
  quiesced := h.quiesced
  outstanding x hx := by
    obtain ⟨⟨request, hreq, hof⟩, hold, hcurr, hrev⟩ := h.outstanding x hx
    exact ⟨⟨request, hsub hreq, hof⟩, hold, hcurr, hrev⟩
  sorted := h.sorted

/-- A job is no longer outstanding that nothing pending is claimed by. -/
theorem forget (hfree : ∀ p, b.queue.pending.lookup x.2.key = some p →
    x.2 ≠ ⟨x.2.key, p.incarnation, p.revision⟩) :
    b.Tidy (claimed.erase x) requests where
  pending key p hp := by
    obtain ⟨hrec, hrqd, hclm, hlst⟩ := h.pending key p hp
    refine ⟨hrec, hrqd, fun htrue => ?_, hlst⟩
    obtain ⟨y, hy, hjob⟩ := hclm htrue
    have hne : y ≠ x := by
      rintro rfl
      have hkey : y.2.key = key := by rw [hjob]
      refine hfree p (hkey ▸ hp) ?_
      rw [hkey]
      exact hjob
    exact ⟨y, (mem_erase_of_ne hne).mpr hy, hjob⟩
  quiesced := h.quiesced
  outstanding y hy := h.outstanding y (mem_of_mem_erase hy)
  sorted := h.sorted

theorem awaited (hp : b.queue.pending.lookup key = some p) (hmt : b.mount key.segment = some k) :
    b.Records key k ∧ k.state = .quiesced ∧ p.incarnation = b.incarnation k := by
  obtain ⟨_, hrec, hst, hinc⟩ := (h.pending key p hp).records
  cases hmt.symm.trans hrec.mount
  exact ⟨hrec, hst, hinc⟩

theorem complete (hagr : b.Agrees) (hx : x ∈ claimed)
    (hturn : b.Turn (.complete x.2) b') : b'.Tidy (claimed.erase x) requests := by
  obtain ⟨-, -, hcurr, hrev⟩ := h.outstanding x hx
  cases hturn with
  | @remove k _ hrec hinc hst =>
    obtain ⟨p, hp, hsame, -⟩ := hcurr k hrec hinc
    have hlook : ∀ key, (b.queue.finish x.2).pending.lookup key =
        if key = x.2.key then none else b.queue.pending.lookup key := by
      intro key
      rw [lookup_finish]
      by_cases hkey : key = x.2.key
      · subst hkey
        simp [hp, hsame]
      · simp [hkey]
    have hsheds : b.Sheds { b.without x.2.key with queue := b.queue.finish x.2 } :=
      .without hrec hlook (deadlines_finish x.2)
    refine (h.sheds hsheds).forget fun p' hp' => ?_
    cases (hlook x.2.key).symm.trans hp' |>.symm.trans (if_pos rfl)
  | stale hstl =>
    have hlive : ∀ p, b.queue.pending.lookup x.2.key = some p → p.incarnation ≠ x.2.incarnation := by
      intro p hp hsame
      obtain ⟨k, hrec, -, hinc⟩ := (h.pending _ p hp).records
      exact hstl k hrec (hsame.symm.trans hinc)
    have hlook : ∀ key, (b.queue.finish x.2).pending.lookup key = b.queue.pending.lookup key := by
      intro key
      rw [lookup_finish]
      refine if_neg ?_
      rintro ⟨rfl, hany⟩
      cases hp : b.queue.pending.lookup x.2.key with
      | none =>
        rw [hp] at hany
        cases hany
      | some p =>
        rw [hp] at hany
        exact hlive p hp (hrev p hp (of_decide_eq_true hany))
    refine (h.sheds (.queue hlook ?_ ?_)).forget fun p hp heq => ?_
    · intro key p _ hlst
      rw [GracefulUnmountQueue.Listed, deadlines_finish]
      exact hlst
    · intro hsrt
      rw [GracefulUnmountQueue.Sorted, deadlines_finish]
      exact hsrt
    · rw [hlook] at hp
      exact hlive p hp (congrArg GracefulUnmountJob.incarnation heq).symm
  | @retry k _ _ hrec hinc hst =>
    obtain ⟨p, hp, -⟩ := hcurr k hrec hinc
    cases hst.symm.trans (h.awaited hp hrec.mount).2.1
  | @refuse k _ _ hsgm hmt hownr =>
    obtain ⟨_, hk', hownr'⟩ := (hagr.segments _ _).mp hsgm
    cases hmt.symm.trans hk'
    exact absurd hownr' hownr

theorem completes (hx : x ∈ claimed) (hp : b.queue.pending.lookup x.2.key = some p)
    (hsame : p.revision = x.2.revision) (hturn : b.Turn (.complete x.2) b') :
    b'.mount x.2.key.segment = none := by
  cases hturn with
  | remove => exact update_self ..
  | stale hstl =>
    obtain ⟨k, hrec, -, hinc⟩ := (h.pending _ p hp).records
    exact absurd ((h.outstanding x hx).revision p hp hsame ▸ hinc) (hstl k hrec)
  | retry _ hrec _ hst => cases hst.symm.trans (h.awaited hp hrec.mount).2.1
  | refuse _ _ hmt hownr => exact absurd (h.awaited hp hmt).1.owner hownr

theorem claim (hold : ∀ id k, b.mount id = some k → k.entry < b.next) (now : ClientTick)
    (budget : ℕ) : Tidy { b with queue := (b.queue.claimDue now budget).2.takeCancelled.2 }
      ((b.queue.claimDue now budget).1.map (now, ·) ++ claimed) requests := by
  have hclms := b.queue.claims_claimDue now budget
  have hsrt := h.sorted.claimDue now budget
  generalize (b.queue.claimDue now budget).1 = jobs at hclms ⊢
  generalize (b.queue.claimDue now budget).2 = queue at hclms hsrt ⊢
  -- what is pending was pending, perhaps unclaimed
  have hbef : ∀ key p', queue.pending.lookup key = some p' → ∃ p, b.queue.pending.lookup key = some p ∧
      p' = { p with claimed := p.claimed || decide (⟨key, p.incarnation, p.revision⟩ ∈ jobs) } := by
    intro key p' hp'
    rw [hclms.lookup, map_eq_some_iff] at hp'
    obtain ⟨p, hp, rfl⟩ := hp'
    exact ⟨p, hp, rfl⟩
  have haft : ∀ key p, b.queue.pending.lookup key = some p → queue.pending.lookup key =
      some { p with claimed := p.claimed || decide (⟨key, p.incarnation, p.revision⟩ ∈ jobs) } := by
    intro key p hp
    rw [hclms.lookup, hp, map_some]
  constructor
  · intro key p' hp'
    obtain ⟨p, hp, rfl⟩ := hbef key p' hp'
    obtain ⟨⟨k, hrec, hst, hinc⟩, hrqd, hclm, hlst⟩ := h.pending key p hp
    refine ⟨⟨k, ⟨hrec.session, hrec.segment, hrec.mount, hrec.owner⟩, hst, hinc⟩, hrqd, ?_, ?_⟩
    · intro htrue
      rcases (Bool.or_eq_true _ _).mp htrue with hold' | hnew
      · obtain ⟨x, hx, hjob⟩ := hclm hold'
        exact ⟨x, mem_append_right _ hx, hjob⟩
      · exact ⟨(now, _), mem_append_left _ (mem_map_of_mem (of_decide_eq_true hnew)), rfl⟩
    · intro hfalse
      refine hclms.listed key _ hp' hfalse ?_
      exact hlst (Bool.or_eq_false_iff.mp hfalse).1
  · intro key k hrec hst
    obtain ⟨p, hp, hinc⟩ := h.quiesced key k
      ⟨hrec.session, hrec.segment, hrec.mount, hrec.owner⟩ hst
    exact ⟨_, haft key p hp, hinc⟩
  · intro x hx
    rcases mem_append.mp hx with hnew | hclm
    · obtain ⟨job, hjob, rfl⟩ := mem_map.mp hnew
      obtain ⟨p, hp, hinc, hrev, _, hdue⟩ := hclms.due job hjob
      obtain ⟨⟨k, hrec, -, hk⟩, hrqd, -, -⟩ := h.pending _ p hp
      have hself : (⟨job.key, p.incarnation, p.revision⟩ : GracefulUnmountJob) ∈ jobs := by
        rw [hinc, hrev]
        exact hjob
      refine ⟨⟨_, hrqd, rfl, hinc, hdue⟩, ?_, fun k' _ _ => ⟨_, haft _ p hp, hrev, ?_⟩, ?_⟩
      · rw [show (now, job).2.incarnation = p.incarnation from hinc.symm, hk]
        exact hold _ k hrec.mount
      · simp [hself]
      · intro p' hp' _
        obtain ⟨_, hp'', rfl⟩ := hbef _ p' hp'
        cases hp.symm.trans hp''
        exact hinc
    · obtain ⟨hrqd, holder, hcurr, hrev⟩ := h.outstanding x hclm
      refine ⟨hrqd, holder, fun k hrec hinc => ?_, fun p' hp' hsame => ?_⟩
      · obtain ⟨p, hp, hsame, htrue⟩ := hcurr k
          ⟨hrec.session, hrec.segment, hrec.mount, hrec.owner⟩ hinc
        exact ⟨_, haft _ p hp, hsame, by simp [htrue]⟩
      · obtain ⟨p, hp, rfl⟩ := hbef _ p' hp'
        exact hrev p hp hsame
  · exact hsrt

theorem schedule (hturn : b.Turn (.schedule request) b')
    (hfrs : ∀ x ∈ claimed, x.2.key = request.key → x.2.revision ≠ b.queue.nextFree) :
    b'.Tidy claimed (request :: requests) := by
  cases hturn with
  | @schedule key k deadline hrec hst =>
  have hsub : requests ⊆ ⟨key, b.incarnation k, deadline⟩ :: requests := subset_cons_self _ _
  rcases b.queue.schedule_cases key (b.incarnation k) deadline with ⟨hque, hunclaimed⟩ | ⟨hque, p, hp, -⟩
  swap
  · -- the request is taken care of, so the segment is quiesced
    have hquiesced : { k with state := .quiesced } = k := by
      rw [← (h.awaited hp hrec.mount).2.1]
    rw [hque, hquiesced, update_eq_self_iff.mpr hrec.mount.symm]
    exact h.requests_mono hsub
  rw [hque]
  have hself : Records { b with
      mount := update b.mount key.segment (some { k with state := .quiesced })
      queue := b.queue.insert key (b.incarnation k) deadline } key { k with state := .quiesced } :=
    ⟨hrec.session, hrec.segment, update_self .., hrec.owner⟩
  have hoth : ∀ (key' : GracefulUnmountKey) k', key'.segment ≠ key.segment → (Records { b with
      mount := update b.mount key.segment (some { k with state := .quiesced })
      queue := b.queue.insert key (b.incarnation k) deadline } key' k' ↔ b.Records key' k') :=
    fun key' k' hid => records_congr_slot rfl (update_of_ne hid _ _)
  constructor
  · intro key' p' hp'
    rw [lookup_insert] at hp'
    split at hp'
    next hkey =>
      subst hkey
      cases hp'
      exact ⟨⟨_, hself, rfl, rfl⟩, mem_cons_self, nofun, fun _ => listed_insert _ _⟩
    next hkey =>
    obtain ⟨⟨k', hrec', hst', hinc'⟩, hrqd, hclm, hlst⟩ := h.pending key' p' hp'
    have hid : key'.segment ≠ key.segment := fun hid => hkey (hrec.key_eq hrec' hid)
    exact ⟨⟨k', (hoth key' k' hid).mpr hrec', hst', hinc'⟩, hsub hrqd, hclm,
      fun hfalse => (hlst hfalse).insert _ _⟩
  · intro key' k' hrec' hst'
    rw [lookup_insert]
    by_cases hid : key'.segment = key.segment
    · obtain rfl := hself.key_eq hrec' hid
      cases hself.mount.symm.trans hrec'.mount
      exact ⟨_, if_pos rfl, rfl⟩
    · rw [if_neg fun hkey => hid (congrArg _ hkey)]
      exact h.quiesced key' k' ((hoth key' k' hid).mp hrec') hst'
  · intro x hx
    obtain ⟨⟨request, hreq, hof⟩, hold, hcurr, hrev⟩ := h.outstanding x hx
    refine ⟨⟨request, hsub hreq, hof⟩, hold, fun k' hrec' hinc => ?_, fun p' hp' hsame => ?_⟩
    · rw [lookup_insert]
      by_cases hid : x.2.key.segment = key.segment
      · -- the pending unmount was not claimed
        have hkey := hself.key_eq hrec' hid
        rw [hkey] at hrec' hcurr
        cases hself.mount.symm.trans hrec'.mount
        obtain ⟨p, hp, -, htrue⟩ := hcurr k hrec hinc
        cases htrue.symm.trans (hunclaimed p hp (h.awaited hp hrec.mount).2.2)
      · rw [if_neg fun hkey => hid (congrArg _ hkey)]
        exact hcurr k' ((hoth _ k' hid).mp hrec') hinc
    · rw [lookup_insert] at hp'
      split at hp'
      next hkey =>
        cases hp'
        exact absurd hsame.symm (hfrs x hx hkey)
      · exact hrev p' hp' hsame
  · exact h.sorted.insert _ _

end Tidy

/-- A job that is completed removes nothing but the incarnation that it was claimed for. -/
theorem Turn.removes {job : GracefulUnmountJob} (h : b.Turn (.complete job) b') {id : SegmentId}
    (hbef : b.mount id = some k) (haft : b'.mount id = none) :
    id = job.key.segment ∧ b.Records job.key k ∧ job.incarnation = b.incarnation k := by
  cases h with
  | @remove k' _ hrec hinc =>
    by_cases hid : id = job.key.segment
    · subst hid
      cases hbef.symm.trans hrec.mount
      exact ⟨rfl, hrec, hinc⟩
    · cases (hbef.symm.trans (update_of_ne hid _ _).symm).trans haft
  | stale | refuse => cases hbef.symm.trans haft
  | @retry k' _ _ hrec =>
    by_cases hid : id = job.key.segment
    · subst hid
      cases (update_self job.key.segment _ b.mount).symm.trans haft
    · cases (hbef.symm.trans (update_of_ne hid _ _).symm).trans haft

end Ledger

end Cakemaster.Client
