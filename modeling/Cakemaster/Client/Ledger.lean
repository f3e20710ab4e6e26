import Cakemaster.Client.MountsAlone
import Mathlib.Logic.Relation

/-!
# The books of the manager

Between two calls the manager is described by its books: the entry of each client in the
registry, the mount state of its slot, the table of mounted segments and the queue of graceful
unmounts. A turn is what a call, or one job of the queue, makes of the books when it runs alone
and every segment that it is given belongs to the caller. The slots and the pool agree before
and after every turn.
-/

namespace Cakemaster.Client

open Segment Function
open Object (ClientSession)

theorem Aged.session (h : Aged o o') : o'.map (·.session) = o.map (·.session) := by
  cases o with
  | none => rw [h.1 rfl]
  | some e =>
    obtain ⟨_, rfl, hsess, -⟩ := h.2 e rfl
    rw [Option.map_some, Option.map_some, hsess]

theorem Aged.absent (h : Aged o o') (hnone : o' = none) : o = none := by
  cases o with
  | none => rfl
  | some e =>
    obtain ⟨_, rfl, -⟩ := h.2 e rfl
    cases hnone

@[ext]
structure Ledger where
  entry : ClientId → Option ClientEntry
  slot : ClientId → ClientMountState
  mount : MountTable
  poolId : ℕ
  -- entries from here on have not been mounted yet
  next : EntryRef
  queue : GracefulUnmountQueue

/-- A request for a graceful unmount that was accepted. -/
structure ScheduledUnmount where
  key : GracefulUnmountKey
  incarnation : SegmentIncarnation
  deadline : ClientTick
deriving DecidableEq

inductive LedgerEvent
  | serve (clients : List ClientId)
  | schedule (request : ScheduledUnmount)
  | claim (now : ClientTick) (jobs : List GracefulUnmountJob)
  | complete (job : GracefulUnmountJob)

namespace Ledger

def incarnation (b : Ledger) (k : Mount) : SegmentIncarnation := ⟨b.poolId, k.entry⟩

/-- The session is that of the client's entry, and its slot has the segment. -/
structure Records (b : Ledger) (key : GracefulUnmountKey) (k : Mount) : Prop where
  session : (b.slot key.session.clientId).session = some key.session
  segment : key.segment ∈ (b.slot key.session.clientId).segments
  mount : b.mount key.segment = some k
  owner : k.owner = key.session.clientId

def without (key : GracefulUnmountKey) (b : Ledger) : Ledger :=
  let state := b.slot key.session.clientId
  { b with
    slot := update b.slot key.session.clientId { state with segments := state.segments.erase key.segment }
    mount := update b.mount key.segment none }

inductive Turn (b : Ledger) : LedgerEvent → Ledger → Prop
  | age (clients : List ClientId) (entry : ClientId → Option ClientEntry) (next : EntryRef)
      (hent : ∀ c, Aged (b.entry c) (entry c)) (hnext : b.next ≤ next) :
      Turn b (.serve clients) { b with entry, next }
  | add (entry : ClientId → Option ClientEntry) (next : EntryRef)
      (hent : ∀ c, Aged (b.entry c) (entry c)) (hnext : b.next ≤ next)
      (hsess : (b.slot spec.identity.owner).session = some session)
      (hmt : b.mount spec.identity.id = none) :
      Turn b (.serve [spec.identity.owner]) { b with
        entry
        next
        slot := update b.slot spec.identity.owner
          ⟨some session, insert spec.identity.id (b.slot spec.identity.owner).segments⟩
        mount := update b.mount spec.identity.id (some ⟨b.next, spec, .accepting⟩) }
  | establish {c : ClientId} {e : ClientEntry} {specs : List SegmentSpec} {mount : MountTable}
      (next : EntryRef) (hent : b.entry c = none) (howrs : ∀ spec ∈ specs, spec.identity.owner = c)
      (hmt : Mounted b.next b.mount specs mount) (hnext : b.next ≤ next) :
      Turn b (.serve [c]) { b with
        entry := update b.entry c (some e)
        slot := update b.slot c ⟨some e.session, requestedIds specs⟩
        mount
        next }
  | unmount (hrec : b.Records key k) :
      Turn b (.serve [key.session.clientId]) { b.without key with queue := b.queue.cancel key }
  | schedule (deadline : ClientTick) (hrec : b.Records key k)
      (hst : k.state = .accepting ∨ k.state = .quiesced ∧ b.queue.contains key (b.incarnation k) = true) :
      Turn b (.schedule ⟨key, b.incarnation k, deadline⟩) { b with
        mount := update b.mount key.segment (some { k with state := .quiesced })
        queue := b.queue.schedule key (b.incarnation k) deadline }
  | prune : Turn b (.serve []) { b with queue := b.queue.nextDeadline.2 }
  | claim (now : ClientTick) (budget : ℕ) : Turn b (.claim now (b.queue.claimDue now budget).1)
      { b with queue := (b.queue.claimDue now budget).2.takeCancelled.2 }
  | remove (hrec : b.Records job.key k)
      (hinc : job.incarnation = b.incarnation k) (hst : k.state = .quiesced) :
      Turn b (.complete job) { b.without job.key with queue := b.queue.finish job }
  | stale (hstl : ∀ k, b.Records job.key k → job.incarnation ≠ b.incarnation k) :
      Turn b (.complete job) { b with queue := b.queue.finish job }
  | retry (deadline : ClientTick) (hrec : b.Records job.key k)
      (hinc : job.incarnation = b.incarnation k) (hst : k.state = .accepting) :
      Turn b (.complete job) { b with
        mount := update b.mount job.key.segment (some { k with state := .quiesced })
        queue := (b.queue.retry job deadline).2 }
  -- the slot has a segment of another client
  | refuse (deadline : ClientTick)
      (hsgm : job.key.segment ∈ (b.slot job.key.session.clientId).segments)
      (hmt : b.mount job.key.segment = some k) (hownr : k.owner ≠ job.key.session.clientId) :
      Turn b (.complete job) { b with queue := (b.queue.retry job deadline).2 }
  | clean (sessions : List ClientSession)
      (hsss : ∀ session ∈ sessions, ∃ e, b.entry session.clientId = some e ∧ e.session = session)
      (hclients : ∀ session ∈ sessions, session.clientId ∈ clients) :
      Turn b (.serve clients) { b with
        entry := fun c => if c ∈ sessions.map (·.clientId) then none else b.entry c
        slot := fun c => if c ∈ sessions.map (·.clientId) then .default else b.slot c
        mount := fun id => (b.mount id).filter fun k => k.owner ∉ sessions.map (·.clientId)
        queue := sessions.foldl (fun queue session => queue.cancelSession session) b.queue }

theorem Turn.same (clients : List ClientId) (b : Ledger) : b.Turn (.serve clients) b :=
  .age clients b.entry b.next (fun _ => .refl _) le_rfl

def Turns (ok : LedgerEvent → Prop) : Ledger → Ledger → Prop :=
  Relation.ReflTransGen fun b b' => ∃ event, ok event ∧ b.Turn event b'

/-! ### Agreement -/

/-- The segment is mounted and belongs to the client. -/
def Owns (b : Ledger) (c : ClientId) (id : SegmentId) : Prop :=
  ∃ k, b.mount id = some k ∧ k.owner = c

/-- The slot of a client has the session of its entry and its mounted segments, of which there
are none without an entry. -/
structure Agrees (b : Ledger) : Prop where
  session : ∀ c, (b.slot c).session = (b.entry c).map (·.session)
  segments : ∀ c id, id ∈ (b.slot c).segments ↔ b.Owns c id
  absent : ∀ c, b.entry c = none → ∀ id, ¬b.Owns c id

variable {b b' : Ledger} {event : LedgerEvent}

namespace Agrees

variable (h : b.Agrees)
include h

theorem age {entry : ClientId → Option ClientEntry} (hent : ∀ c, Aged (b.entry c) (entry c))
    (next : EntryRef) : Agrees { b with entry, next } where
  session c := (h.session c).trans (hent c).session.symm
  segments := h.segments
  absent c hnone := h.absent c ((hent c).absent hnone)

theorem add {session : ClientSession} {spec : SegmentSpec} {k : Mount}
    (hk : k.owner = spec.identity.owner)
    (hsess : (b.slot spec.identity.owner).session = some session)
    (hmt : b.mount spec.identity.id = none) :
    Agrees { b with
      slot := update b.slot spec.identity.owner
        ⟨some session, insert spec.identity.id (b.slot spec.identity.owner).segments⟩
      mount := update b.mount spec.identity.id (some k) } := by
  have howns : ∀ c id, Owns { b with mount := update b.mount spec.identity.id (some k) } c id ↔
      id = spec.identity.id ∧ c = spec.identity.owner ∨ b.Owns c id := by
    intro c id
    by_cases hid : id = spec.identity.id
    · subst hid
      simp [Owns, hmt, hk, eq_comm]
    · simp [Owns, hid]
  constructor
  · intro c
    rw [← h.session c]
    by_cases hc : c = spec.identity.owner
    · subst hc
      simp [hsess]
    · simp [hc]
  · intro c id
    refine Iff.trans ?_ (howns c id).symm
    rw [← h.segments c id]
    by_cases hc : c = spec.identity.owner
    · subst hc
      simp
    · simp [hc]
  · intro c hnone id howns'
    rcases (howns c id).mp howns' with ⟨-, rfl⟩ | hbef
    · have hent := h.session spec.identity.owner
      rw [hsess, show b.entry spec.identity.owner = none from hnone] at hent
      cases hent
    · exact h.absent c hnone id hbef

theorem establish {c : ClientId} {e : ClientEntry} {specs : List SegmentSpec} {mount : MountTable}
    (hent : b.entry c = none) (howrs : ∀ spec ∈ specs, spec.identity.owner = c)
    (hmt : Mounted b.next b.mount specs mount) :
    Agrees { b with
      entry := update b.entry c (some e)
      slot := update b.slot c ⟨some e.session, requestedIds specs⟩
      mount } := by
  -- what is mounted now is what was asked for and what was there
  have howns : ∀ c' id, Owns { b with mount } c' id ↔ c' = c ∧ id ∈ requestedIds specs ∨
      b.Owns c' id := by
    intro c' id
    by_cases hid : id ∈ requestedIds specs
    · obtain ⟨spec, hspec, rfl⟩ := List.mem_map.mp (List.mem_toFinset.mp hid)
      obtain ⟨k, hk, rfl, -⟩ := hmt.each spec hspec
      have hbef : ¬b.Owns c' k.spec.identity.id := by
        rintro ⟨k', hk', -⟩
        exact h.absent c hent _ ⟨k', hk', by rw [Mount.owner, hmt.before _ hspec k' hk', howrs _ hspec]⟩
      have hownr : k.owner = c := howrs _ hspec
      simp [Owns, hk, hownr, hid, eq_comm] at hbef ⊢
      tauto
    · simp [Owns, hmt.other id hid, hid]
  constructor
  · intro c'
    by_cases hc : c' = c
    · subst hc
      simp
    · simp [hc, h.session]
  · intro c' id
    refine Iff.trans ?_ (howns c' id).symm
    by_cases hc : c' = c
    · subst hc
      simp [h.absent c' hent id]
    · simp [hc, h.segments]
  · intro c' hnone id howns'
    have hc : c' ≠ c := by
      rintro rfl
      simp at hnone
    have hnone' : b.entry c' = none := (update_of_ne hc _ _).symm.trans hnone
    rcases (howns c' id).mp howns' with ⟨rfl, -⟩ | hbef
    · exact hc rfl
    · exact h.absent c' hnone' id hbef

theorem without (hrec : b.Records key k) : (b.without key).Agrees := by
  have howns : ∀ c id, (b.without key).Owns c id ↔ id ≠ key.segment ∧ b.Owns c id := by
    intro c id
    by_cases hid : id = key.segment
    · subst hid
      simp [Owns, Ledger.without]
    · simp [Owns, Ledger.without, hid]
  constructor
  · intro c
    rw [show (b.without key).entry = b.entry from rfl, ← h.session c]
    by_cases hc : c = key.session.clientId
    · subst hc
      simp [Ledger.without]
    · simp [Ledger.without, hc]
  · intro c id
    rw [howns, ← h.segments c id]
    by_cases hc : c = key.session.clientId
    · subst hc
      simp [Ledger.without]
    · have hfgn : id = key.segment → id ∉ (b.slot c).segments := by
        rintro rfl hmem
        obtain ⟨_, hk', hownr'⟩ := (h.segments c _).mp hmem
        cases hrec.mount.symm.trans hk'
        exact hc (hownr'.symm.trans hrec.owner)
      simp only [Ledger.without, update_of_ne hc]
      tauto
  · intro c hnone id howns'
    exact h.absent c hnone id ((howns c id).mp howns').2

theorem quiesce {id : SegmentId} {k : Mount} (hmt : b.mount id = some k) (state : SegmentState) :
    Agrees { b with mount := update b.mount id (some { k with state }) } := by
  have howns : ∀ c id', Owns { b with mount := update b.mount id (some { k with state }) } c id' ↔
      b.Owns c id' := by
    intro c id'
    by_cases hid : id' = id
    · subst hid
      simp [Owns, hmt, Mount.owner]
    · simp [Owns, hid]
  constructor
  · exact h.session
  · exact fun c id' => (h.segments c id').trans (howns c id').symm
  · exact fun c hnone id' howns' => h.absent c hnone id' ((howns c id').mp howns')

theorem clean (clients : List ClientId) : Agrees { b with
      entry := fun c => if c ∈ clients then none else b.entry c
      slot := fun c => if c ∈ clients then .default else b.slot c
      mount := fun id => (b.mount id).filter fun k => k.owner ∉ clients } := by
  have howns : ∀ c id, Owns { b with mount := fun id => (b.mount id).filter fun k => k.owner ∉ clients } c id ↔
      c ∉ clients ∧ b.Owns c id := by
    intro c id
    simp only [Owns, Option.filter_eq_some_iff]
    constructor
    · rintro ⟨k, ⟨hk, hkept⟩, rfl⟩
      exact ⟨of_decide_eq_true hkept, k, hk, rfl⟩
    · rintro ⟨hkept, k, hk, rfl⟩
      exact ⟨k, ⟨hk, decide_eq_true hkept⟩, rfl⟩
  constructor
  · intro c
    by_cases hc : c ∈ clients
    · simp [hc, ClientMountState.default]
    · simp [hc, h.session]
  · intro c id
    refine Iff.trans ?_ (howns c id).symm
    by_cases hc : c ∈ clients
    · simp [hc, ClientMountState.default]
    · simp [hc, h.segments]
  · intro c hnone id howns'
    obtain ⟨hkept, hbef⟩ := (howns c id).mp howns'
    exact h.absent c ((if_neg hkept).symm.trans hnone) id hbef

theorem queue (queue : GracefulUnmountQueue) :
    Agrees { b with queue } := ⟨h.session, h.segments, h.absent⟩

end Agrees

theorem Turn.agrees (h : b.Turn event b') (hagr : b.Agrees) : b'.Agrees := by
  cases h with
  | age _ entry next hent => exact hagr.age hent next
  | add entry next hent _ hsess hmt =>
    have hadd := hagr.add (k := ⟨b.next, _, .accepting⟩) rfl hsess hmt
    exact hadd.age hent next
  | @establish c e specs mount next hent howrs hmt =>
    have hestablish := hagr.establish (e := e) hent howrs hmt
    exact hestablish.age (fun _ => .refl _) next
  | unmount hrec => exact (hagr.without hrec).queue _
  | schedule _ hrec => exact (hagr.quiesce hrec.mount .quiesced).queue _
  | prune | claim | stale | refuse => exact hagr.queue _
  | remove hrec => exact (hagr.without hrec).queue _
  | retry _ hrec => exact (hagr.quiesce hrec.mount .quiesced).queue _
  | clean sessions => exact (hagr.clean _).queue _

namespace Turns

variable {ok : LedgerEvent → Prop}

theorem single (h : b.Turn event b') (hok : ok event) :
    Turns ok b b' := Relation.ReflTransGen.single ⟨event, hok, h⟩

theorem mono {ok' : LedgerEvent → Prop} (h : Turns ok b b') (hok : ∀ event, ok event → ok' event) :
    Turns ok' b b' :=
  Relation.ReflTransGen.mono (fun _ _ ⟨event, hevent, hturn⟩ => ⟨event, hok event hevent, hturn⟩) _ _ h

theorem keeps (inv : Ledger → Prop) (h : Turns ok b b') (hinv : inv b)
    (hturn : ∀ {b event b'}, ok event → b.Turn event b' → inv b → inv b') : inv b' := by
  induction h with
  | refl => exact hinv
  | tail _ hstep ih =>
    obtain ⟨event, hok, hstep⟩ := hstep
    exact hturn hok hstep ih

theorem agrees (h : Turns ok b b') (hagr : b.Agrees) :
    b'.Agrees := h.keeps Agrees hagr fun _ hturn => hturn.agrees

end Turns

end Ledger

end Cakemaster.Client
