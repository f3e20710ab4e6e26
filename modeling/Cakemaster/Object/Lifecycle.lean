import Cakemaster.Object.CollectStep
import Mathlib.Data.Multiset.AddSub

/-!
# The life of versions, abstractly

`View` is the part of the store that decides where slots, versions and candidates are. A
call is followed by a `Ghost`: what it knows, because it holds a lock or because what it
has seen cannot change back, and what it has in hand. `Move` says what one action of a
call may do to both. Every action of every catalog call is a move; what holds of all
calls together is then a matter of moves only.
-/

namespace Cakemaster.Object

open Segment

structure SlotView where
  identity : ObjectIdentity
  committed : Option VersionRef
  active : Option ActiveTransaction
  locked : Bool
  nextTransactionId : TransactionId
  nextVersionId : VersionId
  counted : ℤ

structure VersionView (A : UnitAllocator) where
  origin : TransactionId
  owner : WriteOwner
  content : ObjectContent
  replicas : ReplicaSet A
  sealed : Bool
  number : VersionId
  commit : Option ObjectCommit
  hardPinned : Bool
  softPin : CatalogTick
  lease : CatalogTick
  recent : Bool
  reclaimed : Bool
  check : AdmissionCheck
  standing : Standing

structure View (A : UnitAllocator) where
  slots : SlotRef → SlotView
  slotCount : ℕ
  lookup : ObjectIdentity → Option SlotRef
  counter : Counter
  versions : VersionRef → VersionView A
  versionCount : ℕ
  queued : Multiset GcCandidate
  hand : Multiset GcCandidate
  pending : List PendingCandidate
  stageReaders : Multiset VersionRef
  stageWriter : Bool
  retired : List RetiredObject
  empties : List EmptySlotCandidate
  stepGate : Bool
  sessions : ClientSession → Bool
  live : Reservation A → Bool
  released : List (Release A)
  begun : List (SlotRef × TransactionId)
  resolved : List Resolution

variable {A : UnitAllocator}

namespace View

def setSlot (s : SlotRef) (f : SlotView → SlotView) (u : View A) : View A :=
  { u with slots := Function.update u.slots s (f (u.slots s)) }

def setVersion (v : VersionRef) (f : VersionView A → VersionView A) (u : View A) : View A :=
  { u with versions := Function.update u.versions v (f (u.versions v)) }

def setStanding (v : VersionRef) (standing : Standing) : View A → View A :=
  setVersion v fun x => { x with standing }

def setCommitted (s : SlotRef) (committed : Option VersionRef) : View A → View A :=
  setSlot s fun x => { x with committed }

def setActive (s : SlotRef) (active : Option ActiveTransaction) : View A → View A :=
  setSlot s fun x => { x with active }

def detach (base : Option VersionRef) (u : View A) : View A :=
  { u with
    versions := match base with
      | none => u.versions
      | some old => (u.setStanding old .detached).versions }

def candidates (u : View A) : Multiset GcCandidate := u.queued + u.hand

def standing (u : View A) (v : VersionRef) : Standing := (u.versions v).standing

def committed (u : View A) (s : SlotRef) : Option VersionRef := (u.slots s).committed

def active (u : View A) (s : SlotRef) : Option ActiveTransaction := (u.slots s).active

/-- The slot is the one found under its identity. -/
def indexed (u : View A) (s : SlotRef) : Bool := u.lookup (u.slots s).identity = some s

def activeId (u : View A) (s : SlotRef) : TransactionId := ((u.active s).map (·.id)).getD 0

/-- The version is off its slot for good and may be reclaimed from `reclaimAfter` on,
or it was removed by force or has no live replica. -/
def Settled (u : View A) (v : VersionRef) (reclaimAfter : CatalogTick) : Prop :=
  u.standing v = .left reclaimAfter ∨ u.standing v = .forced ∨ u.standing v = .lost

/-- The transaction `id` of the slot is staged with `v`. -/
def StagedAt (u : View A) (s : SlotRef) (id : TransactionId) (v : VersionRef) : Prop :=
  ∃ a, u.active s = some a ∧ a.id = id ∧ a.phase = .staged v

/-- The transaction needs no candidate any more. -/
def Resolved (u : View A) (s : SlotRef) (id : TransactionId) (v : VersionRef) : Prop :=
  (u.versions v).reclaimed = true ∨ (u.versions v).sealed = true ∨ u.indexed s = false ∨
    ¬u.StagedAt s id v

end View

/-- What a call knows of the slot or version it works on. The first group holds no
lock; the second is in the critical section of the slot `s`. -/
inductive Focus (A : UnitAllocator)
  | none
  | saw (v : VersionRef)
  | granted (v : VersionRef) (deadline : CatalogTick)
  | noted (v : VersionRef) (deadline : CatalogTick)
  | returned (v : VersionRef) (deadline : CatalogTick)
  | replaced (v : VersionRef)
  | leaving (v : VersionRef) (reclaimAfter : CatalogTick)
  | locked (s : SlotRef)
  | kept (s : SlotRef)
  | free (s : SlotRef) (next : TransactionId)
  | based (s : SlotRef) (next : TransactionId) (base : Option VersionRef)
  | busy (s : SlotRef) (active : ActiveTransaction)
  | ready (s : SlotRef) (active : ActiveTransaction) (v : VersionRef)
  | numbered (s : SlotRef) (active : ActiveTransaction) (v : VersionRef) (number : VersionId)
  | sealed (s : SlotRef) (active : ActiveTransaction) (v : VersionRef)
  | replacing (s : SlotRef) (base : Option VersionRef)
  | vacant (s : SlotRef)
  | hollow (s : SlotRef)
  | pointed (s : SlotRef) (v : VersionRef)
  | idle (s : SlotRef) (v : VersionRef)
  | examined (s : SlotRef) (v : VersionRef) (replicas : ReplicaSet A)
  | condemned (s : SlotRef) (v : VersionRef) (replicas : ReplicaSet A)
  | taken (s : SlotRef) (v : VersionRef)
  | closing (s : SlotRef) (v : VersionRef) (reclaimAfter : CatalogTick)

namespace Focus

def lock : Focus A → Option SlotRef
  | none | saw _ | granted .. | noted .. | returned .. | replaced _ | leaving .. => .none
  | locked s | kept s | free s _ | based s _ _ | busy s _ | ready s _ _ | numbered s _ _ _
  | sealed s _ _ | replacing s _ | vacant s | hollow s | pointed s _ | idle s _ | examined s _ _
  | condemned s _ _ | taken s _ | closing s _ _ => some s

/-- What is left to do when the lock is released. -/
def unlocked : Focus A → Focus A
  | replacing _ (some old) => replaced old
  | closing _ v reclaimAfter => leaving v reclaimAfter
  | _ => none

def mayUnlock : Focus A → Bool
  | locked _ | kept _ | free .. | based .. | busy .. | replacing .. | vacant _
  | hollow _ | pointed .. | idle .. | examined .. | condemned .. | closing .. => true
  | _ => false

/-- The detached version that the call is to retire. -/
def detached : Focus A → Option VersionRef
  | replaced old => some old
  | replacing _ base => base
  | _ => .none

end Focus

/-- How a stage call ends with the version it has made. -/
inductive Outcome
  | passed
  | lost
  | refused
deriving DecidableEq

/-- How far a stage call has come with the version it has made. -/
inductive Making
  | none
  | fresh (id : TransactionId) (v : VersionRef) (owner : WriteOwner)
  | gated (id : TransactionId) (v : VersionRef) (owner : WriteOwner)
  | unqueued (s : SlotRef) (id : TransactionId) (v : VersionRef) (owner : WriteOwner)
  | queued (s : SlotRef) (id : TransactionId) (v : VersionRef) (owner : WriteOwner)
  | unchecked (s : SlotRef) (id : TransactionId) (v : VersionRef) (owner : WriteOwner)
  | refused (s : SlotRef) (id : TransactionId) (v : VersionRef)
  | done (v : VersionRef) (outcome : Outcome)
deriving DecidableEq

namespace Making

def version : Making → Option VersionRef
  | none | done .. => .none
  | fresh _ v _ | gated _ v _ | unqueued _ _ v _ | queued _ _ v _ | unchecked _ _ v _
  | refused _ _ v =>
    some v

def made : Making → Option VersionRef
  | none => .none
  | fresh _ v _ | gated _ v _ | unqueued _ _ v _ | queued _ _ v _ | unchecked _ _ v _
  | refused _ _ v | done v _ => some v

end Making

/-- What a read has seen so far, and its answer. -/
inductive Reading (A : UnitAllocator)
  | none
  | found (s : SlotRef)
  | saw (s : SlotRef) (v : VersionRef)
  | listed (s : SlotRef) (v : VersionRef) (replicas : ReplicaSet A)
  | live (s : SlotRef) (v : VersionRef)
  | dead (s : SlotRef) (v : VersionRef)
  | missed (s : SlotRef) (v : VersionRef)
  | present (v : VersionRef)
  | absent
  | notReady

/-- The calls, as far as they may do what others may not. -/
inductive CallKind
  | reading (identity : ObjectIdentity)
  | staging (s : SlotRef)
  | committing (s : SlotRef) (id : TransactionId)
  | resolving (s : SlotRef)
  | collecting (now : CatalogTick)
  | revoking
  | removing (force : Bool)
  | other
deriving DecidableEq

/-- The slot that a call with a claim or a transaction is confined to. -/
def CallKind.home : CallKind → Option SlotRef
  | staging s | committing s _ | resolving s => some s
  | _ => none

/-- The versions that an eviction has seen without a hard pin, with no soft pin that is
ahead, and without a mark since it took the version off its slot, and whether it has
cleared a mark since it took up its candidate. -/
structure Notes where
  unpinned : Option VersionRef := none
  soft : Option VersionRef := none
  unread : Option VersionRef := none
  cleared : Bool := false

structure Ghost (A : UnitAllocator) where
  kind : CallKind
  focus : Focus A := .none
  -- a garbage collection candidate, dead reservations, reservations to give back
  hand : Option GcCandidate := none
  dead : List (Reservation A) := []
  batch : List (VersionRef × Reservation A × CatalogTick) := []
  -- the step gate, the stage gate, pending candidates
  gate : Bool := false
  writing : Bool := false
  drained : List PendingCandidate := []
  spare : List PendingCandidate := []
  seen : List PendingCandidate := []
  early : List PendingCandidate := []
  expected : Option (List PendingCandidate) := none
  due : List PendingCandidate := []
  fence : List ClientSession := []
  fenced : Bool := false
  making : Making := .none
  claimed : Option (SlotRef × TransactionId) := none
  known : List Resolution := []
  -- a transaction that was seen not to be staged, and a base that was seen to have changed
  missing : Option (SlotRef × TransactionId × VersionRef) := none
  astray : Bool := false
  -- what is known of a version to be evicted, and whether soft pins are to be respected
  notes : Notes := {}
  lenient : Bool := false
  -- slots that may be empty, and slots that are not counted yet
  owes : List SlotRef := []
  emptied : Option EmptySlotCandidate := none
  uncounted : Option (SlotRef × Bool) := none
  reading : Reading A := .none

namespace Ghost

def start (kind : CallKind) (lenient : Bool := false) : Ghost A := { kind, lenient }

def on (g : Ghost A) (focus : Focus A) : Ghost A := { g with focus }

def holding (g : Ghost A) (hand : Option GcCandidate) : Ghost A := { g with hand }

def during (g : Ghost A) (making : Making) : Ghost A := { g with making }

def knowing (g : Ghost A) (known : List Resolution) : Ghost A := { g with known }

def owing (g : Ghost A) (owes : List SlotRef) : Ghost A := { g with owes }

/-- The call may enter the critical section of the slot. -/
def MayLock (g : Ghost A) (s : SlotRef) : Prop := ∀ home, g.kind.home = some home → home = s

/-- The call has no empty slot on its hands. -/
def Clean (g : Ghost A) : Prop := g.owes = [] ∧ g.emptied = none

def isFor (s : SlotRef) (id : TransactionId) (v : VersionRef) (c : PendingCandidate) : Bool :=
  c.slot = s ∧ c.transactionId = id ∧ c.pending = v

/-- The transaction needs no candidate: the call is done with it. -/
def resolve (s : SlotRef) (id : TransactionId) (v : VersionRef) (g : Ghost A) : Ghost A :=
  { g with
    drained := g.drained.filter fun c => !isFor s id v c
    spare := g.spare.filter fun c => !isFor s id v c
    making := if g.making = .refused s id v then .done v .refused else g.making }

end Ghost

/-- What a read may conclude from one look. -/
inductive Observes (u : View A) (g : Ghost A) (identity : ObjectIdentity) :
    Reading A → Reading A → Prop
  | find (h : u.lookup identity = some s) : Observes u g identity .none (.found s)
  | miss (h : u.lookup identity = none) : Observes u g identity .none .absent
  | see (h : u.committed s = some v) :
      Observes u g identity (.found s) (.saw s v)
  | list :
      Observes u g identity (.saw s v) (.listed s v (u.versions v).replicas)
  | live (hmem : r ∈ replicas) (hlive : u.live r.reservation = true) :
      Observes u g identity (.listed s v replicas) (.live s v)
  | dead (hdead : ∀ r ∈ replicas, r.reservation ∈ g.dead) :
      Observes u g identity (.listed s v replicas) (.dead s v)
  | confirm (h : u.committed s = some v) :
      Observes u g identity (.live s v) (.present v)
  | lose (h : u.committed s ≠ some v) :
      Observes u g identity (.live s v) (.missed s v)
  | giveUp (hbef : before = .missed s v ∨ before = .dead s v) (h : u.committed s = some v) :
      Observes u g identity before .absent
  | retry (hbef : before = .missed s v ∨ before = .dead s v) :
      Observes u g identity before (.found s)
  | nothing (hfoc : g.focus = .hollow s) (h : u.active s = none) :
      Observes u g identity (.found s) .absent
  | unready (hfoc : g.focus = .hollow s) (h : u.active s ≠ none) :
      Observes u g identity (.found s) .notReady

/-- What an action of one call may do to the store and to the call's own ghost. -/
inductive Move (u : View A) (g : Ghost A) : View A → Ghost A → Prop
  -- the rest of the store, and the loss of segments and sessions
  | frame (hlive : ∀ r, live r = true → u.live r = true)
      (hsss : ∀ session, sessions session = true → u.sessions session = true) :
      Move u g { u with live, sessions } g
  | seeDead (r : Reservation A) (hdead : u.live r = false) :
      Move u g u { g with dead := r :: g.dead }
  -- readers
  | observe (focus : Focus A) (hkind : g.kind = .reading identity) (h : Observes u g identity g.reading reading)
      (hfoc : focus = g.focus ∨ focus = .none ∧ g.focus.lock = none ∧ g.focus.detached = none) :
      Move u g u { g with focus, reading }
  | see (hkind : g.kind = .reading identity) (hfoc : g.focus = .none)
      (hreading : g.reading = .found s) (hcomm : u.committed s = some v) :
      Move u g u { g with focus := .saw v, reading := .saw s v }
  | sample (hfoc : g.focus = .saw v ∨ ∃ deadline, g.focus = .granted v deadline) :
      Move u g u { g with focus := .granted v (u.versions v).lease }
  | raise (hfoc : g.focus = .granted v old) (hle : (u.versions v).lease ≤ new) :
      Move u g (u.setVersion v fun x => { x with lease := if x.sealed then new else x.lease })
        { g with focus := .granted v new }
  | mark (hfoc : g.focus = .granted v deadline) :
      Move u g (u.setVersion v fun x => { x with recent := x.sealed || x.recent })
        { g with focus := .noted v deadline }
  | confirm (hkind : g.kind = .reading identity)
      (hfoc : g.focus = .noted v deadline) (hreading : g.reading = .live s v)
      (hcomm : u.committed s = some v) :
      Move u g u { g with focus := .returned v deadline, reading := .present v }
  | retry (hfree : g.focus.lock = none) (hdet : g.focus.detached = none) :
      Move u g u { g with focus := .none }
  -- locks and what is seen under them
  | lock (hmay : g.MayLock s) (hfoc : g.focus = .none)
      (hcnt : s < u.slotCount) (hunl : (u.slots s).locked = false) :
      Move u g (u.setSlot s fun x => { x with locked := true }) { g with focus := .locked s }
  | unlock (hlock : g.focus.lock = some s) (hmay : g.focus.mayUnlock = true) :
      Move u g (u.setSlot s fun x => { x with locked := false }) { g with focus := g.focus.unlocked }
  | keep (hfoc : g.focus = .locked s) (hidx : u.indexed s = true) :
      Move u g u { g with focus := .kept s }
  | free (hfoc : g.focus = .kept s) (hactv : u.active s = none) :
      Move u g u { g with focus := .free s (u.slots s).nextTransactionId }
  | base (hfoc : g.focus = .free s next) :
      Move u g u { g with focus := .based s next (u.committed s) }
  | meet (hfoc : g.focus = .locked s) (hactv : u.active s = some a) :
      Move u g u { g with focus := .busy s a }
  | vacant (hfoc : g.focus = .locked s) (hactv : u.active s = none) :
      Move u g u { g with focus := .vacant s }
  | point (hfoc : g.focus = .locked s)
      (hcomm : u.committed s = some v) : Move u g u { g with focus := .pointed s v }
  | hollow (hfoc : g.focus = .locked s) (hcomm : u.committed s = none) :
      Move u g u { g with focus := .hollow s }
  | idle (hfoc : g.focus = .vacant s) (hcomm : u.committed s = some v) :
      Move u g u { g with focus := .idle s v }
  | examine (hfoc : g.focus = .pointed s v) :
      Move u g u { g with focus := .examined s v (u.versions v).replicas }
  | condemn (hfoc : g.focus = .examined s v replicas) (hactv : u.active s = none) :
      Move u g u { g with focus := .condemned s v replicas }
  | learn (hfoc : g.focus = .pointed s v) :
      Move u g u { g with
        known := ⟨s, (u.versions v).origin, v, some (u.versions v).number⟩ :: g.known }
  -- claims and slots
  | insert (owner : WriteOwner)
      (pins : ResolvedObjectPinRequest) (hhome : g.kind.home = none)
      (hnone : u.lookup identity = none) (hcntd : g.uncounted = none) :
      Move u g { u with
        slots := Function.update u.slots u.slotCount
          ⟨identity, none, some ⟨1, owner, none, pins, .claimed⟩, false, 2, 1, 0⟩
        slotCount := u.slotCount + 1
        lookup := Function.update u.lookup identity (some u.slotCount)
        begun := u.begun ++ [(u.slotCount, 1)] }
        { g with claimed := some (u.slotCount, 1), uncounted := some (u.slotCount, true) }
  | count (hhome : g.kind.home = none) (hcntd : g.uncounted = some (s, true)) :
      Move u g { u.setSlot s fun x => { x with counted := x.counted + 1 } with
        counter := u.counter.add 1 } { g with uncounted := none }
  | uncount (hhome : g.kind.home = none) (hcntd : g.uncounted = some (s, false)) :
      Move u g { u.setSlot s fun x => { x with counted := x.counted - 1 } with
        counter := u.counter.fetchSub 1 } { g with uncounted := none }
  | claim (owner : WriteOwner) (pins : ResolvedObjectPinRequest)
      (hfoc : g.focus = .based s next base) :
      Move u g { u.setSlot s fun x => { x with
          nextTransactionId := x.nextTransactionId + 1
          active := some ⟨x.nextTransactionId, owner, base, pins, .claimed⟩ } with
        begun := u.begun ++ [(s, (u.slots s).nextTransactionId)] }
        { g with focus := .locked s, claimed := some (s, next) }
  | unclaim (hfoc : g.focus = .busy s a) (hph : a.phase = .claimed) (hcln : g.Clean) :
      Move u g (u.setActive s none) { g with focus := .locked s, owes := s :: g.owes }
  | unindex (hhome : g.kind.home = none) (hfoc : g.focus = .locked s) (hlook : u.lookup identity = some s)
      (hcomm : u.committed s = none) (hactv : u.active s = none) (hcntd : g.uncounted = none)
      (hempd : ∀ c, g.emptied = some c → c.slot = s) :
      Move u g { u with lookup := Function.update u.lookup identity none }
        { g with emptied := none, uncounted := some (s, false) }
  -- empty slots
  | settle (hcomm : u.committed s ≠ none) :
      Move u g u { g with owes := g.owes.erase s }
  | enqueueEmpty (c : EmptySlotCandidate)
      (hiden : c.identity = (u.slots c.slot).identity) (howes : c.slot ∈ g.owes) :
      Move u g { u with empties := u.empties ++ [c] } { g with owes := g.owes.erase c.slot }
  | popEmpty (hemps : u.empties = c :: rest) (hcln : g.Clean) :
      Move u g { u with empties := rest } { g with emptied := some c }
  | pushEmpty (hempd : g.emptied = some c) :
      Move u g { u with empties := u.empties ++ [c] } { g with emptied := none }
  | dropEmpty (hempd : g.emptied = some c) (hstl : u.lookup c.identity ≠ some c.slot ∨
        u.indexed c.slot = false ∨ u.committed c.slot ≠ none ∨ u.active c.slot ≠ none) :
      Move u g u { g with emptied := none }
  -- stage
  | make (x : VersionView A) (hkind : g.kind = .staging s)
      (hmak : g.making = .none) (hrcl : x.reclaimed = false)
      (hseal : x.sealed = false) (hchk : x.check = .ahead) (hstd : x.standing = .fresh) :
      Move u g { u with
        versions := Function.update u.versions u.versionCount x
        versionCount := u.versionCount + 1 } { g with making := .fresh x.origin u.versionCount x.owner }
  | enterGate {id : TransactionId} {v : VersionRef} {o : WriteOwner}
      (hmak : g.making = .fresh id v o) (hwr : u.stageWriter = false) :
      Move u g { u with stageReaders := v ::ₘ u.stageReaders } { g with making := .gated id v o }
  | stage (hmak : g.making = .gated a.id v o) (hfoc : g.focus = .busy s a)
      (hph : a.phase = .claimed) (hownr : a.owner = o) :
      Move u g ((u.setActive s (some { a with phase := .staged v })).setStanding v (.staged s))
        { g with focus := .locked s, making := .unqueued s a.id v o }
  | enqueue (hmak : g.making = .unqueued c.slot c.transactionId c.pending o) :
      Move u g { u with pending := u.pending ++ [c] }
        { g with making := .queued c.slot c.transactionId c.pending o }
  | leaveGate {s : SlotRef} {id : TransactionId} {v : VersionRef}
      {o : WriteOwner} (hmak : g.making = .queued s id v o) :
      Move u g { u with stageReaders := u.stageReaders.erase v }
        { g with making := .unchecked s id v o }
  | backOut {id : TransactionId} {v : VersionRef} {o : WriteOwner}
      (hmak : g.making = .gated id v o) :
      Move u g { u with stageReaders := u.stageReaders.erase v } { g with making := .fresh id v o }
  | pass {s : SlotRef} {id : TransactionId} {v : VersionRef}
      {o : WriteOwner} (hmak : g.making = .unchecked s id v o)
      (hactv : ∀ session, o = .forSession session → u.sessions session = true) :
      Move u g (u.setVersion v fun x => { x with check := .passed })
        { g with making := .done v .passed }
  | refuse {s : SlotRef} {id : TransactionId} {v : VersionRef}
      {o : WriteOwner} (hmak : g.making = .unchecked s id v o) :
      Move u g (u.setVersion v fun x => { x with check := .refused })
        { g with making := .refused s id v }
  | discard {id : TransactionId} {v : VersionRef} {o : WriteOwner}
      (hmak : g.making = .fresh id v o) :
      Move u g (u.setVersion v fun x => { x with replicas := [], reclaimed := true })
        { g with making := .done v .lost }
  | resolve (s : SlotRef) (id : TransactionId) (v : VersionRef)
      (hrsv : u.Resolved s id v) : Move u g u (g.resolve s id v)
  | abandon (now : CatalogTick) (hfoc : g.focus = .busy s a) (hph : a.phase = .staged v)
      (hcln : g.Clean) :
      Move u g { (u.setActive s none).setStanding v (.left now) with
          resolved := u.resolved ++ [⟨s, u.activeId s, v, none⟩] }
        { g.resolve s a.id v with
          focus := .closing s v now
          owes := s :: g.owes
          known := ⟨s, a.id, v, none⟩ :: g.known }
  -- commit
  | agree (hfoc : g.focus = .busy s a) (hph : a.phase = .staged v)
      (hbase : u.committed s = a.base) :
      Move u g u { g with focus := .ready s a v }
  | disagree (hfoc : g.focus = .busy s a) (hbase : u.committed s ≠ a.base) :
      Move u g u { g with astray := true }
  | miss (s : SlotRef) (id : TransactionId) (v : VersionRef)
      (h : u.indexed s = false ∨ ¬u.StagedAt s id v) :
      Move u g u { g with missing := some (s, id, v) }
  | number (hfoc : g.focus = .ready s a v) :
      Move u g (u.setSlot s fun x => { x with nextVersionId := x.nextVersionId + 1 })
        { g with focus := .numbered s a v (u.slots s).nextVersionId }
  | record (commit : ObjectCommit) (hardPinned : Bool) (softPin : CatalogTick)
      (hkind : g.kind = .committing s a.id) (hfoc : g.focus = .numbered s a v number)
      (hseal : (u.versions v).sealed = false) :
      Move u g (u.setVersion v fun x =>
          { x with
            sealed := true, number, commit := some commit, hardPinned, softPin, lease := 0, recent := false })
        { g with focus := .sealed s a v }
  | publish (hkind : g.kind = .committing s a.id) (hfoc : g.focus = .sealed s a v)
      (hhand : g.hand = none) :
      Move u g { ((u.setSlot s fun x => { x with committed := some v, active := none }).detach
          a.base).setStanding v (.published s) with
          hand := ⟨s, v⟩ ::ₘ u.hand
          resolved := u.resolved ++ [⟨s, u.activeId s, v, some (u.versions v).number⟩] }
        { g with
          focus := .replacing s a.base
          hand := some ⟨s, v⟩
          known := ⟨s, a.id, v, some (u.versions v).number⟩ :: g.known }
  | sampleReplaced (hfoc : g.focus = .replaced old) :
      Move u g (u.setStanding old (.left (u.versions old).lease))
        { g with focus := .leaving old (u.versions old).lease }
  -- removal and eviction
  | unpin (hkind : g.kind = .collecting now) (hseal : (u.versions v).sealed = true)
      (hdue : (u.versions v).softPin ≤ now) :
      Move u g (u.setVersion v fun x => { x with softPin := 0 }) g
  | unmark (v : VersionRef) (hkind : g.kind = .collecting now) :
      Move u g (u.setVersion v fun x => { x with recent := false })
        { g with notes := { g.notes with
          unread := if (u.versions v).recent then none else some v
          cleared := g.notes.cleared || (u.versions v).recent } }
  | seeUnpinned (hfoc : g.focus = .idle s v)
      (hpinned : (u.versions v).hardPinned = false) :
      Move u g u { g with notes := { g.notes with unpinned := some v } }
  | seeSoft (hkind : g.kind = .collecting now) (hfoc : g.focus = .idle s v)
      (hdue : (u.versions v).softPin ≤ now) :
      Move u g u { g with notes := { g.notes with soft := some v } }
  | withdraw (hfoc : g.focus = .idle s v) (hcln : g.Clean) :
      Move u g ((u.setCommitted s none).setStanding v (.withdrawn s))
        { g with focus := .taken s v, owes := s :: g.owes, notes := { g.notes with unread := none } }
  | restore (hfoc : g.focus = .taken s v) :
      Move u g ((u.setCommitted s (some v)).setStanding v (.published s))
        { g with focus := .locked s, owes := g.owes.erase s }
  | depart (hfoc : g.focus = .taken s v) (hle : (u.versions v).lease ≤ now)
      (hkind : ∀ now, g.kind ≠ .collecting now) :
      Move u g (u.setStanding v (.left now)) { g with focus := .closing s v now }
  | departEvicted (hfoc : g.focus = .taken s v) (hle : (u.versions v).lease ≤ now)
      (hhand : g.hand = some ⟨s, v⟩) (hkind : g.kind = .collecting now)
      (hunp : g.notes.unpinned = some v) (hunr : g.notes.unread = some v)
      (hclr : g.notes.cleared = false) (hsoft : g.notes.soft = some v ∨ g.lenient = true) :
      Move u g { u.setStanding v (.left now) with hand := u.hand.erase ⟨s, v⟩ }
        { g with focus := .closing s v now, hand := none }
  | expel (now : CatalogTick)
      (hfoc : g.focus = .idle s v) (hcln : g.Clean) (hkind : g.kind = .removing true) :
      Move u g ((u.setCommitted s none).setStanding v .forced)
        { g with focus := .closing s v now, owes := s :: g.owes }
  | lose (now : CatalogTick) (hfoc : g.focus = .condemned s v replicas)
      (hhand : g.hand = some ⟨s, v⟩) (hdead : ∀ replica ∈ replicas, replica.reservation ∈ g.dead)
      (hcln : g.Clean) :
      Move u g { (u.setCommitted s none).setStanding v .lost with hand := u.hand.erase ⟨s, v⟩ }
        { g with focus := .closing s v now, hand := none, owes := s :: g.owes }
  | prune (hfoc : g.focus = .examined s v replicas) (hsub : live.Sublist replicas)
      (hdead : ∀ replica ∈ replicas, replica ∈ live ∨ replica.reservation ∈ g.dead) :
      Move u g (u.setVersion v fun x => { x with replicas := live })
        { g with focus := .examined s v live }
  -- candidates
  | pop (hkind : g.kind = .collecting now) (hhand : g.hand = none) (hqd : u.queued = c ::ₘ rest) :
      Move u g { u with queued := rest, hand := c ::ₘ u.hand } { g with hand := some c, notes := {} }
  | push (hhand : g.hand = some c) :
      Move u g { u with queued := c ::ₘ u.queued, hand := u.hand.erase c } { g with hand := none }
  | drop (hhand : g.hand = some c) (hstl : u.committed c.slot ≠ some c.version ∨
        u.indexed c.slot = false ∨ (u.versions c.version).reclaimed = true) :
      Move u g { u with hand := u.hand.erase c } { g with hand := none }
  -- reclamation
  | retire (r : RetiredObject)
      (hfoc : g.focus = .leaving r.version r.reclaimAfter) :
      Move u g { u with retired := u.retired ++ [r] } { g with focus := .none }
  | popRetired (hfoc : g.focus = .none) (hrtd : u.retired = r :: rest) :
      Move u g { u with retired := rest } { g with focus := .leaving r.version r.reclaimAfter }
  | take (hfoc : g.focus = .leaving v reclaimAfter) (hle : reclaimAfter ≤ now) :
      Move u g (u.setVersion v fun x => { x with replicas := [], reclaimed := true })
        { g with
          focus := .none
          batch := g.batch ++ (u.versions v).replicas.map fun r => (v, r.reservation, now) }
  | release {live : Reservation A → Bool}
      {group : List (VersionRef × Reservation A)} (hlive : ∀ r, live r = true → u.live r = true)
      (hgroup : ∀ e ∈ group, e.2 ∈ g.dead ∨ (e.1, e.2, now) ∈ g.batch) :
      Move u g { u with
        live
        released := u.released ++ group.map fun (v, r) => ⟨v, r, now, u.live r⟩ } g
  -- the step gate, the stage gate and pending candidates
  | gate (hkind : g.kind = .revoking ∨ ∃ now, g.kind = .collecting now)
      (hgate : u.stepGate = false) (hexp : g.expected = none) :
      Move u g { u with stepGate := true } { g with gate := true, early := u.pending }
  | ungate (hgate : g.gate = true) (hwrt : g.writing = false)
      (hdrn : g.drained = []) (hspr : g.spare = []) :
      Move u g { u with stepGate := false } { g with gate := false }
  | expect (hkind : g.kind = .collecting now)
      (hgate : g.gate = true) (hexp : g.expected = none) (hspr : g.spare = []) :
      Move u g u { g with expected := some u.pending, due := u.pending }
  | popSpare (hgate : g.gate = true) (hexp : g.expected.isSome = true)
      (hpend : u.pending = c :: rest) :
      Move u g { u with pending := rest }
        { g with spare := c :: g.spare, due := g.due.tail, seen := c :: g.seen }
  | popNone (hgate : g.gate = true) (hpend : u.pending = []) :
      Move u g u { g with due := [] }
  | requeue (c : PendingCandidate) (hgate : g.gate = true)
      (hwrt : g.writing = false) (hdue : ∀ now, g.kind = .collecting now → now < c.deadline)
      (hseen : c ∈ g.seen) (hdrn : c ∉ g.drained) :
      Move u g { u with pending := u.pending ++ [c] }
        { g with spare := g.spare.filter (· ≠ c) }
  | closeGate (hkind : g.kind = .revoking) (hgate : g.gate = true)
      (hwr : u.stageWriter = false) (hreaders : u.stageReaders = 0) (hspr : g.spare = []) :
      Move u g { u with stageWriter := true } { g with writing := true }
  | popDrained (hwrt : g.writing = true) (hpend : u.pending = c :: rest) :
      Move u g { u with pending := rest } { g with drained := c :: g.drained, seen := c :: g.seen }
  | finishDrain (hwrt : g.writing = true) (hpend : u.pending = []) :
      Move u g u { g with fenced := true }
  | openGate (hwrt : g.writing = true) :
      Move u g { u with stageWriter := false } { g with writing := false }
  | fence (sessions : List ClientSession) (hfenced : g.fenced = false)
      (hina : ∀ session ∈ sessions, u.sessions session = false) :
      Move u g u { g with fence := sessions }
  | spare (hgate : g.gate = true) (hwrt : g.writing = false) (hdrn : c ∈ g.drained)
      (hactv : u.active c.slot = some a) (hph : a.phase = .staged c.pending)
      (hownr : ∀ session ∈ g.fence, a.owner ≠ .forSession session) :
      Move u g u { g with drained := g.drained.filter (· ≠ c), spare := c :: g.spare }

end Cakemaster.Object
