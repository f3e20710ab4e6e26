import Cakemaster.Machine.Schedule
import Cakemaster.Object.StepMoves
import Cakemaster.Object.Threads
import Cakemaster.Segment.BumpAllocator

/-!
# The catalog as a system of calls

Any number of threads call the catalog. Between two of their actions the rest of the
program may lose segments and sessions and change what the catalog does not own.
-/

namespace Cakemaster.Object

open Machine Machine.Prog Segment Tenant Conforms Ghost

variable {A : UnitAllocator}

/-- The callbacks of a collector step with a watermark. They read the catalog and work
on state of their caller. -/
structure WatermarkHooks (A : UnitAllocator) where
  prepare : CatalogM A ℕ
  finish : CollectReport → CatalogM A Unit
  quiet_prepare : Quiet prepare
  quiet_finish : ∀ report, Quiet (finish report)

inductive CatalogCall (A : UnitAllocator)
  | beginWrite (identity : ObjectIdentity) (admission : WriteAdmission) (mode : WriteMode)
      (pins : ObjectPinRequest) (now : CatalogTick)
  | stage (claim : WriteClaim) (content : ObjectContent) (replicas : ReplicaSet A)
      (accounting : Option QuotaReservationGuard)
  | dropClaim (claim : WriteClaim)
  | commit (transaction : WriteTransaction) (content : ObjectCommit) (now : CatalogTick)
  | abort (transaction : WriteTransaction) (now : CatalogTick)
  | resolveWrite (identity : ObjectIdentity)
  | get (identity : ObjectIdentity) (now : CatalogTick)
  | dropHandle (v : VersionRef)
  | remove (identity : ObjectIdentity) (now : CatalogTick) (force : Bool)
  | collectStep (now : CatalogTick) (budget : CollectBudget) (targets : List ReclaimTarget)
      (watermark : Bool)
  | cleanupBatch (sessions : List ClientSession) (now : CatalogTick)

inductive CatalogResult
  | claimed (result : Except BeginError WriteClaim)
  | staged (result : Except StageError WriteTransaction)
  | committed (result : Except CommitError VersionRef)
  | aborted (result : Except AbortError Unit)
  | resolved (result : Except LookupError WriteResolution)
  | read (result : Except LookupError ObjectRead)
  | removed (result : Except RemoveError Unit)
  | collected (report : CollectReport)
  | revoked (count : ℕ)
  | dropped
deriving DecidableEq

namespace CatalogCall

def code (cfg : CatalogConfig) (hooks : WatermarkHooks A) : CatalogCall A → CatalogM A CatalogResult
  | beginWrite identity admission mode pins now =>
    (Object.beginWrite cfg identity admission mode pins now).bind fun r => ret (.claimed r)
  | stage claim content replicas accounting =>
    (stageInner cfg claim content replicas accounting).bind fun r => ret (.staged r)
  | dropClaim claim => (Object.dropClaim cfg claim).bind fun _ => ret .dropped
  | commit transaction content now =>
    (Object.commit cfg transaction content now).bind fun r => ret (.committed r)
  | abort transaction now => (Object.abort cfg transaction now).bind fun r => ret (.aborted r)
  | resolveWrite identity => (Object.resolveWrite cfg identity).bind fun r => ret (.resolved r)
  | get identity now => (Object.get cfg identity now).bind fun r => ret (.read r)
  | dropHandle v => (Object.dropHandle v).bind fun _ => ret .dropped
  | remove identity now force =>
    (removeWithForce cfg identity now force).bind fun r => ret (.removed r)
  | collectStep now budget targets false =>
    (collectStepWithTargets cfg now budget targets).bind fun r => ret (.collected r)
  | collectStep now budget targets true =>
    (collectStepWithTargetsAndWatermark cfg now budget targets hooks.prepare hooks.finish).bind
      fun r => ret (.collected r)
  | cleanupBatch sessions now => (Object.cleanupBatch cfg sessions now).bind fun n =>
    ret (.revoked n)

def kind : CatalogCall A → CallKind
  | stage claim .. => .staging claim.slot
  | commit transaction .. => .committing transaction.slot transaction.id
  | dropClaim claim => .resolving claim.slot
  | abort transaction _ => .resolving transaction.slot
  | get identity _ => .reading identity
  | collectStep now .. => .collecting now
  | cleanupBatch .. => .revoking
  | remove _ _ force => .removing force
  | beginWrite .. | resolveWrite _ | dropHandle _ => .other

variable {call : CatalogCall A}

theorem eq_commit_of_kind {s : SlotRef} {id : TransactionId}
    (h : call.kind = .committing s id) :
    ∃ transaction content now, call = .commit transaction content now ∧ transaction.slot = s ∧
    transaction.id = id := by
  cases call with
  | commit transaction content now =>
    cases h
    exact ⟨transaction, content, now, rfl, rfl, rfl⟩
  | _ => cases h

theorem eq_collectStep_of_kind (h : call.kind = .collecting now) :
    ∃ budget targets watermark, call = .collectStep now budget targets watermark := by
  cases call with
  | collectStep now budget targets watermark =>
    cases h
    exact ⟨budget, targets, watermark, rfl⟩
  | _ => cases h

theorem eq_stage_of_kind (h : call.kind = .staging s) :
    ∃ claim content replicas accounting, call = .stage claim content replicas accounting := by
  cases call with
  | stage claim content replicas accounting => exact ⟨claim, content, replicas, accounting, rfl⟩
  | _ => cases h

theorem eq_remove_of_kind (h : call.kind = .removing force) :
    ∃ identity now, call = .remove identity now force := by
  cases call with
  | remove identity now force =>
    cases h
    exact ⟨identity, now, rfl⟩
  | _ => cases h

theorem eq_cleanupBatch_of_kind (h : call.kind = .revoking) :
    ∃ sessions now, call = .cleanupBatch sessions now := by
  cases call with
  | cleanupBatch sessions now => exact ⟨sessions, now, rfl⟩
  | _ => cases h

/-- The policy for soft pins that the call is bound to. -/
def lenient (cfg : CatalogConfig) : CatalogCall A → Bool
  | collectStep .. => cfg.allowEvictSoftPinnedObjects
  | _ => false

/-- What is known of a call that has returned. -/
def Post : CatalogCall A → CatalogResult → Ghost A → Prop
  | beginWrite .., result, g => ∃ r, result = .claimed r ∧ ClaimPost (Ghost.start .other) r g
  | stage claim .., result, g => ∃ r, result = .staged r ∧ StagePost claim r g
  | commit transaction .., result, g => ∃ r, result = .committed r ∧
      CommitPost transaction (Ghost.start (.committing transaction.slot transaction.id)) r g
  | abort transaction _, result, g => ∃ r, result = .aborted r ∧
      AbortPost transaction (Ghost.start (.resolving transaction.slot)) r g
  | get identity _, result, g => ∃ r, result = .read r ∧ ReadPost identity r g
  | collectStep _ budget _ _, result, g => ∃ r, result = .collected r ∧ StepPost budget r g
  | cleanupBatch sessions _, result, g => (∃ n, result = .revoked n) ∧ CleanupPost sessions g
  | dropClaim claim, result, g => result = .dropped ∧ g = Ghost.start (.resolving claim.slot)
  | dropHandle _, result, g => result = .dropped ∧ g = Ghost.start .other
  | resolveWrite _, result, g => (∃ r, result = .resolved r) ∧ g = Ghost.start .other
  | remove _ _ force, result, g =>
    (∃ r, result = .removed r) ∧ g = Ghost.start (.removing force)

theorem conforms (cfg : CatalogConfig) (hooks : WatermarkHooks A) (call : CatalogCall A) :
    Follows (call.code cfg hooks) (start call.kind (call.lenient cfg)) call.Post := by
  cases call with
  | beginWrite identity admission mode pins now =>
    apply seq (follows_beginWrite cfg identity admission mode pins now (g := start .other) rfl rfl)
    exact fun r g h => .ret ⟨r, rfl, h⟩
  | stage claim content replicas accounting =>
    apply seq (follows_stageInner cfg claim content replicas accounting)
    exact fun r g h => .ret ⟨r, rfl, h⟩
  | dropClaim claim =>
    apply seq (follows_dropClaim cfg (g := start (.resolving claim.slot))
      (mayLock_of_kind rfl (.inr rfl)) ⟨rfl, rfl⟩)
    exact fun _ g h => .ret ⟨rfl, h⟩
  | commit transaction content now =>
    apply seq (follows_commit cfg transaction content now)
    exact fun r g h => .ret ⟨r, rfl, h⟩
  | abort transaction now =>
    by_cases hcat : transaction.catalog = cfg.catalogId
    · apply seq (follows_abort cfg transaction now (g := start (.resolving transaction.slot))
        (mayLock_of_kind rfl (.inr rfl)) ⟨rfl, rfl⟩ hcat)
      exact fun r g h => .ret ⟨r, rfl, h⟩
    · apply seq (follows_abort_foreign cfg now _ hcat)
      rintro r g ⟨rfl, hr⟩
      exact .ret ⟨r, rfl, [], rfl, fun h => absurd h hr⟩
  | resolveWrite identity =>
    apply seq (follows_resolveWrite cfg identity (g := start .other)
      fun s => mayLock_of_kind rfl (.inl rfl))
    exact fun r g h => .ret ⟨⟨r, rfl⟩, h⟩
  | get identity now =>
    apply seq (follows_get cfg identity now)
    exact fun r g h => .ret ⟨r, rfl, h⟩
  | dropHandle v => exact .modify fun w => ⟨_, .same, .ret ⟨rfl, rfl⟩⟩
  | remove identity now force =>
    apply seq (follows_removeWithForce cfg identity now force rfl ⟨rfl, rfl⟩ rfl
      (g := start (.removing force)))
    exact fun r g h => .ret ⟨⟨r, rfl⟩, h⟩
  | collectStep now budget targets watermark =>
    cases watermark with
    | false =>
      apply seq (follows_collectStepInner cfg now budget targets false (Quiet.ret 0) fun _ => Quiet.ret ())
      exact fun r g h => .ret ⟨r, rfl, h⟩
    | true =>
      apply seq (follows_collectStepInner cfg now budget targets true hooks.quiet_prepare hooks.quiet_finish)
      exact fun r g h => .ret ⟨r, rfl, h⟩
  | cleanupBatch sessions now =>
    apply seq (follows_cleanupBatch cfg sessions now)
    exact fun n g h => .ret ⟨⟨n, rfl⟩, h⟩

theorem Post.atRest {g : Ghost A} (h : call.Post result g) : g.AtRest := by
  cases call with
  | beginWrite =>
    obtain ⟨r, -, h⟩ := h
    cases r with
    | error => exact h ▸ ⟨rfl, rfl, rfl, rfl, rfl, rfl, rfl, rfl, rfl⟩
    | ok claim => exact h ▸ ⟨rfl, rfl, rfl, rfl, rfl, rfl, rfl, rfl, rfl⟩
  | stage claim =>
    obtain ⟨r, -, making, known, rfl, h⟩ := h
    refine ⟨rfl, rfl, rfl, rfl, rfl, ?_, rfl, rfl, rfl⟩
    cases making with
    | none | done => rfl
    | _ => exact h.elim
  | commit transaction =>
    obtain ⟨r, -, known, _, _, rfl, -⟩ := h
    exact ⟨rfl, rfl, rfl, rfl, rfl, rfl, rfl, rfl, rfl⟩
  | abort transaction =>
    obtain ⟨r, -, known, rfl, -⟩ := h
    exact ⟨rfl, rfl, rfl, rfl, rfl, rfl, rfl, rfl, rfl⟩
  | get identity =>
    obtain ⟨r, -, _, rfl⟩ := h
    cases r with
    | ok found => exact ⟨rfl, rfl, rfl, rfl, rfl, rfl, rfl, rfl, rfl⟩
    | error err => cases err <;> exact ⟨rfl, rfl, rfl, rfl, rfl, rfl, rfl, rfl, rfl⟩
  | collectStep =>
    obtain ⟨r, -, hrest, -⟩ := h
    exact hrest
  | cleanupBatch => exact h.2.1
  | dropClaim | resolveWrite | dropHandle | remove =>
    rw [h.2]
    exact .start _ _

theorem Post.eq_get (h : call.Post (.read result) g) :
    ∃ identity now, call = .get identity now ∧ ReadPost identity result g := by
  cases call with
  | get identity now =>
    obtain ⟨_, hr, hpost⟩ := h
    cases hr
    exact ⟨identity, now, rfl, hpost⟩
  | _ => simp [Post] at h

theorem Post.eq_beginWrite
    (h : call.Post (.claimed result) g) : ClaimPost (start .other) result g := by
  cases call with
  | beginWrite =>
    obtain ⟨_, hr, hpost⟩ := h
    cases hr
    exact hpost
  | _ => simp [Post] at h

end CatalogCall

/-- A catalog as it is made, over any pool and registry. -/
structure World.New (w : World A) : Prop where
  slots : ∀ s, (w.slots s).committed = none ∧ (w.slots s).active = none ∧
    (w.slots s).locked = false ∧ (w.slots s).counted = 0
  slotCount : w.slotCount = 0
  versions : ∀ v, (w.versions v).standing = .unborn ∧ (w.versions v).committed = none ∧
    (w.versions v).reclaimed = false
  versionCount : w.versionCount = 0
  index : w.index = ⟨∅, .zero⟩
  lifecycle : w.lifecycle = .new
  eviction : w.eviction = ⟨[], [], [], []⟩
  pending : w.pending = ⟨[], [], false⟩
  retired : w.retired = []
  emptySlots : w.emptySlots = []
  stepGate : w.stepGate = false
  reclaim : w.reclaim = ⟨0⟩
  liveness : w.liveness = ⟨false, 0, 0⟩
  custody : w.custody = ⟨[], []⟩
  history : w.history = ⟨[], [], [], false⟩

/-- `ObjectCatalog::new` over a pool. -/
def World.new (pool : SegmentPool A) (activeSessions : ClientSession → Bool)
    (registry : TenantRegistry) : World A where
  pool := pool
  activeSessions := activeSessions
  slots _ := ⟨⟨0, ""⟩, none, 1, 1, none, false, 0⟩
  slotCount := 0
  versions _ := ⟨0, ⟨⟨0, 0⟩, 0⟩, ⟨0, ""⟩, ⟨0, .general⟩, [], 0, none, none, false, .ahead, .unborn⟩
  versionCount := 0
  index := ⟨∅, .zero⟩
  lifecycle := .new
  eviction := ⟨[], [], [], []⟩
  pending := ⟨[], [], false⟩
  retired := []
  emptySlots := []
  stepGate := false
  reclaim := ⟨0⟩
  liveness := ⟨false, 0, 0⟩
  observedSegmentEpoch := pool.invalidationEpoch
  memoryEviction := {}
  registry := registry
  custody := ⟨[], []⟩
  history := ⟨[], [], [], false⟩

theorem World.new_new (pool : SegmentPool A) (activeSessions : ClientSession → Bool)
    (registry : TenantRegistry) :
    (World.new pool activeSessions registry).New :=
  ⟨fun _ => ⟨rfl, rfl, rfl, rfl⟩, rfl, fun _ => ⟨rfl, rfl, rfl⟩, rfl, rfl, rfl, rfl, rfl, rfl, rfl,
    rfl, rfl, rfl, rfl, rfl⟩

/-- The version has a replica on a segment that is there. -/
def World.HasLiveReplica (w : World A) (v : VersionRef) : Prop :=
  ∃ r ∈ (w.versions v).replicas, w.pool.isLive r.reservation = true

/-- What the rest of the program may do between two actions of the catalog: reservations
and sessions only die, and only the state that the catalog owns stays as it is. -/
structure World.Outside (w w' : World A) : Prop where
  owned : { w' with
    pool := w.pool, activeSessions := w.activeSessions, reclaim := w.reclaim, liveness := w.liveness
    observedSegmentEpoch := w.observedSegmentEpoch, memoryEviction := w.memoryEviction
    registry := w.registry, custody := w.custody } = w
  live : ∀ r, w'.pool.isLive r = true → w.pool.isLive r = true
  sessions : ∀ session, w'.activeSessions session = true → w.activeSessions session = true

/-- The catalog with configuration `cfg`. -/
def catalogSystem (cfg : CatalogConfig) (hooks : WatermarkHooks A) :
    System (World A) ℕ (CatalogCall A) CatalogResult where
  init := World.New
  code _ call := call.code cfg hooks
  env := World.Outside

abbrev RunningCatalog (A : UnitAllocator) := Config (World A) ℕ (CatalogCall A) CatalogResult

/-! ### A catalog over one segment -/

namespace Sample

def spec : SegmentSpec := ⟨⟨⟨0, 1⟩, ⟨0, 1⟩, "segment", "host"⟩, ⟨4096, 1024⟩, ⟨.tcp, "endpoint"⟩⟩

/-- The segment, and eight bytes reserved on it. -/
def reserved :
    Option (Except ReserveError (Reservation bumpAllocator) × SegmentEntry bumpAllocator) :=
  (SegmentEntry.new spec (.new bumpAllocator 1024 16)).reserve 0 8

def pool : SegmentPool bumpAllocator :=
  { SegmentPool.empty bumpAllocator 0 .default with
    entries := (reserved.map (·.2)).toList
    segments := AList.insert ⟨0, 1⟩ 0 ∅
    direct := [0] }

def registry : TenantRegistry :=
  { managerId := 0, single := true, directory := ∅,
    entries := fun _ => ⟨⟨"default", by decide⟩, 0, 0, .new 0⟩, entryCount := 0
    update := false, nextNamespace := 1, capacityGeneration := 0, reclaimState := 0 }

def hooks : WatermarkHooks bumpAllocator :=
  ⟨Prog.ret 0, fun _ => Prog.ret (), Quiet.ret 0, fun _ => Quiet.ret ()⟩

abbrev system : System (World bumpAllocator) ℕ (CatalogCall bumpAllocator) CatalogResult :=
    catalogSystem .default hooks

def start : RunningCatalog bumpAllocator :=
  ⟨.new pool (fun _ => true) registry, fun _ => none, []⟩

theorem reachable_start {ok : World bumpAllocator → World bumpAllocator → Prop} :
    system.ReachableVia ok start :=
  .init (World.new_new ..)

abbrev Turns := List (Machine.Turn ℕ (CatalogCall bumpAllocator))

def after (turns : Turns) : RunningCatalog bumpAllocator := system.play start turns

theorem reachable_after (turns : Turns) : system.Reachable (after turns) :=
  System.reachable_play reachable_start turns

def identity : ObjectIdentity := ⟨0, "key"⟩

def replicas : ReplicaSet bumpAllocator :=
  match reserved with
  | some (.ok reservation, _) => [⟨1, reservation⟩]
  | _ => []

def steps (t n : ℕ) : Turns := List.replicate n (.step t)

/-- A claim on the key, as far as its staging. -/
def stage : Turns :=
  .invoke 0 (.beginWrite identity (.unmanaged ⟨0, 1⟩) .insert ⟨.preserve, none, false⟩ 5) :: steps 0 8 ++
  .invoke 0 (.stage ⟨0, identity, 1, .unmanaged ⟨0, 1⟩, 5⟩ ⟨8, .general⟩ replicas none) :: steps 0 20

def write : Turns :=
  stage ++ .invoke 0 (.commit ⟨0, 0, 0, 1⟩ ⟨none⟩ 6) :: steps 0 28

def read : Turns := write ++ .invoke 0 (.get identity 10) :: steps 0 20

/-- A collector step at `now` that is to free what it can. -/
def collect (now : CatalogTick) : Turns :=
  .invoke 0 (.collectStep now ⟨4, 4, 4⟩ [⟨.any, 1⟩] false) :: steps 0 120

end Sample

theorem World.Outside.move {w w' : World A} (h : w.Outside w') (g : Ghost A) :
    Move w.view g w'.view g := by
  have hview : w'.view = { w.view with live := w'.view.live, sessions := w'.view.sessions } := by
    conv_rhs => rw [← h.owned]
    rfl
  rw [hview]
  exact .frame h.live h.sessions

def catalogOutline (cfg : CatalogConfig) (hooks : WatermarkHooks A) :
    Outline (catalogSystem cfg hooks) (Ghost A) where
  idle := Ghost.start .other
  start call := Ghost.start call.kind (call.lenient cfg)
  rel _ w g w' g' := Move w.view g w'.view g'
  post := CatalogCall.Post
  conforms _ call := call.conforms cfg hooks

end Cakemaster.Object
