import Cakemaster.Object.CatalogRuns

/-!
# Eviction safety

In every interleaving a collector step takes a committed version with a live replica off
its slot only if the version is not pinned, its lease is over, its slot has no
transaction, and it was not read since its recency mark was last cleared.
-/

namespace Cakemaster.Object

open Machine Segment Sample World

variable {A : UnitAllocator}

namespace World

/-- The version was on the slot, or off it for a while, and is now off it for good. -/
def Detaches (s : SlotRef) (v : VersionRef) (w w' : World A) : Prop :=
  (w.standing v).isAt s = true ∧ (w'.standing v).isGone = true

/-- A collector step at `now` may evict the version. -/
structure MayEvict (cfg : CatalogConfig) (now : CatalogTick) (s : SlotRef) (v : VersionRef)
    (w : World A) :
    Prop where
  hardPinned : (w.access v).hardPinned = false
  lease : w.leaseUntil v ≤ now
  softPin : (w.access v).softPinUntil ≤ now ∨ cfg.allowEvictSoftPinnedObjects = true
  idle : w.active s = none

/-- The version has been taken off the slot and its recency mark is not set. -/
def FoundUnread (s : SlotRef) (v : VersionRef) (w : World A) : Prop :=
  w.standing v = .withdrawn s ∧ (w.access v).recent = false

/-- The candidate is taken from its queue. -/
def TakesUp (c : GcCandidate) (w w' : World A) : Prop :=
  w'.eviction.hand.Perm (c :: w.eviction.hand)

def Unmarks (v : VersionRef) (w w' : World A) : Prop :=
  (w.access v).recent = true ∧ (w'.access v).recent = false

end World

/-- A collector step at `now` with these transitions has evicted what it may evict. Since
it took up the candidate it has not cleared the mark of the version: it found the mark
clear when the version was off its slot, where it stayed, so that no read of it succeeded
since the mark was last cleared. -/
def EvictsSafely (cfg : CatalogConfig) (now : CatalogTick) : List (World A × World A) → Prop :=
  AtEach fun before w w' => ∀ s v, World.Detaches s v w w' → w.HasLiveReplica v →
    w.MayEvict cfg now s v ∧ w.standing v = .withdrawn s ∧
    Since (World.TakesUp ⟨s, v⟩) (World.Unmarks v) before ∧
    Since (fun w w' => w.FoundUnread s v ∧ w'.standing v = .withdrawn s)
      (fun w w' => w.standing v ≠ .withdrawn s ∨ w'.standing v ≠ .withdrawn s) before

/-- The mark of a version that has no commit record is not set. -/
theorem World.sealed_of_recent {w : World A} (h : (w.access v).recent = true) :
    (w.view.versions v).sealed = true := by
  cases hcomm : (w.versions v).committed with
  | none => simp [access, hcomm] at h
  | some committed => simp [view, ObjectVersion.view, hcomm]

theorem Track.evictsSafely {cfg : CatalogConfig} {now : CatalogTick} {call : CatalogCall A}
    {trace : List (World A × World A)} {g : Ghost A} (h : Track call trace g)
    (hlenient : g.lenient = true → cfg.allowEvictSoftPinnedObjects = true)
    (hkind : call.kind = .collecting now) :
    EvictsSafely cfg now trace := by
  refine (h.evicted now hkind).mono fun before w w' hevicted s v hlvs hlive => ?_
  obtain ⟨hevi, hoff, hvisit, hlook⟩ := hevicted s v hlvs hlive
  refine ⟨⟨hevi.hardPinned, hevi.lease, hevi.softPin.imp_right hlenient, hevi.idle⟩, hoff, ?_, hlook⟩
  exact hvisit.mono (fun _ _ => Multiset.coe_eq_coe.mp) fun w _ hun =>
    ⟨v, sealed_of_recent hun.1, hun⟩

/-! ### Runs -/

/-- What the calls that have returned did to versions and their marks. -/
structure Evicted (cfg : CatalogConfig) (_ : View A) (gs : ℕ → Ghost A) (done : Returned A) :
    Prop where
  lenient : ∀ t, (gs t).lenient = true → cfg.allowEvictSoftPinnedObjects = true
  safe : ∀ d ∈ done, ∀ now, d.call.kind = .collecting now → EvictsSafely cfg now d.trace
  read : ∀ d ∈ done, ∀ found, d.result = .read (.ok found) →
    ∃ p ∈ d.trace, (p.2.access found.object).recent = true

theorem evicted_lasting : Lasting (A := A) cfg (fun _ _ => True) (Evicted cfg) where
  new _ := ⟨by simp [Ghost.start], by simp, by simp⟩
  invoke {u gs done t} call _ h _ := by
    refine ⟨(Function.forall_update_iff gs fun _ x => x.lenient = true → _).mpr
      ⟨?_, fun t' _ => h.lenient t'⟩, h.safe, h.read⟩
    cases call with
    | collectStep => exact id
    | _ => rintro ⟨⟩
  step {u gs done t u' x'} _ h hmove _ := by
    refine ⟨(Function.forall_update_iff gs fun _ x => x.lenient = true → _).mpr
      ⟨?_, fun t' _ => h.lenient t'⟩, h.safe, h.read⟩
    rw [hmove.lenient]
    exact h.lenient t
  finish {u gs done t call result trace} _ h hpost htrk := by
    refine ⟨(Function.forall_update_iff gs fun _ x => x.lenient = true → _).mpr ⟨by rintro ⟨⟩,
      fun t' _ => h.lenient t'⟩, List.forall_mem_cons.mpr ⟨fun now hkind => htrk.evictsSafely
      (h.lenient t) hkind, h.safe⟩, List.forall_mem_cons.mpr ⟨fun found hfnd => ?_, h.read⟩⟩
    obtain rfl : result = .read (.ok found) := hfnd
    obtain ⟨_, now, -, _, hg⟩ := hpost.eq_get
    exact htrk.noted found.object found.leaseExpiresAt (.inr (by rw [hg]; rfl))

/-- Eviction in every interleaving. -/
structure EvictionSafe (cfg : CatalogConfig) (hooks : WatermarkHooks A) (c : RunningCatalog A) :
    Prop where
  running : ∀ t r, c.threads t = some r → ∀ now budget targets watermark,
    r.call = .collectStep now budget targets watermark → EvictsSafely cfg now r.trace
  returned : ∀ d ∈ c.completed, ∀ now budget targets watermark,
    d.call = .collectStep now budget targets watermark → EvictsSafely cfg now d.trace
  -- where a version stands is what the pointers of the slots say
  published : ∀ s v, c.shared.committed s = some v ↔ c.shared.standing v = .published s
  withdrawn : ∀ s v, c.shared.standing v = .withdrawn s → c.shared.committed s = none ∧
    (c.shared.slots s).locked = true
  -- the mark of a version: every read that returns it sets it, and only collector steps clear it
  read : ∀ d ∈ c.completed, ∀ found, d.result = .read (.ok found) →
    ∃ p ∈ d.trace, (p.2.access found.object).recent = true
  cleared : ∀ c', (catalogSystem cfg hooks).Step c c' → ∀ v, (c.shared.access v).recent = true →
    (c'.shared.access v).recent = true ∨ ∃ t r now budget targets watermark,
      System.Acts c c' t r ∧ r.call = .collectStep now budget targets watermark

/-- A collector step detaches a version with a live replica only if it may be evicted. -/
theorem eviction_safe {cfg : CatalogConfig} {hooks : WatermarkHooks A}
    {c : RunningCatalog A} (hreach : (catalogSystem cfg hooks).Reachable c) :
    EvictionSafe cfg hooks c := by
  obtain ⟨gs, hghosts, hcore, hevicted⟩ := evicted_lasting.reachable hreach
  refine {
    running := fun t r hr now budget targets watermark hcall => ?_
    returned := fun d hd now budget targets watermark hcall => hevicted.safe d hd now (hcall ▸ rfl)
    published := fun s v => ⟨hcore.wellformed.committed, hcore.wellformed.published⟩
    withdrawn := fun s v hv => ⟨(hcore.wellformed.withdrawn hv).1, ?_⟩
    read := hevicted.read
    cleared := fun c' hstep v hrecent => ?_ }
  · exact (hghosts.running t r hr).2.evictsSafely (hevicted.lenient t) (hcall ▸ rfl)
  · obtain ⟨t, hf⟩ := hcore.taken hv
    exact ((hcore.sound t).lock s (hf ▸ rfl)).1
  obtain ⟨gs, hcore, -, hcases⟩ := evicted_lasting.transition hreach hstep
  rcases hcases with hsame | henv | ⟨t, r, _, _, hr, htrack, hmove, hr'⟩
  · exact .inl (hsame ▸ hrecent)
  · refine .inl ?_
    rwa [access, show c'.shared.versions v = c.shared.versions v from congrArg (·.versions v) henv.owned]
  · refine (hmove.recent_cases hcore.wellformed (sealed_of_recent hrecent) hrecent).imp_right ?_
    rintro ⟨-, now, hkind⟩
    obtain ⟨budget, targets, watermark, hcall⟩ :=
      CatalogCall.eq_collectStep_of_kind (htrack.kind.symm.trans hkind)
    exact ⟨t, r, now, budget, targets, watermark, ⟨hr, _, hr', rfl⟩, hcall⟩

set_option maxRecDepth 20000 in
/-- The second of two collector steps evicts a version whose lease is over. -/
theorem eviction_safe_evicted :
    ∃ c, system.Reachable c ∧ (∃ d ∈ c.completed, d.result = .read (.ok ⟨0, 10010⟩)) ∧
      c.shared.standing 0 = .left 10020 ∧ EvictionSafe .default hooks c := by
  have hreach := reachable_after (read ++ collect 10020 ++ collect 10020)
  exact ⟨_, hreach, by decide +kernel, by decide +kernel, eviction_safe hreach⟩

end Cakemaster.Object
