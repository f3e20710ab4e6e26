import Cakemaster.Object.Catalog

/-!
# Pruning while segments are lost

`prune_invalidated` holds the lock of the replica set, but not of the segments. It counts
the live replicas and reads the liveness of each of them once more to part them, and they
may all be lost in between: the version is then left without a replica.
-/

namespace Cakemaster.Machine.Prog

variable {σ α : Type}

/-- A run of the program in which the outside world acts before each action. -/
inductive RunsAmid (env : σ → σ → Prop) : Prog σ α → σ → α → σ → Prop
  | ret : RunsAmid env (ret a) s a s
  | act {β : Type} {b : β} {f : σ → Option (β × σ)} {k : β → Prog σ α} (henv : env s s₀)
      (h : f s₀ = some (b, s₁)) (hk : RunsAmid env (k b) s₁ a s') : RunsAmid env (act f k) s a s'
  | choose {β : Type} {usual : β} {k : β → Prog σ α} (b : β) (hk : RunsAmid env (k b) s a s') :
      RunsAmid env (choose usual k) s a s'
  | loop (h : RunsAmid env (unroll body t k) s a s') : RunsAmid env (loop body t k) s a s'

variable {β : Type} {env : σ → σ → Prop} {k : β → Prog σ α}

theorem RunsAmid.update {f : σ → β × σ} (h : RunsAmid env ((update f).bind k) s a s') :
    ∃ s₀, env s s₀ ∧ RunsAmid env (k (f s₀).1) (f s₀).2 a s' := by
  cases h with
  | act henv h hk =>
    have hstep := Option.some.inj h
    refine ⟨_, henv, ?_⟩
    rw [hstep]
    exact hk

theorem RunsAmid.read {f : σ → β} (h : RunsAmid env ((read f).bind k) s a s') :
    ∃ s₀, env s s₀ ∧ RunsAmid env (k (f s₀)) s₀ a s' := h.update

theorem RunsAmid.of_read {f : σ → β} (henv : env s s₀) (h : RunsAmid env (k (f s₀)) s₀ a s') :
    RunsAmid env ((Prog.read f).bind k) s a s' := .act henv rfl h

end Cakemaster.Machine.Prog

namespace Cakemaster.Object

open Machine Machine.Prog Segment List SegmentPool Prog RunsAmid ReplicaSet

variable {A : UnitAllocator} {kept : EntryRef → Prop} {w w' : World A} {α : Type} {a : α}
  {replicas : ReplicaSet A} {v : VersionRef}

/-- Segments may be lost, the kept ones apart, and none comes back. The versions are left
alone. -/
structure Losing (kept : EntryRef → Prop) (w w' : World A) : Prop where
  versions : w'.versions = w.versions
  lost : ∀ r, w.pool.isLive r = false → w'.pool.isLive r = false
  kept : ∀ r, kept r.entry → w.pool.isLive r = true → w'.pool.isLive r = true

theorem Losing.refl (w : World A) : Losing kept w w := ⟨rfl, fun _ => id, fun _ _ => id⟩

theorem Losing.trans (h : Losing kept w w₁) (h' : Losing kept w₁ w') : Losing kept w w' where
  versions := h'.versions.trans h.versions
  lost r hr := h'.lost r (h.lost r hr)
  kept r hk hr := h'.kept r hk (h.kept r hk hr)

theorem Losing.live (h : Losing kept w w') {r : Reservation A} (hr : w'.pool.isLive r = true) :
    w.pool.isLive r = true :=
  Bool.of_not_eq_false fun hlost => by simp [h.lost r hlost] at hr

theorem amid_everyLive {k : Bool → CatalogM A α}
    (h : RunsAmid (Losing kept) ((everyLive replicas).bind k) w a w') :
    ∃ b w₁, Losing kept w w₁ ∧ (b = false → ∃ r ∈ replicas, w₁.pool.isLive r.reservation = false) ∧
      RunsAmid (Losing kept) (k b) w₁ a w' := by
  induction replicas generalizing w with
  | nil => exact ⟨_, w, .refl w, by simp, h⟩
  | cons r rest ih =>
    rw [everyLive, bind_eq, bind_assoc] at h
    obtain ⟨w₁, hlose, h⟩ := read h
    split at h
    · obtain ⟨b, w₂, hlose', hdead, h⟩ := ih h
      refine ⟨b, w₂, hlose.trans hlose', fun hb => ?_, h⟩
      obtain ⟨r', hr', hlost⟩ := hdead hb
      exact ⟨r', mem_cons_of_mem _ hr', hlost⟩
    next hlost => exact ⟨_, w₁, hlose, fun _ => ⟨r, mem_cons_self, by simpa using hlost⟩, h⟩

theorem amid_countLive {k : ℕ → CatalogM A α}
    (h : RunsAmid (Losing kept) ((countLive replicas).bind k) w a w') :
    ∃ n w₁, Losing kept w w₁ ∧
      (n ≠ 0 → ∃ r ∈ replicas, w.pool.isLive r.reservation = true) ∧
      (n ≠ replicas.length → ∃ r ∈ replicas, w₁.pool.isLive r.reservation = false) ∧
      RunsAmid (Losing kept) (k n) w₁ a w' := by
  induction replicas generalizing w k with
  | nil => exact ⟨_, w, .refl w, by simp, by simp, h⟩
  | cons r rest ih =>
    rw [countLive, bind_eq, bind_assoc] at h
    obtain ⟨w₁, hlose, h⟩ := read h
    rw [bind_eq, bind_assoc] at h
    obtain ⟨n, w₂, hlose', hsome, hdead, h⟩ := ih h
    refine ⟨_, w₂, hlose.trans hlose', fun hn => ?_, fun hne => ?_, h⟩
    all_goals cases hlive : w₁.pool.isLive r.reservation with
      | false => ?_
      | true => ?_
    · obtain ⟨r', hr', hr⟩ := hsome (by simpa [hlive] using hn)
      exact ⟨r', mem_cons_of_mem _ hr', hlose.live hr⟩
    · exact ⟨r, mem_cons_self, hlose.live hlive⟩
    · exact ⟨r, mem_cons_self, hlose'.lost _ hlive⟩
    · rw [hlive, if_pos rfl, length_cons] at hne
      obtain ⟨r', hr', hr⟩ := hdead (by omega)
      exact ⟨r', mem_cons_of_mem _ hr', hr⟩

/-- The live and the stale part of a replica set: each in the order of the set, and both
together the set. -/
structure Parts (replicas live stale : ReplicaSet A) : Prop where
  sublist : live.Sublist replicas
  sublist' : stale.Sublist replicas
  perm : (live ++ stale).Perm replicas

variable {k : ReplicaSet A × ReplicaSet A → CatalogM A α}

theorem amid_partitionLive (h : RunsAmid (Losing kept) ((partitionLive replicas).bind k) w a w') :
    ∃ parts w₁, Losing kept w w₁ ∧ Parts replicas parts.1 parts.2 ∧
      (∀ r ∈ replicas, w.pool.isLive r.reservation = false → r ∈ parts.2) ∧
      (∀ r ∈ replicas, w₁.pool.isLive r.reservation = true → r ∈ parts.1) ∧
      RunsAmid (Losing kept) (k parts) w₁ a w' := by
  induction replicas generalizing w k with
  | nil => exact ⟨([], []), w, .refl w, ⟨.slnil, .slnil, .nil⟩, by simp, by simp, h⟩
  | cons r rest ih =>
    rw [partitionLive, bind_eq, bind_assoc] at h
    obtain ⟨w₁, hlose, h⟩ := read h
    rw [bind_eq, bind_assoc] at h
    obtain ⟨parts, w₂, hlose', ⟨hlive, hstl, hperm⟩, hdead, hleft, h⟩ := ih h
    refine ⟨_, w₂, hlose.trans hlose', ?_, ?_, ?_, h⟩
    · cases w₁.pool.isLive r.reservation with
      | true => exact ⟨hlive.cons_cons r, hstl.cons r, hperm.cons r⟩
      | false => exact ⟨hlive.cons r, hstl.cons_cons r, perm_middle.trans (hperm.cons r)⟩
    · intro r' hr' hlost
      have hlost₁ := hlose.lost _ hlost
      rcases mem_cons.mp hr' with rfl | hr'
      · simp [hlost₁]
      · have hmem := hdead r' hr' hlost₁
        split <;> simp [hmem]
    · intro r' hr' hlive
      rcases mem_cons.mp hr' with rfl | hr'
      · simp [hlose'.live hlive]
      · have hmem := hleft r' hr' hlive
        split <;> simp [hmem]

/-- The bytes of a replica set, as a number of any size. -/
def ReplicaSet.totalBytes (replicas : ReplicaSet A) : ℕ :=
  (replicas.map (·.reservation.reservedBytes)).sum

/-- What pruning leaves of a version with the given replicas. -/
structure Pruned (v : VersionRef) (replicas : ReplicaSet A) (pruned : ReplicaPrune A)
    (w' : World A) : Prop where
  nonempty : replicas ≠ [] → (w'.versions v).replicas ≠ []
  parts : ∀ stale, pruned = .mixed stale → Parts replicas (w'.versions v).replicas stale ∧
    stale ≠ [] ∧ (w'.versions v).reservedBytes = (w'.versions v).replicas.totalBytes

theorem ReplicaSet.reservedBytes_eq (hfits : replicas.totalBytes < 2 ^ 64) :
    replicas.reservedBytes = replicas.totalBytes := by
  have hsum := Word.foldl_eq_sum (w := 64) (f := Word.satAdd 64)
    (fun _ _ h => min_eq_left (Nat.le_pred_of_lt h))
    (replicas.map (·.reservation.reservedBytes)) (n := 0) (by rwa [Nat.zero_add])
  rw [reservedBytes, ← foldl_map, hsum, Nat.zero_add, totalBytes]

theorem Parts.stale_eq (h : Parts replicas [] stale) : stale = replicas :=
  h.sublist'.eq_of_length h.perm.length_eq

theorem Parts.reservedBytes_sub (h : Parts replicas live stale)
    (hfits : replicas.totalBytes < 2 ^ 64) :
    replicas.reservedBytes - ReplicaSet.reservedBytes stale = ReplicaSet.totalBytes live := by
  have hsum : ReplicaSet.totalBytes live + ReplicaSet.totalBytes stale = replicas.totalBytes := by
    rw [totalBytes, totalBytes, ← sum_append, ← map_append]
    exact (h.perm.map (·.reservation.reservedBytes)).sum_eq
  rw [reservedBytes_eq hfits, reservedBytes_eq (by omega)]
  omega

/-- All replicas may be lost between the count and the second reading: none of the live ones
is on a kept segment, and there is another segment, to be lost before the count. -/
structure Losable (kept : EntryRef → Prop) (w : World A) (replicas : ReplicaSet A) : Prop where
  lost : ∀ r ∈ replicas, w.pool.isLive r.reservation = true → ¬kept r.reservation.entry
  parted : ∃ r ∈ replicas, w.pool.isLive r.reservation = true ∧
    ∃ r' ∈ replicas, r'.reservation.entry ≠ r.reservation.entry

theorem amid_prune (hbytes : (w.versions v).reservedBytes = (w.versions v).replicas.reservedBytes)
    (hfits : (w.versions v).replicas.totalBytes < 2 ^ 64) {pruned : ReplicaPrune A}
    (hrun : RunsAmid (Losing kept) (pruneInvalidated v) w pruned w') :
    Pruned v (w.versions v).replicas pruned w' ∨
      pruned = .mixed (w.versions v).replicas ∧ Losable kept w (w.versions v).replicas := by
  -- a run that leaves the version as it is
  have hsame : ∀ {w₁ pruned'}, Losing kept w w₁ →
      RunsAmid (Losing kept) (ret pruned') w₁ pruned w' → (∀ stale, pruned' ≠ .mixed stale) →
      Pruned v (w.versions v).replicas pruned w' := by
    rintro w₁ pruned' hlosing ⟨⟩ hmixed
    refine ⟨fun hne => ?_, fun stale hstale => absurd hstale (hmixed stale)⟩
    rwa [hlosing.versions]
  rw [pruneInvalidated] at hrun
  obtain ⟨w₁, hlosing₁, hrun⟩ := read hrun
  rw [hlosing₁.versions, allLiveIn] at hrun
  split at hrun
  next hempty =>
    rw [List.isEmpty_iff] at hempty
    rw [hempty] at hrun
    exact .inl (hsame hlosing₁ hrun nofun)
  obtain ⟨_, _, hlosing₂, hsome, hrun⟩ := amid_everyLive hrun
  have hlosing := hlosing₁.trans hlosing₂
  split at hrun
  · exact .inl (hsame hlosing hrun nofun)
  next hall =>
  obtain ⟨_, _, hlosing₃, hlive, hdead, hrun⟩ := amid_countLive hrun
  have hlosing₃' := hlosing.trans hlosing₃
  split at hrun
  · exact .inl (hsame hlosing₃' hrun nofun)
  next hzero =>
  split at hrun
  · exact .inl (hsame hlosing₃' hrun nofun)
  next hn =>
  obtain ⟨parts, _, hlosing₄, hparts, hstale, hleft, hrun⟩ := amid_partitionLive hrun
  have hlosing₄' := hlosing₃'.trans hlosing₄
  rw [keepLive, bind_eq, bind_eq, Prog.bind_assoc] at hrun
  obtain ⟨_, hlosing₅, hrun⟩ := update hrun
  obtain ⟨w₆, hlosing₆, hrun⟩ := update hrun
  cases hrun
  have hfinal : ((w₆.modifyVersion v fun version => { version with replicas := parts.1 }).versions
      v) = { w.versions v with
        replicas := parts.1
        reservedBytes := (w.versions v).reservedBytes - reservedBytes parts.2 } := by
    simp [World.modifyVersion, hlosing₆.versions, (hlosing₄'.trans hlosing₅).versions]
  by_cases hnone : parts.1 = []
  · -- every replica has gone to the stale part
    right
    refine ⟨congrArg _ (hnone ▸ hparts).stale_eq, fun r hr hr₀ hkept => ?_, ?_⟩
    · have hmem := hleft r hr (hlosing₄'.kept _ hkept hr₀)
      simp [hnone] at hmem
    · obtain ⟨r, hr, hr₂⟩ := hlive hzero
      obtain ⟨r', hr', hlost⟩ := hsome (by simpa using hall)
      refine ⟨r, hr, hlosing.live hr₂, r', hr', fun hsegment => ?_⟩
      rw [SegmentPool.isLive, hsegment, ← SegmentPool.isLive, hr₂] at hlost
      cases hlost
  · left
    refine ⟨fun _ => by rwa [hfinal], ?_⟩
    rintro _ ⟨⟩
    obtain ⟨r', hr', hlost⟩ := hdead hn
    rw [hfinal]
    refine ⟨hparts, ne_nil_of_mem (hstale r' hr' hlost), ?_⟩
    rw [hbytes]
    exact hparts.reservedBytes_sub hfits

theorem Pruned.not_all {pruned : ReplicaPrune A} (h : Pruned v replicas pruned w') :
    pruned ≠ .mixed replicas := by
  intro hmixed
  obtain ⟨hparts, hne, -⟩ := h.parts _ hmixed
  have hlength := hparts.perm.length_eq
  rw [length_append, Nat.add_eq_right, length_eq_zero_iff] at hlength
  exact h.nonempty hne hlength

/-! ### A schedule that loses them all -/

/-- All segments but those to keep may be lost at once. -/
theorem exists_losing (keep : EntryRef → Prop)
    (hkeep : ∀ r : Reservation A, kept r.entry → w.pool.isLive r = true → keep r.entry) :
    ∃ w₁, Losing kept w w₁ ∧ w₁.pool.entries.length = w.pool.entries.length ∧
      ∀ r, r.entry < w.pool.entries.length →
        (w₁.pool.isLive r = true ↔ keep r.entry ∧ w.pool.isLive r = true) := by
  classical
  let lose (ref : EntryRef) (e : SegmentEntry A) :=
    if keep ref then e else { e with lifetime := { e.lifetime with live := false } }
  let pool := { w.pool with entries := w.pool.entries.mapIdx lose }
  have hlive : ∀ r, r.entry < w.pool.entries.length →
      (pool.isLive r = true ↔ keep r.entry ∧ w.pool.isLive r = true) := by
    intro r hr
    by_cases hkept : keep r.entry <;> simp [pool, lose, SegmentPool.isLive, hr, hkept]
  have hbeyond : ∀ r, ¬r.entry < w.pool.entries.length → pool.isLive r = w.pool.isLive r := by
    intro r hr
    simp [pool, SegmentPool.isLive, hr]
  refine ⟨{ w with pool := pool }, ⟨rfl, fun r hlost => ?_, fun r hkept hr => ?_⟩,
    length_mapIdx, hlive⟩
  all_goals by_cases hlt : r.entry < w.pool.entries.length
  · exact Bool.of_not_eq_true fun hr => by simp [((hlive r hlt).mp hr).2] at hlost
  · exact (hbeyond r hlt).trans hlost
  · exact (hlive r hlt).mpr ⟨hkeep r hkept hr, hr⟩
  · exact (hbeyond r hlt).trans hr

theorem amid_everyLive_false {k : Bool → CatalogM A α}
    (hlost : ∃ r ∈ replicas, w.pool.isLive r.reservation = false)
    (h : RunsAmid (Losing kept) (k false) w a w') :
    RunsAmid (Losing kept) ((everyLive replicas).bind k) w a w' := by
  induction replicas with
  | nil => simp at hlost
  | cons r rest ih =>
    rw [everyLive, bind_eq, Prog.bind_assoc]
    refine .of_read (.refl w) ?_
    cases hr : w.pool.isLive r.reservation with
    | false => exact h
    | true => exact ih (by simpa [hr] using hlost)

theorem amid_countLive_eq {k : ℕ → CatalogM A α}
    (h : RunsAmid (Losing kept) (k (replicas.countP (w.pool.isLive ·.reservation))) w a w') :
    RunsAmid (Losing kept) ((countLive replicas).bind k) w a w' := by
  induction replicas generalizing k with
  | nil => exact h
  | cons r rest ih =>
    rw [countLive, bind_eq, Prog.bind_assoc]
    refine .of_read (.refl w) ?_
    rw [bind_eq, Prog.bind_assoc]
    refine ih ?_
    rwa [countP_cons, Nat.add_comm] at h

theorem amid_partitionLive_lost (hne : replicas ≠ []) (hlosing : Losing kept w w₁)
    (hlost : ∀ r ∈ replicas, w₁.pool.isLive r.reservation = false)
    (h : RunsAmid (Losing kept) (k ([], replicas)) w₁ a w') :
    RunsAmid (Losing kept) ((partitionLive replicas).bind k) w a w' := by
  induction replicas generalizing w k with
  | nil => exact absurd rfl hne
  | cons r rest ih =>
    obtain ⟨hr, hlost⟩ := forall_mem_cons.mp hlost
    rw [partitionLive, bind_eq, Prog.bind_assoc]
    refine .of_read hlosing ?_
    rw [bind_eq, Prog.bind_assoc, hr]
    rcases eq_or_ne rest [] with rfl | hrest
    · exact h
    · exact ih hrest (.refl w₁) hlost h

theorem Losable.run (h : Losable kept w (w.versions v).replicas)
    (hentries : ∀ r ∈ (w.versions v).replicas, r.reservation.entry < w.pool.entries.length) :
    ∃ w', RunsAmid (Losing kept) (pruneInvalidated v) w (.mixed (w.versions v).replicas) w' := by
  obtain ⟨r, hr, hlive, r', hr', hne⟩ := h.parted
  -- the segment of the other replica first, and after the count all the rest
  obtain ⟨w₁, hlosing₁, hlength, hlive₁⟩ := @exists_losing A kept w
    (· ≠ r'.reservation.entry) fun r₀ hkept hr₀ hsegment => by
      rw [SegmentPool.isLive, hsegment, ← SegmentPool.isLive] at hr₀
      exact h.lost r' hr' hr₀ (hsegment ▸ hkept)
  obtain ⟨w₂, hlosing₂, -, hlive₂⟩ := exists_losing (w := w₁) kept fun _ hkept _ => hkept
  have hlost₁ : w₁.pool.isLive r'.reservation = false :=
    Bool.of_not_eq_true fun hr₁ => ((hlive₁ _ (hentries r' hr')).mp hr₁).1 rfl
  have hr₁ := (hlive₁ _ (hentries r hr)).mpr ⟨hne.symm, hlive⟩
  have hlost₂ : ∀ r ∈ (w.versions v).replicas, w₂.pool.isLive r.reservation = false := by
    refine fun r hr => Bool.of_not_eq_true fun hr₂ => ?_
    obtain ⟨hkept, -⟩ := (hlive₂ _ (by simpa [hlength] using hentries r hr)).mp hr₂
    exact h.lost r hr ((hlosing₁.trans hlosing₂).live hr₂) hkept
  have hne := ne_nil_of_mem hr
  apply Exists.intro
  apply of_read hlosing₁
  rw [hlosing₁.versions, allLiveIn, if_neg (by simpa using hne)]
  apply amid_everyLive_false ⟨r', hr', hlost₁⟩
  apply amid_countLive_eq
  rw [if_neg, if_neg]
  · apply amid_partitionLive_lost hne hlosing₂ hlost₂
    exact .act (.refl _) rfl (.act (.refl _) rfl .ret)
  · intro hcount
    simp [countP_eq_length.mp hcount r' hr'] at hlost₁
  · intro hcount
    exact countP_eq_zero.mp hcount r hr hr₁

/-- Pruning fails where the second reading finds no live replica, and the losses that allow
that are just the ones that may take all live replicas. -/
theorem prune_leaves_live
    (hbytes : (w.versions v).reservedBytes = (w.versions v).replicas.reservedBytes)
    (hfits : (w.versions v).replicas.totalBytes < 2 ^ 64)
    (hentries : ∀ r ∈ (w.versions v).replicas, r.reservation.entry < w.pool.entries.length) :
    (∀ pruned w', RunsAmid (Losing kept) (pruneInvalidated v) w pruned w' →
      (Pruned v (w.versions v).replicas pruned w' ↔ pruned ≠ .mixed (w.versions v).replicas)) ∧
    ((∃ pruned w', RunsAmid (Losing kept) (pruneInvalidated v) w pruned w' ∧
      ¬Pruned v (w.versions v).replicas pruned w') ↔ Losable kept w (w.versions v).replicas) := by
  refine ⟨fun pruned w' hrun => ⟨Pruned.not_all, fun hmixed => ?_⟩, ?_, fun h => ?_⟩
  · exact (amid_prune hbytes hfits hrun).resolve_right fun h => hmixed h.1
  · rintro ⟨pruned, w', hrun, hpruned⟩
    exact ((amid_prune hbytes hfits hrun).resolve_left hpruned).2
  · obtain ⟨w', hrun⟩ := h.run hentries
    exact ⟨_, w', hrun, fun h => h.not_all rfl⟩

namespace Sample

/-- A version with replicas on two segments, of which the second one is lost. -/
def parting (live : Bool) : World bumpAllocator :=
  let w := World.new { pool with entries := pool.entries.flatMap fun e =>
    [{ e with lifetime := ⟨live, 1⟩ }, { e with lifetime := ⟨false, 1⟩ }] } (fun _ => true) registry
  { w with versions := fun _ => { w.versions 0 with
      replicas := Sample.replicas ++ Sample.replicas.map fun r => ⟨2, { r.reservation with entry := 1 }⟩
      reservedBytes := 16 } }

/-- The first one may be lost when the live replicas have been counted. -/
theorem runs_parting {kept : EntryRef → Prop} {live : Bool}
    (h : Losing kept (parting true) (parting live)) :
    ∃ pruned w', RunsAmid (Losing kept) (pruneInvalidated 0) (parting true) pruned w' ∧
      (w'.versions 0).replicas.length = live.toNat := by
  refine ⟨_, _, .act (.refl _) rfl <| .act (.refl _) rfl <| .act (.refl _) rfl <| .act (.refl _) rfl
    <| .act (.refl _) rfl <| .act h rfl <| .act (.refl _) rfl <| .act (.refl _) rfl <|
    .act (.refl _) rfl .ret, ?_⟩
  cases live <;> rfl

end Sample

open Sample

theorem prune_leaves_live_one : ∃ pruned w',
    RunsAmid (Losing (· = 0)) (pruneInvalidated 0) (parting true) pruned w' ∧
      Pruned 0 ((parting true).versions 0).replicas pruned w' := by
  obtain ⟨pruned, w', hrun, -⟩ := runs_parting (.refl (parting true))
  have hleaves := @prune_leaves_live bumpAllocator (· = 0) (parting true) 0 rfl
    (by decide +kernel) (by decide +kernel)
  refine ⟨pruned, w', hrun, not_not.mp fun h => ?_⟩
  exact (hleaves.2.mp ⟨pruned, w', hrun, h⟩).lost _ mem_cons_self rfl rfl

/-- Both replicas are lost in the end, and the version keeps none. -/
theorem prune_leaves_none : ((parting true).versions 0).reservedBytes = 16 ∧ ∃ pruned w',
    RunsAmid (Losing fun _ => False) (pruneInvalidated 0) (parting true) pruned w' ∧
      ¬Pruned 0 ((parting true).versions 0).replicas pruned w' := by
  have hlosing : Losing (fun _ => False) (parting true) (parting false) := by
    refine ⟨rfl, fun r hr => ?_, fun _ h => h.elim⟩
    obtain ⟨_ | _ | _, _, _, _⟩ := r
    · cases hr
    · rfl
    · cases hr
  obtain ⟨pruned, w', hrun, hlength⟩ := runs_parting hlosing
  exact ⟨rfl, pruned, w', hrun, fun h => h.nonempty nofun (length_eq_zero_iff.mp hlength)⟩

end Cakemaster.Object
