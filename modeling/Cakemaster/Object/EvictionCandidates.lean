import Cakemaster.Object.CatalogRuns

/-!
# Candidates for eviction

A committed version is found by eviction and by the liveness sweep through its candidate.
A collector drops a candidate when it finds its version off the slot, but a removal that
meets a late lease puts the version back. Candidates are kept exactly as long as no
version is put back after its candidate has been dropped.
-/

namespace Cakemaster.Object

open Machine Segment Function Multiset View World

variable {A : UnitAllocator} {x x' : Ghost A} {u u' : View A} {gs : ℕ → Ghost A} {t : ℕ}
  {c : GcCandidate}

/-- Versions that are put back on their slot still have their candidate. -/
def View.RestoresListed (u u' : View A) : Prop :=
  ∀ s < u.slotCount, ∀ v < u.versionCount, u.standing v = .withdrawn s →
    u'.standing v = .published s → ⟨s, v⟩ ∈ u.candidates

instance : DecidableRel (View.RestoresListed (A := A)) := fun u u' =>
  inferInstanceAs (Decidable (∀ s < u.slotCount, ∀ v < u.versionCount, u.standing v = .withdrawn s →
    u'.standing v = .published s → (⟨s, v⟩ : GcCandidate) ∈ u.candidates))

/-! ### What one move does to candidates -/

/-- The moves by which candidates change hands. -/
inductive Handles (u : View A) (x : Ghost A) (u' : View A) (x' : Ghost A) : Prop
  | same (hqd : u'.queued = u.queued) (hhand : u'.hand = u.hand) (hx : x'.hand = x.hand)
  | publish (s : SlotRef) (v : VersionRef) (hstg : (u.standing v).isYoung = true)
      (hnone : x.hand = none) (hx : x'.hand = some ⟨s, v⟩) (hqd : u'.queued = u.queued)
      (hhand : u'.hand = ⟨s, v⟩ ::ₘ u.hand) (hpub : (u'.standing v).isYoung = false)
  | pop (c : GcCandidate) (hnone : x.hand = none) (hx : x'.hand = some c)
      (hqd : u.queued = c ::ₘ u'.queued) (hhand : u'.hand = c ::ₘ u.hand)
  | push (c : GcCandidate) (hsome : x.hand = some c) (hx : x'.hand = none)
      (hqd : u'.queued = c ::ₘ u.queued) (hhand : u'.hand = u.hand.erase c)
  | drop (c : GcCandidate) (hsome : x.hand = some c) (hx : x'.hand = none)
      (hqd : u'.queued = u.queued) (hhand : u'.hand = u.hand.erase c)
      (hstl : u'.standing c.version ≠ .published c.slot)

theorem Move.handles (hu : u.Wellformed) (hx : x.Sound u) (h : Move u x u' x') :
    Handles u x u' x' := by
  cases h with
  | @publish s a v _ hf hnone =>
    obtain ⟨⟨hactv, hph, -⟩, -⟩ := hx.holds hf
    have hstg := (hu.staged hactv hph).1
    refine .publish s v (hstg ▸ rfl) hnone rfl rfl rfl ?_
    change ((((u.setSlot s _).detach a.base).setStanding v (.published s)).standing v).isYoung = false
    rw [standing_setStanding_self]
    rfl
  | pop _ hnone hqd => exact .pop _ hnone rfl hqd rfl
  | push hsome => exact .push _ hsome rfl rfl rfl
  | @drop c hsome hstl =>
    refine .drop c hsome rfl rfl rfl fun hpub => ?_
    have hcomm := hu.published hpub
    rcases hstl with hne | hgone | hrcl
    · exact hne hcomm
    · simp [hu.used (.inl (hcomm ▸ Option.some_ne_none c.version))] at hgone
    · have hpub : (u.versions c.version).standing = .published c.slot := hpub
      rcases (hu.sane c.version).reclaimed hrcl with h | h <;> rw [hpub] at h <;> cases h
  | @departEvicted s v now hf _ hhand =>
    refine .drop ⟨s, v⟩ hhand rfl rfl rfl ?_
    change (u.setStanding v (.left now)).standing v ≠ .published s
    rw [standing_setStanding_self]
    exact nofun
  | @lose s v _ now hf hhand =>
    refine .drop ⟨s, v⟩ hhand rfl rfl rfl ?_
    change ((u.setCommitted s none).setStanding v .lost).standing v ≠ .published s
    rw [standing_setStanding_self]
    exact nofun
  | _ => exact .same rfl rfl rfl

section

variable (h : Handles u x u' x')
include h

/-- A candidate stays in a queue or a hand as long as its version is on its slot. -/
theorem Handles.mem_candidates (hc : c ∈ u.candidates)
    (hpub : u'.standing c.version = .published c.slot) : c ∈ u'.candidates := by
  unfold View.candidates at hc ⊢
  cases h with
  | same hqd hhand => rwa [hqd, hhand]
  | publish s v _ _ _ hqd hhand =>
    rw [hqd, hhand, add_cons]
    exact mem_cons_of_mem hc
  | pop d _ _ hqd hhand =>
    rw [hqd, cons_add] at hc
    rwa [hhand, add_cons]
  | push d _ _ hqd hhand =>
    rw [hqd, hhand, cons_add, mem_cons]
    by_cases hd : c = d
    · exact .inl hd
    · rw [mem_add, mem_erase_of_ne hd]
      exact .inr (mem_add.mp hc)
  | drop d _ _ hqd hhand hstl =>
    have hd : c ≠ d := by
      rintro rfl
      exact hstl hpub
    rw [hqd, hhand, mem_add, mem_erase_of_ne hd]
    exact mem_add.mp hc

/-- No candidate is made but by a commit, for a version that was not published before. -/
theorem Handles.candidates_cases (hheld : ∀ c, x.hand = some c → c ∈ u.hand) :
    u'.candidates ≤ u.candidates ∨ ∃ s v, (u.standing v).isYoung = true ∧
      (u'.standing v).isYoung = false ∧ u'.candidates = ⟨s, v⟩ ::ₘ u.candidates := by
  unfold View.candidates
  cases h with
  | same hqd hhand => exact .inl (by rw [hqd, hhand])
  | publish s v hstg _ _ hqd hhand hpub =>
    exact .inr ⟨s, v, hstg, hpub, by rw [hqd, hhand, add_cons]⟩
  | pop c _ _ hqd hhand => exact .inl (by rw [hqd, hhand, cons_add, add_cons])
  | push c hsome _ hqd hhand =>
    left
    rw [hqd, hhand, cons_add, ← add_cons, cons_erase (hheld c hsome)]
  | drop c _ _ hqd hhand =>
    left
    rw [hqd, hhand]
    exact Multiset.add_le_add_left (Multiset.erase_le c u.hand)

/-- What a call newly has in hand no call had in hand. -/
theorem Handles.hand_new (hnd : u.candidates.Nodup)
    (hborn : ∀ c ∈ u.candidates, (u.standing c.version).isYoung = false) (hc : x'.hand = some c) :
    c ∈ u'.hand ∧ (x.hand = some c ∨ c ∉ u.hand) ∨ x.hand = some c ∧ u'.hand = u.hand := by
  cases h with
  | same _ hhand hx => exact .inr ⟨hx ▸ hc, hhand⟩
  | publish s v hstg _ hx _ hhand =>
    cases hx.symm.trans hc
    refine .inl ⟨by simp [hhand], .inr fun hmem => ?_⟩
    have hyoung := hborn _ (mem_add.mpr (.inr hmem))
    exact Bool.false_ne_true (hyoung.symm.trans hstg)
  | pop d _ hx hqd hhand =>
    cases hx.symm.trans hc
    refine .inl ⟨by simp [hhand], .inr fun hmem => ?_⟩
    rw [View.candidates, hqd, cons_add, nodup_cons] at hnd
    exact hnd.1 (mem_add.mpr (.inr hmem))
  | push _ _ hx | drop _ _ hx => cases hx.symm.trans hc

/-- What is in the hand of another call stays there. -/
theorem Handles.mem_hand (hc : c ∈ u.hand) (hoth : x.hand ≠ some c) : c ∈ u'.hand := by
  cases h with
  | same _ hhand => rwa [hhand]
  | publish _ _ _ _ _ _ hhand | pop _ _ _ _ hhand =>
    rw [hhand]
    exact mem_cons_of_mem hc
  | push d hsome _ _ hhand | drop d hsome _ _ hhand =>
    rw [hhand, mem_erase_of_ne]
    · exact hc
    · rintro rfl
      exact hoth hsome

end

/-! ### Runs -/

/-- Every candidate is in one place, and those in hand are in the hand of a call. -/
structure Held (u : View A) (gs : ℕ → Ghost A) (_ : Returned A) : Prop where
  nodup : u.candidates.Nodup
  born : ∀ c ∈ u.candidates, (u.standing c.version).isYoung = false
  owned : ∀ c ∈ u.hand, ∃ t, (gs t).hand = some c
  held : ∀ t c, (gs t).hand = some c → c ∈ u.hand
  single : ∀ t t' c, (gs t).hand = some c → (gs t').hand = some c → t = t'

namespace Held

variable {done : Returned A}

theorem hand_nodup (h : Held u gs done) : u.hand.Nodup := (nodup_add.mp h.nodup).2.1

theorem step_owned (h : Held u gs done) (hhdl : Handles u (gs t) u' x') (hc : c ∈ u'.hand) :
    ∃ t', (update gs t x' t').hand = some c := by
  have hkept : c ∈ u.hand → (gs t).hand ≠ some c ∨ x'.hand = some c →
      ∃ t', (update gs t x' t').hand = some c := by
    intro hmem hkp
    refine (exists_update (·.hand = some c) (h.owned c hmem) fun ht => .inl ?_).resolve_right id
    exact hkp.resolve_left (absurd ht)
  cases hhdl with
  | same _ hhand hx =>
    by_cases hself : (gs t).hand = some c
    · exact hkept (hhand ▸ hc) (.inr (hx.trans hself))
    · exact hkept (hhand ▸ hc) (.inl hself)
  | publish _ _ _ hnone hx _ hhand | pop _ hnone hx _ hhand =>
    rw [hhand] at hc
    rcases mem_cons.mp hc with rfl | hc
    · exact exists_update_self (·.hand = some _) hx
    · exact hkept hc (.inl (by simp [hnone]))
  | push d hsome _ _ hhand | drop d hsome _ _ hhand =>
    rw [hhand] at hc
    refine hkept (mem_of_mem_erase hc) (.inl fun hself => ?_)
    cases hsome.symm.trans hself
    exact h.hand_nodup.notMem_erase hc

theorem step (hcore : Core u gs) (h : Held u gs done) (hmove : Move u (gs t) u' x') :
    Held u' (update gs t x') done := by
  have hhdl := hmove.handles hcore.wellformed (hcore.sound t)
  have hrely := hcore.rely hmove
  have hborn : ∀ v, (u.standing v).isYoung = false → (u'.standing v).isYoung = false :=
    fun v => (hrely.versions v).grown
  have hnew := fun {c} => hhdl.hand_new h.nodup h.born (c := c)
  have hcand := hhdl.candidates_cases (h.held t)
  have hheld : ∀ t' c, (update gs t x' t').hand = some c → c ∈ u'.hand := by
    refine (forall_update_iff gs fun _ x => ∀ c, x.hand = some c → c ∈ u'.hand).mpr
      ⟨fun c hc => ?_, fun t' hne c hc => ?_⟩
    · rcases hnew hc with ⟨hmem, -⟩ | ⟨hold, hhand⟩
      · exact hmem
      · exact hhand ▸ h.held t c hold
    · exact hhdl.mem_hand (h.held t' c hc) fun hself => hne (h.single t' t c hc hself)
  refine ⟨?_, fun c hc => ?_, fun c hc => h.step_owned hhdl hc, hheld,
    unique_update (·.hand) h.single fun c hc => ?_⟩
  · rcases hcand with hle | ⟨s, v, hyoung, -, heq⟩
    · exact nodup_of_le hle h.nodup
    · rw [heq, nodup_cons]
      exact ⟨fun hmem => Bool.false_ne_true ((h.born _ hmem).symm.trans hyoung), h.nodup⟩
  · rcases hcand with hle | ⟨s, v, -, hpub, heq⟩
    · exact hborn _ (h.born c (mem_of_le hle hc))
    · rw [heq] at hc
      rcases mem_cons.mp hc with rfl | hc
      · exact hpub
      · exact hborn _ (h.born c hc)
  · rcases hnew hc with ⟨-, hold | hnot⟩ | ⟨hold, -⟩
    · exact .inl hold
    · exact .inr fun t' hc' => hnot (h.held t' c hc')
    · exact .inl hold

end Held

/-- Published versions have candidates. -/
structure Listing (u : View A) (gs : ℕ → Ghost A) (done : Returned A) :
    Prop extends Held u gs done where
  kept : ∀ s v, u.standing v = .published s → ⟨s, v⟩ ∈ u.candidates

theorem Held.restart (h : Held u gs done) (hrest : (gs t).hand = none) (hrest' : x'.hand = none)
    (done' : Returned A) : Held u (update gs t x') done' where
  nodup := h.nodup
  born := h.born
  owned c hc := exists_update_of_not (·.hand = some c) (h.owned c hc) (by simp [hrest])
  held := (forall_update_iff gs fun _ x => ∀ c, x.hand = some c → c ∈ u.hand).mpr
    ⟨by simp [hrest'], fun t' _ => h.held t'⟩
  single := unique_update (·.hand) h.single (by simp [hrest'])

theorem listing_lasting : Lasting (A := A) cfg View.RestoresListed Listing where
  new {w} hw := by
    have hnone : w.view.candidates = 0 := by simp [View.candidates, view, hw.eviction]
    have hhand : w.view.hand = 0 := by simp [view, hw.eviction]
    refine ⟨⟨by simp [hnone], by simp [hnone], by simp [hhand], by rintro _ _ ⟨⟩, by rintro _ _ _ ⟨⟩⟩,
      fun s v hv => ?_⟩
    cases (hw.versions v).1.symm.trans hv
  invoke call _ h hidle := ⟨h.restart (by rw [hidle]; rfl) rfl _, h.kept⟩
  step {u gs done t u' x'} hcore h hmove hok := by
    have hhdl := hmove.handles hcore.wellformed (hcore.sound t)
    have hheld := h.toHeld.step hcore hmove
    refine ⟨hheld, fun s v hv => ?_⟩
    rcases hmove.standing_cases v with hsame | hturn
    · exact hhdl.mem_candidates (h.kept s v (hsame ▸ hv)) hv
    rw [hv] at hturn
    cases hturn with
    | publish _ _ hhand =>
      refine mem_add.mpr (.inr (hheld.held t _ ?_))
      rwa [update_self]
    | restore hf =>
      have hwd : u.standing v = .withdrawn s := (hcore.sound t).holds hf
      have hslot := ((hcore.sound t).lock s (hf ▸ rfl)).2.1
      have hver : v < u.versionCount := by
        by_contra hle
        cases (hcore.wellformed.unborn (not_lt.mp hle)).1.symm.trans hwd
      exact hhdl.mem_candidates (hok s hslot v hver hwd hv) hv
  finish _ h hpost _ := ⟨h.restart (CatalogCall.Post.atRest hpost).hand rfl _, h.kept⟩

/-- The candidate is in one of the eviction queues, or in the hand of a running call. -/
def World.Lists (w : World A) (c : GcCandidate) : Prop :=
  c ∈ w.eviction.young ∨ c ∈ w.eviction.protectedQueue ∨ c ∈ w.eviction.hand

theorem World.mem_candidates {w : World A} : c ∈ w.view.candidates ↔ w.Lists c := by
  simp [View.candidates, view, World.Lists]

/-- Candidates in a configuration. -/
structure CandidatesKept (c : RunningCatalog A) : Prop where
  listed : ∀ s v, c.shared.committed s = some v → c.shared.Lists ⟨s, v⟩
  inHand : ∀ candidate ∈ c.shared.eviction.hand, ∃ t r, c.threads t = some r ∧
    ((∃ transaction content now, r.call = .commit transaction content now) ∨
      ∃ now budget targets watermark, r.call = .collectStep now budget targets watermark) ∧
    Since (onViews (View.TakesCandidate candidate)) (onViews (View.PutsCandidate candidate)) r.trace

theorem candidatesKept_of_reachable {cfg : CatalogConfig} {hooks : WatermarkHooks A}
    {c : RunningCatalog A}
    (hrch : (catalogSystem cfg hooks).ReachableVia (onViews View.RestoresListed) c) :
    CandidatesKept c := by
  obtain ⟨_, hgh, hcore, hlisting⟩ := listing_lasting.reachable hrch
  refine ⟨fun s v hv => mem_candidates.mp (hlisting.kept s v (hcore.wellformed.committed hv)), ?_⟩
  intro candidate hmem
  obtain ⟨t, hhand⟩ := hlisting.owned candidate (mem_coe.mpr hmem)
  obtain ⟨r, hr, htrk⟩ :=
    hgh.exists_running (t := t) (by rintro h; simp [h, catalogOutline, Ghost.start] at hhand)
  refine ⟨t, r, hr, ?_, htrk.hand candidate hhand⟩
  rcases (hcore.fitting t).hand (by simp [hhand]) with ⟨s, _, hkind⟩ | ⟨now, hkind⟩
  · obtain ⟨transaction, content, now, hcall, -⟩ :=
      CatalogCall.eq_commit_of_kind (htrk.kind.symm.trans hkind)
    exact .inl ⟨transaction, content, now, hcall⟩
  · exact .inr ⟨now, CatalogCall.eq_collectStep_of_kind (htrk.kind.symm.trans hkind)⟩

/-- A version that comes back to its slot had its candidate before if it has it now. -/
theorem Held.mem_of_restored (hcore : Core u gs) (h : Held u gs done)
    (hmove : Move u (gs t) u' x') (hwd : u.standing v = .withdrawn s)
    (hmem : ⟨s, v⟩ ∈ u'.candidates) : ⟨s, v⟩ ∈ u.candidates := by
  rcases (hmove.handles hcore.wellformed (hcore.sound t)).candidates_cases
    (h.held t) with hle | ⟨_, _, hyoung, -, heq⟩
  · exact mem_of_le hle hmem
  · rw [heq] at hmem
    rcases mem_cons.mp hmem with hsame | hmem
    · cases hsame
      rw [hwd] at hyoung
      cases hyoung
    · exact hmem

/-- Committed versions keep their candidates exactly as long as every version that is
put back on its slot still has one. -/
theorem candidates_kept_iff {cfg : CatalogConfig} {hooks : WatermarkHooks A}
    {c c' : RunningCatalog A}
    (hreach : (catalogSystem cfg hooks).ReachableVia (onViews View.RestoresListed) c)
    (hstep : (catalogSystem cfg hooks).Step c c') :
    CandidatesKept c ∧ (CandidatesKept c' ↔ onViews View.RestoresListed c.shared c'.shared) := by
  refine ⟨candidatesKept_of_reachable hreach, fun hkept s _ v _ hwithdrawn hpublished => ?_,
    fun hok => candidatesKept_of_reachable (.step hreach hstep hok)⟩
  obtain ⟨_, -, hcore'⟩ := exists_core (.step hreach.reachable hstep trivial)
  have hmem := mem_candidates.mpr (hkept.listed s v (hcore'.wellformed.published hpublished))
  obtain ⟨gs, hcore, hlisting, hcases⟩ := listing_lasting.transition hreach hstep
  rcases hcases with hsame | henv | ⟨_, _, _, _, -, -, hmove, -⟩
  · rw [hsame] at hpublished
    cases hwithdrawn.symm.trans hpublished
  · exact hlisting.toHeld.mem_of_restored hcore (henv.move (gs 0)) hwithdrawn hmem
  · exact hlisting.toHeld.mem_of_restored hcore hmove hwithdrawn hmem

/-! ### A lost candidate -/

namespace Sample

/-- A read has seen the committed version when a removal takes it off its slot; the read
then raises the lease. -/
def withdrawal : Turns :=
  write ++ .invoke 2 (.get identity 10) :: steps 2 3 ++ .invoke 1
    (.remove identity 10 false) :: steps 1 8 ++ steps 2 12

/-- Meanwhile a collector step drops the version's candidate, and the removal puts the
version back. -/
def lostCandidate : Turns :=
  withdrawal ++ .invoke 3 (.collectStep 10 ⟨4, 4, 4⟩ [⟨.any, 1⟩] false) :: steps 3 60 ++ steps 1 12

end Sample

open Sample

set_option maxRecDepth 20000 in
/-- A removal, a read and a collector step leave a committed version without candidate,
when the removal and the collector step have returned. -/
theorem candidates_kept_fails :
    ∃ c, system.Reachable c ∧ c.threads 1 = none ∧ c.threads 3 = none ∧
      c.shared.committed 0 = some 0 ∧ c.shared.indexed 0 = true ∧
      c.shared.eviction = ⟨[], [], [], []⟩ ∧ ¬CandidatesKept c := by
  refine ⟨after lostCandidate, reachable_after _,
    by decide +kernel, by decide +kernel, by decide +kernel, by decide +kernel, by decide +kernel,
    fun hkept => ?_⟩
  have hempty : (after lostCandidate).shared.eviction = ⟨[], [], [], []⟩ := by decide +kernel
  have hlisted := hkept.listed 0 0 (by decide +kernel)
  simp [World.Lists, hempty] at hlisted

set_option maxRecDepth 20000 in
/-- A removal that puts its version back before a collector step comes keeps the candidate. -/
theorem candidates_kept_iff_restored :
    ∃ c c', system.ReachableVia (onViews View.RestoresListed) c ∧ system.Step c c' ∧
      c.shared.standing 0 = .withdrawn 0 ∧ c'.shared.standing 0 = .published 0 ∧ CandidatesKept c ∧
      (CandidatesKept c' ↔ onViews View.RestoresListed c.shared c'.shared) := by
  have hreach : system.ReachableVia (onViews View.RestoresListed)
      (after (withdrawal ++ steps 1 1)) :=
    System.reachableVia_play reachable_start _ (by decide +kernel)
  have hbefore : (after (withdrawal ++ steps 1 1)).shared.standing 0 = .withdrawn 0 := by
    decide +kernel
  have hafter : (system.turn (after (withdrawal ++ steps 1 1)) (.step 1)).shared.standing 0 =
      .published 0 := by decide +kernel
  rcases system.turn_cases _ (.step 1) with hsame | hstep
  · rw [hsame] at hafter
    cases hbefore.symm.trans hafter
  · exact ⟨_, _, hreach, hstep, hbefore, hafter, candidates_kept_iff hreach hstep⟩

end Cakemaster.Object
