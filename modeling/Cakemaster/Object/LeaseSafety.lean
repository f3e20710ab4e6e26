import Cakemaster.Object.CatalogRuns

/-!
# Leases are kept

A read that returns a version with a lease keeps the version's reservations from every
reclamation before the lease is over, whatever becomes of the version meanwhile.
-/

namespace Cakemaster.Object

open Machine Segment Sample

variable {A : UnitAllocator}

/-- A reservation was given back for a reason that holds for good. -/
def View.Justified (u : View A) (r : Release A) : Prop :=
  r.live = false ∨ u.standing r.version = .forced ∨
    ∃ reclaimAfter ≤ r.now, u.standing r.version = .left reclaimAfter

/-- Reservations are given back for a reason, and returned leases are in force. -/
structure Leased (u : View A) (_ : ℕ → Ghost A) (done : Returned A) : Prop where
  released : ∀ r ∈ u.released, u.Justified r
  safe : ∀ d ∈ done, ∀ found, d.result = .read (.ok found) →
    (u.versions found.object).Safe found.leaseExpiresAt

variable {u u' : View A}

theorem View.Justified.stable {x : Ghost A} {r : Release A} (hrely : Rely x u u')
    (h : u.Justified r) : u'.Justified r := by
  rcases h with hdead | hfcd | ⟨reclaimAfter, hle, hleft⟩
  · exact .inl hdead
  · exact .inr (.inl ((hrely.standing_of_settled (hfcd ▸ rfl)).trans hfcd))
  · exact .inr (.inr ⟨reclaimAfter, hle, (hrely.standing_of_settled (hleft ▸ rfl)).trans hleft⟩)

theorem Move.released_cases {x x' : Ghost A} (hx : x.Sound u) (h : Move u x u' x') {r : Release A}
    (hr : r ∈ u'.released) : r ∈ u.released ∨ u.Justified r := by
  cases h with
  | @release now live group _ hgroup =>
    refine (List.mem_append.mp hr).imp_right fun hr => ?_
    obtain ⟨⟨v, k⟩, hmem, rfl⟩ := List.mem_map.mp hr
    rcases hgroup (v, k) hmem with hdead | hbat
    · exact .inl (hx.dead k hdead)
    · exact hx.batch _ hbat
  | _ => exact .inl hr

theorem leased_lasting : Lasting (A := A) cfg (fun _ _ => True) Leased where
  new {w} hw := by
    refine ⟨?_, by simp⟩
    simp [World.view, hw.history]
  invoke _ _ h _ := ⟨h.released, h.safe⟩
  step {u gs done t u' x'} hcore h hmove _ := by
    have hrely := hcore.rely hmove
    refine ⟨fun r hr => ?_, fun d hd found hfnd => (hrely.versions _).safe _ (h.safe d hd found hfnd)⟩
    rcases hmove.released_cases (hcore.sound t) hr with hr | hr
    · exact (h.released r hr).stable hrely
    · exact hr.stable hrely
  finish {u gs done t call result trace} hcore h hpost _ := by
    refine ⟨h.released, List.forall_mem_cons.mpr ⟨fun found hfnd => ?_, h.safe⟩⟩
    obtain rfl : result = .read (.ok found) := hfnd
    obtain ⟨_, _, -, _, hg⟩ := hpost.eq_get
    have hf : (gs t).focus = .returned found.object found.leaseExpiresAt := by rw [hg]; rfl
    exact (hcore.sound t).holds hf

/-- A remove call with force has taken the version off its slot. -/
def RemovedByForce (v : VersionRef) : RunningCatalog A → Prop :=
  Config.Performed (fun call => ∃ identity now, call = .remove identity now true)
    fun w w' => ∃ s, w.committed s = some v ∧ w'.committed s ≠ some v

theorem Move.forces {x x' : Ghost A} (hx : x.Sound u) (h : Move u x u' x')
    (hfcd : u'.standing v = .forced) :
    u.standing v = .forced ∨ x.kind = .removing true ∧ ∃ s, u.committed s = some v := by
  rcases h.standing_cases v with hsame | hturn
  · exact .inl (hsame ▸ hfcd)
  rw [hfcd] at hturn
  cases hturn with
  | expel hf hkind => exact .inr ⟨hkind, _, (hx.holds hf).2⟩

theorem removedByForce {cfg : CatalogConfig} {hooks : WatermarkHooks A}
    {c : RunningCatalog A} (hrch : (catalogSystem cfg hooks).Reachable c)
    (hfcd : c.shared.standing v = .forced) : RemovedByForce v c := by
  induction hrch with
  | init hinit => cases (hinit.versions v).1.symm.trans hfcd
  | @step c c' hrch hstep _ ih =>
    obtain ⟨_, hcore, -, hcases⟩ := leased_lasting.transition hrch hstep
    rcases hcases with hsame | henv | ⟨t, _, _, _, -, htrk, hmove, hthr⟩
    · exact (ih (hsame ▸ hfcd)).step hstep
    · exact (ih ((congrArg (·.standing v) henv.owned).symm.trans hfcd)).step hstep
    rcases hmove.forces (hcore.sound t) hfcd with hfcd | ⟨hkind, s, hcomm⟩
    · exact (ih hfcd).step hstep
    · refine .inl ⟨t, _, hthr, CatalogCall.eq_remove_of_kind (htrk.kind.symm.trans hkind), _,
        List.mem_append_right _ (List.mem_singleton_self _), s, hcomm, fun hcomm' => ?_⟩
      cases ((hcore.step hmove).wellformed.committed hcomm').symm.trans hfcd

/-- Every release that happened before the end of a lease on its version has a reason
that no lease is meant to withstand. -/
def LeasesKept (c : RunningCatalog A) : Prop :=
  ∀ d ∈ c.completed, ∀ found, d.result = .read (.ok found) →
    ∀ r ∈ c.shared.history.released, r.version = found.object → r.now < found.leaseExpiresAt →
      r.live = false ∨ RemovedByForce found.object c

/-- Lease safety in every interleaving: if a read returned a version with a lease, no
collector step before the end of the lease gives a reservation of the version back,
unless the version was removed by force or the reservation's segment is gone. -/
theorem leases_kept {cfg : CatalogConfig} {hooks : WatermarkHooks A}
    {c : RunningCatalog A} (hreach : (catalogSystem cfg hooks).Reachable c) :
    LeasesKept c := by
  obtain ⟨_, -, -, hleased⟩ := leased_lasting.reachable hreach
  intro d hd found hfound r hr hv hearly
  have hsafe := hleased.safe d hd found hfound
  rcases hleased.released r hr with hdead | hforced | ⟨reclaimAfter, hle, hleft⟩
  · exact .inl hdead
  · exact .inr (removedByForce hreach (hv ▸ hforced))
  · exact absurd ((hsafe.left reclaimAfter (hv ▸ hleft)).trans hle) hearly.not_ge

set_option maxRecDepth 20000 in
/-- A version that was read is removed by force, and reclaimed before the lease is over. -/
theorem leases_kept_forced : ∃ c, system.Reachable c ∧
    (∃ d ∈ c.completed, d.result = .read (.ok ⟨0, 10010⟩)) ∧ c.shared.history.released.map
    (·.now) = [30] ∧ c.shared.standing 0 = .forced ∧ LeasesKept c := by
  have hreach := reachable_after (read ++ .invoke 0 (.remove identity 20 true) :: steps 0 30 ++
    .invoke 0 (.dropHandle 0) :: steps 0 3 ++ .invoke 0 (.dropHandle 0) :: steps 0 3 ++ collect 30)
  exact ⟨_, hreach, by decide +kernel, by decide +kernel, by decide +kernel, leases_kept hreach⟩

end Cakemaster.Object
