import Cakemaster.Object.LeaseSafety

/-!
# What a lease is granted for

A read renews the lease of its version only when the deadline that it finds is below the
refresh threshold. With a refresh interval of zero, which `validate` accepts, a deadline
that is just being reached is handed out as it is.
-/

namespace Cakemaster.Object

open Machine Machine.Prog Segment Conforms

variable {A : UnitAllocator} {cfg : CatalogConfig} {hooks : WatermarkHooks A} {α : Type}

/-- Whatever other threads do meanwhile, the program returns what satisfies `post`. -/
def Answers (p : CatalogM A α) (post : α → Prop) : Prop :=
  Conforms (fun _ _ _ _ => True) p () fun a _ => post a

/-- The deadline is at or after the refresh threshold of a read at `now`. -/
def Granted (cfg : CatalogConfig) (now deadline : CatalogTick) : Prop :=
  Word.satAdd 64 now cfg.leaseRefreshTicks ≤ deadline

theorem answers_acquireLease (v : VersionRef) (now : CatalogTick) :
    Answers (acquireLease (A := A) cfg v now) (Granted cfg now) := by
  refine .read fun w => ⟨(), trivial, .iterate_ret (fun _ _ => True) trivial fun current _ _ => ?_⟩
  refine .ite (fun _ => ?_) fun hge => .ret (not_lt.mp hge)
  refine .seq (stutter _ fun _ _ => trivial) fun swapped _ _ => ?_
  cases swapped with
  | error observed => exact .ret trivial
  | ok => exact .ret (Word.satAdd_le_satAdd now cfg.leaseRefresh_le)

theorem answers_recordAccess (v : VersionRef) (now : CatalogTick) :
    Answers (recordAccess (A := A) cfg v now) (Granted cfg now) :=
  .seq (answers_acquireLease v now) fun _ _ hgranted => .modify fun _ =>
    ⟨(), trivial, .ret hgranted⟩

theorem answers_get (identity : ObjectIdentity) (now : CatalogTick) :
    Answers (get (A := A) cfg identity now) fun r => ∀ found, r = .ok found →
      Granted cfg now found.leaseExpiresAt := by
  refine .read fun w => ⟨(), trivial, ?_⟩
  cases w.lookupSlot identity with
  | none => exact .ret nofun
  | some s =>
    refine .iterate_ret (fun _ _ => True) trivial fun _ _ _ => .read fun w => ⟨(), trivial, ?_⟩
    cases w.committed s with
    | none =>
      -- no version was found, so none is returned
      refine .seq (stutter _ fun _ _ => trivial) fun _ _ _ => .read fun w =>
        ⟨(), trivial, .ite (fun _ => ?_) fun _ => ?_⟩
      · exact .seq (stutter _ fun _ _ => trivial) fun _ _ _ => .ret trivial
      · refine .read fun w => ⟨(), trivial, ?_⟩
        exact .seq (stutter _ fun _ _ => trivial) fun _ _ _ => .ret nofun
    | some v =>
      refine .seq (answers_recordAccess v now) fun deadline _ hgranted =>
        .seq (stutter _ fun _ _ => trivial) fun live _ _ => ?_
      refine .read fun w => ⟨(), trivial, .ite (fun _ => .modify fun w => ⟨(), trivial, .ret ?_⟩) fun _ => ?_⟩
      · rintro _ ⟨⟩
        exact hgranted
      · exact .read fun w => ⟨(), trivial, .ite (fun _ => .ret nofun) fun _ => .ret trivial⟩

/-- The call, if it is a read that succeeded, was granted its lease. -/
def CatalogCall.Granted (cfg : CatalogConfig) (call : CatalogCall A)
    (result : CatalogResult) : Prop :=
  ∀ identity now found, call = .get identity now → result = .read (.ok found) →
    Object.Granted cfg now found.leaseExpiresAt

def grantOutline (cfg : CatalogConfig) (hooks : WatermarkHooks A) :
    Outline (catalogSystem cfg hooks) Unit where
  idle := ()
  start _ := ()
  rel _ _ _ _ _ := True
  post call result _ := call.Granted cfg result
  conforms _ call := by
    cases call with
    | get identity now =>
      refine .seq (answers_get identity now) fun r _ hr => .ret ?_
      rintro _ _ found ⟨⟩ ⟨⟩
      exact hr found rfl
    | _ => exact (Conforms.stutter _ fun _ _ => trivial).mono fun _ _ _ => by rintro _ _ _ ⟨⟩

theorem grantOutline_keeps : (grantOutline cfg hooks).Keeps (fun _ _ => True) (fun _ _ _ => True)
    fun _ _ done => ∀ d ∈ done, d.call.Granted cfg d.result where
  init := by simp
  track_start _ := trivial
  track_step _ _ _ := trivial
  invoke _ _ h _ := h
  step h _ _ := h
  finish h hpost _ := List.forall_mem_cons.mpr ⟨hpost, h⟩
  env h _ _ := h

/-- The deadlines that reads have returned, in a configuration of a run and after a
further step of it. -/
structure LeasesGranted (cfg : CatalogConfig) (hooks : WatermarkHooks A)
    (c : RunningCatalog A) : Prop where
  ahead : ∀ d ∈ c.completed, ∀ identity now found, d.call = .get identity now →
    d.result = .read (.ok found) → now + cfg.leaseTtlTicks < 2 ^ 64 → now < found.leaseExpiresAt ∧
    now + cfg.leaseRefreshTicks ≤ found.leaseExpiresAt
  stored : ∀ d ∈ c.completed, ∀ found, d.result = .read (.ok found) →
    found.leaseExpiresAt ≤ c.shared.leaseUntil found.object
  kept : ∀ c', (catalogSystem cfg hooks).Step c c' → ∀ v, (c.shared.versions v).committed.isSome →
    c.shared.leaseUntil v ≤ c'.shared.leaseUntil v

/-- With a refresh interval above zero, in every interleaving every read that succeeds
returns a deadline after its tick and not before the end of the refresh interval, the
version has a deadline no earlier than that, and no step takes a deadline back. -/
theorem leases_granted (hrefresh : 0 < cfg.leaseRefreshTicks) {c : RunningCatalog A}
    (hreach : (catalogSystem cfg hooks).Reachable c) : LeasesGranted cfg hooks c where
  ahead d hd identity now found hcall hresult hfits := by
    obtain ⟨-, -, hgranted⟩ := Outline.reachable (o := grantOutline cfg hooks) grantOutline_keeps hreach
    have hdeadline := hgranted d hd identity now found hcall hresult
    have hsum : now + cfg.leaseRefreshTicks ≤ Word.maxOf 64 :=
      (Nat.add_le_add_left cfg.leaseRefresh_le now).trans (Nat.le_sub_one_of_lt hfits)
    rw [Granted, Word.satAdd, min_eq_left hsum] at hdeadline
    exact ⟨(Nat.lt_add_of_pos_right hrefresh).trans_le hdeadline, hdeadline⟩
  stored d hd found hresult := by
    obtain ⟨gs, -, -, hleased⟩ := leased_lasting.reachable hreach
    exact (hleased.safe d hd found hresult).lease
  kept c' hstep v hv := by
    obtain ⟨gs, hcore, hshared | ⟨_, _, hmove⟩⟩ := leased_lasting.moves hreach hstep
    · rw [hshared]
    · exact (((hcore.rely hmove).versions v).sealed hv).2.1

/-- A read with the default configuration, whose refresh interval is positive. -/
theorem leases_granted_read :
    ∃ c, Sample.system.Reachable c ∧ (∃ d ∈ c.completed, d.result = .read (.ok ⟨0, 10010⟩)) ∧
    LeasesGranted .default Sample.hooks c :=
  ⟨_, Sample.reachable_after
    Sample.read, by decide +kernel, leases_granted (by decide) (Sample.reachable_after Sample.read)⟩

namespace Sample

/-- A configuration without a refresh interval. -/
def unrefreshed : CatalogConfig :=
  ⟨{ ObjectCatalogConfig.default with leaseRefreshTicks := 0 }, 0, by decide⟩

end Sample

set_option maxRecDepth 20000 in
/-- A second read, at the tick at which the lease of the first one ends, returns that tick. -/
theorem leases_granted_spent :
    ∃ c, (catalogSystem Sample.unrefreshed Sample.hooks).Reachable c ∧
      ¬LeasesGranted Sample.unrefreshed Sample.hooks c := by
  refine ⟨_, System.reachable_play (c := Sample.start) (.init (World.new_new ..))
    (Sample.read ++ .invoke 0 (.get Sample.identity 10010) :: Sample.steps 0 20), fun h => ?_⟩
  have hspent := h.ahead ⟨0, .get Sample.identity 10010, .read (.ok ⟨0, 10010⟩), _⟩
    List.mem_cons_self _ _ _ rfl rfl (by decide)
  exact lt_irrefl _ hspent.1

end Cakemaster.Object
