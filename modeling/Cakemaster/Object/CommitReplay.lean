import Cakemaster.Machine.Total
import Cakemaster.Object.CatalogRuns

/-!
# Repeated commits

A commit that is repeated with the metadata of the first one answers with the version
that is committed. The code looks for that version only when the slot has no
transaction: as soon as another writer has a claim on the key, the repetition is told
that its transaction is gone.
-/

namespace Cakemaster.Object

open Machine Machine.Prog Segment Sample

variable {A : UnitAllocator} {cfg : CatalogConfig} {transaction : WriteTransaction}
  {content : ObjectCommit} {now : CatalogTick} {w : World A} {v : VersionRef}

/-- The committed version of its slot is the transaction's, with the metadata `content`. -/
structure World.CommittedBy (w : World A) (transaction : WriteTransaction) (content : ObjectCommit)
    (v : VersionRef) :
    Prop where
  committed : w.committed transaction.slot = some v
  origin : (w.versions v).origin = transaction.id
  content : (w.versions v).committed.map (·.commit) = some content

/-- The commit, called again, answers with the version; the store is as before, but for
the handle that the caller now has. -/
def CommitRepeats (cfg : CatalogConfig) (w : World A) (transaction : WriteTransaction)
    (content : ObjectCommit) (now : CatalogTick) (v : VersionRef) : Prop :=
  Total (commit cfg transaction content now) w fun result w' => result = .ok v ∧ w' = w.addHandle v

namespace World

def locked (s : SlotRef) : World A → World A := modifySlot s fun x => { x with locked := true }

theorem unlockSlot_locked (hfree : (w.slots s).locked = false) : unlockSlot s (locked s w) = w := by
  have hslot : { w.slots s with locked := false } = w.slots s := by
    rw [← hfree]
  simp [unlockSlot, locked, modifySlot, hslot]

@[simp] theorem active_locked (s : SlotRef) : (locked s w).active s = w.active s := by
  simp [active, locked, modifySlot]

@[simp] theorem committed_locked (s : SlotRef) : (locked s w).committed s = w.committed s := by
  simp [committed, locked, modifySlot]

end World

theorem total_upgradeSlot_iff {α : Type} {k : Bool → CatalogM A α} {post : α → World A → Prop}
    (hidx : w.indexed s = true) :
    Total ((upgradeSlot s).bind k) w post ↔ Total (k true) w post := by
  rw [upgradeSlot, bind_eq, bind_assoc]
  refine Total.pick_iff fun alive => ?_
  rw [Total.read_iff, hidx, Bool.true_or]

theorem total_commit_iff {post : Except CommitError VersionRef → World A → Prop}
    (hcat : transaction.catalog = cfg.catalogId) (hidx : w.indexed transaction.slot = true)
    (hslot : transaction.slot < w.slotCount) (hfree : (w.slots transaction.slot).locked = false) :
    Total (commit cfg transaction content now) w post ↔ Total (match w.active transaction.slot with
        | none => commitAgain transaction.slot transaction.id content
        | some active => commitActive transaction active content now)
            (World.locked transaction.slot w) post := by
  have hlock : World.lockSlot transaction.slot w = some ((), World.locked transaction.slot w) :=
    if_pos ⟨hslot, hfree⟩
  cases hactv : w.active transaction.slot <;>
    rw [commit, if_neg (not_not.mpr hcat), bind_eq, total_upgradeSlot_iff hidx, if_pos rfl,
    bind_eq, lock,
      Total.await_iff hlock, bind_eq, Total.read_iff, World.active_locked, hactv]

/-- Without a transaction on the slot the committed version is found again. -/
theorem total_commitAgain (h : w.CommittedBy transaction content v)
    (hfree : (w.slots transaction.slot).locked = false) :
    Total (commitAgain transaction.slot transaction.id content) (World.locked transaction.slot w)
    fun result w' =>
      result = .ok v ∧ w' = w.addHandle v := by
  have hver : (World.locked transaction.slot w).versions v = w.versions v := rfl
  rw [commitAgain, bind_eq, Total.read_iff, World.committed_locked, h.committed]
  simp only [bind_eq]
  rw [Total.read_iff, unlock, Total.modify_iff, World.unlockSlot_locked hfree, hver,
    if_neg (not_not.mpr h.origin), if_pos h.content, Total.modify_iff]
  exact Total.ret_iff.mpr ⟨rfl, rfl⟩

/-- With another transaction on the slot the call is told that its own is gone. -/
theorem runs_commitActive (hid : active.id ≠ transaction.id) :
    Runs (commitActive transaction active content now) w (.error .transactionGone)
      (w.unlockSlot transaction.slot) := by
  rw [commitActive, if_pos hid]
  exact .act rfl .ret

/-- A commit that is called again, by itself, finds its version exactly when no
transaction is active on the slot. -/
theorem commit_repeats_iff {hooks : WatermarkHooks A} {c : RunningCatalog A}
    (hreach : (catalogSystem cfg hooks).Reachable c)
    (hcatalog : transaction.catalog = cfg.catalogId)
    (hcommitted : c.shared.CommittedBy transaction content v)
    (hfree : (c.shared.slots transaction.slot).locked = false) :
    CommitRepeats cfg c.shared transaction content now v ↔
    c.shared.active transaction.slot = none := by
  obtain ⟨_, -, hcore⟩ := exists_core hreach
  have hpublished : c.shared.view.committed transaction.slot = some v := hcommitted.committed
  have hused := hcore.wellformed.used (.inl (hpublished ▸ Option.some_ne_none v))
  have hslot := hcore.wellformed.lt_slotCount (.inl (hpublished ▸ Option.some_ne_none v))
  rw [CommitRepeats, total_commit_iff hcatalog hused hslot hfree]
  cases hactive : c.shared.active transaction.slot with
  | none => exact iff_of_true (total_commitAgain hcommitted hfree) rfl
  | some active =>
    -- the transaction is in the log as resolved, so it is not the active one
    have hresolved := hcore.logged.onSlot (s := transaction.slot) (v := v)
      (by rw [hcore.wellformed.committed hpublished]; exact decide_eq_true rfl)
    have hid := (hcore.logged.resolved _ hresolved).2.active active hactive
    refine iff_of_false (fun htotal => ?_) (Option.some_ne_none active)
    have hgone := (htotal.2 _ _ (runs_commitActive fun h => hid (h.trans hcommitted.origin.symm))).1
    cases hgone

set_option maxRecDepth 20000 in
/-- A commit is repeated while nobody else writes the key. -/
theorem commit_repeats_iff_alone : ∃ c, system.Reachable c ∧ c.shared.CommittedBy ⟨0, 0, 0, 1⟩
    ⟨none⟩ 0 ∧ CommitRepeats .default c.shared ⟨0, 0, 0, 1⟩ ⟨none⟩ 30 0 := by
  have hreach := reachable_after write
  have hcommitted : (after write).shared.CommittedBy ⟨0, 0, 0, 1⟩ ⟨none⟩ 0 :=
    ⟨by decide +kernel, by decide +kernel, by decide +kernel⟩
  exact ⟨_, hreach, hcommitted, (commit_repeats_iff hreach rfl hcommitted (by decide +kernel)).mpr
    (by decide +kernel)⟩

/-- Another writer has a claim on the key of the committed version. -/
def Sample.rewrite : Turns :=
  write ++ .invoke 1 (.beginWrite identity (.unmanaged ⟨0, 2⟩) .upsert ⟨.preserve, none, false⟩ 7) :: steps 1 20

set_option maxRecDepth 20000 in
/-- The commit is repeated while the other writer has its claim. -/
theorem commit_repeats_fails :
    ∃ c, system.Reachable c ∧ c.shared.CommittedBy ⟨0, 0, 0, 1⟩ ⟨none⟩ 0 ∧ (c.shared.slots 0).locked = false ∧
      (∃ w', Runs (commit .default ⟨0, 0, 0, 1⟩ ⟨none⟩ 30) c.shared (.error .transactionGone) w') ∧
      ¬CommitRepeats .default c.shared ⟨0, 0, 0, 1⟩ ⟨none⟩ 30 0 := by
  have heval : ((commit .default ⟨0, 0, 0, 1⟩ ⟨none⟩ 30).eval 1 (after rewrite).shared).map (·.1) =
      some (.error .transactionGone) := by decide +kernel
  obtain ⟨⟨_, w'⟩, heval, rfl⟩ := Option.map_eq_some_iff.mp heval
  have hrun := runs_of_eval heval
  refine ⟨_, reachable_after rewrite, ⟨by decide +kernel, by decide +kernel, by decide +kernel⟩,
    by decide +kernel, ⟨w', hrun⟩, fun h => ?_⟩
  cases (h.2 _ _ hrun).1

end Cakemaster.Object
