import Cakemaster.Machine.Window
import Cakemaster.Object.CatalogRuns

/-!
# Reads are linearizable

Whatever other calls do during a read, its answer was right at some moment between the
invocation and the return. A version that is returned was committed when the read first
saw it; that it still is at the end only serves its lease.
-/

namespace Cakemaster.Object

open Machine Segment World

variable {A : UnitAllocator} {x x' : Ghost A} {u u' : View A} {w : World A}

namespace World

/-- The key has the committed version `v`, and `v` has a live replica. -/
def Reads (w : World A) (identity : ObjectIdentity) (v : VersionRef) : Prop :=
  ∃ s, w.lookupSlot identity = some s ∧ w.committed s = some v ∧ w.HasLiveReplica v

/-- The key has a transaction and no committed version. -/
def NotReady (w : World A) (identity : ObjectIdentity) : Prop :=
  ∃ s, w.lookupSlot identity = some s ∧ w.committed s = none ∧ w.active s ≠ none

def NotFound (w : World A) (identity : ObjectIdentity) : Prop :=
  (∀ v, ¬w.Reads identity v) ∧ ¬w.NotReady identity

theorem notFound_of_lookup_none (h : w.lookupSlot identity = none) : w.NotFound identity := by
  refine ⟨fun v hv => ?_, fun hrdy => ?_⟩
  · obtain ⟨s, hs, -⟩ := hv
    cases h.symm.trans hs
  · obtain ⟨s, hs, -⟩ := hrdy
    cases h.symm.trans hs

theorem notFound_of_vacant (hlook : w.lookupSlot identity = some s) (hcomm : w.committed s = none)
    (hactv : w.active s = none) :
    w.NotFound identity := by
  refine ⟨fun v hv => ?_, fun hrdy => ?_⟩
  · obtain ⟨s', hs', hv, -⟩ := hv
    cases hlook.symm.trans hs'
    cases hcomm.symm.trans hv
  · obtain ⟨s', hs', -, hbusy⟩ := hrdy
    cases hlook.symm.trans hs'
    exact hbusy hactv

theorem notFound_of_dead (hlook : w.lookupSlot identity = some s) (hcomm : w.committed s = some v)
    (hdead : ¬w.HasLiveReplica v) :
    w.NotFound identity := by
  refine ⟨fun v' hv' => ?_, fun hrdy => ?_⟩
  · obtain ⟨s', hs', hv', hlive⟩ := hv'
    cases hlook.symm.trans hs'
    cases hcomm.symm.trans hv'
    exact hdead hlive
  · obtain ⟨s', hs', hnone, -⟩ := hrdy
    cases hlook.symm.trans hs'
    cases hcomm.symm.trans hnone

end World

/-- The answer was right at one of the moments. -/
def Linearizes (identity : ObjectIdentity) (moments : List (World A)) :
    Except LookupError ObjectRead → Prop
  | .ok found => ∃ m ∈ moments, m.Reads identity found.object
  | .error .notReady => ∃ m ∈ moments, m.NotReady identity
  | .error .notFound => ∃ m ∈ moments, m.NotFound identity

/-! ### What a read has seen -/

/-- The slot is the one of the key, or the key had no slot at one of the moments. -/
def SlotSeen (identity : ObjectIdentity) (moments : List (World A)) (u : View A)
    (s : SlotRef) : Prop :=
  (u.slots s).identity = identity ∧ s < u.slotCount ∧
    (u.lookup identity = some s ∨ ∃ m ∈ moments, m.lookupSlot identity = none)

def VersionSeen (u : View A) (s : SlotRef) (v : VersionRef) : Prop :=
  (u.standing v).isAt s = true ∨ (u.standing v).isGone = true

/-- At one of the moments the version was committed, with these replicas, and those that
are live now were live then. -/
def CommittedThen (identity : ObjectIdentity) (moments : List (World A)) (u : View A) (s : SlotRef)
    (v : VersionRef) (replicas : ReplicaSet A) : Prop :=
  ∃ m ∈ moments, m.lookupSlot identity = some s ∧ m.committed s = some v ∧
    replicas ⊆ (m.versions v).replicas ∧ ∀ r, u.live r = true → m.pool.isLive r = true

/-- What is known of the moments of a read from what it has concluded. -/
def Reading.Seen (identity : ObjectIdentity) (moments : List (World A)) (u : View A) :
    Reading A → Prop
  | none => True
  | found s => SlotSeen identity moments u s
  | saw s v => SlotSeen identity moments u s ∧ VersionSeen u s v ∧
      CommittedThen identity moments u s v (u.versions v).replicas
  | listed s v replicas => SlotSeen identity moments u s ∧ VersionSeen u s v ∧
      (u.versions v).replicas ⊆ replicas ∧ CommittedThen identity moments u s v replicas
  | live s v => SlotSeen identity moments u s ∧ VersionSeen u s v ∧
    ∃ m ∈ moments, m.Reads identity v
  | dead s v => SlotSeen identity moments u s ∧ VersionSeen u s v ∧
      ∀ r ∈ (u.versions v).replicas, u.live r.reservation = false
  | missed s v => SlotSeen identity moments u s ∧ VersionSeen u s v ∧
      ((∃ m ∈ moments, m.NotFound identity) ∨ (u.standing v).isGone = true)
  | present v => ∃ m ∈ moments, m.Reads identity v
  | absent => ∃ m ∈ moments, m.NotFound identity
  | notReady => ∃ m ∈ moments, m.NotReady identity

/-! ### What others leave -/

/-- Slots are found under a key until they leave the index. -/
theorem Move.lookup_cases (h : Move u x u' x')
    (hs : u.lookup identity = some s) :
    u'.lookup identity = some s ∨ u'.lookup identity = none := by
  cases h with
  | @insert identity' _ _ _ hnone =>
    have hne : identity ≠ identity' := by
      rintro rfl
      cases hs.symm.trans hnone
    simp [hne, hs]
  | @unindex _ identity' =>
    by_cases hi : identity = identity'
    · simp [hi]
    · simp [hi, hs]
  | _ => exact .inl hs

section Stable

variable {identity : ObjectIdentity} {moments : List (World A)} {s : SlotRef} {v : VersionRef}
  {w w' : World A}

theorem exists_moment {P : World A → Prop} (h : ∃ m ∈ moments, P m) :
    ∃ m ∈ moments ++ [w'], P m := by
  obtain ⟨m, hm, hP⟩ := h
  exact ⟨m, List.mem_append_left _ hm, hP⟩

theorem SlotSeen.stable (hmove : Move w.view x w'.view x') (hrely : Rely x w.view w'.view)
    (h : SlotSeen identity moments w.view s) : SlotSeen identity (moments ++ [w']) w'.view s := by
  obtain ⟨hiden, hlt, hfnd⟩ := h
  refine ⟨(hrely.identity s hlt).trans hiden, hlt.trans_le hrely.slotCount, ?_⟩
  rcases hfnd with hlook | hnone
  · exact (hmove.lookup_cases hlook).imp_right fun hnone => ⟨w', by simp, hnone⟩
  · exact .inr (exists_moment hnone)

theorem VersionSeen.born (h : VersionSeen u s v) : u.standing v ≠ .unborn := by
  intro hunborn
  rw [VersionSeen, hunborn] at h
  rcases h with h | h <;> cases h

theorem VersionSeen.stable (hrely : Rely x u u') (h : VersionSeen u s v) : VersionSeen u' s v := by
  rcases h with hat | hgone
  · exact (hrely.versions v).onSlot s hat
  · exact .inr ((hrely.versions v).gone hgone)

theorem CommittedThen.stable (hrely : Rely x u u') (hsub : replicas' ⊆ replicas)
    (h : CommittedThen identity moments u s v replicas) :
    CommittedThen identity (moments ++ [w']) u' s v replicas' := by
  obtain ⟨m, hm, hlook, hcomm, hrpl, hlive⟩ := h
  refine ⟨m, List.mem_append_left _ hm, hlook, hcomm, List.Subset.trans hsub hrpl, fun r hr => hlive r ?_⟩
  by_contra hdead
  rw [hrely.live r (Bool.not_eq_true _ ▸ hdead)] at hr
  cases hr

/-- What a read has seen remains true, whoever moves. -/
theorem Reading.Seen.stable {reading : Reading A} (hmove : Move w.view x w'.view x')
    (hrely : Rely x w.view w'.view) (h : reading.Seen identity moments w.view) :
    reading.Seen identity (moments ++ [w']) w'.view := by
  have hrpl : ∀ {s v}, VersionSeen w.view s v →
    (w'.view.versions v).replicas ⊆ (w.view.versions v).replicas :=
    fun hv => (hrely.versions _).replicas hv.born
  cases reading with
  | none => trivial
  | found s => exact SlotSeen.stable hmove hrely h
  | saw s v =>
    obtain ⟨hslot, hver, hthen⟩ := h
    exact ⟨hslot.stable hmove hrely, hver.stable hrely, hthen.stable hrely (hrpl hver)⟩
  | listed s v replicas =>
    obtain ⟨hslot, hver, hsub, hthen⟩ := h
    exact ⟨hslot.stable hmove hrely, hver.stable hrely, List.Subset.trans (hrpl hver) hsub,
      hthen.stable hrely (List.Subset.refl _)⟩
  | live s v =>
    obtain ⟨hslot, hver, hrds⟩ := h
    exact ⟨hslot.stable hmove hrely, hver.stable hrely, exists_moment hrds⟩
  | dead s v =>
    obtain ⟨hslot, hver, hdead⟩ := h
    exact ⟨hslot.stable hmove hrely, hver.stable hrely,
      fun r hr => hrely.live _ (hdead r (hrpl hver hr))⟩
  | missed s v =>
    obtain ⟨hslot, hver, hmissed⟩ := h
    exact ⟨hslot.stable hmove hrely, hver.stable hrely, hmissed.imp exists_moment (hrely.versions v).gone⟩
  | present v => exact exists_moment h
  | absent => exact exists_moment h
  | notReady => exact exists_moment h

end Stable

/-! ### What a read concludes -/

/-- A slot that is in use is found under the key of the read. -/
theorem SlotSeen.lookup (h : SlotSeen identity moments u s) (hidx : u.indexed s = true) :
    u.lookup identity = some s := by
  rw [View.indexed, h.1] at hidx
  exact of_decide_eq_true hidx

theorem Observes.seen {before after : Reading A}
    (hu : w.view.Wellformed) (hx : x.Sound w.view) (hmem : w ∈ moments)
    (h : Observes w.view x identity before after) (hseen : before.Seen identity moments w.view) :
    after.Seen identity moments w.view := by
  cases h with
  | find hlook => exact ⟨(hu.index hlook).2, (hu.index hlook).1, .inl hlook⟩
  | miss hlook => exact ⟨w, hmem, notFound_of_lookup_none hlook⟩
  | see hcomm =>
    have hslot : SlotSeen identity moments w.view _ := hseen
    have hlook := hslot.lookup (hu.used (.inl (by simp [hcomm])))
    refine ⟨hslot, .inl ?_, w, hmem, hlook, hcomm, List.Subset.refl _, fun _ hr => hr⟩
    rw [hu.committed hcomm]
    exact decide_eq_true rfl
  | list =>
    obtain ⟨hslot, hver, hthen⟩ := hseen
    exact ⟨hslot, hver, List.Subset.refl _, hthen⟩
  | live hr hlive =>
    obtain ⟨hslot, hver, -, m, hm, hlook, hcomm, hsub, hlive'⟩ := hseen
    exact ⟨hslot, hver, m, hm, _, hlook, hcomm, _, hsub hr, hlive' _ hlive⟩
  | dead hdead =>
    obtain ⟨hslot, hver, hsub, -⟩ := hseen
    exact ⟨hslot, hver, fun r hr => hx.dead _ (hdead r (hsub hr))⟩
  | confirm => exact hseen.2.2
  | @lose s v hcomm =>
    obtain ⟨hslot, hver, -⟩ := hseen
    refine ⟨hslot, hver, ?_⟩
    rcases hver with hat | hgone
    · cases hstd : w.view.standing v with
      | published s' =>
        rw [hstd] at hat
        cases of_decide_eq_true hat
        exact absurd (hu.published hstd) hcomm
      | withdrawn s' =>
        rw [hstd] at hat
        cases of_decide_eq_true hat
        obtain ⟨hnone, hidle, hidx⟩ := hu.withdrawn hstd
        exact .inl ⟨w, hmem, notFound_of_vacant (hslot.lookup hidx) hnone hidle⟩
      | _ =>
        rw [hstd] at hat
        cases hat
    · exact .inr hgone
  | giveUp hbef hcomm =>
    have hstd := hu.committed hcomm
    rcases hbef with rfl | rfl
    · obtain ⟨-, -, hmissed⟩ := hseen
      refine hmissed.resolve_right fun hgone => ?_
      rw [hstd] at hgone
      cases hgone
    · obtain ⟨hslot, -, hdead⟩ := hseen
      have hlook := hslot.lookup (hu.used (.inl (by simp [hcomm])))
      refine ⟨w, hmem, notFound_of_dead hlook hcomm ?_⟩
      rintro ⟨r, hr, hlive⟩
      exact Bool.false_ne_true ((hdead r hr).symm.trans hlive)
  | retry hbef =>
    rcases hbef with rfl | rfl
    · exact hseen.1
    · exact hseen.1
  | nothing hf hactv =>
    obtain ⟨-, -, hlook | ⟨m, hm, hnone⟩⟩ := hseen
    · exact ⟨w, hmem, notFound_of_vacant hlook (hx.holds hf) hactv⟩
    · exact ⟨m, hm, notFound_of_lookup_none hnone⟩
  | unready hf hactv =>
    have hslot : SlotSeen identity moments w.view _ := hseen
    exact ⟨w, hmem, _, hslot.lookup (hu.used (.inr hactv)), hx.holds hf, hactv⟩

theorem Move.reading_cases (h : Move u x u' x') : x'.reading = x.reading ∨
    u' = u ∧ ∃ identity, x.kind = .reading identity ∧
    Observes u x identity x.reading x'.reading := by
  cases h with
  | observe _ hkind hobserves => exact .inr ⟨rfl, _, hkind, hobserves⟩
  | see hkind _ hreading hcomm =>
    refine .inr ⟨rfl, _, hkind, ?_⟩
    rw [hreading]
    exact .see hcomm
  | confirm hkind _ hreading hcomm =>
    refine .inr ⟨rfl, _, hkind, ?_⟩
    rw [hreading]
    exact .confirm hcomm
  | _ => exact .inl rfl

/-! ### Runs -/

/-- A read at a point of its execution. -/
def ReadSeen (identity : ObjectIdentity) (moments : List (World A)) (w : World A)
    (g : Ghost A) : Prop :=
  g.kind = .reading identity ∧ g.reading.Seen identity moments w.view

theorem readSeen_during (cfg : CatalogConfig) (hooks : WatermarkHooks A) (t : ℕ)
    (identity : ObjectIdentity) (now : CatalogTick) :
    (catalogOutline cfg hooks).During (fun w gs _ => Core w.view gs ∧ True) t (.get identity now)
      (ReadSeen identity) where
  start _ := ⟨rfl, trivial⟩
  own {moments w gs done w' x'} hinv hmem h hmove := by
    obtain ⟨hkind, hseen⟩ := h
    have hrely := hinv.1.rely hmove
    refine ⟨(Move.kind hmove).trans hkind, ?_⟩
    rcases Move.reading_cases hmove with hsame | ⟨-, _, hkind', hobserves⟩
    · rw [hsame]
      exact hseen.stable hmove hrely
    · cases hkind.symm.trans hkind'
      exact (hobserves.seen hinv.1.wellformed (hinv.1.sound t) hmem hseen).stable hmove hrely
  other hinv h hmove := ⟨h.1, h.2.stable hmove (hinv.1.rely hmove)⟩
  env {moments w gs done w'} hinv h henv := by
    have hmove := World.Outside.move henv (gs t)
    exact ⟨h.1, h.2.stable hmove (hinv.1.rely hmove)⟩
  still {moments w gs done} hinv h := by
    have hmove : Move w.view (gs t) w.view (gs t) := .same
    exact ⟨h.1, h.2.stable hmove (hinv.1.rely hmove)⟩

/-- Reads are linearizable: the step that ends a read returns an answer that was right at
one of the moments of the call. -/
theorem reads_linearizable {cfg : CatalogConfig} {hooks : WatermarkHooks A} {t : ℕ}
    {identity : ObjectIdentity} {now : CatalogTick} {moments : List (World A)}
    {c c' : RunningCatalog A}
    (hcall : (catalogSystem cfg hooks).InCall t (.get identity now) moments c)
    (hstep : (catalogSystem cfg hooks).Step c c') (hreturns : c'.threads t = none) :
    ∃ result trace, c'.completed = ⟨t, .get identity now, .read result, trace⟩ :: c.completed ∧
      Linearizes identity moments result := by
  have hkeeps : (catalogOutline cfg hooks).Keeps (onViews fun _ _ => True) Track fun w gs _ =>
    Core w.view gs ∧ True :=
    Lasting.trivial.keeps
  obtain ⟨result, trace, _, hcompleted, hpost, -, hseen⟩ :=
    (readSeen_during cfg hooks t identity now).returns hkeeps hcall hstep hreturns
  obtain ⟨r, rfl, _, rfl⟩ := hpost
  refine ⟨r, trace, hcompleted, ?_⟩
  cases r with
  | ok found => exact hseen
  | error err => cases err <;> exact hseen

open Sample

set_option maxRecDepth 20000 in
theorem reads_linearizable_read :
    ∃ moments c c', system.InCall 0 (.get identity 10) moments c ∧ system.Step c c' ∧
      c'.threads 0 = none ∧ (∃ d ∈ c'.completed, d.result = .read (.ok ⟨0, 10010⟩)) ∧
      ∃ result trace, c'.completed = ⟨0, .get identity 10, .read result, trace⟩ :: c.completed ∧
        Linearizes identity moments result := by
  have hidle : (after write).threads 0 = none := by decide +kernel
  have hinvoke : system.InCall 0 (.get identity 10) [(after write).shared] _ :=
    .invoke (reachable_after write) hidle
  obtain ⟨moments, hcall⟩ := hinvoke.exists_play (steps 0 12) (by decide +kernel)
  have hreturns : (system.turn (system.play { after write with
      threads := Function.update (after write).threads 0
        (some ⟨.get identity 10, system.code 0 (.get identity 10), []⟩) } (steps 0 12))
      (.step 0)).threads 0 = none := by decide +kernel
  rcases system.turn_cases _ (.step 0) with hsame | hstep
  · rw [hsame] at hreturns
    obtain ⟨_, hr, -⟩ := hcall.running
    cases hreturns.symm.trans hr
  · exact ⟨moments, _, _, hcall, hstep, hreturns, by decide +kernel, reads_linearizable hcall hstep hreturns⟩

end Cakemaster.Object
