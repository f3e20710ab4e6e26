import Cakemaster.Object.MoveLog

/-!
# Moves keep what calls know true

A move acts with a part of the call's ghost: with its focus, with the version it is
making, with the gate it holds, or with none of them. What the call knows by the other
parts it knows after the move as any other call would.
-/

namespace Cakemaster.Object

open Segment View List

variable {A : UnitAllocator} {x x' y z : Ghost A} {u u' : View A} {f : Focus A} {s : SlotRef}
  {v : VersionRef}

namespace Ghost

def noGate (x : Ghost A) : Ghost A :=
  { x with
    gate := false, writing := false, drained := [], spare := [], early := [], expected :=
      none, due := [] }

def noFocus (x : Ghost A) : Ghost A := x.on .none

def noMaking (x : Ghost A) : Ghost A := x.during .none

namespace Sound

theorem noGate (hx : x.Sound u) : x.noGate.Sound u :=
  { hx with
    gate := nofun
    writing := nofun
    drained := fun h => h.elim (absurd rfl) (absurd rfl)
    seen := nil_subset _
    early := nofun
    ready := fun _ => rfl
    due := nofun
    expected := nofun }

theorem noFocus (hx : x.Sound u) : x.noFocus.Sound u := { hx with lock := nofun, focus := trivial }

theorem noMaking (hx : x.Sound u) :
    x.noMaking.Sound u := { hx with making := trivial, made := nofun }

section

variable (hu : u.Wellformed) (hx : x.Sound u)
include hu hx

/-- After a move that does not need the call's focus, its version or its gate. -/
theorem afterOther (h : Move u x.noGate.noFocus.noMaking u' z) : x.Sound u' :=
  hx.stable hx.noGate.noFocus.noMaking ⟨nofun, nofun, nofun, nofun⟩
    (h.rely hu hx.noGate.noFocus.noMaking)

theorem afterFocus (h : Move u x.noGate.noMaking u' z) : x.noFocus.Sound u' :=
  hx.noFocus.stable hx.noGate.noMaking ⟨fun _ _ => nofun, fun _ _ => nofun, nofun, nofun⟩
    (h.rely hu hx.noGate.noMaking)

theorem afterMaking (h : Move u x.noGate.noFocus u' z) : x.noMaking.Sound u' :=
  hx.noMaking.stable hx.noGate.noFocus ⟨nofun, nofun, fun _ _ => nofun, nofun⟩
    (h.rely hu hx.noGate.noFocus)

theorem afterBoth (h : Move u x.noGate u' z) : x.noMaking.noFocus.Sound u' :=
  hx.noMaking.noFocus.stable hx.noGate ⟨fun _ _ => nofun, fun _ _ => nofun, fun _ _ => nofun, nofun⟩
    (h.rely hu hx.noGate)

end

theorem holds (hx : x.Sound u) (hf : x.focus = f) : f.Holds u := hf ▸ hx.focus

theorem makes (hx : x.Sound u) (hm : x.making = m) : m.Holds u := hm ▸ hx.making

/-- Another focus in the same critical section, or outside of any. -/
theorem refocus (hx : x.Sound u) (hlock : ∀ s, f.lock = some s → x.focus.lock = some s)
    (hf : f.Holds u) : ({ x with focus := f } : Ghost A).Sound u :=
  { hx with lock := fun s hs => hx.lock s (hlock s hs), focus := hf }

/-- A new focus after a move with the old one, in the same critical section. -/
theorem regain (hx : x.Sound u) (h : x.noFocus.Sound u') (hs : x.focus.lock = some s)
    (hlck : (u'.slots s).locked = (u.slots s).locked) (hcnt : u'.slotCount = u.slotCount)
    (hlock : f.lock = some s) (hf : f.Holds u') :
    ({ x with focus := f } : Ghost A).Sound u' :=
  { h with
    lock := fun s' hs' => by
      rw [hlock] at hs'
      cases hs'
      obtain ⟨hl, hlt, hmay⟩ := hx.lock s hs
      exact ⟨hlck.trans hl, hlt.trans_eq hcnt.symm, hmay⟩
    focus := hf }

/-- How far the call is with its version after a move with it. -/
theorem remake (h : x.noMaking.Sound u) (hmade : m.made = some v)
    (hborn : u.standing v ≠ .unborn) (hm : m.Holds u) :
    ({ x with making := m } : Ghost A).Sound u :=
  { h with
    making := hm
    made := fun v' hv' => by
      rw [hmade] at hv'
      cases hv'
      exact hborn }

end Sound

end Ghost

theorem Focus.lock_unlocked (f : Focus A) : f.unlocked.lock = .none := by
  cases f with
  | replacing s base => cases base <;> rfl
  | _ => rfl

theorem Focus.Holds.unlocked (h : f.Holds u) (hvers : u'.versions = u.versions) :
    f.unlocked.Holds u' := by
  cases f with
  | replacing s base =>
    cases base with
    | none => trivial
    | some old =>
      have hold : u.standing old = .detached := h old rfl
      rwa [standing, ← hvers] at hold
  | closing s v reclaimAfter =>
    have hv : u.Settled v reclaimAfter := h
    rwa [View.Settled, standing, ← hvers] at hv
  | _ => trivial

/-- Retired versions are off their slots for good. -/
def View.Retiring (u : View A) : Prop := ∀ r ∈ u.retired, u.Settled r.version r.reclaimAfter

/-- A transaction that is over needs no candidate and cannot be staged again. -/
theorem View.Resolved.over (hu : u.Wellformed) (hold : (u.standing c.pending).isNew = false)
    (h : u.Resolved c.slot c.transactionId c.pending) : u.Over c := by
  refine ⟨hold, fun hstg => ?_⟩
  obtain ⟨_, hactv, -, hph⟩ := id hstg
  rcases h with hrcl | hseal | hidx | hnot
  · have hstd := (hu.staged hactv hph).1
    rcases (hu.sane c.pending).reclaimed hrcl with hv | hv <;>
      rw [show (u.versions c.pending).standing = _ from hstd] at hv <;> cases hv
  · exact hseal
  · rw [hu.used (.inr (by simp [hactv]))] at hidx
    cases hidx
  · exact absurd hstg hnot

namespace Ghost

theorem mem_filter_isFor {c : PendingCandidate} {l : List PendingCandidate} (hc : c ∈ l) :
    c ∈ l.filter (fun c => !isFor s i v c) ∨ c.slot = s ∧ c.transactionId = i ∧ c.pending = v := by
  by_cases h : isFor s i v c = true
  · exact .inr (of_decide_eq_true h)
  · exact .inl (mem_filter.mpr ⟨hc, by simpa using h⟩)

theorem resolve_making (x : Ghost A) (s : SlotRef) (id : TransactionId) (v : VersionRef) :
    (x.resolve s id v).making = x.making ∨
      x.making = .refused s id v ∧ (x.resolve s id v).making = .done v .refused := by
  by_cases hm : x.making = .refused s id v
  · exact .inr ⟨hm, if_pos hm⟩
  · exact .inl (if_neg hm)

theorem resolve_made (x : Ghost A) (s : SlotRef) (id : TransactionId) (v : VersionRef) :
    (x.resolve s id v).making.made = x.making.made := by
  rcases x.resolve_making s id v with hsame | ⟨hm, hdone⟩
  · rw [hsame]
  · rw [hm, hdone]
    rfl

theorem Sound.resolve (hx : x.Sound u) {i : TransactionId}
    (hover : ∀ deadline, (u.standing v).isNew = false → u.Over ⟨s, v, i, deadline⟩) :
    (x.resolve s i v).Sound u :=
  { hx with
    making := by
      rcases x.resolve_making s i v with hsame | ⟨hm, hdone⟩
      · rw [hsame]
        exact hx.making
      · obtain ⟨hchk, hold, honly⟩ := hx.makes hm
        rw [hdone]
        refine ⟨hchk, hold, fun s' a ha hph => ?_⟩
        obtain ⟨rfl, hid⟩ := honly s' a ha hph
        exact (hover 0 hold).2 ⟨a, ha, hid, hph⟩
    made := fun w hw => hx.made w (by rwa [Ghost.resolve_made] at hw)
    writing := fun h => by
      obtain ⟨hgate, hwr, hspr⟩ := hx.writing h
      exact ⟨hgate, hwr, by simp [Ghost.resolve, hspr]⟩
    drained := fun h => by
      refine hx.drained (h.imp (fun h hnil => h ?_) fun h hnil => h ?_) <;> simp [Ghost.resolve, hnil]
    seen := fun c hc => by
      refine hx.seen (mem_append.mpr ((mem_append.mp hc).imp ?_ ?_)) <;>
        exact mem_of_mem_filter
    expected := fun found hfnd => by
      obtain ⟨herly, now, hkind, hdue⟩ := hx.expected found hfnd
      refine ⟨herly, now, hkind, fun c hc hle => (hdue c hc hle).imp_right fun h => ?_⟩
      rcases h with hspr | hc
      · rcases mem_filter_isFor (s := s) (i := i) (v := v) hspr with hmem | ⟨rfl, rfl, rfl⟩
        · exact .inl hmem
        · exact .inr (hover c.deadline (hx.queue c (hx.seen (mem_append_right _ hspr))))
      · exact .inr hc }

end Ghost

theorem Move.sound (hu : u.Wellformed) (hlog : u.Logged) (hrtd : u.Retiring) (hx : x.Sound u)
    (hfit : x.Fitting) (h : Move u x u' x') : x'.Sound u' := by
  cases h with
  | seeDead r hdead => exact { hx with dead := forall_mem_cons.mpr ⟨hdead, hx.dead⟩ }
  | observe focus _ _ hfoc =>
    rcases hfoc with rfl | ⟨rfl, -⟩
    · exact { hx with }
    · exact { hx.refocus (f := .none) (by rintro _ ⟨⟩) trivial with }
  | @see _ s v _ _ _ hcomm =>
    exact { hx.refocus (f := .saw v) (by rintro _ ⟨⟩) (hu.sealed_of_committed hcomm) with }
  | @sample v hf =>
    refine hx.refocus (f := .granted v _) (by rintro _ ⟨⟩) ⟨?_, le_rfl⟩
    rcases hf with hf | ⟨deadline, hf⟩
    · exact hx.holds hf
    · exact (hx.holds hf).1
  | @confirm _ v deadline s _ hf _ hcomm =>
    have hstd : (u.versions v).standing = _ := hu.committed hcomm
    refine { hx.refocus (f := .returned v deadline) (by rintro _ ⟨⟩)
      ⟨(hx.holds hf).1, (hx.holds hf).2, ?_, ?_⟩ with }
    · rw [hstd]
      rfl
    · rw [hstd]
      exact fun _ => (by simp)
  | retry => exact hx.refocus (by rintro _ ⟨⟩) trivial
  | keep hf hidx => exact hx.refocus (hf ▸ fun _ => id) hidx
  | free hf hactv => exact hx.refocus (hf ▸ fun _ => id) ⟨hx.holds hf, hactv, rfl⟩
  | base hf => exact hx.refocus (hf ▸ fun _ => id) ⟨hx.holds hf, rfl⟩
  | meet hf hactv | vacant hf hactv => exact hx.refocus (hf ▸ fun _ => id) hactv
  | point hf hcomm | hollow hf hcomm => exact hx.refocus (hf ▸ fun _ => id) hcomm
  | idle hf hcomm => exact hx.refocus (hf ▸ fun _ => id) ⟨hx.holds hf, hcomm⟩
  | examine hf => exact hx.refocus (hf ▸ fun _ => id) ⟨hx.holds hf, rfl⟩
  | condemn hf hactv => exact hx.refocus (hf ▸ fun _ => id) ⟨hactv, hx.holds hf⟩
  | agree hf hph hbase => exact hx.refocus (hf ▸ fun _ => id) ⟨hx.holds hf, hph, hbase⟩
  | @learn s v hf =>
    have hat : (u.standing v).isAt s = true := by
      rw [hu.committed (hx.holds hf)]
      exact decide_eq_true rfl
    exact { hx with known := cons_subset.mpr ⟨hlog.onSlot hat, hx.known⟩ }
  | settle => exact { hx with owes := fun s hs => hx.owes s (mem_of_mem_erase hs) }
  | dropEmpty => exact { hx with emptied := (by simp) }
  | disagree hf hbase => exact absurd (hu.base (hx.holds hf)) hbase
  | miss => exact { hx with }
  | resolve s id v hrsv => exact hx.resolve fun deadline hold => View.Resolved.over hu hold hrsv
  | @expect now hkind hgate hexp =>
    refine { hx with
      early := (by simp), ready := (by simp), due := fun _ => prefix_refl _
      expected := fun found hfnd => ?_ }
    cases hfnd
    exact ⟨hx.early now hkind hexp hgate, now, hkind, fun c hc _ => .inl hc⟩
  | popNone hgate hpend =>
    refine { hx with
      ready := fun _ => rfl, due := fun _ => nil_prefix, expected := fun found hfnd => ?_ }
    obtain ⟨herly, now, hkind, hdue⟩ := hx.expected found hfnd
    have hnil : x.due = [] := prefix_nil.mp (hpend ▸ hx.due hgate)
    exact ⟨herly, now, hkind, fun c hc hle => .inr ((hdue c hc hle).resolve_left (by simp [hnil]))⟩
  | finishDrain => exact { hx with }
  | fence sessions _ hina => exact { hx with fence := hina }
  | @spare c a hgate hwrt hdrn =>
    refine { hx with
      writing := fun h => by simp [hwrt] at h
      drained := fun _ => hgate
      seen := fun d hd => ?_, expected := fun found hfnd => ?_ }
    · rcases mem_append.mp hd with hd | hd
      · exact hx.seen (mem_append_left _ (mem_of_mem_filter hd))
      · rcases mem_cons.mp hd with rfl | hd
        · exact hx.seen (mem_append_left _ hdrn)
        · exact hx.seen (mem_append_right _ hd)
    · obtain ⟨herly, now, hkind, hdue⟩ := hx.expected found hfnd
      refine ⟨herly, now, hkind, fun d hd hle => (hdue d hd hle).imp_right fun h => ?_⟩
      exact h.imp_left (mem_cons_of_mem _)
  | enqueueEmpty => exact { hx with owes := fun s hs => hx.owes s (mem_of_mem_erase hs) }
  | popEmpty hemps =>
    refine { hx with emptied := fun c hc => ?_ }
    cases hc
    exact hu.empties _ (hemps ▸ mem_cons_self)
  | pushEmpty => exact { hx with emptied := (by simp) }
  | pop => exact { hx with notes := ⟨nofun, nofun⟩ }
  | push | drop => exact { hx with }
  | retire => exact { hx.refocus (f := .none) (by rintro _ ⟨⟩) trivial with }
  | @popRetired r _ _ hr =>
    exact { hx.refocus (f := .leaving _ _) (by rintro _ ⟨⟩) (hrtd r (hr ▸ mem_cons_self)) with }
  | gate _ _ hexp =>
    refine { hx with
      gate := fun _ => rfl, writing := fun h => ⟨rfl, (hx.writing h).2⟩, drained := fun _ => rfl
      early := fun _ _ _ _ => List.Subset.refl _, due := fun _ => ?_, expected := fun found hfnd => ?_ }
    · simp [hx.ready hexp]
    · cases hexp.symm.trans hfnd
  | ungate _ hwrt hdrn hspr =>
    refine { hx with
      gate := (by simp), writing := fun h => ?_, drained := fun h => ?_, early := (by simp), due := (by simp) }
    · simp [hwrt] at h
    · simp [hdrn, hspr] at h
  | @popSpare c rest hgate hexp hpend =>
    obtain ⟨found, hfnd⟩ := Option.isSome_iff_exists.mp hexp
    obtain ⟨herly, now, hkind, hdue⟩ := hx.expected found hfnd
    have hpart := hx.due hgate
    rw [hpend] at hpart
    have hne : x.expected ≠ none := by simp [hfnd]
    refine { hx with
      writing := fun h => ?_, drained := fun _ => hgate, seen := fun d hd => ?_
      queue := forall_mem_cons.mpr ⟨hu.queue c (hpend ▸ mem_cons_self), hx.queue⟩
      early := fun _ _ h => absurd h hne, ready := fun h => absurd h hne
      due := fun _ => ?_, expected := fun found' hfnd' => ?_ }
    · rw [hfit.writing h] at hkind
      cases hkind
    · rcases mem_append.mp hd with hd | hd
      · exact mem_cons_of_mem _ (hx.seen (mem_append_left _ hd))
      · rcases mem_cons.mp hd with rfl | hd
        · exact mem_cons_self
        · exact mem_cons_of_mem _ (hx.seen (mem_append_right _ hd))
    · cases hnow : x.due with
      | nil => exact nil_prefix
      | cons d due => exact (cons_prefix_cons.mp (hnow ▸ hpart)).2
    rw [← Option.some.inj (hfnd.symm.trans hfnd')]
    refine ⟨herly, now, hkind, fun d hd hle => ?_⟩
    rcases hdue d hd hle with hmem | hmem | hover
    · cases hnow : x.due with
      | nil => simp [hnow] at hmem
      | cons e due =>
        rw [hnow] at hmem hpart
        rcases mem_cons.mp hmem with rfl | hmem
        · rw [(cons_prefix_cons.mp hpart).1]
          exact .inr (.inl mem_cons_self)
        · exact .inl hmem
    · exact .inr (.inl (mem_cons_of_mem _ hmem))
    · exact .inr (.inr hover)
  | requeue c hgate hwrt hlate =>
    refine { hx with
      writing := fun h => ?_, drained := fun _ => hgate, seen := fun d hd => ?_
      early := fun now hkind h h' => ?_, due := fun h => ?_, expected := fun found hfnd => ?_ }
    · simp [hwrt] at h
    · refine hx.seen (mem_append.mpr ((mem_append.mp hd).imp_right ?_))
      exact mem_of_mem_filter
    · exact List.Subset.trans (hx.early now hkind h h') (subset_append_left _ _)
    · exact (hx.due h).trans (prefix_append _ _)
    · obtain ⟨herly, now, hkind, hdue⟩ := hx.expected found hfnd
      refine ⟨herly, now, hkind, fun d hd hle => (hdue d hd hle).imp_right fun h => h.imp_left ?_⟩
      refine fun hmem => mem_filter.mpr ⟨hmem, decide_eq_true ?_⟩
      rintro rfl
      exact (hlate now hkind).not_ge hle
  | closeGate _ hgate _ _ hspr => exact { hx with writing := fun _ => ⟨hgate, rfl, hspr⟩ }
  | openGate => exact { hx with writing := (by simp) }
  | @popDrained c rest hwrt hpend =>
    have hrevoking := hfit.writing hwrt
    have hexp : x.expected = none := by
      cases hfnd : x.expected with
      | none => rfl
      | some found =>
        obtain ⟨-, now, hkind, -⟩ := hx.expected found hfnd
        cases hrevoking.symm.trans hkind
    refine { hx with
      drained := fun _ => (hx.writing hwrt).1, seen := cons_subset_cons c hx.seen
      queue := forall_mem_cons.mpr ⟨?_, hx.queue⟩
      early := fun now hkind => ?_, due := fun _ => ?_, expected := fun found hfnd => ?_ }
    · exact hu.queue c (hpend ▸ mem_cons_self)
    · cases hrevoking.symm.trans hkind
    · simp [hx.ready hexp]
    · cases hexp.symm.trans hfnd
  | frame hlive hsss => exact hx.afterOther hu (.frame hlive hsss)
  | release hlive hgroup => exact hx.afterOther hu (.release hlive hgroup)
  | unpin hkind hseal hdue => exact hx.afterOther hu (.unpin hkind hseal hdue)
  | insert owner pins hhome hnone hcntd =>
    refine { hx.afterOther hu (.insert owner pins hhome hnone hcntd) with uncounted := fun s b h => ?_ }
    cases h
    exact Nat.lt_succ_self _
  | count hhome hcntd => exact { hx.afterOther hu (.count hhome hcntd) with uncounted := (by simp) }
  | uncount hhome hcntd =>
    exact { hx.afterOther hu (.uncount hhome hcntd) with uncounted := (by simp) }
  | @lock s hmay hf hcnt hunl =>
    refine { hx.afterOther hu (.lock hmay rfl hcnt hunl) with
      focus := trivial, lock := fun s' hs' => ?_ }
    cases hs'
    exact ⟨by simp [setSlot], hcnt, hmay⟩
  | unlock hlock hmay =>
    refine { hx.afterFocus hu (.unlock hlock hmay) with
      lock := fun s' hs' => ?_, focus := hx.focus.unlocked rfl }
    rw [Focus.lock_unlocked] at hs'
    cases hs'
  | @raise v old new hf hle =>
    refine { hx.afterFocus hu (.raise hf hle) with lock := (by rintro _ ⟨⟩), focus := ?_ }
    simp [Focus.Holds, setVersion, (hx.holds hf).1]
  | @mark v deadline hf =>
    refine { hx.afterFocus hu (.mark hf) with lock := (by rintro _ ⟨⟩), focus := ?_ }
    simpa [Focus.Holds, setVersion] using hx.holds hf
  | unmark v hkind => exact { hx.afterOther hu (.unmark v hkind) with }
  | @seeUnpinned s v hf hpinned =>
    refine { hx with notes := ⟨fun w hw => ?_, hx.notes.2⟩ }
    cases hw
    exact ⟨hu.sealed_of_committed (hx.holds hf).2, hpinned⟩
  | @seeSoft now s v hkind hf hdue =>
    refine { hx with notes := ⟨hx.notes.1, fun w hw => ?_⟩ }
    cases hw
    exact ⟨hu.sealed_of_committed (hx.holds hf).2, now, hkind, hdue⟩
  | @claim s next base owner pins hf =>
    exact { hx.regain (hx.afterFocus hu (.claim owner pins hf)) (f := .locked s) (hf ▸ rfl)
      (by simp [setSlot]) rfl rfl trivial with }
  | @unclaim s a hf hph hcln =>
    exact { hx.regain (hx.afterFocus hu (.unclaim hf hph hcln)) (f := .locked s) (hf ▸ rfl)
      (by simp [setActive, setSlot]) rfl rfl trivial with
      owes := forall_mem_cons.mpr ⟨(hx.lock s (hf ▸ rfl)).2.1, hx.owes⟩ }
  | @unindex s identity hhome hf hlook hcomm hactv hcntd hempd =>
    have hlt := (hx.lock s (hf ▸ rfl)).2.1
    have hlock : x.focus.lock = some s := by
      rw [hf]
      rfl
    have hhld : ∀ u₁ : View A, x.focus.Holds u₁ := by
      rw [hf]
      exact fun _ => trivial
    refine { hx.regain (hx.afterFocus hu (.unindex hhome hf hlook hcomm hactv hcntd
      hempd)) hlock rfl rfl hlock (hhld _) with
      emptied := (by simp), uncounted := fun s' b h => ?_ }
    cases h
    exact hlt
  | @number s a v hf =>
    refine hx.regain (hx.afterFocus hu (.number hf)) (hf ▸ rfl) (by simp [setSlot]) rfl rfl ⟨?_, ?_, ?_⟩
    · simpa [View.Ready, active, committed, setSlot] using show u.Ready s a v from hx.holds hf
    · simp [setSlot]
    · intro r hr hs n hn
      exact hs ▸ (hlog.resolved r hr).2.number n hn
  | @record s a v number commit hardPinned softPin hkind hf hseal =>
    refine hx.regain (hx.afterFocus hu (.record commit hardPinned softPin hkind hf hseal))
      (hf ▸ rfl) rfl rfl rfl ⟨(hx.holds hf).1, ?_, ?_⟩
    · simp [setVersion]
    · simpa [setVersion, View.NextNumber] using (hx.holds hf).2
  | @publish s a v hkind hf hhand =>
    obtain ⟨⟨hactv, hph, hbase⟩, -, -⟩ := hx.holds hf
    refine { hx.regain (hx.afterFocus hu (.publish hkind hf hhand)) (f := .replacing s a.base) (hf ▸ rfl)
      ?_ ?_ rfl fun old hold => ?_ with known := ?_ }
    · simp [setStanding, setVersion, detach, setSlot]
    · rfl
    · have hne : old ≠ v := by
        rintro rfl
        have hpub := hu.committed (hbase.trans hold)
        rw [(hu.staged hactv hph).1] at hpub
        cases hpub
      simp [standing, setStanding, setVersion, detach, hold, hne]
    · rw [activeId_eq hactv]
      refine cons_subset.mpr ⟨mem_append_right _ (mem_singleton_self _), ?_⟩
      exact List.Subset.trans hx.known (subset_append_left _ _)
  | @sampleReplaced old hf =>
    refine { hx.afterFocus hu (.sampleReplaced hf) with lock := (by rintro _ ⟨⟩), focus := .inl ?_ }
    simp [standing, setStanding, setVersion]
  | @withdraw s v hf hcln =>
    refine { hx.regain (hx.afterFocus hu (.withdraw hf hcln)) (f := .taken s v) (hf ▸ rfl) ?_ rfl rfl ?_ with
      owes := forall_mem_cons.mpr ⟨(hx.lock s (hf ▸ rfl)).2.1, hx.owes⟩ }
    · simp [setStanding, setVersion, setCommitted, setSlot]
    · simp [Focus.Holds, standing, setStanding, setVersion]
  | @restore s v hf =>
    refine { hx.regain (hx.afterFocus hu (.restore hf)) (f := .locked s) (hf ▸ rfl) ?_ rfl rfl trivial with
      owes := fun s' hs' => hx.owes s' (mem_of_mem_erase hs') }
    simp [setStanding, setVersion, setCommitted, setSlot]
  | @depart s v now hf hle hkind =>
    refine hx.regain (hx.afterFocus hu (.depart hf hle hkind)) (hf ▸ rfl) rfl rfl rfl (.inl ?_)
    simp [standing, setStanding, setVersion]
  | @departEvicted s v now hf hle hhand hkind hunp hunr hclr hsoft =>
    refine { hx.regain (hx.afterFocus hu (.departEvicted hf hle hhand hkind hunp hunr hclr hsoft))
      (f := .closing s v now) (hf ▸ rfl) rfl rfl rfl (.inl ?_) with }
    simp [standing, setStanding, setVersion]
  | @expel s v now hf hcln hkind =>
    refine { hx.regain (hx.afterFocus hu (.expel now hf hcln hkind)) (f := .closing s v now)
      (hf ▸ rfl) ?_ rfl rfl (.inr (.inl ?_)) with
      owes := forall_mem_cons.mpr ⟨(hx.lock s (hf ▸ rfl)).2.1, hx.owes⟩ }
    · simp [setStanding, setVersion, setCommitted, setSlot]
    · simp [standing, setStanding, setVersion]
  | @lose s v replicas now hf hhand hdead hcln =>
    refine { hx.regain (hx.afterFocus hu (.lose now hf hhand hdead hcln)) (f := .closing s v now)
      (hf ▸ rfl) ?_ rfl rfl (.inr (.inr ?_)) with
      owes := forall_mem_cons.mpr ⟨(hx.lock s (hf ▸ rfl)).2.1, hx.owes⟩ }
    · simp [setStanding, setVersion, setCommitted, setSlot]
    · simp [standing, setStanding, setVersion]
  | @prune s v replicas live hf hsub hdead =>
    refine hx.regain (hx.afterFocus hu (.prune hf hsub hdead)) (hf ▸ rfl) rfl rfl rfl ⟨(hx.holds hf).1, ?_⟩
    simp [setVersion]
  | @take v reclaimAfter now hf hle =>
    refine { hx.afterFocus hu (.take hf hle) with
      batch := forall_mem_append.mpr ⟨(hx.afterFocus hu (.take hf hle)).batch, fun e he => ?_⟩ }
    obtain ⟨r, hr, rfl⟩ := mem_map.mp he
    rcases hx.holds hf with hleft | hfcd | hlost
    · exact .inr (.inr ⟨reclaimAfter, hle, by simpa [standing, setVersion] using hleft⟩)
    · exact .inr (.inl (by simpa [standing, setVersion] using hfcd))
    · exact .inl ((hu.sane v).lost hlost r hr)
  | @abandon s a v now hf hph hcln =>
    have hactv : u.active s = some a := hx.holds hf
    refine { Ghost.Sound.resolve
      (hx.regain (hx.afterFocus hu (.abandon now hf hph hcln)) (f := .closing s v now)
      (hf ▸ rfl) ?_ rfl rfl (.inl ?_)) (s := s) (v := v) (i := a.id) (fun deadline hold => ⟨hold, ?_⟩) with
      owes := forall_mem_cons.mpr ⟨(hx.lock s (hf ▸ rfl)).2.1, hx.owes⟩, known := ?_ }
    · simp [setStanding, setVersion, setActive, setSlot]
    · simp [standing, setStanding, setVersion]
    · rintro ⟨b, hb, -⟩
      simp [active, setStanding, setVersion, setActive, setSlot] at hb
    · rw [activeId_eq hactv]
      refine cons_subset.mpr ⟨mem_append_right _ (mem_singleton_self _), ?_⟩
      exact List.Subset.trans hx.known (subset_append_left _ _)
  | make y hkind hm hrcl hseal hchk hstd =>
    refine (hx.afterMaking hu (.make y hkind hm hrcl hseal hchk hstd)).remake rfl ?_ ?_
    · simp [standing, hstd]
    · simp [Making.Holds, Making.Fresh, standing, hstd, hrcl, hseal, hchk]
  | enterGate hm hwr =>
    obtain hfrs := hx.makes hm
    refine (hx.afterMaking hu (.enterGate hm hwr)).remake rfl (hx.made _ (hm ▸ rfl)) ⟨hfrs, ?_⟩
    exact Multiset.mem_cons_self _ _
  | @enqueue o c hm =>
    exact (hx.afterMaking hu (.enqueue hm)).remake rfl (hx.made _ (hm ▸ rfl)) (hx.makes hm)
  | leaveGate hm =>
    exact (hx.afterMaking hu (.leaveGate hm)).remake rfl (hx.made _ (hm ▸ rfl)) (hx.makes hm).1
  | backOut hm =>
    exact (hx.afterMaking hu (.backOut hm)).remake rfl (hx.made _ (hm ▸ rfl)) (hx.makes hm).1
  | @pass s id v o hm hactv =>
    refine (hx.afterMaking hu (.pass hm hactv)).remake rfl ?_ ?_
    · simpa [standing, setVersion] using hx.made v (hm ▸ rfl)
    · simp [Making.Holds, setVersion]
  | @refuse s id v o hm =>
    refine (hx.afterMaking hu (.refuse hm)).remake rfl ?_ ⟨?_, ?_⟩
    · simpa [standing, setVersion] using hx.made v (hm ▸ rfl)
    · simp [setVersion]
    · simpa [View.OnlyAt, standing, active, setVersion] using (hx.makes hm).2.2
  | @discard id v o hm =>
    refine (hx.afterMaking hu (.discard hm)).remake rfl ?_ ?_
    · simpa [standing, setVersion] using hx.made v (hm ▸ rfl)
    · simpa [Making.Holds, standing, setVersion] using (hx.makes hm).1
  | @stage v o s a hm hf hph hownr =>
    obtain ⟨⟨hfrs, -, -, hahead, ho, -⟩, hmem⟩ := hx.makes hm
    refine { hx.afterBoth hu (.stage hm hf hph hownr) with
      lock := fun s' hs' => ?_, focus := trivial, making := ⟨⟨?_, ?_, ?_, fun s' b hb hb' => ?_⟩, hmem⟩
      made := fun v' hv' => ?_ }
    · cases hs'
      obtain ⟨hlck, hlt, hmay⟩ := hx.lock s (hf ▸ rfl)
      exact ⟨by simpa [setStanding, setVersion, setActive, setSlot] using hlck, hlt, hmay⟩
    · simpa [setStanding, setVersion, setActive, setSlot] using hahead
    · simpa [setStanding, setVersion, setActive, setSlot] using ho
    · simp [standing, setStanding, setVersion, Standing.isNew]
    · by_cases hs : s' = s
      · subst hs
        have hb : { a with phase := .staged v } = b := by
          simpa [active, setStanding, setVersion, setActive, setSlot] using hb
        exact ⟨rfl, hb ▸ rfl⟩
      · have hb : u.active s' = some b := by
          simpa [active, setStanding, setVersion, setActive, setSlot, hs] using hb
        rw [(hu.staged hb hb').1] at hfrs
        cases hfrs
    · cases hv'
      simp [standing, setStanding, setVersion]

end Cakemaster.Object
