import Cakemaster.Machine.Trace
import Cakemaster.Object.Catalog

/-!
# Runs of the catalog

The ghost of a call agrees with the call and with the transitions it has made, and
`Core` holds in every reachable configuration. Further properties of runs are added as
groups: what holds of a new catalog and is kept by moves, calls and returns.
-/

namespace Cakemaster.Object

open Machine Segment View List Function

variable {A : UnitAllocator} {x x' : Ghost A} {u u' : View A}
variable {c : RunningCatalog A} {s : SlotRef} {id : TransactionId} {v : VersionRef}

/-! ### What the ghost of a call says of its transitions -/

namespace View

/-- A collector or a revocation takes the candidate off the pending queue, and puts it back. -/
def TakesPending (c : PendingCandidate) (u u' : View A) : Prop := u.pending = c :: u'.pending

def PutsPending (c : PendingCandidate) (u u' : View A) : Prop := u'.pending = u.pending ++ [c]

/-- A stage call stages its version, and queues a candidate for it. -/
def Stages (s : SlotRef) (id : TransactionId) (v : VersionRef) (u u' : View A) : Prop :=
  ¬u.StagedAt s id v ∧ u'.StagedAt s id v

def Queues (s : SlotRef) (id : TransactionId) (v : VersionRef) (u u' : View A) : Prop :=
  ∃ deadline, u'.pending = u.pending ++ [⟨s, v, id, deadline⟩]

/-- A call takes a garbage collection candidate in hand, and puts it down. -/
def TakesCandidate (c : GcCandidate) (u u' : View A) : Prop := u'.hand = c ::ₘ u.hand

def PutsCandidate (c : GcCandidate) (u u' : View A) : Prop := u.hand = c ::ₘ u'.hand

/-- The slot loses its transaction or its committed version, and a candidate for an empty
slot is queued for it. -/
def Clears (s : SlotRef) (u u' : View A) : Prop :=
  u.active s ≠ none ∧ u'.active s = none ∨ u.committed s ≠ none ∧ u'.committed s = none

def QueuesEmpty (s : SlotRef) (u u' : View A) : Prop :=
  ∃ c, c.slot = s ∧ u'.empties = u.empties ++ [c]

/-- A collector takes a candidate for an empty slot off the queue, and puts it back. -/
def TakesEmpty (c : EmptySlotCandidate) (u u' : View A) : Prop := u.empties = c :: u'.empties

def PutsEmpty (c : EmptySlotCandidate) (u u' : View A) : Prop := u'.empties = u.empties ++ [c]

/-- The version is off its slot for good. -/
def Leaves (s : SlotRef) (v : VersionRef) (u u' : View A) : Prop :=
  (u.standing v).isAt s = true ∧ (u'.standing v).isGone = true

/-- The version may be evicted, under the given policy for soft pins. -/
structure Evictable (u : View A) (now : CatalogTick) (lenient : Bool) (s : SlotRef)
    (v : VersionRef) : Prop where
  hardPinned : (u.versions v).hardPinned = false
  lease : (u.versions v).lease ≤ now
  softPin : (u.versions v).softPin ≤ now ∨ lenient = true
  idle : u.active s = none

/-- The version is off its slot, and it was not read since its mark was last cleared. -/
def Unread (s : SlotRef) (v : VersionRef) (u : View A) : Prop :=
  u.standing v = .withdrawn s ∧ (u.versions v).recent = false

/-- The version is found unread, and it is off its slot afterwards. -/
def FindsUnread (s : SlotRef) (v : VersionRef) (u u' : View A) : Prop :=
  u.Unread s v ∧ u'.standing v = .withdrawn s

/-- The version is not off its slot, before or afterwards. -/
def PutsBack (s : SlotRef) (v : VersionRef) (u u' : View A) : Prop :=
  u.standing v ≠ .withdrawn s ∨ u'.standing v ≠ .withdrawn s

/-- The mark of a committed version is cleared. -/
def Unmarks (u u' : View A) : Prop :=
  ∃ v, (u.versions v).sealed = true ∧ (u.versions v).recent = true ∧ (u'.versions v).recent = false

def HasLive (u : View A) (v : VersionRef) : Prop :=
  ∃ r ∈ (u.versions v).replicas, u.live r.reservation = true

def Claims (s : SlotRef) (id : TransactionId) (u u' : View A) : Prop :=
  (s, id) ∉ u.begun ∧ (s, id) ∈ u'.begun ∧ u'.indexed s = true ∧
    ∃ a, u'.active s = some a ∧ a.id = id ∧ a.phase = .claimed

/-- Nothing changes in slots other than `home`, nor in the index. -/
def Confined (home : SlotRef) (u u' : View A) : Prop :=
  (∀ s, s ≠ home → u'.slots s = u.slots s) ∧ u'.lookup = u.lookup

end View

def onViews (R : View A → View A → Prop) (w w' : World A) : Prop := R w.view w'.view

instance (R : View A → View A → Prop) [DecidableRel R] : DecidableRel (onViews R) :=
  fun w w' => inferInstanceAs (Decidable (R w.view w'.view))

/-- The ghost agrees with the call and its transitions. -/
structure Track (call : CatalogCall A) (trace : List (World A × World A)) (g : Ghost A) : Prop where
  kind : g.kind = call.kind
  claimed : ∀ s id, g.claimed = some (s, id) → ∃ p ∈ trace, View.Claims s id p.1.view p.2.view
  missing : ∀ s id v, g.missing = some (s, id, v) →
    ∃ p ∈ trace, p.1.view.indexed s = false ∨ ¬p.1.view.StagedAt s id v
  popped : ∀ c ∈ g.drained ++ g.spare,
    Since (onViews (View.TakesPending c)) (onViews (View.PutsPending c)) trace
  unqueued : ∀ s id v o, g.making = .unqueued s id v o →
    Since (onViews (View.Stages s id v)) (onViews (View.Queues s id v)) trace
  hand : ∀ c, g.hand = some c →
    Since (onViews (View.TakesCandidate c)) (onViews (View.PutsCandidate c)) trace
  early : g.gate = true ∨ g.expected ≠ none →
    ∃ p ∈ trace, p.1.stepGate = false ∧ p.2.stepGate = true ∧ p.1.pending.candidates = g.early
  expected : ∀ found, g.expected = some found → ∃ p ∈ trace, p.1.pending.candidates = found
  confined : ∀ home, call.kind.home = some home → ∀ p ∈ trace, View.Confined home p.1.view p.2.view
  owes : ∀ s ∈ g.owes, g.owes = [s] ∧ g.emptied = none ∧
    Since (onViews (View.Clears s)) (onViews (View.QueuesEmpty s)) trace
  emptied : ∀ c, g.emptied = some c → g.owes = [] ∧
    Since (onViews (View.TakesEmpty c)) (onViews (View.PutsEmpty c)) trace
  noted : ∀ v deadline, g.focus = .noted v deadline ∨ g.focus = .returned v deadline →
    ∃ p ∈ trace, (p.2.view.versions v).recent = true
  visiting : ∀ c, g.hand = some c → g.notes.cleared = false →
    Since (onViews (View.TakesCandidate c)) (onViews View.Unmarks) trace
  unread : ∀ s v, g.focus = .taken s v → g.notes.unread = some v →
    Since (onViews (View.FindsUnread s v)) (onViews (View.PutsBack s v)) trace
  evicted : ∀ now, call.kind = .collecting now → AtEach (fun before w w' => ∀ s v,
    View.Leaves s v w.view w'.view → w.view.HasLive v → w.view.Evictable now g.lenient s v ∧
      w.view.standing v = .withdrawn s ∧
      Since (onViews (View.TakesCandidate ⟨s, v⟩)) (onViews View.Unmarks) before ∧
      Since (onViews (View.FindsUnread s v)) (onViews (View.PutsBack s v)) before) trace

namespace Track

variable {call : CatalogCall A} {trace : List (World A × World A)}

theorem start (call : CatalogCall A) (lenient : Bool) :
    Track call [] (Ghost.start call.kind lenient) where
  kind := rfl
  claimed := nofun
  missing := nofun
  popped := nofun
  unqueued := nofun
  hand := nofun
  early h := h.elim nofun (absurd rfl)
  expected := nofun
  confined _ _ := by simp
  owes := nofun
  emptied := nofun
  noted _ _ h := h.elim nofun nofun
  visiting := nofun
  unread := nofun
  evicted _ _ := .nil

end Track

theorem not_putsPending {c : PendingCandidate} (h : u'.pending.length ≤ u.pending.length) :
    ¬View.PutsPending c u u' := by
  intro hputs
  rw [View.PutsPending] at hputs
  simp [hputs] at h

theorem not_queues (h : u'.pending.length ≤ u.pending.length) : ¬View.Queues s id v u u' := by
  rintro ⟨_, hqueues⟩
  simp [hqueues] at h

theorem not_putsCandidate {c : GcCandidate} (h : u.hand ≤ u'.hand) :
    ¬View.PutsCandidate c u u' := by
  intro hputs
  rw [View.PutsCandidate] at hputs
  have hcard := Multiset.card_le_card h
  simp [hputs] at hcard

theorem not_queuesEmpty (h : u'.empties.length ≤ u.empties.length) : ¬View.QueuesEmpty s u u' := by
  rintro ⟨_, -, hqueues⟩
  simp [hqueues] at h

theorem not_putsEmpty {c : EmptySlotCandidate} (h : u'.empties.length ≤ u.empties.length) :
    ¬View.PutsEmpty c u u' := by
  intro hputs
  rw [View.PutsEmpty] at hputs
  simp [hputs] at h

theorem Focus.unlocked_cases (f : Focus A) :
    f.unlocked = .none ∨ (∃ old, f.unlocked = .replaced old) ∨
      ∃ v reclaimAfter, f.unlocked = .leaving v reclaimAfter := by
  cases f with
  | replacing s base =>
    cases base with
    | none => exact .inl rfl
    | some old => exact .inr (.inl ⟨old, rfl⟩)
  | closing s v reclaimAfter => exact .inr (.inr ⟨v, reclaimAfter, rfl⟩)
  | _ => exact .inl rfl

/-- A call that holds the gate makes no version. -/
theorem Ghost.Fitting.not_making (hfit : x.Fitting) (hgate : x.gate = true) : x.making = .none := by
  by_contra hmak
  obtain ⟨_, hkind⟩ := hfit.staging hmak
  rcases hfit.gate hgate with h | ⟨_, h⟩ <;> cases hkind.symm.trans h

namespace Move

theorem claimed_cases (hlog : u.Logged) (hx : x.Sound u) (h : Move u x u' x')
    (hclm : x'.claimed = some (s, id)) :
    x.claimed = some (s, id) ∨ View.Claims s id u u' := by
  cases h with
  | insert owner pins =>
    cases hclm
    refine .inr ⟨fun hmem => (hlog.past _ hmem).1.false, by simp, ?_, ?_⟩
    · simp [indexed]
    · exact ⟨⟨1, owner, none, pins, .claimed⟩, by simp [active], rfl, rfl⟩
  | @claim s' next base owner pins hf =>
    cases hclm
    obtain ⟨⟨hidx, -, hnext⟩, -⟩ := hx.holds hf
    subst hnext
    refine .inr ⟨fun hmem => (hlog.past _ hmem).2.false, by simp, ?_, ?_⟩
    · simpa [indexed, setSlot] using hidx
    · exact ⟨⟨(u.slots s).nextTransactionId, owner, base, pins, .claimed⟩, by simp [active, setSlot], rfl, rfl⟩
  | _ => exact .inl hclm

theorem missing_cases (h : Move u x u' x') (hmis : x'.missing = some (s, id, v)) :
    x.missing = some (s, id, v) ∨ u.indexed s = false ∨ ¬u.StagedAt s id v := by
  cases h with
  | miss s' id' v' hmiss =>
    cases hmis
    exact .inr hmiss
  | _ => exact .inl hmis

theorem popped_cases (hx : x.Sound u) (hfit : x.Fitting) (h : Move u x u' x') {c : PendingCandidate}
    (hc : c ∈ x'.drained ++ x'.spare) :
    View.TakesPending c u u' ∨ c ∈ x.drained ++ x.spare ∧ ¬View.PutsPending c u u' := by
  cases h with
  | popSpare hgate hexp hpend =>
    rcases mem_append.mp hc with hc | hc
    · exact .inr ⟨mem_append_left _ hc, not_putsPending (by simp [hpend])⟩
    · rcases mem_cons.mp hc with rfl | hc
      · exact .inl hpend
      · exact .inr ⟨mem_append_right _ hc, not_putsPending (by simp [hpend])⟩
  | popDrained _ hpend =>
    rcases mem_cons.mp hc with rfl | hc
    · exact .inl hpend
    · exact .inr ⟨hc, not_putsPending (by simp [hpend])⟩
  | requeue d _ _ _ _ hdrn =>
    refine .inr ⟨mem_append.mpr ((mem_append.mp hc).imp_right mem_of_mem_filter), fun hputs => ?_⟩
    have hcd : d = c := by simpa [View.PutsPending] using hputs
    subst hcd
    rcases mem_append.mp hc with hc | hc
    · exact hdrn hc
    · simp at hc
  | enqueue hm =>
    have hgate := hx.drained ((mem_append.mp hc).imp ne_nil_of_mem ne_nil_of_mem)
    rw [hfit.not_making hgate] at hm
    cases hm
  | resolve | abandon =>
    refine .inr ⟨?_, not_putsPending le_rfl⟩
    exact mem_append.mpr ((mem_append.mp hc).imp mem_of_mem_filter mem_of_mem_filter)
  | @spare d _ _ _ hdrn =>
    refine .inr ⟨?_, not_putsPending le_rfl⟩
    rcases mem_append.mp hc with hc | hc
    · exact mem_append_left _ (mem_of_mem_filter hc)
    · rcases mem_cons.mp hc with rfl | hc
      · exact mem_append_left _ hdrn
      · exact mem_append_right _ hc
  | _ => exact .inr ⟨hc, not_putsPending le_rfl⟩

theorem unqueued_cases (hx : x.Sound u) (hfit : x.Fitting) (h : Move u x u' x')
    (hm : x'.making = .unqueued s id v o) :
    View.Stages s id v u u' ∨ x.making = .unqueued s id v o ∧ ¬View.Queues s id v u u' := by
  cases h with
  | @stage v' o' s' a hm' hf hph =>
    cases hm
    left
    refine ⟨?_, { a with phase := .staged v }, ?_, rfl, rfl⟩
    · rintro ⟨_, hb, -, hb'⟩
      have hactv : u.active s = some a := hx.holds hf
      cases hactv.symm.trans hb
      cases hph.symm.trans hb'
    · simp [active, setStanding, setVersion, setActive, setSlot]
  | requeue _ hgate =>
    rw [hfit.not_making hgate] at hm
    cases hm
  | popSpare _ _ hpend | popDrained _ hpend => exact .inr ⟨hm, not_queues (by simp [hpend])⟩
  | resolve s' id' v' | @abandon s' a v' =>
    refine .inr ⟨?_, not_queues le_rfl⟩
    rcases x.resolve_making s' _ v' with hsame | ⟨-, hdone⟩
    · exact hsame ▸ hm
    · cases hdone.symm.trans hm
  | make | enterGate | enqueue | leaveGate | backOut | pass | refuse | discard => cases hm
  | _ => exact .inr ⟨hm, not_queues le_rfl⟩

theorem hand_cases (h : Move u x u' x') {c : GcCandidate} (hc : x'.hand = some c) :
    View.TakesCandidate c u u' ∨ x.hand = some c ∧ ¬View.PutsCandidate c u u' := by
  cases h with
  | pop | publish =>
    cases hc
    exact .inl rfl
  | push | drop | lose | departEvicted => cases hc
  | _ => exact .inr ⟨hc, not_putsCandidate le_rfl⟩

/-- A call with a claim or a transaction changes no slot but its own. -/
theorem confined (hx : x.Sound u) (h : Move u x u' x') (hhome : x.kind.home = some home) :
    View.Confined home u u' := by
  have hset : ∀ {s y}, u'.slots = update u.slots s y → x.MayLock s → u'.lookup = u.lookup →
      View.Confined home u u' := by
    intro s y hslots hmay hlook
    refine ⟨fun s' hs' => ?_, hlook⟩
    rw [hslots, update_of_ne (hmay home hhome ▸ hs')]
  cases h with
  | insert _ _ hnone | count hnone | uncount hnone | unindex hnone => cases hnone.symm.trans hhome
  | lock hmay => exact hset rfl hmay rfl
  | unlock hlock => exact hset rfl (hx.lock _ hlock).2.2 rfl
  | claim _ _ hf | unclaim hf | stage _ hf | abandon _ hf | number hf | publish _ hf | withdraw hf | restore hf
  | expel _ hf | lose _ hf => exact hset rfl (hx.lock _ (hf ▸ rfl)).2.2 rfl
  | _ => exact ⟨fun _ _ => rfl, rfl⟩

theorem owes_cases (hx : x.Sound u) (h : Move u x u' x') (hs : s ∈ x'.owes)
    (howes : s ∈ x.owes → x.owes = [s] ∧ x.emptied = none) : x'.owes = [s] ∧ x'.emptied = none ∧
      (View.Clears s u u' ∨ s ∈ x.owes ∧ ¬View.QueuesEmpty s u u') := by
  -- the call clears a slot and owes nothing else
  have hclr : ∀ {s'}, x'.owes = s' :: x.owes → x'.emptied = x.emptied → x.Clean →
      View.Clears s' u u' → x'.owes = [s] ∧ x'.emptied = none ∧
      (View.Clears s u u' ∨ s ∈ x.owes ∧ ¬View.QueuesEmpty s u u') := by
    intro s' howes' hempd hcln hclears
    rw [howes', hcln.1, mem_singleton] at hs
    subst hs
    exact ⟨by rw [howes', hcln.1], hempd.trans hcln.2, .inl hclears⟩
  -- the call is done with another slot
  have herase : ∀ {s'}, x'.owes = x.owes.erase s' → x'.emptied = x.emptied →
      (s ≠ s' → ¬View.QueuesEmpty s u u') → x'.owes = [s] ∧ x'.emptied = none ∧
      (View.Clears s u u' ∨ s ∈ x.owes ∧ ¬View.QueuesEmpty s u u') := by
    intro s' howes' hempd hqueues
    rw [howes'] at hs
    have hmem := mem_of_mem_erase hs
    obtain ⟨hsingle, hnone⟩ := howes hmem
    rw [hsingle] at hs
    have hne : s ≠ s' := by
      rintro rfl
      simp at hs
    refine ⟨?_, hempd.trans hnone, .inr ⟨hmem, hqueues hne⟩⟩
    rw [howes', hsingle, erase_of_not_mem (by simpa using hne.symm)]
  have hbusy : ∀ {s a}, x.focus = .busy s a → u.active s ≠ none := by
    intro s a hf
    rw [show u.active s = some a from hx.holds hf]
    exact Option.some_ne_none a
  cases h with
  | unclaim hf _ hcln =>
    refine hclr rfl rfl hcln (.inl ⟨hbusy hf, ?_⟩)
    simp [active, setActive, setSlot]
  | abandon _ hf _ hcln =>
    refine hclr rfl rfl hcln (.inl ⟨hbusy hf, ?_⟩)
    simp [active, setStanding, setVersion, setActive, setSlot]
  | withdraw hf hcln | expel _ hf hcln =>
    refine hclr rfl rfl hcln (.inr ⟨by simp [(hx.holds hf).2], ?_⟩)
    simp [committed, setStanding, setVersion, setCommitted, setSlot]
  | lose _ hf _ _ hcln =>
    refine hclr rfl rfl hcln (.inr ⟨by simp [(hx.holds hf).2.1], ?_⟩)
    simp [committed, setStanding, setVersion, setCommitted, setSlot]
  | settle | restore => exact herase rfl rfl fun _ => not_queuesEmpty le_rfl
  | enqueueEmpty c =>
    refine herase rfl rfl ?_
    rintro hne ⟨d, rfl, hqueues⟩
    have hcd : c = d := by simpa using hqueues
    exact hne (hcd ▸ rfl)
  | popEmpty _ hcln =>
    rw [hcln.1] at hs
    cases hs
  | pushEmpty hempd => cases (howes hs).2.symm.trans hempd
  | dropEmpty | unindex => exact ⟨(howes hs).1, rfl, .inr ⟨hs, not_queuesEmpty le_rfl⟩⟩
  | _ => exact ⟨(howes hs).1, (howes hs).2, .inr ⟨hs, not_queuesEmpty le_rfl⟩⟩

theorem emptied_cases (h : Move u x u' x') {c : EmptySlotCandidate} (hc : x'.emptied = some c)
    (howes : x.emptied = some c → x.owes = []) : x'.owes = [] ∧
      (View.TakesEmpty c u u' ∨ x.emptied = some c ∧ ¬View.PutsEmpty c u u') := by
  cases h with
  | popEmpty hemps hcln =>
    cases hc
    exact ⟨hcln.1, .inl hemps⟩
  | unclaim _ _ hcln | abandon _ _ _ hcln | withdraw _ hcln | expel _ _ hcln | lose _ _ _ _ hcln =>
    cases hcln.2.symm.trans hc
  | enqueueEmpty _ _ hmem =>
    rw [howes hc] at hmem
    cases hmem
  | pushEmpty | dropEmpty | unindex => cases hc
  | settle | restore => exact ⟨by rw [howes hc]; rfl, .inr ⟨hc, not_putsEmpty le_rfl⟩⟩
  | _ => exact ⟨howes hc, .inr ⟨hc, not_putsEmpty le_rfl⟩⟩

theorem noted_cases (hx : x.Sound u) (h : Move u x u' x')
    (hf' : x'.focus = .noted v deadline ∨ x'.focus = .returned v deadline) :
    (x.focus = .noted v deadline ∨ x.focus = .returned v deadline) ∨
    (u'.versions v).recent = true := by
  cases h with
  | mark hf =>
    right
    rcases hf' with hf' | hf'
    · cases hf'
      simp [setVersion, (hx.holds hf).1]
    · cases hf'
  | confirm _ hf =>
    rcases hf' with hf' | hf' <;> cases hf'
    exact .inl (.inl hf)
  | observe _ _ _ hfoc =>
    rcases hfoc with rfl | ⟨rfl, -⟩
    · exact .inl hf'
    · rcases hf' with hf' | hf' <;> cases hf'
  | unlock =>
    rcases x.focus.unlocked_cases with hu | ⟨_, hu⟩ | ⟨_, _, hu⟩ <;>
      rcases hf' with hf' | hf' <;> cases hu.symm.trans hf'
  | see | sample | raise | retry | lock | keep | free | base | meet | vacant | point | hollow | idle | examine
  | condemn | claim | unclaim | stage | abandon | agree | number | record | publish | sampleReplaced | withdraw
  | restore | depart | departEvicted | expel | lose | prune | retire | popRetired | take =>
    rcases hf' with hf' | hf' <;> cases hf'
  | _ => exact .inl hf'

/-- Only a collector clears the mark of a committed version, and it takes note of it. -/
theorem recent_cases (hu : u.Wellformed) (h : Move u x u' x') (hseal : (u.versions v).sealed = true)
    (hrcn : (u.versions v).recent = true) :
    (u'.versions v).recent = true ∨ x'.notes.cleared = true ∧ ∃ now, x.kind = .collecting now := by
  have hset : ∀ {w y}, u'.versions = update u.versions w y →
      ((u.versions w).sealed = true → (u.versions w).recent = true → y.recent = true) →
      (u'.versions v).recent = true := by
    intro w y hvers hy
    rcases View.version_of_update hvers v with hsame | ⟨rfl, hnew⟩
    · rwa [hsame]
    · rw [hnew]
      exact hy hseal hrcn
  cases h with
  | make => exact .inl (hset rfl fun hs => by simp [(hu.unborn le_rfl).2] at hs)
  | record _ _ _ _ _ hunsealed => exact .inl (hset rfl fun hs => by simp [hunsealed] at hs)
  | unmark w hkind =>
    by_cases hw : v = w
    · subst hw
      exact .inr ⟨by simp [hrcn], _, hkind⟩
    · exact .inl (by simpa [setVersion, hw] using hrcn)
  | mark => exact .inl (hset rfl fun hs _ => by simp [hs])
  | @publish s a w =>
    obtain ⟨_, haft⟩ := u.version_publish a.base w (.published s) v
    left
    change (((u.detach a.base).setStanding w (.published s)).versions v).recent = true
    rwa [haft]
  | raise | pass | refuse | discard | unpin | prune | take | stage | abandon | sampleReplaced
  | withdraw | restore | depart | departEvicted | expel | lose => exact .inl (hset rfl fun _ hr => hr)
  | _ => exact .inl hrcn

theorem visiting_cases (hu : u.Wellformed) (h : Move u x u' x') {c : GcCandidate}
    (hc : x'.hand = some c) (hclr : x'.notes.cleared = false) :
    View.TakesCandidate c u u' ∨ (x.hand = some c ∧ x.notes.cleared = false) ∧
    ¬View.Unmarks u u' := by
  rcases h.hand_cases hc with hnow | ⟨hold, -⟩
  · exact .inl hnow
  refine .inr ⟨⟨hold, ?_⟩, ?_⟩
  · cases h with
    | unmark => exact (Bool.or_eq_false_iff.mp hclr).1
    | pop _ hnone => cases hnone.symm.trans hold
    | _ => exact hclr
  · rintro ⟨_, hseal, hrcn, hrcn'⟩
    rcases h.recent_cases hu hseal hrcn with hkept | ⟨hclr', -⟩
    · cases hrcn'.symm.trans hkept
    · cases hclr.symm.trans hclr'

theorem unread_cases (hx : x.Sound u) (h : Move u x u' x')
    (hf' : x'.focus = .taken s v) (hunr : x'.notes.unread = some v) :
    x.focus = .taken s v ∧ x.notes.unread = some v ∨ u.Unread s v := by
  cases h with
  | unmark w =>
    right
    cases hrcn : (u.versions w).recent with
    | true => simp [hrcn] at hunr
    | false =>
      obtain rfl : w = v := by simpa [hrcn] using hunr
      exact ⟨hx.holds hf', hrcn⟩
  | observe _ _ _ hfoc =>
    rcases hfoc with rfl | ⟨rfl, -⟩
    · exact .inl ⟨hf', hunr⟩
    · cases hf'
  | unlock =>
    rcases x.focus.unlocked_cases with hu | ⟨_, hu⟩ | ⟨w, _, hu⟩ <;> cases hu.symm.trans hf'
  | withdraw | pop => cases hunr
  | see | sample | raise | mark | confirm | retry | lock | keep | free | base | meet | vacant | point | hollow
  | idle | examine | condemn | claim | unclaim | stage | abandon | agree | number | record | publish
  | sampleReplaced | restore | depart | departEvicted | expel | lose | prune | retire
  | popRetired | take =>
    cases hf'
  | _ => exact .inl ⟨hf', hunr⟩

theorem lenient (h : Move u x u' x') : x'.lenient = x.lenient := by cases h <;> rfl

/-- A collector takes a version with a live replica off its slot by eviction only. -/
theorem evicts (hu : u.Wellformed) (hx : x.Sound u) (h : Move u x u' x')
    (hkind : x.kind = .collecting now) (hlvs : View.Leaves s v u u') (hlive : u.HasLive v) :
    u.Evictable now x.lenient s v ∧ x.focus = .taken s v ∧ x.notes.unread = some v ∧
      x.hand = some ⟨s, v⟩ ∧ x.notes.cleared = false := by
  obtain ⟨hat, hgone⟩ := hlvs
  rcases h.standing_cases v with hsame | hturn
  · rw [hsame] at hgone
    generalize u.standing v = standing at hat hgone
    cases standing <;> cases hgone <;> cases hat
  generalize u'.standing v = after at hturn hgone
  cases hturn with
  | make | stage | publish | withdraw | restore => cases hgone
  | abandon _ hf hph =>
    rw [(hu.staged (hx.holds hf) hph).1] at hat
    cases hat
  | replace hkind' => cases hkind.symm.trans hkind'
  | sample hf =>
    rw [show u.standing v = _ from hx.holds hf] at hat
    cases hat
  | depart _ _ hkind' => exact absurd hkind (hkind' now)
  | expel _ hkind' => cases hkind.symm.trans hkind'
  | evict hf hle hhand hkind' hunp hunr hclr hsoft =>
    cases hkind.symm.trans hkind'
    have hstd : u.standing v = _ := hx.holds hf
    rw [hstd] at hat
    cases of_decide_eq_true hat
    refine ⟨⟨(hx.notes.1 v hunp).2, hle, hsoft.imp_left fun hsoft => ?_, (hu.withdrawn hstd).2.1⟩,
      hf, hunr, hhand, hclr⟩
    obtain ⟨-, _, hkind', hdue⟩ := hx.notes.2 v hsoft
    cases hkind.symm.trans hkind'
    exact hdue
  | lose hf _ hdead =>
    obtain ⟨r, hr, hr'⟩ := hlive
    rw [(hx.holds hf).2.2] at hr
    exact absurd hr' (by simp [hx.dead _ (hdead r hr)])

theorem early_cases (h : Move u x u' x') (hgate : x'.gate = true ∨ x'.expected ≠ none) :
    (x.gate = true ∨ x.expected ≠ none) ∧ x'.early = x.early ∨
      u.stepGate = false ∧ u'.stepGate = true ∧ u.pending = x'.early := by
  cases h with
  | gate _ hfree => exact .inr ⟨hfree, rfl, rfl⟩
  | ungate hgate' => exact .inl ⟨.inl hgate', rfl⟩
  | expect _ hgate' => exact .inl ⟨.inl hgate', rfl⟩
  | _ => exact .inl ⟨hgate, rfl⟩

theorem expected_cases (h : Move u x u' x') (hfnd : x'.expected = some found) :
    x.expected = some found ∨ u.pending = found := by
  cases h with
  | expect => exact .inr (Option.some.inj hfnd)
  | _ => exact .inl hfnd

end Move

section Runs

variable {gs : ℕ → Ghost A} {t : ℕ} {w w' : World A}

theorem Track.step (hcore : Core w.view gs) (hmove : Move w.view (gs t) w'.view x')
    (h : Track call trace (gs t)) :
    Track call (trace ++ [(w, w')]) x' where
  kind := hmove.kind.trans h.kind
  claimed s id hclm := exists_append
    ((hmove.claimed_cases hcore.logged (hcore.sound t) hclm).imp_left (h.claimed s id))
  missing s id v hmis := exists_append ((hmove.missing_cases hmis).imp_left (h.missing s id v))
  popped c hc := by
    rcases hmove.popped_cases (hcore.sound t) (hcore.fitting t) hc with hnow | ⟨hold, hkept⟩
    · exact Since.now hnow
    · exact (h.popped c hold).still hkept
  unqueued s id v o hm := by
    rcases hmove.unqueued_cases (hcore.sound t) (hcore.fitting t) hm with hnow | ⟨hold, hkept⟩
    · exact Since.now hnow
    · exact (h.unqueued s id v o hold).still hkept
  hand c hc := by
    rcases hmove.hand_cases hc with hnow | ⟨hold, hkept⟩
    · exact Since.now hnow
    · exact (h.hand c hold).still hkept
  early hgate := by
    rcases hmove.early_cases hgate with ⟨hgate', hsame⟩ | hnow
    · rw [hsame]
      exact exists_append (.inl (h.early hgate'))
    · exact exists_append (.inr hnow)
  expected found hfnd := exists_append ((hmove.expected_cases hfnd).imp_left (h.expected found))
  confined home hhome := forall_mem_append.mpr ⟨h.confined home hhome,
    forall_mem_singleton.mpr (hmove.confined (hcore.sound t) (h.kind ▸ hhome))⟩
  owes s hs := by
    obtain ⟨hsingle, hempd, hclears⟩ :=
      hmove.owes_cases (hcore.sound t) hs fun hs => ⟨(h.owes s hs).1, (h.owes s hs).2.1⟩
    refine ⟨hsingle, hempd, ?_⟩
    rcases hclears with hnow | ⟨hold, hkept⟩
    · exact Since.now hnow
    · exact (h.owes s hold).2.2.still hkept
  emptied c hc := by
    obtain ⟨howes, htakes⟩ := hmove.emptied_cases hc fun hc => (h.emptied c hc).1
    refine ⟨howes, ?_⟩
    rcases htakes with hnow | ⟨hold, hkept⟩
    · exact Since.now hnow
    · exact (h.emptied c hold).2.still hkept
  noted v deadline hf :=
    exists_append ((hmove.noted_cases (hcore.sound t) hf).imp_left (h.noted v deadline))
  visiting c hc hclr := by
    rcases hmove.visiting_cases hcore.wellformed hc hclr with hnow | ⟨⟨hold, hclr'⟩, hkept⟩
    · exact Since.now hnow
    · exact (h.visiting c hold hclr').still hkept
  unread s v hf hunr := by
    have hsound := (hcore.step hmove).sound t
    rw [update_self] at hsound
    have hoff : w'.view.standing v = .withdrawn s := hsound.holds hf
    rcases hmove.unread_cases (hcore.sound t) hf hunr with ⟨hf', hunr'⟩ | hnow
    · refine (h.unread s v hf' hunr').still ?_
      have hoff' : w.view.standing v = .withdrawn s := (hcore.sound t).holds hf'
      exact fun hback => hback.elim (absurd hoff') (absurd hoff)
    · exact Since.now ⟨hnow, hoff⟩
  evicted now hkind := by
    rw [hmove.lenient]
    refine (h.evicted now hkind).append fun s v hlvs hlive => ?_
    obtain ⟨hevi, hf, hunr, hhand, hclr⟩ :=
      hmove.evicts hcore.wellformed (hcore.sound t) (h.kind.trans hkind) hlvs hlive
    exact ⟨hevi, (hcore.sound t).holds hf, h.visiting _ hhand hclr, h.unread s v hf hunr⟩

theorem Core.new (h : w.New) : Core w.view fun _ => Ghost.start .other := by
  have hcomm : ∀ s, w.view.committed s = none := fun s => (h.slots s).1
  have hactv : ∀ s, w.view.active s = none := fun s => (h.slots s).2.1
  have hstd : ∀ v, w.view.standing v = .unborn := fun v => (h.versions v).1
  have hlook : ∀ i, w.view.lookup i = none := fun i => by
    simp [World.view, World.lookupSlot, h.index]
  have hseal : ∀ v, (w.view.versions v).sealed = false := fun v => by
    simp [World.view, ObjectVersion.view, (h.versions v).2.1]
  have hrcl : ∀ v, (w.view.versions v).reclaimed = false := fun v => (h.versions v).2.2
  refine {
    wellformed := {
      committed := by simp [hcomm], published := by simp [hstd], staged := by simp [hactv]
      base := by simp [hactv], withdrawn := by simp [hstd], used := by simp [hcomm, hactv]
      index := by simp [hlook], unborn := fun {v} _ => ⟨hstd v, hseal v⟩
      sane := fun v => ⟨?_, ?_, ?_⟩
      stageGate := ?_, queue := ?_, empties := ?_ }
    logged := {
      begun := ?_, past := ?_, active := by simp [hactv], resolved := ?_, once := ?_, increasing := ?_
      onSlot := by simp [hstd, Standing.isAt] }
    retiring := ?_
    sound := fun _ => .start _ _ _, fitting := fun _ => .start _ _, apart := fun _ _ _ =>
      .start _ _ _
    taken := by simp [hstd], sealing := by simp [hactv] }
  · rw [show (w.view.versions v).standing = _ from hstd v]
    rintro ⟨⟩
  · simp [hrcl]
  · simp [show (w.view.versions v).standing = _ from hstd v]
  · simp [World.view, h.pending]
  · simp [World.view, h.pending]
  · simp [World.view, h.emptySlots]
  · simp [World.view, h.history]
  · simp [World.view, h.history]
  · simp [World.view, h.history]
  · simp [World.view, h.history]
  · simp [World.view, h.history]
  · simp [View.Retiring, World.view, h.retired]

/-! ### Properties of runs -/

/-- The calls that have returned. -/
abbrev Returned (A : UnitAllocator) := List (Completed (World A) ℕ (CatalogCall A) CatalogResult)

/-- A property of the store, the calls and those that have returned, which holds of a new
catalog and is kept by every move allowed by `ok`, by every call and by every return. -/
structure Lasting (cfg : CatalogConfig) (ok : View A → View A → Prop)
    (P : View A → (ℕ → Ghost A) → Returned A → Prop) : Prop where
  new : ∀ {w : World A}, w.New → P w.view (fun _ => Ghost.start .other) []
  invoke : ∀ {u gs done t} (call : CatalogCall A), Core u gs → P u gs done →
    gs t = Ghost.start .other → P u (update gs t (Ghost.start call.kind (call.lenient cfg))) done
  step : ∀ {u gs done t u' x'}, Core u gs → P u gs done → Move u (gs t) u' x' → ok u u' →
    P u' (update gs t x') done
  finish : ∀ {u gs done t call result trace}, Core u gs → P u gs done → call.Post result (gs t) →
    Track call trace (gs t) →
    P u (update gs t (Ghost.start .other)) (⟨t, call, result, trace⟩ :: done)

variable {cfg : CatalogConfig} {ok : View A → View A → Prop}
  {P Q : View A → (ℕ → Ghost A) → Returned A → Prop}

theorem Lasting.and (hP : Lasting cfg ok P) (hQ : Lasting cfg ok Q) :
    Lasting cfg ok fun u gs done => P u gs done ∧ Q u gs done where
  new h := ⟨hP.new h, hQ.new h⟩
  invoke call hcore h hidle := ⟨hP.invoke call hcore h.1 hidle, hQ.invoke call hcore h.2 hidle⟩
  step hcore h hmove hok := ⟨hP.step hcore h.1 hmove hok, hQ.step hcore h.2 hmove hok⟩
  finish hcore h hpost htrk := ⟨hP.finish hcore h.1 hpost htrk, hQ.finish hcore h.2 hpost htrk⟩

theorem Lasting.trivial : Lasting (A := A) cfg ok fun _ _ _ => True :=
  ⟨fun _ => True.intro, fun _ _ _ _ => True.intro, fun _ _ _ _ => True.intro, fun _ _ _ _ => True.intro⟩

variable {hooks : WatermarkHooks A}

theorem Lasting.keeps (h : Lasting cfg ok P) : (catalogOutline cfg hooks).Keeps (onViews ok) Track
    fun w gs done => Core w.view gs ∧ P w.view gs done where
  init w hw := ⟨.new hw, h.new hw⟩
  track_start call := .start call _
  track_step hinv hmove htrk := .step hinv.1 hmove htrk
  invoke {w gs done} t call hinv hidle := by
    have hlock : (gs t).focus.lock = none := by
      rw [hidle]
      rfl
    exact ⟨hinv.1.restart hlock _ _, h.invoke call hinv.1 hinv.2 hidle⟩
  step hinv hmove hok := ⟨hinv.1.step hmove, h.step hinv.1 hinv.2 hmove hok⟩
  finish hinv hpost htrk :=
    ⟨hinv.1.restart (CatalogCall.Post.atRest hpost).lock _ _, h.finish hinv.1 hinv.2 hpost htrk⟩
  env {w w' gs done} hinv henv hok := by
    have hmove := World.Outside.move henv (gs 0)
    have hcore := hinv.1.step hmove
    have hP := h.step hinv.1 hinv.2 hmove hok
    rw [update_eq_self] at hcore hP
    exact ⟨hcore, hP⟩

theorem Lasting.reachable (h : Lasting cfg ok P)
    (hrch : (catalogSystem cfg hooks).ReachableVia (onViews ok) c) :
    ∃ gs, Outline.Ghosts (catalogOutline cfg hooks) Track c gs ∧ Core c.shared.view gs ∧
      P c.shared.view gs c.completed := Outline.reachable h.keeps hrch

theorem exists_core (hrch : (catalogSystem cfg hooks).Reachable c) :
    ∃ gs, Outline.Ghosts (catalogOutline cfg hooks) Track c gs ∧ Core c.shared.view gs := by
  have htrivial : Lasting (A := A) cfg (fun _ _ => True) fun _ _ _ => True := Lasting.trivial
  obtain ⟨gs, hgh, hcore, -⟩ := htrivial.reachable hrch
  exact ⟨gs, hgh, hcore⟩

/-- What a step does to the store: nothing, what the rest of the program may do, or one
move of a running call. -/
theorem Lasting.transition (h : Lasting cfg ok P)
    (hrch : (catalogSystem cfg hooks).ReachableVia (onViews ok) c)
    (hstep : (catalogSystem cfg hooks).Step c c') :
    ∃ gs, Core c.shared.view gs ∧ P c.shared.view gs c.completed ∧
      (c'.shared = c.shared ∨ c.shared.Outside c'.shared ∨ ∃ t r prog x', c.threads t = some r ∧
        Track r.call r.trace (gs t) ∧ Move c.shared.view (gs t) c'.shared.view x' ∧
        c'.threads t = some ⟨r.call, prog, r.trace ++ [(c.shared, c'.shared)]⟩) := by
  obtain ⟨gs, hgh, ⟨hcore, hP⟩, hcases⟩ := Outline.transition h.keeps hrch hstep
  refine ⟨gs, hcore, hP, hcases.imp_right (Or.imp_right ?_)⟩
  rintro ⟨t, r, prog, x', hthr, hmove, hthr'⟩
  exact ⟨t, r, prog, x', hthr, (hgh.running t r hthr).2, hmove, hthr'⟩

/-- A step is a move of some thread, or leaves the store as it is. -/
theorem Lasting.moves (h : Lasting cfg ok P)
    (hrch : (catalogSystem cfg hooks).ReachableVia (onViews ok) c)
    (hstep : (catalogSystem cfg hooks).Step c c') :
    ∃ gs, Core c.shared.view gs ∧
    (c'.shared = c.shared ∨ ∃ t x', Move c.shared.view (gs t) c'.shared.view x') := by
  obtain ⟨gs, hcore, -, hcases⟩ := h.transition hrch hstep
  refine ⟨gs, hcore, hcases.imp_right ?_⟩
  rintro (henv | ⟨t, _, _, x', -, -, hmove, -⟩)
  · exact ⟨0, _, henv.move (gs 0)⟩
  · exact ⟨t, x', hmove⟩

end Runs

end Cakemaster.Object
