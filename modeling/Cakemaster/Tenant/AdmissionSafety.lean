import Cakemaster.Machine.Trace
import Cakemaster.Tenant.Admission
import Mathlib.Algebra.BigOperators.Fin

/-!
# Safety of admission

Demand is the admitted bytes plus what running calls have raised or are about to
give back, the epoch counts the policy updates modulo `2 ^ 64`, and a call that
still sees its epoch has seen the quota in force, unless the epoch has gone round
once in between.
-/

namespace Cakemaster.Tenant

open Machine Machine.Prog Function QuotaAccount Bool Nat Finset List

namespace Phase

variable {phase' : Phase} {x : AdmissionGhost}

/-- The bytes that a call in this phase has in the demand. -/
def owed (bytes : ℕ) : Phase → ℕ
  | raised .. | granted _ | lowering .. => bytes
  | _ => 0

/-- Whether the current attempt of a reservation has raised the demand. -/
def raisedNow : Phase → Option Bool
  | seeking | watching .. | limited .. => some false
  | raised .. | granted _ | counted _ => some true
  | lowering retry _ => if retry then some true else none
  | _ => none

/-- The raise of the current attempt respected the quota in force. -/
def good : Phase → Bool
  | raised _ _ good | granted good | counted good => good
  | _ => false

def holdsLock : Phase → Bool
  | locked | opened | stored | closed => true
  | _ => false

def isUpdating : Phase → Bool
  | opened | stored => true
  | _ => false

end Phase

namespace QuotaAccount

/-- The epoch without wrapping. -/
def epochCount (a : QuotaAccount) : ℕ := 2 * a.updatesStarted - a.updating.toNat

end QuotaAccount

/-- The changes of the demand by a reservation: undone attempts, then perhaps a raise. -/
def changesOf (undone bytes : ℕ) (raised : Bool) : List ℤ :=
  ((replicate undone [(bytes : ℤ), -bytes]).flatten ++ if raised then [(bytes : ℤ)] else []).filter
    (· ≠ 0)

def traceChanges (trace : List (AdmissionState × AdmissionState)) : List ℤ :=
  trace.flatMap fun p => demandChange p.1.account p.2.account

def Admits (bytes : ℕ) (s s' : AdmissionState) : Prop := AdmitsAt bytes s.account s'.account

def ChangesDemand (s s' : AdmissionState) : Prop := s'.account.demand ≠ s.account.demand

/-- The ghost of a call agrees with the transitions that the call has made. -/
structure Tracks (trace : List (AdmissionState × AdmissionState)) (x : AdmissionGhost) : Prop where
  changes : x.changes = traceChanges trace
  first : x.first = trace.head?.map (·.1.account.updatesStarted)
  last : x.last = trace.getLast?.map (·.2.account.updatesStarted)
  good : x.phase.good = true → Since (Admits x.bytes) ChangesDemand trace

theorem tracks_start (call : AdmissionCall) : Tracks [] (.startOf call) := by
  cases call <;> exact ⟨rfl, rfl, rfl, by simp [AdmissionGhost.startOf, AdmissionGhost.start, Phase.good]⟩

/-- A phase is good because it was good before or because this very step raised
the demand under the quota in force. -/
theorem good_of_move (h : Move bytes s phase s' phase') (hgood : phase'.good = true) :
    phase.good = true ∧ ¬ChangesDemand s s' ∨ Admits bytes s s' := by
  cases h with
  | account h =>
    cases h with
    | raise =>
      have hadmits : AdmitsAt bytes s.account _ := of_decide_eq_true hgood
      exact .inr hadmits
    | confirm => exact .inl ⟨hgood, not_not.mpr rfl⟩
    | @lower retry => cases retry <;> cases hgood
    | _ => cases hgood
  | accept => exact .inl ⟨hgood, not_not.mpr rfl⟩
  | take | lock | unlock => cases hgood

theorem tracks_step (h : AdmissionStep s x s' x') (htracks : Tracks trace x) :
    Tracks (trace ++ [(s, s')]) x' := by
  obtain ⟨_, hmove, rfl⟩ := h
  obtain ⟨hchanges, _, _, hgood⟩ := htracks
  constructor
  · simp [AdmissionGhost.observe, traceChanges, hchanges]
  · cases trace <;> simp_all [AdmissionGhost.observe]
  · simp [AdmissionGhost.observe]
  · intro hph
    rcases good_of_move hmove hph with ⟨hold, hsame⟩ | hadmits
    · exact (hgood hold).still hsame
    · exact .now hadmits

/-- What a phase says about the account, in a way that no other thread disturbs. -/
def PhaseInvariant (a : QuotaAccount) (x : AdmissionGhost) : Prop :=
  match x.phase with
  | .watching epoch started =>
    epoch = (2 * started) % 2 ^ 64 ∧ started ≤ a.updatesStarted ∧
      (∃ f, x.first = some f ∧ f ≤ started) ∧ (a.updatesStarted = started → a.updating = false)
  | .limited epoch started effective =>
    epoch = (2 * started) % 2 ^ 64 ∧ started ≤ a.updatesStarted ∧
      (∃ f, x.first = some f ∧ f ≤ started) ∧
      (a.updatesStarted = started → a.updating = false ∧ a.effective = effective)
  | .raised epoch started good =>
    epoch = (2 * started) % 2 ^ 64 ∧ started ≤ a.updatesStarted ∧
      (∃ f, x.first = some f ∧ f ≤ started) ∧ (good = false → started < a.updatesStarted)
  | .granted good | .counted good =>
    good = false → ∃ f l, x.first = some f ∧ x.last = some l ∧ f + 2 ^ 63 ≤ l
  | .lowering _ (some seen) => x.bytes ≤ seen
  | _ => True

structure ThreadInvariant (a : QuotaAccount) (x : AdmissionGhost) : Prop where
  first_le : ∀ f, x.first = some f → f ≤ a.updatesStarted
  last_le : ∀ l, x.last = some l → l ≤ a.updatesStarted
  changes : ∀ raised, x.phase.raisedNow = some raised → ∃ n, x.changes = changesOf n x.bytes raised
  phase : PhaseInvariant a x

/-- What one thread's step means to the others: updates are only ever begun, and
while none has begun the quota in force stays. -/
structure Quiet (a a' : QuotaAccount) : Prop where
  started_le : a.updatesStarted ≤ a'.updatesStarted
  same : a'.updatesStarted = a.updatesStarted → a.updating = false →
    a'.updating = false ∧ a'.effective = a.effective

theorem ThreadInvariant.of_quiet (hqt : Quiet a a') (h : ThreadInvariant a x) :
    ThreadInvariant a' x := by
  obtain ⟨hle, hsame⟩ := hqt
  obtain ⟨hfirst, hlast, hchanges, hph⟩ := h
  refine ⟨fun f hf => (hfirst f hf).trans hle, fun l hl => (hlast l hl).trans hle, hchanges, ?_⟩
  unfold PhaseInvariant at hph ⊢
  split
  case h_1 epoch started heq =>
    simp only [heq] at hph
    obtain ⟨hep, hstrd, hf, hupdt⟩ := hph
    refine ⟨hep, hstrd.trans hle, hf, fun h => ?_⟩
    have hback : a.updatesStarted = started := by omega
    exact (hsame (h.trans hback.symm) (hupdt hback)).1
  case h_2 epoch started effective heq =>
    simp only [heq] at hph
    obtain ⟨hep, hstrd, hf, hupdt⟩ := hph
    refine ⟨hep, hstrd.trans hle, hf, fun h => ?_⟩
    have hback : a.updatesStarted = started := by omega
    obtain ⟨hupd, heff⟩ := hupdt hback
    obtain ⟨hupd', heff'⟩ := hsame (h.trans hback.symm) hupd
    exact ⟨hupd', heff'.trans heff⟩
  case h_3 epoch started good heq =>
    simp only [heq] at hph
    obtain ⟨hep, hstrd, hf, hgood⟩ := hph
    exact ⟨hep, hstrd.trans hle, hf, fun h => (hgood h).trans_le hle⟩
  all_goals simp_all

structure AdmissionInvariant {ι : Type} [Fintype ι] (s : AdmissionState) (gs : ι → AdmissionGhost) :
    Prop where
  epoch : s.account.policyEpoch = s.account.epochCount % 2 ^ 64
  begun : s.account.updating = true → 0 < s.account.updatesStarted
  lock : ∀ t, (gs t).phase.holdsLock = true →
    s.policyLock = true ∧ s.account.updating = (gs t).phase.isUpdating
  unlocked : s.policyLock = false → s.account.updating = false
  unique : ∀ t u, (gs t).phase.holdsLock = true → (gs u).phase.holdsLock = true → t = u
  demand : s.account.demand = s.admitted + ∑ t, (gs t).phase.owed (gs t).bytes
  sound : s.account.underflowed = false
  thread : ∀ t, ThreadInvariant s.account (gs t)

section Step

variable {s s' : AdmissionState} {phase : Phase} {bytes : ℕ}

section

variable (hmove : Move bytes s phase s' phase')
include hmove

section

variable (hupdt : phase.holdsLock = true → s.account.updating = phase.isUpdating)
include hupdt

theorem quiet_of_move : Quiet s.account s'.account := by
  cases hmove with
  | account h =>
    cases h with
    | beginUpdate => exact ⟨le_succ _, fun h => absurd h (succ_ne_self _)⟩
    | setEffective =>
      refine ⟨le_refl _, fun _ hnot => ?_⟩
      rw [hupdt rfl] at hnot
      cases hnot
    | endUpdate => exact ⟨le_refl _, fun _ _ => ⟨rfl, rfl⟩⟩
    | _ => exact ⟨le_refl _, fun _ h => ⟨h, rfl⟩⟩
  | _ => exact ⟨le_refl _, fun _ h => ⟨h, rfl⟩⟩

theorem epoch_of_move (hep : s.account.policyEpoch = s.account.epochCount % 2 ^ 64)
    (hbgn : s.account.updating = true → 0 < s.account.updatesStarted) :
    s'.account.policyEpoch = s'.account.epochCount % 2 ^ 64 ∧
      (s'.account.updating = true → 0 < s'.account.updatesStarted) := by
  cases hmove with
  | account h =>
    cases h with
    | beginUpdate =>
      have hidle : s.account.updating = false := hupdt rfl
      refine ⟨?_, fun _ => succ_pos _⟩
      simp only [epochCount, beginUpdate, Word.wrapAdd, hep, hidle,
        toNat_false, toNat_true]
      omega
    | endUpdate =>
      have hbusy : s.account.updating = true := hupdt rfl
      have hpos := hbgn hbusy
      refine ⟨?_, fun h => absurd h false_ne_true⟩
      simp only [epochCount, endUpdate, Word.wrapAdd, hep, hbusy,
        toNat_false, toNat_true]
      omega
    | _ => exact ⟨hep, hbgn⟩
  | _ => exact ⟨hep, hbgn⟩

end

theorem lock_of_move
    (hupdt : phase.holdsLock = true → s.policyLock = true ∧ s.account.updating = phase.isUpdating)
    (hunl : s.policyLock = false → s.account.updating = false) :
    (phase'.holdsLock = true → s'.policyLock = true ∧ s'.account.updating = phase'.isUpdating) ∧
    (s'.policyLock = false → s'.account.updating = false) ∧
    (phase'.holdsLock = true → phase.holdsLock = true ∨ s.policyLock = false) ∧
    (phase.holdsLock = false → s'.account.updating = s.account.updating) ∧
    (s'.policyLock = s.policyLock ∨ phase.holdsLock = true ∨ s.policyLock = false) := by
  cases hmove with
  | account h =>
    cases h with
    | @lower retry =>
      refine ⟨?_, hunl, ?_, fun _ => rfl, .inl rfl⟩ <;> cases retry <;> intro h <;> cases h
    | beginUpdate =>
      obtain ⟨hlock, -⟩ := hupdt rfl
      refine ⟨fun _ => ⟨hlock, rfl⟩, fun hfree => ?_, fun _ => .inl rfl, fun h => (by cases h), .inl rfl⟩
      rw [show s.policyLock = false from hfree] at hlock
      cases hlock
    | setEffective =>
      exact ⟨fun _ => hupdt rfl, hunl, fun _ => .inl rfl, fun _ => rfl, .inl rfl⟩
    | endUpdate =>
      exact ⟨fun _ => ⟨(hupdt rfl).1, rfl⟩, fun _ => rfl, fun _ => .inl rfl, fun h => (by cases h), .inl rfl⟩
    | _ => exact ⟨fun h => (by cases h), hunl, fun h => (by cases h), fun _ => rfl, .inl rfl⟩
  | lock hfree =>
    exact ⟨fun _ => ⟨rfl, hunl hfree⟩, fun h => (by cases h), fun _ => .inr hfree, fun _ => rfl,
      .inr (.inr hfree)⟩
  | unlock =>
    exact ⟨fun h => (by cases h), fun _ => (hupdt rfl).2, fun h => (by cases h), fun _ => rfl, .inr (.inl rfl)⟩
  | _ => exact ⟨fun h => (by cases h), hunl, fun h => (by cases h), fun _ => rfl, .inl rfl⟩

/-- Demand stays the admitted bytes plus what all calls owe; nothing underflows. -/
theorem demand_of_move (hdem : s.account.demand = s.admitted + (rest + phase.owed bytes))
    (hseen : ∀ retry seen, phase = .lowering retry (some seen) → bytes ≤ seen)
    (hsnd : s.account.underflowed = false) :
    s'.account.demand = s'.admitted + (rest + phase'.owed bytes) ∧
    s'.account.underflowed = false := by
  cases hmove with
  | account h =>
    cases h with
    | raise => exact ⟨by simp only [Phase.owed] at *; omega, hsnd⟩
    | @lower retry =>
      refine ⟨?_, hsnd⟩
      cases retry <;> simp only [Phase.owed, false_eq_true, if_false, if_true] at * <;> omega
    | underflow hlt => exact absurd (hseen _ _ rfl) (not_le.mpr hlt)
    | _ => exact ⟨hdem, hsnd⟩
  | accept => exact ⟨by simp only [Phase.owed] at *; omega, hsnd⟩
  | take hheld => exact ⟨by simp only [Phase.owed] at *; omega, hsnd⟩
  | _ => exact ⟨hdem, hsnd⟩

theorem changes_of_move
    (hdem : ∀ retry, phase = .lowering retry (some s.account.demand) → bytes ≤ s.account.demand)
    (h : ∀ raised, phase.raisedNow = some raised → ∃ n, changes = changesOf n bytes raised) :
    ∀ raised, phase'.raisedNow = some raised →
      ∃ n, changes ++ demandChange s.account s'.account = changesOf n bytes raised := by
  intro raised hrsd
  cases hmove with
  | account hmove =>
    cases hmove with
    | raise =>
      cases hrsd
      obtain ⟨n, rfl⟩ := h false rfl
      exact ⟨n, by simp [changesOf, demandChange]⟩
    | @lower retry =>
      cases retry with
      | false => cases hrsd
      | true =>
        cases hrsd
        obtain ⟨n, rfl⟩ := h true rfl
        have hle := hdem true rfl
        refine ⟨n + 1, ?_⟩
        simp only [changesOf, demandChange, replicate_succ', flatten_append,
          filter_append, if_true, false_eq_true, if_false, append_nil]
        simp [cast_sub hle, ← filter_append]
    | spin | watch | limit | look | confirm | mismatch | sample | underflow =>
      obtain ⟨n, rfl⟩ := h raised hrsd
      exact ⟨n, by simp [demandChange]⟩
    | beginUpdate | setEffective | endUpdate => cases hrsd
  | accept =>
    obtain ⟨n, rfl⟩ := h raised hrsd
    exact ⟨n, by simp [demandChange]⟩
  | take | lock | unlock => cases hrsd

end

/-- The epoch agrees although an update has begun: it has gone round. -/
theorem started_of_epoch_eq {a : QuotaAccount}
    (hep : a.policyEpoch = a.epochCount % 2 ^ 64) (hsame : a.policyEpoch = (2 * started) % 2 ^ 64)
    (hlt : started < a.updatesStarted) : started + 2 ^ 63 ≤ a.updatesStarted := by
  unfold epochCount at hep
  cases hupdt : a.updating <;>
    simp only [hupdt, toNat_true, toNat_false] at hep <;> omega

theorem updating_of_even {a : QuotaAccount} (hep : a.policyEpoch = a.epochCount % 2 ^ 64)
    (hbgn : a.updating = true → 0 < a.updatesStarted) (heven : a.policyEpoch % 2 = 0) :
    a.updating = false ∧ a.policyEpoch = (2 * a.updatesStarted) % 2 ^ 64 := by
  unfold epochCount at hep
  cases hupdt : a.updating with
  | false => exact ⟨rfl, by simpa [hupdt] using hep⟩
  | true =>
    have hpos := hbgn hupdt
    simp only [hupdt, toNat_true] at hep
    omega

theorem phase_of_move (hmove : Move x.bytes s x.phase s' phase')
    (hep : s.account.policyEpoch = s.account.epochCount % 2 ^ 64)
    (hbgn : s.account.updating = true → 0 < s.account.updatesStarted)
    (howed : x.phase.owed x.bytes ≤ s.account.demand) (hx : ThreadInvariant s.account x) :
    PhaseInvariant s'.account (x.observe s.account s'.account phase') := by
  obtain ⟨hfirst, hlast, -, hph⟩ := hx
  unfold PhaseInvariant at hph
  generalize hxphase : x.phase = phase at hmove hph howed
  cases hmove with
  | account hmove =>
    cases hmove with
    | watch heven =>
      obtain ⟨hidle, hcnt⟩ := updating_of_even hep hbgn heven
      refine ⟨hcnt, le_refl _, ⟨_, rfl, ?_⟩, fun _ => hidle⟩
      cases hf : x.first with
      | none => exact le_refl _
      | some f => exact hfirst f hf
    | limit =>
      obtain ⟨hcnt, hstrd, ⟨f, hf, hle⟩, hupdt⟩ := hph
      exact ⟨hcnt, hstrd, ⟨f, by simp [AdmissionGhost.observe, hf], hle⟩, fun h => ⟨hupdt h, rfl⟩⟩
    | look =>
      obtain ⟨hcnt, hstrd, ⟨f, hf, hle⟩, hupdt⟩ := hph
      exact ⟨hcnt, hstrd, ⟨f, by simp [AdmissionGhost.observe, hf], hle⟩, hupdt⟩
    | raise hfits =>
      obtain ⟨hcnt, hstrd, ⟨f, hf, hle⟩, hupdt⟩ := hph
      refine ⟨hcnt, hstrd, ⟨f, by simp [AdmissionGhost.observe, hf], hle⟩, fun hbad => ?_⟩
      refine lt_of_le_of_ne hstrd fun heq => ?_
      obtain ⟨hidle, heffective⟩ := hupdt heq.symm
      exact of_decide_eq_false hbad ⟨rfl, heffective ▸ hfits, hidle⟩
    | confirm hsame =>
      obtain ⟨hcnt, hstrd, ⟨f, hf, hle⟩, hbad⟩ := hph
      intro hgood
      have hround := started_of_epoch_eq hep (hsame.trans hcnt) (hbad hgood)
      exact ⟨f, s.account.updatesStarted, by simp [AdmissionGhost.observe, hf], rfl, by omega⟩
    | sample => exact howed
    | underflow hlt => exact absurd hph (not_le.mpr hlt)
    | @lower retry => cases retry <;> trivial
    | _ => trivial
  | accept =>
    intro hgood
    obtain ⟨f, l, hf, hl, hle⟩ := hph hgood
    exact ⟨f, _, by simp [AdmissionGhost.observe, hf], rfl, hle.trans (hlast l hl)⟩
  | _ => trivial

end Step

section Invariant

variable {ι : Type} [Fintype ι] [DecidableEq ι] {s s' : AdmissionState} {gs : ι → AdmissionGhost}
  {t : ι} {x' : AdmissionGhost}

theorem sum_owed_update (gs : ι → AdmissionGhost) (t : ι) (x : AdmissionGhost) :
    ∃ rest, (∑ u, (gs u).phase.owed (gs u).bytes) = rest + (gs t).phase.owed (gs t).bytes ∧
      (∑ u, (update gs t x u).phase.owed (update gs t x u).bytes) =
        rest + x.phase.owed x.bytes := by
  refine ⟨∑ u ∈ univ.erase t, (gs u).phase.owed (gs u).bytes, ?_, ?_⟩
  · rw [sum_erase_add _ _ (mem_univ t)]
  · rw [← sum_erase_add _ _ (mem_univ t), update_self]
    congr 1
    refine sum_congr rfl fun u hu => ?_
    rw [update_of_ne (ne_of_mem_erase hu)]

omit [DecidableEq ι] in
theorem AdmissionInvariant.init (requested : ℕ) :
    AdmissionInvariant ⟨.new requested, 0, false⟩ (fun _ : ι => .start .idle 0) := by
  constructor <;> try simp [new, epochCount, AdmissionGhost.start,
    Phase.holdsLock, Phase.owed]
  intro t
  exact ⟨by simp, by simp, by simp [Phase.raisedNow], trivial⟩

/-- A thread changes its ghost to one that owes nothing and holds no lock. -/
theorem AdmissionInvariant.setIdle (h : AdmissionInvariant s gs)
    (howed : x.phase.owed x.bytes = (gs t).phase.owed (gs t).bytes)
    (hlock : x.phase.holdsLock = false) (hx : ThreadInvariant s.account x) :
    AdmissionInvariant s (update gs t x) := by
  have hlck : ∀ u, (update gs t x u).phase.holdsLock = true →
      u ≠ t ∧ (gs u).phase.holdsLock = true ∧ update gs t x u = gs u := by
    intro u hu
    by_cases hut : u = t
    · subst hut
      rw [update_self, hlock] at hu
      cases hu
    · rw [update_of_ne hut] at hu
      exact ⟨hut, hu, update_of_ne hut ..⟩
  obtain ⟨_, hold, hnew⟩ := sum_owed_update gs t x
  refine ⟨h.epoch, h.begun, ?_, h.unlocked, ?_, ?_, h.sound, ?_⟩
  · intro u hu
    obtain ⟨-, hgs, heq⟩ := hlck u hu
    rw [heq]
    exact h.lock u hgs
  · intro u v hu hv
    exact h.unique u v (hlck u hu).2.1 (hlck v hv).2.1
  · rw [hnew, howed, ← hold]
    exact h.demand
  · intro u
    by_cases hut : u = t
    · rw [hut, update_self]
      exact hx
    · rw [update_of_ne hut]
      exact h.thread u

theorem AdmissionInvariant.step (h : AdmissionInvariant s gs)
    (hstep : AdmissionStep s (gs t) s' x') :
    AdmissionInvariant s' (update gs t x') := by
  obtain ⟨phase, hmove, rfl⟩ := hstep
  have hupdt := fun hlock => (h.lock t hlock).2
  have hqt := quiet_of_move hmove hupdt
  obtain ⟨hep, hbgn⟩ := epoch_of_move hmove hupdt h.epoch h.begun
  obtain ⟨hlock, hunl, hacquired, hkept, hlockvar⟩ := lock_of_move hmove (h.lock t) h.unlocked
  obtain ⟨_, hold, hnew⟩ := sum_owed_update gs t ((gs t).observe s.account s'.account phase)
  have hdem := h.demand
  rw [hold] at hdem
  have howed : (gs t).phase.owed (gs t).bytes ≤ s.account.demand := by omega
  have hthr := h.thread t
  have hseen : ∀ retry seen, (gs t).phase = .lowering retry (some seen) → (gs t).bytes ≤ seen := by
    intro retry seen hph
    have hinv := hthr.phase
    simp only [PhaseInvariant, hph] at hinv
    exact hinv
  obtain ⟨hdem', hsnd⟩ := demand_of_move hmove hdem hseen h.sound
  have hoths : ∀ u, u ≠ t → (gs u).phase.holdsLock = true →
      (gs t).phase.holdsLock = false ∧ s.policyLock = true := by
    intro u hut hu
    refine ⟨eq_false_iff.mpr fun ht => hut (h.unique u t hu ht), (h.lock u hu).1⟩
  refine ⟨hep, hbgn, ?_, hunl, ?_, ?_, hsnd, ?_⟩
  · intro u hu
    by_cases hut : u = t
    · subst hut
      rw [update_self] at hu ⊢
      exact hlock hu
    rw [update_of_ne hut] at hu ⊢
    obtain ⟨htfree, hlck⟩ := hoths u hut hu
    rw [hkept htfree]
    refine ⟨?_, (h.lock u hu).2⟩
    rcases hlockvar with heq | hhld | hfree
    · rw [heq, hlck]
    · rw [htfree] at hhld
      cases hhld
    · rw [hlck] at hfree
      cases hfree
  · -- only a thread that finds the lock free acquires it
    have hnone : ∀ u, u ≠ t → phase.holdsLock = true → (gs u).phase.holdsLock = true → False := by
      intro u hut hph hu
      obtain ⟨htfree, hlck⟩ := hoths u hut hu
      rcases hacquired hph with hhld | hfree
      · rw [htfree] at hhld
        cases hhld
      · rw [hlck] at hfree
        cases hfree
    intro u v hu hv
    by_cases hut : u = t <;> by_cases hvt : v = t
    · rw [hut, hvt]
    · rw [hut, update_self] at hu
      rw [update_of_ne hvt] at hv
      exact (hnone v hvt hu hv).elim
    · rw [update_of_ne hut] at hu
      rw [hvt, update_self] at hv
      exact (hnone u hut hv hu).elim
    · rw [update_of_ne hut] at hu
      rw [update_of_ne hvt] at hv
      exact h.unique u v hu hv
  · rw [hnew]
    exact hdem'
  intro u
  by_cases hut : u = t
  · rw [hut, update_self]
    refine ⟨?_, ?_, ?_, phase_of_move hmove h.epoch h.begun howed hthr⟩
    · rintro f hf
      cases hf
      refine le_trans ?_ hqt.started_le
      cases hfirst : (gs t).first with
      | none => exact le_refl _
      | some f => exact hthr.first_le f hfirst
    · rintro _ hl
      cases hl
      exact le_refl _
    · exact changes_of_move hmove (fun retry hph => hseen retry _ hph) hthr.changes
  · rw [update_of_ne hut]
    exact (h.thread u).of_quiet hqt

end Invariant

end Cakemaster.Tenant
