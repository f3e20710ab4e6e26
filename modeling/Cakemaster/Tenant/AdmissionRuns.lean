import Cakemaster.Tenant.AdmissionSafety
import Cakemaster.Machine.Schedule

/-!
# Runs of admissions and policy updates

In every interleaving a reservation that succeeds raised the demand, at one atomic
step, under the quota then in force, and attempts that fail or are undone leave
the demand as they found it. The epoch is a 64-bit word, so the first part needs
that fewer than `2 ^ 63` policy updates begin while the call runs; with that many
an admission against an outdated quota exists.
-/

namespace Cakemaster.Tenant

open Machine Machine.Prog List

variable {a : QuotaAccount} {bytes : ℕ} {x : AdmissionGhost}

/-- Fewer than `2 ^ 63` policy updates begin between any two steps of a call. -/
def WithinOneRound (trace : List (AdmissionState × AdmissionState)) : Prop :=
  ∀ p ∈ trace, ∀ q ∈ trace, q.2.account.updatesStarted < p.1.account.updatesStarted + 2 ^ 63

/-- What a completed reservation has done. -/
structure ReservationFaithful {ι : Type} (bytes : ℕ)
    (d : Completed AdmissionState ι AdmissionCall AdmissionReply) : Prop where
  admitted : d.result = .reserved (.ok ()) → WithinOneRound d.trace →
    Since (Admits bytes) ChangesDemand d.trace
  raised : d.result = .reserved (.ok ()) → ∃ n, traceChanges d.trace = changesOf n bytes true
  refused : ∀ err, d.result = .reserved (.error err) →
    ∃ n, traceChanges d.trace = changesOf n bytes false

theorem raisedNow_of_move (h : Move bytes s phase s' phase')
    (hrsd : phase.raisedNow.isSome = true) :
    phase'.raisedNow.isSome = true := by
  cases h with
  | account h =>
    cases h with
    | @lower retry => cases retry <;> first | rfl | cases hrsd
    | sample | underflow => exact hrsd
    | beginUpdate | setEffective | endUpdate => cases hrsd
    | _ => rfl
  | accept => rfl
  | take | lock | unlock => cases hrsd

/-- The ghost agrees with the call and its transitions. -/
def AdmissionTrack (call : AdmissionCall) (trace : List (AdmissionState × AdmissionState))
    (x : AdmissionGhost) : Prop :=
  Tracks trace x ∧
    ∀ bytes, call = .reserve bytes → x.bytes = bytes ∧ x.phase.raisedNow.isSome = true

theorem admissionTrack_step (h : AdmissionStep s x s' x')
    (htrk : AdmissionTrack call trace x) : AdmissionTrack call (trace ++ [(s, s')]) x' := by
  refine ⟨tracks_step h htrk.1, ?_⟩
  rintro bytes rfl
  obtain ⟨_, hmove, rfl⟩ := h
  obtain ⟨hbyt, hrsd⟩ := htrk.2 bytes rfl
  exact ⟨hbyt, raisedNow_of_move hmove hrsd⟩

variable {ι : Type} [Fintype ι]

/-- The invariant of the threads together with what completed calls have done. -/
def AdmissionSafe (s : AdmissionState) (gs : ι → AdmissionGhost)
    (done : List (Completed AdmissionState ι AdmissionCall AdmissionReply)) : Prop :=
  AdmissionInvariant s gs ∧
    ∀ d ∈ done, ∀ bytes, d.call = .reserve bytes → ReservationFaithful bytes d

omit [Fintype ι] in
theorem reservationFaithful_of_post {t : ι} {result : AdmissionReply}
    {trace : List (AdmissionState × AdmissionState)} (hx : ThreadInvariant a x)
    (hpost : AdmissionPost (.reserve bytes) result x) (htracks : Tracks trace x) :
    ReservationFaithful bytes ⟨t, .reserve bytes, result, trace⟩ := by
  refine ⟨?_, ?_, ?_⟩
  · rintro rfl hround
    obtain ⟨good, hbyt, hph⟩ := hpost
    cases good with
    | true =>
      have hgood := htracks.good
      rw [hph, hbyt] at hgood
      exact hgood rfl
    | false =>
      have hwrap := hx.phase
      simp only [PhaseInvariant, hph] at hwrap
      obtain ⟨_, _, hf, hl, _⟩ := hwrap trivial
      rw [htracks.first, Option.map_eq_some_iff] at hf
      rw [htracks.last, Option.map_eq_some_iff] at hl
      obtain ⟨p, hp, rfl⟩ := hf
      obtain ⟨q, hq, rfl⟩ := hl
      have hlt := hround p (mem_of_mem_head? hp) q (mem_of_getLast? hq)
      omega
  · rintro rfl
    obtain ⟨good, rfl, hph⟩ := hpost
    obtain ⟨n, hn⟩ := hx.changes true (by rw [hph]; rfl)
    exact ⟨n, htracks.changes ▸ hn⟩
  · rintro _ rfl
    obtain ⟨_, _, _, rfl, hph⟩ := hpost
    obtain ⟨n, hn⟩ := hx.changes false (by rw [hph]; rfl)
    exact ⟨n, htracks.changes ▸ hn⟩

variable [DecidableEq ι]

theorem owed_of_post (h : AdmissionPost call result x) : x.phase.owed x.bytes = 0 := by
  unfold AdmissionPost at h
  split at h
  · obtain ⟨_, -, hph⟩ := h
    rw [hph]
    rfl
  · obtain ⟨_, _, _, -, hph⟩ := h
    rw [hph]
    rfl
  · exact h.elim
  · rw [h]
    rfl

theorem threadInvariant_start (hrsd : phase.raisedNow ≠ some true)
    (hph : PhaseInvariant a (.start phase bytes)) :
    ThreadInvariant a (.start phase bytes) := by
  refine ⟨?_, ?_, ?_, hph⟩
  · intro f hf
    cases hf
  · intro l hl
    cases hl
  · intro raised h
    cases raised with
    | false => exact ⟨0, rfl⟩
    | true => exact absurd h hrsd

theorem admissionSafe_keeps :
    (admissionOutline ι).Keeps (fun _ _ => True) AdmissionTrack AdmissionSafe where
  init := by
    rintro s ⟨requested, rfl⟩
    exact ⟨.init requested, by simp⟩
  track_start call := by
    refine ⟨tracks_start call, ?_⟩
    rintro bytes rfl
    exact ⟨rfl, rfl⟩
  track_step _ := admissionTrack_step
  invoke := by
    rintro s gs done t call ⟨hinv, hdone⟩ hidle
    refine ⟨hinv.setIdle ?_ ?_ ?_, hdone⟩
    · rw [hidle]
      cases call <;> rfl
    · cases call <;> rfl
    · cases call <;> exact threadInvariant_start (by decide) trivial
  step := by
    rintro s gs done t s' _ ⟨hinv, hdone⟩ hstep -
    exact ⟨hinv.step hstep, hdone⟩
  finish := by
    rintro s gs done t call _ _ ⟨hinv, hdone⟩ hpost htrk
    refine ⟨hinv.setIdle (owed_of_post hpost).symm rfl ?_, ?_⟩
    · exact threadInvariant_start (by decide) trivial
    · intro d hd bytes hcall
      rcases mem_cons.mp hd with rfl | hd
      · obtain rfl : call = .reserve bytes := hcall
        exact reservationFaithful_of_post (hinv.thread t) hpost htrk.1
      · exact hdone d hd bytes hcall
  env := by
    rintro s s' gs done _ ⟨⟩

/-- Quota admission in every interleaving: a reservation that succeeded raised the
demand once under the quota in force, undone and refused attempts net to zero,
also in calls that still run, and the demand never underflows. -/
theorem admission_respects_quota {c : Config AdmissionState ι AdmissionCall AdmissionReply}
    (hreach : (admissionSystem ι).Reachable c) :
    (∀ d ∈ c.completed, ∀ bytes, d.call = .reserve bytes → ReservationFaithful bytes d) ∧
    (∀ t r bytes, c.threads t = some r → r.call = .reserve bytes →
      ∃ n raised, traceChanges r.trace = changesOf n bytes raised) ∧
    c.shared.account.underflowed = false := by
  obtain ⟨_, hghosts, hinv, hdone⟩ := Outline.reachable admissionSafe_keeps hreach
  refine ⟨hdone, ?_, hinv.sound⟩
  intro t r bytes hthread hcall
  obtain ⟨-, htracks, hcalls⟩ := hghosts.running t r hthread
  obtain ⟨rfl, hraised⟩ := hcalls bytes hcall
  obtain ⟨raised, hraised⟩ := Option.isSome_iff_exists.mp hraised
  obtain ⟨n, hn⟩ := (hinv.thread t).changes raised hraised
  exact ⟨n, raised, htracks.changes ▸ hn⟩

def admissionStart (ι : Type) (requested : ℕ) :
    Config AdmissionState ι AdmissionCall AdmissionReply :=
  ⟨⟨.new requested, 0, false⟩, fun _ => none, []⟩

theorem reachable_admissionStart (ι : Type) [DecidableEq ι] (requested : ℕ) :
    (admissionSystem ι).Reachable (admissionStart ι requested) := .init ⟨requested, rfl⟩

/-- One thread waits in the middle of a reservation; the other is idle. -/
def paused (a : QuotaAccount) (r : Running AdmissionState AdmissionCall AdmissionReply)
    (done : List (Completed AdmissionState Bool AdmissionCall AdmissionReply)) :
    Config AdmissionState Bool AdmissionCall AdmissionReply :=
  ⟨⟨a, 0, false⟩, fun t => if t then none else some r, done⟩

def updated (effective : ℕ) (a : QuotaAccount) : QuotaAccount :=
  { a.beginUpdate with effective }.endUpdate

theorem play_update (effective : ℕ) (a : QuotaAccount)
    (r : Running AdmissionState AdmissionCall AdmissionReply)
    (done : List (Completed AdmissionState Bool AdmissionCall AdmissionReply)) :
    ∃ done', (admissionSystem Bool).play (paused a r done)
      (.invoke true (.setEffective effective) :: replicate 6 (.step true)) =
      paused (updated effective a) r done' := by
  refine ⟨((admissionSystem Bool).play (paused a r done)
    (.invoke true (.setEffective effective) :: replicate 6 (.step true))).completed, ?_⟩
  refine Config.ext rfl (funext fun t => ?_) rfl
  cases t <;> rfl

/-- After `n` policy updates the epoch has moved by `2 * n`, modulo `2 ^ 64`. -/
theorem reachable_updates (hep : a.policyEpoch < 2 ^ 64)
    (hrch : (admissionSystem Bool).Reachable (paused a r done)) (n : ℕ) :
    ∃ a' done', (admissionSystem Bool).Reachable (paused a' r done') ∧
      a'.policyEpoch = (a.policyEpoch + 2 * n) % 2 ^ 64 ∧ a'.demand = a.demand ∧
      (a'.effective = 0 ∨ n = 0) := by
  induction n with
  | zero => exact ⟨a, done, hrch, (Nat.mod_eq_of_lt hep).symm, rfl, .inr rfl⟩
  | succ n ih =>
    obtain ⟨a', done', hrch', hep', hdem, -⟩ := ih
    obtain ⟨done'', hplay⟩ := play_update 0 a' r done'
    refine ⟨updated 0 a', done'', hplay ▸ System.reachable_play hrch' _, ?_, hdem, .inl rfl⟩
    simp only [updated, QuotaAccount.endUpdate, QuotaAccount.beginUpdate, Word.wrapAdd, hep']
    omega

/-- The quota is set to 10, and a reservation of 5 reads the epoch, the quota and the
demand. -/
def opening : List (Turn Bool AdmissionCall) :=
  .invoke true (.setEffective 10) :: replicate 6 (.step true) ++
    .invoke false (.reserve 5) :: replicate 4 (.step false)

def opened : Config AdmissionState Bool AdmissionCall AdmissionReply :=
  (admissionSystem Bool).play (admissionStart Bool 7) opening

def waiting : Running AdmissionState AdmissionCall AdmissionReply :=
  (opened.threads false).getD ⟨.reserve 5, .ret .done, []⟩

theorem opened_eq : opened = paused (updated 10 (.new 7)) waiting opened.completed := by
  refine Config.ext rfl (funext fun t => ?_) rfl
  cases t <;> rfl

theorem play_waiting (hep : a.policyEpoch = 2) (hdem : a.demand = 0)
    (done : List (Completed AdmissionState Bool AdmissionCall AdmissionReply)) :
    ((admissionSystem Bool).play (paused a waiting done) (replicate 6 (.step false))).completed =
      ⟨false, .reserve 5, .reserved (.ok ()),
      waiting.trace ++ [(⟨a, 0, false⟩, ⟨{ a with demand := 5 }, 0, false⟩),
         (⟨{ a with demand := 5 }, 0, false⟩, ⟨{ a with demand := 5 }, 0, false⟩),
         (⟨{ a with demand := 5 }, 0, false⟩, ⟨{ a with demand := 5 }, 5, false⟩)]⟩ :: done := by
  obtain ⟨policyEpoch, _, _, demand, _, _, _, _, _⟩ := a
  obtain rfl : policyEpoch = 2 := hep
  obtain rfl : demand = 0 := hdem
  rfl

/-- With no limit on the policy updates during a call the epoch can come round: the
quota was 10 when the reservation of 5 read it, and is 0 when the demand is raised. -/
theorem admission_outdated_after_full_round :
    ∃ c, (admissionSystem Bool).Reachable c ∧ ∃ d ∈ c.completed, d.call = .reserve 5 ∧
      d.result = .reserved (.ok ()) ∧ ∀ p ∈ d.trace, ¬AdmitsAt 5 p.1.account p.2.account := by
  have hopened : (admissionSystem Bool).Reachable opened :=
    System.reachable_play (reachable_admissionStart Bool 7) opening
  rw [opened_eq] at hopened
  obtain ⟨a, done, hreach, hepoch, hdemand, heffective⟩ :=
    reachable_updates (by decide) hopened (2 ^ 63)
  have hepoch : a.policyEpoch = 2 := hepoch
  have heffective : a.effective = 0 := heffective.resolve_right (by decide)
  refine ⟨_, System.reachable_play hreach (replicate 6 (.step false)), _,
    play_waiting hepoch hdemand done ▸ mem_cons_self, rfl, rfl, ?_⟩
  have hwaiting : ∀ p ∈ waiting.trace, ¬AdmitsAt 5 p.1.account p.2.account := by decide +kernel
  intro p hp
  rcases mem_append.1 hp with hp | hp
  · exact hwaiting p hp
  · simp only [mem_cons, not_mem_nil, or_false] at hp
    rcases hp with rfl | rfl | rfl <;> simp [AdmitsAt, heffective]

theorem admission_respects_quota_played :
    let c := (admissionSystem Bool).play opened (replicate 6 (.step false))
    (admissionSystem Bool).Reachable c ∧ c.completed.length = 2 ∧
      ∀ d ∈ c.completed, ∀ bytes, d.call = .reserve bytes → ReservationFaithful bytes d := by
  intro c
  have hreach : (admissionSystem Bool).Reachable c :=
    System.reachable_play (System.reachable_play (reachable_admissionStart Bool 7) opening) _
  refine ⟨hreach, by decide +kernel, ?_⟩
  exact (admission_respects_quota hreach).1

end Cakemaster.Tenant
