import Cakemaster.Tenant.Quota
import Mathlib.Algebra.BigOperators.Group.Finset.Basic
import Mathlib.Data.Fintype.Basic

/-!
# Admission under concurrent policy changes

Any number of threads reserve demand, release bytes that were admitted before and
change the effective quota, each through the atomic steps of its program. The
steps of one thread are described once (`AccountMove`, `Move`) with a ghost phase
that says how far its call has come.
-/

namespace Cakemaster.Tenant

open Machine Machine.Prog Conforms Prog

/-- An account with what its users hold: the admitted bytes that nobody has begun
to release, and the lock under which policies change. -/
structure AdmissionState where
  account : QuotaAccount
  admitted : ℕ
  policyLock : Bool

namespace AdmissionState

def accountVar : Lens AdmissionState QuotaAccount :=
  ⟨account, fun v s => { s with account := v }, fun _ _ => rfl, fun _ => rfl, fun _ _ _ => rfl⟩

def take (bytes : ℕ) (s : AdmissionState) : Option (Unit × AdmissionState) :=
  if bytes ≤ s.admitted then some ((), { s with admitted := s.admitted - bytes }) else none

def lock (s : AdmissionState) : Option (Unit × AdmissionState) :=
  if s.policyLock then none else some ((), { s with policyLock := true })

end AdmissionState

inductive AdmissionCall
  | reserve (bytes : ℕ)
  | release (bytes : ℕ)
  | setEffective (effective : ℕ)

inductive AdmissionReply
  | reserved (result : Except QuotaExceeded Unit)
  | done

/-- The calls on one account: a caller that is admitted owns the bytes from then
on, a release gives up bytes that are owned, and policy updates are serialized. -/
def admissionCode : AdmissionCall → Prog AdmissionState AdmissionReply
  | .reserve bytes => do
    match ← (QuotaAccount.reserveDemand .memory bytes).zoom AdmissionState.accountVar with
    | .ok () => do
      modify fun s => { s with admitted := s.admitted + bytes }
      return .reserved (.ok ())
    | .error err => return .reserved (.error err)
  | .release bytes => do
    await (AdmissionState.take bytes)
    (QuotaAccount.releaseReserved bytes).zoom AdmissionState.accountVar
    return .done
  | .setEffective effective => do
    await AdmissionState.lock
    (QuotaAccount.setEffective effective).zoom AdmissionState.accountVar
    modify fun s => { s with policyLock := false }
    return .done

def admissionSystem (ι : Type) : System AdmissionState ι AdmissionCall AdmissionReply where
  init s := ∃ requested, s = ⟨.new requested, 0, false⟩
  code _ := admissionCode
  env _ _ := False

/-- How far a call has come. `watching`, `limited` and `raised` hold the epoch that
was read and the number of policy updates that had begun then. -/
inductive Phase
  | idle
  | seeking
  | watching (epoch started : ℕ)
  | limited (epoch started effective : ℕ)
  | raised (epoch started : ℕ) (good : Bool)
  | granted (good : Bool)
  | counted (good : Bool)
  | ready
  | lowering (retry : Bool) (seen : Option ℕ)
  | waiting
  | locked
  | opened
  | stored
  | closed
  | finished

/-- A raise of the demand by `bytes` that respects the quota in force. -/
def AdmitsAt (bytes : ℕ) (a a' : QuotaAccount) : Prop :=
  a'.demand = a.demand + bytes ∧ a'.demand ≤ a.effective ∧ a.updating = false

instance (bytes : ℕ) (a a' : QuotaAccount) : Decidable (AdmitsAt bytes a a') :=
  inferInstanceAs (Decidable (_ ∧ _ ∧ _))

/-- Everything one atomic action of a call can do to the account. -/
inductive AccountMove (bytes : ℕ) : QuotaAccount → Phase → QuotaAccount → Phase → Prop
  | spin {a} : AccountMove bytes a .seeking a .seeking
  | watch (heven : a.policyEpoch % 2 = 0) :
      AccountMove bytes a .seeking a (.watching a.policyEpoch a.updatesStarted)
  | limit {epoch started} :
      AccountMove bytes a (.watching epoch started) a (.limited epoch started a.effective)
  | look {a epoch started effective} :
      AccountMove bytes a (.limited epoch started effective) a (.limited epoch started effective)
  | raise {epoch started effective} (hfits : a.demand + bytes ≤ effective) :
      AccountMove bytes a (.limited epoch started effective) { a with demand := a.demand + bytes }
        (.raised epoch started (decide (AdmitsAt bytes a { a with demand := a.demand + bytes })))
  | confirm {epoch started good} (hep : a.policyEpoch = epoch) :
      AccountMove bytes a (.raised epoch started good) a (.granted good)
  | mismatch {a epoch started good} :
      AccountMove bytes a (.raised epoch started good) a (.lowering true none)
  | sample {retry seen} :
      AccountMove bytes a (.lowering retry seen) a (.lowering retry (some a.demand))
  | underflow {retry seen} (hseen : seen < bytes) :
      AccountMove bytes a (.lowering retry (some seen)) { a with underflowed := true }
        (.lowering retry (some seen))
  | lower {retry} :
      AccountMove bytes a (.lowering retry (some a.demand)) { a with demand := a.demand - bytes }
        (if retry then .seeking else .finished)
  | beginUpdate : AccountMove bytes a .locked a.beginUpdate .opened
  | setEffective (effective : ℕ) :
      AccountMove bytes a .opened { a with effective } .stored
  | endUpdate : AccountMove bytes a .stored a.endUpdate .closed

inductive Move (bytes : ℕ) : AdmissionState → Phase → AdmissionState → Phase → Prop
  | account {phase a' phase'} (h : AccountMove bytes s.account phase a' phase') :
      Move bytes s phase { s with account := a' } phase'
  | accept {good} :
      Move bytes s (.granted good) { s with admitted := s.admitted + bytes } (.counted good)
  | take (hheld : bytes ≤ s.admitted) :
      Move bytes s .ready { s with admitted := s.admitted - bytes } (.lowering false none)
  | lock (hfree : s.policyLock = false) :
      Move bytes s .waiting { s with policyLock := true } .locked
  | unlock : Move bytes s .closed { s with policyLock := false } .finished

/-- The change of the demand, as a list of at most one nonzero number. -/
def demandChange (a a' : QuotaAccount) : List ℤ := [(a'.demand : ℤ) - a.demand].filter (· ≠ 0)

/-- The ghost of a thread: its phase, and what its transitions have shown. -/
structure AdmissionGhost where
  phase : Phase
  bytes : ℕ
  changes : List ℤ
  first : Option ℕ
  last : Option ℕ

namespace AdmissionGhost

def start (phase : Phase) (bytes : ℕ) : AdmissionGhost := ⟨phase, bytes, [], none, none⟩

def observe (x : AdmissionGhost) (a a' : QuotaAccount) (phase : Phase) : AdmissionGhost :=
  { x with
    phase
    changes := x.changes ++ demandChange a a'
    first := some (x.first.getD a.updatesStarted)
    last := some a'.updatesStarted }

end AdmissionGhost

def AdmissionStep (s : AdmissionState) (x : AdmissionGhost) (s' : AdmissionState)
    (x' : AdmissionGhost) : Prop :=
  ∃ phase, Move x.bytes s x.phase s' phase ∧ x' = x.observe s.account s'.account phase

/-- The same step seen by a program over the account alone. -/
def AccountStep (a : QuotaAccount) (x : AdmissionGhost) (a' : QuotaAccount)
    (x' : AdmissionGhost) : Prop :=
  ∀ s, AdmissionState.accountVar.get s = a →
    AdmissionStep s x (AdmissionState.accountVar.set a' s) x'

/-- The ghost is of a call for `bytes` in the given phase. -/
def AdmissionGhost.At (x : AdmissionGhost) (bytes : ℕ) (phase : Phase) : Prop :=
  x.bytes = bytes ∧ x.phase = phase

section Conformance

variable {α : Type} {bytes : ℕ} {x : AdmissionGhost} {phase : Phase}

theorem accountStep_of_move (hx : x.At bytes phase) (h : AccountMove bytes a phase a' phase') :
    ∃ x', AccountStep a x a' x' ∧ x'.At bytes phase' := by
  obtain ⟨rfl, rfl⟩ := hx
  refine ⟨x.observe a a' phase', ?_, rfl, rfl⟩
  rintro _ rfl
  exact ⟨phase', .account h, rfl⟩

theorem step_of_move (hx : x.At bytes phase)
    (h : Move bytes s phase s' phase') : ∃ x', AdmissionStep s x s' x' ∧ x'.At bytes phase' := by
  obtain ⟨rfl, rfl⟩ := hx
  exact ⟨x.observe s.account s'.account phase', ⟨phase', h, rfl⟩, rfl, rfl⟩

theorem conforms_subtractSwap (hx : x.At bytes (.lowering retry (some current))) :
    Conforms AccountStep (QuotaAccount.subtractSwap QuotaAccount.demandVar bytes current) x
      (LoopPost (fun next x => x.At bytes (.lowering retry (some next)))
        fun _ x => x.At bytes (if retry then .seeking else .finished)) := by
  apply Conforms.compareExchangeWeak
  · rintro a rfl
    obtain ⟨x₁, hstep, hx₁⟩ := accountStep_of_move hx .lower
    exact ⟨x₁, hstep, .ret hx₁⟩
  · intro a
    obtain ⟨x₁, hstep, hx₁⟩ := accountStep_of_move hx .sample
    exact ⟨x₁, hstep, .ret hx₁⟩

theorem conforms_atomicSaturatingSub (hx : x.At bytes (.lowering retry seen)) :
    Conforms AccountStep (QuotaAccount.atomicSaturatingSub QuotaAccount.demandVar bytes) x fun _ x' =>
      x'.At bytes (if retry then .seeking else .finished) := by
  apply Conforms.read
  intro a
  obtain ⟨x₁, hstep, hx₁⟩ := accountStep_of_move hx .sample
  refine ⟨x₁, hstep, .iterate_ret (fun current x => x.At bytes (.lowering retry (some current))) hx₁ ?_⟩
  intro current x₂ hx₂
  apply Conforms.guarded
  · intro hlt
    apply Conforms.modify
    intro a
    obtain ⟨x₃, hstep₃, hx₃⟩ := accountStep_of_move hx₂ (.underflow hlt)
    exact ⟨x₃, hstep₃, conforms_subtractSwap hx₃⟩
  · intro _
    exact conforms_subtractSwap hx₂

/-- The ghost when an attempt of `reserve_demand` is over. -/
def AttemptPost (bytes : ℕ) : QuotaAccount.Attempt → AdmissionGhost → Prop
  | some (.ok _), x => ∃ good, x.At bytes (.granted good)
  | some (.error _), x => ∃ epoch started effective, x.At bytes (.limited epoch started effective)
  | none, x => x.At bytes .seeking

theorem conforms_confirmEpoch (hx : x.At bytes (.raised epoch started good)) :
    Conforms AccountStep (QuotaAccount.confirmEpoch bytes epoch) x (AttemptPost bytes) := by
  apply Conforms.read
  intro a
  by_cases hep : QuotaAccount.policyEpochVar.get a = epoch
  · obtain ⟨x₁, hstep, hx₁⟩ := accountStep_of_move hx (.confirm hep)
    exact ⟨x₁, hstep, .ite (fun _ => .ret ⟨good, hx₁⟩) (absurd hep)⟩
  · obtain ⟨x₁, hstep, hx₁⟩ := accountStep_of_move hx .mismatch
    refine ⟨x₁, hstep, .ite (fun h => absurd h hep) fun _ => ?_⟩
    exact bind ((conforms_atomicSaturatingSub hx₁).mono fun _ _ h => .ret h)

theorem conforms_raiseRound (demand : ℕ) (hx : x.At bytes (.limited epoch started effective)) :
    Conforms AccountStep (QuotaAccount.raiseRound .memory bytes epoch effective demand) x
      (LoopPost (fun _ x => x.At bytes (.limited epoch started effective)) (AttemptPost bytes)) := by
  simp only [QuotaAccount.raiseRound]
  cases hnext : Word.checkedAdd 64 demand bytes with
  | none => exact .ret ⟨epoch, started, effective, hx⟩
  | some next =>
    obtain ⟨-, rfl⟩ := Word.checkedAdd_eq_some.mp hnext
    apply Conforms.ite
    · intro _
      exact .ret ⟨epoch, started, effective, hx⟩
    · intro hle
      apply Conforms.compareExchangeWeak
      · rintro a rfl
        obtain ⟨x₁, hstep, hx₁⟩ := accountStep_of_move hx (.raise (not_lt.mp hle))
        refine ⟨x₁, hstep, bind ((conforms_confirmEpoch hx₁).mono ?_)⟩
        exact fun _ _ h => .ret h
      · intro a
        obtain ⟨x₁, hstep, hx₁⟩ := accountStep_of_move hx .look
        exact ⟨x₁, hstep, .ret hx₁⟩

theorem conforms_reserveRound (hx : x.At bytes .seeking) :
    Conforms AccountStep (QuotaAccount.reserveRound .memory bytes) x
      (LoopPost (fun _ x => x.At bytes .seeking) fun result => AttemptPost bytes (some result)) := by
  apply Conforms.read
  intro a
  by_cases hodd : QuotaAccount.policyEpochVar.get a % 2 ≠ 0
  · obtain ⟨x₁, hstep, hx₁⟩ := accountStep_of_move hx .spin
    exact ⟨x₁, hstep, .ite (fun _ => .ret hx₁) (absurd hodd)⟩
  obtain ⟨x₁, hstep, hx₁⟩ := accountStep_of_move hx (.watch (a := a) (not_ne_iff.mp hodd))
  refine ⟨x₁, hstep, .ite (fun h => absurd h hodd) fun _ => ?_⟩
  apply Conforms.read
  intro b
  obtain ⟨x₂, hstep₂, hx₂⟩ := accountStep_of_move hx₁ .limit
  refine ⟨x₂, hstep₂, ?_⟩
  apply Conforms.read
  intro c
  obtain ⟨x₃, hstep₃, hx₃⟩ := accountStep_of_move hx₂ .look
  refine ⟨x₃, hstep₃, ?_⟩
  refine .iterate _ hx₃ fun demand x₄ hx₄ => (conforms_raiseRound demand hx₄).mono ?_
  rintro (_ | _ | result) _ h
  · exact h
  · exact .ret h
  · exact .ret h

theorem conforms_reserveDemand (hx : x.At bytes .seeking) :
    Conforms AccountStep (QuotaAccount.reserveDemand .memory bytes) x fun result =>
      AttemptPost bytes (some result) :=
  .iterate_ret (fun _ x => x.At bytes .seeking) hx fun _ _ h => conforms_reserveRound h

theorem conforms_setEffective (effective : ℕ) (hx : x.At bytes .locked) :
    Conforms AccountStep (QuotaAccount.setEffective effective) x fun _ x' =>
      x'.At bytes .closed := by
  apply Conforms.modify
  intro a
  obtain ⟨x₁, hstep, hx₁⟩ := accountStep_of_move hx .beginUpdate
  refine ⟨x₁, hstep, ?_⟩
  apply Conforms.modify
  intro a
  obtain ⟨x₂, hstep₂, hx₂⟩ := accountStep_of_move hx₁ (.setEffective effective)
  refine ⟨x₂, hstep₂, .of_bind_ret ?_⟩
  apply Conforms.modify
  intro a
  obtain ⟨x₃, hstep₃, hx₃⟩ := accountStep_of_move hx₂ .endUpdate
  exact ⟨x₃, hstep₃, .ret hx₃⟩

theorem conforms_zoom {post : α → AdmissionGhost → Prop} (h : Conforms AccountStep p x post) :
    Conforms AdmissionStep (p.zoom AdmissionState.accountVar) x post :=
  zoom h

end Conformance

def AdmissionGhost.startOf : AdmissionCall → AdmissionGhost
  | .reserve bytes => .start .seeking bytes
  | .release bytes => .start .ready bytes
  | .setEffective _ => .start .waiting 0

def AdmissionPost : AdmissionCall → AdmissionReply → AdmissionGhost → Prop
  | .reserve bytes, .reserved (.ok _), x => ∃ good, x.At bytes (.counted good)
  | .reserve bytes, .reserved (.error _), x =>
    ∃ epoch started effective, x.At bytes (.limited epoch started effective)
  | .reserve _, .done, _ => False
  | _, _, x => x.phase = .finished

theorem conforms_admissionCode (call : AdmissionCall) :
    Conforms AdmissionStep (admissionCode call) (.startOf call) (AdmissionPost call) := by
  cases call with
  | reserve bytes =>
    have hstart : (AdmissionGhost.startOf (.reserve bytes)).At bytes .seeking := ⟨rfl, rfl⟩
    simp only [admissionCode, bind_eq, pure_eq]
    apply Conforms.bind
    apply (conforms_zoom (conforms_reserveDemand hstart)).mono
    rintro (_ | _) _ h
    · exact .ret h
    · obtain ⟨good, hx⟩ := h
      apply Conforms.modify
      intro s
      obtain ⟨x', hstep, hx'⟩ := step_of_move hx .accept
      exact ⟨x', hstep, .ret ⟨good, hx'⟩⟩
  | release bytes =>
    have hstart : (AdmissionGhost.startOf (.release bytes)).At bytes .ready := ⟨rfl, rfl⟩
    simp only [admissionCode, bind_eq, pure_eq]
    apply Conforms.await
    intro s b s' htake
    unfold AdmissionState.take at htake
    split at htake
    case isFalse => cases htake
    case isTrue hheld =>
      cases htake
      obtain ⟨x', hstep, hx'⟩ := step_of_move hstart (.take hheld)
      refine ⟨x', hstep, bind ?_⟩
      apply (conforms_zoom (conforms_atomicSaturatingSub hx')).mono
      intro _ x'' h
      exact .ret h.2
  | setEffective effective =>
    have hstart : (AdmissionGhost.startOf (.setEffective effective)).At 0 .waiting := ⟨rfl, rfl⟩
    simp only [admissionCode, bind_eq, pure_eq]
    apply Conforms.await
    intro s b s' hlock
    unfold AdmissionState.lock at hlock
    split at hlock
    case isTrue => cases hlock
    case isFalse hfree =>
      cases hlock
      obtain ⟨x', hstep, hx'⟩ := step_of_move hstart (.lock (Bool.eq_false_iff.mpr hfree))
      refine ⟨x', hstep, bind ?_⟩
      apply (conforms_zoom (conforms_setEffective effective hx')).mono
      intro _ x₁ hx₁
      apply Conforms.modify
      intro s
      obtain ⟨x₂, hstep₂, hx₂⟩ := step_of_move hx₁ .unlock
      exact ⟨x₂, hstep₂, .ret hx₂.2⟩

def admissionOutline (ι : Type) : Outline (admissionSystem ι) AdmissionGhost where
  idle := .start .idle 0
  start := .startOf
  rel _ := AdmissionStep
  post := AdmissionPost
  conforms _ := conforms_admissionCode

end Cakemaster.Tenant
