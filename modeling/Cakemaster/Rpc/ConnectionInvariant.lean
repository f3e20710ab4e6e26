import Mathlib.Data.List.Perm.Subperm
import Cakemaster.Rpc.Connection

/-!
# What holds in every state of the client

Four groups of facts: the sequence numbers that calls have taken, the places where their requests
are, the frames that were delivered, and the cancellations. Each group is a statement about the
parts of the state that it needs, so that a step is only judged by the groups whose parts it
changes. The place of the connection in its loop is judged apart (`Fits`). -/

namespace Cakemaster.Rpc

open Wire ClientState Function List UInt32

variable {config : ClientConfig} {s s' : ClientState} {calls calls' : ℕ → Call} {i j : ℕ}
variable {q : UInt32} {a : Arrival} {request : DispatchRequest} {c : Call}
  {inFlight : List (UInt32 × ℕ)}

/-! ### Calls -/

def Stage.result : Stage → Option Outcome
  | .done result => result
  | _ => none

def Call.Holds (c : Call) (a : Arrival) : Prop :=
  c.value = some (.ok a) ∨ c.stage.result = some (.ok a)

/-- A stage in which the call has a request frame. -/
def Stage.Numbered : Stage → Prop
  | .sending | .waiting | .dropping _ | .cancelling _ => True
  | _ => False

@[simp] theorem setCall_self (s : ClientState) (i : ℕ) (c : Call) : (s.setCall i c).calls i = c :=
  update_self ..

theorem setCall_of_ne (h : j ≠ i) : (s.setCall i c).calls j = s.calls j :=
  update_of_ne h ..

/-- What the connection may do to the calls. -/
structure Untouched (calls calls' : ℕ → Call) : Prop where
  stage : ∀ i, (calls' i).stage = (calls i).stage
  request : ∀ i, (calls' i).request = (calls i).request
  receiverClosed : ∀ i, (calls' i).receiverClosed = (calls i).receiverClosed
  senderGone : ∀ i, (calls' i).senderGone = false → (calls i).senderGone = false

theorem Untouched.refl (calls : ℕ → Call) : Untouched calls calls :=
  ⟨fun _ => rfl, fun _ => rfl, fun _ => rfl, fun _ => id⟩

theorem Call.complete_eq (c : Call) (outcome : Outcome) : c.complete outcome =
      { c with value := if c.receiverClosed then c.value else some outcome, senderGone := true } := by
  unfold Call.complete
  split <;> rfl

theorem Untouched.of_update (hstage : c.stage = (calls i).stage)
    (hreq : c.request = (calls i).request) (hclsd : c.receiverClosed = (calls i).receiverClosed)
    (hgone : c.senderGone = true) :
    Untouched calls (update calls i c) := by
  constructor <;> intro j <;> by_cases hj : j = i
  all_goals first
    | (subst hj; simp_all)
    | simp_all

theorem untouched_complete (outcome : Outcome) :
    Untouched s.calls (s.complete i outcome).calls := by
  refine .of_update ?_ ?_ ?_ ?_ <;> rw [Call.complete_eq]

theorem untouched_forget : Untouched s.calls (s.forget i).calls := .of_update rfl rfl rfl rfl

/-! ### Sequence numbers -/

structure Numbering (calls : ℕ → Call) (entered : ℕ) (issued : List ℕ) (next : UInt32) : Prop where
  next_eq : next = .ofNat issued.length
  nodup : issued.Nodup
  below : ∀ i ∈ issued, i < entered
  fresh : ∀ i, entered ≤ i → (calls i).stage = .absent ∧ (calls i).request = none
  accepted : ∀ i functionId body attachment,
    (calls i).stage = .accepted functionId body attachment → i ∉ issued ∧ (calls i).request = none
  number : ∀ i f, (calls i).request = some f → ∃ k : ℕ, issued[k]? = some i ∧
    f.header.sequence = .ofNat k
  numbered : ∀ i, (calls i).stage.Numbered → ∃ f, (calls i).request = some f

namespace Numbering

variable {entered : ℕ} {issued : List ℕ} {next : UInt32}

variable (h : Numbering calls entered issued next)
include h

theorem length_le : issued.length ≤ entered := by
  have hsub : issued.Subperm (range entered) :=
    List.Nodup.subperm h.nodup fun i hi => mem_range.mpr (h.below i hi)
  simpa using List.Subperm.length_le hsub

theorem injective (hfew : entered < 2 ^ 32) (hi : (calls i).request = some f)
    (hj : (calls j).request = some g) (hsq : f.header.sequence = g.header.sequence) : i = j := by
  obtain ⟨k, hk, hf⟩ := h.number i f hi
  obtain ⟨l, hl, hg⟩ := h.number j g hj
  have hklen : k < issued.length := (List.getElem?_eq_some_iff.mp hk).1
  have hllen : l < issued.length := (List.getElem?_eq_some_iff.mp hl).1
  have hlth := h.length_le
  have hkl : k = l := by
    rw [hf, hg] at hsq
    have hnat := congrArg toNat hsq
    rwa [toNat_ofNat_of_lt' (by omega : k < 2 ^ 32), toNat_ofNat_of_lt' (by omega : l < 2 ^ 32)] at hnat
  rw [hkl, hl] at hk
  exact (Option.some.inj hk).symm

theorem untouched (hsame : Untouched calls calls') : Numbering calls' entered issued next where
  next_eq := h.next_eq
  nodup := h.nodup
  below := h.below
  fresh i hi := by
    rw [hsame.stage, hsame.request]
    exact h.fresh i hi
  accepted i functionId body attachment hi := by
    rw [hsame.stage] at hi
    rw [hsame.request]
    exact h.accepted i functionId body attachment hi
  number i f hi := h.number i f (hsame.request i ▸ hi)
  numbered i hi := by
    rw [hsame.stage] at hi
    rw [hsame.request]
    exact h.numbered i hi

/-- A call that has begun goes on with the same request. -/
theorem update (hreq : c.request = (calls i).request)
    (hbgn : (calls i).stage ≠ .absent)
    (haccd : ∀ functionId body attachment, c.stage ≠ .accepted functionId body attachment)
    (hnbd : c.stage.Numbered → (calls i).stage.Numbered) :
    Numbering (update calls i c) entered issued next where
  next_eq := h.next_eq
  nodup := h.nodup
  below := h.below
  fresh j hj := by
    have hji : j ≠ i := by
      rintro rfl
      exact hbgn (h.fresh j hj).1
    rw [update_of_ne hji]
    exact h.fresh j hj
  accepted j := by
    rw [update_apply]
    split
    · exact fun functionId body attachment hj => absurd hj (haccd functionId body attachment)
    · exact h.accepted j
  number j := by
    rw [update_apply]
    split
    next hji => exact hji ▸ hreq ▸ h.number i
    · exact h.number j
  numbered j := by
    rw [update_apply]
    split
    · exact fun hj => hreq ▸ h.numbered i (hnbd hj)
    · exact h.numbered j

theorem issue (hi : (calls i).stage = .accepted functionId body attachment)
    (haccd : ∀ functionId body attachment, c.stage ≠ .accepted functionId body attachment)
    (hreq : ∀ f, c.request = some f → f.header.sequence = next)
    (hnbd : c.stage.Numbered → ∃ f, c.request = some f) :
    Numbering (Function.update calls i c) entered (issued ++ [i]) (next + 1) where
  next_eq := by
    rw [h.next_eq, length_append, length_singleton, ofNat_add]
    rfl
  nodup := nodup_append.mpr ⟨h.nodup, pairwise_singleton _ i, by
    rintro j hj _ hk rfl
    rw [mem_singleton.mp hk] at hj
    exact (h.accepted i _ _ _ hi).1 hj⟩
  below j hj := by
    rcases mem_append.mp hj with hold | hnew
    · exact h.below j hold
    · rw [mem_singleton.mp hnew]
      by_contra hge
      rw [(h.fresh i (not_lt.mp hge)).1] at hi
      cases hi
  fresh j hj := by
    have hji : j ≠ i := by
      rintro rfl
      rw [(h.fresh j hj).1] at hi
      cases hi
    rw [update_of_ne hji]
    exact h.fresh j hj
  accepted j := by
    rw [update_apply]
    split
    · exact fun functionId body attachment hj => absurd hj (haccd functionId body attachment)
    next hji =>
    intro functionId body attachment hj
    obtain ⟨hfree, hnone⟩ := h.accepted j functionId body attachment hj
    exact ⟨fun hmem => (mem_append.mp hmem).elim hfree fun hnew => hji (mem_singleton.mp hnew), hnone⟩
  number j := by
    rw [update_apply]
    split
    next hji => exact fun f hj => ⟨issued.length, by simp [hji], by rw [hreq f hj, h.next_eq]⟩
    · intro f hj
      obtain ⟨k, hk, hsq⟩ := h.number j f hj
      have hlt : k < issued.length := (List.getElem?_eq_some_iff.mp hk).1
      exact ⟨k, by rw [List.getElem?_append_left hlt, hk], hsq⟩
  numbered j := by
    rw [update_apply]
    split
    · exact hnbd
    · exact h.numbered j

theorem enter (hreq : c.request = none)
    (hstage : ¬c.stage.Numbered) :
    Numbering (Function.update calls entered c) (entered + 1) issued next where
  next_eq := h.next_eq
  nodup := h.nodup
  below j hj := Nat.lt_succ_of_lt (h.below j hj)
  fresh j hj := by
    rw [update_of_ne (Nat.ne_of_gt hj)]
    exact h.fresh j (Nat.le_of_succ_le hj)
  accepted j := by
    rw [update_apply]
    split
    next hji => exact fun _ _ _ _ => ⟨fun hmem => (h.below j hmem).ne hji, hreq⟩
    · exact h.accepted j
  number j := by
    rw [update_apply]
    split
    · exact fun f hj => nomatch hreq.symm.trans hj
    · exact h.number j
  numbered j := by
    rw [update_apply]
    split
    · exact fun hj => absurd hj hstage
    · exact h.numbered j

end Numbering

/-! ### Places -/

theorem request_update (hreq : ∀ f, (calls i).request = some f → c.request = some f)
    (hj : (calls j).request = some f) : (update calls i c j).request = some f := by
  rw [update_apply]
  split
  next hji => exact hreq f (hji ▸ hj)
  · exact hj

/-- Where the completion of a call is. -/
def Located (requests : List DispatchRequest) (pending : Option DispatchRequest)
    (inFlight : List (UInt32 × ℕ)) (i : ℕ) : Prop :=
  (∃ r ∈ requests, r.completion = i) ∨ (∃ r, pending = some r ∧ r.completion = i) ∨
    ∃ q, (q, i) ∈ inFlight

structure Places (calls : ℕ → Call) (requests : List DispatchRequest)
    (pending : Option DispatchRequest) (inFlight : List (UInt32 × ℕ)) : Prop where
  queued : ∀ r ∈ requests, (calls r.completion).request = some r.frame
  taken : ∀ r, pending = some r → (calls r.completion).request = some r.frame
  flying : ∀ e ∈ inFlight, ∃ f, (calls e.2).request = some f ∧ f.header.sequence = e.1
  held : ∀ i, (calls i).stage = .waiting → (calls i).senderGone = false →
    Located requests pending inFlight i

variable {inFlight' : List (UInt32 × ℕ)}

/-- A change of the places that keeps hold of every completion it does not drop. -/
theorem Places.change {requests requests' : List DispatchRequest}
    {pending pending' : Option DispatchRequest}
    (h : Places calls requests pending inFlight) (hsame : Untouched calls calls')
    (hqd : ∀ r, (r ∈ requests' ∨ pending' = some r) → r ∈ requests ∨ pending = some r)
    (hfly : ∀ e ∈ inFlight', e ∈ inFlight ∨ ∃ r, pending = some r ∧ e = (r.frame.header.sequence, r.completion))
    (hheld : ∀ i, Located requests pending inFlight i →
      Located requests' pending' inFlight' i ∨ (calls' i).senderGone = true) :
    Places calls' requests' pending' inFlight' := by
  have hreq : ∀ r, (r ∈ requests ∨ pending = some r) →
      (calls' r.completion).request = some r.frame := by
    intro r hr
    rw [hsame.request]
    exact hr.elim (h.queued r) (h.taken r)
  constructor
  · exact fun r hr => hreq r (hqd r (.inl hr))
  · exact fun r hr => hreq r (hqd r (.inr hr))
  · intro e he
    rcases hfly e he with hold | ⟨r, hr, rfl⟩
    · obtain ⟨f, hf, hsq⟩ := h.flying e hold
      exact ⟨f, by rw [hsame.request, hf], hsq⟩
    · exact ⟨r.frame, hreq r (.inr hr), rfl⟩
  · intro i hi hgone
    rw [hsame.stage] at hi
    rcases hheld i (h.held i hi (hsame.senderGone i hgone)) with hlocated | htrue
    · exact hlocated
    · rw [hgone] at htrue
      cases htrue

theorem Places.update {requests : List DispatchRequest} {pending : Option DispatchRequest}
    (h : Places calls requests pending inFlight)
    (hreq : ∀ f, (calls i).request = some f → c.request = some f) (hstage : c.stage ≠ .waiting) :
    Places (update calls i c) requests pending inFlight where
  queued r hr := request_update hreq (h.queued r hr)
  taken r hr := request_update hreq (h.taken r hr)
  flying e he := by
    obtain ⟨f, hf, hsq⟩ := h.flying e he
    exact ⟨f, request_update hreq hf, hsq⟩
  held j hj hgone := by
    have hji : j ≠ i := by
      rintro rfl
      rw [update_self] at hj
      exact hstage hj
    rw [update_of_ne hji] at hj hgone
    exact h.held j hj hgone

/-! ### Deliveries -/

structure Deliveries (calls : ℕ → Call) (sent : List RequestFrame) (arrived : ℕ) : Prop where
  own : ∀ i a, (calls i).Holds a → ∃ f, (calls i).request = some f ∧
    a.frame.header.sequence = f.header.sequence ∧ f ∈ sent ∧ a.number < arrived
  distinct : ∀ i j a b, (calls i).Holds a → (calls j).Holds b → a.number = b.number → i = j

theorem Deliveries.change {sent sent' : List RequestFrame} {arrived arrived' : ℕ}
    (h : Deliveries calls sent arrived) (hhld : ∀ i a, (calls' i).Holds a → (calls i).Holds a)
    (hreq : ∀ i f, (calls i).request = some f → (calls' i).request = some f) (hsent : sent ⊆ sent')
    (harrived : arrived ≤ arrived') : Deliveries calls' sent' arrived' where
  own i a ha := by
    obtain ⟨f, hf, hsq, hmem, hnum⟩ := h.own i a (hhld i a ha)
    exact ⟨f, hreq i f hf, hsq, hsent hmem, hnum.trans_le harrived⟩
  distinct i j a b ha hb := h.distinct i j a b (hhld i a ha) (hhld j b hb)

/-! ### Cancellations -/

structure Cancellations (calls : ℕ → Call) (cancellations processed : List UInt32)
    (inFlight : List (UInt32 × ℕ)) :
    Prop where
  closing : ∀ i error, (calls i).stage = .cancelling error → (calls i).receiverClosed = true
  closed : ∀ q, q ∈ cancellations ∨ q ∈ processed →
    ∃ i f, (calls i).request = some f ∧ f.header.sequence = q ∧ (calls i).receiverClosed = true
  landed : ∀ q ∈ processed, ∀ e ∈ inFlight, e.1 ≠ q

variable {cancellations processed : List UInt32}

theorem Cancellations.untouched
    (h : Cancellations calls cancellations processed inFlight) (hsame : Untouched calls calls')
    (hflight : ∀ e ∈ inFlight', e ∈ inFlight ∨ e.1 ∉ processed) :
    Cancellations calls' cancellations processed inFlight' where
  closing i result hi := by
    rw [hsame.stage] at hi
    rw [hsame.receiverClosed]
    exact h.closing i result hi
  closed q hq := by
    obtain ⟨i, f, hf, hsq, hclsd⟩ := h.closed q hq
    exact ⟨i, f, by rw [hsame.request, hf], hsq, by rw [hsame.receiverClosed, hclsd]⟩
  landed q hq e he := by
    rcases hflight e he with hold | hfree
    · exact h.landed q hq e hold
    · rintro rfl
      exact hfree hq

theorem Cancellations.update (h : Cancellations calls cancellations processed inFlight)
    (hreq : ∀ f, (calls i).request = some f → c.request = some f)
    (hclsd : ∀ f, (calls i).request = some f → (calls i).receiverClosed = true → c.receiverClosed = true)
    (hstage : ∀ result, c.stage = .cancelling result → c.receiverClosed = true) :
    Cancellations (update calls i c) cancellations processed inFlight where
  closing j := by
    rw [update_apply]
    split
    · exact hstage
    · exact h.closing j
  closed q hq := by
    obtain ⟨j, f, hf, hsq, hgone⟩ := h.closed q hq
    refine ⟨j, f, request_update hreq hf, hsq, ?_⟩
    rw [update_apply]
    split
    next hji => exact hclsd f (hji ▸ hf) (hji ▸ hgone)
    · exact hgone
  landed := h.landed

/-! ### The groups together -/

structure Core (config : ClientConfig) (s : ClientState) : Prop where
  numbering : Numbering s.calls s.entered s.issued s.nextSequence
  places : Places s.calls s.requests s.connection.pendingRequest s.connection.inFlight
  deliveries : Deliveries s.calls s.sent s.arrived
  cancellations : Cancellations s.calls s.cancellations s.processed s.connection.inFlight
  limit : s.connection.inFlight.length ≤ config.maxInFlight

theorem core_initial : Core config .initial where
  numbering :=
    { next_eq := rfl
      nodup := nodup_nil
      below := nofun
      fresh := fun _ _ => ⟨rfl, rfl⟩
      accepted := nofun
      number := nofun
      numbered := nofun }
  places := ⟨nofun, nofun, nofun, nofun⟩
  deliveries := ⟨fun _ _ h => by simp [Call.Holds, initial, Call.absent, Stage.result] at h,
    fun _ _ _ _ h => by simp [Call.Holds, initial, Call.absent, Stage.result] at h⟩
  cancellations := ⟨nofun, fun _ h => by simp [initial] at h, nofun⟩
  limit := Nat.zero_le _

theorem mem_of_flying (h : s.flying q = some i) : (q, i) ∈ s.connection.inFlight := by
  obtain ⟨e, he, rfl⟩ := Option.map_eq_some_iff.mp h
  have hq : e.1 = q := by simpa using find?_some he
  rw [← hq]
  exact mem_of_find?_eq_some he

theorem ne_of_flying_none (h : s.flying q = none) : ∀ e ∈ s.connection.inFlight, e.1 ≠ q := by
  intro e he
  have hnone := find?_eq_none.mp (Option.map_eq_none_iff.mp h) e he
  simpa using hnone

theorem mem_land : e ∈ (s.land q).connection.inFlight ↔ e ∈ s.connection.inFlight ∧ e.1 ≠ q := by
  simp [land, setInFlight]

theorem holds_forget (h : c.forget.Holds a) : c.Holds a := h

theorem holds_complete_error (h : (c.complete (.error error)).Holds a) : c.Holds a := by
  rw [Call.complete_eq] at h
  rcases h with hval | hres
  · dsimp only at hval
    split at hval
    · exact .inl hval
    · cases hval
  · exact .inr hres

theorem holds_setCall (h : ∀ a, c.Holds a → (s.calls i).Holds a) (j : ℕ) (a : Arrival)
    (ha : ((s.setCall i c).calls j).Holds a) : (s.calls j).Holds a := by
  by_cases hji : j = i
  · subst hji
    rw [setCall_self] at ha
    exact h a ha
  · rwa [setCall_of_ne hji] at ha

theorem dropFields_calls (s : ClientState) (i : ℕ) :
    (dropFields s).calls i = s.calls i ∨ (dropFields s).calls i = (s.calls i).forget := by
  show (if _ then _ else _) = _ ∨ (if _ then _ else _) = _
  split
  · exact .inr rfl
  · exact .inl rfl

theorem untouched_dropFields : Untouched s.calls (dropFields s).calls := by
  constructor
  · exact fun i => (dropFields_calls s i).elim (congrArg Call.stage) (congrArg Call.stage)
  · exact fun i => (dropFields_calls s i).elim (congrArg Call.request) (congrArg Call.request)
  · exact fun i => (dropFields_calls s i).elim (congrArg Call.receiverClosed) (congrArg Call.receiverClosed)
  · intro i hi
    rcases dropFields_calls s i with h | h <;> rw [h] at hi
    · exact hi
    · cases hi

theorem holds_dropFields (h : ((dropFields s).calls i).Holds a) : (s.calls i).Holds a := by
  rcases dropFields_calls s i with hi | hi <;> rw [hi] at h
  · exact h
  · exact holds_forget h

theorem senderGone_dropFields (h : Located s.requests s.connection.pendingRequest s.connection.inFlight i) :
    ((dropFields s).calls i).senderGone = true := by
  have hheld : i ∈ s.requests.map (·.completion) ++ s.connection.inFlight.map Prod.snd ++
      s.connection.pendingRequest.toList.map (·.completion) := by
    simp only [mem_append, mem_map, Option.mem_toList, Prod.exists, exists_eq_right]
    rcases h with hqd | hpend | hfly
    · exact .inl (.inl hqd)
    · exact .inr hpend
    · exact .inl (.inr hfly)
  show (if _ then _ else _ : Call).senderGone = true
  rw [if_pos hheld]
  rfl

namespace Core

variable (h : Core config s)
include h

/-- The sender half of a call is used up without an answer. -/
theorem setCall (hsame : Untouched s.calls (s.setCall i c).calls)
    (hhld : ∀ a, c.Holds a → (s.calls i).Holds a) : Core config (s.setCall i c) where
  numbering := h.numbering.untouched hsame
  places := h.places.change hsame (fun _ hr => hr) (fun _ he => .inl he) fun _ hi => .inl hi
  deliveries := h.deliveries.change (holds_setCall hhld) (fun i f hf => by rw [hsame.request, hf])
    (List.Subset.refl _) le_rfl
  cancellations := h.cancellations.untouched hsame fun _ he => .inl he
  limit := h.limit

theorem keep (c : Connection) (hpend : c.pendingRequest = s.connection.pendingRequest)
    (hflight : c.inFlight = s.connection.inFlight) (closed : Bool)
    (result : Option (Except RpcError Unit)) :
    Core config { s with connection := c, closed, result } :=
  { h with
    places := by
      rw [hpend, hflight]
      exact h.places
    cancellations := by
      rw [hflight]
      exact h.cancellations
    limit := by
      rw [hflight]
      exact h.limit }

theorem goto (control : Control) : Core config (s.goto control) :=
  h.keep { s.connection with control } rfl rfl s.closed s.result

theorem forget : Core config (s.forget i) :=
  h.setCall untouched_forget fun _ => holds_forget

theorem complete_error (error : RpcError) : Core config (s.complete i (.error error)) :=
  h.setCall (untouched_complete _) fun _ => holds_complete_error

/-- An entry leaves the map after its completion was used. -/
theorem land (hfew : s.entered < 2 ^ 32) (hi : s.flying q = some i)
    (hgone : (s.calls i).senderGone = true) : Core config (s.land q) :=
  { h with
    places := by
      refine h.places.change (.refl _) (fun _ hr => hr) (fun e he => .inl (mem_land.mp he).1) fun j hj => ?_
      rcases hj with hqd | hpend | ⟨q', hfly⟩
      · exact .inl (.inl hqd)
      · exact .inl (.inr (.inl hpend))
      · by_cases hq : q' = q
        · -- the sequence number belongs to one call
          subst hq
          obtain ⟨_, hf, hfseq⟩ := h.places.flying _ hfly
          obtain ⟨_, hg, hgseq⟩ := h.places.flying _ (mem_of_flying hi)
          have hji : j = i := h.numbering.injective hfew hf hg (hfseq.trans hgseq.symm)
          rw [hji]
          exact .inr hgone
        · exact .inl (.inr (.inr ⟨q', mem_land.mpr ⟨hfly, hq⟩⟩))
    cancellations := h.cancellations.untouched (.refl _) fun _ he => .inl (mem_land.mp he).1
    limit := (length_filter_le _ _).trans h.limit }

/-- A cancellation is received for a sequence number that is not in flight any more. -/
theorem process (hq : s.cancellations = q :: rest)
    (hlanded : ∀ e ∈ s.connection.inFlight, e.1 ≠ q) :
    Core config { s with cancellations := rest, processed := s.processed ++ [q] } :=
  { h with
    cancellations :=
      { closing := h.cancellations.closing
        closed := by
          intro q' hq'
          refine h.cancellations.closed q' ?_
          rw [hq]
          simp only [mem_append, mem_cons, not_mem_nil, or_false] at hq' ⊢
          tauto
        landed := by
          intro q' hq' e he
          rcases mem_append.mp hq' with hold | hnew
          · exact h.cancellations.landed q' hold e he
          · rw [mem_singleton.mp hnew]
            exact hlanded e he } }

/-- A request goes from the channel to the connection. -/
theorem take (hreqs : s.requests = request :: rest) (hpend : s.connection.pendingRequest = none) :
    Core config ({ s with requests := rest }.setPending (some request)) :=
  { h with
    places := by
      refine h.places.change (.refl _) ?_ (fun _ he => .inl he) ?_
      · rintro r (hr | hr)
        · exact .inl (by rw [hreqs]; exact mem_cons_of_mem _ hr)
        · cases hr
          exact .inl (by rw [hreqs]; exact mem_cons_self)
      · rintro _ (⟨r, hr, hj⟩ | ⟨r, hr, -⟩ | hfly)
        · rw [hreqs] at hr
          rcases mem_cons.mp hr with rfl | hrest
          · exact .inl (.inr (.inl ⟨r, rfl, hj⟩))
          · exact .inl (.inl ⟨r, hrest, hj⟩)
        · rw [hpend] at hr
          cases hr
        · exact .inl (.inr (.inr hfly)) }

theorem release (hpend : s.connection.pendingRequest = some request)
    (hgone : (s.calls request.completion).senderGone = true) : Core config (s.setPending none) :=
  { h with
    places := by
      refine h.places.change (.refl _) (fun r hr => .inl (hr.resolve_right nofun)) (fun _ he => .inl he) ?_
      rintro _ (hqd | ⟨r, hr, rfl⟩ | hfly)
      · exact .inl (.inl hqd)
      · cases hpend.symm.trans hr
        exact .inr hgone
      · exact .inl (.inr (.inr hfly)) }

/-- The first request of the channel is given up after its completion was used. -/
theorem skip (hreqs : s.requests = request :: rest)
    (hgone : (s.calls request.completion).senderGone = true) :
    Core config { s with requests := rest } :=
  { h with
    places := by
      refine h.places.change (.refl _) ?_ (fun _ he => .inl he) ?_
      · rintro r (hr | hr)
        · exact .inl (by rw [hreqs]; exact mem_cons_of_mem _ hr)
        · exact .inr hr
      · rintro _ (⟨r, hr, rfl⟩ | hpend | hfly)
        · rw [hreqs] at hr
          rcases mem_cons.mp hr with rfl | hrest
          · exact .inr hgone
          · exact .inl (.inl ⟨r, hrest, rfl⟩)
        · exact .inl (.inr (.inl hpend))
        · exact .inl (.inr (.inr hfly)) }

theorem hand (hpend : s.connection.pendingRequest = some request)
    (hfree : request.frame.header.sequence ∉ s.processed)
    (hroom : s.connection.inFlight.length < config.maxInFlight) :
    Core config ((s.setPending none).setInFlight
      ((request.frame.header.sequence, request.completion) :: s.connection.inFlight)) :=
  { h with
    places := by
      refine h.places.change (.refl _) (fun r hr => .inl (hr.resolve_right nofun)) ?_ ?_
      · intro e he
        rcases mem_cons.mp he with rfl | hold
        · exact .inr ⟨request, hpend, rfl⟩
        · exact .inl hold
      · rintro _ (hqd | ⟨r, hr, rfl⟩ | ⟨q, hfly⟩)
        · exact .inl (.inl hqd)
        · cases hpend.symm.trans hr
          exact .inl (.inr (.inr ⟨_, mem_cons_self⟩))
        · exact .inl (.inr (.inr ⟨q, mem_cons_of_mem _ hfly⟩))
    cancellations := by
      refine h.cancellations.untouched (.refl _) fun e he => ?_
      rcases mem_cons.mp he with rfl | hold
      · exact .inr hfree
      · exact .inl hold
    limit := hroom }

theorem transmit (frame : RequestFrame) : Core config { s with sent := s.sent ++ [frame] } :=
  { h with
    deliveries := h.deliveries.change (fun _ _ ha => ha) (fun _ _ hf => hf) (subset_append_left _ _) le_rfl }

/-- An answer for a call whose request was handed to the transport. -/
theorem answer (hreq : (s.calls i).request = some g)
    (hsq : f.header.sequence = g.header.sequence) (hsent : g ∈ s.sent) :
    Core config { s.complete i (.ok ⟨s.arrived, f⟩) with arrived := s.arrived + 1 } := by
  have hsame : Untouched s.calls (s.complete i (.ok ⟨s.arrived, f⟩)).calls := untouched_complete _
  have hold : ∀ j a, ((s.complete i (.ok ⟨s.arrived, f⟩)).calls j).Holds a →
      (s.calls j).Holds a ∨ j = i ∧ a = ⟨s.arrived, f⟩ := by
    intro j a ha
    by_cases hji : j = i
    · subst hji
      rw [ClientState.complete, setCall_self, Call.complete_eq] at ha
      rcases ha with hval | hres
      · dsimp only at hval
        split at hval
        · exact .inl (.inl hval)
        · cases hval
          exact .inr ⟨rfl, rfl⟩
      · exact .inl (.inr hres)
    · rw [ClientState.complete, setCall_of_ne hji] at ha
      exact .inl ha
  have hbelow : ∀ {j a}, (s.calls j).Holds a → a.number < s.arrived := fun {j a} ha =>
    (h.deliveries.own j a ha).choose_spec.2.2.2
  refine ⟨h.numbering.untouched hsame,
    h.places.change hsame (fun _ hr => hr) (fun _ he => .inl he) fun _ hi => .inl hi, ⟨?_, ?_⟩,
    h.cancellations.untouched hsame fun _ he => .inl he, h.limit⟩
  · intro j a ha
    rcases hold j a ha with ha | ⟨rfl, rfl⟩
    · obtain ⟨g', hg', hseq, hmem, hnum⟩ := h.deliveries.own j a ha
      exact ⟨g', by rw [hsame.request, hg'], hseq, hmem, hnum.trans (Nat.lt_succ_self _)⟩
    · exact ⟨g, by rw [hsame.request, hreq], hsq, hsent, Nat.lt_succ_self _⟩
  · intro j k a b ha hb hnum
    rcases hold j a ha with hj | ⟨rfl, rfl⟩ <;> rcases hold k b hb with hk | ⟨rfl, rfl⟩
    · exact h.deliveries.distinct j k a b hj hk hnum
    · exact absurd hnum (Nat.ne_of_lt (hbelow hj))
    · exact absurd hnum.symm (Nat.ne_of_lt (hbelow hk))
    · rfl

theorem ignore : Core config { s with arrived := s.arrived + 1 } :=
  { h with
    deliveries := h.deliveries.change (fun _ _ ha => ha) (fun _ _ hf => hf) (List.Subset.refl _)
      (Nat.le_succ _) }

theorem dropFields : Core config (dropFields s) where
  numbering := h.numbering.untouched untouched_dropFields
  places := by
    refine h.places.change untouched_dropFields (by rintro _ (hr | hr) <;> cases hr) nofun fun i hi => .inr ?_
    exact senderGone_dropFields hi
  deliveries := h.deliveries.change (fun i a => holds_dropFields)
    (fun i f hf => by rw [untouched_dropFields.request, hf]) (List.Subset.refl _) le_rfl
  cancellations :=
    { closing := (h.cancellations.untouched untouched_dropFields fun _ he => .inl he).closing
      closed := fun q hq =>
        (h.cancellations.untouched untouched_dropFields fun _ he => .inl he).closed q
          (.inr (hq.resolve_left nofun))
      landed := fun _ _ _ he => nomatch he }
  limit := Nat.zero_le _

end Core

end Cakemaster.Rpc
