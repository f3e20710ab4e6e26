import Cakemaster.Client.GracefulQueue

/-!
# What the queue has pending

One lemma for each operation of the queue of graceful unmounts: what is pending afterwards,
and that the heap keeps the record of every pending unmount that is not claimed.
-/

namespace Cakemaster.Client.GracefulUnmountQueue

open Machine Segment List AList
open Object (ClientSession)

variable {q : GracefulUnmountQueue} {key : GracefulUnmountKey} {p : PendingGracefulUnmount}

/-- The revision of the unmount that is entered next. -/
def nextFree (q : GracefulUnmountQueue) : ℕ := max (Word.wrapAdd 64 q.nextRevision 1) 1

/-- The heap has the record of a pending unmount. -/
def Listed (q : GracefulUnmountQueue) (key : GracefulUnmountKey)
    (p : PendingGracefulUnmount) : Prop :=
  ⟨p.deadline, p.revision, key⟩ ∈ q.deadlines

/-- The heap has the earliest record in front. -/
def Sorted (q : GracefulUnmountQueue) : Prop := q.deadlines.Pairwise fun a b => a.order ≤ b.order

instance : Std.Total fun a b : GracefulDeadlineRecord => a.order ≤ b.order :=
  ⟨fun a b => le_total a.order b.order⟩

instance : IsTrans GracefulDeadlineRecord fun a b => a.order ≤ b.order := ⟨fun _ _ _ => le_trans⟩

theorem deadline_le_of_order {a b : GracefulDeadlineRecord} (h : a.order ≤ b.order) :
    a.deadline ≤ b.deadline := by
  by_contra hlt
  refine absurd h (not_le_of_gt ?_)
  exact List.Lex.rel (Nat.lt_of_not_le hlt)

/-! ### Entering and taking out -/

theorem lookup_insert (incarnation : SegmentIncarnation) (deadline : ClientTick)
    (key' : GracefulUnmountKey) :
    (q.insert key incarnation deadline).pending.lookup key' =
      if key' = key then some ⟨deadline, incarnation, q.nextFree, false⟩ else q.pending.lookup key' := by
  by_cases h : key' = key
  · subst h
    rw [if_pos rfl]
    exact AList.lookup_insert _
  · rw [if_neg h]
    exact lookup_insert_ne h

theorem listed_insert (incarnation : SegmentIncarnation) (deadline : ClientTick) :
    (q.insert key incarnation deadline).Listed key ⟨deadline, incarnation, q.nextFree, false⟩ :=
  (mem_orderedInsert _).mpr (.inl rfl)

theorem Listed.insert (h : q.Listed key' p) (incarnation : SegmentIncarnation)
    (deadline : ClientTick) : (q.insert key incarnation deadline).Listed key' p :=
  (mem_orderedInsert _).mpr (.inr h)

theorem Sorted.insert (h : q.Sorted) (incarnation : SegmentIncarnation) (deadline : ClientTick) :
    (q.insert key incarnation deadline).Sorted := List.Pairwise.orderedInsert _ _ h

theorem schedule_cases (key : GracefulUnmountKey) (incarnation : SegmentIncarnation)
    (deadline : ClientTick) :
    q.schedule key incarnation deadline = q.insert key incarnation deadline ∧
        (∀ p, q.pending.lookup key = some p → p.incarnation = incarnation → p.claimed = false) ∨
      q.schedule key incarnation deadline = q ∧ ∃ p, q.pending.lookup key = some p ∧
          p.incarnation = incarnation := by
  unfold schedule
  cases hpend : q.pending.lookup key with
  | none => exact .inl ⟨rfl, nofun⟩
  | some p =>
    dsimp only
    split
    next hold => exact .inr ⟨rfl, p, rfl, hold.1⟩
    next hnew =>
    refine .inl ⟨rfl, ?_⟩
    rintro _ ⟨⟩ hinc
    by_contra hclm
    exact hnew ⟨hinc, .inl (Bool.eq_true_of_not_eq_false hclm)⟩

theorem lookup_cancel (key' : GracefulUnmountKey) :
    (q.cancel key).pending.lookup key' = if key' = key then none else q.pending.lookup key' := by
  by_cases h : key' = key
  · subst h
    rw [if_pos rfl]
    exact lookup_erase _ _
  · rw [if_neg h]
    exact lookup_erase_ne h

theorem lookup_erases (keys : List GracefulUnmountKey)
    (pending : AList fun _ : GracefulUnmountKey => PendingGracefulUnmount) :
    (keys.foldl (fun pending key => pending.erase key) pending).lookup key =
      if key ∈ keys then none else pending.lookup key := by
  induction keys generalizing pending with
  | nil => simp
  | cons key' rest ih =>
    rw [foldl_cons, ih]
    by_cases h : key = key'
    · subst h
      simp
    · simp [h, lookup_erase_ne h]

theorem lookup_cancelSession (session : ClientSession) :
    (q.cancelSession session).pending.lookup key = if key.session = session then none else
      q.pending.lookup key := by
  unfold cancelSession
  rw [lookup_erases]
  by_cases h : key.session = session
  · rw [if_pos h]
    split
    · rfl
    next hmem =>
    by_contra hpend
    refine hmem (mem_filter.mpr ⟨?_, decide_eq_true h⟩)
    exact mem_keys.mp (lookup_isSome.mp (Option.isSome_iff_ne_none.mpr hpend))
  · have hmem : key ∉ q.pending.keys.filter (·.session = session) := by simp [h]
    rw [if_neg h, if_neg hmem]

theorem lookup_cancelSessions (sessions : List ClientSession) :
    (sessions.foldl (fun queue session => queue.cancelSession session) q).pending.lookup key =
      if key.session ∈ sessions then none else q.pending.lookup key := by
  induction sessions generalizing q with
  | nil => simp
  | cons session rest ih =>
    rw [foldl_cons, ih, lookup_cancelSession]
    by_cases h : key.session = session
    · simp [h]
    · simp [h]

theorem deadlines_cancelSessions (sessions : List ClientSession) :
    (sessions.foldl (fun queue session => queue.cancelSession session) q).deadlines = q.deadlines := by
  induction sessions generalizing q with
  | nil => rfl
  | cons session rest ih => exact ih

theorem lookup_finish (job : GracefulUnmountJob) : (q.finish job).pending.lookup key =
    if key = job.key ∧ (q.pending.lookup key).any (·.revision = job.revision) then none else
        q.pending.lookup key := by
  unfold finish
  by_cases h : key = job.key
  · subst h
    split
    next hrev => simp [hrev]
    next hrev => simp [hrev]
  · rw [if_neg (not_and_of_not_left _ h)]
    split
    · exact lookup_erase_ne h
    · rfl

theorem deadlines_finish (job : GracefulUnmountJob) : (q.finish job).deadlines = q.deadlines := by
  unfold finish
  split <;> rfl

/-! ### Claiming -/

variable {pending : AList fun _ : GracefulUnmountKey => PendingGracefulUnmount}

theorem isCurrent_of_lookup
    (h : pending.lookup key = some p) : isCurrent pending ⟨p.deadline, p.revision, key⟩ = true := by
  simp [isCurrent, h]

/-- Only records of nothing that is pending are pruned. -/
theorem Listed.pruneStaleDeadlines (h : q.Listed key p) (hpend : q.pending.lookup key = some p) :
    q.pruneStaleDeadlines.Listed key p := by
  unfold Listed GracefulUnmountQueue.pruneStaleDeadlines at *
  generalize q.deadlines = records at h
  induction records with
  | nil => cases h
  | cons record rest ih =>
    rw [dropWhile_cons]
    split
    next hstl =>
      rcases mem_cons.mp h with rfl | hmem
      · rw [isCurrent_of_lookup hpend] at hstl
        cases hstl
      · exact ih hmem
    · exact h

theorem Sorted.pruneStaleDeadlines (h : q.Sorted) : q.pruneStaleDeadlines.Sorted :=
  List.Pairwise.sublist (dropWhile_sublist _) h

/-- What claiming makes of the pending unmounts and of the records. -/
structure Claims (now : ClientTick) (records : List GracefulDeadlineRecord)
    (pending : AList fun _ : GracefulUnmountKey => PendingGracefulUnmount)
    (jobs : List GracefulUnmountJob) (records' : List GracefulDeadlineRecord)
    (pending' : AList fun _ : GracefulUnmountKey => PendingGracefulUnmount) : Prop where
  due : ∀ job ∈ jobs, ∃ p, pending.lookup job.key = some p ∧ p.incarnation = job.incarnation ∧
    p.revision = job.revision ∧ p.claimed = false ∧ p.deadline ≤ now
  lookup : ∀ key, pending'.lookup key = (pending.lookup key).map fun p =>
    { p with claimed := p.claimed || decide (⟨key, p.incarnation, p.revision⟩ ∈ jobs) }
  listed : ∀ key p, pending'.lookup key = some p → p.claimed = false →
    ⟨p.deadline, p.revision, key⟩ ∈ records → ⟨p.deadline, p.revision, key⟩ ∈ records'

namespace Claims

variable {now : ClientTick} {records records' : List GracefulDeadlineRecord}
  {record : GracefulDeadlineRecord}
  {pending pending' : AList fun _ : GracefulUnmountKey => PendingGracefulUnmount}
  {jobs : List GracefulUnmountJob}

theorem none : Claims now records pending [] records pending where
  due := nofun
  lookup key := by simp
  listed _ _ _ _ hmem := hmem

section

variable (h : Claims now records pending jobs records' pending')
include h

theorem unclaimed (hlook : pending'.lookup key = some p)
    (hclm : p.claimed = false) : pending.lookup key = some p := by
  rw [h.lookup, Option.map_eq_some_iff] at hlook
  obtain ⟨_, hp', rfl⟩ := hlook
  obtain ⟨_, hnew⟩ := Bool.or_eq_false_iff.mp hclm
  rw [hp', hnew, Bool.or_false]

/-- A record is dropped that is not the record of an unclaimed unmount. -/
theorem drop (hdrop : ∀ p, pending.lookup record.key = some p → p.claimed = false →
    record ≠ ⟨p.deadline, p.revision, record.key⟩) :
    Claims now (record :: records) pending jobs records' pending' where
  due := h.due
  lookup := h.lookup
  listed key p hlook hclm hmem := by
    rcases mem_cons.mp hmem with rfl | hrest
    · exact absurd rfl (hdrop p (h.unclaimed hlook hclm) hclm)
    · exact h.listed key p hlook hclm hrest

end

theorem claim (hlook : pending.lookup record.key = some p) (hclm : p.claimed = false)
    (hrev : p.revision = record.revision) (hdue : p.deadline ≤ now)
    (h : Claims now records (pending.insert record.key { p with claimed := true }) jobs records' pending') :
    Claims now (record :: records) pending (⟨record.key, p.incarnation, record.revision⟩ :: jobs)
    records' pending' := by
  have hself : (pending.insert record.key { p with claimed := true }).lookup record.key =
      some { p with claimed := true } :=
    AList.lookup_insert _
  constructor
  · intro job hmem
    rcases mem_cons.mp hmem with rfl | hrest
    · exact ⟨p, hlook, rfl, hrev, hclm, hdue⟩
    · obtain ⟨p', hp', hjob⟩ := h.due job hrest
      by_cases hkey : job.key = record.key
      · rw [hkey, hself] at hp'
        cases hp'
        exact absurd hjob.2.2.1 Bool.noConfusion
      · rw [lookup_insert_ne hkey] at hp'
        exact ⟨p', hp', hjob⟩
  · intro key
    rw [h.lookup]
    by_cases hkey : key = record.key
    · subst hkey
      rw [hself, hlook, hrev.symm]
      simp
    · rw [lookup_insert_ne hkey]
      simp [hkey]
  · intro key p' hp' hclm' hmem
    rcases mem_cons.mp hmem with rfl | hrest
    · have hbef := h.unclaimed hp' hclm'
      rw [hself] at hbef
      cases hbef
      cases hclm'
    · exact h.listed key p' hp' hclm' hrest

end Claims

theorem claims_claimRecords (now : ClientTick) (budget : ℕ) (records : List GracefulDeadlineRecord)
    (pending : AList fun _ : GracefulUnmountKey => PendingGracefulUnmount)
    (jobs : List GracefulUnmountJob) :
    ∃ claimed, (claimRecords now budget records pending jobs).1 = jobs ++ claimed ∧
      Claims now records pending claimed (claimRecords now budget records pending jobs).2.1
        (claimRecords now budget records pending jobs).2.2 := by
  induction records generalizing pending jobs with
  | nil => exact ⟨[], (append_nil _).symm, .none⟩
  | cons record rest ih =>
    rw [claimRecords]
    split
    · exact ⟨[], (append_nil _).symm, .none⟩
    split
    next hstl =>
      obtain ⟨claimed, hjobs, hclms⟩ := ih pending jobs
      refine ⟨claimed, hjobs, hclms.drop fun p hp _ hrcd => ?_⟩
      rw [hrcd, isCurrent_of_lookup hp] at hstl
      cases hstl
    next hcurr =>
    split
    · exact ⟨[], (append_nil _).symm, .none⟩
    next hnow =>
    cases hp : pending.lookup record.key with
    | none =>
      obtain ⟨claimed, hjobs, hclms⟩ := ih pending jobs
      exact ⟨claimed, hjobs, hclms.drop fun p' hp' => by cases hp.symm.trans hp'⟩
    | some p =>
      dsimp only
      split
      next hclm =>
        obtain ⟨claimed, hjobs, hclms⟩ := ih pending jobs
        refine ⟨claimed, hjobs, hclms.drop fun p' hp' hclm' => ?_⟩
        cases hp.symm.trans hp'
        cases hclm.symm.trans hclm'
      next hclm =>
      obtain ⟨hrev, hdeadline⟩ : p.revision = record.revision ∧ p.deadline = record.deadline := by
        simpa [isCurrent, hp] using hcurr
      obtain ⟨claimed, hjobs, hclms⟩ := ih (pending.insert record.key { p with claimed := true })
        (jobs ++ [⟨record.key, p.incarnation, record.revision⟩])
      refine ⟨_, hjobs.trans (append_assoc ..), hclms.claim hp (Bool.eq_false_of_not_eq_true hclm) hrev ?_⟩
      rw [hdeadline]
      exact Nat.le_of_not_lt hnow

theorem claims_claimDue (now : ClientTick) (budget : ℕ) :
    Claims now q.deadlines q.pending (q.claimDue now budget).1
    (q.claimDue now budget).2.deadlines (q.claimDue now budget).2.pending := by
  obtain ⟨_, hjobs, hclms⟩ := claims_claimRecords now budget q.deadlines q.pending []
  rw [claimDue]
  dsimp only
  rw [hjobs]
  exact hclms

theorem suffix_claimRecords (now : ClientTick) (budget : ℕ) (records : List GracefulDeadlineRecord)
    (pending : AList fun _ : GracefulUnmountKey => PendingGracefulUnmount)
    (jobs : List GracefulUnmountJob) :
    (claimRecords now budget records pending jobs).2.1 <:+ records := by
  induction records generalizing pending jobs with
  | nil => exact suffix_refl _
  | cons record rest ih =>
    have hrest := fun pending jobs => (ih pending jobs).trans (suffix_cons record rest)
    rw [claimRecords]
    split
    · exact suffix_refl _
    split
    · exact hrest _ _
    split
    · exact suffix_refl _
    split
    · exact hrest _ _
    split <;> exact hrest _ _

theorem Sorted.claimDue (h : q.Sorted) (now : ClientTick) (budget : ℕ) :
    (q.claimDue now budget).2.Sorted :=
  List.Pairwise.sublist (suffix_claimRecords now budget q.deadlines q.pending []).sublist h

/-- With budget left, every unmount that is due has been claimed. -/
theorem mem_claimRecords {records : List GracefulDeadlineRecord}
    (hsrt : records.Pairwise fun a b => a.order ≤ b.order)
    (hbud : (claimRecords now budget records pending jobs).1.length < budget)
    (hp : pending.lookup key = some p) (hclm : p.claimed = false) (hdue : p.deadline ≤ now)
    (hlst : ⟨p.deadline, p.revision, key⟩ ∈ records) :
    ⟨key, p.incarnation, p.revision⟩ ∈ (claimRecords now budget records pending jobs).1 := by
  induction records generalizing pending jobs with
  | nil => cases hlst
  | cons record rest ih =>
    obtain ⟨hfirst, hrest⟩ := pairwise_cons.mp hsrt
    have hskip : record ≠ ⟨p.deadline, p.revision, key⟩ → ⟨p.deadline, p.revision, key⟩ ∈ rest :=
      fun hne => (mem_cons.mp hlst).resolve_left fun heq => hne heq.symm
    rw [claimRecords] at hbud ⊢
    split at hbud
    next hfull => exact absurd hbud (Nat.not_lt_of_le hfull)
    next hroom =>
    rw [if_neg hroom]
    split at hbud
    next hstl =>
      rw [if_pos hstl]
      refine ih hrest hbud hp (hskip ?_)
      rintro rfl
      rw [isCurrent_of_lookup hp] at hstl
      cases hstl
    next hcurr =>
    rw [if_neg hcurr]
    split at hbud
    next hltr =>
      -- the records behind it are later still
      have hle : record.deadline ≤ p.deadline := by
        rcases mem_cons.mp hlst with heq | hmem
        · rw [← heq]
        · exact deadline_le_of_order (hfirst _ hmem)
      exact absurd (hle.trans hdue) (Nat.not_le_of_lt hltr)
    next hnow =>
    rw [if_neg hnow]
    cases hcur : pending.lookup record.key with
    | none =>
      rw [hcur] at hbud
      refine ih hrest hbud hp (hskip ?_)
      rintro rfl
      cases hcur.symm.trans hp
    | some current =>
      rw [hcur] at hbud
      dsimp only at hbud ⊢
      split at hbud
      next hold =>
        rw [if_pos hold]
        refine ih hrest hbud hp (hskip ?_)
        rintro rfl
        cases hcur.symm.trans hp
        cases hold.symm.trans hclm
      next hnew =>
      rw [if_neg hnew]
      obtain ⟨hrev, _⟩ : current.revision = record.revision ∧ current.deadline = record.deadline := by
        simpa [isCurrent, hcur] using hcurr
      by_cases hkey : key = record.key
      · subst hkey
        cases hcur.symm.trans hp
        obtain ⟨claimed, hjobs, -⟩ := claims_claimRecords now budget rest
          (pending.insert record.key { p with claimed := true })
          (jobs ++ [⟨record.key, p.incarnation, record.revision⟩])
        rw [hjobs, hrev]
        simp
      · refine ih hrest hbud ?_ (hskip ?_)
        · rw [lookup_insert_ne hkey, hp]
        · rintro rfl
          exact hkey rfl

theorem mem_claimDue (hsrt : q.Sorted) (hbud : (q.claimDue now budget).1.length < budget)
    (hp : q.pending.lookup key = some p) (hclm : p.claimed = false) (hdue : p.deadline ≤ now)
    (hlst : q.Listed key p) :
    ⟨key, p.incarnation, p.revision⟩ ∈ (q.claimDue now budget).1 :=
  mem_claimRecords hsrt hbud hp hclm hdue hlst

end Cakemaster.Client.GracefulUnmountQueue
