import Cakemaster.Client.GracefulClaims
import Mathlib.Data.List.TakeWhile

/-!
# The queue over whole runs

Every unclaimed unmount has its one record in the heap and every claimed one has none, so
the front of the heap tells what is due next.
-/

namespace Cakemaster.Client.GracefulUnmountQueue

open Machine Segment List Option Nat
open Object (ClientSession)

inductive Call
  | schedule (key : GracefulUnmountKey) (incarnation : SegmentIncarnation) (deadline : ClientTick)
  | cancel (key : GracefulUnmountKey)
  | cancelSession (session : ClientSession)
  | nextDeadline
  | claimDue (now : ClientTick) (budget : ℕ)
  | finish (job : GracefulUnmountJob)
  | retry (job : GracefulUnmountJob) (deadline : ClientTick)

def Call.perform (q : GracefulUnmountQueue) : Call → GracefulUnmountQueue
  | schedule key incarnation deadline => q.schedule key incarnation deadline
  | cancel key => q.cancel key
  | cancelSession session => q.cancelSession session
  | nextDeadline => q.nextDeadline.2
  | claimDue now budget => (q.claimDue now budget).2
  | finish job => q.finish job
  | retry job deadline => (q.retry job deadline).2

/-- The queue after some calls that have inserted `n` unmounts. The revision tells whether
a call has inserted one. -/
inductive Run : ℕ → GracefulUnmountQueue → Prop
  | new : Run 0 default
  | keep (h : Run n q) (call : Call) (hsame : (call.perform q).nextRevision = q.nextRevision) :
      Run n (call.perform q)
  | insert (h : Run n q) (call : Call) (hnew : (call.perform q).nextRevision ≠ q.nextRevision) :
      Run (n + 1) (call.perform q)

variable {q : GracefulUnmountQueue} {key : GracefulUnmountKey} {p : PendingGracefulUnmount}
  {pending : AList fun _ : GracefulUnmountKey => PendingGracefulUnmount}
  {records : List GracefulDeadlineRecord} {now budget : ℕ}

/-- The heap has one record of each unclaimed unmount and none of a claimed one. Revisions
count the insertions. -/
structure Tracked (n : ℕ) (q : GracefulUnmountQueue) : Prop where
  sorted : q.Sorted
  nodup : q.deadlines.Nodup
  revision : q.nextRevision = n
  recorded : ∀ record ∈ q.deadlines, record.revision ≤ n
  numbered : ∀ key p, q.pending.lookup key = some p → p.revision ≤ n
  listed : ∀ key p, q.pending.lookup key = some p → (q.Listed key p ↔ p.claimed = false)

namespace Tracked

theorem insert (h : Tracked n q) (hn : n + 1 < 2 ^ 64) (key : GracefulUnmountKey)
    (incarnation : SegmentIncarnation) (deadline : ClientTick) :
    Tracked (n + 1) (q.insert key incarnation deadline) := by
  have hfree : q.nextFree = n + 1 := by
    rw [nextFree, h.revision, Word.wrapAdd, mod_eq_of_lt hn]
    exact max_eq_left (le_add_left 1 n)
  have hperm : (q.insert key incarnation deadline).deadlines.Perm (⟨deadline, n + 1, key⟩ :: q.deadlines) := by
    rw [← hfree]
    exact perm_orderedInsert _ _ _
  refine ⟨h.sorted.insert incarnation deadline, ?_, hfree, ?_, ?_, ?_⟩
  · refine hperm.nodup_iff.mpr (nodup_cons.mpr ⟨fun hmem => ?_, h.nodup⟩)
    exact absurd (h.recorded _ hmem) (not_succ_le_self n)
  · intro record hmem
    rcases mem_cons.mp (hperm.subset hmem) with rfl | hmem
    · exact le_rfl
    · exact (h.recorded record hmem).trans (le_succ n)
  all_goals
    intro key' p' hp'
    rw [lookup_insert, hfree] at hp'
    split at hp'
  · cases hp'
    exact le_rfl
  · exact (h.numbered key' p' hp').trans (le_succ n)
  next heq =>
    cases hp'
    subst heq
    exact iff_of_true (hfree ▸ listed_insert incarnation deadline) rfl
  next hne =>
  rw [← h.listed key' p' hp', Listed, Listed, hperm.mem_iff, mem_cons]
  exact or_iff_right fun heq => hne (congrArg GracefulDeadlineRecord.key heq)

/-- Unmounts are taken out, and stale records with them or later. -/
theorem shrink (h : Tracked n q) {q' : GracefulUnmountQueue}
    (hsub : q'.deadlines.Sublist q.deadlines) (hrev : q'.nextRevision = q.nextRevision)
    (hlook : ∀ key p, q'.pending.lookup key = some p → q.pending.lookup key = some p)
    (hkept : ∀ key p, q'.pending.lookup key = some p → p.claimed = false → q.Listed key p → q'.Listed key p) :
    Tracked n q' where
  sorted := List.Pairwise.sublist hsub h.sorted
  nodup := h.nodup.sublist hsub
  revision := hrev.trans h.revision
  recorded record hmem := h.recorded record (hsub.subset hmem)
  numbered key p hp := h.numbered key p (hlook key p hp)
  listed key p hp := by
    have hiff := h.listed key p (hlook key p hp)
    exact ⟨fun hlst => hiff.mp (hsub.subset hlst), fun hclm => hkept key p hp hclm (hiff.mpr hclm)⟩

end Tracked

/-! ### Claims in the order of deadlines -/

/-- The pending unmount whose record this is. -/
def entryOf (pending : AList fun _ : GracefulUnmountKey => PendingGracefulUnmount)
    (record : GracefulDeadlineRecord) : Option (GracefulUnmountKey × PendingGracefulUnmount) :=
  (pending.lookup record.key).bind fun p =>
    if p.revision = record.revision ∧
      p.deadline = record.deadline then some (record.key, p) else none

variable {record : GracefulDeadlineRecord}

theorem entryOf_eq_some : entryOf pending record = some (key, p) ↔
    pending.lookup key = some p ∧ record = ⟨p.deadline, p.revision, key⟩ := by
  obtain ⟨deadline, revision, _⟩ := record
  simp only [entryOf, bind_eq_some_iff, ite_none_right_eq_some, some.injEq, Prod.mk.injEq,
    GracefulDeadlineRecord.mk.injEq]
  constructor
  · rintro ⟨p, hp, ⟨rfl, rfl⟩, rfl, rfl⟩
    exact ⟨hp, rfl, rfl, rfl⟩
  · rintro ⟨hp, rfl, rfl, rfl⟩
    exact ⟨p, hp, ⟨rfl, rfl⟩, rfl, rfl⟩

theorem isCurrent_iff : isCurrent pending record = (entryOf pending record).isSome := by
  rw [isCurrent, entryOf]
  cases pending.lookup record.key with
  | none => rfl
  | some p =>
    rw [any_some, bind_some]
    split
    next h => exact decide_eq_true h
    next h => exact decide_eq_false h

def jobOf (x : GracefulUnmountKey × PendingGracefulUnmount) : GracefulUnmountJob :=
  ⟨x.1, x.2.incarnation, x.2.revision⟩

/-- The front of the records is dropped, with what it has claimed, which is due. With budget left,
the next record is not due. -/
def Splits (now budget : ℕ) (pending : AList fun _ : GracefulUnmountKey => PendingGracefulUnmount)
    (records rest : List GracefulDeadlineRecord)
    (claimed : List (GracefulUnmountKey × PendingGracefulUnmount)) : Prop :=
  ∃ dropped, dropped ++ rest = records ∧ dropped.filterMap (entryOf pending) = claimed ∧
    (∀ x ∈ claimed, x.2.deadline ≤ now) ∧ claimed.length ≤ budget ∧
    (claimed.length < budget → ∀ record ∈ rest.head?, now < record.deadline)

theorem splits_nil (jobs : List GracefulUnmountJob)
    (h : 0 < budget → ∀ record ∈ records.head?, now < record.deadline) :
    ∃ claimed, jobs = jobs ++ claimed.map jobOf ∧
    Splits now budget pending records records claimed :=
  ⟨[], (append_nil jobs).symm, [], rfl, rfl, by simp, zero_le budget, h⟩

/-- Only the record of an unmount is the record of its claim. -/
theorem entryOf_claimed (hp : pending.lookup key = some p)
    (hne : record ≠ ⟨p.deadline, p.revision, key⟩) :
    entryOf (pending.insert key { p with claimed := true }) record = entryOf pending record := by
  obtain ⟨deadline, revision, key'⟩ := record
  by_cases hkey : key' = key
  · subst hkey
    have hoth : ¬(p.revision = revision ∧ p.deadline = deadline) := by
      rintro ⟨rfl, rfl⟩
      exact hne rfl
    rw [entryOf, entryOf, AList.lookup_insert, hp]
    exact (if_neg hoth).trans (if_neg hoth).symm
  · rw [entryOf, AList.lookup_insert_ne hkey, entryOf]

theorem claimRecords_split (hnd : records.Nodup)
    (hfree : ∀ record ∈ records, ∀ x, entryOf pending record = some x → x.2.claimed = false)
    (hjobs : jobs.length + left = budget) :
    ∃ claimed, (claimRecords now budget records pending jobs).1 = jobs ++ claimed.map jobOf ∧
      Splits now left pending records (claimRecords now budget records pending jobs).2.1 claimed := by
  induction records generalizing pending jobs left with
  | nil => exact splits_nil jobs (by simp)
  | cons record rest ih =>
    obtain ⟨hnew, hrest⟩ := nodup_cons.mp hnd
    have hfree' := fun r hr => hfree r (mem_cons_of_mem record hr)
    rw [claimRecords]
    split
    next hfull => exact splits_nil jobs fun hleft => absurd hfull (by omega)
    next hroom =>
    rw [isCurrent_iff]
    cases hx : entryOf pending record with
    | none =>
      obtain ⟨claimed, hclm, dropped, hspl, hdrp, hdue⟩ := ih hrest hfree' hjobs
      exact ⟨claimed, hclm, record :: dropped, congrArg (record :: ·) hspl,
        (filterMap_cons_none hx).trans hdrp, hdue⟩
    | some x =>
      obtain ⟨key, p⟩ := x
      obtain ⟨hp, rfl⟩ := entryOf_eq_some.mp hx
      simp only [isSome_some, Bool.not_true, Bool.false_eq_true, if_false, hp]
      rw [hfree _ mem_cons_self _ hx]
      split
      next hltr => exact splits_nil jobs fun _ => by simpa using hltr
      next hnow =>
      -- the other records are of other unmounts, which stay as they are
      have hsame : ∀ r ∈ rest, entryOf (pending.insert key { p with claimed := true }) r = entryOf pending r :=
        fun r hr => entryOf_claimed hp fun heq => hnew (heq ▸ hr)
      have hlth : (jobs ++ [jobOf (key, p)]).length + (left - 1) = budget := by
        rw [length_append, length_singleton]
        omega
      obtain ⟨claimed, hclm, dropped, hspl, rfl, hdue, hleft, hstop⟩ :=
        ih hrest (fun r hr x hx => hfree' r hr x (by rwa [← hsame r hr])) hlth
      refine ⟨(key, p) :: _, hclm.trans (append_assoc _ _ _), ⟨p.deadline, p.revision, key⟩ :: dropped,
        congrArg (_ :: ·) hspl, ?_, forall_mem_cons.mpr ⟨Nat.le_of_not_lt hnow, hdue⟩, ?_, ?_⟩
      · rw [filterMap_cons_some hx, filterMap_congr fun r hr => hsame r (hspl ▸ mem_append_left _ hr)]
      · rw [length_cons]
        omega
      · exact fun h => hstop (lt_sub_of_add_lt h)

namespace Tracked

theorem mem_entries (h : Tracked n q) :
    (key, p) ∈ q.deadlines.filterMap (entryOf q.pending) ↔ q.pending.lookup key = some p ∧
      p.claimed = false := by
  simp only [mem_filterMap, entryOf_eq_some]
  constructor
  · rintro ⟨_, hmem, hp, rfl⟩
    exact ⟨hp, (h.listed key p hp).mp hmem⟩
  · rintro ⟨hp, hclm⟩
    exact ⟨_, (h.listed key p hp).mpr hclm, hp, rfl⟩

theorem free (h : Tracked n q) :
    ∀ record ∈ q.deadlines, ∀ x, entryOf q.pending record = some x → x.2.claimed = false :=
  fun record hmem _ hx => (h.mem_entries.mp (mem_filterMap.mpr ⟨record, hmem, hx⟩)).2

theorem split (h : Tracked n q) (now : ClientTick) (budget : ℕ) :
    ∃ claimed, (q.claimDue now budget).1 = claimed.map jobOf ∧
      Splits now budget q.pending q.deadlines (q.claimDue now budget).2.deadlines claimed :=
  claimRecords_split h.nodup h.free (zero_add budget : [].length + budget = budget)

theorem claimDue (h : Tracked n q) (now : ClientTick) (budget : ℕ) :
    Tracked n (q.claimDue now budget).2 := by
  obtain ⟨_, hjobs, dropped, hspl, rfl, -⟩ := h.split now budget
  have hclms := claims_claimDue (q := q) now budget
  have hsub : (q.claimDue now budget).2.deadlines.Sublist q.deadlines :=
    hspl ▸ sublist_append_right _ _
  refine ⟨h.sorted.claimDue now budget, h.nodup.sublist hsub, h.revision,
    fun record hmem => h.recorded record (hsub.subset hmem), fun key p' hp' =>
    ?_, fun key p' hp' => ?_⟩
  all_goals
    have hlook := hp'
    rw [hclms.lookup, map_eq_some_iff] at hlook
    obtain ⟨p, hp, rfl⟩ := hlook
  · exact h.numbered key p hp
  constructor
  · intro hlst
    have hclm : p.claimed = false := (h.listed key p hp).mp (hsub.subset hlst)
    refine Bool.or_eq_false_iff.mpr ⟨hclm, decide_eq_false fun hjob => ?_⟩
    -- the record of a job is one of those that were dropped
    rw [hjobs] at hjob
    obtain ⟨⟨_, p'⟩, hmem, heq⟩ := mem_map.mp hjob
    obtain ⟨record, hdrp, hent⟩ := mem_filterMap.mp hmem
    obtain ⟨hp₂, rfl⟩ := entryOf_eq_some.mp hent
    cases congrArg GracefulUnmountJob.key heq
    cases hp.symm.trans hp₂
    exact disjoint_of_nodup_append (hspl ▸ h.nodup) hdrp hlst
  · intro hclm
    have hbef := hclms.unclaimed hp' hclm
    exact hclms.listed key _ hp' hclm ((h.listed key _ hbef).mpr hclm)

theorem perform_cases (q : GracefulUnmountQueue) (call : Call) :
    (∃ key incarnation deadline, call.perform q = q.insert key incarnation deadline) ∨
      ∀ n, Tracked n q → Tracked n (call.perform q) := by
  cases call with
  | schedule key incarnation deadline =>
    rcases schedule_cases (q := q) key incarnation deadline with ⟨heq, -⟩ | ⟨heq, -⟩
    · exact .inl ⟨key, incarnation, deadline, heq⟩
    · refine .inr fun n h => ?_
      rwa [Call.perform, heq]
  | cancel key =>
    refine .inr fun n h => h.shrink (List.Sublist.refl _) rfl (fun key' p hp => ?_) fun _ _ _ _ hlst => hlst
    rw [Call.perform, lookup_cancel] at hp
    exact (ite_none_left_eq_some.mp hp).2
  | cancelSession session =>
    refine .inr fun n h => h.shrink (List.Sublist.refl _) rfl (fun key' p hp => ?_) fun _ _ _ _ hlst => hlst
    rw [Call.perform, lookup_cancelSession] at hp
    exact (ite_none_left_eq_some.mp hp).2
  | nextDeadline =>
    exact .inr fun n h => h.shrink (dropWhile_sublist _) rfl (fun _ _ hp => hp) fun _ _ hp _ hlst =>
      hlst.pruneStaleDeadlines hp
  | claimDue now budget => exact .inr fun n h => h.claimDue now budget
  | finish job =>
    refine .inr fun n h => h.shrink ?_ ?_ (fun key' p hp => ?_) ?_
    · rw [Call.perform, deadlines_finish]
    · rw [Call.perform, finish]
      split <;> rfl
    · rw [Call.perform, lookup_finish] at hp
      exact (ite_none_left_eq_some.mp hp).2
    · intro _ _ _ _ hlst
      rwa [Call.perform, Listed, deadlines_finish]
  | retry job deadline =>
    rw [Call.perform, retry]
    split
    · exact .inr fun _ h => h
    · exact .inl ⟨_, _, _, rfl⟩

end Tracked

theorem Run.tracked (h : Run n q) (hn : n < 2 ^ 64) : Tracked n q := by
  induction h with
  | new => exact ⟨.nil, .nil, rfl, by simp [default], by simp [default], by simp [default]⟩
  | keep _ call hsame ih =>
    have htrkd := ih hn
    rcases Tracked.perform_cases _ call with ⟨key, incarnation, deadline, heq⟩ | hkp
    · have hfree : max (Word.wrapAdd 64 _ 1) 1 = _ := heq ▸ hsame
      rw [htrkd.revision, Word.wrapAdd] at hfree
      omega
    · exact hkp _ htrkd
  | insert _ call hnew ih =>
    have htrkd := ih (lt_of_succ_lt hn)
    rcases Tracked.perform_cases _ call with ⟨key, incarnation, deadline, heq⟩ | hkp
    · rw [heq]
      exact htrkd.insert hn key incarnation deadline
    · exact absurd ((hkp _ htrkd).revision.trans htrkd.revision.symm) hnew

/-- What is pending and unclaimed. -/
def Unclaimed (q : GracefulUnmountQueue) (key : GracefulUnmountKey)
    (p : PendingGracefulUnmount) : Prop :=
  q.pending.lookup key = some p ∧ p.claimed = false

/-- The unmounts that are due, in the order of their deadlines. -/
structure Due (q : GracefulUnmountQueue) (now : ClientTick)
    (due : List (GracefulUnmountKey × PendingGracefulUnmount)) :
    Prop where
  mem : ∀ key p, (key, p) ∈ due ↔ q.Unclaimed key p ∧ p.deadline ≤ now
  nodup : due.Nodup
  sorted : due.Pairwise fun x y => x.2.deadline ≤ y.2.deadline

/-- The queue after `n` insertions. -/
structure Orderly (n : ℕ) (q : GracefulUnmountQueue) : Prop where
  recorded : ∀ key p, q.pending.lookup key = some p →
    q.deadlines.count ⟨p.deadline, p.revision, key⟩ = if p.claimed then 0 else 1
  next : ∀ t, q.nextDeadline.1 = some t ↔
    IsLeast { d | ∃ key p, q.Unclaimed key p ∧ p.deadline = d } t
  due : ∀ now, ∃ due, q.Due now due ∧
    ∀ budget, (q.claimDue now budget).1 = (due.take budget).map jobOf ∧
    ∀ key, (q.claimDue now budget).2.pending.lookup key = (q.pending.lookup key).map fun p =>
      { p with claimed := p.claimed || decide ((key, p) ∈ due.take budget) }
  rescheduled : ∀ key p deadline, q.Unclaimed key p →
    ∃ p', (q.schedule key p.incarnation deadline).Unclaimed key p' ∧ p'.deadline ≤ p.deadline
  numbered : q.nextRevision = n ∧ ∀ key p, q.pending.lookup key = some p → p.revision ≤ n
  outdated : ∀ job p, q.pending.lookup job.key = some p → p.revision ≠ job.revision →
    q.finish job = q ∧ ∀ deadline, q.retry job deadline = (false, q)

theorem Tracked.next (h : Tracked n q) (t : ClientTick) :
    q.nextDeadline.1 = some t ↔ IsLeast { d | ∃ key p, q.Unclaimed key p ∧ p.deadline = d } t := by
  have hfind : q.nextDeadline.1 = (q.deadlines.find? (isCurrent q.pending)).map (·.deadline) := by
    rw [find?_eq_head?_dropWhile_not]
    rfl
  have hleast : ∀ record, q.deadlines.find? (isCurrent q.pending) = some record →
      IsLeast { d | ∃ key p, q.Unclaimed key p ∧ p.deadline = d } record.deadline := by
    intro record hrcd
    obtain ⟨hcurr, _, _, hspl, hbef⟩ := find?_eq_some_iff_append.mp hrcd
    rw [isCurrent_iff, isSome_iff_exists] at hcurr
    obtain ⟨⟨key, p⟩, hent⟩ := hcurr
    constructor
    · have hmem : record ∈ q.deadlines := mem_of_find?_eq_some hrcd
      obtain ⟨-, rfl⟩ := entryOf_eq_some.mp hent
      exact ⟨key, p, h.mem_entries.mp (mem_filterMap.mpr ⟨_, hmem, hent⟩), rfl⟩
    rintro _ ⟨key', p', ⟨hp', hclm⟩, rfl⟩
    have hmem := (h.listed key' p' hp').mpr hclm
    have hsrt := h.sorted
    rw [Listed, hspl] at hmem
    rw [Sorted, hspl] at hsrt
    rcases mem_append.mp hmem with hmem | hmem
    · have hstl := hbef _ hmem
      rw [isCurrent_of_lookup hp'] at hstl
      cases hstl
    · rcases mem_cons.mp hmem with heq | hmem
      · rw [← heq]
      · exact deadline_le_of_order ((pairwise_cons.mp (pairwise_append.mp hsrt).2.1).1 _ hmem)
  rw [hfind, map_eq_some_iff]
  constructor
  · rintro ⟨record, hrcd, rfl⟩
    exact hleast record hrcd
  · intro ht
    obtain ⟨key, p, ⟨hp, hclm⟩, -⟩ := ht.1
    cases hrcd : q.deadlines.find? (isCurrent q.pending) with
    | none =>
      have hstl := find?_eq_none.mp hrcd _ ((h.listed key p hp).mpr hclm)
      exact absurd (isCurrent_of_lookup hp) hstl
    | some record => exact ⟨record, rfl, (hleast record hrcd).unique ht⟩

theorem Tracked.due (h : Tracked n q) (now : ClientTick) :
    ∃ due, q.Due now due ∧ ∀ budget, (q.claimDue now budget).1 = (due.take budget).map jobOf := by
  have hsrt : (q.deadlines.filterMap (entryOf q.pending)).Pairwise fun x y =>
      x.2.deadline ≤ y.2.deadline := by
    refine List.Pairwise.filterMap _ (fun a b hab x hx y hy => ?_) h.sorted
    obtain ⟨-, rfl⟩ := entryOf_eq_some.mp hx
    obtain ⟨-, rfl⟩ := entryOf_eq_some.mp hy
    exact deadline_le_of_order hab
  refine ⟨(q.deadlines.filterMap (entryOf q.pending)).filter (·.2.deadline ≤ now),
    ⟨fun key p => ?_, ?_, hsrt.filter _⟩, fun budget => ?_⟩
  · rw [mem_filter, h.mem_entries, decide_eq_true_iff, Unclaimed]
  · refine (h.nodup.filterMap fun a b x ha hb => ?_).filter _
    rw [(entryOf_eq_some.mp ha).2, (entryOf_eq_some.mp hb).2]
  obtain ⟨claimed, hjobs, _, hspl, hdrp, hdue, hbud, hstop⟩ := h.split now budget
  have hclm : claimed.filter (·.2.deadline ≤ now) = claimed :=
    filter_eq_self.mpr fun x hx => decide_eq_true (hdue x hx)
  rw [← hspl, filterMap_append, filter_append, hdrp, hclm, hjobs]
  rcases hbud.eq_or_lt with hfull | hroom
  · rw [take_left' hfull]
  have hltr : ∀ record ∈ (q.claimDue now budget).2.deadlines, now < record.deadline := by
    have hrest : (q.claimDue now budget).2.Sorted := h.sorted.claimDue now budget
    rw [Sorted] at hrest
    generalize (q.claimDue now budget).2.deadlines = rest at hrest hstop
    cases rest with
    | nil => nofun
    | cons record rest =>
      have hfirst : now < record.deadline := hstop hroom record rfl
      refine forall_mem_cons.mpr ⟨hfirst, fun r hr => hfirst.trans_le ?_⟩
      exact deadline_le_of_order ((pairwise_cons.mp hrest).1 r hr)
  rw [filter_eq_nil_iff.mpr, append_nil, take_of_length_le hroom.le]
  rintro ⟨key, p⟩ hx hdue'
  obtain ⟨record, hmem, hent⟩ := mem_filterMap.mp hx
  obtain ⟨-, rfl⟩ := entryOf_eq_some.mp hent
  exact absurd (hltr _ hmem) (Nat.not_lt_of_le (of_decide_eq_true hdue'))

theorem Tracked.orderly (h : Tracked n q) : Orderly n q where
  recorded key p hp := by
    have hlst := h.listed key p hp
    cases hclm : p.claimed with
    | false => exact count_eq_one_of_mem h.nodup (hlst.mpr hclm)
    | true =>
      refine count_eq_zero_of_not_mem fun hmem => ?_
      cases hclm.symm.trans (hlst.mp hmem)
  next := h.next
  due now := by
    obtain ⟨due, hdue, hjobs⟩ := h.due now
    refine ⟨due, hdue, fun budget => ⟨hjobs budget, fun key => ?_⟩⟩
    rw [(claims_claimDue now budget).lookup, hjobs]
    refine map_congr fun p hp => ?_
    have hiff : ⟨key, p.incarnation, p.revision⟩ ∈ (due.take budget).map jobOf ↔
        (key, p) ∈ due.take budget := by
      refine ⟨fun hjob => ?_, mem_map_of_mem⟩
      obtain ⟨⟨_, p'⟩, hx, heq⟩ := mem_map.mp hjob
      cases congrArg GracefulUnmountJob.key heq
      cases hp.symm.trans ((hdue.mem key p').mp (mem_of_mem_take hx)).1.1
      exact hx
    rw [decide_eq_decide.mpr hiff]
  rescheduled key p deadline hp := by
    rw [schedule, hp.1]
    dsimp only
    split
    · exact ⟨p, hp, le_rfl⟩
    next hearlier =>
    refine ⟨⟨deadline, p.incarnation, q.nextFree, false⟩, ⟨?_, rfl⟩, ?_⟩
    · rw [lookup_insert, if_pos rfl]
    · exact Nat.le_of_not_le fun hle => hearlier ⟨rfl, .inr hle⟩
  numbered := ⟨h.revision, h.numbered⟩
  outdated job p hp hne := by
    constructor
    · rw [finish, hp, if_neg (by simpa using hne)]
    · intro deadline
      rw [retry, hp, if_pos (by simpa using hne)]

/-- In every run of the queue with fewer than 2⁶⁴ insertions. -/
theorem queue_orderly (h : Run n q) (hn : n < 2 ^ 64) : Orderly n q := (h.tracked hn).orderly

/-- An unmount that is moved to an earlier deadline, claimed and put off. -/
theorem queue_orderly_retried : ∃ q, Orderly 3 q ∧ q.deadlines.map (·.deadline) = [5, 9] := by
  let key : GracefulUnmountKey := ⟨⟨⟨0, 1⟩, 1, Nat.one_pos⟩, ⟨0, 2⟩⟩
  have hrun := (((Run.new.insert (.schedule key ⟨0, 0⟩ 5) (by decide)).insert
    (.schedule key ⟨0, 0⟩ 3) (by decide)).keep (.claimDue 4 1) (by decide)).insert
    (.retry ⟨key, ⟨0, 0⟩, 2⟩ 9) (by decide)
  exact ⟨_, queue_orderly hrun (by decide), by decide⟩

end Cakemaster.Client.GracefulUnmountQueue
