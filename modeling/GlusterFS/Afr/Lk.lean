import GlusterFS.Afr.Basic
import GlusterFS.Locks.ByteRange

/-!
# AFR: record locks

`afr_lk` asks all children for the lock, one after the other; a child that is down is passed by.
When a child refuses, the range is unlocked on the children that have granted it, whatever the
owner had there before.

The children keep record locks as POSIX says: each of them is a `ByteMap`.
-/

namespace GlusterFS.Afr

open Locks List Function

section

variable {n : Nat}

/-- The children that answer, those that still answer the roll-back, and the request. -/
structure LkCall (n : Nat) where
  up : Fin n → Bool
  stays : Fin n → Bool
  req : LockRequest

/-- The locks of the children, and what `afr_lk` keeps in its local. -/
structure LkState (n : Nat) where
  locks : Fin n → ByteMap
  lockedNodes : Fin n → Bool
  opRet : Int
  opErrno : Option Errno

def LkState.start (locks : Fin n → ByteMap) : LkState n where
  locks := locks
  lockedNodes := fun _ => false
  opRet := -1
  opErrno := some .EUCLEAN

def LockRequest.unlock (req : LockRequest) : LockRequest :=
  { req with flType := .unlck }

def afrLkUnlock (call : LkCall n) (s : LkState n) : LkState n :=
  { s with
    locks := fun i =>
      if s.lockedNodes i && call.stays i then
        (s.locks i).write (LockRequest.unlock call.req).toLock
      else
        s.locks i }

def LkCall.Refuses (call : LkCall n) (locks : Fin n → ByteMap) (i : Fin n) : Prop :=
  call.up i = true ∧ ¬ (locks i).Admits call.req.toLock

/-- The callback for a child that is down or grants the lock. -/
def afrLkGoOn (call : LkCall n) (s : LkState n) (i : Fin n) : LkState n :=
  if call.up i then
    { locks := update s.locks i ((s.locks i).write call.req.toLock)
      lockedNodes := update s.lockedNodes i true
      opRet := 0
      opErrno := none }
  else
    s

open Classical in
/-- The recursion through the callback, over the children that were not asked yet. -/
noncomputable def afrLkFrom (call : LkCall n) : List (Fin n) → LkState n → LkState n
  | [], s => if s.opRet = -1 then { s with opErrno := some .ENOTCONN } else s
  | i :: is, s =>
    if call.Refuses s.locks i then
      afrLkUnlock call { s with opRet := -1, opErrno := some .EAGAIN }
    else
      afrLkFrom call is (afrLkGoOn call s i)

noncomputable def afrLk (call : LkCall n) (locks : Fin n → ByteMap) : LkState n :=
  afrLkFrom call (finRange n) (LkState.start locks)

end

variable {n : Nat} {call : LkCall n} {s : LkState n} {locks : Fin n → ByteMap}

theorem write_unlock_eq_iff {m : ByteMap} {req : LockRequest} :
    (m.write req.toLock).write (LockRequest.unlock req).toLock = m ↔
      ∀ b, req.toLock.covers b → m req.toLock.owner b = none := by
  constructor
  · intro h b hb
    have hat := congrFun (congrFun h req.toLock.owner) b
    rw [← hat, ByteMap.write]
    exact (if_pos ⟨rfl, hb⟩).trans (if_pos rfl)
  · intro h
    funext owner b
    by_cases hhere : owner = req.toLock.owner ∧ req.toLock.covers b
    · rw [hhere.1, h b hhere.2, ByteMap.write]
      exact (if_pos ⟨rfl, hhere.2⟩).trans (if_pos rfl)
    · rw [ByteMap.write, ByteMap.write, if_neg hhere]
      exact if_neg hhere

theorem afrLkFrom_passed {passed : List (Fin n)} (rest : List (Fin n)) (hnd : passed.Nodup)
    (h : ∀ i ∈ passed, ¬ call.Refuses s.locks i) :
    ∃ s', afrLkFrom call (passed ++ rest) s = afrLkFrom call rest s' ∧
      ∀ i, (i ∈ passed ∧ call.up i = true →
          s'.locks i = (s.locks i).write call.req.toLock ∧ s'.lockedNodes i = true) ∧
        (¬ (i ∈ passed ∧ call.up i = true) →
          s'.locks i = s.locks i ∧ s'.lockedNodes i = s.lockedNodes i) := by
  induction passed generalizing s with
  | nil => exact ⟨s, rfl, fun i => by simp⟩
  | cons j passed ih =>
    obtain ⟨hj, hrest⟩ := forall_mem_cons.mp h
    obtain ⟨hnot, hnd⟩ := nodup_cons.mp hnd
    have hoth : ∀ i, i ≠ j → (afrLkGoOn call s j).locks i = s.locks i ∧
        (afrLkGoOn call s j).lockedNodes i = s.lockedNodes i := by
      intro i hi
      unfold afrLkGoOn
      split_ifs
      · exact ⟨update_of_ne hi _ _, update_of_ne hi _ _⟩
      · exact ⟨rfl, rfl⟩
    obtain ⟨s', heq, hs'⟩ := ih (s := afrLkGoOn call s j) hnd (by
      intro i hi
      have hne : i ≠ j := fun heq => hnot (heq ▸ hi)
      unfold LkCall.Refuses
      rw [(hoth i hne).1]
      exact hrest i hi)
    refine ⟨s', by rw [cons_append, afrLkFrom, if_neg hj, heq], ?_⟩
    intro i
    by_cases hij : i = j
    · subst hij
      obtain ⟨hlocks, hnodes⟩ := (hs' i).2 (fun hmem => hnot hmem.1)
      rw [hlocks, hnodes]
      by_cases hup : call.up i = true <;> simp [afrLkGoOn, hup]
    · rw [← (hoth i hij).1, ← (hoth i hij).2]
      simpa [hij] using hs' i

def LkCall.Granted (call : LkCall n) (locks : Fin n → ByteMap) (i : Fin n) : Prop :=
  call.up i = true ∧ ∀ j ≤ i, ¬ call.Refuses locks j

theorem exists_first_refuses (h : ∃ i, call.Refuses locks i) :
    ∃ passed i rest, finRange n = passed ++ i :: rest ∧ call.Refuses locks i ∧
      (∀ j ∈ passed, ¬ call.Refuses locks j) ∧
      ∀ j, j ∈ passed ∧ call.up j = true ↔ call.Granted locks j := by
  classical
  obtain ⟨i, hi⟩ := Option.isSome_iff_exists.mp (find?_isSome.mpr (by simpa using h) :
      ((finRange n).find? (fun i => decide (call.Refuses locks i))).isSome = true)
  obtain ⟨hrefu, passed, rest, hsp, hpassed⟩ := find?_eq_some_iff_append.mp hi
  have hnone : ∀ j ∈ passed, ¬ call.Refuses locks j := by simpa using hpassed
  have hmem : ∀ j, j ∈ passed ∨ j ∈ i :: rest := by
    intro j
    rw [← mem_append, ← hsp]
    exact mem_finRange j
  have hsort := pairwise_lt_finRange n
  rw [hsp, pairwise_append, pairwise_cons] at hsort
  obtain ⟨_, ⟨hlat, _⟩, hbef⟩ := hsort
  refine ⟨passed, i, rest, hsp, by simpa using hrefu, hnone, ?_⟩
  intro j
  constructor
  · rintro ⟨hj, hup⟩
    refine ⟨hup, fun k hk => ?_⟩
    exact hnone k ((hmem k).resolve_right (fun hlate => absurd hk (hbef j hj k hlate).not_ge))
  · intro hgr
    refine ⟨(hmem j).resolve_right (fun hlate => ?_), hgr.1⟩
    refine hgr.2 i ?_ (by simpa using hrefu)
    rcases mem_cons.mp hlate with rfl | hlate
    · exact le_rfl
    · exact (hlat j hlate).le

theorem afrLk_of_refuses (h : ∃ i, call.Refuses locks i) :
    (afrLk call locks).opRet = -1 ∧ (afrLk call locks).opErrno = some .EAGAIN ∧ ∀ i,
        (call.Granted locks i ∧ call.stays i = true → (afrLk call locks).locks i =
          ((locks i).write call.req.toLock).write (LockRequest.unlock call.req).toLock) ∧
        (¬ call.Granted locks i → (afrLk call locks).locks i = locks i) := by
  obtain ⟨passed, i, rest, hsp, hrefu, hnone, hgr⟩ := exists_first_refuses h
  have hnd := nodup_finRange n
  rw [hsp, nodup_append] at hnd
  obtain ⟨s, heq, hs⟩ := afrLkFrom_passed (s := LkState.start locks) (i :: rest) hnd.1 hnone
  simp only [hgr] at hs
  have hi : ¬ call.Granted locks i := fun hgr => hgr.2 i le_rfl hrefu
  have hhere : call.Refuses s.locks i := by
    unfold LkCall.Refuses
    rw [((hs i).2 hi).1]
    exact hrefu
  rw [afrLk, hsp, heq, afrLkFrom, if_pos hhere]
  refine ⟨rfl, rfl, ?_⟩
  intro j
  unfold afrLkUnlock
  constructor
  · rintro ⟨hj, hstays⟩
    simp only [((hs j).1 hj).2, hstays]
    rw [((hs j).1 hj).1]
    rfl
  · intro hj
    simp only [((hs j).2 hj).2]
    exact ((hs j).2 hj).1

/--
A lock that some child refuses leaves the children that stayed up as they were, exactly if the
owner had nothing in the range on those that granted it.
-/
theorem undone_iff (call : LkCall n) (locks : Fin n → ByteMap)
    (hrefused : ∃ i, call.Refuses locks i) :
    (afrLk call locks).opRet = -1 ∧
      ((∀ i, call.up i = true → call.stays i = true → (afrLk call locks).locks i = locks i) ↔
        ∀ i, call.stays i = true → call.Granted locks i →
          ∀ b, call.req.toLock.covers b → locks i call.req.toLock.owner b = none) := by
  obtain ⟨hret, _, hlocks⟩ := afrLk_of_refuses hrefused
  refine ⟨hret, ?_⟩
  constructor
  · intro h i hstays hgr
    rw [← write_unlock_eq_iff, ← (hlocks i).1 ⟨hgr, hstays⟩]
    exact h i hgr.1 hstays
  · intro h i _ hstays
    by_cases hgr : call.Granted locks i
    · rw [(hlocks i).1 ⟨hgr, hstays⟩, write_unlock_eq_iff]
      exact h i hstays hgr
    · exact (hlocks i).2 hgr

def readByOne : LkCall 2 where
  up := fun _ => true
  stays := fun _ => true
  req := requestOf 1 .rdlck 40 47 (by decide)

def heldByTwo (mine : Option FlType) : Fin 2 → ByteMap
  | 0 => fun owner b => if owner = (1, 0) ∧ 40 ≤ b ∧ b ≤ 47 then mine else none
  | 1 => fun owner b => if owner = (2, 0) ∧ 40 ≤ b ∧ b ≤ 47 then some .wrlck else none

theorem refuses_heldByTwo (mine : Option FlType) : readByOne.Refuses (heldByTwo mine) 1 := by
  refine ⟨rfl, fun hadm => ?_⟩
  exact (hadm (by decide) (2, 0) (by decide) 40 (by decide) .wrlck rfl).1 rfl

theorem granted_heldByTwo (mine : Option FlType) : readByOne.Granted (heldByTwo mine) 0 := by
  refine ⟨rfl, fun j hj hrefu => hrefu.2 ?_⟩
  obtain rfl : j = 0 := Fin.le_zero_iff.mp hj
  intro _ owner hown b _ t ht
  simp [heldByTwo, show owner ≠ (1, 0) from hown] at ht

theorem undone_heldByTwo :
    (afrLk readByOne (heldByTwo none)).opRet = -1 ∧
      ∀ i, (afrLk readByOne (heldByTwo none)).locks i = heldByTwo none i := by
  obtain ⟨hret, hiff⟩ := undone_iff readByOne (heldByTwo none) ⟨1, refuses_heldByTwo none⟩
  refine ⟨hret, fun i => hiff.mpr ?_ i rfl rfl⟩
  intro i _ hgr b _
  match i with
  | 0 => simp [heldByTwo]
  | 1 => exact absurd (refuses_heldByTwo none) (hgr.2 1 le_rfl)

/-- Process 1 loses the write lock that it had on the first child. -/
theorem not_undone_heldByTwo :
    (afrLk readByOne (heldByTwo (some .wrlck))).opRet = -1 ∧
      heldByTwo (some .wrlck) 0 (1, 0) 41 = some .wrlck ∧
      (afrLk readByOne (heldByTwo (some .wrlck))).locks 0 (1, 0) 41 = none := by
  obtain ⟨hret, _, hlocks⟩ := afrLk_of_refuses ⟨1, refuses_heldByTwo (some .wrlck)⟩
  refine ⟨hret, by decide, ?_⟩
  rw [(hlocks 0).1 ⟨granted_heldByTwo _, rfl⟩]
  decide

end GlusterFS.Afr
