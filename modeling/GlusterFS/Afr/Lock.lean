import GlusterFS.Afr.TransactionCounters

/-!
# AFR: the lock phase of a transaction

A transaction locks on `lock_server_count` children before its pre-op.
`afr_lock_rec` asks one child after another, skips those that are down, and
goes on from the callback of the lock; `afr_unlock` sends an unlock to every
child that `locked_nodes` names.

`afr_lock_cbk` takes a child whose lock failed out of `child_up`, but then sets
its flag and counts it all the same, unless the failure was `ENOSYS`.
-/

namespace GlusterFS.Afr

open FanOut List Function

/--
The lock replies in order: the children that were asked, each with the replies
to its calls in order of arrival.
-/
abbrev LockScript (n : Nat) := List (Fin n × List Reply)

inductive LockOutcome (n : Nat) (Inode : Type) where
  | proceeds (t : Transaction n Inode)
  | failed (t : Transaction n Inode)
  | unsupported (t : Transaction n Inode)

namespace Transaction

variable {n : Nat} {Inode : Type}

def afrLockServerCount (priv : AfrPrivate n) : AfrTransactionType → Nat
  | .flush | .data => priv.dataLockServerCount
  | .metadata => priv.metadataLockServerCount
  | .entry | .entryRename => priv.entryLockServerCount

def lockCallCount (t : Transaction n Inode) : Nat :=
  if t.type = .entryRename then 2 else 1

def afrLockCbk (t : Transaction n Inode) (childIndex : Fin n) (r : Reply) : Transaction n Inode :=
  let t :=
    if t.type = .entryRename then
      { t with callCount := t.callCount - 1 }
    else
      t
  match r with
  | .ok => t
  | .err opErrno =>
    { t with
      opRet := if opErrno = .ENOSYS then -1 else t.opRet
      childUp := update t.childUp childIndex false
      opErrno := some opErrno }

def lockAnswered (t : Transaction n Inode) (childIndex : Fin n) (rs : List Reply) :
    Transaction n Inode :=
  let t :=
    if t.type = .entryRename then
      { t with callCount := 2 }
    else
      t
  gather afrLockCbk t (rs.map (fun r => (childIndex, r)))

def lockCounted (t : Transaction n Inode) (childIndex : Fin n) : Transaction n Inode :=
  { t with
    lockedNodes := update t.lockedNodes childIndex true
    lockCount := t.lockCount + 1 }

/-- The recursion through the callback, over the children not yet visited. -/
def afrLockRec (priv : AfrPrivate n) :
    List (Fin n) → Transaction n Inode → LockScript n → Option (LockOutcome n Inode)
  | [], t, sc =>
    if sc = [] then
      if t.lockCount = 0 then
        some (.failed { t with opRet := -1, opErrno := some .EAGAIN })
      else
        some (.proceeds t)
    else
      none
  | i :: is, t, sc =>
    if t.childUp i = false then
      afrLockRec priv is t sc
    else if t.lockCount = afrLockServerCount priv t.type then
      if sc = [] then some (.proceeds t) else none
    else
      match sc with
      | [] => none
      | (i', rs) :: sc =>
        if i' = i ∧ rs.length = t.lockCallCount then
          let t := t.lockAnswered i rs
          if t.opRet = -1 ∧ t.opErrno = some .ENOSYS then
            if sc = [] then some (.unsupported t) else none
          else
            afrLockRec priv is (t.lockCounted i) sc
        else
          none

def afrLock (priv : AfrPrivate n) (t : Transaction n Inode) (sc : LockScript n) :
    Option (LockOutcome n Inode) :=
  afrLockRec priv (finRange n) t sc

def afrLockedNodesCount (lockedNodes : Fin n → Bool) : Nat :=
  (finRange n).countP lockedNodes

def unlockCallCount (t : Transaction n Inode) : Nat :=
  if t.type = .entryRename then
    afrLockedNodesCount t.lockedNodes * 2
  else
    afrLockedNodesCount t.lockedNodes

def unlockInodes (t : Transaction n Inode) : List Inode :=
  match t.type with
  | .data | .metadata | .flush => [t.fd.getD t.loc]
  | .entryRename => [t.newParentLoc, t.fd.getD t.parentLoc]
  | .entry => [t.fd.getD t.parentLoc]

def afrUnlock (t : Transaction n Inode) : List (Fin n × Inode) :=
  if afrLockedNodesCount t.lockedNodes = 0 then
    []
  else
    windLoop (fun i =>
        if t.lockedNodes i then
          t.unlockInodes.map (fun inode => (i, inode))
        else
          [])
      t.unlockCallCount (finRange n)

section

variable (t : Transaction n Inode) (i : Fin n) (r : Reply)

@[simp] theorem afrLockCbk_keeps : (afrLockCbk t i r).type = t.type ∧
    (afrLockCbk t i r).lockedNodes = t.lockedNodes ∧
    (afrLockCbk t i r).lockCount = t.lockCount := by
  cases r <;> simp only [afrLockCbk] <;> split_ifs <;> exact ⟨rfl, rfl, rfl⟩

@[simp] theorem lockAnswered_keeps (rs : List Reply) : (t.lockAnswered i rs).type = t.type ∧
    (t.lockAnswered i rs).lockedNodes = t.lockedNodes ∧
    (t.lockAnswered i rs).lockCount = t.lockCount := by
  have hkeeps := fun t : Transaction n Inode => gather_frame afrLockCbk
    (fun t => (t.type, t.lockedNodes, t.lockCount)) t (rs.map (fun r => (i, r))) (by simp)
  simp only [Prod.mk.injEq] at hkeeps
  unfold lockAnswered
  split_ifs <;> exact hkeeps _

end

section

def LockAsked (sc : LockScript n) (i : Fin n) : Prop :=
  i ∈ sc.map Prod.fst

/-- A child that was asked for the lock and refused no part of it. -/
def LockGranted (sc : LockScript n) (i : Fin n) : Prop :=
  LockAsked sc i ∧ ∀ rs, (i, rs) ∈ sc → ∀ r ∈ rs, r = .ok

theorem afrLockRec_proceeds {priv : AfrPrivate n} {is : List (Fin n)} {t t' : Transaction n Inode}
    {sc : LockScript n} (hser : 1 ≤ afrLockServerCount priv t.type)
    (h : afrLockRec priv is t sc = some (.proceeds t')) :
    t'.lockCount = t.lockCount + sc.length ∧
    1 ≤ t'.lockCount ∧
    ∀ i, t'.lockedNodes i = true ↔ t.lockedNodes i = true ∨ LockAsked sc i := by
  induction is generalizing t sc with
  | nil =>
    unfold afrLockRec at h
    split_ifs at h with hnil hzero
    · cases h
    · cases h
      subst hnil
      exact ⟨by simp, Nat.one_le_iff_ne_zero.mpr hzero, by simp [LockAsked]⟩
  | cons i is ih =>
    unfold afrLockRec at h
    split_ifs at h with hdown hdone hnil
    · exact ih hser h
    · cases h
      subst hnil
      exact ⟨by simp, hdone ▸ hser, by simp [LockAsked]⟩
    · cases sc with
      | nil => simp at h
      | cons head sc =>
        obtain ⟨i', rs⟩ := head
        simp only at h
        split_ifs at h with hhead hnosys hend
        · cases h
        · obtain ⟨rfl, _⟩ := hhead
          obtain ⟨hcnt, hpos, hflags⟩ := ih (by simpa [lockCounted] using hser) h
          refine ⟨?_, hpos, ?_⟩
          · rw [hcnt]
            simp [lockCounted]
            omega
          · intro j
            rw [hflags j]
            by_cases hj : j = i'
            · subst j
              simp [lockCounted, LockAsked]
            · simp [lockCounted, LockAsked, hj]

theorem unlockCallCount_eq (t : Transaction n Inode) :
    t.unlockCallCount = afrUpChildrenCount t.lockedNodes * t.unlockInodes.length := by
  unfold unlockCallCount unlockInodes afrLockedNodesCount afrUpChildrenCount
  cases t.type <;> simp

theorem afrUnlock_eq (t : Transaction n Inode) :
    t.afrUnlock = xattropFanOut t.lockedNodes t.unlockInodes := by
  have hlen := length_xattropFanOut t.lockedNodes t.unlockInodes
  unfold afrUnlock
  split_ifs with hzero
  · symm
    apply eq_nil_of_length_eq_zero
    rw [hlen, show afrUpChildrenCount t.lockedNodes = 0 from hzero, Nat.zero_mul]
  · have hflat := flatMap_upChildren t.lockedNodes
        (fun i => t.unlockInodes.map (fun inode => (i, inode)))
    unfold xattropFanOut at hlen
    rw [windLoop_eq_flatMap]
    · exact hflat
    · rw [hflat, hlen, unlockCallCount_eq]

theorem mem_afrUnlock_iff (t : Transaction n Inode) (i : Fin n) :
    (∃ inode, (i, inode) ∈ t.afrUnlock) ↔ t.lockedNodes i = true := by
  rw [afrUnlock_eq]
  constructor
  · rintro ⟨inode, hmem⟩
    obtain ⟨i', hi', hmap⟩ := mem_flatMap.mp hmem
    obtain ⟨_, _, heq⟩ := mem_map.mp hmap
    cases heq
    exact mem_upChildren.mp hi'
  · intro hi
    have hne : ∃ inode, inode ∈ t.unlockInodes := by
      unfold unlockInodes
      cases t.type <;> exact ⟨_, mem_cons_self⟩
    obtain ⟨inode, hino⟩ := hne
    refine ⟨inode, mem_flatMap.mpr ⟨i, mem_upChildren.mpr hi, ?_⟩⟩
    exact mem_map.mpr ⟨inode, hino, rfl⟩

variable [DecidableEq Inode]

/--
What the lock phase owes the rest of the transaction: the flags name the
children that granted the lock, there is one, and the unlock at the end of any
run of the transaction is sent to these and to no other.
-/
structure LockAccounting (priv : AfrPrivate n) (t : Transaction n Inode) (sc : LockScript n) :
    Prop where
  flags : ∀ i, t.lockedNodes i = true ↔ LockGranted sc i
  granted : ∃ i, LockGranted sc i
  unlock : ∀ fin script, afrTransaction priv t script = some fin →
    ∀ i, (∃ inode, (i, inode) ∈ fin.afrUnlock) ↔ LockGranted sc i

/--
**Lock accounting.**  A transaction that proceeds has its locks in order exactly
when no lock call of it failed.
-/
theorem lockAccounting_iff (priv : AfrPrivate n) (t t' : Transaction n Inode) (sc : LockScript n)
    (hserver : 1 ≤ afrLockServerCount priv t.type)
    (hflags : t.lockedNodes = fun _ => false)
    (hcount : t.lockCount = 0)
    (hlock : afrLock priv t sc = some (.proceeds t')) :
    LockAccounting priv t' sc ↔ ∀ i rs, (i, rs) ∈ sc → ∀ r ∈ rs, r = .ok := by
  obtain ⟨hlen, hpos, hask⟩ := afrLockRec_proceeds hserver hlock
  have hask' : ∀ i, t'.lockedNodes i = true ↔ LockAsked sc i := by
    intro i
    rw [hask i, hflags]
    simp
  constructor
  · intro hacc i rs hmem
    have hi : LockAsked sc i := mem_map.mpr ⟨(i, rs), hmem, rfl⟩
    have hgr := (hacc.flags i).mp ((hask' i).mpr hi)
    exact hgr.2 rs hmem
  · intro hok
    have hflag : ∀ i, t'.lockedNodes i = true ↔ LockGranted sc i := by
      intro i
      rw [hask' i]
      constructor
      · intro hi
        exact ⟨hi, fun rs hmem => hok i rs hmem⟩
      · intro hi
        exact hi.1
    refine ⟨hflag, ?_, ?_⟩
    · cases sc with
      | nil =>
        simp at hlen
        omega
      | cons head sc => exact ⟨head.1, by simp [LockAsked], fun rs hmem => hok head.1 rs hmem⟩
    · intro fin script hrun i
      rw [mem_afrUnlock_iff, afrTransaction_lockedNodes hrun]
      exact hflag i

def truncateOnTwo : Transaction 2 Unit :=
  afrLocalInit .data .other .reporting none () () () (fun _ => true) false (fun _ _ _ => 0)

theorem lockAccounting_granted :
    ∃ t', afrLock (AfrPrivate.default 2) truncateOnTwo [(0, [.ok])] = some (.proceeds t') ∧
      LockAccounting (AfrPrivate.default 2) t' [(0, [.ok])] := by
  refine ⟨_, rfl, ?_⟩
  refine (lockAccounting_iff (AfrPrivate.default 2) truncateOnTwo _ _
    (by decide) rfl rfl rfl).mpr ?_
  simp

theorem not_lockAccounting_refused :
    ∃ t', afrLock (AfrPrivate.default 2) truncateOnTwo [(0, [.err .EAGAIN])] = some (.proceeds t') ∧
      t'.lockedNodes 0 = true ∧
      (∀ i, ¬ LockGranted [((0 : Fin 2), [Reply.err .EAGAIN])] i) ∧
      t'.afrUnlock = [(0, ())] ∧
      ¬ LockAccounting (AfrPrivate.default 2) t' [(0, [.err .EAGAIN])] := by
  have hnone : ∀ i, ¬ LockGranted [((0 : Fin 2), [Reply.err .EAGAIN])] i := by
    rintro i ⟨hask, hok⟩
    have hi : i = 0 := by simpa [LockAsked] using hask
    subst hi
    have hr := hok [.err .EAGAIN] (by simp) (.err .EAGAIN) (by simp)
    cases hr
  refine ⟨_, rfl, rfl, hnone, rfl, ?_⟩
  intro hacc
  obtain ⟨i, hi⟩ := hacc.granted
  exact hnone i hi

end

end Transaction

end GlusterFS.Afr
