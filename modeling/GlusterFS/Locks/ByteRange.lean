import GlusterFS.Locks.ByteMerge

/-!
# Posix-locks: the lock type of every byte

POSIX gives each owner at most one type of lock on each byte, and a granted
request writes its type over its range.  `ByteMap` says this without a list of
locks, and the list of an inode represents such a map after every run of requests
that merge as a whole (`MergesAll`): left out are requests that meet more than one
lock of their owner with another type, and read requests that stop short of one.
-/

namespace GlusterFS.Locks

open Run List

/-- One lock of the caller in the range, at most, has another type, and the loop comes to it. -/
def MergesAll (ls : List PosixLock) (req : LockRequest) : Prop :=
  plIsLockGrantable ls req.toLock = true → OwnAlike (besides ls req.toLock) req.toLock
deriving Decidable

/-- A `pl_setlk` that does not block, as far as the `list` fields that it follows are set. -/
def plSetlkLinked (ls : List PosixLock) (lock : PosixLock) :
    Option (List PosixLock × SetlkReply) :=
  if plIsLockGrantable ls lock ∧
      insertAndMergeLinked (totalSpan ls + lock.span + 1) true ls lock = none then
    none
  else
    plSetlk ls lock false

def setlkStep (ls : List PosixLock) (req : LockRequest) : Option (List PosixLock) :=
  (plSetlkLinked ls req.toLock).map Prod.fst

variable {ls : List PosixLock} {req : LockRequest}

theorem grantBlockedLocks_of_granted (h : ∀ l ∈ ls, l.blocked = false) :
    grantBlockedLocks ls = some (ls, []) := by
  have hkept : ls.filter (fun l => !(l.blocked && (firstOverlap ls l).isNone)) = ls := by
    rw [filter_eq_self]
    intro l hl
    simp [h l hl]
  have htaken : ls.filter (fun l => l.blocked && (firstOverlap ls l).isNone) = [] := by
    rw [filter_eq_nil_iff]
    intro l hl
    simp [h l hl]
  unfold grantBlockedLocks
  simp only [hkept, htaken, run_nil]

theorem Settled.setlk (h : Settled ls) (hmerges : MergesAll ls req) :
    ∃ ls' reply, plSetlkLinked ls req.toLock = some (ls', reply) ∧ Settled ls' ∧
      if plIsLockGrantable ls req.toLock then
        reply.ret = 0 ∧ SetsRange ls ls' req.toLock
      else
        reply.ret = -1 ∧ ls' = ls := by
  by_cases hgrant : plIsLockGrantable ls req.toLock = true
  · have hord : req.toLock.Ordered := req.ordered
    obtain ⟨ls', hins⟩ := exists_insertAndMerge ls hord
    obtain ⟨hlinked, hset, hsets⟩ :=
      insertAndMergeLinked_sets _ h hord rfl (hmerges hgrant) hins
    refine ⟨ls', ⟨0, false, []⟩, ?_, hset, ?_⟩
    · rw [plSetlkLinked, hlinked, if_neg (fun hnone => nomatch hnone.2), plSetlk, if_pos hgrant,
        hins, Option.bind_some, grantBlockedLocks_of_granted hset.granted]
      rfl
    · rw [if_pos hgrant]
      exact ⟨rfl, hsets⟩
  · refine ⟨ls, ⟨-1, true, []⟩, ?_, h, ?_⟩
    · rw [plSetlkLinked, if_neg (fun hnone => hgrant hnone.1), plSetlk, if_neg hgrant,
        if_neg Bool.false_ne_true, grantBlockedLocks_of_granted h.granted]
      rfl
    · rw [if_neg hgrant]
      exact ⟨rfl, rfl⟩

section

def ByteMap : Type :=
  Int × Transport → Int → Option FlType

namespace ByteMap

def empty : ByteMap :=
  fun _ _ => none

/-- No other owner has a lock in the range that excludes the request. -/
def Admits (m : ByteMap) (lock : PosixLock) : Prop :=
  lock.flType ≠ .unlck → ∀ owner, owner ≠ lock.owner → ∀ b, lock.covers b →
      ∀ t, m owner b = some t → t ≠ .wrlck ∧ lock.flType ≠ .wrlck

def write (m : ByteMap) (lock : PosixLock) : ByteMap :=
  fun owner b =>
    if owner = lock.owner ∧ lock.covers b then
      if lock.flType = .unlck then none else some lock.flType
    else
      m owner b

open Classical in
/-- A request that is admitted is written, any other is refused. -/
noncomputable def request (m : ByteMap) (req : LockRequest) : ByteMap :=
  if m.Admits req.toLock then m.write req.toLock else m

end ByteMap

/-- The list gives every owner what the map says. -/
structure Represents (ls : List PosixLock) (m : ByteMap) : Prop where
  settled : Settled ls
  holds : ∀ owner b t, Holds ls owner b t ↔ m owner b = some t

variable {ls' : List PosixLock} {m : ByteMap}

theorem represents_nil : Represents [] ByteMap.empty := by
  refine ⟨settled_nil, ?_⟩
  intro owner b t
  simp [Holds, ByteMap.empty]

theorem Represents.grantable_iff (h : Represents ls m) :
    plIsLockGrantable ls req.toLock = true ↔ m.Admits req.toLock := by
  have hord : req.toLock.Ordered := req.ordered
  by_cases hunl : req.toLock.flType = .unlck
  · constructor
    · intro _ hlkd
      exact absurd hunl hlkd
    · intro _
      simp [plIsLockGrantable, hunl]
  · rw [plIsLockGrantable_iff hunl]
    constructor
    · rintro hall _ owner hne b hb t hheld
      obtain ⟨l, hl, hgr, rfl, hlb, rfl⟩ := (h.holds owner b t).mpr hheld
      exact hall l hl hgr hne (locksOverlap_of_covers hb hlb)
    · intro hadm l hl hgr hne hov
      obtain ⟨b, hb, hlb⟩ :=
        exists_covers_of_locksOverlap hord (h.settled.ordered l hl) hov
      exact hadm hunl l.owner hne b hb l.flType ((h.holds _ _ _).mp ⟨l, hl, hgr, rfl, hlb, rfl⟩)

theorem Represents.write (h : Represents ls m) (hsettled : Settled ls')
    (hsets : SetsRange ls ls' req.toLock) : Represents ls' (m.write req.toLock) := by
  refine ⟨hsettled, ?_⟩
  intro owner b t
  rw [hsets owner b t]
  unfold ByteMap.write
  split_ifs with hhere hunl
  · simp [hunl]
  · rw [Option.some.injEq]
    constructor
    · intro hset
      exact hset.1.symm
    · rintro rfl
      exact ⟨rfl, hunl⟩
  · exact h.holds owner b t

theorem Represents.setlk (h : Represents ls m) (hmerges : MergesAll ls req) :
    ∃ ls', setlkStep ls req = some ls' ∧ Represents ls' (m.request req) := by
  obtain ⟨ls', reply, hsetlk, hset, heff⟩ := h.settled.setlk hmerges
  refine ⟨ls', by simp [setlkStep, hsetlk], ?_⟩
  unfold ByteMap.request
  by_cases hgrant : plIsLockGrantable ls req.toLock = true
  · rw [if_pos hgrant] at heff
    rw [if_pos (h.grantable_iff.mp hgrant)]
    exact h.write hset heff.2
  · rw [if_neg hgrant] at heff
    rw [if_neg (fun hadm => hgrant (h.grantable_iff.mpr hadm)), heff.2]
    exact h

theorem run_represents (reqs : List LockRequest) (hreqs : AllSteps setlkStep MergesAll ls reqs)
    (h : Represents ls m) :
    ∃ ls', run setlkStep ls reqs = some ls' ∧ Represents ls' (reqs.foldl ByteMap.request m) := by
  induction reqs generalizing ls m with
  | nil => exact ⟨ls, rfl, h⟩
  | cons req reqs ih =>
    obtain ⟨mid, hmid, hnext⟩ := h.setlk hreqs.1
    obtain ⟨ls', hrun, hrep⟩ := ih (hreqs.2 mid hmid) hnext
    refine ⟨ls', ?_, hrep⟩
    rw [run_cons, hmid]
    exact hrun

end

/--
After requests that merge as a whole, a further one that is granted changes the
type that its owner holds on its range to its own, and no other.
-/
theorem granted_sets_range (reqs : List LockRequest) (req : LockRequest)
    (h : AllSteps setlkStep MergesAll [] (reqs ++ [req])) :
    ∃ ls ls' reply, run setlkStep [] reqs = some ls ∧
      plSetlkLinked ls req.toLock = some (ls', reply) ∧
      (∀ owner b t t', Holds ls owner b t → Holds ls owner b t' → t = t') ∧
      (reply.ret = 0 → SetsRange ls ls' req.toLock) := by
  obtain ⟨hreqs, hlast⟩ := (allSteps_concat_iff setlkStep).mp h
  obtain ⟨ls, hrun, hrep⟩ := run_represents reqs hreqs represents_nil
  obtain ⟨ls', reply, hsetlk, _, heff⟩ := hrep.settled.setlk (hlast ls hrun)
  refine ⟨ls, ls', reply, hrun, hsetlk, fun _ _ _ _ => hrep.settled.holds_unique, ?_⟩
  intro hret
  split_ifs at heff
  · exact heff.2
  · simp [heff.1] at hret

def lockAndRead : List LockRequest :=
  [requestOf 2 .rdlck 12 20 (by decide), requestOf 1 .wrlck 0 9 (by decide)]

def unlockMiddle : LockRequest :=
  requestOf 1 .unlck 3 5 (by decide)

theorem granted_sets_range_middle :
    ∃ ls ls' reply, run setlkStep [] lockAndRead = some ls ∧
      plSetlkLinked ls unlockMiddle.toLock = some (ls', reply) ∧
      (∀ owner b t t', Holds ls owner b t → Holds ls owner b t' → t = t') ∧
      (reply.ret = 0 → SetsRange ls ls' unlockMiddle.toLock) := by
  exact granted_sets_range lockAndRead unlockMiddle (by decide)

def lockTwo : List LockRequest :=
  [requestOf 1 .wrlck 0 1 (by decide), requestOf 1 .wrlck 5 6 (by decide)]

def unlockBoth : LockRequest :=
  requestOf 1 .unlck 0 8 (by decide)

def readTwo : List LockRequest :=
  [requestOf 1 .rdlck 0 5 (by decide), requestOf 1 .rdlck 10 15 (by decide)]

/-- One of two locks is left by an unlock, and a write lock over two read locks is a fault. -/
theorem not_setsRange_unlockBoth :
    (∃ ls ls' reply, run setlkStep [] lockTwo = some ls ∧
      plSetlkLinked ls unlockBoth.toLock = some (ls', reply) ∧
      reply.ret = 0 ∧ ¬ SetsRange ls ls' unlockBoth.toLock) ∧
    ∃ ls, run setlkStep [] readTwo = some ls ∧
      plSetlkLinked ls (requestOf 1 .wrlck 0 20 (by decide)).toLock = none := by
  refine ⟨⟨_, _, _, rfl, rfl, rfl, ?_⟩, _, rfl, rfl⟩
  intro hsets
  have hheld := (hsets (1, 0) 5 .wrlck).mp
    ⟨_, mem_singleton.mpr rfl, by decide, by decide, by decide, by decide⟩
  exact absurd hheld.1 (by decide)

end GlusterFS.Locks
