import Mathlib.Data.List.Pairwise
import GlusterFS.Locks.Merge

/-!
# Posix-locks: when two owners exclude each other

A request is granted when it is compatible with the granted locks of the other
owners.  Merging it with a request of the same owner that still waits grants
that request as well, which nobody has checked.  The lists stay sound in the
runs in which no request reaches a waiting one of its owner.
-/

namespace GlusterFS.Locks

open Run List Bool

def Compatible (l1 l2 : PosixLock) : Prop :=
  l1.blocked = false → l2.blocked = false → l1.owner ≠ l2.owner →
    locksOverlap l1 l2 = true → l1.flType ≠ .wrlck ∧ l2.flType ≠ .wrlck
deriving Decidable

def Exclusive (ls : List PosixLock) : Prop :=
  ∀ l1 ∈ ls, ∀ l2 ∈ ls, Compatible l1 l2
deriving Decidable

def Apart (l1 l2 : PosixLock) : Prop :=
  l1.owner = l2.owner → locksOverlap l1 l2 = false

structure Sound (ls : List PosixLock) : Prop where
  ordered : ∀ l ∈ ls, l.Ordered
  exclusive : Exclusive ls
  apart : (waiting ls).Pairwise Apart

theorem Compatible.symm {l1 l2 : PosixLock} (h : Compatible l1 l2) : Compatible l2 l1 := by
  intro h2 h1 hne hov
  rw [locksOverlap_comm] at hov
  exact (h h1 h2 (Ne.symm hne) hov).symm

instance : Std.Symm Apart where
  symm _ _ h howner := by
    rw [locksOverlap_comm]
    exact h howner.symm

variable {ls ls' : List PosixLock} {lock l l' x : PosixLock} {s s' : List PosixLock × List Granted}
  {P : List PosixLock → List PosixLock × List Granted → Prop} {inode : PlInode} {call : LockCall}
  {canBlock : Bool}

theorem plIsLockGrantable_iff (hunl : lock.flType ≠ .unlck) :
    plIsLockGrantable ls lock = true ↔ ∀ l ∈ ls, l.blocked = false → l.owner ≠ lock.owner →
        locksOverlap lock l = true → l.flType ≠ .wrlck ∧ lock.flType ≠ .wrlck := by
  unfold plIsLockGrantable
  rw [all_eq_true]
  refine forall₂_congr ?_
  intro l _
  have hsame : sameOwner l lock = decide (l.owner = lock.owner) := by
    rw [Bool.eq_iff_iff]
    simp
  simp only [hsame, not_eq_true', and_eq_false_imp, and_eq_true,
    or_eq_true, beq_iff_eq, bne_iff_ne, ne_eq, not_eq_false',
    decide_eq_true_eq]
  tauto

theorem Sound.filter (h : Sound ls) (p : PosixLock → Bool) : Sound (ls.filter p) := by
  refine
    { ordered := fun l hl => h.ordered l (mem_of_mem_filter hl)
      exclusive := ?_
      apart := h.apart.sublist (filter_sublist.filter _) }
  intro l1 h1 l2 h2
  exact h.exclusive l1 (mem_of_mem_filter h1) l2 (mem_of_mem_filter h2)

theorem Sound.plInsertLock (h : Sound ls) (hord : lock.Ordered)
    (hcompat : ∀ l ∈ ls, Compatible l lock)
    (hap : lock.blocked = true → ∀ l ∈ waiting ls, Apart l lock) :
    Sound (plInsertLock ls lock) := by
  unfold Locks.plInsertLock
  constructor
  · exact forall_mem_append.mpr ⟨h.ordered, forall_mem_singleton.mpr hord⟩
  · intro l1 h1 l2 h2
    rw [mem_append, mem_singleton] at h1 h2
    rcases h1 with h1 | rfl
    · rcases h2 with h2 | rfl
      · exact h.exclusive l1 h1 l2 h2
      · exact hcompat l1 h1
    · rcases h2 with h2 | rfl
      · exact (hcompat l2 h2).symm
      · intro _ _ hne
        exact absurd rfl hne
  · rw [waiting_append, pairwise_append]
    refine ⟨h.apart, ?_, ?_⟩
    · exact (pairwise_singleton Apart lock).sublist filter_sublist
    · intro l hl l' hl'
      obtain ⟨hmem, hblk⟩ := mem_waiting.mp hl'
      rw [mem_singleton] at hmem
      subst hmem
      exact hap hblk l hl

/-- The locks of the owner that a request is linked to by overlaps. -/
inductive Reached (ls : List PosixLock) (lock : PosixLock) : PosixLock → Prop
  | direct {l : PosixLock} :
      l ∈ ls → l.owner = lock.owner → locksOverlap l lock = true →
      Reached ls lock l
  | onward {l l' : PosixLock} :
      Reached ls lock l →
      l' ∈ ls → l'.owner = lock.owner → locksOverlap l' l = true →
      Reached ls lock l'

theorem Reached.mem_own (h : Reached ls lock l) : l ∈ ls ∧ l.owner = lock.owner := by
  cases h with
  | direct hmem hown _ | onward _ hmem hown _ => exact ⟨hmem, hown⟩

def reachedBytes (ls : List PosixLock) (lock : PosixLock) : Set Int :=
  { b | lock.covers b ∨ ∃ l, Reached ls lock l ∧ l.covers b }

def heldBy (ls : List PosixLock) (lock : PosixLock) (t : FlType) (b : Int) : Prop :=
  lock.flType = t ∧ lock.covers b ∨
    ∃ l ∈ ls, l.owner = lock.owner ∧ l.blocked = false ∧ l.flType = t ∧ l.covers b

theorem confinedList_reachedBytes (hord : ∀ l ∈ ls, l.Ordered)
    (hgr : ∀ l, Reached ls lock l → l.blocked = false) :
    ConfinedList (reachedBytes ls lock) (heldBy ls lock) lock.owner ls := by
  rintro l hl hown ⟨b, hb, hcov⟩
  have hrea : Reached ls lock l := by
    rcases hb with hlock | ⟨l', hl', hcov'⟩
    · exact .direct hl hown (locksOverlap_of_covers hcov hlock)
    · exact .onward hl' hl hown (locksOverlap_of_covers hcov hcov')
  exact
    { ordered := hord l hl
      granted := hgr l hrea
      inside := fun b hb => .inr ⟨l, hrea, hb⟩
      held := fun b hb => .inr ⟨l, hl, hown, hgr l hrea, rfl, hb⟩ }

theorem compatible_of_heldBy (hexcl : Exclusive ls) (hgrant : plIsLockGrantable ls lock = true)
    (hmade : Confined (reachedBytes ls lock) (heldBy ls lock) l) (hown : l.owner = lock.owner)
    (hunl : l.flType ≠ .unlck) (hl' : l' ∈ ls) (hord : l'.Ordered) : Compatible l l' := by
  intro _ hgr hne hov
  obtain ⟨b, hb, hb'⟩ := exists_covers_of_locksOverlap hmade.ordered hord hov
  rcases hmade.held b hb with ⟨htype, hlock⟩ | ⟨l₀, hl₀, hown₀, hgr₀, htype, hb₀⟩
  · rw [← htype] at hunl ⊢
    exact ((plIsLockGrantable_iff hunl).mp hgrant l' hl' hgr
      (by rw [← hown]; exact Ne.symm hne)
      (locksOverlap_of_covers hlock hb')).symm
  · rw [← htype]
    exact hexcl l₀ hl₀ l' hl' hgr₀ hgr
      (by rw [hown₀, ← hown]; exact hne) (locksOverlap_of_covers hb₀ hb')

theorem Sound.insertAndMerge (h : Sound ls) (hord : lock.Ordered)
    (hblk : lock.blocked = false) (hgrant : plIsLockGrantable ls lock = true)
    (hgr : ∀ l, Reached ls lock l → l.blocked = false)
    (hins : insertAndMerge ls lock = some ls') : Sound ls' := by
  have hlock : Confined (reachedBytes ls lock) (heldBy ls lock) lock :=
    { ordered := hord
      granted := hblk
      inside := fun b hb => .inl hb
      held := fun b hb => .inl ⟨rfl, hb⟩ }
  have hmade := insertAndMergeStep_madeFrom _ hlock h.ordered
    (confinedList_reachedBytes h.ordered hgr) hins
  refine
    { ordered := hmade.ordered h.ordered
      exclusive := ?_
      apart := h.apart.sublist (insertAndMergeStep_waiting _ hord hblk hins) }
  intro l1 h1 l2 h2
  rcases hmade l1 h1 with hold1 | ⟨howner1, hunlck1, hmade1⟩
  · rcases hmade l2 h2 with hold2 | ⟨howner2, hunlck2, hmade2⟩
    · exact h.exclusive l1 hold1 l2 hold2
    · exact (compatible_of_heldBy h.exclusive hgrant hmade2 howner2 hunlck2
        hold1 (h.ordered l1 hold1)).symm
  · rcases hmade l2 h2 with hold2 | ⟨howner2, _, _⟩
    · exact compatible_of_heldBy h.exclusive hgrant hmade1 howner1 hunlck1
        hold2 (h.ordered l2 hold2)
    · intro _ _ hne
      exact absurd (howner1.trans howner2.symm) hne

/-- Locks with the same owner and the same range. -/
structure SameRange (l1 l2 : PosixLock) : Prop where
  owner : l1.owner = l2.owner
  start : l1.flStart = l2.flStart
  last : l1.flEnd = l2.flEnd

theorem SameRange.apart (h : SameRange x l) (hap : Apart l l') : Apart x l' := by
  unfold Apart locksOverlap
  rw [h.owner, h.start, h.last]
  exact hap

theorem compatible_of_grantable (hgrant : plIsLockGrantable ls lock = true)
    (hunl : lock.flType ≠ .unlck) (hl : l ∈ ls) : Compatible l lock := by
  intro hgr _ hne hov
  rw [locksOverlap_comm] at hov
  exact (plIsLockGrantable_iff hunl).mp hgrant l hl hgr hne hov

/-- One round on a request that overlaps nothing of its owner. -/
inductive GrantsAlone (s : List PosixLock × List Granted) (l : PosixLock) :
    List PosixLock × List Granted → Prop
  | granted :
      plIsLockGrantable s.1 { l with blocked := false } = true →
      l.flType ≠ .unlck →
      GrantsAlone s l
        (plInsertLock s.1 { l with blocked := false, frame := none },
          ⟨l.frame, posixLockToFlock { l with blocked := false }⟩ :: s.2)
  | unlocked :
      l.flType = .unlck →
      GrantsAlone s l (s.1, ⟨l.frame, posixLockToFlock { l with blocked := false }⟩ :: s.2)
  | putBack :
      plIsLockGrantable s.1 { l with blocked := false } = false →
      GrantsAlone s l (plInsertLock s.1 { l with blocked := true }, s.2)

theorem exists_grantsAlone (hap : ∀ x ∈ s.1, Apart x l) :
    ∃ s', grantOne s l = some s' ∧ GrantsAlone s l s' := by
  unfold grantOne
  simp only
  split_ifs with hgrant
  · have hins : insertAndMerge s.1 { l with blocked := false, frame := none } =
          some (if l.flType = .unlck then s.1
            else plInsertLock s.1 { l with blocked := false, frame := none }) :=
      insertAndMerge_of_apart hap
    rw [hins]
    refine ⟨_, rfl, ?_⟩
    split_ifs with hunl
    · exact .unlocked hunl
    · exact .granted hgrant hunl
  · exact ⟨_, rfl, .putBack (by simpa using hgrant)⟩

theorem GrantsAlone.mem (h : GrantsAlone s l s') (hx : x ∈ s'.1) : x ∈ s.1 ∨ SameRange x l := by
  have hput : ∀ lock : PosixLock, x ∈ plInsertLock s.1 lock →
      SameRange lock l → x ∈ s.1 ∨ SameRange x l := by
    intro lock hmem hsame
    rcases mem_append.mp hmem with hmem | hmem
    · exact .inl hmem
    · rw [mem_singleton] at hmem
      rw [hmem]
      exact .inr hsame
  cases h with
  | granted _ _ => exact hput _ hx ⟨rfl, rfl, rfl⟩
  | unlocked _ => exact .inl hx
  | putBack _ => exact hput _ hx ⟨rfl, rfl, rfl⟩

theorem run_grantOne_keeps {todo : List PosixLock}
    (hstep : ∀ l todo s s', P (l :: todo) s → (∀ x ∈ s.1, Apart x l) → GrantsAlone s l s' →
      P todo s')
    (htodo : todo.Pairwise Apart) (hap : ∀ l ∈ todo, ∀ x ∈ s.1, Apart x l) (h : P todo s) :
    ∃ s', run grantOne s todo = some s' ∧ P [] s' := by
  induction todo generalizing s with
  | nil => exact ⟨s, rfl, h⟩
  | cons l todo ih =>
    rw [pairwise_cons] at htodo
    have hhead := hap l (by simp)
    obtain ⟨m, hm, hal⟩ := exists_grantsAlone hhead
    have hnext : ∀ l' ∈ todo, ∀ x ∈ m.1, Apart x l' := by
      intro l' hl' x hx
      rcases hal.mem hx with hold | hsame
      · exact hap l' (mem_cons_of_mem _ hl') x hold
      · exact hsame.apart (htodo.1 l' hl')
    obtain ⟨s', hrun, hs'⟩ := ih htodo.2 hnext (hstep l todo s m h hhead hal)
    exact ⟨s', by rw [run_cons, hm]; exact hrun, hs'⟩

def freeWaiters (ls : List PosixLock) : List PosixLock :=
  ls.filter (fun l => l.blocked && (firstOverlap ls l).isNone)

def withoutFree (ls : List PosixLock) : List PosixLock :=
  ls.filter (fun l => !(l.blocked && (firstOverlap ls l).isNone))

theorem Sound.grantBlockedLocks_keeps (h : Sound ls)
    (hstep : ∀ l todo s s', P (l :: todo) s → (∀ x ∈ s.1, Apart x l) →
      GrantsAlone s l s' → P todo s') (hinit : P (freeWaiters ls) (withoutFree ls, [])) :
    ∃ r, grantBlockedLocks ls = some r ∧ P [] r := by
  refine run_grantOne_keeps hstep ?_ ?_ hinit
  · refine h.apart.sublist (monotone_filter_right ls ?_)
    intro l hl
    rw [and_eq_true] at hl
    exact hl.1
  · intro l hl x hx
    obtain ⟨hlmem, hlfree⟩ := mem_filter.mp hl
    obtain ⟨hxmem, hxfree⟩ := mem_filter.mp hx
    have hne : x ≠ l := by
      rintro rfl
      simp [hlfree] at hxfree
    rw [and_eq_true] at hlfree
    cases hblk : x.blocked with
    | false =>
      -- a granted lock that overlapped `l` would have kept it out of the loop
      intro _
      have hnone := find?_eq_none.mp (Option.isNone_iff_eq_none.mp hlfree.2) x hxmem
      simpa [hblk] using hnone
    | true =>
      exact h.apart.forall (mem_waiting.mpr ⟨hxmem, hblk⟩) (mem_waiting.mpr ⟨hlmem, hlfree.1⟩) hne

theorem Sound.grantsAlone (h : Sound s.1) (hord : l.Ordered) (hap : ∀ x ∈ s.1, Apart x l)
    (hal : GrantsAlone s l s') : Sound s'.1 := by
  cases hal with
  | granted hgrant hunl =>
    refine h.plInsertLock hord ?_ ?_
    · intro x hx
      exact compatible_of_grantable hgrant hunl hx
    · intro hblk
      cases hblk
  | unlocked _ => exact h
  | putBack _ =>
    refine h.plInsertLock hord ?_ ?_
    · intro x _ _ hblk
      cases hblk
    · intro _ x hx
      exact hap x (mem_waiting.mp hx).1

theorem Sound.grantBlockedLocks (h : Sound ls) :
    ∃ r, grantBlockedLocks ls = some r ∧ Sound r.1 := by
  have hpass := h.grantBlockedLocks_keeps (P := fun todo s => Sound s.1 ∧ ∀ l ∈ todo, l.Ordered) (by
      rintro l todo s s' ⟨hsnd, hord⟩ hap hal
      exact ⟨hsnd.grantsAlone (hord l (by simp)) hap hal,
        fun l' hl' => hord l' (mem_cons_of_mem _ hl')⟩)
    ⟨h.filter _, fun l hl => h.ordered l (mem_of_mem_filter hl)⟩
  obtain ⟨r, hr, hsnd, _⟩ := hpass
  exact ⟨r, hr, hsnd⟩

/--
The request stays away from the waiting requests of its owner: if it can be
granted it reaches none, and if it has to wait it overlaps none.
-/
def KeepsAway (ls : List PosixLock) (lock : PosixLock) (canBlock : Bool) : Prop :=
  if plIsLockGrantable ls lock then
    ∀ l, Reached ls lock l → l.blocked = false
  else
    canBlock = true → ∀ l ∈ waiting ls, Apart l lock

def CallKeepsAway (inode : PlInode) : LockCall → Prop
  | .setlk dom req canBlock => KeepsAway (inode.domainHead dom) req.toLock canBlock
  | .flush _ _ => True

def CallerIdle (inode : PlInode) : LockCall → Prop
  | .setlk dom req _ => ∀ l ∈ waiting (inode.domainHead dom), l.owner ≠ req.toLock.owner
  | .flush _ _ => True

instance (inode : PlInode) : ∀ call, Decidable (CallerIdle inode call) := by
  rintro (_ | _) <;> dsimp only [CallerIdle] <;> infer_instance

theorem CallerIdle.keepsAway (h : CallerIdle inode call) : CallKeepsAway inode call := by
  cases call with
  | setlk dom req canBlock =>
    simp only [CallKeepsAway, KeepsAway]
    split_ifs
    · intro l hl
      obtain ⟨hmem, hown⟩ := hl.mem_own
      by_contra hblk
      rw [not_eq_false] at hblk
      exact h l (mem_waiting.mpr ⟨hmem, hblk⟩) hown
    · intro _ l hl hown
      exact absurd hown (h l hl)
  | flush transport pid => trivial

theorem Sound.requestPhase (h : Sound ls) (hord : lock.Ordered)
    (hblk : lock.blocked = false) (haway : KeepsAway ls lock canBlock) :
    ∃ mid, requestPhase ls lock canBlock = some mid ∧ Sound mid := by
  unfold KeepsAway at haway
  unfold Locks.requestPhase
  split_ifs at haway ⊢ with hgrant hblo
  · obtain ⟨mid, hins⟩ := exists_insertAndMerge ls hord
    exact ⟨mid, hins, h.insertAndMerge hord hblk hgrant haway hins⟩
  · refine ⟨_, rfl, h.plInsertLock hord ?_ ?_⟩
    · intro x _ _ hno
      cases hno
    · intro _
      exact haway hblo
  · exact ⟨ls, rfl, h⟩

theorem Sound.plSetlk (h : Sound ls) (hord : lock.Ordered) (hblk : lock.blocked = false)
    (haway : KeepsAway ls lock canBlock) : ∃ r, plSetlk ls lock canBlock = some r ∧ Sound r.1 := by
  obtain ⟨mid, hmid, hsnd⟩ := h.requestPhase hord hblk haway
  obtain ⟨r, hr, hsnd'⟩ := hsnd.grantBlockedLocks
  exact ⟨_, by rw [plSetlk_eq_phases, hmid, Option.bind_some, hr, Option.map_some], hsnd'⟩

theorem Sound.flushList (h : Sound ls) (transport : Transport) (pid : Int) :
    ∃ ls', flushList transport pid ls = some ls' ∧ Sound ls' := by
  obtain ⟨r, hr, hsnd⟩ := (h.filter
    (fun l => !(l.transport == transport && l.clientPid == pid))).grantBlockedLocks
  refine ⟨r.1, ?_, hsnd⟩
  unfold Locks.flushList deleteLocksOfOwner
  rw [hr]
  rfl

def PlInode.Sound (inode : PlInode) : Prop :=
  ∀ dom, Locks.Sound (inode.domainHead dom)

theorem PlInode.Sound.setDomain {dom : LkDomain} (h : inode.Sound) (hls : Locks.Sound ls) :
    (inode.setDomain dom ls).Sound := by
  intro dom'
  cases dom with
  | posix =>
    cases dom' with
    | posix => exact hls
    | internal => exact h .internal
  | internal =>
    cases dom' with
    | posix => exact h .posix
    | internal => exact hls

theorem PlInode.Sound.step (h : inode.Sound) (haway : CallKeepsAway inode call) :
    ∃ inode', lockStep inode call = some inode' ∧ inode'.Sound := by
  cases call with
  | setlk dom req canBlock =>
    have hord : req.toLock.Ordered := req.ordered
    obtain ⟨r, hr, hsnd⟩ := (h dom).plSetlk hord rfl haway
    exact ⟨inode.setDomain dom r.1, by simp only [lockStep, hr, Option.map_some], h.setDomain hsnd⟩
  | flush transport pid =>
    obtain ⟨extList, hext, hsext⟩ := (h .posix).flushList transport pid
    obtain ⟨intList, hint, hsint⟩ := (h .internal).flushList transport pid
    simp only [PlInode.domainHead] at hext hint
    refine ⟨⟨extList, intList⟩, by simp [lockStep, hext, hint], ?_⟩
    intro dom
    cases dom with
    | posix => exact hsext
    | internal => exact hsint

/--
Every call returns, and no two granted locks of different owners conflict, in
the runs whose requests stay away from the waiting requests of their owner.
-/
theorem locks_exclusive (calls : List LockCall)
    (hcalls : AllSteps lockStep CallKeepsAway PlInode.empty calls) :
    ∃ inode, run lockStep PlInode.empty calls = some inode ∧
      ∀ dom, Exclusive (inode.domainHead dom) := by
  have hemp : Sound [] :=
    { ordered := by simp
      exclusive := by simp [Exclusive]
      apart := List.Pairwise.nil }
  have hinit : PlInode.empty.Sound := by
    intro dom
    cases dom <;> exact hemp
  obtain ⟨inode, hrun, hsnd⟩ := exists_run lockStep
    (fun inode call h haway => PlInode.Sound.step h haway) hinit hcalls
  exact ⟨inode, hrun, fun dom => (hsnd dom).exclusive⟩

def requestOf (pid : Int) (t : FlType) (first last : Nat) (h : first ≤ last) :
    LockRequest where
  flType := t
  flStart := first
  flEnd := last
  frame := some 0
  transport := 0
  clientPid := pid
  nonneg := by omega
  ordered := by omega

def handOver : List LockCall :=
  [.setlk .posix (requestOf 1 .wrlck 0 10 (by decide)) false,
    .setlk .posix (requestOf 2 .wrlck 0 20 (by decide)) true,
    .setlk .posix (requestOf 1 .unlck 0 10 (by decide)) false]

theorem locks_exclusive_handOver :
    ∃ inode, run lockStep PlInode.empty handOver = some inode ∧
      ∀ dom, Exclusive (inode.domainHead dom) := by
  exact locks_exclusive handOver
    (AllSteps.mono lockStep (fun _ _ => CallerIdle.keepsAway) (by decide))

def askTwice : List LockCall :=
  [.setlk .posix (requestOf 1 .wrlck 0 10 (by decide)) false,
    .setlk .posix (requestOf 2 .wrlck 0 20 (by decide)) true,
    .setlk .posix (requestOf 2 .wrlck 15 30 (by decide)) false]

theorem not_exclusive_askTwice :
    ∃ inode, run lockStep PlInode.empty askTwice = some inode ∧
      inode.extList.map (fun l => (l.clientPid, l.flType, l.flStart, l.flEnd, l.blocked)) =
        [(1, .wrlck, 0, 10, false), (2, .wrlck, 0, 30, false)] ∧
      ¬ Exclusive (inode.domainHead .posix) := by
  exact ⟨_, rfl, by decide, by decide⟩

end GlusterFS.Locks
