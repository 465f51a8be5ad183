import GlusterFS.Locks.Exclusion

/-!
# Posix-locks: whether a waiter that could have its lock is woken

`pl_setlk` and `pl_flush` change the list under the mutex, give the mutex up, and
look through the waiting requests in a critical section of its own.  These are
the phases below.

The look leaves a request alone that any granted lock overlaps, also a lock of
its own owner or a read lock that a read request could share.  A request for
which nothing else is left in the way then stays asleep.  The runs in which no
phase of a call meets such a request leave no grantable waiter behind.
-/

namespace GlusterFS.Locks

open Run List Function PlInode

/-- What a call does between taking the mutex and giving it up. -/
inductive LockPhase where
  | request (dom : LkDomain) (req : LockRequest) (canBlock : Bool)
  | release (transport : Transport) (pid : Int)
  | grant (dom : LkDomain)

def phaseStep (inode : PlInode) : LockPhase → Option PlInode
  | .request dom req canBlock =>
    (requestPhase (inode.domainHead dom) req.toLock canBlock).map (inode.setDomain dom)
  | .release transport pid =>
    some ⟨deleteLocksOfOwner transport pid inode.extList,
      deleteLocksOfOwner transport pid inode.intList⟩
  | .grant dom => (grantBlockedLocks (inode.domainHead dom)).map (fun r => inode.setDomain dom r.1)

def LockCall.phases : LockCall → List LockPhase
  | .setlk dom req canBlock => [.request dom req canBlock, .grant dom]
  | .flush transport pid => [.release transport pid, .grant .posix, .grant .internal]

variable (inode : PlInode)

@[simp] theorem PlInode.domainHead_setDomain (dom : LkDomain) (ls : List PosixLock) :
    (inode.setDomain dom ls).domainHead dom = ls := by
  cases dom <;> rfl

@[simp] theorem PlInode.setDomain_setDomain (dom : LkDomain) (ls ls' : List PosixLock) :
    (inode.setDomain dom ls).setDomain dom ls' = inode.setDomain dom ls' := by
  cases dom <;> rfl

variable {dom : LkDomain} {ls : List PosixLock}

theorem PlInode.domainHead_setDomain_of_ne {dom' : LkDomain} (ls : List PosixLock)
    (hne : dom' ≠ dom) : (inode.setDomain dom ls).domainHead dom' = inode.domainHead dom' := by
  cases dom <;> cases dom' <;> first | rfl | exact absurd rfl hne

theorem lockStep_eq_run_phases (call : LockCall) :
    lockStep inode call = run phaseStep inode call.phases := by
  cases call with
  | setlk dom req canBlock =>
    simp only [lockStep, plSetlk_eq_phases, LockCall.phases, run_cons, phaseStep]
    cases requestPhase (inode.domainHead dom) req.toLock canBlock with
    | none => rfl
    | some mid => simp [comp_def]
  | flush transport pid =>
    simp only [lockStep, flushList, LockCall.phases, phaseStep, run_cons, run_nil,
      domainHead, setDomain, Option.bind_some]
    cases grantBlockedLocks (deleteLocksOfOwner transport pid inode.extList) with
    | none => rfl
    | some r => simp [comp_def]

def InTheWay (l w : PosixLock) : Prop :=
  l.blocked = false ∧ l.owner ≠ w.owner ∧ locksOverlap l w = true ∧
    (l.flType = .wrlck ∨ w.flType = .wrlck)
deriving Decidable

def NoneAsleep (ls : List PosixLock) : Prop :=
  ∀ w ∈ waiting ls, ∃ l ∈ ls, InTheWay l w
deriving Decidable

/-- A waiting request that a granted lock overlaps cannot be granted. -/
def NoneMasked (ls : List PosixLock) : Prop :=
  ∀ w ∈ waiting ls, (firstOverlap ls w).isSome = true → plIsLockGrantable ls w = false
deriving Decidable

theorem exists_inTheWay {w : PosixLock} (h : plIsLockGrantable ls w = false) :
    ∃ l ∈ ls, InTheWay l w := by
  have hlkd : w.flType ≠ .unlck := by
    intro hunl
    simp [plIsLockGrantable, hunl] at h
  by_contra hnone
  have hgrant : plIsLockGrantable ls w = true := by
    rw [plIsLockGrantable_iff hlkd]
    intro l hl hgr hown hov
    rw [locksOverlap_comm] at hov
    constructor
    · intro htype
      exact hnone ⟨l, hl, hgr, hown, hov, .inl htype⟩
    · intro htype
      exact hnone ⟨l, hl, hgr, hown, hov, .inr htype⟩
  simp [h] at hgrant

theorem NoneAsleep.plInsertLock {lock : PosixLock} (h : NoneAsleep ls)
    (hlock : lock.blocked = true → ∃ l ∈ ls, InTheWay l lock) :
    NoneAsleep (plInsertLock ls lock) := by
  intro w hw
  obtain ⟨l, hl, hway⟩ : ∃ l ∈ ls, InTheWay l w := by
    unfold Locks.plInsertLock at hw
    rw [waiting_append, mem_append] at hw
    rcases hw with hw | hw
    · exact h w hw
    · obtain ⟨hmem, hblk⟩ := mem_waiting.mp hw
      rw [mem_singleton] at hmem
      rw [hmem] at hblk ⊢
      exact hlock hblk
  exact ⟨l, mem_append_left _ hl, hway⟩

theorem NoneMasked.grantBlockedLocks (h : NoneMasked ls) (hsnd : Sound ls) :
    ∃ r, grantBlockedLocks ls = some r ∧ Sound r.1 ∧ NoneAsleep r.1 := by
  obtain ⟨r, hr, hsr⟩ := hsnd.grantBlockedLocks
  obtain ⟨r', hr', hawake⟩ := hsnd.grantBlockedLocks_keeps (P := fun _ s => NoneAsleep s.1) (by
      intro l todo s s' hs _ hal
      cases hal with
      | granted _ _ => exact hs.plInsertLock (fun hblk => absurd hblk (by simp))
      | unlocked _ => exact hs
      | putBack hnot => exact hs.plInsertLock (fun _ => exists_inTheWay hnot))
    (by
      intro w hw
      obtain ⟨hmem, hblk⟩ := mem_waiting.mp hw
      obtain ⟨hls, hkept⟩ := mem_filter.mp hmem
      have hmask : (firstOverlap ls w).isSome = true := by simpa [hblk] using hkept
      obtain ⟨l, hl, hway⟩ := exists_inTheWay (h w (mem_waiting.mpr ⟨hls, hblk⟩) hmask)
      exact ⟨l, mem_filter.mpr ⟨hl, by simp [hway.1]⟩, hway⟩)
  rw [hr] at hr'
  cases hr'
  exact ⟨r, hr, hsr, hawake⟩

def PhaseWakes (inode : PlInode) : LockPhase → Prop
  | .request dom req canBlock => KeepsAway (inode.domainHead dom) req.toLock canBlock
  | .release _ _ => True
  | .grant dom => NoneMasked (inode.domainHead dom)

def CallWakes (inode : PlInode) (call : LockCall) : Prop :=
  AllSteps phaseStep PhaseWakes inode call.phases

/-- What holds between two calls. -/
structure Attended (inode : PlInode) : Prop where
  sound : inode.Sound
  awake : ∀ dom, NoneAsleep (inode.domainHead dom)

variable {inode}

theorem PlInode.Sound.grantPhase (h : inode.Sound) (hmask : NoneMasked (inode.domainHead dom)) :
    ∃ inode', phaseStep inode (.grant dom) = some inode' ∧ inode'.Sound ∧
      NoneAsleep (inode'.domainHead dom) ∧
      ∀ dom', dom' ≠ dom → inode'.domainHead dom' = inode.domainHead dom' := by
  obtain ⟨r, hr, hsnd, hawake⟩ := hmask.grantBlockedLocks (h dom)
  refine ⟨inode.setDomain dom r.1, by simp [phaseStep, hr], h.setDomain hsnd, ?_, ?_⟩
  · rw [domainHead_setDomain]
    exact hawake
  · intro dom' hne
    exact inode.domainHead_setDomain_of_ne r.1 hne

theorem Attended.step {call : LockCall} (h : Attended inode) (hwakes : CallWakes inode call) :
    ∃ inode', lockStep inode call = some inode' ∧ Attended inode' := by
  rw [lockStep_eq_run_phases]
  cases call with
  | setlk dom req canBlock =>
    obtain ⟨haway, hgrant⟩ := hwakes
    have hord : req.toLock.Ordered := req.ordered
    obtain ⟨mid, hmid, hsnd⟩ := (h.sound dom).requestPhase hord rfl haway
    have hph : phaseStep inode (.request dom req canBlock) =
        some (inode.setDomain dom mid) := by simp [phaseStep, hmid]
    have hmask := (hgrant _ hph).1
    obtain ⟨inode', hstep, hsnd', hawake, hoths⟩ :=
      (h.sound.setDomain hsnd).grantPhase hmask
    refine ⟨inode', by simp [LockCall.phases, hph, hstep], hsnd', ?_⟩
    intro dom'
    by_cases hdom : dom' = dom
    · rw [hdom]
      exact hawake
    · rw [hoths dom' hdom, inode.domainHead_setDomain_of_ne mid hdom]
      exact h.awake dom'
  | flush transport pid =>
    obtain ⟨_, hposix⟩ := hwakes
    obtain ⟨hmask, hint⟩ := hposix _ rfl
    have hrel : PlInode.Sound ⟨deleteLocksOfOwner transport pid inode.extList,
          deleteLocksOfOwner transport pid inode.intList⟩ := by
      intro dom
      cases dom with
      | posix => exact (h.sound .posix).filter _
      | internal => exact (h.sound .internal).filter _
    obtain ⟨first, hfst, hsfirst, hafirst, _⟩ := hrel.grantPhase hmask
    obtain ⟨last, hlast, hslast, halast, hoths⟩ := hsfirst.grantPhase (hint first hfst).1
    refine ⟨last, ?_, hslast, ?_⟩
    · simp only [LockCall.phases, run_cons]
      simp only [phaseStep] at hfst hlast ⊢
      simp [hfst, hlast]
    · intro dom
      cases dom with
      | posix =>
        rw [hoths .posix (by decide)]
        exact hafirst
      | internal => exact halast

theorem attended_empty : Attended empty := by
  refine ⟨?_, ?_⟩
  · intro dom
    cases dom <;>
      exact
        { ordered := by simp [empty, domainHead]
          exclusive := by simp [Exclusive, empty, domainHead]
          apart := List.Pairwise.nil }
  · intro dom
    cases dom <;> simp [NoneAsleep, empty, domainHead, waiting]

/--
After every run whose calls mask no waiting request, each request that still
waits has a lock of another owner in its way.
-/
theorem waiters_in_the_way (calls : List LockCall)
    (hcalls : AllSteps lockStep CallWakes PlInode.empty calls) :
    ∃ inode, run lockStep PlInode.empty calls = some inode ∧
      ∀ dom, NoneAsleep (inode.domainHead dom) := by
  obtain ⟨inode, hrun, hatt⟩ := exists_run lockStep
    (fun inode call h hwakes => Attended.step h hwakes) attended_empty hcalls
  exact ⟨inode, hrun, hatt.awake⟩

def PhaseIdle (inode : PlInode) : LockPhase → Prop
  | .request dom req canBlock => CallerIdle inode (.setlk dom req canBlock)
  | .release _ _ => True
  | .grant dom => NoneMasked (inode.domainHead dom)

instance (inode : PlInode) : ∀ phase, Decidable (PhaseIdle inode phase) := by
  rintro (_ | _) <;> dsimp only [PhaseIdle] <;> infer_instance

theorem PhaseIdle.wakes {phase : LockPhase} (h : PhaseIdle inode phase) :
    PhaseWakes inode phase := by
  cases phase with
  | request dom req canBlock =>
    have hidle : CallerIdle inode (.setlk dom req canBlock) := h
    exact hidle.keepsAway
  | release transport pid => trivial
  | grant dom => exact h

theorem waiters_in_the_way_handOver :
    ∃ inode, run lockStep PlInode.empty handOver = some inode ∧
      ∀ dom, NoneAsleep (inode.domainHead dom) := by
  have hidle : AllSteps lockStep (fun inode call => AllSteps phaseStep PhaseIdle inode call.phases)
      PlInode.empty handOver := by decide
  exact waiters_in_the_way handOver (AllSteps.mono lockStep
    (fun _ _ => AllSteps.mono phaseStep (fun _ _ => PhaseIdle.wakes)) hidle)

def upgradeRead : List LockCall :=
  [.setlk .posix (requestOf 1 .rdlck 0 0 (by decide)) false,
    .setlk .posix (requestOf 2 .rdlck 0 0 (by decide)) false,
    .setlk .posix (requestOf 1 .wrlck 0 0 (by decide)) true,
    .setlk .posix (requestOf 2 .unlck 0 0 (by decide)) false]

theorem asleep_after_upgradeRead :
    ∃ inode, run lockStep PlInode.empty upgradeRead = some inode ∧
      inode.extList.map (fun l => (l.clientPid, l.flType, l.blocked)) =
        [(1, .rdlck, false), (1, .wrlck, true)] ∧
      ¬ NoneAsleep (inode.domainHead .posix) := by
  exact ⟨_, rfl, by decide, by decide⟩

end GlusterFS.Locks
