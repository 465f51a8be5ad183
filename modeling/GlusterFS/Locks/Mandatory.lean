import GlusterFS.Locks.PosixLk

/-!
# Posix-locks: reads and writes under mandatory locking

On an inode with mandatory locking `pl_readv` and `pl_writev` put a request that a
lock of another owner is in the way of into `rw_list`, or refuse it on a
non-blocking fd; every change of the locks is followed by `do_blocked_rw`, which
winds the requests that have become allowable.

A request that is allowable when it comes in takes the same way out of the function
as one that has been queued, and is neither wound nor answered.  So each request has
its fate exactly in the runs without such a request.
-/

namespace GlusterFS.Locks

open Run List

inductive RwFop where
  | read
  | write
deriving DecidableEq

inductive RwStub where
  | readv (frame : Frame) (size : Nat) (offset : Int)
  | writev (frame : Frame) (vector : List Nat) (offset : Int)

def RwStub.frame : RwStub → Frame
  | .readv frame _ _ => frame
  | .writev frame _ _ => frame

def RwStub.fop : RwStub → RwFop
  | .readv _ _ _ => .read
  | .writev _ _ _ => .write

structure RwReq where
  stub : RwStub
  region : PosixLock

def rwAllowable (ls : List PosixLock) (region : PosixLock) (op : RwFop) : Bool :=
  !(ls.any (fun l =>
    locksOverlap l region && !sameOwner l region && !(op == .read && l.flType != .wrlck)))

/-- The bytes of a request; its end is computed in 64 bits. -/
def rwRegion (transport : Transport) (pid : Int) (offset : Int) (length : Nat) : PosixLock where
  flType := .rdlck
  flStart := offset
  flEnd := Int.bmod (offset + length - 1) (2 ^ 64)
  blocked := false
  frame := none
  transport := transport
  clientPid := pid

def iovLength (vector : List Nat) : Nat :=
  vector.sum % 2 ^ 64

/--
The inode with its waiting requests, the requests that were wound, each with the locks
at that time, and those that were refused with `EWOULDBLOCK`.
-/
structure RwState where
  lk : LkState
  mandatory : Bool
  rwList : List RwReq
  wound : List (RwReq × List PosixLock)
  refused : List RwReq

def RwState.empty (mandatory : Bool) : RwState where
  lk := LkState.empty
  mandatory := mandatory
  rwList := []
  wound := []
  refused := []

def RwState.allowable (s : RwState) (rw : RwReq) : Bool :=
  rwAllowable s.lk.inode.extList rw.region rw.stub.fop

def RwState.wind (s : RwState) (rws : List RwReq) : List (RwReq × List PosixLock) :=
  s.wound ++ rws.map (fun rw => (rw, s.lk.inode.extList))

def rwFop (s : RwState) (nonblock : Bool) (rw : RwReq) : RwState :=
  if s.mandatory then
    if s.allowable rw then
      -- `goto unlock` and `goto unwind` with `op_ret` 0, where only -1 is unwound
      s
    else if nonblock then
      { s with refused := s.refused ++ [rw] }
    else
      { s with rwList := s.rwList ++ [rw] }
  else
    { s with wound := s.wind [rw] }

def readvReq (frame : Frame) (transport : Transport) (pid : Int) (size : Nat) (offset : Int) :
    RwReq where
  stub := .readv frame size offset
  region := rwRegion transport pid offset size

def writevReq
    (frame : Frame) (transport : Transport) (pid : Int) (vector : List Nat) (offset : Int) :
    RwReq where
  stub := .writev frame vector offset
  region := rwRegion transport pid offset (iovLength vector)

def plReadv (s : RwState) (frame : Frame) (transport : Transport) (pid : Int) (nonblock : Bool)
    (size : Nat) (offset : Int) : RwState :=
  rwFop s nonblock (readvReq frame transport pid size offset)

def plWritev (s : RwState) (frame : Frame) (transport : Transport) (pid : Int) (nonblock : Bool)
    (vector : List Nat) (offset : Int) : RwState :=
  rwFop s nonblock (writevReq frame transport pid vector offset)

def doBlockedRw (s : RwState) : RwState :=
  { s with
    rwList := s.rwList.filter (fun rw => !s.allowable rw)
    wound := s.wind (s.rwList.filter s.allowable) }

inductive MandatoryCall where
  | readv (frame : Frame) (transport : Transport) (pid : Int) (nonblock : Bool)
      (size : Nat) (offset : Int)
  | writev (frame : Frame) (transport : Transport) (pid : Int) (nonblock : Bool)
      (vector : List Nat) (offset : Int)
  | fop (call : FopCall)

/-- `pl_setlk` and `pl_flush` end with `do_blocked_rw`, a test for a lock does not. -/
def drains : FopCall → Bool
  | .lk _ _ _ .getlk _ => false
  | _ => true

def mandatoryStep (s : RwState) : MandatoryCall → Option RwState
  | .readv frame transport pid nonblock size offset =>
    some (plReadv s frame transport pid nonblock size offset)
  | .writev frame transport pid nonblock vector offset =>
    some (plWritev s frame transport pid nonblock vector offset)
  | .fop call =>
    (fopStep s.lk call).map (fun lk =>
      if drains call then doBlockedRw { s with lk := lk } else { s with lk := lk })

def AllOrdered (ls : List PosixLock) : Prop :=
  ∀ l ∈ ls, l.Ordered

variable {ls : List PosixLock} {lock : PosixLock} {calls : List MandatoryCall}
  {call : MandatoryCall} {s : RwState}

section

variable (h : AllOrdered ls)
include h

theorem AllOrdered.plInsertLock (hlock : lock.Ordered) : AllOrdered (plInsertLock ls lock) := by
  exact forall_mem_append.mpr ⟨h, by simpa using hlock⟩

theorem AllOrdered.insertAndMerge (hlock : lock.Ordered) :
    ∃ ls', insertAndMerge ls lock = some ls' ∧ AllOrdered ls' := by
  obtain ⟨ls', hls'⟩ := exists_insertAndMerge ls hlock
  refine ⟨ls', hls', ?_⟩
  refine insertAndMergeStep_keeps (P := AllOrdered) (Q := PosixLock.Ordered)
    ?_ ?_ ?_ ?_ _ h hlock hls'
  · intro ls lock h hlock _
    exact h.plInsertLock hlock
  · intro ls lock conf _ hlock _ _
    exact addLocks_ordered hlock
  · intro ls lock conf v _ hlock _ hv
    exact (pieceOf_conflict hlock hv).ordered
  · intro ls ls' hsub h l hl
    exact h l (hsub.subset hl)

theorem AllOrdered.grantBlockedLocks : ∃ r, grantBlockedLocks ls = some r ∧ AllOrdered r.1 := by
  have hfilter : ∀ p : PosixLock → Bool, AllOrdered (ls.filter p) :=
    fun p l hl => h l (mem_of_mem_filter hl)
  refine exists_run grantOne (P := fun s => AllOrdered s.1) ?_ (hfilter _)
    (AllSteps.of_forall grantOne (fun l hl _ => hfilter _ l hl) _)
  intro s l hs hl
  have hl' : l.Ordered := hl
  unfold grantOne
  simp only
  split_ifs with hgrant
  · have hgr : { l with blocked := false, frame := none }.Ordered := hl'
    obtain ⟨ls', hls', hord⟩ := hs.insertAndMerge hgr
    exact ⟨_, by rw [hls']; rfl, hord⟩
  · exact ⟨_, rfl, hs.plInsertLock hl'⟩

theorem AllOrdered.requestPhase (hlock : lock.Ordered) (canBlock : Bool) :
    ∃ mid, requestPhase ls lock canBlock = some mid ∧ AllOrdered mid := by
  unfold Locks.requestPhase
  split_ifs with hgrant hblo
  · exact h.insertAndMerge hlock
  · have hblk : { lock with blocked := true }.Ordered := hlock
    exact ⟨_, rfl, h.plInsertLock hblk⟩
  · exact ⟨ls, rfl, h⟩

theorem AllOrdered.plSetlk (hlock : lock.Ordered) (canBlock : Bool) :
    ∃ r, plSetlk ls lock canBlock = some r ∧ AllOrdered r.1 := by
  obtain ⟨mid, hmid, hord⟩ := h.requestPhase hlock canBlock
  obtain ⟨r, hr, hord'⟩ := hord.grantBlockedLocks
  exact ⟨_, by rw [plSetlk_eq_phases, hmid, Option.bind_some, hr, Option.map_some], hord'⟩

end

theorem exists_fopStep {s : LkState} (hext : AllOrdered s.inode.extList)
    (hint : AllOrdered s.inode.intList) (call : FopCall) :
    ∃ s', fopStep s call = some s' ∧ AllOrdered s'.inode.extList ∧ AllOrdered s'.inode.intList := by
  cases call with
  | lk frame transport pid cmd arg =>
    have hlock : (reqlock frame transport pid cmd arg).toLock.Ordered :=
      (reqlock frame transport pid cmd arg).ordered
    obtain ⟨r, hr, hord⟩ := hext.plSetlk hlock (cmd == .setlkw)
    cases cmd with
    | getlk => exact ⟨_, rfl, hext, hint⟩
    | _ =>
      simp only [fopStep, plLk, hr]
      exact ⟨_, rfl, hord, hint⟩
  | flush transport pid =>
    have hdel : ∀ ls, AllOrdered ls → AllOrdered (deleteLocksOfOwner transport pid ls) :=
      fun ls h l hl => h l (mem_of_mem_filter hl)
    obtain ⟨ext, hext', hord⟩ := (hdel _ hext).grantBlockedLocks
    obtain ⟨int, hint', hord'⟩ := (hdel _ hint).grantBlockedLocks
    simp only [fopStep, plFlush, hext', hint']
    exact ⟨_, rfl, hord, hord'⟩

theorem fopStep_of_not_drains {s s' : LkState} {call : FopCall} (hcall : drains call = false)
    (h : fopStep s call = some s') : s'.inode = s.inode := by
  cases call with
  | flush transport pid => cases hcall
  | lk frame transport pid cmd arg =>
    cases cmd with
    | getlk =>
      cases h
      rfl
    | _ => cases hcall

def rwFrames (rws : List RwReq) : List Frame :=
  rws.map (fun rw => rw.stub.frame)

def MandatoryCall.rwReq : MandatoryCall → List RwReq
  | .readv frame transport pid _ size offset => [readvReq frame transport pid size offset]
  | .writev frame transport pid _ vector offset => [writevReq frame transport pid vector offset]
  | .fop _ => []

def MandatoryCall.frames (call : MandatoryCall) : List Frame :=
  rwFrames call.rwReq

/--
Every request was wound once, refused or is kept; it was wound when it was allowable,
and none that is kept is.
-/
structure OneFate (calls : List MandatoryCall) (s : RwState) : Prop where
  once : ∀ frame, (rwFrames (s.wound.map Prod.fst)).count frame +
      (rwFrames s.refused).count frame + (rwFrames s.rwList).count frame =
    (calls.flatMap MandatoryCall.frames).count frame
  allowed : ∀ w ∈ s.wound, rwAllowable w.2 w.1.region w.1.stub.fop = true
  kept : ∀ rw ∈ s.rwList, s.allowable rw = false

/-- A read or write is not allowable when it comes in. -/
def NotAllowable (s : RwState) (call : MandatoryCall) : Prop :=
  ∀ rw ∈ call.rwReq, s.allowable rw = false
deriving Decidable

/-- The invariant, with the lists that keep the calls going. -/
structure Fated (calls : List MandatoryCall) (s : RwState) : Prop where
  mandatory : s.mandatory = true
  ext : AllOrdered s.lk.inode.extList
  int : AllOrdered s.lk.inode.intList
  fate : OneFate calls s

open MandatoryCall

theorem Fated.rwFop {rw : RwReq}
    (h : Fated calls s) (hreq : call.rwReq = [rw]) (hnot : NotAllowable s call) (nonblock : Bool) :
    Fated (calls ++ [call]) (rwFop s nonblock rw) := by
  have hrw : s.allowable rw = false := hnot rw (by simp [hreq])
  unfold Locks.rwFop
  rw [h.mandatory, if_pos rfl, hrw, if_neg Bool.false_ne_true]
  have hcnt : ∀ frame, ((calls ++ [call]).flatMap frames).count frame =
      (calls.flatMap frames).count frame + [rw.stub.frame].count frame := by
    intro frame
    simp [frames, rwFrames, hreq]
  split_ifs
  · refine ⟨rfl, h.ext, h.int, ?_, h.fate.allowed, h.fate.kept⟩
    intro frame
    have honce := h.fate.once frame
    rw [hcnt]
    simp only [rwFrames, map_append, count_append, map_cons, map_nil] at honce ⊢
    omega
  · refine ⟨rfl, h.ext, h.int, ?_, h.fate.allowed, ?_⟩
    · intro frame
      have honce := h.fate.once frame
      rw [hcnt]
      simp only [rwFrames, map_append, count_append, map_cons, map_nil]
        at honce ⊢
      omega
    · exact forall_mem_append.mpr ⟨h.fate.kept, forall_mem_singleton.mpr hrw⟩

theorem OneFate.doBlockedRw {lk : LkState} (h : OneFate calls s) :
    OneFate calls (doBlockedRw { s with lk := lk }) := by
  refine ⟨?_, ?_, ?_⟩
  · intro frame
    have honce := h.once frame
    generalize hs' : { s with lk := lk } = s'
    have hlist : s'.rwList = s.rwList := by rw [← hs']
    have hperm : (s'.rwList.filter s'.allowable ++
        s'.rwList.filter (fun rw => !s'.allowable rw)).Perm s.rwList := by
      rw [← hlist]
      exact filter_append_perm _ _
    have hsp := (hperm.map (fun rw => rw.stub.frame)).count_eq frame
    have hwnd : s'.wound = s.wound := by rw [← hs']
    have hrefd : s'.refused = s.refused := by rw [← hs']
    simp only [Locks.doBlockedRw, RwState.wind, rwFrames, hwnd, hrefd, map_append,
      map_map, Function.comp_def, count_append] at honce hsp ⊢
    omega
  · refine forall_mem_append.mpr ⟨h.allowed, ?_⟩
    intro w hw
    obtain ⟨rw, hrw, rfl⟩ := mem_map.mp hw
    exact (mem_filter.mp hrw).2
  · intro rw hrw
    have hkept := (mem_filter.mp hrw).2
    rwa [Bool.not_eq_true'] at hkept

theorem Fated.fop (h : Fated calls s) (call : FopCall) :
    ∃ s', mandatoryStep s (.fop call) = some s' ∧ Fated (calls ++ [.fop call]) s' := by
  obtain ⟨lk, hlk, hext, hint⟩ := exists_fopStep h.ext h.int call
  have hcalls : (calls ++ [MandatoryCall.fop call]).flatMap MandatoryCall.frames =
      calls.flatMap frames := by
    simp [frames, rwReq, rwFrames]
  have hfate : ∀ s', OneFate calls s' → OneFate (calls ++ [.fop call]) s' := by
    rintro s' ⟨honce, hallowed, hkept⟩
    rw [← hcalls] at honce
    exact ⟨honce, hallowed, hkept⟩
  simp only [mandatoryStep, hlk]
  split_ifs with hdrains
  · exact ⟨_, rfl, h.mandatory, hext, hint, hfate _ h.fate.doBlockedRw⟩
  · have hsame := fopStep_of_not_drains (by simpa using hdrains) hlk
    refine ⟨_, rfl, h.mandatory, hext, hint, hfate _ ⟨h.fate.once, h.fate.allowed, ?_⟩⟩
    intro rw hrw
    have hkept := h.fate.kept rw hrw
    unfold RwState.allowable at hkept ⊢
    rwa [hsame]

theorem Fated.step (h : Fated calls s) (hnot : NotAllowable s call) :
    ∃ s', mandatoryStep s call = some s' ∧ Fated (calls ++ [call]) s' := by
  cases call with
  | readv _ _ _ nonblock _ _ | writev _ _ _ nonblock _ _ =>
    exact ⟨_, rfl, h.rwFop rfl hnot nonblock⟩
  | fop call => exact h.fop call

theorem mandatoryStep_of_allowable
    (hman : s.mandatory = true) (hallowable : ¬ NotAllowable s call) :
    mandatoryStep s call = some s ∧ ∃ rw, call.rwReq = [rw] := by
  have hlost : ∀ nonblock rw, s.allowable rw = true → rwFop s nonblock rw = s := by
    intro nonblock rw h
    rw [rwFop, hman, if_pos rfl, if_pos h]
  cases call with
  | readv _ _ _ nonblock _ _ | writev _ _ _ nonblock _ _ =>
    simp only [NotAllowable, rwReq, forall_mem_singleton, Bool.not_eq_false] at hallowable
    exact ⟨congrArg some (hlost nonblock _ hallowable), _, rfl⟩
  | fop call => exact absurd (by simp [NotAllowable, rwReq]) hallowable

theorem not_oneFate_of_allowable {s' : RwState} (hman : s.mandatory = true) (h : OneFate calls s)
    (hallowable : ¬ NotAllowable s call) (hstep : mandatoryStep s call = some s') :
    ¬ OneFate (calls ++ [call]) s' := by
  obtain ⟨hsame, rw, hreq⟩ := mandatoryStep_of_allowable hman hallowable
  rw [hsame] at hstep
  cases hstep
  intro h'
  have honce := h.once rw.stub.frame
  have honce' := h'.once rw.stub.frame
  simp [frames, rwFrames, hreq] at honce honce'
  omega

def AlwaysOneFate (calls : List MandatoryCall) : Prop :=
  ∀ before, before <+: calls →
    ∃ s, run mandatoryStep (RwState.empty true) before = some s ∧ OneFate before s

/--
Under mandatory locking each read and write is wound once, refused or kept, all along a
run, if and only if none of them is allowable when it comes in.
-/
theorem alwaysOneFate_iff (calls : List MandatoryCall) :
    AlwaysOneFate calls ↔ AllSteps mandatoryStep NotAllowable (RwState.empty true) calls := by
  have hinit : Fated [] (RwState.empty true) := by
    refine ⟨rfl, ?_, ?_, ?_, ?_, ?_⟩ <;>
      simp [RwState.empty, LkState.empty, PlInode.empty, AllOrdered, rwFrames]
  exact always_iff_allSteps mandatoryStep hinit (fun _ _ _ => Fated.step) (fun _ _ => Fated.fate)
    (fun _ _ _ _ h => not_oneFate_of_allowable h.mandatory h.fate) calls

def readUnlocked : List MandatoryCall :=
  [.readv 1 0 1 false 10 0]

theorem not_alwaysOneFate_readUnlocked : ¬ AlwaysOneFate readUnlocked := by
  intro h
  obtain ⟨s, hs, hfate⟩ := h readUnlocked (prefix_refl _)
  cases hs
  have honce := hfate.once 1
  revert honce
  decide

end GlusterFS.Locks
