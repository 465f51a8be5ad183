import GlusterFS.Lib.Cells
import GlusterFS.Locks.Common

/-!
# Posix-locks: the entry locks of a directory

`pl_entrylk` and `pl_fentrylk` lock a name of a directory, or all of its names.
The held locks are linked in `dir_list`; a request that has to wait hangs in the
queue of the first held lock that it conflicts with.  An unlock takes the lock out
of the list, gives up the mutex, and then tries each request of its queue again,
which locks the name or hangs the request on another lock.

A read lock on a name that has one already is counted in that lock, and then that
lock is freed although it stays linked: `freed` marks such a lock.  A walk that
reads a freed lock has no defined outcome.
-/

namespace GlusterFS.Locks

open Run List Option

inductive EntrylkType where
  | rdlck
  | wrlck
deriving DecidableEq

inductive EntrylkCmd where
  | lock
  | lockNb
  | unlock
deriving DecidableEq

/-- A request, as it hangs in the queue of a lock; no basename stands for all names. -/
structure BlockedLock where
  frame : Frame
  trans : Transport
  basename : Option String
  type : EntrylkType
deriving DecidableEq

/-- A lock of `dir_list`, with the requests that wait for it. -/
structure EntryLock where
  basename : Option String
  type : EntrylkType
  readCount : UInt32
  trans : Transport
  blockedLocks : List BlockedLock
  freed : Bool
deriving DecidableEq

def typesConflict (t1 t2 : EntrylkType) : Bool :=
  !(t1 == .rdlck && t2 == .rdlck)

def allNames (basename : Option String) : Bool :=
  basename.isNone

def namesConflict (n1 n2 : Option String) : Bool :=
  allNames n1 || allNames n2 || n1 == n2

def namesEqual (n1 n2 : Option String) : Bool :=
  n1 == n2

/-- The first lock in the way; `none` outside if the walk comes to a freed lock. -/
def lockGrantable :
    List (Nat × EntryLock) → Option String → EntrylkType → Option (Option (Nat × EntryLock))
  | [], _, _ => some none
  | c :: cs, basename, type =>
    if c.2.freed then
      none
    else if namesConflict c.2.basename basename && typesConflict c.2.type type then
      some (some c)
    else
      lockGrantable cs basename type

/-- One step of the walk: the last lock on all names, and the last one on the name. -/
def matchName (basename : Option String)
    (m : Option (Nat × EntryLock) × Option (Nat × EntryLock)) (c : Nat × EntryLock) :
    Option (Nat × EntryLock) × Option (Nat × EntryLock) :=
  if allNames c.2.basename then
    (some c, m.2)
  else if namesEqual c.2.basename basename then
    (m.1, some c)
  else
    m

def findMostMatchingLock (cells : List (Nat × EntryLock)) (basename : Option String) :
    Option (Option (Nat × EntryLock)) :=
  if cells.any (fun c => c.2.freed) then
    none
  else
    let m := cells.foldl (matchName basename) (none, none)
    some (m.2.or m.1)

def newEntrylkLock (req : BlockedLock) : EntryLock where
  basename := req.basename
  type := req.type
  readCount := if req.type = .rdlck then 1 else 0
  trans := req.trans
  blockedLocks := []
  freed := false

/-- The outcome 0 or `-EAGAIN` of `__lock_name`. -/
inductive LockNameRet where
  | zero
  | eagain
deriving DecidableEq

def lockNameRead (d : Cells EntryLock) (req : BlockedLock) : Option (Cells EntryLock) :=
  (findMostMatchingLock d.cells req.basename).map (fun found =>
    match found with
    | some c =>
      if namesEqual c.2.basename req.basename then
        -- The count goes up, and the lock that holds it is freed.
        d.modify c.1 (fun l => { l with readCount := l.readCount + 1, freed := true })
      else
        d.add (newEntrylkLock req)
    | none => d.add (newEntrylkLock req))

def lockName (d : Cells EntryLock) (req : BlockedLock) (nonblock : Bool) :
    Option (Cells EntryLock × LockNameRet) :=
  (lockGrantable d.cells req.basename req.type).bind (fun conf =>
    match conf with
    | some c =>
      if nonblock then
        some (d, .eagain)
      else
        some (d.modify c.1 (fun l => { l with blockedLocks := req :: l.blockedLocks }), .eagain)
    | none =>
      match req.type with
      | .rdlck => (lockNameRead d req).map (fun d' => (d', .zero))
      | .wrlck => some (d.add (newEntrylkLock req), .zero))

def unlockName (d : Cells EntryLock) (basename : Option String) (type : EntrylkType) :
    Option (Cells EntryLock × Option EntryLock) :=
  (findMostMatchingLock d.cells basename).map (fun found =>
    match found with
    | none => (d, none)
    | some c =>
      if namesEqual c.2.basename basename && c.2.type == type then
        let lock :=
          if type = .rdlck then { c.2 with readCount := c.2.readCount - 1 } else c.2
        if type = .wrlck ∨ lock.readCount = 0 then
          (d.del c.1, some lock)
        else
          (d.modify c.1 (fun _ => lock), none)
      else
        (d, none))

/-- The locks, the requests granted so far, and if a walk came to a freed lock. -/
structure Grants where
  dir : Cells EntryLock
  granted : List BlockedLock
  fault : Bool

def retryBlocked (g : Grants) (bl : BlockedLock) : Grants :=
  if g.fault then
    g
  else
    match lockName g.dir bl false with
    | none => { g with fault := true }
    | some (d, .zero) => { g with dir := d, granted := bl :: g.granted }
    | some (d, .eagain) => { g with dir := d }

def grantBlockedEntryLocks (g : Grants) (lock : EntryLock) : Grants :=
  lock.blockedLocks.foldl retryBlocked g

/-- The body of the loop of `release_entry_locks_for_transport`, at the lock `addr`. -/
def releaseAt (trans : Transport) (g : Grants) (addr : Nat) : Grants :=
  if g.fault then
    g
  else
    match g.dir.cells.find? (fun c => c.1 == addr) with
    | none => g
    | some c =>
      if c.2.freed then
        { g with fault := true }
      else if c.2.trans ≠ trans then
        g
      else
        grantBlockedEntryLocks { g with dir := g.dir.del addr } c.2

/-- New locks go to the head of the list, where the walk has been already. -/
def releaseEntryLocksForTransport (d : Cells EntryLock) (trans : Transport) : Grants :=
  (d.cells.map Prod.fst).foldl (releaseAt trans) ⟨d, [], false⟩

structure EntrylkCall where
  frame : Frame
  trans : Transport
  pid : Int
  basename : Option String
  cmd : EntrylkCmd
  type : EntrylkType

def EntrylkCall.request (call : EntrylkCall) : BlockedLock where
  frame := call.frame
  trans := call.trans
  basename := call.basename
  type := call.type

inductive EntrylkErrno where
  | none
  | eagain

/-- A frame with `op_ret` and `op_errno`, as it is unwound. -/
structure EntrylkUnwind where
  frame : Frame
  opRet : Int
  opErrno : EntrylkErrno

def unwindZero (frame : Frame) : EntrylkUnwind where
  frame := frame
  opRet := 0
  opErrno := .none

/--
The locks of the directory, the unlock calls that have taken their lock out and have
not tried its queue yet, and the calls that are answered.
-/
structure EntrylkState where
  dir : Cells EntryLock
  released : List (Frame × EntryLock)
  answered : List EntrylkUnwind

def EntrylkState.empty : EntrylkState where
  dir := Cells.empty
  released := []
  answered := []

/-- The parts of `pl_entrylk_common` that run under the mutex. -/
inductive EntrylkSection where
  | lockName (call : EntrylkCall)
  | unlockName (call : EntrylkCall)
  | grant (frame : Frame)
  | release (call : EntrylkCall)

def EntrylkCall.sections (call : EntrylkCall) : List EntrylkSection :=
  if call.pid = 0 then
    [.release call]
  else
    match call.cmd with
    | .lock => [.lockName call]
    | .lockNb => [.lockName call]
    | .unlock => [.unlockName call, .grant call.frame]

/-- The requests that were granted are unwound, and then the call itself. -/
def EntrylkState.unwindGrants
    (s : EntrylkState) (released : List (Frame × EntryLock)) (g : Grants) (frame : Frame) :
    Option EntrylkState :=
  if g.fault then
    none
  else
    some
      { dir := g.dir
        released := released
        answered := s.answered ++ g.granted.map (fun bl => unwindZero bl.frame) ++
          [unwindZero frame] }

def lockSection (s : EntrylkState) (call : EntrylkCall) : Option EntrylkState :=
  (lockName s.dir call.request (call.cmd == .lockNb)).map (fun r =>
    match r.2 with
    | .zero => { s with dir := r.1, answered := s.answered ++ [unwindZero call.frame] }
    | .eagain =>
      if call.cmd = .lockNb then
        { s with dir := r.1, answered := s.answered ++ [⟨call.frame, -1, .eagain⟩] }
      else
        { s with dir := r.1 })

def unlockSection (s : EntrylkState) (call : EntrylkCall) : Option EntrylkState :=
  (unlockName s.dir call.basename call.type).map (fun r =>
    match r.2 with
    | none => { s with dir := r.1, answered := s.answered ++ [unwindZero call.frame] }
    | some lock => { s with dir := r.1, released := s.released ++ [(call.frame, lock)] })

def grantSection (s : EntrylkState) (frame : Frame) : Option EntrylkState :=
  match s.released.find? (fun r => r.1 == frame) with
  | none => some s
  | some r =>
    s.unwindGrants (s.released.eraseP (fun r => r.1 == frame))
      (grantBlockedEntryLocks ⟨s.dir, [], false⟩ r.2) frame

def sectionStep (s : EntrylkState) : EntrylkSection → Option EntrylkState
  | .lockName call => lockSection s call
  | .unlockName call => unlockSection s call
  | .grant frame => grantSection s frame
  | .release call =>
    s.unwindGrants s.released (releaseEntryLocksForTransport s.dir call.trans) call.frame

def plEntrylkCommon (s : EntrylkState) (call : EntrylkCall) : Option EntrylkState :=
  run sectionStep s call.sections

variable {cs : List (Nat × EntryLock)} {basename : Option String} {type : EntrylkType}
  {c : Nat × EntryLock} {d : Cells EntryLock} {req : BlockedLock} {nonblock : Bool}
  {r : Cells EntryLock × LockNameRet}

theorem lockGrantable_eq_some (h : lockGrantable cs basename type = some (some c)) :
    c ∈ cs ∧ namesConflict c.2.basename basename = true := by
  induction cs with
  | nil => simp [lockGrantable] at h
  | cons c' cs ih =>
    rw [lockGrantable] at h
    split_ifs at h with hfreed hconf
    · simp only [some.injEq] at h
      subst h
      rw [Bool.and_eq_true] at hconf
      exact ⟨mem_cons_self, hconf.1⟩
    · exact ⟨mem_cons_of_mem c' (ih h).1, (ih h).2⟩

theorem lockGrantable_eq_none (h : lockGrantable cs basename type = some none) :
    ∀ c ∈ cs, (namesConflict c.2.basename basename && typesConflict c.2.type type) = false := by
  induction cs with
  | nil => simp
  | cons c' cs ih =>
    rw [lockGrantable] at h
    split_ifs at h with hfreed hconf
    · cases h
    · refine forall_mem_cons.mpr ⟨?_, ih h⟩
      rwa [Bool.not_eq_true] at hconf

theorem exists_lockGrantable (hlive : ∀ c ∈ cs, c.2.freed = false)
    (basename : Option String) (type : EntrylkType) :
    ∃ conf, lockGrantable cs basename type = some conf := by
  induction cs with
  | nil => exact ⟨none, rfl⟩
  | cons c cs ih =>
    obtain ⟨conf, hconf⟩ := ih (fun c' hc' => hlive c' (mem_cons_of_mem c hc'))
    rw [lockGrantable, if_neg (by simp [hlive c mem_cons_self]), hconf]
    split_ifs <;> exact ⟨_, rfl⟩

theorem mem_of_foldl_matchName {m : Option (Nat × EntryLock) × Option (Nat × EntryLock)}
    (h : (cs.foldl (matchName basename) m).1 = some c ∨
      (cs.foldl (matchName basename) m).2 = some c) : c ∈ cs ∨ m.1 = some c ∨ m.2 = some c := by
  induction cs generalizing m with
  | nil => exact .inr h
  | cons c' cs ih =>
    have hone : (matchName basename m c').1 = some c ∨ (matchName basename m c').2 = some c →
        c = c' ∨ m.1 = some c ∨ m.2 = some c := by
      unfold matchName
      split_ifs
      · rintro (h | h)
        · exact .inl (some.inj h).symm
        · exact .inr (.inr h)
      · rintro (h | h)
        · exact .inr (.inl h)
        · exact .inl (some.inj h).symm
      · exact .inr
    rcases ih h with hmem | hm
    · exact .inl (mem_cons_of_mem c' hmem)
    · rcases hone hm with rfl | hm
      · exact .inl mem_cons_self
      · exact .inr hm

theorem findMostMatchingLock_eq_some (h : findMostMatchingLock cs basename = some (some c)) :
    c ∈ cs := by
  unfold findMostMatchingLock at h
  split_ifs at h
  have hm := some.inj h
  rw [or_eq_some_iff] at hm
  have hmem : c ∈ cs ∨ none = some c ∨ none = some c :=
    mem_of_foldl_matchName (hm.elim .inr (fun h => .inl h.2))
  simpa using hmem

theorem findMostMatchingLock_live {found : Option (Nat × EntryLock)}
    (h : findMostMatchingLock cs basename = some found) : ∀ c ∈ cs, c.2.freed = false := by
  unfold findMostMatchingLock at h
  split_ifs at h with hany
  simpa using hany

theorem exists_findMostMatchingLock
    (hlive : ∀ c ∈ cs, c.2.freed = false) (basename : Option String) :
    ∃ found, findMostMatchingLock cs basename = some found := by
  unfold findMostMatchingLock
  rw [if_neg (by simpa using hlive)]
  exact ⟨_, rfl⟩

inductive LockName (d : Cells EntryLock) (req : BlockedLock) (nonblock : Bool) :
    Cells EntryLock × LockNameRet → Prop
  | added :
      (∀ c ∈ d.cells,
        (namesConflict c.2.basename req.basename && typesConflict c.2.type req.type) = false) →
      LockName d req nonblock (d.add (newEntrylkLock req), .zero)
  | counted {c : Nat × EntryLock} :
      req.type = .rdlck → c ∈ d.cells → (∀ c' ∈ d.cells, c'.2.freed = false) →
      LockName d req nonblock
        (d.modify c.1 (fun l => { l with readCount := l.readCount + 1, freed := true }), .zero)
  | hung {c : Nat × EntryLock} :
      nonblock = false → c ∈ d.cells → namesConflict c.2.basename req.basename = true →
      LockName d req nonblock
        (d.modify c.1 (fun l => { l with blockedLocks := req :: l.blockedLocks }), .eagain)
  | refused :
      nonblock = true → LockName d req nonblock (d, .eagain)

theorem lockName_spec (h : lockName d req nonblock = some r) : LockName d req nonblock r := by
  obtain ⟨conf, hconf, h⟩ := Option.bind_eq_some_iff.mp h
  cases conf with
  | some c =>
    obtain ⟨hmem, hnames⟩ := lockGrantable_eq_some hconf
    cases nonblock with
    | false =>
      cases h
      exact .hung rfl hmem hnames
    | true =>
      cases h
      exact .refused rfl
  | none =>
    have hfree := lockGrantable_eq_none hconf
    cases htype : req.type with
    | wrlck =>
      simp only [htype, Option.some.injEq] at h
      subst h
      exact .added hfree
    | rdlck =>
      simp only [htype, lockNameRead, Option.map_map] at h
      obtain ⟨found, hfnd, rfl⟩ := Option.map_eq_some_iff.mp h
      cases found with
      | none => exact .added hfree
      | some c =>
        simp only [Function.comp]
        split_ifs with hname
        · exact .counted htype (findMostMatchingLock_eq_some hfnd) (findMostMatchingLock_live hfnd)
        · exact .added hfree

theorem exists_lockName (hlive : ∀ c ∈ d.cells, c.2.freed = false) (hwr : req.type = .wrlck)
    (nonblock : Bool) : ∃ r, lockName d req nonblock = some r := by
  obtain ⟨conf, hconf⟩ := exists_lockGrantable hlive req.basename req.type
  unfold lockName
  rw [hconf, hwr]
  cases conf with
  | none => exact ⟨_, rfl⟩
  | some c =>
    cases nonblock with
    | false => exact ⟨_, rfl⟩
    | true => exact ⟨_, rfl⟩

def Unlocks (d : Cells EntryLock) (basename : Option String) (type : EntrylkType)
    (c : Nat × EntryLock) : Prop :=
  findMostMatchingLock d.cells basename = some (some c) ∧
    namesEqual c.2.basename basename = true ∧ c.2.type = type

theorem Unlocks.mem (h : Unlocks d basename type c) : c ∈ d.cells := by
  exact findMostMatchingLock_eq_some h.1

theorem Unlocks.unique {c' : Nat × EntryLock} (h : Unlocks d basename type c)
    (h' : Unlocks d basename type c') : c = c' := by
  have heq := h.1.symm.trans h'.1
  exact some.inj (some.inj heq)

inductive UnlockName (d : Cells EntryLock) (basename : Option String) (type : EntrylkType) :
    Cells EntryLock × Option EntryLock → Prop
  | unmatched :
      (∀ c, ¬ Unlocks d basename type c) →
      UnlockName d basename type (d, none)
  | counted {c : Nat × EntryLock} :
      Unlocks d basename type c → type = .rdlck →
      UnlockName d basename type
        (d.modify c.1 (fun _ => { c.2 with readCount := c.2.readCount - 1 }), none)
  | removed {c : Nat × EntryLock} {lock : EntryLock} :
      Unlocks d basename type c → lock.blockedLocks = c.2.blockedLocks →
      UnlockName d basename type (d.del c.1, some lock)

theorem unlockName_spec {r : Cells EntryLock × Option EntryLock}
    (h : unlockName d basename type = some r) : UnlockName d basename type r := by
  obtain ⟨found, hfnd, rfl⟩ := map_eq_some_iff.mp h
  cases found with
  | none =>
    refine .unmatched ?_
    rintro c ⟨hc, _⟩
    simp [hfnd] at hc
  | some c =>
    simp only
    by_cases hmatch : (namesEqual c.2.basename basename && c.2.type == type) = true
    · rw [if_pos hmatch]
      rw [Bool.and_eq_true, beq_iff_eq] at hmatch
      have hunlocks : Unlocks d basename type c := ⟨hfnd, hmatch.1, hmatch.2⟩
      cases type with
      | rdlck =>
        by_cases hlast : c.2.readCount - 1 = 0
        · simp only [hlast]
          exact .removed hunlocks rfl
        · simp only [hlast, if_true]
          exact .counted hunlocks rfl
      | wrlck =>
        exact .removed hunlocks rfl
    · rw [if_neg hmatch]
      rw [Bool.and_eq_true, beq_iff_eq] at hmatch
      refine .unmatched ?_
      rintro c' ⟨hc', hname, htype⟩
      rw [hfnd] at hc'
      cases hc'
      exact hmatch ⟨hname, htype⟩

theorem exists_unlockName (hlive : ∀ c ∈ d.cells, c.2.freed = false)
    (basename : Option String) (type : EntrylkType) : ∃ r, unlockName d basename type = some r := by
  obtain ⟨found, hfnd⟩ := exists_findMostMatchingLock hlive basename
  exact ⟨_, by rw [unlockName, hfnd]; rfl⟩

def queuedFrames (cells : List (Nat × EntryLock)) : List Frame :=
  cells.flatMap (fun c => c.2.blockedLocks.map (fun bl => bl.frame))

theorem queuedFrames_hang (req : BlockedLock) (hc : c ∈ d.cells) :
    (queuedFrames
      (d.modify c.1 (fun l => { l with blockedLocks := req :: l.blockedLocks })).cells).Perm
      (req.frame :: queuedFrames d.cells) := by
  obtain ⟨before, after, hsp, hbef, haft⟩ := Cells.exists_split hc
  rw [Cells.modify_of_split _ hsp hbef haft, hsp]
  simp only [queuedFrames, flatMap_append]
  exact perm_middle

theorem queuedFrames_del (hc : c ∈ d.cells) :
    (c.2.blockedLocks.map (fun bl => bl.frame) ++ queuedFrames (d.del c.1).cells).Perm
      (queuedFrames d.cells) := by
  obtain ⟨before, after, hsp, hbef, haft⟩ := Cells.exists_split hc
  rw [Cells.del_of_split hsp hbef haft, hsp]
  simp only [queuedFrames, flatMap_append]
  exact perm_append_comm_assoc _ _ _

theorem queuedFrames_modify {addr : Nat} {f : EntryLock → EntryLock}
    (hf : ∀ l, (f l).blockedLocks = l.blockedLocks) :
    queuedFrames (d.modify addr f).cells = queuedFrames d.cells := by
  simp only [queuedFrames, Cells.modify, flatMap_map]
  refine flatMap_congr (fun c _ => ?_)
  split_ifs
  · rw [hf]
  · rfl

theorem LockName.frames (h : LockName d req nonblock r) :
    (queuedFrames r.1.cells).Perm ((if r.2 = .eagain ∧ nonblock = false then [req.frame] else []) ++
        queuedFrames d.cells) := by
  cases h with
  | added => simp [queuedFrames, newEntrylkLock]
  | counted =>
    simp [queuedFrames_modify (f := fun l : EntryLock =>
      { l with readCount := l.readCount + 1, freed := true }) (fun _ => rfl)]
  | hung hblo hc => simpa [hblo] using queuedFrames_hang req hc
  | refused hnonblock => simp [hnonblock]

def Grants.frames (g : Grants) : List Frame :=
  g.granted.map (fun bl => bl.frame) ++ queuedFrames g.dir.cells

end GlusterFS.Locks
