import Mathlib.Logic.Basic

/-!
# The filter translator

Each fop asks `update_frame` what the filter makes of the caller, and a switch of its own winds
the call or refuses it.  If the filter is read-only the answer is the same for every caller.  But
`fchmod`, `fchown` and `ftruncate` do not ask, the table of fops has no entry for `setdents`,
`xattrop` and `fxattrop`, and an `open` that creates or truncates passes if it does not ask to
write.  All other fops that modify something are refused (`readOnly_iff`).
-/

namespace GlusterFS.Filter

open List

structure GfFilter where
  completeReadOnly : Bool
  partialFilter : Bool
  translateInputUid : List (UInt32 × UInt32)
  translateInputGid : List (UInt32 × UInt32)
  filterInputUid : List (UInt32 × UInt32)

inductive Update where
  | noChange | mapUid | mapGid | mapBoth | filterUid | filterGid | roFs
deriving DecidableEq

def within (ranges : List (UInt32 × UInt32)) (id : UInt32) : Bool :=
  ranges.any (fun range => range.1 ≤ id && id ≤ range.2)

/-- `owner` is what the context of the inode has. -/
def updateFrame (filter : GfFilter) (uid gid : UInt32) (owner : Option UInt32) : Update :=
  let ret : Update :=
    if within filter.translateInputUid uid && owner != some uid then .mapUid else .noChange
  let ret : Update :=
    if within filter.translateInputGid gid then
      if ret = .noChange then .mapGid else .mapBoth
    else
      ret
  if filter.completeReadOnly then
    .roFs
  else if filter.partialFilter && owner.any (within filter.filterInputUid) then
    .filterUid
  else
    ret

inductive Fop where
  | lookup | stat | fstat | chmod | fchmod | chown | fchown | truncate | ftruncate | utimens
  | access | readlink | mknod | mkdir | unlink | rmdir | symlink | rename | link | create
  | openFile (flags : Nat) | readv | writev | flush | fsync | opendir | readdir | fsyncdir
  | statfs | setxattr | getxattr | removexattr | lk | inodelk | finodelk | entrylk | fentrylk
  | setdents | getdents | checksum | xattrop | fxattrop

/-- The bits of a mode or of flags: one of `bits` is set. -/
def has (mode bits : Nat) : Bool :=
  mode &&& bits != 0

/-- Whether `O_WRONLY` or `O_RDWR` is set. -/
def asksToWrite (flags : Nat) : Bool :=
  has flags 1 || has flags 2

/-- The switch of a fop: the caller may go on as the group, or as another; and it is refused. -/
structure Switch where
  group : Bool
  other : Bool
  refuses : Bool

inductive Errno where
  | EPERM | EROFS

/-- The case of the group falls through to the one of the others. -/
def Switch.errno (switch : Switch) : Update → Option Errno
  | .mapUid => if switch.group || switch.other then none else some .EPERM
  | .mapBoth => if switch.other then none else some .EPERM
  | .filterUid | .filterGid | .roFs => if switch.refuses then some .EROFS else none
  | .noChange | .mapGid => none

/-- The modes are those of the inode and of its parent. -/
def Fop.switch (mode parent : Nat) : Fop → Switch
  | chmod | chown | truncate | utimens | setxattr | removexattr =>
    ⟨has mode 0o20, has mode 0o2, true⟩
  | mknod | mkdir | symlink | create => ⟨has parent 0o20, has parent 0o2, true⟩
  | unlink | rmdir | rename =>
    ⟨has parent 0o20 || has mode 0o20, has parent 0o2 || has mode 0o2, true⟩
  | link | writev => ⟨true, true, true⟩
  | readlink | getxattr => ⟨has mode 0o40, has mode 0o4, false⟩
  | opendir => ⟨has mode 0o20 || has mode 0o40, has mode 0o2 || has mode 0o4, false⟩
  | openFile flags =>
    ⟨has mode 0o20 || !asksToWrite flags && has mode 0o40,
      has mode 0o2 || !asksToWrite flags && has mode 0o4, asksToWrite flags⟩
  -- these have no switch, or are wound by default
  | _ => ⟨true, true, false⟩

structure Call where
  fop : Fop
  uid : UInt32
  gid : UInt32
  owner : Option UInt32
  mode : Nat
  parent : Nat

def winds (filter : GfFilter) (c : Call) : Bool :=
  ((c.fop.switch c.mode c.parent).errno (updateFrame filter c.uid c.gid c.owner)).isNone

/-- Whether `O_CREAT` or `O_TRUNC` is set. -/
def createsOrCuts (flags : Nat) : Bool :=
  has flags 0o100 || has flags 0o1000

/-- What the child may change for a fop: data, names, attributes or extended attributes. -/
def Fop.modifies : Fop → Bool
  | chmod | fchmod | chown | fchown | truncate | ftruncate | utimens | mknod | mkdir | unlink
  | rmdir | symlink | rename | link | create | writev | setxattr | removexattr | setdents
  | xattrop | fxattrop => true
  | openFile flags => createsOrCuts flags
  | _ => false

def Fop.unguarded : Fop → Bool
  | fchmod | fchown | ftruncate | setdents | xattrop | fxattrop => true
  | openFile flags => createsOrCuts flags && !asksToWrite flags
  | _ => false

variable {filter : GfFilter}

theorem winds_of_readOnly (h : filter.completeReadOnly = true) (c : Call) :
    winds filter c = !(c.fop.switch c.mode c.parent).refuses := by
  rw [winds, updateFrame, if_pos h, Switch.errno]
  cases (c.fop.switch c.mode c.parent).refuses <;> rfl

theorem Fop.unguarded_eq (fop : Fop) (mode parent : Nat) :
    fop.unguarded = (fop.modifies && !(fop.switch mode parent).refuses) := by
  cases fop <;> rfl

/-- The calls that a read-only filter winds modify nothing iff no call is unguarded. -/
theorem readOnly_iff (h : filter.completeReadOnly = true) (calls : List Call) :
    (∀ c ∈ calls.filter (winds filter), c.fop.modifies = false) ↔
      ∀ c ∈ calls, c.fop.unguarded = false := by
  simp only [mem_filter, and_imp]
  refine forall₂_congr ?_
  intro c _
  rw [winds_of_readOnly h, c.fop.unguarded_eq c.mode c.parent]
  cases c.fop.modifies <;> simp

def readOnly : GfFilter :=
  ⟨true, false, [], [], []⟩

def byRoot (fop : Fop) : Call :=
  ⟨fop, 0, 0, none, 0o644, 0o755⟩

theorem readOnly_writev : readOnly.completeReadOnly = true ∧
    ∀ c ∈ [byRoot (.openFile 0), byRoot .writev].filter (winds readOnly), c.fop.modifies = false :=
  ⟨rfl, (readOnly_iff rfl _).mpr (by decide)⟩

/-- A file that is opened to be read gets another mode. -/
theorem not_readOnly_fchmod : ¬ ∀ c ∈ [byRoot (.openFile 0), byRoot .fchmod].filter
    (winds readOnly), c.fop.modifies = false :=
  fun h => nomatch h (byRoot .fchmod) (.tail _ (.head _))

end GlusterFS.Filter
