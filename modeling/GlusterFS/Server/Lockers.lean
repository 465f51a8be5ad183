import GlusterFS.Lib.Run

/-!
# The locks that the server remembers

For each lock that is granted to a client the server puts an entry into the table of the
connection, so that it can release the lock when the connection goes away.  An entry has the file
and the process, and not the range or the name that was locked.  When one lock is released, every
entry of its process for the file is taken out.

So the table is complete as long as a process releases a lock only when it has no other lock
through the same path or descriptor (`Alone`); what it would still hold is forgotten.
-/

namespace GlusterFS.Server

open Run List

section

/-- How a call names its file: a path that was resolved to an inode, or a descriptor. -/
inductive Handle (Inode Fd : Type) where
  | loc (inode : Inode)
  | fd (fd : Fd)
deriving DecidableEq

structure Locker (Inode Fd : Type) where
  handle : Handle Inode Fd
  pid : Int

structure LockTable (Inode Fd : Type) where
  fileLockers : List (Locker Inode Fd)
  dirLockers : List (Locker Inode Fd)

/-- The inodes of the server: that of a descriptor, and which of them are directories. -/
structure Files (Inode Fd : Type) where
  inode : Fd → Inode
  isDir : Inode → Bool

variable {Inode Fd : Type}

def Handle.inode (files : Files Inode Fd) : Handle Inode Fd → Inode
  | .loc i => i
  | .fd f => files.inode f

/-- The entries for the directories, or those for the other files. -/
def LockTable.modify (table : LockTable Inode Fd) (dir : Bool)
    (f : List (Locker Inode Fd) → List (Locker Inode Fd)) : LockTable Inode Fd :=
  if dir then
    { table with dirLockers := f table.dirLockers }
  else
    { table with fileLockers := f table.fileLockers }

def LockTable.lockers (table : LockTable Inode Fd) : List (Locker Inode Fd) :=
  table.fileLockers ++ table.dirLockers

def gfAddLocker (files : Files Inode Fd) (table : LockTable Inode Fd)
    (handle : Handle Inode Fd) (pid : Int) : LockTable Inode Fd :=
  table.modify (files.isDir (handle.inode files)) (fun lockers => lockers ++ [⟨handle, pid⟩])

variable [DecidableEq Inode] [DecidableEq Fd]

def Locker.isOf (locker : Locker Inode Fd) (handle : Handle Inode Fd) (pid : Int) : Bool :=
  match locker.handle, handle with
  | .fd fd', .fd fd => fd' = fd && locker.pid = pid
  | .loc inode', .loc inode => inode' = inode && locker.pid = pid
  | _, _ => false

def gfDelLocker (files : Files Inode Fd) (table : LockTable Inode Fd)
    (handle : Handle Inode Fd) (pid : Int) : LockTable Inode Fd :=
  table.modify (files.isDir (handle.inode files)) (filter (fun locker => !locker.isOf handle pid))

def lockCbk (files : Files Inode Fd) (table : LockTable Inode Fd)
    (handle : Handle Inode Fd) (pid : Int) (unlock : Bool) (opRet : Int) : LockTable Inode Fd :=
  if 0 ≤ opRet then
    if unlock then
      gfDelLocker files table handle pid
    else
      gfAddLocker files table handle pid
  else
    table

inductive FlockType where
  | rdlck
  | wrlck
  | unlck
deriving DecidableEq

inductive EntrylkCmd where
  | lock
  | unlock
  | lockNb
deriving DecidableEq

def serverInodelkCbk (files : Files Inode Fd) (table : LockTable Inode Fd)
    (inode : Inode) (lType : FlockType) (pid opRet : Int) : LockTable Inode Fd :=
  lockCbk files table (.loc inode) pid (lType = .unlck) opRet

def serverFinodelkCbk (files : Files Inode Fd) (table : LockTable Inode Fd)
    (fd : Fd) (lType : FlockType) (pid opRet : Int) : LockTable Inode Fd :=
  lockCbk files table (.fd fd) pid (lType = .unlck) opRet

def serverEntrylkCbk (files : Files Inode Fd) (table : LockTable Inode Fd)
    (inode : Inode) (cmd : EntrylkCmd) (pid opRet : Int) : LockTable Inode Fd :=
  lockCbk files table (.loc inode) pid (cmd = .unlock) opRet

def serverFentrylkCbk (files : Files Inode Fd) (table : LockTable Inode Fd)
    (fd : Fd) (cmd : EntrylkCmd) (pid opRet : Int) : LockTable Inode Fd :=
  lockCbk files table (.fd fd) pid (cmd = .unlock) opRet

/-- The calls with which the locks of a connection are released. -/
inductive Release (Inode Fd : Type) where
  | inodelk (inode : Inode)
  | finodelk (fd : Fd)
  | entrylk (inode : Inode)
  | fentrylk (fd : Fd)

def Release.inode (files : Files Inode Fd) : Release Inode Fd → Inode
  | .inodelk inode => inode
  | .finodelk fd => files.inode fd
  | .entrylk inode => inode
  | .fentrylk fd => files.inode fd

def releaseFile (locker : Locker Inode Fd) : Release Inode Fd :=
  match locker.handle with
  | .fd fd => .finodelk fd
  | .loc inode => .inodelk inode

def releaseDir (locker : Locker Inode Fd) : Release Inode Fd :=
  match locker.handle with
  | .fd fd => .fentrylk fd
  | .loc inode => .entrylk inode

def serverConnectionDestroy (table : LockTable Inode Fd) : List (Release Inode Fd) :=
  table.fileLockers.map releaseFile ++ table.dirLockers.map releaseDir

end

section

/-- What a lock is on: a range of the file, or a name in the directory or all of them. -/
inductive Region (Name : Type) where
  | range (start len : Int)
  | name (basename : Option Name)
deriving DecidableEq

structure Lock (Inode Fd Name : Type) where
  handle : Handle Inode Fd
  pid : Int
  region : Region Name
deriving DecidableEq

/-- The table, and the locks that the connection holds. -/
structure State (Inode Fd Name : Type) where
  table : LockTable Inode Fd
  held : List (Lock Inode Fd Name)

inductive Event (Inode Fd Name : Type) where
  | inodelk (inode : Inode) (lType : FlockType) (start len : Int) (pid opRet : Int)
  | finodelk (fd : Fd) (lType : FlockType) (start len : Int) (pid opRet : Int)
  | entrylk (inode : Inode) (basename : Option Name) (cmd : EntrylkCmd) (pid opRet : Int)
  | fentrylk (fd : Fd) (basename : Option Name) (cmd : EntrylkCmd) (pid opRet : Int)

variable {Inode Fd Name : Type} [DecidableEq Inode] [DecidableEq Fd] [DecidableEq Name]

def Event.lock : Event Inode Fd Name → Lock Inode Fd Name
  | .inodelk inode _ start len pid _ => ⟨.loc inode, pid, .range start len⟩
  | .finodelk fd _ start len pid _ => ⟨.fd fd, pid, .range start len⟩
  | .entrylk inode basename _ pid _ => ⟨.loc inode, pid, .name basename⟩
  | .fentrylk fd basename _ pid _ => ⟨.fd fd, pid, .name basename⟩

def Event.unlock : Event Inode Fd Name → Bool
  | .inodelk _ lType _ _ _ _ => lType = .unlck
  | .finodelk _ lType _ _ _ _ => lType = .unlck
  | .entrylk _ _ cmd _ _ => cmd = .unlock
  | .fentrylk _ _ cmd _ _ => cmd = .unlock

def Event.opRet : Event Inode Fd Name → Int
  | .inodelk _ _ _ _ _ opRet => opRet
  | .finodelk _ _ _ _ _ opRet => opRet
  | .entrylk _ _ _ _ opRet => opRet
  | .fentrylk _ _ _ _ opRet => opRet

/-- An unlock may come by another way to the file than the lock did. -/
def Lock.matches (files : Files Inode Fd) (lock lock' : Lock Inode Fd Name) : Bool :=
  lock'.handle.inode files = lock.handle.inode files && lock'.pid = lock.pid &&
    lock'.region = lock.region

def heldAfter
    (files : Files Inode Fd) (held : List (Lock Inode Fd Name)) (e : Event Inode Fd Name) :
    List (Lock Inode Fd Name) :=
  if 0 ≤ e.opRet then
    if e.unlock then held.eraseP (e.lock.matches files) else held ++ [e.lock]
  else
    held

def tableAfter
    (files : Files Inode Fd) (table : LockTable Inode Fd) : Event Inode Fd Name → LockTable Inode Fd
  | .inodelk inode lType _ _ pid opRet => serverInodelkCbk files table inode lType pid opRet
  | .finodelk fd lType _ _ pid opRet => serverFinodelkCbk files table fd lType pid opRet
  | .entrylk inode _ cmd pid opRet => serverEntrylkCbk files table inode cmd pid opRet
  | .fentrylk fd _ cmd pid opRet => serverFentrylkCbk files table fd cmd pid opRet

def step (files : Files Inode Fd) (s : State Inode Fd Name) (e : Event Inode Fd Name) :
    Option (State Inode Fd Name) :=
  some ⟨tableAfter files s.table e, heldAfter files s.held e⟩

def start : State Inode Fd Name :=
  ⟨⟨[], []⟩, []⟩

/-- A file on which a lock is held is in the table, and is released with the connection. -/
structure Remembers (files : Files Inode Fd) (s : State Inode Fd Name) : Prop where
  entry : ∀ lock ∈ s.held, ∃ locker ∈ s.table.lockers,
    locker.handle.inode files = lock.handle.inode files
  release : ∀ lock ∈ s.held, ∃ r ∈ serverConnectionDestroy s.table,
    r.inode files = lock.handle.inode files

/-- A process that releases a lock has no other one by the same way to the file. -/
def Alone (files : Files Inode Fd) (s : State Inode Fd Name) (e : Event Inode Fd Name) : Prop :=
  0 ≤ e.opRet → e.unlock = true → ∀ lock ∈ s.held.eraseP (e.lock.matches files),
      ¬ (lock.handle = e.lock.handle ∧ lock.pid = e.lock.pid)

instance (files : Files Inode Fd) (s : State Inode Fd Name) (e : Event Inode Fd Name) :
    Decidable (Alone files s e) :=
  inferInstanceAs (Decidable (_ → _ → ∀ lock ∈ _, ¬ _))

end

section

variable {Inode Fd Name : Type} [DecidableEq Inode] [DecidableEq Fd] [DecidableEq Name]
variable {files : Files Inode Fd} {table : LockTable Inode Fd} {s : State Inode Fd Name}

omit [DecidableEq Inode] [DecidableEq Fd] in
theorem mem_lockers_iff {locker : Locker Inode Fd} :
    locker ∈ table.lockers ↔ locker ∈ table.fileLockers ∨ locker ∈ table.dirLockers :=
  mem_append

variable {locker : Locker Inode Fd} {handle : Handle Inode Fd} {pid : Int}

theorem isOf_iff : locker.isOf handle pid = true ↔ locker = ⟨handle, pid⟩ := by
  obtain ⟨handle', pid'⟩ := locker
  cases handle' with
  | loc inode' | fd fd' =>
    cases handle with
    | loc inode => simp [Locker.isOf]
    | fd fd => simp [Locker.isOf]

omit [DecidableEq Inode] [DecidableEq Fd] in
theorem mem_gfAddLocker : locker ∈ (gfAddLocker files table handle pid).lockers ↔
      locker ∈ table.lockers ∨ locker = ⟨handle, pid⟩ := by
  unfold gfAddLocker LockTable.modify
  split
  · simp only [mem_lockers_iff, mem_append, mem_singleton, or_assoc]
  · simp only [mem_lockers_iff, mem_append, mem_singleton]
    tauto

theorem mem_gfDelLocker (hmem : locker ∈ table.lockers) (hne : locker ≠ ⟨handle, pid⟩) :
    locker ∈ (gfDelLocker files table handle pid).lockers := by
  have hkept : (!locker.isOf handle pid) = true := by
    rw [Bool.not_eq_true', Bool.eq_false_iff, ne_eq, isOf_iff]
    exact hne
  unfold gfDelLocker LockTable.modify
  rw [mem_lockers_iff] at hmem
  split
  · rw [mem_lockers_iff, mem_filter]
    exact hmem.imp_right (fun h => ⟨h, hkept⟩)
  · rw [mem_lockers_iff, mem_filter]
    exact hmem.imp_left (fun h => ⟨h, hkept⟩)

omit [DecidableEq Name] in
theorem tableAfter_eq (table : LockTable Inode Fd) (e : Event Inode Fd Name) :
    tableAfter files table e = lockCbk files table e.lock.handle e.lock.pid e.unlock e.opRet := by
  cases e <;> rfl

def Tracks (s : State Inode Fd Name) : Prop :=
  ∀ lock ∈ s.held, ⟨lock.handle, lock.pid⟩ ∈ s.table.lockers

theorem Tracks.step (h : Tracks s) {e : Event Inode Fd Name} (hal : Alone files s e) :
    Tracks ⟨tableAfter files s.table e, heldAfter files s.held e⟩ := by
  intro lock hlock
  rw [tableAfter_eq, lockCbk]
  rw [heldAfter] at hlock
  by_cases hret : 0 ≤ e.opRet
  · rw [if_pos hret] at hlock ⊢
    by_cases hunlo : e.unlock = true
    · rw [if_pos hunlo] at hlock ⊢
      refine mem_gfDelLocker (h lock (mem_of_mem_eraseP hlock)) ?_
      intro heq
      rw [Locker.mk.injEq] at heq
      exact hal hret hunlo lock hlock heq
    · rw [if_neg hunlo] at hlock ⊢
      rw [mem_gfAddLocker]
      rcases mem_append.mp hlock with hlock | hlock
      · exact .inl (h lock hlock)
      · rw [mem_singleton.mp hlock]
        exact .inr rfl
  · rw [if_neg hret] at hlock ⊢
    exact h lock hlock

omit [DecidableEq Inode] [DecidableEq Fd] in
theorem exists_release (h : locker ∈ table.lockers) :
    ∃ r ∈ serverConnectionDestroy table, r.inode files = locker.handle.inode files := by
  rcases mem_lockers_iff.mp h with h | h
  · refine ⟨releaseFile locker, mem_append_left _ (mem_map_of_mem h), ?_⟩
    obtain ⟨handle, pid⟩ := locker
    cases handle <;> rfl
  · refine ⟨releaseDir locker, mem_append_right _ (mem_map_of_mem h), ?_⟩
    obtain ⟨handle, pid⟩ := locker
    cases handle <;> rfl

omit [DecidableEq Inode] [DecidableEq Fd] [DecidableEq Name] in
theorem Tracks.remembers (h : Tracks s) :
    Remembers files s where
  entry := by
    intro lock hlock
    exact ⟨_, h lock hlock, rfl⟩
  release := by
    intro lock hlock
    exact exists_release (h lock hlock)

/--
**The server remembers the locks.**  In every run whose unlocks all come from a process that has
no other lock by the same way to the file, each file on which the connection holds a lock is in
the table, and is released when the connection is destroyed.
-/
theorem remembers_of_alone (files : Files Inode Fd) (events : List (Event Inode Fd Name))
    (halone : AllSteps (step files) (Alone files) start events) :
    ∃ s, run (step files) start events = some s ∧ Remembers files s := by
  have hinit : Tracks (start : State Inode Fd Name) := by
    intro lock hlock
    cases hlock
  obtain ⟨s, hrun, htr⟩ :=
    exists_run (step files) (P := Tracks) (fun s e hs he => ⟨_, rfl, hs.step he⟩) hinit halone
  exact ⟨s, hrun, htr.remembers⟩

end

def oneDirectory : Files Nat Nat :=
  ⟨id, fun inode => inode = 0⟩

def twoProcesses : List (Event Nat Nat Nat) :=
  [.entrylk 0 (some 1) .lock 7 0, .fentrylk 0 (some 2) .lock 8 0, .entrylk 0 (some 1) .unlock 7 0]

theorem remembers_twoProcesses :
    ∃ s, run (step oneDirectory) start twoProcesses = some s ∧
      s.held ≠ [] ∧ Remembers oneDirectory s := by
  obtain ⟨s, hrun, hrem⟩ := remembers_of_alone oneDirectory twoProcesses (by decide)
  refine ⟨s, hrun, ?_, hrem⟩
  cases hrun
  decide

def twoNames : List (Event Nat Nat Nat) :=
  [.entrylk 0 (some 1) .lock 7 0, .entrylk 0 (some 2) .lock 7 0, .entrylk 0 (some 1) .unlock 7 0]

theorem not_remembers_twoNames :
    ∃ s, run (step oneDirectory) start twoNames = some s ∧
      s.held = [⟨.loc 0, 7, .name (some 2)⟩] ∧ s.table.lockers = [] ∧
      ¬ Remembers oneDirectory s := by
  refine ⟨_, rfl, rfl, rfl, ?_⟩
  intro h
  obtain ⟨locker, hmem, _⟩ := h.entry ⟨.loc 0, 7, .name (some 2)⟩ (by decide)
  cases hmem

end GlusterFS.Server
