import GlusterFS.Afr.Basic

/-!
# AFR: what the self-heal passes have in common

A self-heal pass looks a file up on every child that is up, puts the changelogs
it is given into one matrix, and picks from it the children that no other child
accuses.  Row `i` of the matrix is the array that child `i` keeps.

A slot of `sh->xattr` is empty until its child has answered with a dictionary,
and the dictionary need not hold the array that was asked for; the pass reads a
row of zeros in both cases.
-/

namespace GlusterFS.Afr

open List

inductive PendingKey where
  | dataPending
  | metadataPending
  | entryPending

abbrev Xattr (n : Nat) := PendingKey → Option (Fin n → Counter)

/-- The fields of `struct stat` that the self-heal passes read. -/
structure Stat where
  stMode : Nat
  stUid : Nat
  stGid : Nat
  stSize : Nat
  stBlocks : Nat
deriving DecidableEq

def Stat.zero : Stat :=
  ⟨0, 0, 0, 0, 0⟩

def permissionDiffers (buf1 buf2 : Stat) : Bool :=
  buf1.stMode != buf2.stMode

def ownershipDiffers (buf1 buf2 : Stat) : Bool :=
  buf1.stUid != buf2.stUid || buf1.stGid != buf2.stGid

def fileHasHoles (buf : Stat) : Bool :=
  buf.stSize > buf.stBlocks * 512

/-- `afr_self_heal_t`, with the fields of `local` that the passes write. -/
structure SelfHeal (n : Nat) where
  source : Option (Fin n)
  activeSinks : Nat
  sources : Fin n → Bool
  buf : Fin n → Stat
  xattr : Fin n → Option (Xattr n)
  pendingMatrix : Fin n → Fin n → Counter
  success : Fin n → Bool
  childErrno : Fin n → Option Errno
  opFailed : Bool
  govinda : Bool
  callCount : Nat

/--
The record as a pass finds it.  Everything has been cleared but `child_errno`,
which may hold errors of the passes before.
-/
def SelfHeal.start {n : Nat} (childErrno : Fin n → Option Errno) : SelfHeal n where
  source := none
  activeSinks := 0
  sources := fun _ => false
  buf := fun _ => Stat.zero
  xattr := fun _ => none
  pendingMatrix := fun _ _ => 0
  success := fun _ => false
  childErrno := childErrno
  opFailed := false
  govinda := false
  callCount := 0

inductive LookupReply (n : Nat) where
  | ok (buf : Stat) (xattr : Option (Xattr n))
  | err (opErrno : Errno)

/-- How the choice of a source ends: nothing to do, or on to the repair. -/
inductive HealOutcome (n : Nat) where
  | finish (sh : SelfHeal n)
  | sync (sh : SelfHeal n)

variable {n : Nat}

def afrShSelectSource (sources : Fin n → Bool) : Option (Fin n) :=
  (finRange n).find? sources

def afrShSourceCount (sources : Fin n → Bool) : Nat :=
  (finRange n).countP sources

def afrShSupressErrenousChildren (sources : Fin n → Bool) (childErrno : Fin n → Option Errno) :
    Fin n → Bool :=
  fun i => sources i && (childErrno i).isNone

def activeSink (sources childUp : Fin n → Bool) (i : Fin n) : Bool :=
  !sources i && childUp i

def pendingOf (key : PendingKey) (xattr : Option (Xattr n)) : Option (Fin n → Counter) :=
  xattr.bind (fun dict => dict key)

def afrShBuildPendingMatrix (key : PendingKey) (xattr : Fin n → Option (Xattr n)) :
    Fin n → Fin n → Counter :=
  fun i => (pendingOf key (xattr i)).getD (fun _ => 0)

def normalizePending (pendingMatrix : Fin n → Fin n → Counter) : Fin n → Fin n → Counter :=
  fun i j => if i = j then 0 else pendingMatrix i j

/-- The children whose column of the normalized matrix is zero. -/
def afrShMarkSources (pendingMatrix : Fin n → Fin n → Counter) : Fin n → Bool :=
  fun i =>
    (finRange n).all (fun j => normalizePending pendingMatrix j i == 0)

def afrShPendingToDelta (pendingMatrix : Fin n → Fin n → Counter) (success : Fin n → Bool) :
    Fin n → Fin n → Counter :=
  fun i j => if success j then -pendingMatrix i j else 0

theorem afrShMarkSources_iff (pendingMatrix : Fin n → Fin n → Counter) (i : Fin n) :
    afrShMarkSources pendingMatrix i = true ↔ ∀ j, j ≠ i → pendingMatrix j i = 0 := by
  unfold afrShMarkSources
  rw [all_eq_true]
  constructor
  · intro h j hj
    have hzero := h j (mem_finRange j)
    simpa [normalizePending, hj] using hzero
  · intro h j _
    by_cases hj : j = i
    · simp [normalizePending, hj]
    · simp [normalizePending, h j hj]

theorem afrShSelectSource_spec {sources : Fin n → Bool} {i : Fin n}
    (h : afrShSelectSource sources = some i) : sources i = true := by
  exact find?_some h

/--
What the lookup on every child brings back: the array on its disk, or no array
where none has ever been written.
-/
def Reports (key : PendingKey) (xattr : Fin n → Option (Xattr n))
    (rows : Fin n → Fin n → Counter) : Prop :=
  ∀ i, ∃ dict, xattr i = some dict ∧
    (dict key = some (rows i) ∨ dict key = none ∧ rows i = fun _ => 0)

theorem Reports.pendingMatrix {key : PendingKey} {xattr : Fin n → Option (Xattr n)}
    {rows : Fin n → Fin n → Counter} (h : Reports key xattr rows) :
    afrShBuildPendingMatrix key xattr = rows := by
  funext i
  obtain ⟨dict, hdict, hrow | ⟨hnone, hzero⟩⟩ := h i
  · simp [afrShBuildPendingMatrix, pendingOf, hdict, hrow]
  · simp [afrShBuildPendingMatrix, pendingOf, hdict, hnone, hzero]

end GlusterFS.Afr
