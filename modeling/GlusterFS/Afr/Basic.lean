import Mathlib.Data.BitVec
import GlusterFS.Lib.FanOut

/-!
# AFR: the data shared by the replication code

The automatic file replication translator keeps `n` copies of every file on
`n` children and, with every copy, one changelog per kind of operation: an
array with one 32-bit counter for each child.  A positive counter for child
`j` on child `i` means that `i` knows of an operation that `j` has missed.

The counters are stored in network byte order and read back through `ntoh32`,
and the storage child adds them as unsigned 32-bit numbers, so they are
`BitVec 32` here, with the value on the host side.  A child is an index into
`priv->children`.
-/

namespace GlusterFS.Afr

open List

abbrev Counter := BitVec 32

def Accuses (c : Counter) : Prop :=
  0 < c.toInt
deriving Decidable

/-- The error numbers that the code tells apart, and all the others. -/
inductive Errno where
  | ENOENT
  | EAGAIN
  | ENOSYS
  | ENOTCONN
  | EBADFD
  | ENOTSUP
  | EUCLEAN
  | other (code : Nat)
deriving DecidableEq

/-- What a child answers to a call: `op_ret >= 0`, or -1 and an error number. -/
inductive Reply where
  | ok
  | err (opErrno : Errno)
deriving DecidableEq

def childWentDown : Reply → Bool
  | .ok => false
  | .err opErrno => opErrno = .ENOTCONN || opErrno = .EBADFD

inductive AfrTransactionType where
  | data
  | metadata
  | entry
  | entryRename
  | flush
deriving DecidableEq

/-- The values of `local->op` that the changelog code tells apart. -/
inductive AfrOp where
  | write
  | ftruncate
  | flush
  | other
deriving DecidableEq

/-- The options of a volume, as `init` leaves them in `this->private`. -/
structure AfrPrivate (n : Nat) where
  dataChangeLog : Bool
  metadataChangeLog : Bool
  entryChangeLog : Bool
  dataLockServerCount : Nat
  metadataLockServerCount : Nat
  entryLockServerCount : Nat
  favoriteChild : Option (Fin n)

def AfrPrivate.default (n : Nat) : AfrPrivate n where
  dataChangeLog := true
  metadataChangeLog := false
  entryChangeLog := true
  dataLockServerCount := 1
  metadataLockServerCount := 0
  entryLockServerCount := 1
  favoriteChild := none

/-- The children that are up, in the order in which the loops visit them. -/
def upChildren {n : Nat} (childUp : Fin n → Bool) : List (Fin n) :=
  (finRange n).filter childUp

def afrUpChildrenCount {n : Nat} (childUp : Fin n → Bool) : Nat :=
  (finRange n).countP childUp

variable {n : Nat}

@[simp] theorem mem_upChildren {childUp : Fin n → Bool} {i : Fin n} :
    i ∈ upChildren childUp ↔ childUp i = true := by
  simp [upChildren]

variable (childUp : Fin n → Bool)

theorem upChildren_nodup : (upChildren childUp).Nodup := by
  exact (nodup_finRange n).filter _

theorem length_upChildren : (upChildren childUp).length = afrUpChildrenCount childUp := by
  simp [upChildren, afrUpChildrenCount, countP_eq_length_filter]

theorem flatMap_upChildren {γ : Type} (calls : Fin n → List γ) :
    (finRange n).flatMap (fun i => if childUp i then calls i else []) =
    (upChildren childUp).flatMap calls := by
  unfold upChildren
  induction finRange n with
  | nil => rfl
  | cons i is ih =>
    by_cases hi : childUp i = true <;> simp [hi, ih]

theorem windLoop_upChildren {count : Nat} (hcnt : count = afrUpChildrenCount childUp) :
    FanOut.windLoop (fun i => if childUp i then [i] else []) count (finRange n) =
    upChildren childUp := by
  have hflat : (finRange n).flatMap (fun i => if childUp i then [i] else []) =
        upChildren childUp := by
    rw [flatMap_upChildren]
    simp
  rw [FanOut.windLoop_eq_flatMap]
  · exact hflat
  · rw [hflat, length_upChildren, hcnt]

abbrev firstChild : Fin 2 := 0

abbrev secondChild : Fin 2 := 1

end GlusterFS.Afr
