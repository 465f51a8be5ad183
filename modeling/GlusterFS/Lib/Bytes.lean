import Mathlib.Data.UInt
import Mathlib.Data.List.TakeWhile
import Mathlib.Tactic.Ring

/-!
# Bytes, strings, and numbers in network byte order

A string is the bytes before its terminator, so none of them is zero; `cString` reads one where it
begins.  A number is written with its most significant byte first.  `toNetwork` takes the number of
bytes, and keeps of a number what fits; `ofNetwork` reads bytes back.
-/

namespace GlusterFS.Bytes

open List Nat

abbrev Byte := UInt8

/-- The bytes of a string, without the terminator. -/
structure CString where
  bytes : List Byte
  nulFree : (0 : Byte) ∉ bytes
deriving DecidableEq

@[ext] theorem CString.ext {key key' : CString} (h : key.bytes = key'.bytes) : key = key' := by
  cases key
  cases h
  rfl

/-- The string that begins with the first of some bytes, if it ends in them. -/
def cString (bytes : List Byte) : Option CString :=
  if 0 ∈ bytes then
    some ⟨bytes.takeWhile (fun b => b ≠ 0), fun h => by simpa using mem_takeWhile_imp h⟩
  else
    none

variable {bytes : List Byte}

theorem cString_of_notMem (h : (0 : Byte) ∉ bytes) : cString bytes = none :=
  if_neg h

theorem exists_cString (h : (0 : Byte) ∈ bytes) : ∃ key, cString bytes = some key :=
  ⟨_, if_pos h⟩

theorem cString_append (key : CString) (rest : List Byte) :
    cString (key.bytes ++ 0 :: rest) = some key := by
  have hkey : ∀ b ∈ key.bytes, decide (b ≠ 0) = true := by
    intro b hb
    rw [decide_eq_true_iff]
    rintro rfl
    exact key.nulFree hb
  rw [cString, if_pos (mem_append_right _ mem_cons_self), Option.some_inj]
  apply CString.ext
  show (key.bytes ++ 0 :: rest).takeWhile _ = key.bytes
  rw [takeWhile_append_of_pos hkey, takeWhile_cons_of_neg (by decide), append_nil]

def toNetwork : Nat → Nat → List Byte
  | 0, _ => []
  | w + 1, n => UInt8.ofNat (n / 256 ^ w) :: toNetwork w n

def ofNetwork : List Byte → Nat
  | [] => 0
  | b :: bytes => b.toNat * 256 ^ bytes.length + ofNetwork bytes

@[simp] theorem length_toNetwork (w n : Nat) : (toNetwork w n).length = w := by
  induction w with
  | zero => rfl
  | succ w ih => rw [toNetwork, length_cons, ih]

theorem ofNetwork_toNetwork (w n : Nat) : ofNetwork (toNetwork w n) = n % 256 ^ w := by
  induction w with
  | zero =>
    rw [pow_zero, mod_one]
    rfl
  | succ w ih =>
    have hdigit : (UInt8.ofNat (n / 256 ^ w)).toNat = n / 256 ^ w % 256 := UInt8.toNat_ofNat'
    rw [toNetwork, ofNetwork, ih, length_toNetwork, hdigit, pow_succ, mod_mul, mul_comm, add_comm]

theorem toNetwork_mul_add (k m n : Nat) : toNetwork k (256 ^ k * m + n) = toNetwork k n := by
  induction k generalizing m with
  | zero => rfl
  | succ k ih =>
    have hpos : 0 < 256 ^ k := Nat.pow_pos (by decide)
    rw [toNetwork, toNetwork, pow_succ, mul_assoc, ih, mul_add_div hpos,
      ← UInt8.ofNat_mod_size, mul_add_mod, UInt8.ofNat_mod_size]

theorem toNetwork_append (j k m : Nat) {n : Nat} (hn : n < 256 ^ k) :
    toNetwork (j + k) (256 ^ k * m + n) = toNetwork j m ++ toNetwork k n := by
  induction j with
  | zero => rw [zero_add, toNetwork_mul_add, toNetwork, nil_append]
  | succ j ih =>
    have hdigit : (256 ^ k * m + n) / 256 ^ (j + k) = m / 256 ^ j := by
      rw [Nat.add_comm j, pow_add, ← Nat.div_div_eq_div_mul,
        mul_add_div (zero_lt_of_lt hn), div_eq_of_lt hn, add_zero]
    rw [succ_add, toNetwork, hdigit, ih, toNetwork, cons_append]

end GlusterFS.Bytes
