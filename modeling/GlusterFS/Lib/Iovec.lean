import Mathlib.Algebra.GroupWithZero.Nat
import Mathlib.Algebra.Ring.Int.Defs
import Mathlib.Algebra.BigOperators.Group.List.Basic
import Mathlib.Data.List.Flatten

/-!
# C integers and vectors of buffers

A buffer of bytes is handed around as a vector of pieces.  `iovSubset` cuts a range of bytes
out of a vector without looking at the bytes, and `flatten_iovSubset` says which bytes these
are.  The lengths of vectors go through C integers: a value that is stored in a narrow integer
is reduced to its range.
-/

namespace GlusterFS.Iovec

open List

universe u

/-- The value that an `int8_t` holds after it was assigned `x`. -/
def int8 (x : Int) : Int :=
  (x + 2 ^ 7) % 2 ^ 8 - 2 ^ 7

def int32 (x : Int) : Int :=
  (x + 2 ^ 31) % 2 ^ 32 - 2 ^ 31

def int64 (x : Int) : Int :=
  (x + 2 ^ 63) % 2 ^ 64 - 2 ^ 63

def uint64 (x : Int) : Nat :=
  (x % 2 ^ 64).toNat

theorem int8_eq {x : Nat} (h : x < 2 ^ 7) : int8 x = x := by
  unfold int8
  omega

variable {x : Int} {α : Type u}

theorem int32_eq (hlow : -2 ^ 31 ≤ x) (hhigh : x < 2 ^ 31) : int32 x = x := by
  unfold int32
  omega

theorem int32_lt (x : Int) : int32 x < 2 ^ 31 := by
  unfold int32
  omega

theorem int32_le (h : 0 ≤ x) : int32 x ≤ x := by
  unfold int32
  omega

theorem int64_eq (hlow : -2 ^ 63 ≤ x) (hhigh : x < 2 ^ 63) : int64 x = x := by
  unfold int64
  omega

theorem uint64_eq {x : Nat} (h : x < 2 ^ 64) : uint64 x = x := by
  unfold uint64
  omega

def iovLength (vector : List (List α)) : Nat :=
  (vector.map length).sum

theorem length_flatten_eq_iovLength (vector : List (List α)) :
    vector.flatten.length = iovLength vector := by
  rw [iovLength, length_flatten]

/-- The part of a vector from `src` up to `dst`; `offset` is where the vector starts. -/
def iovSubsetFrom (src dst : Int) : Int → List (List α) → List (List α)
  | _, [] => []
  | offset, x :: xs =>
    if offset + x.length < src ∨ dst < offset then
      iovSubsetFrom src dst (offset + x.length) xs
    else
      let start := if offset ≤ src then src - offset else 0
      let stop := if dst ≤ offset + x.length then dst - offset else x.length
      (x.take stop.toNat).drop start.toNat :: iovSubsetFrom src dst (offset + x.length) xs

def iovSubset (vector : List (List α)) (src dst : Int) : List (List α) :=
  iovSubsetFrom src dst 0 vector

theorem flatten_iovSubsetFrom {src dst : Int} (h : src ≤ dst) (offset : Int)
    (vector : List (List α)) :
    (iovSubsetFrom src dst offset vector).flatten =
      (vector.flatten.take (dst - offset).toNat).drop (src - offset).toNat := by
  induction vector generalizing offset with
  | nil => simp [iovSubsetFrom]
  | cons x xs ih =>
    have hdst : (dst - (offset + x.length)).toNat = (dst - offset).toNat - x.length := by omega
    have hsrc : (src - (offset + x.length)).toNat = (src - offset).toNat - x.length := by omega
    rw [iovSubsetFrom, flatten_cons, take_append, drop_append, length_take]
    by_cases hskip : offset + x.length < src ∨ dst < offset
    · rw [if_pos hskip, ih, hdst, hsrc]
      rcases hskip with hbef | haft
      · have hgone : (x.take (dst - offset).toNat).drop (src - offset).toNat = [] := by
          apply drop_eq_nil_of_le
          rw [length_take]
          omega
        rw [hgone, nil_append]
        congr 1
        omega
      · have hzero : (dst - offset).toNat = 0 := by omega
        simp [hzero]
    · have hst : (if offset ≤ src then src - offset else 0).toNat = (src - offset).toNat := by
        split_ifs <;> omega
      have hstop : x.take (if dst ≤ offset + x.length then dst - offset else x.length).toNat =
          x.take (dst - offset).toNat := by
        split_ifs with hle
        · rfl
        · rw [take_of_length_le (by omega), take_of_length_le (by omega)]
      rw [if_neg hskip, flatten_cons, ih, hdst, hsrc]
      simp only [hst, hstop]
      congr 1
      by_cases hcut : (dst - offset).toNat ≤ x.length
      · rw [Nat.sub_eq_zero_of_le hcut]
        simp
      · congr 1
        omega

theorem flatten_iovSubset (vector : List (List α)) {src dst : Nat} (h : src ≤ dst) :
    (iovSubset vector src dst).flatten = (vector.flatten.take dst).drop src := by
  rw [iovSubset, flatten_iovSubsetFrom (by omega)]
  simp

end GlusterFS.Iovec
