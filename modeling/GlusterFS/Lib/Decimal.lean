import Mathlib.Data.Nat.Digits.Lemmas
import GlusterFS.Lib.Bytes

/-!
# Numbers as text

`decimal` prints a number as `printf` does.  `strtoll` and `strtoull` read one in the base that the
text itself shows: spaces, a sign, and `0x` or `0` in front of the digits are looked for first.  A
number that is out of range gives the nearest one and an error.
-/

namespace GlusterFS.Decimal

open Bytes List Nat

def ERANGE : Nat := 34

def minus : Byte := 45

def zeroDigit : Byte := 48

def digitByte (d : Nat) : Byte :=
  UInt8.ofNat (48 + d)

def decimalNat (n : Nat) : List Byte :=
  if n = 0 then [zeroDigit] else (Nat.digits 10 n).reverse.map digitByte

def decimal (x : Int) : List Byte :=
  if x < 0 then minus :: decimalNat x.natAbs else decimalNat x.natAbs

def isSpace (b : Byte) : Bool :=
  b = 32 || (9 ≤ b && b ≤ 13)

/-- The value of a digit or a letter; that of another byte is too large for every base. -/
def digitValue (b : Byte) : Nat :=
  if 48 ≤ b ∧ b ≤ 57 then b.toNat - 48
  else if 97 ≤ b ∧ b ≤ 122 then b.toNat - 87
  else if 65 ≤ b ∧ b ≤ 90 then b.toNat - 55
  else 36

def readDigits (base : Nat) : Nat → List Byte → Nat
  | n, [] => n
  | n, b :: rest =>
    if digitValue b < base then readDigits base (base * n + digitValue b) rest else n

def magnitude (text : List Byte) : Nat :=
  if text.head? = some zeroDigit then
    if text[1]? = some 120 ∨ text[1]? = some 88 then
      readDigits 16 0 (text.drop 2)
    else
      readDigits 8 0 text
  else
    readDigits 10 0 text

def signAndMagnitude (text : List Byte) : Bool × Nat :=
  let text := text.dropWhile isSpace
  let signed := text.head? = some minus ∨ text.head? = some 43
  (decide (text.head? = some minus), magnitude (if signed then text.drop 1 else text))

def strtoll (text : List Byte) : Int × Nat :=
  let (negative, n) := signAndMagnitude text
  let x : Int := if negative then -n else n
  if x < -2 ^ 63 then (-2 ^ 63, ERANGE)
  else if 2 ^ 63 ≤ x then (2 ^ 63 - 1, ERANGE)
  else (x, 0)

/-- A minus sign is applied in the arithmetic of `unsigned long long`. -/
def strtoull (text : List Byte) : Int × Nat :=
  let (negative, n) := signAndMagnitude text
  if 2 ^ 64 ≤ n then (2 ^ 64 - 1, ERANGE)
  else if negative then (-n % 2 ^ 64, 0)
  else (n, 0)

theorem digitByte_spec : ∀ d < 10, digitValue (digitByte d) = d ∧ isSpace (digitByte d) = false ∧
    digitByte d ≠ minus ∧ digitByte d ≠ 43 ∧ (digitByte d = zeroDigit → d = 0) := by
  decide

theorem readDigits_digits (ds : List Nat) (hds : ∀ d ∈ ds, d < 10) (n : Nat) (rest : List Byte) :
    readDigits 10 n (ds.map digitByte ++ 0 :: rest) = ds.foldl (fun n d => d + 10 * n) n := by
  induction ds generalizing n with
  | nil => rfl
  | cons d ds ih =>
    obtain ⟨hd, hds⟩ := forall_mem_cons.mp hds
    rw [map_cons, cons_append, readDigits, (digitByte_spec d hd).1, if_pos hd, ih hds,
      foldl_cons, add_comm]

theorem decimalNat_eq (n : Nat) :
    ∃ d ds, decimalNat n = (d :: ds).map digitByte ∧ (∀ d' ∈ d :: ds, d' < 10) ∧
      (d :: ds).foldl (fun n d => d + 10 * n) 0 = n ∧ (d = 0 → ds = []) := by
  by_cases hn : n = 0
  · exact ⟨0, [], by rw [decimalNat, if_pos hn]; rfl, by simp, by simp [hn], fun _ => rfl⟩
  · have hlast := getLast_digit_ne_zero 10 hn
    cases hdig : (digits 10 n).reverse with
    | nil =>
      exact absurd (digits_eq_nil_iff_eq_zero.mp (reverse_eq_nil_iff.mp hdig)) hn
    | cons d ds =>
      have hrev : digits 10 n = ds.reverse ++ [d] := by
        rw [← reverse_reverse (digits 10 n), hdig, reverse_cons]
      refine ⟨d, ds, by rw [decimalNat, if_neg hn, hdig], ?_, ?_, ?_⟩
      · rw [← hdig]
        exact fun d' hd' => digits_lt_base (by decide) (mem_reverse.mp hd')
      · rw [← hdig, foldl_reverse]
        exact (ofDigits_eq_foldr 10 _).symm.trans (ofDigits_digits 10 n)
      · intro hd
        simp [hrev, hd] at hlast

theorem magnitude_decimalNat (n : Nat) (rest : List Byte) :
    magnitude (decimalNat n ++ 0 :: rest) = n := by
  obtain ⟨d, ds, htext, hlt, hval, hzero⟩ := decimalNat_eq n
  have hd := digitByte_spec d (hlt d mem_cons_self)
  by_cases hd0 : d = 0
  · obtain rfl := hzero hd0
    have hn : n = 0 := by simpa [hd0] using hval.symm
    rw [htext, hn, hd0]
    rfl
  · have hhead : ((d :: ds).map digitByte ++ 0 :: rest).head? ≠ some zeroDigit := by
      intro h
      exact hd0 (hd.2.2.2.2 (Option.some.inj h))
    rw [htext, magnitude, if_neg hhead, readDigits_digits _ hlt, hval]

theorem signAndMagnitude_decimal (x : Int) (rest : List Byte) :
    signAndMagnitude (decimal x ++ 0 :: rest) = (decide (x < 0), x.natAbs) := by
  rw [decimal]
  split_ifs with hx
  · have hskip : (minus :: (decimalNat x.natAbs ++ 0 :: rest)).dropWhile isSpace =
        minus :: (decimalNat x.natAbs ++ 0 :: rest) := rfl
    rw [signAndMagnitude, cons_append, hskip]
    simp [hx, magnitude_decimalNat]
  · obtain ⟨d, ds, htext, hlt, -, -⟩ := decimalNat_eq x.natAbs
    obtain ⟨-, hspace, hminus, hplus, -⟩ := digitByte_spec d (hlt d mem_cons_self)
    have hskip : (decimalNat x.natAbs ++ 0 :: rest).dropWhile isSpace =
        decimalNat x.natAbs ++ 0 :: rest := by
      rw [htext, map_cons, cons_append, dropWhile_cons_of_neg (by simp [hspace])]
    have hhead : (decimalNat x.natAbs ++ 0 :: rest).head? = some (digitByte d) := by
      rw [htext]
      rfl
    rw [signAndMagnitude, hskip]
    simp only [hhead, Option.some.injEq, hminus, hplus, or_self, decide_false, if_false,
      magnitude_decimalNat, hx]

variable {x : Int}

theorem signed_natAbs (x : Int) :
    (if decide (x < 0) = true then -(x.natAbs : Int) else x.natAbs) = x := by
  by_cases hx : x < 0
  · rw [if_pos (decide_eq_true hx)]
    omega
  · rw [if_neg (by simpa using hx)]
    omega

theorem strtoll_decimal (hlow : -2 ^ 63 ≤ x) (hhigh : x < 2 ^ 63) (rest : List Byte) :
    strtoll (decimal x ++ 0 :: rest) = (x, 0) := by
  rw [strtoll, signAndMagnitude_decimal]
  dsimp only
  rw [signed_natAbs, if_neg (by omega), if_neg (by omega)]

theorem strtoull_decimal (hlow : -2 ^ 63 ≤ x) (hhigh : x < 2 ^ 64) (rest : List Byte) :
    strtoull (decimal x ++ 0 :: rest) = (x % 2 ^ 64, 0) := by
  rw [strtoull, signAndMagnitude_decimal]
  dsimp only
  rw [if_neg (by omega)]
  by_cases hx : x < 0
  · rw [if_pos (by simpa using hx)]
    congr 2
    omega
  · rw [if_neg (by simpa using hx)]
    congr 1
    omega

theorem strtoll_decimal_of_le (h : 2 ^ 63 ≤ x) (rest : List Byte) :
    strtoll (decimal x ++ 0 :: rest) = (2 ^ 63 - 1, ERANGE) := by
  rw [strtoll, signAndMagnitude_decimal]
  dsimp only
  rw [signed_natAbs, if_neg (by omega), if_pos h]

end GlusterFS.Decimal
