import Mathlib.Data.Nat.Bitwise
import GlusterFS.Lib.Bytes

/-!
# The byte order of the wire

The pointers `hton16`, `hton32` and `hton64` first hold functions that look at the order of the
bytes in memory and set all three.  `ntoh` is `hton`.
-/

namespace GlusterFS.ByteOrder

open Bytes List Nat

inductive Host
  | little
  | big

/-- A number of `size` bytes in memory. -/
def Host.memory : Host → Nat → Nat → List Byte
  | .little, size, n => (toNetwork size n).reverse
  | .big, size, n => toNetwork size n

variable {w : Nat}

def doSwap2 (x : BitVec w) : BitVec w :=
  ((x &&& 0x00ff) <<< 8) ||| ((x &&& 0xff00) >>> 8)

def doSwap4 (x : BitVec w) : BitVec w :=
  (doSwap2 (x &&& 0x0000ffff) <<< 16) ||| doSwap2 ((x &&& 0xffff0000) >>> 16)

def doSwap8 (x : BitVec w) : BitVec w :=
  (doSwap4 (x &&& 0x00000000ffffffff) <<< 32) ||| doSwap4 ((x &&& 0xffffffff00000000) >>> 32)

inductive Width
  | w16
  | w32
  | w64

def Width.bytes : Width → Nat
  | .w16 => 2
  | .w32 => 4
  | .w64 => 8

abbrev Word (k : Width) := BitVec (8 * k.bytes)

abbrev Pointers := (k : Width) → Word k → Word k

/-- 16 bits are promoted to 32. -/
def swap : Pointers
  | .w16, x => (doSwap2 (x.setWidth 32)).setWidth 16
  | .w32, x => doSwap4 x
  | .w64, x => doSwap8 x

def noswap : Pointers
  | .w16, x => (doSwap2 (x.setWidth 32)).setWidth 16
  | .w32, x => doSwap4 x
  | .w64, x => doSwap8 x

def byteOrderInit (host : Host) : Pointers :=
  if (host.memory 4 1).head? = some 1 then swap else noswap

/-- A call through the pointers, which are `none` before the first. -/
def hton (host : Host) (s : Option Pointers) (k : Width) (x : Word k) : Pointers × Word k :=
  let p := s.getD (byteOrderInit host)
  (p, p k x)

/-- The pointers after some calls. -/
def after (host : Host) (calls : List (Sigma Word)) : Option Pointers :=
  calls.foldl (fun s call => some (hton host s call.1 call.2).1) none

/-- `f` reverses the bytes of a number of `k` bytes. -/
def Reverses (k : Nat) (f : BitVec w → BitVec w) : Prop :=
  ∀ x, x.toNat < 256 ^ k →
    (f x).toNat < 256 ^ k ∧ toNetwork k (f x).toNat = (toNetwork k x.toNat).reverse

variable {k : Nat} {f : BitVec w → BitVec w}

theorem reverses_id : Reverses 1 (id : BitVec w → BitVec w) :=
  fun _ hx => ⟨hx, rfl⟩

/-- A swap of halves, each of them reversed, with the masks of the two halves. -/
theorem Reverses.double (hf : Reverses k f) (hw : 8 * k + 8 * k ≤ w) :
    Reverses (k + k) (fun x => (f (x &&& BitVec.ofNat w (2 ^ (8 * k) - 1)) <<< (8 * k)) |||
      f ((x &&& BitVec.ofNat w ((2 ^ (8 * k) - 1) <<< (8 * k))) >>> (8 * k))) := by
  intro x hx
  have hpow : 2 ^ (8 * k) = 256 ^ k := pow_mul 2 8 k
  have hpos : 0 < 256 ^ k := Nat.pow_pos (by decide)
  have hfit : ∀ n < 256 ^ k, n <<< (8 * k) < 2 ^ w := by
    intro n hn
    rw [shiftLeft_eq, hpow]
    refine (mul_lt_mul_of_pos_right hn hpos).trans_le ?_
    rw [← hpow, ← pow_add]
    exact Nat.pow_le_pow_right (by decide) hw
  have hmask : 2 ^ (8 * k) - 1 < 256 ^ k := by omega
  have hdiv : x.toNat / 256 ^ k < 256 ^ k := Nat.div_lt_of_lt_mul (pow_add 256 k k ▸ hx)
  have hlow : (x &&& BitVec.ofNat w (2 ^ (8 * k) - 1)).toNat = x.toNat % 256 ^ k := by
    rw [BitVec.toNat_and, BitVec.toNat_ofNat, mod_eq_of_lt (le_shiftLeft.trans_lt (hfit _ hmask)),
      and_two_pow_sub_one_eq_mod, hpow]
  have hhigh : ((x &&& BitVec.ofNat w ((2 ^ (8 * k) - 1) <<< (8 * k))) >>> (8 * k)).toNat =
      x.toNat / 256 ^ k := by
    rw [BitVec.toNat_ushiftRight, BitVec.toNat_and, BitVec.toNat_ofNat,
      mod_eq_of_lt (hfit _ hmask), shiftRight_and_distrib, shiftLeft_shiftRight,
      and_two_pow_sub_one_eq_mod, shiftRight_eq_div_pow, hpow, mod_eq_of_lt hdiv]
  obtain ⟨hlt, hrev⟩ := hf _ (hlow.trans_lt (mod_lt _ hpos))
  obtain ⟨hlt', hrev'⟩ := hf _ (hhigh.trans_lt hdiv)
  have hbytes := toNetwork_append k k (x.toNat / 256 ^ k) (mod_lt x.toNat hpos)
  rw [div_add_mod] at hbytes
  rw [hbytes, reverse_append, ← hlow, ← hhigh, ← hrev, ← hrev', BitVec.toNat_or,
    BitVec.toNat_shiftLeft, mod_eq_of_lt (hfit _ hlt),
    ← shiftLeft_add_eq_or_of_lt (hlt'.trans_eq hpow.symm), shiftLeft_eq, mul_comm]
  rw [hpow] at *
  refine ⟨?_, toNetwork_append k k _ hlt'⟩
  rw [pow_add]
  exact (Nat.add_lt_add_left hlt' _).trans_le (Nat.mul_le_mul_left _ hlt)

theorem Reverses.involutive (hf : Reverses k f) (hw : 2 ^ w ≤ 256 ^ k) (x : BitVec w) :
    f (f x) = x := by
  obtain ⟨hlt, hrev⟩ := hf x (x.isLt.trans_le hw)
  obtain ⟨hlt', hrev'⟩ := hf (f x) hlt
  rw [hrev, reverse_reverse] at hrev'
  have hval := congrArg ofNetwork hrev'
  rw [ofNetwork_toNetwork, ofNetwork_toNetwork, mod_eq_of_lt hlt',
    mod_eq_of_lt (x.isLt.trans_le hw)] at hval
  exact BitVec.eq_of_toNat_eq hval

theorem reverses_doSwap2 (hw : 16 ≤ w) : Reverses 2 (doSwap2 (w := w)) :=
  reverses_id.double hw

theorem reverses_doSwap4 (hw : 32 ≤ w) : Reverses 4 (doSwap4 (w := w)) :=
  (reverses_doSwap2 (by omega)).double hw

theorem reverses_doSwap8 (hw : 64 ≤ w) : Reverses 8 (doSwap8 (w := w)) :=
  (reverses_doSwap4 (by omega)).double hw

theorem reverses_swap (k : Width) : Reverses k.bytes (swap k) := by
  cases k with
  | w16 =>
    intro x hx
    have hwide : (x.setWidth 32).toNat = x.toNat := BitVec.toNat_setWidth_of_le (by decide)
    obtain ⟨hlt, hrev⟩ := reverses_doSwap2 (by decide) (x.setWidth 32) (hwide.trans_lt hx)
    have hnarrow : (swap .w16 x).toNat = (doSwap2 (x.setWidth 32)).toNat := mod_eq_of_lt hlt
    rw [hwide] at hrev
    rw [hnarrow]
    exact ⟨hlt, hrev⟩
  | w32 => exact reverses_doSwap4 (by decide)
  | w64 => exact reverses_doSwap8 (by decide)

/-- Both ways the pointers swap, as `noswap` does what `swap` does. -/
theorem byteOrderInit_eq (host : Host) : byteOrderInit host = swap := by
  have hswap : noswap = swap := by
    funext k x
    cases k <;> rfl
  rw [byteOrderInit, hswap, ite_self]

theorem after_getD (host : Host) (calls : List (Sigma Word)) :
    (after host calls).getD (byteOrderInit host) = swap := by
  rw [after, ← foldr_reverse]
  induction calls.reverse with
  | nil => exact byteOrderInit_eq host
  | cons call calls ih => exact ih

/-- After some calls `hton` gives `x` in network byte order, and `ntoh` gives it back. -/
def InOrder (host : Host) (calls : List (Sigma Word)) (k : Width) (x : Word k) : Prop :=
  let net := hton host (after host calls) k x
  host.memory k.bytes net.2.toNat = toNetwork k.bytes x.toNat ∧
    (hton host (some net.1) k net.2).2 = x

/-- `x` is in order on a little-endian host, and on another if its bytes are the same backwards. -/
theorem inOrder_iff (host : Host) (calls : List (Sigma Word)) (k : Width) (x : Word k) :
    InOrder host calls k x ↔
      host = .little ∨ (toNetwork k.bytes x.toNat).reverse = toNetwork k.bytes x.toNat := by
  have hhton : hton host (after host calls) k x = (swap, swap k x) := by
    rw [hton, after_getD]
  have hfits : 2 ^ (8 * k.bytes) ≤ 256 ^ k.bytes := (pow_mul 2 8 k.bytes).le
  have hrev := (reverses_swap k x (x.isLt.trans_le hfits)).2
  have hback : (hton host (some swap) k (swap k x)).2 = x :=
    (reverses_swap k).involutive hfits x
  rw [InOrder, hhton]
  cases host with
  | little | big => simp [Host.memory, hrev, hback]

theorem not_inOrder_big : ¬ InOrder .big [] .w16 0x0102 :=
  fun h => absurd h.1 (by decide)

end GlusterFS.ByteOrder
