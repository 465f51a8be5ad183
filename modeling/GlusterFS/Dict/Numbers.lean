import GlusterFS.Dict.Map
import GlusterFS.Lib.Decimal

/-!
# dict: numbers as values

A number is put into a dictionary as its decimal text, and each type has two functions that read it
back: `data_to_<type>`, and the one behind `dict_get_<type>` that also reports an error.  They use
the functions of the C library that a number of the type fits into, with one exception: for
`uint64_t`, `data_to_uint64` takes `strtoll`.  `long` has 64 bits here.
-/

namespace GlusterFS.Dict

open Bytes Decimal Run List

def ENOENT : Nat := 2

structure IntType where
  width : Nat
  signed : Bool
deriving DecidableEq

def IntType.low (t : IntType) : Int :=
  if t.signed then -2 ^ (t.width - 1) else 0

def IntType.Has (t : IntType) (x : Int) : Prop :=
  t.low ≤ x ∧ x < t.low + 2 ^ t.width
deriving Decidable

def IntType.store (t : IntType) (x : Int) : Int :=
  (x - t.low) % 2 ^ t.width + t.low

/-- The text with its terminator, which `len` counts. -/
def dataFrom (x : Int) : List Byte :=
  decimal x ++ [0]

/-- A function that reads a number, by its type and the function of the C library. -/
structure Reader where
  type : IntType
  strto : List Byte → Int × Nat

def strtol : List Byte → Int × Nat :=
  strtoll

def strtoul : List Byte → Int × Nat :=
  strtoull

def dataToInt8 : Reader := ⟨⟨8, true⟩, strtol⟩
def dataToInt16 : Reader := ⟨⟨16, true⟩, strtol⟩
def dataToInt32 : Reader := ⟨⟨32, true⟩, strtoul⟩
def dataToInt64 : Reader := ⟨⟨64, true⟩, strtoull⟩
def dataToUint16 : Reader := ⟨⟨16, false⟩, strtol⟩
def dataToUint32 : Reader := ⟨⟨32, false⟩, strtol⟩
def dataToUint64 : Reader := ⟨⟨64, false⟩, strtoll⟩

def dictGetInt8 : Reader := ⟨⟨8, true⟩, strtol⟩
def dictGetInt16 : Reader := ⟨⟨16, true⟩, strtol⟩
def dictGetInt32 : Reader := ⟨⟨32, true⟩, strtol⟩
def dictGetInt64 : Reader := ⟨⟨64, true⟩, strtoll⟩
def dictGetUint16 : Reader := ⟨⟨16, false⟩, strtoul⟩
def dictGetUint32 : Reader := ⟨⟨32, false⟩, strtoul⟩
def dictGetUint64 : Reader := ⟨⟨64, false⟩, strtoull⟩

def Reader.read (r : Reader) (data : List Byte) : Int :=
  r.type.store (r.strto (data ++ [0])).1

def dictGetNumber (r : Reader) (d : DictT (List Byte)) (key : CString) :
    Option (Int × Option Int) :=
  (d.dictGet key).map (fun found =>
    match found with
    | none => (-ENOENT, none)
    | some data => (-(r.strto (data ++ [0])).2, some (r.read data)))

/-- The types, each with its two readers. -/
inductive Kind where
  | int8 | int16 | int32 | int64 | uint16 | uint32 | uint64
deriving DecidableEq

def Kind.dataTo : Kind → Reader
  | .int8 => dataToInt8
  | .int16 => dataToInt16
  | .int32 => dataToInt32
  | .int64 => dataToInt64
  | .uint16 => dataToUint16
  | .uint32 => dataToUint32
  | .uint64 => dataToUint64

def Kind.dictGet : Kind → Reader
  | .int8 => dictGetInt8
  | .int16 => dictGetInt16
  | .int32 => dictGetInt32
  | .int64 => dictGetInt64
  | .uint16 => dictGetUint16
  | .uint32 => dictGetUint32
  | .uint64 => dictGetUint64

/-- A number that is set in a dictionary, after anything that can be set there, is returned. -/
def Stored (r : Reader) (x : Int) : Prop :=
  ∀ (hashSize : Nat) (events : List (Event (List Byte))) (key : CString), 0 < hashSize →
    AllSteps step CanSet (getNewDictFull hashSize) (events ++ [.set key (dataFrom x)]) →
    ∃ d, run step (getNewDictFull hashSize) (events ++ [.set key (dataFrom x)]) = some d ∧
      dictGetNumber r d key = some (0, some x)

def Kind.Survives (k : Kind) (x : Int) : Prop :=
  k.dataTo.read (dataFrom x) = x ∧ Stored k.dictGet x

variable {t : IntType} {x : Int} {r : Reader} {k : Kind}

theorem IntType.store_eq (h : t.Has x) : t.store x = x := by
  rw [store, Int.emod_eq_of_lt (by have := h.1; omega) (by have := h.2; omega)]
  omega

theorem IntType.store_emod (hwidth : t.width ≤ 64) (x : Int) :
    t.store (x % 2 ^ 64) = t.store x := by
  have hdvd : (2 : Int) ^ t.width ∣ 2 ^ 64 := pow_dvd_pow 2 hwidth
  rw [store, store, Int.sub_emod, Int.emod_emod_of_dvd x hdvd, ← Int.sub_emod]

/-- The function of the C library returns the number, up to the width of a `long`. -/
def Reader.Parses (r : Reader) (x : Int) : Prop :=
  r.strto (dataFrom x ++ [0]) = (x, 0) ∨ r.strto (dataFrom x ++ [0]) = (x % 2 ^ 64, 0)

theorem parses_of_strtoll (hr : r.strto = strtoll) (hlow : -2 ^ 63 ≤ x) (hhigh : x < 2 ^ 63) :
    r.Parses x := by
  left
  rw [hr, dataFrom, append_assoc]
  exact strtoll_decimal hlow hhigh [0]

theorem parses_of_strtoull (hr : r.strto = strtoull) (hlow : -2 ^ 63 ≤ x) (hhigh : x < 2 ^ 64) :
    r.Parses x := by
  right
  rw [hr, dataFrom, append_assoc]
  exact strtoull_decimal hlow hhigh [0]

theorem Reader.Parses.read_eq (h : r.Parses x) (hwidth : r.type.width ≤ 64) (hx : r.type.Has x) :
    r.read (dataFrom x) = x := by
  rw [Reader.read]
  rcases h with h | h <;> rw [h]
  · exact IntType.store_eq hx
  · exact (IntType.store_emod hwidth x).trans (IntType.store_eq hx)

theorem Reader.Parses.stored (h : r.Parses x) (hwidth : r.type.width ≤ 64) (hx : r.type.Has x) :
    Stored r x := by
  intro hashSize events key hpos hall
  obtain ⟨d, hrun, members, chains, hd⟩ := exists_represents hpos hall
  refine ⟨d, hrun, ?_⟩
  have hset : lastSet (events ++ [.set key (dataFrom x)]) key = some (dataFrom x) := by
    rw [lastSet, foldl_append]
    exact Function.update_self _ _ _
  have herrno : (r.strto (dataFrom x ++ [0])).2 = 0 := by
    rcases h with h | h <;> rw [h]
  rw [dictGetNumber, hd.dictGet_eq, hset]
  simp only [Option.map_some, herrno, h.read_eq hwidth hx]
  rfl

theorem Kind.parses_dictGet (hx : k.dictGet.type.Has x) : k.dictGet.Parses x := by
  cases k with
  | int8 | int16 | int32 | int64 =>
    norm_num [dictGet, dictGetInt8, dictGetInt16, dictGetInt32, dictGetInt64, IntType.Has,
      IntType.low] at hx
    exact parses_of_strtoll rfl (by omega) (by omega)
  | uint16 | uint32 | uint64 =>
    norm_num [dictGet, dictGetUint16, dictGetUint32, dictGetUint64, IntType.Has, IntType.low] at hx
    exact parses_of_strtoull rfl (by omega) (by omega)

theorem Kind.parses_dataTo (hx : k.dictGet.type.Has x) (h : ¬ (k = .uint64 ∧ 2 ^ 63 ≤ x)) :
    k.dataTo.Parses x := by
  cases k with
  | int8 | int16 | uint16 | uint32 | uint64 =>
    norm_num [dictGet, dictGetInt8, dictGetInt16, dictGetUint16, dictGetUint32, dictGetUint64,
      IntType.Has, IntType.low] at hx h
    exact parses_of_strtoll rfl (by omega) (by omega)
  | int32 | int64 =>
    norm_num [dictGet, dictGetInt32, dictGetInt64, IntType.Has, IntType.low] at hx
    exact parses_of_strtoull rfl (by omega) (by omega)

theorem Kind.dataTo_type (k : Kind) :
    k.dataTo.type = k.dictGet.type ∧ k.dictGet.type.width ≤ 64 := by
  cases k <;> decide

theorem read_dataToUint64 (h : 2 ^ 63 ≤ x) : dataToUint64.read (dataFrom x) = 2 ^ 63 - 1 := by
  have hcut : dataToUint64.strto (dataFrom x ++ [0]) = (2 ^ 63 - 1, ERANGE) := by
    rw [dataFrom, append_assoc]
    exact strtoll_decimal_of_le h [0]
  rw [Reader.read, hcut]
  decide

/-- All numbers survive but those of `uint64_t` from 2^63 on, which `data_to_uint64` cuts down. -/
theorem number_survives_iff (hx : k.dictGet.type.Has x) :
    k.Survives x ↔ ¬ (k = .uint64 ∧ 2 ^ 63 ≤ x) := by
  obtain ⟨htype, hwidth⟩ := k.dataTo_type
  constructor
  · rintro ⟨hread, -⟩ ⟨rfl, hlarge⟩
    have hcut : x = 2 ^ 63 - 1 := hread.symm.trans (read_dataToUint64 hlarge)
    omega
  · intro h
    exact ⟨(Kind.parses_dataTo hx h).read_eq (htype ▸ hwidth) (htype ▸ hx),
      (Kind.parses_dictGet hx).stored hwidth hx⟩

theorem survives_negative : Kind.int32.Survives (-5) :=
  (number_survives_iff (by decide)).mpr (by decide)

/-- `strtoll` returns 2^63 - 1 for 2^63. -/
theorem not_survives_uint64 :
    Kind.uint64.dictGet.type.Has (2 ^ 63) ∧ ¬ Kind.uint64.Survives (2 ^ 63) ∧
      Kind.uint64.dataTo.read (dataFrom (2 ^ 63)) = 2 ^ 63 - 1 := by
  have hread := read_dataToUint64 (le_refl (2 ^ 63))
  refine ⟨by decide, ?_, hread⟩
  rintro ⟨hsame, -⟩
  exact absurd (hread.symm.trans hsame) (by decide)

end GlusterFS.Dict
