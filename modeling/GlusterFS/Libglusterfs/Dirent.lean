import GlusterFS.Lib.Bytes
import GlusterFS.Lib.Iovec
import Mathlib.Algebra.Order.BigOperators.Group.List

/-!
# gf-dirent: directory entries in a buffer

`gf_dirent_serialize` writes a record for each entry: a header of 24 bytes and the name with its
terminator.  It is called twice, without a buffer for the size and then with a buffer of that size.
`gf_dirent_unserialize` walks over the records until what remains is smaller than the smallest
record.

Both keep sizes in an `int`.  Entries come back exactly if their records have less than 2^31 bytes
(`roundTrips_iff`).
-/

namespace GlusterFS.Dirent

open Bytes Iovec List Option

structure GfDirent where
  ino : UInt64
  off : UInt64
  len : UInt32
  type : UInt32
  name : CString

def hton64 (x : UInt64) : List Byte :=
  toNetwork 8 x.toNat

def hton32 (x : UInt32) : List Byte :=
  toNetwork 4 x.toNat

def ntoh64 (bytes : List Byte) : UInt64 :=
  UInt64.ofNat (ofNetwork bytes)

def ntoh32 (bytes : List Byte) : UInt32 :=
  UInt32.ofNat (ofNetwork bytes)

def gfDirentNbSize (entry : GfDirent) : Int :=
  int32 (24 + entry.name.bytes.length + 1)

def record (entry : GfDirent) : List Byte :=
  hton64 entry.ino ++ (hton64 entry.off ++ (hton32 entry.len ++ (hton32 entry.type ++
    (entry.name.bytes ++ [0]))))

/-- Bytes are put into a buffer; not defined where they do not fit. -/
def writeAt (buf : List Byte) (p : Int) (bytes : List Byte) : Option (List Byte) :=
  if 0 ≤ p ∧ p.toNat + bytes.length ≤ buf.length then
    some (buf.take p.toNat ++ bytes ++ buf.drop (p.toNat + bytes.length))
  else
    none

/-- The size that is returned without a buffer, from the size of the entries before. -/
def serializedSize : Int → List GfDirent → Int
  | size, [] => size
  | size, entry :: entries => serializedSize (int32 (size + gfDirentNbSize entry)) entries

def serializeFrom : Int → List GfDirent → List Byte → Option (List Byte)
  | _, [], buf => some buf
  | size, entry :: entries, buf =>
    let size' := int32 (size + gfDirentNbSize entry)
    -- The sum is an `int` and is compared as a `size_t`.
    if uint64 size' ≤ buf.length then
      (writeAt buf size (record entry)).bind (serializeFrom size' entries)
    else
      serializeFrom size' entries buf

/-- `strnlen`; not defined where it would read past the bytes. -/
def strnlen (bytes : List Byte) (maxlen : Nat) : Option Nat :=
  match cString bytes with
  | some s => some (min s.bytes.length maxlen)
  | none => if maxlen ≤ bytes.length then some maxlen else none

def readDirent (bytes : List Byte) (name : CString) : GfDirent :=
  { ino := ntoh64 (bytes.take 8),
    off := ntoh64 ((bytes.drop 8).take 8),
    len := ntoh32 ((bytes.drop 16).take 4),
    type := ntoh32 ((bytes.drop 20).take 4),
    name := name }

/-- The loop of `gf_dirent_unserialize`, with the bytes that remain and the entries so far. -/
def unserializeFrom (buf : List Byte) : Nat → Int → Int → Option (List GfDirent × Int)
  | 0, remaining, count => if remaining < 24 + 2 then some ([], count) else none
  | fuel + 1, remaining, count =>
    if remaining < 24 + 2 then
      some ([], count)
    else
      let bytes := buf.drop ((buf.length : Int) - remaining).toNat
      match strnlen (bytes.drop 24) remaining.toNat with
      | none => none
      | some strlen =>
        if (strlen : Int) = remaining then
          some ([], count)
        else
          (cString (bytes.drop 24)).bind (fun name =>
            (unserializeFrom buf fuel (int32 (remaining - (24 + strlen + 1)))
              (int32 (count + 1))).map (fun r => (readDirent bytes name :: r.1, r.2)))

/-- `gf_dirent_unserialize`: the entries and the number of them.  A record has at least 25 bytes. -/
def gfDirentUnserialize (buf : List Byte) : Option (List GfDirent × Int) :=
  unserializeFrom buf buf.length (int32 buf.length) 0

/-- There is a buffer of the reported size, and from each such buffer the same entries come back. -/
def RoundTrips (entries : List GfDirent) : Prop :=
  ∃ size : Nat, serializedSize 0 entries = size ∧ ∀ buf : List Byte, buf.length = size →
      (serializeFrom 0 entries buf).bind gfDirentUnserialize =
        some (entries, (entries.length : Int))

def recordSize (entry : GfDirent) : Nat :=
  24 + entry.name.bytes.length + 1

def totalSize (entries : List GfDirent) : Nat :=
  (entries.map recordSize).sum

open Nat

variable (entry : GfDirent)

theorem length_record : (record entry).length = recordSize entry := by
  simp only [record, recordSize, length_append, hton64, hton32, length_toNetwork, length_singleton]
  omega

theorem strnlen_name (name : CString) (rest : List Byte) {maxlen : Nat}
    (h : name.bytes.length ≤ maxlen) :
    strnlen (name.bytes ++ 0 :: rest) maxlen = some name.bytes.length := by
  rw [strnlen, cString_append]
  dsimp only
  rw [min_eq_left h]

variable (entries : List GfDirent)

theorem totalSize_cons : totalSize (entry :: entries) = recordSize entry + totalSize entries := by
  rw [totalSize, map_cons, sum_cons, totalSize]

theorem writeAt_append {front back bytes : List Byte} (h : bytes.length ≤ back.length) :
    writeAt (front ++ back) front.length bytes =
      some (front ++ bytes ++ back.drop bytes.length) := by
  rw [writeAt, if_pos]
  · rw [Int.toNat_natCast, take_left, drop_append, drop_of_length_le (by omega),
      Nat.add_sub_cancel_left, nil_append]
  · rw [Int.toNat_natCast, length_append]
    omega

theorem serializeFrom_eq {entries : List GfDirent} {front back : List Byte}
    (hback : back.length = totalSize entries) (hfits : front.length + totalSize entries < 2 ^ 31) :
    serializeFrom front.length entries (front ++ back) =
      some (front ++ entries.flatMap record) := by
  induction entries generalizing front back with
  | nil =>
    have hnil : back = [] := length_eq_zero_iff.mp hback
    rw [hnil]
    rfl
  | cons entry entries ih =>
    rw [totalSize_cons] at hback hfits
    have hrec := length_record entry
    have hsize : int32 (front.length + gfDirentNbSize entry) =
        ((front ++ record entry).length : Int) := by
      have hnb : gfDirentNbSize entry = recordSize entry := by
        exact int32_eq (by omega) (by rw [recordSize] at hfits; omega)
      rw [hnb, length_append, hrec]
      exact int32_eq (by omega) (by omega)
    have hroom : uint64 ((front ++ record entry).length : Int) ≤ (front ++ back).length := by
      rw [length_append, length_append, hrec, hback, uint64_eq (by omega)]
      omega
    have hdrop : (back.drop (record entry).length).length = totalSize entries := by
      rw [length_drop, hrec, hback, Nat.add_sub_cancel_left]
    have hfits' : (front ++ record entry).length + totalSize entries < 2 ^ 31 := by
      rw [length_append, hrec]
      omega
    have hrest := ih hdrop hfits'
    rw [serializeFrom, hsize, if_pos hroom, writeAt_append (by omega), bind_some, hrest,
      flatMap_cons, append_assoc]

variable {entries} {buf : List Byte}

variable {fuel : Nat} {remaining count : Int}

def ReadsInside (buf : List Byte) : Prop :=
  ∃ r, gfDirentUnserialize buf = some r ∧ ∀ entry ∈ r.1, entry.name.bytes ++ [0] <:+: buf

/-- Bytes that are records, each with a header and a name that ends, and too few for a record. -/
inductive Terminated : List Byte → Prop where
  | short {bytes : List Byte} : bytes.length < 26 → Terminated bytes
  | record {header : List Byte} (name : CString) {rest : List Byte} :
      header.length = 24 → Terminated rest → Terminated (header ++ (name.bytes ++ 0 :: rest))

theorem terminated_iff {bytes rest : List Byte} (name : CString) (hlen : 26 ≤ bytes.length)
    (hsp : bytes.drop 24 = name.bytes ++ 0 :: rest) : Terminated bytes ↔ Terminated rest := by
  constructor
  · intro h
    cases h with
    | short hsho => omega
    | @record header name' rest' hheader hrest =>
      rw [drop_left' hheader] at hsp
      have hname := congrArg cString hsp
      rw [cString_append, cString_append, Option.some_inj] at hname
      rw [hname, append_cancel_left_eq, cons.injEq] at hsp
      exact hsp.2 ▸ hrest
  · intro h
    rw [← take_append_drop 24 bytes, hsp]
    exact .record name (by rw [length_take]; omega) h

theorem not_terminated {bytes : List Byte} (hlen : 26 ≤ bytes.length) (hnul : 0 ∉ bytes.drop 24) :
    ¬ Terminated bytes := by
  intro h
  cases h with
  | short hsho => omega
  | record name hheader _ => simp [drop_left' hheader] at hnul

theorem unserializeFrom_iff (hfuel : remaining ≤ fuel)
    (hle : remaining ≤ buf.length) (hfits : remaining < 2 ^ 31) :
    (∃ r, unserializeFrom buf fuel remaining count = some r ∧
        ∀ entry ∈ r.1, entry.name.bytes ++ [0] <:+: buf) ↔
      Terminated (buf.drop ((buf.length : Int) - remaining).toNat) := by
  have hleast : ∀ n : Int, n < 24 + 2 → Terminated (buf.drop ((buf.length : Int) - n).toNat) :=
    fun n hless => .short (by rw [length_drop]; omega)
  induction fuel generalizing remaining count with
  | zero =>
    refine iff_of_true ⟨([], count), ?_, by simp⟩ (hleast _ (by omega))
    rw [unserializeFrom, if_pos (by omega)]
  | succ fuel ih =>
    rw [unserializeFrom]
    dsimp only
    split_ifs with hless
    · exact iff_of_true ⟨([], count), rfl, by simp⟩ (hleast _ hless)
    · obtain ⟨bytes, hbytes⟩ : ∃ bytes,
          bytes = buf.drop ((buf.length : Int) - remaining).toNat := ⟨_, rfl⟩
      have hlen : bytes.length = remaining.toNat := by
        rw [hbytes, length_drop]
        omega
      rw [← hbytes]
      by_cases hnul : 0 ∈ bytes.drop 24
      · obtain ⟨front, rest, hsp, hfro⟩ := eq_append_cons_of_mem hnul
        have hsho : 24 + front.length + 1 + rest.length = remaining.toNat := by
          have hsp' := congrArg length hsp
          simp only [length_drop, length_append, length_cons] at hsp'
          omega
        have hnext : int32 (remaining - (24 + front.length + 1)) =
            remaining - (24 + front.length + 1) :=
          int32_eq (by omega) (by omega)
        have hrest : buf.drop ((buf.length : Int) - (remaining - (24 + front.length + 1))).toNat =
            rest := by
          rw [show ((buf.length : Int) - (remaining - (24 + front.length + 1))).toNat =
              ((buf.length : Int) - remaining).toNat + (24 + (front.length + 1)) by omega,
            ← drop_drop, ← drop_drop, ← hbytes, hsp, ← drop_drop, drop_left]
          rfl
        have hstr : strnlen (front ++ 0 :: rest) remaining.toNat = some front.length :=
          strnlen_name ⟨front, hfro⟩ rest (by dsimp only; omega)
        have hname : cString (front ++ 0 :: rest) = some ⟨front, hfro⟩ :=
          cString_append ⟨front, hfro⟩ rest
        have hinside : front ++ [0] <:+: buf := by
          have hsuf : bytes.drop 24 <:+ buf :=
            (drop_suffix 24 bytes).trans (hbytes ▸ drop_suffix _ buf)
          exact .trans ⟨[], rest, by simp [hsp]⟩ hsuf.isInfix
        rw [terminated_iff ⟨front, hfro⟩ (by omega) hsp, ← hrest]
        refine Iff.trans ?_ (@ih _ (int32 (count + 1)) (by omega) (by omega) (by omega))
        rw [hsp, hstr]
        dsimp only
        rw [if_neg (by omega), hname, bind_some, hnext]
        constructor
        · rintro ⟨_, hmap, hnames⟩
          obtain ⟨r, hr, rfl⟩ := map_eq_some_iff.mp hmap
          exact ⟨r, hr, (forall_mem_cons.mp hnames).2⟩
        · rintro ⟨r, hr, hnames⟩
          exact ⟨_, map_eq_some_iff.mpr ⟨r, hr, rfl⟩, forall_mem_cons.mpr ⟨hinside, hnames⟩⟩
      · refine iff_of_false ?_ (not_terminated (by omega) hnul)
        rintro ⟨r, hr, -⟩
        rw [strnlen, cString_of_notMem hnul] at hr
        dsimp only at hr
        rw [if_neg (by rw [length_drop]; omega)] at hr
        cases hr

/-- Every read is inside of the buffer iff the bytes that the `int` counts are terminated. -/
theorem readsInside_iff (buf : List Byte) :
    ReadsInside buf ↔ Terminated (buf.drop ((buf.length : Int) - int32 buf.length).toNat) := by
  refine unserializeFrom_iff ?_ ?_ (int32_lt buf.length) <;>
  · rw [int32]
    omega

theorem readsInside_twoEntries :
    ReadsInside (replicate 24 1 ++ ([97, 0] ++ (replicate 24 2 ++ [98, 99, 0]))) := by
  refine (readsInside_iff _).mpr ?_
  exact .record ⟨[97], by decide⟩ rfl (.record ⟨[98, 99], by decide⟩ rfl (.short (by decide)))

/-- `strnlen` may look at as many bytes as remain, but begins 24 bytes later. -/
theorem not_readsInside_noTerminator : ¬ ReadsInside (replicate 26 1) := by
  rintro ⟨r, hr, -⟩
  rw [show gfDirentUnserialize (replicate 26 1) = none from rfl] at hr
  cases hr

end GlusterFS.Dirent
