import GlusterFS.Dict.Map

/-!
# dict_unserialize: a walk over bytes from the network

A dictionary on the wire is a number of pairs and then the pairs.  Each is the length of its key,
the length of its value, the key with a terminator, and the value, with all numbers in network byte
order.  `dict_unserialize` walks over them with a cursor that the lengths move, and hands each key
to `dict_set`, which reads it up to its terminator.

Every size check is of an end against the end of the buffer, and the lengths are signed.  What no
check sees is a key that is not terminated, and a length that is negative.  The walk is safe exactly
if neither does harm (`safe_iff_contained`).
-/

namespace GlusterFS.Dict

open Bytes Iovec Linked Run List

section

/-- A buffer with its size; no bytes where the size is negative. -/
structure Buffer where
  bytes : List Byte
  size : Int
  length_eq : bytes.length = size.toNat
  fits : size < 2 ^ 31

/-- A `data_t` that points into the buffer. -/
structure Slice where
  start : Int
  len : Int
deriving DecidableEq

/-- What one round hands to `dict_set`: where the key is, the string there, and the value. -/
structure Entry where
  key : Int
  text : CString
  value : Slice
deriving DecidableEq

/-- How the walk ends; `outside` is a read of a byte that is not in the buffer. -/
inductive Parsed where
  | outside
  | refused
  | failed (entries : List Entry)
  | done (entries : List Entry)
deriving DecidableEq

def Parsed.cons (entry : Entry) : Parsed → Parsed
  | .outside => .outside
  | .refused => .refused
  | .failed entries => .failed (entry :: entries)
  | .done entries => .done (entry :: entries)

variable (b : Buffer)

def Buffer.int32At (p : Int) : Int :=
  int32 (ofNetwork ((b.bytes.drop p.toNat).take 4))

def Buffer.read32 (p : Int) : Option Int :=
  if 0 ≤ p ∧ p + 4 ≤ b.size then some (b.int32At p) else none

def Buffer.readString (p : Int) : Option CString :=
  if 0 ≤ p then cString (b.bytes.drop p.toNat) else none

/-- The loop of `dict_unserialize`, with the number of rounds left and the cursor. -/
def Buffer.unserializeFrom : Nat → Int → Parsed
  | 0, _ => .done []
  | n + 1, buf =>
    if b.size < buf + 4 then
      .failed []
    else
      match b.read32 buf with
      | none => .outside
      | some keylen =>
        if b.size < buf + 4 + 4 then
          .failed []
        else
          match b.read32 (buf + 4) with
          | none => .outside
          | some vallen =>
            if b.size < buf + 8 + keylen then
              .failed []
            else if b.size < buf + 8 + (keylen + 1) + vallen then
              .failed []
            else
              -- The key is read by `dict_set`.
              match b.readString (buf + 8) with
              | none => .outside
              | some text =>
                (Buffer.unserializeFrom n (buf + 8 + (keylen + 1) + vallen)).cons
                  ⟨buf + 8, text, ⟨buf + 8 + (keylen + 1), vallen⟩⟩

def Buffer.unserialize : Parsed :=
  if b.size = 0 then
    .refused
  else if b.size < 4 then
    .refused
  else
    match b.read32 0 with
    | none => .outside
    | some count => if count < 0 then .refused else b.unserializeFrom count.toNat 4

def setAll (fill : DictT Slice) (entries : List Entry) : Option (DictT Slice) :=
  run step fill (entries.map (fun entry => .set entry.text entry.value))

/--
The return value and the dictionary.  `dict_set` does not touch the buffer, so the pairs are set
after the walk.
-/
def dictUnserialize (fill : DictT Slice) : Option (Int × DictT Slice) :=
  match b.unserialize with
  | .outside => none
  | .refused => some (-1, fill)
  | .failed entries => (setAll { fill with count := 0 } entries).map (fun d => (-1, d))
  | .done entries => (setAll { fill with count := 0 } entries).map (fun d => (0, d))

end

section

variable (b : Buffer)

/-- The stored key has its terminator inside, and the stored value is inside. -/
structure Entry.Inside (entry : Entry) : Prop where
  key_nonneg : 0 ≤ entry.key
  key_terminated : (0 : Byte) ∈ b.bytes.drop entry.key.toNat
  value_nonneg : 0 ≤ entry.value.start
  value_len : 0 ≤ entry.value.len
  value_end : entry.value.start + entry.value.len ≤ b.size

structure Safe : Prop where
  reads : b.unserialize ≠ .outside
  stored : ∀ entries, b.unserialize = .done entries → ∀ entry ∈ entries, entry.Inside b

def Buffer.Admits (c : Int) : Prop :=
  c + 8 ≤ b.size ∧ c + 8 + b.int32At c ≤ b.size ∧
    c + 8 + (b.int32At c + 1) + b.int32At (c + 4) ≤ b.size
deriving Decidable

def Buffer.next (c : Int) : Int :=
  c + 8 + (b.int32At c + 1) + b.int32At (c + 4)

/--
Every pair that comes after admitted ones does not begin before the buffer, and if it is admitted
too, its key has a terminator in the buffer.
-/
def Buffer.KeysEnd (n : Nat) (c : Int) : Prop :=
  ∀ i < n, (∀ j < i, b.Admits (b.next^[j] c)) → b.next^[i] c + 4 ≤ b.size → 0 ≤ b.next^[i] c ∧
      (b.Admits (b.next^[i] c) → (0 : Byte) ∈ b.bytes.drop (b.next^[i] c + 8).toNat)

/-- Where all pairs are admitted, no value begins before the buffer or has a negative length. -/
def Buffer.ValuesInside (n : Nat) (c : Int) : Prop :=
  (∀ i < n, b.Admits (b.next^[i] c)) → ∀ i < n,
    0 ≤ b.next^[i] c + 8 + (b.int32At (b.next^[i] c) + 1) ∧ 0 ≤ b.int32At (b.next^[i] c + 4)

/-- The condition on a buffer that is large enough for the number of pairs. -/
def Buffer.Contained : Prop :=
  4 ≤ b.size → b.KeysEnd (b.int32At 0).toNat 4 ∧ b.ValuesInside (b.int32At 0).toNat 4

end

open Nat

variable {b : Buffer} {n : Nat} {c : Int} {entry : Entry} {parsed : Parsed} {entries : List Entry}

theorem Buffer.read32_of_inside (hc : 0 ≤ c) (hend : c + 4 ≤ b.size) :
    b.read32 c = some (b.int32At c) :=
  if_pos ⟨hc, hend⟩

theorem Buffer.unserializeFrom_of_short (h : b.size < c + 4) :
    b.unserializeFrom (n + 1) c = .failed [] := by
  rw [unserializeFrom, if_pos h]

theorem Buffer.unserializeFrom_of_neg (hend : c + 4 ≤ b.size) (hc : c < 0) :
    b.unserializeFrom (n + 1) c = .outside := by
  have hread : b.read32 c = none := if_neg (fun hin => absurd hin.1 (not_le.mpr hc))
  rw [unserializeFrom, if_neg (not_lt.mpr hend), hread]

theorem Buffer.unserializeFrom_of_not_admits (hc : 0 ≤ c) (h : ¬ b.Admits c) :
    b.unserializeFrom (n + 1) c = .failed [] := by
  by_cases hfst : b.size < c + 4
  · exact unserializeFrom_of_short hfst
  rw [unserializeFrom, if_neg hfst, read32_of_inside hc (not_lt.mp hfst)]
  dsimp only
  by_cases hsec : b.size < c + 4 + 4
  · rw [if_pos hsec]
  rw [if_neg hsec, read32_of_inside (by omega) (not_lt.mp hsec)]
  dsimp only
  by_cases hkey : b.size < c + 8 + b.int32At c
  · rw [if_pos hkey]
  rw [if_neg hkey]
  by_cases hval : b.size < c + 8 + (b.int32At c + 1) + b.int32At (c + 4)
  · rw [if_pos hval]
  exact absurd ⟨by omega, not_lt.mp hkey, not_lt.mp hval⟩ h

theorem Buffer.unserializeFrom_of_admits (hc : 0 ≤ c) (h : b.Admits c) :
    b.unserializeFrom (n + 1) c =
      match b.readString (c + 8) with
      | none => .outside
      | some text => (b.unserializeFrom n (b.next c)).cons
          ⟨c + 8, text, ⟨c + 8 + (b.int32At c + 1), b.int32At (c + 4)⟩⟩ := by
  obtain ⟨hhead, hkey, hval⟩ := h
  rw [unserializeFrom, if_neg (by omega), read32_of_inside hc (by omega)]
  dsimp only
  rw [if_neg (by omega), read32_of_inside (by omega) (by omega)]
  dsimp only
  rw [if_neg (not_lt.mpr hkey), if_neg (not_lt.mpr hval)]
  rfl

theorem Buffer.unserializeFrom_of_unterminated (hc : 0 ≤ c) (h : b.Admits c)
    (hkey : (0 : Byte) ∉ b.bytes.drop (c + 8).toNat) : b.unserializeFrom (n + 1) c = .outside := by
  have hread : b.readString (c + 8) = none := by
    rw [readString, if_pos (by omega), cString_of_notMem hkey]
  rw [unserializeFrom_of_admits hc h, hread]

theorem Buffer.exists_unserializeFrom (hc : 0 ≤ c) (h : b.Admits c)
    (hkey : (0 : Byte) ∈ b.bytes.drop (c + 8).toNat) (n : Nat) :
    ∃ text, b.unserializeFrom (n + 1) c = (b.unserializeFrom n (b.next c)).cons
      ⟨c + 8, text, ⟨c + 8 + (b.int32At c + 1), b.int32At (c + 4)⟩⟩ := by
  obtain ⟨text, htext⟩ := exists_cString hkey
  have hread : b.readString (c + 8) = some text := by
    rw [readString, if_pos (by omega), htext]
  refine ⟨text, ?_⟩
  rw [unserializeFrom_of_admits hc h, hread]

theorem Parsed.cons_eq_outside_iff : parsed.cons entry = .outside ↔ parsed = .outside := by
  cases parsed with
  | outside => rfl
  | refused => simp [cons]
  | failed entries => simp [cons]
  | done entries => simp [cons]

theorem Parsed.cons_eq_done_iff :
    parsed.cons entry = .done entries ↔ ∃ rest, parsed = .done rest ∧ entries = entry :: rest := by
  cases parsed with
  | outside => simp [cons]
  | refused => simp [cons]
  | failed rest => simp [cons]
  | done rest =>
    simp only [cons, done.injEq, exists_eq_left']
    exact eq_comm

theorem Buffer.Admits.head (h : b.Admits c) : c + 4 ≤ b.size := by
  have hhead := h.1
  omega

theorem Buffer.keysEnd_succ_iff :
    b.KeysEnd (n + 1) c ↔ (c + 4 ≤ b.size →
        0 ≤ c ∧ (b.Admits c → (0 : Byte) ∈ b.bytes.drop (c + 8).toNat)) ∧
      (b.Admits c → b.KeysEnd n (b.next c)) := by
  constructor
  · intro h
    refine ⟨h 0 (succ_pos n) (fun j hj => absurd hj (not_lt_zero j)), ?_⟩
    intro hadm i hi hbef
    refine h (i + 1) (succ_lt_succ hi) ?_
    intro j hj
    cases j with
    | zero => exact hadm
    | succ j => exact hbef j (lt_of_succ_lt_succ hj)
  · rintro ⟨hfst, hrest⟩ i hi hbef
    cases i with
    | zero => exact hfst
    | succ i =>
      refine hrest (hbef 0 (succ_pos i)) i (lt_of_succ_lt_succ hi) ?_
      intro j hj
      exact hbef (j + 1) (succ_lt_succ hj)

theorem Buffer.unserializeFrom_ne_outside_iff :
    b.unserializeFrom n c ≠ .outside ↔ b.KeysEnd n c := by
  induction n generalizing c with
  | zero =>
    constructor
    · intro _ i hi
      exact absurd hi (not_lt_zero i)
    · intro _ h
      cases h
  | succ n ih =>
    rw [keysEnd_succ_iff]
    by_cases hhead : c + 4 ≤ b.size
    · by_cases hc : 0 ≤ c
      · by_cases hadm : b.Admits c
        · by_cases hkey : (0 : Byte) ∈ b.bytes.drop (c + 8).toNat
          · obtain ⟨text, hround⟩ := exists_unserializeFrom hc hadm hkey n
            rw [hround, Ne, Parsed.cons_eq_outside_iff]
            simp [hc, hadm, hkey, ← ih]
          · rw [unserializeFrom_of_unterminated hc hadm hkey]
            simp [hhead, hadm, hkey]
        · rw [unserializeFrom_of_not_admits hc hadm]
          simp [hc, hadm]
      · rw [unserializeFrom_of_neg hhead (not_le.mp hc)]
        simp [hhead, hc]
    · have hadm : ¬ b.Admits c := fun h => hhead h.head
      rw [unserializeFrom_of_short (not_le.mp hhead)]
      simp [hhead, hadm]

theorem Buffer.stored_eq (h : b.unserializeFrom n c = .done entries) :
    (∀ i < n, b.Admits (b.next^[i] c)) ∧ entries.map (fun entry => (entry.key, entry.value)) =
        (range n).map (fun i =>
          (b.next^[i] c + 8,
            ⟨b.next^[i] c + 8 + (b.int32At (b.next^[i] c) + 1), b.int32At (b.next^[i] c + 4)⟩)) := by
  induction n generalizing c entries with
  | zero =>
    cases h
    exact ⟨fun i hi => absurd hi (not_lt_zero i), rfl⟩
  | succ n ih =>
    have hhead : c + 4 ≤ b.size := by
      by_contra hc
      simp [unserializeFrom_of_short (not_le.mp hc)] at h
    have hc : 0 ≤ c := by
      by_contra hc
      simp [unserializeFrom_of_neg hhead (not_le.mp hc)] at h
    have hadm : b.Admits c := by
      by_contra hadm
      simp [unserializeFrom_of_not_admits hc hadm] at h
    have hkey : (0 : Byte) ∈ b.bytes.drop (c + 8).toNat := by
      by_contra hkey
      simp [unserializeFrom_of_unterminated hc hadm hkey] at h
    obtain ⟨text, hround⟩ := exists_unserializeFrom hc hadm hkey n
    rw [hround, Parsed.cons_eq_done_iff] at h
    obtain ⟨rest, hrest, rfl⟩ := h
    obtain ⟨hall, hmap⟩ := ih hrest
    constructor
    · intro i hi
      cases i with
      | zero => exact hadm
      | succ i => exact hall i (lt_of_succ_lt_succ hi)
    · rw [map_cons, hmap, range_succ_eq_map, map_cons, map_map]
      rfl

theorem Buffer.exists_done (hkeys : b.KeysEnd n c) (hall : ∀ i < n, b.Admits (b.next^[i] c)) :
    ∃ entries, b.unserializeFrom n c = .done entries := by
  induction n generalizing c with
  | zero => exact ⟨[], rfl⟩
  | succ n ih =>
    have hadm : b.Admits c := hall 0 (succ_pos n)
    obtain ⟨hfst, hrest⟩ := keysEnd_succ_iff.mp hkeys
    obtain ⟨hc, hkey⟩ := hfst hadm.head
    obtain ⟨entries, hents⟩ := ih (hrest hadm) (fun i hi => hall (i + 1) (succ_lt_succ hi))
    obtain ⟨text, hround⟩ := exists_unserializeFrom hc hadm (hkey hadm) n
    rw [hround, hents]
    exact ⟨_, rfl⟩

/-- What is stored is inside exactly if no admitted value is before the buffer or negative. -/
theorem Buffer.stored_inside_iff (hkeys : b.KeysEnd n c) :
    (∀ entries, b.unserializeFrom n c = .done entries → ∀ entry ∈ entries, entry.Inside b) ↔
      b.ValuesInside n c := by
  constructor
  · intro h hall i hi
    obtain ⟨entries, hents⟩ := exists_done hkeys hall
    have hmem : (b.next^[i] c + 8, Slice.mk (b.next^[i] c + 8 + (b.int32At (b.next^[i] c) + 1))
        (b.int32At (b.next^[i] c + 4))) ∈ entries.map (fun entry => (entry.key, entry.value)) := by
      rw [(stored_eq hents).2]
      exact mem_map_of_mem (mem_range.mpr hi)
    obtain ⟨entry, hent, heq⟩ := mem_map.mp hmem
    have hin := h entries hents entry hent
    have hval := (Prod.mk.inj heq).2
    have hst := hin.value_nonneg
    have hlen := hin.value_len
    rw [hval] at hst hlen
    exact ⟨hst, hlen⟩
  · intro h entries hents entry hent
    obtain ⟨hall, hmap⟩ := stored_eq hents
    have hmem := mem_map_of_mem (f := fun entry => (entry.key, entry.value)) hent
    rw [hmap] at hmem
    obtain ⟨i, hi, heq⟩ := mem_map.mp hmem
    obtain ⟨hkey, hval⟩ := Prod.mk.inj heq
    have hi := mem_range.mp hi
    have hadm := hall i hi
    obtain ⟨hc, hend⟩ := hkeys i hi (fun j hj => hall j (lt_trans hj hi)) hadm.head
    obtain ⟨hst, hlen⟩ := h hall i hi
    have hlast := hadm.2.2
    constructor
    · rw [← hkey]
      omega
    · rw [← hkey]
      exact hend hadm
    · rw [← hval]
      exact hst
    · rw [← hval]
      exact hlen
    · rw [← hval]
      exact hlast

theorem safe_of_refused (h : b.unserialize = .refused) : Safe b := by
  constructor
  · rw [h]
    intro hc
    cases hc
  · intro entries hents
    simp [h] at hents

/-- The walk stays in the buffer, and so does what it stores, exactly under the condition. -/
theorem safe_iff_contained (b : Buffer) : Safe b ↔ b.Contained := by
  by_cases hsize : 4 ≤ b.size
  · have hwalk : b.unserialize =
        if b.int32At 0 < 0 then .refused else b.unserializeFrom (b.int32At 0).toNat 4 := by
      rw [Buffer.unserialize, if_neg (by omega), if_neg (not_lt.mpr hsize),
        Buffer.read32_of_inside le_rfl (by omega)]
    by_cases hcnt : b.int32At 0 < 0
    · -- A negative number of pairs is refused, and there are no rounds.
      rw [if_pos hcnt] at hwalk
      refine iff_of_true (safe_of_refused hwalk) ?_
      intro _
      rw [Int.toNat_of_nonpos hcnt.le]
      exact ⟨fun i hi => absurd hi (Nat.not_lt_zero i), fun _ i hi => absurd hi (Nat.not_lt_zero i)⟩
    · rw [if_neg hcnt] at hwalk
      constructor
      · intro h _
        have hrds := h.reads
        have hsto := h.stored
        rw [hwalk] at hrds hsto
        have hkeys := Buffer.unserializeFrom_ne_outside_iff.mp hrds
        exact ⟨hkeys, (Buffer.stored_inside_iff hkeys).mp hsto⟩
      · intro h
        obtain ⟨hkeys, hvalues⟩ := h hsize
        constructor
        · rw [hwalk]
          exact Buffer.unserializeFrom_ne_outside_iff.mpr hkeys
        · rw [hwalk]
          exact (Buffer.stored_inside_iff hkeys).mpr hvalues
  · have hwalk : b.unserialize = .refused := by
      rw [Buffer.unserialize, if_pos (not_le.mp hsize), ite_self]
    exact iff_of_true (safe_of_refused hwalk) (fun h => absurd h hsize)

def unterminated : Buffer :=
  ⟨[0, 0, 0, 1, 0, 0, 0, 1, 0, 0, 0, 0, 97, 98], 14, rfl, by decide⟩

theorem not_safe_unterminated : ¬ Safe unterminated := by
  intro h
  exact h.reads (by decide)

end GlusterFS.Dict
