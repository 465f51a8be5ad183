import GlusterFS.Dict.Unserialize
import Mathlib.Algebra.Order.BigOperators.Group.List

/-!
# dict_serialize: a dictionary on the wire and back

`dict_serialized_length` and `dict_serialize` walk along the list of pairs, `count` of them.  The
walk of `dict_unserialize` over what was written stores the same pairs again, and each value is
where it was written (`unserializeFrom_flatMap`).  The dictionary that is filled with them has the
keys and the values of the first one (`roundTrips_of_wellFormed`).
-/

namespace GlusterFS.Dict

open Bytes Iovec Linked Run List Function

section

def hton32 (x : Int) : List Byte :=
  toNetwork 4 (x % 2 ^ 32).toNat

def serializedLengthFrom (heap : Heap (Pair (List Byte))) : Nat → Option Nat → Int → Option Int
  | 0, _, len => some len
  | _ + 1, none, _ => none
  | count + 1, some a, len =>
    match heap a with
    | none => none
    | some pair =>
      let len := int32 (len + (4 + 4))
      let len := int32 (len + (pair.key.bytes.length + 1))
      if int32 pair.value.length < 0 then
        none
      else
        serializedLengthFrom heap count pair.next (int32 (len + int32 pair.value.length))

def record (key : CString) (value : List Byte) : List Byte :=
  let keylen := int32 key.bytes.length
  let vallen := int32 value.length
  hton32 keylen ++ hton32 vallen ++ key.bytes.take keylen.toNat ++ [0] ++ value.take vallen.toNat

def serializeFrom (heap : Heap (Pair (List Byte))) : Nat → Option Nat → Option (List Byte)
  | 0, _ => some []
  | _ + 1, none => none
  | count + 1, some a =>
    match heap a with
    | none => none
    | some pair => (serializeFrom heap count pair.next).map (record pair.key pair.value ++ ·)

variable (d : DictT (List Byte))

def DictT.dictSerializedLength : Option Int :=
  if d.count < 0 then none else serializedLengthFrom d.heap d.count.toNat d.membersList 4

def DictT.dictSerialize : Option (List Byte) :=
  if d.count < 0 then
    none
  else
    (serializeFrom d.heap d.count.toNat d.membersList).map (hton32 d.count ++ ·)

end

def pairsFrom {α : Type*} (heap : Heap (Pair α)) : Nat → Option Nat → List (CString × α)
  | 0, _ => []
  | _ + 1, none => []
  | count + 1, some a =>
    match heap a with
    | none => []
    | some pair => pair.content :: pairsFrom heap count pair.next

def DictT.pairs {α : Type*} (d : DictT α) : List (CString × α) :=
  pairsFrom d.heap d.count.toNat d.membersList

def pairSize (p : CString × List Byte) : Nat :=
  8 + (p.1.bytes.length + 1) + p.2.length

def wireSize (pairs : List (CString × List Byte)) : Nat :=
  4 + (pairs.map pairSize).sum

/-- There is an account of the dictionary, as after calls of `dict_set` and `dict_del`. -/
def DictT.WellFormed {α : Type*} (d : DictT α) : Prop :=
  ∃ members chains m, Represents d members chains m

def Buffer.slice (b : Buffer) (s : Slice) : List Byte :=
  (b.bytes.drop s.start.toNat).take s.len.toNat

/--
What is written has the length that was computed, and is read back as a dictionary that has for each
key a value of the same length with the same bytes.
-/
def RoundTrips (d : DictT (List Byte)) (hashSize : Nat) : Prop :=
  ∃ b : Buffer, d.dictSerialize = some b.bytes ∧ d.dictSerializedLength = some b.size ∧
    b.size = b.bytes.length ∧
    ∃ d', dictUnserialize b (getNewDictFull hashSize) = some (0, d') ∧ d'.WellFormed ∧
      ∀ key, (d'.dictGet key).map (Option.map (fun s => (s.len, b.slice s))) =
        (d.dictGet key).map (Option.map (fun v => ((v.length : Int), v)))

variable {heap : Heap (Pair (List Byte))} {p : CString × List Byte} {members : List Nat} {α : Type*}
  {d : DictT α} {chains : Nat → List Nat} {m : CString → Option α} {b : Buffer}
  {front back : List Byte} {pairs : List (CString × List Byte)}

@[simp] theorem length_hton32 (x : Int) : (hton32 x).length = 4 :=
  length_toNetwork 4 _

theorem int32_ofNetwork_hton32 {x : Int} (hlow : 0 ≤ x) (hhigh : x < 2 ^ 31) :
    int32 (ofNetwork (hton32 x)) = x := by
  have hmod : x % 2 ^ 32 = x := Int.emod_eq_of_lt hlow (by omega)
  have hnat : x.toNat % 256 ^ 4 = x.toNat := Nat.mod_eq_of_lt (by omega)
  rw [hton32, hmod, ofNetwork_toNetwork, hnat, Int.toNat_of_nonneg hlow]
  exact int32_eq (by omega) hhigh

theorem record_eq (h : pairSize p < 2 ^ 31) :
    record p.1 p.2 = hton32 p.1.bytes.length ++ (hton32 p.2.length ++ (p.1.bytes ++ 0 :: p.2)) := by
  rw [pairSize] at h
  have hkey : int32 (p.1.bytes.length : Int) = p.1.bytes.length := int32_eq (by omega) (by omega)
  have hval : int32 (p.2.length : Int) = p.2.length := int32_eq (by omega) (by omega)
  simp only [record, hkey, hval, Int.toNat_natCast, take_length, append_assoc, singleton_append]

theorem length_record (h : pairSize p < 2 ^ 31) : (record p.1 p.2).length = pairSize p := by
  rw [record_eq h, pairSize]
  simp only [length_append, length_hton32, length_cons]
  omega

theorem serializeFrom_eq {members : List Nat} {p : Option Nat}
    (h : Seg Pair.next heap p members none) :
    serializeFrom heap members.length p =
      some ((pairsFrom heap members.length p).flatMap (fun q => record q.1 q.2)) := by
  induction members generalizing p with
  | nil => rfl
  | cons a members ih =>
    obtain ⟨rfl, x, hx, hrest⟩ := h
    simp only [length_cons, serializeFrom, pairsFrom, hx, ih hrest, Option.map_some,
      flatMap_cons, Pair.content]

theorem serializedLengthFrom_eq {p : Option Nat} (h : Seg Pair.next heap p members none) {len : Nat}
    (hsize : len + ((pairsFrom heap members.length p).map pairSize).sum < 2 ^ 31) :
    serializedLengthFrom heap members.length p len =
      some ((len + ((pairsFrom heap members.length p).map pairSize).sum : Nat) : Int) := by
  induction members generalizing p len with
  | nil => rfl
  | cons a members ih =>
    obtain ⟨rfl, x, hx, hrest⟩ := h
    simp only [length_cons, pairsFrom, hx, map_cons, sum_cons, Pair.content, pairSize] at hsize ⊢
    -- Each of the sums is a number that an `int` can hold.
    have hhead : int32 ((len : Int) + (4 + 4)) = ((len + 8 : Nat) : Int) :=
      int32_eq (by omega) (by omega)
    have hkey : int32 (((len + 8 : Nat) : Int) + (x.key.bytes.length + 1)) =
        ((len + 8 + (x.key.bytes.length + 1) : Nat) : Int) :=
      int32_eq (by omega) (by omega)
    have hlen : int32 (x.value.length : Int) = x.value.length := int32_eq (by omega) (by omega)
    have hval : int32 (((len + 8 + (x.key.bytes.length + 1) : Nat) : Int) + x.value.length) =
        ((len + 8 + (x.key.bytes.length + 1) + x.value.length : Nat) : Int) :=
      int32_eq (by omega) (by omega)
    have hrestSize : len + 8 + (x.key.bytes.length + 1) + x.value.length +
        ((pairsFrom heap members.length x.next).map pairSize).sum < 2 ^ 31 := by omega
    have hnn : ¬ (x.value.length : Int) < 0 := by omega
    simp only [serializedLengthFrom, hx, hhead, hkey, hlen, hval, if_neg hnn,
      ih hrest hrestSize, Option.some_inj, Nat.cast_inj]
    omega

section

variable (h : Represents d members chains m)
include h

theorem Represents.pairs_eq :
    d.pairs.map some = members.map (fun a => (d.heap a).map Pair.content) := by
  have hwalk : ∀ (as : List Nat) (p : Option Nat), Seg Pair.next d.heap p as none →
      (pairsFrom d.heap as.length p).map some = as.map (fun a => (d.heap a).map Pair.content) := by
    intro as
    induction as with
    | nil =>
      intro p _
      rfl
    | cons a as ih =>
      rintro p ⟨rfl, x, hx, hrest⟩
      simp only [length_cons, pairsFrom, hx, map_cons, ih _ hrest, Option.map_some]
  rw [DictT.pairs, h.consistent.count, Int.toNat_natCast]
  exact hwalk members d.membersList h.consistent.list

theorem Represents.mem_pairs_iff (key : CString) (v : α) : (key, v) ∈ d.pairs ↔ m key = some v := by
  have hmem : (key, v) ∈ d.pairs ↔ some (key, v) ∈ d.pairs.map some := by simp
  rw [hmem, h.pairs_eq, mem_map, h.holds]

theorem Represents.nodup_keys : (d.pairs.map Prod.fst).Nodup := by
  have hkeys : (d.pairs.map Prod.fst).map some =
      members.map (fun a => (d.heap a).map Pair.key) := by
    calc (d.pairs.map Prod.fst).map some = (d.pairs.map some).map (Option.map Prod.fst) := by
          rw [map_map, map_map]
          rfl
      _ = (members.map (fun a => (d.heap a).map Pair.content)).map (Option.map Prod.fst) := by
          rw [h.pairs_eq]
      _ = members.map (fun a => (d.heap a).map Pair.key) := by
          rw [map_map]
          apply map_congr_left
          intro a _
          exact Option.map_map ..
  have hnd : (members.map (fun a => (d.heap a).map Pair.key)).Nodup :=
    List.Nodup.map_on (fun a ha b hb heq => h.consistent.oneEach a ha b hb heq)
      h.consistent.list.nodup
  rw [← hkeys] at hnd
  exact hnd.of_map some

end

theorem int32At_hton32 {x : Int} {front back : List Byte} (hlow : 0 ≤ x) (hhigh : x < 2 ^ 31)
    (hbytes : b.bytes = front ++ (hton32 x ++ back)) : b.int32At front.length = x := by
  rw [Buffer.int32At, hbytes, Int.toNat_natCast, drop_left,
    take_append_of_le_length (by rw [length_hton32]), take_of_length_le (by simp),
    int32_ofNetwork_hton32 hlow hhigh]

theorem bytes_record (hp : pairSize p < 2 ^ 31)
    (hbytes : b.bytes = front ++ (record p.1 p.2 ++ back)) :
    b.bytes = front ++ (hton32 p.1.bytes.length ++ (hton32 p.2.length ++
      (p.1.bytes ++ 0 :: (p.2 ++ back)))) := by
  rw [hbytes, record_eq hp]
  simp only [append_assoc, cons_append]

theorem unserializeFrom_record (hp : pairSize p < 2 ^ 31) (hsize : b.size = b.bytes.length)
    (hbytes : b.bytes = front ++ (record p.1 p.2 ++ back)) (n : Nat) :
    b.unserializeFrom (n + 1) front.length =
      (b.unserializeFrom n (front ++ record p.1 p.2).length).cons
        ⟨front.length + 8, p.1, ⟨front.length + 8 + (p.1.bytes.length + 1), p.2.length⟩⟩ := by
  have hpts := bytes_record hp hbytes
  have hlen := length_record hp
  have htot : b.bytes.length = front.length + pairSize p + back.length := by
    rw [hbytes, length_append, length_append, hlen, Nat.add_assoc]
  rw [pairSize] at hp htot
  have hkeylen : b.int32At front.length = p.1.bytes.length :=
    int32At_hton32 (by omega) (by omega) hpts
  have hvallen : b.int32At (front.length + 4) = p.2.length := by
    have hat := @int32At_hton32 b p.2.length (front ++ hton32 p.1.bytes.length)
      (p.1.bytes ++ 0 :: (p.2 ++ back)) (by omega) (by omega)
      (by rw [hpts, append_assoc])
    rw [length_append, length_hton32] at hat
    exact hat
  have hread : b.readString (front.length + 8) = some p.1 := by
    have hdrop : b.bytes.drop ((front.length : Int) + 8).toNat =
        p.1.bytes ++ 0 :: (p.2 ++ back) := by
      have hfro : ((front.length : Int) + 8).toNat =
          (front ++ (hton32 p.1.bytes.length ++ hton32 p.2.length)).length := by
        simp only [length_append, length_hton32]
        omega
      have hsp : b.bytes = (front ++ (hton32 p.1.bytes.length ++ hton32 p.2.length)) ++
          (p.1.bytes ++ 0 :: (p.2 ++ back)) := by
        rw [hpts]
        simp only [append_assoc]
      rw [hfro, hsp, drop_left]
    rw [Buffer.readString, if_pos (by omega), hdrop, cString_append]
  have hadm : b.Admits front.length := by
    rw [Buffer.Admits, hkeylen, hvallen, hsize, htot]
    omega
  have hnext : b.next front.length = ((front ++ record p.1 p.2).length : Int) := by
    rw [Buffer.next, hkeylen, hvallen, length_append, hlen, pairSize]
    omega
  rw [Buffer.unserializeFrom_of_admits (by omega) hadm, hread, hnext, hkeylen, hvallen]

/-- What the walk stores for pairs that were written from a place on. -/
def entriesFrom : Nat → List (CString × List Byte) → List Entry
  | _, [] => []
  | c, p :: pairs =>
    ⟨c + 8, p.1, ⟨c + 8 + (p.1.bytes.length + 1), p.2.length⟩⟩ :: entriesFrom (c + pairSize p) pairs

theorem unserializeFrom_flatMap (hprs : ∀ p ∈ pairs, pairSize p < 2 ^ 31)
    (hsize : b.size = b.bytes.length)
    (hbytes : b.bytes = front ++ pairs.flatMap (fun p => record p.1 p.2)) :
    b.unserializeFrom pairs.length front.length = .done (entriesFrom front.length pairs) := by
  induction pairs generalizing front with
  | nil => rfl
  | cons p pairs ih =>
    obtain ⟨hp, hprs⟩ := forall_mem_cons.mp hprs
    rw [flatMap_cons] at hbytes
    rw [length_cons, unserializeFrom_record hp hsize hbytes,
      ih hprs (by rw [hbytes, append_assoc]), length_append, length_record hp]
    rfl

theorem slice_record (hp : pairSize p < 2 ^ 31)
    (hbytes : b.bytes = front ++ (record p.1 p.2 ++ back)) :
    b.slice ⟨front.length + 8 + (p.1.bytes.length + 1), p.2.length⟩ = p.2 := by
  have hpts := bytes_record hp hbytes
  have hfro : ((front.length : Int) + 8 + (p.1.bytes.length + 1)).toNat =
      (front ++ (hton32 p.1.bytes.length ++ (hton32 p.2.length ++ (p.1.bytes ++ [0])))).length := by
    simp only [length_append, length_hton32, length_singleton]
    omega
  have hsp : b.bytes =
      (front ++ (hton32 p.1.bytes.length ++ (hton32 p.2.length ++ (p.1.bytes ++ [0])))) ++
        (p.2 ++ back) := by
    rw [hpts]
    simp only [append_assoc, singleton_append]
  rw [Buffer.slice, hfro, Int.toNat_natCast, hsp, drop_left, take_left]

theorem entriesFrom_slices (hprs : ∀ p ∈ pairs, pairSize p < 2 ^ 31)
    (hbytes : b.bytes = front ++ pairs.flatMap (fun p => record p.1 p.2)) :
    (entriesFrom front.length pairs).map
        (fun entry => (entry.text, entry.value.len, b.slice entry.value)) =
      pairs.map (fun p => (p.1, (p.2.length : Int), p.2)) := by
  induction pairs generalizing front with
  | nil => rfl
  | cons p pairs ih =>
    obtain ⟨hp, hprs⟩ := forall_mem_cons.mp hprs
    rw [flatMap_cons] at hbytes
    have hbytes' : b.bytes = (front ++ record p.1 p.2) ++
        pairs.flatMap (fun p => record p.1 p.2) := by rw [hbytes, append_assoc]
    have hrest := ih hprs hbytes'
    rw [length_append, length_record hp] at hrest
    rw [entriesFrom, map_cons, hrest, slice_record hp hbytes]
    rfl

theorem lastSet_sets_eq_some_iff {pairs : List (CString × α)} (hnd : (pairs.map Prod.fst).Nodup)
    (key : CString) (v : α) :
    lastSet (pairs.map (fun p => .set p.1 p.2)) key = some v ↔ (key, v) ∈ pairs := by
  induction pairs using reverseRecOn with
  | nil => simp [lastSet]
  | append_singleton pairs p ih =>
    rw [map_append, nodup_append] at hnd
    obtain ⟨hprs, _, hnew⟩ := hnd
    rw [map_append, lastSet, foldl_append]
    show update (lastSet _) p.1 (some p.2) key = some v ↔ _
    by_cases hkey : key = p.1
    · subst hkey
      rw [update_self, Option.some_inj, mem_append, mem_singleton]
      constructor
      · rintro rfl
        exact .inr rfl
      · rintro (hmem | heq)
        · have hold : p.1 ∈ pairs.map Prod.fst := mem_map.mpr ⟨(p.1, v), hmem, rfl⟩
          exact absurd rfl (hnew p.1 hold p.1 (by simp))
        · exact (congrArg Prod.snd heq).symm
    · rw [update_of_ne hkey, ih hprs, mem_append, mem_singleton]
      constructor
      · exact .inl
      · rintro (hmem | rfl)
        · exact hmem
        · exact absurd rfl hkey

theorem map_eq_some_iff_mem {β : Type*} {pairs : List (CString × α)}
    (f : α → β) (hm : ∀ key v, m key = some v ↔ (key, v) ∈ pairs) (key : CString) (y : β) :
    (m key).map f = some y ↔ (key, y) ∈ pairs.map (fun p => (p.1, f p.2)) := by
  rw [Option.map_eq_some_iff, mem_map]
  constructor
  · rintro ⟨v, hv, rfl⟩
    exact ⟨(key, v), (hm key v).mp hv, rfl⟩
  · rintro ⟨p, hp, heq⟩
    obtain ⟨rfl, rfl⟩ := Prod.mk.inj heq
    exact ⟨p.2, (hm p.1 p.2).mpr hp, rfl⟩

variable {d : DictT (List Byte)} {m : CString → Option (List Byte)}

section

variable (h : Represents d members chains m)
include h

theorem Represents.length_pairs : d.pairs.length = members.length := by
  have hlen := congrArg length h.pairs_eq
  rw [length_map, length_map] at hlen
  exact hlen

theorem Represents.dictSerialize_eq :
    d.dictSerialize =
      some (hton32 d.pairs.length ++ d.pairs.flatMap (fun p => record p.1 p.2)) := by
  have hcnt : d.count = members.length := h.consistent.count
  have hprs : d.pairs = pairsFrom d.heap members.length d.membersList := by
    rw [DictT.pairs, hcnt, Int.toNat_natCast]
  rw [DictT.dictSerialize, h.length_pairs, hcnt, if_neg (by omega), Int.toNat_natCast,
    serializeFrom_eq h.consistent.list, ← hprs]
  rfl

theorem Represents.dictSerializedLength_eq (hsize : wireSize d.pairs < 2 ^ 31) :
    d.dictSerializedLength = some (wireSize d.pairs : Int) := by
  have hcnt : d.count = members.length := h.consistent.count
  have hprs : d.pairs = pairsFrom d.heap members.length d.membersList := by
    rw [DictT.pairs, hcnt, Int.toNat_natCast]
  rw [wireSize, hprs] at hsize
  have hlen := serializedLengthFrom_eq h.consistent.list hsize
  rw [DictT.dictSerializedLength, hcnt, if_neg (by omega), Int.toNat_natCast, wireSize, hprs]
  exact hlen

end

theorem length_wire (hprs : ∀ p ∈ pairs, pairSize p < 2 ^ 31) (x : Int) :
    (hton32 x ++ pairs.flatMap (fun p => record p.1 p.2)).length = wireSize pairs := by
  have hlengths : pairs.map (fun p => (record p.1 p.2).length) = pairs.map pairSize := by
    apply map_congr_left
    intro p hp
    exact length_record (hprs p hp)
  rw [length_append, length_hton32, length_flatMap, hlengths, wireSize]

theorem unserialize_wire (hprs : ∀ p ∈ pairs, pairSize p < 2 ^ 31) (hfew : pairs.length < 2 ^ 31)
    (hsize : b.size = b.bytes.length)
    (hbytes : b.bytes = hton32 pairs.length ++ pairs.flatMap (fun p => record p.1 p.2)) :
    b.unserialize = .done (entriesFrom 4 pairs) := by
  have hfour : 4 ≤ b.size := by
    rw [hsize, hbytes, length_append, length_hton32]
    omega
  have hcnt : b.int32At 0 = pairs.length :=
    @int32At_hton32 b pairs.length [] _ (by omega) (by omega) hbytes
  have hwalk := unserializeFrom_flatMap hprs hsize hbytes
  rw [Buffer.unserialize, if_neg (by omega), if_neg (by omega),
    Buffer.read32_of_inside le_rfl (by omega), hcnt]
  exact hwalk

/-- A dictionary that fits into a message is the same after it was sent. -/
theorem roundTrips_of_wellFormed (hd : d.WellFormed) (hsize : wireSize d.pairs < 2 ^ 31)
    {hashSize : Nat}
    (hpos : 0 < hashSize) : RoundTrips d hashSize := by
  obtain ⟨members, chains, m, h⟩ := hd
  have hprs : ∀ p ∈ d.pairs, pairSize p < 2 ^ 31 := by
    intro p hp
    have hle : pairSize p ≤ (d.pairs.map pairSize).sum :=
      le_sum_of_mem (mem_map_of_mem hp)
    rw [wireSize] at hsize
    omega
  have hfew : d.pairs.length < 2 ^ 31 := by
    rw [h.length_pairs]
    have hfits := h.fits
    rw [h.consistent.count] at hfits
    omega
  have hlength := length_wire hprs d.pairs.length
  obtain ⟨b, hbytes, hbsize⟩ : ∃ b : Buffer,
      b.bytes = hton32 d.pairs.length ++ d.pairs.flatMap (fun p => record p.1 p.2) ∧
      b.size = wireSize d.pairs :=
    ⟨⟨_, (wireSize d.pairs : Int), by rw [hlength, Int.toNat_natCast], by omega⟩, rfl, rfl⟩
  have hexact : b.size = b.bytes.length := by rw [hbsize, hbytes, hlength]
  have hwalk := unserialize_wire hprs hfew hexact hbytes
  have hslices := @entriesFrom_slices b (hton32 d.pairs.length) d.pairs hprs hbytes
  obtain ⟨stored, hsto⟩ : ∃ stored : List (CString × Slice),
      stored = (entriesFrom 4 d.pairs).map (fun entry => (entry.text, entry.value)) := ⟨_, rfl⟩
  have hseen : stored.map (fun p => (p.1, p.2.len, b.slice p.2)) =
      d.pairs.map (fun p => (p.1, (p.2.length : Int), p.2)) := by
    rw [hsto, map_map]
    exact hslices
  have hkeys : stored.map Prod.fst = d.pairs.map Prod.fst := by
    have hfst := congrArg (map Prod.fst) hseen
    rw [map_map, map_map] at hfst
    exact hfst
  have hsho : ∀ p ∈ stored, p.1.bytes.length < 2 ^ 32 := by
    intro p hp
    have hmem : p.1 ∈ d.pairs.map Prod.fst := by
      rw [← hkeys]
      exact mem_map_of_mem hp
    obtain ⟨q, hq, hkey⟩ := mem_map.mp hmem
    have hle := hprs q hq
    rw [pairSize, hkey] at hle
    omega
  have hcnt : stored.length = d.pairs.length := by
    have hlen := congrArg length hkeys
    rw [length_map, length_map] at hlen
    exact hlen
  obtain ⟨d', hd', members', chains', h', _⟩ :=
    exists_represents_sets hpos hsho (by rw [hcnt]; exact hfew)
  refine ⟨b, ?_, ?_, hexact, d', ?_, ⟨members', chains', _, h'⟩, ?_⟩
  · rw [h.dictSerialize_eq, hbytes]
  · rw [h.dictSerializedLength_eq hsize, hbsize]
  · have hset : setAll (getNewDictFull hashSize) (entriesFrom 4 d.pairs) = some d' := by
      rw [← hd', hsto, map_map]
      rfl
    rw [dictUnserialize, hwalk]
    show (setAll (getNewDictFull hashSize) _).map _ = _
    rw [hset]
    rfl
  · intro key
    rw [h'.dictGet_eq, h.dictGet_eq, Option.map_some, Option.map_some, Option.some_inj]
    ext y
    have hnd : (stored.map Prod.fst).Nodup := by
      rw [hkeys]
      exact h.nodup_keys
    rw [map_eq_some_iff_mem _ (lastSet_sets_eq_some_iff hnd) key y, hseen,
      map_eq_some_iff_mem _ (fun key v => (h.mem_pairs_iff key v).symm) key y]

theorem roundTrips_twoPairs :
    RoundTrips (((getNewDictFull 3).link (lookupHashval 3 ⟨[97, 98], by decide⟩)
      ⟨[97, 98], by decide⟩ [1, 2, 0]).link (lookupHashval 3 ⟨[99], by decide⟩)
      ⟨[99], by decide⟩ [7]) 1 :=
  have h := (represents_getNewDictFull (by decide)).link rfl (by decide) [1, 2, 0]
  roundTrips_of_wellFormed ⟨_, _, _, h.link rfl (by decide) [7]⟩ (by decide +kernel) (by decide)

end GlusterFS.Dict
