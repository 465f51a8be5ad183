import GlusterFS.Lib.Bytes
import GlusterFS.Lib.Iovec
import GlusterFS.Lib.Linked
import GlusterFS.Lib.Run

/-!
# dict: pairs in hash chains and in a list

A dictionary has its pairs in two linked structures.  Each pair is in the chain of its hash
value, and all are in one doubly linked list.  Setting a key puts a new pair at the head of both,
unless the key has a pair already; deleting a key takes its pair out of both.

Pairs are cells of a heap, and a new one gets an address that was not used before.  A search that
comes to no cell, and an index outside the array of chains, are not defined.

`_dict_set` keeps the hash in a signed number, and the other functions do not.  They agree on the
chain of a key of less than 2^32 bytes (`setHashval_eq_lookupHashval`); a longer one can have a
hash that is negative (`hashOf_longKey`).  Where they agree and the number of pairs fits into 32
bits (`CanSet`), a dictionary is a finite map (`isMap_of_canSet`).
-/

namespace GlusterFS.Dict

open Bytes Iovec Linked Run List Function Option Nat Prod

universe u

section

structure Pair (α : Type u) where
  hashNext : Option Nat
  prev : Option Nat
  next : Option Nat
  value : α
  key : CString

structure DictT (α : Type u) where
  hashSize : Nat
  count : Int
  members : List (Option Nat)
  membersList : Option Nat
  heap : Heap (Pair α)
  fresh : Nat

/-- The loop in it returns in its first round, so the code behind the loop is not reached. -/
def superFastHash (data : List Byte) (len : Int) : BitVec 32 :=
  if len ≤ 1 then
    1#32
  else
    BitVec.ofInt 32 len ^^^ (((data ++ [0])[len.toNat]?).getD 0).toBitVec.signExtend 32

def hashOf (key : CString) : BitVec 32 :=
  superFastHash key.bytes (int32 key.bytes.length)

def lookupHashval (hashSize : Nat) (key : CString) : Nat :=
  (hashOf key).toNat % hashSize

def setHashval (hashSize : Nat) (key : CString) : Int :=
  (hashOf key).toInt.tmod hashSize

variable {α : Type u}

def getNewDictFull (sizeHint : Nat) : DictT α :=
  { hashSize := sizeHint,
    count := 0,
    members := replicate sizeHint none,
    membersList := none,
    heap := fun _ => none,
    fresh := 0 }

/-- The loops of `_dict_lookup` and `dict_del`: the pair of a key, with the one before it. -/
def searchFrom (heap : Heap (Pair α)) (key : CString) :
    Nat → Option Nat → Option Nat → Option (Option (Option Nat × Nat))
  | _, _, none => some none
  | 0, _, some _ => none
  | fuel + 1, prev, some a =>
    match heap a with
    | none => none
    | some pair =>
      if pair.key = key then
        some (some (prev, a))
      else
        searchFrom heap key fuel (some a) pair.hashNext

variable (d : DictT α)

/-- The chain is no longer than the number of pairs that there have ever been. -/
def DictT.search (key : CString) : Option (Option (Option Nat × Nat)) :=
  d.members[lookupHashval d.hashSize key]?.bind (searchFrom d.heap key d.fresh none)

def DictT.dictLookup (key : CString) : Option (Option Nat) :=
  (d.search key).map (fun found => found.map Prod.snd)

def DictT.replace (a : Nat) (value : α) : DictT α :=
  { d with heap := modifyAt d.heap (some a) (fun p => { p with value := value }) }

def DictT.link (hashval : Nat) (key : CString) (value : α) : DictT α :=
  let pair : Pair α :=
    { hashNext := d.members[hashval]?.join,
      prev := none,
      next := d.membersList,
      value := value,
      key := key }
  let heap : Heap (Pair α) := fun a => if a = d.fresh then some pair else d.heap a
  { d with
    count := int32 (d.count + 1),
    members := d.members.set hashval (some d.fresh),
    membersList := some d.fresh,
    heap := modifyAt heap d.membersList (fun p => { p with prev := some d.fresh }),
    fresh := d.fresh + 1 }

def DictT.dictSet (key : CString) (value : α) : Option (DictT α) :=
  (d.dictLookup key).bind (fun found =>
    match found with
    | some a => some (d.replace a value)
    | none =>
      if 0 ≤ setHashval d.hashSize key ∧ (setHashval d.hashSize key).toNat < d.members.length then
        some (d.link (setHashval d.hashSize key).toNat key value)
      else
        none)

def DictT.dictGet (key : CString) : Option (Option α) :=
  (d.dictLookup key).bind (fun found =>
    match found with
    | some a => (d.heap a).map (fun p => some p.value)
    | none => some none)

def unlinkHeap (heap : Heap (Pair α)) (before : Option Nat) (pair : Pair α) : Heap (Pair α) :=
  let heap := modifyAt heap before (fun p => { p with hashNext := pair.hashNext })
  let heap := modifyAt heap pair.prev (fun p => { p with next := pair.next })
  modifyAt heap pair.next (fun p => { p with prev := pair.prev })

def DictT.unlink (hashval : Nat) (before : Option Nat) (a : Nat) (pair : Pair α) : DictT α :=
  { d with
    count := int32 (d.count - 1),
    members :=
      match before with
      | some _ => d.members
      | none => d.members.set hashval pair.hashNext,
    membersList :=
      match pair.prev with
      | some _ => d.membersList
      | none => pair.next,
    heap := fun b => if b = a then none else unlinkHeap d.heap before pair b }

def DictT.dictDel (key : CString) : Option (DictT α) :=
  (d.search key).bind (fun found =>
    match found with
    | some (before, a) =>
      (d.heap a).map (fun pair => d.unlink (lookupHashval d.hashSize key) before a pair)
    | none => some d)

inductive Event (α : Type u) where
  | set (key : CString) (value : α)
  | get (key : CString)
  | del (key : CString)

def step (d : DictT α) : Event α → Option (DictT α)
  | .set key value => d.dictSet key value
  | .get key => (d.dictGet key).map (fun _ => d)
  | .del key => d.dictDel key

end

variable {α : Type u} {heap : Heap (Pair α)} {key : CString} {p : Option Nat} {fuel hashSize : Nat}
  {β : Type*} {field : Pair α → β} {d : DictT α} {members : List Nat} {chains : Nat → List Nat}
  {m : CString → Option α}

def lastSetStep (m : CString → Option α) : Event α → CString → Option α
  | .set key value => update m key (some value)
  | .get _ => m
  | .del key => update m key none

def lastSet (events : List (Event α)) : CString → Option α :=
  events.foldl lastSetStep (fun _ => none)

/--
The list along `next` and back along `prev`, and the chains along `hash_next`, have the same pairs,
one for each key, and there are `count` of them.
-/
structure Consistent (d : DictT α) (members : List Nat) (chains : Nat → List Nat) : Prop where
  list : Seg Pair.next d.heap d.membersList members none
  back : Seg Pair.prev d.heap members.getLast? members.reverse none
  chain : ∀ i < d.hashSize, Seg Pair.hashNext d.heap d.members[i]?.join (chains i) none
  same : ((range d.hashSize).flatMap chains).Perm members
  oneEach : ∀ a ∈ members, ∀ b ∈ members, (d.heap a).map Pair.key = (d.heap b).map Pair.key → a = b
  count : d.count = members.length

/-- A dictionary that is a finite map. -/
structure IsMap (d : DictT α) (m : CString → Option α) : Prop where
  get : ∀ key, d.dictGet key = some (m key)
  consistent : ∃ members chains, Consistent d members chains

/--
The condition on a step: a key that is set has a pair, or its hash as an `int` leads to the chain
that it is looked for in, and there is a number for one more pair.
-/
def CanSet (d : DictT α) : Event α → Prop
  | .set key _ =>
    (d.dictLookup key).join.isSome ∨
      setHashval d.hashSize key = lookupHashval d.hashSize key ∧ d.count < 2 ^ 31 - 1
  | _ => True

instance (d : DictT α) : ∀ e, Decidable (CanSet d e) := by
  rintro (_ | _) <;> dsimp only [CanSet] <;> infer_instance

theorem searchFrom_found {front back : List Nat} {a : Nat} {x : Pair α}
    (h : Seg Pair.hashNext heap p (front ++ a :: back) none) (hx : heap a = some x)
    (hkey : x.key = key) (hfro : ∀ b ∈ front, ∀ y, heap b = some y → y.key ≠ key)
    (hfuel : (front ++ a :: back).length ≤ fuel) (before : Option Nat) :
    searchFrom heap key fuel before p = some (some (front.getLast?.or before, a)) := by
  induction front generalizing p fuel before with
  | nil =>
    obtain ⟨rfl, _⟩ := h
    cases fuel with
    | zero => simp at hfuel
    | succ fuel =>
      simp only [searchFrom, hx, if_pos hkey]
      rfl
  | cons c front ih =>
    obtain ⟨rfl, y, hy, hrest⟩ := h
    cases fuel with
    | zero => simp at hfuel
    | succ fuel =>
      have hne := hfro c mem_cons_self y hy
      have hlen : (front ++ a :: back).length ≤ fuel := by
        simp at hfuel ⊢
        omega
      simp only [searchFrom, hy, if_neg hne]
      rw [ih hrest (fun b hb => hfro b (mem_cons_of_mem c hb)) hlen, getLast?_cons]
      cases front.getLast? with
      | none | some b => rfl

theorem searchFrom_none {as : List Nat} (h : Seg Pair.hashNext heap p as none)
    (hkeys : ∀ b ∈ as, ∀ y, heap b = some y → y.key ≠ key) (hfuel : as.length ≤ fuel)
    (before : Option Nat) : searchFrom heap key fuel before p = some none := by
  induction as generalizing p fuel before with
  | nil =>
    have hp : p = none := h
    rw [hp, searchFrom]
  | cons c as ih =>
    obtain ⟨rfl, y, hy, hrest⟩ := h
    cases fuel with
    | zero => simp at hfuel
    | succ fuel =>
      have hne := hkeys c mem_cons_self y hy
      simp only [searchFrom, hy, if_neg hne]
      exact ih hrest (fun b hb => hkeys b (mem_cons_of_mem c hb))
        (le_of_succ_le_succ hfuel) (some c)

section

variable {a : Nat} {x : Pair α}

def Pair.content (pair : Pair α) : CString × α :=
  (pair.key, pair.value)

/-- The account of a dictionary that stands for a map. -/
structure Represents (d : DictT α) (members : List Nat) (chains : Nat → List Nat)
    (m : CString → Option α) : Prop where
  consistent : Consistent d members chains
  size : d.members.length = d.hashSize
  pos : 0 < d.hashSize
  bucket : ∀ i < d.hashSize, ∀ a ∈ chains i, ∀ key, (d.heap a).map Pair.key = some key →
    lookupHashval d.hashSize key = i
  unused : ∀ a, d.fresh ≤ a → d.heap a = none
  fits : d.count < 2 ^ 31
  holds : ∀ key v, m key = some v ↔ ∃ a ∈ members, (d.heap a).map Pair.content = some (key, v)

theorem represents_getNewDictFull {sizeHint : Nat} (hpos : 0 < sizeHint) :
    Represents (getNewDictFull sizeHint : DictT α) [] (fun _ => []) (fun _ => none) := by
  constructor
  · constructor
    · rfl
    · rfl
    · intro i hi
      show (replicate sizeHint none)[i]?.join = none
      rw [getElem?_replicate]
      split_ifs <;> rfl
    · simp
    · intro a ha
      cases ha
    · rfl
  · exact length_replicate
  · exact hpos
  · intro i _ a ha
    cases ha
  · intro a _
    rfl
  · exact Int.pow_pos (by decide)
  · intro key v
    constructor
    · intro h
      cases h
    · rintro ⟨a, ha, _⟩
      cases ha

variable (h : Represents d members chains m)
include h

theorem Represents.lookupHashval_lt (key : CString) : lookupHashval d.hashSize key < d.hashSize :=
  mod_lt _ h.pos

theorem Represents.getElem?_lookupHashval (key : CString) :
    d.members[lookupHashval d.hashSize key]? =
      some d.members[lookupHashval d.hashSize key]?.join := by
  rw [getElem?_eq_getElem (by rw [h.size]; exact h.lookupHashval_lt key)]
  rfl

theorem Represents.length_chain_le {i : Nat} (hi : i < d.hashSize) :
    (chains i).length ≤ d.fresh := by
  have hch := h.consistent.chain i hi
  have hsub : chains i ⊆ range d.fresh := by
    intro a ha
    rw [mem_range]
    by_contra hc
    obtain ⟨x, hx⟩ := hch.exists_cell ha
    rw [h.unused a (not_lt.mp hc)] at hx
    cases hx
  have hle := (hch.nodup.subperm hsub).length_le
  rw [length_range] at hle
  exact hle

theorem Represents.mem_members_iff : a ∈ members ↔ ∃ i < d.hashSize, a ∈ chains i := by
  rw [← h.consistent.same.mem_iff, mem_flatMap]
  simp only [mem_range]

theorem Represents.mem_chain (ha : a ∈ members) (hx : d.heap a = some x) :
    a ∈ chains (lookupHashval d.hashSize x.key) := by
  obtain ⟨i, hi, hai⟩ := h.mem_members_iff.mp ha
  rw [h.bucket i hi a hai x.key (by rw [hx]; rfl)]
  exact hai

open DictT

theorem Represents.search_found {v : α} (hm : m key = some v) :
    ∃ front a back x, chains (lookupHashval d.hashSize key) = front ++ a :: back ∧ a ∈ members ∧
      d.heap a = some x ∧ x.key = key ∧ x.value = v ∧
      d.search key = some (some (front.getLast?, a)) := by
  obtain ⟨a, ha, hcont⟩ := (h.holds key v).mp hm
  obtain ⟨x, hx, hcont⟩ := map_eq_some_iff.mp hcont
  obtain ⟨rfl, hv⟩ := mk.inj hcont
  have hlt := h.lookupHashval_lt x.key
  have hch := h.consistent.chain _ hlt
  obtain ⟨front, back, hsp⟩ := append_of_mem (h.mem_chain ha hx)
  refine ⟨front, a, back, x, hsp, ha, hx, rfl, hv, ?_⟩
  have hlen := h.length_chain_le hlt
  rw [hsp] at hch hlen
  have hfro : ∀ b ∈ front, ∀ y, d.heap b = some y → y.key ≠ x.key := by
    intro b hb y hy hkey
    have hbmem : b ∈ members := by
      refine h.mem_members_iff.mpr ⟨_, hlt, ?_⟩
      rw [hsp]
      exact mem_append_left _ hb
    have hba := h.consistent.oneEach b hbmem a ha (by rw [hx, hy]; exact congrArg some hkey)
    rw [hba] at hb
    exact (disjoint_of_nodup_append hch.nodup) hb mem_cons_self
  rw [search, h.getElem?_lookupHashval, bind_some,
    searchFrom_found hch hx rfl hfro hlen none, or_none]

theorem Represents.search_none (hm : m key = none) : d.search key = some none := by
  have hlt := h.lookupHashval_lt key
  have hkeys : ∀ b ∈ chains (lookupHashval d.hashSize key), ∀ y, d.heap b = some y →
      y.key ≠ key := by
    intro b hb y hy hkey
    have hmem := h.mem_members_iff.mpr ⟨_, hlt, hb⟩
    have hsome := (h.holds key y.value).mpr ⟨b, hmem, by rw [hy, ← hkey]; rfl⟩
    rw [hm] at hsome
    cases hsome
  rw [search, h.getElem?_lookupHashval, bind_some,
    searchFrom_none (h.consistent.chain _ hlt) hkeys (h.length_chain_le hlt) none]

theorem Represents.dictGet_eq (key : CString) : d.dictGet key = some (m key) := by
  cases hm : m key with
  | none =>
    rw [dictGet, dictLookup, h.search_none hm]
    rfl
  | some v =>
    obtain ⟨front, a, back, x, _, _, hx, _, hv, hsrch⟩ := h.search_found hm
    rw [dictGet, dictLookup, hsrch]
    show (d.heap a).map _ = _
    rw [hx, ← hv]
    rfl

theorem Represents.isMap : IsMap d m :=
  ⟨h.dictGet_eq, members, chains, h.consistent⟩

theorem Represents.membersList_ne_fresh : d.membersList ≠ some d.fresh := by
  intro hc
  have hhead := h.consistent.list.head
  rw [hc] at hhead
  obtain ⟨x, hx⟩ := h.consistent.list.exists_cell (mem_of_head? hhead.symm)
  rw [h.unused d.fresh le_rfl] at hx
  cases hx

theorem Represents.ne_fresh (ha : a ∈ members) : a ≠ d.fresh := by
  rintro rfl
  obtain ⟨x, hx⟩ := h.consistent.list.exists_cell ha
  rw [h.unused d.fresh le_rfl] at hx
  cases hx

theorem Represents.eq_of_key {b : Nat}
    (ha : a ∈ members) (hb : b ∈ members) (hakey : (d.heap a).map Pair.key = some key)
    (hbkey : (d.heap b).map Pair.key = some key) : a = b :=
  h.consistent.oneEach a ha b hb (hakey.trans hbkey.symm)

omit h

theorem map_key_of_content {x : Option (Pair α)} {v : α} (hx : x.map Pair.content = some (key, v)) :
    x.map Pair.key = some key := by
  obtain ⟨y, rfl, hy⟩ := map_eq_some_iff.mp hx
  exact congrArg some (mk.inj hy).1

theorem DictT.map_replace_heap (hfield : ∀ p v, field { p with value := v } = field p) (a : Nat)
    (value : α) (b : Nat) : ((d.replace a value).heap b).map field = (d.heap b).map field :=
  map_modifyAt_of_same (fun p => hfield p value) d.heap (some a) b

theorem DictT.map_content_replace_heap (hx : d.heap a = some x) (value : α) (b : Nat) :
    ((d.replace a value).heap b).map Pair.content =
      if b = a then some (x.key, value) else (d.heap b).map Pair.content := by
  rw [replace, map_modifyAt]
  by_cases hba : b = a
  · subst hba
    rw [if_pos rfl, if_pos rfl, hx]
    rfl
  · rw [if_neg (fun hc => hba (some.inj hc).symm), if_neg hba]

theorem Represents.consistent_replace (h : Represents d members chains m) (a : Nat) (value : α) :
    Consistent (d.replace a value) members chains := by
  constructor
  · exact h.consistent.list.congr (fun b _ => map_replace_heap (fun _ _ => rfl) a value b)
  · exact h.consistent.back.congr (fun b _ => map_replace_heap (fun _ _ => rfl) a value b)
  · intro i hi
    exact (h.consistent.chain i hi).congr
      (fun b _ => map_replace_heap (fun _ _ => rfl) a value b)
  · exact h.consistent.same
  · intro b hb c hc hkeys
    have hkey : ∀ b, ((d.replace a value).heap b).map Pair.key = (d.heap b).map Pair.key :=
      map_replace_heap (fun _ _ => rfl) a value
    rw [hkey, hkey] at hkeys
    exact h.consistent.oneEach b hb c hc hkeys
  · exact h.consistent.count

theorem Represents.replace (h : Represents d members chains m) (ha : a ∈ members)
    (hx : d.heap a = some x) (value : α) :
    Represents (d.replace a value) members chains (update m x.key (some value)) := by
  refine ⟨h.consistent_replace a value, h.size, h.pos, ?_, ?_, h.fits, ?_⟩
  · intro i hi b hb key hkey
    have hsame : ((d.replace a value).heap b).map Pair.key = (d.heap b).map Pair.key :=
      map_replace_heap (fun _ _ => rfl) a value b
    rw [hsame] at hkey
    exact h.bucket i hi b hb key hkey
  · intro b hb
    exact modifyAt_eq_none_iff.mpr (h.unused b hb)
  · intro key v
    have hxkey : (d.heap a).map Pair.key = some x.key := by
      rw [hx]
      rfl
    simp only [map_content_replace_heap hx]
    by_cases hkey : key = x.key
    · subst hkey
      rw [update_self, some_inj]
      constructor
      · rintro rfl
        exact ⟨a, ha, if_pos rfl⟩
      · rintro ⟨b, hb, hcont⟩
        split_ifs at hcont with hba
        · exact (mk.inj (some.inj hcont)).2
        · exact absurd (h.eq_of_key hb ha (map_key_of_content hcont) hxkey) hba
    · rw [update_of_ne hkey, h.holds]
      apply exists_congr
      intro b
      rw [and_congr_right_iff]
      intro _
      split_ifs with hba
      · subst hba
        rw [hx]
        constructor
        · intro hc
          exact absurd (mk.inj (some.inj hc)).1.symm hkey
        · intro hc
          exact absurd (mk.inj (some.inj hc)).1.symm hkey
      · rfl

end

section

theorem perm_flatMap_update {is : List Nat} {i a : Nat} {rest : List Nat} (hnd : is.Nodup)
    (hi : i ∈ is) (hperm : (chains i).Perm (a :: rest)) :
    (is.flatMap chains).Perm (a :: is.flatMap (update chains i rest)) := by
  induction is with
  | nil => cases hi
  | cons j is ih =>
    obtain ⟨hj, hnd⟩ := nodup_cons.mp hnd
    rw [flatMap_cons, flatMap_cons]
    by_cases hji : j = i
    · subst hji
      have hoths : is.flatMap (update chains j rest) = is.flatMap chains := by
        apply flatMap_congr
        intro k hk
        have hkj : k ≠ j := by
          rintro rfl
          exact hj hk
        exact update_of_ne hkj rest chains
      rw [hoths, update_self]
      exact hperm.append_right _
    · have hmem := (mem_cons.mp hi).resolve_left (Ne.symm hji)
      rw [update_of_ne hji]
      exact ((ih hnd hmem).append_left (chains j)).trans perm_middle

theorem DictT.link_heap_fresh (hfresh : d.membersList ≠ some d.fresh) (i : Nat) (key : CString)
    (value : α) :
    (d.link i key value).heap d.fresh =
      some ⟨d.members[i]?.join, none, d.membersList, value, key⟩ := by
  simp only [link, modifyAt, if_neg hfresh, if_true]

theorem DictT.map_link_heap {b : Nat} (hfield : ∀ p x, field { p with prev := x } = field p)
    (hb : b ≠ d.fresh) (i : Nat) (key : CString) (value : α) :
    ((d.link i key value).heap b).map field = (d.heap b).map field := by
  simp only [link]
  rw [map_modifyAt_of_same (fun p => hfield p _), if_neg hb]

theorem DictT.map_prev_link_heap {b : Nat} (hb : b ≠ d.fresh) (i : Nat) (key : CString)
    (value : α) :
    ((d.link i key value).heap b).map Pair.prev =
      if d.membersList = some b then (d.heap b).map (fun _ => some d.fresh)
      else (d.heap b).map Pair.prev := by
  simp only [link]
  rw [map_modifyAt, if_neg hb]

variable (h : Represents d members chains m)
include h

theorem Represents.list_link (i : Nat) (key : CString) (value : α) :
    Seg Pair.next (d.link i key value).heap (some d.fresh) (d.fresh :: members) none := by
  refine ⟨rfl, _, DictT.link_heap_fresh h.membersList_ne_fresh i key value, ?_⟩
  apply h.consistent.list.congr
  intro b hb
  exact DictT.map_link_heap (fun _ _ => rfl) (h.ne_fresh hb) i key value

theorem Represents.back_link (i : Nat) (key : CString) (value : α) :
    Seg Pair.prev (d.link i key value).heap (d.fresh :: members).getLast?
      (d.fresh :: members).reverse none := by
  have hnew : Seg Pair.prev (d.link i key value).heap (some d.fresh) [d.fresh] none :=
    ⟨rfl, _, DictT.link_heap_fresh h.membersList_ne_fresh i key value, rfl⟩
  have hback := h.consistent.back
  have hhead := h.consistent.list.head
  have hnd := h.consistent.list.nodup
  cases members with
  | nil => exact hnew
  | cons first rest =>
    have hlist : d.membersList = some first := hhead
    rw [getLast?_cons_cons, reverse_cons]
    refine seg_append_iff.mpr ⟨some d.fresh, ?_, hnew⟩
    rw [reverse_cons] at hback ⊢
    apply hback.redirect
    · intro b hb
      have hmem : b ∈ rest := mem_reverse.mp hb
      rw [DictT.map_prev_link_heap (h.ne_fresh (mem_cons_of_mem first hmem)), if_neg]
      rw [hlist]
      rintro hc
      obtain rfl := some.inj hc
      exact (nodup_cons.mp hnd).1 hmem
    · obtain ⟨x, hx⟩ := h.consistent.list.exists_cell mem_cons_self
      rw [DictT.map_prev_link_heap (h.ne_fresh mem_cons_self), if_pos hlist, hx]
      rfl

theorem Represents.mem_members_of_chain {i a : Nat} (hi : i < d.hashSize) (ha : a ∈ chains i) :
    a ∈ members :=
  h.mem_members_iff.mpr ⟨i, hi, ha⟩

theorem Represents.chain_link {i : Nat} (hi : i < d.hashSize)
    (key : CString) (value : α) {j : Nat} (hj : j < d.hashSize) :
    Seg Pair.hashNext (d.link i key value).heap (d.link i key value).members[j]?.join
      (update chains i (d.fresh :: chains i) j) none := by
  have hold : Seg Pair.hashNext (d.link i key value).heap d.members[j]?.join (chains j) none := by
    apply (h.consistent.chain j hj).congr
    intro b hb
    exact DictT.map_link_heap (fun _ _ => rfl) (h.ne_fresh (h.mem_members_of_chain hj hb)) ..
  have hmem : (d.link i key value).members = d.members.set i (some d.fresh) := rfl
  rw [hmem]
  by_cases hji : j = i
  · subst hji
    rw [update_self, getElem?_set_self (by rw [h.size]; exact hi)]
    exact ⟨rfl, _, DictT.link_heap_fresh h.membersList_ne_fresh j key value, hold⟩
  · rw [update_of_ne hji, getElem?_set_ne (Ne.symm hji)]
    exact hold

theorem Represents.link (hm : m key = none) (hcnt : d.count < 2 ^ 31 - 1) (value : α) :
    Represents (d.link (lookupHashval d.hashSize key) key value) (d.fresh :: members)
      (update chains (lookupHashval d.hashSize key)
        (d.fresh :: chains (lookupHashval d.hashSize key)))
      (update m key (some value)) := by
  have hlt := h.lookupHashval_lt key
  generalize hval : lookupHashval d.hashSize key = n at hlt ⊢
  have hcntn : (d.link n key value).count = d.count + 1 := by
    have hcount := h.consistent.count
    exact int32_eq (by omega) (by omega)
  have hcell := DictT.link_heap_fresh h.membersList_ne_fresh n key value
  have hnone : ∀ b ∈ members, (d.heap b).map Pair.key ≠ some key := by
    intro b hb hkey
    obtain ⟨x, hx, hxkey⟩ := map_eq_some_iff.mp hkey
    have hsome := (h.holds key x.value).mpr ⟨b, hb, by rw [hx, ← hxkey]; rfl⟩
    rw [hm] at hsome
    cases hsome
  have holdkey : ∀ b ∈ members,
      ((d.link n key value).heap b).map Pair.key = (d.heap b).map Pair.key := by
    intro b hb
    exact DictT.map_link_heap (fun _ _ => rfl) (h.ne_fresh hb) ..
  have hnewkey : ((d.link n key value).heap d.fresh).map Pair.key = some key := by
    rw [hcell]
    rfl
  constructor
  · constructor
    · exact h.list_link ..
    · exact h.back_link ..
    · intro j hj
      exact h.chain_link hlt key value hj
    · have hperm := @perm_flatMap_update (update chains n (d.fresh :: chains n))
        (range d.hashSize) _ d.fresh (chains n) nodup_range (mem_range.mpr hlt)
        (by rw [update_self])
      rw [update_idem, update_eq_self] at hperm
      exact hperm.trans (h.consistent.same.cons d.fresh)
    · intro b hb c hc hkeys
      rcases mem_cons.mp hb with rfl | hb
      · rcases mem_cons.mp hc with rfl | hc
        · rfl
        · rw [hnewkey, holdkey c hc] at hkeys
          exact absurd hkeys.symm (hnone c hc)
      · rcases mem_cons.mp hc with rfl | hc
        · rw [hnewkey, holdkey b hb] at hkeys
          exact absurd hkeys (hnone b hb)
        · rw [holdkey b hb, holdkey c hc] at hkeys
          exact h.consistent.oneEach b hb c hc hkeys
    · have hold := h.consistent.count
      rw [hcntn, hold, length_cons]
      rfl
  · show (d.members.set _ _).length = d.hashSize
    rw [length_set]
    exact h.size
  · exact h.pos
  · intro i hi b hb k hk
    have hsize : (d.link n key value).hashSize = d.hashSize := rfl
    rw [hsize] at hi ⊢
    by_cases hib : i = n
    · rw [hib, update_self] at hb
      rw [hib]
      rcases mem_cons.mp hb with rfl | hb
      · rw [hnewkey] at hk
        rw [← some.inj hk, hval]
      · rw [holdkey b (h.mem_members_of_chain hlt hb)] at hk
        exact h.bucket _ hlt b hb k hk
    · rw [update_of_ne hib] at hb
      rw [holdkey b (h.mem_members_of_chain hi hb)] at hk
      exact h.bucket i hi b hb k hk
  · intro b hb
    have hne : b ≠ d.fresh := ne_of_gt hb
    rw [DictT.link, modifyAt_eq_none_iff, if_neg hne]
    exact h.unused b (le_of_succ_le hb)
  · rw [hcntn]
    omega
  · intro k v
    have hnew : ((d.link n key value).heap d.fresh).map Pair.content = some (key, value) := by
      rw [hcell]
      rfl
    have hold : ∀ b ∈ members,
        ((d.link n key value).heap b).map Pair.content = (d.heap b).map Pair.content := by
      intro b hb
      exact DictT.map_link_heap (fun _ _ => rfl) (h.ne_fresh hb) ..
    have htail : (∃ b ∈ members,
        ((d.link n key value).heap b).map Pair.content = some (k, v)) ↔ m k = some v := by
      rw [h.holds]
      exact exists_congr (fun b => and_congr_right (fun hb => by rw [hold b hb]))
    rw [exists_mem_cons_iff, htail, hnew, some_inj, mk.injEq]
    by_cases hk : k = key
    · simp [hk, hm]
    · simp [hk, Ne.symm hk]

end

section

variable {a b : Nat}

variable (hb : b ≠ a) (i : Nat) (before : Option Nat)
include hb

variable (pair : Pair α)

theorem DictT.unlink_heap : (d.unlink i before a pair).heap b = unlinkHeap d.heap before pair b :=
  if_neg hb

theorem DictT.map_content_unlink_heap :
    ((d.unlink i before a pair).heap b).map Pair.content = (d.heap b).map Pair.content := by
  rw [unlink_heap hb, unlinkHeap]
  iterate 3 rw [map_modifyAt_of_same (by intro; rfl)]

theorem DictT.map_links_unlink_heap :
    ((d.unlink i before a pair).heap b).map Pair.hashNext =
        (if before = some b then (d.heap b).map (fun _ => pair.hashNext)
        else (d.heap b).map Pair.hashNext) ∧
      ((d.unlink i before a pair).heap b).map Pair.next =
        (if pair.prev = some b then (d.heap b).map (fun _ => pair.next)
        else (d.heap b).map Pair.next) ∧
      ((d.unlink i before a pair).heap b).map Pair.prev =
        if pair.next = some b then (d.heap b).map (fun _ => pair.prev)
        else (d.heap b).map Pair.prev := by
  rw [unlink_heap hb]
  simp only [unlinkHeap, map_modifyAt, ite_self, and_self]

omit hb

variable {l₁ l₂ : List Nat} {x : Pair α}

section

variable (h : Represents d (l₁ ++ a :: l₂) chains m)
include h

theorem Represents.prev_eq (hx : d.heap a = some x) : x.prev = l₁.getLast? := by
  have hback := h.consistent.back
  rw [reverse_append, reverse_cons, append_assoc, singleton_append] at hback
  rw [hback.link_eq hx, head?_reverse]

theorem Represents.ne_of_mem_split (hb : b ∈ l₁ ++ l₂) : b ≠ a := by
  rintro rfl
  exact (nodup_middle.mp h.consistent.list.nodup).notMem hb

theorem Represents.list_unlink (hx : d.heap a = some x) (i : Nat) (before : Option Nat) :
    Seg Pair.next (d.unlink i before a x).heap (d.unlink i before a x).membersList
      (l₁ ++ l₂) none := by
  have hprev := h.prev_eq hx
  apply h.consistent.list.unlink hx
  · rintro rfl
    have hnone : x.prev = none := hprev
    simp only [DictT.unlink, hnone]
  · intro hne
    have hb := getLast?_eq_some_getLast hne
    rw [hb] at hprev
    simp only [DictT.unlink, hprev]
  · intro b hb hlast
    rw [(DictT.map_links_unlink_heap (h.ne_of_mem_split hb) ..).2.1, hprev, if_neg (Ne.symm hlast)]
  · intro b hb
    have hmem : b ∈ l₁ := mem_of_getLast? hb
    obtain ⟨y, hy⟩ := h.consistent.list.exists_cell (mem_append_left _ hmem)
    rw [(DictT.map_links_unlink_heap (h.ne_of_mem_split (mem_append_left _ hmem)) ..).2.1, hprev,
      if_pos hb, hy]
    rfl

theorem Represents.back_unlink (hx : d.heap a = some x) (i : Nat) (before : Option Nat) :
    Seg Pair.prev (d.unlink i before a x).heap (l₁ ++ l₂).getLast? (l₁ ++ l₂).reverse none := by
  have hprev := h.prev_eq hx
  have hnext : x.next = l₂.head? := h.consistent.list.link_eq hx
  have hback := h.consistent.back
  rw [reverse_append, reverse_cons, append_assoc, singleton_append] at hback
  rw [reverse_append]
  apply hback.unlink hx
  · intro hl
    obtain rfl := reverse_eq_nil_iff.mp hl
    rw [append_nil]
    exact hprev.symm
  · intro hne
    have hl : l₂ ≠ [] := fun hc => hne (by rw [hc]; rfl)
    rw [getLast?_append_of_ne_nil l₁ hl,
      getLast?_append_of_ne_nil l₁ (cons_ne_nil a l₂), getLast?_cons_of_ne_nil hl]
  · intro b hb hlast
    have hmem : b ∈ l₁ ++ l₂ := by
      rw [mem_append, mem_reverse, mem_reverse] at hb
      exact mem_append.mpr hb.symm
    rw [getLast?_reverse] at hlast
    rw [(DictT.map_links_unlink_heap (h.ne_of_mem_split hmem) ..).2.2, hnext,
      if_neg (Ne.symm hlast)]
  · intro b hb
    rw [getLast?_reverse] at hb
    have hmem : b ∈ l₂ := mem_of_head? hb
    obtain ⟨y, hy⟩ := h.consistent.list.exists_cell (mem_append_right l₁ (mem_cons_of_mem a hmem))
    rw [(DictT.map_links_unlink_heap (h.ne_of_mem_split (mem_append_right _ hmem)) ..).2.2, hnext,
      if_pos hb, hy]
    rfl

end

theorem Represents.chain_eq (h : Represents d members chains m) {i j : Nat}
    (hi : i < d.hashSize) (hj : j < d.hashSize) (hai : a ∈ chains i) (haj : a ∈ chains j) :
    i = j := by
  obtain ⟨x, hx⟩ := (h.consistent.chain i hi).exists_cell hai
  have hkey : (d.heap a).map Pair.key = some x.key := by
    rw [hx]
    rfl
  rw [← h.bucket i hi a hai x.key hkey, h.bucket j hj a haj x.key hkey]

theorem Represents.chain_unlink (h : Represents d members chains m) {i : Nat}
    {front back : List Nat} (hi : i < d.hashSize)
    (hch : chains i = front ++ a :: back) (hx : d.heap a = some x) {j : Nat}
    (hj : j < d.hashSize) :
    Seg Pair.hashNext (d.unlink i front.getLast? a x).heap
      (d.unlink i front.getLast? a x).members[j]?.join
      (update chains i (front ++ back) j) none := by
  by_cases hji : j = i
  · subst hji
    have hseg := h.consistent.chain j hj
    rw [hch] at hseg
    have hne : ∀ b ∈ front ++ back, b ≠ a := by
      rintro b hb rfl
      exact (nodup_middle.mp hseg.nodup).notMem hb
    rw [update_self]
    apply hseg.unlink hx
    · rintro rfl
      have hmembers : (d.unlink j none a x).members = d.members.set j x.hashNext := rfl
      rw [getLast?_nil, hmembers, getElem?_set_self (by rw [h.size]; exact hj)]
      rfl
    · intro hnil
      rw [getLast?_eq_some_getLast hnil]
      rfl
    · intro b hb hlast
      rw [(DictT.map_links_unlink_heap (hne b hb) ..).1, if_neg (Ne.symm hlast)]
    · intro b hb
      have hmem : b ∈ front := mem_of_getLast? hb
      obtain ⟨y, hy⟩ := hseg.exists_cell (mem_append_left _ hmem)
      rw [(DictT.map_links_unlink_heap (hne b (mem_append_left _ hmem)) ..).1, if_pos hb, hy]
      rfl
  · have hoth : ∀ b ∈ chains j, b ∉ chains i := by
      intro b hbj hbi
      exact hji (h.chain_eq hj hi hbj hbi)
    have hmembers : (d.unlink i front.getLast? a x).members[j]? = d.members[j]? := by
      cases front.getLast? with
      | none => exact getElem?_set_ne (Ne.symm hji)
      | some b => rfl
    rw [update_of_ne hji, hmembers]
    apply (h.consistent.chain j hj).congr
    intro b hb
    have hb' := hoth b hb
    rw [hch] at hb'
    have hba : b ≠ a := by
      rintro rfl
      exact hb' (by simp)
    rw [(DictT.map_links_unlink_heap hba ..).1, if_neg]
    intro hc
    exact hb' (mem_append_left _ (mem_of_getLast? hc))

theorem map_key_eq_of_content {x y : Option (Pair α)}
    (h : x.map Pair.content = y.map Pair.content) : x.map Pair.key = y.map Pair.key := by
  have hfst := congrArg (Option.map fst) h
  rw [Option.map_map, Option.map_map] at hfst
  exact hfst

theorem Represents.unlink {front back : List Nat} (h : Represents d (l₁ ++ a :: l₂) chains m)
    (hch : chains (lookupHashval d.hashSize x.key) = front ++ a :: back)
    (hx : d.heap a = some x) :
    Represents (d.unlink (lookupHashval d.hashSize x.key) front.getLast? a x) (l₁ ++ l₂)
      (update chains (lookupHashval d.hashSize x.key) (front ++ back))
      (update m x.key none) := by
  have hlt := h.lookupHashval_lt x.key
  have hcntn : (d.unlink (lookupHashval d.hashSize x.key) front.getLast? a x).count =
      d.count - 1 := by
    have hcount := h.consistent.count
    have hfits := h.fits
    exact int32_eq (by omega) (by omega)
  have hmem : ∀ b ∈ l₁ ++ l₂, b ∈ l₁ ++ a :: l₂ := by
    intro b hb
    exact perm_middle.mem_iff.mpr (mem_cons_of_mem a hb)
  have hcont : ∀ b ∈ l₁ ++ l₂,
      ((d.unlink (lookupHashval d.hashSize x.key) front.getLast? a x).heap b).map Pair.content =
        (d.heap b).map Pair.content := by
    intro b hb
    exact DictT.map_content_unlink_heap (h.ne_of_mem_split hb) ..
  constructor
  · constructor
    · exact h.list_unlink hx ..
    · exact h.back_unlink hx ..
    · intro j hj
      exact h.chain_unlink hlt hch hx hj
    · have hperm := @perm_flatMap_update chains (range d.hashSize) _ a (front ++ back)
        nodup_range (mem_range.mpr hlt) (by rw [hch]; exact perm_middle)
      exact (hperm.symm.trans (h.consistent.same.trans perm_middle)).cons_inv
    · intro b hb c hc hkeys
      rw [map_key_eq_of_content (hcont b hb), map_key_eq_of_content (hcont c hc)] at hkeys
      exact h.consistent.oneEach b (hmem b hb) c (hmem c hc) hkeys
    · rw [hcntn, h.consistent.count, length_append, length_append, length_cons]
      omega
  · have hsize := h.size
    cases front.getLast? with
    | none => exact length_set.trans hsize
    | some b => exact hsize
  · exact h.pos
  · intro i hi b hb key hkey
    have hold : b ∈ chains i ∧ b ≠ a := by
      by_cases hib : i = lookupHashval d.hashSize x.key
      · rw [hib, update_self] at hb
        have hnd := (h.consistent.chain _ hlt).nodup
        rw [hib, hch]
        rw [hch] at hnd
        refine ⟨perm_middle.mem_iff.mpr (mem_cons_of_mem a hb), ?_⟩
        rintro rfl
        exact (nodup_middle.mp hnd).notMem hb
      · rw [update_of_ne hib] at hb
        refine ⟨hb, ?_⟩
        rintro rfl
        exact hib (h.chain_eq hi hlt hb (by rw [hch]; simp))
    rw [map_key_eq_of_content (DictT.map_content_unlink_heap hold.2 ..)] at hkey
    exact h.bucket i hi b hold.1 key hkey
  · intro b hb
    by_cases hba : b = a
    · exact if_pos hba
    · rw [DictT.unlink_heap hba, unlinkHeap, modifyAt_eq_none_iff, modifyAt_eq_none_iff,
        modifyAt_eq_none_iff]
      exact h.unused b hb
  · rw [hcntn]
    have hfits := h.fits
    omega
  · intro key v
    have hxkey : (d.heap a).map Pair.key = some x.key := by
      rw [hx]
      rfl
    by_cases hkey : key = x.key
    · rw [hkey, update_self]
      constructor
      · intro hc
        cases hc
      · rintro ⟨b, hb, hb'⟩
        rw [hcont b hb] at hb'
        have hba := h.eq_of_key (hmem b hb) mem_append_cons_self (map_key_of_content hb') hxkey
        exact absurd hba (h.ne_of_mem_split hb)
    · rw [update_of_ne hkey, h.holds]
      constructor
      · rintro ⟨b, hb, hb'⟩
        rcases mem_cons.mp (perm_middle.mem_iff.mp hb) with rfl | hb
        · have hc := (map_key_of_content hb').symm.trans hxkey
          exact absurd (some.inj hc) hkey
        · exact ⟨b, hb, (hcont b hb).trans hb'⟩
      · rintro ⟨b, hb, hb'⟩
        exact ⟨b, hmem b hb, (hcont b hb).symm.trans hb'⟩

end

theorem Represents.isSome_dictLookup_iff (h : Represents d members chains m) (key : CString) :
    (d.dictLookup key).join.isSome ↔ m key ≠ none := by
  cases hm : m key with
  | none =>
    rw [DictT.dictLookup, h.search_none hm]
    simp
  | some v =>
    obtain ⟨front, a, back, x, _, _, _, _, _, hsrch⟩ := h.search_found hm
    rw [DictT.dictLookup, hsrch]
    simp

theorem DictT.dictSet_found {before : Option Nat} {a : Nat}
    (hsrch : d.search key = some (some (before, a))) (value : α) :
    d.dictSet key value = some (d.replace a value) := by
  rw [dictSet, dictLookup, hsrch]
  rfl

theorem DictT.dictSet_new {i : Nat} (hsrch : d.search key = some none)
    (hch : setHashval d.hashSize key = i) (hi : i < d.members.length) (value : α) :
    d.dictSet key value = some (d.link i key value) := by
  have hin : 0 ≤ setHashval d.hashSize key ∧
      (setHashval d.hashSize key).toNat < d.members.length := by
    rw [hch]
    exact ⟨Int.natCast_nonneg i, hi⟩
  rw [dictSet, dictLookup, hsrch]
  simp only [map_some, map_none, bind_some, if_pos hin]
  rw [hch, Int.toNat_natCast]

section

variable (h : Represents d members chains m)
include h

theorem Represents.exists_dictSet {value : α} (hcan : CanSet d (.set key value)) :
    ∃ d' members' chains', d.dictSet key value = some d' ∧
      Represents d' members' chains' (update m key (some value)) ∧
      members'.length ≤ members.length + 1 := by
  cases hm : m key with
  | some v =>
    obtain ⟨front, a, back, x, _, ha, hx, rfl, _, hsrch⟩ := h.search_found hm
    exact ⟨d.replace a value, members, chains, DictT.dictSet_found hsrch value,
      h.replace ha hx value, le_succ _⟩
  | none =>
    have hnot : ¬ (d.dictLookup key).join.isSome := by
      rw [h.isSome_dictLookup_iff, hm]
      simp
    rw [CanSet] at hcan
    obtain ⟨hch, hcnt⟩ := hcan.resolve_left hnot
    have hin : lookupHashval d.hashSize key < d.members.length := by
      rw [h.size]
      exact h.lookupHashval_lt key
    exact ⟨_, _, _, DictT.dictSet_new (h.search_none hm) hch hin value,
      h.link hm hcnt value, le_rfl⟩

theorem Represents.exists_dictDel (key : CString) :
    ∃ d' members' chains', d.dictDel key = some d' ∧
      Represents d' members' chains' (update m key none) := by
  cases hm : m key with
  | some v =>
    obtain ⟨front, a, back, x, hch, ha, hx, rfl, _, hsrch⟩ := h.search_found hm
    obtain ⟨l₁, l₂, rfl⟩ := append_of_mem ha
    refine ⟨_, _, _, ?_, h.unlink hch hx⟩
    rw [DictT.dictDel, hsrch]
    simp only [bind_some, hx, map_some]
  | none =>
    refine ⟨d, members, chains, ?_, ?_⟩
    · rw [DictT.dictDel, h.search_none hm]
      rfl
    · rw [← hm, update_eq_self]
      exact h

theorem Represents.exists_step (e : Event α) (hcan : CanSet d e) :
    ∃ d' members' chains', step d e = some d' ∧
      Represents d' members' chains' (lastSetStep m e) := by
  cases e with
  | set key value =>
    obtain ⟨d', members', chains', hd', h', _⟩ := h.exists_dictSet hcan
    exact ⟨d', members', chains', hd', h'⟩
  | get key =>
    refine ⟨d, members, chains, ?_, h⟩
    rw [step, h.dictGet_eq]
    rfl
  | del key => exact h.exists_dictDel key

end

theorem exists_represents (hpos : 0 < hashSize) {events : List (Event α)}
    (hall : AllSteps step CanSet (getNewDictFull hashSize) events) :
    ∃ d, run step (getNewDictFull hashSize) events = some d ∧
      ∃ members chains, Represents d members chains (lastSet events) := by
  have hinit : ∃ members chains,
      Represents (getNewDictFull hashSize : DictT α) members chains (lastSet []) :=
    ⟨[], fun _ => [], represents_getNewDictFull hpos⟩
  have hstep : ∀ (es : List (Event α)) (d : DictT α) (e : Event α),
      (∃ members chains, Represents d members chains (lastSet es)) → CanSet d e →
      ∃ d', step d e = some d' ∧
        ∃ members chains, Represents d' members chains (lastSet (es ++ [e])) := by
    rintro es d e ⟨members, chains, h⟩ hcan
    obtain ⟨d', members', chains', hd', h'⟩ := h.exists_step e hcan
    refine ⟨d', hd', members', chains', ?_⟩
    rw [lastSet, foldl_append]
    exact h'
  exact @exists_run_history _ _ step _ _ _
    (fun es d => ∃ members chains, Represents d members chains (lastSet es)) hinit hstep hall

/-- A dictionary whose keys can all be set is the map of what was set last. -/
theorem isMap_of_canSet {hashSize : Nat} (hpos : 0 < hashSize) {events : List (Event α)}
    (hall : AllSteps step CanSet (getNewDictFull hashSize) events) :
    ∃ d, run step (getNewDictFull hashSize) events = some d ∧ IsMap d (lastSet events) := by
  obtain ⟨d, hd, members, chains, h⟩ := exists_represents hpos hall
  exact ⟨d, hd, h.isMap⟩

theorem isMap_setTwiceAndDelete :
    ∃ d, run step (getNewDictFull 2 : DictT Nat)
        [.set ⟨[97, 98], by decide⟩ 1, .set ⟨[99], by decide⟩ 2, .set ⟨[97, 98], by decide⟩ 3,
          .del ⟨[99], by decide⟩, .get ⟨[97, 98], by decide⟩] = some d ∧
      IsMap d (lastSet
        [.set ⟨[97, 98], by decide⟩ 1, .set ⟨[99], by decide⟩ 2, .set ⟨[97, 98], by decide⟩ 3,
          .del ⟨[99], by decide⟩, .get ⟨[97, 98], by decide⟩]) :=
  isMap_of_canSet (by decide) (by decide +kernel)

theorem toNat_hashOf_lt (hlen : key.bytes.length < 2 ^ 32) : (hashOf key).toNat < 2 ^ 31 := by
  rw [hashOf, superFastHash]
  by_cases hle : int32 key.bytes.length ≤ 1
  · rw [if_pos hle]
    decide
  · have hsho : int32 (key.bytes.length : Int) = key.bytes.length ∧ key.bytes.length < 2 ^ 31 := by
      unfold int32 at *
      omega
    have hend : ((key.bytes ++ [0])[key.bytes.length]?).getD 0 = (0 : Byte) := by
      rw [getElem?_concat_length]
      rfl
    have hzero : ((0 : Byte).toBitVec.signExtend 32) = 0#32 := by decide
    rw [if_neg hle, hsho.1, Int.toNat_natCast, hend, hzero, BitVec.xor_zero, BitVec.ofInt_natCast,
      BitVec.toNat_ofNat, mod_eq_of_lt hlen]
    exact hsho.2

theorem setHashval_eq_lookupHashval (hlen : key.bytes.length < 2 ^ 32)
    (hashSize : Nat) : setHashval hashSize key = lookupHashval hashSize key := by
  have hlt := toNat_hashOf_lt hlen
  rw [setHashval, lookupHashval, BitVec.toInt_eq_toNat_of_lt (by omega), Int.ofNat_tmod]

theorem exists_represents_sets (hpos : 0 < hashSize) {pairs : List (CString × α)}
    (hsho : ∀ p ∈ pairs, p.1.bytes.length < 2 ^ 32) (hfew : pairs.length < 2 ^ 31) :
    ∃ d, run step (getNewDictFull hashSize) (pairs.map (fun p => .set p.1 p.2)) = some d ∧
      ∃ members chains, Represents d members chains (lastSet (pairs.map (fun p => .set p.1 p.2))) ∧
        members.length ≤ pairs.length := by
  induction pairs using reverseRecOn with
  | nil => exact ⟨_, rfl, [], fun _ => [], represents_getNewDictFull hpos, le_rfl⟩
  | append_singleton pairs p ih =>
    rw [length_append, length_singleton] at hfew
    obtain ⟨d, hd, members, chains, h, hle⟩ := ih
      (fun q hq => hsho q (mem_append_left _ hq)) (lt_of_succ_lt hfew)
    have hcan : CanSet d (.set p.1 p.2) := by
      right
      refine ⟨setHashval_eq_lookupHashval (hsho p (by simp)) d.hashSize, ?_⟩
      rw [h.consistent.count]
      omega
    obtain ⟨d', members', chains', hd', h', hle'⟩ := h.exists_dictSet hcan
    have hevs : (pairs ++ [p]).map (fun p => Event.set p.1 p.2) =
        pairs.map (fun p => .set p.1 p.2) ++ [.set p.1 p.2] := map_append
    refine ⟨d', ?_, members', chains', ?_, ?_⟩
    · rw [hevs, run_concat_iff]
      exact ⟨d, hd, hd'⟩
    · rw [hevs, lastSet, foldl_append]
      exact h'
    · rw [length_append, length_singleton]
      exact hle'.trans (succ_le_succ hle)

def longKey : CString :=
  ⟨replicate (2 ^ 32 + 2) 0x80, by
    intro hc
    exact absurd (eq_of_mem_replicate hc) (by decide)⟩

theorem hashOf_longKey : hashOf longKey = 0xFFFFFF82#32 := by
  have hlength : longKey.bytes.length = 2 ^ 32 + 2 := length_replicate
  have hlen : int32 ((2 ^ 32 + 2 : Nat) : Int) = 2 := by decide
  have hbyte : (longKey.bytes ++ [0])[(2 : Int).toNat]? = some (0x80 : Byte) := by
    have hin : (2 : Int).toNat < longKey.bytes.length := by
      rw [hlength]
      decide
    rw [getElem?_append_left hin, longKey, getElem?_replicate, if_pos (by decide)]
  rw [hashOf, hlength, hlen, superFastHash, if_neg (by decide), hbyte]
  decide

theorem dictSet_longKey : (getNewDictFull 4 : DictT Nat).dictSet longKey 1 = none := by
  have hhash : setHashval 4 longKey = -2 := by
    rw [setHashval, hashOf_longKey]
    decide
  have hout : ¬ (0 ≤ setHashval (getNewDictFull 4 : DictT Nat).hashSize longKey ∧
      (setHashval (getNewDictFull 4 : DictT Nat).hashSize longKey).toNat <
        (getNewDictFull 4 : DictT Nat).members.length) := by
    rw [getNewDictFull, hhash]
    decide
  have hsrch : (getNewDictFull 4 : DictT Nat).dictLookup longKey = some none := by
    rw [DictT.dictLookup, DictT.search, lookupHashval, getNewDictFull, hashOf_longKey]
    rfl
  rw [DictT.dictSet, hsrch]
  simp only [bind_some, if_neg hout]

theorem not_isMap_longKey :
    ¬ ∃ d, run step (getNewDictFull 4 : DictT Nat) [.set longKey 1] = some d ∧
      IsMap d (lastSet [.set longKey 1]) := by
  rintro ⟨d, hd, _⟩
  rw [run_cons, step, dictSet_longKey] at hd
  cases hd

end GlusterFS.Dict
