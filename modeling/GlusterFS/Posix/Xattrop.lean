import GlusterFS.Posix.XattrCache

/-!
# posix: xattrop

`posix_xattrop_common` goes through the pairs of a dictionary.  It reads the array of counters
under the key of a pair, adds the array of the pair, and writes the sum.  The read and the write
each hold the lock of the cache, and what is between them does not.

Calls are interleaved at these two operations, and with flushes of the cache.  A call that reads
while another one is between its read and its write of the same attribute makes one of the two
additions undone.  Where no call does (`Alone`), the counters are the sums
(`counted_of_alone`).
-/

namespace GlusterFS.Posix

open Bytes Run List Option

/-- `__add_array`: the counters are four bytes each, in network byte order. -/
def addArray : Nat → List Byte → List Byte → List Byte
  | 0, dest, _ => dest
  | count + 1, dest, src =>
    toNetwork 4 (ofNetwork (dest.take 4) + ofNetwork (src.take 4)) ++
      addArray count (dest.drop 4) (src.drop 4)

/-- A call of `posix_xattrop_common`, at one of the pairs, and its array once it was read. -/
structure XattropCall where
  handle : Handle
  xattr : List (Key × List Byte)
  trav : Nat
  array : Option (List Byte)
  reply : List (Key × List Byte)

def XattropCall.pair (x : XattropCall) : Option (Key × List Byte) :=
  x.xattr[x.trav]?

def XattropCall.load (x : XattropCall) (array : List Byte) : XattropCall :=
  { x with array := some array }

def XattropCall.next (x : XattropCall) (key : Key) (sum : List Byte) : XattropCall :=
  { x with trav := x.trav + 1, array := none, reply := x.reply ++ [(key, sum)] }

structure XattropState where
  cache : XattrCache
  calls : List XattropCall

def xattropStart (size : Nat) (disk : Disk) : XattropState :=
  { cache := posixXattrCacheInit size disk, calls := [] }

/-- The array of a call has room for whole counters only. -/
def XattropState.read (s : XattropState) (k : Nat) (x : XattropCall) (key : Key)
    (data : List Byte) : Option XattropState :=
  if data.length % 4 = 0 then
    (s.cache.posixXattrCacheRead x.handle key data.length).map (fun r =>
      { cache := r.1,
        calls := s.calls.set k (x.load (r.2.getD (replicate data.length 0))) })
  else
    none

def XattropState.write (s : XattropState) (k : Nat) (x : XattropCall) (key : Key)
    (array data : List Byte) : Option XattropState :=
  let sum := addArray (data.length / 4) array data
  (s.cache.posixXattrCacheWrite x.handle key sum).map (fun cache =>
    { cache := cache, calls := s.calls.set k (x.next key sum) })

def XattropState.advance (s : XattropState) (k : Nat) (x : XattropCall) : Option XattropState :=
  match x.pair with
  | none => none
  | some (key, data) =>
    match x.array with
    | none => s.read k x key data
    | some array => s.write k x key array data

inductive XattropEvent where
  | call (handle : Handle) (xattr : List (Key × List Byte))
  | advance (k : Nat)
  | flush (handle : Handle)
  | flushAll

def xattropStep : XattropState → XattropEvent → Option XattropState
  | s, .call handle xattr =>
    some { s with
      calls := s.calls ++
        [{ handle := handle, xattr := xattr, trav := 0, array := none, reply := [] }] }
  | s, .advance k => s.calls[k]?.bind (s.advance k)
  | s, .flush handle => some { s with cache := s.cache.posixXattrCacheFlush handle }
  | s, .flushAll => some { s with cache := s.cache.posixXattrCacheFlushAll }

def counter (array : List Byte) (i : Nat) : BitVec 32 :=
  BitVec.ofNat 32 (ofNetwork ((array.drop (4 * i)).take 4))

def total (i : Nat) : List (List Byte) → BitVec 32
  | [] => 0#32
  | array :: arrays => counter array i + total i arrays

/-- The arrays that a call adds to an attribute of a file with some of its pairs. -/
def XattropCall.deltas (x : XattropCall) (inode : Nat) (key : Key)
    (pairs : List (Key × List Byte)) : List (List Byte) :=
  if inodeForHandle x.handle = some inode then
    (pairs.filter (fun p => p.1 == key)).map Prod.snd
  else
    []

def XattropState.deltas (s : XattropState) (inode : Nat) (key : Key) : List (List Byte) :=
  s.calls.flatMap (fun x => x.deltas inode key x.xattr)

def XattropState.Completed (s : XattropState) : Prop :=
  ∀ x ∈ s.calls, x.xattr.length ≤ x.trav
deriving Decidable

def Counted (n : Nat → Key → Nat) (disk : Disk) (s : XattropState) : Prop :=
  ∀ inode key i, i < n inode key →
    counter (getxattr s.cache.posixXattrCacheFlushAll.disk inode key (4 * n inode key)) i =
      counter (getxattr disk inode key (4 * n inode key)) i + total i (s.deltas inode key)

def CountersOf (n : Nat → Key → Nat) : XattropEvent → Prop
  | .call handle xattr => ∀ inode ∈ inodeForHandle handle, ∀ p ∈ xattr, p.2.length = 4 * n inode p.1
  | _ => True

def XattropCall.Between (x : XattropCall) (inode : Nat) (key : Key) : Prop :=
  x.array.isSome ∧ inodeForHandle x.handle = some inode ∧ x.pair.map Prod.fst = some key
deriving Decidable

/-- The condition on a step: a call that reads an attribute finds no other one between. -/
def Alone (s : XattropState) : XattropEvent → Prop
  | .advance k =>
    ∀ x ∈ s.calls[k]?, x.array = none → ∀ inode ∈ inodeForHandle x.handle, ∀ p ∈ x.pair,
      ∀ y ∈ s.calls, ¬ y.Between inode p.1
  | _ => True

instance (s : XattropState) : ∀ e, Decidable (Alone s e) := by
  rintro (_ | _) <;> dsimp only [Alone] <;> infer_instance

open Nat

variable {count k : Nat} {dest data : List Byte} {n : Nat → Key → Nat} {disk t : Disk}
  {s s' : XattropState} {cache : XattrCache} {x : XattropCall} {key : Key}

theorem length_addArray (src : List Byte) (hdest : dest.length = 4 * count) :
    (addArray count dest src).length = 4 * count := by
  induction count generalizing dest src with
  | zero => exact hdest
  | succ count ih =>
    have hrest : (dest.drop 4).length = 4 * count := by
      rw [length_drop]
      omega
    rw [addArray, length_append, length_toNetwork, ih _ hrest]
    omega

theorem counter_addArray {src : List Byte} {i : Nat} (hi : i < count)
    (hdest : dest.length = 4 * count) :
    counter (addArray count dest src) i = counter dest i + counter src i := by
  induction count generalizing dest src i with
  | zero => exact absurd hi (not_lt_zero i)
  | succ count ih =>
    rw [addArray]
    cases i with
    | zero =>
      have htake : ∀ (n : Nat) (rest : List Byte),
          (toNetwork 4 n ++ rest).take 4 = toNetwork 4 n := by
        intro n rest
        exact take_left' (length_toNetwork 4 n)
      simp only [counter, mul_zero, drop_zero, htake, ofNetwork_toNetwork]
      rw [← BitVec.ofNat_add, ← BitVec.toNat_inj, BitVec.toNat_ofNat, BitVec.toNat_ofNat]
      exact mod_mod _ _
    | succ i =>
      have hdrop : ∀ (n : Nat) (rest : List Byte),
          (toNetwork 4 n ++ rest).drop (4 * (i + 1)) = rest.drop (4 * i) := by
        intro n rest
        rw [drop_append, length_toNetwork, drop_eq_nil_of_le, nil_append,
          Nat.mul_succ, Nat.add_sub_cancel]
        rw [length_toNetwork]
        omega
      have hskip : ∀ bytes : List Byte, counter bytes (i + 1) = counter (bytes.drop 4) i := by
        intro bytes
        rw [counter, counter, drop_drop, mul_succ, add_comm]
      have hrest : (dest.drop 4).length = 4 * count := by
        rw [length_drop]
        omega
      have hsum : counter (addArray count (dest.drop 4) (src.drop 4)) i =
          counter (dest.drop 4) i + counter (src.drop 4) i :=
        ih (lt_of_succ_lt_succ hi) hrest
      rw [counter, hdrop, hskip dest, hskip src, ← hsum]
      rfl

theorem total_append (i : Nat) (arrays arrays' : List (List Byte)) :
    total i (arrays ++ arrays') = total i arrays + total i arrays' := by
  induction arrays with
  | nil => rw [nil_append, total, BitVec.zero_add]
  | cons array arrays ih => rw [cons_append, total, total, ih, BitVec.add_assoc]

def XattropState.done (s : XattropState) (inode : Nat) (key : Key) : List (List Byte) :=
  s.calls.flatMap (fun x => x.deltas inode key (x.xattr.take x.trav))

/-- The account of calls of which no two are between read and write of one attribute. -/
structure Account (n : Nat → Key → Nat) (disk t : Disk) (s : XattropState) : Prop where
  cache : Refines (fun inode key => 4 * n inode key) t s.cache
  room : 0 < s.cache.entries.length
  sized : ∀ x ∈ s.calls, ∀ inode ∈ inodeForHandle x.handle, ∀ p ∈ x.xattr,
    p.2.length = 4 * n inode p.1
  sums : ∀ inode key i, i < n inode key →
    counter (getxattr t inode key (4 * n inode key)) i =
      counter (getxattr disk inode key (4 * n inode key)) i + total i (s.done inode key)
  held : ∀ x ∈ s.calls, ∀ inode key, x.Between inode key →
    x.array = some (getxattr t inode key (4 * n inode key))
  alone : ∀ (k k' : Nat) (x y : XattropCall) inode key, s.calls[k]? = some x →
    s.calls[k']? = some y → x.Between inode key → y.Between inode key → k = k'

theorem account_start (n : Nat → Key → Nat) (disk : Disk) {size : Nat} (hsize : 1 ≤ size) :
    Account n disk disk (xattropStart size disk) := by
  constructor
  · exact refines_init _ size disk
  · rw [xattropStart, posixXattrCacheInit, length_replicate]
    exact hsize
  · intro x hx
    cases hx
  · intro inode key i _
    exact (BitVec.add_zero _).symm
  · intro x hx
    cases hx
  · intro k k' x y inode key hx
    cases hx

theorem Account.setCache (h : Account n disk t s)
    (hcache : Refines (fun inode key => 4 * n inode key) t cache)
    (hlen : cache.entries.length = s.cache.entries.length) :
    Account n disk t { s with cache := cache } :=
  ⟨hcache, lt_of_lt_of_eq h.room hlen.symm, h.sized, h.sums, h.held, h.alone⟩

open XattropState

theorem Account.call (h : Account n disk t s) {handle : Handle} {xattr : List (Key × List Byte)}
    (hsized : CountersOf n (.call handle xattr)) :
    Account n disk t
      { s with
        calls := s.calls ++
          [{ handle := handle, xattr := xattr, trav := 0, array := none, reply := [] }] } := by
  obtain ⟨y, hy⟩ : ∃ y : XattropCall,
      y = { handle := handle, xattr := xattr, trav := 0, array := none, reply := [] } := ⟨_, rfl⟩
  rw [← hy]
  have hnot : ∀ inode key, ¬ y.Between inode key := by
    rintro inode key ⟨harr, _⟩
    simp [hy] at harr
  have hcalls : ∀ (k : Nat) (x : XattropCall), (s.calls ++ [y])[k]? = some x →
      s.calls[k]? = some x ∨ x = y := by
    intro k x hx
    rw [getElem?_append] at hx
    split_ifs at hx
    · exact .inl hx
    · exact .inr (mem_singleton.mp (mem_of_getElem? hx))
  constructor
  · exact h.cache
  · exact h.room
  · refine forall_mem_append.mpr ⟨h.sized, forall_mem_singleton.mpr ?_⟩
    rw [hy]
    exact hsized
  · intro inode key i hi
    have hdone : done { s with calls := s.calls ++ [y] } inode key = s.done inode key := by
      rw [done, done, flatMap_append, hy]
      simp [XattropCall.deltas]
    rw [hdone]
    exact h.sums inode key i hi
  · refine forall_mem_append.mpr ⟨h.held, forall_mem_singleton.mpr ?_⟩
    exact fun inode key hbtw => absurd hbtw (hnot inode key)
  · intro k k' x z inode key hx hz hbtw hbtw'
    rcases hcalls k x hx with hx | rfl
    · rcases hcalls k' z hz with hz | rfl
      · exact h.alone k k' x z inode key hx hz hbtw hbtw'
      · exact absurd hbtw' (hnot inode key)
    · exact absurd hbtw (hnot inode key)

theorem total_flatMap_set {α : Type*} (i : Nat) (f : α → List (List Byte)) {calls : List α} {x : α}
    (hx : calls[k]? = some x) (x' : α) {added : List (List Byte)} (hf : f x' = f x ++ added) :
    total i ((calls.set k x').flatMap f) = total i (calls.flatMap f) + total i added := by
  obtain ⟨hk, rfl⟩ := List.getElem?_eq_some_iff.mp hx
  have hsp : calls.flatMap f =
      (calls.take k).flatMap f ++ (f calls[k] ++ (calls.drop (k + 1)).flatMap f) := by
    rw [← flatMap_cons, ← flatMap_append, ← drop_eq_getElem_cons hk, take_append_drop]
  rw [set_eq_take_append_cons_drop, if_pos hk, flatMap_append, flatMap_cons, hsp, hf]
  simp only [total_append]
  rw [BitVec.add_assoc, BitVec.add_assoc, BitVec.add_assoc, BitVec.add_comm (total i added)]

theorem Account.setCall {t' : Disk} {x' : XattropCall} (h : Account n disk t s)
    (hx : s.calls[k]? = some x) (hcache : Refines (fun inode key => 4 * n inode key) t' cache)
    (hroom : cache.entries.length = s.cache.entries.length) (hhandle : x'.handle = x.handle)
    (hxattr : x'.xattr = x.xattr)
    (hsums : ∀ inode key i, i < n inode key → counter (getxattr t' inode key (4 * n inode key)) i =
        counter (getxattr disk inode key (4 * n inode key)) i +
          total i (done { cache := cache, calls := s.calls.set k x' } inode key))
    (hheld : ∀ inode key, x'.Between inode key →
      x'.array = some (getxattr t' inode key (4 * n inode key)))
    (hoths : ∀ (j : Nat) (y : XattropCall), j ≠ k → s.calls[j]? = some y → ∀ inode key,
      y.Between inode key → ¬ x'.Between inode key ∧
      getxattr t' inode key (4 * n inode key) = getxattr t inode key (4 * n inode key))
    : Account n disk t' { cache := cache, calls := s.calls.set k x' } := by
  have hcalls : ∀ j y, (s.calls.set k x')[j]? = some y →
      (j = k ∧ y = x') ∨ (j ≠ k ∧ s.calls[j]? = some y) := by
    intro j y hy
    rw [getElem?_set] at hy
    split_ifs at hy with hj
    · exact .inl ⟨hj.symm, (some.inj hy).symm⟩
    · exact .inr ⟨fun hc => hj hc.symm, hy⟩
  constructor
  · exact hcache
  · exact lt_of_lt_of_eq h.room hroom.symm
  · intro y hy
    rcases mem_or_eq_of_mem_set hy with hy | rfl
    · exact h.sized y hy
    · rw [hhandle, hxattr]
      exact h.sized x (mem_of_getElem? hx)
  · exact hsums
  · intro y hy inode key hbtw
    obtain ⟨j, hj⟩ := mem_iff_getElem?.mp hy
    rcases hcalls j y hj with ⟨_, rfl⟩ | ⟨hjk, hj⟩
    · exact hheld inode key hbtw
    · rw [(hoths j y hjk hj inode key hbtw).2]
      exact h.held y (mem_of_getElem? hj) inode key hbtw
  · intro j j' y z inode key hy hz hbtw hbtw'
    rcases hcalls j y hy with ⟨hj, hyx⟩ | ⟨hj, hyold⟩
    · rcases hcalls j' z hz with ⟨hj', _⟩ | ⟨hj', hzold⟩
      · rw [hj, hj']
      · rw [hyx] at hbtw
        exact absurd hbtw (hoths j' z hj' hzold inode key hbtw').1
    · rcases hcalls j' z hz with ⟨hj', hzx⟩ | ⟨hj', hzold⟩
      · rw [hzx] at hbtw'
        exact absurd hbtw' (hoths j y hj hyold inode key hbtw).1
      · exact h.alone j j' y z inode key hyold hzold hbtw hbtw'

theorem XattropCall.deltas_take_succ (hpair : x.pair = some (key, data)) (inode' : Nat) (key' : Key)
    :
    x.deltas inode' key' (x.xattr.take (x.trav + 1)) = x.deltas inode' key' (x.xattr.take x.trav) ++
        if inodeForHandle x.handle = some inode' ∧ key' = key then [data] else [] := by
  have htake : x.xattr.take (x.trav + 1) = x.xattr.take x.trav ++ [(key, data)] := by
    have hget : x.xattr[x.trav]? = some (key, data) := hpair
    rw [take_add_one, hget]
    rfl
  rw [deltas, deltas, htake]
  by_cases hino : inodeForHandle x.handle = some inode'
  · rw [if_pos hino, if_pos hino, filter_append, map_append]
    by_cases hkey : key' = key
    · simp [hino, hkey]
    · simp [hkey, Ne.symm hkey]
  · simp [hino]

theorem Account.read (h : Account n disk t s) (hx : s.calls[k]? = some x)
    (hpair : x.pair = some (key, data))
    (hal : ∀ inode ∈ inodeForHandle x.handle, ∀ y ∈ s.calls, ¬ y.Between inode key)
    (hs' : s.read k x key data = some s') : Account n disk t s' := by
  rw [XattropState.read] at hs'
  split_ifs at hs'
  obtain ⟨⟨cache, array⟩, hread, hs'⟩ := map_eq_some_iff.mp hs'
  cases hs'
  -- The array that was read is the value of the attribute.
  have hval : Refines (fun inode key => 4 * n inode key) t cache ∧
      cache.entries.length = s.cache.entries.length ∧
      ∀ inode ∈ inodeForHandle x.handle, array = some (getxattr t inode key (4 * n inode key)) := by
    cases hino : inodeForHandle x.handle with
    | none =>
      rw [XattrCache.posixXattrCacheRead, hino] at hread
      cases hread
      refine ⟨h.cache, rfl, ?_⟩
      intro inode hc
      cases hc
    | some inode =>
      obtain ⟨c', hread', href, hlen⟩ := h.cache.posixXattrCacheRead h.room hino key
      rw [h.sized x (mem_of_getElem? hx) inode hino (key, data)
        (mem_of_getElem? hpair), hread'] at hread
      cases hread
      refine ⟨href, hlen, ?_⟩
      intro inode' hino'
      cases hino'
      rfl
  obtain ⟨href, hlen, harr⟩ := hval
  obtain ⟨x', hx'⟩ : ∃ x', x' = x.load (array.getD (replicate data.length 0)) := ⟨_, rfl⟩
  rw [← hx']
  have hbtw : ∀ inode key', x'.Between inode key' →
      inodeForHandle x.handle = some inode ∧ key' = key := by
    rw [hx']
    rintro inode key' ⟨_, hino, hkey⟩
    have hfst : x.pair.map Prod.fst = some key' := hkey
    rw [hpair] at hfst
    exact ⟨hino, (some.inj hfst).symm⟩
  apply h.setCall hx href hlen (by rw [hx']; rfl) (by rw [hx']; rfl)
  · intro inode key' i hi
    have hsame : x'.deltas inode key' (x'.xattr.take x'.trav) =
        x.deltas inode key' (x.xattr.take x.trav) ++ [] := by
      rw [hx', append_nil]
      rfl
    rw [done, total_flatMap_set i _ hx x' hsame, total, BitVec.add_zero]
    exact h.sums inode key' i hi
  · intro inode key' hb
    obtain ⟨hino, rfl⟩ := hbtw inode key' hb
    rw [hx', harr inode hino]
    rfl
  · intro j y _ hy inode key' hb
    refine ⟨?_, rfl⟩
    intro hb'
    obtain ⟨hino, rfl⟩ := hbtw inode key' hb'
    exact hal inode hino y (mem_of_getElem? hy) hb

theorem Account.write (h : Account n disk t s) {array : List Byte} (hx : s.calls[k]? = some x)
    (hpair : x.pair = some (key, data)) (harr : x.array = some array)
    (hs' : s.write k x key array data = some s') : ∃ t', Account n disk t' s' := by
  obtain ⟨cache, hwr, hs'⟩ := map_eq_some_iff.mp hs'
  cases hs'
  have hnot : ∀ sum inode key', ¬ (x.next key sum).Between inode key' := by
    rintro sum inode key' ⟨hnone, _⟩
    cases hnone
  cases hino : inodeForHandle x.handle with
  | none =>
    rw [XattrCache.posixXattrCacheWrite, hino] at hwr
    cases hwr
    refine ⟨t, h.setCall hx h.cache rfl rfl rfl ?_ ?_ ?_⟩
    · intro inode key' i hi
      rw [done, total_flatMap_set i _ hx _ (x.deltas_take_succ hpair inode key')]
      rw [if_neg (fun hc => by rw [hino] at hc; cases hc.1), total, BitVec.add_zero]
      exact h.sums inode key' i hi
    · intro inode key' hb
      exact absurd hb (hnot _ inode key')
    · intro j y _ _ inode key' _
      exact ⟨hnot _ inode key', rfl⟩
  | some inode =>
    have hbtw : x.Between inode key := by
      refine ⟨by rw [harr]; rfl, hino, ?_⟩
      rw [hpair]
      rfl
    have hsize := h.sized x (mem_of_getElem? hx) inode hino (key, data) (mem_of_getElem? hpair)
    have hcnt : data.length / 4 = n inode key := by
      rw [hsize, Nat.mul_div_cancel_left _ (by decide)]
    have hread := h.held x (mem_of_getElem? hx) inode key hbtw
    rw [harr] at hread
    have hlen : array.length = 4 * n inode key := by
      rw [some.inj hread, length_getxattr]
    rw [hcnt] at hwr
    obtain ⟨c', hwr', href, hroom⟩ :=
      h.cache.posixXattrCacheWrite hino (length_addArray data hlen)
    rw [hwr] at hwr'
    cases hwr'
    have hnew : getxattr (setxattr t inode key (addArray (n inode key) array data)) inode key
        (4 * n inode key) = addArray (n inode key) array data := by
      have hset : setxattr t inode key (addArray (n inode key) array data) inode key =
          some (addArray (n inode key) array data) := if_pos ⟨rfl, rfl⟩
      have hval := getxattr_of_length_eq hset
      rw [length_addArray data hlen] at hval
      exact hval
    have hkept : ∀ inode' key', ¬ (inode' = inode ∧ key' = key) →
        getxattr (setxattr t inode key (addArray (n inode key) array data)) inode' key'
          (4 * n inode' key') = getxattr t inode' key' (4 * n inode' key') := by
      intro inode' key' hne
      exact getxattr_congr (if_neg hne) _
    refine ⟨_, h.setCall hx href hroom rfl rfl ?_ ?_ ?_⟩
    · intro inode' key' i hi
      rw [done, total_flatMap_set i _ hx _ (x.deltas_take_succ hpair inode' key')]
      have hsum := h.sums inode' key' i hi
      by_cases hsame : inode' = inode ∧ key' = key
      · obtain ⟨rfl, rfl⟩ := hsame
        rw [if_pos ⟨hino, rfl⟩, hnew, counter_addArray hi hlen, some.inj hread, hsum,
          total, total, BitVec.add_zero, BitVec.add_assoc]
        rfl
      · rw [if_neg, hkept inode' key' hsame, total, BitVec.add_zero]
        · exact hsum
        · rintro ⟨hino', hkey'⟩
          rw [hino] at hino'
          exact hsame ⟨(some.inj hino').symm, hkey'⟩
    · intro inode' key' hb
      exact absurd hb (hnot _ inode' key')
    · intro j y hj hy inode' key' hb
      refine ⟨hnot _ inode' key', hkept inode' key' ?_⟩
      rintro ⟨rfl, rfl⟩
      exact hj (h.alone j k y x inode' key' hy hx hb hbtw)

theorem Account.step (h : Account n disk t s) {e : XattropEvent} (hsized : CountersOf n e)
    (hal : Alone s e) (hs' : xattropStep s e = some s') : ∃ t', Account n disk t' s' := by
  cases e with
  | call handle xattr =>
    cases hs'
    exact ⟨t, h.call hsized⟩
  | advance k =>
    rw [xattropStep, bind_eq_some_iff] at hs'
    obtain ⟨x, hx, hs'⟩ := hs'
    rw [advance] at hs'
    cases hpair : x.pair with
    | none =>
      simp [hpair] at hs'
    | some p =>
      obtain ⟨key, data⟩ := p
      cases harr : x.array with
      | none =>
        simp only [hpair, harr] at hs'
        exact ⟨t, h.read hx hpair
          (fun inode hino => hal x hx harr inode hino (key, data) hpair) hs'⟩
      | some array =>
        simp only [hpair, harr] at hs'
        exact h.write hx hpair harr hs'
  | flush handle =>
    cases hs'
    obtain ⟨href, hlen⟩ := h.cache.posixXattrCacheFlush handle
    exact ⟨t, h.setCache href hlen⟩
  | flushAll =>
    cases hs'
    obtain ⟨href, hlen, _⟩ := h.cache.posixXattrCacheFlushAll
    exact ⟨t, h.setCache href hlen⟩

theorem XattropState.Completed.done_eq (h : s.Completed) (inode : Nat) (key : Key) :
    s.done inode key = s.deltas inode key := by
  apply flatMap_congr
  intro x hx
  rw [take_of_length_le (h x hx)]

theorem Account.counted (h : Account n disk t s) (hdone : s.Completed) : Counted n disk s := by
  intro inode key i hi
  rw [h.cache.posixXattrCacheFlushAll.2.2, ← hdone.done_eq]
  exact h.sums inode key i hi

/-- In every run in which no call reads between, all additions are in the counters at the end. -/
theorem counted_of_alone (n : Nat → Key → Nat) (size : Nat) (disk : Disk)
    (events : List XattropEvent) (s : XattropState)
    (hsize : 1 ≤ size)
    (hsized : ∀ e ∈ events, CountersOf n e)
    (hrun : run xattropStep (xattropStart size disk) events = some s)
    (hall : AllSteps xattropStep Alone (xattropStart size disk) events)
    (hdone : s.Completed) : Counted n disk s := by
  have hboth : AllSteps xattropStep (fun s e => Alone s e ∧ CountersOf n e)
      (xattropStart size disk) events :=
    hall.and _ (AllSteps.of_forall _ (fun e he _ => hsized e he) _)
  obtain ⟨t, ht⟩ : ∃ t, Account n disk t s := by
    refine run_invariant xattropStep ?_ ⟨disk, account_start n disk hsize⟩ hboth hrun
    rintro s e s' ⟨t, ht⟩ ⟨hal, he⟩ hs'
    exact ht.step he hal hs'
  exact ht.counted hdone

def oneAfterTheOther : List XattropEvent :=
  [.call { loc := { path := some [47], inode := some 1 }, fd := none } [([97], [0, 0, 0, 1])],
    .call { loc := { path := none, inode := none }, fd := some { inode := 1 } }
      [([97], [0, 0, 0, 2])],
    .advance 0, .advance 0, .flushAll, .advance 1, .advance 1]

theorem counted_oneAfterTheOther :
    ∃ s, run xattropStep (xattropStart 2 (fun _ _ => none)) oneAfterTheOther = some s ∧
      s.Completed ∧ Counted (fun _ _ => 1) (fun _ _ => none) s := by
  obtain ⟨s, hrun, hs⟩ : ∃ s ∈ run xattropStep (xattropStart 2 (fun _ _ => none)) oneAfterTheOther,
      s.Completed := by decide +kernel
  refine ⟨s, hrun, hs, counted_of_alone (fun _ _ => 1) 2 (fun _ _ => none) oneAfterTheOther s
    (by decide) ?_ hrun (by decide +kernel) hs⟩
  simp [oneAfterTheOther, CountersOf]

def bothReadFirst : List XattropEvent :=
  [.call { loc := { path := some [47], inode := some 1 }, fd := none } [([97], [0, 0, 0, 1])],
    .call { loc := { path := some [47], inode := some 1 }, fd := none } [([97], [0, 0, 0, 1])],
    .advance 0, .advance 1, .advance 0, .advance 1]

/-- One of the two additions is lost. -/
theorem not_counted_bothReadFirst :
    ∃ s, run xattropStep (xattropStart 16 (fun _ _ => none)) bothReadFirst = some s ∧
      s.Completed ∧ s.deltas 1 [97] = [[0, 0, 0, 1], [0, 0, 0, 1]] ∧
      s.cache.posixXattrCacheFlushAll.disk 1 [97] = some [0, 0, 0, 1] ∧
      ¬ Counted (fun _ _ => 1) (fun _ _ => none) s := by
  obtain ⟨s, hrun, hdone, hdeltas, hdisk⟩ :
      ∃ s ∈ run xattropStep (xattropStart 16 (fun _ _ => none)) bothReadFirst, s.Completed ∧
        s.deltas 1 [97] = [[0, 0, 0, 1], [0, 0, 0, 1]] ∧
        s.cache.posixXattrCacheFlushAll.disk 1 [97] = some [0, 0, 0, 1] := by decide +kernel
  refine ⟨s, hrun, hdone, hdeltas, hdisk, ?_⟩
  intro h
  have hsum := h 1 [97] 0 Nat.one_pos
  rw [hdeltas, getxattr, hdisk] at hsum
  exact absurd hsum (by decide)

end GlusterFS.Posix
