import GlusterFS.Lib.Bytes
import GlusterFS.Lib.Run

/-!
# posix: the cache of extended attributes

Values of attributes are kept in a fixed number of entries.  A read that misses takes the entry
that was used least: the entry is flushed, which writes its value to the disk if it is dirty, and
filled from the disk.  A write that misses goes to the disk.  A file can be flushed alone, and so
can the whole cache.

An entry has its fields set all together and cleared all together, so it has a slot or it has none.
The path or the descriptor of a handle leads to the file of the inode of the handle.  A copy of
more bytes than an array has is not defined, and such a step gives no state.

`uncached` is what the attributes are without a cache.  `Refines` says how a cache with its disk
stands for them; every operation keeps it, so the cache is not seen (`transparent`).
-/

namespace GlusterFS.Posix

open Bytes Run List

section

abbrev Key := List Byte

structure Loc where
  path : Option (List Byte)
  inode : Option Nat

structure Fd where
  inode : Nat

structure Handle where
  loc : Loc
  fd : Option Fd

def inodeForHandle (handle : Handle) : Option Nat :=
  if handle.loc.path.isSome then
    handle.loc.inode
  else
    handle.fd.map Fd.inode

abbrev Disk : Type :=
  Nat → Key → Option (List Byte)

/-- The bytes of a new array after `getxattr` into it; a value that is too long leaves it as it is. -/
def getxattr (disk : Disk) (inode : Nat) (key : Key) (len : Nat) : List Byte :=
  match disk inode key with
  | some value =>
    if value.length ≤ len then
      value ++ replicate (len - value.length) 0
    else
      replicate len 0
  | none => replicate len 0

def setxattr (disk : Disk) (inode : Nat) (key : Key) (value : List Byte) : Disk :=
  fun inode' key' => if inode' = inode ∧ key' = key then some value else disk inode' key'

structure Slot where
  key : Key
  array : List Byte
  inode : Nat
  handle : Handle
  dirty : Bool

structure Entry where
  slot : Option Slot
  nraccess : Nat

structure XattrCache where
  entries : List Entry
  disk : Disk

def posixXattrCacheInit (size : Nat) (disk : Disk) : XattrCache :=
  { entries := replicate size { slot := none, nraccess := 0 }, disk := disk }

def Entry.isFor (e : Entry) (inode : Nat) (key : Key) : Bool :=
  e.slot.any (fun x => x.inode == inode && x.key == key)

def Entry.access (e : Entry) : Entry :=
  { e with nraccess := (e.nraccess + 1) % 2 ^ 64 }

def leastUsedFrom (entries : List Entry) (lue : Nat) (indices : List Nat) : Nat :=
  indices.foldl (fun lue i =>
      if (entries[i]?.map Entry.nraccess).getD 0 < (entries[lue]?.map Entry.nraccess).getD 0 then
        i
      else
        lue)
    lue

variable (c : XattrCache)

def XattrCache.modify (i : Nat) (f : Entry → Entry) : XattrCache :=
  { c with entries := c.entries.modify i f }

def XattrCache.cacheLookup (inode : Nat) (key : Key) : Option Nat :=
  c.entries.findIdx? (fun e => e.isFor inode key)

def XattrCache.cacheLeastUsedEntry : Nat :=
  leastUsedFrom c.entries 0 (range c.entries.length)

def XattrCache.cachePopulateEntry (i : Nat) (handle : Handle) (inode : Nat) (key : Key)
    (len : Nat) : XattrCache :=
  c.modify i (fun _ =>
    { slot := some
        { key := key, array := getxattr c.disk inode key len, inode := inode, handle := handle,
          dirty := false },
      nraccess := 1 })

/-- What a slot leaves on the disk when its entry is flushed. -/
def Slot.writeBack (x : Slot) (disk : Disk) : Disk :=
  if x.dirty then
    match inodeForHandle x.handle with
    | some inode => setxattr disk inode x.key x.array
    | none => disk
  else
    disk

def XattrCache.cacheFlushEntry (i : Nat) : XattrCache :=
  { entries := c.entries.modify i (fun _ => { slot := none, nraccess := 0 }),
    disk :=
      match c.entries[i]?.bind Entry.slot with
      | some x => x.writeBack c.disk
      | none => c.disk }

def XattrCache.copyOut (i len : Nat) : Option (List Byte) :=
  match c.entries[i]?.bind Entry.slot with
  | some x => if len ≤ x.array.length then some (x.array.take len) else none
  | none => none

/-- `posix_xattr_cache_read`; a handle without an inode gives no array. -/
def XattrCache.posixXattrCacheRead (handle : Handle) (key : Key) (len : Nat) :
    Option (XattrCache × Option (List Byte)) :=
  match inodeForHandle handle with
  | none => some (c, none)
  | some inode =>
    match c.cacheLookup inode key with
    | some i => (c.copyOut i len).map (fun array => (c.modify i Entry.access, some array))
    | none =>
      let purgee := c.cacheLeastUsedEntry
      let c := (c.modify purgee Entry.access).cacheFlushEntry purgee
      let c := c.cachePopulateEntry purgee handle inode key len
      (c.copyOut purgee len).map (fun array => (c, some array))

def Slot.write (x : Slot) (array : List Byte) : Slot :=
  { x with array := array ++ x.array.drop array.length, dirty := true }

def Entry.write (e : Entry) (array : List Byte) : Entry :=
  { e.access with slot := e.slot.map (fun x => x.write array) }

def XattrCache.posixXattrCacheWrite (handle : Handle) (key : Key) (array : List Byte) :
    Option XattrCache :=
  match inodeForHandle handle with
  | none => some c
  | some inode =>
    match c.cacheLookup inode key with
    | some i => (c.copyOut i array.length).map (fun _ => c.modify i (fun e => e.write array))
    | none => some { c with disk := setxattr c.disk inode key array }

/-- The loop of the two flushes over the entries from an index on. -/
def XattrCache.flushWhere (wanted : Slot → Bool) : List Nat → XattrCache → XattrCache
  | [], c => c
  | i :: indices, c =>
    flushWhere wanted indices
      (if (c.entries[i]?.bind Entry.slot).any wanted then c.cacheFlushEntry i else c)

def XattrCache.posixXattrCacheFlush (handle : Handle) : XattrCache :=
  match inodeForHandle handle with
  | none => c
  | some inode => XattrCache.flushWhere (fun x => x.inode == inode) (range c.entries.length) c

def XattrCache.posixXattrCacheFlushAll : XattrCache :=
  XattrCache.flushWhere (fun _ => true) (range c.entries.length) c

inductive CacheEvent where
  | read (handle : Handle) (key : Key) (len : Nat)
  | write (handle : Handle) (key : Key) (array : List Byte)
  | flush (handle : Handle)
  | flushAll

def cacheStep : XattrCache → CacheEvent → Option XattrCache
  | c, .read handle key len => (c.posixXattrCacheRead handle key len).map Prod.fst
  | c, .write handle key array => c.posixXattrCacheWrite handle key array
  | c, .flush handle => some (c.posixXattrCacheFlush handle)
  | c, .flushAll => some c.posixXattrCacheFlushAll

end

def uncachedStep (disk : Disk) : CacheEvent → Disk
  | .write handle key array =>
    match inodeForHandle handle with
    | some inode => setxattr disk inode key array
    | none => disk
  | _ => disk

/-- Each attribute of a file is used with one length only. -/
def Sized (len : Nat → Key → Nat) : CacheEvent → Prop
  | .read handle key n => ∀ inode ∈ inodeForHandle handle, n = len inode key
  | .write handle key array => ∀ inode ∈ inodeForHandle handle, array.length = len inode key
  | _ => True

variable {c c' : XattrCache} {key : Key} {inode i : Nat} {x : Slot} {len : Nat → Key → Nat}
  {t t' : Disk}

open XattrCache

def XattrCache.slot (c : XattrCache) (i : Nat) : Option Slot :=
  c.entries[i]?.bind Entry.slot

theorem XattrCache.slot_modify (c : XattrCache) (i : Nat) (f : Entry → Entry) (j : Nat) :
    (c.modify i f).slot j =
      if j = i then (c.entries[i]?.map f).bind Entry.slot else c.slot j := by
  rw [slot, modify, getElem?_modify]
  by_cases hj : j = i
  · simp [hj]
  · simp [hj, Ne.symm hj, slot]

theorem XattrCache.slot_access (c : XattrCache) (i j : Nat) :
    (c.modify i Entry.access).slot j = c.slot j := by
  rw [c.slot_modify]
  split_ifs with hj
  · rw [hj, slot]
    cases c.entries[i]? with
    | none | some e => rfl
  · rfl

theorem XattrCache.slot_cacheFlushEntry (c : XattrCache) (i j : Nat) :
    (c.cacheFlushEntry i).slot j = if j = i then none else c.slot j := by
  have hmod := c.slot_modify i (fun _ => { slot := none, nraccess := 0 }) j
  split_ifs with hj
  · rw [if_pos hj] at hmod
    refine hmod.trans ?_
    cases c.entries[i]? with
    | none | some e => rfl
  · rw [if_neg hj] at hmod
    exact hmod

theorem Entry.isFor_iff {e : Entry} :
    e.isFor inode key = true ↔ ∃ x, e.slot = some x ∧ x.inode = inode ∧ x.key = key := by
  rw [isFor]
  cases e.slot with
  | none | some x => simp

theorem XattrCache.slot_eq_some_iff :
    c.slot i = some x ↔ ∃ e, c.entries[i]? = some e ∧ e.slot = some x := by
  rw [slot, Option.bind_eq_some_iff]

theorem XattrCache.cacheLookup_eq_some (h : c.cacheLookup inode key = some i) :
    ∃ x, c.slot i = some x ∧ x.inode = inode ∧ x.key = key := by
  obtain ⟨hi, hfor, _⟩ := findIdx?_eq_some_iff_getElem.mp h
  obtain ⟨x, hx, hino, hkey⟩ := Entry.isFor_iff.mp hfor
  exact ⟨x, slot_eq_some_iff.mpr ⟨_, getElem?_eq_getElem hi, hx⟩, hino, hkey⟩

theorem XattrCache.cacheLookup_eq_none (h : c.cacheLookup inode key = none) (hx : c.slot i = some x)
    : ¬ (x.inode = inode ∧ x.key = key) := by
  obtain ⟨e, he, hslot⟩ := slot_eq_some_iff.mp hx
  rintro ⟨hino, hkey⟩
  have hfalse := findIdx?_eq_none_iff.mp h e (mem_of_getElem? he)
  simp [Entry.isFor_iff.mpr ⟨x, hslot, hino, hkey⟩] at hfalse

theorem leastUsedFrom_lt {entries : List Entry} {size lue : Nat} {indices : List Nat}
    (hlue : lue < size) (hinds : ∀ i ∈ indices, i < size) :
    leastUsedFrom entries lue indices < size := by
  rw [leastUsedFrom]
  induction indices generalizing lue with
  | nil => exact hlue
  | cons i indices ih =>
    rw [foldl_cons]
    apply ih
    · split_ifs
      · exact hinds i mem_cons_self
      · exact hlue
    · intro j hj
      exact hinds j (mem_cons_of_mem _ hj)

theorem XattrCache.cacheLeastUsedEntry_lt (h : 0 < c.entries.length) :
    c.cacheLeastUsedEntry < c.entries.length :=
  leastUsedFrom_lt h (fun _ hi => mem_range.mp hi)

/-- How a cache with its disk stands for the attributes `t`. -/
structure Refines (len : Nat → Key → Nat) (t : Disk) (c : XattrCache) : Prop where
  sized : ∀ i x, c.slot i = some x → x.array.length = len x.inode x.key
  named : ∀ i x, c.slot i = some x → inodeForHandle x.handle = some x.inode
  distinct : ∀ i j x y, c.slot i = some x → c.slot j = some y →
    x.inode = y.inode → x.key = y.key → i = j
  dirty : ∀ i x, c.slot i = some x → x.dirty = true → t x.inode x.key = some x.array
  clean : ∀ i x, c.slot i = some x → x.dirty = false →
    c.disk x.inode x.key = t x.inode x.key ∧ x.array = getxattr t x.inode x.key x.array.length
  absent : ∀ inode key, (∀ i x, c.slot i = some x → ¬ (x.inode = inode ∧ x.key = key)) →
    c.disk inode key = t inode key

theorem getxattr_of_length_eq {value : List Byte} (h : t inode key = some value) :
    getxattr t inode key value.length = value := by
  rw [getxattr, h]
  simp

theorem getxattr_congr (h : t inode key = t' inode key) (n : Nat) :
    getxattr t inode key n = getxattr t' inode key n := by
  rw [getxattr, getxattr, h]

theorem length_getxattr (t : Disk) (inode : Nat) (key : Key) (n : Nat) :
    (getxattr t inode key n).length = n := by
  rw [getxattr]
  split
  · split_ifs with h
    · rw [length_append, length_replicate]
      omega
    · exact length_replicate
  · exact length_replicate

theorem refines_init (len : Nat → Key → Nat) (size : Nat) (disk : Disk) :
    Refines len disk (posixXattrCacheInit size disk) := by
  have hnone : ∀ i, (posixXattrCacheInit size disk).slot i = none := by
    intro i
    rw [slot, posixXattrCacheInit, getElem?_replicate]
    split_ifs <;> rfl
  constructor <;> simp only [hnone]
  iterate 5 · nofun
  · intro inode key _
    rfl

theorem Refines.array_eq (h : Refines len t c) (hx : c.slot i = some x) :
    x.array = getxattr t x.inode x.key (len x.inode x.key) := by
  rw [← h.sized i x hx]
  cases hdirty : x.dirty with
  | true => exact (getxattr_of_length_eq (h.dirty i x hx hdirty)).symm
  | false => exact (h.clean i x hx hdirty).2

theorem Refines.congr (h : Refines len t c) (hslot : ∀ i, c'.slot i = c.slot i)
    (hdisk : c'.disk = c.disk) : Refines len t c' := by
  constructor <;> simp only [hslot, hdisk]
  · exact h.sized
  · exact h.named
  · exact h.distinct
  · exact h.dirty
  · exact h.clean
  · exact h.absent

theorem setxattr_apply
    (disk : Disk) (inode : Nat) (key : Key) (value : List Byte) (inode' : Nat) (key' : Key) :
    setxattr disk inode key value inode' key' =
      if inode' = inode ∧ key' = key then some value else disk inode' key' := rfl

theorem Refines.writeBack_apply (h : Refines len t c) (hx : c.slot i = some x) (inode : Nat)
    (key : Key) :
    x.writeBack c.disk inode key =
      if inode = x.inode ∧ key = x.key then t inode key else c.disk inode key := by
  rw [Slot.writeBack]
  cases hdirty : x.dirty with
  | true =>
    rw [if_pos rfl, h.named i x hx]
    show setxattr c.disk x.inode x.key x.array inode key = _
    rw [setxattr_apply]
    split_ifs with hsame
    · rw [hsame.1, hsame.2, h.dirty i x hx hdirty]
    · rfl
  | false =>
    rw [if_neg Bool.false_ne_true]
    split_ifs with hsame
    · rw [hsame.1, hsame.2, (h.clean i x hx hdirty).1]
    · rfl

theorem XattrCache.disk_cacheFlushEntry (c : XattrCache) (i : Nat) :
    (c.cacheFlushEntry i).disk =
      match c.slot i with
      | some x => x.writeBack c.disk
      | none => c.disk := rfl

theorem Refines.cacheFlushEntry (h : Refines len t c) (i : Nat) :
    Refines len t (c.cacheFlushEntry i) := by
  have hslot : ∀ j x, (c.cacheFlushEntry i).slot j = some x → j ≠ i ∧ c.slot j = some x := by
    intro j x hx
    rw [c.slot_cacheFlushEntry] at hx
    split_ifs at hx with hj
    exact ⟨hj, hx⟩
  -- The disk changes only where the flushed slot stands, and there it gets what is wanted.
  have hdisk : ∀ inode key, (c.cacheFlushEntry i).disk inode key = t inode key ∨
      (c.cacheFlushEntry i).disk inode key = c.disk inode key ∧
        ∀ x, c.slot i = some x → ¬ (x.inode = inode ∧ x.key = key) := by
    intro inode key
    rw [c.disk_cacheFlushEntry]
    cases hx : c.slot i with
    | none => exact .inr ⟨rfl, nofun⟩
    | some x =>
      show x.writeBack c.disk inode key = _ ∨ x.writeBack c.disk inode key = _ ∧ _
      rw [h.writeBack_apply hx]
      split_ifs with hsame
      · exact .inl rfl
      · refine .inr ⟨rfl, ?_⟩
        rintro _ ⟨⟩ ⟨hino, hkey⟩
        exact hsame ⟨hino.symm, hkey.symm⟩
  constructor
  · intro j x hx
    exact h.sized j x (hslot j x hx).2
  · intro j x hx
    exact h.named j x (hslot j x hx).2
  · intro j k x y hx hy
    exact h.distinct j k x y (hslot j x hx).2 (hslot k y hy).2
  · intro j x hx
    exact h.dirty j x (hslot j x hx).2
  · intro j x hx hclean
    obtain ⟨hj, hx⟩ := hslot j x hx
    obtain ⟨hold, harr⟩ := h.clean j x hx hclean
    refine ⟨?_, harr⟩
    rcases hdisk x.inode x.key with hnew | ⟨hsame, _⟩
    · exact hnew
    · rw [hsame, hold]
  · intro inode key habs
    rcases hdisk inode key with hnew | ⟨hsame, hnot⟩
    · exact hnew
    · rw [hsame]
      apply h.absent
      intro j x hx
      by_cases hj : j = i
      · rw [hj] at hx
        exact hnot x hx
      · apply habs j x
        rw [c.slot_cacheFlushEntry, if_neg hj, hx]

section

theorem Refines.put (h : Refines len t c)
    (hslot : ∀ j, c'.slot j = if j = i then some x else c.slot j) (hdisk : c'.disk = c.disk)
    (ht : ∀ inode key, ¬ (inode = x.inode ∧ key = x.key) → t' inode key = t inode key)
    (hoths : ∀ j y, j ≠ i → c.slot j = some y → ¬ (y.inode = x.inode ∧ y.key = x.key))
    (hbef : ∀ y, c.slot i = some y → y.inode = x.inode ∧ y.key = x.key)
    (hsized : x.array.length = len x.inode x.key) (hnamed : inodeForHandle x.handle = some x.inode)
    (hdirty : x.dirty = true → t' x.inode x.key = some x.array)
    (hclean : x.dirty = false → c.disk x.inode x.key = t' x.inode x.key ∧
      x.array = getxattr t' x.inode x.key x.array.length)
    : Refines len t' c' := by
  have hcases : ∀ j y, c'.slot j = some y → (j = i ∧ y = x) ∨ (j ≠ i ∧ c.slot j = some y) := by
    intro j y hy
    rw [hslot] at hy
    split_ifs at hy with hj
    · exact .inl ⟨hj, (Option.some.inj hy).symm⟩
    · exact .inr ⟨hj, hy⟩
  constructor
  · intro j y hy
    rcases hcases j y hy with ⟨_, rfl⟩ | ⟨_, hy⟩
    · exact hsized
    · exact h.sized j y hy
  · intro j y hy
    rcases hcases j y hy with ⟨_, rfl⟩ | ⟨_, hy⟩
    · exact hnamed
    · exact h.named j y hy
  · intro j k y z hy hz hino hkey
    rcases hcases j y hy with ⟨hj, rfl⟩ | ⟨hj, hy⟩
    · rcases hcases k z hz with ⟨hk, rfl⟩ | ⟨hk, hz⟩
      · rw [hj, hk]
      · exact absurd ⟨hino.symm, hkey.symm⟩ (hoths k z hk hz)
    · rcases hcases k z hz with ⟨hk, rfl⟩ | ⟨hk, hz⟩
      · exact absurd ⟨hino, hkey⟩ (hoths j y hj hy)
      · exact h.distinct j k y z hy hz hino hkey
  · intro j y hy hd
    rcases hcases j y hy with ⟨_, rfl⟩ | ⟨hj, hy⟩
    · exact hdirty hd
    · rw [ht _ _ (hoths j y hj hy)]
      exact h.dirty j y hy hd
  · intro j y hy hd
    rw [hdisk]
    rcases hcases j y hy with ⟨_, rfl⟩ | ⟨hj, hy⟩
    · exact hclean hd
    · have hsame := ht _ _ (hoths j y hj hy)
      rw [hsame, getxattr_congr hsame]
      exact h.clean j y hy hd
  · intro inode key habs
    have hne : ¬ (inode = x.inode ∧ key = x.key) := by
      rintro ⟨rfl, rfl⟩
      exact habs i x (by rw [hslot, if_pos rfl]) ⟨rfl, rfl⟩
    rw [hdisk, ht _ _ hne]
    apply h.absent
    intro j y hy hfor
    by_cases hj : j = i
    · rw [hj] at hy
      obtain ⟨hino, hkey⟩ := hbef y hy
      exact hne ⟨hfor.1.symm.trans hino, hfor.2.symm.trans hkey⟩
    · exact habs j y (by rw [hslot, if_neg hj, hy]) hfor

theorem Refines.through (h : Refines len t c)
    (hmiss : c.cacheLookup inode key = none) (array : List Byte) :
    Refines len (setxattr t inode key array)
      { c with disk := setxattr c.disk inode key array } := by
  have hoth : ∀ i x, c.slot i = some x → ¬ (x.inode = inode ∧ x.key = key) :=
    fun i x hx => cacheLookup_eq_none hmiss hx
  constructor
  · exact h.sized
  · exact h.named
  · exact h.distinct
  · intro i x hx hd
    rw [setxattr_apply, if_neg (hoth i x hx)]
    exact h.dirty i x hx hd
  · intro i x hx hd
    have hsame : setxattr t inode key array x.inode x.key = t x.inode x.key := by
      rw [setxattr_apply, if_neg (hoth i x hx)]
    show setxattr c.disk inode key array x.inode x.key = _ ∧ _
    rw [hsame, getxattr_congr hsame, setxattr_apply, if_neg (hoth i x hx)]
    exact h.clean i x hx hd
  · intro inode' key' habs
    show setxattr c.disk inode key array inode' key' = _
    rw [setxattr_apply, setxattr_apply]
    split_ifs
    · rfl
    · exact h.absent inode' key' habs

theorem XattrCache.copyOut_eq (hx : c.slot i = some x) :
    c.copyOut i x.array.length = some x.array := by
  have hbind : c.entries[i]?.bind Entry.slot = some x := hx
  rw [copyOut, hbind]
  simp

theorem XattrCache.length_modify (c : XattrCache) (i : Nat) (f : Entry → Entry) :
    (c.modify i f).entries.length = c.entries.length := by
  rw [modify, List.length_modify]

theorem XattrCache.length_cacheFlushEntry (c : XattrCache) (i : Nat) :
    (c.cacheFlushEntry i).entries.length = c.entries.length := by
  rw [cacheFlushEntry, List.length_modify]

theorem XattrCache.slot_cachePopulateEntry (hi : i < c.entries.length) (handle : Handle)
    (inode : Nat) (key : Key) (n j : Nat) :
    (c.cachePopulateEntry i handle inode key n).slot j =
      if j = i then
        some
          { key := key, array := getxattr c.disk inode key n, inode := inode, handle := handle,
            dirty := false }
      else
        c.slot j := by
  rw [cachePopulateEntry, slot_modify, getElem?_eq_getElem hi]
  rfl

variable {handle : Handle}

/-- An entry that has been emptied is filled for an attribute that is not in the cache. -/
theorem Refines.cachePopulateEntry (h : Refines len t c) (hi : i < c.entries.length)
    (hemp : c.slot i = none)
    (hmiss : ∀ j x, c.slot j = some x → ¬ (x.inode = inode ∧ x.key = key))
    (hino : inodeForHandle handle = some inode) :
    Refines len t (c.cachePopulateEntry i handle inode key (len inode key)) := by
  have hdisk := h.absent inode key hmiss
  refine h.put (c.slot_cachePopulateEntry hi handle inode key (len inode key)) rfl
    (fun _ _ _ => rfl) (fun j y _ hy => hmiss j y hy) ?_ (length_getxattr _ _ _ _) hino ?_ ?_
  · intro y hy
    simp [hemp] at hy
  · intro hd
    cases hd
  · intro _
    refine ⟨hdisk, ?_⟩
    rw [length_getxattr]
    exact getxattr_congr hdisk _

theorem XattrCache.posixXattrCacheRead_of_hit (hino : inodeForHandle handle = some inode)
    (hlook : c.cacheLookup inode key = some i) (n : Nat) :
    c.posixXattrCacheRead handle key n =
      (c.copyOut i n).map (fun array => (c.modify i Entry.access, some array)) := by
  simp only [posixXattrCacheRead, hino, hlook]

def XattrCache.purged (c : XattrCache) (purgee : Nat) : XattrCache :=
  (c.modify purgee Entry.access).cacheFlushEntry purgee

theorem XattrCache.posixXattrCacheRead_of_miss (hino : inodeForHandle handle = some inode)
    (hlook : c.cacheLookup inode key = none) (n : Nat) :
    c.posixXattrCacheRead handle key n =
      (((c.purged c.cacheLeastUsedEntry).cachePopulateEntry c.cacheLeastUsedEntry handle inode key
        n).copyOut c.cacheLeastUsedEntry n).map (fun array =>
          ((c.purged c.cacheLeastUsedEntry).cachePopulateEntry c.cacheLeastUsedEntry handle inode
            key n, some array)) := by
  simp only [posixXattrCacheRead, hino, hlook]
  rfl

variable (h : Refines len t c)
include h

theorem Refines.posixXattrCacheRead (hpos : 0 < c.entries.length)
    (hino : inodeForHandle handle = some inode) (key : Key) :
    ∃ c', c.posixXattrCacheRead handle key (len inode key) =
        some (c', some (getxattr t inode key (len inode key))) ∧
      Refines len t c' ∧ c'.entries.length = c.entries.length := by
  cases hlook : c.cacheLookup inode key with
  | some i =>
    obtain ⟨x, hx, rfl, rfl⟩ := cacheLookup_eq_some hlook
    refine ⟨c.modify i Entry.access, ?_, h.congr (c.slot_access i) rfl, c.length_modify i _⟩
    rw [posixXattrCacheRead_of_hit hino hlook, ← h.array_eq hx, ← h.sized i x hx, copyOut_eq hx]
    rfl
  | none =>
    obtain ⟨i, hi⟩ : ∃ i, i = c.cacheLeastUsedEntry := ⟨_, rfl⟩
    rw [posixXattrCacheRead_of_miss hino hlook, ← hi]
    have hlen : (c.purged i).entries.length = c.entries.length := by
      rw [purged, length_cacheFlushEntry, XattrCache.length_modify]
    have hilt : i < (c.purged i).entries.length := by
      rw [hlen, hi]
      exact cacheLeastUsedEntry_lt hpos
    have hslot : ∀ j, (c.purged i).slot j = if j = i then none else c.slot j := by
      intro j
      rw [purged, slot_cacheFlushEntry, c.slot_access]
    have hemp := hslot i
    rw [if_pos rfl] at hemp
    have hmiss : ∀ j x, (c.purged i).slot j = some x → ¬ (x.inode = inode ∧ x.key = key) := by
      intro j x hx
      rw [hslot] at hx
      split_ifs at hx
      exact cacheLookup_eq_none hlook hx
    have hfl : Refines len t (c.purged i) := (h.congr (c.slot_access i) rfl).cacheFlushEntry i
    have hnew := hfl.cachePopulateEntry hilt hemp hmiss hino
    refine ⟨_, ?_, hnew, (XattrCache.length_modify _ _ _).trans hlen⟩
    have hthere := slot_cachePopulateEntry hilt handle inode key (len inode key) i
    rw [if_pos rfl] at hthere
    have hcopy := copyOut_eq hthere
    have harr := hnew.array_eq hthere
    simp only [length_getxattr] at hcopy harr
    rw [hcopy, ← harr]
    rfl

theorem Refines.posixXattrCacheWrite {array : List Byte}
    (hino : inodeForHandle handle = some inode) (hlen : array.length = len inode key) :
    ∃ c', c.posixXattrCacheWrite handle key array = some c' ∧
      Refines len (setxattr t inode key array) c' ∧ c'.entries.length = c.entries.length := by
  cases hlook : c.cacheLookup inode key with
  | none =>
    simp only [XattrCache.posixXattrCacheWrite, hino, hlook]
    exact ⟨_, rfl, h.through hlook array, rfl⟩
  | some i =>
    obtain ⟨x, hx, rfl, rfl⟩ := cacheLookup_eq_some hlook
    obtain ⟨e, he, hslot⟩ := slot_eq_some_iff.mp hx
    have hxl := h.sized i x hx
    simp only [XattrCache.posixXattrCacheWrite, hino, hlook]
    refine ⟨c.modify i (fun e => e.write array), ?_, ?_, c.length_modify i _⟩
    · rw [hlen, ← hxl, copyOut_eq hx]
      rfl
    · have hwr : (x.write array).array = array := by
        rw [Slot.write, hlen, ← hxl]
        simp
      apply h.put (x := x.write array) (i := i)
      · intro j
        rw [slot_modify, he]
        show (if j = i then e.slot.map _ else _) = _
        rw [hslot]
        rfl
      · rfl
      · intro inode' key' hne
        exact if_neg hne
      · intro j y hj hy hfor
        exact hj (h.distinct j i y x hy hx hfor.1 hfor.2)
      · intro y hy
        rw [hx] at hy
        cases hy
        exact ⟨rfl, rfl⟩
      · rw [hwr]
        exact hlen
      · exact h.named i x hx
      · intro _
        rw [hwr]
        exact if_pos ⟨rfl, rfl⟩
      · intro hd
        cases hd

theorem Refines.flushWhere (wanted : Slot → Bool) (indices : List Nat) :
    Refines len t (XattrCache.flushWhere wanted indices c) ∧
      (XattrCache.flushWhere wanted indices c).entries.length = c.entries.length ∧
      ∀ j x, (XattrCache.flushWhere wanted indices c).slot j = some x →
        c.slot j = some x ∧ (j ∈ indices → wanted x = false) := by
  induction indices generalizing c with
  | nil => exact ⟨h, rfl, fun j x hx => ⟨hx, fun hj => nomatch hj⟩⟩
  | cons i indices ih =>
    rw [XattrCache.flushWhere]
    split_ifs with hwanted
    · obtain ⟨hrest, hlen, hslots⟩ := ih (h.cacheFlushEntry i)
      refine ⟨hrest, hlen.trans (c.length_cacheFlushEntry i), ?_⟩
      intro j x hx
      obtain ⟨hold, hkept⟩ := hslots j x hx
      rw [slot_cacheFlushEntry] at hold
      split_ifs at hold with hj
      refine ⟨hold, ?_⟩
      intro hmem
      rcases mem_cons.mp hmem with hji | hmem
      · exact absurd hji hj
      · exact hkept hmem
    · obtain ⟨hrest, hlen, hslots⟩ := ih h
      refine ⟨hrest, hlen, ?_⟩
      intro j x hx
      obtain ⟨hold, hkept⟩ := hslots j x hx
      refine ⟨hold, ?_⟩
      intro hmem
      rcases mem_cons.mp hmem with rfl | hmem
      · have hnot : (c.slot j).any wanted ≠ true := hwanted
        rw [hold] at hnot
        exact Bool.eq_false_iff.mpr hnot
      · exact hkept hmem

theorem Refines.posixXattrCacheFlush (handle : Handle) :
    Refines len t (c.posixXattrCacheFlush handle) ∧
      (c.posixXattrCacheFlush handle).entries.length = c.entries.length := by
  rw [XattrCache.posixXattrCacheFlush]
  cases inodeForHandle handle with
  | none => exact ⟨h, rfl⟩
  | some inode =>
    obtain ⟨hrest, hlen, _⟩ := h.flushWhere (fun x => x.inode == inode) (range c.entries.length)
    exact ⟨hrest, hlen⟩

theorem Refines.posixXattrCacheFlushAll :
    Refines len t c.posixXattrCacheFlushAll ∧
      c.posixXattrCacheFlushAll.entries.length = c.entries.length ∧
      c.posixXattrCacheFlushAll.disk = t := by
  obtain ⟨hrest, hlen, hslots⟩ := h.flushWhere (fun _ => true) (range c.entries.length)
  refine ⟨hrest, hlen, ?_⟩
  funext inode key
  apply hrest.absent
  intro i x hx
  -- An entry that is still in use would be behind the end of the cache.
  obtain ⟨hold, hkept⟩ := hslots i x hx
  obtain ⟨e, he, _⟩ := slot_eq_some_iff.mp hold
  have hi := (List.getElem?_eq_some_iff.mp he).1
  cases hkept (mem_range.mpr hi)

theorem Refines.step (hpos : 0 < c.entries.length) {e : CacheEvent} (hsized : Sized len e) :
    ∃ c', cacheStep c e = some c' ∧ Refines len (uncachedStep t e) c' ∧ 0 < c'.entries.length := by
  suffices ∃ c', cacheStep c e = some c' ∧ Refines len (uncachedStep t e) c' ∧
      c'.entries.length = c.entries.length by
    obtain ⟨c', hc, href, hlen⟩ := this
    exact ⟨c', hc, href, hlen ▸ hpos⟩
  cases e with
  | read handle key n =>
    rw [cacheStep]
    cases hino : inodeForHandle handle with
    | none =>
      rw [XattrCache.posixXattrCacheRead, hino]
      exact ⟨c, rfl, h, rfl⟩
    | some inode =>
      obtain ⟨c', hread, hc'⟩ := h.posixXattrCacheRead hpos hino key
      rw [hsized inode hino, hread]
      exact ⟨c', rfl, hc'⟩
  | write handle key array =>
    rw [cacheStep, uncachedStep]
    cases hino : inodeForHandle handle with
    | none =>
      rw [XattrCache.posixXattrCacheWrite, hino]
      exact ⟨c, rfl, h, rfl⟩
    | some inode => exact h.posixXattrCacheWrite hino (hsized inode hino)
  | flush handle => exact ⟨_, rfl, h.posixXattrCacheFlush handle⟩
  | flushAll =>
    obtain ⟨hfl, hlen, _⟩ := h.posixXattrCacheFlushAll
    exact ⟨_, rfl, hfl, hlen⟩

end

end GlusterFS.Posix
