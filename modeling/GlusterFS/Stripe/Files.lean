import Mathlib.Data.UInt
import GlusterFS.Lib.FanOut
import GlusterFS.Lib.Iovec
import GlusterFS.Lib.Blocks

/-!
# stripe: the files of the children

A striped file is cut into blocks, and block `q` belongs to child `q` modulo the number of
children.  `stripe_writev` cuts a write at the ends of the blocks and winds each chunk to its
child, at the offset that it has in the striped file; what a child does not have of the file
are holes in its own file.

`Written` are the files of the children after writes that succeeded, whatever the order in
which the children served the chunks of one write.  They are the stripes of the flat file that
the writes make (`Striped`): a child agrees with it on the blocks that it owns and is never
longer.
-/

namespace GlusterFS.Stripe

open Iovec Blocks FlatFile List Function Nat

abbrev Byte := UInt8

def EINVAL : Nat := 22

/-- The children of a volume, and the block size of a file on it, which is kept in an `off_t`. -/
structure Volume where
  children : Nat
  stripeSize : Nat
  stripeSize_lt : stripeSize < 2 ^ 63

variable (v : Volume)

def Volume.childCount : Int :=
  int8 v.children

/-- The walk along `this->children`; it may run off the list. -/
def Volume.walk (index : Nat) : Option Nat :=
  if index < v.children then some index else none

/-- The outcome of a call before any reply: an error, calls to children, or a crash. -/
inductive Dispatch (κ : Type) where
  | unwind (opErrno : Nat)
  | wind (calls : List κ)
  | crash
deriving DecidableEq

structure Write where
  vector : List (List Byte)
  offset : Nat

def Write.data (w : Write) : List Byte :=
  w.vector.flatten

structure Chunk where
  child : Nat
  vector : List (List Byte)
  offset : Nat
deriving DecidableEq

def Chunk.data (x : Chunk) : List Byte :=
  x.vector.flatten

def Volume.writevChild (position : Int) : Option Nat :=
  if v.childCount = 0 then
    none
  else
    v.walk (Int.tmod (position / v.stripeSize) v.childCount).toNat

/-- The loop of `stripe_writev`; its sizes and its offset into the vector are `int32_t`. -/
def writevLoop (v : Volume) (w : Write) : Nat → Int → Int → Option (List Chunk)
  | 0, _, _ => none
  | fuel + 1, offsetOffset, remainingSize =>
    let position := w.offset + offsetOffset
    (v.writevChild position).bind (fun child =>
      let fillSize := min (v.stripeSize - position % v.stripeSize) remainingSize
      let chunk : Chunk :=
        { child := child,
          vector := iovSubset w.vector offsetOffset (offsetOffset + fillSize),
          offset := position.toNat }
      if int32 (remainingSize - fillSize) = 0 then
        some [chunk]
      else
        (writevLoop v w fuel (int32 (offsetOffset + fillSize))
          (int32 (remainingSize - fillSize))).map (fun chunks => chunk :: chunks))

def stripeWritev (w : Write) : Dispatch Chunk :=
  if v.stripeSize = 0 then
    .unwind EINVAL
  else
    let totalSize := int32 (iovLength w.vector)
    match writevLoop v w (totalSize.toNat + 1) 0 totalSize with
    | none => .crash
    | some chunks => .wind chunks

/-- `local->op_ret` after the replies of children that wrote their chunks in full. -/
def writevOpRet : Int → List Chunk → Int
  | opRet, [] => opRet
  | opRet, x :: xs => writevOpRet (int32 (opRet + iovLength x.vector)) xs

abbrev Files := Nat → List Byte

def serve (files : Files) (x : Chunk) : Files :=
  update files x.child (pwrite (files x.child) x.offset x.data)

/--
The files of the children of a file that was empty, after writes each of which was answered
with its full size.  The children served the chunks of a write in some order.
-/
inductive Written (v : Volume) : List Write → Files → Prop
  | empty : Written v [] (fun _ => [])
  | write
      {ws : List Write} {files : Files} {w : Write} {chunks order : List Chunk} :
      Written v ws files →
      stripeWritev v w = .wind chunks →
      order.Perm chunks →
      writevOpRet 0 order = iovLength w.vector →
      Written v (ws ++ [w]) (order.foldl serve files)

def flat (ws : List Write) : List Byte :=
  ws.foldl (fun f w => pwrite f w.offset w.data) []

variable {v} {w : Write}

def Volume.owner (v : Volume) (position : Nat) : Nat :=
  position / v.stripeSize % v.children

theorem childCount_eq (hn : v.children < 128) : v.childCount = v.children :=
  int8_eq hn

theorem childCount_eq_neg (hn : 128 ≤ v.children) (hle : v.children ≤ 256) :
    v.childCount = -((256 - v.children : Nat) : Int) := by
  unfold Volume.childCount int8
  omega

/-- The child that `stripe_writev` takes, if there is one: from 128 on the count is negative. -/
def Volume.writesTo (v : Volume) (position : Nat) : Nat :=
  position / v.stripeSize % if v.children < 128 then v.children else 256 - v.children

theorem writevChild_eq_writesTo (hpos : 0 < v.children) (hn : v.children < 256) (position : Nat) :
    v.writevChild position = some (v.writesTo position) := by
  have hindex : (Int.tmod ((position : Int) / v.stripeSize) v.childCount).toNat =
      v.writesTo position := by
    rw [← Int.natCast_div, Volume.writesTo]
    split_ifs with hfew
    · rw [childCount_eq hfew, ← Int.ofNat_tmod, Int.toNat_natCast]
    · rw [childCount_eq_neg (by omega) (by omega), Int.tmod_neg, ← Int.ofNat_tmod,
        Int.toNat_natCast]
  have hcnt : v.childCount ≠ 0 := by
    unfold Volume.childCount int8
    omega
  rw [Volume.writevChild, if_neg hcnt, hindex]
  refine if_pos ?_
  rw [Volume.writesTo]
  split_ifs with hfew
  · exact mod_lt _ hpos
  · have := mod_lt (position / v.stripeSize) (by omega : 0 < 256 - v.children)
    omega

/-- The index of the child is right: the count of the children fits, or is not divided by yet. -/
def Volume.IndexFits (v : Volume) (position : Nat) : Prop :=
  v.children < 128 ∨ position / v.stripeSize < 256 - v.children

theorem Volume.IndexFits.children_lt {position : Nat} (h : v.IndexFits position) :
    v.children < 256 := by
  rcases h with h | h
  · omega
  · have := zero_lt_of_lt h
    omega

theorem writevChild_eq {position : Nat} (hpos : 0 < v.children) (h : v.IndexFits position) :
    v.writevChild position = some (v.owner position) := by
  rw [writevChild_eq_writesTo hpos h.children_lt, Volume.writesTo, Volume.owner]
  split_ifs with hfew
  · rfl
  · have hless := h.resolve_left hfew
    rw [mod_eq_of_lt hless, mod_eq_of_lt (by omega)]

/-- A chunk is a part of the write, inside one block, and goes to the owner of the block. -/
structure ChunkOf (v : Volume) (w : Write) (x : Chunk) : Prop where
  starts : w.offset ≤ x.offset
  ends : x.offset + x.data.length ≤ w.offset + w.data.length
  data_eq : x.data = pread w.data (x.offset - w.offset) x.data.length
  owned : ∀ p, x.offset ≤ p → p < x.offset + x.data.length → v.owner p = x.child

/-- The chunks are those of the part of a write from `lo` to `hi`. -/
structure ChunksOf (v : Volume) (w : Write) (lo hi : Nat) (xs : List Chunk) : Prop where
  chunk : ∀ x ∈ xs, ChunkOf v w x
  covers : ∀ p, w.offset + lo ≤ p → p < w.offset + hi →
    ∃ x ∈ xs, x.offset ≤ p ∧ p < x.offset + x.data.length
  total : (xs.map (fun x => x.data.length)).sum = hi - lo

/--
Chunks from a position on: each is at the end of the one before it, with no more bytes than its
block has from there on, for the child that owns the block.
-/
def CutFrom (v : Volume) : Nat → List Chunk → Prop
  | _, [] => True
  | position, x :: xs =>
    x.offset = position ∧ x.child = v.owner position ∧
      x.data.length ≤ v.stripeSize - position % v.stripeSize ∧
      CutFrom v (position + x.data.length) xs

variable {x : Chunk} {xs chunks order : List Chunk} {lo hi fuel : Nat} {files : Files}
  {f : List Byte}

theorem chunksOf_cons {mid : Nat} (hx : ChunkOf v w x) (hst : x.offset = w.offset + lo)
    (hlen : x.data.length = mid - lo) (hlo : lo ≤ mid) (hmid : mid ≤ hi)
    (hxs : ChunksOf v w mid hi xs) : ChunksOf v w lo hi (x :: xs) := by
  constructor
  · exact forall_mem_cons.mpr ⟨hx, hxs.chunk⟩
  · intro p hp hp'
    by_cases hsp : p < w.offset + mid
    · exact ⟨x, mem_cons_self, by omega, by omega⟩
    · obtain ⟨y, hy, hcov⟩ := hxs.covers p (by omega) hp'
      exact ⟨y, mem_cons_of_mem x hy, hcov⟩
  · rw [map_cons, sum_cons, hxs.total]
    omega

theorem chunksOf_nil (h : hi ≤ lo) : ChunksOf v w lo hi [] := by
  constructor
  · simp
  · intro p hp hp'
    omega
  · simp
    omega

section

variable {position p : Nat} (hle : position ≤ p)
  (hlt : p < position + (v.stripeSize - position % v.stripeSize))
include hle hlt

theorem block_eq : p / v.stripeSize = position / v.stripeSize := by
  have hmod := Nat.div_add_mod' position v.stripeSize
  apply Nat.div_eq_of_lt_le
  · omega
  · rw [Nat.add_mul, Nat.one_mul]
    omega

theorem owner_eq : v.owner p = v.owner position := by
  rw [Volume.owner, Volume.owner, block_eq hle hlt]

end

theorem chunkOf_cut (lo size : Nat) (hblo : size ≤ v.stripeSize - (w.offset + lo) % v.stripeSize)
    (hfit : lo + size ≤ w.data.length) : let x : Chunk :=
      { child := v.owner (w.offset + lo), vector := iovSubset w.vector lo (lo + size),
        offset := w.offset + lo }
    x.data.length = size ∧ ChunkOf v w x := by
  intro x
  have hdata : x.data = pread w.data lo size := by
    have hbytes := flatten_iovSubset w.vector (le_add_right lo size)
    rw [Int.natCast_add] at hbytes
    rw [Chunk.data, hbytes, ← Write.data, drop_take, pread]
    congr 1
    omega
  have hlen : x.data.length = size := by
    rw [hdata, pread, length_take, length_drop]
    omega
  refine ⟨hlen, ?_⟩
  constructor
  · exact le_add_right _ _
  · rw [hlen]
    show w.offset + lo + size ≤ _
    omega
  · rw [hlen, hdata]
    rw [Nat.add_sub_cancel_left]
  · intro p hp hp'
    rw [hlen] at hp'
    exact owner_eq hp (by change p < w.offset + lo + size at hp'; omega)

theorem fillSize_eq (hss : 0 < v.stripeSize) (position remaining : Nat) :
    ∃ size : Nat, min ((v.stripeSize : Int) - (position : Int) % v.stripeSize) remaining = size ∧
      size ≤ v.stripeSize - position % v.stripeSize ∧
      size ≤ remaining ∧
      (remaining - size = 0 ∨ 0 < size) := by
  have hmod := mod_lt position hss
  refine ⟨min (v.stripeSize - position % v.stripeSize) remaining, ?_, ?_, ?_, ?_⟩
  · rw [← Int.natCast_mod]
    omega
  · exact min_le_left _ _
  · exact min_le_right _ _
  · omega

theorem writevLoop_spec (hss : 0 < v.stripeSize) (hpos : 0 < v.children) {remaining : Nat}
    (hn : v.children < 128 ∨ 0 < remaining ∧ v.IndexFits (w.offset + (lo + remaining - 1)))
    (hfuel : remaining < fuel) (hfit : lo + remaining ≤ w.data.length)
    (hsm : lo + remaining < 2 ^ 31) :
    ∃ xs, writevLoop v w fuel lo remaining = some xs ∧ ChunksOf v w lo (lo + remaining) xs ∧
      CutFrom v (w.offset + lo) xs ∧ (0 < remaining → ∀ x ∈ xs, 0 < x.data.length) := by
  induction fuel generalizing lo remaining with
  | zero => omega
  | succ fuel ih =>
    obtain ⟨size, hfill, hblo, hle, hprogress⟩ := fillSize_eq hss (w.offset + lo) remaining
    obtain ⟨hlen, hchunk⟩ := chunkOf_cut lo size hblo (by omega)
    have hrest : int32 ((remaining : Int) - size) = (remaining - size : Nat) := by
      rw [int32_eq (by omega) (by omega), Int.ofNat_sub hle]
    have hnext : int32 ((lo : Int) + size) = (lo + size : Nat) := by
      rw [int32_eq (by omega) (by omega), Int.natCast_add]
    have hend : lo + size + (remaining - size) = lo + remaining := by omega
    have hindex : v.IndexFits (w.offset + lo) := by
      rcases hn with hn | ⟨hmore, hn⟩
      · exact .inl hn
      · have hle : w.offset + lo ≤ w.offset + (lo + remaining - 1) :=
          Nat.add_le_add_left (Nat.le_sub_one_of_lt (Nat.lt_add_of_pos_right hmore)) _
        exact hn.imp_right (lt_of_le_of_lt (Nat.div_le_div_right hle))
    rw [writevLoop]
    simp only [← Int.natCast_add, writevChild_eq hpos hindex, Option.bind_some, hfill,
      Int.toNat_natCast]
    simp only [Int.natCast_add, hrest, hnext, Int.natCast_eq_zero]
    clear hfill hrest hnext
    by_cases hlast : remaining - size = 0
    · rw [if_pos hlast]
      refine ⟨_, rfl, chunksOf_cons hchunk rfl (by omega) (le_add_right lo size)
        (by omega) (chunksOf_nil (by omega)), ⟨rfl, rfl, hlen.trans_le hblo, trivial⟩, ?_⟩
      intro hmore
      exact forall_mem_singleton.mpr (by omega)
    · rw [if_neg hlast]
      -- A chunk that is not the last one is not empty, so less remains.
      obtain ⟨xs, hxs, hspec, hcut, hfull⟩ :=
        @ih (lo + size) (remaining - size)
          (hn.imp_right (fun h => ⟨by omega, by rw [hend]; exact h.2⟩))
          (by omega) (by omega) (by omega)
      rw [hend] at hspec
      rw [Int.natCast_add] at hxs
      rw [hxs]
      refine ⟨_, rfl, chunksOf_cons hchunk rfl (by omega) (le_add_right lo size)
        (by omega) hspec, ⟨rfl, rfl, hlen.trans_le hblo, ?_⟩, ?_⟩
      · rw [hlen, add_assoc]
        exact hcut
      · intro hmore
        exact forall_mem_cons.mpr ⟨by omega, hfull (by omega)⟩

theorem writevOpRet_lt {opRet : Int} (xs : List Chunk) (h : opRet < 2 ^ 31) :
    writevOpRet opRet xs < 2 ^ 31 := by
  induction xs generalizing opRet with
  | nil => exact h
  | cons x xs ih => exact ih (int32_lt _)

theorem children_pos_of_writevLoop {offsetOffset remaining : Int}
    (h : writevLoop v w fuel offsetOffset remaining = some xs) : 0 < v.children := by
  by_contra hzero
  have hnone : ∀ position, v.writevChild position = none := by
    intro position
    rw [Volume.writevChild, Volume.walk, if_neg (fun hlt => hzero (zero_lt_of_lt hlt)), ite_self]
  cases fuel with
  | zero => cases h
  | succ fuel =>
    rw [writevLoop] at h
    simp only [hnone, Option.bind_none] at h
    cases h

theorem chunksOf_stripeWritev (hn : v.children < 128) (hwind : stripeWritev v w = .wind chunks)
    (hret : writevOpRet 0 order = iovLength w.vector) : ChunksOf v w 0 w.data.length chunks := by
  have hsm : iovLength w.vector < 2 ^ 31 := by
    have := writevOpRet_lt order (by decide : (0 : Int) < 2 ^ 31)
    omega
  have htot : int32 (iovLength w.vector) = iovLength w.vector := int32_eq (by omega) (by omega)
  have hdata : w.data.length = iovLength w.vector := length_flatten_eq_iovLength w.vector
  rw [stripeWritev] at hwind
  split_ifs at hwind with hss
  simp only [htot, Int.toNat_natCast] at hwind
  cases hloop : writevLoop v w (iovLength w.vector + 1) 0 (iovLength w.vector) with
  | none =>
    rw [hloop] at hwind
    cases hwind
  | some xs =>
    rw [hloop] at hwind
    cases hwind
    clear htot
    obtain ⟨ys, hys, hspec, -⟩ := writevLoop_spec (w := w) (pos_of_ne_zero hss)
      (children_pos_of_writevLoop hloop) (.inl hn) (lt_succ_self (iovLength w.vector))
      (by omega : 0 + iovLength w.vector ≤ w.data.length) (by omega)
    have heq : some ys = some chunks := hys.symm.trans hloop
    cases heq
    rw [hdata]
    simpa using hspec

/-- The files of the children hold the blocks of a flat file that they own. -/
structure Striped (v : Volume) (files : Files) (f : List Byte) : Prop where
  owned : ∀ p, unitAt (files (v.owner p)) p = unitAt f p
  length_le : ∀ child, (files child).length ≤ f.length

theorem striped_empty (v : Volume) : Striped v (fun _ => []) [] := by
  constructor
  · intro p
    rfl
  · intro child
    exact le_refl 0

theorem unitAt_foldl_serve (files : Files) (hxs : ∀ x ∈ xs, ChunkOf v w x) (p : Nat) :
    unitAt (xs.foldl serve files (v.owner p)) p =
      if ∃ x ∈ xs, x.offset ≤ p ∧ p < x.offset + x.data.length then
        unitAt w.data (p - w.offset)
      else
        unitAt (files (v.owner p)) p := by
  induction xs generalizing files with
  | nil => simp
  | cons x xs ih =>
    obtain ⟨hx, hrest⟩ := forall_mem_cons.mp hxs
    rw [foldl_cons, ih (serve files x) hrest]
    by_cases hlat : ∃ y ∈ xs, y.offset ≤ p ∧ p < y.offset + y.data.length
    · obtain ⟨y, hy, hcov⟩ := hlat
      rw [if_pos ⟨y, hy, hcov⟩, if_pos ⟨y, mem_cons_of_mem x hy, hcov⟩]
    · rw [if_neg hlat]
      by_cases hcov : x.offset ≤ p ∧ p < x.offset + x.data.length
      · have hst := hx.starts
        rw [if_pos ⟨x, mem_cons_self, hcov⟩, serve, hx.owned p hcov.1 hcov.2,
          update_self, unitAt_pwrite, if_pos hcov, hx.data_eq,
          unitAt_pread _ _ _ _ (by omega)]
        congr 1
        omega
      · have hnone : ¬ ∃ y ∈ x :: xs, y.offset ≤ p ∧ p < y.offset + y.data.length := by
          rintro ⟨y, hy, hy'⟩
          rcases mem_cons.mp hy with rfl | hy
          · exact hcov hy'
          · exact hlat ⟨y, hy, hy'⟩
        rw [if_neg hnone, serve]
        by_cases hchild : v.owner p = x.child
        · rw [hchild, update_self, unitAt_pwrite, if_neg hcov]
        · rw [update_of_ne hchild]

theorem length_serve_le (hx : ChunkOf v w x)
    (h : ∀ child, (files child).length ≤ (pwrite f w.offset w.data).length) (child : Nat) :
    (serve files x child).length ≤ (pwrite f w.offset w.data).length := by
  rw [serve]
  by_cases hchild : child = x.child
  · subst hchild
    rw [update_self]
    by_cases hemp : x.data = []
    · rw [pwrite, if_pos hemp]
      exact h x.child
    · have hends := hx.ends
      have hstarts := hx.starts
      have hlen := length_pos_iff.mpr hemp
      have hdata : w.data ≠ [] := by
        apply ne_nil_of_length_pos
        omega
      have hchild := h x.child
      rw [length_pwrite _ _ hdata] at hchild ⊢
      rw [length_pwrite _ _ hemp]
      omega
  · rw [update_of_ne hchild]
    exact h child

theorem length_foldl_serve_le (hxs : ∀ x ∈ xs, ChunkOf v w x)
    (h : ∀ child, (files child).length ≤ (pwrite f w.offset w.data).length) (child : Nat) :
    (xs.foldl serve files child).length ≤ (pwrite f w.offset w.data).length := by
  induction xs generalizing files with
  | nil => exact h child
  | cons x xs ih =>
    obtain ⟨hx, hrest⟩ := forall_mem_cons.mp hxs
    exact ih hrest (length_serve_le hx h)

theorem Striped.write (h : Striped v files f) (hchs : ChunksOf v w 0 w.data.length chunks)
    (horder : order.Perm chunks) :
    Striped v (order.foldl serve files) (pwrite f w.offset w.data) := by
  have horderOf : ∀ x ∈ order, ChunkOf v w x := fun x hx => hchs.chunk x (horder.mem_iff.mp hx)
  constructor
  · intro p
    rw [unitAt_foldl_serve files horderOf, unitAt_pwrite, h.owned]
    apply if_congr _ rfl rfl
    constructor
    · rintro ⟨x, hx, hle, hlt⟩
      have hstarts := (horderOf x hx).starts
      have hends := (horderOf x hx).ends
      constructor <;> omega
    · rintro ⟨hle, hlt⟩
      obtain ⟨x, hx, hcov⟩ := hchs.covers p (by omega) hlt
      exact ⟨x, horder.mem_iff.mpr hx, hcov⟩
  · have hst : ∀ child, (files child).length ≤ (pwrite f w.offset w.data).length := by
      intro child
      have hle := h.length_le child
      by_cases hdata : w.data = []
      · rw [pwrite, if_pos hdata]
        exact hle
      · rw [length_pwrite _ _ hdata]
        omega
    exact length_foldl_serve_le horderOf hst

theorem Written.striped {ws : List Write} (hn : v.children < 128) (h : Written v ws files) :
    Striped v files (flat ws) := by
  induction h with
  | empty => exact striped_empty v
  | write _ hwind horder hret ih =>
    rw [flat, foldl_append]
    exact ih.write (chunksOf_stripeWritev hn hwind hret) horder

end GlusterFS.Stripe
