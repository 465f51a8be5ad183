import GlusterFS.Stripe.Files

/-!
# stripe: reads of a striped file

`stripe_readv` winds one read for each block that it needs and puts the replies together in the
order of the blocks.  It does not look at how long the replies are: when the file of a child
ends inside a block that is not the last one, the bytes of the blocks after it move up, and a
hole at the end of a child's file is not read as zeros.

A read therefore returns what the flat file has when each child that it needs has written as far
as the read goes (`readv_asFlat_iff`); the other conditions are the ranges of the C integers.
-/

namespace GlusterFS.Stripe

open Iovec Blocks FlatFile FanOut List Function Nat

/-- A read of bytes whose positions are `off_t` values. -/
structure ReadCall where
  offset : Nat
  size : Nat
  fits : offset + size < 2 ^ 63

def ReadCall.stop (r : ReadCall) : Nat :=
  r.offset + r.size

structure ReadWind where
  child : Nat
  offset : Nat
  size : Nat
deriving DecidableEq

def roof64 (a b : Nat) : Nat :=
  uint64 (a + b - 1 : Nat) / b * b

variable (v : Volume)

def numStripe (r : ReadCall) : Int :=
  int32 ((roof64 r.stop v.stripeSize - floor r.offset v.stripeSize) / v.stripeSize : Nat)

def Volume.readvChild (offset : Nat) : Option Nat :=
  if v.childCount = 0 then
    none
  else
    v.walk (offset / v.stripeSize % uint64 v.childCount)

def readvLoop (v : Volume) (r : ReadCall) : Nat → Nat → Nat → List ReadWind
  | 0, _, _ => []
  | n + 1, frameOffset, child =>
    let frameSize := min (roof64 (frameOffset + 1) v.stripeSize) r.stop - frameOffset
    { child := child, offset := frameOffset, size := frameSize } ::
      readvLoop v r n (frameOffset + frameSize) (if child + 1 < v.children then child + 1 else 0)

def stripeReadv (r : ReadCall) : Dispatch ReadWind :=
  if v.stripeSize = 0 then
    .unwind EINVAL
  else
    match v.readvChild r.offset with
    | none => .crash
    | some child => .wind (readvLoop v r (numStripe v r).toNat r.offset child)

structure ReadvReply where
  opRet : Int
  opErrno : Nat
  vector : List (List Byte)
  stSize : Nat

structure ReadLocal where
  replies : Nat → ReadvReply
  callCount : Nat
  unwound : List ReadvReply

def ReadLocal.start : ReadLocal :=
  { replies := fun _ => { opRet := 0, opErrno := 0, vector := [], stSize := 0 },
    callCount := 0,
    unwound := [] }

/-- The loop over the replies: it adds up what they returned and stops at a failure. -/
def readvResult : ReadvReply → List ReadvReply → ReadvReply
  | result, [] => result
  | result, reply :: replies =>
    if reply.opRet = -1 then
      { result with opRet := -1, opErrno := reply.opErrno }
    else
      readvResult
        { result with
          opRet := int32 (result.opRet + reply.opRet),
          stSize := max result.stSize reply.stSize }
        replies

/-- Before the loop: the error of the last reply, and the attributes of the first one. -/
def readvInitial (opErrno : Nat) (replies : List ReadvReply) : ReadvReply :=
  { opRet := 0,
    opErrno := opErrno,
    vector := [],
    stSize := (replies.head?.map ReadvReply.stSize).getD 0 }

def readvAnswer (opErrno : Nat) (replies : List ReadvReply) : ReadvReply :=
  let result := readvResult (readvInitial opErrno replies) replies
  if result.opRet = -1 then
    result
  else
    { result with vector := replies.flatMap ReadvReply.vector }

/-- What is kept of a reply; the vector of a failed call is not. -/
def ReadvReply.kept (reply : ReadvReply) : ReadvReply :=
  { reply with vector := if 0 ≤ reply.opRet then reply.vector else [] }

def stripeReadvCbk (windCount : Nat) (l : ReadLocal) (index : Nat) (reply : ReadvReply) :
    ReadLocal :=
  let replies := update l.replies index reply.kept
  { replies := replies,
    callCount := l.callCount + 1,
    unwound :=
      if l.callCount + 1 = windCount then
        l.unwound ++ [readvAnswer reply.opErrno ((range windCount).map replies)]
      else
        l.unwound }

def ReadWind.bytes (files : Files) (x : ReadWind) : List Byte :=
  pread (files x.child) x.offset x.size

/-- The reply of a child to a read: the bytes of its file, in a vector of any shape. -/
def Serves (files : Files) (x : ReadWind) (reply : ReadvReply) : Prop :=
  reply.opRet = int32 (x.bytes files).length ∧ reply.vector.flatten = x.bytes files

def ServedBy (files : Files) (calls : List ReadWind) (replies : List (Nat × ReadvReply)) : Prop :=
  Answers replies (range calls.length) ∧
    ∀ i reply, (i, reply) ∈ replies → ∃ x, calls[i]? = some x ∧ Serves files x reply

/--
The read is answered once, with the bytes that the flat file has in its range, in whatever
order the replies arrive.
-/
def AsFlat (files : Files) (f : List Byte) (r : ReadCall) : Prop :=
  ∃ calls, stripeReadv v r = .wind calls ∧ ∀ replies, ServedBy files calls replies → ∃ answer,
        (gather (stripeReadvCbk calls.length) ReadLocal.start replies).unwound = [answer] ∧
        answer.opRet = (pread f r.offset r.size).length ∧
        answer.vector.flatten = pread f r.offset r.size

section

variable {v} {r : ReadCall}

def blockCount (v : Volume) (r : ReadCall) : Nat :=
  (roof r.stop v.stripeSize - floor r.offset v.stripeSize) / v.stripeSize

def blockStart (v : Volume) (r : ReadCall) (q : Nat) : Nat :=
  cut r.offset r.stop v.stripeSize q

def blockRead (v : Volume) (r : ReadCall) (q : Nat) : ReadWind :=
  { child := q % v.children,
    offset := blockStart v r q,
    size := blockStart v r (q + 1) - blockStart v r q }

theorem offset_le_stop (r : ReadCall) : r.offset ≤ r.stop :=
  le_add_right _ _

theorem roof64_eq {a b : Nat} (h : a + b - 1 < 2 ^ 64) : roof64 a b = roof a b := by
  rw [roof64, uint64_eq h, roof]

theorem numStripe_eq (v : Volume) (r : ReadCall) : numStripe v r = int32 (blockCount v r) := by
  have hss := v.stripeSize_lt
  have hfits := r.fits
  rw [numStripe, roof64_eq (by rw [ReadCall.stop]; omega), blockCount]

theorem numStripe_le (v : Volume) (r : ReadCall) : (numStripe v r).toNat ≤ blockCount v r := by
  have hle := int32_le (Int.natCast_nonneg (blockCount v r))
  rw [← numStripe_eq] at hle
  omega

variable (hss : 0 < v.stripeSize)
include hss

theorem last_block :
    r.offset / v.stripeSize + blockCount v r = (r.stop + v.stripeSize - 1) / v.stripeSize := by
  have hle : r.offset / v.stripeSize ≤ (r.stop + v.stripeSize - 1) / v.stripeSize := by
    apply Nat.div_le_div_right
    have := offset_le_stop r
    omega
  rw [blockCount, roof, Blocks.floor, ← Nat.sub_mul, Nat.mul_div_cancel _ hss]
  omega

theorem stop_le_last_block :
    r.stop ≤ (r.offset / v.stripeSize + blockCount v r) * v.stripeSize := by
  rw [last_block hss]
  exact le_roof r.stop hss

variable {q : Nat}

theorem block_le_stop (hq : q < r.offset / v.stripeSize + blockCount v r) :
    q * v.stripeSize ≤ r.stop := by
  rw [last_block hss] at hq
  exact (mul_lt_of_lt_roof hss hq).le

theorem offset_lt_next_block (hq : r.offset / v.stripeSize ≤ q) :
    r.offset < (q + 1) * v.stripeSize :=
  lt_mul_of_div_lt (Nat.lt_succ_of_le hq) hss

theorem blockStart_eq (hlast : q < r.offset / v.stripeSize + blockCount v r) :
    blockStart v r q = max r.offset (q * v.stripeSize) := by
  have hstop := block_le_stop hss hlast
  rw [blockStart, cut, min_eq_right hstop]

theorem blockStart_succ_eq (hfst : r.offset / v.stripeSize ≤ q) :
    blockStart v r (q + 1) = min r.stop ((q + 1) * v.stripeSize) := by
  have hnext := offset_lt_next_block hss hfst
  have hle := offset_le_stop r
  rw [blockStart, cut]
  omega

theorem frameSize_eq (hfst : r.offset / v.stripeSize ≤ q)
    (hlast : q < r.offset / v.stripeSize + blockCount v r) :
    min (roof64 (blockStart v r q + 1) v.stripeSize) r.stop = blockStart v r (q + 1) := by
  have hfits := r.fits
  have hsm := v.stripeSize_lt
  have hstop := block_le_stop hss hlast
  have hnext := offset_lt_next_block hss hfst
  have hst := blockStart_eq hss hlast
  have hroof : roof (blockStart v r q + 1) v.stripeSize = (q + 1) * v.stripeSize := by
    have hdiv : (blockStart v r q + 1 + v.stripeSize - 1) / v.stripeSize = q + 1 := by
      rw [succ_mul] at hnext
      apply Nat.div_eq_of_lt_le
      · rw [Nat.succ_mul]
        omega
      · rw [succ_mul, succ_mul]
        omega
    rw [roof, hdiv]
  rw [roof64_eq (by rw [ReadCall.stop] at *; omega), hroof, blockStart_succ_eq hss hfst, min_comm]

theorem readvLoop_eq (hpos : 0 < v.children) {n : Nat} (hfst : r.offset / v.stripeSize ≤ q)
    (hlast : q + n ≤ r.offset / v.stripeSize + blockCount v r) :
    readvLoop v r n (blockStart v r q) (q % v.children) = (range' q n).map (blockRead v r) := by
  induction n generalizing q with
  | zero => rfl
  | succ n ih =>
    have hmono := cut_mono r.offset r.stop v.stripeSize (le_succ q)
    have hnext : (if q % v.children + 1 < v.children then q % v.children + 1 else 0) =
        (q + 1) % v.children := by
      have hlt := mod_lt q hpos
      rw [← mod_add_mod]
      split_ifs with hmore
      · rw [mod_eq_of_lt hmore]
      · have hwrap : q % v.children + 1 = v.children := by omega
        rw [hwrap, mod_self]
    rw [readvLoop, frameSize_eq hss hfst (by omega), hnext]
    have hsum : blockStart v r q + (blockStart v r (q + 1) - blockStart v r q) =
        blockStart v r (q + 1) :=
      add_sub_of_le hmono
    rw [hsum, ih (by omega) (by omega), range'_succ, map_cons]
    rfl

omit hss

/-- A negative count is a large number here, so that the walk runs off the list behind it. -/
theorem readvChild_eq (hpos : 0 < v.children) (hn : v.children < 256) {offset : Nat}
    (hoff : offset < 2 ^ 63) : v.readvChild offset =
      if v.children < 128 ∨ offset / v.stripeSize < v.children then some (v.owner offset)
      else none := by
  have hcnt : v.childCount ≠ 0 := by
    unfold Volume.childCount int8
    omega
  rw [Volume.readvChild, if_neg hcnt, Volume.walk]
  by_cases hfew : v.children < 128
  · rw [childCount_eq hfew, uint64_eq (by omega), if_pos (mod_lt _ hpos), if_pos (.inl hfew)]
    rfl
  · have hmod : offset / v.stripeSize % uint64 v.childCount = offset / v.stripeSize := by
      apply mod_eq_of_lt
      have := Nat.div_le_self offset v.stripeSize
      rw [childCount_eq_neg (by omega) (by omega), uint64]
      omega
    rw [hmod, Volume.owner]
    split_ifs with hlt hright
    · rw [mod_eq_of_lt hlt]
    · exact absurd (.inr hlt) hright
    · exact absurd (‹_ ∨ _›.resolve_left hfew) hlt
    · rfl

theorem readvChild_eq_owner (hpos : 0 < v.children) (h : v.IndexFits r.offset) :
    v.readvChild r.offset = some (v.owner r.offset) := by
  have hoff := r.fits
  rw [readvChild_eq hpos h.children_lt (by omega), if_pos]
  by_cases hfew : v.children < 128
  · exact .inl hfew
  · exact .inr ((h.resolve_left hfew).trans_le (by omega))

theorem stripeReadv_eq (hss : 0 < v.stripeSize) (hpos : 0 < v.children)
    (hchild : v.readvChild r.offset = some (v.owner r.offset)) :
    stripeReadv v r = .wind
      ((range' (r.offset / v.stripeSize) (numStripe v r).toNat).map (blockRead v r)) := by
  have hloop := readvLoop_eq (v := v) (r := r) hss hpos (n := (numStripe v r).toNat)
    (Nat.le_refl (r.offset / v.stripeSize)) (Nat.add_le_add_left (numStripe_le v r) _)
  rw [blockStart, cut_first] at hloop
  rw [stripeReadv, if_neg (by omega), hchild]
  simp only [Volume.owner, hloop]

theorem pos_of_stripeReadv {calls : List ReadWind} (h : stripeReadv v r = .wind calls) :
    0 < v.stripeSize ∧ 0 < v.children := by
  rw [stripeReadv] at h
  split_ifs at h with hss
  refine ⟨pos_of_ne_zero hss, ?_⟩
  by_contra hzero
  have hnone : v.readvChild r.offset = none := by
    rw [Volume.readvChild, Volume.walk, if_neg (fun hlt => hzero (zero_lt_of_lt hlt)), ite_self]
  simp [hnone] at h

end

section

variable {files : Files} {calls : List ReadWind} {replies : List (Nat × ReadvReply)}
  {rs : List ReadvReply}

theorem gather_before_last (replies : List (Nat × ReadvReply)) (windCount : Nat) (l : ReadLocal)
    (h : l.callCount + replies.length < windCount) :
    (gather (stripeReadvCbk windCount) l replies).callCount = l.callCount + replies.length ∧
    (gather (stripeReadvCbk windCount) l replies).unwound = l.unwound := by
  induction replies generalizing l with
  | nil => exact ⟨rfl, rfl⟩
  | cons p replies ih =>
    rw [length_cons] at h
    obtain ⟨hcnt, hunw⟩ := ih (stripeReadvCbk windCount l p.1 p.2)
      (by simp only [stripeReadvCbk]; omega)
    rw [gather_cons, hcnt, hunw, length_cons]
    constructor
    · simp only [stripeReadvCbk]
      omega
    · simp only [stripeReadvCbk]
      rw [if_neg (by omega)]

theorem gather_unwound (hans : Answers replies (range calls.length)) (hne : calls ≠ []) :
    ∃ opErrno, (gather (stripeReadvCbk calls.length) ReadLocal.start replies).unwound =
        [readvAnswer opErrno ((range calls.length).map
          (gather (stripeReadvCbk calls.length) ReadLocal.start replies).replies)] := by
  have hlen := hans.length_eq
  rw [length_range] at hlen
  obtain ⟨before, last, rfl⟩ := (eq_nil_or_concat' replies).resolve_left (by
    rintro rfl
    exact hne (eq_nil_of_length_eq_zero hlen.symm))
  rw [length_append, length_singleton] at hlen
  obtain ⟨hcnt, hunw⟩ := gather_before_last before calls.length ReadLocal.start
    (by simp only [ReadLocal.start]; omega)
  refine ⟨last.2.opErrno, ?_⟩
  rw [gather_append, gather_cons, gather_nil]
  simp only [stripeReadvCbk, hcnt, hunw]
  rw [if_pos (by simp only [ReadLocal.start]; omega)]
  rfl

open ReadWind

theorem kept_serves (hsrv : ServedBy files calls replies)
    (hsm : (calls.flatMap (bytes files)).length < 2 ^ 31) :
    List.Forall₂ (Serves files) calls ((range calls.length).map
        (gather (stripeReadvCbk calls.length) ReadLocal.start replies).replies) := by
  obtain ⟨hans, hserve⟩ := hsrv
  have hnd : (replies.map Prod.fst).Nodup := (List.Perm.nodup_iff hans).mpr nodup_range
  rw [forall₂_iff_get]
  refine ⟨by simp, ?_⟩
  intro i hi _
  obtain ⟨reply, hrep⟩ := hans.exists_reply (mem_range.mpr hi)
  obtain ⟨x, hx, hret, hvec⟩ := hserve i reply hrep
  have hslot := gather_slot (stripeReadvCbk calls.length) ReadLocal.replies
    (fun _ reply => reply.kept)
    (by
      intro l k reply k'
      simp only [stripeReadvCbk, update_apply])
    ReadLocal.start hnd hrep
  have hget : calls.get ⟨i, hi⟩ = x := by
    rw [getElem?_eq_getElem hi] at hx
    simpa using hx
  have hlt : (x.bytes files).length ≤ (calls.flatMap (bytes files)).length := by
    rw [length_flatMap]
    exact le_sum_of_mem (mem_map_of_mem (mem_of_getElem? hx))
  have hnn : 0 ≤ reply.opRet := by
    rw [hret, int32_eq (by omega) (by omega)]
    omega
  rw [hget]
  simp only [get_eq_getElem, getElem_map, getElem_range, hslot]
  exact ⟨hret, by rw [ReadvReply.kept, if_pos hnn, hvec]⟩

theorem readvResult_opRet_lt {result : ReadvReply} (rs : List ReadvReply)
    (h : result.opRet < 2 ^ 31) : (readvResult result rs).opRet < 2 ^ 31 := by
  induction rs generalizing result with
  | nil => exact h
  | cons reply rs ih =>
    rw [readvResult]
    split_ifs
    · exact (by decide : (-1 : Int) < 2 ^ 31)
    · exact ih (int32_lt _)

theorem readvAnswer_opRet_lt (opErrno : Nat) (rs : List ReadvReply) :
    (readvAnswer opErrno rs).opRet < 2 ^ 31 := by
  have hini : (readvInitial opErrno rs).opRet < 2 ^ 31 := (by decide : (0 : Int) < 2 ^ 31)
  rw [readvAnswer]
  split_ifs <;> exact readvResult_opRet_lt rs hini

theorem readvResult_opRet (result : ReadvReply) (total : Nat)
    (h : List.Forall₂ (Serves files) calls rs) (htot : result.opRet = total)
    (hsm : total + (calls.flatMap (bytes files)).length < 2 ^ 31) :
    (readvResult result rs).opRet = total + (calls.flatMap (bytes files)).length := by
  induction h generalizing result total with
  | nil =>
    rw [readvResult, htot]
    simp
  | @cons x reply calls rs hx _ ih =>
    rw [flatMap_cons, length_append] at hsm ⊢
    have hret : reply.opRet = (x.bytes files).length := by
      rw [hx.1, int32_eq (by omega) (by omega)]
    have hsum : int32 (result.opRet + reply.opRet) = (total + (x.bytes files).length : Nat) := by
      rw [htot, hret, int32_eq (by omega) (by omega)]
      omega
    rw [readvResult, if_neg (by omega), ih _ _ hsum (by omega)]
    omega

theorem flatten_flatMap_vector (h : List.Forall₂ (Serves files) calls rs) :
    (rs.flatMap ReadvReply.vector).flatten = calls.flatMap (bytes files) := by
  induction h with
  | nil => rfl
  | cons hx _ ih => rw [flatMap_cons, flatMap_cons, flatten_append, hx.2, ih]

theorem readvAnswer_served (opErrno : Nat) (h : List.Forall₂ (Serves files) calls rs)
    (hsm : (calls.flatMap (bytes files)).length < 2 ^ 31) :
    (readvAnswer opErrno rs).opRet = (calls.flatMap (bytes files)).length ∧
    (readvAnswer opErrno rs).vector.flatten = calls.flatMap (bytes files) := by
  have hret := readvResult_opRet (readvInitial opErrno rs) 0 h rfl (by omega)
  rw [Int.natCast_zero, Int.zero_add] at hret
  rw [readvAnswer, if_neg (by omega)]
  exact ⟨hret, flatten_flatMap_vector h⟩

end

section

variable {v} {files : Files} {f : List Byte} {r : ReadCall}

def blockBytes (v : Volume) (f : List Byte) (r : ReadCall) (q : Nat) : List Byte :=
  pread f (blockStart v r q) (blockStart v r (q + 1) - blockStart v r q)

/-- The bytes that the read gets for block `q`: none when the block is not read. -/
def blockReturned (v : Volume) (files : Files) (r : ReadCall) (q : Nat) : List Byte :=
  if q < r.offset / v.stripeSize + (numStripe v r).toNat then
    (blockRead v r q).bytes files
  else
    []

/--
Every child is long enough: the blocks of the read that start before the end of the flat file
are all read, and none of them ends beyond its child's file without being at the end of the
flat file.  The read asks for at least one block, and an `int32_t` holds the number of bytes.
-/
structure Reaches (v : Volume) (files : Files) (f : List Byte) (r : ReadCall) : Prop where
  stripeSize_pos : 0 < v.stripeSize
  children_pos : 0 < v.children
  numStripe_pos : 0 < numStripe v r
  small : (pread f r.offset r.size).length < 2 ^ 31
  block : ∀ q ∈ range' (r.offset / v.stripeSize) (blockCount v r),
    blockStart v r q < min r.stop f.length →
      q < r.offset / v.stripeSize + (numStripe v r).toNat ∧
      min (blockStart v r (q + 1)) f.length ≤ (files (q % v.children)).length

theorem flatMap_blockBytes (hss : 0 < v.stripeSize) :
    (range' (r.offset / v.stripeSize) (blockCount v r)).flatMap (blockBytes v f r) =
      pread f r.offset r.size := by
  have hcut := flatMap_pread_cut f (offset_le_stop r) (stop_le_last_block (r := r) hss)
  rw [ReadCall.stop, Nat.add_sub_cancel_left] at hcut
  exact hcut

theorem flatMap_bytes (v : Volume) (files : Files) (r : ReadCall) :
    ((range' (r.offset / v.stripeSize) (numStripe v r).toNat).map (blockRead v r)).flatMap
        (ReadWind.bytes files) =
      (range' (r.offset / v.stripeSize) (blockCount v r)).flatMap (blockReturned v files r) := by
  obtain ⟨rest, hrest⟩ := Nat.exists_eq_add_of_le (numStripe_le v r)
  rw [hrest, ← range'_append_1, flatMap_append, flatMap_map]
  have hwnd : ∀ q ∈ range' (r.offset / v.stripeSize) (numStripe v r).toNat,
      (blockRead v r q).bytes files = blockReturned v files r q := by
    intro q hq
    rw [blockReturned, if_pos (mem_range'_1.mp hq).2]
  have hunread : ∀ q ∈ range' (r.offset / v.stripeSize + (numStripe v r).toNat) rest,
      blockReturned v files r q = [] := by
    intro q hq
    have := (mem_range'_1.mp hq).1
    rw [blockReturned, if_neg (by omega)]
  rw [flatMap_congr hwnd, flatMap_eq_nil_iff.mpr hunread, append_nil]

theorem owner_of_block {q p : Nat} (hq : q * v.stripeSize ≤ p) (hq' : p < (q + 1) * v.stripeSize) :
    v.owner p = q % v.children := by
  rw [Volume.owner, Nat.div_eq_of_lt_le hq hq']

variable {q : Nat}

theorem blockReturned_isPrefix (h : Striped v files f) (hss : 0 < v.stripeSize)
    (hfst : r.offset / v.stripeSize ≤ q) (hlast : q < r.offset / v.stripeSize + blockCount v r) :
    blockReturned v files r q <+: blockBytes v f r q := by
  rw [blockReturned]
  split_ifs with hread
  · apply pread_prefix_of_agrees
    · intro p hp hp'
      have hstop := block_le_stop hss hlast
      have hnext := offset_lt_next_block hss hfst
      have hown : v.owner p = q % v.children := by
        simp only [blockRead, blockStart, cut] at hp hp'
        exact owner_of_block (by omega) (by omega)
      have howned := h.owned p
      rw [hown] at howned
      exact howned
    · exact h.length_le _
  · exact nil_prefix

theorem blockStart_lt_succ_iff (hss : 0 < v.stripeSize)
    (hfst : r.offset / v.stripeSize ≤ q) (hlast : q < r.offset / v.stripeSize + blockCount v r) :
    blockStart v r q < blockStart v r (q + 1) ↔ blockStart v r q < r.stop := by
  have hstop := block_le_stop hss hlast
  have hnext := offset_lt_next_block hss hfst
  rw [blockStart, blockStart, cut, cut]
  rw [succ_mul] at hnext ⊢
  omega

theorem length_pread_le_iff {g : List Byte} {start stop last : Nat} (hlen : g.length ≤ f.length)
    (hblo : start < stop ↔ start < last) :
    (pread f start (stop - start)).length ≤ (pread g start (stop - start)).length ↔
      (start < min last f.length → min stop f.length ≤ g.length) := by
  simp only [pread, length_take, length_drop]
  omega

variable (h : Striped v files f) (hss : 0 < v.stripeSize)
include h hss

theorem blockReturned_eq_iff
    (hfst : r.offset / v.stripeSize ≤ q) (hlast : q < r.offset / v.stripeSize + blockCount v r) :
    blockReturned v files r q = blockBytes v f r q ↔ (blockStart v r q < min r.stop f.length →
        q < r.offset / v.stripeSize + (numStripe v r).toNat ∧
        min (blockStart v r (q + 1)) f.length ≤ (files (q % v.children)).length) := by
  have hpre := blockReturned_isPrefix h hss hfst hlast
  have hblo := blockStart_lt_succ_iff hss hfst hlast
  have hiff : blockReturned v files r q = blockBytes v f r q ↔
      (blockBytes v f r q).length ≤ (blockReturned v files r q).length :=
    ⟨fun heq => by rw [heq], fun hle => hpre.eq_of_length_le hle⟩
  rw [hiff, blockReturned, blockBytes]
  by_cases hread : q < r.offset / v.stripeSize + (numStripe v r).toNat
  · rw [if_pos hread]
    simp only [hread, true_and]
    exact length_pread_le_iff (h.length_le _) hblo
  · rw [if_neg hread]
    simp only [hread, false_and]
    have hnil := length_pread_le_iff (f := f) (g := []) (zero_le _) hblo
    rw [pread, pread, drop_nil, take_nil] at hnil
    rw [pread, hnil]
    refine imp_congr_right (fun hbef => ?_)
    rw [length_nil, le_zero, iff_false]
    omega

theorem flatMap_bytes_eq_iff :
    ((range' (r.offset / v.stripeSize) (numStripe v r).toNat).map (blockRead v r)).flatMap
        (ReadWind.bytes files) = pread f r.offset r.size ↔
      ∀ q ∈ range' (r.offset / v.stripeSize) (blockCount v r),
        blockStart v r q < min r.stop f.length →
          q < r.offset / v.stripeSize + (numStripe v r).toNat ∧
          min (blockStart v r (q + 1)) f.length ≤ (files (q % v.children)).length := by
  rw [flatMap_bytes, ← flatMap_blockBytes hss, flatMap_eq_iff]
  · refine forall₂_congr (fun q hq => ?_)
    obtain ⟨hfst, hlast⟩ := mem_range'_1.mp hq
    exact blockReturned_eq_iff h hss hfst hlast
  · intro q hq
    obtain ⟨hfst, hlast⟩ := mem_range'_1.mp hq
    exact blockReturned_isPrefix h hss hfst hlast

theorem length_flatMap_bytes_le :
    (((range' (r.offset / v.stripeSize) (numStripe v r).toNat).map
        (blockRead v r)).flatMap (ReadWind.bytes files)).length ≤
      (pread f r.offset r.size).length := by
  rw [flatMap_bytes, ← flatMap_blockBytes hss, length_flatMap, length_flatMap]
  apply sum_le_sum
  intro q hq
  obtain ⟨hfst, hlast⟩ := mem_range'_1.mp hq
  exact (blockReturned_isPrefix h hss hfst hlast).length_le

omit h hss

def inOrder (files : Files) (calls : List ReadWind) : List (Nat × ReadvReply) :=
  calls.zipIdx.map (fun x =>
    (x.2, { opRet := int32 (x.1.bytes files).length,
            opErrno := 0,
            vector := [x.1.bytes files],
            stSize := (files x.1.child).length }))

theorem servedBy_inOrder (files : Files) (calls : List ReadWind) :
    ServedBy files calls (inOrder files calls) := by
  constructor
  · have hkeys : (inOrder files calls).map Prod.fst = range calls.length := by
      rw [inOrder, map_map, range_eq_range', ← zipIdx_map_snd 0 calls]
      rfl
    rw [Answers, hkeys]
  · intro i reply hmem
    obtain ⟨⟨x, j⟩, hx, heq⟩ := mem_map.mp hmem
    cases heq
    refine ⟨x, mem_zipIdx_iff_getElem?.mp hx, rfl, ?_⟩
    simp

end

/--
After any writes, served in any order, a read returns what the flat file has just when each
child that it needs has written as far as the flat file goes in the blocks of the read.
-/
theorem readv_asFlat_iff {v : Volume} {ws : List Write} {files : Files} (hn : v.children < 128)
    (h : Written v ws files)
    (r : ReadCall) : AsFlat v files (flat ws) r ↔ Reaches v files (flat ws) r := by
  have hstri := h.striped hn
  constructor
  · rintro ⟨calls, hcalls, hanswer⟩
    obtain ⟨hss, hpos⟩ := pos_of_stripeReadv hcalls
    rw [stripeReadv_eq hss hpos (readvChild_eq_owner hpos (.inl hn))] at hcalls
    obtain rfl := Dispatch.wind.inj hcalls
    have hsrv := servedBy_inOrder files
      ((range' (r.offset / v.stripeSize) (numStripe v r).toNat).map (blockRead v r))
    obtain ⟨answer, hunw, hret, hdata⟩ := hanswer _ hsrv
    have hcnt : 0 < numStripe v r := by
      by_contra hnone
      rw [Int.toNat_of_nonpos (by omega)] at hunw
      cases hunw
    obtain ⟨opErrno, hgather⟩ := gather_unwound hsrv.1 (by simp; omega)
    rw [hgather] at hunw
    obtain rfl := singleton_inj.mp hunw
    have hsm : (pread (flat ws) r.offset r.size).length < 2 ^ 31 := by
      have hlt : ((pread (flat ws) r.offset r.size).length : Int) < 2 ^ 31 := by
        rw [← hret]
        exact readvAnswer_opRet_lt _ _
      omega
    have hle := length_flatMap_bytes_le (r := r) hstri hss
    have hkept := kept_serves hsrv (by omega)
    obtain ⟨_, hbytes⟩ := readvAnswer_served opErrno hkept (by omega)
    rw [hdata] at hbytes
    exact ⟨hss, hpos, hcnt, hsm, (flatMap_bytes_eq_iff hstri hss).mp hbytes.symm⟩
  · intro hreach
    have hchild := readvChild_eq_owner (r := r) hreach.children_pos (.inl hn)
    refine ⟨_, stripeReadv_eq hreach.stripeSize_pos hreach.children_pos hchild, ?_⟩
    intro replies hsrv
    have hbytes := (flatMap_bytes_eq_iff hstri hreach.stripeSize_pos).mpr hreach.block
    have hcnt := hreach.numStripe_pos
    obtain ⟨opErrno, hgather⟩ := gather_unwound hsrv.1 (by simp; omega)
    have hkept := kept_serves hsrv (by rw [hbytes]; exact hreach.small)
    have hanswer := readvAnswer_served opErrno hkept (by rw [hbytes]; exact hreach.small)
    rw [hbytes] at hanswer
    exact ⟨_, hgather, hanswer⟩

theorem blockOfTwo_lt : 2 < 2 ^ 63 := by
  decide

theorem firstFour_fits : 0 + 4 < 2 ^ 63 := by
  decide

def twoByTwo : Volume :=
  { children := 2, stripeSize := 2, stripeSize_lt := blockOfTwo_lt }

def firstFour : ReadCall :=
  { offset := 0, size := 4, fits := firstFour_fits }

def firstBlock : Write :=
  { vector := [[1, 2]], offset := 0 }

def firstByte : Write :=
  { vector := [[1]], offset := 0 }

def secondBlock : Write :=
  { vector := [[7, 8]], offset := 2 }

theorem written_twoByTwo {w : Write} {x : Chunk} (hwind : stripeWritev twoByTwo w = .wind [x])
    (hret : writevOpRet 0 [x] = iovLength w.vector) :
    Written twoByTwo [w, secondBlock]
      (serve (serve (fun _ => []) x) { child := 1, vector := [[7, 8]], offset := 2 }) := by
  have hsec : stripeWritev twoByTwo secondBlock =
      .wind [{ child := 1, vector := [[7, 8]], offset := 2 }] := by decide +kernel
  have hfst := Written.write Written.empty hwind (List.Perm.refl [x]) hret
  exact Written.write hfst hsec (List.Perm.refl _) (by decide)

theorem asFlat_twoByTwo :
    ∃ files, Written twoByTwo [firstBlock, secondBlock] files ∧
      AsFlat twoByTwo files [1, 2, 7, 8] firstFour := by
  have hwrn := written_twoByTwo (w := firstBlock)
    (x := { child := 0, vector := [[1, 2]], offset := 0 }) (by decide +kernel) (by decide)
  refine ⟨_, hwrn, (readv_asFlat_iff (by decide) hwrn firstFour).mpr ?_⟩
  constructor
  · decide
  · decide
  · decide
  · decide
  · decide

/-- The first byte and the second block: the hole between them is not read. -/
theorem not_asFlat_twoByTwo :
    ∃ files, Written twoByTwo [firstByte, secondBlock] files ∧
      flat [firstByte, secondBlock] = [1, 0, 7, 8] ∧
      ¬ AsFlat twoByTwo files [1, 0, 7, 8] firstFour := by
  have hwrn := written_twoByTwo (w := firstByte)
    (x := { child := 0, vector := [[1]], offset := 0 }) (by decide +kernel) (by decide)
  refine ⟨_, hwrn, by decide, ?_⟩
  rintro ⟨calls, hcalls, hanswer⟩
  have hwinds : stripeReadv twoByTwo firstFour =
      .wind [{ child := 0, offset := 0, size := 2 }, { child := 1, offset := 2, size := 2 }] := by
    decide
  rw [hwinds] at hcalls
  obtain rfl := Dispatch.wind.inj hcalls
  obtain ⟨answer, hunw, hret, _⟩ := hanswer _ (servedBy_inOrder _ _)
  have hthree : answer.opRet = 3 := by
    obtain rfl := singleton_inj.mp hunw
    decide
  rw [hthree] at hret
  revert hret
  decide

section

variable {v} {w : Write} {r : ReadCall} {xs : List Chunk} {p lo : Nat}

def ReadWind.Has (x : ReadWind) (p : Nat) : Prop :=
  x.offset ≤ p ∧ p < x.offset + x.size

end

end GlusterFS.Stripe
