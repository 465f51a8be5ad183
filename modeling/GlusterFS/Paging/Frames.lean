import Mathlib.Data.UInt
import GlusterFS.Lib.Iovec
import GlusterFS.Lib.Blocks

/-!
# Reads that are put together from pages

io-cache and read-ahead answer a read from pages of the file.  The frame of the read keeps a
list of fills: a page that is ready, or that a fault has brought in, adds the part of it that
the read asks for, at its place among the fills that are there already (`Frame.fill`, which is
`ioc_frame_fill` and `ra_frame_fill`).

`Filled` says which pages a frame has been filled from, when all pages hold what the file has.
A frame without an open page has the bytes of the file in its range (`Filled.flatten_fills`).
The sizes of the fills are another matter: what a fill adds to `op_ret` is computed in unsigned
arithmetic and is too large for a page that ends before the offset of the read (`fillSize`).
-/

namespace GlusterFS.Paging

open Iovec Blocks FlatFile List Function Nat

variable {offset size q : Nat} {x : Fill}

section

abbrev Byte := UInt8

/-- What a frame has got from one page; `start` is where in the file its bytes start. -/
structure Fill where
  offset : Nat
  size : Int
  start : Nat
  vector : List (List Byte)

/--
The local data of a read.  `floor` is not in the code: it is the number of the version of the
file that the writes answered before the read had made.
-/
structure Frame where
  offset : Nat
  size : Nat
  opRet : Int
  opErrno : Nat
  fills : List Fill
  waitCount : Nat
  floor : Nat

def Frame.stop (fr : Frame) : Nat :=
  fr.offset + fr.size

/-- `page->size`: the `int` that `iov_length` returns, kept in a `size_t`. -/
def pageLength : Option (List (List Byte)) → Nat
  | none => 0
  | some vector => uint64 (int32 (iovLength vector))

/-- `min (page->size - src_offset, size - dst_offset)`, of unsigned values, as a `ssize_t`. -/
def copySize (pageSize src size dst : Nat) : Int :=
  int64 (min (uint64 ((pageSize : Int) - src)) (uint64 ((size : Int) - dst)) : Nat)

/-- The fill from a page.  Of the two offsets into the page and into the read one is zero. -/
def newFill (pageOffset : Nat) (vector : Option (List (List Byte))) (offset size : Nat) : Fill :=
  let copy := copySize (pageLength vector) (offset - pageOffset) size (pageOffset - offset)
  let src := if copy < 0 then 0 else offset - pageOffset
  { offset := pageOffset,
    size := max copy 0,
    start := pageOffset + src,
    vector := iovSubset (vector.getD []) src (src + max copy 0) }

def Frame.fill (fr : Frame) (pageOffset : Nat) (vector : Option (List (List Byte)))
    (offset size : Nat) : Frame :=
  if fr.opRet ≠ -1 ∧ pageLength vector ≠ 0 then
    { fr with
      fills := insertFill Fill.offset (newFill pageOffset vector offset size) fr.fills,
      opRet := int32 (fr.opRet + (newFill pageOffset vector offset size).size) }
  else
    fr

variable (fr : Frame) (pageOffset : Nat) (vector : Option (List (List Byte)))

@[simp] theorem Frame.fill_keeps (offset size : Nat) :
    (fr.fill pageOffset vector offset size).offset = fr.offset ∧
      (fr.fill pageOffset vector offset size).size = fr.size ∧
      (fr.fill pageOffset vector offset size).waitCount = fr.waitCount ∧
      (fr.fill pageOffset vector offset size).floor = fr.floor := by
  unfold fill
  split_ifs <;> exact ⟨rfl, rfl, rfl, rfl⟩

theorem Frame.mem_fills_fill {fr : Frame} {pageOffset : Nat} {vector : Option (List (List Byte))}
    (h : x ∈ (fr.fill pageOffset vector offset size).fills) :
    x ∈ fr.fills ∨ x = newFill pageOffset vector offset size := by
  unfold fill at h
  split_ifs at h
  · exact (mem_insertFill.mp h).symm
  · exact .inl h

theorem flatten_newFill (pageOffset : Nat) (vector : List (List Byte)) (offset size : Nat) :
    ∃ src len, (newFill pageOffset (some vector) offset size).start = pageOffset + src ∧
      (newFill pageOffset (some vector) offset size).vector.flatten =
        (vector.flatten.drop src).take len := by
  obtain ⟨copy, hcopy⟩ : ∃ copy : Nat, (copy : Int) =
      max (copySize (pageLength (some vector)) (offset - pageOffset) size
        (pageOffset - offset)) 0 :=
    ⟨_, Int.toNat_of_nonneg (le_max_right _ _)⟩
  simp only [newFill, ← hcopy, Option.getD_some, ← Int.natCast_add]
  refine ⟨_, copy, rfl, ?_⟩
  rw [flatten_iovSubset _ (Nat.le_add_right _ _), drop_take, Nat.add_sub_cancel_left]

end

/-- The sum of two unsigned differences, the smaller of the two, without the wrap-around. -/
theorem copySize_eq {pageSize src dst : Nat} (hpage : pageSize < 2 ^ 31) (hsrc : src < 2 ^ 31)
    (hsize : size < 2 ^ 31) (hdst : dst ≤ size) :
    copySize pageSize src size dst =
      (if src ≤ pageSize then min (pageSize - src) (size - dst) else size - dst : Nat) := by
  have hrest : uint64 ((size : Int) - dst) = size - dst := by
    rw [← Int.ofNat_sub hdst]
    exact uint64_eq (by omega)
  rw [copySize, hrest]
  split_ifs with hle
  · rw [← Int.ofNat_sub hle, uint64_eq (by omega)]
    exact int64_eq (by omega) (by omega)
  · have hbig : size - dst ≤ uint64 ((pageSize : Int) - src) := by
      unfold uint64
      omega
    rw [min_eq_right hbig]
    exact int64_eq (by omega) (by omega)

section

variable (f : List Byte) (ps : Nat)

def pagesOf (fr : Frame) : List Nat :=
  range' (fr.offset / ps) ((fr.stop + ps - 1) / ps - fr.offset / ps)

def pageStart (fr : Frame) (q : Nat) : Nat :=
  cut fr.offset fr.stop ps q

def portion (fr : Frame) (q : Nat) : List Byte :=
  pread f (pageStart ps fr q) (pageStart ps fr (q + 1) - pageStart ps fr q)

/-- A range, given by its offset and size, that has in page `q` what the read needs of it. -/
structure Asks (fr : Frame) (q offset size : Nat) : Prop where
  start : max (q * ps) offset = pageStart ps fr q
  stop : min (offset + size) ((q + 1) * ps) = pageStart ps fr (q + 1)
  size_le : size ≤ fr.size

def fillSize (q offset size : Nat) : Int :=
  copySize (pread f (q * ps) ps).length (offset - q * ps) size (q * ps - offset)

variable {f} {ps} {fr : Frame}

theorem mem_pagesOf_iff : q ∈ pagesOf ps fr ↔ fr.offset / ps ≤ q ∧ q < (fr.stop + ps - 1) / ps := by
  rw [pagesOf, mem_range'_1]
  have hle : fr.offset / ps ≤ (fr.stop + ps - 1) / ps ∨ ps = 0 := by
    by_cases hps : ps = 0
    · exact .inr hps
    · left
      apply Nat.div_le_div_right
      rw [Frame.stop]
      omega
  rcases hle with hle | hps
  · omega
  · subst hps
    simp

theorem mem_pagesOf_of_lt_roof (hfst : fr.offset / ps ≤ q)
    (hlast : q * ps < roof fr.stop ps) : q ∈ pagesOf ps fr := by
  rw [mem_pagesOf_iff]
  refine ⟨hfst, ?_⟩
  exact Nat.lt_of_mul_lt_mul_right hlast

theorem not_le_of_roof_le {t : Nat} (hend : roof fr.stop ps ≤ t) (hq : q ∈ pagesOf ps fr) :
    ¬ t ≤ q * ps := by
  have hlast := (mem_pagesOf_iff.mp hq).2
  rw [roof] at hend
  rcases Nat.eq_zero_or_pos ps with rfl | hps
  · rw [Nat.div_zero] at hlast
    exact absurd hlast (not_lt_zero _)
  · have hlt := Nat.mul_lt_mul_of_pos_right hlast hps
    omega

variable (hps : 0 < ps) (hq : q ∈ pagesOf ps fr)
include hps hq

theorem page_lt_stop : q * ps < fr.stop := by
  have hlast := (mem_pagesOf_iff.mp hq).2
  exact mul_lt_of_lt_roof hps hlast

theorem offset_lt_page_end : fr.offset < (q + 1) * ps := by
  have hfst := (mem_pagesOf_iff.mp hq).1
  exact lt_mul_of_div_lt (Nat.lt_succ_of_le hfst) hps

theorem pageStart_eq : pageStart ps fr q = max fr.offset (q * ps) := by
  have hstop := page_lt_stop hps hq
  rw [pageStart, cut]
  omega

theorem pageStart_succ : pageStart ps fr (q + 1) = min fr.stop ((q + 1) * ps) := by
  have hend := offset_lt_page_end hps hq
  have hle : fr.offset ≤ fr.stop := le_add_right _ _
  rw [pageStart, cut]
  omega

omit hps hq

theorem pageStart_mono (ps : Nat) (fr : Frame) : Monotone (pageStart ps fr) :=
  cut_mono fr.offset fr.stop ps

theorem asks_whole (hps : 0 < ps) (hq : q ∈ pagesOf ps fr) : Asks ps fr q fr.offset fr.size := by
  constructor
  · rw [pageStart_eq hps hq, max_comm]
  · rw [pageStart_succ hps hq, Frame.stop]
  · exact le_refl _

theorem flatMap_portion (hps : 0 < ps) :
    (pagesOf ps fr).flatMap (portion f ps fr) = pread f fr.offset fr.size := by
  have hlast : fr.offset / ps + ((fr.stop + ps - 1) / ps - fr.offset / ps) =
      (fr.stop + ps - 1) / ps := by
    have hle : fr.offset / ps ≤ (fr.stop + ps - 1) / ps := by
      apply Nat.div_le_div_right
      rw [Frame.stop]
      omega
    omega
  have hcut := flatMap_pread_cut f (Nat.le_add_right fr.offset fr.size)
    (by rw [hlast]; exact le_roof fr.stop hps)
  rw [Nat.add_sub_cancel_left] at hcut
  exact hcut

theorem Asks.bounds (hps : 0 < ps) (h : Asks ps fr q offset size) :
    q * ps - offset ≤ size ∧ offset - q * ps ≤ ps ∧ pageStart ps fr q = max (q * ps) offset ∧
      pageStart ps fr (q + 1) = min (offset + size) (q * ps + ps) := by
  have hst := h.start
  have hstop := h.stop
  have hmono := pageStart_mono ps fr (le_add_right q 1)
  rw [succ_mul] at hstop
  refine ⟨?_, ?_, hst.symm, hstop.symm⟩ <;> omega

theorem length_page_le (f : List Byte) (q ps : Nat) : (pread f (q * ps) ps).length ≤ ps := by
  exact length_take_le _ _

variable {vector : List (List Byte)}

theorem pageLength_page (hsm : ps < 2 ^ 31)
    (hpage : vector.flatten = pread f (q * ps) ps) :
    pageLength (some vector) = (pread f (q * ps) ps).length := by
  have hlen := length_page_le f q ps
  have hiov := length_flatten_eq_iovLength vector
  rw [hpage] at hiov
  rw [pageLength, ← hiov, int32_eq (by omega) (by omega), uint64_eq (by omega)]

/-- The sizes that pages can have. -/
structure PageSize (ps : Nat) : Prop where
  pos : 0 < ps
  small : ps < 2 ^ 31

theorem fillSize_eq (hps : PageSize ps) (hsize : fr.size < 2 ^ 31) (h : Asks ps fr q offset size) :
    fillSize f ps q offset size = (if offset - q * ps ≤ (pread f (q * ps) ps).length then
        min ((pread f (q * ps) ps).length - (offset - q * ps)) (size - (q * ps - offset))
      else
        size - (q * ps - offset) : Nat) := by
  obtain ⟨hdst, hsrc, _, _⟩ := h.bounds hps.pos
  have hle := h.size_le
  have hlen := length_page_le f q ps
  have hsm := hps.small
  exact copySize_eq (by omega) (by omega) (by omega) hdst

theorem fillSize_nonneg (hps : PageSize ps) (hsize : fr.size < 2 ^ 31)
    (h : Asks ps fr q offset size) : 0 ≤ fillSize f ps q offset size := by
  rw [fillSize_eq hps hsize h]
  exact Int.natCast_nonneg _

theorem newFill_page (hps : PageSize ps)
    (hsize : fr.size < 2 ^ 31) (h : Asks ps fr q offset size)
    (hpage : vector.flatten = pread f (q * ps) ps) :
    (newFill (q * ps) (some vector) offset size).size = fillSize f ps q offset size ∧
    (newFill (q * ps) (some vector) offset size).vector.flatten = portion f ps fr q := by
  obtain ⟨hdst, hsrc, hst, hstop⟩ := h.bounds hps.pos
  have hlen := length_page_le f q ps
  have hpageLength := pageLength_page hps.small hpage
  have hnn := fillSize_nonneg (f := f) hps hsize h
  have hfill := fillSize_eq (f := f) hps hsize h
  have hcopy : copySize (pageLength (some vector)) (offset - q * ps) size (q * ps - offset) =
      fillSize f ps q offset size := by rw [hpageLength, fillSize]
  refine ⟨?_, ?_⟩
  · rw [newFill]
    simp only [hcopy]
    exact Int.max_eq_left hnn
  · rw [newFill]
    simp only [hcopy, if_neg (Int.not_lt.mpr hnn), Int.max_eq_left hnn, Option.getD_some]
    rw [hfill, ← Int.natCast_add, flatten_iovSubset _ (le_add_right _ _), hpage,
      portion, hst, hstop]
    clear hfill hcopy hnn hpageLength hst hstop hsize
    simp only [pread, length_take, length_drop] at hlen ⊢
    rw [drop_take, drop_take, take_take, drop_drop, Nat.add_sub_cancel_left]
    have hpos : q * ps + (offset - q * ps) = max (q * ps) offset := by omega
    rw [hpos, take_eq_take_iff, length_drop]
    split_ifs <;> omega

end

section

variable (f : List Byte) (ps : Nat)

/-- A fill with what the read needs of page `q`. -/
structure GoodFill (fr : Frame) (q : Nat) (x : Fill) : Prop where
  offset_eq : x.offset = q * ps
  page_pos : 0 < (pread f (q * ps) ps).length
  bytes : x.vector.flatten = portion f ps fr q
  size_eq : ∃ offset size, Asks ps fr q offset size ∧ x.size = fillSize f ps q offset size

/--
The fills that have arrived, page by page.  A page that is not open has brought its fill, unless
the file has nothing of it to bring.
-/
structure Filled (fr : Frame) (isOpen : Nat → Prop) (g : Nat → Option Fill) : Prop where
  fills : fr.fills = (pagesOf ps fr).filterMap g
  good : ∀ q x, g q = some x → GoodFill f ps fr q x
  done : ∀ q ∈ pagesOf ps fr, g q = none → isOpen q ∨ portion f ps fr q = []
  still : ∀ q, isOpen q → g q = none
  opRet : fr.opRet = int32 (fr.fills.map Fill.size).sum

variable {f} {ps} {fr : Frame} {isOpen : Nat → Prop} {g : Nat → Option Fill}

/-- A bound on what the fill from page `q` adds; the first page may add too much. -/
def fillBound (ps : Nat) (fr : Frame) (q : Nat) : Nat :=
  (pageStart ps fr (q + 1) - pageStart ps fr q) + if q = fr.offset / ps then fr.size else 0

theorem fillSize_le_fillBound (hps : PageSize ps) (hsize : fr.size < 2 ^ 31)
    (hq : q ∈ pagesOf ps fr) (h : Asks ps fr q offset size) :
    fillSize f ps q offset size ≤ fillBound ps fr q := by
  obtain ⟨hdst, hsrc, hst, hstop⟩ := h.bounds hps.pos
  have hle := h.size_le
  have hlen := length_page_le f q ps
  rw [fillSize_eq hps hsize h, Int.ofNat_le, fillBound]
  by_cases hfst : q = fr.offset / ps
  · have hrest : size - (q * ps - offset) ≤ fr.size := (sub_le _ _).trans hle
    split_ifs
    · exact ((min_le_right _ _).trans hrest).trans (le_add_left _ _)
    · exact hrest.trans (le_add_left _ _)
  · -- A page behind the first one starts inside the read, so nothing of it is skipped.
    have hlt : fr.offset / ps < q := by
      have := (mem_pagesOf_iff.mp hq).1
      omega
    have hoff := lt_mul_of_div_lt hlt hps.pos
    have hqstart := pageStart_eq hps.pos hq
    split_ifs <;> omega

theorem sum_fillBound_le (ps : Nat) (fr : Frame) :
    ((pagesOf ps fr).map (fillBound ps fr)).sum ≤ 2 * fr.size := by
  have hcuts : ((pagesOf ps fr).map
      (fun q => pageStart ps fr (q + 1) - pageStart ps fr q)).sum ≤ fr.size := by
    rw [pagesOf, sum_map_sub_cuts (pageStart_mono ps fr)]
    simp only [pageStart, cut, Frame.stop]
    omega
  have hfst : ((pagesOf ps fr).map
      (fun q => if q = fr.offset / ps then fr.size else 0)).sum ≤ fr.size := by
    rw [pagesOf]
    cases (fr.stop + ps - 1) / ps - fr.offset / ps with
    | zero => simp
    | succ k =>
      have hrest : ((range' (fr.offset / ps + 1) k).map
          (fun q => if q = fr.offset / ps then fr.size else 0)).sum = 0 := by
        apply sum_eq_zero
        intro x hx
        obtain ⟨q, hq, rfl⟩ := mem_map.mp hx
        have := (mem_range'_1.mp hq).1
        rw [if_neg (by omega)]
      rw [range'_succ, map_cons, sum_cons, hrest, if_pos rfl]
      omega
  have hsum : ((pagesOf ps fr).map (fillBound ps fr)).sum =
      ((pagesOf ps fr).map (fun q => pageStart ps fr (q + 1) - pageStart ps fr q)).sum +
      ((pagesOf ps fr).map (fun q => if q = fr.offset / ps then fr.size else 0)).sum :=
    sum_map_add
  omega

theorem Filled.opRet_ne (h : Filled f ps fr isOpen g) (hps : PageSize ps)
    (hsize : fr.size < 2 ^ 31) : fr.opRet ≠ -1 := by
  have hle : (fr.fills.map Fill.size).sum ≤ (((pagesOf ps fr).map (fillBound ps fr)).sum : Nat) := by
    rw [h.fills]
    apply sum_map_filterMap_le
    intro q hq x hx
    obtain ⟨offset, size, hasks, heq⟩ := (h.good q x hx).size_eq
    rw [heq]
    exact fillSize_le_fillBound hps hsize hq hasks
  have hbound := sum_fillBound_le ps fr
  have hnn : 0 ≤ (fr.fills.map Fill.size).sum := by
    apply sum_nonneg
    intro y hy
    obtain ⟨x, hx, rfl⟩ := mem_map.mp hy
    rw [h.fills] at hx
    obtain ⟨q, hq, hgq⟩ := mem_filterMap.mp hx
    obtain ⟨offset, size, hasks, heq⟩ := (h.good q x hgq).size_eq
    rw [heq]
    exact fillSize_nonneg hps hsize hasks
  rw [h.opRet]
  unfold int32
  omega

theorem filled_start (hfls : fr.fills = []) (hret : fr.opRet = 0)
    (hopen : ∀ q ∈ pagesOf ps fr, isOpen q) : Filled f ps fr isOpen (fun _ => none) := by
  constructor
  · rw [hfls]
    exact (filterMap_eq_nil_iff.mpr (fun _ _ => rfl)).symm
  · intro q x hx
    cases hx
  · intro q hq _
    exact .inl (hopen q hq)
  · intro q _
    rfl
  · rw [hret, hfls]
    rfl

theorem Filled.same {fr' : Frame} {isOpen' : Nat → Prop} (h : Filled f ps fr isOpen g)
    (hoffset : fr'.offset = fr.offset) (hsize : fr'.size = fr.size) (hret : fr'.opRet = fr.opRet)
    (hfls : fr'.fills = fr.fills) (hopen : ∀ q, isOpen' q ↔ isOpen q) :
    Filled f ps fr' isOpen' g := by
  have hpgs : pagesOf ps fr' = pagesOf ps fr := by
    rw [pagesOf, pagesOf, Frame.stop, Frame.stop, hoffset, hsize]
  have hst : pageStart ps fr' = pageStart ps fr := by
    funext q
    rw [pageStart, pageStart, Frame.stop, Frame.stop, hoffset, hsize]
  have hpor : portion f ps fr' = portion f ps fr := by
    funext q
    rw [portion, portion, hst]
  constructor
  · rw [hfls, hpgs, h.fills]
  · intro q x hx
    obtain ⟨hoff, hpos, hbytes, offset, size, hasks, heq⟩ := h.good q x hx
    refine ⟨hoff, hpos, by rw [hpor, hbytes], offset, size, ?_, heq⟩
    exact ⟨by rw [hst, hasks.start], by rw [hst, hasks.stop], by rw [hsize]; exact hasks.size_le⟩
  · intro q hq hnone
    rw [hpgs] at hq
    rw [hpor, hopen]
    exact h.done q hq hnone
  · intro q hq
    exact h.still q ((hopen q).mp hq)
  · rw [hret, hfls, h.opRet]

theorem Filled.fill (h : Filled f ps fr isOpen g) (hps : PageSize ps)
    (hsize : fr.size < 2 ^ 31) {vector : List (List Byte)} (hq : q ∈ pagesOf ps fr)
    (hopen : isOpen q) (hasks : Asks ps fr q offset size)
    (hpage : vector.flatten = pread f (q * ps) ps) :
    ∃ g', Filled f ps (fr.fill (q * ps) (some vector) offset size)
      (fun r => isOpen r ∧ r ≠ q) g' := by
  have hne := h.opRet_ne hps hsize
  have hnone := h.still q hopen
  obtain ⟨hfillSize, hfb⟩ := newFill_page hps hsize hasks hpage
  have hpageLength := pageLength_page hps.small hpage
  by_cases hemp : (pread f (q * ps) ps).length = 0
  · -- The file ends before the page: nothing is added, and nothing is missing.
    have hsame : fr.fill (q * ps) (some vector) offset size = fr := by
      rw [Frame.fill, if_neg (fun hc => hc.2 (hpageLength.trans hemp))]
    have hpor : portion f ps fr q = [] := by
      rw [← hfb]
      apply eq_nil_of_length_eq_zero
      obtain ⟨src, len, _, hbytes⟩ := flatten_newFill (q * ps) vector offset size
      rw [hbytes, hpage, length_take, length_drop]
      omega
    rw [hsame]
    refine ⟨g, h.fills, h.good, ?_, fun r hr => h.still r hr.1, h.opRet⟩
    intro r hr hgr
    by_cases hrq : r = q
    · subst hrq
      exact .inr hpor
    · exact (h.done r hr hgr).imp_left (fun hr' => ⟨hr', hrq⟩)
  · have hfill : fr.fill (q * ps) (some vector) offset size =
        { fr with
          fills := insertFill Fill.offset (newFill (q * ps) (some vector) offset size) fr.fills,
          opRet := int32 (fr.opRet + (newFill (q * ps) (some vector) offset size).size) } := by
      rw [Frame.fill, if_pos ⟨hne, by rw [hpageLength]; exact hemp⟩]
    rw [hfill]
    refine ⟨update g q (some (newFill (q * ps) (some vector) offset size)), ?_, ?_, ?_, ?_, ?_⟩
    · have hmono : StrictMono (fun r => r * ps) :=
        fun r r' hrr' => Nat.mul_lt_mul_of_pos_right hrr' hps.pos
      rw [h.fills]
      exact insertFill_filterMap hmono pairwise_lt_range'
        (fun r x hx => (h.good r x hx).offset_eq) hq hnone rfl
    · intro r x hx
      by_cases hrq : r = q
      · subst hrq
        rw [update_self] at hx
        cases hx
        exact ⟨rfl, pos_of_ne_zero hemp, hfb, offset, size,
          ⟨hasks.start, hasks.stop, hasks.size_le⟩, hfillSize⟩
      · rw [update_of_ne hrq] at hx
        obtain ⟨hoff, hpos, hbytes, o, z, ha, heq⟩ := h.good r x hx
        exact ⟨hoff, hpos, hbytes, o, z, ⟨ha.start, ha.stop, ha.size_le⟩, heq⟩
    · intro r hr hgr
      by_cases hrq : r = q
      · subst hrq
        simp at hgr
      · rw [update_of_ne hrq] at hgr
        exact (h.done r hr hgr).imp_left (fun hr' => ⟨hr', hrq⟩)
    · rintro r ⟨hr, hrq⟩
      rw [update_of_ne hrq]
      exact h.still r hr
    · show int32 (fr.opRet + _) = _
      rw [sum_map_insertFill, h.opRet]
      unfold int32
      omega

theorem Filled.flatten_fills (h : Filled f ps fr (fun _ => False) g) (hps : 0 < ps) :
    (fr.fills.flatMap Fill.vector).flatten = pread f fr.offset fr.size := by
  rw [← flatMap_portion hps, flatMap_def, flatten_flatten, map_map]
  rw [h.fills, ← flatMap_def]
  apply flatMap_filterMap
  · intro q _ x hx
    exact (h.good q x hx).bytes
  · intro q hq hnone
    exact (h.done q hq hnone).resolve_left id

theorem min_sub_eq_min_sub {start len : Nat} (hsrc : offset - start ≤ ps)
    (hend : offset ≤ len ∨ offset ≤ start) (hdst : start - offset ≤ size) :
    min (min ps (len - start) - (offset - start)) (size - (start - offset)) =
      min (min (offset + size) (start + ps) - max start offset) (len - max start offset) := by
  omega

/-- A fill has the number of its bytes as its size, unless the page ends before the read. -/
theorem GoodFill.size_eq_length (hps : PageSize ps) (hsize : fr.size < 2 ^ 31)
    (hend : fr.offset ≤ f.length ∨ f.length ≤ floor fr.offset ps) (hq : q ∈ pagesOf ps fr)
    (hx : GoodFill f ps fr q x) : x.size = x.vector.flatten.length := by
  obtain ⟨_, hpos, hbytes, offset, size, hasks, hfill⟩ := hx
  obtain ⟨hdst, hsrc, hst, hstop⟩ := hasks.bounds hps.pos
  have hpage : (pread f (q * ps) ps).length = min ps (f.length - q * ps) := by
    rw [pread, length_take, length_drop]
  have hpor : (portion f ps fr q).length =
      min (min (offset + size) (q * ps + ps) - max (q * ps) offset)
        (f.length - max (q * ps) offset) := by
    rw [portion, pread, length_take, length_drop, hst, hstop]
  -- The page is not behind the end of the file, so the read starts before that end.
  have hbef : offset ≤ f.length ∨ offset ≤ q * ps := by
    rcases hend with hend | hend
    · have := pageStart_eq hps.pos hq
      omega
    · have hfst := mul_le_mul_right ps (mem_pagesOf_iff.mp hq).1
      rw [Blocks.floor] at hend
      omega
  have hskip : offset - q * ps ≤ (pread f (q * ps) ps).length := by
    omega
  rw [hfill, fillSize_eq hps hsize hasks, if_pos hskip, hbytes, hpor, hpage,
    min_sub_eq_min_sub hsrc hbef hdst]

theorem Filled.opRet_eq (h : Filled f ps fr (fun _ => False) g) (hps : PageSize ps)
    (hsize : fr.size < 2 ^ 31)
    (hend : fr.offset ≤ f.length ∨ f.length ≤ floor fr.offset ps) :
    fr.opRet = (pread f fr.offset fr.size).length := by
  have hsizes : fr.fills.map Fill.size =
      fr.fills.map (fun x => (x.vector.flatten.length : Int)) := by
    apply map_congr_left
    intro x hx
    rw [h.fills] at hx
    obtain ⟨q, hq, hgq⟩ := mem_filterMap.mp hx
    exact (h.good q x hgq).size_eq_length hps hsize hend hq
  have hsum : (fr.fills.map Fill.size).sum =
      ((fr.fills.flatMap Fill.vector).flatten.length : Int) := by
    rw [hsizes]
    induction fr.fills with
    | nil => rfl
    | cons x xs ih =>
      rw [map_cons, sum_cons, ih, flatMap_cons, flatten_append, length_append, Int.natCast_add]
  have hlen : (pread f fr.offset fr.size).length ≤ fr.size := by
    exact length_take_le _ _
  rw [h.opRet, hsum, h.flatten_fills hps.pos]
  exact int32_eq (by omega) (by omega)

end

end GlusterFS.Paging
