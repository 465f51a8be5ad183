import Mathlib.Algebra.Notation.Defs
import Mathlib.Data.List.GetD
import Mathlib.Order.Lattice

/-!
# Flat files

The content of a regular file is a list of units.  A write beyond the end
leaves a hole, and a hole reads as zeros; truncating a file to more than its
length extends it by a hole.

A file is known by its length and by its unit at every position, where the
positions past the end hold zero (`ext_unitAt`).  Each operation has one lemma
for each of the two, and `patch`, which writes a list of pieces, has them too.
-/

namespace GlusterFS.FlatFile

open List

universe u

variable {α : Type u} [Zero α]

def unitAt (f : List α) (i : Nat) : α :=
  f.getD i 0

def pread (f : List α) (offset len : Nat) : List α :=
  (f.drop offset).take len

/-- The file, with a hole at its end if it is shorter than `size`. -/
def extend (f : List α) (size : Nat) : List α :=
  f ++ replicate (size - f.length) 0

/-- Write the data at an offset.  Writing no data changes nothing. -/
def pwrite (f : List α) (offset : Nat) (data : List α) : List α :=
  if data = [] then
    f
  else
    (extend f offset).take offset ++ data ++ f.drop (offset + data.length)

def ftruncate (f : List α) (size : Nat) : List α :=
  (extend f size).take size

variable {g : List α}

theorem ext_unitAt {f : List α} (hlen : f.length = g.length)
    (h : ∀ i, i < f.length → unitAt f i = unitAt g i) : f = g := by
  apply ext_getElem hlen
  intro i hf hg
  have hi := h i hf
  simpa [unitAt, hf, hg] using hi

variable (f : List α)

theorem unitAt_extend (size i : Nat) : unitAt (extend f size) i = unitAt f i := by
  unfold unitAt extend
  by_cases hi : i < f.length
  · simp [getElem?_append, hi]
  · by_cases hr : i - f.length < size - f.length <;> simp [getElem?_append, hi]

theorem length_extend (size : Nat) : (extend f size).length = max f.length size := by
  simp [extend]
  omega

theorem unitAt_take (size i : Nat) :
    unitAt (f.take size) i = if i < size then unitAt f i else 0 := by
  unfold unitAt
  rw [getD_eq_getElem?_getD, getD_eq_getElem?_getD, getElem?_take]
  split_ifs <;> rfl

theorem length_ftruncate (size : Nat) : (ftruncate f size).length = size := by
  simp [ftruncate, length_extend]

theorem unitAt_ftruncate (size i : Nat) :
    unitAt (ftruncate f size) i = if i < size then unitAt f i else 0 := by
  rw [ftruncate, unitAt_take, unitAt_extend]

theorem length_pwrite (offset : Nat) {data : List α} (hdata : data ≠ []) :
    (pwrite f offset data).length = max f.length (offset + data.length) := by
  rw [pwrite, if_neg hdata]
  simp [length_extend]
  omega

theorem unitAt_pwrite (offset : Nat) (data : List α) (i : Nat) :
    unitAt (pwrite f offset data) i =
      if offset ≤ i ∧ i < offset + data.length then
        unitAt data (i - offset)
      else
        unitAt f i := by
  unfold pwrite
  by_cases hdata : data = []
  · subst hdata
    simp
  · rw [if_neg hdata]
    have hlen : ((extend f offset).take offset).length = offset := by simp [length_extend]
    by_cases hlow : i < offset
    · have hext := unitAt_extend f offset i
      have htake := unitAt_take (extend f offset) offset i
      rw [if_pos hlow, hext] at htake
      rw [if_neg (by omega), ← htake]
      unfold unitAt
      rw [append_assoc, getD_append _ _ _ _ (by omega)]
    · by_cases hhigh : i < offset + data.length
      · rw [if_pos ⟨by omega, hhigh⟩]
        unfold unitAt
        rw [append_assoc, getD_append_right _ _ _ _ (by omega), hlen,
          getD_append _ _ _ _ (by omega)]
      · rw [if_neg (by omega)]
        unfold unitAt
        rw [getD_append_right _ _ _ _ (by simp; omega)]
        rw [getD_eq_getElem?_getD, getD_eq_getElem?_getD, getElem?_drop, length_append, hlen]
        congr 2
        omega

theorem unitAt_pread (offset len i : Nat) (hi : i < len) :
    unitAt (pread f offset len) i = unitAt f (offset + i) := by
  unfold pread
  rw [unitAt_take, if_pos hi]
  simp [unitAt]

omit [Zero α] in
theorem take_of_pread {data : List α} {offset : Nat} (h : data = pread f offset data.length)
    (k : Nat) : data.take k = pread f offset (data.take k).length := by
  rw [length_take, pread, ← take_take, ← pread, ← h]

abbrev Piece (α : Type u) := Nat × List α

def Covers (pieces : List (Piece α)) (i : Nat) : Prop :=
  ∃ p ∈ pieces, p.1 ≤ i ∧ i < p.1 + p.2.length

def reach (pieces : List (Piece α)) : Nat :=
  (pieces.map (fun p => p.1 + p.2.length)).foldr max 0

def patch : List α → List (Piece α) → List α
  | f, [] => f
  | f, p :: pieces => patch (pwrite f p.1 p.2) pieces

def PiecesOf (g : List α) (pieces : List (Piece α)) : Prop :=
  ∀ p ∈ pieces, p.2 ≠ [] ∧ p.2 = pread g p.1 p.2.length

variable {pieces : List (Piece α)} {i : Nat}

theorem length_patch (f : List α) (h : ∀ p ∈ pieces, p.2 ≠ []) :
    (patch f pieces).length = max f.length (reach pieces) := by
  induction pieces generalizing f with
  | nil => simp [patch, reach]
  | cons p pieces ih =>
    have htail := ih (pwrite f p.1 p.2) (fun q hq => h q (mem_cons_of_mem _ hq))
    rw [patch, htail, length_pwrite f p.1 (h p (by simp))]
    simp only [reach, map_cons, foldr_cons]
    omega

theorem unitAt_patch_of_covers (hg : PiecesOf g pieces) (f : List α)
    (hi : Covers pieces i ∨ unitAt f i = unitAt g i) : unitAt (patch f pieces) i = unitAt g i := by
  induction pieces generalizing f with
  | nil =>
    rcases hi with ⟨p, hp, _⟩ | hi
    · cases hp
    · exact hi
  | cons p pieces ih =>
    apply ih (fun q hq => hg q (mem_cons_of_mem _ hq))
    by_cases hp : p.1 ≤ i ∧ i < p.1 + p.2.length
    · right
      obtain ⟨_, hpc⟩ := hg p (by simp)
      rw [unitAt_pwrite, if_pos hp, hpc, unitAt_pread _ _ _ _ (by omega)]
      congr 1
      omega
    · rcases hi with ⟨q, hq, hqi⟩ | hi
      · rcases mem_cons.mp hq with rfl | hq
        · exact absurd hqi hp
        · exact .inl ⟨q, hq, hqi⟩
      · right
        rw [unitAt_pwrite, if_neg hp, hi]

theorem unitAt_patch_of_not_covers (f : List α) (hi : ¬ Covers pieces i) :
    unitAt (patch f pieces) i = unitAt f i := by
  induction pieces generalizing f with
  | nil => rfl
  | cons p pieces ih =>
    have htail : ¬ Covers pieces i := by
      rintro ⟨q, hq, hqi⟩
      exact hi ⟨q, mem_cons_of_mem _ hq, hqi⟩
    have hp : ¬ (p.1 ≤ i ∧ i < p.1 + p.2.length) := fun hpi => hi ⟨p, by simp, hpi⟩
    rw [patch, ih _ htail, unitAt_pwrite, if_neg hp]

theorem patch_eq_iff (hg : PiecesOf g pieces) (f : List α) :
    patch f pieces = g ↔ max f.length (reach pieces) = g.length ∧
      ∀ i, i < g.length → ¬ Covers pieces i → unitAt f i = unitAt g i := by
  have hlen := length_patch f (fun p hp => (hg p hp).1)
  constructor
  · intro heq
    refine ⟨?_, ?_⟩
    · rw [← hlen, heq]
    · intro i _ hcov
      rw [← unitAt_patch_of_not_covers f hcov, heq]
  · rintro ⟨hsize, hunits⟩
    apply ext_unitAt
    · rw [hlen, hsize]
    · intro i hi
      rw [hlen, hsize] at hi
      apply unitAt_patch_of_covers hg
      by_cases hcov : Covers pieces i
      · exact .inl hcov
      · exact .inr (hunits i hi hcov)

theorem ftruncate_patch_eq_iff (hg : PiecesOf g pieces) (f : List α) :
    ftruncate (patch f pieces) g.length = g ↔
      ∀ i, i < g.length → ¬ Covers pieces i → unitAt f i = unitAt g i := by
  constructor
  · intro heq i hi hcov
    have hunit := congrArg (fun l => unitAt l i) heq
    simp only [unitAt_ftruncate, if_pos hi] at hunit
    rw [← unitAt_patch_of_not_covers f hcov, hunit]
  · intro hunits
    apply ext_unitAt (length_ftruncate _ _)
    intro i hi
    rw [length_ftruncate] at hi
    rw [unitAt_ftruncate, if_pos hi]
    apply unitAt_patch_of_covers hg
    by_cases hcov : Covers pieces i
    · exact .inl hcov
    · exact .inr (hunits i hi hcov)

end GlusterFS.FlatFile
