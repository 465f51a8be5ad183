import Mathlib.Data.List.Count
import Mathlib.Data.List.Perm.Basic

/-!
# Lists of intervals of natural numbers

Closed intervals, given by their first and last points.  A list of intervals covers a
range exactly once if and only if it is a chain when it is sorted by the first points:
each interval starts right behind the one before it.

`Follows` is the same test with the points taken on a ring, where a walk over the list
cannot see a whole turn: `follows_iff` says what it lets through.
-/

namespace GlusterFS.Intervals

open List Nat

def coverCount (ivs : List (Nat × Nat)) (p : Nat) : Nat :=
  ivs.countP (fun iv => decide (iv.1 ≤ p ∧ p ≤ iv.2))

def ExactCover (a n : Nat) (ivs : List (Nat × Nat)) : Prop :=
  ∀ p, a ≤ p → p < n → coverCount ivs p = 1

def Chain (n : Nat) : Nat → List (Nat × Nat) → Prop
  | a, [] => a = n
  | a, iv :: ivs => iv.1 = a ∧ iv.1 ≤ iv.2 ∧ Chain n (iv.2 + 1) ivs

variable {ivs ivs' : List (Nat × Nat)} {a n p prev : Nat}

theorem coverCount_perm (h : ivs.Perm ivs') (p : Nat) : coverCount ivs p = coverCount ivs' p := by
  exact h.countP_eq _

theorem exactCover_perm (h : ivs.Perm ivs') : ExactCover a n ivs ↔ ExactCover a n ivs' := by
  unfold ExactCover
  simp only [coverCount_perm h]

theorem coverCount_cons (iv : Nat × Nat) (ivs : List (Nat × Nat)) (p : Nat) :
    coverCount (iv :: ivs) p = coverCount ivs p + if iv.1 ≤ p ∧ p ≤ iv.2 then 1 else 0 := by
  simp [coverCount, countP_cons]

theorem coverCount_pos {iv : Nat × Nat} (hmem : iv ∈ ivs) (hp : iv.1 ≤ p ∧ p ≤ iv.2) :
    0 < coverCount ivs p := by
  exact countP_pos_iff.mpr ⟨iv, hmem, by simpa using hp⟩

theorem coverCount_of_lt (h : ∀ iv ∈ ivs, p < iv.1) : coverCount ivs p = 0 := by
  unfold coverCount
  rw [countP_eq_zero]
  intro iv hiv
  have := h iv hiv
  simp only [decide_eq_true_eq]
  omega

theorem Chain.le (h : Chain n a ivs) : a ≤ n := by
  induction ivs generalizing a with
  | nil => exact Nat.le_of_eq h
  | cons iv ivs ih =>
    obtain ⟨hst, hle, hrest⟩ := h
    have := ih hrest
    omega

theorem Chain.bounds (h : Chain n a ivs) : ∀ iv ∈ ivs, a ≤ iv.1 ∧ iv.2 < n := by
  induction ivs generalizing a with
  | nil => simp
  | cons iv ivs ih =>
    obtain ⟨hst, hle, hrest⟩ := h
    have hn := hrest.le
    refine forall_mem_cons.mpr ⟨by omega, ?_⟩
    intro iv' hiv'
    have := ih hrest iv' hiv'
    omega

theorem Chain.ordered (h : Chain n a ivs) : ∀ iv ∈ ivs, iv.1 ≤ iv.2 := by
  induction ivs generalizing a with
  | nil => simp
  | cons iv ivs ih =>
    obtain ⟨hst, hle, hrest⟩ := h
    exact forall_mem_cons.mpr ⟨hle, ih hrest⟩

theorem Chain.exactCover (h : Chain n a ivs) : ExactCover a n ivs := by
  induction ivs generalizing a with
  | nil =>
    intro p hap hpn
    have : a = n := h
    omega
  | cons iv ivs ih =>
    obtain ⟨hst, hle, hrest⟩ := h
    intro p hap hpn
    rw [coverCount_cons]
    by_cases hp : p ≤ iv.2
    · have hzero : coverCount ivs p = 0 := by
        refine coverCount_of_lt ?_
        intro iv' hiv'
        have := hrest.bounds iv' hiv'
        omega
      rw [hzero, if_pos (by omega)]
    · rw [if_neg (by omega), ih hrest p (by omega) hpn]

theorem ExactCover.chain (h : ExactCover a n ivs)
    (ha : a ≤ n) (hsort : ivs.Pairwise (fun iv iv' => iv.1 ≤ iv'.1))
    (hle : ∀ iv ∈ ivs, iv.1 ≤ iv.2) (hbds : ∀ iv ∈ ivs, a ≤ iv.1 ∧ iv.2 < n) : Chain n a ivs := by
  induction ivs generalizing a with
  | nil =>
    by_contra hne
    have hemp := h a (Nat.le_refl a) (Nat.lt_of_le_of_ne ha hne)
    simp [coverCount] at hemp
  | cons iv ivs ih =>
    obtain ⟨hfst, hsort'⟩ := pairwise_cons.mp hsort
    obtain ⟨hiv, hle'⟩ := forall_mem_cons.mp hle
    obtain ⟨⟨hlow, hhigh⟩, hbds'⟩ := forall_mem_cons.mp hbds
    -- The first point lies in some interval, and the first interval starts first.
    have hst : iv.1 = a := by
      by_contra hne
      have hzero : coverCount (iv :: ivs) a = 0 := by
        refine coverCount_of_lt (forall_mem_cons.mpr ⟨by omega, ?_⟩)
        intro iv' hiv'
        have := hfst iv' hiv'
        omega
      have hone := h a (Nat.le_refl a) (by omega)
      omega
    -- An interval that started inside the first one would cover its start twice.
    have hbeh : ∀ iv' ∈ ivs, iv.2 + 1 ≤ iv'.1 ∧ iv'.2 < n := by
      intro iv' hiv'
      have hlow' := hfst iv' hiv'
      have hle'' := hle' iv' hiv'
      refine ⟨?_, (hbds' iv' hiv').2⟩
      by_contra hin
      have hone := h iv'.1 (by omega) (by have := (hbds' iv' hiv').2; omega)
      have hpos := coverCount_pos hiv' (p := iv'.1) (by omega)
      rw [coverCount_cons, if_pos (by omega)] at hone
      omega
    refine ⟨hst, hiv, ih ?_ (by omega) hsort' hle' hbeh⟩
    intro p hp hpn
    have hone := h p (by omega) hpn
    rwa [coverCount_cons, if_neg (by omega)] at hone

/-- Each interval starts behind the end of the one before it, on a ring of `n` points. -/
def Follows (n : Nat) : Nat → List (Nat × Nat) → Prop
  | _, [] => True
  | prev, iv :: ivs => iv.1 = (prev + 1) % n ∧ Follows n iv.2 ivs

def lastEnd : Nat → List (Nat × Nat) → Nat
  | prev, [] => prev
  | _, iv :: ivs => lastEnd iv.2 ivs

theorem Follows.chain (hprev : prev + 1 < n) (hfol : Follows n prev ivs)
    (hlast : lastEnd prev ivs + 1 = n) (hsort : ivs.Pairwise (fun iv iv' => iv.1 ≤ iv'.1))
    (hle : ∀ iv ∈ ivs, iv.1 ≤ iv.2 ∧ iv.2 < n) : Chain n (prev + 1) ivs := by
  induction ivs generalizing prev with
  | nil => exact hlast
  | cons iv ivs ih =>
    obtain ⟨hst, hrest⟩ := hfol
    obtain ⟨hfst, hsort'⟩ := pairwise_cons.mp hsort
    obtain ⟨hiv, hle'⟩ := forall_mem_cons.mp hle
    rw [mod_eq_of_lt hprev] at hst
    refine ⟨hst, hiv.1, ?_⟩
    by_cases hend : iv.2 + 1 < n
    · exact ih hend hrest hlast hsort' hle'
    · have heq : iv.2 + 1 = n := by omega
      cases ivs with
      | nil => exact heq
      | cons iv' ivs =>
        -- The next interval would have to start at 0, before this one.
        have hzero : iv'.1 = 0 := by rw [hrest.1, heq, mod_self]
        have := hfst iv' mem_cons_self
        omega

theorem Chain.eq_nil (h : Chain n n ivs) : ivs = [] := by
  cases ivs with
  | nil => rfl
  | cons iv ivs =>
    obtain ⟨hst, hle, hrest⟩ := h
    have := hrest.le
    omega

theorem Chain.follows (h : Chain n a ivs) (ha : a < n) (hprev : a = (prev + 1) % n) :
    Follows n prev ivs ∧ lastEnd prev ivs + 1 = n := by
  induction ivs generalizing a prev with
  | nil =>
    have : a = n := h
    omega
  | cons iv ivs ih =>
    obtain ⟨hst, hle, hrest⟩ := h
    by_cases hend : iv.2 + 1 < n
    · obtain ⟨hfol, hlast⟩ := ih hrest hend (mod_eq_of_lt hend).symm
      exact ⟨⟨hst.trans hprev, hfol⟩, hlast⟩
    · have heq : iv.2 + 1 = n := by
        have := hrest.le
        omega
      rw [heq] at hrest
      obtain rfl := hrest.eq_nil
      exact ⟨⟨hst.trans hprev, trivial⟩, heq⟩

/--
A sorted walk once around the ring: the intervals are a chain, with any number of whole
rings before it.
-/
theorem follows_iff (hn : 0 < n) (hsort : ivs.Pairwise (fun iv iv' => iv.1 ≤ iv'.1))
    (hle : ∀ iv ∈ ivs, iv.1 ≤ iv.2 ∧ iv.2 < n) :
    (ivs ≠ [] ∧ Follows n (n - 1) ivs ∧ lastEnd (n - 1) ivs + 1 = n) ↔
      ∃ rings chain, ivs = replicate rings (0, n - 1) ++ chain ∧ Chain n 0 chain := by
  have hwrap : (n - 1 + 1) % n = 0 := by rw [Nat.sub_add_cancel hn, Nat.mod_self]
  constructor
  · rintro ⟨hne, hfol, hlast⟩
    induction ivs with
    | nil => exact absurd rfl hne
    | cons iv ivs ih =>
      obtain ⟨hst, hrest⟩ := hfol
      obtain ⟨hfst, hsort'⟩ := pairwise_cons.mp hsort
      obtain ⟨hiv, hle'⟩ := forall_mem_cons.mp hle
      rw [hwrap] at hst
      by_cases hend : iv.2 + 1 < n
      · refine ⟨0, iv :: ivs, rfl, hst, hiv.1, ?_⟩
        exact hrest.chain hend hlast hsort' hle'
      · have hring : iv = (0, n - 1) := by
          ext
          · exact hst
          · simp only
            omega
        cases hivs : ivs with
        | nil =>
          refine ⟨0, [iv], rfl, hst, hiv.1, ?_⟩
          change iv.2 + 1 = n
          omega
        | cons iv' ivs' =>
          rw [hring] at hrest hlast
          obtain ⟨rings, chain, heq, hch⟩ := ih hsort' hle' (by simp [hivs]) hrest hlast
          refine ⟨rings + 1, chain, ?_, hch⟩
          rw [← hivs, heq, hring]
          rfl
  · rintro ⟨rings, chain, rfl, hch⟩
    have hne : chain ≠ [] := by
      rintro rfl
      exact absurd hch (Nat.ne_of_lt hn)
    obtain ⟨hfol, hlast⟩ := hch.follows hn hwrap.symm
    refine ⟨by simp [hne], ?_⟩
    clear hsort hle
    induction rings with
    | zero => exact ⟨hfol, hlast⟩
    | succ rings ih => exact ⟨⟨hwrap.symm, ih.1⟩, ih.2⟩

theorem Chain.eq_ring (h : Chain n 0 ivs) (hmem : (0, n - 1) ∈ ivs) : ivs = [(0, n - 1)] := by
  cases ivs with
  | nil => cases hmem
  | cons iv ivs =>
    obtain ⟨hst, hle, hrest⟩ := h
    rcases mem_cons.mp hmem with rfl | hmem
    · have heq : n - 1 + 1 = n := by
        have := hrest.le
        omega
      simp only [heq] at hrest
      rw [hrest.eq_nil]
    · have := (hrest.bounds _ hmem).1
      omega

end GlusterFS.Intervals
