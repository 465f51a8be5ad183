import Mathlib.Data.List.Perm.Basic

/-!
# Exchange sort

Two nested loops over a list: the element at each place is compared with every one
behind it, and exchanged with it if it is the greater one.  `exchangePass` is the inner
loop, with the element at the place in hand and the rest of the list behind it.

The order is given by a test `gt`.  The result is a permutation of the list; it is
sorted if the test comes from a total preorder, and a list that is sorted already is
left as it is.  Elements that the test does not tell apart can change their order.
-/

namespace GlusterFS.ExchangeSort

open List

universe u

variable {α : Type u} (gt : α → α → Bool)

/-- The inner loop: what stands at the place in the end, and the rest. -/
def exchangePass : α → List α → α × List α
  | x, [] => (x, [])
  | x, y :: ys =>
    if gt x y then
      ((exchangePass y ys).1, x :: (exchangePass y ys).2)
    else
      ((exchangePass x ys).1, y :: (exchangePass x ys).2)

def exchangeLoop : Nat → List α → List α
  | 0, xs => xs
  | _ + 1, [] => []
  | n + 1, x :: xs => (exchangePass gt x xs).1 :: exchangeLoop n (exchangePass gt x xs).2

def exchangeSort (xs : List α) : List α :=
  exchangeLoop gt xs.length xs

theorem exchangePass_perm (x : α) (xs : List α) :
    ((exchangePass gt x xs).1 :: (exchangePass gt x xs).2).Perm (x :: xs) := by
  induction xs generalizing x with
  | nil => exact List.Perm.refl _
  | cons y ys ih =>
    rw [exchangePass]
    split_ifs with h
    · exact (List.Perm.swap x _ _).trans ((ih y).cons x)
    · exact ((List.Perm.swap y _ _).trans ((ih x).cons y)).trans (List.Perm.swap x y ys)

theorem exchangePass_length (x : α) (xs : List α) :
    (exchangePass gt x xs).2.length = xs.length := by
  have hlen := (exchangePass_perm gt x xs).length_eq
  simpa using hlen

theorem exchangeLoop_perm (n : Nat) (xs : List α) : (exchangeLoop gt n xs).Perm xs := by
  induction n generalizing xs with
  | zero => exact List.Perm.refl _
  | succ n ih =>
    cases xs with
    | nil => exact List.Perm.refl _
    | cons x xs => exact ((ih _).cons _).trans (exchangePass_perm gt x xs)

theorem exchangeSort_perm (xs : List α) : (exchangeSort gt xs).Perm xs := by
  exact exchangeLoop_perm gt xs.length xs

section

variable {gt}
variable (htr : ∀ x y z, gt x y = false → gt y z = false → gt x z = false)
variable (hasymm : ∀ x y, gt x y = true → gt y x = false)

include htr hasymm

theorem exchangePass_least (x : α) (xs : List α) :
    gt (exchangePass gt x xs).1 x = false ∧ ∀ y ∈ xs, gt (exchangePass gt x xs).1 y = false := by
  have hrefl : ∀ x, gt x x = false := by
    intro x
    by_contra h
    rw [Bool.not_eq_false] at h
    simp [hasymm x x h] at h
  induction xs generalizing x with
  | nil => exact ⟨hrefl x, by simp⟩
  | cons y ys ih =>
    rw [exchangePass]
    split_ifs with h
    · obtain ⟨hy, hys⟩ := ih y
      exact ⟨htr _ y x hy (hasymm x y h), forall_mem_cons.mpr ⟨hy, hys⟩⟩
    · obtain ⟨hx, hys⟩ := ih x
      rw [Bool.not_eq_true] at h
      exact ⟨hx, forall_mem_cons.mpr ⟨htr _ x y hx h, hys⟩⟩

theorem exchangeLoop_pairwise (n : Nat) (xs : List α) (hn : n = xs.length) :
    (exchangeLoop gt n xs).Pairwise (fun x y => gt x y = false) := by
  induction n generalizing xs with
  | zero =>
    rw [eq_nil_of_length_eq_zero hn.symm]
    exact List.Pairwise.nil
  | succ n ih =>
    cases xs with
    | nil => exact List.Pairwise.nil
    | cons x xs =>
      have hlen : n = (exchangePass gt x xs).2.length := by
        rw [exchangePass_length]
        simpa using hn
      obtain ⟨hx, hxs⟩ := exchangePass_least htr hasymm x xs
      refine pairwise_cons.mpr ⟨?_, ih _ hlen⟩
      intro y hy
      -- The elements behind the place are those of the list without the least one.
      have hmem : y ∈ (exchangePass gt x xs).2 := (exchangeLoop_perm gt n _).subset hy
      have hmem' := (exchangePass_perm gt x xs).subset (mem_cons_of_mem _ hmem)
      rcases mem_cons.mp hmem' with rfl | hmem'
      · exact hx
      · exact hxs y hmem'

theorem exchangeSort_pairwise (xs : List α) :
    (exchangeSort gt xs).Pairwise (fun x y => gt x y = false) := by
  exact exchangeLoop_pairwise htr hasymm xs.length xs rfl

end

variable {xs : List α}

theorem exchangePass_of_le {x : α} (h : ∀ y ∈ xs, gt x y = false) :
    exchangePass gt x xs = (x, xs) := by
  induction xs with
  | nil => rfl
  | cons y ys ih =>
    obtain ⟨hy, hys⟩ := forall_mem_cons.mp h
    rw [exchangePass, hy, if_neg Bool.false_ne_true, ih hys]

theorem exchangeSort_of_pairwise (h : xs.Pairwise (fun x y => gt x y = false)) :
    exchangeSort gt xs = xs := by
  unfold exchangeSort
  induction xs with
  | nil => rfl
  | cons x xs ih =>
    obtain ⟨hx, hxs⟩ := pairwise_cons.mp h
    rw [length_cons, exchangeLoop, exchangePass_of_le gt hx]
    exact congrArg _ (ih hxs)

end GlusterFS.ExchangeSort
