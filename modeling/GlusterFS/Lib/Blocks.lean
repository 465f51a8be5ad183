import Mathlib.Algebra.GroupWithZero.Nat
import Mathlib.Algebra.Ring.Int.Defs
import Mathlib.Algebra.Order.BigOperators.Group.List
import Mathlib.Algebra.Order.Group.Nat
import GlusterFS.Lib.FlatFile

/-!
# Ranges of a file cut into blocks

A range of a file is read block by block.  The blocks are cut at the multiples of the block
size, and `cut` moves these cuts into the range, so that the first piece starts where the
range starts and the last one ends where it ends.  The pieces, one after the other, are the
range (`flatMap_pread_cut`).  When what is known of each piece is only a beginning of it, the
beginnings give the range just when each of them is the whole piece (`flatMap_eq_iff`).

The pieces may arrive in any order.  `insertFill` puts each one at its place among those that
have arrived, and `insertFill_filterMap` says that the pieces are then those that have arrived,
in the order of the blocks.
-/

namespace GlusterFS.Blocks

open FlatFile List Function

universe u v

def floor (a b : Nat) : Nat :=
  a / b * b

def roof (a b : Nat) : Nat :=
  (a + b - 1) / b * b

theorem floor_mul (q b : Nat) : floor (q * b) b = q * b := by
  rcases Nat.eq_zero_or_pos b with rfl | hb
  · rfl
  · rw [floor, Nat.mul_div_cancel q hb]

variable {b lo hi q : Nat} {α : Type u} {c : Nat → Nat} {ι β : Type v} {key : α → Nat} {x : α}
  {l : List Nat} {g : Nat → Option α}

theorem le_roof (a : Nat) (hb : 0 < b) : a ≤ roof a b := by
  have := Nat.lt_div_mul_add hb (a := a + b - 1)
  unfold roof
  omega

theorem roof_lt (a : Nat) (hb : 0 < b) : roof a b < a + b := by
  have := Nat.div_mul_le_self (a + b - 1) b
  unfold roof
  omega

/-- Every block below the rounded end starts before the end. -/
theorem mul_lt_of_lt_roof {a : Nat} (hb : 0 < b) (hq : q < (a + b - 1) / b) : q * b < a := by
  have hmul := Nat.mul_le_mul_right b (Nat.succ_le_of_lt hq)
  have hroof := roof_lt a hb
  rw [roof] at hroof
  rw [Nat.succ_mul] at hmul
  omega

def cut (lo hi b q : Nat) : Nat :=
  max lo (min hi (q * b))

theorem cut_mono (lo hi b : Nat) : Monotone (cut lo hi b) := by
  intro p q hpq
  have := Nat.mul_le_mul_right b hpq
  unfold cut
  omega

theorem cut_first (lo hi b : Nat) : cut lo hi b (lo / b) = lo := by
  have := Nat.div_mul_le_self lo b
  unfold cut
  omega

theorem cut_last (h : lo ≤ hi) (hq : hi ≤ q * b) : cut lo hi b q = hi := by
  unfold cut
  omega

theorem pread_append (f : List α) {a m c : Nat} (ham : a ≤ m) (hmc : m ≤ c) :
    pread f a (m - a) ++ pread f m (c - m) = pread f a (c - a) := by
  have hsp : c - a = (m - a) + (c - m) := by omega
  have hdrop : f.drop m = (f.drop a).drop (m - a) := by
    rw [drop_drop]
    congr 1
    omega
  rw [pread, pread, pread, hsp, take_add, hdrop]

theorem flatMap_pread (f : List α) (hc : Monotone c) (q k : Nat) :
    (range' q k).flatMap (fun i => pread f (c i) (c (i + 1) - c i)) =
      pread f (c q) (c (q + k) - c q) := by
  induction k with
  | zero => simp [pread]
  | succ k ih =>
    rw [range'_concat, flatMap_append, ih, Nat.one_mul, flatMap_singleton,
      pread_append f (hc (Nat.le_add_right q k)) (hc (Nat.le_succ _))]
    rfl

theorem flatMap_pread_cut (f : List α) {k : Nat} (h : lo ≤ hi) (hk : hi ≤ (lo / b + k) * b) :
    (range' (lo / b) k).flatMap
        (fun q => pread f (cut lo hi b q) (cut lo hi b (q + 1) - cut lo hi b q)) =
      pread f lo (hi - lo) := by
  rw [flatMap_pread f (cut_mono lo hi b), cut_first, cut_last h hk]

theorem flatMap_eq_iff {r p : ι → List α} {l : List ι} (h : ∀ i ∈ l, r i <+: p i) :
    l.flatMap r = l.flatMap p ↔ ∀ i ∈ l, r i = p i := by
  constructor
  · induction l with
    | nil => simp
    | cons i l ih =>
      obtain ⟨hi, hl⟩ := forall_mem_cons.mp h
      intro heq
      have hle : (l.flatMap r).length ≤ (l.flatMap p).length := by
        rw [length_flatMap, length_flatMap]
        apply sum_le_sum
        intro j hj
        exact (hl j hj).length_le
      have hlen := congrArg length heq
      rw [flatMap_cons, flatMap_cons, length_append, length_append] at hlen
      have hhead : (r i).length = (p i).length := by
        have := hi.length_le
        omega
      obtain ⟨heq, hrest⟩ := append_inj heq hhead
      exact forall_mem_cons.mpr ⟨heq, ih hl hrest⟩
  · intro heq
    exact flatMap_congr heq

theorem pread_prefix_of_agrees [Zero α] {f g : List α} {offset len : Nat}
    (hunit : ∀ i, offset ≤ i → i < offset + len → unitAt f i = unitAt g i)
    (hlen : f.length ≤ g.length) : pread f offset len <+: pread g offset len := by
  have heq : pread f offset len = (pread g offset len).take (f.length - offset) := by
    apply ext_unitAt
    · simp only [pread, length_take, length_drop]
      omega
    · intro i hi
      simp only [pread, length_take, length_drop] at hi
      rw [unitAt_pread _ _ _ _ (by omega), unitAt_take, if_pos (by omega),
        unitAt_pread _ _ _ _ (by omega), hunit _ (by omega) (by omega)]
  rw [heq]
  exact take_prefix _ _

def insertFill (key : α → Nat) (x : α) : List α → List α
  | [] => [x]
  | y :: ys => if key x < key y then x :: y :: ys else y :: insertFill key x ys

theorem insertFill_of_lt {l : List α} (h : ∀ y ∈ l, key x < key y) :
    insertFill key x l = x :: l := by
  cases l with
  | nil => rfl
  | cons y l => rw [insertFill, if_pos (h y mem_cons_self)]

theorem mem_insertFill {y : α} {l : List α} : y ∈ insertFill key x l ↔ y = x ∨ y ∈ l := by
  induction l with
  | nil => simp [insertFill]
  | cons z l ih =>
    rw [insertFill]
    split_ifs
    · rw [mem_cons]
    · rw [mem_cons, ih, mem_cons]
      exact or_left_comm

theorem sum_map_insertFill (key : α → Nat) (size : α → Int) (x : α) (l : List α) :
    ((insertFill key x l).map size).sum = (l.map size).sum + size x := by
  induction l with
  | nil => simp [insertFill]
  | cons y l ih =>
    rw [insertFill]
    split_ifs
    · simp only [map_cons, sum_cons]
      omega
    · simp only [map_cons, sum_cons]
      omega

theorem insertFill_filterMap {pos : Nat → Nat} (hpos : StrictMono pos) (hl : l.Pairwise (· < ·))
    (hg : ∀ q x, g q = some x → key x = pos q) (hq : q ∈ l) (hnone : g q = none)
    (hx : key x = pos q) :
    insertFill key x (l.filterMap g) = l.filterMap (update g q (some x)) := by
  induction l with
  | nil => cases hq
  | cons a l ih =>
    obtain ⟨hfst, hrest⟩ := pairwise_cons.mp hl
    by_cases haq : a = q
    · subst haq
      have hsame : ∀ r ∈ l, update g a (some x) r = g r := by
        intro r hr
        exact update_of_ne (Nat.ne_of_gt (hfst r hr)) _ _
      rw [filterMap_cons_none hnone, filterMap_cons_some (update_self ..), filterMap_congr hsame]
      apply insertFill_of_lt
      intro y hy
      obtain ⟨r, hr, hgr⟩ := mem_filterMap.mp hy
      rw [hx, hg r y hgr]
      exact hpos (hfst r hr)
    · have hql : q ∈ l := (mem_cons.mp hq).resolve_left (Ne.symm haq)
      have hsame : update g q (some x) a = g a := update_of_ne haq _ _
      rw [filterMap_cons, filterMap_cons, hsame]
      cases hga : g a with
      | none => exact ih hrest hql
      | some y =>
        have hlt : key y < key x := by
          rw [hx, hg a y hga]
          exact hpos (hfst q hql)
        rw [insertFill, if_neg (by omega), ih hrest hql]

theorem flatMap_filterMap {data : α → List β} {piece : Nat → List β}
    (hsome : ∀ q ∈ l, ∀ x, g q = some x → data x = piece q)
    (hnone : ∀ q ∈ l, g q = none → piece q = []) :
    (l.filterMap g).flatMap data = l.flatMap piece := by
  induction l with
  | nil => rfl
  | cons q l ih =>
    obtain ⟨hsome, hsome'⟩ := forall_mem_cons.mp hsome
    obtain ⟨hnone, hnone'⟩ := forall_mem_cons.mp hnone
    have ih := ih hsome' hnone'
    cases hg : g q with
    | none => rw [filterMap_cons_none hg, ih, flatMap_cons, hnone hg, nil_append]
    | some x =>
      rw [filterMap_cons_some hg, flatMap_cons, flatMap_cons, ih, hsome x hg]

theorem sum_map_filterMap_le {size : α → Int} {bound : Nat → Nat}
    (h : ∀ q ∈ l, ∀ x, g q = some x → size x ≤ bound q) :
    ((l.filterMap g).map size).sum ≤ ((l.map bound).sum : Nat) := by
  induction l with
  | nil => simp
  | cons q l ih =>
    obtain ⟨hq, hl⟩ := forall_mem_cons.mp h
    have ih := ih hl
    cases hg : g q with
    | none =>
      rw [filterMap_cons_none hg, map_cons, sum_cons]
      omega
    | some x =>
      have := hq x hg
      rw [filterMap_cons_some hg, map_cons, sum_cons, map_cons, sum_cons]
      omega

theorem sum_map_sub_cuts (hc : Monotone c) (q k : Nat) :
    ((range' q k).map (fun i => c (i + 1) - c i)).sum = c (q + k) - c q := by
  induction k with
  | zero => simp
  | succ k ih =>
    have hfst := hc (Nat.le_add_right q k)
    have hlast := hc (Nat.le_succ (q + k))
    rw [range'_concat, map_append, sum_append, ih, Nat.one_mul,
      map_singleton, sum_singleton, ← Nat.add_assoc]
    simp only [Nat.succ_eq_add_one] at hlast
    omega

end GlusterFS.Blocks
