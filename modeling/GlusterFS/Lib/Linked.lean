import Mathlib.Data.List.Nodup

/-!
# Linked lists in a heap

A heap has cells at addresses, and `link` is a pointer field of a cell.  `Seg link heap p as q`
says that the cells from the pointer `p` on, along `link`, are those at the addresses `as`, and
that `q` is where the last of them points.  With `none` for `q` it is a whole list.

A doubly linked list is two of these: its addresses along one field, and its addresses in reverse
along the other.  A cell is put in or taken out by pointing one cell before it somewhere else
(`Seg.redirect`).
-/

namespace GlusterFS.Linked

open List Option

universe u

variable {α : Type u} {β : Type*} {f : α → α}

abbrev Heap (α : Type u) := Nat → Option α

/-- The cell that a pointer leads to is changed, unless the pointer is null. -/
def modifyAt (heap : Heap α) (p : Option Nat) (f : α → α) : Heap α :=
  fun b => if p = some b then (heap b).map f else heap b

theorem map_modifyAt (field : α → β) (heap : Heap α) (p : Option Nat) (f : α → α) (b : Nat) :
    (modifyAt heap p f b).map field =
      if p = some b then (heap b).map (fun x => field (f x)) else (heap b).map field := by
  rw [modifyAt]
  split_ifs
  · exact map_map ..
  · rfl

theorem map_modifyAt_of_same {field : α → β} (hf : ∀ x, field (f x) = field x) (heap : Heap α)
    (p : Option Nat) (b : Nat) : (modifyAt heap p f b).map field = (heap b).map field := by
  rw [map_modifyAt]
  simp only [hf, ite_self]

variable {heap heap' : Heap α} {p q r : Option Nat} {b a : Nat} {link : α → Option Nat}
  {as bs : List Nat} {x : α}

theorem modifyAt_eq_none_iff : modifyAt heap p f b = none ↔ heap b = none := by
  rw [modifyAt]
  split_ifs
  · exact map_eq_none_iff
  · rfl

def Seg (link : α → Option Nat) (heap : Heap α) : Option Nat → List Nat → Option Nat → Prop
  | p, [], q => p = q
  | p, a :: as, q => p = some a ∧ ∃ x, heap a = some x ∧ Seg link heap (link x) as q

theorem seg_append_iff :
    Seg link heap p (as ++ bs) r ↔ ∃ q, Seg link heap p as q ∧ Seg link heap q bs r := by
  induction as generalizing p with
  | nil => simp [Seg]
  | cons a as ih =>
    constructor
    · rintro ⟨hp, x, hx, hrest⟩
      obtain ⟨q, hseg, hq⟩ := ih.mp hrest
      exact ⟨q, ⟨hp, x, hx, hseg⟩, hq⟩
    · rintro ⟨q, ⟨hp, x, hx, hseg⟩, hq⟩
      exact ⟨hp, x, hx, ih.mpr ⟨q, hseg, hq⟩⟩

theorem Seg.congr (h : Seg link heap p as q)
    (hsame : ∀ a ∈ as, (heap' a).map link = (heap a).map link) : Seg link heap' p as q := by
  induction as generalizing p with
  | nil => exact h
  | cons a as ih =>
    obtain ⟨hp, x, hx, hrest⟩ := h
    have hlink := hsame a mem_cons_self
    rw [hx, map_some, map_eq_some_iff] at hlink
    obtain ⟨x', hx', hlink⟩ := hlink
    refine ⟨hp, x', hx', ?_⟩
    rw [hlink]
    exact ih hrest (fun b hb => hsame b (mem_cons_of_mem a hb))

theorem Seg.exists_cell (h : Seg link heap p as q) (ha : a ∈ as) : ∃ x, heap a = some x := by
  induction as generalizing p with
  | nil => cases ha
  | cons b as ih =>
    obtain ⟨_, x, hx, hrest⟩ := h
    rcases mem_cons.mp ha with rfl | ha
    · exact ⟨x, hx⟩
    · exact ih hrest ha

theorem Seg.unique (h : Seg link heap p as none) (h' : Seg link heap p bs none) : as = bs := by
  induction as generalizing p bs with
  | nil =>
    cases bs with
    | nil => rfl
    | cons b bs =>
      have hp : p = none := h
      rw [hp] at h'
      cases h'.1
  | cons a as ih =>
    obtain ⟨rfl, x, hx, hrest⟩ := h
    cases bs with
    | nil => cases h'
    | cons b bs =>
      obtain ⟨hb, y, hy, hrest'⟩ := h'
      obtain rfl : a = b := some.inj hb
      rw [hx] at hy
      cases hy
      rw [ih hrest hrest']

theorem Seg.nodup (h : Seg link heap p as none) : as.Nodup := by
  induction as generalizing p with
  | nil => exact nodup_nil
  | cons a as ih =>
    refine nodup_cons.mpr ⟨?_, ?_⟩
    · -- The list from the second one on would be the whole list again.
      intro ha
      obtain ⟨front, back, rfl⟩ := append_of_mem ha
      have hsp : a :: (front ++ a :: back) = (a :: front) ++ a :: back := rfl
      have hwhole := h
      rw [hsp, seg_append_iff] at h
      obtain ⟨q, _, hback⟩ := h
      have hp : p = some a := hwhole.1
      have hq : q = some a := hback.1
      rw [hp] at hwhole
      rw [hq] at hback
      have hlen := congrArg length (hwhole.unique hback)
      simp at hlen
      omega
    · obtain ⟨_, x, _, hrest⟩ := h
      exact ih hrest

theorem Seg.head (h : Seg link heap p as none) : p = as.head? := by
  cases as with
  | nil => exact h
  | cons a as => exact h.1

theorem Seg.link_eq (h : Seg link heap p (as ++ a :: bs) none) (hx : heap a = some x) :
    link x = bs.head? := by
  obtain ⟨_, _, _, y, hy, hrest⟩ := seg_append_iff.mp h
  rw [hx] at hy
  cases hy
  exact hrest.head

theorem Seg.redirect {q' : Option Nat} (h : Seg link heap p (as ++ [b]) q)
    (hsame : ∀ a ∈ as, (heap' a).map link = (heap a).map link) (hb : (heap' b).map link = some q') :
    Seg link heap' p (as ++ [b]) q' := by
  obtain ⟨r, hfro, hlast⟩ := seg_append_iff.mp h
  obtain ⟨y, hy, hlink⟩ := map_eq_some_iff.mp hb
  exact seg_append_iff.mpr ⟨r, hfro.congr hsame, hlast.1, y, hy, hlink⟩

/--
A cell is taken out of a list, when the cell before it, or the pointer of the list, has been given
the link of the cell.
-/
theorem Seg.unlink {p' : Option Nat} (h : Seg link heap p (as ++ a :: bs) none)
    (hx : heap a = some x) (hp : as = [] → p' = link x) (hp' : as ≠ [] → p' = p)
    (hsame : ∀ b ∈ as ++ bs, some b ≠ as.getLast? → (heap' b).map link = (heap b).map link)
    (hlast : ∀ b, as.getLast? = some b → (heap' b).map link = some (link x)) :
    Seg link heap' p' (as ++ bs) none := by
  have hnd := h.nodup
  obtain ⟨q, hfro, _, y, hy, hback⟩ := seg_append_iff.mp h
  rw [hx] at hy
  cases hy
  have hrest : Seg link heap' (link x) bs none := by
    apply hback.congr
    intro b hb
    apply hsame b (mem_append_right as hb)
    intro hc
    have hmem : b ∈ as := mem_of_getLast? hc.symm
    exact (disjoint_of_nodup_append hnd) hmem (mem_cons_of_mem a hb)
  rcases eq_nil_or_concat as with rfl | ⟨front, b, rfl⟩
  · rw [hp rfl]
    exact hrest
  · rw [hp' (by simp)]
    rw [concat_eq_append] at *
    have hb : (front ++ [b]).getLast? = some b := getLast?_concat
    refine seg_append_iff.mpr ⟨link x, hfro.redirect ?_ (hlast b hb), hrest⟩
    intro c hc
    apply hsame c (by simp [hc])
    rw [hb]
    intro heq
    obtain rfl := some.inj heq
    have hnd' : (front ++ [c]).Nodup := hnd.of_append_left
    exact (disjoint_of_nodup_append hnd') hc mem_cons_self

end GlusterFS.Linked
