import Mathlib.Data.List.Nodup

/-!
# Linked cells

The members of a linked list of heap cells, each with its address.  A cell keeps its
address as long as it is linked, and an address is given out once: both are fields
of the structure.  A cell that is found on a walk is changed or taken out by its
address, so the rest of the list stays as it is; `exists_split` and the two
`_of_split` lemmas say this once for all uses.
-/

namespace GlusterFS

open List

universe u

/-- A linked list of cells; `next` is the address of the next new cell. -/
structure Cells (α : Type u) where
  cells : List (Nat × α)
  next : Nat
  distinct : (cells.map Prod.fst).Nodup
  fresh : ∀ c ∈ cells, c.1 < next

namespace Cells

variable {α : Type u} {s : Cells α} {c : Nat × α} {before after : List (Nat × α)} {addr : Nat}

def empty : Cells α where
  cells := []
  next := 0
  distinct := nodup_nil
  fresh := by simp

def add (s : Cells α) (x : α) : Cells α where
  cells := (s.next, x) :: s.cells
  next := s.next + 1
  distinct := by
    rw [map_cons, nodup_cons]
    refine ⟨?_, s.distinct⟩
    intro hmem
    obtain ⟨c, hc, haddr⟩ := mem_map.mp hmem
    exact absurd haddr (Nat.ne_of_lt (s.fresh c hc))
  fresh := by
    exact forall_mem_cons.mpr
      ⟨Nat.lt_succ_self _, fun c hc => Nat.lt_succ_of_lt (s.fresh c hc)⟩

def modify (s : Cells α) (addr : Nat) (f : α → α) : Cells α where
  cells := s.cells.map (fun c => if c.1 = addr then (c.1, f c.2) else c)
  next := s.next
  distinct := by
    have haddr : Prod.fst ∘ (fun c : Nat × α => if c.1 = addr then (c.1, f c.2) else c) =
        Prod.fst := by
      funext c
      by_cases h : c.1 = addr <;> simp [h]
    rw [map_map, haddr]
    exact s.distinct
  fresh := by
    intro c hc
    obtain ⟨c', hc', rfl⟩ := mem_map.mp hc
    have := s.fresh c' hc'
    by_cases h : c'.1 = addr <;> simpa [h] using this

def del (s : Cells α) (addr : Nat) : Cells α where
  cells := s.cells.filter (fun c => c.1 ≠ addr)
  next := s.next
  distinct := s.distinct.sublist (filter_sublist.map Prod.fst)
  fresh := fun c hc => s.fresh c (mem_of_mem_filter hc)

@[simp] theorem cells_add (s : Cells α) (x : α) : (s.add x).cells = (s.next, x) :: s.cells := by
  rfl

theorem eq_of_mem {c' : Nat × α} (hc : c ∈ s.cells) (hc' : c' ∈ s.cells) (haddr : c.1 = c'.1) :
    c = c' := by
  exact inj_on_of_nodup_map s.distinct hc hc' haddr

theorem exists_split (hc : c ∈ s.cells) :
    ∃ before after, s.cells = before ++ c :: after ∧
      (∀ c' ∈ before, c'.1 ≠ c.1) ∧ ∀ c' ∈ after, c'.1 ≠ c.1 := by
  obtain ⟨before, after, hsp⟩ := append_of_mem hc
  have hdist := s.distinct
  rw [hsp, map_append, map_cons, nodup_middle, nodup_cons] at hdist
  have hnot := hdist.1
  rw [← map_append, mem_map] at hnot
  refine ⟨before, after, hsp, ?_, ?_⟩
  · intro c' hc' haddr
    exact hnot ⟨c', mem_append_left after hc', haddr⟩
  · intro c' hc' haddr
    exact hnot ⟨c', mem_append_right before hc', haddr⟩

theorem modify_of_split (f : α → α) (hsp : s.cells = before ++ c :: after)
    (hbef : ∀ c' ∈ before, c'.1 ≠ c.1) (haft : ∀ c' ∈ after, c'.1 ≠ c.1) :
    (s.modify c.1 f).cells = before ++ (c.1, f c.2) :: after := by
  have hkeep : ∀ l : List (Nat × α), (∀ c' ∈ l, c'.1 ≠ c.1) →
      l.map (fun c' => if c'.1 = c.1 then (c'.1, f c'.2) else c') = l := by
    intro l hl
    refine (map_congr_left ?_).trans (map_id l)
    intro c' hc'
    simp [hl c' hc']
  simp only [modify, hsp, map_append, map_cons, if_pos, hkeep before hbef, hkeep after haft]

theorem del_of_split (hsp : s.cells = before ++ c :: after)
    (hbef : ∀ c' ∈ before, c'.1 ≠ c.1) (haft : ∀ c' ∈ after, c'.1 ≠ c.1) :
    (s.del c.1).cells = before ++ after := by
  have hkeep : ∀ l : List (Nat × α), (∀ c' ∈ l, c'.1 ≠ c.1) →
      l.filter (fun c' => c'.1 ≠ c.1) = l := by
    intro l hl
    rw [filter_eq_self]
    intro c' hc'
    simpa using hl c' hc'
  simp only [del, hsp, filter_append, hkeep before hbef, filter_cons, hkeep after haft]
  simp

theorem mem_modify {f : α → α} (hc : c ∈ (s.modify addr f).cells) :
    c ∈ s.cells ∧ c.1 ≠ addr ∨ ∃ x, (addr, x) ∈ s.cells ∧ c = (addr, f x) := by
  obtain ⟨c', hc', rfl⟩ := mem_map.mp hc
  by_cases h : c'.1 = addr
  · subst h
    exact .inr ⟨c'.2, hc', by simp⟩
  · exact .inl (by simpa [h] using hc')

theorem mem_modify_of_mem (addr : Nat) (f : α → α) (hc : c ∈ s.cells) :
    (c.1, if c.1 = addr then f c.2 else c.2) ∈ (s.modify addr f).cells := by
  refine mem_map.mpr ⟨c, hc, ?_⟩
  by_cases h : c.1 = addr <;> simp [h]

theorem mem_del_iff : c ∈ (s.del addr).cells ↔ c ∈ s.cells ∧ c.1 ≠ addr := by
  simp [del]

end Cells
end GlusterFS
