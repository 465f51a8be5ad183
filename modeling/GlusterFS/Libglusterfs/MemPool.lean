import GlusterFS.Lib.Run
import Mathlib.Data.List.Nodup

/-!
# Memory pools

A pool is one block of padded objects, with a list of those that are not handed out; when none is
left an object is allocated by itself.  `mem_put` puts a member back on the list and frees any
other object.  But in the end it frees what it was given in any case, so that a member is freed
too and any other object twice: the ownership is right as long as nothing is put back, and no
longer (`owned_iff`).

The counters are of type `int`.  Where one of them would leave its range nothing is defined; a
put cannot do that, since the object was counted when it was handed out.
-/

namespace GlusterFS.Mem

open Run List

structure MemPool where
  list : List Nat
  hotCount : Int
  coldCount : Int
  paddedSizeofType : Nat
  pool : Nat
  poolEnd : Nat

def INT_MAX : Nat := 0x7FFFFFFF

/-- `pool` is what `CALLOC` returns.  The loop over the objects counts with an `int`. -/
def memPoolNewFn (sizeofType count pool : Nat) : Option MemPool :=
  if sizeofType = 0 ∨ count = 0 ∨ INT_MAX < count then
    none
  else
    let padded := sizeofType + (16 - sizeofType % 16)
    some ⟨(range count).map (fun i => pool + i * padded), 0, count, padded, pool,
      pool + count * padded⟩

/-- One more object is handed out. -/
def MemPool.counted (p : MemPool) (ptr : Nat) : Option (MemPool × Option Nat) :=
  if p.hotCount < INT_MAX then some ({ p with hotCount := p.hotCount + 1 }, some ptr) else none

/-- `ptr` is what `malloc` returns if no member is left. -/
def memGet (p : MemPool) (ptr : Option Nat) : Option (MemPool × Option Nat) :=
  if p.coldCount = 0 then
    match ptr with
    | none => some (p, none)
    | some a => p.counted a
  else
    match p.list with
    | [] => none
    | a :: list => { p with list, coldCount := p.coldCount - 1 }.counted a

def isMember (p : MemPool) (ptr : Nat) : Int :=
  if ptr < p.pool ∨ p.poolEnd ≤ ptr then 0
  else if (ptr - p.pool) % p.paddedSizeofType ≠ 0 then -1
  else 1

/-- The pool, and the pointers that were passed to `free`; `none` is an `abort`. -/
def memPut (p : MemPool) : Option Nat → Option (MemPool × List Nat)
  | none => some (p, [])
  | some ptr =>
    if isMember p ptr = 1 then
      some ({ p with
        list := ptr :: p.list, hotCount := p.hotCount - 1, coldCount := p.coldCount + 1 }, [ptr])
    else if isMember p ptr = 0 then
      some ({ p with hotCount := p.hotCount - 1 }, [ptr, ptr])
    else
      none

/-- `returned` are the objects from outside the pool that were put back. -/
structure State extends MemPool where
  handedOut : List Nat
  returned : List Nat
  freed : List Nat

inductive Call where
  | get (malloc : Option Nat)
  | put (ptr : Nat)

def step (s : State) : Call → Option State
  | .get malloc =>
    (memGet s.toMemPool malloc).map
      (fun r => { s with toMemPool := r.1, handedOut := r.2.toList ++ s.handedOut })
  | .put ptr =>
    (memPut s.toMemPool ptr).map (fun r =>
      { toMemPool := r.1
        handedOut := s.handedOut.erase ptr
        returned := s.returned ++ if isMember s.toMemPool ptr = 1 then [] else [ptr]
        freed := s.freed ++ r.2 })

/-- `malloc` returns what is not in use, and only an object that is handed out is put back. -/
def Legal (s : State) : Call → Prop
  | .get malloc => ∀ a ∈ malloc, a ∉ s.handedOut
  | .put ptr => ptr ∈ s.handedOut

/-- The objects of the pool are `members`. -/
structure Owned (members : List Nat) (s : State) : Prop where
  distinct : (s.handedOut ++ s.list).Nodup
  hot : s.hotCount = s.handedOut.length
  kept : members ⊆ s.handedOut ++ s.list
  freed : s.freed = s.returned

structure Inv (members : List Nat) (s : State) : Prop extends Owned members s where
  cold : s.coldCount = s.list.length

/-- A call of `mem_get` that gets nothing, or one of the first `INT_MAX` objects. -/
def Gets (s : State) (c : Call) : Prop :=
  ∃ malloc, c = .get malloc ∧ (s.coldCount = 0 ∧ malloc = none ∨ s.handedOut.length < INT_MAX)

variable {p : MemPool} {members : List Nat} {s s' : State} {c : Call}

theorem inv_start {sizeofType count pool : Nat} (h : memPoolNewFn sizeofType count pool = some p) :
    Inv p.list ⟨p, [], [], []⟩ := by
  unfold memPoolNewFn at h
  split at h
  · cases h
  · cases h
    refine ⟨⟨nodup_range.map ?_, rfl, Subset.refl _, rfl⟩, by simp⟩
    intro i j hij
    exact Nat.eq_of_mul_eq_mul_right (by omega) (Nat.add_left_cancel hij)

theorem Inv.get (h : Inv members s) (hc : Gets s c) (hleg : Legal s c) :
    ∃ s', step s c = some s' ∧ Inv members s' := by
  obtain ⟨malloc, rfl, hroom⟩ := hc
  obtain ⟨⟨list, hot, cold, size, pool, poolEnd⟩, out, returned, freed⟩ := s
  obtain ⟨⟨hdist, hhot, hkept, hfreed⟩, hcold⟩ := h
  obtain rfl : hot = out.length := hhot
  cases list with
  | nil =>
    obtain rfl : cold = 0 := hcold
    cases malloc with
    | none => exact ⟨_, rfl, ⟨hdist, rfl, hkept, hfreed⟩, rfl⟩
    | some a =>
      have hlt : (out.length : Int) < INT_MAX := Int.ofNat_lt.mpr (hroom.resolve_left nofun)
      rw [append_nil] at hdist
      rw [step, memGet, if_pos rfl, MemPool.counted, if_pos hlt]
      refine ⟨_, rfl, ⟨?_, rfl, subset_cons_of_subset a hkept, hfreed⟩, rfl⟩
      simpa using ⟨hleg a rfl, hdist⟩
  | cons a list =>
    obtain rfl : cold = list.length + 1 := hcold
    have hne : (list.length : Int) + 1 ≠ 0 := by omega
    have hlt : (out.length : Int) < INT_MAX :=
      Int.ofNat_lt.mpr (hroom.resolve_left (fun hc => hne hc.1))
    simp only [step, memGet, if_neg hne, MemPool.counted, if_pos hlt]
    refine ⟨_, rfl, ⟨nodup_middle.mp hdist, rfl,
      Subset.trans hkept perm_middle.subset, hfreed⟩, ?_⟩
    simp

theorem not_owned_of_not_gets (h : Inv members s) (hc : ¬ Gets s c) (hstep : step s c = some s') :
    ¬ Owned members s' := by
  cases c with
  | get malloc =>
    -- the count of what is handed out is at the end of its range, so nothing is handed out
    have hfull : ¬ s.hotCount < INT_MAX := by
      rw [h.hot, Int.ofNat_lt]
      exact fun hlt => hc ⟨malloc, rfl, .inr hlt⟩
    simp only [step, memGet, MemPool.counted, if_neg hfull] at hstep
    split_ifs at hstep with hcold
    · cases malloc with
      | none => exact absurd ⟨none, rfl, .inl ⟨hcold, rfl⟩⟩ hc
      | some a => cases hstep
    · split at hstep <;> cases hstep
  | put ptr =>
    obtain ⟨r, hr, rfl⟩ := Option.map_eq_some_iff.mp hstep
    intro howned
    have hfreed := howned.freed
    simp only [h.freed, append_cancel_left_eq] at hfreed
    simp only [memPut] at hr
    split_ifs at hr with hmem
    · cases hr
      rw [if_pos hmem] at hfreed
      cases hfreed
    · cases hr
      rw [if_neg hmem] at hfreed
      cases hfreed

/-- Exact: a `mem_put` breaks the account. -/
theorem owned_iff {sizeofType count pool : Nat} {calls : List Call}
    (hnew : memPoolNewFn sizeofType count pool = some p)
    (hlegal : AllSteps step Legal ⟨p, [], [], []⟩ calls) :
    (∀ before, before <+: calls →
        ∃ s, run step ⟨p, [], [], []⟩ before = some s ∧ Owned p.list s) ↔
      AllSteps step Gets ⟨p, [], [], []⟩ calls :=
  always_iff_allSteps_on step (P := fun _ => Owned p.list) (inv_start hnew)
    (fun _ _ _ h hleg hc => h.get hc hleg) (fun _ _ h => h.toOwned)
    (fun _ _ _ _ h _ hc => not_owned_of_not_gets h hc) hlegal

theorem owned_handedOut : ∃ p, memPoolNewFn 8 1 64 = some p ∧
    ∃ s, run step ⟨p, [], [], []⟩ [.get none] = some s ∧ Owned p.list s :=
  ⟨_, rfl, (@owned_iff _ 8 1 64 [.get none] rfl ⟨nofun, fun _ _ => trivial⟩).mpr
    ⟨⟨_, rfl, .inr (by decide)⟩, fun _ _ => trivial⟩ _ (prefix_refl _)⟩

/-- The only object of a pool is put back, and it is freed. -/
theorem not_owned_freed : ∃ p, memPoolNewFn 8 1 64 = some p ∧
    ∃ s, run step ⟨p, [], [], []⟩ [.get none, .put 64] = some s ∧ isMember p 64 = 1 ∧
      s.freed = [64] ∧ ¬ Owned p.list s :=
  ⟨_, rfl, _, rfl, rfl, rfl, fun h => nomatch h.freed⟩

end GlusterFS.Mem
