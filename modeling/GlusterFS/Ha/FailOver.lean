import Mathlib.Data.List.Rotate

/-!
# Failover of operations on a descriptor

An operation is wound to one child, and if that child is not connected to the next one that the
descriptor's state vector marks, in a circle and as long as there are tries left.  There are as
many tries as marked children, so the operation goes once round the circle: the children that it
is wound to begin the list of the marked ones from the active child on (`haFop_spec`).
-/

namespace GlusterFS.Ha

open List

variable {β : Type*} {state : List Bool} {a b : Nat} {behind rest : List Nat}

def ENOTCONN : Int := 107

structure Reply (β : Type*) where
  opRet : Int
  opErrno : Int
  data : Option β

def Reply.IsNotConn (r : Reply β) : Prop :=
  r.opRet = -1 ∧ r.opErrno = ENOTCONN
deriving Decidable

structure Local where
  active : Nat
  tries : Nat
  state : List Bool

def marked (state : List Bool) (i : Nat) : Bool :=
  state.getD i false

/-- A child that is -1 in the source is `none`, and so is the failure with ENOTCONN. -/
def haAllocInitFd (prefSubvol active : Option Nat) (fdstate : List Bool) : Option Local :=
  (((prefSubvol.or active).filter (marked fdstate)).or
      ((range fdstate.length).find? (marked fdstate))).map
    (fun i => ⟨i, fdstate.count true, fdstate⟩)

/-- The search for the next marked child, which ends within one round. -/
def nextActive (state : List Bool) : Nat → Nat → Nat
  | 0, active => active
  | fuel + 1, active =>
    let active := (active + 1) % state.length
    if marked state active then active else nextActive state fuel active

/-- What the stub is resumed with, if the operation is wound again. -/
def haHandleCbk (l : Local) (reply : Reply β) : Option Local :=
  if reply.IsNotConn ∧ l.tries - 1 ≠ 0 then
    some { l with active := nextActive l.state l.state.length l.active, tries := l.tries - 1 }
  else
    none

/-- The children that the operation is wound to, and the reply that is unwound. -/
def haFop (replies : Nat → Reply β) : Nat → Local → Option (List Nat × Reply β)
  | 0, _ => none
  | fuel + 1, l =>
    match haHandleCbk l (replies l.active) with
    | none => some ([l.active], replies l.active)
    | some l' => (haFop replies fuel l').map (fun r => (l.active :: r.1, r.2))

/-- An operation on a descriptor. -/
def haFdFop (prefSubvol active : Option Nat) (fdstate : List Bool) (replies : Nat → Reply β) :
    Option (List Nat × Reply β) :=
  match haAllocInitFd prefSubvol active fdstate with
  | none => some ([], ⟨-1, ENOTCONN, none⟩)
  | some l => haFop replies fdstate.length l

def haFchmod := @haFdFop β
def haFchown := @haFdFop β
def haFtruncate := @haFdFop β
def haReadv := @haFdFop β
def haWritev := @haFdFop β
def haFlush := @haFdFop β
def haFsync := @haFdFop β
def haFstat := @haFdFop β
def haGetdents := @haFdFop β
def haSetdents := @haFdFop β
def haFsyncdir := @haFdFop β
def haFxattrop := @haFdFop β
def haReaddir := @haFdFop β

structure FailsOver (fdstate : List Bool) (replies : Nat → Reply β) (wound : List Nat)
    (reply : Reply β) : Prop where
  once : wound.Nodup
  marked : ∀ i ∈ wound, marked fdstate i
  stops : ∀ i ∈ wound.dropLast, (replies i).IsNotConn
  returns : wound = [] ∧ reply.IsNotConn ∨ ∃ i ∈ wound.getLast?, reply = replies i
  complete : reply.IsNotConn → ∀ i, Ha.marked fdstate i → i ∈ wound ∧ (replies i).IsNotConn

/-- The children behind a child, in the circle of `n`. -/
def Circle (n : Nat) : List Nat → Prop :=
  IsChain (fun i j => j = (i + 1) % n)

theorem nextActive_spec (fuel : Nat) (hcircle : Circle state.length (a :: behind))
    (hrest : behind.filter (marked state) = b :: rest) (hfuel : behind.length ≤ fuel) :
    nextActive state fuel a = b ∧ ∃ behind', Circle state.length (b :: behind') ∧
      behind'.filter (marked state) = rest ∧ behind'.length ≤ behind.length := by
  induction behind generalizing a fuel with
  | nil => simp at hrest
  | cons c behind ih =>
    obtain ⟨hc, hcircle⟩ := isChain_cons_cons.mp hcircle
    obtain ⟨fuel, rfl⟩ := Nat.exists_eq_add_of_lt hfuel
    rw [nextActive, ← hc]
    by_cases hmark : marked state c
    · rw [filter_cons_of_pos hmark] at hrest
      cases hrest
      exact ⟨if_pos hmark, behind, hcircle, rfl, by simp⟩
    · rw [filter_cons_of_neg hmark] at hrest
      obtain ⟨hnext, behind', hcircle', hrest', hle⟩ := ih (behind.length + fuel)
        hcircle hrest (by omega)
      refine ⟨?_, behind', hcircle', hrest', by simp; omega⟩
      simpa [hmark, Nat.add_right_comm] using hnext

/-- The children that are tried are the marked ones from the active child on. -/
theorem haFop_spec (replies : Nat → Reply β) (fuel : Nat)
    (hcircle : Circle state.length (a :: behind)) (hrest : behind.filter (marked state) = rest)
    (hlen : behind.length ≤ state.length) (hfuel : rest.length < fuel) :
    ∃ before i after, a :: rest = before ++ i :: after ∧
      haFop replies fuel ⟨a, rest.length + 1, state⟩ = some (before ++ [i], replies i) ∧
      (∀ j ∈ before, (replies j).IsNotConn) ∧ ((replies i).IsNotConn → after = []) := by
  induction rest generalizing a behind fuel with
  | nil =>
    obtain ⟨fuel, rfl⟩ := Nat.exists_eq_add_of_lt hfuel
    exact ⟨[], a, [], rfl, by simp [haFop, haHandleCbk], by simp, fun _ => rfl⟩
  | cons b rest ih =>
    obtain ⟨fuel, rfl⟩ := Nat.exists_eq_add_of_lt hfuel
    by_cases hconn : (replies a).IsNotConn
    · obtain ⟨hnext, behind', hcircle', hrest', hle⟩ := nextActive_spec _ hcircle hrest hlen
      obtain ⟨before, i, after, hsplit, hfop, hbefore, hafter⟩ := ih (rest.length + 1 + fuel)
        hcircle' hrest' (hle.trans hlen) (by omega)
      refine ⟨a :: before, i, after, by simp [hsplit], ?_, by simpa [hconn] using hbefore, hafter⟩
      simp [haFop, haHandleCbk, hconn, hnext, hfop]
    · exact ⟨[], a, b :: rest, rfl, by simp [haFop, haHandleCbk, hconn], by simp,
        fun h => absurd h hconn⟩

theorem length_filter_marked (state : List Bool) :
    ((range state.length).filter (marked state)).length = state.count true := by
  have hstate : state = (range state.length).map (marked state) := by
    refine ext_getElem (by simp) ?_
    intro i hi _
    simp [marked, hi]
  rw [← countP_eq_length_filter]
  conv_rhs => rw [hstate, count, countP_map]
  congr 1
  funext i
  simp

theorem lt_of_marked {i : Nat} (h : marked state i) : i < state.length := by
  by_contra hi
  simp [marked, getElem?_eq_none (Nat.not_lt.mp hi)] at h

theorem exists_circle {n : Nat} (ha : a < n) :
    ∃ behind, Circle n (a :: behind) ∧ (a :: behind).Perm (range n) := by
  have hcircle : Circle n ((range n).rotate a) := by
    rw [Circle, isChain_iff_getElem]
    intro i hi
    simp [getElem_rotate, Nat.add_right_comm]
  have hperm := rotate_perm (range n) a
  rw [rotate_eq_drop_append_take (by simp; omega), drop_eq_getElem_cons (by simpa),
    getElem_range] at hperm hcircle
  exact ⟨_, hcircle, hperm⟩

/-- Every operation on a descriptor fails over. -/
theorem failsOver_haFdFop (prefSubvol active : Option Nat) (fdstate : List Bool)
    (replies : Nat → Reply β) :
    ∃ wound reply, haFdFop prefSubvol active fdstate replies = some (wound, reply) ∧
      FailsOver fdstate replies wound reply := by
  have hlt := fun i => @lt_of_marked fdstate i
  rw [haFdFop, haAllocInitFd]
  cases hactive : ((prefSubvol.or active).filter (marked fdstate)).or
      ((range fdstate.length).find? (marked fdstate)) with
  | none =>
    have hnone : ∀ i, ¬ marked fdstate i := by
      intro i hi
      have := hlt i hi
      simp_all [Option.or_eq_none_iff]
    exact ⟨[], _, rfl, nodup_nil, by simp, by simp, .inl ⟨rfl, rfl, rfl⟩,
      fun _ i hi => absurd hi (hnone i)⟩
  | some a =>
    have ha : marked fdstate a := by
      rcases Option.or_eq_some_iff.mp hactive with h | ⟨_, h⟩
      · exact (Option.filter_eq_some_iff.mp h).2
      · exact find?_some h
    obtain ⟨behind, hcircle, hperm⟩ := exists_circle (hlt a ha)
    have hfilter := hperm.filter (marked fdstate)
    rw [filter_cons_of_pos ha] at hfilter
    have hmem : ∀ i, i ∈ a :: behind.filter (marked fdstate) ↔ marked fdstate i := by
      intro i
      rw [hfilter.mem_iff, mem_filter, mem_range]
      exact ⟨fun h => h.2, fun h => ⟨hlt i h, h⟩⟩
    have hlen := hperm.length_eq
    rw [length_cons, length_range] at hlen
    have hcount := hfilter.length_eq
    rw [length_filter_marked, length_cons] at hcount
    obtain ⟨before, i, after, hsplit, hfop, hbefore, hafter⟩ := haFop_spec replies
      fdstate.length hcircle rfl (by omega)
      (Nat.lt_of_le_of_lt (behind.length_filter_le _) (by omega))
    rw [hcount] at hfop
    have hwhole : a :: behind.filter (marked fdstate) = before ++ [i] ++ after := by simp [hsplit]
    refine ⟨_, _, hfop, ?_, ?_, by simpa using hbefore, .inr ⟨i, by simp, rfl⟩, ?_⟩
    · have := hfilter.symm.nodup (nodup_range.filter _)
      rw [hwhole] at this
      exact this.of_append_left
    · intro j hj
      rw [← hmem, hwhole]
      exact mem_append_left after hj
    · intro hconn j hj
      rw [← hmem, hwhole, hafter hconn, append_nil] at hj
      refine ⟨hj, ?_⟩
      rcases mem_append.mp hj with hj | hj
      · exact hbefore j hj
      · rw [mem_singleton.mp hj]
        exact hconn

end GlusterFS.Ha
