import Mathlib.Algebra.BigOperators.Group.List.Basic
import Mathlib.Algebra.GroupWithZero.Nat

/-!
# Transfers that stop anywhere

A vector of pieces is moved by calls that each move some part of it.  `advance` takes what was
moved off the front of the vector, and `transfer` is the loop that goes on until the vector is
empty or a call has nothing to move.  `transfer_invariant` is the rule for the loop.

A vector of data loses its first elements (`flatten_advance`).  A vector of places is filled by
`fill`, and filling it in two goes is the same as filling it in one (`fill_append`).
-/

namespace GlusterFS.Transfer

open List Function

universe u v w

section

variable {α : Type u} (len : α → Nat) (cut : Nat → α → α)

def skipEmpty : List α → List α
  | [] => []
  | p :: ps => if len p = 0 then skipEmpty ps else p :: ps

/-- What is left of a vector when `k` of its elements were moved. -/
def advance : Nat → List α → List α
  | _, [] => []
  | k, p :: ps =>
    if len p ≤ k then
      if k - len p = 0 then skipEmpty len ps else advance (k - len p) ps
    else
      cut k p :: ps

def total (ps : List α) : Nat :=
  (ps.map len).sum

def Ready (ps : List α) : Prop :=
  ∀ p ∈ ps.head?, len p ≠ 0

@[simp] theorem total_nil : total len [] = 0 := by
  rfl

@[simp] theorem total_cons (p : α) (ps : List α) : total len (p :: ps) = len p + total len ps := by
  simp [total]

theorem ready_skipEmpty (ps : List α) : Ready len (skipEmpty len ps) := by
  induction ps with
  | nil =>
    intro p hp
    cases hp
  | cons p ps ih =>
    unfold skipEmpty
    split
    case isTrue =>
      exact ih
    case isFalse h =>
      intro q hq
      cases hq
      exact h

theorem total_skipEmpty (ps : List α) : total len (skipEmpty len ps) = total len ps := by
  induction ps with
  | nil => rfl
  | cons p ps ih =>
    unfold skipEmpty
    split
    case isTrue h =>
      rw [ih, total_cons, h, Nat.zero_add]
    case isFalse =>
      rfl

variable (hcut : ∀ k p, len (cut k p) = len p - k)
include hcut

theorem ready_advance (k : Nat) (ps : List α) : Ready len (advance len cut k ps) := by
  induction ps generalizing k with
  | nil =>
    intro p hp
    cases hp
  | cons p ps ih =>
    unfold advance
    split
    case isTrue =>
      split
      · exact ready_skipEmpty len ps
      · exact ih (k - len p)
    case isFalse h =>
      intro q hq
      cases hq
      rw [hcut]
      omega

theorem total_advance (k : Nat) (ps : List α) :
    total len (advance len cut k ps) = total len ps - k := by
  induction ps generalizing k with
  | nil => simp [advance]
  | cons p ps ih =>
    unfold advance
    split
    case isTrue h =>
      split
      · rw [total_skipEmpty, total_cons]
        omega
      · rw [ih, total_cons]
        omega
    case isFalse h =>
      rw [total_cons, total_cons, hcut]
      omega

end

section

variable {σ : Type u} {α : Type v} (len : α → Nat) (cut : Nat → α → α)

/-- What a call answers: nothing to move now, interrupted, or how much it would like to move. -/
inductive Result where
  | again
  | intr
  | moved (k : Nat)

/--
The loop of calls.  `io` is one of them: how much was moved and the state afterwards, if there
was something to move.  When there are no more results, the next call has nothing to move.
-/
def transfer (io : σ → List α → Nat → Option (Nat × σ)) :
    σ → List α → List Result → σ × List α × List Result
  | s, ps, [] => (s, ps, [])
  | s, [], r :: rs => (s, [], r :: rs)
  | s, p :: ps, .again :: rs => (s, p :: ps, rs)
  | s, p :: ps, .intr :: rs => transfer io s (p :: ps) rs
  | s, p :: ps, .moved k :: rs =>
    match io s (p :: ps) k with
    | none => (s, p :: ps, rs)
    | some (n, s') => transfer io s' (advance len cut n (p :: ps)) rs

theorem transfer_invariant {io : σ → List α → Nat → Option (Nat × σ)} {P : σ → List α → Prop}
    (hio : ∀ s ps k n s', P s ps → ps ≠ [] → io s ps k = some (n, s') →
      P s' (advance len cut n ps)) {s : σ} {ps : List α} (h : P s ps) (rs : List Result) :
    P (transfer len cut io s ps rs).1 (transfer len cut io s ps rs).2.1 := by
  induction rs generalizing s ps with
  | nil =>
    exact h
  | cons r rs ih =>
    cases ps with
    | nil =>
      exact h
    | cons p ps =>
      cases r with
      | again =>
        exact h
      | intr =>
        exact ih h
      | moved k =>
        unfold transfer
        split
        case h_1 =>
          exact h
        case h_2 n s' hstep =>
          exact ih (hio s (p :: ps) k n s' h (by simp) hstep)

end

variable {β : Type u}

theorem flatten_advance (k : Nat) (ps : List (List β)) :
    (advance length drop k ps).flatten = ps.flatten.drop k := by
  have hskip : ∀ ps : List (List β), (skipEmpty length ps).flatten = ps.flatten := by
    intro ps
    induction ps with
    | nil => rfl
    | cons p ps ih =>
      unfold skipEmpty
      split
      case isTrue h =>
        rw [ih, flatten_cons, length_eq_zero_iff.mp h, nil_append]
      case isFalse =>
        rfl
  induction ps generalizing k with
  | nil => simp [advance]
  | cons p ps ih =>
    unfold advance
    rw [flatten_cons, drop_append]
    split
    case isTrue h =>
      rw [drop_eq_nil_of_le h, nil_append]
      split
      case isTrue hzero =>
        rw [hskip, hzero, drop_zero]
      case isFalse =>
        exact ih (k - p.length)
    case isFalse h =>
      rw [flatten_cons, Nat.sub_eq_zero_of_le (by omega), drop_zero]

section

variable {κ : Type u} {β : Type v}

abbrev Place (κ : Type u) := κ × Nat

def room (p : Place κ) : Nat :=
  p.2

def takeRoom (k : Nat) (p : Place κ) : Place κ :=
  (p.1, p.2 - k)

theorem room_takeRoom (k : Nat) (p : Place κ) : room (takeRoom k p) = room p - k := by
  rfl

variable [DecidableEq κ]

def fill : List β → List (Place κ) → (κ → List β) → κ → List β
  | _, [], store => store
  | bytes, p :: ps, store =>
    fill (bytes.drop p.2) ps (update store p.1 (store p.1 ++ bytes.take p.2))

theorem fill_nil (ps : List (Place κ)) (store : κ → List β) : fill [] ps store = store := by
  induction ps with
  | nil => rfl
  | cons p ps ih =>
    rw [fill, drop_nil, take_nil, append_nil, update_eq_self]
    exact ih

theorem fill_skipEmpty (bytes : List β) (ps : List (Place κ)) (store : κ → List β) :
    fill bytes (skipEmpty room ps) store = fill bytes ps store := by
  induction ps with
  | nil => rfl
  | cons p ps ih =>
    unfold skipEmpty
    split
    case isTrue h =>
      have hzero : p.2 = 0 := h
      rw [ih, fill, hzero, drop_zero, take_zero, append_nil, update_eq_self]
    case isFalse =>
      rfl

theorem fill_append (bytes rest : List β) (ps : List (Place κ)) (store : κ → List β) :
    fill rest (advance room takeRoom bytes.length ps) (fill bytes ps store) =
      fill (bytes ++ rest) ps store := by
  induction ps generalizing bytes store with
  | nil => rfl
  | cons p ps ih =>
    unfold advance
    rw [fill, fill]
    split
    case isTrue h =>
      have hle : p.2 ≤ bytes.length := h
      have hlen : (bytes.drop p.2).length = bytes.length - room p := length_drop
      rw [drop_append_of_le_length hle, take_append_of_le_length hle, ← hlen]
      split
      case isTrue hzero =>
        rw [length_eq_zero_iff.mp hzero, fill_nil, fill_skipEmpty, nil_append]
      case isFalse =>
        exact ih (bytes.drop p.2) _
    case isFalse h =>
      have hlt : bytes.length < p.2 := Nat.lt_of_not_le h
      rw [drop_eq_nil_of_le (Nat.le_of_lt hlt), fill_nil, take_of_length_le (Nat.le_of_lt hlt),
        fill]
      have hdrop : (bytes ++ rest).drop p.2 = rest.drop (p.2 - bytes.length) := by
        rw [drop_append, drop_eq_nil_of_le (Nat.le_of_lt hlt), nil_append]
      have htake : (bytes ++ rest).take p.2 = bytes ++ rest.take (p.2 - bytes.length) := by
        rw [take_append, take_of_length_le (Nat.le_of_lt hlt)]
      rw [hdrop, htake]
      simp [takeRoom]

end

end GlusterFS.Transfer
