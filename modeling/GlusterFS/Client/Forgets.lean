import GlusterFS.Lib.Run
import Mathlib.Algebra.GroupWithZero.Nat

/-!
# The forgets of a client

The client collects the inode numbers to be forgotten and sends them in batches.  A batch is taken
by a forget if none is under way or the array is full, by every other request before it is sent,
and by the callback of a batch before.  The callback is called with the reply, or at once if the
batch could not be submitted.  So what was collected waits for a callback that is still to come
(`ForgetInv`), also when the counter of the batches wraps around.
-/

namespace GlusterFS.Client

open Run List

def CLIENT_PROTO_FORGET_LIMIT : Nat := 128

structure Forget where
  inoArray : List Nat
  framesInTransit : Nat

/-- The batch that was taken, if there was something to take. -/
def clientGetForgets (forget : Forget) : Forget × List (List Nat) :=
  if 0 < forget.inoArray.length then
    (⟨[], (forget.framesInTransit + 1) % 2 ^ 32⟩, [forget.inoArray])
  else
    (forget, [])

/-- All batches so far, and the numbers of those that are still to be submitted or replied to. -/
structure ForgetState where
  forget : Forget
  batches : List (List Nat)
  taken : Nat
  submitted : Nat

def ForgetState.getForgets (s : ForgetState) : ForgetState :=
  let r := clientGetForgets s.forget
  { s with forget := r.1, batches := s.batches ++ r.2, taken := s.taken + r.2.length }

def decrement (n : Nat) : Nat :=
  if n = 0 then 2 ^ 32 - 1 else n - 1

def clientForgetCbk (s : ForgetState) : ForgetState :=
  ForgetState.getForgets { s with forget.framesInTransit := decrement s.forget.framesInTransit }

inductive ForgetEvent where
  | forget (ino : Nat)
  | request
  | submit (ok : Bool)
  | reply

/-- A write behind the array is not defined, and neither is a reply without a request. -/
def forgetStep (s : ForgetState) : ForgetEvent → Option ForgetState
  | .forget ino =>
    let s' := { s with forget.inoArray := s.forget.inoArray ++ [ino] }
    if CLIENT_PROTO_FORGET_LIMIT + 4 ≤ s.forget.inoArray.length then
      none
    else if s.forget.framesInTransit = 0 ∨
        CLIENT_PROTO_FORGET_LIMIT ≤ s'.forget.inoArray.length then
      some s'.getForgets
    else
      some s'
  | .request => some s.getForgets
  | .submit ok =>
    if s.taken = 0 then
      none
    else if ok then
      some { s with taken := s.taken - 1, submitted := s.submitted + 1 }
    else
      some (clientForgetCbk { s with taken := s.taken - 1 })
  | .reply =>
    if s.submitted = 0 then none else some (clientForgetCbk { s with submitted := s.submitted - 1 })

def ForgetState.init : ForgetState :=
  ⟨⟨[], 0⟩, [], 0, 0⟩

/-- The numbers that are forgotten. -/
def forgotten : List ForgetEvent → List Nat :=
  filterMap (fun
    | .forget ino => some ino
    | _ => none)

/-- What was forgotten is in the batches and in the array, once and in order. -/
structure ForgetsOnce (events : List ForgetEvent) (s : ForgetState) : Prop where
  once : s.batches.flatten ++ s.forget.inoArray = forgotten events
  room : s.forget.inoArray.length < CLIENT_PROTO_FORGET_LIMIT
  drained : s.taken + s.submitted = 0 → s.forget.inoArray = []

structure ForgetInv (events : List ForgetEvent) (s : ForgetState) : Prop extends
    ForgetsOnce events s where
  transit : s.forget.framesInTransit = (s.taken + s.submitted) % 2 ^ 32

variable {events : List ForgetEvent} {s s' : ForgetState}

/-- After a batch was taken nothing is left, so a callback may have been the last. -/
theorem ForgetInv.getForgets (honce : s.batches.flatten ++ s.forget.inoArray = forgotten events)
    (htransit : s.forget.framesInTransit = (s.taken + s.submitted) % 2 ^ 32) :
    ForgetInv events s.getForgets := by
  unfold ForgetState.getForgets clientGetForgets
  split_ifs with hpos
  · refine ⟨⟨by simpa using honce, by simp [CLIENT_PROTO_FORGET_LIMIT], by simp⟩, ?_⟩
    simp only [length_singleton]
    omega
  · have hnil : s.forget.inoArray = [] := by simpa using hpos
    exact ⟨⟨by simpa using honce, by simp [hnil, CLIENT_PROTO_FORGET_LIMIT], fun _ => hnil⟩,
      htransit⟩

theorem ForgetInv.cbk {taken submitted : Nat} (h : ForgetInv events s)
    (hone : taken + submitted + 1 = s.taken + s.submitted) :
    ForgetInv events (clientForgetCbk { s with taken := taken, submitted := submitted }) := by
  rw [clientForgetCbk]
  refine getForgets h.once ?_
  simp only [h.transit, ← hone, decrement]
  split_ifs <;> omega

theorem ForgetInv.step {e : ForgetEvent} (h : ForgetInv events s)
    (hstep : forgetStep s e = some s') : ForgetInv (events ++ [e]) s' := by
  have hother : (∀ ino, e ≠ .forget ino) → ForgetInv (events ++ [e]) s := by
    intro he
    have hsame : forgotten (events ++ [e]) = forgotten events := by
      cases e <;> simp_all [forgotten]
    exact ⟨⟨h.once.trans hsame.symm, h.room, h.drained⟩, h.transit⟩
  cases e with
  | forget ino =>
    have honce : s.batches.flatten ++ (s.forget.inoArray ++ [ino]) =
        forgotten (events ++ [.forget ino]) := by
      rw [← append_assoc, h.once]
      simp [forgotten]
    simp only [forgetStep] at hstep
    split_ifs at hstep with hfull htake
    · cases hstep
      exact getForgets honce h.transit
    · cases hstep
      simp only [not_or, Nat.not_le] at htake
      refine ⟨⟨honce, htake.2, ?_⟩, h.transit⟩
      intro hnone
      have := h.transit
      simp_all
  | request =>
    cases hstep
    exact getForgets (hother (by simp)).once h.transit
  | submit ok =>
    have h' := hother (by simp)
    simp only [forgetStep] at hstep
    split_ifs at hstep with hnone
    · cases hstep
      refine ⟨⟨h'.once, h'.room, by simp⟩, ?_⟩
      simp only [h'.transit]
      omega
    · cases hstep
      exact h'.cbk (by omega)
  | reply =>
    simp only [forgetStep] at hstep
    split_ifs at hstep with hnone
    cases hstep
    exact (hother (by simp)).cbk (by omega)

/-- In every run, and the next forget has a place in the array. -/
theorem forgetsOnce_of_run (hrun : run forgetStep .init events = some s) :
    ForgetsOnce events s ∧ ∀ ino, (forgetStep s (.forget ino)).isSome := by
  have hinit : ForgetInv [] .init := ⟨⟨rfl, by decide, fun _ => rfl⟩, rfl⟩
  have h : ForgetInv events s :=
    run_history forgetStep hinit (fun _ _ _ _ h hstep => h.step hstep) hrun
  refine ⟨h.toForgetsOnce, ?_⟩
  intro ino
  have := h.room
  simp only [forgetStep]
  split_ifs with hfull
  · omega
  · rfl
  · rfl

theorem forgetsOnce_refused :
    ∃ s, run forgetStep .init [.forget 7, .forget 8, .submit false, .submit true, .reply] = some s ∧
      s.batches = [[7], [8]] ∧ s.forget.inoArray = [] ∧
      s.batches.flatten ++ s.forget.inoArray =
        forgotten [.forget 7, .forget 8, .submit false, .submit true, .reply] :=
  ⟨_, rfl, rfl, rfl, (forgetsOnce_of_run rfl).1.once⟩

end GlusterFS.Client
