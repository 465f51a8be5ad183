import GlusterFS.Lib.Run
import Mathlib.Algebra.GroupWithZero.Nat
import Mathlib.Data.List.DropRight
import Mathlib.Data.List.Nodup

/-!
# Timers

The timers that are set are kept in the order of their times, and a pass calls those at the front
whose time has come.  The time of a timer is computed with the microseconds reduced before the
carry is taken from them, so that they are counted twice there.  As long as this and the 64 bits
of a time make no difference (`InTime`), a pass calls the timers that are due, in order and each
of them once (`punctual_of_inTime`).
-/

namespace GlusterFS.Timers

open Run List

structure Timeval where
  sec : Nat
  usec : Nat
deriving DecidableEq

def Timeval.exact (tv : Timeval) : Nat :=
  tv.sec * 1000000 + tv.usec

def TS (tv : Timeval) : Nat :=
  tv.exact % 2 ^ 64

/-- A timer has a number, its time, and the time at which it should be called. -/
structure Timer where
  id : Nat
  time : Timeval
  due : Nat
deriving DecidableEq

def timeAfter (now delta : Timeval) : Timeval :=
  let usec := (now.usec + delta.usec) % 1000000
  ⟨now.sec + (usec + delta.usec) / 1000000 + delta.sec, usec⟩

/-- The list of active timers, and what has happened so far. -/
structure State where
  active : List Timer
  created : List Timer
  fired : List Timer
  cancelled : List Nat

/-- The loop goes from the end of the list to the first timer that is earlier. -/
def insert (event : Timer) (active : List Timer) : List Timer :=
  active.rdropWhile (fun trav => TS event.time ≤ TS trav.time) ++
    event :: active.rtakeWhile (fun trav => TS event.time ≤ TS trav.time)

def start : State :=
  ⟨[], [], [], []⟩

inductive Event where
  | callAfter (now delta : Timeval)
  | cancel (id : Nat)
  | pass (now : Timeval)

/-- The timers that a pass calls. -/
def State.firing (s : State) (now : Timeval) : List Timer :=
  s.active.takeWhile (fun event => TS event.time ≤ TS now)

/-- A timer that was cancelled is freed, and cannot be cancelled again. -/
def step (s : State) : Event → Option State
  | .callAfter now delta =>
    let event := ⟨s.created.length, timeAfter now delta, now.exact + delta.exact⟩
    some { s with active := insert event s.active, created := s.created ++ [event] }
  | .cancel id =>
    if id ∈ s.cancelled ∨ s.created.length ≤ id then
      none
    else
      some { s with
        active := s.active.filter (fun event => event.id ≠ id), cancelled := id :: s.cancelled }
  | .pass now =>
    some { s with
      active := s.active.dropWhile (fun event => TS event.time ≤ TS now)
      fired := s.fired ++ s.firing now }

/-- The carry is right, and the times fit into 64 bits. -/
def InTime (_ : State) : Event → Prop
  | .callAfter now delta =>
    now.usec < 1000000 ∧ delta.usec < 1000000 ∧
      (now.usec + 2 * delta.usec < 1000000 ∨ 2000000 ≤ now.usec + 2 * delta.usec) ∧
      now.exact + delta.exact < 2 ^ 64
  | .cancel _ => True
  | .pass now => now.exact < 2 ^ 64

structure Punctual (s : State) (now : Timeval) : Prop where
  exactly : ∀ event, event ∈ s.firing now ↔ event ∈ s.created ∧ event ∉ s.fired ∧
    event.id ∉ s.cancelled ∧ event.due ≤ now.exact
  once : (s.fired ++ s.firing now).Nodup
  sorted : (s.firing now).Pairwise (fun event event' => event.due ≤ event'.due)

/-- What holds whatever the times are. -/
structure Kept (s : State) : Prop where
  once : (s.fired ++ s.active).Nodup
  ids : ∀ event ∈ s.created, event.id < s.created.length
  cancelled : ∀ id ∈ s.cancelled, id < s.created.length
  created : ∀ event ∈ s.fired, event ∈ s.created
  mem : ∀ event, event ∈ s.active ↔ event ∈ s.created ∧ event ∉ s.fired ∧ event.id ∉ s.cancelled

structure Inv (s : State) : Prop extends Kept s where
  sorted : s.active.Pairwise (fun event event' => event.due ≤ event'.due)
  time : ∀ event ∈ s.active, TS event.time = event.due

variable {now : Timeval} {s s' : State}

theorem TS_timeAfter {delta : Timeval} (h : InTime s (.callAfter now delta)) :
    TS (timeAfter now delta) = now.exact + delta.exact := by
  simp only [InTime, TS, timeAfter, Timeval.exact] at *
  omega

/-- In a list in the order of time, the search from one end finds all with the property. -/
theorem takeWhile_dropWhile_eq {p q : Timer → Bool} {l : List Timer} (hpq : ∀ x ∈ l, p x = q x)
    (h : l.Pairwise (fun x y => q y → q x)) :
    l.takeWhile p = l.filter q ∧ l.dropWhile p = l.filter (fun x => !q x) := by
  induction l with
  | nil => simp
  | cons x l ih =>
    obtain ⟨hx, hl⟩ := pairwise_cons.mp h
    obtain ⟨hpx, hpl⟩ := forall_mem_cons.mp hpq
    obtain ⟨htake, hdrop⟩ := ih hpl hl
    cases hq : q x with
    | true => simp [hpx, hq, htake, hdrop]
    | false =>
      have hnone : ∀ y ∈ l, q y = false := by grind
      have hself : l.filter (fun x => !q x) = l := filter_eq_self.mpr (by simpa using hnone)
      simpa [hpx, hq, hself] using hnone

theorem Inv.firing_eq (h : Inv s) (hnow : now.exact < 2 ^ 64) :
    s.firing now = s.active.filter (fun event => event.due ≤ now.exact) ∧
    s.active.dropWhile (fun event => TS event.time ≤ TS now) =
      s.active.filter (fun event => !decide (event.due ≤ now.exact)) := by
  have hts : TS now = now.exact := Nat.mod_eq_of_lt hnow
  refine takeWhile_dropWhile_eq ?_ ?_
  · intro event hevent
    rw [h.time event hevent, hts]
  · refine h.sorted.imp ?_
    simp only [decide_eq_true_eq]
    omega

theorem Inv.insert_eq (h : Inv s) (event : Timer) (hevent : TS event.time = event.due) :
    insert event s.active = s.active.filter (fun trav => !decide (event.due ≤ trav.due)) ++
      event :: s.active.filter (fun trav => event.due ≤ trav.due) := by
  obtain ⟨htake, hdrop⟩ := @takeWhile_dropWhile_eq (fun trav => TS event.time ≤ TS trav.time)
    (fun trav => event.due ≤ trav.due) s.active.reverse
    (fun trav htrav => by rw [h.time trav (mem_reverse.mp htrav), hevent])
    (pairwise_reverse.mpr (h.sorted.imp (by simp only [decide_eq_true_eq]; omega)))
  rw [insert, rdropWhile, rtakeWhile, htake, hdrop]
  simp

theorem insert_perm (event : Timer) (active : List Timer) :
    (insert event active).Perm (event :: active) := by
  refine perm_middle.trans (Perm.cons event ?_)
  rw [rdropWhile_append_rtakeWhile]

theorem Kept.step {e : Event} (h : Kept s) (hstep : step s e = some s') : Kept s' := by
  have hmem := h.mem
  cases e with
  | callAfter now delta =>
    cases hstep
    generalize hevent : Timer.mk _ (timeAfter now delta) _ = event
    have hperm := insert_perm event s.active
    refine ⟨?_, by grind [Kept], by grind [Kept], by grind [Kept], ?_⟩
    · refine ((hperm.append_left s.fired).trans perm_middle).symm.nodup ?_
      grind [Kept, h.once]
    · grind [Kept, hperm.mem_iff]
  | cancel id =>
    simp only [Timers.step] at hstep
    split_ifs at hstep with hid
    cases hstep
    refine ⟨?_, h.ids, by grind [Kept], h.created, by grind⟩
    exact h.once.sublist (filter_sublist.append_left _)
  | pass now =>
    cases hstep
    have hsplit : s.firing now ++ s.active.dropWhile (fun event => TS event.time ≤ TS now) =
        s.active := takeWhile_append_dropWhile
    have honce := h.once
    rw [← hsplit] at honce hmem
    refine ⟨by rwa [append_assoc], h.ids, h.cancelled, by grind [Kept], by grind⟩

theorem Inv.step {e : Event} (h : Inv s) (he : InTime s e) (hstep : step s e = some s') :
    Inv s' := by
  have hkept := h.toKept.step hstep
  -- A timer that leaves the list changes neither the order nor the times of the others.
  have hleave : s'.active.Sublist s.active → Inv s' := fun hsub =>
    ⟨hkept, h.sorted.sublist hsub, fun event hevent => h.time event (hsub.subset hevent)⟩
  cases e with
  | callAfter now delta =>
    cases hstep
    have hins := h.insert_eq ⟨s.created.length, timeAfter now delta, _⟩ (TS_timeAfter he)
    refine ⟨hkept, ?_, ?_⟩
    · rw [hins]
      refine pairwise_append.mpr ⟨h.sorted.filter _, pairwise_cons.mpr ⟨?_, h.sorted.filter _⟩, ?_⟩
      · grind
      · grind
    · intro event hevent
      cases (insert_perm _ s.active).mem_iff.mp hevent with
      | head => exact TS_timeAfter he
      | tail _ hmem => exact h.time event hmem
  | cancel id =>
    simp only [Timers.step] at hstep
    split_ifs at hstep with hid
    cases hstep
    exact hleave filter_sublist
  | pass now =>
    cases hstep
    exact hleave (dropWhile_sublist _)

/-- Timers that are set in time fire when due. -/
theorem punctual_of_inTime {events : List Event} (hall : AllSteps step InTime start events)
    (hrun : run step start events = some s) (hnow : now.exact < 2 ^ 64) : Punctual s now := by
  have h : Inv s := run_invariant step (fun _ _ _ h he hstep => h.step he hstep)
    (by refine ⟨⟨?_, ?_, ?_, ?_, ?_⟩, ?_, ?_⟩ <;> simp [start]) hall hrun
  have hfiring := (h.firing_eq hnow).1
  refine ⟨?_, ?_, ?_⟩
  · intro event
    rw [hfiring, mem_filter, h.mem]
    simp [and_assoc]
  · rw [hfiring]
    exact h.once.sublist (filter_sublist.append_left _)
  · rw [hfiring]
    exact h.sorted.filter _

def twoTimers : List Event :=
  [.callAfter ⟨0, 100000⟩ ⟨1, 200000⟩, .callAfter ⟨0, 200000⟩ ⟨0, 300000⟩, .pass ⟨1, 0⟩]

theorem punctual_twoTimers : ∃ s, run step start twoTimers = some s ∧ Punctual s ⟨2, 0⟩ := by
  have hall : AllSteps step InTime start twoTimers := by
    simp [twoTimers, AllSteps, InTime, Timeval.exact]
  exact ⟨_, rfl, punctual_of_inTime hall rfl (by decide)⟩

/-- A timer for the time 0.9 is not called at the time 1. -/
theorem not_punctual_wrongCarry :
    ∃ s, run step start [.callAfter ⟨0, 600000⟩ ⟨0, 300000⟩] = some s ∧ ¬ Punctual s ⟨1, 0⟩ := by
  refine ⟨_, rfl, ?_⟩
  intro h
  have hfires := (h.exactly ⟨0, ⟨1, 900000⟩, 900000⟩).mpr (by decide)
  revert hfires
  decide

/-- Whatever the times are, a timer is in the list until it is called, once, or cancelled. -/
theorem called_once_of_not_cancelled (events : List Event)
    (hrun : run step start events = some s) :
    (s.fired ++ s.active).Nodup ∧ ∀ event, event ∈ s.active ↔
      event ∈ s.created ∧ event ∉ s.fired ∧ event.id ∉ s.cancelled := by
  have h : Kept s := run_keeps step (fun _ _ _ _ h hstep => Kept.step h hstep)
    (by constructor <;> simp [start]) hrun
  exact ⟨h.once, h.mem⟩

theorem called_once_twoTimers :
    ∃ s, run step start twoTimers = some s ∧ s.fired.length = 1 ∧ (s.fired ++ s.active).Nodup := by
  obtain ⟨s, hrun, hfired⟩ : ∃ s, run step start twoTimers = some s ∧ s.fired.length = 1 :=
    ⟨_, rfl, rfl⟩
  exact ⟨s, hrun, hfired, (called_once_of_not_cancelled twoTimers hrun).1⟩

end GlusterFS.Timers
