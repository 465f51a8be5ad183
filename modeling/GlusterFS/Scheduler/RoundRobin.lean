import Mathlib.Algebra.GroupWithZero.Nat
import Mathlib.Data.List.Basic

/-!
# The round robin scheduler

`rr_schedule` goes round the subvolumes, from the one behind its last choice on.  The first round
looks for a subvolume that is online and has free disk, the second for one that is online.  But
the first round compares the online status with the constant for free disk, and no status is
both.  So full subvolumes are chosen, and the choices are right where all that are online have free
disk, or none has (`schedules_iff`).

The loop of `rr_init` that leaves the read-only subvolumes out has a wrong index: it is right only
where they are aligned with the others (`rrInit_leavesOut_iff`).  It never sees one, as the check
of that option refuses every value.
-/

namespace GlusterFS.Scheduler

open List

def RR_MIN_FREE_DISK_NOT_REACHED : Nat := 0
def RR_MIN_FREE_DISK_REACHED : Nat := 1
def RR_SUBVOLUME_OFFLINE : Nat := 0
def RR_SUBVOLUME_ONLINE : Nat := 1

structure RrSubvolume (ξ : Type*) where
  xl : ξ
  freeDiskStatus : Nat
  status : Nat

structure Rr (ξ : Type*) where
  subvolumeList : List (RrSubvolume ξ)
  scheduleIndex : Nat

variable {ξ : Type*} {l : List (RrSubvolume ξ)} {i stop : Nat}

/-- A subvolume as `rr_init` enters it. -/
def newSubvolume (child : ξ) : RrSubvolume ξ :=
  ⟨child, RR_MIN_FREE_DISK_NOT_REACHED, RR_SUBVOLUME_ONLINE⟩

/--
The answer to a request for statistics: the free and the total disk, if it succeeded.  A total of
zero is divided by, which is not defined.
-/
def rrUpdateCbk (minFreeDisk : UInt32) (stats : Option (UInt64 × UInt64))
    (subvolume : RrSubvolume ξ) : Option (RrSubvolume ξ) :=
  match stats with
  | none => some { subvolume with status := RR_SUBVOLUME_OFFLINE }
  | some (freeDisk, totalDiskSize) =>
    if totalDiskSize = 0 then
      none
    else if minFreeDisk < (freeDisk * 100 / totalDiskSize).toUInt8.toUInt32 then
      some { subvolume with freeDiskStatus := RR_MIN_FREE_DISK_NOT_REACHED }
    else
      some { subvolume with freeDiskStatus := RR_MIN_FREE_DISK_REACHED }

def roundRobin (index count : Nat) : Nat :=
  (index + 1) % 2 ^ 64 % count

/-- One of the loops: the first place from `i` on and before `stop` with the property. -/
def scan (p : RrSubvolume ξ → Bool) (l : List (RrSubvolume ξ)) (i stop : Nat) : Option Nat :=
  (range' i (stop - i)).find? (fun k => l[k]?.any p)

def RrSubvolume.isOnline (s : RrSubvolume ξ) : Bool :=
  s.status == RR_SUBVOLUME_ONLINE

/-- The condition of the first two loops, as it is written. -/
def RrSubvolume.isOnlineAndFree (s : RrSubvolume ξ) : Bool :=
  s.status == RR_SUBVOLUME_ONLINE && s.status == RR_MIN_FREE_DISK_NOT_REACHED

def rrSchedule (rr : Rr ξ) : Option ξ × Rr ξ :=
  let l := rr.subvolumeList
  let next := roundRobin rr.scheduleIndex l.length
  let round := fun p => (scan p l next l.length).or (scan p l 0 next)
  match (round RrSubvolume.isOnlineAndFree).or (round RrSubvolume.isOnline) with
  | some i => (l[i]?.map RrSubvolume.xl, { rr with scheduleIndex := i })
  | none => (none, rr)

/-- The places that a number of calls choose. -/
def choices : Nat → Rr ξ → List Nat
  | 0, _ => []
  | n + 1, rr =>
    match rrSchedule rr with
    | (some _, rr') => rr'.scheduleIndex :: choices n rr'
    | (none, rr') => choices n rr'

def RrSubvolume.HasFreeDisk (s : RrSubvolume ξ) : Prop :=
  s.freeDiskStatus = RR_MIN_FREE_DISK_NOT_REACHED
deriving Decidable

/-- Online with free disk, or online where none of those has free disk. -/
def Eligible (l : List (RrSubvolume ξ)) (i : Nat) : Prop :=
  ∃ s ∈ l[i]?, s.isOnline ∧ (s.HasFreeDisk ∨ ∀ s' ∈ l, s'.isOnline → ¬ s'.HasFreeDisk)

/-- The steps forward from one of `n` places in a circle to another. -/
def stepsTo (n i j : Nat) : Nat :=
  if i ≤ j then j - i else j + n - i

/-- The search from `next` on meets no place with the property before `i`. -/
def FirstFrom (p : Nat → Prop) (n next i : Nat) : Prop :=
  p i ∧ ∀ j, p j → stepsTo n next i ≤ stepsTo n next j

/-- Each choice is the first eligible place behind the choice before. -/
def Rotates (l : List (RrSubvolume ξ)) : Nat → List Nat → Prop
  | _, [] => True
  | next, i :: rest =>
    FirstFrom (Eligible l) l.length next i ∧ Rotates l ((i + 1) % l.length) rest

structure Schedules (l : List (RrSubvolume ξ)) : Prop where
  null : ∀ index, (rrSchedule ⟨l, index⟩).1 = none → ∀ s ∈ l, ¬ s.isOnline
  free : ∀ index, (∃ s ∈ l, s.isOnline ∧ s.HasFreeDisk) →
    ∃ s ∈ l, (rrSchedule ⟨l, index⟩).1 = some s.xl ∧ s.isOnline ∧ s.HasFreeDisk
  rotates : ∀ index n, Rotates l (roundRobin index l.length) (choices n ⟨l, index⟩)

def OnlineAt (l : List (RrSubvolume ξ)) (i : Nat) : Prop :=
  ∃ s ∈ l[i]?, s.isOnline

theorem scan_onlineAndFree (l : List (RrSubvolume ξ)) (i stop : Nat) :
    scan RrSubvolume.isOnlineAndFree l i stop = none := by
  have hnever : ∀ s : RrSubvolume ξ, s.isOnlineAndFree = false := by
    intro s
    grind [RrSubvolume.isOnlineAndFree, RR_SUBVOLUME_ONLINE, RR_MIN_FREE_DISK_NOT_REACHED]
  grind [scan]

theorem scan_online_eq_some {k : Nat} (h : scan RrSubvolume.isOnline l i stop = some k) :
    i ≤ k ∧ k < stop ∧ OnlineAt l k ∧ ∀ j, i ≤ j → OnlineAt l j → k ≤ j := by
  simp only [scan, find?_range'_eq_some, mem_range'_1] at h
  grind [OnlineAt]

theorem scan_online_eq_none (h : scan RrSubvolume.isOnline l i stop = none) (j : Nat) (hij : i ≤ j)
    (hj : j < stop) : ¬ OnlineAt l j := by
  simp only [scan, find?_range'_eq_none] at h
  grind [OnlineAt]

/-- The outcome of a call: the first subvolume that is online, if there is one. -/
theorem rrSchedule_cases (hl : l ≠ []) (index : Nat) :
    (∃ i, FirstFrom (OnlineAt l) l.length (roundRobin index l.length) i ∧
      rrSchedule ⟨l, index⟩ = (l[i]?.map RrSubvolume.xl, ⟨l, i⟩)) ∨
    (∀ i, ¬ OnlineAt l i) ∧ rrSchedule ⟨l, index⟩ = (none, ⟨l, index⟩) := by
  have hnext : roundRobin index l.length < l.length := Nat.mod_lt _ (length_pos_iff.mpr hl)
  have hlt : ∀ j, OnlineAt l j → j < l.length := by
    rintro j ⟨s, hs, _⟩
    exact (List.getElem?_eq_some_iff.mp hs).1
  simp only [rrSchedule, scan_onlineAndFree, Option.none_or]
  generalize roundRobin index l.length = next at *
  cases hbehind : scan RrSubvolume.isOnline l next l.length with
  | some i =>
    obtain ⟨h₁, h₂, hon, hmin⟩ := scan_online_eq_some hbehind
    refine .inl ⟨i, ⟨hon, ?_⟩, rfl⟩
    intro j hj
    grind [stepsTo]
  | none =>
    have hnone := scan_online_eq_none hbehind
    cases hbefore : scan RrSubvolume.isOnline l 0 next with
    | some i =>
      obtain ⟨_, h₂, hon, hmin⟩ := scan_online_eq_some hbefore
      refine .inl ⟨i, ⟨hon, ?_⟩, rfl⟩
      intro j hj
      grind [stepsTo]
    | none =>
      refine .inr ⟨?_, rfl⟩
      intro j hj
      have := hnone j
      have := scan_online_eq_none hbefore j (Nat.zero_le j)
      have := hlt j hj
      grind

/-- The subvolumes that are online agree about free disk. -/
def Uniform (l : List (RrSubvolume ξ)) : Prop :=
  (∀ s ∈ l, s.isOnline → s.HasFreeDisk) ∨ ∀ s ∈ l, s.isOnline → ¬ s.HasFreeDisk
deriving Decidable

theorem Uniform.eligible_iff (hl : Uniform l) (i : Nat) : Eligible l i ↔ OnlineAt l i := by
  constructor
  · rintro ⟨s, hs, hon, _⟩
    exact ⟨s, hs, hon⟩
  · rintro ⟨s, hs, hon⟩
    refine ⟨s, hs, hon, ?_⟩
    exact hl.imp_left (fun h => h s (mem_of_getElem? hs) hon)

theorem roundRobin_of_lt {n : Nat} (hi : i < n) (hn : n < 2 ^ 31) :
    roundRobin i n = (i + 1) % n := by
  rw [roundRobin, Nat.mod_eq_of_lt (a := i + 1)]
  omega

theorem Uniform.rotates (hl : Uniform l) (hne : l ≠ []) (hlen : l.length < 2 ^ 31)
    (n index : Nat) : Rotates l (roundRobin index l.length) (choices n ⟨l, index⟩) := by
  induction n generalizing index with
  | zero => trivial
  | succ n ih =>
    obtain ⟨i, hfirst, heq⟩ | ⟨hnone, heq⟩ := rrSchedule_cases hne index
    · obtain ⟨⟨s, hs, _⟩, _⟩ := id hfirst
      have hi := roundRobin_of_lt (List.getElem?_eq_some_iff.mp hs).1 hlen
      rw [choices, heq, hs]
      refine ⟨by simpa [FirstFrom, hl.eligible_iff] using hfirst, ?_⟩
      exact hi ▸ ih i
    · rw [choices, heq]
      exact ih index

theorem Uniform.schedules (hl : Uniform l) (hne : l ≠ []) (hlen : l.length < 2 ^ 31) :
    Schedules l := by
  refine ⟨?_, ?_, fun index n => hl.rotates hne hlen n index⟩
  · intro index hnull s hs hon
    obtain ⟨i, ⟨⟨t, ht, _⟩, _⟩, heq⟩ | ⟨hnone, _⟩ := rrSchedule_cases hne index
    · simp_all
    · obtain ⟨i, hi⟩ := mem_iff_getElem?.mp hs
      exact hnone i ⟨s, hi, hon⟩
  · rintro index ⟨s, hs, hon, hfree⟩
    obtain ⟨i, ⟨⟨t, ht, hton⟩, _⟩, heq⟩ | ⟨hnone, _⟩ := rrSchedule_cases hne index
    · refine ⟨t, mem_of_getElem? ht, by simp_all, hton, ?_⟩
      obtain hall | hnone := hl
      · exact hall t (mem_of_getElem? ht) hton
      · exact absurd hfree (hnone s hs hon)
    · obtain ⟨i, hi⟩ := mem_iff_getElem?.mp hs
      exact absurd ⟨s, hi, hon⟩ (hnone i)

/-- From the index before a full subvolume the search stops at it. -/
theorem Schedules.uniform (h : Schedules l) (hlen : l.length < 2 ^ 31) : Uniform l := by
  by_contra hnot
  obtain ⟨⟨free, hfree, hon', hdisk⟩, full, hfull, hon, hno⟩ :
      (∃ s ∈ l, s.isOnline ∧ s.HasFreeDisk) ∧ ∃ s ∈ l, s.isOnline ∧ ¬ s.HasFreeDisk := by
    simpa [Uniform, not_or, and_comm] using hnot
  obtain ⟨j, hj⟩ := mem_iff_getElem?.mp hfull
  have hlt := (List.getElem?_eq_some_iff.mp hj).1
  have hnext : roundRobin (j + l.length - 1) l.length = j := by
    rw [roundRobin, Nat.sub_add_cancel (by omega), Nat.mod_eq_of_lt (b := 2 ^ 64) (by omega),
      Nat.add_mod_right, Nat.mod_eq_of_lt hlt]
  have hrot := h.rotates (j + l.length - 1) 1
  obtain ⟨i, ⟨⟨s, hs, _⟩, hmin⟩, heq⟩ | ⟨hnone, _⟩ :=
    rrSchedule_cases (ne_nil_of_mem hfull) (j + l.length - 1)
  · rw [hnext] at hmin hrot
    have hij : i = j := by
      have := hmin j ⟨full, hj, hon⟩
      have := (List.getElem?_eq_some_iff.mp hs).1
      grind [stepsTo]
    rw [choices, heq, hs] at hrot
    obtain ⟨t, ht, _, helig⟩ := hrot.1.1
    obtain rfl : full = t := Option.some_inj.mp (hj.symm.trans (hij ▸ ht))
    exact helig.elim hno (fun hnone => hnone free hfree hon' hdisk)
  · exact hnone j ⟨full, hj, hon⟩

/-- The choices are right exactly in uniform lists. -/
theorem schedules_iff (hne : l ≠ []) (hlen : l.length < 2 ^ 31) : Schedules l ↔ Uniform l :=
  ⟨fun h => h.uniform hlen, fun h => h.schedules hne hlen⟩

/-- A subvolume that has 5 of 100 blocks left where 10 percent are wanted. -/
def fullSubvolume (child : ξ) : RrSubvolume ξ :=
  { newSubvolume child with freeDiskStatus := RR_MIN_FREE_DISK_REACHED }

theorem schedules_fullOffline :
    Schedules [newSubvolume 1, { fullSubvolume 2 with status := RR_SUBVOLUME_OFFLINE },
      newSubvolume 3] :=
  (schedules_iff (by simp) (by simp)).mpr (by decide)

theorem not_schedules_firstFull :
    rrUpdateCbk 10 (some (5, 100)) (newSubvolume 1) = some (fullSubvolume 1) ∧
      ¬ Schedules [fullSubvolume 1, newSubvolume 2] := by
  refine ⟨rfl, ?_⟩
  intro h
  obtain ⟨s, hs, hchoice, _, hfree⟩ := h.free (2 ^ 64 - 1) (by decide)
  revert hchoice hfree
  simp only [mem_cons, not_mem_nil, or_false] at hs
  rcases hs with rfl | rfl <;> decide

variable [DecidableEq ξ]

/-- The value is a list of names; `volumeCount` says that the pointer to the count is not NULL. -/
def rrOptionsReadOnlySubvolumesValidate (value : List ξ) (volumeCount : Bool) : Option (List ξ) :=
  if volumeCount then
    none
  else
    some value

/-- The read-only subvolumes of the options; `none` is a failure. -/
def rrOptionsValidate : Option (List ξ) → Option (List ξ)
  | none => some []
  | some value => rrOptionsReadOnlySubvolumesValidate value true

/--
The loop over the children that fills the `count` places.  `none` stands for an access
outside of a list, and for a place that is left without a subvolume.
-/
def fill (readOnly : List ξ) (count : Nat) :
    List ξ → List (RrSubvolume ξ) → Option (List (RrSubvolume ξ))
  | [], filled => if filled.length = count then some filled else none
  | child :: children, filled =>
    -- the index of the inner loop is `j`, but every round of it reads entry `i`
    if readOnly ≠ [] ∧ readOnly.length ≤ filled.length then
      none
    else if readOnly[filled.length]? = some child then
      fill readOnly count children filled
    else if filled.length < count then
      fill readOnly count children (filled ++ [newSubvolume child])
    else
      none

/-- `rr_init` behind the check of the options. -/
def rrInitSubvolumes (children readOnly : List ξ) : Option (Rr ξ) :=
  let count := children.length - readOnly.length
  if ∃ name ∈ readOnly, name ∉ children then
    none
  else if count = 0 then
    none
  else
    (fill readOnly count children []).map (fun filled => ⟨filled, 2 ^ 64 - 1⟩)

def rrInit (children : List ξ) (option : Option (List ξ)) : Option (Rr ξ) :=
  if children = [] then
    none
  else
    (rrOptionsValidate option).bind (rrInitSubvolumes children)

/-- The subvolumes entered are the children that are not read-only, in order. -/
def LeavesOut (children readOnly : List ξ) (rr : Option (Rr ξ)) : Prop :=
  rr.map (fun rr => rr.subvolumeList.map RrSubvolume.xl) =
    some (children.filter (· ∉ readOnly))

/--
With `i` writable children before: each read-only child is the entry of the list that the number
of the writable ones before it selects, and if the list is not empty there is such an entry for
every child.
-/
def Aligned (readOnly : List ξ) : Nat → List ξ → Prop
  | _, [] => True
  | i, child :: children =>
    (readOnly ≠ [] → i < readOnly.length) ∧
      if child ∈ readOnly then
        readOnly[i]? = some child ∧ Aligned readOnly i children
      else
        Aligned readOnly (i + 1) children

variable {children readOnly entered : List ξ} {count : Nat} {filled : List (RrSubvolume ξ)}

theorem mem_of_fill {s : RrSubvolume ξ} (hs : s ∈ filled)
    (h : (fill readOnly count children filled).map (map RrSubvolume.xl) = some entered) :
    s.xl ∈ entered := by
  fun_induction fill readOnly count children filled <;> grind

/-- A read-only child that is entered stays in the list. -/
theorem fill_iff (hfilled : ∀ s ∈ filled, s.xl ∉ readOnly) :
    (fill readOnly count children filled).map (map RrSubvolume.xl) =
      some (filled.map RrSubvolume.xl ++ children.filter (· ∉ readOnly)) ↔
      Aligned readOnly filled.length children ∧
        count = filled.length + (children.filter (· ∉ readOnly)).length := by
  fun_induction fill readOnly count children filled with
  | case1 => simp_all [Aligned]
  | case2 => simp_all [Aligned, eq_comm]
  | case3 child children filled hout => simp [Aligned, hout.1, Nat.not_lt.mpr hout.2]
  | case4 child children filled hin hskip ih =>
    have := mem_of_getElem? hskip
    have := (List.getElem?_eq_some_iff.mp hskip).1
    simp_all [Aligned]
  | case5 child children filled hin hskip hlt ih =>
    by_cases hchild : child ∈ readOnly
    · refine iff_of_false ?_ (by simp [Aligned, hchild, hskip])
      intro h
      have := mem_of_fill (mem_append_right _ (mem_singleton_self _)) h
      grind [newSubvolume]
    · have hstep := ih (by grind [newSubvolume])
      have hlen : readOnly ≠ [] → filled.length < readOnly.length := by grind
      rw [Aligned, if_neg hchild, and_iff_right hlen]
      simpa [hchild, newSubvolume, Nat.add_assoc, Nat.add_comm 1] using hstep
  | case6 child children filled hin hskip hfull =>
    refine iff_of_false nofun ?_
    grind [Aligned]

/-- The filter is right exactly in aligned lists. -/
theorem rrInit_leavesOut_iff (hsub : readOnly ⊆ children)
    (hlt : readOnly.length < children.length) :
    rrInit children none = rrInitSubvolumes children [] ∧ rrInit children (some readOnly) = none ∧
      (LeavesOut children readOnly (rrInitSubvolumes children readOnly) ↔
        Aligned readOnly 0 children ∧
          (children.filter (· ∈ readOnly)).length = readOnly.length) := by
  have hne : children ≠ [] := ne_nil_of_length_pos (Nat.zero_lt_of_lt hlt)
  have hlen := length_eq_length_filter_add (l := children) (fun child => child ∈ readOnly)
  refine ⟨by simp [rrInit, rrOptionsValidate, hne],
    by simp [rrInit, rrOptionsValidate, rrOptionsReadOnlySubvolumesValidate], ?_⟩
  rw [LeavesOut, rrInitSubvolumes, if_neg (by grind), if_neg (by omega), Option.map_map]
  refine (fill_iff (by simp)).trans (and_congr_right' ?_)
  grind

theorem rrInit_leavesOut_three :
    LeavesOut [1, 2, 3] [1, 3] (rrInitSubvolumes [1, 2, 3] [1, 3]) :=
  (rrInit_leavesOut_iff (by decide) (by decide)).2.2.mpr (by simp [Aligned])

theorem not_leavesOut_second :
    rrInit [1, 2] (some [2]) = none ∧ ¬ LeavesOut [1, 2] [2] (rrInitSubvolumes [1, 2] [2]) := by
  simp [rrInit, rrOptionsValidate, rrOptionsReadOnlySubvolumesValidate, LeavesOut,
    rrInitSubvolumes, fill]

end GlusterFS.Scheduler
