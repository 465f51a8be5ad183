import GlusterFS.Lib.Iovec
import GlusterFS.Lib.Run
import Mathlib.Order.Lattice.Nat

/-!
# The table of descriptors

A descriptor is an index into an array of open files.  A new file gets the first index that is
free, and when there is none the array grows: a larger one is allocated, with a power of two of
chunks of 1024 bytes, and the old one is copied into it.

The number of bytes to copy is kept in 32 bits.  A table of 2^29 descriptors has 2^32 bytes, and
of these nothing is copied.  `Allocator` is what the table is for, and as long as no full table
of that size has to grow (`CanGrow`) the table does what it does (`allocates_of_canGrow`).

A descriptor that is asked for by its number gets a table that is not smaller, where it has to be
larger.  So the call writes behind the table for the numbers that a table has as its size, and
only for these (`storesInside_iff`).
-/

namespace GlusterFS.Fd

open Iovec Run List Function Option Nat

/-- The files have numbers, and a free place has none. -/
structure FdTable where
  maxFds : Nat
  fds : List (Option Nat)
deriving DecidableEq

/-- The loop of `gf_roundup_power_of_two`; 32 rounds are enough for 32 bits. -/
def roundupLoop : Nat → Nat → Nat → Bool → Nat × Bool
  | 0, _, cnt, remainder => (cnt, remainder)
  | fuel + 1, tmp, cnt, remainder =>
    if tmp = 1 then
      (cnt, remainder)
    else
      roundupLoop fuel (tmp / 2) (cnt + 1) (remainder || tmp % 2 == 1)

def gfRoundupPowerOfTwo (nr : Nat) : Nat :=
  if nr ≤ 1 then
    1
  else
    let r := roundupLoop 32 nr 0 false
    if r.2 then 2 ^ (r.1 + 1) % 2 ^ 32 else nr

/-- The number of places of a table that is to have more than a given number. -/
def expandedSize (nr : Nat) : Nat :=
  gfRoundupPowerOfTwo ((nr / (1024 / 8) + 1) % 2 ^ 32) * (1024 / 8) % 2 ^ 32

/-- `gf_fd_fdtable_expand`; a copy of more than there is room for is not defined. -/
def gfFdFdtableExpand (t : FdTable) (nr : Nat) : Option FdTable :=
  let size := expandedSize nr
  let cpy := t.maxFds * 8 % 2 ^ 32
  if cpy ≤ size * 8 then
    some
      { maxFds := size,
        fds := t.fds.take (cpy / 8) ++ replicate (size - cpy / 8) none }
  else
    none

def setFd (t : FdTable) (i : Nat) (fd : Option Nat) : Option FdTable :=
  if i < t.fds.length then some { t with fds := t.fds.set i fd } else none

def gfFdUnusedGet (t : FdTable) (fdptr : Nat) : Option (FdTable × Int) :=
  match t.fds.findIdx? Option.isNone with
  | some i => (setFd t i (some fdptr)).map (fun t => (t, int32 i))
  | none =>
    -- The index of the loop is a signed number.
    if t.maxFds < 2 ^ 31 then
      ((gfFdFdtableExpand t ((t.maxFds + 1) % 2 ^ 32)).bind
        (fun t' => setFd t' t.maxFds (some fdptr))).map (fun t' => (t', int32 t.maxFds))
    else
      none

def gfFdPut (t : FdTable) (fd : Int) : FdTable :=
  if fd < 0 then
    t
  else if ¬ fd < t.maxFds then
    t
  else
    { t with fds := t.fds.set fd.toNat none }

def gfFdFdptrGet (t : FdTable) (fd : Int) : Option Nat :=
  if fd < 0 then
    none
  else if ¬ fd < t.maxFds then
    none
  else
    t.fds[fd.toNat]?.join

def gfFdFdtableAlloc : Option FdTable :=
  gfFdFdtableExpand { maxFds := 0, fds := [] } 0

/-- A table with what its calls have returned so far. -/
structure State where
  table : FdTable
  unused : List Int
  fdptrs : List (Option Nat)

inductive Event where
  | unusedGet (fdptr : Nat)
  | put (fd : Int)
  | fdptrGet (fd : Int)

def step : State → Event → Option State
  | s, .unusedGet fdptr =>
    (gfFdUnusedGet s.table fdptr).map (fun r =>
      { s with table := r.1, unused := s.unused ++ [r.2] })
  | s, .put fd => some { s with table := gfFdPut s.table fd }
  | s, .fdptrGet fd => some { s with fdptrs := s.fdptrs ++ [gfFdFdptrGet s.table fd] }

def start (t : FdTable) : State :=
  { table := t, unused := [], fdptrs := [] }

/-- What the table is for: files under numbers, with what was returned so far. -/
structure Allocator where
  stored : Int → Option Nat
  unused : List Int
  fdptrs : List (Option Nat)

noncomputable def lowestUnused (stored : Int → Option Nat) : Nat := sInf {n : Nat | stored n = none}

noncomputable def Allocator.step (a : Allocator) : Event → Allocator
  | .unusedGet fdptr =>
    { a with
      stored := update a.stored (lowestUnused a.stored) (some fdptr),
      unused := a.unused ++ [(lowestUnused a.stored : Int)] }
  | .put fd => { a with stored := update a.stored fd none }
  | .fdptrGet fd => { a with fdptrs := a.fdptrs ++ [a.stored fd] }

noncomputable def allocator (events : List Event) : Allocator :=
  events.foldl Allocator.step { stored := fun _ => none, unused := [], fdptrs := [] }

/-- The table has returned what it should, and it has the files that it should have. -/
structure Allocates (s : State) (a : Allocator) : Prop where
  unused : s.unused = a.unused
  fdptrs : s.fdptrs = a.fdptrs
  stored : ∀ fd, gfFdFdptrGet s.table fd = a.stored fd

/-- The condition on a step: a table that is full has fewer than 2^29 descriptors. -/
def CanGrow (s : State) : Event → Prop
  | .unusedGet _ => none ∈ s.table.fds ∨ s.table.maxFds < 2 ^ 29
  | _ => True

instance (s : State) : ∀ e, Decidable (CanGrow s e) := by
  rintro (_ | _) <;> dsimp only [CanGrow] <;> infer_instance

/-- The loop counts the binary digits, and notes whether a digit but the first is not zero. -/
theorem roundupLoop_spec (fuel tmp cnt : Nat) (remainder : Bool) (hpos : 0 < tmp)
    (hfuel : tmp < 2 ^ (fuel + 1)) :
    ∃ digits, roundupLoop fuel tmp cnt remainder =
        (cnt + digits, remainder || decide (tmp ≠ 2 ^ digits)) ∧
      2 ^ digits ≤ tmp ∧ tmp < 2 ^ (digits + 1) := by
  induction fuel generalizing tmp cnt remainder with
  | zero =>
    obtain rfl : tmp = 1 := by omega
    exact ⟨0, by simp [roundupLoop], by decide, by decide⟩
  | succ fuel ih =>
    rw [roundupLoop]
    by_cases hone : tmp = 1
    · rw [if_pos hone, hone]
      exact ⟨0, by simp, by decide, by decide⟩
    · rw [if_neg hone]
      have hlt : tmp / 2 < 2 ^ (fuel + 1) := by
        omega
      obtain ⟨digits, hloop, hle, hgt⟩ := ih (tmp / 2) (cnt + 1)
        (remainder || tmp % 2 == 1) (by omega) hlt
      refine ⟨digits + 1, ?_, ?_, ?_⟩
      · rw [hloop, add_assoc, add_comm 1 digits, Bool.or_assoc]
        congr 2
        rw [Bool.eq_iff_iff, pow_succ]
        simp only [Bool.or_eq_true, beq_iff_eq, decide_eq_true_eq]
        omega
      · rw [pow_succ]
        omega
      · rw [pow_succ]
        omega

theorem gfRoundupPowerOfTwo_bounds {nr : Nat} (hpos : 0 < nr) (hlt : nr < 2 ^ 30) :
    nr ≤ gfRoundupPowerOfTwo nr ∧ gfRoundupPowerOfTwo nr < 2 * nr := by
  rw [gfRoundupPowerOfTwo]
  split_ifs with hone
  · omega
  · obtain ⟨digits, hloop, hle, hgt⟩ := roundupLoop_spec 32 nr 0 false hpos (by omega)
    rw [hloop]
    simp only [zero_add, Bool.false_or, decide_eq_true_eq]
    split_ifs with hpower <;> omega

theorem expandedSize_bounds {maxFds : Nat} (hlt : maxFds < 2 ^ 29) :
    maxFds < expandedSize (maxFds + 1) ∧ expandedSize (maxFds + 1) < 2 ^ 31 := by
  have hchs : ((maxFds + 1) / (1024 / 8) + 1) % 2 ^ 32 = (maxFds + 1) / 128 + 1 := by omega
  have hround : (maxFds + 1) / 128 + 1 < 2 ^ 30 := by omega
  have hpos : 0 < (maxFds + 1) / 128 + 1 := by omega
  obtain ⟨hle, hgt⟩ := gfRoundupPowerOfTwo_bounds hpos hround
  rw [expandedSize, hchs]
  omega

variable {t t' : FdTable} {stored : Int → Option Nat} {s : State} {a : Allocator}
  {i k j fdptr : Nat} {fd ret : Int}

/-- The places of a table are the files that are stored. -/
structure Represents (t : FdTable) (stored : Int → Option Nat) : Prop where
  length : t.fds.length = t.maxFds
  bound : t.maxFds < 2 ^ 31
  places : ∀ n : Nat, t.fds[n]?.join = stored n
  negative : ∀ fd, fd < 0 → stored fd = none

theorem Represents.gfFdFdptrGet_eq (h : Represents t stored) (fd : Int) :
    gfFdFdptrGet t fd = stored fd := by
  rw [gfFdFdptrGet]
  by_cases hneg : fd < 0
  · rw [if_pos hneg, h.negative fd hneg]
  · rw [if_neg hneg]
    have hnat : (fd.toNat : Int) = fd := Int.toNat_of_nonneg (Int.not_lt.mp hneg)
    by_cases hlt : fd < t.maxFds
    · rw [if_neg (not_not.mpr hlt), h.places, hnat]
    · rw [if_pos hlt, ← hnat, ← h.places, getElem?_eq_none]
      · rfl
      · rw [h.length]
        omega

theorem lowestUnused_eq {n : Nat} (hfree : stored n = none)
    (hused : ∀ m : Nat, m < n → stored m ≠ none) : lowestUnused stored = n := by
  have hmem : lowestUnused stored ∈ {m : Nat | stored m = none} := sInf_mem ⟨n, hfree⟩
  have hle : lowestUnused stored ≤ n := Nat.sInf_le hfree
  rcases lt_or_eq_of_le hle with hlt | heq
  · exact absurd hmem (hused _ hlt)
  · exact heq

theorem Represents.set (h : Represents t stored) (hi : i < t.fds.length) (fd : Option Nat) :
    Represents { t with fds := t.fds.set i fd } (update stored i fd) := by
  constructor
  · rw [length_set]
    exact h.length
  · exact h.bound
  · intro n
    rw [getElem?_set, update_apply]
    by_cases hn : i = n
    · rw [if_pos hn, if_pos hi, if_pos (by rw [hn])]
      rfl
    · rw [if_neg hn, if_neg (by omega : ¬ (n : Int) = i)]
      exact h.places n
  · intro fd' hneg
    rw [update_of_ne (by omega)]
    exact h.negative fd' hneg

theorem Represents.expand (h : Represents t stored) (hlt : t.maxFds < 2 ^ 29) :
    ∃ t', gfFdFdtableExpand t ((t.maxFds + 1) % 2 ^ 32) = some t' ∧ Represents t' stored ∧
      t.maxFds < t'.fds.length ∧ t'.maxFds = expandedSize (t.maxFds + 1) := by
  obtain ⟨hgrows, hsm⟩ := expandedSize_bounds hlt
  have hnr : (t.maxFds + 1) % 2 ^ 32 = t.maxFds + 1 := by omega
  have hcpy : t.maxFds * 8 % 2 ^ 32 = t.maxFds * 8 := by omega
  have htake : t.fds.take (t.maxFds * 8 / 8) = t.fds := by
    rw [Nat.mul_div_cancel _ (by decide), ← h.length, take_length]
  rw [gfFdFdtableExpand, hnr, hcpy, if_pos (mul_le_mul_right 8 (le_of_lt hgrows)), htake,
    Nat.mul_div_cancel _ (by decide)]
  have hlen : (t.fds ++ replicate (expandedSize (t.maxFds + 1) - t.maxFds) none).length =
      expandedSize (t.maxFds + 1) := by
    rw [length_append, length_replicate, h.length]
    omega
  refine ⟨_, rfl, ⟨hlen, hsm, ?_, h.negative⟩, ?_, rfl⟩
  · intro n
    rw [← h.places]
    by_cases hn : n < t.fds.length
    · rw [getElem?_append_left hn]
    · rw [getElem?_append_right (not_lt.mp hn), getElem?_replicate, getElem?_eq_none (not_lt.mp hn)]
      split_ifs <;> rfl
  · rw [hlen]
    exact hgrows

theorem setFd_eq (hi : i < t.fds.length) (fd : Option Nat) :
    setFd t i fd = some { t with fds := t.fds.set i fd } := if_pos hi

theorem Represents.gfFdUnusedGet (h : Represents t stored)
    (hgrow : none ∈ t.fds ∨ t.maxFds < 2 ^ 29) (fdptr : Nat) :
    ∃ t', gfFdUnusedGet t fdptr = some (t', (lowestUnused stored : Int)) ∧
      Represents t' (update stored (lowestUnused stored) (some fdptr)) ∧
      t'.maxFds = if none ∈ t.fds then t.maxFds else expandedSize (t.maxFds + 1) := by
  have hint : ∀ n : Nat, n < 2 ^ 31 → int32 n = n := by
    intro n hn
    exact int32_eq (by omega) (by omega)
  cases hfind : t.fds.findIdx? isNone with
  | some i =>
    obtain ⟨hi, hfree, hbef⟩ := findIdx?_eq_some_iff_getElem.mp hfind
    have hlow : lowestUnused stored = i := by
      apply lowestUnused_eq
      · rw [← h.places, getElem?_eq_getElem hi]
        exact isNone_iff_eq_none.mp hfree
      · intro m hm
        have hused := hbef m hm
        rw [← h.places, getElem?_eq_getElem (lt_trans hm hi)]
        intro hc
        rw [join_some] at hc
        rw [hc] at hused
        exact hused rfl
    have hbound : i < 2 ^ 31 := lt_trans (lt_of_lt_of_eq hi h.length) h.bound
    simp only [Fd.gfFdUnusedGet, hfind, setFd_eq hi, hint i hbound, hlow]
    have hmem : none ∈ t.fds := by
      rw [← isNone_iff_eq_none.mp hfree]
      exact getElem_mem hi
    exact ⟨_, rfl, h.set hi (some fdptr), (if_pos hmem).symm⟩
  | none =>
    have hused := findIdx?_eq_none_iff.mp hfind
    have hlt : t.maxFds < 2 ^ 29 := by
      rcases hgrow with hfree | hlt
      · cases hused none hfree
      · exact hlt
    have hlow : lowestUnused stored = t.maxFds := by
      apply lowestUnused_eq
      · rw [← h.places, getElem?_eq_none (le_of_eq h.length)]
        rfl
      · intro m hm
        rw [← h.places, getElem?_eq_getElem (lt_of_lt_of_eq hm h.length.symm)]
        intro hc
        rw [join_some] at hc
        have := hused _ (getElem_mem (lt_of_lt_of_eq hm h.length.symm))
        simp [hc] at this
    obtain ⟨t', hexpd, ht', hroom, hsize⟩ := h.expand hlt
    simp only [Fd.gfFdUnusedGet, hfind, if_pos h.bound, hexpd, bind_some,
      setFd_eq hroom, map_some, hint t.maxFds h.bound, hlow]
    refine ⟨_, rfl, ht'.set hroom (some fdptr), ?_⟩
    rw [if_neg (fun hfree => by cases hused none hfree)]
    exact hsize

theorem Represents.gfFdPut (h : Represents t stored) (fd : Int) :
    Represents (gfFdPut t fd) (update stored fd none) := by
  have hsame : stored fd = none → Represents t (update stored fd none) := by
    intro hnone
    have hupdate : update stored fd none = stored := by
      rw [← hnone, update_eq_self]
    rw [hupdate]
    exact h
  rw [Fd.gfFdPut]
  by_cases hneg : fd < 0
  · rw [if_pos hneg]
    exact hsame (h.negative fd hneg)
  · rw [if_neg hneg]
    by_cases hlt : fd < t.maxFds
    · rw [if_neg (not_not.mpr hlt)]
      have hset := h.set (i := fd.toNat) (by rw [h.length]; omega) none
      rw [Int.toNat_of_nonneg (Int.not_lt.mp hneg)] at hset
      exact hset
    · rw [if_pos hlt]
      apply hsame
      rw [← h.gfFdFdptrGet_eq, gfFdFdptrGet, if_neg hneg, if_pos hlt]

structure Tracks (s : State) (a : Allocator) : Prop where
  table : Represents s.table a.stored
  unused : s.unused = a.unused
  fdptrs : s.fdptrs = a.fdptrs

theorem Tracks.allocates (h : Tracks s a) : Allocates s a :=
  ⟨h.unused, h.fdptrs, h.table.gfFdFdptrGet_eq⟩

theorem Tracks.step (h : Tracks s a) {e : Event} (hgrow : CanGrow s e) :
    ∃ s', step s e = some s' ∧ Tracks s' (a.step e) := by
  cases e with
  | unusedGet fdptr =>
    obtain ⟨t', hget, ht', -⟩ := h.table.gfFdUnusedGet hgrow fdptr
    rw [Fd.step, hget]
    refine ⟨_, rfl, ht', ?_, h.fdptrs⟩
    show s.unused ++ _ = a.unused ++ _
    rw [h.unused]
  | put fd => exact ⟨_, rfl, h.table.gfFdPut fd, h.unused, h.fdptrs⟩
  | fdptrGet fd =>
    refine ⟨_, rfl, h.table, h.unused, ?_⟩
    show s.fdptrs ++ _ = a.fdptrs ++ _
    rw [h.fdptrs, h.table.gfFdFdptrGet_eq]

theorem gfFdFdtableAlloc_eq :
    gfFdFdtableAlloc = some { maxFds := 128, fds := replicate 128 none } := by
  decide

theorem represents_alloc (halloc : gfFdFdtableAlloc = some t) : Represents t (fun _ => none) := by
  cases halloc
  constructor
  · exact length_replicate
  · decide
  · intro n
    show (replicate 128 none)[n]?.join = none
    rw [getElem?_replicate]
    split_ifs <;> rfl
  · intro fd _
    rfl

/-- In every run on a new table that may grow when it is full, the table is the allocator. -/
theorem allocates_of_canGrow (t : FdTable) (events : List Event)
    (halloc : gfFdFdtableAlloc = some t)
    (hall : AllSteps step CanGrow (start t) events) :
    ∃ s, run step (start t) events = some s ∧ Allocates s (allocator events) := by
  have hstep : ∀ es s e, Tracks s (allocator es) → CanGrow s e →
      ∃ s', step s e = some s' ∧ Tracks s' (allocator (es ++ [e])) := by
    intro es s e h hgrow
    rw [allocator, foldl_append]
    exact h.step hgrow
  obtain ⟨s, hrun, hs⟩ := @exists_run_history _ _ step _ _ _
    (fun es s => Tracks s (allocator es)) ⟨represents_alloc halloc, rfl, rfl⟩ hstep hall
  exact ⟨s, hrun, hs.allocates⟩

def usedAgain : List Event :=
  [.unusedGet 7, .unusedGet 8, .unusedGet 9, .put 1, .fdptrGet 2, .unusedGet 10, .fdptrGet 1]

theorem allocates_usedAgain :
    ∃ t, gfFdFdtableAlloc = some t ∧ AllSteps step CanGrow (start t) usedAgain ∧
      ∃ s, run step (start t) usedAgain = some s ∧ Allocates s (allocator usedAgain) := by
  have hall : AllSteps step CanGrow
      (start { maxFds := 128, fds := replicate 128 none }) usedAgain := by decide +kernel
  exact ⟨_, gfFdFdtableAlloc_eq, hall, allocates_of_canGrow _ usedAgain gfFdFdtableAlloc_eq hall⟩

theorem allocator_replicate_succ (k : Nat) :
    allocator (replicate (k + 1) (.unusedGet 1)) =
      (allocator (replicate k (.unusedGet 1))).step (.unusedGet 1) := by
  rw [allocator, replicate_succ', foldl_append]
  rfl

theorem stored_allocator_replicate (k n : Nat) :
    (allocator (replicate k (.unusedGet 1))).stored n = if n < k then some 1 else none := by
  induction k generalizing n with
  | zero => rfl
  | succ k ih =>
    have hlow : lowestUnused (allocator (replicate k (.unusedGet 1))).stored = k := by
      apply lowestUnused_eq
      · rw [ih, if_neg (lt_irrefl k)]
      · intro m hm
        rw [ih, if_pos hm]
        exact some_ne_none 1
    rw [allocator_replicate_succ, Allocator.step, hlow]
    show update _ (k : Int) _ (n : Int) = _
    rw [update_apply, ih]
    by_cases hn : n = k
    · rw [if_pos (by rw [hn]), if_pos (by omega)]
    · rw [if_neg (by omega : ¬ (n : Int) = k)]
      by_cases hlt : n < k
      · rw [if_pos hlt, if_pos (by omega)]
      · rw [if_neg hlt, if_neg (by omega)]

theorem fdptrs_allocator_replicate (k : Nat) :
    (allocator (replicate k (.unusedGet 1))).fdptrs = [] := by
  induction k with
  | zero => rfl
  | succ k ih =>
    rw [allocator_replicate_succ]
    exact ih

theorem Represents.mem_of_lt
    (h : Represents t (allocator (replicate k (.unusedGet 1))).stored) :
    none ∈ t.fds ↔ k < t.maxFds := by
  have hplace := h.places
  simp only [stored_allocator_replicate] at hplace
  rw [mem_iff_getElem?]
  constructor
  · rintro ⟨n, hn⟩
    have hlt := (List.getElem?_eq_some_iff.mp hn).1
    have hused := hplace n
    rw [hn, join_some] at hused
    by_contra hk
    rw [h.length] at hlt
    rw [if_pos (by omega)] at hused
    cases hused
  · intro hk
    rw [← h.length] at hk
    refine ⟨k, ?_⟩
    have hfree := hplace k
    rw [if_neg (lt_irrefl k), getElem?_eq_getElem hk, join_some] at hfree
    rw [getElem?_eq_getElem hk, hfree]

/-- The table doubles whenever it is full. -/
theorem exists_run_get (hk : k ≤ 2 ^ 29) :
    ∃ s, run step (start { maxFds := 128, fds := replicate 128 none })
        (replicate k (.unusedGet 1)) = some s ∧
      Tracks s (allocator (replicate k (.unusedGet 1))) ∧
      ∃ j ≤ 22, s.table.maxFds = 128 * 2 ^ j ∧ k ≤ 128 * 2 ^ j := by
  induction k with
  | zero =>
    exact ⟨_, rfl, ⟨represents_alloc gfFdFdtableAlloc_eq, rfl, rfl⟩, 0, by decide, rfl, by decide⟩
  | succ k ih =>
    obtain ⟨s, hrun, hs, j, hj, hmax, hle⟩ := ih (by omega)
    have hfull : ¬ k < s.table.maxFds → j < 22 := by
      intro hfull
      by_contra hj'
      obtain rfl : j = 22 := by omega
      omega
    have hgrow : CanGrow s (.unusedGet 1) := by
      by_cases hfree : k < s.table.maxFds
      · exact .inl (hs.table.mem_of_lt.mpr hfree)
      · right
        rw [hmax]
        exact (Nat.mul_lt_mul_of_pos_left (Nat.pow_lt_pow_right (by decide) (hfull hfree))
          (by decide)).trans_le (by decide : 128 * 2 ^ 22 ≤ 2 ^ 29)
    obtain ⟨t', hget, -, hsize⟩ := hs.table.gfFdUnusedGet hgrow 1
    obtain ⟨s', hstep, hs'⟩ := hs.step hgrow
    have htable : s'.table = t' := by
      rw [step, hget] at hstep
      cases hstep
      rfl
    refine ⟨s', ?_, ?_, ?_⟩
    · have hlast : replicate (k + 1) (Event.unusedGet 1) =
          replicate k (.unusedGet 1) ++ [.unusedGet 1] := replicate_succ'
      rw [hlast, run_append, hrun, bind_some, run_cons, hstep]
      rfl
    · rw [allocator_replicate_succ]
      exact hs'
    · rw [htable, hsize]
      simp only [hs.table.mem_of_lt]
      by_cases hfree : k < s.table.maxFds
      · exact ⟨j, hj, by rw [if_pos hfree, hmax], by omega⟩
      · have hsizes : ∀ j < 22, expandedSize (128 * 2 ^ j + 1) = 128 * 2 ^ (j + 1) := by
          decide +kernel
        refine ⟨j + 1, hfull hfree, ?_, ?_⟩
        · rw [if_neg hfree, hmax, hsizes j (hfull hfree)]
        · rw [pow_succ]
          have := Nat.two_pow_pos j
          omega

def oneTooMany : List Event :=
  replicate (128 * 2 ^ 22) (.unusedGet 1) ++ [.unusedGet 1, .fdptrGet 0]

theorem gfFdUnusedGet_lost (hmax : t.maxFds = 2 ^ 29) (hfull : none ∉ t.fds) :
    ∃ t' fd, gfFdUnusedGet t 1 = some (t', fd) ∧ gfFdFdptrGet t' 0 = none := by
  have hfind : t.fds.findIdx? isNone = none := by
    rw [findIdx?_eq_none_iff]
    intro x hx
    cases x with
    | none => exact absurd hx hfull
    | some fd => rfl
  have hsize : expandedSize ((t.maxFds + 1) % 2 ^ 32) = 2 ^ 30 := by
    rw [hmax]
    decide +kernel
  have hcpy : t.maxFds * 8 % 2 ^ 32 = 0 := by omega
  obtain ⟨n, hn⟩ : ∃ n, n = 2 ^ 30 := ⟨_, rfl⟩
  have hexpd : gfFdFdtableExpand t ((t.maxFds + 1) % 2 ^ 32) =
      some { maxFds := n, fds := replicate n none } := by
    rw [gfFdFdtableExpand, hcpy, hsize, ← hn, if_pos (Nat.zero_le _), Nat.zero_div, take_zero,
      Nat.sub_zero]
    rfl
  have hroom : t.maxFds < (replicate n (none : Option Nat)).length := by
    rw [length_replicate]
    omega
  have hset := setFd_eq (t := { maxFds := n, fds := replicate n none }) hroom (some 1)
  simp only [gfFdUnusedGet, hfind, if_pos (by omega : t.maxFds < 2 ^ 31), hexpd, bind_some,
    hset, map_some]
  refine ⟨_, _, rfl, ?_⟩
  have hpos : (0 : Int) < n := by omega
  rw [gfFdFdptrGet, if_neg (Int.lt_irrefl 0), if_neg (not_not.mpr hpos)]
  rw [getElem?_set_ne (by omega), getElem?_replicate]
  split_ifs <;> rfl

/-- The first file is gone, though its descriptor was never put. -/
theorem not_allocates_oneTooMany :
    ∃ t s, gfFdFdtableAlloc = some t ∧ run step (start t) oneTooMany = some s ∧
      s.fdptrs = [none] ∧ (allocator oneTooMany).fdptrs = [some 1] ∧
      ¬ Allocates s (allocator oneTooMany) := by
  obtain ⟨m, hm⟩ : ∃ m, m = 128 * 2 ^ 22 := ⟨_, rfl⟩
  obtain ⟨s, hrun, hs, j, hj, hmax, hle⟩ := exists_run_get (k := m) (by omega)
  have hpow := Nat.mul_le_mul_left 128 (Nat.pow_le_pow_right (by decide : 0 < 2) hj)
  have hfull : s.table.maxFds = m := by omega
  obtain ⟨t, fd, hget, hlost⟩ := gfFdUnusedGet_lost (hfull.trans (by omega))
    (fun hfree => by have := hs.table.mem_of_lt.mp hfree; omega)
  have hnone : s.fdptrs = [] := hs.fdptrs.trans (fdptrs_allocator_replicate m)
  have hevs : oneTooMany = replicate m (.unusedGet 1) ++ [.unusedGet 1, .fdptrGet 0] := by
    rw [oneTooMany, hm]
  have hfdptrs : (allocator oneTooMany).fdptrs = [some 1] := by
    have hsteps : allocator oneTooMany =
        (allocator (replicate (m + 1) (.unusedGet 1))).step (.fdptrGet 0) := by
      rw [allocator_replicate_succ, hevs, allocator, foldl_append]
      rfl
    have hzero := stored_allocator_replicate (m + 1) 0
    rw [if_pos (Nat.succ_pos m)] at hzero
    rw [hsteps, Allocator.step, fdptrs_allocator_replicate]
    rw [nil_append, ← hzero]
    rfl
  refine ⟨_, { table := t, unused := s.unused ++ [fd], fdptrs := [none] }, gfFdFdtableAlloc_eq,
    ?_, rfl, hfdptrs, ?_⟩
  · rw [hevs, run_append, hrun, Option.bind_some, run_cons, step, hget]
    show some (State.mk t _ (s.fdptrs ++ [_])) = _
    rw [hlost, hnone]
    rfl
  · intro h
    have := h.fdptrs
    simp [hfdptrs] at this

/-- The loop of `gf_fd_unused_get2`, which is not defined after `fuel` rounds. -/
def expandWhile : Nat → FdTable → Int → Option FdTable
  | 0, _, _ => none
  | fuel + 1, t, fd =>
    if t.maxFds < fd then
      (gfFdFdtableExpand t ((t.maxFds + 1) % 2 ^ 32)).bind (fun t' => expandWhile fuel t' fd)
    else
      some t

/-- An access to a place outside of the table is not defined. -/
def gfFdUnusedGet2 (t : FdTable) (fdptr : Nat) (fd : Int) : Option (FdTable × Int) :=
  if fd < 0 then
    some (t, -1)
  else
    (expandWhile 32 t fd).bind (fun t' =>
      match t'.fds[fd.toNat]? with
      | none => none
      | some none => (setFd t' fd.toNat (some fdptr)).map (fun t' => (t', fd))
      | some (some _) => some (t', -1))

inductive Reachable : FdTable → Prop where
  | alloc {t : FdTable} : gfFdFdtableAlloc = some t → Reachable t
  | unusedGet {t t' : FdTable} {fdptr : Nat} {fd : Int} :
      Reachable t → gfFdUnusedGet t fdptr = some (t', fd) → Reachable t'
  | unusedGet2 {t t' : FdTable} {fdptr : Nat} {fd ret : Int} :
      fd < 2 ^ 31 → Reachable t → gfFdUnusedGet2 t fdptr fd = some (t', ret) → Reachable t'
  | put {t : FdTable} (fd : Int) : Reachable t → Reachable (gfFdPut t fd)

/-- The call stays inside of the table, and if it succeeds the file can be found. -/
def StoresInside (t : FdTable) (fdptr : Nat) (fd : Int) : Prop :=
  ∃ r ∈ gfFdUnusedGet2 t fdptr fd, r.2 = fd → gfFdFdptrGet r.1 fd = some fdptr
deriving Decidable

/-- The sizes that a table can have. -/
def Sized (t : FdTable) (j : Nat) : Prop :=
  j ≤ 24 ∧ t.maxFds = 128 * 2 ^ j ∧ t.fds.length = t.maxFds

section

variable (h : Sized t j)
include h

theorem Sized.lt_of_maxFds (hmax : t.maxFds < 2 ^ 31) : j < 24 := by
  refine h.1.lt_of_ne ?_
  rintro rfl
  exact absurd h.2.1 (by omega)

theorem Sized.expand (hj : j < 24) :
    ∃ t', gfFdFdtableExpand t ((t.maxFds + 1) % 2 ^ 32) = some t' ∧ Sized t' (j + 1) := by
  have hsizes : ∀ j < 24, expandedSize ((128 * 2 ^ j + 1) % 2 ^ 32) = 128 * 2 ^ (j + 1) := by
    decide +kernel
  obtain ⟨_, hmax, hlen⟩ := h
  have hsize : expandedSize ((t.maxFds + 1) % 2 ^ 32) = 2 * t.maxFds := by
    rw [hmax, hsizes j hj, pow_succ]
    omega
  rw [gfFdFdtableExpand, hsize, if_pos (by omega)]
  refine ⟨_, rfl, hj, by simp [hmax, pow_succ]; omega, ?_⟩
  simp only [length_append, length_take, length_replicate]
  omega

theorem Sized.setFd {fd : Option Nat} (hset : setFd t i fd = some t') : Sized t' j := by
  grind [Sized, Fd.setFd]

theorem Sized.expandWhile (hfd : fd < 2 ^ 31) (fuel : Nat) (hfuel : 24 < fuel + j) :
    ∃ t' k, expandWhile fuel t fd = some t' ∧ Sized t' k ∧ fd ≤ t'.maxFds ∧
      t.maxFds ≤ t'.maxFds ∧ (t' = t ∨ t'.maxFds < 2 * fd) := by
  induction fuel generalizing t j with
  | zero => exact absurd h.1 (by omega)
  | succ fuel ih =>
    rw [Fd.expandWhile]
    split_ifs with hless
    · obtain ⟨t', hexpd, ht'⟩ := h.expand (h.lt_of_maxFds (by omega))
      obtain ⟨t'', k, hloop, hk, hle, hmono, hlast⟩ := ih ht' (by omega)
      have hdbl := ht'.2.1
      have hmax := h.2.1
      rw [pow_succ] at hdbl
      refine ⟨t'', k, by rw [hexpd, bind_some, hloop], hk, hle, by omega, .inr ?_⟩
      rcases hlast with rfl | hlast <;> omega
    · exact ⟨t, j, rfl, h, by omega, le_rfl, .inl rfl⟩

theorem Sized.unusedGet (hget : gfFdUnusedGet t fdptr = some (t', fd)) : ∃ k, Sized t' k := by
  rw [gfFdUnusedGet] at hget
  split at hget
  · obtain ⟨t'', hset, heq⟩ := map_eq_some_iff.mp hget
    cases heq
    exact ⟨j, h.setFd hset⟩
  · split_ifs at hget with hlt
    obtain ⟨t'', hset, heq⟩ := map_eq_some_iff.mp hget
    cases heq
    obtain ⟨m, hexpd, hm⟩ := h.expand (h.lt_of_maxFds hlt)
    rw [hexpd, bind_some] at hset
    exact ⟨j + 1, hm.setFd hset⟩

theorem Sized.unusedGet2 (hfd : fd < 2 ^ 31) (hget : gfFdUnusedGet2 t fdptr fd = some (t', ret)) :
    ∃ k, Sized t' k := by
  obtain ⟨m, k, hloop, hm, _⟩ := h.expandWhile hfd 32 (by omega)
  rw [gfFdUnusedGet2] at hget
  split_ifs at hget
  · cases hget
    exact ⟨j, h⟩
  · rw [hloop, bind_some] at hget
    split at hget
    · cases hget
    · obtain ⟨_, hset, heq⟩ := map_eq_some_iff.mp hget
      cases heq
      exact ⟨k, hm.setFd hset⟩
    · cases hget
      exact ⟨k, hm⟩

end

theorem Reachable.sized (ht : Reachable t) : ∃ j, Sized t j := by
  induction ht with
  | alloc halloc =>
    rw [gfFdFdtableAlloc_eq] at halloc
    cases halloc
    exact ⟨0, by simp [Sized]⟩
  | unusedGet _ hget ih => exact ih.elim (fun _ h => h.unusedGet hget)
  | unusedGet2 hfd _ hget ih => exact ih.elim (fun _ h => h.unusedGet2 hfd hget)
  | put fd _ ih =>
    obtain ⟨j, hj⟩ := ih
    refine ⟨j, ?_⟩
    rw [gfFdPut]
    split_ifs <;> simpa [Sized] using hj

/-- The place is inside of the table iff the loop does not stop at the descriptor itself. -/
theorem storesInside_iff (ht : Reachable t) (hnonneg : 0 ≤ fd) (hfd : fd < 2 ^ 31) (fdptr : Nat) :
    StoresInside t fdptr fd ↔ fd < t.maxFds ∨ ∀ k, fd ≠ (128 * 2 ^ k : Nat) := by
  obtain ⟨j, hj⟩ := ht.sized
  obtain ⟨t', k, hloop, ⟨_, hmax, hlen⟩, hle, hmono, hlast⟩ := hj.expandWhile hfd 32 (by omega)
  have hplace : StoresInside t fdptr fd ↔ fd < t'.maxFds := by
    rw [StoresInside, gfFdUnusedGet2, if_neg (by omega), hloop, Option.bind_some]
    by_cases hlt : fd < t'.maxFds
    · have hi : fd.toNat < t'.fds.length := by omega
      rw [getElem?_eq_getElem hi]
      cases hslot : t'.fds[fd.toNat] with
      | none => simp [setFd, gfFdFdptrGet, hi, hlt, Int.not_lt.mpr hnonneg]
      | some _ =>
        refine iff_of_true ⟨_, rfl, ?_⟩ hlt
        intro hret
        exact absurd hret (by omega)
    · rw [getElem?_eq_none (by omega)]
      simp [hlt]
  rw [hplace]
  constructor
  · intro hlt
    rcases hlast with rfl | hlast
    · exact .inl hlt
    · right
      rintro m rfl
      -- a size between the descriptor and its double
      have hless : 2 ^ k < 2 ^ (m + 1) := by
        rw [pow_succ]
        omega
      have hmore : 2 ^ m < 2 ^ k := by omega
      rw [Nat.pow_lt_pow_iff_right Nat.one_lt_two] at hless hmore
      omega
  · rintro (hlt | hne)
    · omega
    · have := hne k
      omega

theorem storesInside_nextTo : ∃ t, Reachable t ∧ StoresInside t 7 127 ∧ StoresInside t 7 129 := by
  have hne : (129 : Int) < 128 ∨ ∀ k, (129 : Int) ≠ (128 * 2 ^ k : Nat) := by
    right
    intro k
    omega
  have ht := Reachable.alloc gfFdFdtableAlloc_eq
  exact ⟨_, ht, (storesInside_iff ht (by decide) (by decide) 7).mpr (.inl (by decide)),
    (storesInside_iff ht (by decide) (by decide) 7).mpr hne⟩

/-- A new table has 128 places, and descriptor 128 is written behind them. -/
theorem not_storesInside_tableSize : ∃ t, Reachable t ∧ ¬ StoresInside t 7 128 :=
  ⟨_, .alloc gfFdFdtableAlloc_eq, by decide +kernel⟩

end GlusterFS.Fd
