import GlusterFS.Afr.Basic

/-!
# AFR: reads that fall back to another child

A read of an inode is wound to one child.  When that fails, the callback winds it to the next
one: `access`, `readlink` and `getxattr` begin at the first child that is up and go on with the
children after it, `stat` begins at the child of `afr_deitransform` and `readv` at the read
child, if one is configured, and both then go through all the others from the first.

The callbacks find the child they tried last in `frame->local`, which `afr_access` does not set.
-/

namespace GlusterFS.Afr

open List

inductive InodeRead where
  | access
  | stat
  | readlink
  | getxattr
  | readv
deriving DecidableEq

/-- The children of a volume, and the read child that its specification may name. -/
structure ReadPrivate where
  childCount : Nat
  childUp : Nat → Bool
  readChild : Option Nat
  pos : 0 < childCount
  valid : ∀ r ∈ readChild, r < childCount

def allTried (lastTried : Int) (childCount : Nat) : Bool :=
  lastTried == (childCount : Int) - 1

variable (priv : ReadPrivate)

def afrFirstUpChild : Option Nat :=
  (range priv.childCount).find? priv.childUp

def afrDeitransform : Nat :=
  0

/-- A read that is under way: the child whose reply is awaited, and what was done so far. -/
structure ReadCall where
  lastTried : Option Int
  pending : Option Nat
  asked : List Nat
  unwound : List Reply
  fault : Bool
deriving DecidableEq

def ReadCall.wind (s : ReadCall) (child : Nat) : ReadCall :=
  { s with pending := some child, asked := s.asked ++ [child] }

def ReadCall.unwind (s : ReadCall) (reply : Reply) : ReadCall :=
  { s with pending := none, unwound := s.unwound ++ [reply] }

def ReadCall.new (lastTried : Option Int) : ReadCall :=
  ⟨lastTried, none, [], [], false⟩

/-- The next child to try; the one that was tried first is passed by (`goto retry`). -/
def nextTry (childCount : Nat) (skip : Option Nat) (lastTried : Int) : Option Int :=
  if allTried lastTried childCount then
    none
  else if skip.map Int.ofNat = some (lastTried + 1) then
    if allTried (lastTried + 1) childCount then none else some (lastTried + 2)
  else
    some (lastTried + 1)

/-- The callbacks of the reads differ in the child they pass by. -/
def readCbk (childCount : Nat) (skip : Option Nat) (s : ReadCall) (reply : Reply) : ReadCall :=
  match reply with
  | .ok => s.unwind .ok
  | .err opErrno =>
    match s.lastTried with
    | none => { s with pending := none, fault := true }
    | some lastTried =>
      match nextTry childCount skip lastTried with
      | none => s.unwind (.err opErrno)
      | some thisTry => { s with lastTried := some thisTry }.wind thisTry.toNat

def windFirstUp (frameLocal : Nat → Option Int) : ReadCall :=
  match afrFirstUpChild priv with
  | none => (ReadCall.new none).unwind (.err .ENOTCONN)
  | some callChild => (ReadCall.new (frameLocal callChild)).wind callChild

/-- The local is allocated, and `frame->local` stays empty. -/
def afrAccess : ReadCall :=
  windFirstUp priv (fun _ => none)

def afrReadlink : ReadCall :=
  windFirstUp priv (fun callChild => some callChild)

def afrGetxattr : ReadCall :=
  windFirstUp priv (fun callChild => some callChild)

def afrStat : ReadCall :=
  (ReadCall.new (some (-1))).wind afrDeitransform

def afrReadv : ReadCall :=
  match priv.readChild with
  | some readChild => (ReadCall.new (some (-1))).wind readChild
  | none => windFirstUp priv (fun callChild => some callChild)

def InodeRead.begin : InodeRead → ReadCall
  | .access => afrAccess priv
  | .stat => afrStat
  | .readlink => afrReadlink priv
  | .getxattr => afrGetxattr priv
  | .readv => afrReadv priv

def InodeRead.skip : InodeRead → Option Nat
  | .stat => some afrDeitransform
  | .readv => priv.readChild
  | _ => none

def serve (priv : ReadPrivate) (op : InodeRead) (replies : Nat → Reply) :
    Nat → ReadCall → ReadCall
  | 0, s => s
  | steps + 1, s =>
    match s.pending with
    | none => s
    | some child =>
      serve priv op replies steps (readCbk priv.childCount (op.skip priv) s (replies child))

/-- The read is answered once, by a child that succeeds if one of those in question does. -/
structure FallsBack (priv : ReadPrivate) (op : InodeRead) (replies : Nat → Reply)
    (s : ReadCall) : Prop where
  alive : s.fault = false
  asksOnce : s.asked.Nodup
  answered : s.pending = none ∧ s.unwound.length = 1
  succeeds : ∀ first ∈ s.asked.head?,
    (∃ i < priv.childCount, (first ≤ i ∨ (op.skip priv).isSome) ∧ replies i = .ok) →
    s.unwound = [.ok]

def later (childCount : Nat) (skip : Option Nat) (first : Nat) : List Nat :=
  (range' first (childCount - first)).filter (fun i => some i ≠ skip)

variable {childCount first : Nat} {skip : Option Nat}

theorem mem_later {i : Nat} :
    i ∈ later childCount skip first ↔ (first ≤ i ∧ i < childCount) ∧ some i ≠ skip := by
  unfold later
  rw [mem_filter, mem_range'_1, decide_eq_true_eq]
  refine and_congr_left (fun _ => ?_)
  omega

theorem later_nil (h : childCount ≤ first) : later childCount skip first = [] := by
  simp [later, Nat.sub_eq_zero_of_le h]

theorem later_cons (h : first < childCount) :
    later childCount skip first =
      if some first = skip then later childCount skip (first + 1)
      else first :: later childCount skip (first + 1) := by
  have hrng : childCount - first = childCount - (first + 1) + 1 := by omega
  unfold later
  rw [hrng, range'_succ, filter_cons]
  split_ifs <;> simp_all

theorem nextTry_cases (h : first ≤ childCount) :
    nextTry childCount skip ((first : Int) - 1) = none ∧ later childCount skip first = [] ∨
      ∃ child : Nat, nextTry childCount skip ((first : Int) - 1) = some (child : Int) ∧
        later childCount skip first = child :: later childCount skip (child + 1) ∧
        first ≤ child ∧ child < childCount := by
  have hskip : skip.map Int.ofNat = some (first : Int) ↔ some first = skip := by
    cases skip with
    | none => simp
    | some r => simp [eq_comm]
  unfold nextTry allTried
  simp only [sub_add_cancel, hskip, beq_iff_eq]
  split_ifs with hall hhere hnext
  · exact .inl ⟨rfl, later_nil (by omega)⟩
  · rw [later_cons (by omega), if_pos hhere]
    exact .inl ⟨rfl, later_nil (by omega)⟩
  · have hne : some (first + 1) ≠ skip := by
      rw [← hhere]
      simp
    rw [later_cons (by omega), if_pos hhere, later_cons (by omega), if_neg hne]
    exact .inr ⟨first + 1, by push_cast; congr 1; omega, rfl, by omega, by omega⟩
  · rw [later_cons (by omega), if_neg hhere]
    exact .inr ⟨first, rfl, rfl, le_refl _, by omega⟩

variable {priv} {op : InodeRead} {replies : Nat → Reply}

theorem serve_of_answered {s : ReadCall} (h : s.pending = none) (steps : Nat) :
    serve priv op replies steps s = s := by
  cases steps with
  | zero => rfl
  | succ steps => simp [serve, h]

theorem serve_succ {s : ReadCall} {child : Nat} (h : s.pending = some child) (steps : Nat) :
    serve priv op replies (steps + 1) s = serve priv op replies steps
        (readCbk priv.childCount (op.skip priv) s (replies child)) := by
  simp [serve, h]

/-- A read that has asked some children and is answered: the last of them decided. -/
structure Served (replies : Nat → Reply) (s s' : ReadCall) (tries : List Nat) : Prop where
  alive : s'.fault = s.fault
  answered : s'.pending = none
  asked : ∃ more, more <+: tries.tail ∧ s'.asked = s.asked ++ more
  unwound : ∃ reply, s'.unwound = s.unwound ++ [reply] ∧
    (reply = .ok ↔ ∃ i ∈ tries, replies i = .ok)

theorem served_ok {s : ReadCall} {child : Nat} {rest : List Nat}
    (hpend : s.pending = some child) (hrep : replies child = .ok) (steps : Nat) :
    Served replies s (serve priv op replies (steps + 1) s) (child :: rest) := by
  rw [serve_succ hpend, hrep, readCbk, serve_of_answered rfl]
  exact
    { alive := rfl
      answered := rfl
      asked := ⟨[], nil_prefix, (append_nil _).symm⟩
      unwound := ⟨.ok, rfl, by simp [hrep]⟩ }

theorem served_tries {s : ReadCall} {child first steps : Nat} (hpend : s.pending = some child)
    (hlocal : s.lastTried = some ((first : Int) - 1)) (hfst : first ≤ priv.childCount)
    (hsteps : (later priv.childCount (op.skip priv) first).length < steps) :
    Served replies s (serve priv op replies steps s)
      (child :: later priv.childCount (op.skip priv) first) := by
  obtain ⟨steps, rfl⟩ : ∃ k, steps = k + 1 := ⟨steps - 1, by omega⟩
  cases hrep : replies child with
  | ok => exact served_ok hpend hrep steps
  | err opErrno =>
    rw [serve_succ hpend, hrep, readCbk, hlocal]
    simp only
    rcases nextTry_cases hfst with ⟨hnone, hnil⟩ | ⟨next, hsome, hcons, hle, hlt⟩
    · rw [hnone, hnil, serve_of_answered rfl]
      exact
        { alive := rfl
          answered := rfl
          asked := ⟨[], nil_prefix, (append_nil _).symm⟩
          unwound := ⟨.err opErrno, rfl, by simp [hrep]⟩ }
    · rw [hsome, hcons]
      rw [hcons, length_cons] at hsteps
      have hnext : Served replies ({ s with lastTried := some (next : Int) }.wind next)
          (serve priv op replies steps _)
          (next :: later priv.childCount (op.skip priv) (next + 1)) :=
        served_tries rfl (by simp [ReadCall.wind]) hlt (by omega)
      obtain ⟨more, hmore, hask⟩ := hnext.asked
      obtain ⟨reply, hunw, hok⟩ := hnext.unwound
      exact
        { alive := hnext.alive
          answered := hnext.answered
          asked := ⟨next :: more, (prefix_cons_inj next).mpr hmore, hask.trans (append_assoc _ _ _)⟩
          unwound := ⟨reply, hunw, by rw [hok]; simp [hrep]⟩ }
termination_by priv.childCount - first

/-- The read begins at `child` and then tries the others from `first` on. -/
structure Begins (priv : ReadPrivate) (op : InodeRead) (child first : Nat) : Prop where
  begin : op.begin priv = (ReadCall.new (some ((first : Int) - 1))).wind child
  child_lt : child < priv.childCount
  apart : ∀ i, first ≤ i → some i ≠ op.skip priv → i ≠ child
  first_le : first ≤ priv.childCount
  reaches : ∀ i, (child ≤ i ∨ (op.skip priv).isSome) → i ≠ child → first ≤ i ∧ some i ≠ op.skip priv

theorem Begins.fallsBack {child : Nat} (h : Begins priv op child first) {steps : Nat}
    (hsteps : priv.childCount ≤ steps) :
    FallsBack priv op replies (serve priv op replies steps (op.begin priv)) := by
  have hnd : (child :: later priv.childCount (op.skip priv) first).Nodup := by
    refine nodup_cons.mpr ⟨?_, (nodup_range' 1).filter _⟩
    intro hmem
    obtain ⟨⟨hle, _⟩, hskip⟩ := mem_later.mp hmem
    exact h.apart child hle hskip rfl
  have hlen : (child :: later priv.childCount (op.skip priv) first).length ≤ priv.childCount := by
    have hsub : (child :: later priv.childCount (op.skip priv) first) ⊆
        range priv.childCount := by
      refine cons_subset.mpr ⟨mem_range.mpr h.child_lt, ?_⟩
      intro i hi
      exact mem_range.mpr (mem_later.mp hi).1.2
    simpa using (subperm_of_subset hnd hsub).length_le
  rw [h.begin]
  have hsrv : Served replies ((ReadCall.new (some ((first : Int) - 1))).wind child)
      (serve priv op replies steps _) _ :=
    served_tries rfl rfl h.first_le (by rw [length_cons] at hlen; omega)
  obtain ⟨more, hmore, hask⟩ := hsrv.asked
  obtain ⟨reply, hunw, hok⟩ := hsrv.unwound
  refine
    { alive := hsrv.alive
      asksOnce := ?_
      answered := ⟨hsrv.answered, by rw [hunw]; rfl⟩
      succeeds := ?_ }
  · rw [hask]
    exact hnd.sublist ((hmore.sublist).cons_cons child)
  · intro first' hhead hgood
    rw [hask] at hhead
    cases hhead
    obtain ⟨i, hi, hreach, hrep⟩ := hgood
    rw [hunw, hok.mpr]
    · rfl
    · by_cases hchild : i = child
      · exact ⟨i, by simp [hchild], hrep⟩
      · obtain ⟨hle, hskip⟩ := h.reaches i hreach hchild
        exact ⟨i, mem_cons_of_mem _ (mem_later.mpr ⟨⟨hle, hi⟩, hskip⟩), hrep⟩

theorem begins_or_unwound (h : op ≠ .access) :
    (∃ child first, Begins priv op child first) ∨
      op.begin priv = (ReadCall.new none).unwind (.err .ENOTCONN) := by
  have hup : op.skip priv = none →
      op.begin priv = windFirstUp priv (fun callChild => some callChild) →
      (∃ child first, Begins priv op child first) ∨
        op.begin priv = (ReadCall.new none).unwind (.err .ENOTCONN) := by
    intro hskip hbegin
    unfold windFirstUp at hbegin
    cases hfst : afrFirstUpChild priv with
    | none =>
      rw [hfst] at hbegin
      exact .inr hbegin
    | some child =>
      rw [hfst] at hbegin
      have hlt := mem_range.mp (mem_of_find?_eq_some hfst)
      exact .inl ⟨child, child + 1,
        { begin := by rw [hbegin]; simp
          child_lt := hlt
          apart := by omega
          first_le := hlt
          reaches := by simp [hskip]; omega }⟩
  have hpref : ∀ child < priv.childCount, op.skip priv = some child →
      op.begin priv = (ReadCall.new (some (-1))).wind child →
      ∃ child first, Begins priv op child first := by
    intro child hlt hskip hbegin
    exact ⟨child, 0,
      { begin := hbegin
        child_lt := hlt
        apart := by simp [hskip]
        first_le := Nat.zero_le _
        reaches := by simp [hskip] }⟩
  cases op with
  | access => exact absurd rfl h
  | stat => exact .inl (hpref afrDeitransform priv.pos rfl rfl)
  | readlink | getxattr => exact hup rfl rfl
  | readv =>
    cases hread : priv.readChild with
    | none => exact hup hread (by simp [InodeRead.begin, afrReadv, hread])
    | some child =>
      exact .inl (hpref child (priv.valid child (by simp [hread])) hread
        (by simp [InodeRead.begin, afrReadv, hread]))

theorem fallsBack_unwound {s : ReadCall} {opErrno : Errno}
    (h : s = (ReadCall.new none).unwind (.err opErrno)) (steps : Nat) :
    FallsBack priv op replies (serve priv op replies steps s) := by
  rw [h, serve_of_answered rfl]
  exact
    { alive := rfl
      asksOnce := nodup_nil
      answered := ⟨rfl, rfl⟩
      succeeds := by simp [ReadCall.unwind, ReadCall.new] }

/--
Every read falls back to the children that it has not asked, except that `access` stops at a
first child that fails.
-/
theorem fallsBack_iff (priv : ReadPrivate) (op : InodeRead) (replies : Nat → Reply)
    (steps : Nat) (hsteps : priv.childCount ≤ steps) :
    FallsBack priv op replies (serve priv op replies steps (op.begin priv)) ↔
      (op = .access → ∀ child ∈ afrFirstUpChild priv, replies child = .ok) := by
  by_cases hop : op = .access
  · subst hop
    rw [InodeRead.begin, afrAccess, windFirstUp]
    cases hfst : afrFirstUpChild priv with
    | none => simpa using fallsBack_unwound rfl steps
    | some child =>
      obtain ⟨steps, rfl⟩ : ∃ k, steps = k + 1 := ⟨steps - 1, by have := priv.pos; omega⟩
      cases hrep : replies child with
      | ok =>
        rw [serve_succ rfl, hrep, readCbk, serve_of_answered rfl]
        refine iff_of_true ?_ (by simpa using hrep)
        exact
          { alive := rfl
            asksOnce := nodup_singleton child
            answered := ⟨rfl, rfl⟩
            succeeds := fun _ _ _ => rfl }
      | err opErrno =>
        rw [serve_succ rfl, hrep, readCbk, serve_of_answered rfl]
        refine iff_of_false (fun h => ?_) (by simp [hrep])
        exact Bool.noConfusion h.alive
  · simp only [hop, false_imp_iff, iff_true]
    rcases begins_or_unwound hop with ⟨child, first, hbegins⟩ | hnone
    · exact hbegins.fallsBack hsteps
    · exact fallsBack_unwound hnone steps

def twoUp : ReadPrivate where
  childCount := 2
  childUp := fun _ => true
  readChild := none
  pos := Nat.two_pos
  valid := fun _ h => nomatch h

def secondOnly : Nat → Reply
  | 1 => .ok
  | _ => .err (.other 5)

theorem fallsBack_readv_secondOnly :
    FallsBack twoUp .readv secondOnly (serve twoUp .readv secondOnly 2 (afrReadv twoUp)) := by
  exact (fallsBack_iff twoUp .readv secondOnly 2 (le_refl 2)).mpr (by simp)

/-- The callback of `afr_access` reads the local that the frame does not have. -/
theorem not_fallsBack_access_secondOnly :
    serve twoUp .access secondOnly 2 (afrAccess twoUp) = ⟨none, none, [0], [], true⟩ ∧
      ¬ FallsBack twoUp .access secondOnly
        (serve twoUp .access secondOnly 2 (afrAccess twoUp)) := by
  refine ⟨by decide, fun h => ?_⟩
  exact absurd h.alive (by decide)

end GlusterFS.Afr
