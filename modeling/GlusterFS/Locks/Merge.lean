import GlusterFS.Locks.Common

/-!
# Posix-locks: what merging does to the list

The bytes that the locks span decide the termination of `__insert_and_merge`:
two overlapping locks span more than their sum, and the pieces of a sum span no
more than the sum.

What a call leaves in the list is what was there, or was made of locks of the
same owner.  `Confined` says of a made lock from which bytes it can come.
-/

namespace GlusterFS.Locks

open Run List PosixLock

def PosixLock.covers (l : PosixLock) (b : Int) : Prop :=
  l.flStart ≤ b ∧ b ≤ l.flEnd

def PosixLock.Ordered (l : PosixLock) : Prop :=
  l.flStart ≤ l.flEnd

def PosixLock.owner (l : PosixLock) : Int × Transport :=
  (l.clientPid, l.transport)

variable {l1 l2 of big small v lock conf : PosixLock} {b : Int} {ls ls' now : List PosixLock}
  {S : Set Int} {H : FlType → Int → Prop} {owner : Int × Transport}

@[simp] theorem sameOwner_iff : sameOwner l1 l2 = true ↔ l1.owner = l2.owner := by
  simp [sameOwner, owner]

theorem locksOverlap_iff :
    locksOverlap l1 l2 = true ↔ l2.flStart ≤ l1.flEnd ∧ l1.flStart ≤ l2.flEnd := by
  simp [locksOverlap]

theorem locksOverlap_comm (l1 l2 : PosixLock) : locksOverlap l1 l2 = locksOverlap l2 l1 := by
  rw [Bool.eq_iff_iff, locksOverlap_iff, locksOverlap_iff]
  exact and_comm

theorem locksOverlap_of_covers (h1 : l1.covers b) (h2 : l2.covers b) :
    locksOverlap l1 l2 = true := by
  unfold covers at h1 h2
  rw [locksOverlap_iff]
  omega

theorem exists_covers_of_locksOverlap (h1 : l1.Ordered) (h2 : l2.Ordered)
    (h : locksOverlap l1 l2 = true) : ∃ b, l1.covers b ∧ l2.covers b := by
  unfold Ordered at h1 h2
  rw [locksOverlap_iff] at h
  refine ⟨max l1.flStart l2.flStart, ?_, ?_⟩
  · unfold covers
    omega
  · unfold covers
    omega

theorem addLocks_covers (h : locksOverlap l2 l1 = true) (hb : (addLocks l1 l2 of).covers b) :
    l1.covers b ∨ l2.covers b := by
  rw [locksOverlap_iff] at h
  simp only [covers, addLocks] at *
  omega

theorem addLocks_ordered (h : l1.Ordered) : (addLocks l1 l2 of).Ordered := by
  simp only [Ordered, addLocks] at *
  omega

theorem addLocks_start_le (l1 l2 of : PosixLock) : (addLocks l1 l2 of).flStart ≤ l1.flStart := by
  exact Int.min_le_left _ _

theorem le_addLocks_end (l1 l2 of : PosixLock) : l1.flEnd ≤ (addLocks l1 l2 of).flEnd := by
  exact Int.le_max_left _ _

theorem addLocks_span_lt (of : PosixLock) (hordered : l1.Ordered) (h : locksOverlap l2 l1 = true) :
    (addLocks l1 l2 of).span < l1.span + l2.span := by
  rw [locksOverlap_iff] at h
  simp only [PosixLock.Ordered, PosixLock.span, addLocks] at *
  omega

/-- A piece of `big` around `small`, or `small` in its place. -/
structure PieceOf (big small v : PosixLock) : Prop where
  ordered : v.Ordered
  granted : big.blocked = false → small.blocked = false → v.blocked = false
  owner : big.owner = small.owner → v.owner = small.owner
  covers : v.flType = small.flType ∧ (∀ b, v.covers b → small.covers b) ∨
    v.flType = big.flType ∧ (∀ b, v.covers b → big.covers b ∧ ¬ small.covers b)

theorem pieceOf_bytes {start stop : Int} {type : FlType} (hle : start ≤ stop)
    (hcov : type = small.flType ∧ (∀ b, start ≤ b ∧ b ≤ stop → small.covers b) ∨
      type = big.flType ∧ ∀ b, start ≤ b ∧ b ≤ stop → big.covers b ∧ ¬ small.covers b) :
    PieceOf big small { big with flStart := start, flEnd := stop, flType := type } :=
  ⟨hle, fun hbig _ => hbig, fun hown => hown, hcov⟩

theorem pieceOf_of_mem_subtractLocks (hordered : small.Ordered) (hst : big.flStart ≤ small.flStart)
    (hend : small.flEnd ≤ big.flEnd) (hv : v ∈ subtractLocks big small) : PieceOf big small v := by
  have hself : PieceOf big small small :=
    ⟨hordered, fun _ hsm => hsm, fun _ => rfl, .inl ⟨rfl, fun _ hb => hb⟩⟩
  unfold Ordered at hordered
  have hleft (hlt : big.flStart < small.flStart) :
      PieceOf big small { big with flEnd := small.flStart - 1 } :=
    pieceOf_bytes (by omega) (.inr ⟨rfl, fun b hb => by unfold covers; omega⟩)
  have hright (hlt : small.flEnd < big.flEnd) :
      PieceOf big small { big with flStart := small.flEnd + 1 } :=
    pieceOf_bytes (by omega) (.inr ⟨rfl, fun b hb => by unfold covers; omega⟩)
  unfold subtractLocks at hv
  split_ifs at hv with hboth hin hfst hlast
  · rw [mem_singleton] at hv
    subst hv
    exact pieceOf_bytes (by omega) (.inl ⟨rfl, fun b hb => by unfold covers; omega⟩)
  · simp only [mem_cons, not_mem_nil, or_false] at hv
    rcases hv with rfl | rfl | rfl
    · exact hleft hin.1
    · exact hself
    · exact hright hin.2
  · simp only [mem_cons, not_mem_nil, or_false] at hv
    rcases hv with rfl | rfl
    · exact hright (by omega)
    · exact hself
  · simp only [mem_cons, not_mem_nil, or_false] at hv
    rcases hv with rfl | rfl
    · exact hleft (by omega)
    · exact hself
  · cases hv

theorem pieceOf_conflict (hordered : lock.Ordered)
    (hv : v ∈ subtractLocks (addLocks lock conf conf) lock) :
    PieceOf (addLocks lock conf conf) lock v := by
  exact pieceOf_of_mem_subtractLocks hordered
    (addLocks_start_le lock conf conf) (le_addLocks_end lock conf conf) hv

theorem totalSpan_subtractLocks_le (hordered : small.Ordered)
    (hst : big.flStart ≤ small.flStart) (hend : small.flEnd ≤ big.flEnd) :
    totalSpan (subtractLocks big small) ≤ big.span := by
  unfold Ordered at hordered
  unfold subtractLocks
  split_ifs <;> simp [totalSpan, PosixLock.span] <;> omega

theorem ownConflict_eq_some {rest : List PosixLock} (h : ownConflict lock ls = some (conf, rest)) :
    locksOverlap conf lock = true ∧ conf.owner = lock.owner ∧
      ∃ before after, ls = before ++ conf :: after ∧ rest = before ++ after ∧
        ∀ l ∈ before, l.owner = lock.owner → locksOverlap l lock = false := by
  induction ls generalizing rest with
  | nil => cases h
  | cons l ls ih =>
    have hlat : (ownConflict lock ls).map (fun r => (r.1, l :: r.2)) = some (conf, rest) →
        (l.owner = lock.owner → locksOverlap l lock = false) →
        locksOverlap conf lock = true ∧ conf.owner = lock.owner ∧
          ∃ before after, l :: ls = before ++ conf :: after ∧ rest = before ++ after ∧
            ∀ l ∈ before, l.owner = lock.owner → locksOverlap l lock = false := by
      intro hmap hl
      obtain ⟨⟨conf', rest'⟩, hrest, heq⟩ := Option.map_eq_some_iff.mp hmap
      cases heq
      obtain ⟨hov, howner, before, after, rfl, rfl, hbef⟩ := ih hrest
      exact ⟨hov, howner, l :: before, after, rfl, rfl, by simpa using ⟨hl, hbef⟩⟩
    unfold ownConflict at h
    split_ifs at h with hap hown hread
    · exact hlat h (fun _ => by simpa using hap)
    · cases h
      exact ⟨by simpa using hap, sameOwner_iff.mp hown, [], ls, rfl, rfl, by simp⟩
    · exact hlat h (fun howner => absurd (sameOwner_iff.mpr howner) hown)

theorem ownConflict_eq_none (h : ∀ l ∈ ls, l.owner = lock.owner → locksOverlap l lock = false) :
    ownConflict lock ls = none := by
  induction ls with
  | nil => rfl
  | cons l ls ih =>
    have htail := ih (fun l' hl' => h l' (mem_cons_of_mem _ hl'))
    unfold ownConflict
    rw [htail]
    split_ifs with hap hown
    · rfl
    · have hfalse := h l (by simp) (sameOwner_iff.mp hown)
      simp [hfalse] at hap
    · rfl
    · rfl

@[simp] theorem totalSpan_nil : totalSpan [] = 0 := by
  rfl

@[simp] theorem totalSpan_cons (l : PosixLock) (ls : List PosixLock) :
    totalSpan (l :: ls) = l.span + totalSpan ls := by
  simp [totalSpan]

@[simp] theorem totalSpan_append (ls ls' : List PosixLock) :
    totalSpan (ls ++ ls') = totalSpan ls + totalSpan ls' := by
  simp [totalSpan]

theorem totalSpan_deleteUnlckLocks_le (ls : List PosixLock) :
    totalSpan (deleteUnlckLocks ls) ≤ totalSpan ls := by
  induction ls with
  | nil => simp [deleteUnlckLocks]
  | cons l ls ih =>
    unfold deleteUnlckLocks at *
    rw [filter_cons]
    split_ifs
    · simpa using ih
    · rw [totalSpan_cons]
      omega

theorem run_pieces_total {insert : List PosixLock → PosixLock → Option (List PosixLock)}
    {bound : Nat}
    (hins : ∀ ls lock, lock.Ordered → totalSpan ls + lock.span < bound → ∃ ls',
      insert ls lock = some ls' ∧ totalSpan ls' ≤ totalSpan ls + lock.span)
    {vs : List PosixLock} (hordered : ∀ v ∈ vs, v.Ordered)
    (hbound : totalSpan ls + totalSpan vs < bound) :
    ∃ ls', run (fun ls v => if v.flType = .unlck then some ls else insert ls v) ls vs = some ls' ∧
      totalSpan ls' ≤ totalSpan ls + totalSpan vs := by
  induction vs generalizing ls with
  | nil => exact ⟨ls, rfl, by simp⟩
  | cons v vs ih =>
    rw [totalSpan_cons] at hbound
    have htail : ∀ v' ∈ vs, v'.Ordered := fun v' hv' => hordered v' (mem_cons_of_mem _ hv')
    by_cases hunl : v.flType = .unlck
    · have hrest : totalSpan ls + totalSpan vs < bound := by omega
      obtain ⟨ls', hrun, hle⟩ := ih htail hrest
      refine ⟨ls', by simpa [hunl] using hrun, ?_⟩
      rw [totalSpan_cons]
      omega
    · obtain ⟨mid, hmid, hmidle⟩ := hins ls v (hordered v (by simp)) (by omega)
      have hrest : totalSpan mid + totalSpan vs < bound := by omega
      obtain ⟨ls', hrun, hle⟩ := ih htail hrest
      refine ⟨ls', by simpa [hunl, hmid] using hrun, ?_⟩
      rw [totalSpan_cons]
      omega

theorem insertAndMergeStep_total (fuel : Nat) (ls : List PosixLock) (lock : PosixLock)
    (hordered : lock.Ordered) (hfuel : totalSpan ls + lock.span < fuel) :
    ∃ ls', insertAndMergeStep fuel ls lock = some ls' ∧
      totalSpan ls' ≤ totalSpan ls + lock.span := by
  induction fuel generalizing ls lock with
  | zero => omega
  | succ fuel ih =>
    unfold insertAndMergeStep
    cases hconf : ownConflict lock ls with
    | none =>
      refine ⟨_, rfl, ?_⟩
      split_ifs
      · omega
      · simp [plInsertLock]
    | some r =>
      obtain ⟨conf, rest⟩ := r
      obtain ⟨hov, _, before, after, rfl, rfl, _⟩ := ownConflict_eq_some hconf
      have hspan : totalSpan (before ++ conf :: after) =
          conf.span + totalSpan (before ++ after) := by
        simp only [totalSpan_append, totalSpan_cons]
        omega
      by_cases htype : conf.flType = lock.flType
      · simp only [htype]
        have hlt := addLocks_span_lt lock hordered hov
        obtain ⟨ls', hls', hle⟩ := ih (before ++ after) (addLocks lock conf lock)
            (addLocks_ordered hordered) (by omega)
        exact ⟨ls', hls', by omega⟩
      · simp only [htype]
        have hlt := addLocks_span_lt conf hordered hov
        have hpcs := totalSpan_subtractLocks_le hordered
          (addLocks_start_le lock conf conf) (le_addLocks_end lock conf conf)
        have hpc : ∀ v ∈ subtractLocks (addLocks lock conf conf) lock, v.Ordered :=
          fun v hv => (pieceOf_conflict hordered hv).ordered
        have hfew : totalSpan (before ++ after) +
            totalSpan (subtractLocks (addLocks lock conf conf) lock) < fuel := by omega
        obtain ⟨ls', hls', hle⟩ := run_pieces_total ih hpc hfew
        refine ⟨deleteUnlckLocks ls', by rw [hls']; rfl, ?_⟩
        have hdel := totalSpan_deleteUnlckLocks_le ls'
        omega

theorem insertAndMergeStep_mono (fuel : Nat) (ls : List PosixLock) (lock : PosixLock)
    (h : insertAndMergeStep fuel ls lock = some ls') :
    insertAndMergeStep (fuel + 1) ls lock = some ls' := by
  induction fuel generalizing ls lock ls' with
  | zero => cases h
  | succ fuel ih =>
    rw [insertAndMergeStep] at h ⊢
    cases hconf : ownConflict lock ls with
    | none => simpa only [hconf] using h
    | some r =>
      simp only [hconf] at h ⊢
      split_ifs at h ⊢ with htype
      · exact ih _ _ h
      · obtain ⟨cut, hcut, rfl⟩ := Option.map_eq_some_iff.mp h
        rw [run_mono _ ?_ hcut]
        · rfl
        · intro now v next hnext
          split_ifs at hnext ⊢ with hunl
          · exact hnext
          · exact ih _ _ hnext

/--
The recursion of `__insert_and_merge` ends on every list: its depth is at most the number of
bytes that the locks span, and one more.
-/
theorem merging_terminates (ls : List PosixLock) (lock : PosixLock)
    (hordered : lock.flStart ≤ lock.flEnd) :
    ∃ ls', ∀ fuel, totalSpan ls + lock.span < fuel →
      insertAndMergeStep fuel ls lock = some ls' := by
  obtain ⟨ls', h, _⟩ := insertAndMergeStep_total (totalSpan ls + lock.span + 1) ls lock hordered
      (Nat.lt_succ_self _)
  refine ⟨ls', fun fuel hfuel => ?_⟩
  induction hfuel with
  | refl => exact h
  | step _ ih => exact insertAndMergeStep_mono _ ls lock ih

def ownLock (t : FlType) (first last : Int) : PosixLock :=
  ⟨t, first, last, false, none, 0, 1⟩

theorem merging_terminates_overBoth :
    ∃ ls', ∀ fuel, 21 < fuel →
      insertAndMergeStep fuel [ownLock .rdlck 0 4, ownLock .wrlck 3 6] (ownLock .wrlck 2 13) =
        some ls' := by
  exact merging_terminates [ownLock .rdlck 0 4, ownLock .wrlck 3 6] (ownLock .wrlck 2 13)
    (by decide)

theorem exists_insertAndMerge (ls : List PosixLock) (hordered : lock.Ordered) :
    ∃ ls', insertAndMerge ls lock = some ls' := by
  obtain ⟨ls', h, _⟩ := insertAndMergeStep_total (totalSpan ls + lock.span + 1) ls lock hordered
      (Nat.lt_succ_self _)
  exact ⟨ls', h⟩

section

/-- A request meets a lock of its owner. -/
structure Conflicts (ls : List PosixLock) (lock conf : PosixLock) : Prop where
  mem : conf ∈ ls
  overlap : locksOverlap conf lock = true
  owner : conf.owner = lock.owner

variable {P : List PosixLock → Prop} {Q : PosixLock → Prop}
  (hins : ∀ ls lock, P ls → Q lock → lock.flType ≠ .unlck → P (plInsertLock ls lock))
  (hsum : ∀ ls lock conf, P ls → Q lock → Conflicts ls lock conf →
    conf.flType = lock.flType → Q (addLocks lock conf lock))
  (hpc : ∀ ls lock conf v, P ls → Q lock → Conflicts ls lock conf →
    v ∈ subtractLocks (addLocks lock conf conf) lock → Q v)
include hins hsum hpc

/--
What holds of the list after a call: `P` is of the list, and survives that a
conflicting lock is taken out, `Q` is of the lock to be inserted, and passes on to
the sum or to the pieces.
-/
theorem insertAndMergeStep_rule
    (hremove : ∀ before conf after lock, P (before ++ conf :: after) → Q lock →
      Conflicts (before ++ conf :: after) lock conf → P (before ++ after))
    (hdel : ∀ ls, P ls → P (deleteUnlckLocks ls)) (fuel : Nat) (hP : P ls) (hQ : Q lock)
    (h : insertAndMergeStep fuel ls lock = some ls') : P ls' := by
  induction fuel generalizing ls ls' lock with
  | zero => cases h
  | succ fuel ih =>
    unfold insertAndMergeStep at h
    cases hconf : ownConflict lock ls with
    | none =>
      simp only [hconf, Option.some.injEq] at h
      subst h
      split_ifs with hunl
      · exact hP
      · exact hins ls lock hP hQ hunl
    | some r =>
      obtain ⟨conf, rest⟩ := r
      obtain ⟨hov, hown, before, after, rfl, rfl, _⟩ := ownConflict_eq_some hconf
      have hconflicts : Conflicts (before ++ conf :: after) lock conf := ⟨by simp, hov, hown⟩
      have hrest : P (before ++ after) := hremove before conf after lock hP hQ hconflicts
      simp only [hconf] at h
      split_ifs at h with htype
      · exact ih hrest (hsum _ _ _ hP hQ hconflicts htype) h
      · obtain ⟨cut, hcut, rfl⟩ := Option.map_eq_some_iff.mp h
        have hkept : P cut := by
          refine run_keeps _ ?_ hrest hcut
          intro v hv now next hnow hstep
          split_ifs at hstep with hunl
          · cases hstep
            exact hnow
          · exact ih hnow (hpc _ _ _ v hP hQ hconflicts hv) hstep
        exact hdel _ hkept

theorem insertAndMergeStep_keeps (hsubl : ∀ ls ls', ls'.Sublist ls → P ls → P ls') (fuel : Nat)
    (hP : P ls) (hQ : Q lock) (h : insertAndMergeStep fuel ls lock = some ls') : P ls' := by
  refine insertAndMergeStep_rule hins hsum hpc ?_ ?_ fuel hP hQ h
  · intro before conf after _ hnow _ _
    exact hsubl _ _ ((List.Sublist.refl before).append (sublist_cons_self conf after)) hnow
  · intro now hnow
    exact hsubl _ _ filter_sublist hnow

end

/-- A granted lock inside `S` whose bytes are of the lock's type in `H`. -/
structure Confined (S : Set Int) (H : FlType → Int → Prop) (l : PosixLock) : Prop where
  ordered : l.Ordered
  granted : l.blocked = false
  inside : ∀ b, l.covers b → b ∈ S
  held : ∀ b, l.covers b → H l.flType b

theorem Confined.addLocks (hlock : Confined S H lock) (hconf : Confined S H conf)
    (hov : locksOverlap conf lock = true) (htype : conf.flType = lock.flType) :
    Confined S H (addLocks lock conf lock) := by
  refine
    { ordered := addLocks_ordered hlock.ordered
      granted := rfl
      inside := ?_
      held := ?_ }
  · intro b hb
    rcases addLocks_covers hov hb with hb | hb
    · exact hlock.inside b hb
    · exact hconf.inside b hb
  · intro b hb
    rcases addLocks_covers hov hb with hb | hb
    · exact hlock.held b hb
    · have hheld := hconf.held b hb
      rw [htype] at hheld
      exact hheld

theorem Confined.piece (hlock : Confined S H lock) (hconf : Confined S H conf)
    (hov : locksOverlap conf lock = true) (hpc : PieceOf (Locks.addLocks lock conf conf) lock v) :
    Confined S H v := by
  have hpart : ∀ b, v.covers b → v.flType = lock.flType ∧ lock.covers b ∨
      v.flType = conf.flType ∧ conf.covers b := by
    intro b hb
    rcases hpc.covers with ⟨htype, hcov⟩ | ⟨htype, hcov⟩
    · exact .inl ⟨htype, hcov b hb⟩
    · obtain ⟨hbig, hsm⟩ := hcov b hb
      exact .inr ⟨htype, (addLocks_covers hov hbig).resolve_left hsm⟩
  refine
    { ordered := hpc.ordered
      granted := hpc.granted rfl hlock.granted
      inside := ?_
      held := ?_ }
  · intro b hb
    rcases hpart b hb with ⟨_, hb⟩ | ⟨_, hb⟩
    · exact hlock.inside b hb
    · exact hconf.inside b hb
  · intro b hb
    rcases hpart b hb with ⟨htype, hb⟩ | ⟨htype, hb⟩
    · rw [htype]
      exact hlock.held b hb
    · rw [htype]
      exact hconf.held b hb

def ConfinedList (S : Set Int) (H : FlType → Int → Prop) (owner : Int × Transport)
    (ls : List PosixLock) : Prop :=
  ∀ l ∈ ls, l.owner = owner → (∃ b ∈ S, l.covers b) → Confined S H l

def MadeFrom (S : Set Int) (H : FlType → Int → Prop) (owner : Int × Transport)
    (ls ls' : List PosixLock) : Prop :=
  ∀ l ∈ ls', l ∈ ls ∨ l.owner = owner ∧ l.flType ≠ .unlck ∧ Confined S H l

theorem MadeFrom.ordered (h : MadeFrom S H owner ls ls') (hls : ∀ l ∈ ls, l.Ordered) :
    ∀ l ∈ ls', l.Ordered := by
  intro l hl
  rcases h l hl with hold | hmade
  · exact hls l hold
  · exact hmade.2.2.ordered

theorem MadeFrom.confined_of_conflicts (h : MadeFrom S H owner ls ls')
    (hordered : ∀ l ∈ ls, l.Ordered) (hls : ConfinedList S H owner ls) (hlock : Confined S H lock)
    (hown : lock.owner = owner) (hconf : Conflicts ls' lock conf) : Confined S H conf := by
  rcases h conf hconf.mem with hold | hmade
  · obtain ⟨b, hbconf, hblo⟩ := exists_covers_of_locksOverlap
      (hordered conf hold) hlock.ordered hconf.overlap
    exact hls conf hold (hconf.owner.trans hown) ⟨b, hlock.inside b hblo, hbconf⟩
  · exact hmade.2.2

def ConfinedTo (S : Set Int) (H : FlType → Int → Prop) (owner : Int × Transport)
    (lock : PosixLock) : Prop :=
  Confined S H lock ∧ lock.owner = owner

theorem MadeFrom.subset {now' : List PosixLock} (h : MadeFrom S H owner ls now) (hsub : now' ⊆ now)
    : MadeFrom S H owner ls now' := by
  intro l hl
  exact h l (hsub hl)

theorem MadeFrom.plInsertLock (h : MadeFrom S H owner ls now) (hlock : ConfinedTo S H owner lock)
    (hunl : lock.flType ≠ .unlck) : MadeFrom S H owner ls (plInsertLock now lock) := by
  refine forall_mem_append.mpr ⟨h, forall_mem_singleton.mpr ?_⟩
  exact .inr ⟨hlock.2, hunl, hlock.1⟩

section

variable (h : MadeFrom S H owner ls now) (hordered : ∀ l ∈ ls, l.Ordered)
variable (hls : ConfinedList S H owner ls) (hlock : ConfinedTo S H owner lock)
variable (hconf : Conflicts now lock conf)

include h hordered hls hlock hconf

theorem MadeFrom.confined : Confined S H conf := by
  exact h.confined_of_conflicts hordered hls hlock.1 hlock.2 hconf

theorem MadeFrom.sum (htype : conf.flType = lock.flType) :
    ConfinedTo S H owner (addLocks lock conf lock) := by
  have hconfined := h.confined hordered hls hlock hconf
  exact ⟨hlock.1.addLocks hconfined hconf.overlap htype, hlock.2⟩

theorem MadeFrom.piece (hv : v ∈ subtractLocks (addLocks lock conf conf) lock) :
    ConfinedTo S H owner v := by
  have hconfined := h.confined hordered hls hlock hconf
  have hpc := pieceOf_conflict hlock.1.ordered hv
  exact ⟨hlock.1.piece hconfined hconf.overlap hpc, (hpc.owner hconf.owner).trans hlock.2⟩

end

theorem insertAndMergeStep_madeFrom (fuel : Nat) (hlock : Confined S H lock)
    (hordered : ∀ l ∈ ls, l.Ordered) (hls : ConfinedList S H lock.owner ls)
    (h : insertAndMergeStep fuel ls lock = some ls') : MadeFrom S H lock.owner ls ls' := by
  refine insertAndMergeStep_keeps (P := MadeFrom S H lock.owner ls) (Q := ConfinedTo S H lock.owner)
    ?_ ?_ ?_ ?_ fuel (fun l hl => .inl hl) ⟨hlock, rfl⟩ h
  · intro now v hnow hv hunl
    exact hnow.plInsertLock hv hunl
  · intro now v conf hnow hv hconf htype
    exact hnow.sum hordered hls hv hconf htype
  · intro now v conf piece hnow hv hconf hmem
    exact hnow.piece hordered hls hv hconf hmem
  · intro now next hsub hnow
    exact hnow.subset hsub.subset

def waiting (ls : List PosixLock) : List PosixLock :=
  ls.filter PosixLock.blocked

theorem mem_waiting {l : PosixLock} : l ∈ waiting ls ↔ l ∈ ls ∧ l.blocked = true := by
  exact mem_filter

theorem waiting_append (ls ls' : List PosixLock) :
    waiting (ls ++ ls') = waiting ls ++ waiting ls' := by
  exact filter_append _ _

theorem waiting_plInsertLock (ls : List PosixLock) (hgr : lock.blocked = false) :
    waiting (plInsertLock ls lock) = waiting ls := by
  simp [waiting, plInsertLock, hgr]

theorem insertAndMergeStep_waiting (fuel : Nat) (hordered : lock.Ordered)
    (hgr : lock.blocked = false) (h : insertAndMergeStep fuel ls lock = some ls') :
    (waiting ls').Sublist (waiting ls) := by
  refine insertAndMergeStep_keeps (P := fun now => (waiting now).Sublist (waiting ls))
    (Q := fun v => v.Ordered ∧ v.blocked = false)
    ?_ ?_ ?_ ?_ fuel (List.Sublist.refl _) ⟨hordered, hgr⟩ h
  · intro now v hnow hv _
    rw [waiting_plInsertLock now hv.2]
    exact hnow
  · intro now v conf _ hv _ _
    exact ⟨addLocks_ordered hv.1, rfl⟩
  · intro now v conf piece _ hv _ hmem
    have hpc := pieceOf_conflict hv.1 hmem
    exact ⟨hpc.ordered, hpc.granted rfl hv.2⟩
  · intro now next hsub hnow
    exact (hsub.filter _).trans hnow

theorem insertAndMergeStep_waiting_eq (fuel : Nat) (hlock : Confined S H lock)
    (hordered : ∀ l ∈ ls, l.Ordered) (hlkd : ∀ l ∈ waiting ls, l.flType ≠ .unlck)
    (hls : ConfinedList S H lock.owner ls) (h : insertAndMergeStep fuel ls lock = some ls') :
    waiting ls' = waiting ls := by
  have hkept : MadeFrom S H lock.owner ls ls' ∧ waiting ls' = waiting ls := by
    refine insertAndMergeStep_rule
      (P := fun now => MadeFrom S H lock.owner ls now ∧ waiting now = waiting ls)
      (Q := ConfinedTo S H lock.owner)
      ?_ ?_ ?_ ?_ ?_ fuel ⟨fun l hl => .inl hl, rfl⟩ ⟨hlock, rfl⟩ h
    · intro now v hnow hv hunl
      refine ⟨hnow.1.plInsertLock hv hunl, ?_⟩
      rw [waiting_plInsertLock now hv.1.granted]
      exact hnow.2
    · intro now v conf hnow hv hconf htype
      exact hnow.1.sum hordered hls hv hconf htype
    · intro now v conf piece hnow hv hconf hmem
      exact hnow.1.piece hordered hls hv hconf hmem
    · intro before conf after v hnow hv hconf
      have hgr := (hnow.1.confined hordered hls hv hconf).granted
      refine ⟨hnow.1.subset ?_, ?_⟩
      · exact ((List.Sublist.refl before).append (sublist_cons_self conf after)).subset
      · rw [← hnow.2]
        simp [waiting, hgr]
    · intro now hnow
      refine ⟨hnow.1.subset filter_sublist.subset, ?_⟩
      rw [← hnow.2]
      unfold waiting deleteUnlckLocks
      rw [filter_filter]
      refine filter_congr ?_
      intro l hl
      cases hblk : l.blocked with
      | false => rfl
      | true =>
        have hmem : l ∈ waiting ls := by
          rw [← hnow.2]
          exact mem_waiting.mpr ⟨hl, hblk⟩
        simpa using hlkd l hmem
  exact hkept.2

theorem insertAndMerge_of_apart (h : ∀ l ∈ ls, l.owner = lock.owner → locksOverlap l lock = false) :
    insertAndMerge ls lock = some (if lock.flType = .unlck then ls else plInsertLock ls lock) := by
  unfold insertAndMerge insertAndMergeStep
  rw [ownConflict_eq_none h]

end GlusterFS.Locks
