import GlusterFS.Locks.ByteHolds

/-!
# Posix-locks: the bytes that a merge writes

The merge works on one overlapping lock at a time: it takes the lock out, and puts
back the request and the parts of the lock that are outside of it, or the sum of
both.  Only the request itself can be cut: a sum or a part that meets a lock of
another type is no longer defined, so all other locks in the range must be alike.
-/

namespace GlusterFS.Locks

open Run List Option

section

variable {before after now now' ls ls' : List PosixLock}
variable {lock conf : PosixLock} {first second : Option PosixLock}

/-- What is asked of a list and of a lock that is to be merged into it. -/
structure Insertable (ls : List PosixLock) (lock : PosixLock) : Prop where
  settled : Settled ls
  ordered : lock.Ordered
  granted : lock.blocked = false
  locked : lock.flType ≠ .unlck
  alike : OwnAlike ls lock

/-- The merge uses no `list` field that is not set, and writes the range of the lock. -/
def InsertSets (fuel : Nat) : Prop :=
  ∀ ls lock ls' linked, Insertable ls lock → insertAndMergeStep fuel ls lock = some ls' →
    insertAndMergeLinked fuel linked ls lock = some ls' ∧ Settled ls' ∧ SetsRange ls ls' lock

def HoldsPart (conf : PosixLock) (part : Option PosixLock)
    (owner : Int × Transport) (b : Int) (t : FlType) : Prop :=
  owner = conf.owner ∧ t = conf.flType ∧ ∃ p ∈ part, p.covers b

variable {fuel : Nat}

theorem run_outer (ih : InsertSets fuel) {part : Option PosixLock}
    (hnow : Settled now) (hlkd : conf.flType ≠ .unlck) (hpart : ∀ p ∈ part, Outer lock conf p)
    (hown : ∀ p ∈ part, ∀ l ∈ now, OwnReads l p)
    (h : run (fun ls v => if v.flType = .unlck then some ls else insertAndMergeStep fuel ls v)
      now part.toList = some now') :
    run (fun ls v => if v.flType = .unlck then some ls else insertAndMergeLinked fuel false ls v)
        now part.toList = some now' ∧
      Settled now' ∧ ∀ owner b t, Holds now' owner b t ↔
        Holds now owner b t ∨ HoldsPart conf part owner b t := by
  cases part with
  | none =>
    cases h
    exact ⟨rfl, hnow, by simp [HoldsPart]⟩
  | some p =>
    have hp := hpart p rfl
    have hrds := hown p rfl
    simp only [toList_some, run_cons, run_nil, hp.flType, hlkd, if_false, bind_fun_some] at h ⊢
    have hinst : Insertable now p :=
      { settled := hnow
        ordered := hp.ordered
        granted := hp.granted
        locked := by
          rw [hp.flType]
          exact hlkd
        alike := ownAlike_of_ownReads hrds }
    obtain ⟨hlinked, hsettled, hsets⟩ := ih now p now' false hinst h
    refine ⟨hlinked, hsettled, ?_⟩
    intro owner b t
    rw [hsets owner b t]
    simp only [HoldsPart, mem_some_iff, exists_eq_left', ← hp.owner, ← hp.flType]
    split_ifs with hhere
    · obtain ⟨rfl, hb⟩ := hhere
      constructor
      · rintro ⟨rfl, _⟩
        exact .inr ⟨rfl, rfl, hb⟩
      · rintro (⟨l, hl, _, howner, hlb, rfl⟩ | ⟨_, rfl, _⟩)
        · have htypes := hrds l hl howner (locksOverlap_of_covers hlb hb)
          rw [htypes.1, htypes.2]
          exact ⟨rfl, by decide⟩
        · exact ⟨rfl, hinst.locked⟩
    · constructor
      · exact .inl
      · rintro (hold | ⟨rfl, _, hb⟩)
        · exact hold
        · exact absurd ⟨rfl, hb⟩ hhere

variable (hpts : OuterParts lock conf first second) (hsettled : Settled (before ++ conf :: after))
include hpts hsettled

theorem OuterParts.ownReads_first : ∀ p ∈ first, ∀ l ∈ before ++ after, OwnReads l p := by
  intro p hp l hl hown hov
  have houter := hpts.outerFirst p hp
  have hlmem : l ∈ before ++ conf :: after := by
    rcases mem_append.mp hl with hl | hl <;> simp [hl]
  obtain ⟨b, hlb, hpb⟩ := exists_covers_of_locksOverlap
    (hsettled.ordered l hlmem) houter.ordered hov
  rw [houter.flType]
  exact hsettled.ownReads_conflict hl (hown.trans houter.owner)
    (locksOverlap_of_covers hlb (houter.covers b hpb).1)

theorem OuterParts.ownReads_second (hnow : ∀ owner b t, Holds now owner b t ↔
      Holds (before ++ after) owner b t ∨ HoldsPart conf first owner b t) (hnow' : Settled now')
    (hsets : SetsRange now now' lock) : ∀ p ∈ second, ∀ l ∈ now', OwnReads l p := by
  intro p hp l hl hlow hov
  have houter := hpts.outerSecond p hp
  obtain ⟨b, hlb, hpb⟩ := exists_covers_of_locksOverlap (hnow'.ordered l hl) houter.ordered hov
  obtain ⟨hconfb, hlockb⟩ := houter.covers b hpb
  have hheld : Holds now l.owner b l.flType := by
    have haft : Holds now' l.owner b l.flType := ⟨l, hl, hnow'.granted l hl, rfl, hlb, rfl⟩
    rw [hsets, if_neg (fun hhere => hlockb hhere.2)] at haft
    exact haft
  rw [houter.flType]
  rcases (hnow _ _ _).mp hheld with ⟨x, hx, _, hxowner, hxb, hxtype⟩ | ⟨_, _, x, hx, hxb⟩
  · have hrds := hsettled.ownReads_conflict hx
      ((hxowner.trans hlow).trans houter.owner) (locksOverlap_of_covers hxb hconfb)
    rw [← hxtype]
    exact hrds
  · have hap := hpts.apart x hx p hp
    simp [locksOverlap_of_covers hxb hpb] at hap

theorem OuterParts.setsRange {mid : List PosixLock} (howner : conf.owner = lock.owner)
    (hnow : ∀ owner b t, Holds now owner b t ↔
      Holds (before ++ after) owner b t ∨ HoldsPart conf first owner b t)
    (hmid : SetsRange now mid lock)
    (hnow' : ∀ owner b t, Holds now' owner b t ↔
      Holds mid owner b t ∨ HoldsPart conf second owner b t) :
    SetsRange (before ++ conf :: after) now' lock := by
  intro owner b t
  rw [hnow' owner b t, hmid owner b t]
  split_ifs with hhere
  · obtain ⟨rfl, hb⟩ := hhere
    constructor
    · rintro (hset | ⟨_, _, p, hp, hpb⟩)
      · exact hset
      · exact absurd hb ((hpts.outerSecond p hp).covers b hpb).2
    · exact .inl
  · rw [hnow owner b t, holds_split]
    constructor
    · have hpart : ∀ p, Outer lock conf p → p.covers b → owner = conf.owner →
          t = conf.flType → conf.blocked = false ∧ conf.owner = owner ∧
            conf.covers b ∧ conf.flType = t := by
        rintro p houter hpb rfl rfl
        exact ⟨hsettled.granted conf (by simp), rfl, (houter.covers b hpb).1, rfl⟩
      rintro ((hrest | ⟨hown, ht, p, hp, hpb⟩) | ⟨hown, ht, p, hp, hpb⟩)
      · exact .inl hrest
      · exact .inr (hpart p (hpts.outerFirst p hp) hpb hown ht)
      · exact .inr (hpart p (hpts.outerSecond p hp) hpb hown ht)
    · rintro (hrest | ⟨_, rfl, hb, rfl⟩)
      · exact .inl (.inl hrest)
      · have hlockb : ¬ lock.covers b := by
          intro hlockb
          exact hhere ⟨howner, hlockb⟩
        rcases hpts.all b hb hlockb with hp | hp
        · exact .inl (.inr ⟨rfl, rfl, hp⟩)
        · exact .inr ⟨rfl, rfl, hp⟩

omit hpts hsettled

theorem Insertable.sum (h : Insertable (before ++ conf :: after) lock)
    (hov : locksOverlap conf lock = true) (hown : conf.owner = lock.owner) :
    Insertable (before ++ after) (addLocks lock conf lock) := by
  have hrest := h.settled.rest
  refine
    { settled := hrest
      ordered := addLocks_ordered h.ordered
      granted := rfl
      locked := h.locked
      alike := ?_ }
  intro l hl hlow hlsum
  rcases locksOverlap_addLocks (hrest.ordered l hl) hov hlsum with hllock | hlconf
  · have hmem : l ∈ before ++ conf :: after := by
      rcases mem_append.mp hl with hl | hl <;> simp [hl]
    exact h.alike l hmem hlow hllock
  · obtain ⟨hread, hread'⟩ := h.settled.ownReads_conflict hl (hlow.trans hown.symm) hlconf
    rw [hread, ← hread']
    exact h.alike conf (by simp) hown hov

theorem Settled.deleteUnlckLocks (h : Settled ls) : deleteUnlckLocks ls = ls := by
  unfold Locks.deleteUnlckLocks
  rw [filter_eq_self]
  intro l hl
  simpa using h.locked l hl

theorem insertSets (fuel : Nat) : InsertSets fuel := by
  induction fuel with
  | zero =>
    intro ls lock ls' _ _ h
    cases h
  | succ fuel ih =>
    intro ls lock ls' linked hin h
    unfold insertAndMergeStep at h
    unfold insertAndMergeLinked
    cases hconf : ownConflict lock ls with
    | none =>
      simp only [hconf, hin.locked, some.injEq] at h
      subst h
      have hown := hin.alike.ownReads hconf
      exact ⟨by simp only [hin.locked, if_false],
        hin.settled.plInsertLock hin.ordered hin.granted hin.locked hown,
        setsRange_plInsertLock hin.granted hin.locked hown⟩
    | some r =>
      obtain ⟨conf, rest⟩ := r
      obtain ⟨hov, howner, before, after, rfl, rfl, _⟩ := ownConflict_eq_some hconf
      have htype := hin.alike conf (by simp) howner hov
      simp only [hconf, htype, if_true] at h ⊢
      obtain ⟨hlinked, hsettled, hsets⟩ := ih _ _ _ false (hin.sum hov howner) h
      exact ⟨hlinked, hsettled, setsRange_of_sum hin.settled hov howner htype hsets⟩

theorem setsRange_of_unheld (hunl : lock.flType = .unlck)
    (hnone : ∀ b t, lock.covers b → ¬ Holds ls lock.owner b t) : SetsRange ls ls lock := by
  intro owner b t
  split_ifs with hhere
  · obtain ⟨rfl, hb⟩ := hhere
    simp [hnone b t hb, hunl]
  · exact Iff.rfl

theorem setsRange_of_alike (hsettled : Settled ls) (hunl : lock.flType = .unlck)
    (h : OwnAlike ls lock) : SetsRange ls ls lock := by
  refine setsRange_of_unheld hunl ?_
  rintro b t hb ⟨l, hl, _, hown, hlb, _⟩
  exact hsettled.locked l hl ((h l hl hown (locksOverlap_of_covers hlb hb)).trans hunl)

/-- The part of the first lock that is put back does not come into the range. -/
theorem OuterParts.ownAlike (hpts : OuterParts lock conf first second) (hord : lock.Ordered)
    (halike : OwnAlike (before ++ after) lock) (hsettled : Settled now)
    (hheld : ∀ owner b t, Holds now owner b t ↔
      Holds (before ++ after) owner b t ∨ HoldsPart conf first owner b t) : OwnAlike now lock := by
  intro l hl hown hov
  obtain ⟨b, hlb, hb⟩ := exists_covers_of_locksOverlap (hsettled.ordered l hl) hord hov
  rcases (hheld l.owner b l.flType).mp ⟨l, hl, hsettled.granted l hl, rfl, hlb, rfl⟩ with
    ⟨x, hx, _, hxowner, hxb, hxtype⟩ | ⟨_, _, p, hp, hpb⟩
  · rw [← hxtype]
    exact halike x hx (hxowner.trans hown) (locksOverlap_of_covers hxb hb)
  · exact absurd hb ((hpts.outerFirst p hp).covers b hpb).2

/-- The list without the lock at which the loop stops. -/
def besides (ls : List PosixLock) (lock : PosixLock) : List PosixLock :=
  (ownConflict lock ls).elim ls Prod.snd

theorem insertAndMergeLinked_sets (fuel : Nat) (hsettled : Settled ls) (hord : lock.Ordered)
    (hgr : lock.blocked = false) (halike : OwnAlike (besides ls lock) lock)
    (h : insertAndMergeStep fuel ls lock = some ls') :
    insertAndMergeLinked fuel true ls lock = some ls' ∧ Settled ls' ∧ SetsRange ls ls' lock := by
  cases fuel with
  | zero => cases h
  | succ fuel =>
    cases hconf : ownConflict lock ls with
    | none =>
      rw [besides, hconf] at halike
      by_cases hunl : lock.flType = .unlck
      · simp only [insertAndMergeStep, insertAndMergeLinked, hconf, hunl, if_true,
          some.injEq] at h ⊢
        subst h
        exact ⟨rfl, hsettled, setsRange_of_alike hsettled hunl halike⟩
      · exact insertSets _ ls lock ls' true ⟨hsettled, hord, hgr, hunl, halike⟩ h
    | some r =>
      obtain ⟨conf, rest⟩ := r
      rw [besides, hconf] at halike
      obtain ⟨hov, hown, before, after, rfl, rfl, _⟩ := ownConflict_eq_some hconf
      have hlkd := hsettled.locked conf (by simp)
      by_cases htype : conf.flType = lock.flType
      · refine insertSets _ _ lock ls' true ⟨hsettled, hord, hgr, htype ▸ hlkd, ?_⟩ h
        intro l hl
        rcases mem_append.mp hl with hl | hl
        · exact halike l (mem_append_left _ hl)
        · rcases mem_cons.mp hl with rfl | hl
          · exact fun _ _ => htype
          · exact halike l (mem_append_right _ hl)
      · -- the loop cuts the lock, and the request is put in between the parts
        simp only [insertAndMergeStep, hconf, htype, if_false] at h
        simp only [insertAndMergeLinked, hconf, htype, if_false, if_true]
        obtain ⟨cut, hcut, rfl⟩ := map_eq_some_iff.mp h
        obtain ⟨first, second, frame, hsub, hpts⟩ := subtractLocks_conflict hord hgr hown hov
        rw [hsub, run_append, bind_eq_some_iff] at hcut
        obtain ⟨now, hnow, hcut⟩ := hcut
        rw [run_cons, bind_eq_some_iff] at hcut
        obtain ⟨mid, hmid, hcut⟩ := hcut
        obtain ⟨hlnow, hsnow, hheld⟩ := run_outer (insertSets fuel) hsettled.rest hlkd
          hpts.outerFirst (hpts.ownReads_first hsettled) hnow
        have hin := hpts.ownAlike hord halike hsnow hheld
        obtain ⟨hlmid, hsmid, hsets⟩ : (if lock.flType = .unlck then some now
              else insertAndMergeLinked fuel false now { lock with frame := frame }) = some mid ∧
            Settled mid ∧ SetsRange now mid lock := by
          dsimp only at hmid
          split_ifs at hmid ⊢ with hunl
          · cases hmid
            exact ⟨rfl, hsnow, setsRange_of_alike hsnow hunl hin⟩
          · exact insertSets fuel now { lock with frame := frame } mid false
              ⟨hsnow, hord, hgr, hunl, hin⟩ hmid
        obtain ⟨hlcut, hscut, hheld'⟩ := run_outer (insertSets fuel) hsmid hlkd
          hpts.outerSecond (hpts.ownReads_second hsettled hheld hsmid hsets) hcut
        rw [hscut.deleteUnlckLocks, hsub, run_append, hlnow, bind_some, run_cons]
        refine ⟨?_, hscut, hpts.setsRange hsettled hown hheld hsets hheld'⟩
        dsimp only
        rw [hlmid, bind_some, hlcut, map_some, hscut.deleteUnlckLocks]

end

end GlusterFS.Locks
