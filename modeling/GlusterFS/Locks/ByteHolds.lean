import GlusterFS.Locks.Exclusion

/-!
# Posix-locks: the bytes that an owner holds

An owner holds, on each byte, at most one type of lock as long as its locks
overlap only where both are read locks.  `Settled` is that invariant of the list,
and `SetsRange` says that a request has written its type over its range and left
everything else alone.
-/

namespace GlusterFS.Locks

open List

def Holds (ls : List PosixLock) (owner : Int × Transport) (b : Int) (t : FlType) : Prop :=
  ∃ l ∈ ls, l.blocked = false ∧ l.owner = owner ∧ l.covers b ∧ l.flType = t

instance (l : PosixLock) (b : Int) : Decidable (l.covers b) :=
  inferInstanceAs (Decidable (l.flStart ≤ b ∧ b ≤ l.flEnd))

/-- The type of the lock on its range, and everything else as it was. -/
def SetsRange (ls ls' : List PosixLock) (lock : PosixLock) : Prop :=
  ∀ owner b t, Holds ls' owner b t ↔
    if owner = lock.owner ∧ lock.covers b then
      t = lock.flType ∧ t ≠ .unlck
    else
      Holds ls owner b t

/-- Locks of one owner overlap where both are read locks only. -/
def OwnReads (l1 l2 : PosixLock) : Prop :=
  l1.owner = l2.owner → locksOverlap l1 l2 = true → l1.flType = .rdlck ∧ l2.flType = .rdlck

instance : Std.Symm OwnReads where
  symm _ _ h howner hoverlap := by
    rw [locksOverlap_comm] at hoverlap
    exact (h howner.symm hoverlap).symm

/-- Granted locks that give each owner one type on each byte. -/
structure Settled (ls : List PosixLock) : Prop where
  ordered : ∀ l ∈ ls, l.Ordered
  granted : ∀ l ∈ ls, l.blocked = false
  locked : ∀ l ∈ ls, l.flType ≠ .unlck
  own : ls.Pairwise OwnReads

theorem settled_nil : Settled [] := by
  exact
    { ordered := by simp
      granted := by simp
      locked := by simp
      own := List.Pairwise.nil }

variable {ls ls' before after : List PosixLock} {lock l lock' conf l1 l2 of : PosixLock} {b : Int}
  {t : FlType} {owner : Int × Transport}

theorem Settled.sublist (h : Settled ls) (hsub : ls'.Sublist ls) : Settled ls' := by
  exact
    { ordered := fun l hl => h.ordered l (hsub.mem hl)
      granted := fun l hl => h.granted l (hsub.mem hl)
      locked := fun l hl => h.locked l (hsub.mem hl)
      own := h.own.sublist hsub }

theorem Settled.plInsertLock (h : Settled ls) (hord : lock.Ordered)
    (hgr : lock.blocked = false) (hlkd : lock.flType ≠ .unlck)
    (hown : ∀ l ∈ ls, OwnReads l lock) : Settled (plInsertLock ls lock) := by
  unfold Locks.plInsertLock
  constructor
  · exact forall_mem_append.mpr ⟨h.ordered, forall_mem_singleton.mpr hord⟩
  · exact forall_mem_append.mpr ⟨h.granted, forall_mem_singleton.mpr hgr⟩
  · exact forall_mem_append.mpr ⟨h.locked, forall_mem_singleton.mpr hlkd⟩
  · rw [pairwise_append]
    refine ⟨h.own, pairwise_singleton _ _, ?_⟩
    exact fun l hl => forall_mem_singleton.mpr (hown l hl)

theorem Settled.holds_iff (h : Settled ls) (hl : l ∈ ls) (hb : l.covers b) :
    Holds ls l.owner b t ↔ t = l.flType := by
  constructor
  · rintro ⟨l', hl', _, hown, hb', rfl⟩
    by_cases heq : l' = l
    · rw [heq]
    · have hrds := h.own.forall hl' hl heq hown (locksOverlap_of_covers hb' hb)
      rw [hrds.1, hrds.2]
  · rintro rfl
    exact ⟨l, hl, h.granted l hl, rfl, hb, rfl⟩

theorem Settled.holds_unique (h : Settled ls) {t' : FlType} (ht : Holds ls owner b t)
    (ht' : Holds ls owner b t') : t = t' := by
  obtain ⟨l, hl, _, rfl, hb, rfl⟩ := ht
  exact ((h.holds_iff hl hb).mp ht').symm

theorem ownConflict_none_cases (h : ownConflict lock ls = none) :
    (∀ l ∈ ls, l.owner = lock.owner → locksOverlap l lock = false) ∨ lock.flType = .rdlck := by
  induction ls with
  | nil => exact .inl nofun
  | cons conf ls ih =>
    unfold ownConflict at h
    split_ifs at h with hap hown hread
    · have hconf : locksOverlap conf lock = false := by simpa using hap
      exact (ih (by simpa using h)).imp_left
        (fun hnone => forall_mem_cons.mpr ⟨fun _ => hconf, hnone⟩)
    · exact .inr hread.2
    · refine (ih (by simpa using h)).imp_left (fun hnone => forall_mem_cons.mpr ⟨?_, hnone⟩)
      exact fun howner => absurd (sameOwner_iff.mpr howner) hown

/-- Every lock that the caller has in the range is of the type of the request. -/
def OwnAlike (ls : List PosixLock) (lock : PosixLock) : Prop :=
  ∀ l ∈ ls, l.owner = lock.owner → locksOverlap l lock = true → l.flType = lock.flType
deriving Decidable

theorem OwnAlike.ownReads (h : OwnAlike ls lock) (hnone : ownConflict lock ls = none) :
    ∀ l ∈ ls, OwnReads l lock := by
  intro l hl hown hov
  rcases ownConflict_none_cases hnone with hapart | hread
  · exact absurd hov (by simp [hapart l hl hown])
  · exact ⟨(h l hl hown hov).trans hread, hread⟩

theorem ownAlike_of_ownReads (h : ∀ l ∈ ls, OwnReads l lock) : OwnAlike ls lock := by
  intro l hl hown hov
  obtain ⟨hread, hread'⟩ := h l hl hown hov
  rw [hread, hread']

theorem addLocks_covers_iff (h : locksOverlap l2 l1 = true) :
    (addLocks l1 l2 of).covers b ↔ l1.covers b ∨ l2.covers b := by
  refine ⟨addLocks_covers h, ?_⟩
  simp only [PosixLock.covers, addLocks]
  omega

theorem locksOverlap_addLocks (hord : l.Ordered) (h : locksOverlap l2 l1 = true)
    (hl : locksOverlap l (addLocks l1 l2 of) = true) :
    locksOverlap l l1 = true ∨ locksOverlap l l2 = true := by
  simp only [locksOverlap_iff, addLocks, PosixLock.Ordered] at *
  omega

theorem holds_append : Holds (ls ++ ls') owner b t ↔ Holds ls owner b t ∨ Holds ls' owner b t := by
  simp only [Holds, mem_append, or_and_right, exists_or]

theorem holds_cons :
    Holds (l :: ls) owner b t ↔ (l.blocked = false ∧ l.owner = owner ∧ l.covers b ∧ l.flType = t) ∨
        Holds ls owner b t := by
  simp [Holds]

theorem holds_split :
    Holds (before ++ conf :: after) owner b t ↔ Holds (before ++ after) owner b t ∨
        (conf.blocked = false ∧ conf.owner = owner ∧ conf.covers b ∧ conf.flType = t) := by
  rw [holds_append, holds_cons, holds_append]
  tauto

theorem Settled.rest (h : Settled (before ++ conf :: after)) : Settled (before ++ after) := by
  exact h.sublist ((List.Sublist.refl before).append (sublist_cons_self conf after))

theorem Settled.ownReads_conflict (h : Settled (before ++ conf :: after)) (hl : l ∈ before ++ after)
    : OwnReads l conf := by
  have hown := h.own
  rw [pairwise_append, pairwise_cons] at hown
  rcases mem_append.mp hl with hl | hl
  · exact hown.2.2 l hl conf (by simp)
  · exact symm (hown.2.1.1 l hl)

theorem setsRange_plInsertLock (hgr : lock.blocked = false) (hlkd : lock.flType ≠ .unlck)
    (hown : ∀ l ∈ ls, OwnReads l lock) : SetsRange ls (plInsertLock ls lock) lock := by
  intro owner b t
  unfold plInsertLock
  rw [holds_append, holds_cons]
  split_ifs with hhere
  · obtain ⟨rfl, hb⟩ := hhere
    constructor
    · rintro (⟨l, hl, _, howner, hb', rfl⟩ | ⟨_, _, _, rfl⟩ | hnil)
      · have hrds := hown l hl howner (locksOverlap_of_covers hb' hb)
        rw [hrds.1, hrds.2]
        exact ⟨rfl, by decide⟩
      · exact ⟨rfl, hlkd⟩
      · simp [Holds] at hnil
    · rintro ⟨rfl, _⟩
      exact .inr (.inl ⟨hgr, rfl, hb, rfl⟩)
  · constructor
    · rintro (hold | ⟨_, rfl, hb, rfl⟩ | hnil)
      · exact hold
      · exact absurd ⟨rfl, hb⟩ hhere
      · simp [Holds] at hnil
    · exact .inl

theorem setsRange_of_sum (hset : Settled (before ++ conf :: after))
    (hov : locksOverlap conf lock = true) (howner : conf.owner = lock.owner)
    (htype : conf.flType = lock.flType)
    (h : SetsRange (before ++ after) ls' (addLocks lock conf lock)) :
    SetsRange (before ++ conf :: after) ls' lock := by
  have hmem : conf ∈ before ++ conf :: after := by simp
  intro owner b t
  have hsum := h owner b t
  have hfields : (addLocks lock conf lock).owner = lock.owner ∧
      (addLocks lock conf lock).flType = lock.flType := ⟨rfl, rfl⟩
  simp only [hfields.1, hfields.2, addLocks_covers_iff hov] at hsum
  rw [hsum]
  by_cases hown : owner = lock.owner
  · by_cases hlock : lock.covers b
    · simp [hown, hlock]
    · by_cases hconf : conf.covers b
      · have hheld : Holds (before ++ conf :: after) conf.owner b t ↔
            t = conf.flType := hset.holds_iff hmem hconf
        rw [howner, htype] at hheld
        have hlkd := hset.locked conf hmem
        rw [htype] at hlkd
        simp only [hown, hlock, hconf, hheld, true_and, or_true, if_true, if_false,
          and_iff_left_iff_imp]
        intro ht
        rw [ht]
        exact hlkd
      · simp [hconf, holds_split]
  · have hne : conf.owner ≠ owner := by
      rw [howner]
      exact Ne.symm hown
    simp [hown, holds_split, hne]

/-- A part of the lock `conf` outside the request. -/
structure Outer (lock conf p : PosixLock) : Prop where
  ordered : p.Ordered
  granted : p.blocked = false
  owner : p.owner = conf.owner
  flType : p.flType = conf.flType
  covers : ∀ b, p.covers b → conf.covers b ∧ ¬ lock.covers b

theorem outer_left (hov : locksOverlap conf lock = true)
    (hlt : (addLocks lock conf conf).flStart < lock.flStart) :
    Outer lock conf { addLocks lock conf conf with flEnd := lock.flStart - 1 } := by
  refine ⟨?_, rfl, rfl, rfl, ?_⟩
  · simp only [PosixLock.Ordered]
    omega
  · intro b
    rw [locksOverlap_iff] at hov
    simp only [PosixLock.covers, addLocks] at *
    omega

theorem outer_right (hov : locksOverlap conf lock = true)
    (hlt : lock.flEnd < (addLocks lock conf conf).flEnd) :
    Outer lock conf { addLocks lock conf conf with flStart := lock.flEnd + 1 } := by
  refine ⟨?_, rfl, rfl, rfl, ?_⟩
  · simp only [PosixLock.Ordered]
    omega
  · intro b
    rw [locksOverlap_iff] at hov
    simp only [PosixLock.covers, addLocks] at *
    omega

/-- The parts of `conf` that are inserted before and after the request. -/
structure OuterParts (lock conf : PosixLock) (first second : Option PosixLock) : Prop where
  outerFirst : ∀ p ∈ first, Outer lock conf p
  outerSecond : ∀ p ∈ second, Outer lock conf p
  apart : ∀ x ∈ first, ∀ y ∈ second, locksOverlap x y = false
  all : ∀ b, conf.covers b → ¬ lock.covers b → (∃ p ∈ first, p.covers b) ∨ ∃ p ∈ second, p.covers b

theorem subtractLocks_conflict (hord : lock.Ordered) (hgr : lock.blocked = false)
    (hown : conf.owner = lock.owner) (hov : locksOverlap conf lock = true) :
    ∃ first second frame, subtractLocks (addLocks lock conf conf) lock =
        Option.toList first ++ { lock with frame := frame } :: Option.toList second ∧
      OuterParts lock conf first second := by
  have hst := addLocks_start_le lock conf conf
  have hend := le_addLocks_end lock conf conf
  have hcov : ∀ b, conf.covers b → ¬ lock.covers b →
      (addLocks lock conf conf).flStart ≤ b ∧ b ≤ lock.flStart - 1 ∨
        lock.flEnd + 1 ≤ b ∧ b ≤ (addLocks lock conf conf).flEnd := by
    intro b
    simp only [PosixLock.covers, addLocks]
    omega
  unfold subtractLocks
  split_ifs with hboth hin hfst hlast
  · refine ⟨none, none, none, ?_, ?_⟩
    · obtain ⟨hpid, htra⟩ := Prod.mk.inj hown
      simp only [addLocks] at hboth
      simp [addLocks, hboth, hgr, hpid, htra]
    · refine ⟨by simp, by simp, by simp, ?_⟩
      intro b hconf hlock
      have hb := hcov b hconf hlock
      omega
  · refine ⟨some _, some _, lock.frame, rfl, ?_⟩
    constructor
    · rintro _ ⟨⟩
      exact outer_left hov hin.1
    · rintro _ ⟨⟩
      exact outer_right hov hin.2
    · rintro _ ⟨⟩ _ ⟨⟩
      simp only [PosixLock.Ordered] at hord
      simp only [locksOverlap, Bool.and_eq_false_iff, decide_eq_false_iff_not]
      omega
    · intro b hconf hlock
      rcases hcov b hconf hlock with hb | hb
      · exact .inl ⟨_, rfl, hb⟩
      · exact .inr ⟨_, rfl, hb⟩
  · refine ⟨some _, none, lock.frame, rfl, ?_⟩
    refine ⟨?_, by simp, by simp, ?_⟩
    · rintro _ ⟨⟩
      exact outer_right hov (by omega)
    · intro b hconf hlock
      rcases hcov b hconf hlock with hb | hb
      · omega
      · exact .inl ⟨_, rfl, hb⟩
  · refine ⟨some _, none, lock.frame, rfl, ?_⟩
    refine ⟨?_, by simp, by simp, ?_⟩
    · rintro _ ⟨⟩
      exact outer_left hov (by omega)
    · intro b hconf hlock
      rcases hcov b hconf hlock with hb | hb
      · exact .inl ⟨_, rfl, hb⟩
      · omega
  · omega

end GlusterFS.Locks
