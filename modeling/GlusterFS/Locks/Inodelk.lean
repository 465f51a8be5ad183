import GlusterFS.Locks.PosixLk

/-!
# Posix-locks: the internal locks of `inodelk`

`pl_inodelk` and `pl_finodelk` keep write locks in the internal list of an inode.
The locks are not merged: each answer with 0 is one entry, and an unlock takes out
one entry with the same owner and range.

`outstanding` is what the callers know from the answers they got.  A blocking
request that cannot be granted is put into the list like a granted one, and
answered with -1, so the list and the answers agree exactly as long as no such
request comes in.
-/

namespace GlusterFS.Locks

open Run List

inductive InodelkCmd where
  | setlk
  | setlkw
  | getlk
deriving DecidableEq

/-- A call for a process; the last byte of its range is an offset. -/
structure InodelkCall where
  frame : Frame
  transport : Transport
  pid : Int
  cmd : InodelkCmd
  flock : Flock
  process : pid ≠ 0
  endFits : flock.lStart + flock.lLen - 1 ≤ LLONG_MAX

inductive InodelkErrno where
  | none
  | einval
  | eagain
  | enotsup

structure InodelkReply where
  opRet : Int
  opErrno : InodelkErrno

def InodelkCall.lock (call : InodelkCall) : PosixLock :=
  { newPosixLock call.flock call.transport call.pid with
    frame := if call.cmd = .setlkw then some call.frame else Option.none }

def exactMatch (lock l : PosixLock) : Bool :=
  sameOwner l lock && l.flStart == lock.flStart && l.flEnd == lock.flEnd

def findExactMatchingLock (ls : List PosixLock) (lock : PosixLock) : Option PosixLock :=
  ls.find? (exactMatch lock)

def inodelkSet (ls : List PosixLock) (call : InodelkCall) : List PosixLock × InodelkReply :=
  match call.flock.lType with
  | .wrlck =>
    if plIsLockGrantable ls call.lock then
      (plInsertLock ls call.lock, ⟨0, .none⟩)
    else if call.cmd = .setlkw then
      (plInsertLock ls call.lock, ⟨-1, .none⟩)
    else
      (ls, ⟨-1, .eagain⟩)
  | .unlck =>
    match findExactMatchingLock ls call.lock with
    | none => (ls, ⟨-1, .einval⟩)
    | some _ => (ls.eraseP (exactMatch call.lock), ⟨0, .none⟩)
  | .rdlck => (ls, ⟨-1, .enotsup⟩)

def plInodelkCommon (ls : List PosixLock) (call : InodelkCall) : List PosixLock × InodelkReply :=
  if call.flock.lStart < 0 ∨ call.flock.lLen < 0 then
    (ls, ⟨-1, .einval⟩)
  else if call.cmd = .getlk then
    (ls, ⟨-1, .enotsup⟩)
  else
    inodelkSet ls call

/-- The internal list, and the calls with their answers. -/
structure InodelkState where
  intList : List PosixLock
  answered : List (InodelkCall × InodelkReply)

def InodelkState.empty : InodelkState where
  intList := []
  answered := []

def inodelkStep (s : InodelkState) (call : InodelkCall) : Option InodelkState :=
  some
    { intList := (plInodelkCommon s.intList call).1
      answered := s.answered ++ [(call, (plInodelkCommon s.intList call).2)] }

def PosixLock.key (l : PosixLock) : (Int × Transport) × Int × Int :=
  (l.owner, l.flStart, l.flEnd)

/-- What an answer tells the caller about the locks it has. -/
def settle (held : List ((Int × Transport) × Int × Int)) (r : InodelkCall × InodelkReply) :
    List ((Int × Transport) × Int × Int) :=
  if r.2.opRet = 0 then
    match r.1.flock.lType with
    | .wrlck => held ++ [r.1.lock.key]
    | .unlck => held.erase r.1.lock.key
    | .rdlck => held
  else
    held

def outstanding (answered : List (InodelkCall × InodelkReply)) :
    List ((Int × Transport) × Int × Int) :=
  answered.foldl settle []

/-- The granted entries are the outstanding locks, and no two owners share a byte. -/
structure Accounted (s : InodelkState) : Prop where
  entries : ((s.intList.filter (fun l => !l.blocked)).map PosixLock.key).Perm
    (outstanding s.answered)
  exclusive : ∀ l1 ∈ s.intList, ∀ l2 ∈ s.intList,
    l1.blocked = false → l2.blocked = false → l1.owner ≠ l2.owner →
      ∀ b, ¬ (l1.covers b ∧ l2.covers b)

/-- A blocking request for a lock can be granted at once. -/
def GrantedAtOnce (s : InodelkState) (call : InodelkCall) : Prop :=
  call.cmd = .setlkw → call.flock.lType = .wrlck → 0 ≤ call.flock.lStart → 0 ≤ call.flock.lLen →
      plIsLockGrantable s.intList call.lock = true
deriving Decidable

inductive Inodelk (ls : List PosixLock) (call : InodelkCall) :
    List PosixLock × InodelkReply → Prop
  | refused {errno : InodelkErrno} :
      Inodelk ls call (ls, ⟨-1, errno⟩)
  | granted :
      call.flock.lType = .wrlck →
      plIsLockGrantable ls call.lock = true →
      Inodelk ls call (plInsertLock ls call.lock, ⟨0, .none⟩)
  | kept :
      call.flock.lType = .wrlck → call.cmd = .setlkw →
      0 ≤ call.flock.lStart → 0 ≤ call.flock.lLen →
      plIsLockGrantable ls call.lock = false →
      Inodelk ls call (plInsertLock ls call.lock, ⟨-1, .none⟩)
  | unlocked :
      call.flock.lType = .unlck →
      Inodelk ls call (ls.eraseP (exactMatch call.lock), ⟨0, .none⟩)

theorem plInodelkCommon_inodelk (ls : List PosixLock) (call : InodelkCall) :
    Inodelk ls call (plInodelkCommon ls call) := by
  unfold plInodelkCommon
  split_ifs with hrng hcmd
  · exact .refused
  · exact .refused
  · unfold inodelkSet
    cases htype : call.flock.lType with
    | rdlck => exact .refused
    | wrlck =>
      split_ifs with hgrant hblo
      · exact .granted htype hgrant
      · exact .kept htype hblo (by omega) (by omega) (by simpa using hgrant)
      · exact .refused
    | unlck =>
      cases findExactMatchingLock ls call.lock with
      | none => exact .refused
      | some l => exact .unlocked htype

variable {s s' : InodelkState} {call : InodelkCall}

theorem plInodelkCommon_of_not_grantedAtOnce (h : ¬ GrantedAtOnce s call) :
    plInodelkCommon s.intList call = (plInsertLock s.intList call.lock, ⟨-1, .none⟩) := by
  simp only [GrantedAtOnce, Classical.not_imp] at h
  obtain ⟨hcmd, htype, hst, hlen, hgrant⟩ := h
  have hrng : ¬ (call.flock.lStart < 0 ∨ call.flock.lLen < 0) := by omega
  simp [plInodelkCommon, inodelkSet, hrng, hcmd, htype, hgrant]

theorem exactMatch_eq_key (lock : PosixLock) : exactMatch lock = fun l => l.key == lock.key := by
  funext l
  rw [Bool.eq_iff_iff]
  simp [exactMatch, PosixLock.key, and_assoc]

theorem map_key_eraseP (ls : List PosixLock) (lock : PosixLock) :
    (ls.eraseP (exactMatch lock)).map PosixLock.key = (ls.map PosixLock.key).erase lock.key := by
  rw [exactMatch_eq_key, erase_eq_eraseP', eraseP_map]
  rfl

theorem outstanding_concat
    (answered : List (InodelkCall × InodelkReply)) (r : InodelkCall × InodelkReply) :
    outstanding (answered ++ [r]) = settle (outstanding answered) r := by
  simp [outstanding]

/-- Write locks, none of them marked as waiting, that agree with the answers. -/
structure Booked (s : InodelkState) : Prop where
  granted : ∀ l ∈ s.intList, l.blocked = false
  writes : ∀ l ∈ s.intList, l.flType = .wrlck
  entries : (s.intList.map PosixLock.key).Perm (outstanding s.answered)
  exclusive : ∀ l1 ∈ s.intList, ∀ l2 ∈ s.intList, l1.owner ≠ l2.owner → locksOverlap l1 l2 = false

theorem Booked.accounted (h : Booked s) : Accounted s := by
  have hall : s.intList.filter (fun l => !l.blocked) = s.intList := by
    rw [filter_eq_self]
    intro l hl
    simp [h.granted l hl]
  refine ⟨?_, ?_⟩
  · rw [hall]
    exact h.entries
  · rintro l1 h1 l2 h2 _ _ hne b ⟨hb1, hb2⟩
    have hap := h.exclusive l1 h1 l2 h2 hne
    simp [locksOverlap_of_covers hb1 hb2] at hap

theorem Booked.refused {errno : InodelkErrno} (h : Booked s) :
    Booked ⟨s.intList, s.answered ++ [(call, ⟨-1, errno⟩)]⟩ := by
  refine ⟨h.granted, h.writes, ?_, h.exclusive⟩
  rw [outstanding_concat]
  exact h.entries

theorem Booked.insert (h : Booked s) (htype : call.flock.lType = .wrlck)
    (hgrant : plIsLockGrantable s.intList call.lock = true) :
    Booked ⟨plInsertLock s.intList call.lock, s.answered ++ [(call, ⟨0, .none⟩)]⟩ := by
  have hwr : call.lock.flType = .wrlck := htype
  have hmem : ∀ l ∈ plInsertLock s.intList call.lock, l ∈ s.intList ∨ l = call.lock := by
    intro l hl
    simpa [plInsertLock] using hl
  have hap : ∀ l ∈ s.intList, l.owner ≠ call.lock.owner → locksOverlap call.lock l = false := by
    intro l hl hne
    by_contra hov
    rw [Bool.not_eq_false] at hov
    have hlkd : call.lock.flType ≠ .unlck := by
      rw [hwr]
      decide
    exact ((plIsLockGrantable_iff hlkd).mp hgrant l hl (h.granted l hl) hne hov).2 hwr
  refine ⟨?_, ?_, ?_, ?_⟩
  · exact forall_mem_append.mpr ⟨h.granted, forall_mem_singleton.mpr rfl⟩
  · exact forall_mem_append.mpr ⟨h.writes, forall_mem_singleton.mpr hwr⟩
  · rw [outstanding_concat]
    simpa [plInsertLock, settle, htype] using h.entries.append_right [call.lock.key]
  · intro l1 h1 l2 h2 hne
    rcases hmem l1 h1 with h1 | rfl
    · rcases hmem l2 h2 with h2 | rfl
      · exact h.exclusive l1 h1 l2 h2 hne
      · rw [locksOverlap_comm]
        exact hap l1 h1 hne
    · rcases hmem l2 h2 with h2 | rfl
      · exact hap l2 h2 (Ne.symm hne)
      · exact absurd rfl hne

theorem Booked.unlock (h : Booked s) (htype : call.flock.lType = .unlck) :
    Booked ⟨s.intList.eraseP (exactMatch call.lock), s.answered ++ [(call, ⟨0, .none⟩)]⟩ := by
  have hsub : s.intList.eraseP (exactMatch call.lock) ⊆ s.intList := eraseP_subset
  refine ⟨fun l hl => h.granted l (hsub hl), fun l hl => h.writes l (hsub hl), ?_,
    fun l1 h1 l2 h2 => h.exclusive l1 (hsub h1) l2 (hsub h2)⟩
  rw [outstanding_concat, map_key_eraseP]
  simpa [settle, htype] using h.entries.erase _

theorem Booked.step (h : Booked s) (honce : GrantedAtOnce s call)
    (hstep : inodelkStep s call = some s') : Booked s' := by
  have hcall := plInodelkCommon_inodelk s.intList call
  simp only [inodelkStep, Option.some.injEq] at hstep
  subst hstep
  generalize plInodelkCommon s.intList call = r at hcall ⊢
  cases hcall with
  | refused => exact h.refused
  | granted htype hgrant => exact h.insert htype hgrant
  | kept htype hcmd hst hlen hgrant =>
    simp [honce hcmd htype hst hlen] at hgrant
  | unlocked htype => exact h.unlock htype

theorem not_accounted_of_kept (h : Accounted s) (honce : ¬ GrantedAtOnce s call)
    (hstep : inodelkStep s call = some s') : ¬ Accounted s' := by
  intro h'
  simp only [inodelkStep, plInodelkCommon_of_not_grantedAtOnce honce, Option.some.injEq] at hstep
  subst hstep
  have hlen := h.entries.length_eq
  have hlen' := h'.entries.length_eq
  have hblk : call.lock.blocked = false := rfl
  simp only [outstanding_concat, settle, plInsertLock, filter_append, map_append,
    length_append] at hlen hlen'
  simp [hblk] at hlen hlen'
  omega

def AlwaysAccounted (calls : List InodelkCall) : Prop :=
  ∀ before, before <+: calls → ∃ s, run inodelkStep InodelkState.empty before = some s ∧ Accounted s

/--
The list and the answers agree after every call of a run if and only if every
blocking request for a lock could be granted at once.
-/
theorem alwaysAccounted_iff (calls : List InodelkCall) :
    AlwaysAccounted calls ↔ AllSteps inodelkStep GrantedAtOnce InodelkState.empty calls := by
  have hemp : Booked InodelkState.empty := by
    refine ⟨?_, ?_, ?_, ?_⟩ <;> simp [InodelkState.empty, outstanding]
  refine always_iff_allSteps inodelkStep (P := fun _ s => Accounted s) hemp ?_
    (fun _ _ => Booked.accounted) (fun _ _ _ _ h => not_accounted_of_kept h.accounted) calls
  intro _ s call h honce
  exact ⟨_, rfl, h.step honce rfl⟩

def inodelkOf (pid : Int) (cmd : InodelkCmd) (t : FlType) (hpid : pid ≠ 0) :
    InodelkCall where
  frame := 0
  transport := 0
  pid := pid
  cmd := cmd
  flock := ⟨t, 0, 11, 0⟩
  process := hpid
  endFits := lastByte_le

def askForHeld : List InodelkCall :=
  [inodelkOf 1 .setlk .wrlck (by decide), inodelkOf 2 .setlkw .wrlck (by decide)]

theorem not_alwaysAccounted_askForHeld : ¬ AlwaysAccounted askForHeld := by
  intro h
  obtain ⟨s, hs, hacc⟩ := h askForHeld (prefix_refl _)
  cases hs
  have hlen := hacc.entries.length_eq
  revert hlen
  decide

end GlusterFS.Locks
