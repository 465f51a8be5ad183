import Mathlib.Data.List.Perm.Subperm
import GlusterFS.Locks.Entrylk

/-!
# Posix-locks: the entry locks of other clients

An unlock request names no owner: `__unlock_name` takes the lock that matches the
name and the type, and never looks at the transport that holds it.  So the locks of
the other clients are safe from a request exactly when the lock that it matches is a
lock of its own client.

`StillLinked` follows one lock through the retried requests by its address, and the
frames of the queues are bounded from above, since a retry that faults drops them.
-/

namespace GlusterFS.Locks

open Run List

/-- Both parts of an unlock call, or the release of all locks for the pid 0. -/
def unlockGrants (d : Cells EntryLock) (call : EntrylkCall) : Grants :=
  if call.pid = 0 then
    releaseEntryLocksForTransport d call.trans
  else
    match unlockName d call.basename call.type with
    | none => ⟨d, [], true⟩
    | some (d', none) => ⟨d', [], false⟩
    | some (d', some lock) => grantBlockedEntryLocks ⟨d', [], false⟩ lock

variable {call : EntrylkCall} {d : Cells EntryLock} {c : Nat × EntryLock} {addr : Nat}
  {req : BlockedLock} {nonblock : Bool} {r : Cells EntryLock × LockNameRet} {g : Grants}
  {trans : Transport}

theorem plEntrylkCommon_unlock {s : EntrylkState} (hcmd : call.cmd = .unlock)
    (hnone : s.released = []) :
    plEntrylkCommon s call = s.unwindGrants [] (unlockGrants s.dir call) call.frame := by
  unfold plEntrylkCommon EntrylkCall.sections unlockGrants
  split_ifs with hpid
  · simp only [run_cons, run_nil, sectionStep, Option.bind_fun_some, hnone]
  · simp only [hcmd, run_cons, sectionStep, unlockSection]
    cases hunlo : unlockName s.dir call.basename call.type with
    | none => rfl
    | some r =>
      obtain ⟨d, unlocked⟩ := r
      cases unlocked with
      | none | some lock => simp [grantSection, hnone, EntrylkState.unwindGrants]

theorem retryBlocked_frames (g : Grants) (bl : BlockedLock) :
    (retryBlocked g bl).frames.Subperm (bl.frame :: g.frames) := by
  have hdrop : g.frames.Subperm (bl.frame :: g.frames) :=
    (sublist_cons_self bl.frame g.frames).subperm
  unfold retryBlocked
  split_ifs with hflt
  · exact hdrop
  · cases hr : lockName g.dir bl false with
    | none => exact hdrop
    | some r =>
      obtain ⟨d, ret⟩ := r
      have hfrs := (lockName_spec hr).frames
      cases ret with
      | zero => exact ((hfrs.append_left _).cons _).subperm
      | eagain => exact ((hfrs.append_left _).trans perm_middle).subperm

theorem foldl_retryBlocked_frames (bls : List BlockedLock) (g : Grants) :
    (bls.foldl retryBlocked g).frames.Subperm (bls.map (fun bl => bl.frame) ++ g.frames) := by
  induction bls generalizing g with
  | nil => exact List.Subperm.refl _
  | cons bl bls ih =>
    refine (ih (retryBlocked g bl)).trans ?_
    refine ((subperm_append_left _).mpr (retryBlocked_frames g bl)).trans ?_
    exact perm_middle.subperm

theorem grantBlockedEntryLocks_frames {granted : List BlockedLock} {fault : Bool} {lock : EntryLock}
    (hc : c ∈ d.cells) (hlock : lock.blockedLocks = c.2.blockedLocks) :
    (grantBlockedEntryLocks ⟨d.del c.1, granted, fault⟩ lock).frames.Subperm
      (Grants.frames ⟨d, granted, fault⟩) := by
  refine (foldl_retryBlocked_frames lock.blockedLocks _).trans ?_
  rw [hlock]
  refine ((perm_append_comm_assoc _ _ _).trans ?_).subperm
  exact (queuedFrames_del hc).append_left _

theorem releaseAt_frames (trans : Transport) (g : Grants) (addr : Nat) :
    (releaseAt trans g addr).frames.Subperm g.frames := by
  unfold releaseAt
  split_ifs with hflt
  · exact List.Subperm.refl _
  · cases hfind : g.dir.cells.find? (fun c => c.1 == addr) with
    | none => exact List.Subperm.refl _
    | some c =>
      have haddr : c.1 = addr := by simpa using find?_some hfind
      subst haddr
      simp only
      split_ifs
      · exact List.Subperm.refl _
      · exact List.Subperm.refl _
      · exact grantBlockedEntryLocks_frames (mem_of_find?_eq_some hfind) rfl

theorem foldl_releaseAt_frames (trans : Transport) (addrs : List Nat) (g : Grants) :
    (addrs.foldl (releaseAt trans) g).frames.Subperm g.frames := by
  induction addrs generalizing g with
  | nil => exact List.Subperm.refl _
  | cons addr addrs ih => exact (ih (releaseAt trans g addr)).trans (releaseAt_frames trans g addr)

theorem unlockGrants_frames (d : Cells EntryLock) (call : EntrylkCall) :
    (unlockGrants d call).frames.Subperm (queuedFrames d.cells) := by
  unfold unlockGrants
  split_ifs with hpid
  · exact foldl_releaseAt_frames call.trans _ ⟨d, [], false⟩
  · cases hr : unlockName d call.basename call.type with
    | none => exact List.Subperm.refl _
    | some r =>
      cases unlockName_spec hr with
      | unmatched => exact List.Subperm.refl _
      | @counted c hc =>
        obtain ⟨before, after, hsp, hbef, haft⟩ := Cells.exists_split hc.mem
        refine (List.Perm.of_eq ?_).subperm
        simp only [Grants.frames]
        rw [Cells.modify_of_split _ hsp hbef haft, hsp]
        simp [queuedFrames]
      | removed hc hlock => exact grantBlockedEntryLocks_frames hc.mem hlock

/-- A lock as it was, with more requests in its queue, or with one more reader. -/
structure Kept (l l' : EntryLock) : Prop where
  name : l'.basename = l.basename ∧ l'.type = l.type
  trans : l'.trans = l.trans
  count : l'.readCount = l.readCount ∧ l'.freed = l.freed ∨
    l'.readCount = l.readCount + 1 ∧ l'.freed = true
  queue : l.blockedLocks <:+ l'.blockedLocks

def StillLinked (c : Nat × EntryLock) (d : Cells EntryLock) : Prop :=
  ∃ l, (c.1, l) ∈ d.cells ∧ Kept c.2 l

theorem stillLinked_self (hc : c ∈ d.cells) : StillLinked c d := by
  exact ⟨c.2, hc, ⟨rfl, rfl⟩, rfl, .inl ⟨rfl, rfl⟩, suffix_refl _⟩

theorem StillLinked.modify {f : EntryLock → EntryLock} (h : StillLinked c d)
    (hf : c.1 = addr → ∀ l, (c.1, l) ∈ d.cells → Kept c.2 l → Kept c.2 (f l)) :
    StillLinked c (d.modify addr f) := by
  obtain ⟨l, hl, hkept⟩ := h
  have hmem := Cells.mem_modify_of_mem addr f hl
  by_cases haddr : c.1 = addr
  · exact ⟨f l, by simpa [haddr] using hmem, hf haddr l hl hkept⟩
  · exact ⟨l, by simpa [haddr] using hmem, hkept⟩

theorem LockName.stillLinked (hname : LockName d req nonblock r) (h : StillLinked c d) :
    StillLinked c r.1 := by
  cases hname with
  | added =>
    obtain ⟨l, hl, hkept⟩ := h
    exact ⟨l, mem_cons_of_mem _ hl, hkept⟩
  | counted _ _ hlive =>
    refine h.modify ?_
    rintro _ l hl ⟨hname, htr, hcnt, hqu⟩
    have hfreed := hlive _ hl
    rcases hcnt with ⟨hsame, _⟩ | ⟨_, hgone⟩
    · exact ⟨hname, htr, .inr ⟨by rw [← hsame], rfl⟩, hqu⟩
    · rw [hfreed] at hgone
      cases hgone
  | hung =>
    refine h.modify ?_
    rintro _ l _ ⟨hname, htr, hcnt, hqu⟩
    exact ⟨hname, htr, hcnt, hqu.trans (suffix_cons req l.blockedLocks)⟩
  | refused => exact h

theorem foldl_retryBlocked_keeps {P : Cells EntryLock → Prop} {bls : List BlockedLock}
    (hname : ∀ d, ∀ bl ∈ bls, ∀ r, LockName d bl false r → P d → P r.1) (h : P g.dir) :
    P (bls.foldl retryBlocked g).dir := by
  induction bls generalizing g with
  | nil => exact h
  | cons bl bls ih =>
    refine ih (fun d bl' hbl' => hname d bl' (mem_cons_of_mem bl hbl')) ?_
    unfold retryBlocked
    split_ifs with hflt
    · exact h
    · cases hr : lockName g.dir bl false with
      | none => exact h
      | some r =>
        have hkeeps := hname g.dir bl mem_cons_self r (lockName_spec hr) h
        obtain ⟨d, ret⟩ := r
        cases ret with
        | zero => exact hkeeps
        | eagain => exact hkeeps

theorem StillLinked.foldl_retryBlocked (h : StillLinked c g.dir) (bls : List BlockedLock) :
    StillLinked c (bls.foldl retryBlocked g).dir := by
  exact foldl_retryBlocked_keeps (fun _ _ _ _ hname => hname.stillLinked) h

theorem StillLinked.del {c' : Nat × EntryLock} (h : StillLinked c d) (hc' : c' ∈ d.cells)
    (htr : c.2.trans ≠ c'.2.trans) : StillLinked c (d.del c'.1) := by
  obtain ⟨l, hl, hkept⟩ := h
  refine ⟨l, Cells.mem_del_iff.mpr ⟨hl, ?_⟩, hkept⟩
  intro haddr
  have hsame := Cells.eq_of_mem hl hc' haddr
  rw [← hsame] at htr
  exact htr hkept.trans.symm

theorem StillLinked.releaseAt (h : StillLinked c g.dir) (htr : c.2.trans ≠ trans) (addr : Nat) :
    StillLinked c (releaseAt trans g addr).dir := by
  unfold Locks.releaseAt
  split_ifs with hflt
  · exact h
  · cases hfind : g.dir.cells.find? (fun c => c.1 == addr) with
    | none => exact h
    | some c' =>
      have hc' : c' ∈ g.dir.cells := mem_of_find?_eq_some hfind
      have haddr : c'.1 = addr := by simpa using find?_some hfind
      subst haddr
      simp only
      split_ifs with hfreed hoth
      · exact h
      · exact h
      · rw [not_not] at hoth
        rw [← hoth] at htr
        exact foldl_retryBlocked (g := ⟨g.dir.del c'.1, _, _⟩)
          (h.del hc' htr) c'.2.blockedLocks

theorem StillLinked.foldl_releaseAt (h : StillLinked c g.dir) (htr : c.2.trans ≠ trans)
    (addrs : List Nat) : StillLinked c (addrs.foldl (Locks.releaseAt trans) g).dir := by
  induction addrs generalizing g with
  | nil => exact h
  | cons addr addrs ih => exact ih (h.releaseAt htr addr)

theorem stillLinked_unlockGrants
    (hown : call.pid ≠ 0 → ∀ c, Unlocks d call.basename call.type c → c.2.trans = call.trans)
    (hc : c ∈ d.cells) (htr : c.2.trans ≠ call.trans) :
    StillLinked c (unlockGrants d call).dir := by
  have hself := stillLinked_self hc
  unfold unlockGrants
  split_ifs with hpid
  · exact StillLinked.foldl_releaseAt (g := ⟨d, [], false⟩) hself htr _
  · cases hr : unlockName d call.basename call.type with
    | none => exact hself
    | some r =>
      cases unlockName_spec hr with
      | unmatched => exact hself
      | @counted c' hc' =>
        refine hself.modify ?_
        intro haddr
        rw [Cells.eq_of_mem hc hc'.mem haddr] at htr
        exact absurd (hown hpid c' hc') htr
      | @removed c' lock hc' =>
        refine StillLinked.foldl_retryBlocked (g := ⟨d.del c'.1, [], false⟩) ?_ _
        refine hself.del hc'.mem ?_
        rw [hown hpid c' hc']
        exact htr

/--
The locks that other transports hold are still linked and have lost no reader, and
none of the requests that wait for them is granted.
-/
structure Protected (d : Cells EntryLock) (trans : Transport) (g : Grants) : Prop where
  held : ∀ c ∈ d.cells, c.2.trans ≠ trans →
    ∃ l, (c.1, l) ∈ g.dir.cells ∧ (l.readCount = c.2.readCount ∨ l.readCount = c.2.readCount + 1)
  waiting : ∀ c ∈ d.cells, c.2.trans ≠ trans → ∀ bl ∈ c.2.blockedLocks,
    bl.frame ∉ g.granted.map (fun bl => bl.frame)

theorem not_granted_of_queued {frame : Frame} (hfrs : (queuedFrames d.cells).Nodup)
    (hsub : g.frames.Subperm (queuedFrames d.cells)) (hque : frame ∈ queuedFrames g.dir.cells) :
    frame ∉ g.granted.map (fun bl => bl.frame) := by
  intro hgr
  have hle := (hsub.count_le frame).trans (nodup_iff_count_le_one.mp hfrs frame)
  rw [← count_pos_iff] at hque hgr
  rw [Grants.frames, count_append] at hle
  omega

/-- A lock that is taken out does not come back at its address. -/
def Gone (addr : Nat) (d : Cells EntryLock) : Prop :=
  addr < d.next ∧ ∀ l, (addr, l) ∉ d.cells

theorem LockName.gone (hname : LockName d req nonblock r) (h : Gone addr d) : Gone addr r.1 := by
  obtain ⟨hlt, hnot⟩ := h
  have hmod : ∀ a f, Gone addr (d.modify a f) := by
    intro a f
    refine ⟨hlt, ?_⟩
    intro l hl
    rcases Cells.mem_modify hl with ⟨hl, _⟩ | ⟨x, hx, heq⟩
    · exact hnot l hl
    · cases heq
      exact hnot x hx
  cases hname with
  | added =>
    refine ⟨Nat.lt_succ_of_lt hlt, ?_⟩
    intro l hl
    rcases mem_cons.mp hl with heq | hl
    · cases heq
      exact Nat.lt_irrefl _ hlt
    · exact hnot l hl
  | counted | hung => exact hmod _ _
  | refused => exact ⟨hlt, hnot⟩

theorem unlocked_changes (hpid : call.pid ≠ 0) (hc : Unlocks d call.basename call.type c) :
    ∀ l, (c.1, l) ∈ (unlockGrants d call).dir.cells →
      l.readCount ≠ c.2.readCount ∧ l.readCount ≠ c.2.readCount + 1 := by
  unfold unlockGrants
  rw [if_neg hpid]
  cases hr : unlockName d call.basename call.type with
  | none =>
    simp [unlockName, hc.1] at hr
  | some r =>
    cases unlockName_spec hr with
    | unmatched hnone => exact absurd hc (hnone c)
    | @counted c' hc' =>
      obtain rfl := hc.unique hc'
      intro l hl
      rcases Cells.mem_modify hl with ⟨_, hne⟩ | ⟨_, _, heq⟩
      · exact absurd rfl hne
      · cases heq
        exact ⟨by grind, by grind⟩
    | @removed c' lock hc' =>
      obtain rfl := hc.unique hc'
      have hgone : Gone c.1 (d.del c.1) :=
        ⟨d.fresh c hc.mem, fun l hl => (Cells.mem_del_iff.mp hl).2 rfl⟩
      have hstays : Gone c.1 (grantBlockedEntryLocks ⟨d.del c.1, [], false⟩ lock).dir :=
        foldl_retryBlocked_keeps (fun _ _ _ _ hname => hname.gone) hgone
      intro l hl
      exact absurd hl (hstays.2 l)

/--
The locks of other clients and the requests that wait for them are safe from an
unlock request if and only if the lock it matches is held by its own client.
-/
theorem protected_iff (d : Cells EntryLock) (call : EntrylkCall)
    (hframes : (queuedFrames d.cells).Nodup) :
    Protected d call.trans (unlockGrants d call) ↔
      (call.pid ≠ 0 → ∀ c, Unlocks d call.basename call.type c → c.2.trans = call.trans) := by
  constructor
  · intro h hpid c hc
    by_contra htr
    obtain ⟨l, hl, hcnt⟩ := h.held c hc.mem htr
    have hchg := unlocked_changes hpid hc l hl
    exact hcnt.elim hchg.1 hchg.2
  · intro hown
    refine ⟨?_, ?_⟩
    · intro c hc htr
      obtain ⟨l, hl, hkept⟩ := stillLinked_unlockGrants hown hc htr
      exact ⟨l, hl, hkept.count.imp And.left And.left⟩
    · intro c hc htr bl hbl
      obtain ⟨l, hl, hkept⟩ := stillLinked_unlockGrants hown hc htr
      refine not_granted_of_queued hframes (unlockGrants_frames d call) ?_
      exact mem_flatMap.mpr ⟨(c.1, l), hl, mem_map.mpr ⟨bl, hkept.queue.subset hbl, rfl⟩⟩

def heldByClientZero : Cells EntryLock :=
  Cells.empty.add ⟨some "a", .wrlck, 0, 0, [⟨2, 1, some "a", .wrlck⟩], false⟩

def unlockByClientOne : EntrylkCall :=
  ⟨3, 1, 8, some "a", .unlock, .wrlck⟩

def unlockOther : EntrylkCall :=
  ⟨3, 1, 8, some "b", .unlock, .wrlck⟩

theorem protected_iff_unlockOther :
    Protected heldByClientZero unlockOther.trans (unlockGrants heldByClientZero unlockOther) ↔
      (unlockOther.pid ≠ 0 → ∀ c, Unlocks heldByClientZero unlockOther.basename unlockOther.type c →
          c.2.trans = unlockOther.trans) := by
  exact protected_iff heldByClientZero unlockOther (by decide)

theorem not_protected_unlockByClientOne :
    ¬ Protected heldByClientZero unlockByClientOne.trans
      (unlockGrants heldByClientZero unlockByClientOne) := by
  intro h
  have hgr := h.waiting (0, ⟨some "a", .wrlck, 0, 0, [⟨2, 1, some "a", .wrlck⟩], false⟩)
    (by decide) (by decide) ⟨2, 1, some "a", .wrlck⟩ (by decide)
  exact absurd (by decide) hgr

end GlusterFS.Locks
