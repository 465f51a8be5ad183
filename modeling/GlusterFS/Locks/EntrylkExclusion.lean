import GlusterFS.Locks.Entrylk

/-!
# Posix-locks: entry locks exclude each other

Write locks on the names of a directory, in any order of the critical sections of any
calls.  `WritesHeld` is the invariant of the lock list.  The frames are counted
alongside: a call that is not answered hangs in the queue of exactly one lock, or, for
a short time, in the queue of a lock that its holder has just given up.
-/

namespace GlusterFS.Locks

open Run List Bool EntrylkState

section

/--
Write locks on names that are not in conflict, and every request hangs on a lock that
it conflicts with.
-/
structure WritesHeld (cells : List (Nat × EntryLock)) : Prop where
  live : ∀ c ∈ cells, c.2.freed = false
  writes : ∀ c ∈ cells, c.2.type = .wrlck
  apart : cells.Pairwise (fun c1 c2 => namesConflict c1.2.basename c2.2.basename = false)
  waits : ∀ c ∈ cells, ∀ bl ∈ c.2.blockedLocks, bl.type = .wrlck
  queued : ∀ c ∈ cells, ∀ bl ∈ c.2.blockedLocks, namesConflict c.2.basename bl.basename = true

theorem namesConflict_comm (n1 n2 : Option String) : namesConflict n1 n2 = namesConflict n2 n1 := by
  unfold namesConflict
  rw [or_comm (allNames n1), beq_comm]

variable {d : Cells EntryLock} {req : BlockedLock} {g : Grants}

theorem WritesHeld.add (h : WritesHeld d.cells) (hreq : req.type = .wrlck) (hfree : ∀ c ∈ d.cells,
      (namesConflict c.2.basename req.basename && typesConflict c.2.type req.type) = false) :
    WritesHeld (d.add (newEntrylkLock req)).cells := by
  refine ⟨?_, ?_, ?_, ?_, ?_⟩
  · exact forall_mem_cons.mpr ⟨rfl, h.live⟩
  · exact forall_mem_cons.mpr ⟨hreq, h.writes⟩
  · refine pairwise_cons.mpr ⟨?_, h.apart⟩
    intro c hc
    have hnames : namesConflict c.2.basename req.basename = false := by
      simpa [typesConflict, hreq] using hfree c hc
    rw [namesConflict_comm]
    exact hnames
  · exact forall_mem_cons.mpr ⟨by simp [newEntrylkLock], h.waits⟩
  · exact forall_mem_cons.mpr ⟨by simp [newEntrylkLock], h.queued⟩

theorem WritesHeld.hang {c : Nat × EntryLock} (h : WritesHeld d.cells) (hreq : req.type = .wrlck)
    (hc : c ∈ d.cells) (hnames : namesConflict c.2.basename req.basename = true) :
    WritesHeld
      (d.modify c.1 (fun l => { l with blockedLocks := req :: l.blockedLocks })).cells := by
  obtain ⟨before, after, hsp, hbef, haft⟩ := Cells.exists_split hc
  obtain ⟨live, writes, apart, waits, queued⟩ := h
  rw [hsp] at live writes apart waits queued
  rw [Cells.modify_of_split _ hsp hbef haft]
  refine ⟨?_, ?_, ?_, ?_, ?_⟩ <;>
    simp only [forall_mem_append, forall_mem_cons] at live writes waits queued ⊢
  · exact live
  · exact writes
  · simpa only [pairwise_append, pairwise_cons, forall_mem_cons] using apart
  · exact ⟨waits.1, ⟨hreq, waits.2.1⟩, waits.2.2⟩
  · exact ⟨queued.1, ⟨hnames, queued.2.1⟩, queued.2.2⟩

theorem LockName.writesHeld {nonblock : Bool} {r : Cells EntryLock × LockNameRet}
    (hname : LockName d req nonblock r) (h : WritesHeld d.cells) (hreq : req.type = .wrlck) :
    WritesHeld r.1.cells := by
  cases hname with
  | added hfree => exact h.add hreq hfree
  | counted hread =>
    simp [hreq] at hread
  | hung _ hc hnames => exact h.hang hreq hc hnames
  | refused => exact h

theorem WritesHeld.del (h : WritesHeld d.cells) (addr : Nat) : WritesHeld (d.del addr).cells := by
  have hsub : (d.del addr).cells.Sublist d.cells := filter_sublist
  exact ⟨fun c hc => h.live c (hsub.subset hc), fun c hc => h.writes c (hsub.subset hc),
    h.apart.sublist hsub, fun c hc => h.waits c (hsub.subset hc),
    fun c hc => h.queued c (hsub.subset hc)⟩

variable (h : WritesHeld g.dir.cells) (hflt : g.fault = false)
include h hflt

theorem WritesHeld.retryBlocked {bl : BlockedLock} (hbl : bl.type = .wrlck) :
    WritesHeld (retryBlocked g bl).dir.cells ∧ (retryBlocked g bl).fault = false ∧
      (retryBlocked g bl).frames.Perm (bl.frame :: g.frames) := by
  obtain ⟨⟨d, ret⟩, hr⟩ := exists_lockName h.live hbl false
  have hheld := (lockName_spec hr).writesHeld h hbl
  have hfrs := (lockName_spec hr).frames
  unfold Locks.retryBlocked
  rw [hflt, hr, if_neg Bool.false_ne_true]
  cases ret with
  | zero => exact ⟨hheld, rfl, (hfrs.append_left _).cons _⟩
  | eagain => exact ⟨hheld, rfl, (hfrs.append_left _).trans perm_middle⟩

theorem WritesHeld.foldl_retryBlocked {bls : List BlockedLock}
    (hbls : ∀ bl ∈ bls, bl.type = .wrlck) :
    WritesHeld (bls.foldl Locks.retryBlocked g).dir.cells ∧
      (bls.foldl Locks.retryBlocked g).fault = false ∧
      (bls.foldl Locks.retryBlocked g).frames.Perm (bls.map (fun bl => bl.frame) ++ g.frames) := by
  induction bls generalizing g with
  | nil => exact ⟨h, hflt, List.Perm.refl _⟩
  | cons bl bls ih =>
    obtain ⟨hbl, hrest⟩ := forall_mem_cons.mp hbls
    obtain ⟨hheld, hok, hfrs⟩ := h.retryBlocked hflt hbl
    obtain ⟨hheld', hok', hfrs'⟩ := ih hheld hok hrest
    refine ⟨hheld', hok', hfrs'.trans ?_⟩
    exact (hfrs.append_left _).trans perm_middle

theorem WritesHeld.releaseAt (trans : Transport) (addr : Nat) :
    WritesHeld (releaseAt trans g addr).dir.cells ∧ (releaseAt trans g addr).fault = false ∧
      (releaseAt trans g addr).frames.Perm g.frames := by
  unfold Locks.releaseAt
  rw [hflt, if_neg Bool.false_ne_true]
  cases hfind : g.dir.cells.find? (fun c => c.1 == addr) with
  | none => exact ⟨h, hflt, List.Perm.refl _⟩
  | some c =>
    have hc : c ∈ g.dir.cells := mem_of_find?_eq_some hfind
    have haddr : c.1 = addr := by simpa using find?_some hfind
    simp only [h.live c hc, Bool.false_eq_true, if_false]
    split_ifs with htr
    · exact ⟨h, hflt, List.Perm.refl _⟩
    · subst haddr
      obtain ⟨hheld, hok, hfrs⟩ := foldl_retryBlocked
        (g := ⟨g.dir.del c.1, g.granted, false⟩) (h.del c.1) rfl (h.waits c hc)
      refine ⟨hheld, hok, hfrs.trans ?_⟩
      refine (perm_append_comm_assoc _ _ _).trans ?_
      exact (queuedFrames_del hc).append_left _

theorem WritesHeld.foldl_releaseAt {addrs : List Nat} (trans : Transport) :
    WritesHeld (addrs.foldl (Locks.releaseAt trans) g).dir.cells ∧
      (addrs.foldl (Locks.releaseAt trans) g).fault = false ∧
      (addrs.foldl (Locks.releaseAt trans) g).frames.Perm g.frames := by
  induction addrs generalizing g with
  | nil => exact ⟨h, hflt, List.Perm.refl _⟩
  | cons addr addrs ih =>
    obtain ⟨hheld, hok, hfrs⟩ := h.releaseAt hflt trans addr
    obtain ⟨hheld', hok', hfrs'⟩ := ih hheld hok
    exact ⟨hheld', hok', hfrs'.trans hfrs⟩

end

/-- The frames of the unlock calls between their parts, and of the queues they took. -/
def pendingFrames (released : List (Frame × EntryLock)) : List Frame :=
  released.flatMap (fun r => r.1 :: r.2.blockedLocks.map (fun bl => bl.frame))

def EntrylkState.frames (s : EntrylkState) : List Frame :=
  s.answered.map (fun u => u.frame) ++ queuedFrames s.dir.cells ++ pendingFrames s.released

def EntrylkSection.frames : EntrylkSection → List Frame
  | .lockName call => [call.frame]
  | .unlockName call => [call.frame]
  | .grant _ => []
  | .release call => [call.frame]

def EntrylkSection.AsksWrite : EntrylkSection → Prop
  | .lockName call => call.type = .wrlck
  | _ => True

instance : DecidablePred EntrylkSection.AsksWrite
  | .lockName call => inferInstanceAs (Decidable (call.type = .wrlck))
  | .unlockName _ | .grant _ | .release _ => inferInstanceAs (Decidable True)

structure SectionsHeld (s : EntrylkState) : Prop where
  held : WritesHeld s.dir.cells
  waits : ∀ r ∈ s.released, ∀ bl ∈ r.2.blockedLocks, bl.type = .wrlck

variable {s s' : EntrylkState} {call : EntrylkCall} {released : List (Frame × EntryLock)}
  {frame : Frame} {g : Grants} {d : Cells EntryLock}

theorem frames_answered {dir : Cells EntryLock} (u : EntrylkUnwind)
    (hque : (queuedFrames dir.cells).Perm (queuedFrames s.dir.cells)) :
    (mk dir s.released (s.answered ++ [u])).frames.Perm (s.frames ++ [u.frame]) := by
  rw [perm_iff_count]
  intro frame
  have hcnt := hque.count_eq frame
  simp only [frames, map_append, map_cons, map_nil, count_append]
  omega

theorem SectionsHeld.lockSection (h : SectionsHeld s) (hwr : call.type = .wrlck) :
    ∃ s', lockSection s call = some s' ∧ SectionsHeld s' ∧
      s'.frames.Perm (s.frames ++ [call.frame]) := by
  have hreq : call.request.type = .wrlck := hwr
  obtain ⟨⟨d, ret⟩, hr⟩ := exists_lockName h.held.live hreq (call.cmd == .lockNb)
  have hheld : WritesHeld d.cells := (lockName_spec hr).writesHeld h.held hwr
  have hqu : ∀ added : List Frame,
      (if ret = .eagain ∧ (call.cmd == .lockNb) = false then [call.frame] else []) = added →
        (queuedFrames d.cells).Perm (added ++ queuedFrames s.dir.cells) := by
    rintro added rfl
    exact (lockName_spec hr).frames
  unfold Locks.lockSection
  rw [hr]
  cases ret with
  | zero =>
    have hsame := hqu [] (by simp)
    exact ⟨_, rfl, ⟨hheld, h.waits⟩, frames_answered (unwindZero call.frame) hsame⟩
  | eagain =>
    by_cases hcmd : call.cmd = .lockNb
    · have hsame := hqu [] (by simp [hcmd])
      simp only [if_pos hcmd]
      exact ⟨_, rfl, ⟨hheld, h.waits⟩, frames_answered ⟨call.frame, -1, .eagain⟩ hsame⟩
    · have hmore := hqu [call.frame] (by simp [hcmd])
      simp only [if_neg hcmd]
      refine ⟨_, rfl, ⟨hheld, h.waits⟩, ?_⟩
      rw [perm_iff_count]
      intro frame
      have hcnt := hmore.count_eq frame
      simp only [frames, count_append] at hcnt ⊢
      omega

theorem SectionsHeld.unlockSection (h : SectionsHeld s) (call : EntrylkCall) :
    ∃ s', unlockSection s call = some s' ∧ SectionsHeld s' ∧
      s'.frames.Perm (s.frames ++ [call.frame]) := by
  obtain ⟨r, hr⟩ := exists_unlockName h.held.live call.basename call.type
  unfold Locks.unlockSection
  rw [hr]
  refine ⟨_, rfl, ?_⟩
  cases unlockName_spec hr with
  | unmatched =>
    exact ⟨⟨h.held, h.waits⟩, frames_answered (unwindZero call.frame) (List.Perm.refl _)⟩
  | @counted c hc hread =>
    -- No read lock is held.
    have hwr := h.held.writes c hc.mem
    simp [hc.2.2, hread] at hwr
  | @removed c lock hc hlock =>
    refine ⟨⟨h.held.del c.1, ?_⟩, ?_⟩
    · refine forall_mem_append.mpr ⟨h.waits, ?_⟩
      simpa [hlock] using h.held.waits c hc.mem
    · rw [perm_iff_count]
      intro frame
      have hcnt := (queuedFrames_del hc.mem).count_eq frame
      simp only [frames, pendingFrames, flatMap_append, flatMap_cons,
        flatMap_nil, append_nil, count_append, count_cons, hlock,
        ← hcnt, count_nil]
      omega

theorem SectionsHeld.unwindGrants {added : List Frame} (hheld : WritesHeld g.dir.cells)
    (hflt : g.fault = false) (hwts : ∀ r ∈ released, ∀ bl ∈ r.2.blockedLocks, bl.type = .wrlck)
    (hfrs : (g.frames ++ frame :: pendingFrames released).Perm
      (queuedFrames s.dir.cells ++ pendingFrames s.released ++ added))
    :
    ∃ s', s.unwindGrants released g frame = some s' ∧ SectionsHeld s' ∧
      s'.frames.Perm (s.frames ++ added) := by
  refine ⟨_, by rw [EntrylkState.unwindGrants, hflt, if_neg Bool.false_ne_true], ⟨hheld, hwts⟩, ?_⟩
  rw [perm_iff_count]
  intro f
  have hcnt := hfrs.count_eq f
  simp only [Grants.frames, count_append, count_cons] at hcnt
  simp only [frames, map_append, map_map, Function.comp_def, unwindZero,
    count_append, map_cons, map_nil, count_cons, count_nil]
  omega

theorem pendingFrames_of_find?
    {r : Frame × EntryLock} (hfind : released.find? (fun r => r.1 == frame) = some r) :
    (pendingFrames released).Perm (frame :: (r.2.blockedLocks.map (fun bl => bl.frame) ++
        pendingFrames (released.eraseP (fun r => r.1 == frame)))) := by
  obtain ⟨hfr, before, after, rfl, hbef⟩ := find?_eq_some_iff_append.mp hfind
  have herase : (before ++ r :: after).eraseP (fun r => r.1 == frame) = before ++ after := by
    rw [eraseP_append_right _ (by simpa using hbef)]
    simp [hfr]
  rw [herase, ← eq_of_beq hfr]
  exact (perm_middle (a := r)).flatMap_right _

theorem SectionsHeld.grantSection (h : SectionsHeld s) (frame : Frame) :
    ∃ s', grantSection s frame = some s' ∧ SectionsHeld s' ∧ s'.frames.Perm (s.frames ++ []) := by
  unfold Locks.grantSection
  cases hfind : s.released.find? (fun r => r.1 == frame) with
  | none => exact ⟨s, rfl, h, by simp⟩
  | some r =>
    have hwts := h.waits r (mem_of_find?_eq_some hfind)
    obtain ⟨hheld, hok, hfrs⟩ :=
      WritesHeld.foldl_retryBlocked (g := ⟨s.dir, [], false⟩) h.held rfl hwts
    refine unwindGrants hheld hok (fun r' hr' => h.waits r' (eraseP_subset hr')) ?_
    rw [perm_iff_count]
    intro f
    have hcnt := hfrs.count_eq f
    have hpend := (pendingFrames_of_find? hfind).count_eq f
    simp only [Grants.frames, map_nil, nil_append, count_append,
      count_cons, append_nil] at hcnt hpend ⊢
    rw [grantBlockedEntryLocks]
    omega

theorem SectionsHeld.release (h : SectionsHeld s) (trans : Transport) (frame : Frame) :
    ∃ s', s.unwindGrants s.released (releaseEntryLocksForTransport s.dir trans) frame = some s' ∧
      SectionsHeld s' ∧ s'.frames.Perm (s.frames ++ [frame]) := by
  obtain ⟨hheld, hok, hfrs⟩ := WritesHeld.foldl_releaseAt (g := ⟨s.dir, [], false⟩) h.held rfl trans
  refine unwindGrants hheld hok h.waits ?_
  refine (hfrs.append_right _).trans ?_
  rw [append_assoc]
  exact (perm_append_singleton _ _).symm.append_left _

theorem SectionsHeld.step {e : EntrylkSection} (h : SectionsHeld s) (hwr : e.AsksWrite) :
    ∃ s', sectionStep s e = some s' ∧ SectionsHeld s' ∧ s'.frames.Perm (s.frames ++ e.frames) := by
  cases e with
  | lockName call => exact h.lockSection hwr
  | unlockName call => exact h.unlockSection call
  | grant frame => exact h.grantSection frame
  | release call => exact h.release call.trans call.frame

theorem unwindGrants_released (h : s.unwindGrants released g frame = some s') :
    s'.released = released := by
  unfold unwindGrants at h
  split_ifs at h
  cases h
  rfl

theorem lockSection_released (h : lockSection s call = some s') : s'.released = s.released := by
  obtain ⟨r, _, rfl⟩ := Option.map_eq_some_iff.mp h
  cases r.2 with
  | zero => rfl
  | eagain =>
    split_ifs <;> rfl

theorem unlockSections_released {m : EntrylkState} (hnone : s.released = [])
    (hunlo : unlockSection s call = some m) (hgrant : grantSection m call.frame = some s') :
    s'.released = [] := by
  obtain ⟨r, _, rfl⟩ := Option.map_eq_some_iff.mp hunlo
  unfold grantSection at hgrant
  cases hlock : r.2 with
  | none =>
    simp only [hlock, hnone, find?_nil, Option.some.injEq] at hgrant
    rw [← hgrant]
  | some lock =>
    simp only [hlock, hnone, nil_append, find?_cons, beq_self_eq_true] at hgrant
    rw [unwindGrants_released hgrant, eraseP_cons_of_pos (by simp)]

theorem plEntrylkCommon_released (hnone : s.released = []) (h : plEntrylkCommon s call = some s') :
    s'.released = [] := by
  unfold plEntrylkCommon EntrylkCall.sections at h
  split_ifs at h with hpid
  · simp only [run_cons, run_nil, Option.bind_fun_some] at h
    rw [unwindGrants_released h, hnone]
  · cases hcmd : call.cmd with
    | unlock =>
      simp only [hcmd, run_cons, run_nil, Option.bind_fun_some] at h
      obtain ⟨m, hm, hgrant⟩ := Option.bind_eq_some_iff.mp h
      exact unlockSections_released hnone hm hgrant
    | _ =>
      simp only [hcmd, run_cons, run_nil, Option.bind_fun_some] at h
      rw [lockSection_released h, hnone]

theorem run_calls_released {calls : List EntrylkCall}
    (h : run sectionStep empty (calls.flatMap EntrylkCall.sections) = some s) :
    s.released = [] := by
  rw [run_flatMap] at h
  exact run_keeps plEntrylkCommon
    (fun _ _ _ _ hnone hcall => plEntrylkCommon_released hnone hcall) rfl h

/--
The locks of the directory are apart, every waiting request hangs on a lock that it
conflicts with, and every frame that came in is answered once, waits in one queue, or
belongs to an unlock between its two parts.
-/
structure EntrylkSound (es : List EntrylkSection) (s : EntrylkState) : Prop where
  exclusive : s.dir.cells.Pairwise (fun c1 c2 => namesConflict c1.2.basename c2.2.basename = false)
  queued : ∀ c ∈ s.dir.cells, ∀ bl ∈ c.2.blockedLocks, namesConflict c.2.basename bl.basename = true
  once : ∀ frame, (s.answered.map (fun u => u.frame)).count frame +
      (queuedFrames s.dir.cells).count frame + (pendingFrames s.released).count frame =
    (es.flatMap EntrylkSection.frames).count frame
  alone : ∀ frame, (es.flatMap EntrylkSection.frames).count frame = 1 →
    frame ∉ s.answered.map (fun u => u.frame) → frame ∉ pendingFrames s.released →
      ∃! c, c ∈ s.dir.cells ∧ ∃ bl ∈ c.2.blockedLocks, bl.frame = frame

theorem existsUnique_of_count_queuedFrames (hcnt : (queuedFrames d.cells).count frame = 1) :
    ∃! c, c ∈ d.cells ∧ ∃ bl ∈ c.2.blockedLocks, bl.frame = frame := by
  have hmem : frame ∈ queuedFrames d.cells := by
    rw [← count_pos_iff, hcnt]
    exact Nat.one_pos
  simp only [queuedFrames, mem_flatMap, mem_map] at hmem
  obtain ⟨c, hc, bl, hbl, hfr⟩ := hmem
  refine ⟨c, ⟨hc, bl, hbl, hfr⟩, ?_⟩
  rintro c' ⟨hc', bl', hbl', hfr'⟩
  by_contra hne
  obtain ⟨before, after, hsp, _, _⟩ := Cells.exists_split hc
  rw [hsp] at hc' hcnt
  -- The other lock stands before or behind the first one, and the frame is in both queues.
  have hfst : frame ∈ c.2.blockedLocks.map (fun bl => bl.frame) :=
    mem_map.mpr ⟨bl, hbl, hfr⟩
  have hoth : frame ∈ queuedFrames (before ++ after) := by
    have hc'' : c' ∈ before ++ after := by simpa [hne] using hc'
    exact mem_flatMap.mpr ⟨c', hc'', mem_map.mpr ⟨bl', hbl', hfr'⟩⟩
  rw [← count_pos_iff] at hfst hoth
  simp only [queuedFrames, flatMap_append, flatMap_cons, count_append]
    at hcnt hoth
  omega

/--
Calls of any clients, with their parts in any order: the state stays sound, and when
the calls come one after the other no unlock is left between its parts.
-/
theorem entrylk_exclusive (es : List EntrylkSection) (hwrite : ∀ e ∈ es, e.AsksWrite) :
    ∃ s, run sectionStep EntrylkState.empty es = some s ∧ EntrylkSound es s ∧
      ∀ calls : List EntrylkCall, es = calls.flatMap EntrylkCall.sections → s.released = [] := by
  have hemp : SectionsHeld EntrylkState.empty := by
    refine ⟨⟨?_, ?_, ?_, ?_, ?_⟩, ?_⟩ <;> simp [EntrylkState.empty, Cells.empty]
  obtain ⟨s, hrun, hheld, hperm⟩ := exists_run_account sectionStep
    (fun s e h hasks => SectionsHeld.step h hasks) hemp
    (AllSteps.of_forall sectionStep (fun e he _ => hwrite e he) EntrylkState.empty)
  have honce : ∀ frame, (s.answered.map (fun u => u.frame)).count frame +
      (queuedFrames s.dir.cells).count frame + (pendingFrames s.released).count frame =
      (es.flatMap EntrylkSection.frames).count frame := by
    intro frame
    have hcnt := hperm.count_eq frame
    simpa [EntrylkState.frames, EntrylkState.empty, Cells.empty, queuedFrames, pendingFrames,
      Nat.add_assoc] using hcnt
  refine ⟨s, hrun, ⟨hheld.held.apart, hheld.held.queued, honce, ?_⟩, ?_⟩
  · intro frame hsent hans hpend
    have hcnt := honce frame
    rw [count_eq_zero_of_not_mem hans, count_eq_zero_of_not_mem hpend, hsent] at hcnt
    exact existsUnique_of_count_queuedFrames (by omega)
  · rintro calls rfl
    exact run_calls_released hrun

def handOverName : List EntrylkCall :=
  [⟨1, 0, 7, some "a", .lock, .wrlck⟩, ⟨2, 1, 8, some "a", .lock, .wrlck⟩,
    ⟨3, 1, 9, none, .lock, .wrlck⟩, ⟨4, 0, 7, some "a", .unlock, .wrlck⟩]

theorem entrylk_exclusive_handOverName :
    ∃ s, run sectionStep EntrylkState.empty (handOverName.flatMap EntrylkCall.sections) = some s ∧
      EntrylkSound (handOverName.flatMap EntrylkCall.sections) s ∧
      ∀ calls : List EntrylkCall,
        handOverName.flatMap EntrylkCall.sections = calls.flatMap EntrylkCall.sections →
          s.released = [] := by
  exact entrylk_exclusive (handOverName.flatMap EntrylkCall.sections) (by decide)

end GlusterFS.Locks
