import GlusterFS.IoCache.Reads

/-!
# io-cache: reads of a file that is written

A write or truncate flushes the pages when it is called, and a write flushes them once more when
it comes back.  Neither reaches a page that a frame waits on, nor a reply of the child that is
under way: a fault that the child has served before the write brings its old bytes after the
answer to the write, and a read that was called in between waits for them.  A truncate does not
flush when it comes back, so that pages which were read meanwhile stay as well.

`UpToDate` excludes these at the answer to a write or truncate.  `Coherent` is the account of a
cache whose pages and replies are not older than the last such answer; along every run of such
steps no read returns bytes that the file had lost before the read was called
(`readsCurrent_of_upToDate`).
-/

namespace GlusterFS.IoCache

open Iovec Blocks FlatFile Run Paging List Function Option State

/--
The bytes that reads have returned are in contents that the file has had since the last answer
to a write or truncate before the read.  Nothing was used after it was freed.
-/
structure ReadsCurrent (s : State) : Prop where
  current : ∀ p ∈ s.board.unwound, ∀ x ∈ p.2.fills, ComesFrom s.versions p.2.floor x
  sane : s.freed = false

def State.Holds (s : State) (offset : Nat) (vector : List (List Byte)) : Prop :=
  vector.flatten = pread s.file offset s.pageSize

instance (s : State) (offset : Nat) (vector : List (List Byte)) :
    Decidable (s.Holds offset vector) :=
  inferInstanceAs (Decidable (_ = _))

/-- The pages that stay when a change comes back, and the replies under way, are not old. -/
def UpToDate (s : State) (change : Change) : Prop :=
  (∀ p ∈ s.pages, (change.isWritev = true → s.board.isWaitedOn p.id = true) →
    ∀ v ∈ p.vector, s.Holds p.offset v) ∧
  ∀ x ∈ s.faults, ∀ r ∈ x.reply, 0 ≤ r.opRet → s.Holds x.offset r.vector

instance (s : State) (change : Change) : Decidable (UpToDate s change) :=
  inferInstanceAs (Decidable (_ ∧ _))

/--
The condition on a step: when a change comes back with success nothing old is left, and pages in
the queue of the inode are still there when they are woken.
-/
def Flushed (s : State) : Event → Prop
  | .changeCbk k => ∀ x ∈ s.changes[k]?, x.reply = some true → UpToDate s x.change
  | .wakeup k => ∀ x ∈ s.wakeups[k]?, WakeupKept s x
  | _ => True

instance (s : State) : ∀ e, Decidable (Flushed s e) := by
  rintro (_ | _) <;> dsimp only [Flushed] <;> infer_instance

section

variable (ps : Nat) (versions : List (List Byte)) (floor : Nat)

/-- The replies to faults are from recent contents of the file. -/
structure FaultsFrom (faults : List Fault) : Prop where
  aligned : ∀ x ∈ faults, ∃ q, x.offset = q * ps
  recent : ∀ x ∈ faults, ∀ r, x.reply = some r → 0 ≤ r.opRet →
    PageFrom versions floor ps x.offset r.vector

variable {ps} {versions} {floor} {faults : List Fault} {offset : Nat}

theorem FaultsFrom.append (h : FaultsFrom ps versions floor faults) (hal : ∃ q, offset = q * ps) :
    FaultsFrom ps versions floor (faults ++ [{ offset := offset, reply := none }]) := by
  constructor
  · exact forall_mem_append.mpr ⟨h.aligned, forall_mem_singleton.mpr hal⟩
  · exact forall_mem_append.mpr ⟨h.recent, forall_mem_singleton.mpr nofun⟩

theorem FaultsFrom.subset {faults' : List Fault} (h : FaultsFrom ps versions floor faults)
    (hsub : faults' ⊆ faults) : FaultsFrom ps versions floor faults' :=
  ⟨fun x hx => h.aligned x (hsub hx), fun x hx => h.recent x (hsub hx)⟩

end

section

/-- The account of a cache whose pages and replies are not older than the last answer. -/
structure Coherent (s : State) : Prop where
  current : Current s.pageSize s.versions s.floor (fun p => p ∈ s.pages) s.nextPage s.board
  served : FaultsFrom s.pageSize s.versions s.floor s.faults
  trav : ∀ i, ∃ q, (s.dispatch i).travOffset = q * s.pageSize
  floor_lt : s.floor < s.versions.length
  sane : s.freed = false

variable {s s' : State} {page : Page} {offset : Nat} {reply : FaultReply}

theorem coherent_start (ps : Nat) (f : List Byte) : Coherent (start ps f) := by
  constructor
  · exact current_empty (by simp [start])
  · constructor <;> simp [start]
  · intro i
    exact ⟨0, (Nat.zero_mul _).symm⟩
  · exact Nat.zero_lt_one
  · rfl

theorem Coherent.readv (h : Coherent s) (offset size : Nat) (mightNeedValidate : Bool) :
    Coherent (s.iocReadv offset size mightNeedValidate) := by
  refine { h with current := ?_, trav := ?_ }
  · exact h.current.reboard (List.Subset.refl _) (h.current.fresh.enter offset size)
  · intro i
    rw [iocReadv]
    simp only [update_apply]
    split_ifs
    · exact ⟨offset / s.pageSize, rfl⟩
    · exact h.trav i

theorem Coherent.nextTrav (h : Coherent s) (i : Nat) : Coherent (s.nextTrav i) := by
  refine { h with trav := ?_ }
  intro j
  rw [State.nextTrav]
  simp only [update_apply]
  split_ifs
  · obtain ⟨q, hq⟩ := h.trav i
    exact ⟨q + 1, by rw [hq, Nat.succ_mul]⟩
  · exact h.trav j

theorem Coherent.recur (h : Coherent s)
    (hcur : Current s.pageSize s.versions s.floor (fun p => p ∈ s'.pages) s'.nextPage s'.board)
    (hsrv : FaultsFrom s.pageSize s.versions s.floor s'.faults)
    (hps : s'.pageSize = s.pageSize) (hvers : s'.versions = s.versions)
    (hflr : s'.floor = s.floor) (hdis : s'.dispatch = s.dispatch)
    (hsane : s'.freed = false) : Coherent s' := by
  constructor
  · rw [hps, hvers, hflr]
    exact hcur
  · rw [hps, hvers, hflr]
    exact hsrv
  · rw [hps, hdis]
    exact h.trav
  · rw [hvers, hflr]
    exact h.floor_lt
  · exact hsane

theorem eq_or_mem_of_mem_setPage (s : State) (page p : Page) (hp : p ∈ (s.setPage page).pages) :
    p = page ∨ p ∈ s.pages := by
  obtain ⟨x, hx, rfl⟩ := mem_map.mp hp
  split_ifs
  · exact .inl rfl
  · exact .inr hx

section

variable (h : Coherent s)
include h

theorem Coherent.flush : Coherent s.iocInodeFlush :=
  h.recur (h.current.subset (fun _ hp => mem_of_mem_filter hp)) h.served rfl rfl rfl rfl h.sane

theorem Coherent.destroy (id : Nat) : Coherent (s.iocPageDestroy id) := by
  rw [iocPageDestroy]
  split_ifs
  · exact h
  · exact h.recur (h.current.subset (fun _ hp => mem_of_mem_filter hp)) h.served rfl rfl rfl
      rfl h.sane

theorem Coherent.pageWakeup (hpage : page ∈ s.pages) : Coherent (s.iocPageWakeup page) := by
  refine h.recur ?_ h.served rfl rfl rfl rfl h.sane
  refine (h.current.wakeup hpage).set hpage ?_ ?_ ?_ (eq_or_mem_of_mem_setPage s _)
  · rfl
  · rfl
  · exact fun v hv => h.current.loaded.recent page v hpage hv

theorem Coherent.waitOnPage (i travOffset : Nat) (hpage : page ∈ s.pages) :
    Coherent (s.iocWaitOnPage i travOffset page) :=
  h.recur (h.current.wait hpage rfl rfl) h.served rfl rfl rfl rfl h.sane

theorem Coherent.pageFault (hal : ∃ q, offset = q * s.pageSize) :
    Coherent (s.iocPageFault offset) :=
  h.recur h.current (h.served.append hal) rfl rfl rfl rfl h.sane

end

theorem iocPageGet_mem (hget : s.iocPageGet offset = some page) :
    page ∈ s.pages ∧ page.offset = Blocks.floor offset s.pageSize := by
  have hfnd := find?_some hget
  exact ⟨mem_of_find?_eq_some hget, beq_iff_eq.mp hfnd⟩

variable (h : Coherent s)
include h

theorem Coherent.dispatchPage (i : Nat) {travOffset : Nat}
    (hal : ∃ q, travOffset = q * s.pageSize) : Coherent (s.dispatchPage i travOffset) := by
  rw [State.dispatchPage]
  cases hget : s.iocPageGet travOffset with
  | none =>
    have hcreated : Coherent
        { s with
          pages := s.pages ++ [s.iocPageCreate travOffset],
          nextPage := s.nextPage + 1 } := by
      refine h.recur ?_ h.served rfl rfl rfl rfl h.sane
      have hid : (s.iocPageCreate travOffset).id = s.nextPage := rfl
      exact h.current.create hid ⟨travOffset / s.pageSize, rfl⟩ rfl (by simp)
    refine (hcreated.waitOnPage i travOffset ?_).pageFault hal
    exact mem_append_right _ (mem_singleton_self _)
  | some page =>
    have hpage := (iocPageGet_mem hget).1
    have hwait := h.waitOnPage i travOffset hpage
    simp only
    split_ifs
    · rw [iocHit]
      split_ifs
      · exact hwait.recur hwait.current hwait.served rfl rfl rfl rfl hwait.sane
      · exact hwait.pageWakeup hpage
    · exact hwait

theorem Coherent.dispatchRequests (i : Nat) : Coherent (s.dispatchRequests i) := by
  rw [State.dispatchRequests]
  split_ifs
  · exact (h.nextTrav i).dispatchPage i (h.trav i)
  · constructor
    · refine h.current.reboard ?_ (h.current.fresh.frameReturn i)
      rw [Board.frameReturn_waits]
      exact List.Subset.refl _
    · exact h.served
    · intro j
      simp only [update_apply]
      split_ifs
      · exact h.trav i
      · exact h.trav j
    · exact h.floor_lt
    · exact h.sane

theorem Coherent.faultMtime (reply : FaultReply) : Coherent (s.faultMtime reply) := by
  have hmtime : ∀ {s : State} (mtime : Nat), Coherent s → Coherent { s with mtime := mtime } :=
    fun mtime h => h.recur h.current h.served rfl rfl rfl rfl h.sane
  rw [State.faultMtime]
  split_ifs
  · exact hmtime reply.mtime h.flush
  · exact hmtime reply.mtime h
  · exact h.flush
  · exact h

theorem Coherent.faultPage (hpage : page ∈ s.pages)
    (hrec : PageFrom s.versions s.floor s.pageSize page.offset reply.vector) :
    Coherent (s.faultPage page reply) := by
  obtain ⟨page', hpage'⟩ : ∃ page' : Page, page' =
      { page with vector := some reply.vector } := ⟨_, rfl⟩
  have hid : page'.id = page.id := by rw [hpage']
  have hset : Coherent (s.setPage page') := by
    refine h.recur (h.current.set hpage hid (by rw [hpage']) ?_ ?_) h.served rfl rfl rfl rfl h.sane
    · intro v hv
      rw [hpage'] at hv
      cases hv
      exact hrec
    · exact eq_or_mem_of_mem_setPage s page'
  have hmem : page' ∈ (s.setPage page').pages := (mem_setPage hpage hid).mpr (.inl rfl)
  rw [State.faultPage, ← hpage']
  split_ifs
  · exact hset.pageWakeup hmem
  · exact hset

theorem Coherent.faultCbk (hal : ∃ q, offset = q * s.pageSize)
    (hrec : 0 ≤ reply.opRet → PageFrom s.versions s.floor s.pageSize offset reply.vector) :
    Coherent (s.iocFaultCbk offset reply) := by
  have hfl := h.faultMtime reply
  have hsame : (s.faultMtime reply).versions = s.versions ∧
      (s.faultMtime reply).floor = s.floor ∧ (s.faultMtime reply).pageSize = s.pageSize := by
    rw [State.faultMtime]
    split_ifs <;> exact ⟨rfl, rfl, rfl⟩
  obtain ⟨hvers, hflr, hps⟩ := hsame
  rw [iocFaultCbk]
  cases hget : (s.faultMtime reply).iocPageGet offset with
  | none => exact hfl
  | some page =>
    obtain ⟨hpage, hoff⟩ := iocPageGet_mem hget
    obtain ⟨q, rfl⟩ := hal
    rw [hps, floor_mul] at hoff
    split_ifs with hret
    · refine hfl.recur ?_ hfl.served rfl rfl rfl rfl hfl.sane
      exact (hfl.current.subset (fun _ hp => mem_of_mem_filter hp)).fail page.id _ _
    · apply hfl.faultPage hpage
      rw [hvers, hflr, hps, hoff]
      exact hrec (Int.not_lt.mp hret)

theorem Coherent.validateCbk (stbuf : Option Nat) : Coherent (s.iocCacheValidateCbk stbuf) := by
  rw [iocCacheValidateCbk]
  split_ifs
  · exact h.recur h.current h.served rfl rfl rfl rfl h.sane
  · exact h.flush.recur h.flush.current h.served rfl rfl rfl rfl h.sane

theorem Coherent.wakeupPage (valid : Bool) {id : Nat} (hkept : ∃ p ∈ s.pages, p.id = id) :
    Coherent (s.wakeupPage valid id) := by
  obtain ⟨page, hfind⟩ : ∃ page, s.pages.find? (fun p => p.id == id) = some page := by
    obtain ⟨p, hp, hpid⟩ := hkept
    rw [← isSome_iff_exists, find?_isSome]
    exact ⟨p, hp, beq_iff_eq.mpr hpid⟩
  have hpage := mem_of_find?_eq_some hfind
  rw [State.wakeupPage, hfind]
  simp only
  split_ifs
  · exact h.pageWakeup hpage
  · have hset : Coherent (s.setPage { page with ready := false }) := by
      refine h.recur ?_ h.served rfl rfl rfl rfl h.sane
      refine h.current.set hpage ?_ ?_ ?_ (eq_or_mem_of_mem_setPage s _)
      · rfl
      · rfl
      · exact fun v hv => h.current.loaded.recent page v hpage hv
    exact hset.pageFault (h.current.loaded.aligned page hpage)
  · exact h

theorem Coherent.getElem?_version : s.versions[s.version]? = some s.file ∧ s.floor ≤ s.version := by
  have hpos := h.floor_lt
  have hne : s.versions ≠ [] := by
    intro hc
    rw [hc] at hpos
    exact Nat.not_lt_zero _ hpos
  rw [version, file]
  constructor
  · rw [← getLast?_eq_getElem?, getLastD_eq_getLast?, getLast?_eq_some_getLast hne, getD_some]
  · omega

theorem Coherent.pageFrom_of_holds {vector : List (List Byte)} (hholds : s.Holds offset vector) :
    PageFrom s.versions s.version s.pageSize offset vector :=
  ⟨s.version, s.file, Nat.le_refl _, h.getElem?_version.1, hholds⟩

theorem Coherent.serve {k : Nat} {reply : Nat → Option FaultReply}
    (hrep : ∀ offset r, reply offset = some r → 0 ≤ r.opRet → s.Holds offset r.vector)
    (hs' : s.serve k reply = some s') : Coherent s' := by
  rw [State.serve] at hs'
  split at hs'
  · rename_i offset hx
    obtain ⟨r, hr, rfl⟩ := map_eq_some_iff.mp hs'
    refine h.recur h.current ?_ rfl rfl rfl rfl h.sane
    constructor
    · intro y hy
      rcases mem_or_eq_of_mem_set hy with hy | rfl
      · exact h.served.aligned y hy
      · exact h.served.aligned ⟨offset, none⟩ (mem_of_getElem? hx)
    · intro y hy r' hr' hret
      rcases mem_or_eq_of_mem_set hy with hy | rfl
      · exact h.served.recent y hy r' hr' hret
      · cases hr'
        obtain ⟨hlast, hflr⟩ := h.getElem?_version
        exact ⟨s.version, s.file, hflr, hlast, hrep offset r hr hret⟩
  · cases hs'

theorem Coherent.changeCbk {change : Change} {ok : Bool} (hfresh : ok = true → UpToDate s change) :
    Coherent (s.changeCbk change ok) := by
  obtain ⟨s', hs'⟩ : ∃ s' : State, s' = if change.isWritev then s.iocInodeFlush else s := ⟨_, rfl⟩
  have hfl : Coherent s' := by
    rw [hs']
    split_ifs
    · exact h.flush
    · exact h
  have hsame : s'.faults = s.faults ∧ s'.versions = s.versions ∧ s'.pageSize = s.pageSize := by
    rw [hs']
    split_ifs <;> exact ⟨rfl, rfl, rfl⟩
  have hpgs : ∀ p ∈ s'.pages, p ∈ s.pages ∧
      (change.isWritev = true → s.board.isWaitedOn p.id = true) := by
    intro p hp
    rw [hs'] at hp
    split_ifs at hp with hwritev
    · obtain ⟨hmem, hwtd⟩ := mem_filter.mp hp
      exact ⟨hmem, fun _ => hwtd⟩
    · exact ⟨hp, fun hc => absurd hc hwritev⟩
  obtain ⟨hflts, hvers, hps⟩ := hsame
  have hfile : s'.Holds = s.Holds := by
    funext offset vector
    rw [Holds, Holds, file, file, hvers, hps]
  rw [State.changeCbk, ← hs']
  split_ifs with hok
  · obtain ⟨hpagesNew, hfn⟩ := hfresh hok
    obtain ⟨hlast, hflr⟩ := hfl.getElem?_version
    refine { hfl with current := ?_, served := ?_, floor_lt := ?_ }
    · refine hfl.current.raise hflr ?_
      intro p v hp hv
      apply hfl.pageFrom_of_holds
      rw [hfile]
      exact hpagesNew p (hpgs p hp).1 (hpgs p hp).2 v hv
    · refine ⟨hfl.served.aligned, ?_⟩
      intro x hx r hr hret
      apply hfl.pageFrom_of_holds
      rw [hfile]
      exact hfn x (by rw [← hflts]; exact hx) r hr hret
    · exact (List.getElem?_eq_some_iff.mp hlast).1
  · exact hfl

theorem Coherent.step {e : Event} (hfld : Flushed s e) (hs' : step s e = some s') :
    Coherent s' := by
  cases e with
  | readv offset size mightNeedValidate =>
    cases hs'
    exact h.readv offset size mightNeedValidate
  | dispatch i =>
    rw [IoCache.step] at hs'
    split_ifs at hs'
    cases hs'
    exact h.dispatchRequests i
  | serveFault k vector mtime =>
    refine h.serve ?_ hs'
    intro offset r hr _
    rw [readReply] at hr
    split_ifs at hr with hvec
    rw [← some.inj hr]
    exact hvec
  | failFault k opErrno =>
    refine h.serve ?_ hs'
    intro offset r hr hret
    cases hr
    change (0 : Int) ≤ -1 at hret
    exact absurd hret (by decide)
  | faultCbk k =>
    rw [IoCache.step] at hs'
    split at hs'
    · rename_i offset reply hx
      cases hs'
      have hmem := mem_of_getElem? hx
      have herase : Coherent { s with faults := s.faults.eraseIdx k } :=
        h.recur h.current (h.served.subset (eraseIdx_sublist _ _).subset) rfl rfl rfl rfl h.sane
      exact herase.faultCbk (h.served.aligned _ hmem) (h.served.recent _ hmem reply rfl)
    · cases hs'
  | validateCbk stbuf =>
    rw [IoCache.step] at hs'
    split_ifs at hs'
    cases hs'
    exact h.validateCbk stbuf
  | takeWaitq k =>
    rw [IoCache.step] at hs'
    split at hs'
    · cases hs'
      exact h.recur h.current h.served rfl rfl rfl rfl h.sane
    · cases hs'
  | wakeup k =>
    rw [IoCache.step] at hs'
    split at hs'
    · rename_i valid id ids hk
      cases hs'
      have hlis : Coherent { s with wakeups := setWakeup s.wakeups k valid ids } :=
        h.recur h.current h.served rfl rfl rfl rfl h.sane
      exact hlis.wakeupPage valid (hfld _ hk id rfl)
    · cases hs'
  | prune id =>
    cases hs'
    exact h.destroy id
  | change change =>
    cases hs'
    exact h.flush.recur h.flush.current h.served rfl rfl rfl rfl h.sane
  | serveChange k ok =>
    rw [IoCache.step] at hs'
    split at hs'
    · rename_i change hk
      cases hs'
      cases ok with
      | false => exact h.recur h.current h.served rfl rfl rfl rfl h.sane
      | true =>
        refine { h with current := ?_, served := ?_, floor_lt := ?_ }
        · exact h.current.grow _
        · exact ⟨h.served.aligned, fun x hx r hr hret =>
            (h.served.recent x hx r hr hret).mono (prefix_append _ _)⟩
        · exact Nat.lt_of_lt_of_le h.floor_lt (by simp)
    · cases hs'
  | changeCbk k =>
    rw [IoCache.step] at hs'
    split at hs'
    · rename_i change ok hk
      cases hs'
      have herase : Coherent { s with changes := s.changes.eraseIdx k } :=
        h.recur h.current h.served rfl rfl rfl rfl h.sane
      apply herase.changeCbk
      intro hok
      rw [hok] at hk
      exact hfld _ hk rfl
    · cases hs'

end

/-- In every run of such steps no read returns bytes that the file had lost before it. -/
theorem readsCurrent_of_upToDate (ps : Nat) (f : List Byte) (events : List Event) (s : State)
    (hrun : run step (start ps f) events = some s)
    (hall : AllSteps step Flushed (start ps f) events) : ReadsCurrent s := by
  have hcoh : Coherent s :=
    run_invariant step (fun _ _ _ h hfld hs' => h.step hfld hs') (coherent_start ps f) hall hrun
  exact ⟨hcoh.current.fresh.unwound, hcoh.sane⟩

/-- A page is read, the file is written and truncated, and the page is read again each time. -/
def readBetweenChanges : List Event :=
  [.readv 0 2 false, .dispatch 0, .dispatch 0, .serveFault 0 [[1, 2]] 7, .faultCbk 0,
    .change (.writev [9] 1), .serveChange 0 true, .changeCbk 0,
    .readv 0 2 false, .dispatch 1, .dispatch 1, .serveFault 0 [[1, 9]] 8, .faultCbk 0,
    .change (.truncate 1), .serveChange 0 true, .changeCbk 0,
    .readv 0 2 false, .dispatch 2, .dispatch 2, .serveFault 0 [[1]] 9, .faultCbk 0]

theorem readsCurrent_readBetweenChanges :
    ∃ s, run step (start 2 [1, 2]) readBetweenChanges = some s ∧
      s.board.unwound.length = 3 ∧ ReadsCurrent s := by
  obtain ⟨s, hrun, hs⟩ : ∃ s ∈ run step (start 2 [1, 2]) readBetweenChanges,
      s.board.unwound.length = 3 := by decide +kernel
  exact ⟨s, hrun, hs,
    readsCurrent_of_upToDate 2 [1, 2] readBetweenChanges s hrun (by decide +kernel)⟩

/--
The child serves a fault before it serves a write.  The write is answered, a new read waits for
the page, and then the data of the fault comes.
-/
def faultAcrossWrite : List Event :=
  [.readv 0 2 false, .dispatch 0, .dispatch 0, .change (.writev [9] 1), .serveFault 0 [[1, 2]] 7,
    .serveChange 0 true, .changeCbk 0, .readv 0 2 false, .dispatch 1, .dispatch 1, .faultCbk 0]

/-- The read that was called after the answer to the write returns the old byte. -/
theorem not_readsCurrent_faultAcrossWrite :
    ∃ s, run step (start 2 [1, 2]) faultAcrossWrite = some s ∧ s.versions = [[1, 2], [1, 9]] ∧
      (∃ p ∈ s.board.unwound, p.1 = 1 ∧ p.2.floor = 1 ∧
        iocFrameUnwind p.2 = { opRet := 2, opErrno := 0, vector := [[1, 2]] }) ∧
      ¬ ReadsCurrent s := by
  obtain ⟨s, hrun, hvers, hanswer, p, hp, hflr, x, hx, hst, hvec⟩ :
      ∃ s ∈ run step (start 2 [1, 2]) faultAcrossWrite, s.versions = [[1, 2], [1, 9]] ∧
        (∃ p ∈ s.board.unwound, p.1 = 1 ∧ p.2.floor = 1 ∧
          iocFrameUnwind p.2 = { opRet := 2, opErrno := 0, vector := [[1, 2]] }) ∧
        ∃ p ∈ s.board.unwound, p.2.floor = 1 ∧
          ∃ x ∈ p.2.fills, x.start = 0 ∧ x.vector = [[1, 2]] := by decide +kernel
  refine ⟨s, hrun, hvers, hanswer, ?_⟩
  intro h
  obtain ⟨t, f, ht, hf, hbytes⟩ := h.current p hp x hx
  rw [hvers] at hf
  have hold := hbytes 1 2 (by rw [hvec]; rfl)
  rw [hst] at hold
  -- The only content that is as new as the read has another byte there.
  obtain rfl : t = 1 := by
    have := (List.getElem?_eq_some_iff.mp hf).1
    simp at this
    omega
  cases hf
  exact absurd hold (by decide)

end GlusterFS.IoCache
