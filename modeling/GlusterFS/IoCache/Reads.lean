import GlusterFS.IoCache.Cache

/-!
# io-cache: reads of a file that does not change

When a page fails, `ioc_page_error` notes the error in the frames that wait on the page, and
`ioc_frame_unwind` answers with the bytes that the other pages have brought: the error is lost,
and the bytes behind the page have moved.  Two more things can go wrong after a page in the queue
of the inode was woken by a read for which the cache was fresh.  The page has no waiting frames
then, so that a flush may free it before `ioc_inode_wakeup` comes to it; and if it is faulted
again instead, its data comes when nobody waits and it is never ready again.

`Kept` excludes the three.  `Inv` is the account of a cache whose pages hold what the file has;
along every run of such steps each read is answered once and with the bytes of the file
(`answered_of_kept`).
-/

namespace GlusterFS.IoCache

open Iovec Blocks FlatFile Run Paging List Function Nat State Board

def Quiet (s : State) : Prop :=
  (∀ i < s.board.count, (s.dispatch i).dispatching = false) ∧
    s.faults = [] ∧ s.validates = 0 ∧ s.wakeups = []

instance (s : State) : Decidable (Quiet s) :=
  inferInstanceAs (Decidable (_ ∧ _))

/-- A read fails, or it returns the bytes that the file has in its range. -/
def Right (f : List Byte) (fr : Frame) : Prop :=
  (iocFrameUnwind fr).opRet = -1 ∨ ((iocFrameUnwind fr).opRet = (pread f fr.offset fr.size).length ∧
      (iocFrameUnwind fr).vector.flatten = pread f fr.offset fr.size)

instance (f : List Byte) (fr : Frame) : Decidable (Right f fr) :=
  inferInstanceAs (Decidable (_ ∨ _))

/--
Reads are right or fail: none is answered twice, those that are answered are right, and all of
them are answered when nothing is under way.  Nothing was used after it was freed.
-/
structure Answered (f : List Byte) (s : State) : Prop where
  once : (s.board.unwound.map Prod.fst).Nodup
  right : ∀ p ∈ s.board.unwound, Right f p.2 ∧
    p.2.offset = (s.board.frame p.1).offset ∧ p.2.size = (s.board.frame p.1).size
  all : Quiet s → ∀ i < s.board.count, i ∈ s.board.unwound.map Prod.fst
  sane : s.freed = false

/--
The reply to a fault finds its page in a fit state: no frame waits on the page of a fault that
failed, and a page that is not ready has a frame that waits on it.
-/
def FaultKept (s : State) (offset : Nat) (reply : FaultReply) : Prop :=
  ∀ p ∈ s.pages, p.offset = offset →
    if reply.opRet < 0 then
      s.board.isWaitedOn p.id = false
    else
      p.ready = true ∨ s.board.isWaitedOn p.id = true
deriving Decidable

/-- The page that a thread in `ioc_inode_wakeup` comes to is still there. -/
def WakeupKept (s : State) (x : Wakeup) : Prop :=
  ∀ id ∈ x.pages.head?, ∃ p ∈ s.pages, p.id = id
deriving Decidable

/--
The condition on a step: reads only, of less than 2 GiB, replies to faults that find their page
in a fit state, and pages in the queue of the inode that are still there when they are woken.
-/
def Kept (s : State) : Event → Prop
  | .readv _ size _ => size < 2 ^ 31
  | .faultCbk k => ∀ x ∈ s.faults[k]?, ∀ reply ∈ x.reply, FaultKept s x.offset reply
  | .wakeup k => ∀ x ∈ s.wakeups[k]?, WakeupKept s x
  | .change _ => False
  | .serveChange _ _ => False
  | .changeCbk _ => False
  | _ => True

instance (s : State) : ∀ e, Decidable (Kept s e) := by
  rintro (_ | _) <;> dsimp only [Kept] <;> infer_instance

variable {lost unlisted unlisted' : Nat → Prop} {fr : Frame} {q i offset k ps : Nat}
  {r : FaultReply} {wakeups : List Wakeup} {f : List Byte} {s s' : State}

section

variable (f : List Byte) (ps : Nat)

def Todo (s : State) (i q : Nat) : Prop :=
  i < s.board.count ∧ (s.dispatch i).dispatching = true ∧
    q ∈ pagesOf ps (s.board.frame i) ∧ (s.dispatch i).travOffset ≤ q * ps

def active (s : State) (i : Nat) : Bool :=
  decide (i < s.board.count) && (s.dispatch i).dispatching

/-- A page is in the queue of the inode, or was when it was taken by a thread that has it left. -/
def Listed (s : State) (id : Nat) : Prop :=
  id ∈ s.waitq ∨ id ∈ s.wakeups.flatMap Wakeup.pages

/-- The faults that are under way are of pages, and their replies are failures or full reads. -/
structure FaultsOk (faults : List Fault) : Prop where
  aligned : ∀ x ∈ faults, ∃ q, x.offset = q * ps
  replies : ∀ x ∈ faults, ∀ r, x.reply = some r →
    r.opRet = -1 ∨ (0 ≤ r.opRet ∧ r.vector.flatten = pread f x.offset ps)

/--
The account of a cache.  A page that is not ready has a fault under way, except for those that
have `lost` it; a page that is ready and has waiting frames is in the queue of the inode, except
for those that are `unlisted`.
-/
structure Inv (lost unlisted : Nat → Prop) (s : State) : Prop where
  pageSize : s.pageSize = ps
  versions : s.versions = [f]
  pages : PagesOk f ps s.pages s.nextPage
  faults : FaultsOk f ps s.faults
  transit : ∀ p ∈ s.pages, p.ready = false → (∃ x ∈ s.faults, x.offset = p.offset) ∨ lost p.id
  waits : ∀ w ∈ s.board.waits, ∃ p ∈ s.pages, p.id = w.page ∧ p.offset = w.pageOffset
  validates : ∀ p ∈ s.pages, p.ready = true → s.board.isWaitedOn p.id = true →
    Listed s p.id ∨ unlisted p.id
  listed : ∀ id, Listed s id → id < s.nextPage ∧ ∀ p ∈ s.pages, p.id = id → p.vector ≠ none
  asked : s.waitq ≠ [] → 0 < s.validates ∨ ∃ stbuf, .called stbuf ∈ s.wakeups
  trav : ∀ i < s.board.count, (s.dispatch i).dispatching = true →
    ∃ q, (s.board.frame i).offset / ps ≤ q ∧ (s.dispatch i).travOffset = q * ps
  tracks : Tracks f ps s.board (Todo ps s) (active s) s.board.waits s.board.waits
  sane : s.freed = false

/-- The account of a cache without exceptions. -/
abbrev Exact : State → Prop :=
  Inv f ps (fun _ => False) (fun _ => False)

variable {f} {ps}

theorem inv_start (f : List Byte) (ps : Nat) : Inv f ps lost unlisted (start ps f) := by
  constructor
  · rfl
  · rfl
  · constructor <;> simp [start]
  · constructor <;> simp [start]
  · simp [start]
  · simp [start, empty]
  · simp [start]
  · simp [start, Listed]
  · simp [start]
  · simp [start]
  · refine tracks_empty.congr ?_ ?_
    · simp [Todo, start]
    · simp [active, start]
  · rfl

variable (h : Inv f ps lost unlisted s)
include h

theorem Inv.tighten {lost' : Nat → Prop}
    (hlost : ∀ p ∈ s.pages, lost p.id → p.ready = false → lost' p.id)
    (hunli : ∀ p ∈ s.pages, unlisted p.id → p.ready = true → s.board.isWaitedOn p.id = true →
      unlisted' p.id)
    : Inv f ps lost' unlisted' s := by
  refine { h with transit := ?_, validates := ?_ }
  · intro p hp hrdy
    exact (h.transit p hp hrdy).imp_right (fun hl => hlost p hp hl hrdy)
  · intro p hp hrdy hwtd
    exact (h.validates p hp hrdy hwtd).imp_right (fun hu => hunli p hp hu hrdy hwtd)

theorem Inv.filter {keep : Page → Bool}
    (hkeep : ∀ p ∈ s.pages, s.board.isWaitedOn p.id = true → keep p = true) :
    Inv f ps lost unlisted { s with pages := s.pages.filter keep } := by
  have hsub : (s.pages.filter keep).Sublist s.pages := filter_sublist
  refine { h with pages := ?_, transit := ?_, waits := ?_, validates := ?_, listed := ?_ }
  · exact h.pages.sublist hsub
  · exact fun p hp => h.transit p (hsub.subset hp)
  · intro w hw
    obtain ⟨p, hp, hid, hoff⟩ := h.waits w hw
    refine ⟨p, mem_filter.mpr ⟨hp, hkeep p hp ?_⟩, hid, hoff⟩
    exact (isWaitedOn_iff _ _).mpr ⟨w, hw, hid.symm⟩
  · exact fun p hp => h.validates p (hsub.subset hp)
  · intro id hid
    obtain ⟨hlt, hvec⟩ := h.listed id hid
    exact ⟨hlt, fun p hp => hvec p (hsub.subset hp)⟩

theorem Inv.flush : Inv f ps lost unlisted s.iocInodeFlush :=
  h.filter (fun _ _ hwtd => hwtd)

theorem Inv.destroy (id : Nat) : Inv f ps lost unlisted (s.iocPageDestroy id) := by
  rw [iocPageDestroy]
  split_ifs with hwtd
  · exact h
  · apply h.filter
    intro p _ hp
    have hne : p.id ≠ id := by
      rintro rfl
      exact hwtd hp
    simpa using hne

end

section

variable {page page' p : Page} {v : List (List Byte)} {x : Fault}

theorem todo_congr (hcnt : s'.board.count = s.board.count) (hdis : s'.dispatch = s.dispatch)
    (hrng : ∀ i, (s'.board.frame i).range = (s.board.frame i).range) (i q : Nat) :
    Todo ps s' i q ↔ Todo ps s i q := by
  rw [Todo, Todo, hcnt, hdis, pagesOf_congr ps (hrng i)]

theorem active_congr (hcnt : s'.board.count = s.board.count)
    (hdis : s'.dispatch = s.dispatch) (i : Nat) : active s' i = active s i := by
  rw [active, active, hcnt, hdis]

theorem mem_setPage (hpage : page ∈ s.pages) (hid : page'.id = page.id) :
    p ∈ (s.setPage page').pages ↔ p = page' ∨ (p ∈ s.pages ∧ p.id ≠ page'.id) := by
  rw [setPage, mem_map]
  constructor
  · rintro ⟨x, hx, rfl⟩
    split_ifs with hxid
    · exact .inl rfl
    · exact .inr ⟨hx, hxid⟩
  · rintro (rfl | ⟨hp, hne⟩)
    · exact ⟨page, hpage, if_pos hid.symm⟩
    · exact ⟨p, hp, if_neg hne⟩

theorem eq_of_mem_setPage (hp : p ∈ (s.setPage page').pages) (hid : p.id = page'.id) :
    p = page' := by
  rw [setPage, mem_map] at hp
  obtain ⟨x, _, rfl⟩ := hp
  split_ifs at hid ⊢ with hx
  · rfl
  · exact absurd hid hx

/--
A page is changed.  It needs an exception if it was ready, or if frames that wait on it may find
it ready now.
-/
theorem Inv.setPage (h : Inv f ps lost unlisted s) (page' : Page)
    (hpage : page ∈ s.pages) (hid : page'.id = page.id) (hoff : page'.offset = page.offset)
    (hloaded : ∀ v, page'.vector = some v → v.flatten = pread f page.offset ps)
    (hrdy : page'.ready = true → page'.vector ≠ none)
    (hvector : page.vector ≠ none → page'.vector ≠ none) :
    Inv f ps (fun id => lost id ∨ id = page.id ∧ page.ready = true)
      (fun id => unlisted id ∨ id = page.id ∧ page.ready = false) (s.setPage page') := by
  have hmem : ∀ p, p ∈ (s.setPage page').pages ↔ p = page' ∨ (p ∈ s.pages ∧ p.id ≠ page'.id) :=
    fun p => mem_setPage hpage hid
  refine { h with pages := ?_, transit := ?_, waits := ?_, validates := ?_, listed := ?_ }
  · refine h.pages.set hpage hid hoff ?_ hrdy
    exact hloaded
  · intro p hp hr
    rcases (hmem p).mp hp with rfl | ⟨hp, _⟩
    · cases hold : page.ready with
      | true => exact .inr (.inr ⟨hid, rfl⟩)
      | false =>
        rw [hid, hoff]
        exact (h.transit page hpage hold).imp_right .inl
    · exact (h.transit p hp hr).imp_right .inl
  · intro w hw
    obtain ⟨p, hp, hpw, hpo⟩ := h.waits w hw
    by_cases hpp : p.id = page'.id
    · obtain rfl := inj_on_of_nodup_map h.pages.ids hp hpage (by rw [hpp, hid])
      exact ⟨page', (hmem _).mpr (.inl rfl), by rw [hid, hpw], by rw [hoff, hpo]⟩
    · exact ⟨p, (hmem p).mpr (.inr ⟨hp, hpp⟩), hpw, hpo⟩
  · intro p hp hr hwtd
    rcases (hmem p).mp hp with rfl | ⟨hp, _⟩
    · cases hold : page.ready with
      | false => exact .inr (.inr ⟨hid, rfl⟩)
      | true =>
        rw [hid] at hwtd ⊢
        exact (h.validates page hpage hold hwtd).imp_right .inl
    · exact (h.validates p hp hr hwtd).imp_right .inl
  · intro id hlis
    obtain ⟨hlt, hvec⟩ := h.listed id hlis
    refine ⟨hlt, ?_⟩
    intro p hp hpid
    rcases (hmem p).mp hp with rfl | ⟨hp, _⟩
    · exact hvector (hvec page hpage (hid.symm.trans hpid))
    · exact hvec p hp hpid

theorem Inv.wake (h : Inv f ps lost unlisted s) (hps : PageSize ps)
    (hpage : page ∈ s.pages) (hv : page.vector = some v) :
    Inv f ps lost (fun id => unlisted id ∧ id ≠ page.id)
      { s with board := s.board.wakeup page.id page.vector } := by
  have hwts : ∀ w, w ∈ (s.board.wakeup page.id page.vector).waits ↔
      w ∈ s.board.waits ∧ w.page ≠ page.id := by
    intro w
    rw [wakeup_waits, mem_release_iff]
  refine { h with waits := ?_, validates := ?_, trav := ?_, tracks := ?_ }
  · exact fun w hw => h.waits w ((hwts w).mp hw).1
  · intro p hp hrdy hwtd
    obtain ⟨w, hw, hwp⟩ := (isWaitedOn_iff _ _).mp hwtd
    obtain ⟨hw, hne⟩ := (hwts w).mp hw
    rw [hwp] at hne
    exact (h.validates p hp hrdy ((isWaitedOn_iff _ _).mpr ⟨w, hw, hwp⟩)).imp_right
      (fun hu => ⟨hu, hne⟩)
  · intro i hi hdisp
    rw [offset_congr (wakeup_range s.board page.id page.vector i)]
    exact h.trav i (lt_of_lt_of_eq hi (wakeup_count ..)) hdisp
  · have hwaitq : ∀ w ∈ s.board.waitq page.id, v.flatten = pread f w.pageOffset ps := by
      intro w hw
      obtain ⟨hw, hwpage⟩ := (mem_waitq_iff _ _ _).mp hw
      obtain ⟨p, hp, hid, hoff⟩ := h.waits w hw
      obtain rfl : p = page := inj_on_of_nodup_map h.pages.ids hp hpage (by rw [hid, hwpage])
      rw [h.pages.loaded p hpage v hv, hoff]
    have htr := h.tracks.wakeup hps hwaitq
    rw [← hv] at htr
    refine htr.congr ?_ ?_
    · exact todo_congr (wakeup_count ..) rfl (wakeup_range s.board page.id page.vector)
    · exact active_congr (wakeup_count ..) rfl

/-- A page with data wakes the frames that wait on it, and needs no exception after that. -/
theorem Inv.pageWakeup (h : Inv f ps lost unlisted s) (hps : PageSize ps)
    (hpage : page ∈ s.pages) (hv : page.vector = some v) :
    Inv f ps (fun id => lost id ∧ id ≠ page.id) (fun id => unlisted id ∧ id ≠ page.id)
      (s.iocPageWakeup page) := by
  have hset := h.setPage { page with ready := true } hpage rfl rfl (h.pages.loaded page hpage)
    (fun _ => by rw [hv]; exact Option.some_ne_none v) id
  have hmem := (@mem_setPage s page { page with ready := true } _ hpage rfl).mpr (.inl rfl)
  refine (hset.wake hps hmem hv).tighten ?_ ?_
  · intro p hp hl hr
    have hne : p.id ≠ page.id := by
      intro hid
      simp [eq_of_mem_setPage hp hid] at hr
    exact ⟨hl.resolve_right (fun hc => hne hc.1), hne⟩
  · rintro p _ ⟨hu, hne⟩ _ _
    exact ⟨hu.resolve_right (fun hc => hne hc.1), hne⟩

theorem asks_page (hps : 0 < ps) (hq : q ∈ pagesOf ps fr) :
    Asks ps fr q (max (q * ps) fr.offset) (min (fr.stop - max (q * ps) fr.offset) ps) := by
  have hstop := page_lt_stop hps hq
  have hst := pageStart_eq hps hq
  have hnext := pageStart_succ hps hq
  have hle : fr.offset ≤ fr.stop := le_add_right _ _
  constructor
  · rw [hst]
    omega
  · rw [hnext, succ_mul]
    omega
  · rw [Frame.stop]
    omega

variable (h : Inv f ps lost unlisted s)
include h

theorem Inv.wait (hps : 0 < ps) (hi : i < s.board.count) (hdisp : (s.dispatch i).dispatching = true)
    (htrav : (s.dispatch i).travOffset = q * ps) (hq : q ∈ pagesOf ps (s.board.frame i))
    (hpage : page ∈ s.pages) (hoffset : page.offset = q * ps) :
    Inv f ps lost (fun id => unlisted id ∨ id = page.id)
      ((s.nextTrav i).iocWaitOnPage i (s.dispatch i).travOffset page) := by
  obtain ⟨w, hw⟩ : ∃ w : Waiter, w =
      { page := page.id, pageOffset := page.offset, frame := i,
        offset := max (s.dispatch i).travOffset (s.board.frame i).offset,
        size := min ((s.board.frame i).stop -
          max (s.dispatch i).travOffset (s.board.frame i).offset) s.pageSize } :=
    ⟨_, rfl⟩
  have hstate : (s.nextTrav i).iocWaitOnPage i (s.dispatch i).travOffset page =
      { s.nextTrav i with board := s.board.wait w } := by
    rw [hw]
    rfl
  have hdis : ∀ j, (s.nextTrav i).dispatch j =
      if j = i then { s.dispatch i with travOffset := (q + 1) * ps } else s.dispatch j := by
    intro j
    rw [nextTrav]
    simp only [update_apply, htrav, h.pageSize, Nat.succ_mul]
  have htodo : ∀ j r, Todo ps { s.nextTrav i with board := s.board.wait w } j r ↔
      Todo ps s j r ∧ ¬ (j = i ∧ r = q) := by
    intro j r
    simp only [Todo, hdis, pagesOf_congr ps (wait_range s.board w j)]
    by_cases hj : j = i
    · subst hj
      simp only [if_pos, htrav, Nat.mul_le_mul_right_iff hps, true_and]
      constructor
      · rintro ⟨h1, h2, h3, h4⟩
        exact ⟨⟨h1, h2, h3, by omega⟩, by omega⟩
      · rintro ⟨⟨h1, h2, h3, h4⟩, h5⟩
        exact ⟨h1, h2, h3, by omega⟩
    · simp only [hj, false_and, not_false_eq_true, and_true]
      rfl
  have hmem : ∀ x, x ∈ (s.board.wait w).waits ↔ x = w ∨ x ∈ s.board.waits := fun x => mem_cons
  rw [hstate]
  refine { h with waits := ?_, validates := ?_, trav := ?_, tracks := ?_ }
  · exact forall_mem_cons.mpr ⟨⟨page, hpage, by rw [hw], by rw [hw]⟩, h.waits⟩
  · intro p hp hrdy hwtd
    obtain ⟨x, hx, hxp⟩ := (isWaitedOn_iff _ _).mp hwtd
    rcases (hmem x).mp hx with rfl | hx
    · right
      right
      rw [← hxp, hw]
    · exact (h.validates p hp hrdy ((isWaitedOn_iff _ _).mpr ⟨x, hx, hxp⟩)).imp_right .inl
  · intro j hj hdj
    have hoff : ((s.board.wait w).frame j).offset = (s.board.frame j).offset :=
      offset_congr (wait_range s.board w j)
    simp only [hdis] at hdj ⊢
    rw [hoff]
    split_ifs at hdj ⊢ with hji
    · subst hji
      exact ⟨q + 1, Nat.le_succ_of_le (mem_pagesOf_iff.mp hq).1, rfl⟩
    · exact h.trav j hj hdj
  · have hcome : Todo ps s w.frame q := by
      rw [hw]
      exact ⟨hi, hdisp, hq, Nat.le_of_eq htrav⟩
    have hasks : Asks ps (s.board.frame w.frame) q w.offset w.size := by
      rw [hw]
      simp only [htrav, h.pageSize]
      exact asks_page hps hq
    have hfr : w.frame = i := by rw [hw]
    have htr : Tracks f ps (s.board.wait w)
        (Todo ps { s.nextTrav i with board := s.board.wait w }) (active s)
        (w :: s.board.waits) (w :: s.board.waits) := by
      refine h.tracks.wait hps ?_ ?_ hasks hcome ?_
      · rw [hw, hoffset]
      · rw [hfr]
        exact hq
      · intro j r
        rw [hfr]
        exact htodo j r
    refine htr.congr (fun _ _ => Iff.rfl) ?_
    intro j
    simp only [active, hdis]
    split_ifs with hji
    · subst hji
      rfl
    · rfl

theorem Inv.create (hid : page.id = s.nextPage) (hoff : page.offset = q * ps)
    (hrdy : page.ready = false) (hvector : page.vector = none)
    (hnew : ∀ p ∈ s.pages, p.offset ≠ page.offset) :
    Inv f ps (fun id => lost id ∨ id = page.id) unlisted
      { s with pages := s.pages ++ [page], nextPage := s.nextPage + 1 } := by
  refine { h with pages := ?_, transit := ?_, waits := ?_, validates := ?_, listed := ?_ }
  · exact h.pages.append hid ⟨q, hoff⟩ hrdy hvector hnew
  · refine forall_mem_append.mpr ⟨fun p hp hr => (h.transit p hp hr).imp_right .inl, ?_⟩
    exact forall_mem_singleton.mpr (fun _ => .inr (.inr rfl))
  · intro w hw
    obtain ⟨p, hp, hpw⟩ := h.waits w hw
    exact ⟨p, mem_append_left _ hp, hpw⟩
  · exact forall_mem_append.mpr ⟨h.validates, forall_mem_singleton.mpr (by simp [hrdy])⟩
  · intro id hlis
    obtain ⟨hlt, hvec⟩ := h.listed id hlis
    refine ⟨lt_succ_of_lt hlt, forall_mem_append.mpr ⟨hvec, forall_mem_singleton.mpr ?_⟩⟩
    omega

theorem Inv.addFault (hq : offset = q * ps) :
    Inv f ps (fun id => lost id ∧ ∀ p ∈ s.pages, p.id = id → p.offset ≠ offset) unlisted
      (s.iocPageFault offset) := by
  refine { h with faults := ?_, transit := ?_ }
  · constructor
    · exact forall_mem_append.mpr ⟨h.faults.aligned, forall_mem_singleton.mpr ⟨q, hq⟩⟩
    · exact forall_mem_append.mpr ⟨h.faults.replies, forall_mem_singleton.mpr nofun⟩
  · intro p hp hrdy
    by_cases hpo : p.offset = offset
    · exact .inl ⟨⟨offset, none⟩, mem_append_right _ (mem_singleton_self _), hpo.symm⟩
    · rcases h.transit p hp hrdy with ⟨x, hx, hxo⟩ | hl
      · exact .inl ⟨x, mem_append_left _ hx, hxo⟩
      · right
        refine ⟨hl, ?_⟩
        intro p' hp' hid
        obtain rfl := inj_on_of_nodup_map h.pages.ids hp' hp hid
        exact hpo

theorem Inv.eraseFault (hx : s.faults[k]? = some x) :
    Inv f ps (fun id => lost id ∨ ∃ p ∈ s.pages, p.id = id ∧ p.offset = x.offset) unlisted
      { s with faults := s.faults.eraseIdx k } := by
  have hsub : (s.faults.eraseIdx k).Sublist s.faults := eraseIdx_sublist _ _
  refine { h with faults := ?_, transit := ?_ }
  · exact ⟨fun y hy => h.faults.aligned y (hsub.subset hy),
      fun y hy => h.faults.replies y (hsub.subset hy)⟩
  · intro p hp hrdy
    rcases h.transit p hp hrdy with ⟨y, hy, hyo⟩ | hl
    · by_cases hpx : p.offset = x.offset
      · exact .inr (.inr ⟨p, hp, rfl, hpx⟩)
      · left
        refine ⟨y, mem_eraseIdx_of_ne hx hy ?_, hyo⟩
        rintro rfl
        exact hpx hyo.symm
    · exact .inr (.inl hl)

theorem Inv.setFault (hx : s.faults[k]? = some x)
    (hr : r.opRet = -1 ∨ (0 ≤ r.opRet ∧ r.vector.flatten = pread f x.offset ps)) :
    Inv f ps lost unlisted
      { s with faults := s.faults.set k { offset := x.offset, reply := some r } } := by
  have hoffs : (s.faults.set k { offset := x.offset, reply := some r }).map Fault.offset =
      s.faults.map Fault.offset := by
    obtain ⟨hk, hget⟩ := List.getElem?_eq_some_iff.mp hx
    have hlt : k < (s.faults.map Fault.offset).length := by
      rw [length_map]
      exact hk
    have hoff : x.offset = (s.faults.map Fault.offset)[k] := by rw [getElem_map, hget]
    rw [map_set, hoff, set_getElem_self]
  refine { h with faults := ?_, transit := ?_ }
  · constructor
    · intro y hy
      rcases mem_or_eq_of_mem_set hy with hy | rfl
      · exact h.faults.aligned y hy
      · exact h.faults.aligned x (mem_of_getElem? hx)
    · intro y hy r' hr'
      rcases mem_or_eq_of_mem_set hy with hy | rfl
      · exact h.faults.replies y hy r' hr'
      · cases hr'
        exact hr
  · intro p hp hrdy
    refine (h.transit p hp hrdy).imp_left ?_
    rintro ⟨y, hy, hyo⟩
    have hmem : p.offset ∈ s.faults.map Fault.offset := mem_map.mpr ⟨y, hy, hyo⟩
    rw [← hoffs] at hmem
    exact mem_map.mp hmem

theorem Inv.loadPage (hpage : page ∈ s.pages) (hid : page'.id = page.id)
    (hoff : page'.offset = page.offset) (hrdy : page'.ready = page.ready)
    (hvec : page'.vector = some v) (hv : v.flatten = pread f page.offset ps) :
    Inv f ps lost unlisted (s.setPage page') := by
  have hne : page'.vector ≠ none := by
    rw [hvec]
    exact Option.some_ne_none v
  refine (h.setPage page' hpage hid hoff ?_ (fun _ => hne) (fun _ => hne)).tighten ?_ ?_
  · intro v' hv'
    rw [hvec] at hv'
    cases hv'
    exact hv
  · rintro p hp (hl | ⟨hpid, hr⟩) hp'
    · exact hl
    · simp [eq_of_mem_setPage hp (hpid.trans hid.symm), hrdy, hr] at hp'
  · rintro p hp (hu | ⟨hpid, hr⟩) hp' _
    · exact hu
    · simp [eq_of_mem_setPage hp (hpid.trans hid.symm), hrdy, hr] at hp'

theorem Inv.refault (hpage : page ∈ s.pages) :
    Inv f ps (fun id => lost id ∧ id ≠ page.id) (fun id => unlisted id ∧ id ≠ page.id)
      ((s.setPage { page with ready := false }).iocPageFault page.offset) := by
  have hset := h.setPage { page with ready := false } hpage rfl rfl (h.pages.loaded page hpage)
    (fun hc => Bool.noConfusion hc) id
  obtain ⟨q, hq⟩ := h.pages.aligned page hpage
  refine (hset.addFault hq).tighten ?_ ?_
  · rintro p hp ⟨hl, hoth⟩ _
    have hne : p.id ≠ page.id := by
      intro hid
      exact hoth p hp rfl (by rw [eq_of_mem_setPage hp hid])
    exact ⟨hl.resolve_right (fun hc => hne hc.1), hne⟩
  · intro p hp hu hr _
    have hne : p.id ≠ page.id := by
      intro hid
      simp [eq_of_mem_setPage hp hid] at hr
    exact ⟨hu.resolve_right (fun hc => hne hc.1), hne⟩

theorem Inv.relist {waitq : List Nat} {validates : Nat}
    (hlis : ∀ id, Listed { s with waitq := waitq, wakeups := wakeups } id → Listed s id ∨
      ∃ p ∈ s.pages, p.id = id ∧ p.vector ≠ none)
    (hback : ∀ id, Listed s id → Listed { s with waitq := waitq, wakeups := wakeups } id ∨
      unlisted' id)
    (hunli : ∀ id, unlisted id → Listed { s with waitq := waitq, wakeups := wakeups } id ∨
      unlisted' id)
    (hask : waitq ≠ [] → 0 < validates ∨ ∃ stbuf, .called stbuf ∈ wakeups) :
    Inv f ps lost unlisted'
      { s with waitq := waitq, validates := validates, wakeups := wakeups } := by
  refine { h with validates := ?_, listed := ?_, asked := ?_ }
  · intro p hp hr hwtd
    rcases h.validates p hp hr hwtd with hl | hu
    · exact hback p.id hl
    · exact hunli p.id hu
  · intro id hid
    rcases hlis id hid with hl | ⟨page, hpage, rfl, hne⟩
    · exact h.listed id hl
    · refine ⟨h.pages.id_lt page hpage, ?_⟩
      intro p hp hpid
      obtain rfl := inj_on_of_nodup_map h.pages.ids hp hpage hpid
      exact hne
  · exact hask

theorem Inv.readv {size : Nat} (hsize : size < 2 ^ 31) (mightNeedValidate : Bool) :
    Inv f ps lost unlisted (s.iocReadv offset size mightNeedValidate) := by
  obtain ⟨s', hs'⟩ : ∃ s', s' = s.iocReadv offset size mightNeedValidate := ⟨_, rfl⟩
  have hcnt : s'.board.count = s.board.count + 1 := by
    rw [hs']
    rfl
  have hfr : ∀ i, s'.board.frame i = (s.board.enter offset size s.floor).frame i := by
    intro i
    rw [hs']
    rfl
  have hdis : ∀ i, s'.dispatch i =
      if i = s.board.count then
        { travOffset := Blocks.floor offset ps, mightNeedValidate := mightNeedValidate,
          dispatching := true }
      else
        s.dispatch i := by
    intro i
    rw [hs', iocReadv, h.pageSize]
    exact update_apply _ _ _ _
  have hold : ∀ i ≠ s.board.count,
      s'.dispatch i = s.dispatch i ∧ s'.board.frame i = s.board.frame i := by
    intro i hi
    rw [hdis, hfr, enter_frame, if_neg hi, if_neg hi]
    exact ⟨rfl, rfl⟩
  have hnew : s'.dispatch s.board.count =
      { travOffset := Blocks.floor offset ps, mightNeedValidate := mightNeedValidate,
        dispatching := true } := by rw [hdis, if_pos rfl]
  have hoff : (s'.board.frame s.board.count).offset = offset := by
    rw [hfr, enter_frame, if_pos rfl]
  have htr : Tracks f ps (s.board.enter offset size s.floor) (Todo ps s') (active s')
      s.board.waits s.board.waits := by
    refine (h.tracks.enter hsize).congr ?_ ?_
    · intro i q
      split_ifs with hi
      · rw [hi, Todo, hcnt, hnew, ← hfr]
        constructor
        · rintro ⟨_, _, hq, _⟩
          exact hq
        · intro hq
          refine ⟨lt_succ_self _, rfl, hq, ?_⟩
          have hfst := (mem_pagesOf_iff.mp hq).1
          rw [hoff] at hfst
          exact mul_le_mul_right ps hfst
      · simp only [Todo, hcnt, hold i hi, Nat.lt_succ_iff_lt_or_eq, hi, or_false]
    · intro i
      split_ifs with hi
      · simp [active, hcnt, hi, hnew]
      · simp only [active, hcnt, hold i hi, Nat.lt_succ_iff_lt_or_eq, hi, or_false]
  subst hs'
  refine { h with trav := ?_, tracks := ?_ }
  · intro i hi hd
    rcases Nat.lt_succ_iff_lt_or_eq.mp hi with hi | rfl
    · obtain ⟨hdisp, hframe⟩ := hold i (Nat.ne_of_lt hi)
      rw [hdisp] at hd ⊢
      rw [hframe]
      exact h.trav i hi hd
    · rw [hnew, hoff]
      exact ⟨offset / ps, le_refl _, rfl⟩
  · exact htr

theorem Inv.finish (hi : i < s.board.count) (hdisp : (s.dispatch i).dispatching = true)
    (hend : roof (s.board.frame i).stop ps ≤ (s.dispatch i).travOffset) :
    Inv f ps lost unlisted
      { s with
        board := s.board.frameReturn i,
        dispatch := update s.dispatch i { s.dispatch i with dispatching := false } } := by
  obtain ⟨s', hs'⟩ : ∃ s' : State, s' =
      { s with
        board := s.board.frameReturn i,
        dispatch := update s.dispatch i { s.dispatch i with dispatching := false } } :=
    ⟨_, rfl⟩
  have hcnt : s'.board.count = s.board.count := by
    rw [hs']
    exact frameReturn_count _ _
  have hdis : ∀ j, s'.dispatch j =
      if j = i then { s.dispatch i with dispatching := false } else s.dispatch j := by
    intro j
    rw [hs']
    exact update_apply _ _ _ _
  have hrng : ∀ j, (s'.board.frame j).range = (s.board.frame j).range := by
    intro j
    rw [hs']
    exact frameReturn_range _ _ _
  have hdone : ∀ q, ¬ Todo ps s i q := by
    rintro q ⟨_, _, hq, htrav⟩
    exact not_le_of_roof_le hend hq htrav
  have hact : active s i = true := by
    rw [active, hdisp, Bool.and_true]
    exact decide_eq_true hi
  have hinact : active s' i = false := by rw [active, hdis, if_pos rfl, Bool.and_false]
  have hoths : ∀ j ≠ i, active s' j = active s j := by
    intro j hj
    rw [active, active, hcnt, hdis, if_neg hj]
  have htr := h.tracks.finish hact hdone hinact hoths
  have htodo : ∀ j q, Todo ps s' j q ↔ Todo ps s j q := by
    intro j q
    rw [Todo, Todo, hcnt, pagesOf_congr ps (hrng j), hdis]
    by_cases hj : j = i
    · subst hj
      rw [if_pos rfl]
      constructor
      · rintro ⟨_, hd, _⟩
        cases hd
      · exact fun hc => absurd hc (hdone q)
    · rw [if_neg hj]
  subst hs'
  refine { h with waits := ?_, validates := ?_, trav := ?_, tracks := ?_ }
  · intro w hw
    exact h.waits w (by simpa using hw)
  · intro p hp hrdy hwtd
    refine h.validates p hp hrdy ?_
    rw [isWaitedOn_iff] at hwtd ⊢
    simpa using hwtd
  · intro j hj hd
    rw [hcnt] at hj
    rw [hdis] at hd ⊢
    rw [offset_congr (hrng j)]
    by_cases hji : j = i
    · simp [if_pos hji] at hd
    · rw [if_neg hji] at hd ⊢
      exact h.trav j hj hd
  · exact htr.congr htodo (fun _ => rfl)

theorem Inv.setMtime (mtime : Nat) : Inv f ps lost unlisted { s with mtime := mtime } := by
  exact { h with }

end

section

variable {page : Page} {reply : FaultReply} {x : Wakeup} {stbuf : Option Nat}

theorem iocPageGet_eq_none (h : Inv f ps lost unlisted s) (hq : offset = q * ps)
    (hget : s.iocPageGet offset = none) : ∀ p ∈ s.pages, p.offset ≠ offset := by
  rw [iocPageGet, h.pageSize, hq, floor_mul, find?_eq_none] at hget
  intro p hp hpo
  exact hget p hp (by rw [hpo, hq]; exact beq_self_eq_true _)

theorem iocPageGet_eq_some (h : Inv f ps lost unlisted s) (hq : offset = q * ps)
    (hget : s.iocPageGet offset = some page) : page ∈ s.pages ∧ page.offset = offset := by
  rw [iocPageGet, h.pageSize, hq, floor_mul] at hget
  have hfnd := find?_some hget
  refine ⟨mem_of_find?_eq_some hget, ?_⟩
  rw [hq]
  exact beq_iff_eq.mp hfnd

theorem Inv.waitOnInode (h : Inv f ps lost (fun id => unlisted id ∨ id = page.id) s)
    (hpage : page ∈ s.pages) (hrdy : page.ready = true) :
    Inv f ps lost unlisted (s.iocWaitOnInode page) := by
  have hmem : ∀ id, id ∈ (if page.id ∈ s.waitq then s.waitq else page.id :: s.waitq) ↔
      id ∈ s.waitq ∨ id = page.id := by
    intro id
    split_ifs with hin
    · exact (or_iff_left_of_imp (fun heq => heq ▸ hin)).symm
    · rw [mem_cons, or_comm]
  apply h.relist
  · rintro id (hid | hid)
    · rcases (hmem id).mp hid with hid | rfl
      · exact .inl (.inl hid)
      · exact .inr ⟨page, hpage, rfl, h.pages.ready page hpage hrdy⟩
    · exact .inl (.inr hid)
  · rintro id (hid | hid)
    · exact .inl (.inl ((hmem id).mpr (.inl hid)))
    · exact .inl (.inr hid)
  · rintro id (hid | rfl)
    · exact .inr hid
    · exact .inl (.inl ((hmem page.id).mpr (.inr rfl)))
  · intro _
    split_ifs with hemp
    · exact .inl (succ_pos _)
    · exact h.asked hemp

variable (h : Exact f ps s) (hps : PageSize ps)
include h hps

theorem Inv.dispatchMiss (hi : i < s.board.count) (hdisp : (s.dispatch i).dispatching = true)
    (htrav : (s.dispatch i).travOffset = q * ps) (hq : q ∈ pagesOf ps (s.board.frame i))
    (hget : s.iocPageGet (s.dispatch i).travOffset = none) :
    Exact f ps
      ((s.nextTrav i).dispatchPage i (s.dispatch i).travOffset) := by
  let page := s.iocPageCreate (s.dispatch i).travOffset
  have hoff : page.offset = q * ps := by
    show Blocks.floor (s.dispatch i).travOffset s.pageSize = _
    rw [h.pageSize, htrav]
    exact floor_mul q ps
  have hnew : ∀ p ∈ s.pages, p.offset ≠ page.offset := by
    rw [hoff, ← htrav]
    exact iocPageGet_eq_none h htrav hget
  have hmem : page ∈ s.pages ++ [page] := mem_append_right _ (mem_singleton_self _)
  have hcre := h.create rfl hoff rfl rfl hnew
  have hwait := hcre.wait hps.pos hi hdisp htrav hq hmem hoff
  have hflt := hwait.addFault htrav
  have hstate : (s.nextTrav i).dispatchPage i (s.dispatch i).travOffset =
      (((nextTrav { s with pages := s.pages ++ [page], nextPage := s.nextPage + 1 }
        i).iocWaitOnPage i (s.dispatch i).travOffset page).iocPageFault
          (s.dispatch i).travOffset) := by
    have hget' : (s.nextTrav i).iocPageGet (s.dispatch i).travOffset = none := hget
    rw [dispatchPage, hget']
    rfl
  have hsame : ∀ p ∈ s.pages ++ [page], p.id = page.id → p = page := by
    intro p hp hpid
    exact inj_on_of_nodup_map hcre.pages.ids hp hmem hpid
  rw [hstate]
  refine hflt.tighten ?_ ?_
  · rintro p hp ⟨hl, hoth⟩ _
    rcases hl with hl | hl
    · exact hl
    · exact hoth p hp rfl (by rw [hsame p hp hl, hoff]; exact htrav.symm)
  · rintro p hp hu hr _
    rcases hu with hu | hu
    · exact hu
    · rw [hsame p hp hu] at hr
      cases hr

theorem Inv.dispatchHit (hi : i < s.board.count)
    (hdisp : (s.dispatch i).dispatching = true) (htrav : (s.dispatch i).travOffset = q * ps)
    (hq : q ∈ pagesOf ps (s.board.frame i))
    (hget : s.iocPageGet (s.dispatch i).travOffset = some page) :
    Exact f ps
      ((s.nextTrav i).dispatchPage i (s.dispatch i).travOffset) := by
  obtain ⟨hmem, hoff⟩ := iocPageGet_eq_some h htrav hget
  have hwait := h.wait hps.pos hi hdisp htrav hq hmem (hoff.trans htrav)
  have hget' : (s.nextTrav i).iocPageGet (s.dispatch i).travOffset = some page := hget
  rw [dispatchPage, hget']
  by_cases hrdy : page.ready = true
  · simp only [hrdy, if_true]
    rw [iocHit]
    split_ifs
    · exact hwait.waitOnInode hmem hrdy
    · obtain ⟨v, hv⟩ := Option.ne_none_iff_exists'.mp (h.pages.ready page hmem hrdy)
      refine (hwait.pageWakeup hps hmem hv).tighten ?_ ?_
      · rintro p _ ⟨hl, _⟩ _
        exact hl
      · rintro p _ ⟨hu | hu, hne⟩ _ _
        · exact hu
        · exact hne hu
  · simp only [hrdy]
    refine hwait.tighten (fun _ _ hl _ => hl) ?_
    rintro p hp (hu | hu) hr _
    · exact hu
    · obtain rfl := inj_on_of_nodup_map h.pages.ids hp hmem hu
      exact hrdy hr

theorem Inv.dispatchRequests (hi : i < s.board.count)
    (hdisp : (s.dispatch i).dispatching = true) : Exact f ps (s.dispatchRequests i) := by
  obtain ⟨q, hfst, htrav⟩ := h.trav i hi hdisp
  rw [State.dispatchRequests]
  split_ifs with hlt <;> rw [h.pageSize] at hlt
  · have hq : q ∈ pagesOf ps (s.board.frame i) :=
      mem_pagesOf_of_lt_roof hfst (by rw [← htrav]; exact hlt)
    cases hget : s.iocPageGet (s.dispatch i).travOffset with
    | none => exact h.dispatchMiss hps hi hdisp htrav hq hget
    | some page => exact h.dispatchHit hps hi hdisp htrav hq hget
  · exact h.finish hi hdisp (not_lt.mp hlt)

omit h hps

theorem Inv.faultMtime (h : Inv f ps lost unlisted s) (reply : FaultReply) :
    Inv f ps lost unlisted (s.faultMtime reply) := by
  rw [State.faultMtime]
  split_ifs
  · exact h.flush.setMtime reply.mtime
  · exact h.setMtime reply.mtime
  · exact h.flush
  · exact h

theorem faultMtime_pages_subset (s : State) (reply : FaultReply) :
    (s.faultMtime reply).pages ⊆ s.pages := by
  have hfl : s.iocInodeFlush.pages ⊆ s.pages := filter_subset_self _
  rw [faultMtime]
  split_ifs <;> first | exact hfl | exact List.Subset.refl _

theorem faultMtime_board (s : State) (reply : FaultReply) :
    (s.faultMtime reply).board = s.board := by
  rw [faultMtime]
  split_ifs <;> rfl

theorem not_mem_faultMtime (hret : reply.opRet = -1)
    (hwtd : s.board.isWaitedOn page.id = false) : page ∉ (s.faultMtime reply).pages := by
  intro hc
  rw [faultMtime, if_pos (Or.inl hret), if_neg (by rw [hret]; decide)] at hc
  have hkeep := (mem_filter.mp hc).2
  simp [hwtd] at hkeep

theorem Inv.faultPage (h : Inv f ps (fun id => id = page.id) (fun _ => False) s) (hps : PageSize ps)
    (hpage : page ∈ s.pages)
    (hv : reply.vector.flatten = pread f page.offset ps)
    (hkept : page.ready = true ∨ s.board.isWaitedOn page.id = true) :
    Exact f ps (s.faultPage page reply) := by
  obtain ⟨page', hpage'⟩ : ∃ page' : Page, page' =
      { page with vector := some reply.vector } := ⟨_, rfl⟩
  have hid : page'.id = page.id := by rw [hpage']
  have hrdy : page'.ready = page.ready := by rw [hpage']
  have hvec : page'.vector = some reply.vector := by rw [hpage']
  have hload := h.loadPage hpage hid (by rw [hpage']) hrdy hvec hv
  have hmem : page' ∈ (s.setPage page').pages := (mem_setPage hpage hid).mpr (.inl rfl)
  have hflt : s.faultPage page reply =
      if s.board.isWaitedOn page'.id then (s.setPage page').iocPageWakeup page'
      else s.setPage page' := by
    rw [hpage']
    rfl
  rw [hflt]
  split_ifs with hwtd
  · refine (hload.pageWakeup hps hmem hvec).tighten ?_ ?_
    · rintro p _ ⟨hl, hne⟩ _
      exact hne (by rw [hl, hid])
    · rintro p _ ⟨hu, _⟩ _ _
      exact hu
  · refine hload.tighten ?_ (fun _ _ hu _ _ => hu)
    intro p hp hl hr
    rw [hid] at hwtd
    have hpready := hkept.resolve_right hwtd
    obtain rfl := inj_on_of_nodup_map hload.pages.ids hp hmem (by rw [hl, hid])
    simp [hrdy, hpready] at hr

theorem Inv.faultCbk (h : Exact f ps s) (hps : PageSize ps)
    (hx : s.faults[k]? = some ⟨offset, some reply⟩) (hkept : FaultKept s offset reply) :
    Exact f ps
      (iocFaultCbk { s with faults := s.faults.eraseIdx k } offset reply) := by
  have hmem := mem_of_getElem? hx
  obtain ⟨q, hq⟩ := h.faults.aligned _ hmem
  have hrep := h.faults.replies _ hmem reply rfl
  obtain ⟨s', hs'⟩ : ∃ s' : State, s' = { s with faults := s.faults.eraseIdx k } := ⟨_, rfl⟩
  have herase := h.eraseFault hx
  rw [← hs'] at herase
  have hmtime := herase.faultMtime reply
  have hsub := faultMtime_pages_subset s' reply
  have hpgs : s'.pages = s.pages := by rw [hs']
  have hboard : (s'.faultMtime reply).board = s.board := by rw [faultMtime_board, hs']
  rw [← hs', iocFaultCbk]
  cases hget : (s'.faultMtime reply).iocPageGet offset with
  | none =>
    have hnone := iocPageGet_eq_none hmtime hq hget
    refine hmtime.tighten ?_ (fun _ _ hu _ _ => hu)
    intro p hp hl _
    obtain ⟨p', hp', hid, hoff⟩ := hl.resolve_left id
    have hp'' : p ∈ s.pages := by
      rw [← hpgs]
      exact hsub hp
    obtain rfl := inj_on_of_nodup_map h.pages.ids hp' hp'' hid
    exact hnone p' hp hoff
  | some page =>
    obtain ⟨hpage, hoff⟩ := iocPageGet_eq_some hmtime hq hget
    have hpage' : page ∈ s.pages := by
      rw [← hpgs]
      exact hsub hpage
    have hfit := hkept page hpage' hoff
    have hclean : Inv f ps (fun id => id = page.id) (fun _ => False) (s'.faultMtime reply) := by
      refine hmtime.tighten ?_ (fun _ _ hu _ _ => hu)
      intro p hp hl _
      obtain ⟨p', hp', hid, hpo⟩ := hl.resolve_left id
      obtain rfl := inj_on_of_nodup_map h.pages.offsets hp' hpage' (by rw [hpo, hoff])
      exact hid.symm
    rcases hrep with hret | ⟨hret, hbytes⟩
    · -- The page of a fault that failed was destroyed by the flush.
      rw [hret, if_pos (by decide)] at hfit
      have hwtd : s'.board.isWaitedOn page.id = false := by
        rw [hs']
        exact hfit
      exact absurd hpage (not_mem_faultMtime hret hwtd)
    · rw [if_neg (Int.not_lt.mpr hret)] at hfit
      simp only [if_neg (Int.not_lt.mpr hret)]
      refine hclean.faultPage hps hpage (by rw [hbytes, hoff]) ?_
      rw [hboard]
      exact hfit

theorem mem_wakeup_pages (hk : wakeups[k]? = some x) (id : Nat) :
    id ∈ wakeups.flatMap Wakeup.pages ↔ id ∈ x.pages ∨ ∃ y ∈ wakeups.eraseIdx k, id ∈ y.pages := by
  rw [mem_flatMap]
  constructor
  · rintro ⟨y, hy, hid⟩
    by_cases hyx : y = x
    · exact .inl (hyx ▸ hid)
    · exact .inr ⟨y, mem_eraseIdx_of_ne hk hy hyx, hid⟩
  · rintro (hid | ⟨y, hy, hid⟩)
    · exact ⟨x, mem_of_getElem? hk, hid⟩
    · exact ⟨y, mem_of_mem_eraseIdx hy, hid⟩

theorem mem_setWakeup_pages (hk : wakeups[k]? = some x) (valid : Bool) (ids : List Nat) (id : Nat) :
    id ∈ (setWakeup wakeups k valid ids).flatMap Wakeup.pages ↔
      id ∈ ids ∨ ∃ y ∈ wakeups.eraseIdx k, id ∈ y.pages := by
  cases ids with
  | nil => simp [setWakeup]
  | cons first rest =>
    obtain ⟨hlt, _⟩ := List.getElem?_eq_some_iff.mp hk
    have hset : (wakeups.set k (.waking valid (first :: rest)))[k]? =
        some (.waking valid (first :: rest)) := getElem?_set_self hlt
    rw [setWakeup, mem_wakeup_pages hset, eraseIdx_set_eq]
    rfl

theorem mem_setWakeup_of_called (hk : wakeups[k]? = some x) (hx : x ≠ .called stbuf)
    (hcld : .called stbuf ∈ wakeups) (valid : Bool) (ids : List Nat) :
    .called stbuf ∈ setWakeup wakeups k valid ids := by
  obtain ⟨j, hj⟩ := mem_iff_getElem?.mp hcld
  have hjk : j ≠ k := by
    rintro rfl
    rw [hk] at hj
    exact hx (Option.some.inj hj)
  cases ids with
  | nil => exact mem_eraseIdx_iff_getElem?.mpr ⟨j, hjk, hj⟩
  | cons first rest =>
    apply mem_of_getElem? (i := j)
    rw [setWakeup, getElem?_set_ne (Ne.symm hjk)]
    exact hj

theorem Inv.validateCbk (h : Inv f ps lost unlisted s) (stbuf : Option Nat) :
    Inv f ps lost unlisted (s.iocCacheValidateCbk stbuf) := by
  have hcld : ∀ {s : State} (stbuf : Option Nat) (validates : Nat), Inv f ps lost unlisted s →
      Inv f ps lost unlisted { s with
        validates := validates, wakeups := s.wakeups ++ [.called stbuf] } := by
    intro s stbuf validates h
    have hsame : ∀ id, id ∈ (s.wakeups ++ [Wakeup.called stbuf]).flatMap Wakeup.pages ↔
        id ∈ s.wakeups.flatMap Wakeup.pages := by simp [Wakeup.pages]
    apply h.relist
    · exact fun id hid => .inl (hid.imp_right (hsame id).mp)
    · exact fun id hid => .inl (hid.imp_right (hsame id).mpr)
    · exact fun _ hid => .inr hid
    · exact fun _ => .inr ⟨stbuf, mem_append_right _ (mem_singleton_self _)⟩
  rw [iocCacheValidateCbk]
  split_ifs
  · exact hcld stbuf _ h
  · exact hcld none _ (h.flush.setMtime (stbuf.getD s.mtime))

theorem Inv.takeWaitq (h : Inv f ps lost unlisted s) (hk : s.wakeups[k]? = some (.called stbuf))
    (valid : Bool) :
    Inv f ps lost unlisted
      { s with waitq := [], wakeups := setWakeup s.wakeups k valid s.waitq } := by
  have hold := mem_wakeup_pages hk
  have hnew := mem_setWakeup_pages hk valid s.waitq
  apply h.relist
  · rintro id (hid | hid)
    · cases hid
    · rcases (hnew id).mp hid with hid | hid
      · exact .inl (.inl hid)
      · exact .inl (.inr ((hold id).mpr (.inr hid)))
  · rintro id (hid | hid)
    · exact .inl (.inr ((hnew id).mpr (.inl hid)))
    · rcases (hold id).mp hid with hid | hid
      · cases hid
      · exact .inl (.inr ((hnew id).mpr (.inr hid)))
  · exact fun _ hid => .inr hid
  · exact fun hne => absurd rfl hne

theorem Inv.wakeup (h : Exact f ps s) (hps : PageSize ps) {id : Nat} {valid : Bool} {ids : List Nat}
    (hk : s.wakeups[k]? = some (.waking valid (id :: ids))) (hkept : ∃ p ∈ s.pages, p.id = id) :
    Exact f ps
      (wakeupPage { s with wakeups := setWakeup s.wakeups k valid ids } valid id) := by
  obtain ⟨page, hpage, rfl⟩ := hkept
  have hold := mem_wakeup_pages hk
  have hnew := mem_setWakeup_pages hk valid ids
  have hvec : page.vector ≠ none :=
    (h.listed page.id (.inr ((hold _).mpr (.inl mem_cons_self)))).2 page hpage rfl
  obtain ⟨v, hv⟩ := Option.ne_none_iff_exists'.mp hvec
  have hrelist : Inv f ps (fun _ => False) (fun i => i = page.id)
      { s with wakeups := setWakeup s.wakeups k valid ids } := by
    apply h.relist
    · rintro i (hi | hi)
      · exact .inl (.inl hi)
      · rcases (hnew i).mp hi with hi | hi
        · exact .inl (.inr ((hold i).mpr (.inl (mem_cons_of_mem _ hi))))
        · exact .inl (.inr ((hold i).mpr (.inr hi)))
    · rintro i (hi | hi)
      · exact .inl (.inl hi)
      · rcases (hold i).mp hi with hi | hi
        · rcases mem_cons.mp hi with hi | hi
          · exact .inr hi
          · exact .inl (.inr ((hnew i).mpr (.inl hi)))
        · exact .inl (.inr ((hnew i).mpr (.inr hi)))
    · exact fun _ hi => hi.elim
    · intro hne
      refine (h.asked hne).imp_right ?_
      rintro ⟨stbuf, hcld⟩
      exact ⟨stbuf, mem_setWakeup_of_called hk (by simp) hcld valid ids⟩
  have hfind : s.pages.find? (fun p => p.id == page.id) = some page := by
    obtain ⟨p, hp⟩ : ∃ p, s.pages.find? (fun p => p.id == page.id) = some p := by
      rw [← Option.isSome_iff_exists, find?_isSome]
      exact ⟨page, hpage, beq_self_eq_true _⟩
    have hfnd := find?_some hp
    rw [hp, inj_on_of_nodup_map h.pages.ids (mem_of_find?_eq_some hp) hpage (beq_iff_eq.mp hfnd)]
  rw [wakeupPage]
  simp only [hfind]
  split_ifs with hvalid hrdy
  · refine (hrelist.pageWakeup hps hpage hv).tighten (fun _ _ hl _ => hl.1) ?_
    rintro p _ ⟨hu, hne⟩ _ _
    exact hne hu
  · refine (hrelist.refault hpage).tighten (fun _ _ hl _ => hl.1) ?_
    rintro p _ ⟨hu, hne⟩ _ _
    exact hne hu
  · refine hrelist.tighten (fun _ _ hl _ => hl) ?_
    intro p hp hu hr _
    obtain rfl := inj_on_of_nodup_map h.pages.ids hp hpage hu
    exact hrdy hr

theorem Inv.serve (h : Inv f ps lost unlisted s) {reply : Nat → Option FaultReply}
    (hrep : ∀ offset r, reply offset = some r →
      r.opRet = -1 ∨ (0 ≤ r.opRet ∧ r.vector.flatten = pread f offset ps))
    (hs' : s.serve k reply = some s') : Inv f ps lost unlisted s' := by
  rw [State.serve] at hs'
  split at hs'
  · rename_i offset hx
    obtain ⟨r, hr, rfl⟩ := Option.map_eq_some_iff.mp hs'
    exact h.setFault hx (hrep offset r hr)
  · cases hs'

theorem readReply_right (h : Inv f ps lost unlisted s) (hsm : ps < 2 ^ 31)
    {vector : List (List Byte)} {mtime : Nat} (hr : s.readReply vector mtime offset = some r) :
    0 ≤ r.opRet ∧ r.vector.flatten = pread f offset ps := by
  rw [readReply, file, h.versions, h.pageSize] at hr
  split_ifs at hr with hvec
  rw [← Option.some.inj hr]
  refine ⟨?_, hvec⟩
  have hlen : iovLength vector ≤ ps := by
    rw [← length_flatten_eq_iovLength, hvec, pread]
    exact length_take_le _ _
  rw [int32_eq (by omega) (by omega)]
  exact Int.natCast_nonneg _

end

theorem Inv.step (h : Exact f ps s) (hps : PageSize ps) {e : Event}
    (hkept : Kept s e) (hs' : step s e = some s') : Exact f ps s' := by
  cases e with
  | readv offset size mightNeedValidate =>
    cases hs'
    exact h.readv hkept mightNeedValidate
  | dispatch i =>
    rw [IoCache.step] at hs'
    split_ifs at hs' with hi
    cases hs'
    exact h.dispatchRequests hps hi.1 hi.2
  | serveFault k vector mtime =>
    refine h.serve (fun offset r hr => .inr ?_) hs'
    exact readReply_right h hps.small hr
  | failFault k opErrno =>
    refine h.serve (fun offset r hr => .inl ?_) hs'
    cases hr
    rfl
  | faultCbk k =>
    rw [IoCache.step] at hs'
    split at hs'
    · rename_i offset reply hx
      cases hs'
      exact h.faultCbk hps hx (hkept _ hx reply rfl)
    · cases hs'
  | validateCbk stbuf =>
    rw [IoCache.step] at hs'
    split_ifs at hs'
    cases hs'
    exact h.validateCbk stbuf
  | takeWaitq k =>
    rw [IoCache.step] at hs'
    split at hs'
    · rename_i stbuf hk
      cases hs'
      exact h.takeWaitq hk _
    · cases hs'
  | wakeup k =>
    rw [IoCache.step] at hs'
    split at hs'
    · rename_i valid id ids hk
      cases hs'
      exact h.wakeup hps hk (hkept _ hk id rfl)
    · cases hs'
  | prune id =>
    cases hs'
    exact h.destroy id
  | change _ | serveChange _ _ | changeCbk _ => exact hkept.elim

theorem right_of_whole (hps : 0 < ps) (hsize : fr.size < 2 ^ 31) (h : Whole f ps fr) :
    Right f fr := by
  obtain ⟨g, hg⟩ := h
  have hbytes := hg.flatten_fills hps
  have hlen : (pread f fr.offset fr.size).length ≤ fr.size := by
    exact length_take_le _ _
  refine .inr ⟨?_, hbytes⟩
  show int32 (iovLength (fr.fills.flatMap Fill.vector)) = _
  rw [← length_flatten_eq_iovLength, hbytes]
  exact int32_eq (by omega) (by omega)

theorem waits_eq_nil_of_quiet (h : Exact f ps s) (hqt : Quiet s) : s.board.waits = [] := by
  obtain ⟨_, hflts, hvalidates, hwk⟩ := hqt
  apply eq_nil_iff_forall_not_mem.mpr
  intro w hw
  obtain ⟨p, hp, hid, _⟩ := h.waits w hw
  cases hrdy : p.ready with
  | false =>
    rcases h.transit p hp hrdy with ⟨x, hx, _⟩ | hl
    · simp [hflts] at hx
    · exact hl
  | true =>
    have hwtd := (isWaitedOn_iff _ _).mpr ⟨w, hw, hid.symm⟩
    rcases h.validates p hp hrdy hwtd with (hl | hl) | hu
    · rcases h.asked (ne_nil_of_mem hl) with hpos | ⟨stbuf, hcld⟩
      · omega
      · simp [hwk] at hcld
    · simp [hwk] at hl
    · exact hu

theorem Inv.answered (h : Exact f ps s) (hps : 0 < ps) : Answered f s := by
  constructor
  · exact h.tracks.unwound_nodup
  · intro p hp
    obtain ⟨hwhole, hoff, hsize⟩ := h.tracks.unwound_whole p hp
    refine ⟨right_of_whole hps ?_ hwhole, hoff, hsize⟩
    rw [hsize]
    exact h.tracks.small p.1 (h.tracks.unwound_lt p hp)
  · intro hqt i hi
    rw [← h.tracks.unwound_iff i hi, h.tracks.counted i hi, waits_eq_nil_of_quiet h hqt,
      active, hqt.1 i hi, Bool.and_false]
    rfl
  · exact h.sane

/-- In every run of such steps reads of the file are right or fail. -/
theorem answered_of_kept (ps : Nat) (f : List Byte) (events : List Event) (s : State) (hps : 0 < ps)
    (hsmall : ps < 2 ^ 31)
    (hrun : run step (start ps f) events = some s)
    (hall : AllSteps step Kept (start ps f) events) : Answered f s := by
  have hinv : Exact f ps s :=
    run_invariant step (fun _ _ _ h hkept hs' => h.step ⟨hps, hsmall⟩ hkept hs') (inv_start f ps)
      hall hrun
  exact hinv.answered hps

/--
A read of two pages whose faults are answered in the other order, and a read of the same pages
from an old cache, of which the `fstat` says that the file has not changed.
-/
def freshThenOld : List Event :=
  [.readv 0 4 false, .dispatch 0, .dispatch 0, .dispatch 0,
    .serveFault 1 [[3], [4]] 7, .serveFault 0 [[1, 2]] 7, .faultCbk 1, .faultCbk 0,
    .readv 1 9 true, .dispatch 1, .dispatch 1, .dispatch 1, .validateCbk (some 7),
    .takeWaitq 0, .wakeup 0, .wakeup 0, .dispatch 1, .dispatch 1, .dispatch 1,
    .serveFault 0 [] 7, .serveFault 1 [] 7, .serveFault 2 [] 7, .faultCbk 0, .faultCbk 0,
    .faultCbk 0]

theorem answered_freshThenOld :
    ∃ s, run step (start 2 [1, 2, 3, 4]) freshThenOld = some s ∧
      Quiet s ∧ s.board.count = 2 ∧ Answered [1, 2, 3, 4] s := by
  obtain ⟨s, hrun, hs, hcnt⟩ : ∃ s ∈ run step (start 2 [1, 2, 3, 4]) freshThenOld,
      Quiet s ∧ s.board.count = 2 := by decide +kernel
  exact ⟨s, hrun, hs, hcnt,
    answered_of_kept 2 [1, 2, 3, 4] freshThenOld s (by decide) (by decide) hrun (by decide +kernel)⟩

/-- A read of two pages, of which the second one comes and the first one fails after it. -/
def firstPageFails : List Event :=
  [.readv 0 4 false, .dispatch 0, .dispatch 0, .dispatch 0,
    .failFault 0 5, .serveFault 1 [[3, 4]] 7, .faultCbk 1, .faultCbk 0]

/-- It returns the two bytes of the second page as if they were the first ones of the file. -/
theorem not_answered_firstPageFails :
    ∃ s, run step (start 2 [1, 2, 3, 4]) firstPageFails = some s ∧
      s.board.unwound.map (fun p => iocFrameUnwind p.2) =
        [{ opRet := 2, opErrno := 5, vector := [[3, 4]] }] ∧
      ¬ Answered [1, 2, 3, 4] s := by
  obtain ⟨s, hrun, hanswer, p, hp, hwrong⟩ : ∃ s ∈ run step (start 2 [1, 2, 3, 4]) firstPageFails,
      s.board.unwound.map (fun p => iocFrameUnwind p.2) =
        [{ opRet := 2, opErrno := 5, vector := [[3, 4]] }] ∧
      ∃ p ∈ s.board.unwound, ¬ Right [1, 2, 3, 4] p.2 := by decide +kernel
  exact ⟨s, hrun, hanswer, fun h => hwrong (h.right p hp).1⟩

end GlusterFS.IoCache
