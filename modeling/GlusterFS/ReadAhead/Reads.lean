import GlusterFS.ReadAhead.Cache

/-!
# read-ahead: reads of a file that does not change

`ra_frame_fill` takes the difference of the size of a page and the offset of the read in it as
an unsigned number.  When the file ends in the page, before that offset, the difference wraps
around, and the size of the read is added to `op_ret` although there are no bytes to return.

`Kept` excludes reads that start there.  `Inv` is the account of files whose pages hold what the
file has, where each page that is not ready has a fault under way or a thread that is about to
wind one.  Along every run of such steps each read is answered once, and exactly
(`exactReads_of_kept`).
-/

namespace GlusterFS.ReadAhead

open Iovec Blocks FlatFile Run Paging List Function Nat Board State

def Quiet (s : State) : Prop :=
  (∀ i < s.board.count, s.pc i = .done) ∧ s.faults = []

instance (s : State) : Decidable (Quiet s) :=
  inferInstanceAs (Decidable (_ ∧ _))

def Exact (f : List Byte) (fr : Frame) : Prop :=
  (raFrameUnwind fr).opRet = (min fr.size (f.length - fr.offset) : Nat) ∧
    (raFrameUnwind fr).vector.flatten = pread f fr.offset fr.size

instance (f : List Byte) (fr : Frame) : Decidable (Exact f fr) :=
  inferInstanceAs (Decidable (_ ∧ _))

/--
Reads are exact: none is answered twice, those that are answered are exact, and all of them are
answered when nothing is under way.
-/
structure ExactReads (f : List Byte) (s : State) : Prop where
  once : (s.board.unwound.map Prod.fst).Nodup
  exact : ∀ p ∈ s.board.unwound, Exact f p.2 ∧
    p.2.offset = (s.board.frame p.1).offset ∧ p.2.size = (s.board.frame p.1).size
  all : Quiet s → ∀ i < s.board.count, i ∈ s.board.unwound.map Prod.fst

/-- The file does not end before the offset in the page of the offset. -/
def NotPastEnd (f : List Byte) (ps offset : Nat) : Prop :=
  offset ≤ f.length ∨ f.length ≤ floor offset ps
deriving Decidable

/--
The condition on a step: reads of less than 2 GiB that do not start behind the end of the file
in its last page, and faults that succeed.
-/
def Kept (s : State) : Event → Prop
  | .readv _ offset size => size < 2 ^ 31 ∧ NotPastEnd s.content s.pageSize offset
  | .thread _ => True
  | .faultCbk _ _ => True
  | .faultError _ _ => False
  | .writev _ _ _ => False
  | .writer _ _ => False

instance (s : State) : ∀ e, Decidable (Kept s e) := by
  rintro (_ | _) <;> dsimp only [Kept] <;> infer_instance

variable {fd offset q ps i : Nat} {p page : Page} {file : RaFile} {x : Fault} {f : List Byte}
  {lost lost' : Nat → Prop} {s s' : State} {pc here : Pc} {board : Board} {v : List (List Byte)}

section

variable (f : List Byte) (ps : Nat)

def Pc.todo : Pc → Nat → Prop
  | .flush _, _ => True
  | .dispatch travOffset, q => travOffset ≤ q * ps
  | .dispatchFault travOffset, q => travOffset + ps ≤ q * ps
  | _, _ => False

def Pc.active : Pc → Bool
  | .advance => false
  | .done => false
  | _ => true

def Pc.winds : Pc → Option Nat
  | .dispatchFault travOffset => some travOffset
  | .prefetchFault _ travOffset => some travOffset
  | _ => none

/-- Threads go from page to page, from the one with number `first`. -/
def Pc.Aligned (first : Nat) : Pc → Prop
  | .dispatch travOffset => ∃ q, first ≤ q ∧ travOffset = q * ps
  | .dispatchFault travOffset => ∃ q, first ≤ q ∧ travOffset = q * ps
  | .scan _ _ raOffset _ => ∃ q, raOffset = q * ps
  | .prefetch _ travOffset => ∃ q, travOffset = q * ps
  | .prefetchFault _ travOffset => ∃ q, travOffset = q * ps
  | _ => True

def Todo (s : State) (i q : Nat) : Prop :=
  i < s.board.count ∧ q ∈ pagesOf ps (s.board.frame i) ∧ (s.pc i).todo ps q

def active (s : State) (i : Nat) : Bool :=
  decide (i < s.board.count) && (s.pc i).active

/-- The data of a page is under way, or a thread is about to ask for it. -/
def Coming (s : State) (fd offset : Nat) : Prop :=
  (∃ x ∈ s.faults, x.fd = fd ∧ x.offset = offset) ∨
    ∃ i < s.board.count, s.fd i = fd ∧ (s.pc i).winds = some offset

/-- The pages of all files, each of which belongs to one file. -/
structure FilesOk (pages : Nat → List Page) (nextPage : Nat) : Prop where
  ok : ∀ fd, PagesOk f ps (pages fd) nextPage
  order : ∀ fd, InOrder (pages fd)
  owner : ∀ fd fd' p p', p ∈ pages fd → p' ∈ pages fd' → p.id = p'.id → fd = fd'

/-- The account of files whose pages hold what the file has; some have `lost` their fault. -/
structure Inv (lost : Nat → Prop) (s : State) : Prop where
  pageSize : s.pageSize = ps
  versions : s.versions = [f]
  files : FilesOk f ps (fun fd => (s.file fd).pages) s.nextPage
  faults : ∀ x ∈ s.faults, x.content = f ∧ ∃ q, x.offset = q * ps
  transit : ∀ fd, ∀ p ∈ (s.file fd).pages, p.ready = false → Coming s fd p.offset ∨ lost p.id
  waits : ∀ w ∈ s.board.waits, ∃ p ∈ (s.file (s.fd w.frame)).pages,
    p.id = w.page ∧ p.offset = w.pageOffset ∧ p.ready = false
  aligned : ∀ i < s.board.count, (s.pc i).Aligned ps ((s.board.frame i).offset / ps)
  ends : ∀ i < s.board.count, NotPastEnd f ps (s.board.frame i).offset
  tracks : Tracks f ps s.board (Todo ps s) (active s) s.board.waits s.board.waits

/-- The account of files that have lost no fault. -/
abbrev Sound : State → Prop :=
  Inv f ps (fun _ => False)

variable {f} {ps}

theorem inv_start (f : List Byte) (ps pageCount fds : Nat) (created : Nat → Bool) :
    Inv f ps lost (start ps pageCount fds created f) := by
  constructor
  · rfl
  · rfl
  · constructor
    · intro fd
      constructor <;> simp [start]
    · intro fd
      exact List.Pairwise.nil
    · intro fd fd' p p' hp
      cases hp
  · simp [start]
  · simp [start]
  · simp [start, empty]
  · simp [start, empty]
  · simp [start, empty]
  · refine tracks_empty.congr ?_ ?_
    · simp [Todo, start, empty]
    · simp [active, start, Pc.active]

variable {nextPage : Nat}

theorem FilesOk.eq {pages : Nat → List Page} (h : FilesOk f ps pages nextPage) {fd' : Nat}
    {p' : Page} (hp : p ∈ pages fd) (hp' : p' ∈ pages fd') (hid : p.id = p'.id) :
    fd = fd' ∧ p = p' := by
  obtain rfl := h.owner fd fd' p p' hp hp' hid
  exact ⟨rfl, inj_on_of_nodup_map (h.ok fd).ids hp hp' hid⟩

theorem Inv.tighten (h : Inv f ps lost s)
    (hlost : ∀ fd, ∀ p ∈ (s.file fd).pages, lost p.id → p.ready = false → lost' p.id) :
    Inv f ps lost' s := by
  refine { h with transit := ?_ }
  intro fd p hp hrdy
  exact (h.transit fd p hp hrdy).imp_right (fun hl => hlost fd p hp hl hrdy)

theorem pages_setPages (s : State) (fd fd' : Nat) (pages : List Page) :
    ((s.setPages fd pages).file fd').pages = if fd' = fd then pages else (s.file fd').pages := by
  rw [setPages, setFile]
  simp only [update_apply]
  split_ifs <;> rfl

theorem pages_setFile (hpgs : file.pages = (s.file fd).pages) (fd' : Nat) :
    ((s.setFile fd file).file fd').pages = (s.file fd').pages := by
  rw [setFile]
  simp only [update_apply]
  split_ifs with hfd
  · rw [hpgs, hfd]
  · rfl

theorem pages_raReadv (s : State) (fd offset size fd' : Nat) :
    ((s.raReadv fd offset size).file fd').pages = (s.file fd').pages := by
  rw [raReadv]
  simp only [update_apply]
  split_ifs with hfd
  · rw [hfd, expect]
    split_ifs <;> rfl
  · rfl

theorem mem_faults_raPageFault :
    x ∈ (s.raPageFault fd offset).faults ↔
      x ∈ s.faults ∨ x = { fd := fd, offset := offset, content := s.content } := by
  rw [raPageFault, mem_append, mem_singleton]

theorem newPage_mem_createPage (s : State) (fd offset : Nat) :
    s.newPage offset ∈ ((s.createPage fd offset).file fd).pages := by
  show _ ∈ ((s.setPages fd _).file fd).pages
  rw [pages_setPages, if_pos rfl, (raPageCreate_perm _ _).mem_iff]
  exact mem_cons_self

theorem Inv.repage (h : Inv f ps lost s) {pages : List Page} (hok : PagesOk f ps pages nextPage)
    (horder : InOrder pages) (hnext : s.nextPage ≤ nextPage)
    (hold : ∀ p ∈ pages, (∃ p₀ ∈ (s.file fd).pages, p₀.id = p.id) ∨ p.id = s.nextPage)
    (htransit : ∀ p ∈ pages, p.ready = false → Coming s fd p.offset ∨ lost' p.id)
    (hwts : ∀ w ∈ s.board.waits, s.fd w.frame = fd → ∃ p ∈ pages, p.id = w.page ∧
      p.offset = w.pageOffset ∧ p.ready = false)
    (hlost : ∀ id, lost id → lost' id) :
    Inv f ps lost' { s.setPages fd pages with nextPage := nextPage } := by
  have hpgs := pages_setPages s fd
  -- A number that is in two files was in two files before.
  have hwas : ∀ fd', ∀ p ∈ ((s.setPages fd pages).file fd').pages,
      (∃ p₀ ∈ (s.file fd').pages, p₀.id = p.id) ∨ (fd' = fd ∧ p.id = s.nextPage) := by
    intro fd' p hp
    rw [hpgs] at hp
    split_ifs at hp with hfd
    · rw [hfd]
      exact (hold p hp).imp_right (fun hid => ⟨rfl, hid⟩)
    · exact .inl ⟨p, hp, rfl⟩
  refine { h with files := ?_, transit := ?_, waits := ?_ }
  · constructor
    · intro fd'
      rw [hpgs]
      split_ifs with hfd
      · exact hok
      · obtain ⟨ho, hi, hlt, ha, hl, hr⟩ := h.files.ok fd'
        exact ⟨ho, hi, fun p hp => lt_of_lt_of_le (hlt p hp) hnext, ha, hl, hr⟩
    · intro fd'
      rw [hpgs]
      split_ifs with hfd
      · exact horder
      · exact h.files.order fd'
    · intro fd₁ fd₂ p p' hp hp' hid
      rcases hwas fd₁ p hp with ⟨p₀, hp₀, hid₀⟩ | ⟨hfd, hnew⟩ <;>
        rcases hwas fd₂ p' hp' with ⟨p₁, hp₁, hid₁⟩ | ⟨hfd', hnew'⟩
      · exact h.files.owner fd₁ fd₂ p₀ p₁ hp₀ hp₁ (by rw [hid₀, hid₁, hid])
      · have := (h.files.ok fd₁).id_lt p₀ hp₀
        omega
      · have := (h.files.ok fd₂).id_lt p₁ hp₁
        omega
      · rw [hfd, hfd']
  · intro fd' p hp hrdy
    rw [hpgs] at hp
    split_ifs at hp with hfd
    · rw [hfd]
      exact htransit p hp hrdy
    · exact (h.transit fd' p hp hrdy).imp_right (hlost p.id)
  · intro w hw
    rw [hpgs]
    split_ifs with hfd
    · exact hwts w hw hfd
    · exact h.waits w hw

theorem Inv.flushRegion (h : Inv f ps lost s) (fd size : Nat) :
    Inv f ps lost (s.flushRegion fd size) := by
  have hsub := flushRegion_sublist (s.file fd).pages s.board.isWaitedOn size
  refine h.repage ((h.files.ok fd).sublist hsub) ((h.files.order fd).sublist hsub)
    (le_refl _) ?_ ?_ ?_ (fun _ hl => hl)
  · exact fun p hp => .inl ⟨p, hsub.subset hp, rfl⟩
  · exact fun p hp => h.transit fd p (hsub.subset hp)
  · intro w hw hfd
    obtain ⟨p, hp, hid, hrest⟩ := h.waits w hw
    rw [hfd] at hp
    refine ⟨p, mem_flushRegion hp ?_ size, hid, hrest⟩
    exact (isWaitedOn_iff _ _).mpr ⟨w, hw, hid.symm⟩

theorem Inv.createPage (h : Inv f ps lost s) (hoff : offset = q * ps)
    (hget : raPageGet (s.file fd).pages (floor offset s.pageSize) = none) :
    Inv f ps (fun id => lost id ∨ id = s.nextPage) (s.createPage fd offset) := by
  have hpage : (s.newPage offset).offset = offset := by
    rw [newPage, h.pageSize, hoff]
    exact floor_mul q ps
  rw [h.pageSize, hoff, floor_mul, ← hoff] at hget
  have hnew := (h.files.order fd).raPageGet_eq_none hget
  rw [← hpage] at hnew
  have hperm := raPageCreate_perm (s.file fd).pages (s.newPage offset)
  have hmem : ∀ p, p ∈ raPageCreate (s.file fd).pages (s.newPage offset) ↔
      p = s.newPage offset ∨ p ∈ (s.file fd).pages := by
    intro p
    rw [hperm.mem_iff, mem_cons]
  have happ := (h.files.ok fd).append rfl ⟨q, by rw [hpage, hoff]⟩ rfl rfl hnew
  refine h.repage (happ.perm ?_) ((h.files.order fd).raPageCreate hnew)
    (le_succ _) ?_ ?_ ?_ (fun _ => .inl)
  · exact hperm.trans (perm_append_singleton _ _).symm
  · intro p hp
    rcases (hmem p).mp hp with rfl | hp
    · exact .inr rfl
    · exact .inl ⟨p, hp, rfl⟩
  · intro p hp hrdy
    rcases (hmem p).mp hp with rfl | hp
    · exact .inr (.inr rfl)
    · exact (h.transit fd p hp hrdy).imp_right .inl
  · intro w hw hfd
    obtain ⟨p, hp, hrest⟩ := h.waits w hw
    rw [hfd] at hp
    exact ⟨p, (hmem p).mpr (.inr hp), hrest⟩

end

/-- The thread of frame `i` goes to another place, and the frames may have changed. -/
def State.move (s : State) (i : Nat) (pc : Pc) (board : Board) : State :=
  { s with pc := update s.pc i pc, board := board }

theorem todo_move (hcnt : board.count = s.board.count)
    (hrng : ∀ j, (board.frame j).range = (s.board.frame j).range) (j q : Nat) :
    Todo ps (s.move i pc board) j q ↔ j < s.board.count ∧ q ∈ pagesOf ps (s.board.frame j) ∧
        (if j = i then pc else s.pc j).todo ps q := by
  rw [← pagesOf_congr ps (hrng j), ← hcnt]
  show _ ∧ _ ∧ (update s.pc i pc j).todo ps q ↔ _
  rw [update_apply]
  exact Iff.rfl

theorem active_move (hcnt : board.count = s.board.count) (j : Nat) :
    active (s.move i pc board) j =
      (decide (j < s.board.count) && (if j = i then pc else s.pc j).active) := by
  rw [← hcnt]
  show (_ && (update s.pc i pc j).active) = _
  rw [update_apply]
  rfl

theorem Inv.move (h : Inv f ps lost s) (hi : i < s.board.count)
    (hcnt : board.count = s.board.count)
    (hrng : ∀ j, (board.frame j).range = (s.board.frame j).range)
    (hwinds : ∀ o, (s.pc i).winds = some o → ∃ x ∈ s.faults, x.fd = s.fd i ∧ x.offset = o)
    (hal : pc.Aligned ps ((s.board.frame i).offset / ps))
    (hwts : ∀ w ∈ board.waits, ∃ p ∈ (s.file (s.fd w.frame)).pages,
      p.id = w.page ∧ p.offset = w.pageOffset ∧ p.ready = false)
    (htr : Tracks f ps board (Todo ps (s.move i pc board)) (active (s.move i pc board))
      board.waits board.waits) :
    Inv f ps (fun id => lost id ∧
        ∀ p ∈ (s.file (s.fd i)).pages, p.id = id → pc.winds ≠ some p.offset)
      (s.move i pc board) := by
  have hpc : ∀ j, (s.move i pc board).pc j = if j = i then pc else s.pc j :=
    fun j => update_apply _ _ _ _
  have hcom : ∀ fd offset, Coming s fd offset → Coming (s.move i pc board) fd offset := by
    rintro fd offset (hflt | ⟨j, hj, hfd, hjwinds⟩)
    · exact .inl hflt
    · by_cases hji : j = i
      · subst hji
        obtain ⟨x, hx, hxfd, hxo⟩ := hwinds offset hjwinds
        exact .inl ⟨x, hx, hxfd.trans hfd, hxo⟩
      · refine .inr ⟨j, ?_, hfd, ?_⟩
        · exact lt_of_lt_of_eq hj hcnt.symm
        · rw [hpc, if_neg hji]
          exact hjwinds
  refine { h with transit := ?_, waits := ?_, aligned := ?_, ends := ?_, tracks := ?_ }
  · intro fd p hp hrdy
    rcases h.transit fd p hp hrdy with hc | hl
    · exact .inl (hcom fd p.offset hc)
    · by_cases hnow : s.fd i = fd ∧ pc.winds = some p.offset
      · left
        right
        refine ⟨i, lt_of_lt_of_eq hi hcnt.symm, hnow.1, ?_⟩
        rw [hpc, if_pos rfl]
        exact hnow.2
      · right
        refine ⟨hl, ?_⟩
        intro p' hp' hid hc
        obtain ⟨hfd, rfl⟩ := h.files.eq hp' hp hid
        exact hnow ⟨hfd, hc⟩
  · exact hwts
  · intro j hj
    rw [hpc]
    show (if j = i then pc else s.pc j).Aligned ps ((board.frame j).offset / ps)
    rw [offset_congr (hrng j)]
    split_ifs with hji
    · rw [hji]
      exact hal
    · exact h.aligned j (lt_of_lt_of_eq hj hcnt)
  · intro j hj
    show NotPastEnd f ps (board.frame j).offset
    rw [offset_congr (hrng j)]
    exact h.ends j (lt_of_lt_of_eq hj hcnt)
  · exact htr

theorem Inv.setPc (h : Inv f ps lost s) (hi : i < s.board.count) (hhere : s.pc i = here)
    (hwinds : ∀ o, here.winds = some o → ∃ x ∈ s.faults, x.fd = s.fd i ∧ x.offset = o)
    (hal : pc.Aligned ps ((s.board.frame i).offset / ps))
    (htodo : ∀ q ∈ pagesOf ps (s.board.frame i), pc.todo ps q ↔ here.todo ps q)
    (hact : pc.active = here.active) :
    Inv f ps (fun id => lost id ∧
        ∀ p ∈ (s.file (s.fd i)).pages, p.id = id → pc.winds ≠ some p.offset)
      (s.setPc i pc) := by
  subst hhere
  refine h.move hi rfl (fun _ => rfl) hwinds hal h.waits ?_
  refine h.tracks.congr ?_ ?_
  · intro j q
    rw [todo_move rfl (fun _ => rfl), Todo]
    by_cases hj : j = i
    · subst hj
      rw [if_pos rfl]
      exact and_congr_right (fun _ => and_congr_right (htodo q))
    · rw [if_neg hj]
  · intro j
    rw [active_move rfl, active]
    by_cases hj : j = i
    · subst hj
      rw [if_pos rfl, hact]
    · rw [if_neg hj]

theorem Inv.goOn (h : Sound f ps s) (hi : i < s.board.count) (hhere : s.pc i = here)
    (hwinds : here.winds = none) (hal : pc.Aligned ps ((s.board.frame i).offset / ps))
    (htodo : ∀ q ∈ pagesOf ps (s.board.frame i), pc.todo ps q ↔ here.todo ps q)
    (hact : pc.active = here.active) : Sound f ps (s.setPc i pc) := by
  refine (h.setPc hi hhere ?_ hal htodo hact).tighten ?_
  · intro o ho
    simp [hwinds] at ho
  · exact fun _ _ _ hl _ => hl.1

theorem Inv.raPageFault (h : Inv f ps lost s) (hal : ∃ q, offset = q * ps) :
    Inv f ps lost (s.raPageFault fd offset) := by
  refine { h with faults := ?_, transit := ?_ }
  · intro x hx
    rcases mem_faults_raPageFault.mp hx with hx | rfl
    · exact h.faults x hx
    · refine ⟨?_, hal⟩
      rw [content, h.versions]
      rfl
  · intro fd' p hp hrdy
    refine (h.transit fd' p hp hrdy).imp_left (Or.imp_left ?_)
    rintro ⟨x, hx, hxp⟩
    exact ⟨x, mem_faults_raPageFault.mpr (.inl hx), hxp⟩

theorem Inv.wind (h : Sound f ps s) (hi : i < s.board.count) (hhere : s.pc i = here)
    (hwinds : here.winds = some offset) (hoff : ∃ q, offset = q * ps)
    (hal : pc.Aligned ps ((s.board.frame i).offset / ps))
    (htodo : ∀ q ∈ pagesOf ps (s.board.frame i), pc.todo ps q ↔ here.todo ps q)
    (hact : pc.active = here.active) :
    Sound f ps ((s.raPageFault (s.fd i) offset).setPc i pc) := by
  refine ((h.raPageFault hoff).setPc hi hhere ?_ hal htodo hact).tighten ?_
  · intro o ho
    rw [hwinds] at ho
    cases ho
    exact ⟨_, mem_append_right _ (mem_singleton_self _), rfl, rfl⟩
  · exact fun _ _ _ hl _ => hl.1

theorem todo_come (hcnt : board.count = s.board.count)
    (hrng : ∀ j, (board.frame j).range = (s.board.frame j).range)
    (hhere : s.pc i = .dispatch (q * ps)) (hnext : ∀ r, pc.todo ps r ↔ (q + 1) * ps ≤ r * ps)
    (hps : 0 < ps) (j r : Nat) :
    Todo ps (s.move i pc board) j r ↔ Todo ps s j r ∧ ¬ (j = i ∧ r = q) := by
  rw [todo_move hcnt hrng, Todo]
  by_cases hj : j = i
  · subst hj
    rw [if_pos rfl, hnext, hhere]
    show _ ∧ _ ∧ _ ↔ (_ ∧ _ ∧ q * ps ≤ r * ps) ∧ _
    rw [Nat.mul_le_mul_right_iff hps, Nat.mul_le_mul_right_iff hps]
    constructor
    · rintro ⟨h1, h2, h3⟩
      exact ⟨⟨h1, h2, by omega⟩, by omega⟩
    · rintro ⟨⟨h1, h2, h3⟩, h4⟩
      exact ⟨h1, h2, by omega⟩
  · rw [if_neg hj]
    simp [hj]

theorem active_come {t : Nat} (hcnt : board.count = s.board.count) (hhere : s.pc i = .dispatch t)
    (hact : pc.active = true) (j : Nat) : active (s.move i pc board) j = active s j := by
  rw [active_move hcnt, active]
  by_cases hj : j = i
  · subst hj
    rw [if_pos rfl, hact, hhere]
    rfl
  · rw [if_neg hj]

theorem Inv.wait (h : Inv f ps lost s) (hps : 0 < ps) (hi : i < s.board.count)
    (hhere : s.pc i = .dispatch (q * ps)) (hq : q ∈ pagesOf ps (s.board.frame i))
    (hpage : page ∈ (s.file (s.fd i)).pages) (hoff : page.offset = q * ps)
    (hrdy : page.ready = false) (hal : pc.Aligned ps ((s.board.frame i).offset / ps))
    (hnext : ∀ r, pc.todo ps r ↔ (q + 1) * ps ≤ r * ps) (hact : pc.active = true) :
    Inv f ps (fun id => lost id ∧
        ∀ p ∈ (s.file (s.fd i)).pages, p.id = id → pc.winds ≠ some p.offset)
      (s.move i pc (s.board.wait (s.waiter i page))) := by
  have hcnt : (s.board.wait (s.waiter i page)).count = s.board.count := rfl
  have hrng := wait_range s.board (s.waiter i page)
  have hcome : Todo ps s (s.waiter i page).frame q := by
    refine ⟨hi, hq, ?_⟩
    show (s.pc i).todo ps q
    rw [hhere]
    exact le_refl _
  refine h.move hi hcnt hrng ?_ hal ?_ ?_
  · intro o ho
    rw [hhere] at ho
    cases ho
  · exact forall_mem_cons.mpr ⟨⟨page, hpage, rfl, rfl, hrdy⟩, h.waits⟩
  · have hwait := h.tracks.wait hps hoff hq (asks_whole hps hq) hcome
      (todo_come hcnt hrng hhere hnext hps)
    exact hwait.congr (fun _ _ => Iff.rfl) (active_come hcnt hhere hact)

theorem Inv.hit (h : Sound f ps s) (hps : PageSize ps)
    (hi : i < s.board.count) (hhere : s.pc i = .dispatch (q * ps))
    (hq : q ∈ pagesOf ps (s.board.frame i)) (hpage : page ∈ (s.file (s.fd i)).pages)
    (hoff : page.offset = q * ps) (hrdy : page.ready = true) :
    Sound f ps
      (s.move i (.dispatch ((q + 1) * ps)) (s.board.fill page.vector (s.waiter i page))) := by
  have hok := h.files.ok (s.fd i)
  obtain ⟨v, hv⟩ := Option.ne_none_iff_exists'.mp (hok.ready page hpage hrdy)
  have hbytes := hok.loaded page hpage v hv
  have hrng := fill_range s.board page.vector (s.waiter i page)
  have hcnt : (s.board.fill page.vector (s.waiter i page)).count = s.board.count := rfl
  have hfst := (mem_pagesOf_iff.mp hq).1
  have hcome : Todo ps s i q := by
    refine ⟨hi, hq, ?_⟩
    rw [hhere]
    exact le_refl _
  have hnext : ∀ r, (Pc.dispatch ((q + 1) * ps)).todo ps r ↔ (q + 1) * ps ≤ r * ps :=
    fun _ => Iff.rfl
  have htodo := todo_come hcnt hrng hhere hnext hps.pos
  have hopen : ∀ j r, OpenPage ps (Todo ps (s.move i (.dispatch ((q + 1) * ps))
        (s.board.fill page.vector (s.waiter i page)))) s.board.waits j r ↔
      OpenPage ps (Todo ps s) s.board.waits j r ∧ ¬ (j = i ∧ r = q) := by
    intro j r
    rw [OpenPage, OpenPage, htodo]
    constructor
    · rintro (⟨hr, hne⟩ | ⟨w, hw, hwj, hwr⟩)
      · exact ⟨.inl hr, hne⟩
      · refine ⟨.inr ⟨w, hw, hwj, hwr⟩, ?_⟩
        rintro ⟨rfl, rfl⟩
        -- A frame that waits on the page has been there before.
        obtain ⟨_, r', hr', _, _, hnot⟩ := h.tracks.waiter w hw
        have hrr : r' = r := eq_of_mul_eq_mul_right hps.pos (hr'.symm.trans hwr)
        rw [hwj, hrr] at hnot
        exact hnot hcome
    · rintro ⟨hr | hw, hne⟩
      · exact .inl ⟨hr, hne⟩
      · exact .inr hw
  have hfill := h.tracks.fill (w := s.waiter i page) hps hi hoff hq
    (asks_whole hps.pos hq) hbytes (.inl hcome) hopen (fun j r hr => ((htodo j r).mp hr).1)
    (List.Sublist.refl _)
  rw [← hv] at hfill
  have hal : (Pc.dispatch ((q + 1) * ps)).Aligned ps ((s.board.frame i).offset / ps) :=
    ⟨q + 1, le_succ_of_le hfst, rfl⟩
  have hwinds : ∀ o, (s.pc i).winds = some o → ∃ x ∈ s.faults, x.fd = s.fd i ∧ x.offset = o := by
    intro o ho
    rw [hhere] at ho
    cases ho
  have hmov := h.move hi hcnt hrng hwinds hal h.waits
    (hfill.congr (fun _ _ => Iff.rfl) (active_come hcnt hhere rfl))
  exact hmov.tighten (fun _ _ _ hl _ => hl.1)

theorem Inv.ret (h : Sound f ps s) (hi : i < s.board.count) (hhere : s.pc i = .ret) :
    Sound f ps (s.move i .advance (s.board.frameReturn i)) := by
  have hcnt := frameReturn_count s.board i
  have hrng := frameReturn_range s.board i
  have hdone : ∀ q, ¬ Todo ps s i q := by
    rintro q ⟨_, _, hq⟩
    rw [hhere] at hq
    exact hq
  have hact : active s i = true := by
    rw [active, hhere, decide_eq_true hi]
    rfl
  have hinact : active (s.move i .advance (s.board.frameReturn i)) i = false := by
    rw [active_move hcnt, if_pos rfl]
    exact Bool.and_false _
  have hoths : ∀ j ≠ i, active (s.move i .advance (s.board.frameReturn i)) j = active s j := by
    intro j hj
    rw [active_move hcnt, if_neg hj, active]
  have htodo : ∀ j q, Todo ps (s.move i .advance (s.board.frameReturn i)) j q ↔ Todo ps s j q := by
    intro j q
    rw [todo_move hcnt hrng, Todo]
    by_cases hj : j = i
    · subst hj
      rw [if_pos rfl, hhere]
      exact Iff.rfl
    · rw [if_neg hj]
  have hfinish := h.tracks.finish hact hdone hinact hoths
  have hal : Pc.advance.Aligned ps ((s.board.frame i).offset / ps) := trivial
  have hmov := h.move hi hcnt hrng (by rw [hhere]; exact fun o ho => nomatch ho) hal
    (by rw [frameReturn_waits]; exact h.waits)
    (hfinish.congr htodo (fun _ => rfl))
  exact hmov.tighten (fun _ _ _ hl _ => hl.1)

theorem Inv.raReadv (h : Inv f ps lost s) {size : Nat} (hsize : size < 2 ^ 31)
    (hend : NotPastEnd f ps offset) : Inv f ps lost (s.raReadv fd offset size) := by
  obtain ⟨s', hs'⟩ : ∃ s', s' = s.raReadv fd offset size := ⟨_, rfl⟩
  obtain ⟨pc, hpc⟩ : ∃ pc : Pc, pc =
      if (s.file fd).offset ≠ offset then .flush (flushBound (s.file fd).pages)
      else .dispatch (floor offset ps) := ⟨_, rfl⟩
  have hcnt : s'.board.count = s.board.count + 1 := by
    rw [hs']
    rfl
  have hfr : ∀ i, s'.board.frame i = (s.board.enter offset size s.floor).frame i := by
    intro i
    rw [hs']
    rfl
  have hpcs : ∀ i, s'.pc i = if i = s.board.count then pc else s.pc i := by
    intro i
    rw [hs', State.raReadv, h.pageSize, hpc]
    exact update_apply _ _ _ _
  have hpgs : ∀ fd', (s'.file fd').pages = (s.file fd').pages := by
    rw [hs']
    exact pages_raReadv s fd offset size
  have hold : ∀ i ≠ s.board.count,
      s'.pc i = s.pc i ∧ s'.board.frame i = s.board.frame i ∧ s'.fd i = s.fd i := by
    intro i hi
    rw [hpcs, hfr, enter_frame, if_neg hi, if_neg hi, hs']
    exact ⟨rfl, rfl, update_of_ne hi _ _⟩
  have hnew : s'.pc s.board.count = pc := by rw [hpcs, if_pos rfl]
  have hoff : (s'.board.frame s.board.count).offset = offset := by
    rw [hfr, enter_frame, if_pos rfl]
  have hpcActive : pc.active = true := by
    rw [hpc]
    split_ifs <;> rfl
  have htr : Tracks f ps (s.board.enter offset size s.floor) (Todo ps s') (active s')
      s.board.waits s.board.waits := by
    refine (h.tracks.enter hsize).congr ?_ ?_
    · intro i q
      split_ifs with hi
      · rw [hi, Todo, hcnt, hnew, ← hfr]
        constructor
        · rintro ⟨_, hq, _⟩
          exact hq
        · intro hq
          refine ⟨lt_succ_self _, hq, ?_⟩
          rw [hpc]
          split_ifs
          · trivial
          · have hfst := (mem_pagesOf_iff.mp hq).1
            rw [hoff] at hfst
            exact mul_le_mul_right ps hfst
      · simp only [Todo, hcnt, hold i hi, Nat.lt_succ_iff_lt_or_eq, hi, or_false]
    · intro i
      split_ifs with hi
      · simp [active, hcnt, hi, hnew, hpcActive]
      · simp only [active, hcnt, hold i hi, Nat.lt_succ_iff_lt_or_eq, hi, or_false]
  have hcom : ∀ fd' o, Coming s fd' o → Coming s' fd' o := by
    rintro fd' o (⟨x, hx, hxp⟩ | ⟨i, hi, hfd, hwinds⟩)
    · refine .inl ⟨x, ?_, hxp⟩
      rw [hs']
      exact hx
    · obtain ⟨hpci, -, hfdi⟩ := hold i (Nat.ne_of_lt hi)
      exact .inr ⟨i, by omega, hfdi.trans hfd, by rw [hpci, hwinds]⟩
  subst hs'
  refine { h with
    files := ?_, transit := ?_, waits := ?_, aligned := ?_, ends := ?_, tracks := htr }
  · simp only [hpgs]
    exact h.files
  · intro fd' p hp hrdy
    rw [hpgs] at hp
    exact (h.transit fd' p hp hrdy).imp_left (hcom fd' p.offset)
  · intro w hw
    rw [hpgs, (hold w.frame (Nat.ne_of_lt (h.tracks.returns_lt w hw))).2.2]
    exact h.waits w hw
  · intro i hi
    rcases Nat.lt_succ_iff_lt_or_eq.mp hi with hi | rfl
    · obtain ⟨hpci, hfri, -⟩ := hold i (Nat.ne_of_lt hi)
      rw [hpci, hfri]
      exact h.aligned i hi
    · rw [hnew, hoff, hpc]
      split_ifs
      · trivial
      · exact ⟨offset / ps, le_refl _, rfl⟩
  · intro i hi
    rcases Nat.lt_succ_iff_lt_or_eq.mp hi with hi | rfl
    · rw [(hold i (Nat.ne_of_lt hi)).2.1]
      exact h.ends i hi
    · rw [hoff]
      exact hend

theorem Inv.wakeup (h : Inv f ps lost s) (hps : PageSize ps)
    (hpage : page ∈ (s.file fd).pages) (hv : v.flatten = pread f page.offset ps) :
    Inv f ps lost { s with board := s.board.wakeup page.id (some v) } := by
  have hcnt := wakeup_count s.board page.id (some v)
  have hrng := wakeup_range s.board page.id (some v)
  have hwaitq : ∀ w ∈ s.board.waitq page.id, v.flatten = pread f w.pageOffset ps := by
    intro w hw
    obtain ⟨hw, hwpage⟩ := (mem_waitq_iff _ _ _).mp hw
    obtain ⟨p, hp, hid, hoff, _⟩ := h.waits w hw
    obtain ⟨_, rfl⟩ := h.files.eq hp hpage (by rw [hid, hwpage])
    rw [hv, hoff]
  refine { h with transit := ?_, waits := ?_, aligned := ?_, ends := ?_, tracks := ?_ }
  · intro fd' p hp hrdy
    refine (h.transit fd' p hp hrdy).imp_left (Or.imp_right ?_)
    rintro ⟨i, hi, hrest⟩
    exact ⟨i, lt_of_lt_of_eq hi hcnt.symm, hrest⟩
  · intro w hw
    rw [wakeup_waits, mem_release_iff] at hw
    exact h.waits w hw.1
  · intro i hi
    rw [offset_congr (hrng i)]
    exact h.aligned i (lt_of_lt_of_eq hi hcnt)
  · intro i hi
    rw [offset_congr (hrng i)]
    exact h.ends i (lt_of_lt_of_eq hi hcnt)
  · refine (h.tracks.wakeup hps hwaitq).congr ?_ ?_
    · intro i q
      rw [Todo, Todo, hcnt, pagesOf_congr ps (hrng i)]
    · intro i
      rw [active, active, hcnt]

theorem Inv.eraseFault (h : Sound f ps s) {k : Nat} (hx : s.faults[k]? = some x) :
    Inv f ps (fun id => ∃ p ∈ (s.file x.fd).pages, p.id = id ∧ p.offset = x.offset)
      { s with faults := s.faults.eraseIdx k } := by
  refine { h with faults := ?_, transit := ?_ }
  · exact fun y hy => h.faults y (mem_of_mem_eraseIdx hy)
  · intro fd p hp hrdy
    rcases (h.transit fd p hp hrdy).resolve_right id with ⟨y, hy, hfd, hoff⟩ | hthread
    · by_cases hpx : fd = x.fd ∧ p.offset = x.offset
      · right
        rw [← hpx.1]
        exact ⟨p, hp, rfl, hpx.2⟩
      · left
        left
        refine ⟨y, mem_eraseIdx_of_ne hx hy ?_, hfd, hoff⟩
        rintro rfl
        exact hpx ⟨hfd.symm, hoff.symm⟩
    · exact .inl (.inr hthread)

theorem Inv.load (h : Inv f ps lost s) (hpage : page ∈ (s.file fd).pages)
    (hv : v.flatten = pread f page.offset ps) (hnone : ∀ w ∈ s.board.waits, w.page ≠ page.id) :
    Inv f ps (fun id => lost id ∧ id ≠ page.id) (s.setPages fd ((s.file fd).pages.map (fun p =>
        if p.id = page.id then { page with ready := true, vector := some v } else p))) := by
  obtain ⟨page', hpage'⟩ : ∃ page' : Page, page' =
      { page with ready := true, vector := some v } := ⟨_, rfl⟩
  obtain ⟨hid, hoff, hrdy, hvec⟩ : page'.id = page.id ∧ page'.offset = page.offset ∧
      page'.ready = true ∧ page'.vector = some v := by
    rw [hpage']
    exact ⟨rfl, rfl, rfl, rfl⟩
  have hall : ∀ p ∈ (s.file fd).pages.map (fun p => if p.id = page.id then page' else p),
      p = page' ∨ (p ∈ (s.file fd).pages ∧ p.id ≠ page.id) := by
    intro p hp
    obtain ⟨y, hy, rfl⟩ := mem_map.mp hp
    split_ifs with hyid
    · exact .inl rfl
    · exact .inr ⟨hy, hyid⟩
  have hok : PagesOk f ps ((s.file fd).pages.map (fun p => if p.id = page.id then page' else p))
      s.nextPage := by
    rw [← hid]
    refine (h.files.ok fd).set hpage hid hoff ?_ ?_
    · intro v' hv'
      rw [hvec] at hv'
      cases hv'
      exact hv
    · intro _
      rw [hvec]
      exact Option.some_ne_none v
  have hsame : ((s.file fd).pages.map (fun p => if p.id = page.id then page' else p)).map
      Page.offset = (s.file fd).pages.map Page.offset := by
    rw [map_map]
    apply map_congr_left
    intro p hp
    simp only [comp_apply]
    split_ifs with hpid
    · rw [hoff, inj_on_of_nodup_map (h.files.ok fd).ids hp hpage hpid]
    · rfl
  have horder : InOrder ((s.file fd).pages.map (fun p => if p.id = page.id then page' else p)) := by
    have hsort := pairwise_map.mpr (h.files.order fd)
    rw [← hsame] at hsort
    exact pairwise_map.mp hsort
  rw [← hpage']
  have hrepage : Inv f ps lost
      (s.setPages fd ((s.file fd).pages.map (fun p => if p.id = page.id then page' else p))) := by
    refine h.repage hok horder (le_refl _) ?_ ?_ ?_ (fun _ hl => hl)
    · intro p hp
      rcases hall p hp with rfl | ⟨hp, _⟩
      · exact .inl ⟨page, hpage, hid.symm⟩
      · exact .inl ⟨p, hp, rfl⟩
    · intro p hp hr
      rcases hall p hp with rfl | ⟨hp, _⟩
      · simp [hrdy] at hr
      · exact h.transit fd p hp hr
    · intro w hw hfd
      obtain ⟨p, hp, hpid, hrest⟩ := h.waits w hw
      rw [hfd] at hp
      refine ⟨p, mem_map.mpr ⟨p, hp, if_neg ?_⟩, hpid, hrest⟩
      rw [hpid]
      exact hnone w hw
  refine hrepage.tighten ?_
  intro fd' p hp hl hr
  refine ⟨hl, ?_⟩
  intro hpid
  rw [pages_setPages] at hp
  split_ifs at hp with hfd
  · rcases hall p hp with rfl | ⟨_, hne⟩
    · simp [hrdy] at hr
    · exact hne hpid
  · exact hfd (h.files.eq hp hpage hpid).1

theorem Inv.raFaultCbk
    (h : Inv f ps (fun id => ∃ p ∈ (s.file fd).pages, p.id = id ∧ p.offset = offset) s)
    (hps : PageSize ps) (hoff : offset = q * ps) (hv : v.flatten = pread f offset ps)
    : Sound f ps (s.raFaultCbk fd offset v) := by
  have hflr : floor offset s.pageSize = offset := by
    rw [h.pageSize, hoff]
    exact floor_mul q ps
  rw [State.raFaultCbk, hflr]
  cases hget : raPageGet (s.file fd).pages offset with
  | none =>
    refine h.tighten ?_
    rintro _ _ _ ⟨p', hp', _, hpo⟩ _
    exact (h.files.order fd).raPageGet_eq_none hget p' hp' hpo
  | some page =>
    obtain ⟨hpage, hpo⟩ := raPageGet_eq_some hget
    rw [← hpo] at hv
    have hwake := h.wakeup hps hpage hv
    have hload := hwake.load hpage hv (by
      intro w hw
      rw [wakeup_waits, mem_release_iff] at hw
      exact hw.2)
    refine hload.tighten ?_
    rintro _ _ _ ⟨⟨p', hp', hid, hp'o⟩, hne⟩ _
    obtain rfl := inj_on_of_nodup_map (h.files.ok fd).offsets hp' hpage (by rw [hp'o, hpo])
    exact hne hid.symm

section

theorem Inv.setFile (h : Inv f ps lost s) (hpgs : file.pages = (s.file fd).pages) :
    Inv f ps lost (s.setFile fd file) := by
  have hsame := pages_setFile hpgs
  refine { h with files := ?_, transit := ?_, waits := ?_ }
  · simp only [hsame]
    exact h.files
  · intro fd' p hp
    rw [hsame] at hp
    exact h.transit fd' p hp
  · intro w hw
    rw [hsame]
    exact h.waits w hw

theorem newPage_not_lost (h : Inv f ps lost (s.createPage fd offset)) (hoff : offset = q * ps)
    (hid : p.id = s.nextPage)
    (hoth : ∀ p' ∈ ((s.createPage fd offset).file fd).pages, p'.id = p.id →
      some offset ≠ some p'.offset)
    : False := by
  have hps : s.pageSize = ps := h.pageSize
  refine hoth (s.newPage offset) (newPage_mem_createPage s fd offset) hid.symm ?_
  rw [newPage, hps, hoff]
  exact congrArg some (floor_mul q ps).symm

variable (h : Sound f ps s)
include h

variable {travOffset : Nat}

theorem Inv.dispatchPage (hps : PageSize ps) (hi : i < s.board.count)
    (hhere : s.pc i = .dispatch travOffset)
    (hlt : travOffset < roof (s.board.frame i).stop s.pageSize) :
    Sound f ps (s.dispatchPage i travOffset) := by
  have hal := h.aligned i hi
  rw [hhere] at hal
  obtain ⟨q, hfst, rfl⟩ := hal
  rw [h.pageSize] at hlt
  have hq := mem_pagesOf_of_lt_roof hfst hlt
  have hnext : ∀ r, q * ps + ps ≤ r * ps ↔ (q + 1) * ps ≤ r * ps := by
    intro r
    rw [succ_mul]
  rw [dispatchPage]
  cases hget : raPageGet (s.file (s.fd i)).pages (floor (q * ps) s.pageSize) with
  | none =>
    have hcre := h.createPage rfl hget
    have hmem := newPage_mem_createPage s (s.fd i) (q * ps)
    have hoff : (s.newPage (q * ps)).offset = q * ps := by
      rw [newPage, h.pageSize]
      exact floor_mul q ps
    have hflt : (Pc.dispatchFault (q * ps)).Aligned ps ((s.board.frame i).offset / ps) :=
      ⟨q, hfst, rfl⟩
    have hwait := hcre.wait hps.pos hi hhere hq hmem hoff rfl hflt hnext rfl
    refine hwait.tighten ?_
    rintro fd p _ ⟨hl, hoth⟩ _
    exact newPage_not_lost hcre rfl (hl.resolve_left id) hoth
  | some page =>
    obtain ⟨hpage, hoff⟩ := raPageGet_eq_some hget
    rw [h.pageSize, floor_mul] at hoff
    simp only [h.pageSize, ← succ_mul]
    split_ifs with hrdy
    · exact h.hit hps hi hhere hq hpage hoff hrdy
    · have hdis : (Pc.dispatch ((q + 1) * ps)).Aligned ps ((s.board.frame i).offset / ps) :=
        ⟨q + 1, le_succ_of_le hfst, rfl⟩
      have hwait := h.wait hps.pos hi hhere hq hpage hoff (Bool.eq_false_iff.mpr hrdy)
        hdis (fun _ => Iff.rfl) rfl
      exact hwait.tighten (fun _ _ _ hl _ => hl.1)

theorem Inv.prefetchPage {stop : Nat} (hi : i < s.board.count)
    (hhere : s.pc i = .prefetch stop travOffset) :
    Sound f ps (s.prefetchPage i stop travOffset) := by
  have hal := h.aligned i hi
  rw [hhere] at hal
  obtain ⟨q, rfl⟩ := hal
  rw [prefetchPage]
  cases hget : raPageGet (s.file (s.fd i)).pages (floor (q * ps) s.pageSize) with
  | none =>
    have hcre := h.createPage rfl hget
    have hflt : (Pc.prefetchFault stop (q * ps)).Aligned ps ((s.board.frame i).offset / ps) :=
      ⟨q, rfl⟩
    have hmov := hcre.setPc hi hhere (fun o ho => nomatch ho) hflt (fun _ _ => Iff.rfl) rfl
    refine hmov.tighten ?_
    rintro fd p _ ⟨hl, hoth⟩ _
    exact newPage_not_lost hcre rfl (hl.resolve_left id) hoth
  | some page =>
    exact h.goOn hi hhere rfl ⟨q + 1, by rw [h.pageSize, succ_mul]⟩ (fun _ _ => Iff.rfl) rfl

theorem Inv.thread (hps : PageSize ps) (hi : i < s.board.count)
    (hs' : s.thread i = some s') : Sound f ps s' := by
  have hal := h.aligned i hi
  rw [State.thread] at hs'
  cases hhere : s.pc i with
  | flush bound =>
    rw [hhere] at hs'
    cases hs'
    have hfl := h.flushRegion (s.fd i) bound
    refine hfl.goOn hi hhere rfl ⟨_, le_refl _, by rw [h.pageSize]; rfl⟩ ?_ rfl
    intro q hq
    rw [h.pageSize]
    exact iff_of_true (mul_le_mul_right ps (mem_pagesOf_iff.mp hq).1) trivial
  | dispatch travOffset =>
    simp only [hhere] at hs'
    split_ifs at hs' with hlt
    · cases hs'
      exact h.dispatchPage hps hi hhere hlt
    · cases hs'
      rw [h.pageSize] at hlt
      refine h.goOn hi hhere rfl trivial ?_ rfl
      intro q hq
      exact iff_of_false id (not_le_of_roof_le (not_lt.mp hlt) hq)
  | dispatchFault travOffset =>
    rw [hhere] at hs' hal
    cases hs'
    obtain ⟨q, hfst, rfl⟩ := hal
    refine h.wind hi hhere rfl ⟨q, rfl⟩ ?_ ?_ rfl
    · exact ⟨q + 1, le_succ_of_le hfst, by rw [h.pageSize, succ_mul]⟩
    · intro r _
      rw [h.pageSize]
      exact Iff.rfl
  | trim =>
    rw [hhere] at hs'
    cases hs'
    have hfl := h.flushRegion (s.fd i) (floor (s.board.frame i).offset s.pageSize)
    exact hfl.goOn hi hhere rfl trivial (fun _ _ => Iff.rfl) rfl
  | readAhead =>
    rw [hhere] at hs'
    cases hs'
    rw [readAhead]
    split_ifs
    · exact h.goOn hi hhere rfl trivial (fun _ _ => Iff.rfl) rfl
    · exact h.goOn hi hhere rfl ⟨_, by rw [h.pageSize]; rfl⟩ (fun _ _ => Iff.rfl) rfl
  | scan raSize cap raOffset found =>
    rw [hhere] at hs' hal
    cases hs'
    obtain ⟨q, rfl⟩ := hal
    rw [scanPage]
    split_ifs
    · split
      · exact h.goOn hi hhere rfl ⟨q, rfl⟩ (fun _ _ => Iff.rfl) rfl
      · exact h.goOn hi hhere rfl ⟨q + 1, by rw [h.pageSize, succ_mul]⟩ (fun _ _ => Iff.rfl) rfl
    · exact h.goOn hi hhere rfl trivial (fun _ _ => Iff.rfl) rfl
    · exact h.goOn hi hhere rfl ⟨q, rfl⟩ (fun _ _ => Iff.rfl) rfl
  | prefetch stop travOffset =>
    simp only [hhere] at hs'
    split_ifs at hs'
    · cases hs'
      exact h.prefetchPage hi hhere
    · cases hs'
      exact h.goOn hi hhere rfl trivial (fun _ _ => Iff.rfl) rfl
  | prefetchFault stop travOffset =>
    rw [hhere] at hs' hal
    cases hs'
    obtain ⟨q, rfl⟩ := hal
    exact h.wind hi hhere rfl ⟨q, rfl⟩ ⟨q + 1, by rw [h.pageSize, succ_mul]⟩
      (fun _ _ => Iff.rfl) rfl
  | ret =>
    rw [hhere] at hs'
    cases hs'
    exact h.ret hi hhere
  | advance =>
    rw [hhere] at hs'
    cases hs'
    have hset : Sound f ps (s.setFile (s.fd i)
        { s.file (s.fd i) with offset := (s.board.frame i).stop }) := h.setFile rfl
    exact hset.goOn hi hhere rfl trivial (fun _ _ => Iff.rfl) rfl
  | done =>
    simp [hhere] at hs'

theorem Inv.step (hps : PageSize ps)
    {e : Event} (hkept : Kept s e) (hs' : step s e = some s') : Sound f ps s' := by
  cases e with
  | readv fd offset size =>
    rw [ReadAhead.step] at hs'
    split_ifs at hs'
    cases hs'
    obtain ⟨hsize, hend⟩ := hkept
    refine h.raReadv hsize ?_
    rw [content, h.versions, h.pageSize] at hend
    exact hend
  | thread i =>
    rw [ReadAhead.step] at hs'
    split_ifs at hs' with hi
    exact h.thread hps hi hs'
  | faultCbk k vector =>
    rw [ReadAhead.step] at hs'
    split at hs'
    · rename_i x hx
      split_ifs at hs' with hvec
      cases hs'
      obtain ⟨hcont, q, hq⟩ := h.faults x (mem_of_getElem? hx)
      rw [hcont, h.pageSize] at hvec
      exact (h.eraseFault hx).raFaultCbk hps hq hvec
    · cases hs'
  | faultError k opErrno | writev fd data offset | writer k ok => exact hkept.elim

end

/-- A frame that has what the file has is answered exactly, unless it starts past the end. -/
theorem exact_of_whole (hps : PageSize ps) {fr : Frame} (hsize : fr.size < 2 ^ 31)
    (hend : NotPastEnd f ps fr.offset) (h : Whole f ps fr) : Exact f fr := by
  obtain ⟨g, hg⟩ := h
  refine ⟨?_, hg.flatten_fills hps.pos⟩
  show fr.opRet = _
  rw [hg.opRet_eq hps hsize hend, pread, length_take, length_drop]

theorem waits_eq_nil_of_quiet (h : Sound f ps s) (hqt : Quiet s) : s.board.waits = [] := by
  apply eq_nil_iff_forall_not_mem.mpr
  intro w hw
  obtain ⟨p, hp, _, _, hrdy⟩ := h.waits w hw
  rcases h.transit _ p hp hrdy with (⟨x, hx, _⟩ | ⟨i, hi, _, hwinds⟩) | hl
  · simp [hqt.2] at hx
  · rw [hqt.1 i hi] at hwinds
    cases hwinds
  · exact hl

theorem Inv.exactReads (h : Sound f ps s) (hps : PageSize ps) : ExactReads f s := by
  constructor
  · exact h.tracks.unwound_nodup
  · intro p hp
    obtain ⟨hwhole, hoff, hsize⟩ := h.tracks.unwound_whole p hp
    have hlt := h.tracks.unwound_lt p hp
    refine ⟨exact_of_whole hps ?_ ?_ hwhole, hoff, hsize⟩
    · rw [hsize]
      exact h.tracks.small p.1 hlt
    · rw [hoff]
      exact h.ends p.1 hlt
  · intro hqt i hi
    rw [← h.tracks.unwound_iff i hi, h.tracks.counted i hi, waits_eq_nil_of_quiet h hqt,
      active, hqt.1 i hi]
    simp [Pc.active]

/-- In every run of such steps reads of the file are exact. -/
theorem exactReads_of_kept (ps pageCount fds : Nat) (created : Nat → Bool) (f : List Byte)
    (events : List Event) (s : State)
    (hps : 0 < ps)
    (hsmall : ps < 2 ^ 31)
    (hrun : run step (start ps pageCount fds created f) events = some s)
    (hall : AllSteps step Kept (start ps pageCount fds created f) events) : ExactReads f s := by
  have hinv : Sound f ps s :=
    run_invariant step (fun _ _ _ h hkept hs' => h.step ⟨hps, hsmall⟩ hkept hs')
      (inv_start f ps pageCount fds created) hall hrun
  exact hinv.exactReads ⟨hps, hsmall⟩

def upToTheEnd : List Event :=
  .readv 0 0 3 :: replicate 11 (.thread 0) ++
    [.faultCbk 1 [[3], [4]], .faultCbk 0 [[1, 2]], .readv 0 3 4] ++
    replicate 14 (.thread 1) ++ [.faultCbk 0 [[5]], .faultCbk 0 []]

theorem exactReads_upToTheEnd :
    ∃ s, run step (start 2 2 1 (fun _ => false) [1, 2, 3, 4, 5]) upToTheEnd = some s ∧
      Quiet s ∧ s.board.count = 2 ∧ ExactReads [1, 2, 3, 4, 5] s := by
  obtain ⟨s, hrun, hs, hcnt⟩ :
      ∃ s ∈ run step (start 2 2 1 (fun _ => false) [1, 2, 3, 4, 5]) upToTheEnd,
        Quiet s ∧ s.board.count = 2 := by decide +kernel
  exact ⟨s, hrun, hs, hcnt,
    exactReads_of_kept 2 2 1 (fun _ => false) [1, 2, 3, 4, 5] upToTheEnd s (by decide)
      (by decide) hrun (by decide +kernel)⟩

def pastTheEnd : List Event :=
  .readv 0 3 1 :: replicate 8 (.thread 0) ++ [.faultCbk 0 [[1, 2]]]

/-- It is answered with one byte, and there is none. -/
theorem not_exactReads_pastTheEnd :
    ∃ s, run step (start 4 2 1 (fun _ => false) [1, 2]) pastTheEnd = some s ∧
      s.board.unwound.map (fun p => raFrameUnwind p.2) =
        [{ opRet := 1, opErrno := 0, vector := [] }] ∧
      ¬ ExactReads [1, 2] s := by
  obtain ⟨s, hrun, hanswer, p, hp, hwrong⟩ :
      ∃ s ∈ run step (start 4 2 1 (fun _ => false) [1, 2]) pastTheEnd,
        s.board.unwound.map (fun p => raFrameUnwind p.2) =
          [{ opRet := 1, opErrno := 0, vector := [] }] ∧
        ∃ p ∈ s.board.unwound, ¬ Exact [1, 2] p.2 := by decide +kernel
  exact ⟨s, hrun, hanswer, fun h => hwrong (h.exact p hp).1⟩

end GlusterFS.ReadAhead
