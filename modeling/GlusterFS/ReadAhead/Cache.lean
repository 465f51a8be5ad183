import GlusterFS.Lib.Run
import GlusterFS.Paging.Pages

/-!
# read-ahead: the pages of open files

Each descriptor has pages of its own, in the order of their offsets.  A read looks through its
pages: one that is ready fills the frame at once, one that is on its way is waited for, and one
that is not there is created and faulted in.  After that the pages before the read are flushed,
and the pages behind it are faulted in ahead, as many as the reads so far have earned.

A thread goes from one section under the lock of its file to the next, and so does the thread of
a write; what is read without the lock is read at the end of the section before.  The child
serves what is wound to it in the order in which it is wound, so a fault has the content that the
file had when the fault was wound, and a write makes the new content when it is wound.  Replies
come in any order.

`versions` are the contents that the file has had, and `floor` is the number of the content that
the last write which was answered, with success, has made.  They are not in the code, nor are the
numbers of pages, which stand for their addresses.
-/

namespace GlusterFS.ReadAhead

open Iovec Blocks FlatFile Run Paging List Function Nat

section

variable (pages : List Page)

def raPageGet (roundedOffset : Nat) : Option Page :=
  match pages.dropWhile (fun p => decide (p.offset < roundedOffset)) with
  | [] => none
  | page :: _ => if page.offset = roundedOffset then some page else none

def raPageCreate (page : Page) : List Page :=
  pages.takeWhile (fun p => decide (p.offset < page.offset)) ++
    page :: pages.dropWhile (fun p => decide (p.offset < page.offset))

/-- `flush_region` from offset zero; it purges no page that a frame waits on. -/
def flushRegion (waited : Nat → Bool) (size : Nat) : List Page :=
  (pages.takeWhile (fun p => decide (p.offset < size))).filter (fun p => waited p.id) ++
    pages.dropWhile (fun p => decide (p.offset < size))

/-- `file->pages.prev->offset + 1`; the head of the list has offset zero. -/
def flushBound : Nat :=
  (pages.getLast?.elim 0 Page.offset) + 1

end

section

structure RaFile where
  pages : List Page
  offset : Nat
  expected : Nat
  pageCount : Nat

inductive Pc where
  | flush (bound : Nat)
  | dispatch (travOffset : Nat)
  | dispatchFault (travOffset : Nat)
  | trim
  | readAhead
  | scan (raSize cap raOffset : Nat) (found : Bool)
  | prefetch (stop travOffset : Nat)
  | prefetchFault (stop travOffset : Nat)
  | ret
  | advance
  | done
deriving DecidableEq

/-- A page fault that was wound, with the content that the child reads. -/
structure Fault where
  fd : Nat
  offset : Nat
  content : List Byte

/-- Where the thread of a write is; a reply has the number of the content that it made. -/
inductive WritePc where
  | flush (bound : Nat)
  | wind
  | wound (reply : Option Nat)
  | flushAgain (reply : Option Nat) (bound : Nat)
  | answer (reply : Option Nat)
  | done

structure WriteCall where
  fd : Nat
  data : List Byte
  offset : Nat
  pc : WritePc

structure State where
  pageSize : Nat
  pageCount : Nat
  fds : Nat
  versions : List (List Byte)
  floor : Nat
  file : Nat → RaFile
  nextPage : Nat
  board : Board
  fd : Nat → Nat
  pc : Nat → Pc
  faults : List Fault
  writes : List WriteCall

/-- The descriptors are open; those that were created start with the full page count. -/
def start (pageSize pageCount fds : Nat) (created : Nat → Bool) (content : List Byte) : State :=
  { pageSize := pageSize,
    pageCount := pageCount,
    fds := fds,
    versions := [content],
    floor := 0,
    file := fun fd =>
      { pages := [], offset := 0, expected := 0,
        pageCount := if created fd then pageCount else 1 },
    nextPage := 0,
    board := Board.empty,
    fd := fun _ => 0,
    pc := fun _ => .done,
    faults := [],
    writes := [] }

variable (s : State)

def State.content : List Byte :=
  s.versions.getLastD []

def State.setFile (fd : Nat) (file : RaFile) : State :=
  { s with file := update s.file fd file }

def State.setPages (fd : Nat) (pages : List Page) : State :=
  s.setFile fd { s.file fd with pages := pages }

def State.setPc (i : Nat) (pc : Pc) : State :=
  { s with pc := update s.pc i pc }

def State.flushRegion (fd size : Nat) : State :=
  s.setPages fd (ReadAhead.flushRegion (s.file fd).pages s.board.isWaitedOn size)

def State.raPageFault (fd offset : Nat) : State :=
  { s with faults := s.faults ++ [{ fd := fd, offset := offset, content := s.content }] }

def State.expect (file : RaFile) (offset size : Nat) : RaFile :=
  if file.offset ≠ offset then
    { file with expected := 0, pageCount := 0 }
  else if file.expected < s.pageSize * s.pageCount then
    { file with
      expected := file.expected + size,
      pageCount := min ((file.expected + size) / s.pageSize) s.pageCount }
  else
    file

def State.raReadv (fd offset size : Nat) : State :=
  let file := s.file fd
  { s with
    board := s.board.enter offset size s.floor,
    file := update s.file fd (s.expect file offset size),
    fd := update s.fd s.board.count fd,
    pc := update s.pc s.board.count
      (if file.offset ≠ offset then
        .flush (flushBound file.pages)
      else
        .dispatch (Blocks.floor offset s.pageSize)) }

/-- The frame as one that waits on a page: it asks for its whole range. -/
def State.waiter (i : Nat) (page : Page) : Waiter :=
  { page := page.id,
    pageOffset := page.offset,
    frame := i,
    offset := (s.board.frame i).offset,
    size := (s.board.frame i).size }

def State.newPage (offset : Nat) : Page :=
  { id := s.nextPage, offset := Blocks.floor offset s.pageSize, ready := false, vector := none }

def State.createPage (fd offset : Nat) : State :=
  { s.setPages fd (raPageCreate (s.file fd).pages (s.newPage offset)) with
    nextPage := s.nextPage + 1 }

def State.dispatchPage (i travOffset : Nat) : State :=
  match raPageGet (s.file (s.fd i)).pages (Blocks.floor travOffset s.pageSize) with
  | none =>
    { (s.createPage (s.fd i) travOffset).setPc i (.dispatchFault travOffset) with
      board := s.board.wait (s.waiter i (s.newPage travOffset)) }
  | some page =>
    { s.setPc i (.dispatch (travOffset + s.pageSize)) with
      board :=
        if page.ready then
          s.board.fill page.vector (s.waiter i page)
        else
          s.board.wait (s.waiter i page) }

def State.scanPage (i raSize cap raOffset : Nat) (found : Bool) : Pc :=
  if raOffset < min ((s.file (s.fd i)).offset + raSize) cap then
    match raPageGet (s.file (s.fd i)).pages (Blocks.floor raOffset s.pageSize) with
    | none => .prefetch (raOffset + raSize) raOffset
    | some _ => .scan raSize cap (raOffset + s.pageSize) true
  else if found then
    .ret
  else
    .prefetch (raOffset + raSize) raOffset

def State.prefetchPage (i stop travOffset : Nat) : State :=
  match raPageGet (s.file (s.fd i)).pages (Blocks.floor travOffset s.pageSize) with
  | none => (s.createPage (s.fd i) travOffset).setPc i (.prefetchFault stop travOffset)
  | some _ => s.setPc i (.prefetch stop (travOffset + s.pageSize))

/-- The beginning of `read_ahead`; `file->size` is never set. -/
def State.readAhead (i : Nat) : Pc :=
  let file := s.file (s.fd i)
  if file.pageCount = 0 then
    .ret
  else
    let raSize := s.pageSize * file.pageCount
    .scan raSize (file.offset + raSize) (Blocks.floor file.offset s.pageSize) false

def State.thread (i : Nat) : Option State :=
  match s.pc i with
  | .flush bound =>
    some ((s.flushRegion (s.fd i) bound).setPc i
      (.dispatch (Blocks.floor (s.board.frame i).offset s.pageSize)))
  | .dispatch travOffset =>
    if travOffset < roof (s.board.frame i).stop s.pageSize then
      some (s.dispatchPage i travOffset)
    else
      some (s.setPc i .trim)
  | .dispatchFault travOffset =>
    some ((s.raPageFault (s.fd i) travOffset).setPc i (.dispatch (travOffset + s.pageSize)))
  | .trim =>
    some ((s.flushRegion (s.fd i) (Blocks.floor (s.board.frame i).offset s.pageSize)).setPc i
      .readAhead)
  | .readAhead => some (s.setPc i (s.readAhead i))
  | .scan raSize cap raOffset found => some (s.setPc i (s.scanPage i raSize cap raOffset found))
  | .prefetch stop travOffset =>
    if travOffset < stop then
      some (s.prefetchPage i stop travOffset)
    else
      some (s.setPc i .ret)
  | .prefetchFault stop travOffset =>
    some ((s.raPageFault (s.fd i) travOffset).setPc i (.prefetch stop (travOffset + s.pageSize)))
  | .ret => some { s.setPc i .advance with board := s.board.frameReturn i }
  | .advance =>
    some ((s.setFile (s.fd i)
      { s.file (s.fd i) with offset := (s.board.frame i).stop }).setPc i .done)
  | .done => none

def State.raFaultCbk (fd offset : Nat) (vector : List (List Byte)) : State :=
  match raPageGet (s.file fd).pages (Blocks.floor offset s.pageSize) with
  | none => s
  | some page =>
    { s.setPages fd ((s.file fd).pages.map (fun p =>
        if p.id = page.id then { page with ready := true, vector := some vector } else p)) with
      board := s.board.wakeup page.id (some vector) }

def State.raPageError (fd offset : Nat) (opErrno : Nat) : State :=
  match raPageGet (s.file fd).pages (Blocks.floor offset s.pageSize) with
  | none => s
  | some page =>
    { s.setPages fd ((s.file fd).pages.filter (fun p => !(p.id == page.id))) with
      board := s.board.fail page.id (-1) opErrno }

def State.windWrite (call : WriteCall) (ok : Bool) : State × Option Nat :=
  let s := s.setFile call.fd { s.file call.fd with expected := 0, pageCount := 0 }
  if ok then
    ({ s with versions := s.versions ++ [pwrite s.content call.offset call.data] },
      some s.versions.length)
  else
    (s, none)

def State.setWrite (k : Nat) (call : WriteCall) (pc : WritePc) : State :=
  { s with writes := s.writes.set k { call with pc := pc } }

def State.writer (k : Nat) (call : WriteCall) (ok : Bool) : Option State :=
  match call.pc with
  | .flush bound => some ((s.flushRegion call.fd bound).setWrite k call .wind)
  | .wind =>
    let (s, reply) := s.windWrite call ok
    some (s.setWrite k call (.wound reply))
  | .wound reply =>
    some (s.setWrite k call (.flushAgain reply (flushBound (s.file call.fd).pages)))
  | .flushAgain reply bound =>
    some ((s.flushRegion call.fd bound).setWrite k call (.answer reply))
  | .answer reply =>
    some { s.setWrite k call .done with floor := max s.floor (reply.getD 0) }
  | .done => none

inductive Event where
  | readv (fd offset size : Nat)
  | thread (frame : Nat)
  | faultCbk (k : Nat) (vector : List (List Byte))
  | faultError (k : Nat) (opErrno : Nat)
  | writev (fd : Nat) (data : List Byte) (offset : Nat)
  | writer (k : Nat) (ok : Bool)

def step : State → Event → Option State
  | s, .readv fd offset size => if fd < s.fds then some (s.raReadv fd offset size) else none
  | s, .thread i => if i < s.board.count then s.thread i else none
  | s, .faultCbk k vector =>
    match s.faults[k]? with
    | some x =>
      if vector.flatten = pread x.content x.offset s.pageSize then
        some ({ s with faults := s.faults.eraseIdx k }.raFaultCbk x.fd x.offset vector)
      else
        none
    | none => none
  | s, .faultError k opErrno =>
    match s.faults[k]? with
    | some x =>
      some ({ s with faults := s.faults.eraseIdx k }.raPageError x.fd x.offset opErrno)
    | none => none
  | s, .writev fd data offset =>
    if fd < s.fds then
      some { s with
        writes := s.writes ++
          [{ fd := fd, data := data, offset := offset,
             pc := .flush (flushBound (s.file fd).pages) }] }
    else
      none
  | s, .writer k ok =>
    match s.writes[k]? with
    | some call => s.writer k call ok
    | none => none

structure Answer where
  opRet : Int
  opErrno : Nat
  vector : List (List Byte)
deriving DecidableEq

def raFrameUnwind (fr : Frame) : Answer :=
  { opRet := fr.opRet, opErrno := fr.opErrno, vector := fr.fills.flatMap Fill.vector }

end

variable {pages : List Page} {p page : Page} {offset : Nat}

def InOrder (pages : List Page) : Prop :=
  pages.Pairwise (fun p p' => p.offset < p'.offset)

theorem InOrder.sublist {pages' : List Page} (h : InOrder pages) (hsub : pages'.Sublist pages) :
    InOrder pages' :=
  List.Pairwise.sublist hsub h

theorem InOrder.mem_takeWhile (h : InOrder pages) (offset : Nat) (hp : p ∈ pages) :
    p ∈ pages.takeWhile (fun p => decide (p.offset < offset)) ↔ p.offset < offset := by
  induction pages with
  | nil =>
    cases hp
  | cons page pages ih =>
    obtain ⟨hhead, htail⟩ := pairwise_cons.mp h
    rw [takeWhile_cons]
    split_ifs with hpage
    · rw [decide_eq_true_eq] at hpage
      rcases mem_cons.mp hp with rfl | hp
      · simp [hpage]
      · have hlt := hhead p hp
        have hne : p ≠ page := by
          intro hc
          rw [hc] at hlt
          exact lt_irrefl _ hlt
        rw [mem_cons, ih htail hp]
        simp [hne]
    · rw [decide_eq_true_eq] at hpage
      have hle : page.offset ≤ p.offset := by
        rcases mem_cons.mp hp with rfl | hp
        · exact le_refl _
        · exact le_of_lt (hhead p hp)
      simp only [not_mem_nil, false_iff]
      omega

theorem InOrder.mem_dropWhile (h : InOrder pages) (offset : Nat) (hp : p ∈ pages) :
    p ∈ pages.dropWhile (fun p => decide (p.offset < offset)) ↔ offset ≤ p.offset := by
  have htake := h.mem_takeWhile offset hp
  have hsp := hp
  rw [← takeWhile_append_dropWhile (p := fun p : Page => decide (p.offset < offset)) (l := pages),
    mem_append, htake] at hsp
  constructor
  · intro hdrop
    by_contra hlt
    have hdisj := pairwise_append.mp (by
      rw [takeWhile_append_dropWhile (p := fun p : Page => decide (p.offset < offset))]
      exact h)
    exact lt_irrefl _ (hdisj.2.2 p (htake.mpr (not_le.mp hlt)) p hdrop)
  · intro hle
    exact hsp.resolve_left (not_lt.mpr hle)

theorem raPageGet_eq_some (hget : raPageGet pages offset = some page) :
    page ∈ pages ∧ page.offset = offset := by
  rw [raPageGet] at hget
  split at hget
  · cases hget
  · rename_i first rest hdrop
    split_ifs at hget with hoff
    cases hget
    have hsub : (page :: rest).Sublist pages := by
      rw [← hdrop]
      exact dropWhile_sublist _
    exact ⟨hsub.subset mem_cons_self, hoff⟩

theorem InOrder.raPageGet_eq_none (h : InOrder pages) (hget : raPageGet pages offset = none) :
    ∀ p ∈ pages, p.offset ≠ offset := by
  intro p hp hpo
  have hmem := (h.mem_dropWhile offset hp).mpr (le_of_eq hpo.symm)
  rw [raPageGet] at hget
  split at hget
  · rename_i hdrop
    simp [hdrop] at hmem
  · rename_i first rest hdrop
    split_ifs at hget with hoff
    have hsub : (first :: rest).Sublist pages := by
      rw [← hdrop]
      exact dropWhile_sublist _
    have hfst : offset ≤ first.offset := by
      rw [← h.mem_dropWhile offset (hsub.subset mem_cons_self), hdrop]
      exact mem_cons_self
    rw [hdrop] at hmem
    rcases mem_cons.mp hmem with rfl | hrest
    · exact hoff hpo
    · have := (pairwise_cons.mp (h.sublist hsub)).1 p hrest
      omega

theorem raPageCreate_perm (pages : List Page) (page : Page) :
    (raPageCreate pages page).Perm (page :: pages) := by
  refine perm_middle.trans (List.Perm.cons page ?_)
  rw [takeWhile_append_dropWhile]

theorem InOrder.raPageCreate (h : InOrder pages) (hnew : ∀ p ∈ pages, p.offset ≠ page.offset) :
    InOrder (raPageCreate pages page) := by
  have htake : (pages.takeWhile (fun p => decide (p.offset < page.offset))).Sublist pages :=
    takeWhile_sublist _
  have hdrop : (pages.dropWhile (fun p => decide (p.offset < page.offset))).Sublist pages :=
    dropWhile_sublist _
  have hbef : ∀ p ∈ pages.takeWhile (fun p => decide (p.offset < page.offset)),
      p.offset < page.offset :=
    fun p hp => (h.mem_takeWhile page.offset (htake.subset hp)).mp hp
  have haft : ∀ p ∈ pages.dropWhile (fun p => decide (p.offset < page.offset)),
      page.offset < p.offset := by
    intro p hp
    have hle := (h.mem_dropWhile page.offset (hdrop.subset hp)).mp hp
    have hne := hnew p (hdrop.subset hp)
    omega
  refine pairwise_append.mpr ⟨h.sublist htake, ?_, ?_⟩
  · exact pairwise_cons.mpr ⟨haft, h.sublist hdrop⟩
  · intro p hp p' hp'
    have hlt := hbef p hp
    rcases mem_cons.mp hp' with rfl | hp'
    · exact hlt
    · exact lt_trans hlt (haft p' hp')

theorem flushRegion_sublist (pages : List Page) (waited : Nat → Bool) (size : Nat) :
    (flushRegion pages waited size).Sublist pages := by
  refine (List.Sublist.append filter_sublist (List.Sublist.refl _)).trans ?_
  rw [takeWhile_append_dropWhile]

theorem mem_flushRegion {waited : Nat → Bool} (hp : p ∈ pages)
    (hwtd : waited p.id = true) (size : Nat) : p ∈ flushRegion pages waited size := by
  rw [← takeWhile_append_dropWhile (p := fun p : Page => decide (p.offset < size)) (l := pages),
    mem_append] at hp
  rw [flushRegion, mem_append, mem_filter]
  exact hp.imp_left (fun hp => ⟨hp, hwtd⟩)

end GlusterFS.ReadAhead
