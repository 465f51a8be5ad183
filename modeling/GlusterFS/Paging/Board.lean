import GlusterFS.Paging.Frames

/-!
# Frames that wait for pages

A frame counts what it waits for: one for the thread that looks through its pages, and one for
each page that is not there yet.  A page wakes all frames that wait on it: it fills them, and
then each of them counts down, and the one that reaches zero is unwound.

The waiting frames of all pages are one list here; those of a page are the ones with its number.
`Tracks` is the account of a board whose pages hold what the file has.  It has two lists of
waiting frames, because a frame that a page has filled is still counted until it has returned:
the first list is of the fills that are to come, the second one of the returns.  `Fresh` is the
account of where the bytes of the frames come from, for a file that changes.
-/

namespace GlusterFS.Paging

open Iovec Blocks FlatFile List Function Nat Prod

/-- A frame that waits on a page, and the range that it asks for. -/
structure Waiter where
  page : Nat
  pageOffset : Nat
  frame : Nat
  offset : Nat
  size : Nat

/-- The frames, those that wait, and those that were unwound. -/
structure Board where
  frame : Nat → Frame
  count : Nat
  waits : List Waiter
  unwound : List (Nat × Frame)

def Board.empty : Board :=
  { frame := fun _ =>
      { offset := 0, size := 0, opRet := 0, opErrno := 0, fills := [], waitCount := 0,
        floor := 0 },
    count := 0,
    waits := [],
    unwound := [] }

def Board.update (b : Board) (i : Nat) (change : Frame → Frame) : Board :=
  { b with frame := Function.update b.frame i (change (b.frame i)) }

def Board.enter (b : Board) (offset size floor : Nat) : Board :=
  { b with
    frame := Function.update b.frame b.count
      { offset := offset, size := size, opRet := 0, opErrno := 0, fills := [], waitCount := 1,
        floor := floor },
    count := b.count + 1 }

def Board.isWaitedOn (b : Board) (page : Nat) : Bool :=
  b.waits.any (fun w => w.page == page)

def Board.waitq (b : Board) (page : Nat) : List Waiter :=
  b.waits.filter (fun w => w.page == page)

def Board.wait (b : Board) (w : Waiter) : Board :=
  { b.update w.frame (fun fr => { fr with waitCount := fr.waitCount + 1 }) with
    waits := w :: b.waits }

def Board.fill (b : Board) (vector : Option (List (List Byte))) (w : Waiter) : Board :=
  b.update w.frame (fun fr => fr.fill w.pageOffset vector w.offset w.size)

def Board.release (b : Board) (page : Nat) : Board :=
  { b with waits := b.waits.filter (fun w => !(w.page == page)) }

def Board.frameReturn (b : Board) (i : Nat) : Board :=
  let b := b.update i (fun fr => { fr with waitCount := fr.waitCount - 1 })
  if (b.frame i).waitCount = 0 then
    { b with unwound := b.unwound ++ [(i, b.frame i)] }
  else
    b

def Board.waitqReturn (b : Board) (waitq : List Waiter) : Board :=
  waitq.foldl (fun b w => b.frameReturn w.frame) b

def Board.wakeup (b : Board) (page : Nat) (vector : Option (List (List Byte))) : Board :=
  ((b.waitq page).foldl (fun b w => b.fill vector w) (b.release page)).waitqReturn (b.waitq page)

/-- A page that failed: the frames that wait on it keep the error and return. -/
def Board.fail (b : Board) (page : Nat) (opRet : Int) (opErrno : Nat) : Board :=
  ((b.waitq page).foldl (fun b w => b.update w.frame (fun fr =>
      if fr.opRet = -1 then fr else { fr with opRet := opRet, opErrno := opErrno }))
    (b.release page)).waitqReturn (b.waitq page)

theorem Board.update_frame (b : Board) (i : Nat) (change : Frame → Frame) (j : Nat) :
    (b.update i change).frame j = if j = i then change (b.frame i) else b.frame j := by
  exact Function.update_apply _ _ _ _

variable {α : Type} {fr fr' : Frame} {w : Waiter}

section

theorem foldl_keeps {β : Type} (get : Board → β) (op : Board → α → Board)
    (hop : ∀ b x, get (op b x) = get b) (b : Board) (l : List α) : get (l.foldl op b) = get b := by
  induction l generalizing b with
  | nil => rfl
  | cons x l ih => rw [foldl_cons, ih, hop]

def Frame.range (fr : Frame) : Nat × Nat :=
  (fr.offset, fr.size)

variable (b : Board)

theorem Board.update_range (i : Nat) (change : Frame → Frame)
    (h : ∀ fr, (change fr).range = fr.range) (j : Nat) :
    ((b.update i change).frame j).range = (b.frame j).range := by
  rw [update_frame]
  split_ifs with hj
  · rw [h, hj]
  · rfl

@[simp] theorem Board.frameReturn_waits (i : Nat) : (b.frameReturn i).waits = b.waits := by
  rw [frameReturn]
  split_ifs <;> rfl

@[simp] theorem Board.frameReturn_count (i : Nat) : (b.frameReturn i).count = b.count := by
  rw [frameReturn]
  split_ifs <;> rfl

@[simp] theorem Board.frameReturn_range (i j : Nat) :
    ((b.frameReturn i).frame j).range = (b.frame j).range := by
  rw [frameReturn]
  have hrng := b.update_range i (fun fr => { fr with waitCount := fr.waitCount - 1 })
    (fun _ => rfl) j
  split_ifs <;> exact hrng

@[simp] theorem Board.wait_range (w : Waiter) (j : Nat) :
    ((b.wait w).frame j).range = (b.frame j).range :=
  b.update_range w.frame (fun fr => { fr with waitCount := fr.waitCount + 1 }) (fun _ => rfl) j

@[simp] theorem Board.fill_range (vector : Option (List (List Byte))) (w : Waiter) (j : Nat) :
    ((b.fill vector w).frame j).range = (b.frame j).range :=
  b.update_range w.frame _ (fun _ => by simp [Frame.range]) j

section

variable (page : Nat)

theorem Board.wakeup_frame {α : Type} (get : Board → α) (vector : Option (List (List Byte)))
    (hfill : ∀ b w, get (b.fill vector w) = get b) (hret : ∀ b i, get (b.frameReturn i) = get b) :
    get (b.wakeup page vector) = get (b.release page) := by
  rw [wakeup, waitqReturn,
    foldl_keeps get (fun b (w : Waiter) => b.frameReturn w.frame) (fun b w => hret b w.frame),
    foldl_keeps get (fun b w => b.fill vector w) hfill]

@[simp] theorem Board.wakeup_waits (vector : Option (List (List Byte))) :
    (b.wakeup page vector).waits = (b.release page).waits :=
  b.wakeup_frame page waits vector (fun _ _ => rfl) (by simp)

@[simp] theorem Board.wakeup_count (vector : Option (List (List Byte))) :
    (b.wakeup page vector).count = b.count :=
  b.wakeup_frame page count vector (fun _ _ => rfl) (by simp)

@[simp] theorem Board.wakeup_range (vector : Option (List (List Byte))) (j : Nat) :
    ((b.wakeup page vector).frame j).range = (b.frame j).range :=
  b.wakeup_frame page (fun b => (b.frame j).range) vector (by simp) (by simp)

@[simp] theorem Board.fail_keeps (opRet : Int) (opErrno : Nat) :
    (b.fail page opRet opErrno).waits = (b.release page).waits ∧
      (b.fail page opRet opErrno).count = b.count := by
  apply Prod.mk.inj
  rw [fail, waitqReturn, foldl_keeps (fun b => (b.waits, b.count))
    (fun b (w : Waiter) => b.frameReturn w.frame) (fun _ _ => by simp)]
  apply foldl_keeps (fun b => (b.waits, b.count))
  intro b w
  rfl

theorem Board.isWaitedOn_iff : b.isWaitedOn page = true ↔ ∃ w ∈ b.waits, w.page = page := by
  simp [isWaitedOn]

theorem Board.mem_waitq_iff (w : Waiter) : w ∈ b.waitq page ↔ w ∈ b.waits ∧ w.page = page := by
  simp [waitq]

theorem Board.mem_release_iff (w : Waiter) :
    w ∈ (b.release page).waits ↔ w ∈ b.waits ∧ w.page ≠ page := by
  simp [release]

end

theorem pagesOf_congr (ps : Nat) (h : fr'.range = fr.range) : pagesOf ps fr' = pagesOf ps fr := by
  obtain ⟨hoff, hsize⟩ := mk.inj h
  rw [pagesOf, pagesOf, Frame.stop, Frame.stop, hoff, hsize]

theorem offset_congr (h : fr'.range = fr.range) : fr'.offset = fr.offset :=
  congrArg fst h

end

section

variable (f : List Byte) (ps : Nat)

def Whole (fr : Frame) : Prop :=
  ∃ g, Filled f ps fr (fun _ => False) g

/-- The pages of a frame that it still waits for, or that were not looked for yet. -/
def OpenPage (todo : Nat → Nat → Prop) (fills : List Waiter) (i q : Nat) : Prop :=
  todo i q ∨ ∃ w ∈ fills, w.frame = i ∧ w.pageOffset = q * ps

/-- A waiter asks for a part of a page that its frame needs and that was looked for. -/
structure GoodWaiter (b : Board) (todo : Nat → Nat → Prop) (w : Waiter) : Prop where
  frame_lt : w.frame < b.count
  page : ∃ q, w.pageOffset = q * ps ∧ q ∈ pagesOf ps (b.frame w.frame) ∧
    Asks ps (b.frame w.frame) q w.offset w.size ∧ ¬ todo w.frame q

/--
The account of a board.  `todo` are the pages that the thread of a frame has not come to,
`active` says whether the thread is still counted, and `fills` and `returns` are the waiting
frames that are still to be filled and to return.
-/
structure Tracks (b : Board) (todo : Nat → Nat → Prop) (active : Nat → Bool)
    (fills returns : List Waiter) : Prop where
  filled : ∀ i < b.count, ∃ g, Filled f ps (b.frame i) (OpenPage ps todo fills i) g
  small : ∀ i < b.count, (b.frame i).size < 2 ^ 31
  waiter : ∀ w ∈ fills, GoodWaiter ps b todo w
  nodup : (fills.map (fun w => (w.frame, w.pageOffset))).Nodup
  among : fills ⊆ returns
  returns_lt : ∀ w ∈ returns, w.frame < b.count
  counted : ∀ i < b.count, (b.frame i).waitCount =
    (if active i then 1 else 0) + returns.countP (fun w => w.frame == i)
  active_lt : ∀ i, active i = true → i < b.count
  todo_active : ∀ i q, todo i q → active i = true
  unwound_iff : ∀ i < b.count, (b.frame i).waitCount = 0 ↔ i ∈ b.unwound.map Prod.fst
  unwound_lt : ∀ p ∈ b.unwound, p.1 < b.count
  unwound_nodup : (b.unwound.map Prod.fst).Nodup
  unwound_whole : ∀ p ∈ b.unwound, Whole f ps p.2 ∧
    p.2.offset = (b.frame p.1).offset ∧ p.2.size = (b.frame p.1).size

variable {f} {ps} {b : Board} {todo : Nat → Nat → Prop} {active : Nat → Bool}
variable {fills returns : List Waiter}

theorem tracks_empty : Tracks f ps Board.empty (fun _ _ => False) (fun _ => false) [] [] := by
  constructor <;> simp [Board.empty]

variable {todo' : Nat → Nat → Prop} {active' : Nat → Bool} {fills' returns' : List Waiter}

theorem Tracks.congr (h : Tracks f ps b todo active fills returns)
    (htodo : ∀ i q, todo' i q ↔ todo i q) (hact : ∀ i, active' i = active i) :
    Tracks f ps b todo' active' fills returns := by
  obtain rfl : todo' = todo := by
    funext i q
    exact propext (htodo i q)
  obtain rfl : active' = active := funext hact
  exact h

theorem Tracks.perm (h : Tracks f ps b todo active fills returns)
    (hfls : fills'.Perm fills) (hrets : returns'.Perm returns) :
    Tracks f ps b todo active fills' returns' := by
  refine { h with
    filled := ?_, waiter := ?_, nodup := ?_, among := ?_, returns_lt := ?_, counted := ?_ }
  · intro i hi
    obtain ⟨g, hg⟩ := h.filled i hi
    refine ⟨g, hg.same rfl rfl rfl rfl ?_⟩
    intro q
    simp only [OpenPage, hfls.mem_iff]
  · intro w hw
    exact h.waiter w (hfls.mem_iff.mp hw)
  · exact ((hfls.map _).nodup_iff).mpr h.nodup
  · intro w hw
    exact hrets.mem_iff.mpr (h.among (hfls.mem_iff.mp hw))
  · intro w hw
    exact h.returns_lt w (hrets.mem_iff.mp hw)
  · intro i hi
    rw [h.counted i hi, hrets.countP_eq]

theorem GoodWaiter.same {b' : Board} (h : GoodWaiter ps b todo w) (hcnt : b.count ≤ b'.count)
    (hoff : (b'.frame w.frame).offset = (b.frame w.frame).offset)
    (hsize : (b'.frame w.frame).size = (b.frame w.frame).size)
    (htodo : ∀ q, todo' w.frame q → todo w.frame q) : GoodWaiter ps b' todo' w := by
  obtain ⟨hlt, q, hpage, hq, hasks, hnot⟩ := h
  have hpgs : pagesOf ps (b'.frame w.frame) = pagesOf ps (b.frame w.frame) := by
    rw [pagesOf, pagesOf, Frame.stop, Frame.stop, hoff, hsize]
  have hst : pageStart ps (b'.frame w.frame) = pageStart ps (b.frame w.frame) := by
    funext q
    rw [pageStart, pageStart, Frame.stop, Frame.stop, hoff, hsize]
  refine ⟨by omega, q, hpage, by rw [hpgs]; exact hq, ?_, fun hc => hnot (htodo q hc)⟩
  constructor
  · rw [hst, hasks.start]
  · rw [hst, hasks.stop]
  · rw [hsize]
    exact hasks.size_le

end

variable {f : List Byte} {ps : Nat} {b : Board} {todo : Nat → Nat → Prop}
variable {active active' : Nat → Bool} {fills returns returns' : List Waiter}

theorem whole_of_filled {isOpen : Nat → Prop} {g : Nat → Option Fill} (h : Filled f ps fr isOpen g)
    (hopen : ∀ q, ¬ isOpen q) (hoff : fr'.offset = fr.offset) (hsize : fr'.size = fr.size)
    (hret : fr'.opRet = fr.opRet) (hfls : fr'.fills = fr.fills) : Whole f ps fr' :=
  ⟨g, h.same hoff hsize hret hfls (fun q => ⟨False.elim, hopen q⟩)⟩

variable {i : Nat}

/-- What a frame keeps whose calls are counted anew. -/
theorem same_of_waitCount {b' : Board} {n : Nat}
    (h : ∀ j, b'.frame j = if j = i then { b.frame i with waitCount := n } else b.frame j) (j : Nat) :
    (b'.frame j).offset = (b.frame j).offset ∧ (b'.frame j).size = (b.frame j).size ∧
      (b'.frame j).opRet = (b.frame j).opRet ∧ (b'.frame j).fills = (b.frame j).fills := by
  rw [h]
  split_ifs with hj
  · subst hj
    exact ⟨rfl, rfl, rfl, rfl⟩
  · exact ⟨rfl, rfl, rfl, rfl⟩

theorem Tracks.frameReturn (h : Tracks f ps b todo active fills returns) (hi : i < b.count)
    (hcnt : (if active' i then 1 else 0) + returns'.countP (fun w => w.frame == i) + 1 =
      (if active i then 1 else 0) + returns.countP (fun w => w.frame == i))
    (hoth : ∀ j ≠ i, active' j = active j ∧
      returns'.countP (fun w => w.frame == j) = returns.countP (fun w => w.frame == j))
    (hactive : active' i = true → active i = true) (htodo : ∀ q, todo i q → active' i = true)
    (hamong : fills ⊆ returns') (hrets : ∀ w ∈ returns', w.frame < b.count) :
    Tracks f ps (b.frameReturn i) todo active' fills returns' := by
  obtain ⟨fr, hfr⟩ : ∃ fr, fr = { b.frame i with waitCount := (b.frame i).waitCount - 1 } :=
    ⟨_, rfl⟩
  have hwait := h.counted i hi
  have hframe : ∀ j, (b.frameReturn i).frame j = if j = i then fr else b.frame j := by
    intro j
    rw [Board.frameReturn]
    split_ifs <;> simp only [Board.update_frame] <;> split_ifs <;> simp_all
  have hcountEq := b.frameReturn_count i
  have hunw : (b.frameReturn i).unwound =
      if fr.waitCount = 0 then b.unwound ++ [(i, fr)] else b.unwound := by
    rw [Board.frameReturn]
    simp only [Board.update_frame, ← hfr]
    split_ifs <;> rfl
  have hmem : ∀ p, p ∈ (b.frameReturn i).unwound ↔
      p ∈ b.unwound ∨ fr.waitCount = 0 ∧ p = (i, fr) := by
    intro p
    rw [hunw]
    split_ifs with hzero <;> simp [hzero]
  have hfrWait : fr.waitCount =
      (if active' i then 1 else 0) + returns'.countP (fun w => w.frame == i) := by
    rw [hfr]
    show (b.frame i).waitCount - 1 = _
    omega
  have hsame := same_of_waitCount (by rw [← hfr]; exact hframe)
  have hnotYet : i ∉ b.unwound.map fst := by
    intro hmem
    have := (h.unwound_iff i hi).mpr hmem
    omega
  constructor
  · intro j hj
    rw [hcountEq] at hj
    obtain ⟨g, hg⟩ := h.filled j hj
    obtain ⟨hoff, hsize, hret, hfls⟩ := hsame j
    exact ⟨g, hg.same hoff hsize hret hfls (fun _ => Iff.rfl)⟩
  · intro j hj
    rw [hcountEq] at hj
    rw [(hsame j).2.1]
    exact h.small j hj
  · intro w hw
    exact (h.waiter w hw).same (le_of_eq hcountEq.symm) (hsame _).1 (hsame _).2.1 (fun _ hq => hq)
  · exact h.nodup
  · exact hamong
  · intro w hw
    rw [hcountEq]
    exact hrets w hw
  · intro j hj
    rw [hcountEq] at hj
    rw [hframe]
    by_cases hji : j = i
    · rw [hji, if_pos rfl, hfrWait]
    · rw [if_neg hji, h.counted j hj, (hoth j hji).1, (hoth j hji).2]
  · intro j hj
    rw [hcountEq]
    by_cases hji : j = i
    · subst hji
      exact hi
    · rw [(hoth j hji).1] at hj
      exact h.active_lt j hj
  · intro j q hq
    by_cases hji : j = i
    · subst hji
      exact htodo q hq
    · rw [(hoth j hji).1]
      exact h.todo_active j q hq
  · intro j hj
    rw [hcountEq] at hj
    rw [hframe, hunw]
    by_cases hji : j = i
    · subst hji
      rw [if_pos rfl]
      by_cases hzero : fr.waitCount = 0
      · rw [if_pos hzero]
        simp [hzero]
      · rw [if_neg hzero]
        exact ⟨fun hc => absurd hc hzero, fun hc => absurd hc hnotYet⟩
    · rw [if_neg hji, h.unwound_iff j hj]
      split_ifs
      · rw [map_append, mem_append]
        simp [hji]
      · rfl
  · intro p hp
    rw [hcountEq]
    rcases (hmem p).mp hp with hp | ⟨_, rfl⟩
    · exact h.unwound_lt p hp
    · exact hi
  · rw [hunw]
    split_ifs
    · rw [map_append, nodup_append]
      refine ⟨h.unwound_nodup, by simp, ?_⟩
      rintro a ha a' ha' rfl
      simp only [map_cons, map_nil, mem_singleton] at ha'
      exact hnotYet (ha' ▸ ha)
    · exact h.unwound_nodup
  · intro p hp
    rcases (hmem p).mp hp with hp | ⟨hzero, rfl⟩
    · obtain ⟨hwhole, hoff, hsize⟩ := h.unwound_whole p hp
      exact ⟨hwhole, by rw [(hsame _).1, hoff], by rw [(hsame _).2.1, hsize]⟩
    · obtain ⟨g, hg⟩ := h.filled i hi
      refine ⟨whole_of_filled hg ?_ (by rw [hfr]) (by rw [hfr]) (by rw [hfr]) (by rw [hfr]),
        by rw [(hsame i).1, hfr], by rw [(hsame i).2.1, hfr]⟩
      -- The frame counts nothing any more: its thread is done and no page is to come.
      rintro q (hq | ⟨w, hw, hwi, _⟩)
      · rw [htodo q hq, if_pos rfl] at hfrWait
        omega
      · have hpos : 0 < returns'.countP (fun w => w.frame == i) :=
          countP_pos_iff.mpr ⟨w, hamong hw, by simp [hwi]⟩
        omega

variable {todo' : Nat → Nat → Prop}
variable {fills' : List Waiter} {vector : List (List Byte)}

variable {q page : Nat} {waitq : List Waiter}

theorem Tracks.fill (h : Tracks f ps b todo active fills returns) (hps : PageSize ps)
    (hi : w.frame < b.count) (hw : w.pageOffset = q * ps) (hq : q ∈ pagesOf ps (b.frame w.frame))
    (hasks : Asks ps (b.frame w.frame) q w.offset w.size)
    (hpage : vector.flatten = pread f w.pageOffset ps) (hopen : OpenPage ps todo fills w.frame q)
    (hopen' : ∀ i r, OpenPage ps todo' fills' i r ↔ OpenPage ps todo fills i r ∧
      ¬ (i = w.frame ∧ r = q))
    (htodo : ∀ i r, todo' i r → todo i r) (hfls : fills'.Sublist fills) :
    Tracks f ps (b.fill (some vector) w) todo' active fills' returns := by
  have hfr : ∀ j, (b.fill (some vector) w).frame j =
      if j = w.frame then (b.frame w.frame).fill w.pageOffset (some vector) w.offset w.size
      else b.frame j :=
    fun j => b.update_frame _ _ j
  have hsame : ∀ j, ((b.fill (some vector) w).frame j).offset = (b.frame j).offset ∧
      ((b.fill (some vector) w).frame j).size = (b.frame j).size ∧
      ((b.fill (some vector) w).frame j).waitCount = (b.frame j).waitCount := by
    intro j
    rw [hfr]
    split_ifs with hj
    · subst hj
      simp
    · exact ⟨rfl, rfl, rfl⟩
  refine { h with
    filled := ?_, small := ?_, waiter := ?_, nodup := ?_, among := ?_, counted := ?_,
    todo_active := ?_, unwound_iff := ?_, unwound_whole := ?_ }
  · intro j hj
    obtain ⟨g, hg⟩ := h.filled j hj
    rw [hfr]
    split_ifs with hjw
    · subst hjw
      rw [hw] at hpage
      obtain ⟨g', hg'⟩ := hg.fill hps (h.small _ hi) hq hopen hasks hpage
      rw [← hw] at hg'
      refine ⟨g', hg'.same rfl rfl rfl rfl ?_⟩
      intro r
      rw [hopen']
      simp
    · refine ⟨g, hg.same rfl rfl rfl rfl ?_⟩
      intro r
      rw [hopen']
      simp [hjw]
  · intro j hj
    rw [(hsame j).2.1]
    exact h.small j hj
  · intro x hx
    exact (h.waiter x (hfls.subset hx)).same (le_refl _) (hsame _).1 (hsame _).2.1
      (htodo x.frame)
  · exact h.nodup.sublist (hfls.map _)
  · exact fun x hx => h.among (hfls.subset hx)
  · intro j hj
    rw [(hsame j).2.2]
    exact h.counted j hj
  · intro j r hr
    exact h.todo_active j r (htodo j r hr)
  · intro j hj
    rw [(hsame j).2.2]
    exact h.unwound_iff j hj
  · intro p hp
    obtain ⟨hwhole, hoff, hsize⟩ := h.unwound_whole p hp
    exact ⟨hwhole, by rw [(hsame _).1, hoff], by rw [(hsame _).2.1, hsize]⟩

theorem Tracks.fill_waiter (h : Tracks f ps b todo active (w :: fills) returns) (hps : PageSize ps)
    (hpage : vector.flatten = pread f w.pageOffset ps) :
    Tracks f ps (b.fill (some vector) w) todo active fills returns := by
  obtain ⟨hlt, q, hw, hq, hasks, hnot⟩ := h.waiter w mem_cons_self
  have hfst := (nodup_cons.mp h.nodup).1
  have hqs : ∀ r, w.pageOffset = r * ps ↔ r = q := by
    intro r
    rw [hw, Nat.mul_left_inj hps.pos.ne', eq_comm]
  apply h.fill hps hlt hw hq hasks hpage
  · exact .inr ⟨w, mem_cons_self, rfl, hw⟩
  · intro i r
    constructor
    · rintro (htodo | ⟨x, hx, hxi, hxr⟩)
      · refine ⟨.inl htodo, ?_⟩
        rintro ⟨rfl, rfl⟩
        exact hnot htodo
      · refine ⟨.inr ⟨x, mem_cons_of_mem w hx, hxi, hxr⟩, ?_⟩
        rintro ⟨rfl, rfl⟩
        exact hfst (mem_map.mpr ⟨x, hx, by simp only [hxi, hxr, hw]⟩)
    · rintro ⟨htodo | ⟨x, hx, hxi, hxr⟩, hne⟩
      · exact .inl htodo
      · rcases mem_cons.mp hx with rfl | hx
        · exact absurd ⟨hxi.symm, (hqs r).mp hxr⟩ hne
        · exact .inr ⟨x, hx, hxi, hxr⟩
  · exact fun _ _ hr => hr
  · exact sublist_cons_self w fills

theorem Tracks.fill_all (h : Tracks f ps b todo active (waitq ++ fills) returns) (hps : PageSize ps)
    (hpage : ∀ w ∈ waitq, vector.flatten = pread f w.pageOffset ps) :
    Tracks f ps (waitq.foldl (fun b w => b.fill (some vector) w) b) todo active fills
      returns := by
  induction waitq generalizing b with
  | nil => exact h
  | cons w waitq ih =>
    obtain ⟨hw, hrest⟩ := forall_mem_cons.mp hpage
    exact ih (h.fill_waiter hps hw) hrest

theorem Tracks.waitqReturn (h : Tracks f ps b todo active fills (waitq ++ fills)) :
    Tracks f ps (b.waitqReturn waitq) todo active fills fills := by
  induction waitq generalizing b with
  | nil => exact h
  | cons w waitq ih =>
    apply ih
    apply h.frameReturn (h.returns_lt w mem_cons_self)
    · rw [cons_append, countP_cons_of_pos (by simp)]
      omega
    · intro j hj
      refine ⟨rfl, ?_⟩
      rw [cons_append, countP_cons_of_neg]
      simpa using Ne.symm hj
    · exact id
    · exact h.todo_active w.frame
    · exact subset_append_right _ _
    · exact fun x hx => h.returns_lt x (mem_cons_of_mem w hx)

theorem waitq_append_release (b : Board) (page : Nat) :
    (b.waitq page ++ (b.release page).waits).Perm b.waits :=
  filter_append_perm _ _

theorem Tracks.wakeup (h : Tracks f ps b todo active b.waits b.waits) (hps : PageSize ps)
    (hpage : ∀ w ∈ b.waitq page, vector.flatten = pread f w.pageOffset ps) :
    Tracks f ps (b.wakeup page (some vector)) todo active
      (b.wakeup page (some vector)).waits (b.wakeup page (some vector)).waits := by
  rw [Board.wakeup_waits]
  have hperm := waitq_append_release b page
  have hrel : Tracks f ps (b.release page) todo active
      (b.waitq page ++ (b.release page).waits) (b.waitq page ++ (b.release page).waits) := by
    have hsp := h.perm hperm hperm
    exact { hsp with
      waiter := fun w hw => (hsp.waiter w hw).same (le_refl _) rfl rfl (fun _ hq => hq) }
  exact (hrel.fill_all hps hpage).waitqReturn

section

theorem Board.enter_frame (b : Board) (offset size floor i : Nat) :
    (b.enter offset size floor).frame i =
      if i = b.count then
        { offset := offset, size := size, opRet := 0, opErrno := 0, fills := [],
          waitCount := 1, floor := floor }
      else
        b.frame i := by
  exact Function.update_apply _ _ _ _

variable (h : Tracks f ps b todo active b.waits b.waits)
include h

variable {floor : Nat}

theorem Tracks.enter {offset size : Nat} (hsize : size < 2 ^ 31) :
    Tracks f ps (b.enter offset size floor)
      (fun i q =>
        if i = b.count then q ∈ pagesOf ps ((b.enter offset size floor).frame i) else todo i q)
      (fun i => if i = b.count then true else active i) b.waits b.waits := by
  have hold : ∀ i < b.count, (b.enter offset size floor).frame i = b.frame i := by
    intro i hi
    rw [Board.enter_frame, if_neg (by omega)]
  have hnew : (b.enter offset size floor).frame b.count =
      { offset := offset, size := size, opRet := 0, opErrno := 0, fills := [],
        waitCount := 1, floor := floor } := by rw [Board.enter_frame, if_pos rfl]
  have hnone : ∀ w ∈ b.waits, w.frame ≠ b.count := by
    intro w hw
    have := h.returns_lt w hw
    omega
  refine { h with
    filled := ?_, small := ?_, waiter := ?_, returns_lt := ?_, counted := ?_, active_lt := ?_,
    todo_active := ?_, unwound_iff := ?_, unwound_lt := ?_, unwound_whole := ?_ }
  · intro i hi
    rcases Nat.lt_succ_iff_lt_or_eq.mp hi with hi | rfl
    · obtain ⟨g, hg⟩ := h.filled i hi
      rw [hold i hi]
      refine ⟨g, hg.same rfl rfl rfl rfl ?_⟩
      intro q
      rw [OpenPage, OpenPage, if_neg (Nat.ne_of_lt hi)]
    · refine ⟨_, filled_start (by rw [hnew]) (by rw [hnew]) ?_⟩
      intro q hq
      rw [OpenPage, if_pos rfl]
      exact .inl hq
  · intro i hi
    rcases Nat.lt_succ_iff_lt_or_eq.mp hi with hi | rfl
    · rw [hold i hi]
      exact h.small i hi
    · rw [hnew]
      exact hsize
  · intro w hw
    have hlt := h.returns_lt w hw
    refine (h.waiter w hw).same (le_succ _) (by rw [hold _ hlt]) (by rw [hold _ hlt]) ?_
    intro q hq
    rwa [if_neg (Nat.ne_of_lt hlt)] at hq
  · intro w hw
    exact lt_succ_of_lt (h.returns_lt w hw)
  · intro i hi
    rcases Nat.lt_succ_iff_lt_or_eq.mp hi with hi | rfl
    · rw [hold i hi, h.counted i hi, if_neg (Nat.ne_of_lt hi)]
    · rw [hnew, if_pos rfl, if_pos rfl, countP_eq_zero.mpr]
      intro w hw
      simpa using hnone w hw
  · intro i hi
    split_ifs at hi with hnw
    · exact lt_succ_of_le hnw.le
    · exact lt_succ_of_lt (h.active_lt i hi)
  · intro i q hq
    split_ifs at hq ⊢
    · rfl
    · exact h.todo_active i q hq
  · intro i hi
    rcases Nat.lt_succ_iff_lt_or_eq.mp hi with hi | rfl
    · rw [hold i hi]
      exact h.unwound_iff i hi
    · rw [hnew]
      constructor
      · intro hc
        cases hc
      · intro hmem
        obtain ⟨p, hp, hpi⟩ := mem_map.mp hmem
        have := h.unwound_lt p hp
        omega
  · intro p hp
    exact lt_succ_of_lt (h.unwound_lt p hp)
  · intro p hp
    rw [hold _ (h.unwound_lt p hp)]
    exact h.unwound_whole p hp

theorem Tracks.wait (hps : 0 < ps) (hw : w.pageOffset = q * ps)
    (hq : q ∈ pagesOf ps (b.frame w.frame)) (hasks : Asks ps (b.frame w.frame) q w.offset w.size)
    (hcome : todo w.frame q) (htodo : ∀ i r, todo' i r ↔ todo i r ∧ ¬ (i = w.frame ∧ r = q)) :
    Tracks f ps (b.wait w) todo' active (w :: b.waits) (w :: b.waits) := by
  have hi : w.frame < b.count := h.active_lt _ (h.todo_active _ _ hcome)
  have hfr : ∀ j, (b.wait w).frame j =
      if j = w.frame then
        { b.frame w.frame with waitCount := (b.frame w.frame).waitCount + 1 }
      else
        b.frame j :=
    fun j => b.update_frame w.frame (fun fr => { fr with waitCount := fr.waitCount + 1 }) j
  have hsame := same_of_waitCount hfr
  have hqs : ∀ r, w.pageOffset = r * ps ↔ r = q := by
    intro r
    rw [hw, Nat.mul_left_inj hps.ne', eq_comm]
  have hwait : ∀ j, ((b.wait w).frame j).waitCount =
      (b.frame j).waitCount + if j = w.frame then 1 else 0 := by
    intro j
    rw [hfr]
    split_ifs with hj
    · subst hj
      rfl
    · rfl
  have hact : active w.frame = true := h.todo_active _ _ hcome
  refine { h with
    filled := ?_, small := ?_, waiter := ?_, nodup := ?_, among := ?_, returns_lt := ?_,
    counted := ?_, todo_active := ?_, unwound_iff := ?_, unwound_whole := ?_ }
  · intro j hj
    obtain ⟨g, hg⟩ := h.filled j hj
    obtain ⟨hoff, hsize, hret, hfls⟩ := hsame j
    refine ⟨g, hg.same hoff hsize hret hfls ?_⟩
    intro r
    simp only [OpenPage, htodo, mem_cons, exists_eq_or_imp, hqs]
    by_cases hjr : j = w.frame ∧ r = q
    · obtain ⟨rfl, rfl⟩ := hjr
      simp [hcome]
    · have hne : ¬ (w.frame = j ∧ r = q) := fun hc => hjr ⟨hc.1.symm, hc.2⟩
      simp [hjr, hne]
  · intro j hj
    rw [(hsame j).2.1]
    exact h.small j hj
  · have hgood : GoodWaiter ps b todo' w :=
      ⟨hi, q, hw, hq, hasks, fun hc => ((htodo _ _).mp hc).2 ⟨rfl, rfl⟩⟩
    refine forall_mem_cons.mpr
      ⟨hgood.same (le_refl _) (hsame _).1 (hsame _).2.1 (fun _ hr => hr), ?_⟩
    exact fun x hx => (h.waiter x hx).same (le_refl _) (hsame _).1 (hsame _).2.1
      (fun r hr => ((htodo _ _).mp hr).1)
  · rw [map_cons, nodup_cons]
    refine ⟨?_, h.nodup⟩
    intro hmem
    obtain ⟨x, hx, hxw⟩ := mem_map.mp hmem
    obtain ⟨hxf, hxo⟩ := mk.inj hxw
    obtain ⟨_, r, hxr, _, _, hnot⟩ := h.waiter x hx
    rw [hxo] at hxr
    rw [(hqs r).mp hxr, hxf] at hnot
    exact hnot hcome
  · exact fun x hx => hx
  · exact forall_mem_cons.mpr ⟨hi, h.returns_lt⟩
  · intro j hj
    rw [hwait, h.counted j hj, countP_cons, add_assoc]
    by_cases hjw : j = w.frame
    · subst hjw
      simp
    · have : ¬ w.frame = j := fun hc => hjw hc.symm
      simp [hjw, this]
  · intro j r hr
    exact h.todo_active j r ((htodo j r).mp hr).1
  · intro j hj
    rw [hwait]
    refine Iff.trans ?_ (h.unwound_iff j hj)
    split_ifs with hjw
    · subst hjw
      have hcntd := h.counted _ hj
      rw [if_pos hact] at hcntd
      constructor
      · exact False.elim
      · intro hzero
        omega
    · rfl
  · intro p hp
    obtain ⟨hwhole, hoff, hsize⟩ := h.unwound_whole p hp
    exact ⟨hwhole, by rw [(hsame _).1, hoff], by rw [(hsame _).2.1, hsize]⟩

theorem Tracks.finish (hi : active i = true) (hdone : ∀ q, ¬ todo i q) (hact : active' i = false)
    (hoth : ∀ j ≠ i, active' j = active j) :
    Tracks f ps (b.frameReturn i) todo active' (b.frameReturn i).waits (b.frameReturn i).waits := by
  rw [Board.frameReturn_waits]
  apply h.frameReturn (h.active_lt i hi)
  · rw [hi, hact]
    simp
    omega
  · exact fun j hj => ⟨hoth j hj, rfl⟩
  · rw [hact]
    exact fun hc => by cases hc
  · exact fun q hq => absurd hq (hdone q)
  · exact fun x hx => hx
  · exact h.returns_lt

end

section

/--
The bytes of a fill are in a version of the file, at their positions, that is not older than
the one with the given number.
-/
def ComesFrom (versions : List (List Byte)) (floor : Nat) (x : Fill) : Prop :=
  ∃ t f, floor ≤ t ∧ versions[t]? = some f ∧
    ∀ j c, x.vector.flatten[j]? = some c → f[x.start + j]? = some c

/--
All bytes of all frames are in versions of the file that are not older than the one that the
frame may ask for.
-/
structure Fresh (versions : List (List Byte)) (floor : Nat) (b : Board) : Prop where
  floor_le : ∀ i, (b.frame i).floor ≤ floor
  frames : ∀ i, ∀ x ∈ (b.frame i).fills, ComesFrom versions (b.frame i).floor x
  unwound : ∀ p ∈ b.unwound, ∀ x ∈ p.2.fills, ComesFrom versions p.2.floor x

def PageFrom (versions : List (List Byte)) (floor ps pageOffset : Nat)
    (vector : List (List Byte)) : Prop :=
  ∃ t f, floor ≤ t ∧ versions[t]? = some f ∧ vector.flatten = pread f pageOffset ps

variable {versions versions' : List (List Byte)} {floor floor' pageOffset : Nat}

theorem ComesFrom.mono {x : Fill} (h : ComesFrom versions floor x) (hvers : versions <+: versions')
    (hflr : floor' ≤ floor) : ComesFrom versions' floor' x := by
  obtain ⟨t, f, ht, hf, hbytes⟩ := h
  refine ⟨t, f, le_trans hflr ht, ?_, hbytes⟩
  obtain ⟨rest, rfl⟩ := hvers
  rw [List.getElem?_append_left (List.getElem?_eq_some_iff.mp hf).1, hf]

theorem PageFrom.mono (h : PageFrom versions floor ps pageOffset vector)
    (hvers : versions <+: versions') : PageFrom versions' floor ps pageOffset vector := by
  obtain ⟨t, f, ht, hf, hbytes⟩ := h
  refine ⟨t, f, ht, ?_, hbytes⟩
  obtain ⟨rest, rfl⟩ := hvers
  rw [List.getElem?_append_left (List.getElem?_eq_some_iff.mp hf).1, hf]

theorem comesFrom_newFill (h : PageFrom versions floor ps pageOffset vector) (offset size : Nat) :
    ComesFrom versions floor (newFill pageOffset (some vector) offset size) := by
  obtain ⟨t, f, ht, hf, hpage⟩ := h
  obtain ⟨src, len, hst, hbytes⟩ := flatten_newFill pageOffset vector offset size
  refine ⟨t, f, ht, hf, ?_⟩
  intro j c hj
  rw [hbytes, hpage, pread, getElem?_take] at hj
  rw [getElem?_drop, getElem?_take] at hj
  split_ifs at hj with hjps
  rw [getElem?_drop] at hj
  rw [hst, ← hj, add_assoc]

theorem fresh_empty : Fresh versions floor Board.empty := by
  constructor <;> simp [Board.empty]

variable (h : Fresh versions floor b)
include h

theorem Fresh.mono (hvers : versions <+: versions') (hflr : floor ≤ floor') :
    Fresh versions' floor' b := by
  constructor
  · intro i
    exact le_trans (h.floor_le i) hflr
  · intro i x hx
    exact (h.frames i x hx).mono hvers (le_refl _)
  · intro p hp x hx
    exact (h.unwound p hp x hx).mono hvers (le_refl _)

theorem Fresh.update (i : Nat) {change : Frame → Frame}
    (hflr : ∀ fr, (change fr).floor = fr.floor)
    (hfls : ∀ fr, ∀ x ∈ (change fr).fills, x ∈ fr.fills ∨ ComesFrom versions floor x) :
    Fresh versions floor (b.update i change) := by
  constructor
  · intro j
    rw [Board.update_frame]
    split_ifs
    · rw [hflr]
      exact h.floor_le i
    · exact h.floor_le j
  · intro j x hx
    rw [Board.update_frame] at hx ⊢
    split_ifs at hx ⊢
    · rw [hflr]
      rcases hfls _ x hx with hx | hx
      · exact h.frames i x hx
      · exact hx.mono (prefix_refl _) (h.floor_le i)
    · exact h.frames j x hx
  · exact h.unwound

theorem Fresh.fill (hpage : PageFrom versions floor ps w.pageOffset vector) :
    Fresh versions floor (b.fill (some vector) w) := by
  apply h.update
  · simp
  · intro fr x hx
    refine (Frame.mem_fills_fill hx).imp_right ?_
    rintro rfl
    exact comesFrom_newFill hpage w.offset w.size

theorem Fresh.fill_none (w : Waiter) : Fresh versions floor (b.fill none w) := by
  apply h.update
  · simp
  · intro fr x hx
    rw [Frame.fill, if_neg (fun hc => hc.2 rfl)] at hx
    exact .inl hx

theorem Fresh.frameReturn (i : Nat) : Fresh versions floor (b.frameReturn i) := by
  have hcntd : Fresh versions floor
      (b.update i (fun fr => { fr with waitCount := fr.waitCount - 1 })) :=
    h.update i (fun _ => rfl) (fun _ _ hx => .inl hx)
  rw [Board.frameReturn]
  split_ifs
  · refine ⟨hcntd.floor_le, hcntd.frames, forall_mem_append.mpr ⟨hcntd.unwound, ?_⟩⟩
    exact forall_mem_singleton.mpr (hcntd.frames i)
  · exact hcntd

theorem Fresh.foldl {op : Board → α → Board} {l : List α}
    (hop : ∀ b, ∀ x ∈ l, Fresh versions floor b → Fresh versions floor (op b x)) :
    Fresh versions floor (l.foldl op b) := by
  induction l generalizing b with
  | nil => exact h
  | cons x l ih =>
    apply ih (hop b x mem_cons_self h)
    intro b y hy
    exact hop b y (mem_cons_of_mem x hy)

theorem Fresh.waitqReturn (waitq : List Waiter) : Fresh versions floor (b.waitqReturn waitq) :=
  h.foldl (fun _ w _ hb => hb.frameReturn w.frame)

theorem Fresh.wakeup (hpage : ∀ w ∈ b.waitq page, PageFrom versions floor ps w.pageOffset vector) :
    Fresh versions floor (b.wakeup page (some vector)) := by
  have hrel : Fresh versions floor (b.release page) := ⟨h.floor_le, h.frames, h.unwound⟩
  exact (hrel.foldl (fun _ w hw hb => hb.fill (hpage w hw))).waitqReturn _

theorem Fresh.wakeup_none (page : Nat) : Fresh versions floor (b.wakeup page none) := by
  have hrel : Fresh versions floor (b.release page) := ⟨h.floor_le, h.frames, h.unwound⟩
  exact (hrel.foldl (fun _ w _ hb => hb.fill_none w)).waitqReturn _

theorem Fresh.fail (page : Nat) (opRet : Int) (opErrno : Nat) :
    Fresh versions floor (b.fail page opRet opErrno) := by
  have hrel : Fresh versions floor (b.release page) := ⟨h.floor_le, h.frames, h.unwound⟩
  refine (hrel.foldl ?_).waitqReturn _
  intro b w _ hb
  apply hb.update
  · intro fr
    split_ifs <;> rfl
  · intro fr x hx
    split_ifs at hx <;> exact .inl hx

theorem Fresh.wait (w : Waiter) : Fresh versions floor (b.wait w) := by
  have hcntd : Fresh versions floor
      (b.update w.frame (fun fr => { fr with waitCount := fr.waitCount + 1 })) :=
    h.update w.frame (fun _ => rfl) (fun _ _ hx => .inl hx)
  exact ⟨hcntd.floor_le, hcntd.frames, hcntd.unwound⟩

theorem Fresh.enter (offset size : Nat) : Fresh versions floor (b.enter offset size floor) := by
  constructor
  · intro i
    rw [Board.enter_frame]
    split_ifs
    · exact le_refl floor
    · exact h.floor_le i
  · intro i x hx
    rw [Board.enter_frame] at hx ⊢
    split_ifs at hx ⊢
    · cases hx
    · exact h.frames i x hx
  · exact h.unwound

end

end GlusterFS.Paging
