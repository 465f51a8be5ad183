import GlusterFS.Paging.Board

/-!
# Pages of a file

A page is known by its number, which stands for its address, and holds a part of the file once
a fault has brought it.  `PagesOk` is the account of the pages of a file that does not change:
each of them is there once and holds what the file has.  `Current` is the account of pages and
frames when the file changes: what the pages hold, and what the frames have got, are from
contents that the file has had since the last write was answered.
-/

namespace GlusterFS.Paging

open Iovec Blocks FlatFile List Function

structure Page where
  id : Nat
  offset : Nat
  ready : Bool
  vector : Option (List (List Byte))

variable {page page' : Page}

theorem mem_eraseIdx_of_ne {α : Type*} {l : List α} {k : Nat} {x y : α} (hx : l[k]? = some x)
    (hy : y ∈ l) (hne : y ≠ x) : y ∈ l.eraseIdx k := by
  obtain ⟨j, hj⟩ := mem_iff_getElem?.mp hy
  refine mem_eraseIdx_iff_getElem?.mpr ⟨j, ?_, hj⟩
  rintro rfl
  exact hne (Option.some_inj.mp (hj.symm.trans hx))

section

variable (f : List Byte) (ps : Nat)

/-- The pages hold what the file has, each page once. -/
structure PagesOk (pages : List Page) (nextPage : Nat) : Prop where
  offsets : (pages.map Page.offset).Nodup
  ids : (pages.map Page.id).Nodup
  id_lt : ∀ p ∈ pages, p.id < nextPage
  aligned : ∀ p ∈ pages, ∃ q, p.offset = q * ps
  loaded : ∀ p ∈ pages, ∀ v, p.vector = some v → v.flatten = pread f p.offset ps
  ready : ∀ p ∈ pages, p.ready = true → p.vector ≠ none

variable {f} {ps} {pages pages' : List Page} {nextPage : Nat}

variable (h : PagesOk f ps pages nextPage)
include h

theorem PagesOk.subset (hsub : pages' ⊆ pages) (hoffs : (pages'.map Page.offset).Nodup)
    (hids : (pages'.map Page.id).Nodup) : PagesOk f ps pages' nextPage where
  offsets := hoffs
  ids := hids
  id_lt p hp := h.id_lt p (hsub hp)
  aligned p hp := h.aligned p (hsub hp)
  loaded p hp := h.loaded p (hsub hp)
  ready p hp := h.ready p (hsub hp)

theorem PagesOk.sublist (hsub : pages'.Sublist pages) : PagesOk f ps pages' nextPage :=
  h.subset hsub.subset (h.offsets.sublist (hsub.map _)) (h.ids.sublist (hsub.map _))

theorem PagesOk.perm (hperm : pages'.Perm pages) : PagesOk f ps pages' nextPage :=
  h.subset hperm.subset ((hperm.map _).nodup_iff.mpr h.offsets) ((hperm.map _).nodup_iff.mpr h.ids)

theorem PagesOk.set (hpage : page ∈ pages) (hid : page'.id = page.id)
    (hoff : page'.offset = page.offset)
    (hloaded : ∀ v, page'.vector = some v → v.flatten = pread f page.offset ps)
    (hrdy : page'.ready = true → page'.vector ≠ none) :
    PagesOk f ps (pages.map (fun p => if p.id = page'.id then page' else p)) nextPage := by
  have heq : ∀ p ∈ pages, p.id = page'.id → p = page := by
    intro p hp hpid
    exact inj_on_of_nodup_map h.ids hp hpage (by rw [hpid, hid])
  have hkept : ∀ get : Page → Nat, get page' = get page →
      (pages.map (fun p => if p.id = page'.id then page' else p)).map get = pages.map get := by
    intro get hget
    rw [map_map]
    apply map_congr_left
    intro p hp
    simp only [comp_apply]
    split_ifs with hpid
    · rw [hget, heq p hp hpid]
    · rfl
  have hall : ∀ p ∈ pages.map (fun p => if p.id = page'.id then page' else p),
      p = page' ∨ p ∈ pages := by
    intro p hp
    obtain ⟨x, hx, rfl⟩ := mem_map.mp hp
    split_ifs
    · exact .inl rfl
    · exact .inr hx
  constructor
  · rw [hkept Page.offset hoff]
    exact h.offsets
  · rw [hkept Page.id hid]
    exact h.ids
  · intro p hp
    rcases hall p hp with rfl | hp
    · rw [hid]
      exact h.id_lt page hpage
    · exact h.id_lt p hp
  · intro p hp
    rcases hall p hp with rfl | hp
    · rw [hoff]
      exact h.aligned page hpage
    · exact h.aligned p hp
  · intro p hp
    rcases hall p hp with rfl | hp
    · rw [hoff]
      exact hloaded
    · exact h.loaded p hp
  · intro p hp
    rcases hall p hp with rfl | hp
    · exact hrdy
    · exact h.ready p hp

theorem PagesOk.append (hid : page.id = nextPage) (hal : ∃ q, page.offset = q * ps)
    (hrdy : page.ready = false) (hvec : page.vector = none)
    (hnew : ∀ p ∈ pages, p.offset ≠ page.offset) :
    PagesOk f ps (pages ++ [page]) (nextPage + 1) := by
  have hmem : ∀ p, p ∈ pages ++ [page] ↔ p ∈ pages ∨ p = page := by simp
  have hids : page.id ∉ pages.map Page.id := by
    intro hc
    obtain ⟨p, hp, hpid⟩ := mem_map.mp hc
    have := h.id_lt p hp
    omega
  have hoffs : page.offset ∉ pages.map Page.offset := by
    intro hc
    obtain ⟨p, hp, hpo⟩ := mem_map.mp hc
    exact hnew p hp hpo
  constructor
  · rw [map_append, map_singleton]
    exact h.offsets.append (nodup_singleton _) (by simpa using hoffs)
  · rw [map_append, map_singleton]
    exact h.ids.append (nodup_singleton _) (by simpa using hids)
  · intro p hp
    rcases (hmem p).mp hp with hp | rfl
    · exact Nat.lt_succ_of_lt (h.id_lt p hp)
    · rw [hid]
      exact Nat.lt_succ_self _
  · intro p hp
    rcases (hmem p).mp hp with hp | rfl
    · exact h.aligned p hp
    · exact hal
  · intro p hp v hv
    rcases (hmem p).mp hp with hp | rfl
    · exact h.loaded p hp v hv
    · simp [hvec] at hv
  · intro p hp hr
    rcases (hmem p).mp hp with hp | rfl
    · exact h.ready p hp hr
    · simp [hrdy] at hr

end

section

variable (ps : Nat) (versions : List (List Byte)) (floor : Nat)

/-- The pages, each at its offset, are from recent contents of the file. -/
structure PagesFrom (has : Page → Prop) (nextPage : Nat) : Prop where
  id_lt : ∀ p, has p → p.id < nextPage
  same : ∀ p p', has p → has p' → p.id = p'.id → p.offset = p'.offset
  aligned : ∀ p, has p → ∃ q, p.offset = q * ps
  recent : ∀ p v, has p → p.vector = some v → PageFrom versions floor ps p.offset v

def WaitsAt (has : Page → Prop) (nextPage : Nat) (waits : List Waiter) : Prop :=
  ∀ w ∈ waits, w.page < nextPage ∧ ∀ p, has p → p.id = w.page → p.offset = w.pageOffset

/-- The account of pages and frames, as far as it is about contents of the file. -/
structure Current (has : Page → Prop) (nextPage : Nat) (board : Board) : Prop where
  loaded : PagesFrom ps versions floor has nextPage
  waits : WaitsAt has nextPage board.waits
  fresh : Fresh versions floor board

variable {ps} {versions} {floor} {has has' : Page → Prop} {nextPage : Nat} {board : Board}

theorem current_empty (hnone : ∀ p, ¬ has p) :
    Current ps versions floor has nextPage Board.empty := by
  constructor
  · constructor
    · exact fun p hp => absurd hp (hnone p)
    · exact fun p _ hp => absurd hp (hnone p)
    · exact fun p hp => absurd hp (hnone p)
    · exact fun p _ hp => absurd hp (hnone p)
  · intro w hw
    cases hw
  · exact fresh_empty

variable (h : Current ps versions floor has nextPage board)
include h

theorem Current.subset (hsub : ∀ p, has' p → has p) :
    Current ps versions floor has' nextPage board := by
  constructor
  · constructor
    · exact fun p hp => h.loaded.id_lt p (hsub p hp)
    · exact fun p p' hp hp' => h.loaded.same p p' (hsub p hp) (hsub p' hp')
    · exact fun p hp => h.loaded.aligned p (hsub p hp)
    · exact fun p v hp => h.loaded.recent p v (hsub p hp)
  · intro w hw
    exact ⟨(h.waits w hw).1, fun p hp => (h.waits w hw).2 p (hsub p hp)⟩
  · exact h.fresh

theorem Current.set (hpage : has page) (hid : page'.id = page.id)
    (hoff : page'.offset = page.offset)
    (hrec : ∀ v, page'.vector = some v → PageFrom versions floor ps page.offset v)
    (hall : ∀ p, has' p → p = page' ∨ has p) : Current ps versions floor has' nextPage board := by
  -- Whatever a page is now, there was one with its number and offset.
  have hwas : ∀ p, has' p → ∃ p₀, has p₀ ∧ p.id = p₀.id ∧ p.offset = p₀.offset := by
    intro p hp
    rcases hall p hp with rfl | hp
    · exact ⟨page, hpage, hid, hoff⟩
    · exact ⟨p, hp, rfl, rfl⟩
  constructor
  · constructor
    · intro p hp
      obtain ⟨p₀, hp₀, hpid, _⟩ := hwas p hp
      rw [hpid]
      exact h.loaded.id_lt p₀ hp₀
    · intro p p' hp hp' hpp'
      obtain ⟨p₀, hp₀, hpid, hpo⟩ := hwas p hp
      obtain ⟨p₁, hp₁, hpid', hpo'⟩ := hwas p' hp'
      rw [hpo, hpo']
      exact h.loaded.same p₀ p₁ hp₀ hp₁ (by rw [← hpid, ← hpid', hpp'])
    · intro p hp
      obtain ⟨p₀, hp₀, _, hpo⟩ := hwas p hp
      rw [hpo]
      exact h.loaded.aligned p₀ hp₀
    · intro p v hp hv
      rcases hall p hp with rfl | hp
      · rw [hoff]
        exact hrec v hv
      · exact h.loaded.recent p v hp hv
  · intro w hw
    refine ⟨(h.waits w hw).1, ?_⟩
    intro p hp hpw
    obtain ⟨p₀, hp₀, hpid, hpo⟩ := hwas p hp
    rw [hpo]
    exact (h.waits w hw).2 p₀ hp₀ (by rw [← hpid, hpw])
  · exact h.fresh

theorem Current.create (hid : page.id = nextPage) (hal : ∃ q, page.offset = q * ps)
    (hvec : page.vector = none) (hall : ∀ p, has' p → has p ∨ p = page) :
    Current ps versions floor has' (nextPage + 1) board := by
  constructor
  · constructor
    · intro p hp
      rcases hall p hp with hp | rfl
      · exact Nat.lt_succ_of_lt (h.loaded.id_lt p hp)
      · rw [hid]
        exact Nat.lt_succ_self _
    · intro p p' hp hp' hpp'
      rcases hall p hp with hold | hnew <;> rcases hall p' hp' with hold' | hnew'
      · exact h.loaded.same p p' hold hold' hpp'
      · have := h.loaded.id_lt p hold
        rw [hnew'] at hpp'
        omega
      · have := h.loaded.id_lt p' hold'
        rw [hnew] at hpp'
        omega
      · rw [hnew, hnew']
    · intro p hp
      rcases hall p hp with hp | rfl
      · exact h.loaded.aligned p hp
      · exact hal
    · intro p v hp hv
      rcases hall p hp with hp | rfl
      · exact h.loaded.recent p v hp hv
      · simp [hvec] at hv
  · intro w hw
    obtain ⟨hlt, hat⟩ := h.waits w hw
    refine ⟨Nat.lt_succ_of_lt hlt, ?_⟩
    intro p hp hpw
    rcases hall p hp with hp | rfl
    · exact hat p hp hpw
    · omega
  · exact h.fresh

theorem Current.reboard {board' : Board}
    (hwts : board'.waits ⊆ board.waits) (hfresh : Fresh versions floor board') :
    Current ps versions floor has nextPage board' :=
  ⟨h.loaded, fun w hw => h.waits w (hwts hw), hfresh⟩

theorem Current.wakeup (hpage : has page) :
    Current ps versions floor has nextPage (board.wakeup page.id page.vector) := by
  apply h.reboard
  · intro w hw
    rw [Board.wakeup_waits, Board.mem_release_iff] at hw
    exact hw.1
  · cases hvec : page.vector with
    | none => exact h.fresh.wakeup_none page.id
    | some v =>
      have hrec : ∀ w ∈ board.waitq page.id, PageFrom versions floor ps w.pageOffset v := by
        intro w hw
        obtain ⟨hw, hwpage⟩ := (Board.mem_waitq_iff _ _ _).mp hw
        rw [← (h.waits w hw).2 page hpage hwpage.symm]
        exact h.loaded.recent page v hpage hvec
      exact h.fresh.wakeup hrec

variable {w : Waiter}

theorem Current.fail (page : Nat) (opRet : Int) (opErrno : Nat) :
    Current ps versions floor has nextPage (board.fail page opRet opErrno) := by
  apply h.reboard
  · intro w hw
    rw [(Board.fail_keeps ..).1, Board.mem_release_iff] at hw
    exact hw.1
  · exact h.fresh.fail page opRet opErrno

theorem Current.wait (hpage : has page) (hid : w.page = page.id) (hoff : w.pageOffset = page.offset)
    : Current ps versions floor has nextPage (board.wait w) := by
  refine ⟨h.loaded, ?_, h.fresh.wait w⟩
  refine forall_mem_cons.mpr ⟨?_, h.waits⟩
  rw [hid, hoff]
  exact ⟨h.loaded.id_lt page hpage, fun p hp hpid => h.loaded.same p page hp hpage hpid⟩

theorem Current.grow (file : List Byte) :
    Current ps (versions ++ [file]) floor has nextPage board := by
  have hgrow : versions <+: versions ++ [file] := prefix_append _ _
  constructor
  · exact ⟨h.loaded.id_lt, h.loaded.same, h.loaded.aligned,
      fun p v hp hv => (h.loaded.recent p v hp hv).mono hgrow⟩
  · exact h.waits
  · exact h.fresh.mono hgrow (Nat.le_refl _)

theorem Current.raise {floor' : Nat} (hflr : floor ≤ floor')
    (hpgs : ∀ p v, has p → p.vector = some v → PageFrom versions floor' ps p.offset v) :
    Current ps versions floor' has nextPage board := by
  constructor
  · exact ⟨h.loaded.id_lt, h.loaded.same, h.loaded.aligned, hpgs⟩
  · exact h.waits
  · exact h.fresh.mono (prefix_refl _) hflr

end

end GlusterFS.Paging
