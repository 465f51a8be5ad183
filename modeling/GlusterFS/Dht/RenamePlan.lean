import GlusterFS.Dht.Rename

/-!
# DHT: the plan of a rename and its phases

The calls of a rename that are not served yet, in the order of the plan, always lead to the
same end: a call that is served out of order commutes with those before it.  A phase says
which calls are wound and what the counter of calls stands at.
-/

namespace GlusterFS.Dht

open Run List Function Option

variable {c c' : Call} {bricks : Subvol → Brick} {v : Subvol} {name : Name} {l : RenameLocal}
  {calls calls' : Call → Status} {cs : List Call} {s s' : RenameState}

theorem commutes_of_subvol_ne (h : c.subvol ≠ c'.subvol) : Commutes served c c' := by
  intro bricks
  unfold served serve
  cases hc : c.fop (bricks c.subvol) with
  | error opErrno =>
    cases hc' : c'.fop (bricks c'.subvol) with
    | error opErrno' => rfl
    | ok brick' => simp [Except.map, Except.toOption, update_of_ne h, hc]
  | ok brick =>
    cases hc' : c'.fop (bricks c'.subvol) with
    | error opErrno' => simp [Except.map, Except.toOption, update_of_ne h.symm, hc']
    | ok brick' =>
      simp only [Except.map, Except.toOption, bind_some, update_of_ne h.symm,
        update_of_ne h, hc, hc']
      rw [update_comm h]

theorem served_unlink_none (h : bricks v name = none) : served bricks (.unlink v name) = none := by
  simp [served, serve, Call.fop, Call.subvol, unlink, h, Except.map, Except.toOption]

theorem put_comm {v' : Subvol} {name' : Name} (hkey : ¬ (v = v' ∧ name = name'))
    (bricks : Subvol → Brick) (file file' : Option File) :
    put (put bricks v name file) v' name' file' = put (put bricks v' name' file') v name file := by
  funext w n
  simp only [put_apply]
  by_cases hw : w = v ∧ n = name
  · obtain ⟨rfl, rfl⟩ := hw
    simp [hkey]
  · rw [if_neg hw, if_neg hw]

theorem commutes_unlink (v v' : Subvol) (name name' : Name) :
    Commutes served (.unlink v name) (.unlink v' name') := by
  by_cases hkey : v = v' ∧ name = name'
  · obtain ⟨rfl, rfl⟩ := hkey
    exact fun _ => rfl
  · intro bricks
    have haft : put bricks v name none v' name' = bricks v' name' := by
      rw [put_apply, if_neg (fun hall => hkey ⟨hall.1.symm, hall.2.symm⟩)]
    have haft' : put bricks v' name' none v name = bricks v name := by rw [put_apply, if_neg hkey]
    cases h : bricks v name with
    | none =>
      rw [h] at haft'
      cases h' : bricks v' name' with
      | none => rw [served_unlink_none h, served_unlink_none h', bind_none, bind_none]
      | some file' =>
        rw [served_unlink_none h, served_unlink h', bind_some, bind_none, served_unlink_none haft']
    | some file =>
      rw [h] at haft'
      cases h' : bricks v' name' with
      | none =>
        rw [h'] at haft
        rw [served_unlink_none h', served_unlink h, bind_some, bind_none, served_unlink_none haft]
      | some file' =>
        rw [h'] at haft
        rw [served_unlink h, served_unlink h', bind_some, bind_some,
          served_unlink haft, served_unlink haft', put_comm hkey]

def Status.executed : Status → Bool
  | .idle => false
  | .wound => false
  | .served _ => true
  | .replied => true

/-- The calls of the plan that no brick has served yet. -/
def left (l : RenameLocal) (calls : Call → Status) : List Call :=
  (plan l).filter (fun c => !(calls c).executed)

/-- The stage of the rename that a call belongs to. -/
def Call.order : Call → Nat
  | .mknod _ _ => 0
  | .setxattr _ _ _ => 1
  | .link _ _ _ => 2
  | .rename _ _ _ => 3
  | .unlink _ _ => 4

theorem mem_plan :
    c ∈ plan l ↔ c ∈ linkfileCalls l ∨ c ∈ linkCalls l ∨ c = renameCall l ∨ c ∈ unlinkCalls l := by
  simp [plan]

theorem exists_of_mem_unlinkCalls (hc : c ∈ unlinkCalls l) : ∃ v name, c = .unlink v name := by
  rcases mem_unlinkCalls.mp hc with ⟨-, rfl⟩ | ⟨-, rfl⟩ | ⟨dstCached, -, -, rfl⟩ <;>
    exact ⟨_, _, rfl⟩

theorem linkfileCalls_order (hc : c ∈ linkfileCalls l) : c.order ≤ 1 := by
  rw [linkfileCalls, mem_ite_nil_right, mem_pair] at hc
  obtain ⟨-, rfl | rfl⟩ := hc
  · exact Nat.zero_le 1
  · exact Nat.le_refl 1

theorem linkCalls_order (hc : c ∈ linkCalls l) : c.order = 2 := by
  rw [linkCalls, mem_ite_nil_right, mem_singleton] at hc
  obtain ⟨-, rfl⟩ := hc
  rfl

theorem unlinkCalls_order (hc : c ∈ unlinkCalls l) : c.order = 4 := by
  obtain ⟨v, name, rfl⟩ := exists_of_mem_unlinkCalls hc
  rfl

theorem later_order (hc : c ∈ renameCall l :: unlinkCalls l) : 3 ≤ c.order := by
  rcases mem_cons.mp hc with rfl | hc
  · exact Nat.le_refl 3
  · rw [unlinkCalls_order hc]
    decide

theorem ne_renameCall (horder : c.order ≠ 3) : c ≠ renameCall l := by
  rintro rfl
  exact horder rfl

theorem unlink_ne_renameCall (hc : c ∈ unlinkCalls l) : c ≠ renameCall l :=
  ne_renameCall (by rw [unlinkCalls_order hc]; decide)

theorem renameCall_mem_plan (l : RenameLocal) : renameCall l ∈ plan l :=
  mem_plan.mpr (.inr (.inr (.inl rfl)))

theorem mem_plan_links :
    c ∈ plan l ↔ c ∈ linkfileCalls l ++ linkCalls l ∨ c = renameCall l ∨ c ∈ unlinkCalls l := by
  rw [plan, ← append_assoc, mem_append, mem_cons]

/-- The plan lists the calls stage by stage. -/
theorem plan_sorted (l : RenameLocal) : (plan l).Pairwise (fun c c' => c.order ≤ c'.order) := by
  have hren : (renameCall l).order = 3 := rfl
  refine pairwise_append.mpr ⟨?_, pairwise_append.mpr ⟨?_, pairwise_cons.mpr ⟨?_, ?_⟩, ?_⟩, ?_⟩
  · unfold linkfileCalls
    split_ifs
    · simp [Call.order]
    · exact List.Pairwise.nil
  · unfold linkCalls
    split_ifs
    · exact pairwise_singleton _ _
    · exact List.Pairwise.nil
  · intro c hc
    have := unlinkCalls_order hc
    omega
  · refine pairwise_of_forall_mem_list ?_
    intro c hc c' hc'
    rw [unlinkCalls_order hc, unlinkCalls_order hc']
  · intro c hc c' hc'
    have := linkCalls_order hc
    rcases mem_cons.mp hc' with rfl | hc'
    · omega
    · have := unlinkCalls_order hc'
      omega
  · intro c hc c' hc'
    have := linkfileCalls_order hc
    rcases mem_append.mp hc' with hc' | hc'
    · have := linkCalls_order hc'
      omega
    · rcases mem_cons.mp hc' with rfl | hc'
      · omega
      · have := unlinkCalls_order hc'
        omega

theorem plan_nodup (hnames : l.loc ≠ l.loc2) : (plan l).Nodup := by
  have hnd := unlinkCalls_nodup hnames
  have hunlk : ∀ c ∈ unlinkCalls l, ∃ v name, c = .unlink v name :=
    fun c hc => exists_of_mem_unlinkCalls hc
  unfold plan linkfileCalls linkCalls renameCall
  split_ifs <;> simp <;> grind

theorem exists_split (hnd : cs.Nodup) (hc : c ∈ cs) :
    ∃ front back, cs = front ++ c :: back ∧ c ∉ front ∧ c ∉ back := by
  obtain ⟨front, back, rfl⟩ := append_of_mem hc
  have hnot := (nodup_cons.mp (nodup_middle.mp hnd)).1
  rw [mem_append, not_or] at hnot
  exact ⟨front, back, rfl, hnot⟩

theorem filter_executed (hc : c ∉ cs) (status : Status) :
    cs.filter (fun c' => !(update calls c status c').executed) =
      cs.filter (fun c' => !(calls c').executed) := by
  refine filter_congr ?_
  intro c' hc'
  have hne : c' ≠ c := fun heq => hc (heq ▸ hc')
  rw [update_of_ne hne]

/-- A call is served when what comes before it in the plan is done or commutes with it. -/
theorem run_left_serve {after : Subvol → Brick} (hnames : l.loc ≠ l.loc2) (hc : c ∈ plan l)
    (hwnd : calls c = .wound)
    (hbef : ∀ c' ∈ plan l, c' ≠ c → c'.order ≤ c.order → (calls c').executed = true ∨
      Commutes served c' c)
    (hleft : run served bricks (left l calls) = some after) :
    ∃ bricks', served bricks c = some bricks' ∧
      run served bricks' (left l (update calls c (.served none))) = some after := by
  have hsort := plan_sorted l
  unfold left at hleft ⊢
  obtain ⟨front, back, hplan, hfro, hback⟩ := exists_split (plan_nodup hnames) hc
  rw [hplan] at hsort hleft ⊢
  have hcommutes : ∀ c' ∈ front.filter (fun c' => !(calls c').executed), Commutes served c' c := by
    intro c' hc'
    obtain ⟨hmem, hnot⟩ := mem_filter.mp hc'
    have horder := (pairwise_append.mp hsort).2.2 c' hmem c mem_cons_self
    have hne : c' ≠ c := fun heq => hfro (heq ▸ hmem)
    rcases hbef c' (by rw [hplan]; exact mem_append_left _ hmem) hne horder with hex | hcomm
    · simp [hex] at hnot
    · exact hcomm
  rw [filter_append, filter_cons_of_pos (by rw [hwnd]; rfl),
    run_move served hcommutes, run_cons, bind_eq_some_iff] at hleft
  obtain ⟨bricks', hsrv, hrest⟩ := hleft
  refine ⟨bricks', hsrv, ?_⟩
  rw [filter_append, filter_cons_of_neg (by simp [Status.executed]),
    filter_executed hfro, filter_executed hback, hrest]

theorem countP_add_one {p p' : Call → Bool} (hnd : cs.Nodup) (hc : c ∈ cs)
    (hp : p c = false) (hp' : p' c = true) (hoff : ∀ c' ∈ cs, c' ≠ c → p' c' = p c') :
    cs.countP p' = cs.countP p + 1 := by
  obtain ⟨front, back, rfl, hfro, hback⟩ := exists_split hnd hc
  have hsame : ∀ part : List Call, c ∉ part → (∀ c' ∈ part, c' ∈ front ++ c :: back) →
      part.countP p' = part.countP p := by
    intro part hpart hsub
    refine countP_congr ?_
    intro c' hc'
    rw [hoff c' (hsub c' hc') (fun heq => hpart (heq ▸ hc'))]
  rw [countP_append, countP_append, countP_cons, countP_cons, hp, hp',
    hsame front hfro (fun c' hc' => mem_append_left _ hc'),
    hsame back hback (fun c' hc' => mem_append_right _ (mem_cons_of_mem _ hc'))]
  simp
  omega

abbrev mknodCall (l : RenameLocal) : Call :=
  .mknod l.dstHashed l.loc

abbrev setxattrCall (l : RenameLocal) : Call :=
  .setxattr l.dstHashed l.loc l.srcCached

abbrev linkCall (l : RenameLocal) : Call :=
  .link l.srcCached l.loc l.loc2

/-- The calls whose replies the first count is about. -/
def linkEnds (l : RenameLocal) : List Call :=
  (if l.NeedsLinkfile then [setxattrCall l] else []) ++ linkCalls l

def outstanding (calls : Call → Status) (cs : List Call) : Nat :=
  cs.countP (fun c => decide (calls c ≠ .replied))

/-- The links are on their way, and nothing else is. -/
structure Linking (l : RenameLocal) (s : RenameState) : Prop where
  mknod : l.NeedsLinkfile → s.calls (mknodCall l) ≠ .idle
  setxattr : l.NeedsLinkfile → (s.calls (setxattrCall l) ≠ .idle ↔ s.calls (mknodCall l) = .replied)
  link : l.NeedsLink → s.calls (linkCall l) ≠ .idle
  later : ∀ c ∈ renameCall l :: unlinkCalls l, s.calls c = .idle
  count : s.callCnt = (outstanding s.calls (linkEnds l) : Int)
  more : s.callCnt ≠ 0
  unwound : s.unwound = []

/-- The links are made, and the rename is on its way. -/
structure Moving (l : RenameLocal) (s : RenameState) : Prop where
  links : ∀ c ∈ linkfileCalls l ++ linkCalls l, s.calls c = .replied
  rename : s.calls (renameCall l) ≠ .idle ∧ s.calls (renameCall l) ≠ .replied
  later : ∀ c ∈ unlinkCalls l, s.calls c = .idle
  count : s.callCnt = 0
  unwound : s.unwound = []

/-- The rename is done, and the unlinks are on their way. -/
structure Unlinking (l : RenameLocal) (s : RenameState) : Prop where
  links : ∀ c ∈ linkfileCalls l ++ linkCalls l, s.calls c = .replied
  rename : s.calls (renameCall l) = .replied
  unlinks : ∀ c ∈ unlinkCalls l, s.calls c ≠ .idle
  count : s.callCnt = (outstanding s.calls (unlinkCalls l) : Int)
  more : s.callCnt ≠ 0
  unwound : s.unwound = []

/-- All calls have their replies, and the caller has got success. -/
structure Finished (l : RenameLocal) (s : RenameState) : Prop where
  done : ∀ c ∈ plan l, s.calls c = .replied
  unwound : s.unwound = [(0, EUCLEAN)]

inductive Phase (l : RenameLocal) (s : RenameState) : Prop where
  | linking (h : Linking l s)
  | moving (h : Moving l s)
  | unlinking (h : Unlinking l s)
  | finished (h : Finished l s)

theorem mem_linkfileCalls :
    c ∈ linkfileCalls l ↔ l.NeedsLinkfile ∧ (c = mknodCall l ∨ c = setxattrCall l) := by
  rw [linkfileCalls, mem_ite_nil_right, mem_pair]

theorem mem_linkCalls : c ∈ linkCalls l ↔ l.NeedsLink ∧ c = linkCall l := by
  rw [linkCalls, mem_ite_nil_right, mem_singleton]

theorem mem_links :
    c ∈ linkfileCalls l ++ linkCalls l ↔
      l.NeedsLinkfile ∧ (c = mknodCall l ∨ c = setxattrCall l) ∨ l.NeedsLink ∧ c = linkCall l := by
  rw [mem_append, mem_linkfileCalls, mem_linkCalls]

theorem links_order (hc : c ∈ linkfileCalls l ++ linkCalls l) : c.order < 3 := by
  rcases mem_links.mp hc with ⟨-, rfl | rfl⟩ | ⟨-, rfl⟩ <;> simp [Call.order]

theorem mem_linkEnds :
    c ∈ linkEnds l ↔ l.NeedsLinkfile ∧ c = setxattrCall l ∨ l.NeedsLink ∧ c = linkCall l := by
  rw [linkEnds, mem_append, mem_ite_nil_right, mem_singleton, mem_linkCalls]

theorem linkEnds_nodup (l : RenameLocal) : (linkEnds l).Nodup := by
  unfold linkEnds linkCalls
  split_ifs <;> simp

theorem outstanding_congr (h : ∀ c ∈ cs, calls' c = .replied ↔ calls c = .replied) :
    outstanding calls' cs = outstanding calls cs := by
  refine countP_congr ?_
  intro c hc
  simp only [ne_eq, h c hc]

theorem outstanding_replied (hnd : cs.Nodup) (hc : c ∈ cs) (hbef : calls c ≠ .replied)
    (haft : calls' c = .replied)
    (hoff : ∀ c' ∈ cs, c' ≠ c → (calls' c' = .replied ↔ calls c' = .replied)) :
    outstanding calls cs = outstanding calls' cs + 1 := by
  refine countP_add_one hnd hc ?_ ?_ ?_
  · simp [haft]
  · simp [hbef]
  · intro c' hc' hne
    simp only [ne_eq, hoff c' hc' hne]

theorem outstanding_eq_zero : outstanding calls cs = 0 ↔ ∀ c ∈ cs, calls c = .replied := by
  rw [outstanding, countP_eq_zero]
  simp

theorem outstanding_eq_length (h : ∀ c ∈ cs, calls c ≠ .replied) :
    outstanding calls cs = cs.length := by
  rw [outstanding, countP_eq_length]
  simpa using h

theorem Phase.congr (h : Phase l s) (hidle : ∀ c, s'.calls c = .idle ↔ s.calls c = .idle)
    (hrepl : ∀ c, s'.calls c = .replied ↔ s.calls c = .replied)
    (hcount : s'.callCnt = s.callCnt) (hunw : s'.unwound = s.unwound) : Phase l s' := by
  have hout : ∀ cs, outstanding s'.calls cs = outstanding s.calls cs :=
    fun cs => outstanding_congr (fun c _ => hrepl c)
  cases h with
  | linking h =>
    obtain ⟨hmk, hsx, hlink, hlat, hcnt, hmore, hnone⟩ := h
    refine .linking ⟨?_, ?_, ?_, ?_, ?_, ?_, ?_⟩
    all_goals simp only [ne_eq, hidle, hrepl, hcount, hout, hunw]
    all_goals assumption
  | moving h =>
    obtain ⟨hlks, hren, hlat, hcnt, hnone⟩ := h
    refine .moving ⟨?_, ?_, ?_, ?_, ?_⟩
    all_goals simp only [ne_eq, hidle, hrepl, hcount, hunw]
    all_goals assumption
  | unlinking h =>
    obtain ⟨hlks, hren, hunls, hcnt, hmore, hnone⟩ := h
    refine .unlinking ⟨?_, ?_, ?_, ?_, ?_, ?_⟩
    all_goals simp only [ne_eq, hidle, hrepl, hcount, hout, hunw]
    all_goals assumption
  | finished h =>
    obtain ⟨hdone, hanswer⟩ := h
    refine .finished ⟨?_, ?_⟩
    all_goals simp only [hrepl, hunw]
    all_goals assumption

/-- What stands before a call in the plan, or beside it. -/
theorem plan_before (hplan : c ∈ plan l) (hplan' : c' ∈ plan l) (hne : c' ≠ c)
    (horder : c'.order ≤ c.order) :
    (c = setxattrCall l ∧ c' = mknodCall l ∧ l.NeedsLinkfile) ∨
      (c = linkCall l ∧ c' ∈ linkfileCalls l ∧ l.NeedsLink) ∨
      (c = renameCall l ∧ c' ∈ linkfileCalls l ++ linkCalls l) ∨
      (c ∈ unlinkCalls l ∧
        (c' ∈ linkfileCalls l ++ linkCalls l ∨ c' = renameCall l ∨ c' ∈ unlinkCalls l)) := by
  rw [mem_plan_links] at hplan hplan'
  rcases hplan with hc | rfl | hc
  · have hc' : c' ∈ linkfileCalls l ++ linkCalls l := by
      by_contra hnot
      have := later_order (mem_cons.mpr (hplan'.resolve_left hnot))
      have := links_order hc
      omega
    rcases mem_links.mp hc with ⟨hneeds, rfl | rfl⟩ | ⟨hneeds, rfl⟩
    · rcases mem_links.mp hc' with ⟨-, rfl | rfl⟩ | ⟨-, rfl⟩
      · exact absurd rfl hne
      · cases horder
      · cases horder
    · rcases mem_links.mp hc' with ⟨-, rfl | rfl⟩ | ⟨-, rfl⟩
      · exact .inl ⟨rfl, rfl, hneeds⟩
      · exact absurd rfl hne
      · simp [Call.order] at horder
    · rcases mem_append.mp hc' with hc' | hc'
      · exact .inr (.inl ⟨rfl, hc', hneeds⟩)
      · exact absurd (mem_linkCalls.mp hc').2 hne
  · rcases hplan' with hc' | rfl | hc'
    · exact .inr (.inr (.inl ⟨rfl, hc'⟩))
    · exact absurd rfl hne
    · rw [unlinkCalls_order hc'] at horder
      exact absurd horder (Nat.lt_irrefl 3)
  · exact .inr (.inr (.inr ⟨hc, hplan'⟩))

theorem Phase.links_replied (h : Phase l s) (hc : c ∈ renameCall l :: unlinkCalls l)
    (hidle : s.calls c ≠ .idle) : ∀ c' ∈ linkfileCalls l ++ linkCalls l, s.calls c' = .replied := by
  cases h with
  | linking h => exact absurd (h.later c hc) hidle
  | moving h | unlinking h => exact h.links
  | finished h => exact fun c' hc' => h.done c' (mem_plan_links.mpr (.inl hc'))

theorem Phase.mknod_replied (h : Phase l s) (hneeds : l.NeedsLinkfile)
    (hidle : s.calls (setxattrCall l) ≠ .idle) : s.calls (mknodCall l) = .replied := by
  have hmem : mknodCall l ∈ linkfileCalls l := mem_linkfileCalls.mpr ⟨hneeds, .inl rfl⟩
  cases h with
  | linking h => exact (h.setxattr hneeds).mp hidle
  | moving h | unlinking h => exact h.links _ (mem_append_left _ hmem)
  | finished h => exact h.done _ (mem_append_left _ hmem)

theorem Phase.rename_replied (h : Phase l s) (hc : c ∈ unlinkCalls l) (hidle : s.calls c ≠ .idle) :
    s.calls (renameCall l) = .replied := by
  cases h with
  | linking h => exact absurd (h.later c (mem_cons_of_mem _ hc)) hidle
  | moving h => exact absurd (h.later c hc) hidle
  | unlinking h => exact h.rename
  | finished h => exact h.done _ (renameCall_mem_plan l)

/-- What comes before a call that is under way is served or commutes with it. -/
theorem Phase.before (h : Phase l s) (hplan : c ∈ plan l) (hwnd : s.calls c = .wound) :
    ∀ c' ∈ plan l, c' ≠ c → c'.order ≤ c.order →
      (s.calls c').executed = true ∨ Commutes served c' c := by
  have hdone : ∀ c', s.calls c' = .replied → (s.calls c').executed = true := by
    intro c' hc'
    rw [hc']
    rfl
  have hidle : s.calls c ≠ .idle := by simp [hwnd]
  intro c' hc' hne horder
  rcases plan_before hplan hc' hne horder with
    ⟨rfl, rfl, hneeds⟩ | ⟨rfl, hlf, hneeds⟩ | ⟨rfl, hlks⟩ |
      ⟨hunlk, hlks | rfl | hunlk'⟩
  · exact .inl (hdone _ (h.mknod_replied hneeds hidle))
  · obtain ⟨-, rfl | rfl⟩ := mem_linkfileCalls.mp hlf <;>
      exact .inr (commutes_of_subvol_ne hneeds.2.symm)
  · exact .inl (hdone _ (h.links_replied mem_cons_self hidle c' hlks))
  · exact .inl (hdone _ (h.links_replied (mem_cons_of_mem _ hunlk) hidle c' hlks))
  · exact .inl (hdone _ (h.rename_replied hunlk hidle))
  · obtain ⟨v, name, rfl⟩ := exists_of_mem_unlinkCalls hunlk
    obtain ⟨v', name', rfl⟩ := exists_of_mem_unlinkCalls hunlk'
    exact .inr (commutes_unlink v' v name' name)

end GlusterFS.Dht
