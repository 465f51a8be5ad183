import GlusterFS.Dht.RenamePlan

/-!
# DHT: the replies to a rename

Each call that is served and each reply keep the phases of a rename and what is left of its
plan.  The counter of calls says when a phase is over, so that the last reply finds all of
the plan done.
-/

namespace GlusterFS.Dht

open Run List Function Nat

variable {opErrno : Option Int} {l : RenameLocal} {bricks after : Subvol → Brick}
  {s s' : RenameState} {ino : Nat} {c c' : Call}

section

/-- A rename on its way to the bricks that it is for. -/
structure Ongoing (l : RenameLocal) (after : Subvol → Brick) (s : RenameState) : Prop where
  phase : Phase l s
  planned : ∀ c, s.calls c ≠ .idle → c ∈ plan l
  good : ∀ c opErrno, s.calls c = .served opErrno → opErrno = none
  ret : s.opRet = 0 ∧ s.opErrno = EUCLEAN
  left : run served s.bricks (left l s.calls) = some after

/-- A reply has come, and calls of the plan are wound. -/
structure Next (l : RenameLocal) (s s' : RenameState) (c : Call) : Prop where
  bricks : s'.bricks = s.bricks
  ret : s'.opRet = s.opRet ∧ s'.opErrno = s.opErrno
  replied : s'.calls c = .replied
  others : ∀ c', c' ≠ c →
    s'.calls c' = s.calls c' ∨ s.calls c' = .idle ∧ s'.calls c' = .wound ∧ c' ∈ plan l

theorem Next.executed (h : Next l s s' c) (hsrv : s.calls c = .served opErrno) (c' : Call) :
    (s'.calls c').executed = (s.calls c').executed := by
  by_cases hc' : c' = c
  · rw [hc', h.replied, hsrv]
    rfl
  · rcases h.others c' hc' with hsame | ⟨hidle, hwnd, -⟩
    · rw [hsame]
    · rw [hidle, hwnd]
      rfl

theorem Ongoing.next (h : Ongoing l after s) (hsrv : s.calls c = .served opErrno)
    (hnext : Next l s s' c) (hph : Phase l s') : Ongoing l after s' := by
  refine ⟨hph, ?_, ?_, ?_, ?_⟩
  · intro c' hc'
    by_cases heq : c' = c
    · rw [heq]
      exact h.planned c (by simp [hsrv])
    · rcases hnext.others c' heq with hsame | ⟨-, -, hplan⟩
      · exact h.planned c' (hsame ▸ hc')
      · exact hplan
  · intro c' opErrno' hc'
    by_cases heq : c' = c
    · simp [heq, hnext.replied] at hc'
    · rcases hnext.others c' heq with hsame | ⟨-, hwnd, -⟩
      · exact h.good c' opErrno' (hsame ▸ hc')
      · simp [hwnd] at hc'
  · rw [hnext.ret.1, hnext.ret.2]
    exact h.ret
  · have hleft : Dht.left l s'.calls = Dht.left l s.calls := by
      refine filter_congr ?_
      intro c' _
      rw [hnext.executed hsrv]
    rw [hnext.bricks, hleft]
    exact h.left

theorem Ongoing.serve (h : Ongoing l after s) (hnames : l.loc ≠ l.loc2)
    (hwnd : s.calls c = .wound) :
    ∃ s', renameStep l s (.serve c) = some s' ∧ Ongoing l after s' ∧
      s'.calls = update s.calls c (.served none) := by
  have hplan := h.planned c (by simp [hwnd])
  obtain ⟨bricks', hsrv, hleft⟩ :=
    run_left_serve hnames hplan hwnd (h.phase.before hplan hwnd) h.left
  have hserve : Dht.serve s.bricks c = .ok bricks' := by
    unfold served at hsrv
    cases hresult : Dht.serve s.bricks c with
    | error opErrno =>
      rw [hresult] at hsrv
      cases hsrv
    | ok bricks =>
      rw [hresult] at hsrv
      cases hsrv
      rfl
  have hoth : ∀ c', c' ≠ c → update s.calls c (.served none) c' = s.calls c' :=
    fun c' hne => update_of_ne hne _ _
  refine ⟨{ s with bricks := bricks', calls := update s.calls c (.served none) }, ?_,
    ⟨?_, ?_, ?_, h.ret, hleft⟩, rfl⟩
  · simp only [renameStep]
    rw [if_pos hwnd, hserve]
  · refine h.phase.congr ?_ ?_ rfl rfl
    all_goals
      intro c'
      by_cases hc' : c' = c
      · simp [hc', hwnd]
      · simp only [hoth c' hc']
  · intro c' hc'
    by_cases heq : c' = c
    · rw [heq]
      exact hplan
    · exact h.planned c' (hoth c' heq ▸ hc')
  · intro c' opErrno hc'
    by_cases heq : c' = c
    · rw [heq] at hc'
      simp only [update_self, Status.served.injEq] at hc'
      exact hc'.symm
    · exact h.good c' opErrno (hoth c' heq ▸ hc')

abbrev replyTo (s : RenameState) (c : Call) : RenameState :=
  { s with calls := update s.calls c .replied }

theorem replyTo_of_ne (hne : c' ≠ c) : (replyTo s c).calls c' = s.calls c' := by
  exact update_of_ne hne _ _

theorem wind_of_ne (hne : c' ≠ c) : (wind s c).calls c' = s.calls c' := by
  exact update_of_ne hne _ _

theorem wind_self : (wind s c).calls c = .wound := by
  exact update_self _ _ _

theorem replyTo_self : (replyTo s c).calls c = .replied := by
  exact update_self _ _ _

theorem dhtDoRename_self : (dhtDoRename l s).calls (renameCall l) = .wound :=
  wind_self

theorem dhtDoRename_of_ne (hne : c ≠ renameCall l) : (dhtDoRename l s).calls c = s.calls c :=
  wind_of_ne hne

theorem replyTo_ne_idle (hidle : s.calls c' ≠ .idle) : (replyTo s c).calls c' ≠ .idle := by
  by_cases heq : c' = c
  · rw [heq, replyTo_self]
    simp
  · rwa [replyTo_of_ne heq]

theorem next_replyTo (hbr : s'.bricks = s.bricks)
    (hret : s'.opRet = s.opRet ∧ s'.opErrno = s.opErrno) (hcalls : s'.calls = (replyTo s c).calls) :
    Next l s s' c := by
  refine ⟨hbr, hret, ?_, ?_⟩
  · rw [hcalls, replyTo_self]
  · intro c' hne
    rw [hcalls, replyTo_of_ne hne]
    exact .inl rfl

theorem Linking.reply_mknod (h : Linking l s) (hneeds : l.NeedsLinkfile)
    (hsrv : s.calls (mknodCall l) = .served none) :
    Next l s (wind (replyTo s (mknodCall l)) (setxattrCall l)) (mknodCall l) ∧
      Linking l (wind (replyTo s (mknodCall l)) (setxattrCall l)) := by
  have hidle : s.calls (setxattrCall l) = .idle := by
    by_contra hne
    have hrepl := (h.setxattr hneeds).mp hne
    simp [hsrv] at hrepl
  have hoth : ∀ c, c ≠ setxattrCall l → c ≠ mknodCall l →
      (wind (replyTo s (mknodCall l)) (setxattrCall l)).calls c = s.calls c := by
    intro c hset hmk
    simp only [wind, update_of_ne hset, update_of_ne hmk]
  have hmknod : (wind (replyTo s (mknodCall l)) (setxattrCall l)).calls (mknodCall l) =
      .replied := by simp [wind]
  have hsx : (wind (replyTo s (mknodCall l)) (setxattrCall l)).calls (setxattrCall l) =
      .wound := by simp [wind]
  refine ⟨⟨rfl, ⟨rfl, rfl⟩, hmknod, ?_⟩, ⟨?_, ?_, ?_, ?_, ?_, h.more, h.unwound⟩⟩
  · intro c' hne
    by_cases heq : c' = setxattrCall l
    · subst heq
      refine .inr ⟨hidle, hsx, ?_⟩
      exact mem_plan.mpr (.inl (mem_linkfileCalls.mpr ⟨hneeds, .inr rfl⟩))
    · exact .inl (hoth c' heq hne)
  · intro _
    simp [hmknod]
  · intro _
    simp [hmknod, hsx]
  · intro hlink
    exact h.link hlink
  · intro c hc
    have horder := later_order hc
    rw [hoth, h.later c hc]
    · rintro rfl
      simp [Call.order] at horder
    · rintro rfl
      simp [Call.order] at horder
  · refine h.count.trans (congrArg _ ?_)
    refine (outstanding_congr ?_).symm
    intro c hc
    rcases mem_linkEnds.mp hc with ⟨-, rfl⟩ | ⟨-, rfl⟩
    · simp [hsx, hidle]
    · rw [hoth _ (by simp) (by simp)]

theorem linkEnds_order (hc : c ∈ linkEnds l) : 1 ≤ c.order ∧ c.order ≤ 2 := by
  rcases mem_linkEnds.mp hc with ⟨-, rfl⟩ | ⟨-, rfl⟩
  · exact ⟨le_refl 1, le_succ 1⟩
  · exact ⟨le_succ 1, le_refl 2⟩

theorem outstanding_replyTo {cs : List Call} (hnd : cs.Nodup) (hc : c ∈ cs)
    (hsrv : s.calls c = .served opErrno) :
    outstanding s.calls cs = outstanding (replyTo s c).calls cs + 1 := by
  refine outstanding_replied hnd hc (by simp [hsrv]) replyTo_self ?_
  intro c' _ hne
  rw [replyTo_of_ne hne]

variable (h : Linking l s) (hc : c ∈ linkEnds l) (hsrv : s.calls c ≠ .idle)
include h hc hsrv

theorem Linking.replied (hends : ∀ c' ∈ linkEnds l, (replyTo s c).calls c' = .replied) :
    ∀ c' ∈ linkfileCalls l ++ linkCalls l, (replyTo s c).calls c' = .replied := by
  intro c' hc'
  rcases mem_append.mp hc' with hc' | hc'
  · obtain ⟨hneeds, rfl | rfl⟩ := mem_linkfileCalls.mp hc'
    · have hne : mknodCall l ≠ c := by
        rintro rfl
        simpa [Call.order] using linkEnds_order hc
      rw [replyTo_of_ne hne]
      refine (h.setxattr hneeds).mp ?_
      by_cases heq : setxattrCall l = c
      · rw [heq]
        exact hsrv
      · have hset := hends _ (mem_linkEnds.mpr (.inl ⟨hneeds, rfl⟩))
        rw [replyTo_of_ne heq] at hset
        simp [hset]
    · exact hends _ (mem_linkEnds.mpr (.inl ⟨hneeds, rfl⟩))
  · exact hends _ (mem_linkEnds.mpr (.inr (mem_linkCalls.mp hc')))

theorem Linking.more_links
    (hlat : ∀ c' ∈ renameCall l :: unlinkCalls l, (replyTo s c).calls c' = .idle)
    (hcnt : s.callCnt - 1 = (outstanding (replyTo s c).calls (linkEnds l) : Int))
    (hmore : s.callCnt - 1 ≠ 0) : Linking l { replyTo s c with callCnt := s.callCnt - 1 } := by
  have hmk : (replyTo s c).calls (mknodCall l) = s.calls (mknodCall l) := by
    refine replyTo_of_ne ?_
    rintro rfl
    simpa [Call.order] using linkEnds_order hc
  refine ⟨fun hneeds => replyTo_ne_idle (h.mknod hneeds), ?_,
    fun hneeds => replyTo_ne_idle (h.link hneeds), hlat, hcnt, hmore, h.unwound⟩
  intro hneeds
  rw [hmk, ← h.setxattr hneeds]
  refine ⟨?_, replyTo_ne_idle⟩
  by_cases heq : setxattrCall l = c
  · intro _
    rwa [heq]
  · rw [replyTo_of_ne heq]
    exact id

theorem Linking.last_link
    (hlat : ∀ c' ∈ renameCall l :: unlinkCalls l, (replyTo s c).calls c' = .idle)
    (hends : ∀ c' ∈ linkEnds l, (replyTo s c).calls c' = .replied) (hlast : s.callCnt - 1 = 0) :
    Next l s (dhtDoRename l { replyTo s c with callCnt := s.callCnt - 1 }) c ∧
      Moving l (dhtDoRename l { replyTo s c with callCnt := s.callCnt - 1 }) := by
  have horder := linkEnds_order hc
  refine ⟨⟨rfl, ⟨rfl, rfl⟩, ?_, ?_⟩, ⟨?_, ?_, ?_, hlast, h.unwound⟩⟩
  · rw [dhtDoRename_of_ne (ne_renameCall (by omega)), replyTo_self]
  · intro c' hne
    by_cases heq : c' = renameCall l
    · subst heq
      exact .inr ⟨h.later _ mem_cons_self, dhtDoRename_self, renameCall_mem_plan l⟩
    · exact .inl ((dhtDoRename_of_ne heq).trans (replyTo_of_ne hne))
  · intro c' hc'
    rw [dhtDoRename_of_ne (ne_renameCall (Nat.ne_of_lt (links_order hc'))),
      h.replied hc hsrv hends c' hc']
  · simp [dhtDoRename_self]
  · intro c' hc'
    rw [dhtDoRename_of_ne (unlink_ne_renameCall hc'), hlat c' (mem_cons_of_mem _ hc')]

omit h hc hsrv

theorem Linking.reply_link (h : Linking l s) (hret : s.opRet = 0) (hc : c ∈ linkEnds l)
    (hsrv : s.calls c = .served none) :
    Next l s (dhtRenameLinksCbk l (replyTo s c) none) c ∧
      Phase l (dhtRenameLinksCbk l (replyTo s c) none) := by
  have horder := linkEnds_order hc
  have hidle : s.calls c ≠ .idle := by simp [hsrv]
  have hlat : ∀ c' ∈ renameCall l :: unlinkCalls l, (replyTo s c).calls c' = .idle := by
    intro c' hc'
    have horder' := later_order hc'
    rw [replyTo_of_ne (by rintro rfl; omega), h.later c' hc']
  have hout := outstanding_replyTo (linkEnds_nodup l) hc hsrv
  have hcnt := h.count
  unfold dhtRenameLinksCbk
  by_cases hlast : s.callCnt - 1 = 0
  · have hends := outstanding_eq_zero.mp
      (show outstanding (replyTo s c).calls (linkEnds l) = 0 by omega)
    rw [if_pos hlast, if_neg (by simp [hret])]
    exact (h.last_link hc hidle hlat hends hlast).imp_right Phase.moving
  · rw [if_neg hlast]
    exact ⟨next_replyTo rfl ⟨rfl, rfl⟩ rfl, .linking (h.more_links hc hidle hlat (by omega) hlast)⟩

theorem foldl_wind (cs : List Call) (s : RenameState) :
    cs.foldl wind s = { s with calls := fun c => if c ∈ cs then .wound else s.calls c } := by
  induction cs generalizing s with
  | nil => simp
  | cons c cs ih =>
    rw [foldl_cons, ih]
    simp only [wind, RenameState.mk.injEq, true_and, and_true]
    funext c'
    by_cases hmem : c' ∈ cs
    · simp [hmem]
    · by_cases heq : c' = c <;> simp [heq]

theorem Moving.no_unlinks (h : Moving l s) (hret : s.opRet = 0 ∧ s.opErrno = EUCLEAN)
    (hnil : unlinkCalls l = []) (hcalls : s'.calls = (replyTo s (renameCall l)).calls)
    (hunw : s'.unwound = s.unwound ++ [(s.opRet, s.opErrno)]) : Finished l s' := by
  refine ⟨?_, ?_⟩
  · intro c hc
    rw [mem_plan_links, hnil, mem_nil_iff, or_false] at hc
    rw [hcalls]
    by_cases heq : c = renameCall l
    · rw [heq, replyTo_self]
    · rw [replyTo_of_ne heq]
      exact h.links c (hc.resolve_right heq)
  · rw [hunw, h.unwound, hret.1, hret.2]
    rfl

theorem Moving.unlinks_wound (h : Moving l s) (hsome : ((unlinkCalls l).length : Int) ≠ 0)
    (hbr : s'.bricks = s.bricks) (hret : s'.opRet = s.opRet ∧ s'.opErrno = s.opErrno)
    (hcalls : ∀ c, s'.calls c =
      if c ∈ unlinkCalls l then .wound else (replyTo s (renameCall l)).calls c)
    (hcnt : s'.callCnt = (unlinkCalls l).length) (hunw : s'.unwound = s.unwound) :
    Next l s s' (renameCall l) ∧ Unlinking l s' := by
  have horder : ∀ c, c.order ≤ 3 → s'.calls c = (replyTo s (renameCall l)).calls c := by
    intro c hle
    rw [hcalls, if_neg]
    intro hc
    have := unlinkCalls_order hc
    omega
  have hwnd : ∀ c ∈ unlinkCalls l, s'.calls c = .wound := by
    intro c hc
    rw [hcalls, if_pos hc]
  have hren : s'.calls (renameCall l) = .replied := by
    rw [horder (renameCall l) (le_refl 3), replyTo_self]
  refine ⟨⟨hbr, hret, hren, ?_⟩, ⟨?_, hren, ?_, ?_, ?_, ?_⟩⟩
  · intro c hne
    by_cases hc : c ∈ unlinkCalls l
    · refine .inr ⟨h.later c hc, hwnd c hc, ?_⟩
      exact mem_plan.mpr (.inr (.inr (.inr hc)))
    · rw [hcalls, if_neg hc, replyTo_of_ne hne]
      exact .inl rfl
  · intro c hc
    have := links_order hc
    rw [horder c (by omega), replyTo_of_ne (ne_renameCall (by omega)), h.links c hc]
  · intro c hc
    rw [hwnd c hc]
    simp
  · rw [hcnt, outstanding_eq_length]
    intro c hc
    rw [hwnd c hc]
    simp
  · rw [hcnt]
    exact hsome
  · rw [hunw, h.unwound]

theorem Moving.reply_rename (h : Moving l s) (hret : s.opRet = 0 ∧ s.opErrno = EUCLEAN) :
    Next l s (dhtRenameCbk l (replyTo s (renameCall l)) none) (renameCall l) ∧
      Phase l (dhtRenameCbk l (replyTo s (renameCall l)) none) := by
  unfold dhtRenameCbk
  simp only [h.count, Int.zero_add]
  by_cases hnone : ((unlinkCalls l).length : Int) = 0
  · have hnil : unlinkCalls l = [] := eq_nil_of_length_eq_zero (by omega)
    rw [if_pos hnone]
    exact ⟨next_replyTo rfl ⟨rfl, rfl⟩ rfl, .finished (h.no_unlinks hret hnil rfl rfl)⟩
  · rw [if_neg hnone, foldl_wind]
    refine And.imp_right Phase.unlinking ?_
    exact h.unlinks_wound hnone rfl ⟨rfl, rfl⟩ (fun _ => rfl) rfl rfl

theorem Unlinking.reply_unlink (h : Unlinking l s) (hnames : l.loc ≠ l.loc2)
    (hret : s.opRet = 0 ∧ s.opErrno = EUCLEAN) (hc : c ∈ unlinkCalls l)
    (hsrv : s.calls c = .served none) :
    Next l s (dhtRenameUnlinkCbk (replyTo s c)) c ∧ Phase l (dhtRenameUnlinkCbk (replyTo s c)) := by
  have hrepl : ∀ c', s.calls c' = .replied → (replyTo s c).calls c' = .replied := by
    intro c' hc'
    by_cases heq : c' = c
    · rw [heq, replyTo_self]
    · rw [replyTo_of_ne heq, hc']
  have hout := outstanding_replyTo (unlinkCalls_nodup hnames) hc hsrv
  have hcnt := h.count
  unfold dhtRenameUnlinkCbk
  by_cases hlast : s.callCnt - 1 = 0
  · have hunls := outstanding_eq_zero.mp
      (show outstanding (replyTo s c).calls (unlinkCalls l) = 0 by omega)
    rw [if_pos hlast]
    refine ⟨next_replyTo rfl ⟨rfl, rfl⟩ rfl, .finished ⟨?_, ?_⟩⟩
    · intro c' hc'
      rcases mem_plan_links.mp hc' with hc' | rfl | hc'
      · exact hrepl c' (h.links c' hc')
      · exact hrepl _ h.rename
      · exact hunls c' hc'
    · rw [h.unwound, hret.1, hret.2]
      rfl
  · rw [if_neg hlast]
    refine ⟨next_replyTo rfl ⟨rfl, rfl⟩ rfl,
      .unlinking ⟨fun c' hc' => hrepl c' (h.links c' hc'), hrepl _ h.rename, ?_, ?_, hlast,
        h.unwound⟩⟩
    · exact fun c' hc' => replyTo_ne_idle (h.unlinks c' hc')
    · change s.callCnt - 1 = (outstanding (replyTo s c).calls (unlinkCalls l) : Int)
      omega

theorem Ongoing.reply (h : Ongoing l after s) (hnames : l.loc ≠ l.loc2)
    (hsrv : s.calls c = .served opErrno) :
    ∃ s', renameStep l s (.reply c) = some s' ∧ Ongoing l after s' ∧ Next l s s' c := by
  cases h.good c opErrno hsrv
  have hidle : s.calls c ≠ .idle := by simp [hsrv]
  have hrepl : s.calls c ≠ .replied := by simp [hsrv]
  have hcbk : Next l s (renameCbk l (replyTo s c) none c) c ∧
      Phase l (renameCbk l (replyTo s c) none c) := by
    have hplan := h.planned c hidle
    cases h.phase with
    | linking hlking =>
      rcases mem_plan_links.mp hplan with hc | rfl | hc
      · rcases mem_links.mp hc with ⟨hneeds, rfl | rfl⟩ | ⟨hneeds, rfl⟩
        · exact (hlking.reply_mknod hneeds hsrv).imp_right Phase.linking
        · exact hlking.reply_link h.ret.1 (mem_linkEnds.mpr (.inl ⟨hneeds, rfl⟩)) hsrv
        · exact hlking.reply_link h.ret.1 (mem_linkEnds.mpr (.inr ⟨hneeds, rfl⟩)) hsrv
      · exact absurd (hlking.later _ mem_cons_self) hidle
      · exact absurd (hlking.later _ (mem_cons_of_mem _ hc)) hidle
    | moving hmovg =>
      rcases mem_plan_links.mp hplan with hc | rfl | hc
      · exact absurd (hmovg.links c hc) hrepl
      · exact hmovg.reply_rename h.ret
      · exact absurd (hmovg.later c hc) hidle
    | unlinking hunlg =>
      rcases mem_plan_links.mp hplan with hc | rfl | hc
      · exact absurd (hunlg.links c hc) hrepl
      · exact absurd hunlg.rename hrepl
      · have hunlk := hunlg.reply_unlink hnames h.ret hc hsrv
        obtain ⟨v, name, rfl⟩ := exists_of_mem_unlinkCalls hc
        exact hunlk
    | finished hfin => exact absurd (hfin.done c hplan) hrepl
  refine ⟨renameCbk l (replyTo s c) none c, ?_, h.next hsrv hcbk.1 hcbk.2, hcbk.1⟩
  simp only [renameStep, hsrv]

end

theorem Ongoing.start (hplan : run served bricks (plan l) = some after) (hph : Phase l s)
    (hbr : s.bricks = bricks)
    (hcalls : ∀ c, s.calls c = .idle ∨ s.calls c = .wound ∧ c ∈ plan l)
    (hret : s.opRet = 0 ∧ s.opErrno = EUCLEAN) : Ongoing l after s := by
  refine ⟨hph, ?_, ?_, hret, ?_⟩
  · intro c hidle
    rcases hcalls c with hc | ⟨-, hc⟩
    · exact absurd hc hidle
    · exact hc
  · intro c opErrno hsrv
    rcases hcalls c with hc | ⟨hc, -⟩ <;> simp [hc] at hsrv
  · have hleft : Dht.left l s.calls = plan l := by
      refine filter_eq_self.mpr ?_
      intro c _
      rcases hcalls c with hc | ⟨hc, -⟩
      · rw [hc]
        rfl
      · rw [hc]
        rfl
    rw [hbr, hleft]
    exact hplan

abbrev renameStart (bricks : Subvol → Brick) (callCnt : Int) : RenameState where
  bricks := bricks
  calls := fun _ => .idle
  callCnt := callCnt
  opRet := 0
  opErrno := EUCLEAN
  unwound := []

theorem Ongoing.start_rename (hplan : run served bricks (plan l) = some after)
    (hfile : ¬ l.NeedsLinkfile) (hlink : ¬ l.NeedsLink) :
    Ongoing l after (dhtDoRename l (renameStart bricks 0)) := by
  refine .start hplan (.moving ⟨?_, ?_, ?_, rfl, rfl⟩) rfl ?_ ⟨rfl, rfl⟩
  · intro c hc
    simp [linkfileCalls, if_neg hfile, linkCalls, if_neg hlink] at hc
  · simp [dhtDoRename, wind, renameCall]
  · intro c hc
    exact dhtDoRename_of_ne (unlink_ne_renameCall hc)
  · intro c
    by_cases heq : c = renameCall l
    · subst heq
      exact .inr ⟨dhtDoRename_self, renameCall_mem_plan l⟩
    · exact .inl (dhtDoRename_of_ne heq)

def firstCalls (l : RenameLocal) : List Call :=
  (if l.NeedsLinkfile then [mknodCall l] else []) ++ [linkCall l]

theorem mem_firstCalls : c ∈ firstCalls l ↔ l.NeedsLinkfile ∧ c = mknodCall l ∨ c = linkCall l := by
  rw [firstCalls, mem_append, mem_ite_nil_right, mem_singleton, mem_singleton]

theorem not_mem_firstCalls (hc : c ∈ renameCall l :: unlinkCalls l) : c ∉ firstCalls l := by
  have horder := later_order hc
  rw [mem_firstCalls]
  rintro (⟨-, rfl⟩ | rfl) <;> simp [Call.order] at horder

theorem mem_plan_of_mem_firstCalls (hlink : l.NeedsLink) (hc : c ∈ firstCalls l) : c ∈ plan l := by
  rcases mem_firstCalls.mp hc with ⟨hfile, rfl⟩ | rfl
  · exact mem_plan.mpr (.inl (mem_linkfileCalls.mpr ⟨hfile, .inl rfl⟩))
  · exact mem_plan.mpr (.inr (.inl (mem_linkCalls.mpr ⟨hlink, rfl⟩)))

theorem Ongoing.start_links (hplan : run served bricks (plan l) = some after)
    (hlink : l.NeedsLink) :
    Ongoing l after ((firstCalls l).foldl wind
        (renameStart bricks ((if l.NeedsLinkfile then 1 else 0) + 1))) := by
  rw [foldl_wind]
  refine .start hplan (.linking ⟨?_, ?_, ?_, ?_, ?_, ?_, rfl⟩) rfl ?_ ⟨rfl, rfl⟩
  · intro hfile
    simp [mem_firstCalls, hfile]
  · intro hfile
    simp [mem_firstCalls, hfile]
  · intro _
    simp [mem_firstCalls]
  · exact fun c hc => if_neg (not_mem_firstCalls hc)
  · rw [outstanding_eq_length]
    · rw [linkEnds, linkCalls, if_pos hlink]
      split_ifs <;> rfl
    · intro c _
      simp only
      split_ifs <;> simp
  · simp only
    split_ifs <;> decide
  · intro c
    by_cases hc : c ∈ firstCalls l
    · exact .inr ⟨if_pos hc, mem_plan_of_mem_firstCalls hlink hc⟩
    · exact .inl (if_neg hc)

theorem dhtRename_cases (l : RenameLocal) (bricks : Subvol → Brick) :
    (¬ l.NeedsLinkfile ∧ ¬ l.NeedsLink ∧
      dhtRename l bricks = dhtDoRename l (renameStart bricks 0)) ∨
      (l.NeedsLink ∧ dhtRename l bricks = (firstCalls l).foldl wind
            (renameStart bricks ((if l.NeedsLinkfile then 1 else 0) + 1))) := by
  unfold dhtRename dhtRenameCreateLinks
  by_cases hsame : some l.srcCached = l.dstCached
  · rw [if_pos hsame]
    exact .inl ⟨fun hfile => hfile.1 hsame, fun hlink => hlink.1 hsame, rfl⟩
  · rw [if_neg hsame]
    by_cases hhash : l.srcCached = l.dstHashed
    · have hfile : ¬ (l.dstHashed ≠ l.srcHashed ∧ l.dstHashed ≠ l.srcCached) :=
        fun hall => hall.2 hhash.symm
      refine .inl ⟨fun hneeds => hfile hneeds.2, fun hneeds => hneeds.2 hhash, ?_⟩
      simp only [if_neg hfile, if_neg (not_not.mpr hhash), Int.add_zero, if_true]
    · refine .inr ⟨⟨hsame, hhash⟩, ?_⟩
      by_cases hfile : l.dstHashed ≠ l.srcHashed ∧ l.dstHashed ≠ l.srcCached
      · have hneeds : l.NeedsLinkfile := ⟨hsame, hfile⟩
        simp only [firstCalls, if_pos hneeds, if_pos hfile, if_pos hhash]
        rfl
      · have hneeds : ¬ l.NeedsLinkfile := fun hneeds => hfile hneeds.2
        simp only [firstCalls, if_neg hneeds, if_neg hfile, if_pos hhash]
        rfl

theorem ongoing_dhtRename (hplan : run served bricks (plan l) = some after) :
    Ongoing l after (dhtRename l bricks) := by
  rcases dhtRename_cases l bricks with ⟨hfile, hlink, heq⟩ | ⟨hlink, heq⟩
  · rw [heq]
    exact .start_rename hplan hfile hlink
  · rw [heq]
    exact .start_links hplan hlink

theorem Phase.exists_in_flight (h : Phase l s) (hunw : s.unwound = []) :
    ∃ c, s.calls c ≠ .idle ∧ s.calls c ≠ .replied := by
  have hout : ∀ cs, s.callCnt ≠ 0 → s.callCnt = (outstanding s.calls cs : Int) →
      ∃ c ∈ cs, s.calls c ≠ .replied := by
    intro cs hmore hcnt
    by_contra hnone
    push Not at hnone
    have := outstanding_eq_zero.mpr hnone
    omega
  cases h with
  | linking h =>
    obtain ⟨c, hc, hrepl⟩ := hout _ h.more h.count
    rcases mem_linkEnds.mp hc with ⟨hneeds, rfl⟩ | ⟨hneeds, rfl⟩
    · by_cases hidle : s.calls (setxattrCall l) = .idle
      · refine ⟨mknodCall l, h.mknod hneeds, ?_⟩
        rw [Ne, ← h.setxattr hneeds, not_not]
        exact hidle
      · exact ⟨_, hidle, hrepl⟩
    · exact ⟨_, h.link hneeds, hrepl⟩
  | moving h => exact ⟨_, h.rename⟩
  | unlinking h =>
    obtain ⟨c, hc, hrepl⟩ := hout _ h.more h.count
    exact ⟨c, h.unlinks c hc, hrepl⟩
  | finished h =>
    simp [h.unwound] at hunw

theorem Ongoing.exists_step (h : Ongoing l after s) (hnames : l.loc ≠ l.loc2)
    (hunw : s.unwound = []) : ∃ e s', renameStep l s e = some s' := by
  obtain ⟨c, hidle, hrepl⟩ := h.phase.exists_in_flight hunw
  cases hc : s.calls c with
  | idle => exact absurd hc hidle
  | wound =>
    obtain ⟨s', hs', -⟩ := h.serve hnames hc
    exact ⟨_, s', hs'⟩
  | served opErrno =>
    obtain ⟨s', hs', -⟩ := h.reply hnames hc
    exact ⟨_, s', hs'⟩
  | replied => exact absurd hc hrepl

/-- The number of calls of the plan that were served, and of those that were replied to. -/
def taken (l : RenameLocal) (calls : Call → Status) : Nat :=
  (plan l).countP (fun c => (calls c).executed) +
    (plan l).countP (fun c => decide (calls c = .replied))

theorem taken_le (l : RenameLocal) (calls : Call → Status) :
    taken l calls ≤ 2 * (plan l).length := by
  have hsrv := (plan l).countP_le_length (p := fun c => (calls c).executed)
  have hrepl := (plan l).countP_le_length (p := fun c => decide (calls c = .replied))
  unfold taken
  omega

theorem taken_serve (hnames : l.loc ≠ l.loc2) (hplan : c ∈ plan l) (hwnd : s.calls c = .wound) :
    taken l (update s.calls c (.served none)) = taken l s.calls + 1 := by
  rw [taken, taken, add_right_comm]
  congr 1
  · refine countP_add_one (plan_nodup hnames) hplan ?_ ?_ ?_
    · rw [hwnd]
      rfl
    · simp [Status.executed]
    · intro c' _ hne
      rw [update_of_ne hne]
  · refine countP_congr ?_
    intro c' _
    by_cases hc' : c' = c
    · simp [hc', hwnd]
    · rw [update_of_ne hc']

theorem Next.taken (h : Next l s s' c) (hnames : l.loc ≠ l.loc2) (hplan : c ∈ plan l)
    (hsrv : s.calls c = .served opErrno) : taken l s'.calls = taken l s.calls + 1 := by
  rw [Dht.taken, Dht.taken, add_assoc]
  congr 1
  · refine countP_congr ?_
    intro c' _
    rw [h.executed hsrv]
  · refine countP_add_one (plan_nodup hnames) hplan ?_ ?_ ?_
    · simp [hsrv]
    · simp [h.replied]
    · intro c' _ hne
      rcases h.others c' hne with hsame | ⟨hidle, hwnd, -⟩
      · rw [hsame]
      · simp [hidle, hwnd]

theorem Ongoing.step {e : RenameEvent} (h : Ongoing l after s) (hnames : l.loc ≠ l.loc2)
    (hstep : renameStep l s e = some s') :
    Ongoing l after s' ∧ taken l s'.calls = taken l s.calls + 1 := by
  cases e with
  | serve c =>
    have hwnd : s.calls c = .wound := by
      by_contra hne
      simp [renameStep, hne] at hstep
    obtain ⟨s'', hs'', hong, hcalls⟩ := h.serve hnames hwnd
    rw [hstep] at hs''
    cases hs''
    refine ⟨hong, ?_⟩
    rw [hcalls, taken_serve hnames (h.planned c (by simp [hwnd])) hwnd]
  | reply c =>
    cases hsrv : s.calls c with
    | served opErrno =>
      obtain ⟨s'', hs'', hong, hnext⟩ := h.reply hnames hsrv
      rw [hstep] at hs''
      cases hs''
      exact ⟨hong, hnext.taken hnames (h.planned c (by simp [hsrv])) hsrv⟩
    | _ => simp [renameStep, hsrv] at hstep

theorem Ongoing.finished (h : Ongoing l after s) (hunw : s.unwound ≠ []) :
    s.unwound = [(0, EUCLEAN)] ∧ s.bricks = after := by
  cases h.phase with
  | linking hlking => exact absurd hlking.unwound hunw
  | moving hmovg => exact absurd hmovg.unwound hunw
  | unlinking hunlg => exact absurd hunlg.unwound hunw
  | finished hfin =>
    have hleft : Dht.left l s.calls = [] := by
      refine filter_eq_nil_iff.mpr ?_
      intro c hc
      rw [hfin.done c hc]
      decide
    have hrun := h.left
    rw [hleft, run_nil, Option.some_inj] at hrun
    exact ⟨hfin.unwound, hrun⟩

/--
A rename of a file, wherever the source and the destination are hashed and cached, and in
whatever order its calls are served and replied to: it comes to an end, and then the source
is the destination.
-/
theorem dhtRename_renames (l : RenameLocal) (bricks : Subvol → Brick) (ino : Nat)
    (h : Consistent l bricks ino)
    (events : List RenameEvent) (s : RenameState)
    (hrun : run (renameStep l) (dhtRename l bricks) events = some s) :
    events.length ≤ 2 * (plan l).length ∧ (s.unwound = [] → ∃ e s', renameStep l s e = some s') ∧
      (s.unwound ≠ [] → s.unwound = [(0, EUCLEAN)] ∧ Renamed l ino bricks s.bricks) := by
  obtain ⟨after, hplan, hrend⟩ := run_plan h
  have hinv : Ongoing l after s ∧
      taken l s.calls = taken l (dhtRename l bricks).calls + events.length := by
    refine run_history (renameStep l) ⟨ongoing_dhtRename hplan, rfl⟩ ?_ hrun
    rintro es e m s' ⟨hong, htaken⟩ hstep
    obtain ⟨hong', htaken'⟩ := hong.step h.names hstep
    refine ⟨hong', ?_⟩
    rw [htaken', htaken, length_append, length_singleton]
    omega
  refine ⟨?_, hinv.1.exists_step h.names, ?_⟩
  · have := taken_le l s.calls
    omega
  · intro hunw
    obtain ⟨hanswer, rfl⟩ := hinv.1.finished hunw
    exact ⟨hanswer, hrend⟩

def across : RenameLocal where
  loc := "a"
  loc2 := "b"
  srcHashed := 0
  srcCached := 1
  dstHashed := 2
  dstCached := some 3

def acrossBricks (v : Subvol) (name : Name) : Option File :=
  if name = "a" then
    if v = 1 then some (.data 7) else if v = 0 then some (.linkfile (some 1)) else none
  else if name = "b" then
    if v = 3 then some (.data 8) else if v = 2 then some (.linkfile (some 3)) else none
  else
    none

def acrossEvents : List RenameEvent :=
  [.serve (.link 1 "a" "b"), .serve (.mknod 2 "a"), .reply (.mknod 2 "a"),
    .serve (.setxattr 2 "a" 1), .reply (.setxattr 2 "a" 1), .reply (.link 1 "a" "b"),
    .serve (.rename 2 "a" "b"), .reply (.rename 2 "a" "b"), .serve (.unlink 3 "b"),
    .serve (.unlink 1 "a"), .reply (.unlink 3 "b"), .serve (.unlink 0 "a"),
    .reply (.unlink 0 "a"), .reply (.unlink 1 "a")]

theorem consistent_across : Consistent across acrossBricks 7 := by
  refine ⟨by decide, ⟨rfl, fun _ => rfl, ?_⟩, nofun, ?_⟩
  · intro v hcach hhash
    simp only [across] at hcach hhash
    simp [across, acrossBricks, hcach, hhash]
  · rintro cached hcach
    cases hcach
    refine ⟨8, by decide, rfl, fun _ => rfl, ?_⟩
    intro v hcach hhash
    simp only [across] at hhash
    simp [across, acrossBricks, hcach, hhash]

theorem dhtRename_renames_across :
    ∃ s, run (renameStep across) (dhtRename across acrossBricks) acrossEvents = some s ∧
      s.unwound = [(0, EUCLEAN)] ∧ Renamed across 7 acrossBricks s.bricks := by
  have hunw : (run (renameStep across) (dhtRename across acrossBricks) acrossEvents).map
      RenameState.unwound = some [(0, EUCLEAN)] := by decide
  obtain ⟨s, hrun, hs⟩ := Option.map_eq_some_iff.mp hunw
  refine ⟨s, hrun, ?_⟩
  exact (dhtRename_renames across acrossBricks 7 consistent_across acrossEvents s hrun).2.2
    (by rw [hs]; simp)

end GlusterFS.Dht
