import GlusterFS.Dht.RenameFailures

/-!
# DHT: what a failed rename leaves behind

A rename that is answered with -1 has not happened on any subvolume.  The links that were made
for it stay where they are.  The linkfile is not where the name of the source is hashed, and so
no lookup comes to it.  The hard link has the name of the destination: if there was no such
file, a lookup that searches all subvolumes finds the source there.
-/

namespace GlusterFS.Dht

open Run List

variable {l : RenameLocal} {s s' : RenameState} {c : Call} {ino : Nat}

def linkServed (l : RenameLocal) : FaultEvent :=
  .event (.serve (linkCall l))

/-- The subvolumes before and after calls that are not the rename and the unlinks. -/
structure Leftover
    (l : RenameLocal) (ino : Nat) (before : Subvol → Brick) (events : List FaultEvent)
    (after : Subvol → Brick) : Prop where
  linked : linkServed l ∈ events → l.NeedsLink ∧ after l.srcCached l.loc2 = some (.data ino)
  unlinked : linkServed l ∉ events → after l.srcCached l.loc2 = before l.srcCached l.loc2
  frame : ∀ v name, (v, name) ≠ (l.srcCached, l.loc2) →
    ¬ (l.NeedsLinkfile ∧ v = l.dstHashed ∧ name = l.loc) → after v name = before v name

/-- The rename has not happened, and was not answered before its last call. -/
structure Waiting (l : RenameLocal) (ino : Nat) (before : Subvol → Brick) (events : List FaultEvent)
    (s : RenameState) : Prop where
  left : Leftover l ino before events s.bricks
  rename : s.calls (renameCall l) ≠ .served none
  unlinks : ∀ c ∈ unlinkCalls l, s.calls c = .idle
  going : s.calls (renameCall l) = .wound → s.opRet ≠ -1 ∧ s.unwound = []
  linking : s.calls (renameCall l) = .idle → s.callCnt ≠ 0 → s.unwound = []

/-- The rename has happened, and is not answered with -1. -/
structure Happened (l : RenameLocal) (s : RenameState) : Prop where
  rename : s.calls (renameCall l) = .served none ∨ s.calls (renameCall l) = .replied
  opRet : s.opRet ≠ -1
  unwound : ∀ answer ∈ s.unwound, answer.1 ≠ -1

structure LinksFirst (l : RenameLocal) (ino : Nat) (s : RenameState) : Prop where
  planned : OfPlan l s
  busy : ∀ c ∈ linkfileCalls l ++ linkCalls l, ∀ opErrno, s.calls c = .served opErrno →
    s.calls (renameCall l) = .idle ∧ s.callCnt ≠ 0
  src : s.calls (linkCall l) = .wound → s.bricks l.srcCached l.loc = some (.data ino)

theorem needsLink_of_mem_plan (h : linkCall l ∈ plan l) : l.NeedsLink := by
  rcases mem_plan.mp h with hc | hc | hc | hc
  · exact absurd (linkfileCalls_order hc) (by simp [Call.order])
  · exact (mem_linkCalls.mp hc).1
  · cases hc
  · obtain ⟨_, _, hc⟩ := exists_of_mem_unlinkCalls hc
    cases hc

theorem Safe.linksFirst (h : Safe l ino s) : LinksFirst l ino s := by
  refine ⟨h.planned, ?_, ?_⟩
  · intro c hc opErrno hsrv
    rcases h.phase with hunm | hmov
    · have hidle := hunm.rename_idle hc (by simp [hsrv])
      have hcnt := h.count hidle
      rw [hunm.links.pendingLinks_replyTo hsrv hc] at hcnt
      exact ⟨hidle, by omega⟩
    · have hrepl := hmov.links c hc
      simp [hsrv] at hrepl
  · intro hwnd
    rcases h.phase with hunm | hmov
    · exact hunm.src.data
    · have hneeds := needsLink_of_mem_plan (h.planned (linkCall l) (by simp [hwnd]))
      have hrepl := hmov.links _ (mem_links.mpr (.inr ⟨hneeds, rfl⟩))
      simp [hwnd] at hrepl

theorem OfPlan.linksFirst (h : OfPlan l s) (hsame : some l.srcCached = l.dstCached) :
    LinksFirst l ino s := by
  refine ⟨h, ?_, ?_⟩
  · intro c hc
    rcases mem_links.mp hc with ⟨hneeds, -⟩ | ⟨hneeds, -⟩ <;> exact absurd hsame hneeds.1
  · intro hwnd
    exact absurd hsame (needsLink_of_mem_plan (h (linkCall l) (by simp [hwnd]))).1

variable {before : Subvol → Brick} {events : List FaultEvent} {e : FaultEvent}
variable {opErrno : Option Int}

theorem mem_concat_of_ne (hne : e ≠ linkServed l) :
    linkServed l ∈ events ++ [e] ↔ linkServed l ∈ events := by
  simp [Ne.symm hne]

theorem Leftover.same {after after' : Subvol → Brick} (h : Leftover l ino before events after)
    (haft : after' = after) (hne : e ≠ linkServed l) :
    Leftover l ino before (events ++ [e]) after' := by
  subst haft
  refine ⟨?_, ?_, h.frame⟩
  · rw [mem_concat_of_ne hne]
    exact h.linked
  · rw [mem_concat_of_ne hne]
    exact h.unlinked

theorem Leftover.linkfile (h : Leftover l ino before events s.bricks)
    (hexec : Executed s s' c opErrno) (hc : c ∈ linkfileCalls l) (hne : e ≠ linkServed l) :
    Leftover l ino before (events ++ [e]) s'.bricks := by
  have hneeds := (mem_linkfileCalls.mp hc).1
  have hcells : c.cells = [(l.dstHashed, l.loc)] := by
    obtain ⟨-, rfl | rfl⟩ := mem_linkfileCalls.mp hc <;> rfl
  have hlink : s'.bricks l.srcCached l.loc2 = s.bricks l.srcCached l.loc2 := by
    refine hexec.frame ?_
    simp [hcells, Ne.symm hneeds.2.2]
  refine ⟨?_, ?_, ?_⟩
  · rw [mem_concat_of_ne hne, hlink]
    exact h.linked
  · rw [mem_concat_of_ne hne, hlink]
    exact h.unlinked
  · intro v name hlinkCell hfile
    rw [hexec.frame, h.frame v name hlinkCell hfile]
    simpa [hcells, hneeds] using hfile

theorem Leftover.link (h : Leftover l ino before events s.bricks)
    (hexec : Executed s s' (linkCall l) opErrno) (hneeds : l.NeedsLink)
    (hsrc : s.bricks l.srcCached l.loc = some (.data ino))
    (hfree : before l.srcCached l.loc2 = none)
    (hserve : opErrno ≠ none → serve s.bricks (linkCall l) = .error (opErrno.getD 0)) :
    Leftover l ino before (events ++ [linkServed l]) s'.bricks := by
  have hmade : s'.bricks l.srcCached l.loc2 = some (.data ino) := by
    rcases hexec.effect with ⟨-, hok⟩ | ⟨hne, hbr⟩
    · rw [serve_link_ok hsrc hok]
      simp
    · by_cases hlnk : linkServed l ∈ events
      · rw [hbr]
        exact (h.linked hlnk).2
      · -- the name is free, so that the link does not fail
        have hnew := (h.unlinked hlnk).trans hfree
        have hfails := hserve hne
        simp [serve, Call.fop, Call.subvol, Dht.link, hsrc, hnew, Except.map] at hfails
  refine ⟨fun _ => ⟨hneeds, hmade⟩, ?_, ?_⟩
  · intro hnot
    exact absurd (mem_append_right _ (mem_singleton_self _)) hnot
  · intro v name hcell hfile
    rw [hexec.frame, h.frame v name hcell hfile]
    simpa [Call.cells] using hcell

theorem Waiting.of_idle (hleft : Leftover l ino before events s.bricks)
    (hidle : s.calls (renameCall l) = .idle) (hunls : ∀ c ∈ unlinkCalls l, s.calls c = .idle)
    (hlking : s.callCnt ≠ 0 → s.unwound = []) : Waiting l ino before events s := by
  refine ⟨hleft, ?_, hunls, ?_, fun _ => hlking⟩
  · rw [hidle]
    exact nofun
  · rw [hidle]
    exact nofun

theorem Waiting.of_failed (hleft : Leftover l ino before events s.bricks)
    (hfail : s.calls (renameCall l) = .replied ∨ ∃ err, s.calls (renameCall l) = .served (some err))
    (hunls : ∀ c ∈ unlinkCalls l, s.calls c = .idle) : Waiting l ino before events s := by
  refine ⟨hleft, ?_, hunls, ?_, ?_⟩ <;>
    rcases hfail with hfail | ⟨err, hfail⟩ <;>
    rw [hfail] <;>
    exact nofun

theorem Waiting.executed_link (h : Waiting l ino before events s)
    (hexec : Executed s s' c opErrno) (hunw : s'.unwound = s.unwound)
    (hc : c ∈ linkfileCalls l ++ linkCalls l)
    (hleft : Leftover l ino before (events ++ [e]) s'.bricks) :
    Waiting l ino before (events ++ [e]) s' := by
  have hren : s'.calls (renameCall l) = s.calls (renameCall l) :=
    hexec.other (Ne.symm (links_ne_renameCall hc))
  refine ⟨hleft, ?_, ?_, ?_, ?_⟩
  · rw [hren]
    exact h.rename
  · intro c' hc'
    rw [hexec.other (links_ne_unlink hc hc')]
    exact h.unlinks c' hc'
  · rw [hren, hexec.opRet, hunw]
    exact h.going
  · rw [hren, hexec.callCnt, hunw]
    exact h.linking

theorem Waiting.executed (h : Waiting l ino before events s) (hlks : LinksFirst l ino s)
    (hfree : l.NeedsLink → before l.srcCached l.loc2 = none) (hexec : Executed s s' c opErrno)
    (hunw : s'.unwound = s.unwound)
    (he : e = .event (.serve c) ∧ (opErrno ≠ none → serve s.bricks c = .error (opErrno.getD 0)) ∨
      ∃ err, e = .fail c err ∧ opErrno = some err) :
    Waiting l ino before (events ++ [e]) s' ∨ Happened l s' := by
  have hoth : c ≠ linkCall l → e ≠ linkServed l := by
    rintro hne rfl
    rcases he with ⟨heq, -⟩ | ⟨err, heq, -⟩
    · cases heq
      exact hne rfl
    · cases heq
  rcases mem_plan.mp (hlks.planned c (by simp [hexec.wound])) with hc | hc | rfl | hc
  · have hne : c ≠ linkCall l := by
      rintro rfl
      exact absurd (linkfileCalls_order hc) (by simp [Call.order])
    exact .inl (h.executed_link hexec hunw (mem_append_left _ hc)
      (h.left.linkfile hexec hc (hoth hne)))
  · obtain ⟨hneeds, rfl⟩ := mem_linkCalls.mp hc
    refine .inl (h.executed_link hexec hunw (mem_append_right _ hc) ?_)
    rcases he with ⟨rfl, hserve⟩ | ⟨err, rfl, rfl⟩
    · exact h.left.link hexec hneeds (hlks.src hexec.wound) (hfree hneeds) hserve
    · rcases hexec.effect with ⟨hnone, -⟩ | ⟨-, hbr⟩
      · cases hnone
      · exact h.left.same hbr (by simp [linkServed])
  · have hgoing := h.going hexec.wound
    have hself := hexec.self
    rcases hexec.effect with ⟨rfl, -⟩ | ⟨hne, hbr⟩
    · refine .inr ⟨.inl hself, ?_, ?_⟩
      · rw [hexec.opRet]
        exact hgoing.1
      · rw [hunw, hgoing.2]
        exact forall_mem_nil _
    · obtain ⟨err, rfl⟩ := Option.ne_none_iff_exists'.mp hne
      refine .inl (.of_failed (h.left.same hbr (hoth (by simp [renameCall])))
        (.inr ⟨err, hself⟩) ?_)
      intro c' hc'
      rw [hexec.other (unlink_ne_renameCall hc')]
      exact h.unlinks c' hc'
  · have hidle := h.unlinks c hc
    simp [hexec.wound] at hidle

theorem Happened.executed (h : Happened l s) (hexec : Executed s s' c opErrno)
    (hunw : s'.unwound = s.unwound) : Happened l s' := by
  have hne : renameCall l ≠ c := by
    rintro rfl
    have hren := h.rename
    rw [hexec.wound] at hren
    rcases hren with hren | hren <;> cases hren
  refine ⟨?_, ?_, ?_⟩
  · rw [hexec.other hne]
    exact h.rename
  · rw [hexec.opRet]
    exact h.opRet
  · rw [hunw]
    exact h.unwound

theorem Waiting.doRename (hleft : Leftover l ino before events s.bricks)
    (hunls : ∀ c ∈ unlinkCalls l, s.calls c = .idle) (hret : s.opRet ≠ -1)
    (hunw : s.unwound = []) : Waiting l ino before events (dhtDoRename l s) := by
  refine ⟨hleft, ?_, ?_, fun _ => ⟨hret, hunw⟩, ?_⟩
  · simp [dhtDoRename_self]
  · intro c hc
    exact (dhtDoRename_of_ne (unlink_ne_renameCall hc)).trans (hunls c hc)
  · simp [dhtDoRename_self]

theorem Waiting.linksCbk (hleft : Leftover l ino before events s.bricks)
    (hidle : s.calls (renameCall l) = .idle) (hunls : ∀ c ∈ unlinkCalls l, s.calls c = .idle)
    (hunw : s.unwound = []) : Waiting l ino before events (dhtRenameLinksCbk l s opErrno) := by
  have hlast : (linkReturned s opErrno).unwound = [] := by cases opErrno <;> exact hunw
  rw [← linkReturned_calls opErrno] at hidle hunls
  rw [← linkReturned_bricks opErrno] at hleft
  rw [dhtRenameLinksCbk_eq]
  split_ifs with hzero hret
  · exact .of_idle hleft hidle hunls (fun hmore => absurd hzero hmore)
  · exact .doRename hleft hunls hret hlast
  · exact .of_idle hleft hidle hunls (fun _ => hlast)

theorem Waiting.reply (h : Waiting l ino before events s) (hlks : LinksFirst l ino s)
    (hsrv : s.calls c = .served opErrno) (hne : e ≠ linkServed l) :
    Waiting l ino before (events ++ [e]) (renameCbk l (replyTo s c) opErrno c) := by
  have hleft : Leftover l ino before (events ++ [e]) (replyTo s c).bricks := h.left.same rfl hne
  have hunls : c ∉ unlinkCalls l → ∀ c' ∈ unlinkCalls l, (replyTo s c).calls c' = .idle := by
    intro hc c' hc'
    rw [replyTo_of_ne (by rintro rfl; exact hc hc')]
    exact h.unlinks c' hc'
  rcases mem_plan_links.mp (hlks.planned c (by simp [hsrv])) with hc | rfl | hc
  · obtain ⟨hidle, hcnt⟩ := hlks.busy c hc opErrno hsrv
    have hunw := h.linking hidle hcnt
    have hlat := hunls (fun hmem => links_ne_unlink hc hmem rfl)
    rw [← replyTo_of_ne (Ne.symm (links_ne_renameCall hc))] at hidle
    rcases mem_links.mp hc with ⟨-, rfl | rfl⟩ | ⟨-, rfl⟩
    · cases opErrno with
      | some opErrno =>
        change Waiting l ino before (events ++ [e]) (dhtRenameLinksCbk l _ (some opErrno))
        exact .linksCbk hleft hidle hlat hunw
      | none =>
        refine .of_idle hleft ((wind_of_ne (by simp [renameCall])).trans hidle) ?_ (fun _ => hunw)
        intro c' hc'
        obtain ⟨v, name, rfl⟩ := exists_of_mem_unlinkCalls hc'
        exact (wind_of_ne (by simp)).trans (hlat _ hc')
    · exact .linksCbk hleft hidle hlat hunw
    · exact .linksCbk hleft hidle hlat hunw
  · cases opErrno with
    | none => exact absurd hsrv h.rename
    | some opErrno =>
      refine .of_failed hleft (.inl replyTo_self) (hunls ?_)
      exact fun hmem => unlink_ne_renameCall hmem rfl
  · have hidle := h.unlinks c hc
    simp [hsrv] at hidle

theorem Happened.reply (h : Happened l s) (hlks : LinksFirst l ino s)
    (hsrv : s.calls c = .served opErrno) : Happened l (renameCbk l (replyTo s c) opErrno c) := by
  have hunwind : ∀ s : RenameState, s.opRet ≠ -1 → (∀ answer ∈ s.unwound, answer.1 ≠ -1) →
      ∀ answer ∈ (unwind s).unwound, answer.1 ≠ -1 := by
    intro s hret hunw
    exact forall_mem_append.mpr ⟨hunw, forall_mem_singleton.mpr hret⟩
  have hlink : c ∉ linkfileCalls l ++ linkCalls l := by
    intro hc
    have hren := h.rename
    rw [(hlks.busy c hc opErrno hsrv).1] at hren
    rcases hren with hren | hren <;> cases hren
  have hc := (mem_plan_links.mp (hlks.planned c (by simp [hsrv]))).resolve_left hlink
  have hren : (renameCbk l (replyTo s c) opErrno c).calls (renameCall l) = .served none ∨
      (renameCbk l (replyTo s c) opErrno c).calls (renameCall l) = .replied := by
    rw [renameCbk_calls hc (fun hmem => unlink_ne_renameCall hmem rfl)]
    by_cases heq : renameCall l = c
    · rw [heq, replyTo_self]
      exact .inr rfl
    · rw [replyTo_of_ne heq]
      exact h.rename
  rcases hc with rfl | hc
  · have hnone : opErrno = none := by
      have hwas := h.rename
      rw [hsrv] at hwas
      simpa using hwas
    subst hnone
    simp only [renameCbk, dhtRenameCbk] at hren ⊢
    split_ifs at hren ⊢
    · exact ⟨hren, h.opRet, hunwind _ h.opRet h.unwound⟩
    · refine ⟨hren, ?_, ?_⟩
      · rw [foldl_wind]
        exact h.opRet
      · rw [foldl_wind]
        exact h.unwound
  · obtain ⟨v, name, rfl⟩ := exists_of_mem_unlinkCalls hc
    simp only [renameCbk, dhtRenameUnlinkCbk] at hren ⊢
    split_ifs at hren ⊢
    · exact ⟨hren, h.opRet, hunwind _ h.opRet h.unwound⟩
    · exact ⟨hren, h.opRet, h.unwound⟩

theorem waiting_or_happened_step (hfree : l.NeedsLink → before l.srcCached l.loc2 = none)
    (hlks : LinksFirst l ino s) (h : Waiting l ino before events s ∨ Happened l s)
    (hstep : faultStep l s e = some s') :
    Waiting l ino before (events ++ [e]) s' ∨ Happened l s' := by
  rcases faultStep_cases hstep with
    ⟨c, opErrno, hexec, hunw, he⟩ | ⟨c, opErrno, rfl, hsrv, rfl⟩
  · rcases h with hwt | hhap
    · exact hwt.executed hlks hfree hexec hunw he
    · exact .inr (hhap.executed hexec hunw)
  · rcases h with hwt | hhap
    · exact .inl (hwt.reply hlks hsrv (by simp [linkServed]))
    · exact .inr (hhap.reply hlks hsrv)

variable {bricks : Subvol → Brick}

theorem Waiting.start (l : RenameLocal) (ino : Nat) (bricks : Subvol → Brick) :
    Waiting l ino bricks [] (dhtRename l bricks) := by
  have hleft : Leftover l ino bricks [] bricks := ⟨nofun, fun _ => rfl, fun _ _ _ _ => rfl⟩
  rcases dhtRename_cases l bricks with ⟨-, -, heq⟩ | ⟨-, heq⟩
  · rw [heq]
    exact .doRename hleft (fun _ _ => rfl) nofun rfl
  · rw [heq, foldl_wind]
    exact .of_idle hleft (if_neg (not_mem_firstCalls mem_cons_self))
      (fun c hc => if_neg (not_mem_firstCalls (mem_cons_of_mem _ hc))) (fun _ => rfl)

theorem Placed.link_free (h : Placed l bricks ino) (hneeds : l.NeedsLink) :
    bricks l.srcCached l.loc2 = none := by
  cases hdst : l.dstCached with
  | none => exact h.absent hdst l.srcCached
  | some cached =>
    obtain ⟨ino', hfile⟩ := h.dst cached hdst
    refine hfile.elsewhere _ ?_ hneeds.2
    rintro rfl
    exact hneeds.1 hdst.symm

theorem OfPlan.step (h : OfPlan l s) (hstep : faultStep l s e = some s') : OfPlan l s' := by
  rcases faultStep_cases hstep with ⟨c, opErrno, hexec, -⟩ | ⟨c, opErrno, -, hsrv, rfl⟩
  · exact h.executed hexec
  · exact h.reply hsrv

theorem waiting_or_happened {K : RenameState → Prop} (h : Placed l bricks ino)
    (hst : K (dhtRename l bricks)) (hstep : ∀ s e s', K s → faultStep l s e = some s' → K s')
    (hlks : ∀ s, K s → LinksFirst l ino s)
    (hrun : run (faultStep l) (dhtRename l bricks) events = some s) :
    Waiting l ino bricks events s ∨ Happened l s := by
  have hboth : K s ∧ (Waiting l ino bricks events s ∨ Happened l s) := by
    refine run_history (faultStep l) ⟨hst, .inl (Waiting.start l ino bricks)⟩ ?_ hrun
    rintro events e m s' ⟨hm, hph⟩ hstep'
    exact ⟨hstep m e s' hm hstep', waiting_or_happened_step h.link_free (hlks m hm) hph hstep'⟩
  exact hboth.2

theorem Placed.leftover {opErrno : Int} (h : Placed l bricks ino)
    (hrun : run (faultStep l) (dhtRename l bricks) events = some s)
    (hfail : (-1, opErrno) ∈ s.unwound) : Leftover l ino bricks events s.bricks := by
  have hph : Waiting l ino bricks events s ∨ Happened l s := by
    by_cases hnames : l.loc = l.loc2
    · exact waiting_or_happened h (OfPlan.start l bricks) (fun _ _ _ => OfPlan.step)
        (fun s hs => hs.linksFirst (h.one_name hnames).1) hrun
    · exact waiting_or_happened h (Safe.start h) (fun _ _ _ => Safe.step hnames)
        (fun s hs => hs.linksFirst) hrun
  rcases hph with hwt | hhap
  · exact hwt.left
  · exact absurd rfl (hhap.unwound _ hfail)

section

variable {after : Subvol → Brick}
variable {name : Name}

theorem dhtLookup_congr (h : ∀ v, after v name = before v name)
    (searchUnhashed : Bool) (order : List Subvol) (hashed : Subvol) :
    dhtLookup searchUnhashed order after hashed name =
      dhtLookup searchUnhashed order before hashed name := by
  have hev : dhtLookupEverywhere after name order = dhtLookupEverywhere before name order := by
    induction order with
    | nil => rfl
    | cons v order ih => rw [dhtLookupEverywhere, dhtLookupEverywhere, h v, ih]
  simp only [dhtLookup, h, hev]

theorem dhtLookupEverywhere_eq_none (h : ∀ v, before v name = none) (order : List Subvol) :
    dhtLookupEverywhere before name order = none := by
  induction order with
  | nil => rfl
  | cons v order ih =>
    rw [dhtLookupEverywhere, h v]
    exact ih

theorem Leftover.entry {v : Subvol} (h : Leftover l ino before events after)
    (hlink : linkServed l ∈ events → (v, name) ≠ (l.srcCached, l.loc2))
    (hfile : ¬ (l.NeedsLinkfile ∧ v = l.dstHashed ∧ name = l.loc)) :
    after v name = before v name := by
  by_cases hcell : (v, name) = (l.srcCached, l.loc2)
  · cases hcell
    exact h.unlinked (fun hlnk => hlink hlnk rfl)
  · exact h.frame v name hcell hfile

theorem Placed.names_ne (h : Placed l before ino) (hoth : some l.srcCached ≠ l.dstCached) :
    l.loc ≠ l.loc2 := by
  intro hnames
  exact hoth (h.one_name hnames).1

variable (h : Leftover l ino before events after) (hpl : Placed l before ino)
include h hpl

theorem Leftover.src : Reachable after l.loc l.srcHashed l.srcCached ino := by
  have hent : ∀ v, v = l.srcCached ∨ v = l.srcHashed → after v l.loc = before v l.loc := by
    intro v hv
    refine h.entry ?_ ?_
    · intro hlnk hcell
      exact hpl.names_ne (h.linked hlnk).1.1 (congrArg Prod.snd hcell)
    · rintro ⟨⟨-, hhash, hcach⟩, rfl, -⟩
      exact hv.elim hcach hhash
  refine ⟨?_, ?_⟩
  · rw [hent _ (.inl rfl)]
    exact hpl.src.data
  · rw [hent _ (.inr rfl)]
    exact hpl.src.link

theorem Leftover.dst {v : Subvol} (hv : linkServed l ∈ events → v ≠ l.srcCached) :
    after v l.loc2 = before v l.loc2 := by
  refine h.entry ?_ ?_
  · intro hlnk hcell
    exact hv hlnk (congrArg Prod.fst hcell)
  · rintro ⟨hneeds, -, hnames⟩
    exact hpl.names_ne hneeds.1 hnames.symm

variable {searchUnhashed : Bool} {order : List Subvol}

theorem Leftover.lookup_dst
    (hnot : ¬ (searchUnhashed = true ∧ l.dstCached = none ∧ linkServed l ∈ events)) :
    dhtLookup searchUnhashed order after l.dstHashed l.loc2 =
      dhtLookup searchUnhashed order before l.dstHashed l.loc2 := by
  by_cases hlnk : linkServed l ∈ events
  · have hneeds := (h.linked hlnk).1
    have hhash : after l.dstHashed l.loc2 = before l.dstHashed l.loc2 :=
      h.dst hpl (fun _ => Ne.symm hneeds.2)
    cases hcach : l.dstCached with
    | none =>
      have hoff : searchUnhashed = false := by simpa [hcach, hlnk] using hnot
      simp [dhtLookup, hhash, hpl.absent hcach, hoff]
    | some cached =>
      obtain ⟨ino', hfile⟩ := hpl.dst cached hcach
      have hne : cached ≠ l.srcCached := by
        rintro rfl
        exact hneeds.1 hcach.symm
      have hreach : Reachable after l.loc2 l.dstHashed cached ino' := by
        refine ⟨?_, ?_⟩
        · rw [h.dst hpl (fun _ => hne)]
          exact hfile.data
        · rw [hhash]
          exact hfile.link
      rw [hreach.dhtLookup, hfile.reachable.dhtLookup]
  · exact dhtLookup_congr (fun v => h.dst hpl (fun hmem => absurd hmem hlnk)) _ _ _

theorem Leftover.lookup_link (habs : l.dstCached = none)
    (hlnk : linkServed l ∈ events) (horder : l.srcCached ∈ order) :
    dhtLookup true order after l.dstHashed l.loc2 ≠
      dhtLookup true order before l.dstHashed l.loc2 := by
  obtain ⟨hneeds, hdata⟩ := h.linked hlnk
  have hnone := hpl.absent habs
  have hoth : ∀ v, v ≠ l.srcCached → after v l.loc2 = none := fun v hv =>
    (h.dst hpl (fun _ => hv)).trans (hnone v)
  have hfnd : dhtLookupEverywhere after l.loc2 order = some (l.srcCached, .data ino) := by
    refine dhtLookupEverywhere_eq hdata ?_ horder
    intro v hv ino' hfile
    simp [hoth v hv] at hfile
  simp [dhtLookup, hoth _ (Ne.symm hneeds.2), hnone, hfnd, dhtLookupEverywhere_eq_none hnone]

end

/--
A rename that is answered with -1 has changed the outcome of a lookup if and only if there was
no destination, the hard link was made, and lookups search all subvolumes.
-/
theorem failed_rename_invisible_iff (l : RenameLocal) (bricks : Subvol → Brick) (ino : Nat)
    (h : Placed l bricks ino)
    (hashed : Name → Subvol)
    (hsrc : hashed l.loc = l.srcHashed) (hdst : hashed l.loc2 = l.dstHashed)
    (events : List FaultEvent) (s : RenameState)
    (hrun : run (faultStep l) (dhtRename l bricks) events = some s)
    (opErrno : Int) (hfailed : (-1, opErrno) ∈ s.unwound)
    (searchUnhashed : Bool)
    (order : List Subvol) (horder : l.srcCached ∈ order) :
    (∀ name, dhtLookup searchUnhashed order s.bricks (hashed name) name =
        dhtLookup searchUnhashed order bricks (hashed name) name) ↔
      ¬ (searchUnhashed = true ∧ l.dstCached = none ∧ linkServed l ∈ events) := by
  have hleft := h.leftover hrun hfailed
  constructor
  · rintro hsame ⟨rfl, habs, hlnk⟩
    have hloc2 := hsame l.loc2
    rw [hdst] at hloc2
    exact hleft.lookup_link h habs hlnk horder hloc2
  · intro hnot name
    by_cases hname : name = l.loc
    · rw [hname, hsrc, (hleft.src h).dhtLookup, h.src.reachable.dhtLookup]
    · by_cases hname2 : name = l.loc2
      · rw [hname2, hdst]
        exact hleft.lookup_dst h hnot
      · refine dhtLookup_congr (fun v => hleft.frame v name ?_ ?_) _ _ _
        · exact fun hcell => hname2 (congrArg Prod.snd hcell)
        · exact fun hfile => hname hfile.2.2

def acrossHashed (name : Name) : Subvol :=
  if name = "a" then 0 else 2

theorem failed_rename_invisible_iff_across :
    ∃ s, run (faultStep across) (dhtRename across acrossBricks) acrossFails = some s ∧
      (-1, ENOSPC) ∈ s.unwound ∧
      ∀ name, dhtLookup true [3, 2, 1, 0] s.bricks (acrossHashed name) name =
        dhtLookup true [3, 2, 1, 0] acrossBricks (acrossHashed name) name := by
  have hunw : (run (faultStep across) (dhtRename across acrossBricks) acrossFails).map
      RenameState.unwound = some [(-1, ENOSPC)] := by decide
  obtain ⟨s, hrun, hs⟩ := Option.map_eq_some_iff.mp hunw
  have hfail : (-1, ENOSPC) ∈ s.unwound := by
    rw [hs]
    exact mem_singleton_self _
  exact ⟨s, hrun, hfail,
    (failed_rename_invisible_iff across acrossBricks 7 consistent_across.placed acrossHashed rfl
      rfl acrossFails s hrun ENOSPC hfail true [3, 2, 1, 0] (by simp [across])).mpr
      (by simp [across])⟩

def acrossNew : RenameLocal :=
  { across with dstCached := none }

def acrossNewBricks (v : Subvol) (name : Name) : Option File :=
  if name = "a" then acrossBricks v name else none

theorem placed_acrossNew : Placed acrossNew acrossNewBricks 7 := by
  refine ⟨⟨rfl, fun _ => rfl, ?_⟩, fun _ _ => rfl, nofun⟩
  exact fun v hcach hhash => consistent_across.src.elsewhere v hcach hhash

/-- The rename fails, and the name of the destination is found from then on. -/
theorem failed_rename_visible_acrossNew :
    Placed acrossNew acrossNewBricks 7 ∧
      ∃ s, run (faultStep acrossNew) (dhtRename acrossNew acrossNewBricks) acrossFails = some s ∧
        (-1, ENOSPC) ∈ s.unwound ∧
        dhtLookup true [3, 2, 1, 0] acrossNewBricks 2 "b" = none ∧
        dhtLookup true [3, 2, 1, 0] s.bricks 2 "b" = some (1, .data 7) := by
  refine ⟨placed_acrossNew, ?_⟩
  have hoff : (run (faultStep acrossNew) (dhtRename acrossNew acrossNewBricks) acrossFails).map
      (fun s => (s.unwound, dhtLookup true [3, 2, 1, 0] s.bricks 2 "b")) =
        some ([(-1, ENOSPC)], some (1, .data 7)) := by decide
  obtain ⟨s, hrun, hs⟩ := Option.map_eq_some_iff.mp hoff
  obtain ⟨hunw, hfnd⟩ := Prod.mk.inj hs
  exact ⟨s, hrun, by rw [hunw]; exact mem_singleton_self _, by decide, hfnd⟩

end GlusterFS.Dht
