import GlusterFS.Dht.RenameReplies

/-!
# DHT: a rename whose calls fail

Each call of a rename may fail, and has no effect then.  Until the subvolume has renamed the
file the name of the source is as before, and once it has, the links that were made before
it lead from the name of the destination to the data.  So a lookup of one of the two names
finds the data in every state, also when the rename is answered.
-/

namespace GlusterFS.Dht

open Run List Function Call

/-- A call is served, or fails without an effect, or its reply comes. -/
inductive FaultEvent where
  | event (e : RenameEvent)
  | fail (c : Call) (opErrno : Int)
deriving DecidableEq

def faultStep (l : RenameLocal) (s : RenameState) : FaultEvent → Option RenameState
  | .event e => renameStep l s e
  | .fail c opErrno =>
    if s.calls c = .wound then
      some { s with calls := update s.calls c (.served (some opErrno)) }
    else
      none

/-- The first data file in the order of the replies; linkfiles are stale. -/
def dhtLookupEverywhere (bricks : Subvol → Brick) (name : Name) :
    List Subvol → Option (Subvol × File)
  | [] => none
  | v :: order =>
    match bricks v name with
    | some (.data ino) => some (v, .data ino)
    | _ => dhtLookupEverywhere bricks name order

def dhtLookup (searchUnhashed : Bool) (order : List Subvol) (bricks : Subvol → Brick)
    (hashed : Subvol) (name : Name) : Option (Subvol × File) :=
  match bricks hashed name with
  | none => if searchUnhashed then dhtLookupEverywhere bricks name order else none
  | some (.data ino) => some (hashed, .data ino)
  | some (.linkfile none) => dhtLookupEverywhere bricks name order
  | some (.linkfile (some subvol)) =>
    -- `dht_lookup_linkfile_cbk` takes whatever is there for the file
    match bricks subvol name with
    | some file => some (subvol, file)
    | none => dhtLookupEverywhere bricks name order

/-- The namespace before a rename; the two names may be names of one file. -/
structure Placed (l : RenameLocal) (bricks : Subvol → Brick) (ino : Nat) : Prop where
  src : FileAt bricks l.loc l.srcHashed l.srcCached ino
  absent : l.dstCached = none → ∀ v, bricks v l.loc2 = none
  dst : ∀ cached, l.dstCached = some cached → ∃ ino', FileAt bricks l.loc2 l.dstHashed cached ino'

variable {bricks bricks' : Subvol → Brick} {l : RenameLocal} {ino : Nat}
  {hashed cached v w : Subvol} {name old new n : Name} {order : List Subvol} {c c' : Call}
  {file : File} {s s' : RenameState} {e : FaultEvent} {opErrno : Option Int}

theorem Consistent.placed (h : Consistent l bricks ino) : Placed l bricks ino := by
  refine ⟨h.src, h.absent, ?_⟩
  intro cached hcach
  obtain ⟨ino', -, hfile⟩ := h.dst cached hcach
  exact ⟨ino', hfile⟩

/-- The data is where the name is hashed, or a linkfile there leads to it. -/
structure Reachable (bricks : Subvol → Brick) (name : Name) (hashed cached : Subvol) (ino : Nat) :
    Prop where
  data : bricks cached name = some (.data ino)
  link : hashed ≠ cached → bricks hashed name = some (.linkfile (some cached))

theorem FileAt.reachable (h : FileAt bricks name hashed cached ino) :
    Reachable bricks name hashed cached ino :=
  ⟨h.data, h.link⟩

theorem Reachable.dhtLookup (h : Reachable bricks name hashed cached ino) (searchUnhashed : Bool)
    (order : List Subvol) :
    dhtLookup searchUnhashed order bricks hashed name = some (cached, .data ino) := by
  by_cases hsame : hashed = cached
  · subst hsame
    simp [Dht.dhtLookup, h.data]
  · simp [Dht.dhtLookup, h.link hsame, h.data]

theorem dhtLookupEverywhere_eq (hdata : bricks cached name = some (.data ino))
    (hoth : ∀ v, v ≠ cached → ∀ ino', bricks v name ≠ some (.data ino')) (horder : cached ∈ order) :
    dhtLookupEverywhere bricks name order = some (cached, .data ino) := by
  induction order with
  | nil => cases horder
  | cons v order ih =>
    by_cases hv : v = cached
    · subst hv
      simp [dhtLookupEverywhere, hdata]
    · have hmem : cached ∈ order := (mem_cons.mp horder).resolve_left (Ne.symm hv)
      unfold dhtLookupEverywhere
      split
      · next ino' hfile =>
          exact absurd hfile (hoth v hv ino')
      · exact ih hmem

def Call.cells : Call → List (Subvol × Name)
  | .mknod v name => [(v, name)]
  | .setxattr v name _ => [(v, name)]
  | .link v _ new => [(v, new)]
  | .rename v old new => [(v, old), (v, new)]
  | .unlink v name => [(v, name)]

theorem serve_eq_ok_iff :
    serve bricks c = .ok bricks' ↔ ∃ brick, c.fop (bricks c.subvol) = .ok brick ∧
        bricks' = update bricks c.subvol brick := by
  unfold serve
  cases c.fop (bricks c.subvol) with
  | error opErrno => simp [Except.map]
  | ok brick => simp [Except.map, eq_comm]

theorem serve_mknod_ok (h : serve bricks (.mknod v name) = .ok bricks') :
    bricks' = put bricks v name (some (.linkfile none)) := by
  obtain ⟨brick, hfop, rfl⟩ := serve_eq_ok_iff.mp h
  simp only [fop, mknod] at hfop
  split at hfop
  · cases hfop
  · cases hfop
    rfl

theorem serve_setxattr_ok {tovol : Subvol} {linkto : Option Subvol}
    (hfile : bricks v name = some (.linkfile linkto))
    (h : serve bricks (.setxattr v name tovol) = .ok bricks') :
    bricks' = put bricks v name (some (.linkfile (some tovol))) := by
  obtain ⟨brick, hfop, rfl⟩ := serve_eq_ok_iff.mp h
  simp only [fop, subvol, setxattr, hfile] at hfop
  cases hfop
  rfl

theorem serve_link_ok (hfile : bricks v old = some file)
    (h : serve bricks (.link v old new) = .ok bricks') :
    bricks' = put bricks v new (some file) := by
  obtain ⟨brick, hfop, rfl⟩ := serve_eq_ok_iff.mp h
  cases hnew : bricks v new with
  | some file' => simp [fop, subvol, link, hfile, hnew] at hfop
  | none =>
    simp only [fop, subvol, link, hfile, hnew, Except.ok.injEq] at hfop
    rw [← hfop]
    rfl

theorem serve_rename_ok (hfile : bricks v old = some file)
    (h : serve bricks (.rename v old new) = .ok bricks') :
    (∀ ino, file = .data ino → bricks v new ≠ some (.data ino)) ∧
        bricks' = put (put bricks v new (some file)) v old none ∨
      bricks v new = some file ∧ bricks' = bricks := by
  obtain ⟨brick, hfop, rfl⟩ := serve_eq_ok_iff.mp h
  cases file with
  | data ino =>
    by_cases hsame : bricks v new = some (.data ino)
    · simp only [fop, subvol, rename, hfile, hsame, if_true, Except.ok.injEq] at hfop
      refine .inr ⟨hsame, ?_⟩
      rw [← hfop]
      exact update_eq_self _ _
    · simp only [fop, subvol, rename, hfile, hsame, if_false, Except.ok.injEq] at hfop
      refine .inl ⟨?_, ?_⟩
      · rintro ino' heq
        rwa [← heq]
      · rw [← hfop]
        simp [put, subvol]
  | linkfile linkto =>
    simp only [fop, subvol, rename, hfile, Except.ok.injEq] at hfop
    rw [← hfop]
    simp [put, subvol]

theorem serve_unlink_ok (h : serve bricks (.unlink v name) = .ok bricks') :
    bricks' = put bricks v name none := by
  obtain ⟨brick, hfop, rfl⟩ := serve_eq_ok_iff.mp h
  simp only [fop, unlink] at hfop
  split at hfop
  · cases hfop
  · cases hfop
    rfl

theorem put_of_ne {file : Option File} (hcell : (w, n) ≠ (v, name)) :
    put bricks v name file w n = bricks w n := by
  rw [put_apply, if_neg (fun hall => hcell (by rw [hall.1, hall.2]))]

theorem serve_frame (h : serve bricks c = .ok bricks') (hcell : (w, n) ∉ c.cells) :
    bricks' w n = bricks w n := by
  obtain ⟨brick, hfop, -⟩ := serve_eq_ok_iff.mp h
  cases c with
  | mknod v name =>
    rw [serve_mknod_ok h]
    exact put_of_ne (by simpa [cells] using hcell)
  | setxattr v name tovol =>
    cases hfile : bricks v name with
    | none => simp [fop, subvol, setxattr, hfile] at hfop
    | some file =>
      cases file with
      | linkfile linkto =>
        rw [serve_setxattr_ok hfile h]
        exact put_of_ne (by simpa [cells] using hcell)
      | data ino =>
        obtain ⟨brick', hfop', rfl⟩ := serve_eq_ok_iff.mp h
        simp only [fop, subvol, setxattr, hfile, Except.ok.injEq] at hfop'
        rw [← hfop', subvol, update_eq_self]
  | link v old new =>
    cases hfile : bricks v old with
    | none => simp [fop, subvol, link, hfile] at hfop
    | some file =>
      rw [serve_link_ok hfile h]
      exact put_of_ne (by simpa [cells] using hcell)
  | rename v old new =>
    simp only [cells, mem_cons, not_mem_nil, or_false, not_or] at hcell
    cases hfile : bricks v old with
    | none => simp [fop, subvol, rename, hfile] at hfop
    | some file =>
      rcases serve_rename_ok hfile h with ⟨-, rfl⟩ | ⟨-, rfl⟩
      · rw [put_of_ne hcell.1, put_of_ne hcell.2]
      · rfl
  | unlink v name =>
    rw [serve_unlink_ok h]
    exact put_of_ne (by simpa [cells] using hcell)

structure Executed (s s' : RenameState) (c : Call) (opErrno : Option Int) : Prop where
  wound : s.calls c = .wound
  calls : s'.calls = update s.calls c (.served opErrno)
  effect : opErrno = none ∧ serve s.bricks c = .ok s'.bricks ∨ opErrno ≠ none ∧ s'.bricks = s.bricks
  callCnt : s'.callCnt = s.callCnt
  opRet : s'.opRet = s.opRet

theorem faultStep_cases (h : faultStep l s e = some s') :
    (∃ c opErrno, Executed s s' c opErrno ∧ s'.unwound = s.unwound ∧
        (e = .event (.serve c) ∧ (opErrno ≠ none → serve s.bricks c = .error (opErrno.getD 0)) ∨
          ∃ err, e = .fail c err ∧ opErrno = some err)) ∨
      ∃ c opErrno, e = .event (.reply c) ∧ s.calls c = .served opErrno ∧
        s' = renameCbk l (replyTo s c) opErrno c := by
  cases e with
  | fail c opErrno =>
    simp only [faultStep] at h
    split_ifs at h with hwnd
    cases h
    exact .inl ⟨c, some opErrno, ⟨hwnd, rfl, .inr ⟨by simp, rfl⟩, rfl, rfl⟩, rfl,
      .inr ⟨opErrno, rfl, rfl⟩⟩
  | event e =>
    cases e with
    | serve c =>
      simp only [faultStep, renameStep] at h
      split_ifs at h with hwnd
      cases hserve : serve s.bricks c with
      | error opErrno =>
        rw [hserve] at h
        cases h
        exact .inl ⟨c, some opErrno, ⟨hwnd, rfl, .inr ⟨by simp, rfl⟩, rfl, rfl⟩, rfl,
          .inl ⟨rfl, fun _ => hserve⟩⟩
      | ok bricks =>
        rw [hserve] at h
        cases h
        exact .inl ⟨c, none, ⟨hwnd, rfl, .inl ⟨rfl, hserve⟩, rfl, rfl⟩, rfl,
          .inl ⟨rfl, fun hne => absurd rfl hne⟩⟩
    | reply c =>
      simp only [faultStep, renameStep] at h
      cases hcalls : s.calls c with
      | served opErrno =>
        rw [hcalls] at h
        cases h
        exact .inr ⟨c, opErrno, rfl, hcalls, rfl⟩
      | idle | wound | replied =>
        simp [hcalls] at h

theorem Executed.frame (h : Executed s s' c opErrno) (hcell : (v, name) ∉ c.cells) :
    s'.bricks v name = s.bricks v name := by
  rcases h.effect with ⟨-, hserve⟩ | ⟨-, hsame⟩
  · exact serve_frame hserve hcell
  · rw [hsame]

theorem Executed.self (h : Executed s s' c opErrno) : s'.calls c = .served opErrno := by
  rw [h.calls, update_self]

theorem Executed.ok (h : Executed s s' c none) : serve s.bricks c = .ok s'.bricks :=
  h.effect.elim And.right (fun hfail => absurd rfl hfail.1)

theorem Executed.other (h : Executed s s' c opErrno) (hne : c' ≠ c) : s'.calls c' = s.calls c' := by
  rw [h.calls, update_of_ne hne]

def linkReturned (s : RenameState) (opErrno : Option Int) : RenameState :=
  match opErrno with
  | some opErrno => { s with opRet := -1, opErrno := opErrno, callCnt := s.callCnt - 1 }
  | none => { s with callCnt := s.callCnt - 1 }

theorem dhtRenameLinksCbk_eq (l : RenameLocal) (s : RenameState) (opErrno : Option Int) :
    dhtRenameLinksCbk l s opErrno =
      if (linkReturned s opErrno).callCnt = 0 then
        if (linkReturned s opErrno).opRet = -1 then unwind (linkReturned s opErrno)
        else dhtDoRename l (linkReturned s opErrno)
      else
        linkReturned s opErrno := by
  cases opErrno with
  | none | some opErrno => rfl

@[simp] theorem linkReturned_calls (opErrno : Option Int) :
    (linkReturned s opErrno).calls = s.calls := by
  cases opErrno <;> rfl

@[simp] theorem linkReturned_bricks (opErrno : Option Int) :
    (linkReturned s opErrno).bricks = s.bricks := by
  cases opErrno <;> rfl

@[simp] theorem linkReturned_callCnt (opErrno : Option Int) :
    (linkReturned s opErrno).callCnt = s.callCnt - 1 := by
  cases opErrno <;> rfl

theorem foldl_wind_bricks (cs : List Call) (s : RenameState) :
    (cs.foldl wind s).bricks = s.bricks := by
  rw [foldl_wind]

theorem renameCbk_bricks (l : RenameLocal) (s : RenameState) (opErrno : Option Int) (c : Call) :
    (renameCbk l s opErrno c).bricks = s.bricks := by
  have hlks : ∀ opErrno, (dhtRenameLinksCbk l s opErrno).bricks = s.bricks := by
    intro opErrno
    rw [dhtRenameLinksCbk_eq]
    split_ifs <;> exact linkReturned_bricks opErrno
  cases c with
  | mknod v name =>
    cases opErrno with
    | none => rfl
    | some opErrno => exact hlks _
  | setxattr v name tovol | link v old new => exact hlks _
  | rename v old new =>
    cases opErrno with
    | none =>
      simp only [renameCbk, dhtRenameCbk]
      split_ifs
      · rfl
      · exact foldl_wind_bricks _ _
    | some opErrno => rfl
  | unlink v name =>
    simp only [renameCbk, dhtRenameUnlinkCbk]
    split_ifs
    · rfl
    · rfl

def OfPlan (l : RenameLocal) (s : RenameState) : Prop :=
  ∀ c, s.calls c ≠ .idle → c ∈ plan l

theorem OfPlan.wind (h : OfPlan l s) (hc : c ∈ plan l) : OfPlan l (wind s c) := by
  intro c' hc'
  by_cases heq : c' = c
  · rwa [heq]
  · rw [wind_of_ne heq] at hc'
    exact h c' hc'

theorem OfPlan.foldl_wind {cs : List Call} (h : OfPlan l s) (hcs : ∀ c ∈ cs, c ∈ plan l) :
    OfPlan l (cs.foldl Dht.wind s) := by
  induction cs generalizing s with
  | nil => exact h
  | cons c cs ih =>
    obtain ⟨hc, hcs'⟩ := forall_mem_cons.mp hcs
    exact ih (h.wind hc) hcs'

theorem OfPlan.linksCbk (h : OfPlan l s) (opErrno : Option Int) :
    OfPlan l (dhtRenameLinksCbk l s opErrno) := by
  have hretd : OfPlan l (linkReturned s opErrno) := by
    intro c hc
    exact h c (by simpa using hc)
  rw [dhtRenameLinksCbk_eq]
  split_ifs
  · exact hretd
  · exact hretd.wind (renameCall_mem_plan l)
  · exact hretd

theorem OfPlan.reply (h : OfPlan l s) (hsrv : s.calls c = .served opErrno) :
    OfPlan l (renameCbk l (replyTo s c) opErrno c) := by
  have hplan : c ∈ plan l := h c (by simp [hsrv])
  have hrep : OfPlan l (replyTo s c) := by
    intro c' hc'
    by_cases heq : c' = c
    · rwa [heq]
    · rw [replyTo_of_ne heq] at hc'
      exact h c' hc'
  rcases mem_plan.mp hplan with hc | hc | rfl | hc
  · obtain ⟨hneeds, rfl | rfl⟩ := mem_linkfileCalls.mp hc
    · cases opErrno with
      | none =>
        refine hrep.wind (mem_plan.mpr (.inl ?_))
        exact mem_linkfileCalls.mpr ⟨hneeds, .inr rfl⟩
      | some opErrno => exact hrep.linksCbk _
    · exact hrep.linksCbk _
  · obtain ⟨-, rfl⟩ := mem_linkCalls.mp hc
    exact hrep.linksCbk _
  · cases opErrno with
    | some opErrno => exact hrep
    | none =>
      simp only [renameCbk, dhtRenameCbk]
      split_ifs
      · exact hrep
      · refine foldl_wind hrep ?_
        intro c hc
        exact mem_plan.mpr (.inr (.inr (.inr hc)))
  · obtain ⟨v, name, rfl⟩ := exists_of_mem_unlinkCalls hc
    simp only [renameCbk, dhtRenameUnlinkCbk]
    split_ifs <;> exact hrep

theorem OfPlan.executed (h : OfPlan l s) (hexec : Executed s s' c opErrno) : OfPlan l s' := by
  intro c' hc'
  by_cases heq : c' = c
  · rw [heq]
    exact h c (by simp [hexec.wound])
  · rw [hexec.other heq] at hc'
    exact h c' hc'

/-- One subvolume has the data of a name, and the others have linkfiles to it at most. -/
structure OnlyData (bricks : Subvol → Brick) (name : Name) (cached : Subvol) (ino : Nat) :
    Prop where
  data : bricks cached name = some (.data ino)
  other : ∀ v, v ≠ cached → bricks v name = none ∨ bricks v name = some (.linkfile (some cached))

structure Kept (l : RenameLocal) (ino : Nat) (s : RenameState) : Prop where
  planned : OfPlan l s
  only : OnlyData s.bricks l.loc l.srcCached ino

theorem Kept.executed (h : Kept l ino s) (hnames : l.loc = l.loc2)
    (hsame : some l.srcCached = l.dstCached) (hexec : Executed s s' c opErrno) : Kept l ino s' := by
  refine ⟨h.planned.executed hexec, ?_⟩
  rcases hexec.effect with ⟨-, hserve⟩ | ⟨-, hbr⟩
  · have hplan : c ∈ plan l := h.planned c (by simp [hexec.wound])
    rcases mem_plan.mp hplan with hc | hc | rfl | hc
    · exact absurd hsame (mem_linkfileCalls.mp hc).1.1
    · exact absurd hsame (mem_linkCalls.mp hc).1.1
    · have hsub : l.renameSubvol = l.srcCached := if_pos hsame
      rw [renameCall, hsub, ← hnames] at hserve
      rcases serve_rename_ok h.only.data hserve with ⟨hoth, -⟩ | ⟨-, hbr⟩
      · exact absurd h.only.data (hoth ino rfl)
      · rw [hbr]
        exact h.only
    · rcases mem_unlinkCalls.mp hc with
        ⟨⟨-, hne⟩, -⟩ | ⟨⟨-, hcach⟩, rfl⟩ | ⟨dstCached, hdst, ⟨-, hcach⟩, -⟩
      · exact absurd hsame hne
      · rw [serve_unlink_ok hserve]
        refine ⟨?_, ?_⟩
        · rw [put_of_ne (by simp [Ne.symm hcach]), h.only.data]
        · intro v hv
          rw [put_apply]
          split_ifs
          · exact .inl rfl
          · exact h.only.other v hv
      · exact absurd (Option.some_inj.mp (hdst.symm.trans hsame.symm)) hcach
  · rw [hbr]
    exact h.only

theorem Kept.step (hnames : l.loc = l.loc2) (hsame : some l.srcCached = l.dstCached)
    (h : Kept l ino s) (hstep : faultStep l s e = some s') : Kept l ino s' := by
  rcases faultStep_cases hstep with ⟨c, opErrno, hexec, _⟩ | ⟨c, opErrno, _, hsrv, rfl⟩
  · exact h.executed hnames hsame hexec
  · refine ⟨h.planned.reply hsrv, ?_⟩
    rw [renameCbk_bricks]
    exact h.only

theorem OnlyData.dhtLookup (h : OnlyData bricks name cached ino) (horder : cached ∈ order) :
    dhtLookup true order bricks hashed name = some (cached, .data ino) := by
  have hev : dhtLookupEverywhere bricks name order = some (cached, .data ino) := by
    refine dhtLookupEverywhere_eq h.data ?_ horder
    intro v hv ino' hfile
    rcases h.other v hv with hnone | hlink
    · simp [hnone] at hfile
    · simp [hlink] at hfile
  by_cases hhash : hashed = cached
  · rw [hhash]
    simp [Dht.dhtLookup, h.data]
  · rcases h.other hashed hhash with hnone | hlink
    · simp [Dht.dhtLookup, hnone, hev]
    · simp [Dht.dhtLookup, hlink, h.data]

section

def Made (ino : Nat) (bricks : Subvol → Brick) : Call → Prop
  | .setxattr v name tovol => bricks v name = some (.linkfile (some tovol))
  | .link v _ new => bricks v new = some (.data ino)
  | _ => True

/-- The reply to a link has come, or a linkfile without one could not be created. -/
def linkDone (l : RenameLocal) (calls : Call → Status) (c : Call) : Bool :=
  decide (calls c = .replied ∨
    c = setxattrCall l ∧ calls c = .idle ∧ calls (mknodCall l) = .replied)

def pendingLinks (l : RenameLocal) (calls : Call → Status) : Nat :=
  (linkEnds l).countP (fun c => !linkDone l calls c)

structure Links (l : RenameLocal) (ino : Nat) (s : RenameState) : Prop where
  order : s.calls (setxattrCall l) ≠ .idle → s.calls (mknodCall l) = .replied
  linkfile : s.calls (mknodCall l) = .served none ∨ s.calls (setxattrCall l) ≠ .idle →
    ∃ linkto, s.bricks l.dstHashed l.loc = some (.linkfile linkto)
  refused : s.calls (mknodCall l) = .replied → s.calls (setxattrCall l) = .idle → s.opRet = -1
  made : ∀ c ∈ linkEnds l,
    s.calls c = .served none ∨ s.calls c = .replied ∧ s.opRet ≠ -1 → Made ino s.bricks c

/-- The file is not renamed yet, or could not be. -/
structure Unmoved (l : RenameLocal) (ino : Nat) (s : RenameState) : Prop where
  src : Reachable s.bricks l.loc l.srcHashed l.srcCached ino
  dst : some l.srcCached = l.dstCached → l.dstHashed ≠ l.srcCached →
    s.bricks l.dstHashed l.loc2 = some (.linkfile (some l.srcCached))
  rename : s.calls (renameCall l) ≠ .served none
  unlinks : ∀ c ∈ unlinkCalls l, s.calls c = .idle
  links : Links l ino s
  ready : s.calls (renameCall l) ≠ .idle →
    ∀ c ∈ linkfileCalls l ++ linkCalls l, s.calls c = .replied
  linked : s.calls (renameCall l) = .wound → ∀ c ∈ linkEnds l, Made ino s.bricks c

/-- The file is renamed, and the links that lead to it are in place. -/
structure MovedOn (l : RenameLocal) (ino : Nat) (s : RenameState) : Prop where
  dst : Reachable s.bricks l.loc2 l.dstHashed l.srcCached ino
  rename : s.calls (renameCall l) = .served none ∨ s.calls (renameCall l) = .replied
  links : ∀ c ∈ linkfileCalls l ++ linkCalls l, s.calls c = .replied

/-- A rename with calls that fail, between two names. -/
structure Safe (l : RenameLocal) (ino : Nat) (s : RenameState) : Prop where
  planned : OfPlan l s
  count : s.calls (renameCall l) = .idle → s.callCnt = (pendingLinks l s.calls : Int)
  phase : Unmoved l ino s ∨ MovedOn l ino s

variable (hc : c ∈ linkfileCalls l ++ linkCalls l)
include hc

theorem links_ne_renameCall : c ≠ renameCall l :=
  ne_renameCall (Nat.ne_of_lt (links_order hc))

theorem links_ne_unlink (hc' : c' ∈ unlinkCalls l) : c' ≠ c := by
  rintro rfl
  have := links_order hc
  rw [unlinkCalls_order hc'] at this
  omega

omit hc

theorem links_cells (hnames : l.loc ≠ l.loc2) (hc : c ∈ linkfileCalls l ++ linkCalls l) :
    (l.srcCached, l.loc) ∉ c.cells ∧ (l.srcHashed, l.loc) ∉ c.cells := by
  rcases mem_links.mp hc with ⟨⟨-, hhash, hcach⟩, rfl | rfl⟩ | ⟨-, rfl⟩
  · simp [cells, Ne.symm hhash, Ne.symm hcach]
  · simp [cells, Ne.symm hhash, Ne.symm hcach]
  · simp [cells, hnames]

theorem Executed.made (hexec : Executed s s' c none)
    (hsrc : s.bricks l.srcCached l.loc = some (.data ino))
    (hlf : c = setxattrCall l →
      ∃ linkto, s.bricks l.dstHashed l.loc = some (.linkfile linkto)) (hc : c ∈ linkEnds l) :
    Made ino s'.bricks c := by
  rcases mem_linkEnds.mp hc with ⟨-, rfl⟩ | ⟨-, rfl⟩
  · obtain ⟨linkto, hfile⟩ := hlf rfl
    rw [Made, serve_setxattr_ok hfile hexec.ok]
    simp
  · rw [Made, serve_link_ok hsrc hexec.ok]
    simp

theorem Executed.keeps_made (hnames : l.loc ≠ l.loc2) (hexec : Executed s s' c opErrno)
    (hc : c ∈ linkfileCalls l ++ linkCalls l) (hc' : c' ∈ linkEnds l) (hne : c' ≠ c)
    (hmk : c' = setxattrCall l → c ≠ mknodCall l) (hmade : Made ino s.bricks c') :
    Made ino s'.bricks c' := by
  have hfr := fun v name => @frame name v _ _ _ _ hexec
  rcases mem_linkEnds.mp hc' with ⟨-, rfl⟩ | ⟨-, rfl⟩
  · rcases mem_links.mp hc with ⟨-, rfl | rfl⟩ | ⟨-, rfl⟩
    · exact absurd rfl (hmk rfl)
    · exact absurd rfl hne
    · rw [Made, hfr _ _ (by simp [cells, hnames])]
      exact hmade
  · rcases mem_links.mp hc with ⟨-, rfl | rfl⟩ | ⟨-, rfl⟩
    · rw [Made, hfr _ _ (by simp [cells, Ne.symm hnames])]
      exact hmade
    · rw [Made, hfr _ _ (by simp [cells, Ne.symm hnames])]
      exact hmade
    · exact absurd rfl hne

theorem Unmoved.rename_idle (h : Unmoved l ino s) (hc : c ∈ linkfileCalls l ++ linkCalls l)
    (hrepl : s.calls c ≠ .replied) : s.calls (renameCall l) = .idle := by
  by_contra hidle
  exact hrepl (h.ready hidle c hc)

theorem Links.setxattr_idle (h : Links l ino s) (hmk : s.calls (mknodCall l) ≠ .replied) :
    s.calls (setxattrCall l) = .idle := by
  by_contra hidle
  exact hmk (h.order hidle)

theorem Links.of_same (h : Links l ino s) (hmk : s'.calls (mknodCall l) = s.calls (mknodCall l))
    (hsx : s'.calls (setxattrCall l) = s.calls (setxattrCall l))
    (hfile : s'.bricks l.dstHashed l.loc = s.bricks l.dstHashed l.loc)
    (hret : s'.opRet = s.opRet ∨ s'.opRet = -1)
    (hmade : ∀ c ∈ linkEnds l, s'.calls c = .served none ∨ s'.calls c = .replied ∧ s'.opRet ≠ -1 →
      Made ino s'.bricks c) : Links l ino s' := by
  refine ⟨?_, ?_, ?_, hmade⟩
  · rw [hmk, hsx]
    exact h.order
  · rw [hmk, hsx, hfile]
    exact h.linkfile
  · rw [hmk, hsx]
    intro hrepl hidle
    rcases hret with hret | hret
    · rw [hret]
      exact h.refused hrepl hidle
    · exact hret

theorem Links.congr (h : Links l ino s) (hcalls : ∀ c, c.order < 3 → s'.calls c = s.calls c)
    (hbr : s'.bricks = s.bricks) (hret : s'.opRet = s.opRet ∨ s'.opRet = -1) : Links l ino s' := by
  refine h.of_same (hcalls _ (by simp [Call.order])) (hcalls _ (by simp [Call.order]))
    (by rw [hbr]) hret ?_
  intro c hc hstat
  rw [hcalls c (by have := linkEnds_order hc; omega)] at hstat
  rw [hbr]
  refine h.made c hc (hstat.imp_right ?_)
  rintro ⟨hrepl, hne⟩
  exact ⟨hrepl, hret.resolve_right hne ▸ hne⟩

theorem Links.executed (h : Links l ino s) (hnames : l.loc ≠ l.loc2)
    (hsrc : s.bricks l.srcCached l.loc = some (.data ino)) (hexec : Executed s s' c opErrno)
    (hc : c ∈ linkfileCalls l ++ linkCalls l) : Links l ino s' := by
  have hmk : c = mknodCall l → s.calls (setxattrCall l) = .idle := by
    rintro rfl
    exact h.setxattr_idle (by simp [hexec.wound])
  have hlf : c = setxattrCall l →
      ∃ linkto, s.bricks l.dstHashed l.loc = some (.linkfile linkto) := by
    rintro rfl
    exact h.linkfile (.inr (by simp [hexec.wound]))
  have hmade : ∀ c' ∈ linkEnds l,
      s'.calls c' = .served none ∨ s'.calls c' = .replied ∧ s'.opRet ≠ -1 →
        Made ino s'.bricks c' := by
    intro c' hc' hstat
    by_cases heq : c' = c
    · subst heq
      rw [hexec.self] at hstat
      have hnone : opErrno = none := by simpa using hstat
      subst hnone
      exact hexec.made hsrc hlf hc'
    · rw [hexec.other heq, hexec.opRet] at hstat
      refine hexec.keeps_made hnames hc hc' heq ?_ (h.made c' hc' hstat)
      rintro rfl hc
      simp [hmk hc] at hstat
  rcases mem_links.mp hc with ⟨-, rfl | rfl⟩ | ⟨-, rfl⟩
  · have hidle : s'.calls (setxattrCall l) = .idle := by rw [hexec.other (by simp), hmk rfl]
    refine ⟨fun hne => absurd hidle hne, ?_, ?_, hmade⟩
    · rintro (hsrv | hne)
      · rw [hexec.self, Status.served.injEq] at hsrv
        subst hsrv
        exact ⟨none, by rw [serve_mknod_ok hexec.ok]; simp⟩
      · exact absurd hidle hne
    · intro hrepl
      simp [hexec.self] at hrepl
  · have hsame : s'.calls (mknodCall l) = s.calls (mknodCall l) := hexec.other (by simp)
    refine ⟨fun _ => ?_, fun _ => ?_, ?_, hmade⟩
    · rw [hsame]
      exact h.order (by simp [hexec.wound])
    · obtain ⟨linkto, hfile⟩ := hlf rfl
      rcases hexec.effect with ⟨-, hserve⟩ | ⟨-, hbr⟩
      · exact ⟨some l.srcCached, by rw [serve_setxattr_ok hfile hserve]; simp⟩
      · exact ⟨linkto, by rw [hbr, hfile]⟩
    · intro _ hidle
      simp [hexec.self] at hidle
  · exact h.of_same (hexec.other (by simp)) (hexec.other (by simp))
      (hexec.frame (by simp [cells, hnames])) (.inl hexec.opRet) hmade

section

variable (h : Unmoved l ino s)
include h

theorem Unmoved.executed_link (hnames : l.loc ≠ l.loc2) (hexec : Executed s s' c opErrno)
    (hc : c ∈ linkfileCalls l ++ linkCalls l) : Unmoved l ino s' := by
  have hcells := links_cells hnames hc
  have hren : s'.calls (renameCall l) = .idle := by
    rw [hexec.other (links_ne_renameCall hc).symm]
    exact h.rename_idle hc (by simp [hexec.wound])
  refine ⟨⟨?_, ?_⟩, ?_, ?_, ?_, h.links.executed hnames h.src.data hexec hc, ?_, ?_⟩
  · rw [hexec.frame hcells.1]
    exact h.src.data
  · intro hne
    rw [hexec.frame hcells.2]
    exact h.src.link hne
  · intro hsame
    rcases mem_links.mp hc with ⟨hneeds, -⟩ | ⟨hneeds, -⟩ <;> exact absurd hsame hneeds.1
  · rw [hren]
    simp
  · intro c' hc'
    rw [hexec.other (links_ne_unlink hc hc')]
    exact h.unlinks c' hc'
  · exact fun hne => absurd hren hne
  · intro hwnd
    simp [hren] at hwnd

theorem Unmoved.source (hwnd : s.calls (renameCall l) = .wound) :
    s.bricks l.renameSubvol l.loc = some (l.movedFile ino) := by
  unfold RenameLocal.movedFile
  by_cases hcach : l.renameSubvol = l.srcCached
  · rw [if_pos hcach, hcach]
    exact h.src.data
  · rw [if_neg hcach]
    rcases renameSubvol_eq l with ⟨hsub, -⟩ | ⟨hsub, hsame⟩
    · exact absurd hsub hcach
    · rw [hsub] at hcach ⊢
      by_cases hhash : l.dstHashed = l.srcHashed
      · rw [hhash] at hcach ⊢
        exact h.src.link hcach
      · have hneeds : l.NeedsLinkfile := ⟨hsame, hhash, hcach⟩
        exact h.linked hwnd (setxattrCall l) (mem_linkEnds.mpr (.inl ⟨hneeds, rfl⟩))

theorem Unmoved.moved (hnames : l.loc ≠ l.loc2) (hexec : Executed s s' (renameCall l) none) :
    MovedOn l ino s' := by
  have hmov : s'.bricks l.renameSubvol l.loc2 = some (l.movedFile ino) := by
    rcases serve_rename_ok (h.source hexec.wound) hexec.ok with ⟨-, hbr⟩ | ⟨hsame, hbr⟩
    · rw [hbr, put_of_ne (by simp [Ne.symm hnames])]
      simp
    · rw [hbr, hsame]
  have hfr : ∀ v, v ≠ l.renameSubvol → s'.bricks v l.loc2 = s.bricks v l.loc2 := by
    intro v hv
    exact hexec.frame (by simp [renameCall, cells, hv])
  refine ⟨⟨?_, ?_⟩, .inl hexec.self, ?_⟩
  · by_cases hcach : l.renameSubvol = l.srcCached
    · rw [← hcach, hmov, RenameLocal.movedFile, if_pos hcach]
    · rcases renameSubvol_eq l with ⟨hsub, -⟩ | ⟨hsub, hsame⟩
      · exact absurd hsub hcach
      · have hneeds : l.NeedsLink := ⟨hsame, fun heq => hcach (hsub.trans heq.symm)⟩
        rw [hfr _ (Ne.symm hcach)]
        exact h.linked hexec.wound (linkCall l) (mem_linkEnds.mpr (.inr ⟨hneeds, rfl⟩))
  · intro hne
    rcases renameSubvol_eq l with ⟨hsub, hsame⟩ | ⟨hsub, -⟩
    · rw [hfr _ (by rwa [hsub])]
      exact h.dst hsame hne
    · rw [← hsub, hmov, RenameLocal.movedFile, if_neg (by rwa [hsub])]
  · intro c hc
    rw [hexec.other (links_ne_renameCall hc)]
    exact h.ready (by simp [hexec.wound]) c hc

theorem Unmoved.at_rename (hbr : s'.bricks = s.bricks)
    (hoth : ∀ c, c ≠ renameCall l → s'.calls c = s.calls c)
    (hret : s'.opRet = s.opRet ∨ s'.opRet = -1) (hren : s'.calls (renameCall l) ≠ .served none)
    (hrdy : ∀ c ∈ linkfileCalls l ++ linkCalls l, s.calls c = .replied)
    (hlnk : s'.calls (renameCall l) = .wound → ∀ c ∈ linkEnds l, Made ino s.bricks c) :
    Unmoved l ino s' := by
  refine ⟨hbr ▸ h.src, hbr ▸ h.dst, hren, ?_, ?_, ?_, hbr ▸ hlnk⟩
  · intro c hc
    rw [hoth c (unlink_ne_renameCall hc)]
    exact h.unlinks c hc
  · refine h.links.congr ?_ hbr hret
    intro c horder
    exact hoth c (ne_renameCall (Nat.ne_of_lt horder))
  · intro _ c hc
    rw [hoth c (links_ne_renameCall hc)]
    exact hrdy c hc

theorem Unmoved.not_moved {opErrno : Int} (hexec : Executed s s' (renameCall l) (some opErrno)) :
    Unmoved l ino s' := by
  have hbr : s'.bricks = s.bricks := by
    rcases hexec.effect with ⟨heq, -⟩ | ⟨-, hbr⟩
    · cases heq
    · exact hbr
  refine h.at_rename hbr (fun c hne => hexec.other hne) (.inl hexec.opRet) ?_
    (h.ready (by simp [hexec.wound])) ?_
  · simp [hexec.self]
  · simp [hexec.self]

end

theorem MovedOn.executed (h : MovedOn l ino s) (hnames : l.loc ≠ l.loc2) (hplan : c ∈ plan l)
    (hexec : Executed s s' c opErrno) : MovedOn l ino s' := by
  have hc : c ∈ unlinkCalls l := by
    have hlink : c ∉ linkfileCalls l ++ linkCalls l := by
      intro hc
      have := h.links c hc
      simp [hexec.wound] at this
    rcases mem_plan_links.mp hplan with hc | rfl | hc
    · exact absurd hc hlink
    · have := h.rename
      simp [hexec.wound] at this
    · exact hc
  have hfr : ∀ v, v = l.srcCached ∨ v = l.dstHashed → s'.bricks v l.loc2 = s.bricks v l.loc2 := by
    intro v hv
    obtain ⟨w, name, rfl⟩ := exists_of_mem_unlinkCalls hc
    refine hexec.frame ?_
    simp only [cells, mem_singleton, Prod.mk.injEq, not_and]
    rintro rfl rfl
    exact not_unlinked hnames hv hc
  refine ⟨⟨?_, ?_⟩, ?_, ?_⟩
  · rw [hfr _ (.inl rfl)]
    exact h.dst.data
  · intro hne
    rw [hfr _ (.inr rfl)]
    exact h.dst.link hne
  · rw [hexec.other (unlink_ne_renameCall hc).symm]
    exact h.rename
  · intro c' hc'
    rw [hexec.other (links_ne_unlink hc' hc).symm]
    exact h.links c' hc'

end

@[simp] theorem linkReturned_opRet (opErrno : Option Int) :
    (linkReturned s opErrno).opRet = if opErrno = none then s.opRet else -1 := by
  cases opErrno <;> rfl

theorem Links.returned (h : Links l ino s) (hsrv : s.calls c = .served opErrno)
    (hc : c ∈ linkfileCalls l ++ linkCalls l) (hlast : c = mknodCall l → opErrno ≠ none) :
    Links l ino (linkReturned (replyTo s c) opErrno) := by
  have hmade : ∀ c' ∈ linkEnds l, (replyTo s c).calls c' = .served none ∨
          (replyTo s c).calls c' = .replied ∧ (linkReturned (replyTo s c) opErrno).opRet ≠ -1 →
        Made ino s.bricks c' := by
    intro c' hc' hstat
    rw [linkReturned_opRet] at hstat
    by_cases heq : c' = c
    · subst heq
      have hnone : opErrno = none := by
        by_contra hne
        simp [hne] at hstat
      exact h.made c' hc' (.inl (hnone ▸ hsrv))
    · rw [replyTo_of_ne heq] at hstat
      refine h.made c' hc' (hstat.imp_right ?_)
      rintro ⟨hrepl, hne⟩
      split_ifs at hne
      · exact ⟨hrepl, hne⟩
      · exact absurd rfl hne
  rcases mem_links.mp hc with ⟨-, rfl | rfl⟩ | ⟨-, rfl⟩
  · have hidle : (replyTo s (mknodCall l)).calls (setxattrCall l) = .idle := by
      exact h.setxattr_idle (by simp [hsrv])
    refine ⟨?_, ?_, ?_, ?_⟩
    · rw [linkReturned_calls]
      exact fun hne => absurd hidle hne
    · rw [linkReturned_calls, replyTo_self]
      rintro (hsrv | hne)
      · cases hsrv
      · exact absurd hidle hne
    · intro _ _
      rw [linkReturned_opRet, if_neg (hlast rfl)]
    · rw [linkReturned_calls, linkReturned_bricks]
      exact hmade
  · have hsame : (replyTo s (setxattrCall l)).calls (mknodCall l) = s.calls (mknodCall l) :=
      replyTo_of_ne (by simp)
    refine ⟨?_, ?_, ?_, ?_⟩
    · intro _
      rw [linkReturned_calls, hsame]
      exact h.order (by simp [hsrv])
    · intro _
      rw [linkReturned_bricks]
      exact h.linkfile (.inr (by simp [hsrv]))
    · rw [linkReturned_calls, replyTo_self]
      intro _ hidle
      cases hidle
    · rw [linkReturned_calls, linkReturned_bricks]
      exact hmade
  · refine h.of_same ?_ ?_ (by rw [linkReturned_bricks]) ?_ ?_
    · rw [linkReturned_calls, replyTo_of_ne (by simp)]
    · rw [linkReturned_calls, replyTo_of_ne (by simp)]
    · rw [linkReturned_opRet]
      exact (ite_eq_or_eq _ _ _)
    · rw [linkReturned_calls, linkReturned_bricks]
      exact hmade

theorem Unmoved.returned (h : Unmoved l ino s) (hsrv : s.calls c = .served opErrno)
    (hc : c ∈ linkfileCalls l ++ linkCalls l) (hlast : c = mknodCall l → opErrno ≠ none) :
    Unmoved l ino (linkReturned (replyTo s c) opErrno) := by
  have hren : (linkReturned (replyTo s c) opErrno).calls (renameCall l) = .idle := by
    rw [linkReturned_calls, replyTo_of_ne (links_ne_renameCall hc).symm]
    exact h.rename_idle hc (by simp [hsrv])
  refine ⟨?_, ?_, ?_, ?_, h.links.returned hsrv hc hlast, ?_, ?_⟩
  · rw [linkReturned_bricks]
    exact h.src
  · rw [linkReturned_bricks]
    exact h.dst
  · rw [hren]
    simp
  · intro c' hc'
    rw [linkReturned_calls, replyTo_of_ne (links_ne_unlink hc hc')]
    exact h.unlinks c' hc'
  · exact fun hne => absurd hren hne
  · intro hwnd
    simp [hren] at hwnd

@[simp] theorem linkDone_link (calls : Call → Status) :
    linkDone l calls (linkCall l) = decide (calls (linkCall l) = .replied) := by
  simp [linkDone]

@[simp] theorem linkDone_setxattr (calls : Call → Status) :
    linkDone l calls (setxattrCall l) =
      decide (calls (setxattrCall l) = .replied ∨
        calls (setxattrCall l) = .idle ∧ calls (mknodCall l) = .replied) := by
  simp [linkDone]

theorem Links.pendingLinks_replyTo (h : Links l ino s) (hsrv : s.calls c = .served opErrno)
    (hc : c ∈ linkfileCalls l ++ linkCalls l) :
    pendingLinks l s.calls = pendingLinks l (replyTo s c).calls + 1 := by
  rcases mem_links.mp hc with ⟨hneeds, rfl | rfl⟩ | ⟨hneeds, rfl⟩
  · have hidle : s.calls (setxattrCall l) = .idle := h.setxattr_idle (by simp [hsrv])
    refine countP_add_one (c := setxattrCall l) (linkEnds_nodup l)
      (mem_linkEnds.mpr (.inl ⟨hneeds, rfl⟩)) ?_ ?_ ?_
    · simp [hidle]
    · simp [hidle, hsrv]
    · intro c' hc' hne
      rcases mem_linkEnds.mp hc' with ⟨-, rfl⟩ | ⟨-, rfl⟩
      · exact absurd rfl hne
      · simp
  · refine countP_add_one (c := setxattrCall l) (linkEnds_nodup l)
      (mem_linkEnds.mpr (.inl ⟨hneeds, rfl⟩)) ?_ ?_ ?_
    · simp
    · simp [hsrv]
    · intro c' hc' hne
      rcases mem_linkEnds.mp hc' with ⟨-, rfl⟩ | ⟨-, rfl⟩
      · exact absurd rfl hne
      · simp
  · refine countP_add_one (c := linkCall l) (linkEnds_nodup l)
      (mem_linkEnds.mpr (.inr ⟨hneeds, rfl⟩)) ?_ ?_ ?_
    · simp
    · simp [hsrv]
    · intro c' hc' hne
      rcases mem_linkEnds.mp hc' with ⟨-, rfl⟩ | ⟨-, rfl⟩
      · simp
      · exact absurd rfl hne

theorem Unmoved.reply_mknod (h : Unmoved l ino s) (hneeds : l.NeedsLinkfile)
    (hsrv : s.calls (mknodCall l) = .served none) :
    Unmoved l ino (wind (replyTo s (mknodCall l)) (setxattrCall l)) := by
  have hc : mknodCall l ∈ linkfileCalls l ++ linkCalls l :=
    mem_links.mpr (.inl ⟨hneeds, .inl rfl⟩)
  have hoth : ∀ c, 2 ≤ c.order →
      (wind (replyTo s (mknodCall l)) (setxattrCall l)).calls c = s.calls c := by
    intro c horder
    rw [wind_of_ne (by rintro rfl; simp [order] at horder),
      replyTo_of_ne (by rintro rfl; simp [order] at horder)]
  have hmk : (wind (replyTo s (mknodCall l)) (setxattrCall l)).calls (mknodCall l) =
      .replied := by rw [wind_of_ne (by simp), replyTo_self]
  have hren : (wind (replyTo s (mknodCall l)) (setxattrCall l)).calls (renameCall l) = .idle := by
    exact h.rename_idle hc (by simp [hsrv])
  refine ⟨h.src, h.dst, ?_, ?_, ⟨fun _ => hmk, ?_, ?_, ?_⟩, ?_, ?_⟩
  · rw [hren]
    simp
  · intro c hc
    rw [hoth c (by rw [unlinkCalls_order hc]; decide)]
    exact h.unlinks c hc
  · exact fun _ => h.links.linkfile (.inl hsrv)
  · intro _ hidle
    simp [wind_self] at hidle
  · intro c hc hstat
    rcases mem_linkEnds.mp hc with ⟨-, rfl⟩ | ⟨-, rfl⟩
    · rw [wind_self] at hstat
      simp at hstat
    · rw [hoth _ (by simp [order])] at hstat
      exact h.links.made _ hc hstat
  · exact fun hne => absurd hren hne
  · intro hwnd
    simp [hren] at hwnd

theorem Links.pendingLinks_setxattr (h : Links l ino s)
    (hsrv : s.calls (mknodCall l) = .served none) :
    pendingLinks l (wind (replyTo s (mknodCall l)) (setxattrCall l)).calls =
      pendingLinks l s.calls := by
  have hidle : s.calls (setxattrCall l) = .idle := h.setxattr_idle (by simp [hsrv])
  refine countP_congr ?_
  intro c hc
  rcases mem_linkEnds.mp hc with ⟨-, rfl⟩ | ⟨-, rfl⟩
  · simp [wind_self, hidle, hsrv]
  · simp [wind_of_ne]

theorem Unmoved.wind_rename (h : Unmoved l ino s) (hpend : pendingLinks l s.calls = 0)
    (hret : s.opRet ≠ -1) : Unmoved l ino (dhtDoRename l s) := by
  have hdone : ∀ c ∈ linkEnds l, s.calls c = .replied := by
    intro c hc
    have hlink : linkDone l s.calls c = true := by
      have := countP_eq_zero.mp hpend c hc
      simpa using this
    rw [linkDone, decide_eq_true_iff] at hlink
    rcases hlink with hrepl | ⟨rfl, hidle, hmk⟩
    · exact hrepl
    · exact absurd (h.links.refused hmk hidle) hret
  refine h.at_rename rfl (fun c hne => dhtDoRename_of_ne hne) (.inl rfl) ?_ ?_ ?_
  · simp [dhtDoRename_self]
  · intro c hc
    rcases mem_links.mp hc with ⟨hneeds, rfl | rfl⟩ | ⟨hneeds, rfl⟩
    · refine h.links.order ?_
      rw [hdone _ (mem_linkEnds.mpr (.inl ⟨hneeds, rfl⟩))]
      simp
    · exact hdone _ (mem_linkEnds.mpr (.inl ⟨hneeds, rfl⟩))
    · exact hdone _ (mem_linkEnds.mpr (.inr ⟨hneeds, rfl⟩))
  · intro _ c hc
    exact h.links.made c hc (.inr ⟨hdone c hc, hret⟩)

theorem Safe.linksCbk (h : Safe l ino s) (hunm : Unmoved l ino s)
    (hsrv : s.calls c = .served opErrno) (hc : c ∈ linkfileCalls l ++ linkCalls l)
    (hlast : c = mknodCall l → opErrno ≠ none) :
    Unmoved l ino (dhtRenameLinksCbk l (replyTo s c) opErrno) ∧
      ((dhtRenameLinksCbk l (replyTo s c) opErrno).calls (renameCall l) = .idle →
        (dhtRenameLinksCbk l (replyTo s c) opErrno).callCnt =
          (pendingLinks l (dhtRenameLinksCbk l (replyTo s c) opErrno).calls : Int)) := by
  have hretd := hunm.returned hsrv hc hlast
  have hcnt : (linkReturned (replyTo s c) opErrno).callCnt =
      (pendingLinks l (linkReturned (replyTo s c) opErrno).calls : Int) := by
    rw [linkReturned_callCnt, linkReturned_calls, h.count (hunm.rename_idle hc (by simp [hsrv])),
      hunm.links.pendingLinks_replyTo hsrv hc]
    omega
  rw [dhtRenameLinksCbk_eq]
  split_ifs with hzero hret
  · refine ⟨?_, fun _ => hcnt⟩
    exact { hretd with links := hretd.links.congr (fun _ _ => rfl) rfl (.inl rfl) }
  · refine ⟨hretd.wind_rename (by omega) hret, ?_⟩
    intro hidle
    simp [dhtDoRename_self] at hidle
  · exact ⟨hretd, fun _ => hcnt⟩

theorem Unmoved.reply_rename {opErrno : Int} (h : Unmoved l ino s)
    (hsrv : s.calls (renameCall l) = .served (some opErrno)) :
    Unmoved l ino (dhtRenameCbk l (replyTo s (renameCall l)) (some opErrno)) := by
  have hself : (dhtRenameCbk l (replyTo s (renameCall l)) (some opErrno)).calls (renameCall l) =
    .replied := replyTo_self
  refine h.at_rename rfl (fun c hne => replyTo_of_ne hne) (.inr rfl) ?_
    (h.ready (by simp [hsrv])) ?_
  · simp [hself]
  · simp [hself]

theorem Safe.reply_unmoved (h : Safe l ino s) (hunm : Unmoved l ino s)
    (hsrv : s.calls c = .served opErrno) : Safe l ino (renameCbk l (replyTo s c) opErrno c) := by
  have hplan : c ∈ plan l := h.planned c (by simp [hsrv])
  have hlks : c ∈ linkfileCalls l ++ linkCalls l → (c = mknodCall l → opErrno ≠ none) →
      renameCbk l (replyTo s c) opErrno c = dhtRenameLinksCbk l (replyTo s c) opErrno →
      Safe l ino (renameCbk l (replyTo s c) opErrno c) := by
    intro hc hlast heq
    obtain ⟨hunm', hcnt⟩ := h.linksCbk hunm hsrv hc hlast
    refine ⟨h.planned.reply hsrv, ?_, .inl ?_⟩
    · rw [heq]
      exact hcnt
    · rw [heq]
      exact hunm'
  rcases mem_plan_links.mp hplan with hc | rfl | hc
  · rcases mem_links.mp hc with ⟨hneeds, rfl | rfl⟩ | ⟨-, rfl⟩
    · cases opErrno with
      | none =>
        refine ⟨h.planned.reply hsrv, ?_, .inl (hunm.reply_mknod hneeds hsrv)⟩
        intro hidle
        have hcnt := h.count (hunm.rename_idle hc (by simp [hsrv]))
        rw [← hunm.links.pendingLinks_setxattr hsrv] at hcnt
        exact hcnt
      | some opErrno => exact hlks hc (by simp) rfl
    · exact hlks hc (by simp) rfl
    · exact hlks hc (by simp) rfl
  · cases opErrno with
    | none => exact absurd hsrv hunm.rename
    | some opErrno =>
      refine ⟨h.planned.reply hsrv, ?_, .inl (hunm.reply_rename hsrv)⟩
      intro hidle
      have hself : (renameCbk l (replyTo s (renameCall l)) (some opErrno)
        (renameCall l)).calls (renameCall l) = .replied := replyTo_self
      simp [hself] at hidle
  · have := hunm.unlinks c hc
    simp [hsrv] at this

theorem renameCbk_calls (hc : c = renameCall l ∨ c ∈ unlinkCalls l) (hc' : c' ∉ unlinkCalls l) :
    (renameCbk l s opErrno c).calls c' = s.calls c' := by
  rcases hc with rfl | hc
  · cases opErrno with
    | some opErrno => rfl
    | none =>
      simp only [renameCbk, dhtRenameCbk]
      split_ifs
      · rfl
      · rw [foldl_wind]
        exact if_neg hc'
  · obtain ⟨v, name, rfl⟩ := exists_of_mem_unlinkCalls hc
    simp only [renameCbk, dhtRenameUnlinkCbk]
    split_ifs
    · rfl
    · rfl

theorem not_mem_unlinkCalls (horder : c.order < 4) : c ∉ unlinkCalls l := by
  intro hc
  rw [unlinkCalls_order hc] at horder
  omega

theorem MovedOn.reply (h : MovedOn l ino s) (hplan : c ∈ plan l)
    (hsrv : s.calls c = .served opErrno) : MovedOn l ino (renameCbk l (replyTo s c) opErrno c) := by
  have hlink : c ∉ linkfileCalls l ++ linkCalls l := by
    intro hc
    have := h.links c hc
    simp [hsrv] at this
  have hc := (mem_plan_links.mp hplan).resolve_left hlink
  refine ⟨by rw [renameCbk_bricks]; exact h.dst, ?_, ?_⟩
  · rw [renameCbk_calls hc (not_mem_unlinkCalls (by simp [renameCall, order]))]
    by_cases heq : renameCall l = c
    · rw [heq, replyTo_self]
      exact .inr rfl
    · rw [replyTo_of_ne heq]
      exact h.rename
  · intro c' hc'
    have horder := links_order hc'
    rw [renameCbk_calls hc (not_mem_unlinkCalls (by omega)),
      replyTo_of_ne (by rintro rfl; exact hlink hc')]
    exact h.links c' hc'

theorem pendingLinks_executed (hexec : Executed s s' c opErrno) :
    pendingLinks l s'.calls = pendingLinks l s.calls := by
  have hsame : ∀ c', (s'.calls c' = .replied ↔ s.calls c' = .replied) ∧
      (s'.calls c' = .idle ↔ s.calls c' = .idle) := by
    intro c'
    by_cases heq : c' = c
    · simp [heq, hexec.self, hexec.wound]
    · simp [hexec.other heq]
  simp only [pendingLinks, linkDone, hsame]

theorem Safe.executed (h : Safe l ino s) (hnames : l.loc ≠ l.loc2)
    (hexec : Executed s s' c opErrno) : Safe l ino s' := by
  have hplan : c ∈ plan l := h.planned c (by simp [hexec.wound])
  refine ⟨h.planned.executed hexec, ?_, ?_⟩
  · intro hidle
    rw [hexec.callCnt, pendingLinks_executed hexec]
    refine h.count ?_
    by_cases heq : renameCall l = c
    · simp [heq, hexec.self] at hidle
    · rwa [hexec.other heq] at hidle
  · rcases h.phase with hunm | hmov
    · rcases mem_plan_links.mp hplan with hc | rfl | hc
      · exact .inl (hunm.executed_link hnames hexec hc)
      · cases opErrno with
        | none => exact .inr (hunm.moved hnames hexec)
        | some opErrno => exact .inl (hunm.not_moved hexec)
      · have := hunm.unlinks c hc
        simp [hexec.wound] at this
    · exact .inr (hmov.executed hnames hplan hexec)

theorem Safe.step (hnames : l.loc ≠ l.loc2) (h : Safe l ino s) (hstep : faultStep l s e = some s') :
    Safe l ino s' := by
  rcases faultStep_cases hstep with ⟨c, opErrno, hexec, _⟩ | ⟨c, opErrno, _, hsrv, rfl⟩
  · exact h.executed hnames hexec
  · rcases h.phase with hunm | hmov
    · exact h.reply_unmoved hunm hsrv
    · have hrep := hmov.reply (h.planned c (by simp [hsrv])) hsrv
      refine ⟨h.planned.reply hsrv, ?_, .inr hrep⟩
      intro hidle
      have := hrep.rename
      simp [hidle] at this

theorem Unmoved.start (h : Placed l bricks ino) (hbr : s.bricks = bricks)
    (hcalls : ∀ c, s.calls c = .idle ∨ s.calls c = .wound) (hsx : s.calls (setxattrCall l) = .idle)
    (hunls : ∀ c ∈ unlinkCalls l, s.calls c = .idle)
    (hren : s.calls (renameCall l) = .idle ∨ ¬ l.NeedsLinkfile ∧ ¬ l.NeedsLink) :
    Unmoved l ino s := by
  have hnew : ∀ c, s.calls c ≠ .served none ∧ s.calls c ≠ .replied := by
    intro c
    rcases hcalls c with heq | heq <;> simp [heq]
  refine ⟨?_, ?_, (hnew _).1, hunls, ⟨?_, ?_, ?_, ?_⟩, ?_, ?_⟩
  · rw [hbr]
    exact h.src.reachable
  · intro hsame hne
    obtain ⟨ino', hfile⟩ := h.dst _ hsame.symm
    rw [hbr]
    exact hfile.link hne
  · exact fun hne => absurd hsx hne
  · rintro (hmk | hne)
    · exact absurd hmk (hnew _).1
    · exact absurd hsx hne
  · exact fun hmk => absurd hmk (hnew _).2
  · rintro c - (hc | ⟨hc, -⟩)
    · exact absurd hc (hnew c).1
    · exact absurd hc (hnew c).2
  · intro hne c hc
    rcases hren with hidle | ⟨hfile, hlink⟩
    · exact absurd hidle hne
    · rcases mem_links.mp hc with ⟨hneeds, -⟩ | ⟨hneeds, -⟩
      · exact absurd hneeds hfile
      · exact absurd hneeds hlink
  · intro hwnd c hc
    rcases hren with hidle | ⟨hfile, hlink⟩
    · simp [hidle] at hwnd
    · rcases mem_linkEnds.mp hc with ⟨hneeds, -⟩ | ⟨hneeds, -⟩
      · exact absurd hneeds hfile
      · exact absurd hneeds hlink

theorem OfPlan.start (l : RenameLocal) (bricks : Subvol → Brick) :
    OfPlan l (dhtRename l bricks) := by
  have hnone : ∀ callCnt, OfPlan l (renameStart bricks callCnt) := fun callCnt c hc => absurd rfl hc
  rcases dhtRename_cases l bricks with ⟨-, -, heq⟩ | ⟨hlink, heq⟩
  · rw [heq]
    exact (hnone 0).wind (renameCall_mem_plan l)
  · rw [heq]
    refine (hnone _).foldl_wind ?_
    exact fun c hc => mem_plan_of_mem_firstCalls hlink hc

theorem Safe.start (h : Placed l bricks ino) : Safe l ino (dhtRename l bricks) := by
  refine ⟨OfPlan.start l bricks, ?_, .inl ?_⟩
  · rcases dhtRename_cases l bricks with ⟨-, -, heq⟩ | ⟨hlink, heq⟩
    · rw [heq]
      intro hidle
      simp [dhtDoRename_self] at hidle
    · intro _
      rw [heq, foldl_wind, pendingLinks, countP_eq_length.mpr]
      · rw [linkEnds, linkCalls, if_pos hlink]
        split_ifs <;> rfl
      · intro c hc
        rcases mem_linkEnds.mp hc with ⟨hneeds, rfl⟩ | ⟨-, rfl⟩
        · simp [mem_firstCalls, hneeds]
        · simp [mem_firstCalls]
  · rcases dhtRename_cases l bricks with ⟨hfile, hlink, heq⟩ | ⟨hlink, heq⟩
    · have hoth : ∀ c, c ≠ renameCall l → (dhtRename l bricks).calls c = .idle := by
        intro c hne
        rw [heq]
        exact dhtDoRename_of_ne hne
      refine .start h (by rw [heq]; rfl) ?_ (hoth _ (by simp [renameCall])) ?_ (.inr ⟨hfile, hlink⟩)
      · intro c
        by_cases hc : c = renameCall l
        · rw [hc, heq]
          exact .inr dhtDoRename_self
        · exact .inl (hoth c hc)
      · exact fun c hc => hoth c (unlink_ne_renameCall hc)
    · have hcalls : ∀ c, (dhtRename l bricks).calls c =
          if c ∈ firstCalls l then .wound else .idle := by
        intro c
        rw [heq, foldl_wind]
      have hlat : ∀ c ∈ renameCall l :: unlinkCalls l, (dhtRename l bricks).calls c = .idle := by
        intro c hc
        rw [hcalls, if_neg (not_mem_firstCalls hc)]
      refine .start h (by rw [heq, foldl_wind]) ?_ ?_
        (fun c hc => hlat c (mem_cons_of_mem _ hc)) (.inl (hlat _ mem_cons_self))
      · intro c
        rw [hcalls]
        split_ifs
        · exact .inr rfl
        · exact .inl rfl
      · rw [hcalls, if_neg]
        simp [mem_firstCalls]

theorem Placed.one_name (h : Placed l bricks ino) (hnames : l.loc = l.loc2) :
    some l.srcCached = l.dstCached ∧ OnlyData bricks l.loc l.srcCached ino := by
  refine ⟨?_, h.src.data, ?_⟩
  · cases hdst : l.dstCached with
    | none =>
      have := h.absent hdst l.srcCached
      simp [← hnames, h.src.data] at this
    | some cached =>
      obtain ⟨ino', hfile⟩ := h.dst cached hdst
      rw [← hnames] at hfile
      by_contra hne
      have hcach : l.srcCached ≠ cached := fun heq => hne (congrArg some heq)
      by_cases hhash : l.srcCached = l.dstHashed
      · have := hfile.link (hhash ▸ hcach)
        simp [← hhash, h.src.data] at this
      · have := hfile.elsewhere _ hcach hhash
        simp [h.src.data] at this
  · intro v hv
    by_cases hhash : v = l.srcHashed
    · subst hhash
      exact .inr (h.src.link hv)
    · exact .inl (h.src.elsewhere v hv hhash)

/--
However the calls of a rename are served and fail, its data is on the subvolume of the
source, and a lookup of the source or of the destination finds it there.
-/
theorem dhtRename_keeps_data (l : RenameLocal) (bricks : Subvol → Brick) (ino : Nat)
    (h : Placed l bricks ino)
    (events : List FaultEvent) (s : RenameState)
    (hrun : run (faultStep l) (dhtRename l bricks) events = some s)
    (searchUnhashed : Bool)
    (hsearch : l.loc = l.loc2 → searchUnhashed = true)
    (order : List Subvol)
    (horder : l.srcCached ∈ order) :
    (s.bricks l.srcCached l.loc = some (.data ino) ∧
      dhtLookup searchUnhashed order s.bricks l.srcHashed l.loc = some (l.srcCached, .data ino)) ∨
      (s.bricks l.srcCached l.loc2 = some (.data ino) ∧
        dhtLookup searchUnhashed order s.bricks l.dstHashed l.loc2 =
          some (l.srcCached, .data ino)) := by
  by_cases hnames : l.loc = l.loc2
  · obtain ⟨hsame, honly⟩ := h.one_name hnames
    have hst : Kept l ino (dhtRename l bricks) := by
      refine ⟨OfPlan.start l bricks, ?_⟩
      rcases dhtRename_cases l bricks with ⟨-, -, heq⟩ | ⟨hlink, -⟩
      · rw [heq]
        exact honly
      · exact absurd hsame hlink.1
    have hkept : Kept l ino s :=
      run_keeps (faultStep l) (fun e _ _ _ => Kept.step hnames hsame) hst hrun
    rw [hsearch hnames]
    exact .inl ⟨hkept.only.data, hkept.only.dhtLookup horder⟩
  · have hsafe : Safe l ino s :=
      run_keeps (faultStep l) (fun e _ _ _ => Safe.step hnames) (Safe.start h) hrun
    rcases hsafe.phase with hunm | hmov
    · exact .inl ⟨hunm.src.data, hunm.src.dhtLookup searchUnhashed order⟩
    · exact .inr ⟨hmov.dst.data, hmov.dst.dhtLookup searchUnhashed order⟩

def ENOSPC : Int := 28

def acrossFails : List FaultEvent :=
  [.event (.serve (.link 1 "a" "b")), .event (.serve (.mknod 2 "a")),
    .event (.reply (.mknod 2 "a")), .event (.serve (.setxattr 2 "a" 1)),
    .event (.reply (.setxattr 2 "a" 1)), .event (.reply (.link 1 "a" "b")),
    .fail (.rename 2 "a" "b") ENOSPC, .event (.reply (.rename 2 "a" "b"))]

theorem dhtRename_keeps_data_across :
    ∃ s, run (faultStep across) (dhtRename across acrossBricks) acrossFails = some s ∧
      s.unwound = [(-1, ENOSPC)] ∧
      ((s.bricks 1 "a" = some (.data 7) ∧
          dhtLookup true [3, 2, 1, 0] s.bricks 0 "a" = some (1, .data 7)) ∨
        (s.bricks 1 "b" = some (.data 7) ∧
          dhtLookup true [3, 2, 1, 0] s.bricks 2 "b" = some (1, .data 7))) := by
  have hunw : (run (faultStep across) (dhtRename across acrossBricks) acrossFails).map
      RenameState.unwound = some [(-1, ENOSPC)] := by decide
  obtain ⟨s, hrun, hs⟩ := Option.map_eq_some_iff.mp hunw
  exact ⟨s, hrun, hs,
    dhtRename_keeps_data across acrossBricks 7 consistent_across.placed acrossFails s hrun true
      (fun _ => rfl) [3, 2, 1, 0] (by simp [across])⟩

end GlusterFS.Dht
