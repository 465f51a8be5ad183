import GlusterFS.Lib.Run
import GlusterFS.Lib.Iovec
import Mathlib.Data.List.Nodup

/-!
# The requests of a client connection

A request that was handed to the transport leaves a saved frame behind, in the list of its kind.
The frame is taken out again by a reply with its call number, or by the clean-up of the
connection, and a callback is called with it.  A request that could not be submitted is called
back at once.

The reply chooses more than the call number: the kind and the operation whose callback is called
are read from its header, and are not compared with those of the saved frame.  So every request
is completed once and by its own callback exactly as long as each header that finds a frame
names the operation of that frame (`Expected`).
-/

namespace GlusterFS.Client

open Run List Function Option
open Iovec

/-- File operations, management operations and releases; each kind has its own list and table. -/
inductive Kind where
  | fop
  | mop
  | cbk
deriving DecidableEq

def Kind.maxValue : Kind → Nat
  | .fop => 42
  | .mop => 6
  | .cbk => 3

/-- `GF_OP_TYPE_FOP_REQUEST`, `GF_OP_TYPE_MOP_REQUEST` and `GF_OP_TYPE_CBK_REQUEST`. -/
def Kind.request : Kind → Int
  | .fop => 1
  | .mop => 2
  | .cbk => 3

def Kind.reply : Kind → Int
  | .fop => 4
  | .mop => 5
  | .cbk => 6

def gfMopSetvolume : Int := 0

structure SavedFrame where
  frame : Nat
  op : Int
  type : Int
  callid : UInt64

/-- A frame with an operation: that of its request, or that whose callback is called with it. -/
structure Call where
  frame : Nat
  kind : Kind
  op : Int
deriving DecidableEq

/--
A connection, with a record of the requests and of the callbacks that were called.  The frames
are numbered in the order of the requests.
-/
structure State where
  callid : UInt64
  saved : Kind → List SavedFrame
  sent : List Call
  called : List Call

def savedFramesNew : Kind → List SavedFrame :=
  fun _ => []

def State.init : State :=
  { callid := 0, saved := savedFramesNew, sent := [], called := [] }

def getHeadFrameForType (type : Int) : Option Kind :=
  if type = Kind.fop.request ∨ type = Kind.fop.reply then
    some .fop
  else if type = Kind.mop.request ∨ type = Kind.mop.reply then
    some .mop
  else if type = Kind.cbk.request ∨ type = Kind.cbk.reply then
    some .cbk
  else
    none

def State.setSaved (s : State) (kind : Kind) (frames : List SavedFrame) : State :=
  { s with saved := update s.saved kind frames }

/-- A type without a list gives a null pointer, and the list is written through it. -/
def savedFramesPut (s : State) (frame : Nat) (op type : Int) (callid : UInt64) : Option State :=
  match getHeadFrameForType type with
  | none => none
  | some kind => some (s.setSaved kind (⟨frame, op, type, callid⟩ :: s.saved kind))

/-- The first frame of a list with a call number, and the list without it. -/
def savedFramesGet (callid : UInt64) :
    List SavedFrame → Option (SavedFrame × List SavedFrame)
  | [] => none
  | tmp :: rest =>
    if tmp.callid = callid then
      some (tmp, rest)
    else
      (savedFramesGet callid rest).map (fun found => (found.1, tmp :: found.2))

/--
`gf_fops[op]`, `gf_mops[op]` or `gf_cbks[op]` is called with the frame.  The tables have an entry
for each operation below the maximum, and nothing is known of a call past their end.
-/
def callBack (s : State) (kind : Kind) (op : Int) (frame : Nat) : Option State :=
  if 0 ≤ op ∧ op < kind.maxValue then
    some { s with called := s.called ++ [⟨frame, kind, op⟩] }
  else
    none

def savedFramesUnwind (kind : Kind) :
    State → List SavedFrame → Option State
  | s, [] => some s
  | s, trav :: rest =>
    (callBack s kind trav.op trav.frame).bind (fun s' => savedFramesUnwind kind s' rest)

def savedFramesDestroy (s : State) (frames : Kind → List SavedFrame) : Option State :=
  (savedFramesUnwind .fop s (frames .fop)).bind fun s =>
    (savedFramesUnwind .mop s (frames .mop)).bind fun s =>
      savedFramesUnwind .cbk s (frames .cbk)

def protocolClientCleanup (s : State) : Option State :=
  savedFramesDestroy { s with saved := savedFramesNew } s.saved

/--
A request with a frame.  Whether the connection is up and what the transport answers when the
request is submitted is up to the world.
-/
def protocolClientXfer (s : State) (kind : Kind) (op : Fin kind.maxValue)
    (connected : Bool) (submitted : Int) : Option State :=
  let frame := s.sent.length
  let callid := s.callid + 1
  let s := { s with callid := callid, sent := s.sent ++ [⟨frame, kind, op⟩] }
  let ret :=
    if connected ∨ (kind = .mop ∧ (op : Int) = gfMopSetvolume) then submitted else -1
  if 0 ≤ ret then
    savedFramesPut s frame op (int8 kind.request) callid
  else
    callBack s kind op frame

def replyKind (type : Int) : Option Kind :=
  if type = Kind.fop.reply then
    some .fop
  else if type = Kind.mop.reply then
    some .mop
  else if type = Kind.cbk.reply then
    some .cbk
  else
    none

/-- The frame was taken out before; it is dropped where no callback is called. -/
def dispatch (s : State) (frame : Nat) (type op : Int) : Option State :=
  match replyKind type with
  | none => some s
  | some kind =>
    if op > kind.maxValue ∨ op < 0 then
      some s
    else
      callBack s kind op frame

/-- A header from the peer.  The list is looked for with the type cut to an `int8_t`. -/
def protocolClientInterpret (s : State) (type op : Int) (callid : UInt64) : Option State :=
  match getHeadFrameForType (int8 type) with
  | none => none
  | some kind =>
    match savedFramesGet callid (s.saved kind) with
    | none => some s
    | some (saved, rest) => dispatch (s.setSaved kind rest) saved.frame type op

inductive Event where
  | xfer (kind : Kind) (op : Fin kind.maxValue) (connected : Bool) (submitted : Int)
  | interpret (type op : Int) (callid : UInt64)
  | cleanup

def step (s : State) : Event → Option State
  | .xfer kind op connected submitted => protocolClientXfer s kind op connected submitted
  | .interpret type op callid => protocolClientInterpret s type op callid
  | .cleanup => protocolClientCleanup s

/-- No frame is called back twice, and each only by the callback of its operation. -/
structure CalledRight (s : State) : Prop where
  once : (s.called.map Call.frame).Nodup
  own : ∀ call ∈ s.called, call ∈ s.sent

def AllCalled (s : State) : Prop :=
  ∀ call ∈ s.sent, call ∈ s.called
deriving Decidable

instance (s : State) : Decidable (CalledRight s) :=
  decidable_of_iff ((s.called.map Call.frame).Nodup ∧ ∀ call ∈ s.called, call ∈ s.sent)
    ⟨fun h => ⟨h.1, h.2⟩, fun h => ⟨h.once, h.own⟩⟩

/-- A frame that is found for the call number of a header was sent with its operation. -/
def RepliesTo (s : State) (type op : Int) (callid : UInt64) : Option Kind → Prop
  | none => False
  | some kind => ∀ found ∈ savedFramesGet callid (s.saved kind), type = kind.reply ∧ op = found.1.op

/--
A header has the type of a list, and if there is a frame in the list for its call number then it
is a reply to the operation of the frame.
-/
def Expected (s : State) : Event → Prop
  | .interpret type op callid => RepliesTo s type op callid (getHeadFrameForType (int8 type))
  | _ => True

variable {kind : Kind} {type op : Int} {frames rest : List SavedFrame} {callid : UInt64}
  {saved : SavedFrame} {s s' : State}

theorem op_inTable (op : Fin kind.maxValue) : 0 ≤ (op : Int) ∧ (op : Int) < kind.maxValue :=
  ⟨Int.natCast_nonneg _, Int.ofNat_lt.mpr op.isLt⟩

theorem getHeadFrameForType_request (kind : Kind) :
    getHeadFrameForType (int8 kind.request) = some kind := by
  cases kind <;> decide

theorem replyKind_reply (kind : Kind) : replyKind kind.reply = some kind := by
  cases kind <;> decide

theorem reply_of_replyKind (h : replyKind type = some kind) : type = kind.reply := by
  unfold replyKind at h
  split_ifs at h with hf hm hc <;> cases h
  · exact hf
  · exact hm
  · exact hc

theorem getHeadFrameForType_reply (kind : Kind) :
    getHeadFrameForType (int8 kind.reply) = some kind := by
  cases kind <;> decide

def waiting (kind : Kind) (frames : List SavedFrame) : List Call :=
  frames.map (fun saved => ⟨saved.frame, kind, saved.op⟩)

def State.pending (s : State) : List Call :=
  waiting .fop (s.saved .fop) ++ waiting .mop (s.saved .mop) ++ waiting .cbk (s.saved .cbk)

theorem savedFramesGet_perm (h : savedFramesGet callid frames = some (saved, rest)) :
    frames.Perm (saved :: rest) := by
  induction frames generalizing rest with
  | nil => cases h
  | cons tmp frames ih =>
    rw [savedFramesGet] at h
    split_ifs at h with hcallid
    · cases h
      exact List.Perm.refl _
    · rw [map_eq_some_iff] at h
      obtain ⟨⟨found, left⟩, hfnd, heq⟩ := h
      cases heq
      exact ((ih hfnd).cons tmp).trans (List.Perm.swap found tmp left)

theorem pending_perm (h : (s.saved kind).Perm (saved :: rest)) :
    s.pending.Perm (⟨saved.frame, kind, saved.op⟩ :: (s.setSaved kind rest).pending) := by
  have hwt : (waiting kind (s.saved kind)).Perm
        (⟨saved.frame, kind, saved.op⟩ :: waiting kind rest) :=
    h.map _
  unfold State.pending State.setSaved
  cases kind with
  | fop => simpa using (hwt.append_right _)
  | mop =>
    simp only [update_self, ne_eq, reduceCtorEq, not_false_eq_true, update_of_ne, append_assoc]
    refine ((hwt.append_right _).append_left _).trans ?_
    exact perm_middle
  | cbk =>
    exact (hwt.append_left _).trans perm_middle

theorem pending_put (s : State) (kind : Kind) (saved : SavedFrame) :
    (s.setSaved kind (saved :: s.saved kind)).pending.Perm
      (⟨saved.frame, kind, saved.op⟩ :: s.pending) := by
  have hsaved :
      ((s.setSaved kind (saved :: s.saved kind)).saved kind).Perm (saved :: s.saved kind) := by
    simp [State.setSaved]
  have hback : (s.setSaved kind (saved :: s.saved kind)).setSaved kind (s.saved kind) = s := by
    simp [State.setSaved]
  have hpend := pending_perm hsaved
  rwa [hback] at hpend

/-- Each request was called back or waits, once; the requests have operations of the tables. -/
structure Inv (s : State) : Prop where
  account : (s.called ++ s.pending).Perm s.sent
  numbered : s.sent.map Call.frame = range s.sent.length
  inTable : ∀ call ∈ s.sent, 0 ≤ call.op ∧ call.op < call.kind.maxValue

theorem Inv.init :
    Inv State.init where
  account := List.Perm.refl _
  numbered := rfl
  inTable := by
    intro call hcall
    cases hcall

theorem Inv.nodup_frames (h : Inv s) : (s.sent.map Call.frame).Nodup := by
  rw [h.numbered]
  exact nodup_range

theorem Inv.eq_of_frame (h : Inv s) {call call' : Call} (hcall : call ∈ s.sent)
    (hcall' : call' ∈ s.sent) (heq : call.frame = call'.frame) : call = call' :=
  inj_on_of_nodup_map h.nodup_frames hcall hcall' heq

theorem Inv.calledRight (h : Inv s) :
    CalledRight s where
  once := by
    have hall : ((s.called ++ s.pending).map Call.frame).Nodup :=
      (h.account.map Call.frame).nodup_iff.mpr h.nodup_frames
    rw [map_append] at hall
    exact hall.of_append_left
  own := by
    intro call hcall
    exact h.account.subset (mem_append_left _ hcall)

theorem Inv.request (h : Inv s) {op : Fin kind.maxValue}
    (hsent : s'.sent = s.sent ++ [⟨s.sent.length, kind, op⟩])
    (hac : (s'.called ++ s'.pending).Perm (⟨s.sent.length, kind, op⟩ :: (s.called ++ s.pending))) :
    Inv s' where
  account := by
    rw [hsent]
    refine hac.trans ((h.account.cons _).trans ?_)
    exact (perm_append_singleton _ _).symm
  numbered := by
    rw [hsent, map_append, h.numbered, length_append, length_singleton, range_succ]
    rfl
  inTable := by
    rw [hsent]
    exact forall_mem_append.mpr ⟨h.inTable, forall_mem_singleton.mpr (op_inTable op)⟩

theorem Inv.complete (h : Inv s) (hsent : s'.sent = s.sent)
    (hac : (s'.called ++ s'.pending).Perm (s.called ++ s.pending)) :
    Inv s' where
  account := by
    rw [hsent]
    exact hac.trans h.account
  numbered := by
    rw [hsent]
    exact h.numbered
  inTable := by
    rw [hsent]
    exact h.inTable

theorem callBack_eq (frame : Nat) (h : 0 ≤ op ∧ op < kind.maxValue) :
    callBack s kind op frame = some { s with called := s.called ++ [⟨frame, kind, op⟩] } :=
  if_pos h

theorem savedFramesUnwind_eq (h : ∀ saved ∈ frames, 0 ≤ saved.op ∧ saved.op < kind.maxValue)
    (s : State) :
    savedFramesUnwind kind s frames =
      some { s with called := s.called ++ waiting kind frames } := by
  induction frames generalizing s with
  | nil => simp [savedFramesUnwind, waiting]
  | cons trav rest ih =>
    obtain ⟨htrav, hrest⟩ := forall_mem_cons.mp h
    rw [savedFramesUnwind, callBack_eq trav.frame htrav, bind_some, ih hrest]
    simp [waiting]

theorem Inv.saved_inTable (h : Inv s) (hsaved : saved ∈ s.saved kind) :
    0 ≤ saved.op ∧ saved.op < kind.maxValue := by
  have hwt : (⟨saved.frame, kind, saved.op⟩ : Call) ∈ waiting kind (s.saved kind) :=
    mem_map_of_mem hsaved
  have hpend : (⟨saved.frame, kind, saved.op⟩ : Call) ∈ s.pending := by
    cases kind with
    | fop => exact mem_append_left _ (mem_append_left _ hwt)
    | mop => exact mem_append_left _ (mem_append_right _ hwt)
    | cbk => exact mem_append_right _ hwt
  exact h.inTable _ (h.account.subset (mem_append_right _ hpend))

theorem Inv.cleanup_eq (h : Inv s) :
    protocolClientCleanup s =
      some { s with saved := savedFramesNew, called := s.called ++ s.pending } := by
  have hunw : ∀ kind s', savedFramesUnwind kind s' (s.saved kind) =
      some { s' with called := s'.called ++ waiting kind (s.saved kind) } :=
    fun kind s' => savedFramesUnwind_eq (fun saved hsaved => h.saved_inTable hsaved) s'
  simp [protocolClientCleanup, savedFramesDestroy, hunw, State.pending]

theorem Inv.cleanup (h : Inv s) :
    ∃ s', protocolClientCleanup s = some s' ∧ Inv s' ∧ AllCalled s' := by
  refine ⟨_, h.cleanup_eq, h.complete rfl ?_, ?_⟩
  · simp [State.pending, savedFramesNew, waiting]
  · intro call hcall
    exact h.account.symm.subset hcall

theorem exists_xfer (s : State) (kind : Kind) (op : Fin kind.maxValue) (connected : Bool)
    (submitted : Int) :
    ∃ s', protocolClientXfer s kind op connected submitted = some s' ∧
      s'.sent = s.sent ++ [⟨s.sent.length, kind, op⟩] ∧
      (s'.called ++ s'.pending).Perm (⟨s.sent.length, kind, op⟩ :: (s.called ++ s.pending)) := by
  simp only [protocolClientXfer]
  generalize (if connected ∨ (kind = .mop ∧ (op : Int) = gfMopSetvolume) then submitted
    else -1) = ret
  by_cases hret : 0 ≤ ret
  · rw [if_pos hret]
    simp only [savedFramesPut, getHeadFrameForType_request]
    refine ⟨_, rfl, rfl, ?_⟩
    have hput := pending_put s kind ⟨s.sent.length, op, int8 kind.request, s.callid + 1⟩
    exact (hput.append_left _).trans perm_middle
  · rw [if_neg hret]
    refine ⟨_, callBack_eq _ (op_inTable op), rfl, ?_⟩
    rw [append_assoc]
    exact perm_middle

theorem Inv.answer (h : Inv s) (hperm : (s.saved kind).Perm (saved :: rest)) :
    ∃ s', dispatch (s.setSaved kind rest) saved.frame kind.reply saved.op = some s' ∧ Inv s' := by
  have hop : 0 ≤ saved.op ∧ saved.op < kind.maxValue :=
    h.saved_inTable (hperm.symm.subset mem_cons_self)
  have hvalid : ¬ (saved.op > kind.maxValue ∨ saved.op < 0) := by omega
  unfold dispatch
  rw [replyKind_reply]
  simp only [if_neg hvalid]
  refine ⟨_, callBack_eq saved.frame hop, h.complete rfl ?_⟩
  have hpend := pending_perm hperm
  calc
    (s.called ++ [⟨saved.frame, kind, saved.op⟩]) ++ (s.setSaved kind rest).pending
      = s.called ++ (⟨saved.frame, kind, saved.op⟩ :: (s.setSaved kind rest).pending) := by
        simp
    _ |>.Perm (s.called ++ s.pending) := hpend.symm.append_left _

theorem interpret_missing (hhead : getHeadFrameForType (int8 type) = some kind)
    (hget : savedFramesGet callid (s.saved kind) = none) :
    protocolClientInterpret s type op callid = some s := by
  simp only [protocolClientInterpret, hhead, hget]

theorem interpret_found (hhead : getHeadFrameForType (int8 type) = some kind)
    (hget : savedFramesGet callid (s.saved kind) = some (saved, rest)) :
    protocolClientInterpret s type op callid =
      dispatch (s.setSaved kind rest) saved.frame type op := by
  simp only [protocolClientInterpret, hhead, hget]

theorem Inv.interpret (h : Inv s) (hexp : Expected s (.interpret type op callid)) :
    ∃ s', protocolClientInterpret s type op callid = some s' ∧ Inv s' := by
  change RepliesTo s type op callid (getHeadFrameForType (int8 type)) at hexp
  cases hhead : getHeadFrameForType (int8 type) with
  | none =>
    rw [hhead] at hexp
    exact hexp.elim
  | some kind =>
    rw [hhead] at hexp
    cases hget : savedFramesGet callid (s.saved kind) with
    | none => exact ⟨s, interpret_missing hhead hget, h⟩
    | some found =>
      obtain ⟨htype, hop⟩ := hexp found hget
      rw [interpret_found hhead hget, htype, hop]
      exact h.answer (savedFramesGet_perm hget)

theorem Inv.step {e : Event} (h : Inv s) (hexp : Expected s e) :
    ∃ s', step s e = some s' ∧ Inv s' := by
  cases e with
  | xfer kind op connected submitted =>
    obtain ⟨s', hs', hsent, hac⟩ := exists_xfer s kind op connected submitted
    exact ⟨s', hs', h.request hsent hac⟩
  | interpret type op callid => exact h.interpret hexp
  | cleanup =>
    obtain ⟨s', hs', hinv, -⟩ := h.cleanup
    exact ⟨s', hs', hinv⟩

theorem dispatch_cases {frame : Nat} (h : dispatch s frame type op = some s') :
    s' = s ∨ ∃ kind : Kind, type = kind.reply ∧
        s' = { s with called := s.called ++ [⟨frame, kind, op⟩] } := by
  unfold dispatch at h
  cases hkind : replyKind type with
  | none =>
    rw [hkind] at h
    cases h
    exact .inl rfl
  | some kind =>
    simp only [hkind, callBack] at h
    split_ifs at h with hop htable
    · cases h
      exact .inl rfl
    · cases h
      exact .inr ⟨kind, reply_of_replyKind hkind, rfl⟩

theorem kind_of_reply {kind' : Kind} (hhead : getHeadFrameForType (int8 type) = some kind)
    (htype : type = kind'.reply) : kind' = kind := by
  rw [htype, getHeadFrameForType_reply] at hhead
  exact some.inj hhead

theorem Inv.not_mem_rest (h : Inv s) (hperm : (s.saved kind).Perm (saved :: rest)) :
    (⟨saved.frame, kind, saved.op⟩ : Call) ∈ s.sent ∧ (⟨saved.frame, kind, saved.op⟩ : Call) ∉
        s.called ++ (s.setSaved kind rest).pending := by
  have hall : s.sent.Perm (⟨saved.frame, kind, saved.op⟩ ::
        (s.called ++ (s.setSaved kind rest).pending)) :=
    h.account.symm.trans (((pending_perm hperm).append_left _).trans perm_middle)
  have hnd : s.sent.Nodup := h.nodup_frames.of_map _
  refine ⟨hall.symm.subset mem_cons_self, ?_⟩
  exact (nodup_cons.mp (hall.nodup_iff.mp hnd)).1

theorem savedFramesUnwind_called (h : savedFramesUnwind kind s frames = some s') :
    s'.called = s.called ++ waiting kind frames ∧ s'.sent = s.sent ∧ s'.saved = s.saved := by
  induction frames generalizing s with
  | nil =>
    cases h
    simp [waiting]
  | cons trav rest ih =>
    rw [savedFramesUnwind, bind_eq_some_iff] at h
    obtain ⟨m, hm, hrest⟩ := h
    unfold callBack at hm
    split_ifs at hm with htable
    cases hm
    obtain ⟨hcld, hsame⟩ := ih hrest
    refine ⟨?_, hsame⟩
    rw [hcld]
    simp [waiting]

theorem cleanup_called (h : protocolClientCleanup s = some s') :
    s'.called = s.called ++ s.pending ∧ s'.sent = s.sent ∧ s'.saved = savedFramesNew := by
  unfold protocolClientCleanup savedFramesDestroy at h
  rw [bind_eq_some_iff] at h
  obtain ⟨m, hm, h⟩ := h
  rw [bind_eq_some_iff] at h
  obtain ⟨m', hm', hcbks⟩ := h
  obtain ⟨hcld, hsent, hsvd⟩ := savedFramesUnwind_called hm
  obtain ⟨hcld', hsent', hsvd'⟩ := savedFramesUnwind_called hm'
  obtain ⟨hcld'', hsent'', hsvd''⟩ := savedFramesUnwind_called hcbks
  refine ⟨?_, hsent''.trans (hsent'.trans hsent), hsvd''.trans (hsvd'.trans hsvd)⟩
  rw [hcld'', hcld', hcld]
  simp [State.pending]

theorem Inv.interpret_breaks (h : Inv s) (hexp : ¬ Expected s (.interpret type op callid))
    (hstep : protocolClientInterpret s type op callid = some s') :
    ¬ (CalledRight s' ∧ ∃ s'', protocolClientCleanup s' = some s'' ∧ AllCalled s'') := by
  rintro ⟨hright, s'', hclean, hall⟩
  obtain ⟨hcld, hsent, -⟩ := cleanup_called hclean
  change ¬ RepliesTo s type op callid (getHeadFrameForType (int8 type)) at hexp
  cases hhead : getHeadFrameForType (int8 type) with
  | none => simp [protocolClientInterpret, hhead] at hstep
  | some kind =>
    rw [hhead] at hexp
    simp only [RepliesTo, not_forall] at hexp
    obtain ⟨⟨saved, rest⟩, hget, hoth⟩ := hexp
    rw [interpret_found hhead hget] at hstep
    obtain ⟨hmem, hnot⟩ := h.not_mem_rest (savedFramesGet_perm hget)
    rcases dispatch_cases hstep with rfl | ⟨kind', htype, rfl⟩
    · -- The frame is in no list any more, so the clean-up does not find it.
      have hfnd := hall ⟨saved.frame, kind, saved.op⟩ (hsent ▸ hmem)
      rw [hcld] at hfnd
      exact hnot hfnd
    · have hkind := kind_of_reply hhead htype
      subst hkind
      have hsame := h.eq_of_frame (hright.own ⟨saved.frame, kind', op⟩ (by simp)) hmem rfl
      exact hoth ⟨htype, congrArg Call.op hsame⟩

/--
As long as every header that finds a frame replies to its operation, and only then, each frame is
called back at most once and by the callback of its operation, and a clean-up leaves every request
called back.
-/
theorem completed_iff_expected (es : List Event) :
    (∀ before, before <+: es → ∃ s, run step State.init before = some s ∧ CalledRight s ∧
        ∃ s', step s .cleanup = some s' ∧ CalledRight s' ∧ AllCalled s') ↔
      AllSteps step Expected State.init es := by
  refine @always_iff_allSteps _ _ step State.init Expected (fun _ s => CalledRight s ∧
      ∃ s', step s .cleanup = some s' ∧ CalledRight s' ∧ AllCalled s')
    (fun _ s => Inv s) Inv.init ?_ ?_ ?_ es
  · intro _ s e h hexp
    exact h.step hexp
  · intro _ s h
    obtain ⟨s', hs', hinv, hall⟩ := h.cleanup
    exact ⟨h.calledRight, s', hs', hinv.calledRight, hall⟩
  · intro _ s e s' h hexp hstep hP
    cases e with
    | xfer kind op connected submitted => exact hexp trivial
    | interpret type op callid =>
      obtain ⟨hright, s'', hclean, -, hall⟩ := hP
      exact h.interpret_breaks hexp hstep ⟨hright, s'', hclean, hall⟩
    | cleanup => exact hexp trivial

/--
The reply to a `stat` request says that it is the reply to an `open`, and the callback of `open`
is called with the frame.  A reply with the type of a request takes the frame out, and the
clean-up does not find it any more.
-/
theorem not_completed_otherOperation :
    (∃ s, run step State.init [.xfer .fop ⟨0, by decide⟩ true 0, .interpret 4 12 1] = some s ∧
      ¬ CalledRight s) ∧
    ∃ s, run step State.init
        [.xfer .fop ⟨0, by decide⟩ true 0, .interpret 1 0 1, .cleanup] = some s ∧
      ¬ AllCalled s := by
  refine ⟨⟨_, rfl, ?_⟩, ⟨_, rfl, ?_⟩⟩ <;> decide +kernel

/-- The frames that were called back or wait are those of different requests. -/
def Accounted (s : State) : Prop :=
  ((s.called ++ s.pending).map Call.frame).Subperm (range s.sent.length)

theorem Accounted.interpret (h : Accounted s)
    (hstep : protocolClientInterpret s type op callid = some s') : Accounted s' := by
  cases hhead : getHeadFrameForType (int8 type) with
  | none => simp [protocolClientInterpret, hhead] at hstep
  | some kind =>
    cases hget : savedFramesGet callid (s.saved kind) with
    | none =>
      rw [interpret_missing hhead hget] at hstep
      cases hstep
      exact h
    | some found =>
      rw [interpret_found hhead hget] at hstep
      have hpend := (((pending_perm (savedFramesGet_perm hget)).append_left s.called).trans
        perm_middle).map Call.frame
      have hheld := hpend.symm.subperm.trans h
      rcases dispatch_cases hstep with rfl | ⟨kind', -, rfl⟩
      · exact (sublist_cons_self _ _).subperm.trans hheld
      · refine (List.Perm.subperm ?_).trans hheld
        rw [append_assoc]
        exact perm_middle.map Call.frame

theorem Accounted.step {e : Event} (h : Accounted s) (hstep : step s e = some s') :
    Accounted s' := by
  cases e with
  | xfer kind op connected submitted =>
    obtain ⟨m, hm, hsent, hac⟩ := exists_xfer s kind op connected submitted
    cases hm.symm.trans hstep
    rw [Accounted, hsent, length_append, length_singleton, range_succ]
    refine (hac.map Call.frame).subperm.trans (((subperm_cons _).mpr h).trans ?_)
    exact (perm_append_singleton _ _).symm.subperm
  | interpret type op callid => exact h.interpret hstep
  | cleanup =>
    obtain ⟨hcld, hsent, hsvd⟩ := cleanup_called hstep
    have hpend : s'.pending = [] := by simp [State.pending, hsvd, savedFramesNew, waiting]
    rw [Accounted, hcld, hpend, append_nil, hsent]
    exact h

/-- Whatever headers the peer sends, no frame is called back twice, and only that of a request. -/
theorem called_at_most_once (es : List Event) (s : State)
    (hrun : run step State.init es = some s) :
    (s.called.map Call.frame).Nodup ∧ ∀ call ∈ s.called, call.frame < s.sent.length := by
  have h : Accounted s := run_keeps step (fun _ _ _ _ => Accounted.step) (.refl _) hrun
  obtain ⟨frames, hperm, hsub⟩ :=
    ((sublist_append_left s.called s.pending).map Call.frame).subperm.trans h
  refine ⟨hperm.nodup_iff.mp (nodup_range.sublist hsub), ?_⟩
  intro call hcall
  exact mem_range.mp (hsub.subset (hperm.symm.subset (mem_map_of_mem hcall)))

def answeredTwice : List Event :=
  [.xfer .fop ⟨0, by decide⟩ true 0, .interpret 4 12 1, .interpret 4 0 1, .cleanup]

/-- The callback of `open` is called with the frame of a `stat`, and no other. -/
theorem called_at_most_once_answeredTwice :
    ∃ s, run step State.init answeredTwice = some s ∧
      s.called = [⟨0, .fop, 12⟩] ∧ (s.called.map Call.frame).Nodup := by
  obtain ⟨s, hrun, hcld⟩ : ∃ s, run step State.init answeredTwice = some s ∧
      s.called = [⟨0, .fop, 12⟩] := ⟨_, rfl, rfl⟩
  exact ⟨s, hrun, hcld, (called_at_most_once answeredTwice s hrun).1⟩

end GlusterFS.Client
