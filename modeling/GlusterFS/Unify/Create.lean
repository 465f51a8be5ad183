import GlusterFS.Lib.FanOut
import Mathlib.Data.List.Perm.Subperm
import Mathlib.Data.List.Permutation

/-!
# Unify: a create that finds the file

`unify_create` creates the file on the namespace first.  If the namespace has it already and the
caller does not insist on a new file, all nodes are asked for it, and it is opened on the two that
have it.

The callback of the opens should bind the descriptor to the storage node, and reads the context
of the descriptor instead of writing it.  The flag for a failed open is cleared by the namespace,
whichever of the opens it was set for.  And a failed open is answered by an `unlink` of the file
on the namespace.  So a create of a file that exists does no harm only when it fails before the
opens, or in both of them (`safe_iff`).
-/

namespace GlusterFS.Unify.Create

open FanOut List

abbrev Node := Nat

def ENOENT : Int := 2

def EIO : Int := 5

def EEXIST : Int := 17

def ENOTCONN : Int := 107

structure Answer where
  opRet : Int
  opErrno : Int
deriving DecidableEq

/-- The local of the frame, the context of the descriptor, and which nodes have the name. -/
structure State where
  callCount : Int
  opRet : Int
  opErrno : Int
  failed : Bool
  list : List Node
  fdCtx : Option Node
  names : Node → Bool
  answers : List Answer

inductive Fan where
  | lookup
  | open

/-- The order of the replies, what fails and with which error, and the choice of the scheduler. -/
structure World where
  order : Fan → List Node → List Node
  order_perm : ∀ fan calls, (order fan calls).Perm calls
  lookup : Node → Option Int
  openErr : Node → Option Int
  create : Node → Option Int
  schedule : Option Node

variable (w : World)

def World.replies (fan : Fan) (calls : List Node) : List (Node × Unit) :=
  (w.order fan calls).map (fun node => (node, ()))

def unwind (st : State) (opRet opErrno : Int) : State :=
  { st with answers := st.answers ++ [⟨opRet, opErrno⟩] }

def setName (st : State) (node : Node) (present : Bool) : State :=
  { st with names := Function.update st.names node present }

/-- The name is removed from a node, and then the result of the local is answered. -/
def unifyCreateUnlink (st : State) (node : Node) : State :=
  unwind (setName st node false) st.opRet st.opErrno

variable (ns : Node)

/--
`unify_create_open_cbk`, the reply of one node.  The context of the descriptor is read here, and
what was read is not used.
-/
def openReturn (st : State) (node : Node) (_ : Unit) : State :=
  match w.openErr node with
  | none =>
    { st with
      opRet := 0,
      failed := if node ≠ ns then st.failed else false,
      callCount := st.callCount - 1 }
  | some err => { st with opErrno := err, failed := true, callCount := st.callCount - 1 }

def openLast (st : State) : State :=
  if st.failed = true ∧ 0 ≤ st.opRet then
    let st := { st with opRet := -1, opErrno := EIO, callCount := 1 }
    match st.fdCtx with
    | some child => unifyCreateUnlink st child
    | none => unifyCreateUnlink st ns
  else
    unwind st st.opRet st.opErrno

def unifyCreateOpenCbk (st : State) (node : Node) (r : Unit) : State :=
  if (openReturn w ns st node r).callCount = 0 then
    openLast ns (openReturn w ns st node r)
  else
    openReturn w ns st node r

def openBoth (st : State) (fileList : List Node) : State :=
  gather (unifyCreateOpenCbk w ns) { st with callCount := 2 } (w.replies .open fileList)

/-- The error of a lookup: a node that does not have the name says so. -/
def lookupErr (st : State) (node : Node) : Option Int :=
  if st.names node then w.lookup node else some ENOENT

def lookupReturn (st : State) (node : Node) (_ : Unit) : State :=
  match lookupErr w st node with
  | some err => { st with opErrno := err, failed := true, callCount := st.callCount - 1 }
  | none => { st with opRet := 0, list := st.list ++ [node], callCount := st.callCount - 1 }

/--
`unify_create_lookup_cbk`, the last reply.  A file on more than two nodes is opened on the
namespace and on the last of the storage nodes.
-/
def lookupLast (st : State) : State :=
  let st := { st with opRet := -1 }
  if st.list.length < 2 then
    unwind st (-1) EIO
  else if st.list.length = 2 then
    openBoth w ns st st.list
  else
    openBoth w ns st [ns, ((st.list.filter (fun node => node ≠ ns)).getLast?).getD ns]

def unifyCreateLookupCbk (st : State) (node : Node) (r : Unit) : State :=
  if (lookupReturn w st node r).callCount = 0 then
    lookupLast w ns (lookupReturn w st node r)
  else
    lookupReturn w st node r

def unifyCreateCbk (st : State) (node : Node) : State :=
  match w.create node with
  | some err => unifyCreateUnlink { st with opRet := -1, opErrno := err } ns
  | none =>
    let st := setName st node true
    unwind { st with opRet := 0, fdCtx := some node } 0 st.opErrno

/-- The reply of the namespace to the create, with its error. -/
def unifyNsCreateCbk (excl : Bool) (st : State) : Option Int → State
  | some err =>
    if err ≠ EEXIST ∨ excl = true then
      unwind st (-1) err
    else
      gather (unifyCreateLookupCbk w ns) { st with callCount := ns + 1, opRet := -1, list := [] }
        (w.replies .lookup (range (ns + 1)))
  | none =>
    let st := { setName st ns true with opRet := -1 }
    match w.schedule with
    | none => unifyCreateUnlink { st with opErrno := ENOTCONN } ns
    | some node => unifyCreateCbk w ns st node

/-- A create with or without `O_EXCL`; the namespace is always asked for a new file. -/
def unifyCreate (excl : Bool) (names : Node → Bool) : State :=
  let st : State :=
    { callCount := 0, opRet := -1, opErrno := ENOENT, failed := false, list := [],
      fdCtx := none, names := names, answers := [] }
  unifyNsCreateCbk w ns excl st (if names ns then some EEXIST else w.create ns)

/-- The node that a `readv` or a `writev` is sent to; without a context they fail. -/
def unifyReadv (fdCtx : Option Node) : Option Node :=
  fdCtx

def unifyWritev (fdCtx : Option Node) : Option Node :=
  fdCtx

def existing (holder : Node) (node : Node) : Bool :=
  decide (node = ns ∨ node = holder)

/--
No node loses the name, and a success means that both opens succeeded and that reads and writes
go to the storage node of the file.
-/
structure Safe (w : World) (ns holder : Node) (st : State) : Prop where
  keeps : ∀ node, existing ns holder node → st.names node
  opened : ∀ answer ∈ st.answers, 0 ≤ answer.opRet → w.openErr ns = none ∧ w.openErr holder = none
  bound : ∀ answer ∈ st.answers, 0 ≤ answer.opRet →
    unifyReadv st.fdCtx = some holder ∧ unifyWritev st.fdCtx = some holder

variable {w ns} {holder : Node} {st : State}

theorem callCount_lookupReturn (st : State) (node : Node) (r : Unit) :
    (lookupReturn w st node r).callCount = st.callCount - 1 := by
  unfold lookupReturn
  split <;> rfl

def foundOn (w : World) (names : Node → Bool) (order : List Node) : List Node :=
  order.filter (fun node => names node && (w.lookup node).isNone)

theorem gather_lookupReturn (order : List Node) (st : State) :
    ∃ st', gather (lookupReturn w) st (order.map (fun node => (node, ()))) = st' ∧
      st'.list = st.list ++ foundOn w st.names order ∧ st'.names = st.names ∧
      st'.fdCtx = st.fdCtx ∧ st'.answers = st.answers := by
  refine ⟨_, rfl, ?_⟩
  induction order generalizing st with
  | nil => simp [foundOn]
  | cons node order ih =>
    obtain ⟨hlist, hnames, hctx, hanss⟩ := ih (lookupReturn w st node ())
    rw [map_cons, gather_cons]
    have hone : (lookupReturn w st node ()).names = st.names ∧
        (lookupReturn w st node ()).fdCtx = st.fdCtx ∧
        (lookupReturn w st node ()).answers = st.answers ∧
        (lookupReturn w st node ()).list = st.list ++ foundOn w st.names [node] := by
      unfold lookupReturn lookupErr foundOn
      cases hname : st.names node <;> cases hlook : w.lookup node <;> simp [hname, hlook]
    obtain ⟨hn, hc, ha, hl⟩ := hone
    refine ⟨?_, hnames.trans hn, hctx.trans hc, hanss.trans ha⟩
    rw [hlist, hn, hl, append_assoc]
    congr 1
    exact (filter_append [node] order).symm

variable {order : List Node}

section

theorem callCount_openReturn (st : State) (node : Node) (r : Unit) :
    (openReturn w ns st node r).callCount = st.callCount - 1 := by
  unfold openReturn
  split <;> rfl

/-- What the two opens leave, whatever they answer. -/
structure Opened (w : World) (ns holder : Node) (st : State) : Prop where
  names_eq : st.names = existing ns holder
  fdCtx_eq : st.fdCtx = none
  answers_eq : st.answers = []

variable (h : Opened w ns holder st)
include h

theorem Opened.safe_unwind {opRet : Int} (opErrno : Int) (hop : ¬ 0 ≤ opRet) :
    Safe w ns holder (unwind st opRet opErrno) := by
  have hanss : ∀ answer ∈ (unwind st opRet opErrno).answers, ¬ 0 ≤ answer.opRet := by
    intro answer hanswer
    rw [unwind, h.answers_eq, nil_append, mem_singleton] at hanswer
    rw [hanswer]
    exact hop
  constructor
  · intro node hnode
    exact h.names_eq ▸ hnode
  · intro answer hanswer hpos
    exact absurd hpos (hanss answer hanswer)
  · intro answer hanswer hpos
    exact absurd hpos (hanss answer hanswer)

theorem Opened.safe_openLast_iff : Safe w ns holder (openLast ns st) ↔ st.opRet < 0 := by
  unfold openLast
  by_cases hop : 0 ≤ st.opRet
  · refine iff_of_false ?_ (by omega)
    intro hsafe
    by_cases hfail : st.failed = true
    · rw [if_pos ⟨hfail, hop⟩] at hsafe
      have hkeeps := hsafe.keeps ns (by simp [existing])
      simp [h.fdCtx_eq, unifyCreateUnlink, unwind, setName] at hkeeps
    · rw [if_neg (fun hc => hfail hc.1)] at hsafe
      have hbound := hsafe.bound ⟨st.opRet, st.opErrno⟩ (by simp [unwind]) hop
      have hctx : st.fdCtx = some holder := hbound.1
      simp [h.fdCtx_eq] at hctx
  · rw [if_neg (fun hc => hop hc.2)]
    refine iff_of_true ?_ (by omega)
    exact h.safe_unwind st.opErrno hop

theorem Opened.gather_openReturn (hop : st.opRet = -1) (hperm : order.Perm [ns, holder]) :
    ∃ st', gather (openReturn w ns) st (order.map (fun node => (node, ()))) = st' ∧
      Opened w ns holder st' ∧
      (st'.opRet < 0 ↔ w.openErr ns ≠ none ∧ w.openErr holder ≠ none) := by
  refine ⟨_, rfl, ?_⟩
  obtain ⟨hnames, hctx, hanss⟩ := h
  rcases perm_pair.mp hperm with rfl | rfl <;>
    cases hns : w.openErr ns <;> cases hholder : w.openErr holder <;>
    refine ⟨⟨?_, ?_, ?_⟩, ?_⟩ <;>
    simp [openReturn, hns, hholder, hnames, hctx, hanss, hop]

theorem Opened.safe_openBoth_iff (hop : st.opRet = -1)
    {fileList : List Node} (hperm : fileList.Perm [ns, holder]) :
    Safe w ns holder (openBoth w ns st fileList) ↔
      w.openErr ns ≠ none ∧ w.openErr holder ≠ none := by
  have horder := (w.order_perm .open fileList).trans hperm
  have hlen : (w.replies .open fileList).length = 2 := by
    rw [World.replies, length_map]
    exact horder.length_eq
  have hlast : openBoth w ns st fileList = openLast ns
      (gather (openReturn w ns) { st with callCount := 2 } (w.replies .open fileList)) := by
    refine gather_last (unifyCreateOpenCbk w ns) (openReturn w ns) (openLast ns) State.callCount
      (fun _ _ _ => rfl) callCount_openReturn ?_ ?_
    · intro hnil
      simp [hnil] at hlen
    · rw [hlen]
      rfl
  have hstart : Opened w ns holder { st with callCount := 2 } :=
    ⟨h.names_eq, h.fdCtx_eq, h.answers_eq⟩
  obtain ⟨st', hst', hopened, hret⟩ := hstart.gather_openReturn hop horder
  rw [hlast, World.replies, hst', hopened.safe_openLast_iff, hret]

end

theorem foundOn_perm (hholder : holder < ns) (horder : order.Perm (range (ns + 1)))
    (hns : w.lookup ns = none) (hlook : w.lookup holder = none) :
    (foundOn w (existing ns holder) order).Perm [ns, holder] := by
  have hnd : order.Nodup := horder.nodup_iff.mpr nodup_range
  have hpair : [ns, holder].Nodup := by
    simp only [nodup_cons, mem_singleton, not_mem_nil, not_false_eq_true, nodup_nil, and_true]
    exact Nat.ne_of_gt hholder
  unfold foundOn
  rw [perm_ext_iff_of_nodup (hnd.filter _) hpair]
  intro node
  rw [mem_filter, horder.mem_iff, mem_range]
  simp only [existing, Bool.and_eq_true, decide_eq_true_eq, mem_cons, not_mem_nil,
    or_false, Option.isNone_iff_eq_none]
  constructor
  · rintro ⟨-, hnode, -⟩
    exact hnode
  · rintro (rfl | rfl)
    · exact ⟨Nat.lt_succ_self _, .inl rfl, hns⟩
    · exact ⟨Nat.lt_succ_of_lt hholder, .inr rfl, hlook⟩

theorem foundOn_length_lt (horder : order.Perm (range (ns + 1)))
    (h : w.lookup ns ≠ none ∨ w.lookup holder ≠ none) :
    (foundOn w (existing ns holder) order).length < 2 := by
  have hnd : (foundOn w (existing ns holder) order).Nodup :=
    (horder.nodup_iff.mpr nodup_range).filter _
  have hmem : ∀ node ∈ foundOn w (existing ns holder) order,
      (node = ns ∨ node = holder) ∧ w.lookup node = none := by
    intro node hnode
    have hp := (mem_filter.mp hnode).2
    simpa [existing] using hp
  obtain ⟨other, hsub⟩ : ∃ other, foundOn w (existing ns holder) order ⊆ [other] := by
    rcases h with hns | hlook
    · refine ⟨holder, ?_⟩
      intro node hnode
      obtain ⟨hnode | hnode, hnone⟩ := hmem node hnode
      · exact absurd (hnode ▸ hnone) hns
      · rw [hnode]
        exact mem_cons_self
    · refine ⟨ns, ?_⟩
      intro node hnode
      obtain ⟨hnode | hnode, hnone⟩ := hmem node hnode
      · rw [hnode]
        exact mem_cons_self
      · exact absurd (hnode ▸ hnone) hlook
  have hle := (hnd.subperm hsub).length_le
  rw [length_singleton] at hle
  omega

/--
A create without `O_EXCL` of a file on the namespace and on one storage node is safe exactly when
one of the lookups there fails or both of the opens fail.
-/
theorem safe_iff (w : World) (ns holder : Node) (hholder : holder < ns) :
    Safe w ns holder (unifyCreate w ns false (existing ns holder)) ↔
      (w.lookup ns ≠ none ∨ w.lookup holder ≠ none) ∨
        (w.openErr ns ≠ none ∧ w.openErr holder ≠ none) := by
  have horder := w.order_perm .lookup (range (ns + 1))
  obtain ⟨st₀, hst₀⟩ : ∃ st₀ : State, st₀ =
      { callCount := ns + 1, opRet := -1, opErrno := ENOENT, failed := false, list := [],
        fdCtx := none, names := existing ns holder, answers := [] } := ⟨_, rfl⟩
  have hlen : (w.replies .lookup (range (ns + 1))).length = ns + 1 := by
    rw [World.replies, length_map, horder.length_eq, length_range]
  have hstart : unifyCreate w ns false (existing ns holder) =
      lookupLast w ns (gather (lookupReturn w) st₀ (w.replies .lookup (range (ns + 1)))) := by
    have hcre : unifyCreate w ns false (existing ns holder) =
        gather (unifyCreateLookupCbk w ns) st₀ (w.replies .lookup (range (ns + 1))) := by
      rw [hst₀]
      simp [unifyCreate, unifyNsCreateCbk, existing]
    rw [hcre]
    refine gather_last (unifyCreateLookupCbk w ns) (lookupReturn w) (lookupLast w ns)
      State.callCount (fun _ _ _ => rfl) callCount_lookupReturn ?_ ?_
    · intro hnil
      simp [hnil] at hlen
    · rw [hlen, hst₀]
      rfl
  obtain ⟨st, hst, hlist, hnames, hctx, hanss⟩ :=
    gather_lookupReturn (w := w) (w.order .lookup (range (ns + 1))) st₀
  rw [hstart, World.replies, hst]
  rw [hst₀] at hlist hnames hctx hanss
  rw [nil_append] at hlist
  by_cases hfnd : w.lookup ns ≠ none ∨ w.lookup holder ≠ none
  · have hsho := foundOn_length_lt horder hfnd
    rw [← hlist] at hsho
    refine iff_of_true ?_ (.inl hfnd)
    unfold lookupLast
    rw [if_pos hsho]
    have hop : Opened w ns holder { st with opRet := -1 } := ⟨hnames, hctx, hanss⟩
    exact hop.safe_unwind EIO (by decide)
  · rw [or_iff_right hfnd]
    rw [not_or, not_not, not_not] at hfnd
    have hperm := foundOn_perm hholder horder hfnd.1 hfnd.2
    rw [← hlist] at hperm
    have htwo : st.list.length = 2 := hperm.length_eq
    unfold lookupLast
    dsimp only
    rw [if_neg (by omega), if_pos htwo]
    have hop : Opened w ns holder { st with opRet := -1 } := ⟨hnames, hctx, hanss⟩
    exact hop.safe_openBoth_iff rfl hperm

def opensFail (openErr : Node → Option Int) : World where
  order _ calls := calls
  order_perm _ calls := List.Perm.refl calls
  lookup _ := none
  openErr := openErr
  create _ := none
  schedule := none

theorem safe_bothFail :
    Safe (opensFail (fun _ => some EIO)) 2 0
      (unifyCreate (opensFail (fun _ => some EIO)) 2 false (existing 2 0)) :=
  (safe_iff (opensFail (fun _ => some EIO)) 2 0 (by decide)).mpr (.inr ⟨by decide, by decide⟩)

/--
Two storage nodes, with the file on the first.  When both opens succeed, the descriptor has no
context.  When that on the namespace fails, the namespace loses the name.  When that on the
storage node fails first, the create succeeds.
-/
theorem not_safe_existing :
    ((unifyCreate (opensFail (fun _ => none)) 2 false (existing 2 0)).answers = [⟨0, ENOENT⟩] ∧
      unifyReadv (unifyCreate (opensFail (fun _ => none)) 2 false (existing 2 0)).fdCtx = none) ∧
    (unifyCreate (opensFail (fun node => if node = 2 then some EIO else none)) 2 false
      (existing 2 0)).names 2 = false ∧
    (unifyCreate (opensFail (fun node => if node = 0 then some EIO else none)) 2 false
      (existing 2 0)).answers = [⟨0, EIO⟩] := by
  decide +kernel

end GlusterFS.Unify.Create
