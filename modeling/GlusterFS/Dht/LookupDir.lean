import GlusterFS.Lib.FanOut
import GlusterFS.Dht.Lookup
import GlusterFS.Dht.SelfhealVirgin

/-!
# DHT: the lookup of a directory

A directory is on all subvolumes.  When a fresh `dht_lookup` finds it on the hashed subvolume, it
asks all of them, puts the layout together from the attributes, and creates the directory where
it is missing.

When the hashed subvolume does not have the directory, the name is searched for everywhere as if
it were a file.  `dht_lookup_everywhere_cbk` does not use that it found a directory, and makes a
linkfile on the hashed subvolume.  And a directory that is on all subvolumes, with a hole between
the ranges of their attributes, is not repaired, and the lookup fails.  In all other cases the
lookup finds the directory (`findsDir_iff`).

The calls of a fan-out go to different subvolumes, and so a run is given by the order in which
the replies of each fan-out arrive.
-/

namespace GlusterFS.Dht.LookupDir

open FanOut List Function LookupDir
open Lookup (S_ISVTX)

inductive FileType where
  | dir
  | reg
deriving DecidableEq

/-- A name on a subvolume: a directory with its layout attribute, or a file with its link. -/
inductive Node where
  | dir (perm : Nat) (disk : Option DiskLayout)
  | file (perm : Nat) (linkto : Option Subvol)
deriving DecidableEq

def Node.perm : Node → Nat
  | .dir perm _ => perm
  | .file perm _ => perm

def Node.type : Node → FileType
  | .dir _ _ => .dir
  | .file _ _ => .reg

/-- The macro looks at the permissions only, and so a directory can pass it. -/
def checkIsLinkfile (node : Node) : Prop :=
  node.perm = S_ISVTX
deriving Decidable

def checkIsDir (node : Node) : Prop :=
  node.type = .dir
deriving Decidable

def dhtLinkfileSubvol : Node → Option Subvol
  | .dir _ _ => none
  | .file _ linkto => linkto

def layoutReply : Option Node → LayoutReply
  | none => .failed ENOENT
  | some (.dir _ (some disk)) => .xattr disk
  | some (.dir _ none) => .noXattr
  | some (.file _ _) => .noXattr

structure Answer where
  opRet : Int
  type : Option FileType
deriving DecidableEq

def EUCLEAN : Int := 117

def EEXIST : Int := 17

/-- The local of the frame, the subvolumes, and the answers to the lookup. -/
structure State where
  opRet : Int
  opErrno : Int
  callCnt : Int
  layout : DhtLayout
  cached : Option Subvol
  stbuf : Option Node
  nodes : Subvol → Option Node
  answers : List Answer

inductive Fan where
  | lookup
  | mkdir
  | setxattr
  | everywhere

/--
What is not up to the lookup: the order of the replies, and the errors of the calls that change
a subvolume.
-/
structure World where
  order : Fan → List Subvol → List Subvol
  order_perm : ∀ fan calls, (order fan calls).Perm calls
  mkdir : Subvol → Option Int
  setxattr : Subvol → Option Int
  mknod : Option Int

def unwind (st : State) (opRet : Int) (type : Option FileType) : State :=
  { st with answers := st.answers ++ [⟨opRet, type⟩] }

variable (w : World)

def World.replies (fan : Fan) (calls : List Subvol) : List (Subvol × Unit) :=
  (w.order fan calls).map (fun subvol => (subvol, ()))

def dhtFrameReturn (st : State) : State :=
  { st with callCnt := st.callCnt - 1 }

def isLastCall (st : State) : Prop :=
  st.callCnt = 0
deriving Decidable

/-- `inode_ctx_put` succeeds, for an inode that is new to the client. -/
def dhtLookupSelfhealCbk (st : State) (opRet : Int) : State :=
  unwind st opRet (st.stbuf.map Node.type)

def dhtSelfhealDirFinish (st : State) (ret : Int) : State :=
  dhtLookupSelfhealCbk st ret

def setErr (subvol : Subvol) (err : Int) : List LayoutEntry → List LayoutEntry
  | [] => []
  | e :: es =>
    if e.xlator = some subvol then
      { e with err := err } :: es
    else
      e :: setErr subvol err es

def setxattrDisk (st : State) (subvol : Subvol) : State :=
  let disk :=
    (st.layout.list.find? (fun e => e.xlator = some subvol)).bind (dhtSelfhealDirXattr st.layout)
  match w.setxattr subvol, st.nodes subvol with
  | none, some (.dir perm _) =>
    { st with nodes := update st.nodes subvol (some (.dir perm disk)) }
  | _, _ => st

def xattrReturn (st : State) (subvol : Subvol) (_ : Unit) : State :=
  let st := setxattrDisk w st subvol
  let err := (w.setxattr subvol).getD 0
  dhtFrameReturn { st with layout := { st.layout with list := setErr subvol err st.layout.list } }

def dhtSelfhealDirXattrCbk (st : State) (subvol : Subvol) (r : Unit) : State :=
  if isLastCall (xattrReturn w st subvol r) then
    dhtSelfhealDirFinish (xattrReturn w st subvol r) 0
  else
    xattrReturn w st subvol r

def missingXattr (layout : DhtLayout) : List Subvol :=
  layout.list.filterMap (fun e => if e.err ≠ -1 ∨ e.stop = 0 then none else e.xlator)

def dhtSelfhealDirXattrs (st : State) : State :=
  let calls := missingXattr st.layout
  if calls.length = 0 then
    dhtSelfhealDirFinish st 0
  else
    gather (dhtSelfhealDirXattrCbk w) { st with callCnt := calls.length }
      (w.replies .setxattr calls)

/-- A directory is made with the permissions that were found, and the error of that. -/
def mkdirNode (st : State) (subvol : Subvol) : State × Option Int :=
  match st.nodes subvol, w.mkdir subvol with
  | some _, _ => (st, some EEXIST)
  | none, some err => (st, some err)
  | none, none =>
    ({ st with
        nodes := update st.nodes subvol (some (.dir ((st.stbuf.map Node.perm).getD 0) none)) },
      none)

def mkdirReturn (st : State) (subvol : Subvol) (_ : Unit) : State :=
  let made := mkdirNode w st subvol
  if made.2 = none ∨ made.2 = some EEXIST then
    dhtFrameReturn { made.1 with
      layout := { made.1.layout with list := setErr subvol (-1) made.1.layout.list } }
  else
    dhtFrameReturn made.1

def dhtSelfhealDirMkdirCbk (st : State) (subvol : Subvol) (r : Unit) : State :=
  if isLastCall (mkdirReturn w st subvol r) then
    dhtSelfhealDirXattrs w (mkdirReturn w st subvol r)
  else
    mkdirReturn w st subvol r

def missingDirs (layout : DhtLayout) : List Subvol :=
  layout.list.filterMap (fun e => if e.err = ENOENT then e.xlator else none)

def dhtSelfhealDirMkdir (st : State) : State :=
  let calls := missingDirs st.layout
  if calls.length = 0 then
    dhtSelfhealDirXattrs w st
  else
    gather (dhtSelfhealDirMkdirCbk w) { st with callCnt := calls.length } (w.replies .mkdir calls)

/-- The layout and whether it can be fixed; `n` is the number of subvolumes. -/
def dhtSelfhealDirGetafix (n : Nat) (layout : DhtLayout) : DhtLayout × Int :=
  let a := dhtLayoutAnomalies layout
  let fixed :=
    if a.missing + a.down = n then (dhtSelfhealFixThisVirgin layout, 0) else (layout, -1)
  let ret := if a.holeCnt ≤ a.down then 0 else fixed.2
  (fixed.1, if ∃ e ∈ fixed.1.list, e.err = ENOENT then 0 else ret)

def dhtSelfhealDirectory (n : Nat) (st : State) : State :=
  let fix := dhtSelfhealDirGetafix n st.layout
  if fix.2 = -1 then
    dhtSelfhealDirFinish { st with layout := fix.1 } fix.2
  else
    dhtSelfhealDirMkdir w { st with layout := fix.1 }

def dirFound (st : State) : Option Node → State
  | none => { st with opErrno := ENOENT }
  | some node =>
    if checkIsDir node then
      { st with opRet := 0, stbuf := some node }
    else
      st

def dirReturn (st : State) (subvol : Subvol) (_ : Unit) : State :=
  let found := st.nodes subvol
  dhtFrameReturn
    (dirFound { st with layout := dhtLayoutMerge st.layout subvol (layoutReply found) } found)

def dirLast (n : Nat) (st : State) : State :=
  if st.opRet = 0 then
    let normal := dhtLayoutNormalize st.layout
    if normal.2 ≠ 0 then
      dhtSelfhealDirectory w n { st with layout := normal.1 }
    else
      unwind st st.opRet (st.stbuf.map Node.type)
  else
    unwind st st.opRet none

def dhtLookupDirCbk (n : Nat) (st : State) (subvol : Subvol) (r : Unit) : State :=
  if isLastCall (dirReturn st subvol r) then
    dirLast w n (dirReturn st subvol r)
  else
    dirReturn st subvol r

def lookupDirs (n : Nat) (st : State) : State :=
  gather (dhtLookupDirCbk w n) { st with callCnt := n, layout := dhtLayoutNew n }
    (w.replies .lookup (range n))

def dhtLookupLinkfileCreateCbk (st : State) : State :=
  unwind { st with opRet := 0 } 0 (st.stbuf.map Node.type)

/-- The linkfile that names the cached subvolume is made, and its attribute is set. -/
def dhtLinkfileCreate (hashed : Subvol) (st : State) : State :=
  match st.nodes hashed, w.mknod with
  | none, none =>
    dhtLookupLinkfileCreateCbk
      { st with nodes := update st.nodes hashed (some (.file S_ISVTX st.cached)) }
  | _, _ => dhtLookupLinkfileCreateCbk st

def unlinkNode : Option Node → Option Node
  | some (.dir perm disk) => some (.dir perm disk)
  | _ => none

def everywhereReturn (st : State) (subvol : Subvol) (_ : Unit) : State :=
  match st.nodes subvol with
  | none => dhtFrameReturn st
  | some node =>
    if checkIsLinkfile node then
      dhtFrameReturn { st with nodes := update st.nodes subvol (unlinkNode (some node)) }
    else if st.cached = none then
      dhtFrameReturn { st with stbuf := some node, cached := some subvol }
    else
      dhtFrameReturn st

def everywhereLast (hashed : Subvol) (st : State) : State :=
  match st.cached with
  | none => unwind st (-1) none
  | some _ => dhtLinkfileCreate w hashed st

def dhtLookupEverywhereCbk (hashed : Subvol) (st : State) (subvol : Subvol) (r : Unit) : State :=
  if isLastCall (everywhereReturn st subvol r) then
    everywhereLast w hashed (everywhereReturn st subvol r)
  else
    everywhereReturn st subvol r

def dhtLookupEverywhere (n : Nat) (hashed : Subvol) (st : State) : State :=
  gather (dhtLookupEverywhereCbk w hashed) { st with callCnt := n }
    (w.replies .everywhere (range n))

def dhtLookupLinkfileCbk (n : Nat) (hashed : Subvol) (st : State) :
    Option Node → State
  | none => dhtLookupEverywhere w n hashed st
  | some node => unwind st 0 (some node.type)

def dhtLookupCbk (n : Nat) (hashed : Subvol) (st : State) : Option Node → State
  | none => dhtLookupEverywhere w n hashed { st with opErrno := ENOENT }
  | some node =>
    if checkIsDir node then
      lookupDirs w n st
    else if checkIsLinkfile node then
      match dhtLinkfileSubvol node with
      | none => dhtLookupEverywhere w n hashed st
      | some subvol => dhtLookupLinkfileCbk w n hashed st (st.nodes subvol)
    else
      unwind st 0 (some node.type)

def dhtLocalInit (nodes : Subvol → Option Node) : State where
  opRet := -1
  opErrno := EUCLEAN
  callCnt := 0
  layout := dhtLayoutNew 0
  cached := none
  stbuf := none
  nodes := nodes
  answers := []

/-- A lookup of a name that is new to the client, on `n` subvolumes that are all up. -/
def dhtLookup (n : Nat) (nodes : Subvol → Option Node) :
    Option Subvol → State
  | none => lookupDirs w n (dhtLocalInit nodes)
  | some hashed => dhtLookupCbk w n hashed (dhtLocalInit nodes) (nodes hashed)

/-- The name is a directory on some of the subvolumes and absent on the others. -/
structure DirOn (n : Nat) (nodes : Subvol → Option Node) : Prop where
  some_dir : ∃ subvol < n, nodes subvol ≠ none
  only_dirs : ∀ subvol node, nodes subvol = some node → checkIsDir node

/-- There is no file on any subvolume, and the one answer is success with a directory. -/
structure FindsDir (st : State) : Prop where
  no_linkfile : ∀ subvol node, st.nodes subvol = some node → checkIsDir node
  answered : st.answers = [⟨0, some .dir⟩]

def layoutOf (nodes : Subvol → Option Node) (order : List Subvol) : DhtLayout :=
  mergeReplies (dhtLayoutNew order.length)
    (order.map (fun subvol => ⟨subvol, layoutReply (nodes subvol)⟩))

def NoLayout (nodes : Subvol → Option Node) (subvol : Subvol) : Prop :=
  ∀ disk, layoutReply (nodes subvol) = .xattr disk → ntoh32 disk.cnt ≠ 1

/-- The directory is missing somewhere, or has no layout at all, or its layout has no hole. -/
def Repairable (n : Nat) (nodes : Subvol → Option Node) : Prop :=
  (∃ subvol < n, nodes subvol = none) ∨
  (∀ subvol < n, NoLayout nodes subvol) ∨
  ∀ order : List Subvol, order.Perm (range n) →
    (dhtLayoutAnomalies (dhtLayoutSort (layoutOf nodes order))).holeCnt = 0

section

theorem not_checkIsDir_file (perm : Nat) (linkto : Option Subvol) :
    ¬ checkIsDir (.file perm linkto) := by
  intro h
  cases h

variable {w} {n : Nat} {st : State}

/-- The subvolumes have directories only, one was found, and the lookup was not answered. -/
structure Found (st : State) : Prop where
  only_dirs : ∀ subvol node, st.nodes subvol = some node → checkIsDir node
  stbuf : ∃ node, st.stbuf = some node ∧ checkIsDir node
  unanswered : st.answers = []

variable (h : Found st)
include h

theorem Found.finish :
    FindsDir (dhtSelfhealDirFinish st 0) where
  no_linkfile := h.only_dirs
  answered := by
    obtain ⟨node, hstbuf, hdir⟩ := h.stbuf
    show st.answers ++ [⟨0, st.stbuf.map Node.type⟩] = _
    rw [h.unanswered, hstbuf, Option.map_some, hdir]
    rfl

theorem Found.congr {st' : State} (hnodes : st'.nodes = st.nodes)
    (hstbuf : st'.stbuf = st.stbuf) (hanss : st'.answers = st.answers) :
    Found st' where
  only_dirs := hnodes ▸ h.only_dirs
  stbuf := hstbuf ▸ h.stbuf
  unanswered := hanss ▸ h.unanswered

theorem Found.setLayout (layout : DhtLayout) : Found { st with layout := layout } :=
  ⟨h.only_dirs, h.stbuf, h.unanswered⟩

section

variable (subvol : Subvol)

theorem Found.setDir (perm : Nat) (disk : Option DiskLayout) :
    Found { st with nodes := update st.nodes subvol (some (.dir perm disk)) } where
  only_dirs := by
    intro other node hoth
    dsimp only at hoth
    by_cases hne : other = subvol
    · subst hne
      rw [update_self] at hoth
      cases hoth
      rfl
    · rw [update_of_ne hne] at hoth
      exact h.only_dirs other node hoth
  stbuf := h.stbuf
  unanswered := h.unanswered

theorem Found.setxattrDisk : Found (setxattrDisk w st subvol) := by
  unfold LookupDir.setxattrDisk
  split
  · exact h.setDir _ _ _
  · exact h

theorem Found.mkdirNode : Found (mkdirNode w st subvol).1 := by
  unfold LookupDir.mkdirNode
  split
  · exact h
  · exact h
  · exact h.setDir _ _ _

theorem Found.xattrReturn (r : Unit) : Found (xattrReturn w st subvol r) :=
  (h.setxattrDisk subvol).congr rfl rfl rfl

theorem Found.mkdirReturn (r : Unit) : Found (mkdirReturn w st subvol r) := by
  unfold LookupDir.mkdirReturn
  dsimp only
  split <;> exact (h.mkdirNode subvol).congr rfl rfl rfl

end

omit h

theorem callCnt_xattrReturn (st : State) (subvol : Subvol) (r : Unit) :
    (xattrReturn w st subvol r).callCnt = st.callCnt - 1 := by
  unfold xattrReturn setxattrDisk
  split <;> rfl

theorem callCnt_mkdirReturn (st : State) (subvol : Subvol) (r : Unit) :
    (mkdirReturn w st subvol r).callCnt = st.callCnt - 1 := by
  have hnode : (mkdirNode w st subvol).1.callCnt = st.callCnt := by
    unfold mkdirNode
    split <;> rfl
  unfold mkdirReturn
  dsimp only
  split <;> exact congrArg (· - 1) hnode

theorem length_replies (w : World) (fan : Fan) (calls : List Subvol) :
    (w.replies fan calls).length = calls.length := by
  rw [World.replies, length_map]
  exact (w.order_perm fan calls).length_eq

theorem gather_replies (cbk upd : State → Subvol → Unit → State) (last : State → State)
    (hcbk : ∀ st subvol r, cbk st subvol r =
      if isLastCall (upd st subvol r) then last (upd st subvol r) else upd st subvol r)
    (hcnt : ∀ st subvol r, (upd st subvol r).callCnt = st.callCnt - 1) (w : World) (fan : Fan)
    {calls : List Subvol} (hne : calls.length ≠ 0) (hst : st.callCnt = calls.length) :
    gather cbk st (w.replies fan calls) = last (gather upd st (w.replies fan calls)) := by
  have hlen := length_replies w fan calls
  refine gather_last cbk upd last State.callCnt (fun st subvol r => ?_) hcnt ?_ ?_
  · exact hcbk st subvol r
  · intro hnil
    rw [hnil] at hlen
    exact hne hlen.symm
  · rw [hlen, hst]

theorem Found.xattrs (h : Found st) : FindsDir (dhtSelfhealDirXattrs w st) := by
  unfold dhtSelfhealDirXattrs
  dsimp only
  split
  case isTrue =>
    exact h.finish
  case isFalse hne =>
    rw [gather_replies (dhtSelfhealDirXattrCbk w) (LookupDir.xattrReturn w)
      (fun st => dhtSelfhealDirFinish st 0) (fun _ _ _ => rfl) callCnt_xattrReturn w .setxattr
      hne rfl]
    apply finish
    exact gather_invariant _ (P := Found) (h.congr rfl rfl rfl)
      (fun st subvol r _ hst => hst.xattrReturn subvol r)

theorem Found.mkdirs (h : Found st) : FindsDir (dhtSelfhealDirMkdir w st) := by
  unfold dhtSelfhealDirMkdir
  dsimp only
  split
  case isTrue =>
    exact h.xattrs
  case isFalse hne =>
    rw [gather_replies (dhtSelfhealDirMkdirCbk w) (LookupDir.mkdirReturn w)
      (dhtSelfhealDirXattrs w) (fun _ _ _ => rfl) callCnt_mkdirReturn w .mkdir hne rfl]
    apply xattrs
    exact gather_invariant _ (P := Found) (h.congr rfl rfl rfl)
      (fun st subvol r _ hst => hst.mkdirReturn subvol r)

theorem Found.not_findsDir_finish (h : Found st) {ret : Int} (hret : ret ≠ 0) :
    ¬ FindsDir (dhtSelfhealDirFinish st ret) := by
  intro hfnds
  have hanss : st.answers ++ [⟨ret, st.stbuf.map Node.type⟩] = [⟨0, some .dir⟩] :=
    hfnds.answered
  rw [h.unanswered] at hanss
  exact hret (congrArg Answer.opRet (cons.inj hanss).1)

theorem Found.dirLast_iff (h : Found st) (hret : st.opRet = 0) :
    FindsDir (dirLast w n st) ↔ (dhtLayoutNormalize st.layout).2 = 0 ∨
        (dhtSelfhealDirGetafix n (dhtLayoutSort st.layout)).2 ≠ -1 := by
  unfold dirLast
  rw [if_pos hret]
  by_cases hnor : (dhtLayoutNormalize st.layout).2 = 0
  · rw [if_neg (not_not_intro hnor), hret]
    exact iff_of_true h.finish (.inl hnor)
  · rw [if_pos hnor, or_iff_right hnor]
    have hsort : (dhtLayoutNormalize st.layout).1 = dhtLayoutSort st.layout := rfl
    rw [hsort]
    unfold dhtSelfhealDirectory
    by_cases hfix : (dhtSelfhealDirGetafix n (dhtLayoutSort st.layout)).2 = -1
    · rw [if_pos hfix, hfix]
      refine iff_of_false ?_ (not_not_intro rfl)
      exact (h.setLayout _).not_findsDir_finish (by decide)
    · rw [if_neg hfix]
      exact iff_of_true (h.setLayout _).mkdirs hfix

end

variable {w} {n : Nat} {st : State} {nodes : Subvol → Option Node}

theorem callCnt_dirReturn (st : State) (subvol : Subvol) (r : Unit) :
    (dirReturn st subvol r).callCnt = st.callCnt - 1 := by
  unfold dirReturn
  cases hnode : st.nodes subvol with
  | none => rfl
  | some node =>
    dsimp only [dirFound]
    split <;> rfl

/-- What the replies of the subvolumes leave, if these have directories only. -/
structure Asked (nodes : Subvol → Option Node) (done : List Subvol) (st : State) : Prop where
  nodes_eq : st.nodes = nodes
  unanswered : st.answers = []
  found : (∃ subvol ∈ done, nodes subvol ≠ none) →
    st.opRet = 0 ∧ ∃ node, st.stbuf = some node ∧ checkIsDir node

variable {done order : List Subvol} {layout : DhtLayout} {hashed : Subvol}

theorem Asked.dirReturn (hdirs : ∀ subvol node, nodes subvol = some node → checkIsDir node)
    (h : Asked nodes done st) (subvol : Subvol) (r : Unit) :
    Asked nodes (done ++ [subvol]) (dirReturn st subvol r) := by
  obtain ⟨rfl, hanss, hfnd⟩ := h
  unfold dirReturn
  cases hnode : st.nodes subvol with
  | none =>
    refine ⟨rfl, hanss, ?_⟩
    rintro ⟨other, hoth, hsome⟩
    rcases mem_append.mp hoth with hdone | hlast
    · exact hfnd ⟨other, hdone, hsome⟩
    · rw [mem_singleton.mp hlast] at hsome
      exact absurd hnode hsome
  | some node =>
    have hdir := hdirs subvol node hnode
    simp only [dirFound, if_pos hdir]
    exact ⟨rfl, hanss, fun _ => ⟨rfl, node, rfl, hdir⟩⟩

theorem gather_dirReturn (hdirs : ∀ subvol node, nodes subvol = some node → checkIsDir node)
    (h : Asked nodes done st) (order : List Subvol) :
    Asked nodes (done ++ order) (gather dirReturn st (order.map (fun subvol => (subvol, ())))) ∧
      (gather dirReturn st (order.map (fun subvol => (subvol, ())))).layout = mergeReplies st.layout
          (order.map (fun subvol => ⟨subvol, layoutReply (nodes subvol)⟩)) := by
  induction order generalizing done st with
  | nil =>
    rw [append_nil]
    exact ⟨h, rfl⟩
  | cons subvol order ih =>
    obtain ⟨hask, hlay⟩ := ih (h.dirReturn hdirs subvol ())
    have hone : (dirReturn st subvol ()).layout =
        dhtLayoutMerge st.layout subvol (layoutReply (nodes subvol)) := by
      unfold dirReturn
      rw [h.nodes_eq]
      cases nodes subvol with
      | none => rfl
      | some node =>
        dsimp only [dirFound]
        split <;> rfl
    rw [append_assoc] at hask
    refine ⟨hask, ?_⟩
    rw [map_cons, gather_cons, hlay, hone]
    rfl

theorem findsDir_lookupDirs_iff (h : DirOn n nodes) :
    FindsDir (lookupDirs w n (dhtLocalInit nodes)) ↔
      (dhtLayoutNormalize (layoutOf nodes (w.order .lookup (range n)))).2 = 0 ∨
        (dhtSelfhealDirGetafix n
          (dhtLayoutSort (layoutOf nodes (w.order .lookup (range n))))).2 ≠ -1 := by
  obtain ⟨subvol, hsub, hsome⟩ := h.some_dir
  have hne : (range n).length ≠ 0 := by
    rw [length_range]
    omega
  have hperm := w.order_perm .lookup (range n)
  have hlen : (w.order .lookup (range n)).length = n := by
    rw [hperm.length_eq, length_range]
  unfold lookupDirs
  rw [gather_replies (dhtLookupDirCbk w n) dirReturn (dirLast w n)
    (fun _ _ _ => rfl) callCnt_dirReturn w .lookup hne (by rw [length_range])]
  have hinit : Asked nodes [] { dhtLocalInit nodes with callCnt := n, layout := dhtLayoutNew n } :=
    ⟨rfl, rfl, by rintro ⟨other, hoth, -⟩; cases hoth⟩
  obtain ⟨hask, hlay⟩ := gather_dirReturn h.only_dirs hinit (w.order .lookup (range n))
  have hmem : subvol ∈ [] ++ w.order .lookup (range n) :=
    hperm.symm.subset (mem_range.mpr hsub)
  obtain ⟨hret, hstbuf⟩ := hask.found ⟨subvol, hmem, hsome⟩
  have hfnd : Found (gather dirReturn
      { dhtLocalInit nodes with callCnt := n, layout := dhtLayoutNew n }
      (w.replies .lookup (range n))) :=
    ⟨by rw [World.replies, hask.nodes_eq]; exact h.only_dirs, hstbuf, hask.unanswered⟩
  rw [hfnd.dirLast_iff hret, World.replies, hlay]
  unfold layoutOf
  rw [hlen]

theorem foldl_anomaliesStep_errors {es : List LayoutEntry}
    (h : ∀ e ∈ es, e.err = 0 ∨ e.err = -1 ∨ e.err = ENOENT) (a : Anomalies) :
    (es.foldl anomaliesStep a).missing = a.missing + es.countP (fun e => e.err ≠ 0) ∧
      (es.foldl anomaliesStep a).down = a.down := by
  induction es generalizing a with
  | nil => exact ⟨rfl, rfl⟩
  | cons e es ih =>
    obtain ⟨he, hes⟩ := forall_mem_cons.mp h
    obtain ⟨hmis, hdown⟩ := ih hes (anomaliesStep a e)
    rw [foldl_cons, hmis, hdown, countP_cons]
    rcases he with hzero | herr
    · simp [anomaliesStep, hzero]
    · have hne : e.err ≠ 0 := by rcases herr with herr | herr <;> rw [herr] <;> decide
      simp only [anomaliesStep, countError, if_pos herr]
      simp only [ne_eq, hne, not_false_eq_true, decide_true, if_true, and_true]
      omega

theorem dhtLayoutAnomalies_errors (h : ∀ e ∈ layout.list, e.err = 0 ∨ e.err = -1 ∨ e.err = ENOENT) :
    (dhtLayoutAnomalies layout).missing = layout.list.countP (fun e => e.err ≠ 0) ∧
      (dhtLayoutAnomalies layout).down = 0 := by
  obtain ⟨hmis, hdown⟩ :=
    foldl_anomaliesStep_errors h ⟨0, 0, 0, 0, 0, layoutLastStop layout, true⟩
  rw [Nat.zero_add] at hmis
  unfold dhtLayoutAnomalies
  dsimp only
  split <;> exact ⟨hmis, hdown⟩

/-- A layout without down subvolumes is given up if it has holes, some range and all directories. -/
theorem dhtSelfhealDirGetafix_ne_iff
    (h : ∀ e ∈ layout.list, e.err = 0 ∨ e.err = -1 ∨ e.err = ENOENT) (hlen : layout.list.length = n)
    :
    (dhtSelfhealDirGetafix n layout).2 ≠ -1 ↔
      (∀ e ∈ layout.list, e.err ≠ 0) ∨ (dhtLayoutAnomalies layout).holeCnt = 0 ∨
        ∃ e ∈ layout.list, e.err = ENOENT := by
  obtain ⟨hmis, hdown⟩ := dhtLayoutAnomalies_errors h
  have hvir : (dhtLayoutAnomalies layout).missing + (dhtLayoutAnomalies layout).down = n ↔
      ∀ e ∈ layout.list, e.err ≠ 0 := by
    rw [hmis, hdown, Nat.add_zero, ← hlen, countP_eq_length]
    simp
  unfold dhtSelfhealDirGetafix
  dsimp only
  rw [hdown] at hvir ⊢
  by_cases hall : ∀ e ∈ layout.list, e.err ≠ 0
  · rw [if_pos (hvir.mpr hall)]
    refine iff_of_true ?_ (.inl hall)
    dsimp only
    split
    · decide
    · split <;> decide
  · rw [if_neg (fun hc => hall (hvir.mp hc)), or_iff_right hall]
    by_cases henoent : ∃ e ∈ layout.list, e.err = ENOENT
    · rw [if_pos henoent]
      exact iff_of_true (by decide) (.inr henoent)
    · rw [if_neg henoent, or_iff_left henoent]
      by_cases hhole : (dhtLayoutAnomalies layout).holeCnt ≤ 0
      · rw [if_pos hhole]
        exact iff_of_true (by decide) (Nat.le_zero.mp hhole)
      · rw [if_neg hhole]
        exact iff_of_false (fun hc => hc rfl) (fun hc => hhole (Nat.le_zero.mpr hc))

def entryOf (nodes : Subvol → Option Node) (subvol : Subvol) : LayoutEntry :=
  SubvolReply.entry ⟨subvol, layoutReply (nodes subvol)⟩

theorem entryOf_err (hdirs : ∀ subvol node, nodes subvol = some node → checkIsDir node)
    (subvol : Subvol) :
    ((entryOf nodes subvol).err = ENOENT ↔ nodes subvol = none) ∧
      ((entryOf nodes subvol).err ≠ 0 ↔ NoLayout nodes subvol) ∧
      ((entryOf nodes subvol).err = 0 ∨ (entryOf nodes subvol).err = -1 ∨
        (entryOf nodes subvol).err = ENOENT) := by
  unfold NoLayout entryOf
  cases hnode : nodes subvol with
  | none =>
    exact ⟨iff_of_true rfl rfl, iff_of_true (show ENOENT ≠ 0 by decide) nofun, .inr (.inr rfl)⟩
  | some node =>
    cases node with
    | file perm linkto => exact absurd (hdirs subvol _ hnode) (not_checkIsDir_file perm linkto)
    | dir perm disk =>
      cases disk with
      | none =>
        exact ⟨iff_of_false (show -1 ≠ ENOENT by decide) nofun,
          iff_of_true (show (-1 : Int) ≠ 0 by decide) nofun, .inr (.inl rfl)⟩
      | some disk =>
        by_cases hcnt : ntoh32 disk.cnt = 1 <;>
          simp [layoutReply, SubvolReply.entry, mergeEntry, dhtDiskLayoutMerge, hcnt, ENOENT]

theorem layoutOf_list (nodes : Subvol → Option Node) (order : List Subvol) :
    (layoutOf nodes order).list = order.map (entryOf nodes) := by
  unfold layoutOf
  have hlen : order.length =
      (order.map (fun subvol => (⟨subvol, layoutReply (nodes subvol)⟩ : SubvolReply))).length :=
    (length_map _).symm
  rw [hlen, mergeReplies_list, map_map]
  rfl

theorem mem_sorted_layoutOf_iff (hperm : order.Perm (range n)) {e : LayoutEntry} :
    e ∈ (dhtLayoutSort (layoutOf nodes order)).list ↔ ∃ subvol < n, entryOf nodes subvol = e := by
  rw [(dhtLayoutSort_perm _).mem_iff, layoutOf_list, mem_map]
  simp only [hperm.mem_iff, mem_range]

theorem length_sorted_layoutOf (hperm : order.Perm (range n)) :
    (dhtLayoutSort (layoutOf nodes order)).list.length = n := by
  rw [(dhtLayoutSort_perm _).length_eq, layoutOf_list, length_map, hperm.length_eq, length_range]

theorem fixed_iff (hdirs : ∀ subvol node, nodes subvol = some node → checkIsDir node)
    (hperm : order.Perm (range n)) :
    ((dhtLayoutNormalize (layoutOf nodes order)).2 = 0 ∨
      (dhtSelfhealDirGetafix n (dhtLayoutSort (layoutOf nodes order))).2 ≠ -1) ↔
      (∃ subvol < n, nodes subvol = none) ∨ (∀ subvol < n, NoLayout nodes subvol) ∨
        (dhtLayoutAnomalies (dhtLayoutSort (layoutOf nodes order))).holeCnt = 0 := by
  have herrs : ∀ e ∈ (dhtLayoutSort (layoutOf nodes order)).list,
      e.err = 0 ∨ e.err = -1 ∨ e.err = ENOENT := by
    intro e he
    obtain ⟨subvol, -, rfl⟩ := (mem_sorted_layoutOf_iff hperm).mp he
    exact (entryOf_err hdirs subvol).2.2
  have habs : (∃ e ∈ (dhtLayoutSort (layoutOf nodes order)).list, e.err = ENOENT) ↔
      ∃ subvol < n, nodes subvol = none := by
    simp [mem_sorted_layoutOf_iff hperm, (entryOf_err hdirs _).1]
  have hvir : (∀ e ∈ (dhtLayoutSort (layoutOf nodes order)).list, e.err ≠ 0) ↔
      ∀ subvol < n, NoLayout nodes subvol := by
    simp [mem_sorted_layoutOf_iff hperm, ← (entryOf_err hdirs _).2.1]
  have hnor : (dhtLayoutNormalize (layoutOf nodes order)).2 = 0 →
      (dhtLayoutAnomalies (dhtLayoutSort (layoutOf nodes order))).holeCnt = 0 := by
    intro h
    by_contra hhole
    unfold dhtLayoutNormalize at h
    dsimp only at h
    rw [if_pos (.inl hhole)] at h
    cases h
  rw [dhtSelfhealDirGetafix_ne_iff herrs (length_sorted_layoutOf hperm), habs, hvir]
  constructor
  · rintro (h | h | h | h)
    · exact .inr (.inr (hnor h))
    · exact .inr (.inl h)
    · exact .inr (.inr h)
    · exact .inl h
  · rintro (h | h | h)
    · exact .inr (.inr (.inr h))
    · exact .inr (.inl h)
    · exact .inr (.inr (.inl h))

theorem callCnt_everywhereReturn (st : State) (subvol : Subvol) (r : Unit) :
    (everywhereReturn st subvol r).callCnt = st.callCnt - 1 := by
  unfold everywhereReturn
  split
  · rfl
  · split
    · rfl
    · split <;> rfl

theorem everywhereReturn_nodes
    (hdirs : ∀ subvol node, st.nodes subvol = some node → checkIsDir node)
    (subvol : Subvol) (r : Unit) :
    (everywhereReturn st subvol r).nodes = st.nodes ∧
      (everywhereReturn st subvol r).answers = st.answers := by
  unfold everywhereReturn
  cases hnode : st.nodes subvol with
  | none => exact ⟨rfl, rfl⟩
  | some node =>
    have hkept : update st.nodes subvol (unlinkNode (some node)) = st.nodes := by
      cases node with
      | dir perm disk =>
        exact (congrArg _ hnode.symm).trans (update_eq_self subvol st.nodes)
      | file perm linkto => exact absurd (hdirs subvol _ hnode) (not_checkIsDir_file perm linkto)
    dsimp only
    split
    · exact ⟨hkept, rfl⟩
    · split <;> exact ⟨rfl, rfl⟩

/-- Where the hashed subvolume lacks the directory, a linkfile is made or the lookup fails. -/
theorem not_findsDir_everywhere (h : DirOn n nodes) (hhash : nodes hashed = none)
    (hmk : w.mknod = none) : ¬ FindsDir (dhtLookup w n nodes (some hashed)) := by
  obtain ⟨subvol, hsub, -⟩ := h.some_dir
  have hne : (range n).length ≠ 0 := by
    rw [length_range]
    omega
  show ¬ FindsDir (dhtLookupCbk w n hashed (dhtLocalInit nodes) (nodes hashed))
  rw [hhash]
  show ¬ FindsDir (gather (dhtLookupEverywhereCbk w hashed)
    { dhtLocalInit nodes with opErrno := ENOENT, callCnt := n }
    (w.replies .everywhere (range n)))
  rw [gather_replies (dhtLookupEverywhereCbk w hashed) everywhereReturn (everywhereLast w hashed)
    (fun _ _ _ => rfl) callCnt_everywhereReturn w .everywhere hne (by rw [length_range])]
  obtain ⟨st, hst⟩ : ∃ st, st = gather everywhereReturn
      { dhtLocalInit nodes with opErrno := ENOENT, callCnt := n }
      (w.replies .everywhere (range n)) := ⟨_, rfl⟩
  have hkept : st.nodes = nodes ∧ st.answers = [] := by
    rw [hst]
    refine gather_invariant everywhereReturn
      (P := fun st => st.nodes = nodes ∧ st.answers = []) ⟨rfl, rfl⟩ ?_
    rintro st subvol r - ⟨hnodes, hanss⟩
    have hreturn := everywhereReturn_nodes (hnodes ▸ h.only_dirs) subvol r
    exact ⟨hreturn.1.trans hnodes, hreturn.2.trans hanss⟩
  rw [← hst]
  intro hfnds
  unfold everywhereLast at hfnds
  cases hcach : st.cached with
  | none =>
    rw [hcach] at hfnds
    have hanss : st.answers ++ [⟨-1, none⟩] = [⟨0, some .dir⟩] := hfnds.answered
    simp [hkept.2] at hanss
  | some cached =>
    rw [hcach] at hfnds
    unfold dhtLinkfileCreate at hfnds
    rw [hkept.1, hhash, hmk] at hfnds
    apply not_checkIsDir_file S_ISVTX st.cached
    apply hfnds.no_linkfile hashed
    simp [dhtLookupLinkfileCreateCbk, unwind]

/-- The replies to the lookups arrive in a given order, and no call fails. -/
def World.ofOrder (n : Nat) (order : List Subvol) (h : order.Perm (range n)) : World where
  order _ calls := if calls = range n then order else calls
  order_perm := by
    intro _ calls
    by_cases hcalls : calls = range n
    · rw [if_pos hcalls, hcalls]
      exact h
    · rw [if_neg hcalls]
  mkdir _ := none
  setxattr _ := none
  mknod := none

/--
A fresh lookup of a directory makes no linkfile and succeeds with a directory, in every order of
the replies, exactly if the hashed subvolume has the directory and it is missing somewhere, or
has no layout anywhere, or its layout has no hole.
-/
theorem findsDir_iff (n : Nat) (nodes : Subvol → Option Node) (hashed : Option Subvol)
    (h : DirOn n nodes) :
    (∀ w, FindsDir (dhtLookup w n nodes hashed)) ↔
      (∀ subvol ∈ hashed, nodes subvol ≠ none) ∧ Repairable n nodes := by
  have hpresent : (∀ subvol ∈ hashed, nodes subvol ≠ none) →
      ∀ w, dhtLookup w n nodes hashed = lookupDirs w n (dhtLocalInit nodes) := by
    intro hsome w
    cases hashed with
    | none => rfl
    | some subvol =>
      obtain ⟨node, hnode⟩ := Option.ne_none_iff_exists'.mp (hsome subvol rfl)
      show dhtLookupCbk w n subvol (dhtLocalInit nodes) (nodes subvol) = _
      rw [hnode]
      exact if_pos (h.only_dirs subvol node hnode)
  have hfnds : (∀ subvol ∈ hashed, nodes subvol ≠ none) →
      ∀ w, FindsDir (dhtLookup w n nodes hashed) ↔
        (∃ subvol < n, nodes subvol = none) ∨ (∀ subvol < n, NoLayout nodes subvol) ∨
          (dhtLayoutAnomalies (dhtLayoutSort
            (layoutOf nodes (w.order .lookup (range n))))).holeCnt = 0 := by
    intro hsome w
    rw [hpresent hsome w, findsDir_lookupDirs_iff h,
      fixed_iff h.only_dirs (w.order_perm .lookup (range n))]
  constructor
  · intro hall
    have hsome : ∀ subvol ∈ hashed, nodes subvol ≠ none := by
      rintro subvol hsub hnone
      subst hsub
      exact not_findsDir_everywhere h hnone rfl
        (hall (World.ofOrder n (range n) (List.Perm.refl _)))
    refine ⟨hsome, ?_⟩
    by_cases habs : ∃ subvol < n, nodes subvol = none
    · exact .inl habs
    by_cases hvir : ∀ subvol < n, NoLayout nodes subvol
    · exact .inr (.inl hvir)
    refine .inr (.inr ?_)
    intro order horder
    have hw := (hfnds hsome (World.ofOrder n order horder)).mp (hall _)
    rw [or_iff_right habs, or_iff_right hvir] at hw
    simpa [World.ofOrder] using hw
  · rintro ⟨hsome, hrepair⟩ w
    rw [hfnds hsome w]
    rcases hrepair with habs | hvir | hholes
    · exact .inl habs
    · exact .inr (.inl hvir)
    · exact .inr (.inr (hholes _ (w.order_perm .lookup (range n))))

def onFirst : Subvol → Option Node
  | 0 => some (.dir 493 none)
  | _ => none

theorem dirOn_onFirst :
    DirOn 2 onFirst where
  some_dir := ⟨0, by decide, by decide⟩
  only_dirs := by
    intro subvol node hnode
    unfold onFirst at hnode
    split at hnode
    · cases hnode
      rfl
    · cases hnode

theorem findsDir_onFirst :
    FindsDir (dhtLookup (World.ofOrder 2 [1, 0] (by decide)) 2 onFirst (some 0)) :=
  (findsDir_iff 2 onFirst (some 0) dirOn_onFirst).mpr
    ⟨fun subvol hsub => by cases hsub; decide, .inl ⟨1, by decide, rfl⟩⟩ _

def halfLayout : Subvol → Option Node
  | 0 => some (.dir 493 (some ⟨hton32 1, hton32 0, hton32 0, hton32 0x7fffffff⟩))
  | 1 => some (.dir 493 none)
  | _ => none

/--
When the name hashes to the subvolume that lacks the directory, that subvolume has a linkfile
afterwards.  When the directory is on both subvolumes and one of them has no range, the lookup
fails.
-/
theorem not_findsDir_onFirst :
    (dhtLookup (World.ofOrder 2 [0, 1] (by decide)) 2 onFirst (some 1)).nodes 1 =
        some (.file S_ISVTX (some 0)) ∧
      (dhtLookup (World.ofOrder 2 [0, 1] (by decide)) 2 halfLayout (some 0)).answers =
        [⟨-1, some .dir⟩] := by
  decide +kernel

end GlusterFS.Dht.LookupDir
