import GlusterFS.Lib.FanOut
import GlusterFS.Lib.FileTree
import GlusterFS.Lib.Run

/-!
# Unify: one file system on many nodes

Every name is on the namespace, a directory also on every storage node, and a file on the storage
node that the scheduler chose for it.  Where a file is stands in the context of its inode, as a
list of nodes with the namespace among them; the list is made by the call that makes the file, or
by the first lookup of it.  `create`, `mknod`, `symlink`, `mkdir`, `rmdir`, `link` and `rename` go
to the namespace first, and to the storage nodes if the namespace has accepted them; `unlink` goes
to all nodes of the list at once.  A rename that takes the place of a file on another node removes
that file there.

With this the volume follows a single file system, call by call (`behaves_iff`).  There is one
exception: the context of a directory is not a list, and `unify_unlink` uses it as one.
-/

namespace GlusterFS.Unify.Volume

open FanOut FileTree Run Function Option Nat
open List hiding get

abbrev Path := List String

/-- The storage nodes in their order, and behind them the namespace. -/
abbrev Node := Nat

inductive Content where
  | regular
  | device (rdev : Nat)
  | symlink (target : String)
deriving DecidableEq

structure File where
  inode : Nat
  content : Content
deriving DecidableEq

abbrev Fs := Tree String File

inductive Errno where
  | fs (why : Refusal)
  | eio
  | enotconn

structure Answer where
  opRet : Int
  opErrno : Errno

/--
The nodes, the contexts of the inodes of files, and the answers to the callers.  The number of the
call that makes a file is the number of its inode.
-/
structure State where
  fs : Node → Fs
  ctx : Nat → Option (List Node)
  tick : Nat
  answers : List Answer

/-- The order in which the nodes reply to a call, the choices of the scheduler, and an option -/
structure World (n : Nat) where
  order : Nat → List Node → List Node
  order_perm : ∀ tick calls, (order tick calls).Perm calls
  schedule : Nat → Path → Option Node
  schedule_lt : ∀ tick p, ∃ node < n, schedule tick p = some node
  optimist : Bool

/-- What the callbacks write into the local of the frame -/
structure Local where
  opRet : Int
  opErrno : Errno
  failed : Bool

def Local.init : Local := ⟨-1, .fs .noEntry, false⟩

structure Frame where
  state : State
  callCount : Int
  loc : Local

def State.setFs (s : State) (node : Node) (t : Fs) : State :=
  { s with fs := update s.fs node t }

def unwind (s : State) (opRet : Int) (opErrno : Errno) : State :=
  { s with answers := s.answers ++ [⟨opRet, opErrno⟩] }

def unwindLocal (fr : Frame) : Frame :=
  { fr with state := unwind fr.state fr.loc.opRet fr.loc.opErrno }

/-- A node serves the call and replies, and the callback looks at the reply. -/
def reply (op : Fs → Except Refusal Fs) (ret : Local → Option Refusal → Local)
    (fr : Frame) (node : Node) (_ : Unit) : Frame :=
  match op (fr.state.fs node) with
  | .ok t => ⟨fr.state.setFs node t, fr.callCount - 1, ret fr.loc none⟩
  | .error e => ⟨fr.state, fr.callCount - 1, ret fr.loc (some e)⟩

def cbk (op : Fs → Except Refusal Fs) (ret : Local → Option Refusal → Local) (last : Frame → Frame)
    (fr : Frame) (node : Node) (u : Unit) : Frame :=
  if (reply op ret fr node u).callCount = 0 then
    last (reply op ret fr node u)
  else
    reply op ret fr node u

variable {n : Nat} (w : World n)

def World.replies (s : State) (calls : List Node) : List (Node × Unit) :=
  (w.order s.tick calls).map (fun node => (node, ()))

def fanOut (op : Fs → Except Refusal Fs) (ret : Local → Option Refusal → Local)
    (last : Frame → Frame) (s : State) (loc : Local) (calls : List Node) : State :=
  (gather (cbk op ret last) ⟨s, calls.length, loc⟩ (w.replies s calls)).state

/-- The context of an inode as a list of nodes; a directory has none. -/
def inodeList (n : Nat) (s : State) (p : Path) : Option (List Node) :=
  match get (s.fs n) p with
  | some (.file file) => s.ctx file.inode
  | _ => none

def isFile (t : Fs) (p : Path) : Bool :=
  match get t p with
  | some (.file _) => true
  | _ => false

/-- `unify_lookup`: the first time, all nodes are asked for a file. -/
def unifyLookup (s : State) (p : Path) : State :=
  match get (s.fs n) p with
  | some (.file file) =>
    match s.ctx file.inode with
    | some _ => s
    | none =>
      { s with
        ctx := update s.ctx file.inode (some ((w.order s.tick (List.range (n + 1))).filter
            (fun node => isFile (s.fs node) p))) }
  | _ => s

def mkdirRet (optimist : Bool) (loc : Local) : Option Refusal → Local
  | none => { loc with opRet := 0 }
  | some e =>
    if optimist = true ∧ (e = .noEntry ∨ e = .exist) then
      loc
    else
      { loc with failed := loc.failed || e ≠ .exist, opErrno := .fs e }

def unifyMkdir (s : State) (p : Path) : State :=
  match make (s.fs n) p .dir with
  | .error e => unwind s (-1) (.fs e)
  | .ok t =>
    fanOut w (fun t => make t p .dir) (mkdirRet w.optimist) unwindLocal (s.setFs n t)
      { Local.init with opRet := 0 } (List.range n)

def unlinkRet (optimist : Bool) (loc : Local) : Option Refusal → Local
  | none => { loc with opRet := 0 }
  | some e =>
    { loc with
      opRet := if optimist = true ∧ e = .noEntry then 0 else loc.opRet,
      opErrno := .fs e }

def unifyRmdir (s : State) (p : Path) : State :=
  match rmdir (s.fs n) p with
  | .error e => unwind s (-1) (.fs e)
  | .ok t =>
    fanOut w (fun t => rmdir t p) (unlinkRet w.optimist) unwindLocal (s.setFs n t)
      Local.init (List.range n)

/-- `unify_unlink`; without a list the process does not survive the call. -/
def unifyUnlink (s : State) (p : Path) : Option State :=
  match inodeList n s p with
  | none => none
  | some list =>
    if list = [] then
      some (unwind s (-1) (.fs .noEntry))
    else
      some (fanOut w (fun t => unlink t p) (unlinkRet w.optimist) unwindLocal s Local.init list)

/-- The storage node has not made the file, and it is removed from the namespace again. -/
def undoMake (n : Nat) (s : State) (p : Path) (opErrno : Errno) : State :=
  match unlink (s.fs n) p with
  | .ok t => unwind (s.setFs n t) (-1) opErrno
  | .error _ => unwind s (-1) opErrno

/--
A new file, first on the namespace and then on the node of the scheduler.  The list is in the
context of the inode before the scheduler is asked.
-/
def makeFile (s : State) (p : Path) (content : Content) : State :=
  match make (s.fs n) p (.file ⟨s.tick, content⟩) with
  | .error e => unwind s (-1) (.fs e)
  | .ok t =>
    match w.schedule s.tick p with
    | none =>
      undoMake n { s.setFs n t with ctx := update s.ctx s.tick (some [n, 0]) } p .enotconn
    | some node =>
      let s' : State :=
        { s.setFs n t with ctx := update s.ctx s.tick (some [n, node]) }
      match make (s'.fs node) p (.file ⟨s.tick, content⟩) with
      | .error e => undoMake n s' p (.fs e)
      | .ok t => unwind (s'.setFs node t) 0 (.fs .noEntry)

def unifyCreate (s : State) (p : Path) : State :=
  makeFile w s p .regular

def unifyMknod (s : State) (p : Path) (rdev : Nat) : State :=
  makeFile w s p (.device rdev)

def unifySymlink (s : State) (target : String) (p : Path) : State :=
  makeFile w s p (.symlink target)

def unifyLinkCbk (old new : Path) (s : State) (node : Node) (_ : Unit) : State :=
  match link (s.fs node) old new with
  | .ok t => unwind (s.setFs node t) 0 (.fs .noEntry)
  | .error e => unwind s (-1) (.fs e)

def unifyLink (s : State) (old new : Path) : Option State :=
  match link (s.fs n) old new with
  | .error e => some (unwind s (-1) (.fs e))
  | .ok t =>
    match inodeList n s old with
    | none => none
    | some list =>
      some (gather (unifyLinkCbk old new) (s.setFs n t)
        (w.replies s (list.filter (fun node => node ≠ n))))

def renameRet (loc : Local) : Option Refusal → Local
  | none => { loc with opRet := 0 }
  | some e => { loc with opErrno := .fs e }

def undoRename (n : Nat) (s : State) (old new : Path) : State :=
  match rename (s.fs n) new old with
  | .ok t => s.setFs n t
  | .error _ => s

/--
The nodes that have the file whose place is taken, but for those that have the renamed file: in
the copy of the list these are replaced by the namespace, which is passed over.
-/
def renameUnlinks (n : Nat) (list dest : List Node) : List Node :=
  (dest.map (fun node => if node ∈ list then n else node)).filter (fun node => node ≠ n)

def renameLast (old new : Path) (isDir : Bool) (list : List Node) (dest : Option (List Node))
    (fr : Frame) : Frame :=
  if isDir then
    unwindLocal fr
  else if fr.loc.opRet = -1 then
    unwindLocal { fr with state := undoRename n fr.state old new }
  else
    match dest with
    | none => unwindLocal fr
    | some dest =>
      if renameUnlinks n list dest = [] then
        unwindLocal fr
      else
        { fr with
          state := fanOut w (fun t => unlink t new) (fun loc _ => loc) unwindLocal
            fr.state fr.loc (renameUnlinks n list dest) }

def unifyRename (s : State) (old new : Path) : Option State :=
  match rename (s.fs n) old new with
  | .error e => some (unwind s (-1) (.fs e))
  | .ok t =>
    let isDir : Bool := get (s.fs n) old = some .dir
    if get t new = some .dir then
      some (fanOut w (fun t => rename t old new) renameRet
        (renameLast w old new isDir [] (inodeList n s new)) (s.setFs n t) Local.init
        (List.range n))
    else
      match inodeList n s old with
      | none => none
      | some list =>
        if list.filter (fun node => node ≠ n) = [] then
          some (unwind (s.setFs n t) (-1) .eio)
        else
          some (fanOut w (fun t => rename t old new) renameRet
            (renameLast w old new isDir list (inodeList n s new)) (s.setFs n t) Local.init
            (list.filter (fun node => node ≠ n)))

inductive Call where
  | lookup (p : Path)
  | forget (inode : Nat)
  | create (p : Path)
  | mknod (p : Path) (rdev : Nat)
  | symlink (target : String) (p : Path)
  | link (old new : Path)
  | unlink (p : Path)
  | rename (old new : Path)
  | mkdir (p : Path)
  | rmdir (p : Path)

/--
A call on an inode comes after a lookup of its path; a path that is not found has no inode, and
this is what the caller is told.
-/
def lookedUp (s : State) (p : Path) (call : State → Option State) : Option State :=
  match get (s.fs n) p with
  | none => some (unwind s (-1) (.fs .noEntry))
  | some _ => call (unifyLookup w s p)

def perform (s : State) : Call → Option State
  | .lookup p => some (unifyLookup w s p)
  | .forget inode => some { s with ctx := update s.ctx inode none }
  | .create p => some (unifyCreate w s p)
  | .mknod p rdev => some (unifyMknod w s p rdev)
  | .symlink target p => some (unifySymlink w s target p)
  | .link old new => lookedUp w s old (fun s => unifyLink w s old new)
  | .unlink p => lookedUp w s p (fun s => unifyUnlink w s p)
  | .rename old new => lookedUp w s old (fun s => unifyRename w (unifyLookup w s new) old new)
  | .mkdir p => some (unifyMkdir w s p)
  | .rmdir p => lookedUp w s p (fun s => some (unifyRmdir w s p))

def step (s : State) (c : Call) : Option State :=
  (perform w s c).map (fun s => { s with tick := s.tick + 1 })

/-- A single file system, with what it has accepted and refused -/
structure Single where
  tree : Fs
  tick : Nat
  accepted : List Bool

def Call.onTree (tick : Nat) (t : Fs) : Call → Option (Except Refusal Fs)
  | .lookup _ => none
  | .forget _ => none
  | .create p => some (make t p (.file ⟨tick, .regular⟩))
  | .mknod p rdev => some (make t p (.file ⟨tick, .device rdev⟩))
  | .symlink target p => some (make t p (.file ⟨tick, .symlink target⟩))
  | .link old new => some (FileTree.link t old new)
  | .unlink p => some (FileTree.unlink t p)
  | .rename old new => some (FileTree.rename t old new)
  | .mkdir p => some (make t p .dir)
  | .rmdir p => some (FileTree.rmdir t p)

def accepts : Except Refusal Fs → Bool
  | .ok _ => true
  | .error _ => false

def after (t : Fs) : Except Refusal Fs → Fs
  | .ok t' => t'
  | .error _ => t

def Single.step (x : Single) (c : Call) : Single :=
  match c.onTree x.tick x.tree with
  | none => { x with tick := x.tick + 1 }
  | some r => ⟨after x.tree r, x.tick + 1, x.accepted ++ [accepts r]⟩

def Single.run (x : Single) (cs : List Call) : Single :=
  cs.foldl Single.step x

def State.accepted (s : State) : List Bool :=
  s.answers.map (fun a => decide (a.opRet = 0))

def State.single (n : Nat) (s : State) : Single :=
  ⟨s.fs n, s.tick, s.accepted⟩

/-- The volume is what the single file system is, and the callers were told the same. -/
structure Behaves (n : Nat) (s : State) (x : Single) : Prop where
  names : ∀ p, get (s.fs n) p = get x.tree p
  files : ∀ p file, get x.tree p = some (.file file) →
    ∃ node < n, get (s.fs node) p = some (.file file) ∧
      ∀ other < n, other ≠ node → get (s.fs other) p = none
  dirs : ∀ p, get x.tree p = some .dir → ∀ node < n, get (s.fs node) p = some .dir
  nothing : ∀ p, get x.tree p = none → ∀ node < n, get (s.fs node) p = none
  answers : s.accepted = x.accepted

/-- A file is on the node of its inode, and the contexts say so. -/
structure Placed (n : Nat) (place : Nat → Node) (s : State) (t : Fs) : Prop where
  ns : s.fs n = t
  place_lt : ∀ inode, place inode < n
  nodes : ∀ node < n, Restricts (fun file : File => place file.inode = node) t (s.fs node)
  ctx : ∀ inode list, s.ctx inode = some list → list.Perm [n, place inode]

/-- A volume as unify leaves it -/
structure Consistent (n : Nat) (s : State) : Prop where
  wellFormed : WellFormed (s.fs n)
  inodes : ∀ file, HasFile (s.fs n) file → file.inode < s.tick
  placed : ∃ place, Placed n place s (s.fs n)

def BehavesAll {n : Nat} (w : World n) (s : State) (cs : List Call) : Prop :=
  ∀ before, before <+: cs →
    ∃ s', run (step w) s before = some s' ∧ Behaves n s' ((s.single n).run before)

/-- The one kind of call that a single file system survives and the volume does not -/
def UnlinksDir (n : Nat) (s : State) : Call → Prop
  | .unlink p => get (s.fs n) p = some .dir
  | _ => False

instance (n : Nat) (s : State) : (c : Call) → Decidable (UnlinksDir n s c)
  | .unlink p => inferInstanceAs (Decidable (get (s.fs n) p = some .dir))
  | .lookup _ | .forget _ | .create _ | .mknod _ _ | .symlink _ _ | .link _ _ | .rename _ _
  | .mkdir _ | .rmdir _ => inferInstanceAs (Decidable False)

section

variable {op : Fs → Except Refusal Fs} {ret : Local → Option Refusal → Local} {s : State}
  {node : Node} {nodes : List Node} {t : Fs}

theorem setFs_self : (s.setFs node t).fs node = t :=
  update_self ..

theorem setFs_of_ne {other : Node} (h : other ≠ node) :
    (s.setFs node t).fs other = s.fs other :=
  update_of_ne h _ _

def State.served (s : State) (op : Fs → Except Refusal Fs) (nodes : List Node) : State :=
  { s with
    fs := fun node => if node ∈ nodes then after (s.fs node) (op (s.fs node)) else s.fs node }

theorem served_of_mem (h : node ∈ nodes) :
    (s.served op nodes).fs node = after (s.fs node) (op (s.fs node)) :=
  if_pos h

theorem served_of_not_mem (h : node ∉ nodes) : (s.served op nodes).fs node = s.fs node :=
  if_neg h

theorem served_cons (hnode : node ∉ nodes) (ht : op (s.fs node) = .ok t) :
    (s.setFs node t).served op nodes = s.served op (node :: nodes) := by
  unfold State.served State.setFs
  congr 1
  funext other
  by_cases heq : other = node
  · subst heq
    simp [hnode, ht, after]
  · simp [heq]

theorem gather_reply (hnd : nodes.Nodup) {fr : Frame}
    (hok : ∀ node ∈ nodes, ∃ t, op (fr.state.fs node) = .ok t) :
    gather (reply op ret) fr (nodes.map (fun node => (node, ()))) =
      ⟨fr.state.served op nodes, fr.callCount - nodes.length,
        (fun loc => ret loc none)^[nodes.length] fr.loc⟩ := by
  induction nodes generalizing fr with
  | nil => simp [State.served]
  | cons node nodes ih =>
    obtain ⟨hnode, hnodes⟩ := nodup_cons.mp hnd
    obtain ⟨t, ht⟩ := hok node mem_cons_self
    have hrep : reply op ret fr node () =
        ⟨fr.state.setFs node t, fr.callCount - 1, ret fr.loc none⟩ := by rw [reply, ht]
    rw [map_cons, gather_cons, hrep, ih hnodes]
    · rw [length_cons, Function.iterate_succ_apply, served_cons hnode ht]
      congr 1
      push_cast
      omega
    · intro other hmem
      obtain ⟨t', ht'⟩ := hok other (mem_cons_of_mem node hmem)
      have hne : other ≠ node := by
        rintro rfl
        exact hnode hmem
      exact ⟨t', by rw [setFs_of_ne hne, ht']⟩

theorem fanOut_ok (w : World n) (last : Frame → Frame) (loc : Local)
    {calls : List Node} (hne : calls ≠ []) (hnd : calls.Nodup)
    (hok : ∀ node ∈ calls, ∃ t, op (s.fs node) = .ok t) :
    ∃ k, fanOut w op ret last s loc calls =
      (last ⟨s.served op calls, 0, (fun loc => ret loc none)^[k + 1] loc⟩).state := by
  have hperm := w.order_perm s.tick calls
  have hlen : (w.order s.tick calls).length = calls.length := hperm.length_eq
  have hpos : 0 < calls.length := length_pos_iff.mpr hne
  have hsrv : s.served op (w.order s.tick calls) = s.served op calls := by
    simp only [State.served, hperm.mem_iff]
  refine ⟨calls.length - 1, ?_⟩
  unfold fanOut World.replies
  rw [gather_last (cbk op ret last) (reply op ret) last Frame.callCount (fun _ _ _ => rfl),
    gather_reply (hperm.nodup_iff.mpr hnd)]
  · simp only [hsrv, hlen, Int.sub_self, Nat.sub_add_cancel hpos]
  · intro node hnode
    exact hok node (hperm.mem_iff.mp hnode)
  · intro fr node u
    unfold reply
    split <;> rfl
  · rw [← length_pos_iff, length_map]
    omega
  · simp [hlen]

end

variable {r : Except Refusal Fs} {inode : Nat} {s : State} {x : Single} {c : Call}

section

variable {place : Nat → Node} {s : State} {t t' : Fs} {p old new : Path} {list : List Node}
  {file : File} {loc : Local} {op : Fs → Except Refusal Fs} {ret : Local → Option Refusal → Local}
  {s' : State} {node : Node}

/-- A call was served as a single file system would serve it. -/
structure Serves (n : Nat) (s : State) (t : Fs) (r : Except Refusal Fs) (s' : State) : Prop where
  placed : ∃ place, Placed n place s' (after t r)
  answered : s'.accepted = s.accepted ++ [accepts r]
  tick : s'.tick = s.tick

theorem accepted_unwind (s : State) (opRet : Int) (opErrno : Errno) :
    (unwind s opRet opErrno).accepted = s.accepted ++ [decide (opRet = 0)] := by
  simp [State.accepted, unwind]

variable (h : Placed n place s t)
include h

theorem Placed.unwind (opRet : Int) (opErrno : Errno) : Placed n place (unwind s opRet opErrno) t :=
  { h with }

theorem Placed.refused (e : Refusal) (opErrno : Errno) :
    Serves n s t (.error e) (Volume.unwind s (-1) opErrno) where
  placed := ⟨place, h.unwind _ _⟩
  answered := accepted_unwind _ _ _
  tick := rfl

theorem Placed.ne_ns (inode : Nat) : place inode ≠ n :=
  Nat.ne_of_lt (h.place_lt inode)

theorem Placed.nodup (hctx : s.ctx inode = some list) : list.Nodup := by
  refine (h.ctx inode list hctx).nodup_iff.mpr ?_
  simpa using (h.ne_ns inode).symm

theorem Placed.mem_ctx (hctx : s.ctx inode = some list) :
    node ∈ list ↔ node = n ∨ node = place inode := by
  rw [(h.ctx inode list hctx).mem_iff]
  simp

theorem Placed.inodeList_eq (hfile : get t p = some (.file file))
    (hctx : s.ctx file.inode = some list) : inodeList n s p = some list := by
  rw [inodeList, h.ns, hfile]
  exact hctx

theorem Placed.storage (hctx : s.ctx inode = some list) :
    list.filter (fun node => node ≠ n) = [place inode] := by
  have hperm := (h.ctx inode list hctx).filter (fun node => decide (node ≠ n))
  rw [filter_cons_of_neg (by simp), filter_cons_of_pos (by simpa using h.ne_ns inode),
    filter_nil] at hperm
  exact perm_singleton.mp hperm

theorem Placed.lookup (p : Path) : Placed n place (unifyLookup w s p) t := by
  unfold unifyLookup
  rw [h.ns]
  split
  · rename_i file hfile
    split
    · exact h
    · refine { h with ctx := ?_ }
      intro inode list hlist
      by_cases hino : inode = file.inode
      · subst hino
        simp only [update_self, some.injEq] at hlist
        subst hlist
        have hnd : (w.order s.tick (range (n + 1))).Nodup :=
          (w.order_perm _ _).nodup_iff.mpr nodup_range
        rw [perm_ext_iff_of_nodup (hnd.filter _) (by simpa using (h.ne_ns _).symm)]
        intro node
        rw [mem_filter, (w.order_perm _ _).mem_iff, mem_range, mem_cons,
          mem_singleton]
        constructor
        · rintro ⟨hlt, hisFile⟩
          by_cases hns : node = n
          · exact .inl hns
          · by_contra hnot
            have hlt' : node < n := Nat.lt_of_le_of_ne (Nat.lt_succ_iff.mp hlt) hns
            have hhid := (h.nodes node hlt').hidden hfile
              (by simpa using fun heq => hnot (.inr heq.symm))
            simp [isFile, hhid] at hisFile
        · rintro (rfl | rfl)
          · exact ⟨by omega, by simp [isFile, h.ns, hfile]⟩
          · have hlt := h.place_lt file.inode
            have hget := (h.nodes _ hlt).file hfile (by simp)
            exact ⟨lt_succ_of_lt hlt, by simp [isFile, hget]⟩
      · simp only [update_of_ne hino] at hlist
        exact h.ctx inode list hlist
  · exact h

omit h

theorem unifyLookup_same (s : State) (p : Path) :
    (unifyLookup w s p).fs = s.fs ∧ (unifyLookup w s p).tick = s.tick ∧
      (unifyLookup w s p).accepted = s.accepted := by
  unfold unifyLookup
  split
  · split <;> exact ⟨rfl, rfl, rfl⟩
  · exact ⟨rfl, rfl, rfl⟩

theorem Serves.of_lookup {w : World n} (h : Serves n (unifyLookup w s p) t r s') :
    Serves n s t r s' := by
  obtain ⟨_, htick, hacc⟩ := unifyLookup_same w s p
  exact ⟨h.placed, by rw [h.answered, hacc], by rw [h.tick, htick]⟩

theorem unifyLookup_ctx (hfile : get (s.fs n) p = some (.file file)) :
    ∃ list, (unifyLookup w s p).ctx file.inode = some list := by
  cases hctx : s.ctx file.inode with
  | some list => exact ⟨list, by simp [unifyLookup, hfile, hctx]⟩
  | none =>
    simp [unifyLookup, hfile, hctx]

theorem opRet_iterate
    (hret : ∀ loc, (ret loc none).opRet = 0) (k : Nat) (loc : Local) :
    ((fun loc => ret loc none)^[k + 1] loc).opRet = 0 := by
  rw [Function.iterate_succ_apply']
  exact hret _

theorem Placed.answered (h : Placed n place s t') (s₀ : State) (t : Fs) (hret : loc.opRet = 0)
    (hacc : s.accepted = s₀.accepted) (htick : s.tick = s₀.tick) (callCount : Int) :
    Serves n s₀ t (.ok t') (unwindLocal ⟨s, callCount, loc⟩).state where
  placed := ⟨place, h.unwind _ _⟩
  answered := by
    show (Volume.unwind s loc.opRet loc.opErrno).accepted = _
    rw [accepted_unwind, hacc, hret]
    rfl
  tick := htick

include h

theorem Placed.onAll {last : Frame → Frame}
    (hop : ∀ keep sub, Restricts keep t sub → ∃ sub', op sub = .ok sub' ∧ Restricts keep t' sub')
    (hret : ∀ loc, (ret loc none).opRet = 0) (hlast : ∀ fr, last fr = unwindLocal fr) (loc : Local)
    : Serves n s t (.ok t') (fanOut w op ret last (s.setFs n t') loc (range n)) := by
  have hfs : ∀ node < n, (s.setFs n t').fs node = s.fs node := fun node hnode =>
    setFs_of_ne (Nat.ne_of_lt hnode)
  have hnil : range n ≠ [] := by
    have := h.place_lt 0
    simp only [ne_eq, range_eq_nil]
    exact Nat.ne_zero_of_lt this
  obtain ⟨k, hk⟩ := @fanOut_ok n op ret (s.setFs n t') w last loc (range n) hnil
    nodup_range (by
      intro node hnode
      rw [mem_range] at hnode
      obtain ⟨sub', hsub', _⟩ := hop _ _ (h.nodes node hnode)
      exact ⟨sub', by rw [hfs node hnode, hsub']⟩)
  have hpl : Placed n place ((s.setFs n t').served op (range n)) t' := by
    refine { h with ns := ?_, nodes := ?_ }
    · rw [served_of_not_mem (by simp), setFs_self]
    · intro node hnode
      obtain ⟨sub', hsub', hrestr⟩ := hop _ _ (h.nodes node hnode)
      rw [served_of_mem (mem_range.mpr hnode), hfs node hnode, hsub']
      exact hrestr
  rw [hk, hlast]
  exact hpl.answered s t (opRet_iterate hret k loc) rfl rfl 0

theorem Placed.serves_mkdir (p : Path) : Serves n s t (make t p .dir) (unifyMkdir w s p) := by
  unfold unifyMkdir
  rw [h.ns]
  cases hmake : make t p .dir with
  | error e => exact h.refused e _
  | ok t' =>
    exact h.onAll w (fun keep sub hsub => hsub.make rfl hmake) (fun _ => rfl) (fun _ => rfl) _

theorem Placed.serves_rmdir (p : Path) : Serves n s t (rmdir t p) (unifyRmdir w s p) := by
  unfold unifyRmdir
  rw [h.ns]
  cases hrmdir : rmdir t p with
  | error e => exact h.refused e _
  | ok t' =>
    exact h.onAll w (fun keep sub hsub => hsub.rmdir hrmdir) (fun _ => rfl) (fun _ => rfl) _

theorem Placed.serves_unlink (hfile : get t p = some (.file file))
    (hctx : s.ctx file.inode = some list) :
    ∃ s', unifyUnlink w s p = some s' ∧ Serves n s t (unlink t p) s' := by
  have hunlk : unlink t p = .ok (remove t p) := unlink_eq_ok_iff.mpr ⟨⟨file, hfile⟩, rfl⟩
  have hmem : ∀ node, node ∈ list ↔ node = n ∨ node = place file.inode := fun node =>
    h.mem_ctx hctx
  have hnil : list ≠ [] := ne_nil_of_mem ((hmem n).mpr (.inl rfl))
  have hplace : get (s.fs (place file.inode)) p = some (.file file) :=
    (h.nodes _ (h.place_lt _)).file hfile (by simp)
  have hok : ∀ node ∈ list, unlink (s.fs node) p = .ok (remove (s.fs node) p) := by
    intro node hnode
    rw [unlink_eq_ok_iff]
    rcases (hmem node).mp hnode with rfl | rfl
    · exact ⟨⟨file, h.ns ▸ hfile⟩, rfl⟩
    · exact ⟨⟨file, hplace⟩, rfl⟩
  have hlist := h.inodeList_eq hfile hctx
  refine ⟨_, by rw [unifyUnlink, hlist]; exact if_neg hnil, ?_⟩
  obtain ⟨k, hk⟩ := @fanOut_ok n (fun t => unlink t p) (unlinkRet w.optimist) s w unwindLocal
    Local.init list hnil (h.nodup hctx) (fun node hnode => ⟨_, hok node hnode⟩)
  have hpl : Placed n place (s.served (fun t => unlink t p) list) (remove t p) := by
    refine { h with ns := ?_, nodes := ?_ }
    · have hns := (hmem n).mpr (.inl rfl)
      rw [served_of_mem hns, hok n hns, h.ns]
      rfl
    · intro node hnode
      have hsub := h.nodes node hnode
      by_cases hlist : node ∈ list
      · rw [served_of_mem hlist, hok node hlist]
        exact hsub.remove p
      · rw [served_of_not_mem hlist]
        refine hsub.remove_hidden (hsub.hidden hfile ?_)
        rw [decide_eq_false_iff_not]
        exact fun heq => hlist ((hmem node).mpr (.inr heq.symm))
  rw [hk, hunlk]
  exact hpl.answered s t (@opRet_iterate (unlinkRet w.optimist) (fun _ => rfl) k _) rfl rfl 0

theorem Placed.restricts_of_file {op : Fs → Except Refusal Fs} {inode : Nat}
    (hkept : ∀ sub, Restricts (fun file : File => place file.inode = place inode) t sub →
      ∃ sub', op sub = .ok sub' ∧
        Restricts (fun file : File => place file.inode = place inode) t' sub')
    (hhid : ∀ node < n, node ≠ place inode → ∀ sub,
      Restricts (fun file : File => place file.inode = node) t sub →
        Restricts (fun file : File => place file.inode = node) t' sub) :
    ∃ sub', op (s.fs (place inode)) = .ok sub' ∧
      Placed n place ((s.setFs n t').setFs (place inode) sub') t' := by
  obtain ⟨sub', hsub', hrestr⟩ := hkept _ (h.nodes _ (h.place_lt inode))
  refine ⟨sub', hsub', { h with ns := ?_, nodes := ?_ }⟩
  · rw [setFs_of_ne (h.ne_ns inode).symm, setFs_self]
  · intro node hnode
    by_cases heq : node = place inode
    · subst heq
      rw [setFs_self]
      exact hrestr
    · rw [setFs_of_ne heq, setFs_of_ne (Nat.ne_of_lt hnode)]
      exact hhid node hnode heq _ (h.nodes node hnode)

theorem Placed.serves_link (hfile : get t old = some (.file file))
    (hctx : s.ctx file.inode = some list) :
    ∃ s', unifyLink w s old new = some s' ∧ Serves n s t (link t old new) s' := by
  unfold unifyLink
  rw [h.ns]
  cases hlink : link t old new with
  | error e => exact ⟨_, rfl, h.refused e _⟩
  | ok t' =>
    have hlist := h.inodeList_eq hfile hctx
    obtain ⟨sub', hsub', hpl⟩ := @restricts_of_file n place s t t' h
      (fun t => link t old new) file.inode
      (fun sub hsub => hsub.link hfile (by simp) hlink)
      (fun node _ hne sub hsub => hsub.link_hidden hfile (by simpa using hne.symm) hlink)
    have hreps : w.replies s [place file.inode] = [(place file.inode, ())] := by
      unfold World.replies
      rw [perm_singleton.mp (w.order_perm s.tick _)]
      rfl
    rw [hlist]
    refine ⟨_, rfl, ?_⟩
    rw [h.storage hctx, hreps, gather_cons, gather_nil, unifyLinkCbk,
      setFs_of_ne (h.ne_ns _), hsub']
    exact hpl.answered s t (show (⟨0, .fs .noEntry, false⟩ : Local).opRet = 0 from rfl) rfl rfl 0

theorem Placed.newPlace
    (hinos : ∀ file, HasFile t file → file.inode < s.tick) (hnode : node < n) :
    Placed n (update place s.tick node)
      { s with ctx := update s.ctx s.tick (some [n, node]) } t := by
  refine { h with place_lt := ?_, nodes := ?_, ctx := ?_ }
  · intro inode
    by_cases heq : inode = s.tick
    · rw [heq, update_self]
      exact hnode
    · rw [update_of_ne heq]
      exact h.place_lt inode
  · intro other hoth
    refine (h.nodes other hoth).congr ?_
    intro q file hfile
    have hne : file.inode ≠ s.tick := Nat.ne_of_lt (hinos file ⟨q, hfile⟩)
    rw [update_of_ne hne]
  · intro inode list hlist
    by_cases heq : inode = s.tick
    · subst heq
      simp only [update_self, some.injEq] at hlist ⊢
      exact hlist ▸ Perm.refl _
    · simp only [update_of_ne heq] at hlist ⊢
      exact h.ctx inode list hlist

theorem Placed.serves_makeFile
    (hinos : ∀ file, HasFile t file → file.inode < s.tick) (w : World n) (p : Path)
    (content : Content) :
    Serves n s t (make t p (.file ⟨s.tick, content⟩)) (makeFile w s p content) := by
  unfold makeFile
  rw [h.ns]
  cases hmake : make t p (.file ⟨s.tick, content⟩) with
  | error e => exact h.refused e _
  | ok t' =>
    obtain ⟨node, hnode, hsched⟩ := w.schedule_lt s.tick p
    have hplace : update place s.tick node s.tick = node := update_self ..
    obtain ⟨sub', hsub', hpl⟩ := @restricts_of_file n _ _ t t'
      (h.newPlace hinos hnode) (fun t => make t p (.file ⟨s.tick, content⟩)) s.tick
      (fun sub hsub => hsub.make (by simp [visible]) hmake)
      (fun other _ hne sub hsub => hsub.make_hidden (by simpa using hne.symm) hmake)
    rw [hplace] at hsub' hpl
    have hfs : update s.fs n t' node = s.fs node :=
      update_of_ne (Nat.ne_of_lt hnode) _ _
    simp only [hsched, State.setFs, hfs, hsub']
    exact hpl.answered s t (show (⟨0, .fs .noEntry, false⟩ : Local).opRet = 0 from rfl) rfl rfl 0

theorem Placed.renameUnlinks {inode' : Nat} {dest : List Node} (hctx : s.ctx inode = some list)
    (hctx' : s.ctx inode' = some dest) :
    renameUnlinks n list dest = if place inode' = place inode then [] else [place inode'] := by
  have hperm : (Volume.renameUnlinks n list dest).Perm
      (Volume.renameUnlinks n list [n, place inode']) :=
    ((h.ctx inode' dest hctx').map _).filter _
  have hval : Volume.renameUnlinks n list [n, place inode'] =
      if place inode' = place inode then [] else [place inode'] := by
    by_cases heq : place inode' = place inode
    · simp [Volume.renameUnlinks, h.mem_ctx hctx, heq]
    · simp [Volume.renameUnlinks, h.mem_ctx hctx, heq, h.ne_ns inode']
  rw [hval] at hperm
  split_ifs at hperm ⊢
  · exact hperm.eq_nil
  · exact perm_singleton.mp hperm

theorem Placed.renamed (hwf : WellFormed t)
    (hfile : get t old = some (.file file)) (hren : rename t old new = .ok t')
    (hctx : s'.ctx = s.ctx) (hns : s'.fs n = t')
    (hplace : rename (s.fs (place file.inode)) old new = .ok (s'.fs (place file.inode)))
    (hoth : ∀ node < n, node ≠ place file.inode →
      ∀ q, get (s'.fs node) q = get (remove (s.fs node) new) q) : Placed n place s' t' := by
  refine ⟨hns, h.place_lt, ?_, hctx ▸ h.ctx⟩
  intro node hnode
  by_cases heq : node = place file.inode
  · subst heq
    obtain ⟨sub', hsub', hrestr⟩ := (h.nodes _ hnode).rename_file hfile (by simp) hren
    rw [hplace] at hsub'
    cases hsub'
    exact hrestr
  · refine ((h.nodes node hnode).rename_remove hwf hfile ?_ hren).of_get_eq
      (hoth node hnode heq)
    simpa using Ne.symm heq

/-- The callback of the rename on the storage node, where the place of another file may be taken -/
theorem Placed.serves_renameLast (hwf : WellFormed t) (w : World n)
    (hfile : get t old = some (.file file)) (hctx : s.ctx file.inode = some list)
    (hnew : ∀ other, get t new = some (.file other) → ∃ dest, s.ctx other.inode = some dest)
    (hren : rename t old new = .ok t') (hloc : loc.opRet = 0)
    (hs' : s' = (s.setFs n t').served (fun t => rename t old new) [place file.inode]) :
    Serves n s t (.ok t')
      (renameLast w old new false list (inodeList n s new) ⟨s', 0, loc⟩).state := by
  obtain ⟨sub', hsub', _⟩ := (h.nodes _ (h.place_lt file.inode)).rename_file hfile (by simp) hren
  have hns : s'.fs n = t' := by
    rw [hs', served_of_not_mem (by simpa using (h.ne_ns file.inode).symm), setFs_self]
  have hplace : s'.fs (place file.inode) = sub' := by
    rw [hs', served_of_mem (by simp), setFs_of_ne (h.ne_ns _), hsub']
    rfl
  have hoth : ∀ node < n, node ≠ place file.inode → s'.fs node = s.fs node := by
    intro node hnode hne
    rw [hs', served_of_not_mem (by simpa using hne), setFs_of_ne (Nat.ne_of_lt hnode)]
  have hret : ¬ loc.opRet = -1 := by omega
  -- no file is in the way on a node other than that of the renamed file
  have hfree : (∀ node < n, node ≠ place file.inode → get (s.fs node) new = none) →
      Serves n s t (.ok t') (unwindLocal ⟨s', 0, loc⟩).state := by
    intro hnone
    have hpl : Placed n place s' t' := by
      refine h.renamed hwf hfile hren (by rw [hs']; rfl) hns (by rw [hplace, hsub']) ?_
      intro node hnode hne q
      rw [hoth node hnode hne, get_remove_of_none (hnone node hnode hne)]
    exact hpl.answered s t hloc (by rw [hs']; rfl) (by rw [hs']; rfl) 0
  unfold renameLast
  rw [if_neg (by simp), if_neg hret]
  cases hget : get t new with
  | none =>
    have hdest : inodeList n s new = none := by simp [inodeList, h.ns, hget]
    rw [hdest]
    exact hfree (fun node hnode _ => (h.nodes node hnode).none hget)
  | some o =>
    cases o with
    | dir => exact absurd hget (get_ne_dir_of_rename hren hfile)
    | file other =>
      obtain ⟨dest, hdest⟩ := hnew other hget
      have hlist := h.inodeList_eq hget hdest
      have hhid : ∀ node < n, node ≠ place other.inode → get (s.fs node) new = none := by
        intro node hnode hne
        exact (h.nodes node hnode).hidden hget (by simpa using hne.symm)
      rw [hlist]
      simp only [h.renameUnlinks hctx hdest]
      by_cases heq : place other.inode = place file.inode
      · rw [if_pos heq, if_pos rfl]
        exact hfree (fun node hnode hne => hhid node hnode (heq ▸ hne))
      · rw [if_neg heq, if_neg (by simp)]
        have hunlk : unlink (s'.fs (place other.inode)) new =
            .ok (remove (s.fs (place other.inode)) new) := by
          have hlt := h.place_lt other.inode
          rw [hoth _ hlt heq, unlink_eq_ok_iff]
          exact ⟨⟨other, (h.nodes _ hlt).file hget (by simp)⟩, rfl⟩
        obtain ⟨k, hk⟩ := @fanOut_ok n (fun t => unlink t new) (fun loc _ => loc) s' w
          unwindLocal loc [place other.inode] (by simp) (by simp)
          (by simpa using ⟨_, hunlk⟩)
        have hsame : (fun loc : Local => loc)^[k + 1] loc = loc :=
          Function.iterate_fixed rfl (k + 1)
        have hpl : Placed n place
            (s'.served (fun t => unlink t new) [place other.inode]) t' := by
          refine h.renamed hwf hfile hren (by rw [hs']; rfl) ?_ ?_ ?_
          · rw [served_of_not_mem (by simpa using (h.ne_ns other.inode).symm), hns]
          · rw [served_of_not_mem (by simpa using Ne.symm heq), hplace, hsub']
          · intro node hnode hne q
            by_cases hnode' : node = place other.inode
            · rw [hnode', served_of_mem (by simp), hunlk]
              rfl
            · rw [served_of_not_mem (by simpa using hnode'), hoth node hnode hne,
                get_remove_of_none (hhid node hnode hnode')]
        rw [hk, hsame]
        exact hpl.answered s t hloc (by rw [hs']; rfl) (by rw [hs']; rfl) 0

theorem Placed.serves_rename (hwf : WellFormed t) (w : World n)
    {o : Object File} (hold : get t old = some o)
    (hctx : ∀ file, get t old = some (.file file) → ∃ list, s.ctx file.inode = some list)
    (hnew : ∀ file, get t new = some (.file file) → ∃ list, s.ctx file.inode = some list) :
    ∃ s', unifyRename w s old new = some s' ∧ Serves n s t (rename t old new) s' := by
  unfold unifyRename
  rw [h.ns]
  cases hren : rename t old new with
  | error e => exact ⟨_, rfl, h.refused e _⟩
  | ok t' =>
    have hget : get t' new = some o := (get_rename hren).trans hold
    cases o with
    | dir =>
      simp only [hget, hold]
      exact ⟨_, rfl, h.onAll w (fun keep sub hsub => hsub.rename_dir hold hren)
        (fun _ => rfl) (fun _ => rfl) _⟩
    | file file =>
      obtain ⟨list, hlist⟩ := hctx file hold
      have hino := h.inodeList_eq hold hlist
      have hok : ∃ sub', rename ((s.setFs n t').fs (place file.inode)) old new = .ok sub' := by
        obtain ⟨sub', hsub', _⟩ :=
          (h.nodes _ (h.place_lt file.inode)).rename_file hold (by simp) hren
        exact ⟨sub', by rw [setFs_of_ne (h.ne_ns _), hsub']⟩
      obtain ⟨k, hk⟩ := @fanOut_ok n (fun t => rename t old new) renameRet (s.setFs n t') w
        (renameLast w old new false list (inodeList n s new)) Local.init
        [place file.inode] (by simp) (by simp) (by simpa using hok)
      simp only [hget, hold, hino, h.storage hlist]
      refine ⟨_, rfl, ?_⟩
      show Serves n s t (.ok t') (fanOut w _ renameRet
        (renameLast w old new false list (inodeList n s new)) _ _ _)
      rw [hk]
      exact h.serves_renameLast hwf w hold hlist hnew hren
        (@opRet_iterate renameRet (fun _ => rfl) k _) rfl

theorem Placed.serves_lookedUp {call : State → Option State}
    (hnone : get t p = none → r = .error .noEntry)
    (hcall : ∀ o, get t p = some o → ∃ s', call (unifyLookup w s p) = some s' ∧
      Serves n (unifyLookup w s p) t r s')
    : ∃ s', lookedUp w s p call = some s' ∧ Serves n s t r s' := by
  unfold lookedUp
  rw [h.ns]
  cases hget : get t p with
  | none =>
    rw [hnone hget]
    exact ⟨_, rfl, h.refused _ _⟩
  | some o =>
    obtain ⟨s', hs', hserves⟩ := hcall o hget
    exact ⟨s', hs', hserves.of_lookup⟩

theorem Placed.lookup_ctx (hfile : get t p = some (.file file)) :
    ∃ list, (unifyLookup w s p).ctx file.inode = some list :=
  unifyLookup_ctx w (h.ns ▸ hfile)

end

theorem unifyLookup_ctx_of_some (p : Path) {list : List Node} (h : s.ctx inode = some list) :
    (unifyLookup w s p).ctx inode = some list := by
  unfold unifyLookup
  split
  · rename_i file _
    split
    · exact h
    · rename_i hnone
      have hne : inode ≠ file.inode := by
        rintro rfl
        simp [h] at hnone
      rw [← h]
      exact update_of_ne hne _ _
  · exact h

theorem Consistent.serves (h : Consistent n s) (w : World n)
    (hr : c.onTree s.tick (s.fs n) = some r) (hc : ¬ UnlinksDir n s c) :
    ∃ s', perform w s c = some s' ∧ Serves n s (s.fs n) r s' := by
  obtain ⟨place, hpl⟩ := h.placed
  cases c with
  | lookup p | forget inode => cases hr
  | create p | mknod p rdev | symlink target p =>
    cases hr
    exact ⟨_, rfl, hpl.serves_makeFile h.inodes w p _⟩
  | mkdir p =>
    cases hr
    exact ⟨_, rfl, hpl.serves_mkdir w p⟩
  | rmdir p =>
    cases hr
    show ∃ s', lookedUp w s p (fun s => some (unifyRmdir w s p)) = some s' ∧ _
    refine hpl.serves_lookedUp w (fun hnone => by rw [rmdir, hnone]) ?_
    intro o _
    exact ⟨_, rfl, (hpl.lookup w p).serves_rmdir w p⟩
  | link old new =>
    cases hr
    show ∃ s', lookedUp w s old (fun s => unifyLink w s old new) = some s' ∧ _
    refine hpl.serves_lookedUp w (fun hnone => by rw [link, hnone]) ?_
    intro o ho
    cases o with
    | dir =>
      have hlink : link (s.fs n) old new = .error .notPermitted := by rw [link, ho]
      refine ⟨unwind (unifyLookup w s old) (-1) (.fs .notPermitted),
        by simp only [unifyLink, (unifyLookup_same w s old).1, hlink], ?_⟩
      rw [hlink]
      exact (hpl.lookup w old).refused _ _
    | file file =>
      obtain ⟨list, hlist⟩ := hpl.lookup_ctx w ho
      exact (hpl.lookup w old).serves_link w ho hlist
  | unlink p =>
    cases hr
    show ∃ s', lookedUp w s p (fun s => unifyUnlink w s p) = some s' ∧ _
    refine hpl.serves_lookedUp w (fun hnone => by rw [unlink, hnone]) ?_
    intro o ho
    cases o with
    | dir => exact absurd ho hc
    | file file =>
      obtain ⟨list, hlist⟩ := hpl.lookup_ctx w ho
      exact (hpl.lookup w p).serves_unlink w ho hlist
  | rename old new =>
    cases hr
    show ∃ s', lookedUp w s old (fun s => unifyRename w (unifyLookup w s new) old new) = some s' ∧ _
    refine hpl.serves_lookedUp w (fun hnone => by rw [rename, hnone]) ?_
    intro o ho
    have hpl' := hpl.lookup w old
    obtain ⟨s', hs', hserves⟩ := (hpl'.lookup w new).serves_rename h.wellFormed w ho
        (fun file hfile => by
          obtain ⟨list, hlist⟩ := hpl.lookup_ctx w hfile
          exact ⟨list, unifyLookup_ctx_of_some w new hlist⟩)
        (fun file hfile => hpl'.lookup_ctx w hfile)
    exact ⟨s', hs', hserves.of_lookup⟩

theorem Consistent.onTree (h : Consistent n s) {t : Fs}
    (hr : c.onTree s.tick (s.fs n) = some (.ok t)) :
    WellFormed t ∧ ∀ file, HasFile t file → file.inode < s.tick + 1 := by
  have hold : ∀ file, HasFile (s.fs n) file → file.inode < s.tick + 1 := fun file hfile =>
    lt_succ_of_lt (h.inodes file hfile)
  have hmake : ∀ p content, make (s.fs n) p (.file ⟨s.tick, content⟩) = .ok t →
      WellFormed t ∧ ∀ file, HasFile t file → file.inode < s.tick + 1 := by
    intro p content hmake
    refine ⟨h.wellFormed.make hmake, fun file hfile => ?_⟩
    rcases hasFile_of_make hmake hfile with hfile | heq
    · exact hold file hfile
    · cases heq
      exact lt_succ_self _
  cases c with
  | lookup p | forget inode => cases hr
  | create p | mknod p rdev | symlink target p => exact hmake p _ (some.inj hr)
  | mkdir p =>
    have hr := some.inj hr
    refine ⟨h.wellFormed.make hr, fun file hfile => hold file ?_⟩
    rcases hasFile_of_make hr hfile with hfile | heq
    · exact hfile
    · cases heq
  | rmdir p =>
    have hr := some.inj hr
    exact ⟨h.wellFormed.rmdir hr, fun file hfile => hold file (hasFile_of_rmdir hr hfile)⟩
  | link old new =>
    have hr := some.inj hr
    exact ⟨h.wellFormed.link hr, fun file hfile => hold file (hasFile_of_link hr hfile)⟩
  | unlink p =>
    have hr := some.inj hr
    exact ⟨h.wellFormed.unlink hr, fun file hfile => hold file (hasFile_of_unlink hr hfile)⟩
  | rename old new =>
    have hr := some.inj hr
    exact ⟨h.wellFormed.rename hr, fun file hfile => hold file (hasFile_of_rename hr hfile)⟩

/-- The volume and the single file system that it follows -/
structure Follows (n : Nat) (s : State) (x : Single) : Prop where
  consistent : Consistent n s
  single : s.single n = x

theorem Follows.behaves (h : Follows n s x) : Behaves n s x := by
  obtain ⟨place, hpl⟩ := h.consistent.placed
  cases h.single
  refine ⟨fun _ => rfl, ?_, ?_, ?_, rfl⟩
  · intro p file hfile
    have hlt := hpl.place_lt file.inode
    refine ⟨place file.inode, hlt, (hpl.nodes _ hlt).file hfile (by simp), ?_⟩
    intro other hoth hne
    exact (hpl.nodes other hoth).hidden hfile (by simpa using hne.symm)
  · intro p hdir node hnode
    exact (hpl.nodes node hnode).dir hdir
  · intro p hnone node hnode
    exact (hpl.nodes node hnode).none hnone

theorem Consistent.looks (h : Consistent n s) (w : World n) (hr : c.onTree s.tick (s.fs n) = none) :
    ∃ s', perform w s c = some s' ∧ s'.fs = s.fs ∧ s'.tick = s.tick ∧
      s'.accepted = s.accepted ∧ ∃ place, Placed n place s' (s.fs n) := by
  obtain ⟨place, hpl⟩ := h.placed
  cases c with
  | lookup p =>
    obtain ⟨hfs, htick, hacc⟩ := unifyLookup_same w s p
    exact ⟨_, rfl, hfs, htick, hacc, place, hpl.lookup w p⟩
  | forget inode =>
    refine ⟨_, rfl, rfl, rfl, rfl, place, { hpl with ctx := ?_ }⟩
    intro inode' list hlist
    by_cases heq : inode' = inode
    · subst heq
      simp at hlist
    · simp only [update_of_ne heq] at hlist
      exact hpl.ctx inode' list hlist
  | create p | mknod p rdev | symlink target p | mkdir p | rmdir p | link old new | unlink p
  | rename old new => cases hr

theorem Follows.over {place : Nat → Node} {t : Fs} {tick : Nat} {accepted : List Bool}
    (hpl : Placed n place s t) (hwf : WellFormed t)
    (hinos : ∀ file, HasFile t file → file.inode < tick + 1) (htick : s.tick = tick)
    (hacc : s.accepted = accepted) :
    Follows n { s with tick := s.tick + 1 } ⟨t, tick + 1, accepted⟩ := by
  obtain rfl := hpl.ns
  subst htick hacc
  exact ⟨⟨hwf, hinos, place, { hpl with }⟩, rfl⟩

theorem Follows.step (h : Follows n s x) (w : World n) (hc : ¬ UnlinksDir n s c) :
    ∃ s', step w s c = some s' ∧ Follows n s' (x.step c) := by
  cases h.single
  have hs := h.consistent
  have hinos : ∀ file, HasFile (s.fs n) file → file.inode < s.tick + 1 := fun file hfile =>
    lt_succ_of_lt (hs.inodes file hfile)
  unfold Volume.step Single.step
  cases hr : c.onTree s.tick (s.fs n) with
  | none =>
    obtain ⟨s', hs', _, htick, hacc, place, hpl⟩ := hs.looks w hr
    refine ⟨_, by rw [hs']; rfl, ?_⟩
    simp only [State.single, hr]
    exact Follows.over hpl hs.wellFormed hinos htick hacc
  | some r =>
    obtain ⟨s', hs', ⟨place, hpl⟩, hans, htick⟩ := hs.serves w hr hc
    refine ⟨_, by rw [hs']; rfl, ?_⟩
    simp only [State.single, hr]
    cases r with
    | error e => exact Follows.over hpl hs.wellFormed hinos htick hans
    | ok t =>
      obtain ⟨hwf, hinos⟩ := hs.onTree hr
      exact Follows.over hpl hwf hinos htick hans

theorem step_of_unlinksDir (hc : UnlinksDir n s c) : step w s c = none := by
  cases c with
  | unlink p =>
    have hdir : get (s.fs n) p = some .dir := hc
    simp [Volume.step, perform, lookedUp, hdir, unifyUnlink, inodeList, unifyLookup_same]
  | lookup p | forget inode | create p | mknod p rdev | symlink target p | link old new
  | rename old new | mkdir p | rmdir p => exact hc.elim

/--
The volume follows a single file system through the calls, with the same answers, exactly when
none of them is an unlink of a directory.
-/
theorem behaves_iff (w : World n) (h : Consistent n s) (cs : List Call) :
    BehavesAll w s cs ↔ AllSteps (Volume.step w) (fun s c => ¬ UnlinksDir n s c) s cs := by
  refine @always_iff_allSteps _ _ (Volume.step w) s _ _
    (fun before s' => Follows n s' ((s.single n).run before)) ⟨h, rfl⟩ ?_ ?_ ?_ cs
  · intro before m c hm hc
    obtain ⟨s', hs', hfol⟩ := hm.step w hc
    refine ⟨s', hs', ?_⟩
    rw [Single.run, List.foldl_append]
    exact hfol
  · intro before m hm
    exact hm.behaves
  · intro before m c s' _ hc hs'
    simp [step_of_unlinksDir w (not_not.mp hc)] at hs'

def State.mkfs : State where
  fs := fun _ => [([], .dir)]
  ctx := fun _ => none
  tick := 0
  answers := []

theorem consistent_mkfs (n : Nat) : Consistent (n + 1) State.mkfs := by
  have hget : ∀ p : Path, get ([([], .dir)] : Fs) p = if [] = p then some .dir else none :=
    fun p => get_cons _ _ _
  refine ⟨⟨rfl, ?_⟩, ?_, fun _ => 0, rfl, fun _ => succ_pos n, ?_, ?_⟩
  · intro p x o ho
    have hnone := (hget (p ++ [x])).symm.trans ho
    simp at hnone
  · rintro file ⟨p, hp⟩
    have hdir := (hget p).symm.trans hp
    split_ifs at hdir
    cases hdir
  · intro node _
    constructor
    intro p
    show get ([([], .dir)] : Fs) p = visible _ (get ([([], .dir)] : Fs) p)
    rw [hget]
    split_ifs <;> rfl
  · intro inode list hlist
    cases hlist

def World.roundRobin (n : Nat) : World (n + 1) where
  order := fun _ calls => calls
  order_perm := fun _ calls => .refl calls
  schedule := fun tick _ => some (tick % (n + 1))
  schedule_lt := fun tick _ => ⟨_, Nat.mod_lt tick (Nat.succ_pos n), rfl⟩
  optimist := false

theorem behaves_renameOver :
    BehavesAll (World.roundRobin 1) .mkfs [.create ["a"], .create ["b"], .rename ["a"] ["b"]] :=
  (behaves_iff (World.roundRobin 1) (consistent_mkfs 1)
    [.create ["a"], .create ["b"], .rename ["a"] ["b"]]).mpr (by decide +kernel)

/-- A directory is made, and then an unlink is called on it. -/
theorem not_behaves_unlinkDir :
    ¬ BehavesAll (World.roundRobin 1) .mkfs [.mkdir ["d"], .unlink ["d"]] := by
  intro h
  obtain ⟨s', hs', _⟩ := h [.mkdir ["d"], .unlink ["d"]] (List.prefix_refl _)
  have hnone : (run (Volume.step (World.roundRobin 1)) .mkfs
      [.mkdir ["d"], .unlink ["d"]]).isNone = true := by decide +kernel
  simp [hs'] at hnone

end GlusterFS.Unify.Volume
