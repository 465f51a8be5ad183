import GlusterFS.Dht.Layout
import GlusterFS.Lib.Run

/-!
# DHT: the rename of a file

A file is data on its cached subvolume, and a linkfile on its hashed subvolume if that is
another one.  `dht_rename` first makes the source known under both names (a linkfile where
the destination is hashed, a hard link where the source is cached), then renames on one
subvolume, and last unlinks what is left.  The calls of each phase are on their way at the
same time: a subvolume serves a call at any time after it is wound, and the replies come in
any order.
-/

namespace GlusterFS.Dht

open Run List Function

abbrev Name := String

/-- A file with its inode, or a linkfile with the subvolume in its attribute, once it is set. -/
inductive File where
  | data (ino : Nat)
  | linkfile (linkto : Option Subvol)
deriving DecidableEq

abbrev Brick := Name → Option File

def EEXIST : Int := 17

def EUCLEAN : Int := 117

def mknod (name : Name) (brick : Brick) : Except Int Brick :=
  match brick name with
  | some _ => .error EEXIST
  | none => .ok (update brick name (some (.linkfile none)))

/-- Sets the attribute that names the subvolume; a file with another mode stays what it is. -/
def setxattr (name : Name) (tovol : Subvol) (brick : Brick) : Except Int Brick :=
  match brick name with
  | none => .error ENOENT
  | some (.linkfile _) => .ok (update brick name (some (.linkfile (some tovol))))
  | some (.data _) => .ok brick

def link (old new : Name) (brick : Brick) : Except Int Brick :=
  match brick old, brick new with
  | none, _ => .error ENOENT
  | some _, some _ => .error EEXIST
  | some file, none => .ok (update brick new (some file))

/-- Nothing changes if both names are names of one file. -/
def rename (old new : Name) (brick : Brick) : Except Int Brick :=
  match brick old with
  | none => .error ENOENT
  | some (.data ino) =>
    if brick new = some (.data ino) then
      .ok brick
    else
      .ok (update (update brick new (some (.data ino))) old none)
  | some (.linkfile linkto) =>
    .ok (update (update brick new (some (.linkfile linkto))) old none)

def unlink (name : Name) (brick : Brick) : Except Int Brick :=
  match brick name with
  | none => .error ENOENT
  | some _ => .ok (update brick name none)

inductive Call where
  | mknod (subvol : Subvol) (name : Name)
  | setxattr (subvol : Subvol) (name : Name) (tovol : Subvol)
  | link (subvol : Subvol) (old new : Name)
  | rename (subvol : Subvol) (old new : Name)
  | unlink (subvol : Subvol) (name : Name)
deriving DecidableEq

def Call.subvol : Call → Subvol
  | .mknod subvol _ => subvol
  | .setxattr subvol _ _ => subvol
  | .link subvol _ _ => subvol
  | .rename subvol _ _ => subvol
  | .unlink subvol _ => subvol

def Call.fop : Call → Brick → Except Int Brick
  | .mknod _ name => Dht.mknod name
  | .setxattr _ name tovol => Dht.setxattr name tovol
  | .link _ old new => Dht.link old new
  | .rename _ old new => Dht.rename old new
  | .unlink _ name => Dht.unlink name

def serve (bricks : Subvol → Brick) (c : Call) : Except Int (Subvol → Brick) :=
  (c.fop (bricks c.subvol)).map (update bricks c.subvol)

def served (bricks : Subvol → Brick) (c : Call) : Option (Subvol → Brick) :=
  (serve bricks c).toOption

section

/-- The fields of `dht_local_t` that say what is renamed and where it is. -/
structure RenameLocal where
  loc : Name
  loc2 : Name
  srcHashed : Subvol
  srcCached : Subvol
  dstHashed : Subvol
  dstCached : Option Subvol

/-- A call that is wound is served with or without an error, and then replied to. -/
inductive Status where
  | idle
  | wound
  | served (opErrno : Option Int)
  | replied
deriving DecidableEq

/-- A rename winds a call once at most. -/
structure RenameState where
  bricks : Subvol → Brick
  calls : Call → Status
  callCnt : Int
  opRet : Int
  opErrno : Int
  unwound : List (Int × Int)

variable (l : RenameLocal)

def wind (s : RenameState) (c : Call) : RenameState :=
  { s with calls := update s.calls c .wound }

def unwind (s : RenameState) : RenameState :=
  { s with unwound := s.unwound ++ [(s.opRet, s.opErrno)] }

def RenameLocal.renameSubvol : Subvol :=
  if some l.srcCached = l.dstCached then l.srcCached else l.dstHashed

def dhtDoRename (s : RenameState) : RenameState :=
  wind s (.rename l.renameSubvol l.loc l.loc2)

def dhtRenameUnlinkCbk (s : RenameState) : RenameState :=
  let s := { s with callCnt := s.callCnt - 1 }
  if s.callCnt = 0 then unwind s else s

def unlinkCalls : List Call :=
  (if l.srcCached ≠ l.dstHashed ∧ some l.srcCached ≠ l.dstCached then
    [.unlink l.srcCached l.loc]
  else
    []) ++
  (if l.srcHashed ≠ l.renameSubvol ∧ l.srcHashed ≠ l.srcCached then
    [.unlink l.srcHashed l.loc]
  else
    []) ++
  (match l.dstCached with
  | some dstCached =>
    if dstCached ≠ l.dstHashed ∧ dstCached ≠ l.srcCached then
      [.unlink dstCached l.loc2]
    else
      []
  | none => [])

def dhtRenameCbk (s : RenameState) (opErrno : Option Int) : RenameState :=
  match opErrno with
  | some opErrno => unwind { s with opRet := -1, opErrno := opErrno }
  | none =>
    let s := { s with callCnt := s.callCnt + (unlinkCalls l).length }
    if s.callCnt = 0 then
      unwind s
    else
      (unlinkCalls l).foldl wind s

def dhtRenameLinksCbk (s : RenameState) (opErrno : Option Int) : RenameState :=
  let s :=
    match opErrno with
    | some opErrno => { s with opRet := -1, opErrno := opErrno }
    | none => s
  let s := { s with callCnt := s.callCnt - 1 }
  if s.callCnt = 0 then
    if s.opRet = -1 then unwind s else dhtDoRename l s
  else
    s

/-- `dht_linkfile_create` winds `mknod`, and its callback sets the attribute. -/
def dhtLinkfileCreateCbk (s : RenameState) (subvol : Subvol) (opErrno : Option Int) : RenameState :=
  match opErrno with
  | some opErrno => dhtRenameLinksCbk l s (some opErrno)
  | none => wind s (.setxattr subvol l.loc l.srcCached)

def dhtRenameCreateLinks (s : RenameState) : RenameState :=
  if some l.srcCached = l.dstCached then
    dhtDoRename l s
  else
    let callCnt : Int := (if l.dstHashed ≠ l.srcHashed ∧ l.dstHashed ≠ l.srcCached then 1 else 0) +
        (if l.srcCached ≠ l.dstHashed then 1 else 0)
    let s := { s with callCnt := callCnt }
    let s :=
      if l.dstHashed ≠ l.srcHashed ∧ l.dstHashed ≠ l.srcCached then
        wind s (.mknod l.dstHashed l.loc)
      else
        s
    let s :=
      if l.srcCached ≠ l.dstHashed then
        wind s (.link l.srcCached l.loc l.loc2)
      else
        s
    if callCnt = 0 then dhtDoRename l s else s

def dhtRename (bricks : Subvol → Brick) : RenameState :=
  dhtRenameCreateLinks l
    { bricks := bricks
      calls := fun _ => .idle
      callCnt := 0
      opRet := 0
      opErrno := EUCLEAN
      unwound := [] }

def renameCbk (s : RenameState) (opErrno : Option Int) : Call → RenameState
  | .mknod subvol _ => dhtLinkfileCreateCbk l s subvol opErrno
  | .setxattr _ _ _ => dhtRenameLinksCbk l s opErrno
  | .link _ _ _ => dhtRenameLinksCbk l s opErrno
  | .rename _ _ _ => dhtRenameCbk l s opErrno
  | .unlink _ _ => dhtRenameUnlinkCbk s

inductive RenameEvent where
  | serve (c : Call)
  | reply (c : Call)
deriving DecidableEq

def renameStep (s : RenameState) : RenameEvent → Option RenameState
  | .serve c =>
    if s.calls c = .wound then
      match serve s.bricks c with
      | .ok bricks =>
        some { s with bricks := bricks, calls := update s.calls c (.served none) }
      | .error opErrno =>
        some { s with calls := update s.calls c (.served (some opErrno)) }
    else
      none
  | .reply c =>
    match s.calls c with
    | .served opErrno =>
      some (renameCbk l { s with calls := update s.calls c .replied } opErrno c)
    | _ => none

end

section

/-- A file of this name: where its data is, and where it is looked up. -/
structure FileAt (bricks : Subvol → Brick) (name : Name) (hashed cached : Subvol) (ino : Nat) :
    Prop where
  data : bricks cached name = some (.data ino)
  link : hashed ≠ cached → bricks hashed name = some (.linkfile (some cached))
  elsewhere : ∀ v, v ≠ cached → v ≠ hashed → bricks v name = none

/-- The namespace before a rename; the destination is another file, or absent. -/
structure Consistent (l : RenameLocal) (bricks : Subvol → Brick) (ino : Nat) : Prop where
  names : l.loc ≠ l.loc2
  src : FileAt bricks l.loc l.srcHashed l.srcCached ino
  absent : l.dstCached = none → ∀ v, bricks v l.loc2 = none
  dst : ∀ cached, l.dstCached = some cached →
    ∃ ino', ino' ≠ ino ∧ FileAt bricks l.loc2 l.dstHashed cached ino'

structure Renamed (l : RenameLocal) (ino : Nat) (before after : Subvol → Brick) : Prop where
  src : ∀ v, after v l.loc = none
  dst : FileAt after l.loc2 l.dstHashed l.srcCached ino
  others : ∀ v name, name ≠ l.loc → name ≠ l.loc2 → after v name = before v name

variable (l : RenameLocal)

def RenameLocal.NeedsLinkfile : Prop :=
  some l.srcCached ≠ l.dstCached ∧ l.dstHashed ≠ l.srcHashed ∧ l.dstHashed ≠ l.srcCached
deriving Decidable

def RenameLocal.NeedsLink : Prop :=
  some l.srcCached ≠ l.dstCached ∧ l.srcCached ≠ l.dstHashed
deriving Decidable

def linkfileCalls : List Call :=
  if l.NeedsLinkfile then
    [.mknod l.dstHashed l.loc, .setxattr l.dstHashed l.loc l.srcCached]
  else
    []

def linkCalls : List Call :=
  if l.NeedsLink then [.link l.srcCached l.loc l.loc2] else []

def renameCall : Call :=
  .rename l.renameSubvol l.loc l.loc2

def plan : List Call :=
  linkfileCalls l ++ (linkCalls l ++ renameCall l :: unlinkCalls l)

end

section

def put (bricks : Subvol → Brick) (v : Subvol) (name : Name) (file : Option File) :
    Subvol → Brick :=
  update bricks v (update (bricks v) name file)

@[simp] theorem put_apply
    (bricks : Subvol → Brick) (v v' : Subvol) (name name' : Name) (file : Option File) :
    put bricks v name file v' name' =
      if v' = v ∧ name' = name then file else bricks v' name' := by
  unfold put
  by_cases hv : v' = v
  · subst hv
    by_cases hname : name' = name <;> simp [hname]
  · simp [hv]

variable {l : RenameLocal} {bricks bricks' : Subvol → Brick} {v : Subvol} {name old new : Name}
  {file : File} {ino : Nat}

open Call

theorem served_mknod (h : bricks v name = none) :
    served bricks (.mknod v name) = some (put bricks v name (some (.linkfile none))) := by
  simp [served, serve, fop, subvol, mknod, h, put, Except.map, Except.toOption]

theorem served_setxattr {tovol : Subvol} {linkto : Option Subvol}
    (h : bricks v name = some (.linkfile linkto)) :
    served bricks (.setxattr v name tovol) =
      some (put bricks v name (some (.linkfile (some tovol)))) := by
  simp [served, serve, fop, subvol, setxattr, h, put, Except.map, Except.toOption]

theorem served_link (hold : bricks v old = some file) (hnew : bricks v new = none) :
    served bricks (.link v old new) = some (put bricks v new (some file)) := by
  simp [served, serve, fop, subvol, link, hold, hnew, put, Except.map, Except.toOption]

theorem served_rename (hold : bricks v old = some file)
    (hoth : ∀ ino, file = .data ino → bricks v new ≠ some (.data ino)) :
    served bricks (.rename v old new) = some (put (put bricks v new (some file)) v old none) := by
  cases file with
  | data ino =>
    simp [served, serve, fop, subvol, rename, hold, hoth ino rfl, put, Except.map, Except.toOption]
  | linkfile linkto =>
    simp [served, serve, fop, subvol, rename, hold, put, Except.map, Except.toOption]

theorem served_unlink (h : bricks v name = some file) :
    served bricks (.unlink v name) = some (put bricks v name none) := by
  simp [served, serve, fop, subvol, unlink, h, put, Except.map, Except.toOption]

theorem run_unlinks {calls : List Call} (hnd : calls.Nodup)
    (hcalls : ∀ c ∈ calls, ∃ v name file, c = .unlink v name ∧ bricks v name = some file) :
    ∃ bricks', run served bricks calls = some bricks' ∧
      ∀ v name, bricks' v name = if .unlink v name ∈ calls then none else bricks v name := by
  induction calls generalizing bricks with
  | nil => exact ⟨bricks, rfl, by simp⟩
  | cons c calls ih =>
    obtain ⟨⟨v, name, file, rfl, hfile⟩, hrest⟩ := forall_mem_cons.mp hcalls
    obtain ⟨hc, hnd'⟩ := nodup_cons.mp hnd
    have hrest' : ∀ c ∈ calls, ∃ v' name' file', c = .unlink v' name' ∧
        put bricks v name none v' name' = some file' := by
      intro c hmem
      obtain ⟨v', name', file', rfl, hfile'⟩ := hrest c hmem
      refine ⟨v', name', file', rfl, ?_⟩
      rw [put_apply, if_neg, hfile']
      rintro ⟨rfl, rfl⟩
      exact hc hmem
    obtain ⟨bricks', hrun, hbr'⟩ := ih hnd' hrest'
    refine ⟨bricks', ?_, ?_⟩
    · rw [run_cons, served_unlink hfile, Option.bind_some, hrun]
    · intro v' name'
      rw [hbr', put_apply]
      by_cases hmem : Call.unlink v' name' ∈ calls <;> simp [hmem]

theorem run_linkfileCalls (h : Consistent l bricks ino) :
    ∃ bricks', run served bricks (linkfileCalls l) = some bricks' ∧ ∀ v name, bricks' v name =
        if l.NeedsLinkfile ∧ v = l.dstHashed ∧ name = l.loc then
          some (.linkfile (some l.srcCached))
        else
          bricks v name := by
  unfold linkfileCalls
  by_cases hneeds : l.NeedsLinkfile
  · have hnone : bricks l.dstHashed l.loc = none := h.src.elsewhere _ hneeds.2.2 hneeds.2.1
    have hmade : put bricks l.dstHashed l.loc (some (.linkfile none)) l.dstHashed l.loc =
        some (.linkfile none) := by simp
    rw [if_pos hneeds, run_cons, served_mknod hnone, Option.bind_some, run_cons,
      served_setxattr hmade, Option.bind_some, run_nil]
    refine ⟨_, rfl, ?_⟩
    intro v name
    rw [put_apply, put_apply]
    by_cases hkey : v = l.dstHashed ∧ name = l.loc
    · simp [hkey, hneeds]
    · rw [if_neg hkey, if_neg hkey, if_neg (fun hall => hkey hall.2)]
  · rw [if_neg hneeds]
    exact ⟨bricks, rfl, by simp [hneeds]⟩

theorem run_linkCalls (hsrc : bricks l.srcCached l.loc = some (.data ino))
    (hdst : l.NeedsLink → bricks l.srcCached l.loc2 = none) :
    ∃ bricks', run served bricks (linkCalls l) = some bricks' ∧ ∀ v name, bricks' v name =
        if l.NeedsLink ∧ v = l.srcCached ∧ name = l.loc2 then
          some (.data ino)
        else
          bricks v name := by
  unfold linkCalls
  by_cases hneeds : l.NeedsLink
  · rw [if_pos hneeds, run_cons, served_link hsrc (hdst hneeds), Option.bind_some, run_nil]
    refine ⟨_, rfl, ?_⟩
    intro v name
    simp [hneeds]
  · rw [if_neg hneeds]
    exact ⟨bricks, rfl, by simp [hneeds]⟩

theorem run_renameCall (hsrc : bricks l.renameSubvol l.loc = some file)
    (hoth : ∀ ino, file = .data ino → bricks l.renameSubvol l.loc2 ≠ some (.data ino)) :
    ∃ bricks', served bricks (renameCall l) = some bricks' ∧ ∀ v name, bricks' v name =
        if v = l.renameSubvol ∧ name = l.loc then
          none
        else if v = l.renameSubvol ∧ name = l.loc2 then
          some file
        else
          bricks v name := by
  refine ⟨_, served_rename hsrc hoth, ?_⟩
  intro v name
  rw [put_apply, put_apply]

theorem renameSubvol_eq (l : RenameLocal) :
    l.renameSubvol = l.srcCached ∧ some l.srcCached = l.dstCached ∨
      l.renameSubvol = l.dstHashed ∧ some l.srcCached ≠ l.dstCached := by
  unfold RenameLocal.renameSubvol
  split_ifs with hsame
  · exact .inl ⟨rfl, hsame⟩
  · exact .inr ⟨rfl, hsame⟩

theorem mem_unlinkCalls {c : Call} :
    c ∈ unlinkCalls l ↔ (l.srcCached ≠ l.dstHashed ∧ some l.srcCached ≠ l.dstCached) ∧
        c = .unlink l.srcCached l.loc ∨
      (l.srcHashed ≠ l.renameSubvol ∧ l.srcHashed ≠ l.srcCached) ∧ c = .unlink l.srcHashed l.loc ∨
      ∃ dstCached, l.dstCached = some dstCached ∧
        (dstCached ≠ l.dstHashed ∧ dstCached ≠ l.srcCached) ∧ c = .unlink dstCached l.loc2 := by
  unfold unlinkCalls
  cases hdst : l.dstCached with
  | none =>
    simp only [mem_append, mem_ite_nil_right, mem_singleton, not_mem_nil,
      or_false, reduceCtorEq, false_and, exists_false]
  | some dstCached =>
    simp only [mem_append, mem_ite_nil_right, mem_singleton,
      Option.some.injEq, exists_eq_left', or_assoc]

theorem unlinkCalls_nodup (hnames : l.loc ≠ l.loc2) : (unlinkCalls l).Nodup := by
  unfold unlinkCalls
  cases hdst : l.dstCached with
  | none => split_ifs <;> grind
  | some dstCached =>
    split_ifs <;> grind

structure Linked (l : RenameLocal) (ino : Nat) (before bricks : Subvol → Brick) : Prop where
  loc : ∀ v, bricks v l.loc =
    if l.NeedsLinkfile ∧ v = l.dstHashed then some (.linkfile (some l.srcCached))
    else before v l.loc
  loc2 : ∀ v, bricks v l.loc2 =
    if l.NeedsLink ∧ v = l.srcCached then some (.data ino) else before v l.loc2
  others : ∀ v name, name ≠ l.loc → name ≠ l.loc2 → bricks v name = before v name

variable (h : Consistent l bricks ino)
include h

theorem run_links :
    ∃ bricks', run served bricks (linkfileCalls l ++ linkCalls l) = some bricks' ∧
      Linked l ino bricks bricks' := by
  obtain ⟨bricks₁, hrun₁, hbr₁⟩ := run_linkfileCalls h
  have hsrc : bricks₁ l.srcCached l.loc = some (.data ino) := by
    rw [hbr₁, if_neg, h.src.data]
    rintro ⟨hneeds, heq, -⟩
    exact hneeds.2.2 heq.symm
  have hdst : l.NeedsLink → bricks₁ l.srcCached l.loc2 = none := by
    rintro ⟨hsame, hne⟩
    rw [hbr₁, if_neg (fun hall => h.names hall.2.2.symm)]
    cases hdst : l.dstCached with
    | none => exact h.absent hdst _
    | some cached =>
      obtain ⟨ino', -, hfile⟩ := h.dst cached hdst
      exact hfile.elsewhere _ (by rintro rfl; exact hsame hdst.symm) hne
  obtain ⟨bricks₂, hrun₂, hbr₂⟩ := run_linkCalls hsrc hdst
  refine ⟨bricks₂, by rw [run_append, hrun₁, Option.bind_some, hrun₂], ?_, ?_, ?_⟩
  · intro v
    rw [hbr₂, if_neg (fun hall => h.names hall.2.2), hbr₁]
    simp
  · intro v
    have hsame : bricks₁ v l.loc2 = bricks v l.loc2 := by
      rw [hbr₁, if_neg (fun hall => h.names hall.2.2.symm)]
    rw [hbr₂, hsame]
    simp
  · intro v name hloc hloc2
    rw [hbr₂, if_neg (fun hall => hloc2 hall.2.2), hbr₁, if_neg (fun hall => hloc hall.2.2)]

structure Moved (l : RenameLocal) (ino : Nat) (before bricks : Subvol → Brick) : Prop where
  loc : ∀ v, bricks v l.loc =
    if v = l.renameSubvol then none
    else if l.NeedsLinkfile ∧ v = l.dstHashed then some (.linkfile (some l.srcCached))
    else before v l.loc
  loc2 : ∀ v, bricks v l.loc2 =
    if v = l.srcCached then
      some (.data ino)
    else if v = l.renameSubvol then
      some (.linkfile (some l.srcCached))
    else before v l.loc2
  others : ∀ v name, name ≠ l.loc → name ≠ l.loc2 → bricks v name = before v name

/-- The file that is renamed: the data, or a linkfile to it. -/
def RenameLocal.movedFile (l : RenameLocal) (ino : Nat) : File :=
  if l.renameSubvol = l.srcCached then .data ino else .linkfile (some l.srcCached)

section

variable (hlnk : Linked l ino bricks bricks')
include hlnk

theorem Linked.source : bricks' l.renameSubvol l.loc = some (l.movedFile ino) := by
  rw [hlnk.loc, RenameLocal.movedFile]
  rcases renameSubvol_eq l with ⟨hsub, hsame⟩ | ⟨hsub, hsame⟩
  · rw [hsub, if_pos rfl, if_neg (fun hall => hall.1.1 hsame), h.src.data]
  · rw [hsub]
    by_cases hcach : l.dstHashed = l.srcCached
    · rw [if_pos hcach, if_neg (fun hall => hall.1.2.2 hcach), hcach, h.src.data]
    · rw [if_neg hcach]
      by_cases hhash : l.dstHashed = l.srcHashed
      · rw [if_neg (fun hall => hall.1.2.1 hhash), hhash, h.src.link (hhash ▸ hcach)]
      · rw [if_pos ⟨⟨hsame, hhash, hcach⟩, rfl⟩]

theorem Linked.other_file {ino' : Nat} (hfile : l.movedFile ino = .data ino') :
    bricks' l.renameSubvol l.loc2 ≠ some (.data ino') := by
  unfold RenameLocal.movedFile at hfile
  split_ifs at hfile with hcach
  cases hfile
  rw [hcach, hlnk.loc2]
  rcases renameSubvol_eq l with ⟨-, hsame⟩ | ⟨hsub, hsame⟩
  · obtain ⟨ino', hne, hdst⟩ := h.dst _ hsame.symm
    rw [if_neg (fun hall => hall.1.1 hsame), hdst.data]
    simpa using hne
  · have hhash : l.srcCached = l.dstHashed := hcach.symm.trans hsub
    rw [if_neg (fun hall => hall.1.2 hhash), hhash]
    cases hdst : l.dstCached with
    | none =>
      rw [h.absent hdst]
      simp
    | some cached =>
      obtain ⟨ino', hne, hfile⟩ := h.dst cached hdst
      have hcach' : l.dstHashed ≠ cached := by
        rintro rfl
        exact hsame (hdst ▸ congrArg some hhash)
      rw [hfile.link hcach']
      simp

theorem Linked.run_rename :
    ∃ bricks'', served bricks' (renameCall l) = some bricks'' ∧ Moved l ino bricks bricks'' := by
  obtain ⟨bricks'', hrun, hbr''⟩ :=
    run_renameCall (hlnk.source h) (fun _ => hlnk.other_file h)
  refine ⟨bricks'', hrun, ?_, ?_, ?_⟩
  · intro v
    rw [hbr'', if_neg (fun hall : v = _ ∧ l.loc = l.loc2 => h.names hall.2), hlnk.loc]
    simp
  · intro v
    rw [hbr'', if_neg (fun hall => h.names hall.2.symm), hlnk.loc2, RenameLocal.movedFile]
    rcases renameSubvol_eq l with ⟨hsub, hsame⟩ | ⟨hsub, hsame⟩
    · rw [hsub, if_pos rfl]
      by_cases hv : v = l.srcCached <;> simp [hv]
    · rw [hsub]
      by_cases hv : v = l.srcCached
      · subst hv
        by_cases hhash : l.srcCached = l.dstHashed
        · simp [hhash]
        · simp [hhash, RenameLocal.NeedsLink, hsame]
      · by_cases hhash : v = l.dstHashed
        · subst hhash
          simp [hv]
        · simp [hv, hhash]
  · intro v name hloc hloc2
    rw [hbr'', if_neg (fun hall => hloc hall.2), if_neg (fun hall => hloc2 hall.2),
      hlnk.others v name hloc hloc2]

end

section

variable (hmov : Moved l ino bricks bricks')
include hmov

theorem Moved.unlink_found :
    ∀ c ∈ unlinkCalls l, ∃ v name file, c = .unlink v name ∧ bricks' v name = some file := by
  intro c hc
  rcases mem_unlinkCalls.mp hc with
    ⟨⟨hne, hsame⟩, rfl⟩ | ⟨⟨hne, hcach⟩, rfl⟩ | ⟨dstCached, hdst, ⟨hne, hcach⟩, rfl⟩
  · have hsub : l.renameSubvol = l.dstHashed := if_neg hsame
    refine ⟨_, _, .data ino, rfl, ?_⟩
    rw [hmov.loc, hsub, if_neg hne, if_neg (fun hall => hne hall.2), h.src.data]
  · refine ⟨_, _, .linkfile (some l.srcCached), rfl, ?_⟩
    rw [hmov.loc, if_neg hne, if_neg (fun hall => hall.1.2.1 hall.2.symm), h.src.link hcach]
  · have hsub : l.renameSubvol = l.dstHashed :=
      if_neg (fun hsame => hcach (Option.some_inj.mp (hdst.symm.trans hsame.symm)))
    obtain ⟨ino', -, hfile⟩ := h.dst dstCached hdst
    refine ⟨_, _, .data ino', rfl, ?_⟩
    rw [hmov.loc2, hsub, if_neg hcach, if_neg hne, hfile.data]

theorem Moved.loc_eq_none (hunlk : .unlink v l.loc ∉ unlinkCalls l) : bricks' v l.loc = none := by
  rw [mem_unlinkCalls, not_or, not_or] at hunlk
  obtain ⟨hcach, hhash, -⟩ := hunlk
  rw [hmov.loc]
  by_cases hv : v = l.renameSubvol
  · rw [if_pos hv]
  · rw [if_neg hv]
    rcases renameSubvol_eq l with ⟨hsub, hsame⟩ | ⟨hsub, hsame⟩
    · rw [if_neg (fun hall => hall.1.1 hsame)]
      refine h.src.elsewhere v (hsub ▸ hv) ?_
      rintro rfl
      exact hhash ⟨⟨hv, hsub ▸ hv⟩, rfl⟩
    · rw [if_neg (fun hall => hv (hall.2.trans hsub.symm))]
      have hne : v ≠ l.srcCached := by
        rintro rfl
        exact hcach ⟨⟨hsub ▸ hv, hsame⟩, rfl⟩
      refine h.src.elsewhere v hne ?_
      rintro rfl
      exact hhash ⟨⟨hv, hne⟩, rfl⟩

theorem Moved.linkfile (hne : l.dstHashed ≠ l.srcCached) :
    bricks' l.dstHashed l.loc2 = some (.linkfile (some l.srcCached)) := by
  rw [hmov.loc2, if_neg hne]
  rcases renameSubvol_eq l with ⟨hsub, hsame⟩ | ⟨hsub, hsame⟩
  · obtain ⟨ino', -, hfile⟩ := h.dst _ hsame.symm
    rw [hsub, if_neg hne, hfile.link hne]
  · rw [if_pos hsub.symm]

theorem Moved.loc2_eq_none (hcach : v ≠ l.srcCached) (hhash : v ≠ l.dstHashed)
    (hunlk : .unlink v l.loc2 ∉ unlinkCalls l) : bricks' v l.loc2 = none := by
  have hv : v ≠ l.renameSubvol := by
    rcases renameSubvol_eq l with ⟨hsub, -⟩ | ⟨hsub, -⟩ <;> rwa [hsub]
  rw [hmov.loc2, if_neg hcach, if_neg hv]
  cases hdst : l.dstCached with
  | none => exact h.absent hdst v
  | some dstCached =>
    obtain ⟨ino', -, hfile⟩ := h.dst dstCached hdst
    refine hfile.elsewhere v ?_ hhash
    rintro rfl
    exact hunlk (mem_unlinkCalls.mpr (.inr (.inr ⟨v, hdst, ⟨hhash, hcach⟩, rfl⟩)))

end

omit h

theorem not_unlinked (hnames : l.loc ≠ l.loc2) (hv : v = l.srcCached ∨ v = l.dstHashed) :
    .unlink v l.loc2 ∉ unlinkCalls l := by
  rw [mem_unlinkCalls]
  rintro (⟨-, heq⟩ | ⟨-, heq⟩ | ⟨dstCached, -, ⟨hhash, hcach⟩, heq⟩)
  · exact hnames (unlink.inj heq).2.symm
  · exact hnames (unlink.inj heq).2.symm
  · obtain ⟨rfl, -⟩ := unlink.inj heq
    rcases hv with hv | hv
    · exact hcach hv
    · exact hhash hv

theorem Moved.run_unlinkCalls (h : Consistent l bricks ino) (hmov : Moved l ino bricks bricks') :
    ∃ after, run served bricks' (unlinkCalls l) = some after ∧ Renamed l ino bricks after := by
  obtain ⟨after, hrun, haft⟩ := run_unlinks (unlinkCalls_nodup h.names) (hmov.unlink_found h)
  refine ⟨after, hrun, ?_, ⟨?_, ?_, ?_⟩, ?_⟩
  · intro v
    rw [haft]
    split_ifs with hunlk
    · rfl
    · exact hmov.loc_eq_none h hunlk
  · rw [haft, if_neg (not_unlinked h.names (.inl rfl)), hmov.loc2, if_pos rfl]
  · intro hne
    rw [haft, if_neg (not_unlinked h.names (.inr rfl))]
    exact hmov.linkfile h hne
  · intro v hcach hhash
    rw [haft]
    split_ifs with hunlk
    · rfl
    · exact hmov.loc2_eq_none h hcach hhash hunlk
  · intro v name hloc hloc2
    rw [haft, if_neg, hmov.others v name hloc hloc2]
    rw [mem_unlinkCalls]
    rintro (⟨-, heq⟩ | ⟨-, heq⟩ | ⟨dstCached, -, -, heq⟩)
    · exact hloc (unlink.inj heq).2
    · exact hloc (unlink.inj heq).2
    · exact hloc2 (unlink.inj heq).2

theorem run_plan (h : Consistent l bricks ino) :
    ∃ after, run served bricks (plan l) = some after ∧ Renamed l ino bricks after := by
  obtain ⟨bricks₁, hrun₁, hlnk⟩ := run_links h
  obtain ⟨bricks₂, hrun₂, hmov⟩ := hlnk.run_rename h
  obtain ⟨after, hrun₃, hrend⟩ := hmov.run_unlinkCalls h
  refine ⟨after, ?_, hrend⟩
  rw [plan, ← append_assoc, run_append, hrun₁, Option.bind_some, run_cons, hrun₂,
    Option.bind_some, hrun₃]

end

end GlusterFS.Dht
