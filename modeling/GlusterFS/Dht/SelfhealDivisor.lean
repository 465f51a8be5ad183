import GlusterFS.Lib.FanOut
import GlusterFS.Dht.SelfhealVirgin

/-!
# DHT: the number of ranges of a new layout

`dht_selfheal_fix_this_virgin` divides the hash ring by the number of the entries with the
error -1.  It is called by the last reply to the lookup of a directory, or to `mkdir`, when
every subvolume counts as missing or as down.  These do not all fail: a subvolume that has the
directory is in the layout with the error -1, or without one, and then it does not count.
-/

namespace GlusterFS.Dht.Divisor

open FanOut List

/-- A reply to the lookup of a directory: an error, or what is there with its attribute. -/
inductive DirReply where
  | failed (opErrno : Int)
  | found (isDir : Bool) (disk : Option DiskLayout)

def DirReply.layoutReply : DirReply → LayoutReply
  | .failed opErrno => .failed opErrno
  | .found _ none => .noXattr
  | .found _ (some disk) => .xattr disk

/-- The local of the frame, and the layout that `dht_selfheal_directory` is called with. -/
structure Local where
  opRet : Int
  callCnt : Int
  layout : DhtLayout
  selfheal : Option DhtLayout

def dirReturn (l : Local) (subvol : Subvol) (r : DirReply) : Local :=
  { l with
    opRet := match r with
      | .found true _ => 0
      | _ => l.opRet
    callCnt := l.callCnt - 1
    layout := dhtLayoutMerge l.layout subvol r.layoutReply }

def dirLast (l : Local) : Local :=
  if l.opRet = 0 ∧ (dhtLayoutNormalize l.layout).2 ≠ 0 then
    { l with selfheal := some (dhtLayoutNormalize l.layout).1 }
  else
    l

def dhtLookupDirCbk (l : Local) (subvol : Subvol) (r : DirReply) : Local :=
  if (dirReturn l subvol r).callCnt = 0 then
    dirLast (dirReturn l subvol r)
  else
    dirReturn l subvol r

/-- The lookup of a directory, with the replies of all subvolumes in the order they come. -/
def lookupDirs (replies : List (Subvol × DirReply)) : Local :=
  gather dhtLookupDirCbk ⟨-1, replies.length, dhtLayoutNew replies.length, none⟩ replies

def mkdirReply : Option Int → LayoutReply
  | some opErrno => .failed opErrno
  | none => .noXattr

def mkdirReturn (l : Local) (subvol : Subvol) (r : Option Int) : Local :=
  { l with
    callCnt := l.callCnt - 1
    layout := dhtLayoutMerge l.layout subvol (mkdirReply r) }

def mkdirLast (l : Local) : Local :=
  { l with selfheal := some l.layout }

def dhtMkdirCbk (l : Local) (subvol : Subvol) (r : Option Int) : Local :=
  if (mkdirReturn l subvol r).callCnt = 0 then
    mkdirLast (mkdirReturn l subvol r)
  else
    mkdirReturn l subvol r

/-- The hashed subvolume has made the directory; `n` is the number of subvolumes. -/
def dhtMkdirHashedCbk (n : Nat) (hashed : Subvol) : Local :=
  let l : Local := ⟨0, n - 1, dhtLayoutMerge (dhtLayoutNew n) hashed (mkdirReply none), none⟩
  if l.callCnt = 0 then mkdirLast l else l

def mkdirs (hashed : Subvol) (replies : List (Subvol × Option Int)) : Local :=
  gather dhtMkdirCbk (dhtMkdirHashedCbk (replies.length + 1) hashed) replies

/-- `dht_selfheal_dir_getafix` calls `dht_selfheal_fix_this_virgin`. -/
def FixesVirgin (n : Nat) (layout : DhtLayout) : Prop :=
  (dhtLayoutAnomalies layout).missing + (dhtLayoutAnomalies layout).down = n
deriving Decidable

def divisor (layout : DhtLayout) : Nat :=
  (writable layout.list).length

def counted (e : LayoutEntry) : Bool :=
  decide (e.err = -1 ∨ e.err = ENOENT ∨ e.err = ENOTCONN)

theorem anomaliesStep_counted (a : Anomalies) (e : LayoutEntry) :
    (anomaliesStep a e).missing + (anomaliesStep a e).down =
      a.missing + a.down + if counted e then 1 else 0 := by
  unfold anomaliesStep countError counted
  grind [ENOENT, ENOTCONN]

theorem foldl_anomaliesStep_counted (es : List LayoutEntry) (a : Anomalies) :
    (es.foldl anomaliesStep a).missing + (es.foldl anomaliesStep a).down =
      a.missing + a.down + es.countP counted := by
  induction es generalizing a with
  | nil => rfl
  | cons e es ih =>
    rw [foldl_cons, ih, anomaliesStep_counted, countP_cons]
    omega

variable {n : Nat} {layout : DhtLayout}

theorem FixesVirgin.forall_counted (h : FixesVirgin n layout) (hlen : layout.list.length = n) :
    ∀ e ∈ layout.list, counted e = true := by
  have hcnt := foldl_anomaliesStep_counted layout.list ⟨0, 0, 0, 0, 0, layoutLastStop layout, true⟩
  have hsame : (dhtLayoutAnomalies layout).missing + (dhtLayoutAnomalies layout).down =
      layout.list.countP counted := by
    rw [← Nat.zero_add (layout.list.countP counted)]
    refine Eq.trans ?_ hcnt
    unfold dhtLayoutAnomalies
    dsimp only
    split <;> rfl
  rw [FixesVirgin, hsame, ← hlen, countP_eq_length] at h
  exact h

theorem divisor_pos_of_mem {e : LayoutEntry} (h : FixesVirgin n layout)
    (hlen : layout.list.length = n) (he : e ∈ layout.list) (herr : e.err = 0 ∨ e.err = -1) :
    1 ≤ divisor layout := by
  have hcntd := h.forall_counted hlen e he
  have hminus : e.err = -1 := by
    rcases herr with hzero | hminus
    · simp [counted, hzero, ENOENT, ENOTCONN] at hcntd
    · exact hminus
  exact length_pos_of_mem (mem_writable.mpr ⟨he, hminus⟩)

theorem gather_layout {ρ : Type} {cbk : Local → Subvol → ρ → Local} {reply : ρ → LayoutReply}
    (hcbk : ∀ l subvol r, (cbk l subvol r).layout = dhtLayoutMerge l.layout subvol (reply r))
    (l : Local) (rs : List (Subvol × ρ)) :
    (gather cbk l rs).layout = mergeReplies l.layout (rs.map (fun r => ⟨r.1, reply r.2⟩)) := by
  induction rs generalizing l with
  | nil => rfl
  | cons r rs ih =>
    rw [gather_cons, ih, hcbk]
    rfl

theorem exists_dir_of_opRet {l : Local} {rs : List (Subvol × DirReply)} (hl : l.opRet ≠ 0)
    (h : (gather dirReturn l rs).opRet = 0) : ∃ r ∈ rs, ∃ disk, r.2 = .found true disk := by
  by_contra hnone
  push Not at hnone
  refine hl ?_
  rw [← h, gather_frame dirReturn Local.opRet l rs]
  intro l subvol r hr
  have hr' := hnone (subvol, r) hr
  unfold dirReturn
  split
  · exact absurd rfl (hr' _)
  · rfl

theorem found_err (subvol : Subvol) (isDir : Bool) (disk : Option DiskLayout) :
    (SubvolReply.entry ⟨subvol, (DirReply.found isDir disk).layoutReply⟩).err = 0 ∨
      (SubvolReply.entry ⟨subvol, (DirReply.found isDir disk).layoutReply⟩).err = -1 := by
  cases disk with
  | none => exact .inr rfl
  | some disk =>
    simp only [DirReply.layoutReply, SubvolReply.entry, mergeEntry, dhtDiskLayoutMerge]
    split_ifs
    · exact .inl rfl
    · exact .inr rfl

theorem lookupDirs_divisor {replies : List (Subvol × DirReply)}
    (hsh : layout ∈ (lookupDirs replies).selfheal) (hfix : FixesVirgin replies.length layout) :
    1 ≤ divisor layout := by
  have hne : replies ≠ [] := by
    rintro rfl
    cases hsh
  set start : Local := ⟨-1, replies.length, dhtLayoutNew replies.length, none⟩
  have hlast : lookupDirs replies = dirLast (gather dirReturn start replies) :=
    gather_last dhtLookupDirCbk dirReturn dirLast Local.callCnt (fun _ _ _ => rfl)
      (fun _ _ _ => rfl) hne rfl
  have hnone : (gather dirReturn start replies).selfheal = none :=
    gather_frame dirReturn Local.selfheal start replies (fun _ _ _ _ => rfl)
  have hlist : (gather dirReturn start replies).layout.list =
      (replies.map (fun r => (⟨r.1, r.2.layoutReply⟩ : SubvolReply))).map SubvolReply.entry := by
    rw [← mergeReplies_list, length_map]
    exact congrArg DhtLayout.list (gather_layout (fun _ _ _ => rfl) start replies)
  rw [hlast, dirLast] at hsh
  split_ifs at hsh with hcond
  · cases hsh
    obtain ⟨⟨subvol, _⟩, hr, disk, rfl⟩ :=
      exists_dir_of_opRet (show (-1 : Int) ≠ 0 by decide) hcond.1
    have hperm : (dhtLayoutNormalize (gather dirReturn start replies).layout).1.list.Perm _ :=
      dhtLayoutSort_perm _
    refine divisor_pos_of_mem hfix ?_ (hperm.symm.subset ?_) (found_err subvol true disk)
    · rw [hperm.length_eq, hlist, length_map, length_map]
    · rw [hlist]
      exact mem_map_of_mem (mem_map_of_mem hr)
  · simp [hnone] at hsh

theorem mkdirs_selfheal (hashed : Subvol) (replies : List (Subvol × Option Int)) :
    (mkdirs hashed replies).selfheal = some (mergeReplies (dhtLayoutNew (replies.length + 1))
        (⟨hashed, .noXattr⟩ :: replies.map (fun r => ⟨r.1, mkdirReply r.2⟩))) := by
  cases replies with
  | nil => rfl
  | cons r rs =>
    have hfst : dhtMkdirHashedCbk ((r :: rs).length + 1) hashed =
        ⟨0, (r :: rs).length, dhtLayoutMerge (dhtLayoutNew ((r :: rs).length + 1)) hashed
          (mkdirReply none), none⟩ := by
      unfold dhtMkdirHashedCbk
      simp only [length_cons]
      rw [if_neg (by push_cast; omega)]
      simp
    rw [mkdirs, hfst, gather_last dhtMkdirCbk mkdirReturn mkdirLast Local.callCnt
      (fun _ _ _ => rfl) (fun _ _ _ => rfl) (by simp) rfl]
    exact congrArg some (gather_layout (fun _ _ _ => rfl) _ (r :: rs))

theorem mkdirs_divisor {hashed : Subvol} {replies : List (Subvol × Option Int)}
    (hsh : layout ∈ (mkdirs hashed replies).selfheal)
    (hfix : FixesVirgin (replies.length + 1) layout) : 1 ≤ divisor layout := by
  have hlist := mergeReplies_list
    (⟨hashed, .noXattr⟩ :: replies.map (fun r => (⟨r.1, mkdirReply r.2⟩ : SubvolReply)))
  rw [length_cons, length_map, map_cons] at hlist
  rw [mkdirs_selfheal] at hsh
  cases hsh
  have hmem : SubvolReply.entry ⟨hashed, .noXattr⟩ ∈ _ := hlist ▸ mem_cons_self
  refine divisor_pos_of_mem hfix ?_ hmem (.inr rfl)
  rw [hlist, length_cons, length_map, length_map]

/--
The number that the hash ring is divided by is not 0, whatever the replies of the subvolumes
and their order are, for the lookup of a directory and for `mkdir`.
-/
theorem divisor_pos :
    (∀ (replies : List (Subvol × DirReply)), ∀ layout ∈ (lookupDirs replies).selfheal,
      FixesVirgin replies.length layout → 1 ≤ divisor layout) ∧
    ∀ (hashed : Subvol) (replies : List (Subvol × Option Int)),
      ∀ layout ∈ (mkdirs hashed replies).selfheal,
        FixesVirgin (replies.length + 1) layout → 1 ≤ divisor layout := by
  exact ⟨fun _ _ hsh hfix => lookupDirs_divisor hsh hfix,
    fun _ _ _ hsh hfix => mkdirs_divisor hsh hfix⟩

def oneOfThree : List (Subvol × DirReply) :=
  [(4, .failed ENOENT), (5, .found true none), (6, .failed ENOTCONN)]

theorem divisor_pos_oneOfThree :
    (∃ layout ∈ (lookupDirs oneOfThree).selfheal,
      FixesVirgin oneOfThree.length layout ∧ 1 ≤ divisor layout) ∧
    ∃ layout ∈ (mkdirs 5 [(4, some ENOENT), (6, some ENOTCONN)]).selfheal,
      FixesVirgin 3 layout ∧ 1 ≤ divisor layout := by
  refine ⟨⟨_, rfl, by decide, divisor_pos.1 oneOfThree _ rfl (by decide)⟩,
    _, rfl, by decide, divisor_pos.2 5 [(4, some ENOENT), (6, some ENOTCONN)] _ rfl (by decide)⟩

end GlusterFS.Dht.Divisor
