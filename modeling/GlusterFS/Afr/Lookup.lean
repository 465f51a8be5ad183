import GlusterFS.Afr.SelfHealCommon

/-!
# AFR: the replies to a lookup

`afr_lookup` asks all children, and `afr_lookup_cbk` folds their replies into the local in the
order in which they come: the errors, the kinds of self-heal that are needed, and the stat of
the child with the lowest index so far, whose index is read off the scaled inode number.
-/

namespace GlusterFS.Afr.Lookup

open FanOut List

variable {n : Nat}

/-- `struct stat`: the inode number, the fields that are compared, and the times and others. -/
structure LookupBuf where
  stIno : UInt64
  stat : Stat
  others : Nat

inductive Answer (n : Nat) where
  | ok (buf : LookupBuf) (xattr : Xattr n) (openFdCount : Option UInt32)
  | err (opErrno : Errno)

def afrItransform (ino : UInt64) (childCount childIndex : Nat) : UInt64 :=
  if ino = -1 then -1 else ino * childCount.toUInt64 + childIndex.toUInt64

def afrDeitransformOrig (ino : UInt64) (childCount : Nat) : Nat :=
  (ino % childCount.toUInt64).toNat

def fileType (buf : Stat) : Nat :=
  buf.stMode &&& 0o170000

def filetypeDiffers (buf1 buf2 : Stat) : Bool :=
  fileType buf1 != fileType buf2

def sizeDiffers (buf1 buf2 : Stat) : Bool :=
  buf1.stSize != buf2.stSize

def sIsreg (buf : Stat) : Bool :=
  fileType buf == 0o100000

def hasPending (key : PendingKey) (xattr : Xattr n) (childIndex : Fin n) : Bool :=
  match xattr key with
  | none => false
  | some pending => (finRange n).any (fun i => i != childIndex && pending i != 0)

def afrShHasMetadataPending : Xattr n → Fin n → Bool :=
  hasPending .metadataPending

def afrShHasDataPending : Xattr n → Fin n → Bool :=
  hasPending .dataPending

def afrShHasEntryPending : Xattr n → Fin n → Bool :=
  hasPending .entryPending

structure LookupLocal where
  enoentCount : Nat
  successCount : Nat
  needMetadataSelfHeal : Bool
  needEntrySelfHeal : Bool
  needDataSelfHeal : Bool
  govinda : Bool
  openFdCount : UInt32
  opRet : Int
  opErrno : Errno
  buf : LookupBuf

def LookupLocal.start : LookupLocal where
  enoentCount := 0
  successCount := 0
  needMetadataSelfHeal := false
  needEntrySelfHeal := false
  needDataSelfHeal := false
  govinda := false
  openFdCount := 0
  opRet := -1
  opErrno := .ENOTCONN
  buf := ⟨0, Stat.zero, 0⟩

def scaled (buf : LookupBuf) (childIndex : Fin n) : LookupBuf :=
  { buf with stIno := afrItransform buf.stIno n childIndex }

def lowerChild (prev buf : LookupBuf) (childIndex : Fin n) : LookupBuf :=
  if childIndex < afrDeitransformOrig prev.stIno n then scaled buf childIndex else prev

def afrLookupCbk (s : LookupLocal) (childIndex : Fin n) : Answer n → LookupLocal
  | .err opErrno =>
    { s with
      enoentCount := if opErrno = .ENOENT then s.enoentCount + 1 else s.enoentCount
      opErrno := if opErrno = .ENOTCONN then s.opErrno else opErrno }
  | .ok buf xattr openFdCount =>
    let s :=
      { s with
        needMetadataSelfHeal := s.needMetadataSelfHeal || afrShHasMetadataPending xattr childIndex
        needEntrySelfHeal := s.needEntrySelfHeal || afrShHasEntryPending xattr childIndex
        needDataSelfHeal := s.needDataSelfHeal || afrShHasDataPending xattr childIndex
        openFdCount := s.openFdCount + openFdCount.getD 0
        successCount := s.successCount + 1 }
    if s.successCount = 1 then
      { s with opRet := 0, buf := scaled buf childIndex }
    else
      { s with
        govinda := s.govinda || filetypeDiffers buf.stat s.buf.stat
        needMetadataSelfHeal := s.needMetadataSelfHeal ||
          permissionDiffers buf.stat s.buf.stat || ownershipDiffers buf.stat s.buf.stat
        needDataSelfHeal := s.needDataSelfHeal ||
          (sizeDiffers buf.stat s.buf.stat && sIsreg buf.stat)
        buf := lowerChild s.buf buf childIndex }

/-- The inode of the lookup: its number, and if an earlier lookup left a context. -/
structure LookupInode where
  ino : UInt64
  ctx : Bool

/-- What follows the last reply; the last component says if a self-heal is begun. -/
def afrLookupDone (inode : LookupInode) (s : LookupLocal) : LookupLocal × Bool :=
  let missing := s.successCount != 0 && s.enoentCount != 0
  let s :=
    { s with
      buf :=
        if s.opRet = 0 ∧ inode.ino ≠ 0 then { s.buf with stIno := inode.ino } else s.buf
      needMetadataSelfHeal := s.needMetadataSelfHeal || missing
      needEntrySelfHeal := s.needEntrySelfHeal || missing
      needDataSelfHeal := s.needDataSelfHeal || missing || (s.successCount != 0 && inode.ctx) }
  (s, (s.needMetadataSelfHeal || s.needDataSelfHeal || s.needEntrySelfHeal) && s.openFdCount == 0)

def afrLookup (inode : LookupInode) (replies : List (Fin n × Answer n)) : LookupLocal × Bool :=
  afrLookupDone inode (gather afrLookupCbk .start replies)

def KeepsChild (childIndex : Fin n) (buf : LookupBuf) : Prop :=
  afrDeitransformOrig (afrItransform buf.stIno n childIndex) n = childIndex

/-- The sizes are the same, or are compared in both orders or in none. -/
def SizesAgree (buf buf' : Stat) : Prop :=
  buf.stSize = buf'.stSize ∨ sIsreg buf = sIsreg buf'

def Agree (r r' : Fin n × Answer n) : Prop :=
  match r.2, r'.2 with
  | .err e, .err e' => e ≠ .ENOTCONN → e' ≠ .ENOTCONN → e = e'
  | .ok buf _ _, .ok buf' _ _ =>
    (r.1 ≠ r'.1 → KeepsChild r.1 buf ∧ KeepsChild r'.1 buf') ∧ SizesAgree buf.stat buf'.stat
  | _, _ => True

theorem scaled_stat (buf : LookupBuf) (i : Fin n) : (scaled buf i).stat = buf.stat := by
  rfl

theorem lowerChild_comm {i j : Fin n} {buf buf' : LookupBuf} (hne : i ≠ j) (hi : KeepsChild i buf)
    (hj : KeepsChild j buf') (prev : LookupBuf) :
    lowerChild (lowerChild prev buf i) buf' j = lowerChild (lowerChild prev buf' j) buf i := by
  unfold KeepsChild at hi hj
  unfold lowerChild scaled
  split_ifs <;> simp_all <;> omega

theorem lowerChild_stat (prev buf : LookupBuf) (i : Fin n) :
    (lowerChild prev buf i).stat = buf.stat ∨ (lowerChild prev buf i).stat = prev.stat := by
  unfold lowerChild
  split_ifs
  · exact .inl rfl
  · exact .inr rfl

theorem differs_comm {α : Type} [DecidableEq α] (f : Stat → α) {x y z r r' : Stat}
    (hr : r = x ∨ r = z) (hr' : r' = y ∨ r' = z) :
    (f x != f z || f y != f r) = (f y != f z || f x != f r') := by
  rw [Bool.eq_iff_iff]
  rcases hr with rfl | rfl <;> rcases hr' with rfl | rfl <;> simp <;> grind

/-- The stat that is kept is the one of a reply. -/
def Kept (replies : List (Fin n × Answer n)) (s : LookupLocal) : Prop :=
  s.successCount ≠ 0 → ∃ i buf xattr fds, (i, .ok buf xattr fds) ∈ replies ∧
    s.buf.stat = buf.stat

theorem Kept.cbk {replies : List (Fin n × Answer n)} {s : LookupLocal} (h : Kept replies s)
    {r : Fin n × Answer n} (hr : r ∈ replies) : Kept replies (afrLookupCbk s r.1 r.2) := by
  obtain ⟨i, a⟩ := r
  cases a with
  | err e => exact h
  | ok buf xattr fds =>
    intro _
    by_cases hs : s.successCount = 0
    · exact ⟨i, buf, xattr, fds, hr, by simp [afrLookupCbk, hs, scaled_stat]⟩
    · have hstat : (afrLookupCbk s i (.ok buf xattr fds)).buf = lowerChild s.buf buf i := by
        simp [afrLookupCbk, hs]
      rcases lowerChild_stat s.buf buf i with heq | heq
      · exact ⟨i, buf, xattr, fds, hr, by rw [hstat, heq]⟩
      · obtain ⟨j, buf', xattr', fds', hr', hbuf'⟩ := h hs
        exact ⟨j, buf', xattr', fds', hr', by rw [hstat, heq, hbuf']⟩

theorem afrLookupCbk_comm {r r' : Fin n × Answer n} (hne : r.1 ≠ r'.1) (h : Agree r r')
    {s : LookupLocal} (hkept : s.successCount ≠ 0 → ∀ q ∈ [r, r'], ∀ buf xattr fds,
      q.2 = .ok buf xattr fds → SizesAgree s.buf.stat buf.stat) :
    afrLookupCbk (afrLookupCbk s r.1 r.2) r'.1 r'.2 =
      afrLookupCbk (afrLookupCbk s r'.1 r'.2) r.1 r.2 := by
  obtain ⟨i, a⟩ := r
  obtain ⟨j, a'⟩ := r'
  cases a with
  | err e =>
    cases a' with
    | err e' =>
      simp only [Agree] at h
      simp only [afrLookupCbk, LookupLocal.mk.injEq]
      constructor
      · split_ifs <;> omega
      · by_cases he : e = .ENOTCONN <;> by_cases he' : e' = .ENOTCONN <;> simp_all
    | ok buf' xattr' fds' => by_cases hs : s.successCount = 0 <;> simp [afrLookupCbk, hs]
  | ok buf xattr fds =>
    cases a' with
    | err e' => by_cases hs : s.successCount = 0 <;> simp [afrLookupCbk, hs]
    | ok buf' xattr' fds' =>
      obtain ⟨hkeeps, hsizes⟩ := h
      obtain ⟨hi, hj⟩ := hkeeps hne
      have hfds : s.openFdCount + fds.getD 0 + fds'.getD 0 =
          s.openFdCount + fds'.getD 0 + fds.getD 0 := by
        rw [UInt32.add_assoc, UInt32.add_comm (fds.getD 0), UInt32.add_assoc]
      by_cases hs : s.successCount = 0
      · have hbuf : lowerChild (scaled buf i) buf' j = lowerChild (scaled buf' j) buf i := by
          unfold KeepsChild at hi hj
          unfold lowerChild
          split_ifs <;> simp_all [scaled] <;> omega
        simp only [afrLookupCbk, hs, zero_add, if_true, Nat.reduceAdd, OfNat.ofNat_ne_one,
          if_false, LookupLocal.mk.injEq, permissionDiffers, ownershipDiffers, sizeDiffers,
          filetypeDiffers, hfds, hbuf, scaled_stat, and_true, true_and]
        grind [SizesAgree]
      · have hone : s.successCount + 1 ≠ 1 := by omega
        have htwo : s.successCount + 1 + 1 ≠ 1 := by omega
        have hdiff {α : Type} [DecidableEq α] (f : Stat → α) :=
          differs_comm f (lowerChild_stat s.buf buf i) (lowerChild_stat s.buf buf' j)
        have hmode := hdiff Stat.stMode
        have huid := hdiff Stat.stUid
        have hgid := hdiff Stat.stGid
        have hfile := hdiff fileType
        have hsize : ((buf.stat.stSize != s.buf.stat.stSize && sIsreg buf.stat) ||
              (buf'.stat.stSize != (lowerChild s.buf buf i).stat.stSize && sIsreg buf'.stat)) =
            ((buf'.stat.stSize != s.buf.stat.stSize && sIsreg buf'.stat) ||
              (buf.stat.stSize != (lowerChild s.buf buf' j).stat.stSize && sIsreg buf.stat)) := by
          have hdiffs := hdiff Stat.stSize
          have hx := hkept hs _ mem_cons_self _ _ _ rfl
          have hy := hkept hs _ (mem_cons_of_mem _ mem_cons_self) _ _ _ rfl
          have hlow := lowerChild_stat s.buf buf i
          have hlow' := lowerChild_stat s.buf buf' j
          grind [SizesAgree]
        simp only [afrLookupCbk, hone, htwo, if_false, LookupLocal.mk.injEq, true_and,
          lowerChild_comm hne hi hj, and_true, permissionDiffers, ownershipDiffers,
          sizeDiffers, filetypeDiffers, hfds]
        grind

/-- The outcome of a lookup is the same in every order of the replies. -/
theorem afrLookup_perm (inode : LookupInode) (replies replies' : List (Fin n × Answer n))
    (hanswers : Answers replies (finRange n)) (hagree : ∀ r ∈ replies, ∀ r' ∈ replies, Agree r r')
    (hperm : replies.Perm replies') : afrLookup inode replies = afrLookup inode replies' := by
  have hfold : ∀ rs : List (Fin n × Answer n), gather afrLookupCbk .start rs =
      rs.foldl (fun s r => afrLookupCbk s r.1 r.2) .start := by
    intro rs
    generalize LookupLocal.start = s
    induction rs generalizing s with
    | nil => rfl
    | cons r rs ih => exact ih _
  unfold afrLookup
  rw [hfold, hfold, foldl_perm_of_invariant hperm (I := Kept replies)
    (fun s hs r hr => hs.cbk hr) ?_ _ (fun hc => absurd rfl hc)]
  intro s hs r hr r' hr'
  by_cases hkey : r.1 = r'.1
  · obtain ⟨i, a⟩ := r
    cases hkey
    cases hanswers.reply_unique (nodup_finRange n) hr hr'
    rfl
  · refine afrLookupCbk_comm hkey (hagree r hr r' hr') ?_
    intro hcnt q hq buf xattr fds hok
    obtain ⟨j, buf', xattr', fds', hz, hstat⟩ := hs hcnt
    have hqr : q ∈ replies := by
      rcases mem_pair.mp hq with rfl | rfl
      · exact hr
      · exact hr'
    have := hagree _ hz q hqr
    rw [Agree, hok] at this
    rw [hstat]
    exact this.2

def plain (stIno : UInt64) (stMode stSize : Nat) : Answer 2 :=
  .ok ⟨stIno, ⟨stMode, 0, 0, stSize, 0⟩, 0⟩ (fun _ => none) none

def twoSizes : List (Fin 2 × Answer 2) :=
  [(firstChild, plain 8 0o100644 10), (secondChild, plain 9 0o100644 20)]

theorem afrLookup_perm_twoSizes :
    afrLookup ⟨0, false⟩ twoSizes = afrLookup ⟨0, false⟩ twoSizes.reverse := by
  refine afrLookup_perm _ _ _ (by decide) ?_ (reverse_perm _).symm
  intro r hr r' hr'
  simp only [twoSizes, mem_cons, not_mem_nil, or_false] at hr hr'
  rcases hr with rfl | rfl <;> rcases hr' with rfl | rfl <;>
  exact ⟨fun _ => ⟨rfl, rfl⟩, .inr rfl⟩

def twoErrors : List (Fin 2 × Answer 2) :=
  [(firstChild, .err .ENOENT), (secondChild, .err (.other 5))]

def fileAndDir : List (Fin 2 × Answer 2) :=
  [(firstChild, plain 8 0o100644 10), (secondChild, plain 9 0o40755 20)]

/-- The last error is the one returned, and the size counts only in the reply of a file. -/
theorem afrLookup_reversed :
    (afrLookup ⟨0, false⟩ twoErrors).1.opErrno = .other 5 ∧
      (afrLookup ⟨0, false⟩ twoErrors.reverse).1.opErrno = .ENOENT ∧
      (afrLookup ⟨0, false⟩ fileAndDir).1.needDataSelfHeal = false ∧
      (afrLookup ⟨0, false⟩ fileAndDir.reverse).1.needDataSelfHeal = true := by
  decide

end GlusterFS.Afr.Lookup
