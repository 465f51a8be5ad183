import GlusterFS.Lib.ExchangeSort
import GlusterFS.Lib.Intervals
import GlusterFS.Libglusterfs.ByteOrder

/-!
# DHT: the layout of a directory

The layout of a directory gives each subvolume a range of the 32-bit hash values.  A
subvolume keeps its range in an extended attribute, in network byte order; a lookup
merges the replies of the subvolumes into a new layout, in the order in which they
come, and `dht_layout_normalize` sorts it and looks for holes and overlaps.
-/

namespace GlusterFS.Dht

open ExchangeSort List

def doSwap2 (x : UInt32) : UInt32 :=
  ((x &&& 0x00ff) <<< 8) ||| ((x &&& 0xff00) >>> 8)

def doSwap4 (x : UInt32) : UInt32 :=
  (doSwap2 (x &&& 0x0000ffff) <<< 16) ||| doSwap2 ((x &&& 0xffff0000) >>> 16)

def hton32 (x : UInt32) : UInt32 :=
  doSwap4 x

def ntoh32 (x : UInt32) : UInt32 :=
  hton32 x

variable (x : UInt32)

@[simp] theorem ntoh32_hton32 : ntoh32 (hton32 x) = x := by
  rw [← UInt32.toBitVec_inj]
  exact (ByteOrder.reverses_doSwap4 (by decide)).involutive (by decide) x.toBitVec

abbrev Subvol := Nat

/-- `err` is 0, -1 for a directory without the attribute, or the `errno` of the lookup. -/
structure LayoutEntry where
  err : Int
  start : UInt32
  stop : UInt32
  xlator : Option Subvol

structure DhtLayout where
  type : UInt32
  list : List LayoutEntry

def dhtLayoutNew (cnt : Nat) : DhtLayout where
  type := 0
  list := replicate cnt ⟨0, 0, 0, none⟩

def dhtLayoutSearch (layout : DhtLayout) (hash : UInt32) : Option Subvol :=
  (layout.list.find? (fun e => decide (e.start ≤ hash ∧ hash ≤ e.stop))).bind LayoutEntry.xlator

structure DiskLayout where
  cnt : UInt32
  type : UInt32
  start : UInt32
  stop : UInt32
deriving DecidableEq

def dhtDiskLayoutExtract (layout : DhtLayout) (e : LayoutEntry) : DiskLayout where
  cnt := hton32 1
  type := hton32 layout.type
  start := hton32 e.start
  stop := hton32 e.stop

def dhtDiskLayoutMerge (e : LayoutEntry) (disk : DiskLayout) : Option LayoutEntry :=
  if ntoh32 disk.cnt = 1 then
    some { e with start := ntoh32 disk.start, stop := ntoh32 disk.stop }
  else
    none

/-- The reply of a subvolume: an error, no attribute, or the attribute. -/
inductive LayoutReply where
  | failed (opErrno : Int)
  | noXattr
  | xattr (disk : DiskLayout)

/-- The new contents of the entry that a reply goes to, and the value returned. -/
def mergeEntry (subvol : Subvol) (reply : LayoutReply) (e : LayoutEntry) : LayoutEntry × Int :=
  match reply with
  | .failed opErrno => ({ e with err := opErrno, xlator := some subvol }, 0)
  | .noXattr => ({ e with err := -1, xlator := some subvol }, 0)
  | .xattr disk =>
    match dhtDiskLayoutMerge { e with err := -1, xlator := some subvol } disk with
    | some e' => ({ e' with err := 0 }, 0)
    | none => ({ e with err := -1, xlator := some subvol }, -1)

def fillFirst (f : LayoutEntry → LayoutEntry) : List LayoutEntry → List LayoutEntry
  | [] => []
  | e :: es => if e.xlator.isNone then f e :: es else e :: fillFirst f es

def dhtLayoutMerge (layout : DhtLayout) (subvol : Subvol) (reply : LayoutReply) : DhtLayout :=
  { layout with list := fillFirst (fun e => (mergeEntry subvol reply e).1) layout.list }

def dhtLayoutEntryCmp (e e' : LayoutEntry) : Int :=
  if e.err ≠ 0 ∨ e'.err ≠ 0 then
    e.err - e'.err
  else
    (e.start.toNat : Int) - (e'.start.toNat : Int)

def entryGt (e e' : LayoutEntry) : Bool :=
  decide (0 < dhtLayoutEntryCmp e e')

def dhtLayoutSort (layout : DhtLayout) : DhtLayout :=
  { layout with list := exchangeSort entryGt layout.list }

def ENOENT : Int := 2

def ENOTCONN : Int := 107

/-- The counters of `dht_layout_anomalies`, which go up once for an entry at most. -/
structure Anomalies where
  holeCnt : Nat
  overlapCnt : Nat
  missing : Nat
  down : Nat
  misc : Nat
  prevStop : UInt32
  isVirgin : Bool

def countError (a : Anomalies) (err : Int) : Anomalies :=
  if err = -1 ∨ err = ENOENT then
    { a with missing := a.missing + 1 }
  else if err = ENOTCONN then
    { a with down := a.down + 1 }
  else
    { a with misc := a.misc + 1 }

def anomaliesStep (a : Anomalies) (e : LayoutEntry) : Anomalies :=
  if e.err ≠ 0 then
    countError a e.err
  else
    { a with
      isVirgin := false
      holeCnt := if a.prevStop + 1 < e.start then a.holeCnt + 1 else a.holeCnt
      overlapCnt := if e.start < a.prevStop + 1 then a.overlapCnt + 1 else a.overlapCnt
      prevStop := e.stop }

def layoutLastStop (layout : DhtLayout) : UInt32 :=
  (layout.list.head?.map LayoutEntry.start).getD 0 - 1

def dhtLayoutAnomalies (layout : DhtLayout) : Anomalies :=
  let lastStop := layoutLastStop layout
  let a := layout.list.foldl anomaliesStep ⟨0, 0, 0, 0, 0, lastStop, true⟩
  if lastStop - a.prevStop ≠ 0 ∨ a.isVirgin then
    { a with holeCnt := a.holeCnt + 1 }
  else
    a

def dhtLayoutNormalize (layout : DhtLayout) : DhtLayout × Int :=
  let layout := dhtLayoutSort layout
  let a := dhtLayoutAnomalies layout
  (layout, if a.holeCnt ≠ 0 ∨ a.overlapCnt ≠ 0 then 1 else 0)

structure SubvolReply where
  subvol : Subvol
  reply : LayoutReply

def LayoutReply.Ordered : LayoutReply → Prop
  | .xattr disk => ntoh32 disk.start ≤ ntoh32 disk.stop
  | _ => True

instance : DecidablePred LayoutReply.Ordered
  | .xattr disk => inferInstanceAs (Decidable (ntoh32 disk.start ≤ ntoh32 disk.stop))
  | .failed _ | .noXattr => inferInstanceAs (Decidable True)

def mergeReplies (layout : DhtLayout) (replies : List SubvolReply) : DhtLayout :=
  replies.foldl (fun layout r => dhtLayoutMerge layout r.subvol r.reply) layout

def SubvolReply.entry (r : SubvolReply) : LayoutEntry :=
  (mergeEntry r.subvol r.reply ⟨0, 0, 0, none⟩).1

theorem mergeEntry_xlator (subvol : Subvol) (reply : LayoutReply) (e : LayoutEntry) :
    (mergeEntry subvol reply e).1.xlator = some subvol := by
  cases reply with
  | failed opErrno | noXattr => rfl
  | xattr disk =>
    simp only [mergeEntry, dhtDiskLayoutMerge]
    split_ifs <;> rfl

theorem fillFirst_append (f : LayoutEntry → LayoutEntry) {done : List LayoutEntry}
    {e : LayoutEntry} (rest : List LayoutEntry) (hdone : ∀ e ∈ done, e.xlator ≠ none)
    (he : e.xlator = none) : fillFirst f (done ++ e :: rest) = done ++ f e :: rest := by
  induction done with
  | nil => simp [fillFirst, he]
  | cons e' done ih =>
    obtain ⟨he', hdone'⟩ := forall_mem_cons.mp hdone
    rw [cons_append, fillFirst, if_neg (by simp [he']), ih hdone']
    rfl

theorem mergeReplies_list (replies : List SubvolReply) :
    (mergeReplies (dhtLayoutNew replies.length) replies).list = replies.map SubvolReply.entry := by
  have hfill : ∀ (layout : DhtLayout) (done : List LayoutEntry) (replies : List SubvolReply),
      (∀ e ∈ done, e.xlator ≠ none) →
      layout.list = done ++ replicate replies.length ⟨0, 0, 0, none⟩ →
      (mergeReplies layout replies).list = done ++ replies.map SubvolReply.entry := by
    intro layout done replies
    induction replies generalizing layout done with
    | nil =>
      intro _ hlist
      exact hlist
    | cons r replies ih =>
      intro hdone hlist
      have hnext : (dhtLayoutMerge layout r.subvol r.reply).list =
          (done ++ [r.entry]) ++ replicate replies.length ⟨0, 0, 0, none⟩ := by
        rw [dhtLayoutMerge, hlist, length_cons, replicate_succ]
        rw [fillFirst_append _ _ hdone rfl, append_assoc]
        rfl
      have hdone' : ∀ e ∈ done ++ [r.entry], e.xlator ≠ none := by
        refine forall_mem_append.mpr ⟨hdone, forall_mem_singleton.mpr ?_⟩
        rw [SubvolReply.entry, mergeEntry_xlator]
        exact Option.some_ne_none _
      have hmrg := ih _ _ hdone' hnext
      rw [append_assoc] at hmrg
      exact hmrg
  exact hfill _ [] replies (by simp) (by simp [dhtLayoutNew])

/-- An entry that was merged: an error leaves no range. -/
structure Merged (e : LayoutEntry) : Prop where
  ordered : e.start ≤ e.stop
  blank : e.err ≠ 0 → e.start = 0

theorem SubvolReply.merged {r : SubvolReply} (hord : r.reply.Ordered) : Merged r.entry := by
  obtain ⟨subvol, reply⟩ := r
  unfold entry
  cases reply with
  | failed opErrno | noXattr => exact ⟨UInt32.le_refl 0, fun _ => rfl⟩
  | xattr disk =>
    simp only [mergeEntry, dhtDiskLayoutMerge]
    split_ifs
    · exact ⟨hord, fun herr => absurd rfl herr⟩
    · exact ⟨UInt32.le_refl 0, fun _ => rfl⟩

theorem entryGt_eq_false_iff {e e' : LayoutEntry} :
    entryGt e e' = false ↔
      e.err < e'.err ∨ e.err = e'.err ∧ (e.err ≠ 0 ∨ e.start.toNat ≤ e'.start.toNat) := by
  rw [entryGt, decide_eq_false_iff_not, dhtLayoutEntryCmp]
  split_ifs <;> omega

theorem entryGt_trans (e1 e2 e3 : LayoutEntry) (h12 : entryGt e1 e2 = false)
    (h23 : entryGt e2 e3 = false) : entryGt e1 e3 = false := by
  rw [entryGt_eq_false_iff] at h12 h23 ⊢
  omega

theorem entryGt_asymm (e1 e2 : LayoutEntry) (h : entryGt e1 e2 = true) : entryGt e2 e1 = false := by
  rw [← Bool.not_eq_false, entryGt_eq_false_iff] at h
  rw [entryGt_eq_false_iff]
  omega

theorem dhtLayoutSort_perm (layout : DhtLayout) : (dhtLayoutSort layout).list.Perm layout.list := by
  exact exchangeSort_perm entryGt layout.list

theorem dhtLayoutSort_pairwise (layout : DhtLayout) :
    (dhtLayoutSort layout).list.Pairwise (fun e e' => entryGt e e' = false) := by
  exact exchangeSort_pairwise entryGt_trans entryGt_asymm layout.list

end GlusterFS.Dht
