import GlusterFS.Dht.LayoutAnomalies

/-!
# DHT: the layout of a new directory

`dht_selfheal_fix_this_virgin` shares out the hash ring between the subvolumes that have
the directory and no attribute, in chunks of equal size with the rest in the last one.
`dht_selfheal_dir_xattr` writes each range to its subvolume.  A later lookup merges the
ranges back, in the order of the replies, and finds every hash where it was before.
-/

namespace GlusterFS.Dht

open Intervals List Nat UInt32

/-- The loop over the layout, with `cnt` subvolumes to go and the next range at `start`. -/
def fixVirgin (chunk : UInt32) : Nat → UInt32 → List LayoutEntry → List LayoutEntry
  | _, _, [] => []
  | cnt, start, e :: es =>
    if e.err = -1 then
      if cnt - 1 = 0 then
        { e with start := start, stop := 0xffffffff } :: es
      else
        { e with start := start, stop := start + chunk - 1 } ::
          fixVirgin chunk (cnt - 1) (start + chunk) es
    else
      e :: fixVirgin chunk cnt start es

def writable (es : List LayoutEntry) : List LayoutEntry :=
  es.filter (fun e => e.err == -1)

/-- The callers have a subvolume that can be written, so that `cnt` is not 0. -/
def dhtSelfhealFixThisVirgin (layout : DhtLayout) : DhtLayout :=
  let cnt := (writable layout.list).length
  let chunk := UInt32.ofNat (0xffffffff / cnt)
  { layout with list := fixVirgin chunk cnt 0 layout.list }

/-- The attribute that `dht_selfheal_dir_xattr` sets on the subvolume of an entry. -/
def dhtSelfhealDirXattr (layout : DhtLayout) (e : LayoutEntry) : Option DiskLayout :=
  if e.err ≠ -1 ∨ e.stop = 0 then
    none
  else
    some (dhtDiskLayoutExtract layout e)

/-- The reply of the subvolume of an entry to a lookup after that. -/
def lookupReply (layout : DhtLayout) (errno : Subvol → Int) (e : LayoutEntry) :
    Option SubvolReply :=
  e.xlator.map (fun subvol =>
    { subvol := subvol
      reply :=
        if e.err = -1 then
          match dhtSelfhealDirXattr layout e with
          | some disk => .xattr disk
          | none => .noXattr
        else
          .failed (errno subvol) })

/--
The replies to a lookup: a subvolume that could be written returns its attribute, the
others fail again.
-/
def lookupReplies (layout : DhtLayout) (errno : Subvol → Int) : List SubvolReply :=
  layout.list.filterMap (lookupReply layout errno)

/--
A layout before it is shared out.  A lookup sorts the subvolumes that have no attribute
to the front, and `mkdir` has the hashed subvolume there.
-/
structure Virgin (layout : DhtLayout) : Prop where
  first : ∃ e es, layout.list = e :: es ∧ e.err = -1
  blank : ∀ e ∈ layout.list, e.start = 0 ∧ e.stop = 0
  named : ∀ e ∈ layout.list, e.xlator ≠ none
  -- `cnt` is an `int`
  fits : layout.list.length < 2 ^ 31

def Partitions (layout : DhtLayout) : Prop :=
  ∀ hash : UInt32,
    layout.list.countP (fun e => decide (e.err = -1 ∧ e.start ≤ hash ∧ hash ≤ e.stop)) = 1

variable {es : List LayoutEntry} {layout : DhtLayout} {hash : UInt32} {errno : Subvol → Int}
  {e : LayoutEntry}

section

variable {chunk start : UInt32} {cnt : Nat}

theorem mem_writable : e ∈ writable es ↔ e ∈ es ∧ e.err = -1 := by
  simp [writable]

theorem writable_cons (e : LayoutEntry) (es : List LayoutEntry) :
    writable (e :: es) = if e.err = -1 then e :: writable es else writable es := by
  unfold writable
  by_cases h : e.err = -1 <;> simp [h]

theorem toNat_last : (0xffffffff : UInt32).toNat + 1 = ringSize := by
  decide

theorem toNat_add_chunk (hpos : 0 < cnt) (hchunk : 0 < chunk.toNat)
    (hfits : start.toNat + cnt * chunk.toNat < ringSize) :
    (start + chunk).toNat = start.toNat + chunk.toNat ∧
      (start + chunk - 1).toNat + 1 = start.toNat + chunk.toNat ∧
      (start + chunk).toNat + (cnt - 1) * chunk.toNat = start.toNat + cnt * chunk.toNat := by
  have hmul : cnt * chunk.toNat = (cnt - 1) * chunk.toNat + chunk.toNat := by
    rw [← Nat.succ_mul, Nat.succ_eq_add_one, Nat.sub_add_cancel hpos]
  have hnext : (start + chunk).toNat = start.toNat + chunk.toNat := by
    rw [UInt32.toNat_add]
    exact mod_eq_of_lt (by rw [ringSize] at hfits; omega)
  refine ⟨hnext, ?_, by omega⟩
  rw [toNat_pred, hnext, if_neg (by omega)]

theorem fixVirgin_chain (hcnt : (writable es).length = cnt) (hpos : 0 < cnt)
    (hchunk : 0 < chunk.toNat) (hfits : start.toNat + cnt * chunk.toNat < ringSize) :
    Chain ringSize start.toNat
      ((writable (fixVirgin chunk cnt start es)).map LayoutEntry.range) := by
  induction es generalizing cnt start with
  | nil =>
    simp [writable] at hcnt
    omega
  | cons e es ih =>
    rw [writable_cons] at hcnt
    rw [fixVirgin]
    by_cases herr : e.err = -1
    · rw [if_pos herr, length_cons] at hcnt
      split_ifs with hlast
      · have hnone : writable es = [] := eq_nil_of_length_eq_zero (by omega)
        have hmax := toNat_last
        rw [writable_cons, if_pos herr, hnone]
        refine ⟨rfl, ?_, hmax⟩
        change start.toNat ≤ (0xffffffff : UInt32).toNat
        omega
      · obtain ⟨hnext, hstop, hrest⟩ := toNat_add_chunk hpos hchunk hfits
        rw [writable_cons, if_pos herr, map_cons]
        refine ⟨rfl, ?_, ?_⟩
        · change start.toNat ≤ (start + chunk - 1).toNat
          omega
        · change Chain ringSize ((start + chunk - 1).toNat + 1) _
          rw [hstop, ← hnext]
          exact ih (by omega) (by omega) (by omega)
    · rw [if_neg herr] at hcnt ⊢
      rw [writable_cons, if_neg herr]
      exact ih hcnt hpos hfits

theorem mem_fixVirgin (hcnt : (writable es).length = cnt) (hchunk : 1 < chunk.toNat)
    (hfits : start.toNat + cnt * chunk.toNat < ringSize) (he : e ∈ fixVirgin chunk cnt start es) :
    e.err = -1 ∧ e.stop ≠ 0 ∧ (∃ e' ∈ es, e'.xlator = e.xlator) ∨ e.err ≠ -1 ∧ e ∈ es := by
  induction es generalizing cnt start with
  | nil => cases he
  | cons e' es ih =>
    rw [writable_cons] at hcnt
    rw [fixVirgin] at he
    have hmore : (e.err = -1 ∧ e.stop ≠ 0 ∧ (∃ e' ∈ es, e'.xlator = e.xlator) ∨
        e.err ≠ -1 ∧ e ∈ es) →
        e.err = -1 ∧ e.stop ≠ 0 ∧ (∃ e'' ∈ e' :: es, e''.xlator = e.xlator) ∨
          e.err ≠ -1 ∧ e ∈ e' :: es := by
      rintro (⟨herr, hstop, e'', he'', hx⟩ | ⟨herr, hmem⟩)
      · exact .inl ⟨herr, hstop, e'', mem_cons_of_mem _ he'', hx⟩
      · exact .inr ⟨herr, mem_cons_of_mem _ hmem⟩
    by_cases herr : e'.err = -1
    · rw [if_pos herr, length_cons] at hcnt
      split_ifs at he with hlast
      · rcases mem_cons.mp he with rfl | he
        · have hmax : (0xffffffff : UInt32) ≠ 0 := by decide
          exact .inl ⟨herr, hmax, e', mem_cons_self, rfl⟩
        · have hnone : writable es = [] := eq_nil_of_length_eq_zero (by omega)
          refine .inr ⟨?_, mem_cons_of_mem _ he⟩
          intro herr'
          have hmem := mem_writable.mpr ⟨he, herr'⟩
          simp [hnone] at hmem
      · obtain ⟨_, hstop, hrest⟩ := toNat_add_chunk (by omega) (by omega) hfits
        rcases mem_cons.mp he with rfl | he
        · refine .inl ⟨herr, ?_, e', mem_cons_self, rfl⟩
          intro hzero
          have hzero' : (start + chunk - 1).toNat = 0 := congrArg toNat hzero
          omega
        · exact hmore (ih (by omega) (by omega) he)
    · rw [if_neg herr] at hcnt he
      rcases mem_cons.mp he with rfl | he
      · exact .inr ⟨herr, mem_cons_self⟩
      · exact hmore (ih hcnt hfits he)

theorem fixVirgin_cons (herr : e.err = -1) :
    ∃ stop es', fixVirgin chunk cnt start (e :: es) =
      { e with start := start, stop := stop } :: es' := by
  rw [fixVirgin, if_pos herr]
  split_ifs <;> exact ⟨_, _, rfl⟩

end

theorem Virgin.chunk (h : Virgin layout) :
    0 < (writable layout.list).length ∧
      1 < (ofNat (0xffffffff / (writable layout.list).length)).toNat ∧
      (0 : UInt32).toNat + (writable layout.list).length *
        (ofNat (0xffffffff / (writable layout.list).length)).toNat < ringSize := by
  obtain ⟨e, es, hlist, herr⟩ := h.first
  have hpos : 0 < (writable layout.list).length := by
    rw [hlist, writable_cons, if_pos herr, length_cons]
    exact succ_pos _
  have hle : (writable layout.list).length ≤ layout.list.length := length_filter_le _ _
  have hfits := h.fits
  generalize (writable layout.list).length = count at hpos hle ⊢
  have hchunk : (ofNat (0xffffffff / count)).toNat = 0xffffffff / count := by
    refine toNat_ofNat_of_lt' ?_
    have := div_le_self 0xffffffff count
    change _ < 2 ^ 32
    omega
  rw [hchunk]
  refine ⟨hpos, ?_, ?_⟩
  · rw [← succ_le_iff, le_div_iff_mul_le hpos]
    omega
  · have hmul := mul_div_le 0xffffffff count
    have hzero : (0 : UInt32).toNat = 0 := rfl
    rw [ringSize, hzero]
    omega

theorem Virgin.chain (h : Virgin layout) :
    Chain ringSize 0 ((writable (dhtSelfhealFixThisVirgin layout).list).map LayoutEntry.range) := by
  obtain ⟨hpos, hchunk, hfits⟩ := h.chunk
  exact fixVirgin_chain rfl hpos (by omega) hfits

theorem Virgin.partitions (h : Virgin layout) : Partitions (dhtSelfhealFixThisVirgin layout) := by
  intro hash
  rw [countP_eq_coverCount]
  exact h.chain.exactCover hash.toNat (zero_le _) hash.toNat_lt

theorem exists_found {err : Int}
    (hone : es.countP (fun e => decide (e.err = err ∧ e.start ≤ hash ∧ hash ≤ e.stop)) = 1) :
    ∃ owner ∈ es, (owner.err = err ∧ owner.start ≤ hash ∧ hash ≤ owner.stop) ∧
      ∃ found, es.find? (fun e => decide (e.start ≤ hash ∧ hash ≤ e.stop)) = some found := by
  obtain ⟨owner, hown, hcov⟩ := countP_pos_iff.mp (by rw [hone]; exact one_pos)
  simp only [decide_eq_true_eq] at hcov
  have hsome : (es.find? (fun e => decide (e.start ≤ hash ∧ hash ≤ e.stop))).isSome := by
    rw [find?_isSome]
    exact ⟨owner, hown, decide_eq_true hcov.2⟩
  exact ⟨owner, hown, hcov, Option.isSome_iff_exists.mp hsome⟩

/-- What an entry of the layout is after it was shared out. -/
structure Shared (e : LayoutEntry) : Prop where
  named : e.xlator ≠ none
  written : e.err = -1 → e.stop ≠ 0
  blank : e.err ≠ -1 → e.start = 0 ∧ e.stop = 0

theorem Virgin.shared (h : Virgin layout) :
    ∀ e ∈ (dhtSelfhealFixThisVirgin layout).list, Shared e := by
  intro e he
  obtain ⟨hpos, hchunk, hfits⟩ := h.chunk
  rcases mem_fixVirgin rfl hchunk hfits he with ⟨herr, hstop, e', he', hxlator⟩ | ⟨herr, hold⟩
  · refine ⟨?_, fun _ => hstop, fun hne => absurd herr hne⟩
    rw [← hxlator]
    exact h.named e' he'
  · exact ⟨h.named e hold, fun herr' => absurd herr' herr, fun _ => h.blank e hold⟩

theorem Virgin.find?_writable (h : Virgin layout) (hash : UInt32) :
    ∃ e, (dhtSelfhealFixThisVirgin layout).list.find?
        (fun e => decide (e.start ≤ hash ∧ hash ≤ e.stop)) = some e ∧
      e.err = -1 := by
  obtain ⟨first, es, hlist, herr⟩ := h.first
  obtain ⟨stop, es', hfixed⟩ : ∃ stop es', (dhtSelfhealFixThisVirgin layout).list =
      { first with start := 0, stop := stop } :: es' := by
    unfold dhtSelfhealFixThisVirgin
    rw [hlist]
    exact fixVirgin_cons herr
  by_cases hin : hash ≤ stop
  · have hhit : decide ((0 : UInt32) ≤ hash ∧ hash ≤ stop) = true :=
      decide_eq_true ⟨UInt32.zero_le, hin⟩
    refine ⟨{ first with start := 0, stop := stop }, ?_, herr⟩
    rw [hfixed, find?_cons]
    simp only [hhit]
  · obtain ⟨-, -, -, found, hfnd⟩ := exists_found (h.partitions hash)
    refine ⟨found, hfnd, ?_⟩
    by_contra hne
    have hrng := find?_some hfnd
    obtain ⟨-, hstop⟩ := (h.shared found (mem_of_find?_eq_some hfnd)).blank hne
    simp only [decide_eq_true_eq, hstop] at hrng
    -- the range of an error holds nothing but the first hash
    exact hin (UInt32.le_trans hrng.2 (UInt32.zero_le))

theorem lookupReply_written (layout : DhtLayout) (errno : Subvol → Int) (hshr : Shared e)
    (herr : e.err = -1) :
    ∃ r, lookupReply layout errno e = some r ∧ r.entry = { e with err := 0 } := by
  obtain ⟨subvol, hsub⟩ := Option.ne_none_iff_exists'.mp hshr.named
  have hdisk : dhtSelfhealDirXattr layout e = some (dhtDiskLayoutExtract layout e) := by
    rw [dhtSelfhealDirXattr, if_neg]
    rintro (hne | hzero)
    · exact hne herr
    · exact hshr.written herr hzero
  refine ⟨⟨subvol, .xattr (dhtDiskLayoutExtract layout e)⟩, ?_, ?_⟩
  · simp [lookupReply, hsub, herr, hdisk]
  · simp [SubvolReply.entry, mergeEntry, dhtDiskLayoutMerge, dhtDiskLayoutExtract, hsub]

theorem lookupReply_failed (layout : DhtLayout) (errno : Subvol → Int) (hshr : Shared e)
    (herr : e.err ≠ -1) :
    ∃ r, lookupReply layout errno e = some r ∧ r.entry = ⟨errno r.subvol, 0, 0, some r.subvol⟩ := by
  obtain ⟨subvol, hsub⟩ := Option.ne_none_iff_exists'.mp hshr.named
  refine ⟨⟨subvol, .failed (errno subvol)⟩, ?_, rfl⟩
  simp [lookupReply, hsub, herr]

theorem entry_of_mem_lookupReplies {r : SubvolReply} (hshr : ∀ e ∈ layout.list, Shared e)
    (hr : r ∈ lookupReplies layout errno) :
    (∃ e ∈ writable layout.list, r.entry = { e with err := 0 }) ∨
      r.entry = ⟨errno r.subvol, 0, 0, some r.subvol⟩ := by
  obtain ⟨e, he, hrep⟩ := mem_filterMap.mp hr
  by_cases herr : e.err = -1
  · obtain ⟨r', hr', hent⟩ := lookupReply_written layout errno (hshr e he) herr
    rw [hr', Option.some_inj] at hrep
    subst hrep
    exact .inl ⟨e, mem_writable.mpr ⟨he, herr⟩, hent⟩
  · obtain ⟨r', hr', hent⟩ := lookupReply_failed layout errno (hshr e he) herr
    rw [hr', Option.some_inj] at hrep
    subst hrep
    exact .inr hent

theorem valid_lookupReplies (herrno : ∀ subvol, 0 < errno subvol)
    (hshr : ∀ e ∈ layout.list, Shared e) :
    valid ((lookupReplies layout errno).map SubvolReply.entry) =
      (writable layout.list).map (fun e => { e with err := 0 }) := by
  unfold lookupReplies
  generalize layout.list = es at hshr ⊢
  induction es with
  | nil => rfl
  | cons e es ih =>
    obtain ⟨he, hes⟩ := forall_mem_cons.mp hshr
    have hrest := ih hes
    by_cases herr : e.err = -1
    · obtain ⟨r, hr, hent⟩ := lookupReply_written layout errno he herr
      rw [filterMap_cons, hr, writable_cons, if_pos herr, map_cons, map_cons, ← hrest, hent]
      simp [valid]
    · obtain ⟨r, hr, hent⟩ := lookupReply_failed layout errno he herr
      have hne : errno r.subvol ≠ 0 := by
        have := herrno r.subvol
        omega
      rw [filterMap_cons, hr, writable_cons, if_neg herr, ← hrest, map_cons, hent]
      simp [valid, hne]

theorem ranges_lookupReplies (herrno : ∀ subvol, 0 < errno subvol)
    (hshr : ∀ e ∈ layout.list, Shared e) :
    ranges ((lookupReplies layout errno).map SubvolReply.entry) =
      (writable layout.list).map LayoutEntry.range := by
  rw [ranges, valid_lookupReplies herrno hshr, map_map]
  rfl

section

/-- The layout that a lookup of the new directory merges. -/
structure Reread (layout : DhtLayout) (errno : Subvol → Int) (es : List LayoutEntry) : Prop where
  perm : es.Perm ((lookupReplies (dhtSelfhealFixThisVirgin layout) errno).map SubvolReply.entry)
  virgin : Virgin layout
  errors : ∀ subvol, 0 < errno subvol

variable (h : Reread layout errno es)
include h

theorem Reread.entry (he : e ∈ es) :
    (∃ e' ∈ writable (dhtSelfhealFixThisVirgin layout).list, e = { e' with err := 0 }) ∨
      0 < e.err ∧ e.start = 0 ∧ e.stop = 0 := by
  obtain ⟨r, hr, rfl⟩ := mem_map.mp (h.perm.subset he)
  rcases entry_of_mem_lookupReplies h.virgin.shared hr with hwrn | hfail
  · exact .inl hwrn
  · rw [hfail]
    exact .inr ⟨h.errors r.subvol, rfl, rfl⟩

theorem Reread.merged : ∀ e ∈ es, Merged e := by
  intro e he
  rcases h.entry he with ⟨e', he', rfl⟩ | ⟨herr, hst, hstop⟩
  · have hle := h.virgin.chain.ordered _ (mem_map_of_mem he')
    exact ⟨le_iff_toNat_le.mpr hle, fun hne => absurd rfl hne⟩
  · refine ⟨?_, fun _ => hst⟩
    rw [hst, hstop]
    exact le_refl 0

theorem Reread.exactlyOnce : ExactlyOnce es := by
  rw [exactlyOnce_iff, exactCover_perm (ranges_perm h.perm),
    ranges_lookupReplies h.errors h.virgin.shared]
  exact h.virgin.chain.exactCover

theorem Reread.find?_valid
    (hsort : es.Pairwise (fun e e' => entryGt e e' = false)) (hash : UInt32) :
    ∃ e, es.find? (fun e => decide (e.start ≤ hash ∧ hash ≤ e.stop)) = some e ∧ e.err = 0 := by
  obtain ⟨owner, hown, hcov, found, hfnd⟩ := exists_found (h.exactlyOnce hash)
  refine ⟨found, hfnd, ?_⟩
  obtain ⟨-, before, after, hsp, hbef⟩ := find?_eq_some_iff_append.mp hfnd
  have hnn : 0 ≤ found.err := by
    rcases h.entry (mem_of_find?_eq_some hfnd) with ⟨e', he', rfl⟩ | ⟨herr, -, -⟩
    · exact Int.le_refl 0
    · omega
  -- the entry with the hash in its range is not before this one, and errors are last
  rw [hsp] at hown hsort
  rcases mem_append.mp hown with hmem | hmem
  · have := hbef owner hmem
    simp [hcov.2] at this
  · rcases mem_cons.mp hmem with rfl | hmem
    · exact hcov.1
    · have hle := (pairwise_cons.mp (pairwise_append.mp hsort).2.1).1 owner hmem
      rw [entryGt_eq_false_iff] at hle
      omega

omit h

theorem Partitions.eq (h : Partitions layout) {e' : LayoutEntry} (he : e ∈ writable layout.list)
    (hin : e.start ≤ hash ∧ hash ≤ e.stop) (he' : e' ∈ writable layout.list)
    (hin' : e'.start ≤ hash ∧ hash ≤ e'.stop) : e = e' := by
  have hone := h hash
  rw [countP_eq_length_filter, length_eq_one_iff] at hone
  obtain ⟨owner, hown⟩ := hone
  have hmem : ∀ e ∈ writable layout.list, e.start ≤ hash ∧ hash ≤ e.stop → e = owner := by
    intro e he hin
    obtain ⟨hmem, herr⟩ := mem_writable.mp he
    rw [← mem_singleton, ← hown]
    exact mem_filter.mpr ⟨hmem, decide_eq_true ⟨herr, hin⟩⟩
  rw [hmem e he hin, hmem e' he' hin']

theorem Reread.search (h : Reread layout errno es)
    (hsort : es.Pairwise (fun e e' => entryGt e e' = false)) (type : UInt32) (hash : UInt32) :
    dhtLayoutSearch ⟨type, es⟩ hash = dhtLayoutSearch (dhtSelfhealFixThisVirgin layout) hash := by
  obtain ⟨before, hbef, herr⟩ := h.virgin.find?_writable hash
  obtain ⟨after, haft, hvalid⟩ := h.find?_valid hsort hash
  unfold dhtLayoutSearch
  rw [hbef, haft]
  have hin := find?_some hbef
  have hin' := find?_some haft
  simp only [decide_eq_true_eq] at hin hin'
  rcases h.entry (mem_of_find?_eq_some haft) with ⟨e', he', rfl⟩ | ⟨hpos, -, -⟩
  · have hmem := mem_writable.mpr ⟨mem_of_find?_eq_some hbef, herr⟩
    rw [h.virgin.partitions.eq hmem hin he' hin']
    rfl
  · omega

/--
The ranges of a new directory partition the hash ring.  A lookup that reads them back,
in any order of the replies, finds no anomaly and the same subvolume for every hash.
-/
theorem virgin_round_trip (layout : DhtLayout) (errno : Subvol → Int) (hvirgin : Virgin layout)
    (herrno : ∀ subvol, 0 < errno subvol) :
    Partitions (dhtSelfhealFixThisVirgin layout) ∧ ∀ order : List SubvolReply,
        order.Perm (lookupReplies (dhtSelfhealFixThisVirgin layout) errno) →
        (dhtLayoutNormalize (mergeReplies (dhtLayoutNew order.length) order)).2 = 0 ∧
        ∀ hash : UInt32, dhtLayoutSearch
              (dhtLayoutNormalize (mergeReplies (dhtLayoutNew order.length) order)).1 hash =
            dhtLayoutSearch (dhtSelfhealFixThisVirgin layout) hash := by
  refine ⟨hvirgin.partitions, ?_⟩
  intro order hperm
  have hrer : Reread layout errno (order.map SubvolReply.entry) := ⟨hperm.map _, hvirgin, herrno⟩
  rw [← mergeReplies_list] at hrer
  refine ⟨dhtLayoutNormalize_of_exactlyOnce hrer.merged hrer.exactlyOnce, ?_⟩
  have hsort := dhtLayoutSort_perm (mergeReplies (dhtLayoutNew order.length) order)
  have hsorted : Reread layout errno
      (dhtLayoutSort (mergeReplies (dhtLayoutNew order.length) order)).list :=
    ⟨hsort.trans hrer.perm, hvirgin, herrno⟩
  exact hsorted.search (dhtLayoutSort_pairwise _) _

def threeOfFive : DhtLayout :=
  ⟨0, [⟨-1, 0, 0, some 3⟩, ⟨-1, 0, 0, some 0⟩, ⟨ENOTCONN, 0, 0, some 1⟩, ⟨-1, 0, 0, some 4⟩,
    ⟨ENOENT, 0, 0, some 2⟩]⟩

theorem virgin_round_trip_threeOfFive :
    Partitions (dhtSelfhealFixThisVirgin threeOfFive) ∧ ∀ order : List SubvolReply,
        order.Perm (lookupReplies (dhtSelfhealFixThisVirgin threeOfFive) (fun _ => ENOTCONN)) →
        (dhtLayoutNormalize (mergeReplies (dhtLayoutNew order.length) order)).2 = 0 ∧
        ∀ hash : UInt32, dhtLayoutSearch
              (dhtLayoutNormalize (mergeReplies (dhtLayoutNew order.length) order)).1 hash =
            dhtLayoutSearch (dhtSelfhealFixThisVirgin threeOfFive) hash := by
  refine virgin_round_trip threeOfFive (fun _ => ENOTCONN) ?_ (fun _ => by decide)
  exact ⟨⟨_, _, rfl, rfl⟩, by decide, by decide, by decide⟩

end

end GlusterFS.Dht
