import GlusterFS.Dht.LayoutAnomalies

/-!
# DHT: the subvolume for a name

The bytes of a name are hashed to 32 bits, and `dht_layout_search` takes the first entry of the
layout with the hash in its range.  It does not look at the error of the entry.  An entry with an
error has the range from 0 to 0, and the entries of the directories that have no attribute stand
before all ranges, so such a directory gets the names with the hash 0.
-/

namespace GlusterFS.Dht

open Intervals List

structure TeaBlock where
  a0 : UInt32
  a1 : UInt32
  a2 : UInt32
  a3 : UInt32

def DELTA : UInt32 := 0x9E3779B9

def FULLROUNDS : Nat := 10

def PARTROUNDS : Nat := 6

def teaRounds (array : TeaBlock) : Nat → UInt32 → UInt32 × UInt32 → UInt32 × UInt32
  | 0, _, b => b
  | n + 1, sum, (b0, b1) =>
    let sum := sum + DELTA
    let b0 := b0 + (((b1 <<< 4) + array.a0) ^^^ (b1 + sum) ^^^ ((b1 >>> 5) + array.a1))
    let b1 := b1 + (((b0 <<< 4) + array.a2) ^^^ (b0 + sum) ^^^ ((b0 >>> 5) + array.a3))
    teaRounds array n sum (b0, b1)

def tearound (rounds : Nat) (array : TeaBlock) (h : UInt32 × UInt32) : UInt32 × UInt32 :=
  let b := teaRounds array rounds 0 h
  (h.1 + b.1, h.2 + b.2)

def teaPad (len : Nat) : UInt32 :=
  let pad := UInt32.ofNat len ||| (UInt32.ofNat len <<< 8)
  pad ||| (pad <<< 16)

def intmsg (msg : List UInt8) : UInt32 :=
  (msg.take 4).foldr (fun b word => (word <<< 8) ||| b.toUInt32) 0

def ofChar (b : UInt8) : UInt32 :=
  if b < 128 then b.toUInt32 else 0xFFFFFF00 ||| b.toUInt32

/-- The word `j` of the last block: a full word, the bytes that are left, or padding. -/
def teaLastWord (pad : UInt32) (msg : List UInt8) (j : Nat) : UInt32 :=
  if j < msg.length / 4 then
    intmsg (msg.drop (4 * j))
  else
    (msg.drop (4 * j)).foldl (fun word b => (word <<< 8) ||| ofChar b) pad

def teaQuads : Nat → List UInt8 → UInt32 × UInt32 → UInt32 × UInt32
  | 0, _, h => h
  | quads + 1, msg, h =>
    teaQuads quads (msg.drop 16) (tearound PARTROUNDS
        ⟨intmsg msg, intmsg (msg.drop 4), intmsg (msg.drop 8), intmsg (msg.drop 12)⟩ h)

def dhtHashfnTea (msg : List UInt8) : UInt32 :=
  let len := msg.length
  let h := teaQuads (len / 16) msg (0x9464a485, 0x542e1a94)
  let rest := msg.drop (16 * (len / 16))
  let word := teaLastWord (teaPad len) rest
  let h := if len % 16 = 0 then h
    else tearound FULLROUNDS ⟨word 0, word 1, word 2, word 3⟩ h
  h.1 ^^^ h.2

def dot : UInt8 := 46

/-- A name `.name.suffix` is hashed without the dot in front and the suffix. -/
def rsyncFriendlyName (name : List UInt8) : List UInt8 :=
  let beforeDot := (name.reverse.dropWhile (fun b => b ≠ dot)).drop 1
  if name.head? = some dot ∧ 1 < beforeDot.length ∧ beforeDot.length + 1 < name.length then
    beforeDot.reverse.drop 1
  else
    name

def dhtHashCompute (type : UInt32) (name : List UInt8) : Option UInt32 :=
  if type = 0 then some (dhtHashfnTea (rsyncFriendlyName name)) else none

def dhtLayoutSearchName (layout : DhtLayout) (name : List UInt8) : Option Subvol :=
  (dhtHashCompute layout.type name).bind (dhtLayoutSearch layout)

variable {name suffix : List UInt8} {layout : DhtLayout} {hash : UInt32} {e e' : LayoutEntry}

/-- The name that rsync gives a file as long as it is not complete. -/
def tmpName (name suffix : List UInt8) : List UInt8 :=
  dot :: name ++ dot :: suffix

/-- The name is itself one that rsync gives to a file `name'`. -/
def IsTmpNameOf (name' name : List UInt8) : Prop :=
  ∃ suffix, name' ≠ [] ∧ suffix ≠ [] ∧ dot ∉ suffix ∧ name = tmpName name' suffix

theorem drop_dropWhile_dot (hdot : dot ∉ suffix) (before : List UInt8) :
    ((suffix ++ dot :: before).dropWhile (fun b => b ≠ dot)).drop 1 = before := by
  rw [dropWhile_append_of_pos]
  · simp
  · intro b hb
    rw [decide_eq_true_iff]
    exact ne_of_mem_of_not_mem hb hdot

theorem rsyncFriendlyName_tmpName (hname : name ≠ []) (hsuf : suffix ≠ [])
    (hdot : dot ∉ suffix) : rsyncFriendlyName (tmpName name suffix) = name := by
  have hreverse : (tmpName name suffix).reverse =
      suffix.reverse ++ dot :: (name.reverse ++ [dot]) := by
    simp [tmpName]
  have hlen := length_pos_iff.mpr hname
  have hlen' := length_pos_iff.mpr hsuf
  rw [rsyncFriendlyName, hreverse, drop_dropWhile_dot (by simpa using hdot), if_pos]
  · simp
  · refine ⟨rfl, ?_, ?_⟩ <;> simp [tmpName] <;> omega

theorem rsyncFriendlyName_eq_self (h : ∀ name', ¬ IsTmpNameOf name' name) :
    rsyncFriendlyName name = name := by
  rw [rsyncFriendlyName]
  refine if_neg ?_
  rintro ⟨hhead, hlong, hsho⟩
  obtain ⟨suffix, before, hsp, hdot⟩ :=
    eq_append_cons_of_mem (mem_reverse.mpr (mem_of_mem_head? hhead))
  have hname : name = before.reverse ++ dot :: suffix.reverse := by
    rw [← reverse_inj, hsp]
    simp
  rw [hsp, drop_dropWhile_dot hdot] at hlong hsho
  rw [hname] at hhead hsho
  cases hbef : before.reverse with
  | nil =>
    rw [reverse_eq_nil_iff.mp hbef] at hlong
    exact absurd hlong (by decide)
  | cons b middle =>
    have hlen : before.length = middle.length + 1 := by
      rw [← length_reverse, hbef, length_cons]
    rw [hbef] at hhead
    obtain rfl : b = dot := Option.some.inj hhead
    refine h middle ⟨suffix.reverse, ?_, ?_, by simpa using hdot, by rw [hname, hbef]; rfl⟩
    · exact length_pos_iff.mp (by omega)
    · simp at hsho
      exact length_pos_iff.mp (by rw [length_reverse]; omega)

/-- The hashes agree unless the name is itself a temporary one and hashes unlike its own part. -/
theorem tmpName_hash_iff (type : UInt32) (hname : name ≠ []) (hsuffix : suffix ≠ [])
    (hdot : dot ∉ suffix) :
    dhtHashCompute type (tmpName name suffix) = dhtHashCompute type name ↔
      type ≠ 0 ∨ ∀ name', IsTmpNameOf name' name → dhtHashfnTea name = dhtHashfnTea name' := by
  simp only [dhtHashCompute, rsyncFriendlyName_tmpName hname hsuffix hdot]
  by_cases htype : type = 0
  · rw [if_pos htype, if_pos htype, Option.some_inj, or_iff_right (not_not_intro htype)]
    constructor
    · rintro heq name' ⟨suffix', hname', hsuffix', hdot', rfl⟩
      rwa [rsyncFriendlyName_tmpName hname' hsuffix' hdot'] at heq
    · intro h
      by_cases htmp : ∃ name', IsTmpNameOf name' name
      · obtain ⟨name', htmp⟩ := htmp
        rw [h name' htmp]
        obtain ⟨suffix', hname', hsuffix', hdot', rfl⟩ := htmp
        rw [rsyncFriendlyName_tmpName hname' hsuffix' hdot']
      · rw [rsyncFriendlyName_eq_self (not_exists.mp htmp)]
  · simp [htype]

theorem tmpName_hash_plain : dhtHashCompute 0 (tmpName [97] [99]) = dhtHashCompute 0 [97] := by
  refine (tmpName_hash_iff 0 (by decide) (by decide) (by decide)).mpr (.inr ?_)
  rintro name' ⟨suffix, -, -, -, heq⟩
  exact absurd (cons.inj heq).1 (by decide)

/-- Of a name that itself looks temporary, `.a.b`, only the part `a` is hashed. -/
theorem tmpName_hash_twice :
    dhtHashCompute 0 (tmpName [46, 97, 46, 98] [99]) ≠ dhtHashCompute 0 [46, 97, 46, 98] := by
  decide +kernel

/-- The search finds an entry without an error that has the hash in its range. -/
def FindsRange (layout : DhtLayout) (name : List UInt8) : Prop :=
  ∃ hash, dhtHashCompute layout.type name = some hash ∧
    ∃ e ∈ layout.list, e.err = 0 ∧ e.start ≤ hash ∧ hash ≤ e.stop ∧
      ∃ subvol, e.xlator = some subvol ∧ dhtLayoutSearchName layout name = some subvol

theorem SubvolReply.entry_blank (r : SubvolReply) :
    r.entry.xlator = some r.subvol ∧ (r.entry.err ≠ 0 → r.entry.stop = 0) := by
  refine ⟨mergeEntry_xlator r.subvol r.reply _, ?_⟩
  obtain ⟨subvol, reply⟩ := r
  unfold entry
  cases reply with
  | failed opErrno | noXattr => exact fun _ => rfl
  | xattr disk =>
    simp only [mergeEntry, dhtDiskLayoutMerge]
    split_ifs
    · exact fun herr => absurd rfl herr
    · exact fun _ => rfl

/-- Of the entries of a sorted layout with the hash in their range, the first is found. -/
theorem err_le_of_find? {p : LayoutEntry → Bool} {es : List LayoutEntry}
    (hsort : es.Pairwise (fun e e' => entryGt e e' = false)) (hfnd : es.find? p = some e)
    (he' : e' ∈ es) (hp : p e' = true) : e.err ≤ e'.err := by
  obtain ⟨_, before, after, rfl, hbef⟩ := find?_eq_some_iff_append.mp hfnd
  rcases mem_append.mp he' with hmem | hmem
  · exact absurd hp (by simpa using hbef e' hmem)
  · rcases mem_cons.mp hmem with rfl | hmem
    · exact Int.le_refl _
    · have hle := (pairwise_cons.mp (pairwise_append.mp hsort).2.1).1 e' hmem
      rw [entryGt_eq_false_iff] at hle
      omega

theorem exists_valid_of_normalize (hmrg : ∀ e ∈ layout.list, Merged e)
    (hzero : (dhtLayoutNormalize layout).2 = 0) (hash : UInt32) :
    ∃ e ∈ (dhtLayoutSort layout).list, e.err = 0 ∧ e.start ≤ hash ∧ hash ≤ e.stop := by
  obtain ⟨rings, chain, heq, hch⟩ := (dhtLayoutNormalize_eq_zero_iff hmrg).mp hzero
  have hcov := hch.exactCover hash.toNat (Nat.zero_le _) hash.toNat_lt
  have hpos : 0 < coverCount chain hash.toNat := by omega
  obtain ⟨iv, hiv, hin⟩ := countP_pos_iff.mp hpos
  have hmem : iv ∈ ranges (dhtLayoutSort layout).list := by
    rw [heq]
    exact mem_append_right _ hiv
  obtain ⟨e, he, rfl⟩ := mem_map.mp hmem
  rw [decide_eq_true_eq] at hin
  exact ⟨e, (mem_valid.mp he).1, (mem_valid.mp he).2, UInt32.le_iff_toNat_le.mpr hin.1,
    UInt32.le_iff_toNat_le.mpr hin.2⟩

theorem mergeReplies_type (layout : DhtLayout) (replies : List SubvolReply) :
    (mergeReplies layout replies).type = layout.type := by
  induction replies generalizing layout with
  | nil => rfl
  | cons r replies ih => exact ih _

/--
The search keeps to the layout for every name if and only if the hash is not 0, or all
subvolumes that have the directory have a range.
-/
theorem findsRange_iff (replies : List SubvolReply) (name : List UInt8)
    (hordered : ∀ r ∈ replies, r.reply.Ordered)
    (hsubvols : (replies.map SubvolReply.subvol).Nodup)
    (hzero : (dhtLayoutNormalize (mergeReplies (dhtLayoutNew replies.length) replies)).2 = 0) :
    FindsRange (dhtLayoutNormalize (mergeReplies (dhtLayoutNew replies.length) replies)).1 name ↔
      dhtHashCompute 0 name ≠ some 0 ∨ ∀ r ∈ replies, 0 ≤ r.entry.err := by
  set layout := mergeReplies (dhtLayoutNew replies.length) replies with hlay
  have hents : ∀ e, e ∈ (dhtLayoutSort layout).list ↔ ∃ r ∈ replies, r.entry = e := by
    intro e
    rw [(dhtLayoutSort_perm layout).mem_iff, hlay, mergeReplies_list, mem_map]
  have hmrg : ∀ e ∈ layout.list, Merged e := by
    rw [hlay, mergeReplies_list]
    exact forall_mem_map.mpr (fun r hr => SubvolReply.merged (hordered r hr))
  have htype : (dhtLayoutNormalize layout).1.type = 0 := mergeReplies_type _ replies
  obtain ⟨hash, hhash⟩ : ∃ hash, dhtHashCompute 0 name = some hash := ⟨_, rfl⟩
  obtain ⟨e, he, herr, hst, hstop⟩ := exists_valid_of_normalize hmrg hzero hash
  have hblank : ∀ r ∈ replies, r.entry.err ≠ 0 → r.entry.start = 0 ∧ r.entry.stop = 0 :=
    fun r hr hbad => ⟨(SubvolReply.merged (hordered r hr)).blank hbad, r.entry_blank.2 hbad⟩
  -- the first entry with the hash in its range
  obtain ⟨e0, hfnd⟩ : ∃ e0, (dhtLayoutSort layout).list.find?
      (fun e => decide (e.start ≤ hash ∧ hash ≤ e.stop)) = some e0 := by
    rw [← Option.isSome_iff_exists, find?_isSome]
    exact ⟨e, he, decide_eq_true ⟨hst, hstop⟩⟩
  obtain ⟨r0, hr0, rfl⟩ := (hents e0).mp (mem_of_find?_eq_some hfnd)
  have hin : r0.entry.start ≤ hash ∧ hash ≤ r0.entry.stop := by simpa using find?_some hfnd
  have hsrch : dhtLayoutSearchName (dhtLayoutNormalize layout).1 name = some r0.subvol := by
    rw [dhtLayoutSearchName, htype, hhash, Option.bind_some, dhtLayoutSearch]
    exact (congrArg (fun e => Option.bind e LayoutEntry.xlator) hfnd).trans r0.entry_blank.1
  have hfst : ∀ r ∈ replies, r.entry.start ≤ hash → hash ≤ r.entry.stop →
      r0.entry.err ≤ r.entry.err := fun r hr hge hle =>
    err_le_of_find? (dhtLayoutSort_pairwise layout) hfnd ((hents _).mpr ⟨r, hr, rfl⟩)
      (decide_eq_true ⟨hge, hle⟩)
  constructor
  · rintro ⟨_, _, e', he', herr', _, _, subvol, hxlator, hfnds⟩
    obtain ⟨r, hr, rfl⟩ := (hents e').mp he'
    have hsame : r = r0 := by
      refine inj_on_of_nodup_map hsubvols hr hr0 ?_
      rw [r.entry_blank.1, ← hfnds, hsrch] at hxlator
      exact Option.some.inj hxlator
    subst hsame
    by_contra hcond
    push Not at hcond
    obtain ⟨hzeroHash, r', hr', hneg⟩ := hcond
    obtain ⟨hst', hstop'⟩ := hblank r' hr' (by omega)
    obtain rfl : hash = 0 := Option.some.inj (hhash.symm.trans hzeroHash)
    have hle := hfst r' hr' (hst' ▸ UInt32.le_refl 0) (hstop' ▸ UInt32.le_refl 0)
    omega
  · intro hcond
    refine ⟨hash, by rw [htype, hhash], r0.entry, (hents _).mpr ⟨r0, hr0, rfl⟩, ?_, hin.1,
      hin.2, r0.subvol, r0.entry_blank.1, hsrch⟩
    by_contra hbad
    have hle : hash ≤ 0 := (hblank r0 hr0 hbad).2 ▸ hin.2
    have hzeroHash : hash = 0 := UInt32.le_antisymm hle (UInt32.zero_le)
    obtain ⟨r, hr, rfl⟩ := (hents e).mp he
    have hmost := hfst r hr hst hstop
    rcases hcond with hne | hall
    · exact hne (hzeroHash ▸ hhash)
    · have hleast := hall r0 hr0
      omega

def oneRange : List SubvolReply :=
  [⟨1, .noXattr⟩, ⟨2, .xattr ⟨hton32 1, 0, 0, hton32 0xFFFFFFFF⟩⟩]

def otherName : List UInt8 := [97]

def zeroName : List UInt8 := [103, 97, 119, 115, 100, 108, 110]

theorem findsRange_iff_otherName :
    FindsRange (dhtLayoutNormalize (mergeReplies (dhtLayoutNew oneRange.length) oneRange)).1
      otherName := by
  refine (findsRange_iff oneRange otherName ?_ ?_ ?_).mpr (.inl ?_) <;> decide +kernel

theorem not_findsRange_zeroName :
    (dhtLayoutNormalize (mergeReplies (dhtLayoutNew oneRange.length) oneRange)).2 = 0 ∧
      dhtLayoutSearchName
        (dhtLayoutNormalize (mergeReplies (dhtLayoutNew oneRange.length) oneRange)).1 zeroName =
          some 1 ∧
      ¬ FindsRange
        (dhtLayoutNormalize (mergeReplies (dhtLayoutNew oneRange.length) oneRange)).1 zeroName := by
  have hsrch : dhtLayoutSearchName
      (dhtLayoutNormalize (mergeReplies (dhtLayoutNew oneRange.length) oneRange)).1 zeroName =
        some 1 := by decide +kernel
  refine ⟨by decide +kernel, hsrch, ?_⟩
  rintro ⟨_, _, e, he, herr, _, _, subvol, hxlator, hfnds⟩
  have hvalid : ∀ e ∈ (dhtLayoutNormalize
      (mergeReplies (dhtLayoutNew oneRange.length) oneRange)).1.list,
      e.err = 0 → e.xlator = some 2 := by decide +kernel
  rw [hvalid e he herr] at hxlator
  exact absurd (hxlator.trans hfnds.symm) (by decide)

end GlusterFS.Dht
