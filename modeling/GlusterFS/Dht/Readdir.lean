import GlusterFS.Dht.Rename

/-!
# DHT: the listing of a directory

The subvolumes of a directory are listed one after the other.  The offset of an entry that
is handed out carries the subvolume that it came from, so that the next call goes on there,
and a name is handed out by its hashed subvolume only.  When a child has answered with no
such name the call goes on to the next subvolume.
-/

namespace GlusterFS.Dht

open Run List Option

structure Dirent where
  dName : Name
  dIno : UInt64
  dOff : UInt64
  dLen : Nat
  dType : Nat

/--
A directory on one subvolume.  The offset of an entry is the place after it, and a child
reads on from there; what it makes of any other offset is its own matter.
-/
structure Child where
  entries : List Dirent
  seek : UInt64 → List Dirent
  names : (entries.map Dirent.dName).Nodup
  seek_zero : seek 0 = entries
  seek_dOff : ∀ before e after, entries = before ++ e :: after → seek e.dOff = after

/-- A directory, with offsets that leave room for the number of the subvolume. -/
structure Directory where
  subvolumes : List Subvol
  layout : DhtLayout
  hash : Name → Option UInt32
  children : Subvol → Child
  subvolume_cnt : 0 < subvolumes.length
  distinct : subvolumes.Nodup
  small : ∀ v ∈ subvolumes, ∀ e ∈ (children v).entries,
    (e.dOff.toNat + 1) * subvolumes.length ≤ 2 ^ 64

variable (d : Directory)

def hashedSubvol (name : Name) : Option Subvol :=
  (d.hash name).bind (dhtLayoutSearch d.layout)

def subvolCnt (subvol : Subvol) : List Subvol → Nat → Int
  | [], _ => -1
  | v :: rest, i => if subvol = v then i else subvolCnt subvol rest (i + 1)

/-- The number of a subvolume; -1 for one that is not there, as NULL. -/
def dhtSubvolCnt : Option Subvol → Int
  | none => -1
  | some subvol => subvolCnt subvol d.subvolumes 0

def subvolNext (prev : Subvol) : List Subvol → Option Subvol
  | [] => none
  | v :: rest => if v = prev then rest.head? else subvolNext prev rest

def dhtSubvolNext (prev : Subvol) : Option Subvol :=
  subvolNext prev d.subvolumes

def dhtItransform (subvol : Option Subvol) (x : UInt64) : UInt64 :=
  if x = UInt64.ofInt (-1) then
    UInt64.ofInt (-1)
  else
    x * UInt64.ofNat d.subvolumes.length + UInt64.ofInt (dhtSubvolCnt d subvol)

theorem cnt_lt (y : UInt64) : y.toNat % d.subvolumes.length < d.subvolumes.length :=
  Nat.mod_lt _ d.subvolume_cnt

def dhtDeitransform (y : UInt64) : Subvol × UInt64 :=
  (d.subvolumes.get ⟨y.toNat % d.subvolumes.length, cnt_lt d y⟩,
    UInt64.ofNat (y.toNat / d.subvolumes.length))

/-- What the callback does: the call goes on to another subvolume, or is answered. -/
inductive ReaddirResult where
  | wind (next : Subvol)
  | unwind (opRet : Int) (entries : List Dirent)

/-- A name of this subvolume, or one that has no subvolume. -/
def Listable (prev : Subvol) (e : Dirent) : Prop :=
  hashedSubvol d e.dName = none ∨ hashedSubvol d e.dName = some prev
deriving Decidable

def transformEntry (e : Dirent) : Dirent :=
  { e with
    dIno := dhtItransform d (hashedSubvol d e.dName) e.dIno
    dOff := dhtItransform d (hashedSubvol d e.dName) e.dOff }

def dhtReaddirCbk (prev : Subvol) (reply : Option (List Dirent)) : ReaddirResult :=
  let entries := ((reply.getD []).filter (fun e => Listable d prev e)).map (transformEntry d)
  if entries.length = 0 then
    match dhtSubvolNext d prev with
    | some next => .wind next
    | none => .unwind 0 []
  else
    .unwind entries.length entries

/-- The call that a child has before it, none after the end, and what was handed out. -/
structure Listing where
  request : Option (Subvol × UInt64)
  listed : List Dirent

/-- A child answers with a number of its entries, which is 0 at the end only, or fails. -/
inductive ReaddirReply where
  | entries (count : Nat)
  | failed

def replied (rest : List Dirent) : ReaddirReply → Option (List Dirent)
  | .entries count => some (rest.take count)
  | .failed => none

def ReaddirReply.Possible (rest : List Dirent) : ReaddirReply → Prop
  | .entries count => count ≤ rest.length ∧ (count = 0 → rest = [])
  | .failed => True

instance (rest : List Dirent) : ∀ reply, Decidable (ReaddirReply.Possible rest reply) := by
  rintro (_ | _) <;> dsimp only [ReaddirReply.Possible] <;> infer_instance

def dhtReaddir (yoff : UInt64) : Option (Subvol × UInt64) :=
  some (dhtDeitransform d yoff)

/-- The caller comes back with the offset of the last entry until there is none. -/
def goOn (s : Listing) : ReaddirResult → Listing
  | .wind next => { s with request := some (next, 0) }
  | .unwind _ entries =>
    { request := entries.getLast?.bind (fun e => dhtReaddir d e.dOff)
      listed := s.listed ++ entries }

def listStep (s : Listing) (reply : ReaddirReply) : Option Listing :=
  match s.request with
  | none => none
  | some (v, off) =>
    if ReaddirReply.Possible ((d.children v).seek off) reply then
      some (goOn d s (dhtReaddirCbk d v (replied ((d.children v).seek off) reply)))
    else
      none

def listStart : Listing where
  request := dhtReaddir d 0
  listed := []

def Complete (listed : List Dirent) : Prop :=
  ∀ v ∈ d.subvolumes, ∀ e ∈ (d.children v).entries,
    hashedSubvol d e.dName = some v → (listed.map Dirent.dName).count e.dName = 1
deriving Decidable

def handedOut (v : Subvol) (off : UInt64) (reply : ReaddirReply) : List Dirent :=
  ((replied ((d.children v).seek off) reply).getD []).filter (fun e => Listable d v e)

/-- A reply has no entry to hand out although the child has names of its own left. -/
def Loses (s : Listing) (reply : ReaddirReply) : Prop :=
  ∃ r ∈ s.request, handedOut d r.1 r.2 reply = [] ∧
    ∃ e ∈ (d.children r.1).seek r.2, hashedSubvol d e.dName = some r.1
deriving Decidable

/-- The last entry that is handed out has no subvolume for its offset to carry. -/
def EndsUnhashed (s : Listing) (reply : ReaddirReply) : Prop :=
  ∃ r ∈ s.request, ∃ e ∈ (handedOut d r.1 r.2 reply).getLast?, hashedSubvol d e.dName = none
deriving Decidable

open Nat

variable {d} {v : Subvol} {subvols : List Subvol}

theorem subvolCnt_eq (hv : v ∈ subvols) (i : Nat) :
    subvolCnt v subvols i = ((subvols.idxOf v + i : Nat) : Int) := by
  induction subvols generalizing i with
  | nil => cases hv
  | cons w rest ih =>
    by_cases hw : v = w
    · subst hw
      simp [subvolCnt]
    · have hrest : v ∈ rest := (mem_cons.mp hv).resolve_left hw
      rw [subvolCnt, if_neg hw, ih hrest, idxOf_cons_ne _ (Ne.symm hw)]
      omega

theorem toNat_ofInt_minusOne : (UInt64.ofInt (-1)).toNat = 2 ^ 64 - 1 := by
  rfl

variable {x off : UInt64} {s s' : Listing} {reply : ReaddirReply} {w : Subvol}
  {entries : List Dirent}

theorem toNat_itransform (hv : v ∈ d.subvolumes)
    (hx : x.toNat * d.subvolumes.length + d.subvolumes.idxOf v < 2 ^ 64) :
    (dhtItransform d (some v) x).toNat = x.toNat * d.subvolumes.length + d.subvolumes.idxOf v := by
  have hidx : d.subvolumes.idxOf v < d.subvolumes.length := idxOf_lt_length_of_mem hv
  unfold dhtItransform
  split
  · next heq =>
      -- the largest offset has room for one subvolume only, and stays as it is
      have hnat : x.toNat = 2 ^ 64 - 1 := by rw [heq, toNat_ofInt_minusOne]
      have hone : d.subvolumes.length = 1 := by
        rw [hnat] at hx
        omega
      rw [toNat_ofInt_minusOne, hnat, hone]
      omega
  · rw [dhtSubvolCnt, subvolCnt_eq hv, UInt64.toNat_add, UInt64.toNat_mul]
    have hcnt : (UInt64.ofInt ((d.subvolumes.idxOf v + 0 : Nat) : Int)).toNat =
        d.subvolumes.idxOf v := by
      rw [UInt64.ofInt, UInt64.toNat_ofNat']
      omega
    rw [hcnt, UInt64.toNat_ofNat', mul_mod_mod, mod_add_mod, mod_eq_of_lt hx]

theorem dhtDeitransform_itransform (hv : v ∈ d.subvolumes)
    (hx : x.toNat * d.subvolumes.length + d.subvolumes.idxOf v < 2 ^ 64) :
    dhtDeitransform d (dhtItransform d (some v) x) = (v, x) := by
  have hidx : d.subvolumes.idxOf v < d.subvolumes.length := idxOf_lt_length_of_mem hv
  have hnat := toNat_itransform hv hx
  have hmod : (dhtItransform d (some v) x).toNat % d.subvolumes.length =
      d.subvolumes.idxOf v := by rw [hnat, mul_comm, mul_add_mod, mod_eq_of_lt hidx]
  have hdiv : (dhtItransform d (some v) x).toNat / d.subvolumes.length = x.toNat := by
    rw [hnat, mul_comm, mul_add_div d.subvolume_cnt, div_eq_of_lt hidx, add_zero]
  simp only [dhtDeitransform, hmod, hdiv]
  simp

section

variable (d)

def own (v : Subvol) (entries : List Dirent) : List Name :=
  (entries.filter (fun e => hashedSubvol d e.dName = some v)).map Dirent.dName

def ownAll (subvols : List Subvol) : List Name :=
  subvols.flatMap (fun v => own d v (d.children v).entries)

def hashedNames (listed : List Dirent) : List Name :=
  (listed.filter (fun e => (hashedSubvol d e.dName).isSome)).map Dirent.dName

variable {d}

@[simp] theorem own_append (v : Subvol) (es es' : List Dirent) :
    own d v (es ++ es') = own d v es ++ own d v es' := by
  simp [own]

@[simp] theorem hashedNames_append (es es' : List Dirent) :
    hashedNames d (es ++ es') = hashedNames d es ++ hashedNames d es' := by
  simp [hashedNames]

theorem own_eq_nil_iff {es : List Dirent} :
    own d v es = [] ↔ ∀ e ∈ es, hashedSubvol d e.dName ≠ some v := by
  simp [own]

theorem hashedNames_listable (v : Subvol) (es : List Dirent) :
    hashedNames d ((es.filter (fun e => Listable d v e)).map (transformEntry d)) = own d v es := by
  induction es with
  | nil => rfl
  | cons e es ih =>
    by_cases hown : hashedSubvol d e.dName = some v
    · have hlist : Listable d v e := .inr hown
      simp only [hashedNames, own] at ih ⊢
      simp [hlist, transformEntry, hown, ih]
    · by_cases hlist : Listable d v e
      · have hnone : hashedSubvol d e.dName = none := hlist.resolve_right hown
        simp only [hashedNames, own] at ih ⊢
        simp [hlist, transformEntry, hnone, ih]
      · simp only [own] at ih ⊢
        simp [hlist, hown, ih]

variable {name : Name} {listed : List Dirent}

theorem mem_ownAll :
    name ∈ ownAll d subvols ↔ ∃ v ∈ subvols, ∃ e ∈ (d.children v).entries,
        hashedSubvol d e.dName = some v ∧ e.dName = name := by
  simp [ownAll, own, and_assoc]

theorem ownAll_nodup : (ownAll d d.subvolumes).Nodup := by
  rw [ownAll, nodup_flatMap]
  constructor
  · intro v _
    exact ((d.children v).names.sublist (filter_sublist.map _))
  · refine d.distinct.imp ?_
    intro v w hvw name hv hw
    obtain ⟨e, he, rfl⟩ := mem_map.mp hv
    obtain ⟨e', he', heq⟩ := mem_map.mp hw
    have h := of_decide_eq_true (mem_filter.mp he).2
    have h' := of_decide_eq_true (mem_filter.mp he').2
    rw [heq, h] at h'
    exact hvw (some_inj.mp h')

theorem count_hashedNames (hname : hashedSubvol d name = some v) :
    (hashedNames d listed).count name = (listed.map Dirent.dName).count name := by
  induction listed with
  | nil => rfl
  | cons e listed ih =>
    by_cases he : e.dName = name
    · simp only [hashedNames] at ih ⊢
      simp [he, hname, ih]
    · simp only [hashedNames] at ih ⊢
      cases hsome : (hashedSubvol d e.dName).isSome <;> simp [hsome, he, ih]

theorem complete_of_eq (h : hashedNames d listed = ownAll d d.subvolumes) : Complete d listed := by
  intro v hv e he hhash
  rw [← count_hashedNames hhash, h]
  exact count_eq_one_of_mem ownAll_nodup (mem_ownAll.mpr ⟨v, hv, e, he, hhash, rfl⟩)

theorem Complete.length_le (h : Complete d listed) :
    (ownAll d d.subvolumes).length ≤ (hashedNames d listed).length := by
  refine (subperm_of_subset ownAll_nodup ?_).length_le
  intro name hname
  obtain ⟨v, hv, e, he, hhash, rfl⟩ := mem_ownAll.mp hname
  rw [← count_pos_iff, count_hashedNames hhash, h v hv e he hhash]
  exact one_pos

end

def laterSubvols (v : Subvol) : List Subvol → List Subvol
  | [] => []
  | w :: rest => if w = v then rest else laterSubvols v rest

theorem subvolNext_eq (prev : Subvol) (subvols : List Subvol) :
    subvolNext prev subvols = (laterSubvols prev subvols).head? := by
  induction subvols with
  | nil => rfl
  | cons w rest ih =>
    by_cases hw : w = prev
    · simp [subvolNext, laterSubvols, hw]
    · simp [subvolNext, laterSubvols, hw, ih]

theorem laterSubvols_sublist (v : Subvol) (subvols : List Subvol) :
    (laterSubvols v subvols).Sublist subvols := by
  induction subvols with
  | nil => exact List.Sublist.refl _
  | cons w rest ih =>
    by_cases hw : w = v
    · rw [laterSubvols, if_pos hw]
      exact sublist_cons_self w rest
    · rw [laterSubvols, if_neg hw]
      exact ih.cons w

theorem laterSubvols_next {later : List Subvol} (hnd : subvols.Nodup)
    (h : laterSubvols v subvols = w :: later) : laterSubvols w subvols = later := by
  induction subvols with
  | nil => cases h
  | cons u rest ih =>
    obtain ⟨hu, hrest⟩ := nodup_cons.mp hnd
    by_cases huv : u = v
    · rw [laterSubvols, if_pos huv] at h
      subst h
      have huw : u ≠ w := fun heq => hu (heq ▸ mem_cons_self)
      simp [laterSubvols, huw]
    · rw [laterSubvols, if_neg huv] at h
      have hmem : w ∈ rest := (laterSubvols_sublist v rest).subset (h ▸ mem_cons_self)
      have huw : u ≠ w := fun heq => hu (heq ▸ hmem)
      rw [laterSubvols, if_neg huw]
      exact ih hrest h

def remaining (d : Directory) : Option (Subvol × UInt64) → List Name
  | none => []
  | some (v, off) => own d v ((d.children v).seek off) ++ ownAll d (laterSubvols v d.subvolumes)

def repliesLeft (d : Directory) : Option (Subvol × UInt64) → Nat
  | none => 0
  | some (v, off) => ((d.children v).seek off).length + 1 +
      ((laterSubvols v d.subvolumes).map (fun w => (d.children w).entries.length + 1)).sum

def Reading (d : Directory) (s : Listing) : Prop :=
  ∀ v off, s.request = some (v, off) →
    v ∈ d.subvolumes ∧ (d.children v).seek off <:+ (d.children v).entries

def passOn (d : Directory) (v : Subvol) : Option (Subvol × UInt64) :=
  (dhtSubvolNext d v).map (fun next => (next, 0))

theorem remaining_passOn (d : Directory) (v : Subvol) :
    remaining d (passOn d v) = ownAll d (laterSubvols v d.subvolumes) := by
  rw [passOn, dhtSubvolNext, subvolNext_eq]
  cases hlat : laterSubvols v d.subvolumes with
  | nil => rfl
  | cons w later =>
    simp [remaining, (d.children w).seek_zero, laterSubvols_next d.distinct hlat, ownAll]

theorem repliesLeft_passOn (d : Directory) (v : Subvol) :
    repliesLeft d (passOn d v) =
      ((laterSubvols v d.subvolumes).map (fun w => (d.children w).entries.length + 1)).sum := by
  rw [passOn, dhtSubvolNext, subvolNext_eq]
  cases hlat : laterSubvols v d.subvolumes with
  | nil => rfl
  | cons w later =>
    simp [repliesLeft, (d.children w).seek_zero, laterSubvols_next d.distinct hlat]

theorem mem_of_passOn (h : passOn d v = some (w, off)) : w ∈ d.subvolumes ∧ off = 0 := by
  rw [passOn, dhtSubvolNext, subvolNext_eq, map_eq_some_iff] at h
  obtain ⟨next, hnext, heq⟩ := h
  cases heq
  exact ⟨(laterSubvols_sublist v d.subvolumes).subset (mem_of_mem_head? hnext), rfl⟩

theorem listStep_cases (h : listStep d s reply = some s') :
    ∃ v off, s.request = some (v, off) ∧ ReaddirReply.Possible ((d.children v).seek off) reply ∧
      ((handedOut d v off reply = [] ∧ s' = { s with request := passOn d v }) ∨ ∃ entries e,
          handedOut d v off reply = entries ++ [e] ∧
            s' = { request := dhtReaddir d (transformEntry d e).dOff
                   listed := s.listed ++ (entries ++ [e]).map (transformEntry d) }) := by
  unfold listStep at h
  split at h
  · cases h
  · next v off hreq =>
      split at h
      · next hposs =>
          refine ⟨v, off, hreq, hposs, ?_⟩
          obtain rfl := some_inj.mp h
          rcases eq_nil_or_concat' (handedOut d v off reply) with
            hnil | ⟨entries, e, hconcat⟩
          · refine .inl ⟨hnil, ?_⟩
            rw [handedOut] at hnil
            simp only [dhtReaddirCbk, hnil, passOn]
            cases hnext : dhtSubvolNext d v <;> simp [goOn]
          · refine .inr ⟨entries, e, hconcat, ?_⟩
            rw [handedOut] at hconcat
            simp [dhtReaddirCbk, hconcat, goOn]
      · cases h

theorem replied_prefix (rest : List Dirent) (reply : ReaddirReply) :
    ∃ tail, rest = (replied rest reply).getD [] ++ tail := by
  cases reply with
  | entries count => exact ⟨rest.drop count, (take_append_drop count rest).symm⟩
  | failed => exact ⟨rest, rfl⟩

theorem exists_after {rest batch tail : List Dirent} {e : Dirent} (hrest : rest = batch ++ tail)
    (hlast : batch.filter (fun e => Listable d v e) = entries ++ [e]) :
    ∃ before after, rest = before ++ e :: after ∧ own d v rest = own d v batch ++ own d v after := by
  obtain ⟨before, last, rfl, -, hlast'⟩ := filter_eq_append_iff.mp hlast
  obtain ⟨skipped, after, rfl, -, -, haft⟩ := filter_eq_cons_iff.mp hlast'
  refine ⟨before ++ skipped, after ++ tail, ?_, ?_⟩
  · rw [hrest]
    simp
  · have hnone : own d v after = [] := by
      rw [own_eq_nil_iff]
      intro e' he' hown
      exact filter_eq_nil_iff.mp haft e' he' (decide_eq_true (.inr hown))
    rw [hrest, own_append, own_append v after, hnone, nil_append]

def account (d : Directory) (s : Listing) : List Name :=
  hashedNames d s.listed ++ remaining d s.request

theorem listStep_account (hread : Reading d s) (h : listStep d s reply = some s')
    (hends : ¬ EndsUnhashed d s reply) :
    Reading d s' ∧ repliesLeft d s'.request < repliesLeft d s.request ∧
      ((Loses d s reply ∧ (account d s').length < (account d s).length) ∨
        (¬ Loses d s reply ∧ account d s' = account d s)) := by
  obtain ⟨v, off, hreq, -, hcases⟩ := listStep_cases h
  obtain ⟨hv, hsuf⟩ := hread v off hreq
  rcases hcases with ⟨hnil, rfl⟩ | ⟨entries, e, hlast, rfl⟩
  · refine ⟨?_, ?_, ?_⟩
    · intro w off' hw
      obtain ⟨hmem, rfl⟩ := mem_of_passOn hw
      rw [(d.children w).seek_zero]
      exact ⟨hmem, suffix_refl _⟩
    · rw [repliesLeft_passOn, hreq, repliesLeft]
      omega
    · have hac : account d s = hashedNames d s.listed ++
          (own d v ((d.children v).seek off) ++ ownAll d (laterSubvols v d.subvolumes)) := by
        rw [account, hreq, remaining]
      have hac' : account d { s with request := passOn d v } =
          hashedNames d s.listed ++ ownAll d (laterSubvols v d.subvolumes) := by
        rw [account, remaining_passOn]
      by_cases hown : own d v ((d.children v).seek off) = []
      · refine .inr ⟨?_, by rw [hac, hac', hown, nil_append]⟩
        rintro ⟨r, hreq', -, e, he, hhash⟩
        rw [hreq] at hreq'
        cases hreq'
        exact own_eq_nil_iff.mp hown e he hhash
      · refine .inl ⟨⟨(v, off), hreq, hnil, ?_⟩, ?_⟩
        · by_contra hnone
          refine hown (own_eq_nil_iff.mpr ?_)
          intro e he hhash
          exact hnone ⟨e, he, hhash⟩
        · have := length_pos_iff.mpr hown
          rw [hac, hac']
          simp only [length_append]
          omega
  · have hhash : hashedSubvol d e.dName = some v := by
      have hmem : e ∈ handedOut d v off reply := by
        rw [hlast]
        simp
      refine (of_decide_eq_true (mem_filter.mp hmem).2 : Listable d v e).resolve_left ?_
      intro hnone
      exact hends ⟨(v, off), hreq, e, by simp [hlast], hnone⟩
    obtain ⟨tail, htail⟩ := replied_prefix ((d.children v).seek off) reply
    obtain ⟨before, after, hrest, hown⟩ := exists_after htail hlast
    obtain ⟨first, hfst⟩ := hsuf
    have hents : (d.children v).entries = (first ++ before) ++ e :: after := by
      rw [← hfst, hrest, append_assoc]
    have hseek : (d.children v).seek e.dOff = after := (d.children v).seek_dOff _ e after hents
    have hnext : dhtReaddir d (transformEntry d e).dOff = some (v, e.dOff) := by
      rw [dhtReaddir, transformEntry, hhash]
      have hidx := idxOf_lt_length_of_mem hv
      have hsm := d.small v hv e (by rw [hents]; simp)
      rw [add_mul] at hsm
      exact congrArg some (dhtDeitransform_itransform hv (by omega))
    refine ⟨?_, ?_, .inr ⟨?_, ?_⟩⟩
    · intro w off' hw
      rw [hnext] at hw
      cases hw
      refine ⟨hv, ?_⟩
      rw [hseek, hents]
      exact ⟨first ++ before ++ [e], by simp⟩
    · rw [hnext, hreq, repliesLeft, repliesLeft, hseek, hrest]
      simp only [length_append, length_cons]
      omega
    · rintro ⟨r, hreq', hnil, -⟩
      rw [hreq] at hreq'
      cases hreq'
      rw [hlast] at hnil
      simp at hnil
    · have hlis : hashedNames d ((entries ++ [e]).map (transformEntry d)) =
          own d v ((replied ((d.children v).seek off) reply).getD []) := by
        rw [← hlast]
        exact hashedNames_listable v _
      simp only [account, hnext, hreq, remaining, hseek, hashedNames_append, hlis, hown,
        append_assoc]

theorem dhtDeitransform_zero (d : Directory) :
    ∃ v later, d.subvolumes = v :: later ∧ dhtDeitransform d 0 = (v, 0) := by
  cases hsubs : d.subvolumes with
  | nil =>
    have := d.subvolume_cnt
    simp [hsubs] at this
  | cons v later =>
    simp [dhtDeitransform, hsubs]

theorem reading_listStart (d : Directory) : Reading d (listStart d) := by
  obtain ⟨v, later, hsubs, hzero⟩ := dhtDeitransform_zero d
  intro w off hreq
  rw [listStart, dhtReaddir, hzero] at hreq
  cases hreq
  rw [(d.children v).seek_zero, hsubs]
  exact ⟨mem_cons_self, suffix_refl _⟩

theorem account_listStart (d : Directory) : account d (listStart d) = ownAll d d.subvolumes := by
  obtain ⟨v, later, hsubs, hzero⟩ := dhtDeitransform_zero d
  rw [account, listStart, dhtReaddir, hzero]
  simp [hashedNames, remaining, (d.children v).seek_zero, hsubs, laterSubvols, ownAll]

theorem repliesLeft_listStart (d : Directory) :
    repliesLeft d (listStart d).request =
      (d.subvolumes.map (fun v => (d.children v).entries.length + 1)).sum := by
  obtain ⟨v, later, hsubs, hzero⟩ := dhtDeitransform_zero d
  rw [listStart, dhtReaddir, hzero]
  simp [repliesLeft, (d.children v).seek_zero, hsubs, laterSubvols]

theorem exists_listStep (h : s.request ≠ none) :
    ∃ count s', listStep d s (.entries count) = some s' := by
  obtain ⟨⟨v, off⟩, hreq⟩ := ne_none_iff_exists'.mp h
  have hposs : ReaddirReply.Possible ((d.children v).seek off)
      (.entries ((d.children v).seek off).length) :=
    ⟨le_refl _, length_eq_zero_iff.mp⟩
  refine ⟨((d.children v).seek off).length, ?_⟩
  simp only [listStep, hreq, if_pos hposs]
  exact ⟨_, rfl⟩

theorem not_endsUnhashed
    (hhash : ∀ v ∈ d.subvolumes, ∀ e ∈ (d.children v).entries, hashedSubvol d e.dName ≠ none)
    (hread : Reading d s) : ¬ EndsUnhashed d s reply := by
  rintro ⟨⟨v, off⟩, hreq, e, hlast, hnone⟩
  obtain ⟨hv, hsuf⟩ := hread v off hreq
  obtain ⟨tail, htail⟩ := replied_prefix ((d.children v).seek off) reply
  have hmem : e ∈ (replied ((d.children v).seek off) reply).getD [] :=
    mem_of_mem_filter (mem_of_getLast? hlast)
  refine hhash v hv e (hsuf.subset ?_) hnone
  rw [htail]
  exact mem_append_left tail hmem

/--
The listing of a directory comes to its end with each name of a hashed subvolume once, if no
reply without an entry to hand out comes before a name of its child, and none ends in a name
without a subvolume.  Where every name has a subvolume, a listing that is complete has had no
such reply.
-/
theorem complete_iff (d : Directory) (replies : List ReaddirReply) (s : Listing)
    (hrun : run (listStep d) (listStart d) replies = some s) :
    (AllSteps (listStep d) (fun s reply => ¬ Loses d s reply ∧ ¬ EndsUnhashed d s reply)
        (listStart d) replies →
      replies.length ≤ (d.subvolumes.map (fun v => (d.children v).entries.length + 1)).sum ∧
        (s.request ≠ none → ∃ count s', listStep d s (.entries count) = some s') ∧
        (s.request = none → Complete d s.listed)) ∧
      ((∀ v ∈ d.subvolumes, ∀ e ∈ (d.children v).entries, hashedSubvol d e.dName ≠ none) →
        s.request = none → Complete d s.listed →
        AllSteps (listStep d) (fun s reply => ¬ Loses d s reply ∧ ¬ EndsUnhashed d s reply)
          (listStart d) replies) := by
  constructor
  · intro hall
    refine ⟨?_, exists_listStep, ?_⟩
    · obtain ⟨-, hle⟩ := run_decreases (listStep d) (fun s => repliesLeft d s.request)
        (fun s reply s' hread hcond hstep =>
          have h := listStep_account hread hstep hcond.2
          ⟨h.1, h.2.1⟩)
        (reading_listStart d) hall hrun
      rw [repliesLeft_listStart] at hle
      omega
    · intro hend
      have hinv : Reading d s ∧ account d s = ownAll d d.subvolumes := by
        refine run_invariant (listStep d) ?_ ⟨reading_listStart d, account_listStart d⟩ hall hrun
        rintro s reply s' ⟨hread, hac⟩ ⟨hloses, hends⟩ hstep
        obtain ⟨hread', -, ⟨hloses', -⟩ | ⟨-, heq⟩⟩ := listStep_account hread hstep hends
        · exact absurd hloses' hloses
        · exact ⟨hread', heq.trans hac⟩
      refine complete_of_eq ?_
      rw [← hinv.2, account, hend, remaining, append_nil]
  · intro hhash hend hcomp
    have hstep : ∀ s reply s', Reading d s → listStep d s reply = some s' →
        Reading d s' ∧ (account d s').length ≤ (account d s).length ∧
          (¬ Loses d s reply ∧ ¬ EndsUnhashed d s reply ↔
            (account d s').length = (account d s).length) := by
      intro s reply s' hread hstep
      have hends : ¬ EndsUnhashed d s reply := not_endsUnhashed hhash hread
      obtain ⟨hread', -, ⟨hloses, hlt⟩ | ⟨hloses, heq⟩⟩ := listStep_account hread hstep hends
      · exact ⟨hread', hlt.le, fun hcond => absurd hloses hcond.1, fun heq => absurd heq hlt.ne⟩
      · exact ⟨hread', by rw [heq], fun _ => by rw [heq], fun _ => ⟨hloses, hends⟩⟩
    obtain ⟨hle, hiff⟩ := allSteps_iff_total (listStep d) (fun s => (account d s).length) hstep
      (reading_listStart d) hrun
    refine hiff.mpr (le_antisymm hle ?_)
    rw [account_listStart, account, hend, remaining, append_nil]
    exact hcomp.length_le

def scanFrom (entries : List Dirent) (off : UInt64) : List Dirent :=
  if off = 0 then entries else (entries.dropWhile (fun e => e.dOff ≠ off)).tail

theorem scanFrom_dOff (hnd : (entries.map Dirent.dOff).Nodup) (hzero : ∀ e ∈ entries, e.dOff ≠ 0)
    (before : List Dirent) (e : Dirent) (after : List Dirent) (h : entries = before ++ e :: after) :
    scanFrom entries e.dOff = after := by
  have hbef : ∀ e' ∈ before, e'.dOff ≠ e.dOff := by
    subst h
    rw [map_append, map_cons, nodup_append] at hnd
    intro e' he'
    exact hnd.2.2 _ (mem_map_of_mem he') _ mem_cons_self
  rw [scanFrom, if_neg (hzero e (by rw [h]; simp)), h, dropWhile_append_of_pos]
  · simp
  · intro e' he'
    simpa using hbef e' he'

def Child.ofEntries (entries : List Dirent) (names : (entries.map Dirent.dName).Nodup)
    (hnodup : (entries.map Dirent.dOff).Nodup) (hzero : ∀ e ∈ entries, e.dOff ≠ 0) : Child where
  entries := entries
  seek := scanFrom entries
  names := names
  seek_zero := rfl
  seek_dOff := scanFrom_dOff hnodup hzero

def strayEntries : List Dirent :=
  [⟨"b", 5, 1, 1, 8⟩, ⟨"a", 6, 2, 1, 8⟩]

def otherEntries : List Dirent :=
  [⟨"b", 7, 1, 1, 8⟩]

def strayChild : Child :=
  .ofEntries strayEntries (by decide) (by decide) (by decide)

def otherChild : Child :=
  .ofEntries otherEntries (by decide) (by decide) (by decide)

def strayChildren (v : Subvol) : Child :=
  if v = 10 then strayChild else otherChild

def strayLayout : DhtLayout where
  type := 0
  list := [⟨0, 0, 99, some 10⟩, ⟨0, 100, 0xffffffff, some 20⟩]

theorem stray_small :
    ∀ v ∈ [10, 20], ∀ e ∈ (strayChildren v).entries, (e.dOff.toNat + 1) * 2 ≤ 2 ^ 64 := by
  decide

def strayDirectory : Directory where
  subvolumes := [10, 20]
  layout := strayLayout
  hash := fun name => some (if name = "a" then 1 else 200)
  children := strayChildren
  subvolume_cnt := Nat.two_pos
  distinct := by decide
  small := stray_small

/-- A number of a subvolume that has a code other than the one that stays as it is. -/
def HasCode (d : Directory) (v : Subvol) (x : UInt64) : Prop :=
  v ∈ d.subvolumes ∧ x.toNat * d.subvolumes.length + d.subvolumes.idxOf v < 2 ^ 64 - 1
deriving Decidable

/-- No two places of entries get one code. -/
theorem itransform_invertible (hx : HasCode d v x) :
    dhtDeitransform d (dhtItransform d (some v) x) = (v, x) ∧
      ∀ w y, HasCode d w y → (w, y) ≠ (v, x) →
        dhtItransform d (some w) y ≠ dhtItransform d (some v) x := by
  have hround : ∀ w y, HasCode d w y → dhtDeitransform d (dhtItransform d (some w) y) = (w, y) :=
    fun w y hy => dhtDeitransform_itransform hy.1 (by have := hy.2; omega)
  refine ⟨hround v x hx, ?_⟩
  intro w y hy hne heq
  rw [← hround w y hy, heq, hround v x hx] at hne
  exact hne rfl

theorem itransform_invertible_last :
    dhtDeitransform strayDirectory (dhtItransform strayDirectory (some 20) 0x7ffffffffffffffe) =
      (20, 0x7ffffffffffffffe) :=
  (itransform_invertible (by decide +kernel)).1

/-- Two entries at a time: the file is listed. -/
theorem complete_two_at_a_time :
    ∃ s, run (listStep strayDirectory) (listStart strayDirectory)
        [.entries 2, .entries 0, .entries 1, .entries 0] = some s ∧
      s.request = none ∧ Complete strayDirectory s.listed := by
  have hend : (run (listStep strayDirectory) (listStart strayDirectory)
      [.entries 2, .entries 0, .entries 1, .entries 0]).map Listing.request = some none := by decide
  obtain ⟨s, hrun, hs⟩ := Option.map_eq_some_iff.mp hend
  refine ⟨s, hrun, hs, ?_⟩
  exact ((complete_iff strayDirectory _ s hrun).1 (by decide)).2.2 hs

/-- One entry at a time: the first reply has nothing to hand out, and the file is lost. -/
theorem not_complete_one_at_a_time :
    ∃ s, run (listStep strayDirectory) (listStart strayDirectory)
        [.entries 1, .entries 1, .entries 0] = some s ∧
      s.request = none ∧ ¬ Complete strayDirectory s.listed := by
  decide

end GlusterFS.Dht
