import GlusterFS.Afr.SelfHealCommon

/-!
# AFR: the source of a metadata self-heal

The metadata pass looks the file up on every child that is up, marks the
children that nobody accuses, strikes out those with an error, and copies
ownership, mode and times from the first one left to every other.

Two children can slip through.  When nobody is left, the `favorite-child` of
the volume is taken although it is accused; that is what the option is for.
And a child that is down has neither an error nor an accusing row of its own,
so that nothing strikes it out.
-/

namespace GlusterFS.Afr

open FanOut List Function

variable {n : Nat} {sh : SelfHeal n} {i : Fin n} {childUp : Fin n → Bool}
  {rs : List (Fin n × LookupReply n)} {priv : AfrPrivate n} {childErrno : Fin n → Option Errno}

def afrShMetadataLookupCbk (sh : SelfHeal n) (childIndex : Fin n) : LookupReply n → SelfHeal n
  | .ok buf xattr =>
    { sh with
      buf := update sh.buf childIndex buf
      xattr :=
        if xattr.isSome then
          update sh.xattr childIndex xattr
        else
          sh.xattr
      callCount := sh.callCount - 1 }
  | .err opErrno =>
    { sh with
      childErrno := update sh.childErrno childIndex (some opErrno)
      callCount := sh.callCount - 1 }

def afrShMetadataSyncPrepare (childUp : Fin n → Bool) (sh : SelfHeal n) : HealOutcome n :=
  let activeSinks := (finRange n).countP (fun i => !sh.sources i && childUp i)
  let sh : SelfHeal n :=
    { sh with
      success := fun i =>
        sh.success i || (!sh.sources i && childUp i) || sh.source == some i }
  if activeSinks = 0 then
    .finish sh
  else
    .sync { sh with activeSinks := activeSinks }

/-- The favorite child becomes the source when there is no other. -/
def pickFavorite (priv : AfrPrivate n) (childErrno : Fin n → Option Errno)
    (sources : Fin n → Bool) : Fin n → Bool :=
  match priv.favoriteChild with
  | none => sources
  | some favorite =>
    if afrShSourceCount sources = 0 ∧ childErrno favorite = none then
      update sources favorite true
    else
      sources

def dropDifferent (sh : SelfHeal n) (source : Fin n) (sources : Fin n → Bool) : Fin n → Bool :=
  fun i =>
    if i = source ∨ sh.childErrno i ≠ none then
      sources i
    else
      sources i && !(permissionDiffers (sh.buf i) (sh.buf source) ||
          ownershipDiffers (sh.buf i) (sh.buf source))

def afrShMetadataFix (priv : AfrPrivate n) (childUp : Fin n → Bool) (sh : SelfHeal n) :
    HealOutcome n :=
  let pendingMatrix := afrShBuildPendingMatrix .metadataPending sh.xattr
  let sources := afrShMarkSources pendingMatrix
  let sources := afrShSupressErrenousChildren sources sh.childErrno
  let sources := pickFavorite priv sh.childErrno sources
  let sh : SelfHeal n :=
    { sh with
      pendingMatrix := normalizePending pendingMatrix
      sources := sources }
  match afrShSelectSource sources with
  | none => .finish { sh with govinda := true }
  | some source =>
    afrShMetadataSyncPrepare childUp
      { sh with
        source := some source
        sources := dropDifferent sh source sources }

def lookupCalls (childUp : Fin n → Bool) (sh : SelfHeal n) : List (Fin n) :=
  windLoop (fun i => if childUp i then [i] else []) sh.callCount (finRange n)

def afrShMetadataLookup (priv : AfrPrivate n) (childUp : Fin n → Bool)
    (childErrno : Fin n → Option Errno)
    (rs : List (Fin n × LookupReply n)) : Option (HealOutcome n) :=
  let sh : SelfHeal n :=
    { SelfHeal.start childErrno with
      callCount := afrUpChildrenCount childUp }
  if Answers rs (lookupCalls childUp sh) ∧ rs ≠ [] then
    some (afrShMetadataFix priv childUp (gather afrShMetadataLookupCbk sh rs))
  else
    none

section

theorem lookupCalls_eq (childUp : Fin n → Bool) (hcnt : sh.callCount = afrUpChildrenCount childUp) :
    lookupCalls childUp sh = upChildren childUp := by
  exact windLoop_upChildren childUp hcnt

def errnoSlot (childErrno : Option Errno) : LookupReply n → Option Errno
  | .ok _ _ => childErrno
  | .err opErrno => some opErrno

def xattrSlot (xattr : Option (Xattr n)) : LookupReply n → Option (Xattr n)
  | .ok _ (some dict) => some dict
  | .ok _ none => xattr
  | .err _ => xattr

theorem afrShMetadataLookupCbk_childErrno
    (sh : SelfHeal n) (i : Fin n) (r : LookupReply n) (i' : Fin n) :
    (afrShMetadataLookupCbk sh i r).childErrno i' =
      if i' = i then errnoSlot (sh.childErrno i) r else sh.childErrno i' := by
  cases r with
  | ok buf xattr =>
    simp only [afrShMetadataLookupCbk, errnoSlot]
    split_ifs with hi
    · rw [hi]
    · rfl
  | err opErrno => simp only [afrShMetadataLookupCbk, errnoSlot, update_apply]

theorem afrShMetadataLookupCbk_xattr
    (sh : SelfHeal n) (i : Fin n) (r : LookupReply n) (i' : Fin n) :
    (afrShMetadataLookupCbk sh i r).xattr i' =
      if i' = i then xattrSlot (sh.xattr i) r else sh.xattr i' := by
  cases r with
  | ok buf xattr =>
    cases xattr with
    | none =>
      simp only [afrShMetadataLookupCbk, xattrSlot, Option.isSome_none,
        Bool.false_eq_true, if_false]
      split_ifs with hi
      · rw [hi]
      · rfl
    | some dict => simp [afrShMetadataLookupCbk, xattrSlot, update_apply]
  | err opErrno =>
    simp only [afrShMetadataLookupCbk, xattrSlot]
    split_ifs with hi
    · rw [hi]
    · rfl

def lookupAnswered (childUp : Fin n → Bool) (childErrno : Fin n → Option Errno)
    (rs : List (Fin n × LookupReply n)) : SelfHeal n :=
  gather afrShMetadataLookupCbk
    { SelfHeal.start childErrno with
      callCount := afrUpChildrenCount childUp } rs

variable (hans : Answers rs (upChildren childUp))
include hans

theorem nodup_keys : (rs.map Prod.fst).Nodup :=
  (List.Perm.nodup_iff hans).mpr (upChildren_nodup childUp)

theorem lookupAnswered_ok (hup : childUp i = true)
    (herr : (lookupAnswered childUp childErrno rs).childErrno i = none) :
    ∃ buf xattr, (i, LookupReply.ok buf xattr) ∈ rs := by
  obtain ⟨r, hr⟩ := hans.exists_reply (mem_upChildren.mpr hup)
  cases r with
  | ok buf xattr => exact ⟨buf, xattr, hr⟩
  | err opErrno =>
    unfold lookupAnswered at herr
    rw [gather_slot afrShMetadataLookupCbk SelfHeal.childErrno errnoSlot
      afrShMetadataLookupCbk_childErrno _ (nodup_keys hans) hr] at herr
    cases herr

theorem lookupAnswered_xattr_iff (i : Fin n) (dict : Xattr n) :
    (lookupAnswered childUp childErrno rs).xattr i = some dict ↔
      ∃ buf, (i, LookupReply.ok buf (some dict)) ∈ rs := by
  have hslot : ∀ r, (i, r) ∈ rs →
      (lookupAnswered childUp childErrno rs).xattr i = xattrSlot none r := by
    intro r hr
    exact gather_slot afrShMetadataLookupCbk SelfHeal.xattr xattrSlot
      afrShMetadataLookupCbk_xattr _ (nodup_keys hans) hr
  constructor
  · intro h
    by_cases hi : i ∈ rs.map Prod.fst
    · obtain ⟨⟨i', r⟩, hr, rfl⟩ := mem_map.mp hi
      have hval := hslot r hr
      rw [h] at hval
      cases r with
      | ok buf xattr =>
        cases xattr with
        | none => cases hval
        | some dict' =>
          cases hval
          exact ⟨buf, hr⟩
      | err opErrno => cases hval
    · have hval : (lookupAnswered childUp childErrno rs).xattr i = none :=
        gather_slot_of_not_mem afrShMetadataLookupCbk SelfHeal.xattr xattrSlot
          afrShMetadataLookupCbk_xattr _ hi
      simp [h] at hval
  · rintro ⟨buf, hr⟩
    exact hslot _ hr

end

/-- The entry against `j` in the array that another child answered with. -/
def EntryAgainst (rs : List (Fin n × LookupReply n)) (j : Fin n) (c : Counter) : Prop :=
  ∃ i buf dict row, i ≠ j ∧ (i, LookupReply.ok buf (some dict)) ∈ rs ∧
    dict .metadataPending = some row ∧ row j = c

def Accused (rs : List (Fin n × LookupReply n)) (j : Fin n) : Prop :=
  ∃ c, EntryAgainst rs j c ∧ Accuses c

structure GoodSource (childUp : Fin n → Bool) (rs : List (Fin n × LookupReply n))
    (source : Fin n) : Prop where
  up : childUp source = true
  answered : ∃ buf xattr, (source, LookupReply.ok buf xattr) ∈ rs
  notAccused : ¬ Accused rs source

theorem pendingMatrix_ne_zero_iff (childErrno : Fin n → Option Errno)
    (hans : Answers rs (upChildren childUp)) (j : Fin n) :
    (∃ i, i ≠ j ∧ afrShBuildPendingMatrix .metadataPending
        (lookupAnswered childUp childErrno rs).xattr i j ≠ 0) ↔
      ∃ c, EntryAgainst rs j c ∧ c ≠ 0 := by
  constructor
  · rintro ⟨i, hij, hne⟩
    unfold afrShBuildPendingMatrix pendingOf at hne
    cases hx : (lookupAnswered childUp childErrno rs).xattr i with
    | none => simp [hx] at hne
    | some dict =>
      obtain ⟨buf, hr⟩ := (lookupAnswered_xattr_iff hans i dict).mp hx
      cases hrow : dict .metadataPending with
      | none => simp [hx, hrow] at hne
      | some row =>
        simp only [hx, Option.bind_some, hrow] at hne
        exact ⟨row j, ⟨i, buf, dict, row, hij, hr, hrow, rfl⟩, hne⟩
  · rintro ⟨c, ⟨i, buf, dict, row, hij, hr, hrow, rfl⟩, hne⟩
    have hx : (lookupAnswered childUp childErrno rs).xattr i = some dict :=
      (lookupAnswered_xattr_iff hans i dict).mpr ⟨buf, hr⟩
    refine ⟨i, hij, ?_⟩
    simpa [afrShBuildPendingMatrix, pendingOf, hx, hrow] using hne

theorem pickFavorite_spec {sources : Fin n → Bool}
    (h : pickFavorite priv childErrno sources i = true) :
    sources i = true ∨ priv.favoriteChild = some i ∧ childErrno i = none ∧
        ∀ j, sources j = false := by
  unfold pickFavorite at h
  cases hfav : priv.favoriteChild with
  | none =>
    rw [hfav] at h
    exact .inl h
  | some favorite =>
    rw [hfav] at h
    simp only at h
    split_ifs at h with hnone
    · obtain ⟨hcnt, herr⟩ := hnone
      have hfalse : ∀ j, sources j = false := by
        intro j
        have hj := countP_eq_zero.mp hcnt j (mem_finRange j)
        simpa using hj
      by_cases hi : i = favorite
      · subst hi
        exact .inr ⟨rfl, herr, hfalse⟩
      · rw [update_of_ne hi] at h
        exact .inl h
    · exact .inl h

theorem afrShMetadataFix_sync {sh' : SelfHeal n} (h : afrShMetadataFix priv childUp sh = .sync sh')
    :
    ∃ source, sh'.source = some source ∧ sh.childErrno source = none ∧ ((∀ j, j ≠ source →
          afrShBuildPendingMatrix .metadataPending sh.xattr j source = 0) ∨
        priv.favoriteChild = some source ∧ ∀ i, sh.childErrno i = none → ∃ j, j ≠ i ∧
              afrShBuildPendingMatrix .metadataPending sh.xattr j i ≠ 0) := by
  unfold afrShMetadataFix at h
  simp only at h
  split at h
  · cases h
  · rename_i source hsel
    have hsrc : sh'.source = some source := by
      unfold afrShMetadataSyncPrepare at h
      simp only at h
      split_ifs at h
      cases h
      rfl
    have hmark : ∀ i, afrShSupressErrenousChildren (afrShMarkSources
          (afrShBuildPendingMatrix .metadataPending sh.xattr))
        sh.childErrno i = true ↔ (∀ j, j ≠ i →
            afrShBuildPendingMatrix .metadataPending sh.xattr j i = 0) ∧
          sh.childErrno i = none := by
      intro i
      unfold afrShSupressErrenousChildren
      rw [Bool.and_eq_true, afrShMarkSources_iff, Option.isNone_iff_eq_none]
    have hpicked := afrShSelectSource_spec hsel
    refine ⟨source, hsrc, ?_⟩
    rcases pickFavorite_spec hpicked with hsources | ⟨hfav, herr, hnone⟩
    · obtain ⟨hzero, herr⟩ := (hmark source).mp hsources
      exact ⟨herr, .inl hzero⟩
    · refine ⟨herr, .inr ⟨hfav, ?_⟩⟩
      intro i hi
      by_contra hcon
      push Not at hcon
      have hi' := (hmark i).mpr ⟨hcon, hi⟩
      simp [hnone i] at hi'

/--
**The source of a metadata self-heal.**  A source that is up has answered the
lookup and is not accused, unless it is the favorite child and every child
without an error has a non-zero entry against it.
-/
theorem metadata_source_good (priv : AfrPrivate n) (childUp : Fin n → Bool)
    (childErrno : Fin n → Option Errno)
    (rs : List (Fin n × LookupReply n)) (sh' : SelfHeal n)
    (h : afrShMetadataLookup priv childUp childErrno rs = some (.sync sh')) :
    ∃ source, sh'.source = some source ∧ (childUp source = true →
        (∃ buf xattr, (source, LookupReply.ok buf xattr) ∈ rs) ∧
        (¬ Accused rs source ∨ priv.favoriteChild = some source ∧ ∀ i, childErrno i = none →
              (∀ e, (i, LookupReply.err e) ∉ rs) → ∃ c, EntryAgainst rs i c ∧ c ≠ 0)) := by
  unfold afrShMetadataLookup at h
  simp only at h
  split_ifs at h with hcond
  obtain ⟨hans, _⟩ := hcond
  rw [lookupCalls_eq childUp rfl] at hans
  have hsync : afrShMetadataFix priv childUp (lookupAnswered childUp childErrno rs) =
        .sync sh' :=
    Option.some.inj h
  obtain ⟨source, hsrc, herr, hcases⟩ := afrShMetadataFix_sync hsync
  refine ⟨source, hsrc, ?_⟩
  intro hup
  refine ⟨lookupAnswered_ok hans hup herr, ?_⟩
  rcases hcases with hzero | ⟨hfav, hall⟩
  · left
    rintro ⟨c, hent, haccuses⟩
    have hne : c ≠ 0 := by
      rintro rfl
      exact absurd haccuses (by decide)
    obtain ⟨j, hj, hval⟩ := (pendingMatrix_ne_zero_iff childErrno hans source).mpr ⟨c, hent, hne⟩
    exact hval (hzero j hj)
  · right
    refine ⟨hfav, ?_⟩
    intro i hi hok
    apply (pendingMatrix_ne_zero_iff childErrno hans i).mp
    apply hall i
    unfold lookupAnswered
    by_cases hmem : i ∈ rs.map Prod.fst
    · obtain ⟨⟨i', r⟩, hr, rfl⟩ := mem_map.mp hmem
      rw [gather_slot afrShMetadataLookupCbk SelfHeal.childErrno errnoSlot
        afrShMetadataLookupCbk_childErrno _ (nodup_keys hans) hr]
      cases r with
      | ok buf xattr => exact hi
      | err opErrno => exact absurd hr (hok opErrno)
    · rw [gather_slot_of_not_mem afrShMetadataLookupCbk SelfHeal.childErrno errnoSlot
        afrShMetadataLookupCbk_childErrno _ hmem]
      exact hi

def splitBrain : List (Fin 2 × LookupReply 2) :=
  [(secondChild, .ok Stat.zero (some (fun _ => some (fun j => if j = firstChild then 1 else 0)))),
    (firstChild, .ok Stat.zero (some (fun _ => some (fun j => if j = secondChild then 1 else 0))))]

def firstAccused : List (Fin 2 × LookupReply 2) :=
  [(secondChild, .ok Stat.zero (some (fun _ => some (fun j => if j = firstChild then 1 else 0)))),
    (firstChild, .ok Stat.zero none)]

def favoringFirst : AfrPrivate 2 :=
  { AfrPrivate.default 2 with favoriteChild := some firstChild }

theorem goodSource_firstAccused :
    ∃ sh', afrShMetadataLookup favoringFirst (fun _ => true) (fun _ => none)
        firstAccused = some (.sync sh') ∧
      sh'.source = some 1 ∧
      GoodSource (fun _ => true) firstAccused 1 := by
  refine ⟨_, rfl, rfl, ?_⟩
  obtain ⟨source, hsrc, hgood⟩ :=
    metadata_source_good favoringFirst (fun _ => true) (fun _ => none) firstAccused _ rfl
  have hone : source = 1 := (Option.some.inj hsrc).symm
  subst hone
  obtain ⟨hans, hacc | ⟨hfav, _⟩⟩ := hgood rfl
  · exact ⟨rfl, hans, hacc⟩
  · exact absurd hfav (by decide)

theorem not_goodSource_splitBrain :
    ∃ sh', afrShMetadataLookup favoringFirst (fun _ => true) (fun _ => none)
        splitBrain = some (.sync sh') ∧
      sh'.source = some 0 ∧
      ¬ GoodSource (fun _ => true) splitBrain 0 := by
  refine ⟨_, rfl, rfl, ?_⟩
  intro hgood
  apply hgood.notAccused
  refine ⟨1, ⟨1, Stat.zero, _, fun j => if j = 0 then 1 else 0,
    by decide, mem_cons_self, rfl, rfl⟩, by decide⟩

end GlusterFS.Afr
