import GlusterFS.Dht.Layout

/-!
# DHT: which layouts have anomalies

`dht_layout_anomalies` walks over the sorted layout and compares the start of each
range with `prev_stop + 1`, in 32 bits.  After a range that is the whole ring this is
0, so a second range that starts at 0 is not seen to overlap it.  The walk finds an
anomaly in every other layout whose ranges do not cover each hash exactly once.
-/

namespace GlusterFS.Dht

open ExchangeSort Intervals List Nat

def ringSize : Nat := 2 ^ 32

def wholeRing : Nat × Nat :=
  (0, ringSize - 1)

def valid (es : List LayoutEntry) : List LayoutEntry :=
  es.filter (fun e => e.err == 0)

def LayoutEntry.range (e : LayoutEntry) : Nat × Nat :=
  (e.start.toNat, e.stop.toNat)

def ranges (es : List LayoutEntry) : List (Nat × Nat) :=
  (valid es).map LayoutEntry.range

theorem ranges_cons (e : LayoutEntry) (es : List LayoutEntry) :
    ranges (e :: es) = if e.err = 0 then e.range :: ranges es else ranges es := by
  unfold ranges valid
  by_cases h : e.err = 0 <;> simp [h]

def ExactlyOnce (es : List LayoutEntry) : Prop :=
  ∀ hash : UInt32, es.countP (fun e => decide (e.err = 0 ∧ e.start ≤ hash ∧ hash ≤ e.stop)) = 1

theorem countP_eq_coverCount (err : Int) (es : List LayoutEntry) (hash : UInt32) :
    es.countP (fun e => decide (e.err = err ∧ e.start ≤ hash ∧ hash ≤ e.stop)) =
      coverCount ((es.filter (fun e => e.err == err)).map LayoutEntry.range) hash.toNat := by
  unfold coverCount
  rw [countP_map, countP_filter]
  refine countP_congr (fun e _ => ?_)
  simp only [Function.comp, decide_eq_true_eq, Bool.and_eq_true, beq_iff_eq]
  exact and_comm

theorem exactlyOnce_iff (es : List LayoutEntry) :
    ExactlyOnce es ↔ ExactCover 0 ringSize (ranges es) := by
  have hcnt : ∀ hash : UInt32,
      es.countP (fun e => decide (e.err = 0 ∧ e.start ≤ hash ∧ hash ≤ e.stop)) =
        coverCount (ranges es) hash.toNat :=
    countP_eq_coverCount 0 es
  unfold ExactlyOnce
  simp only [hcnt]
  constructor
  · intro h p _ hp
    have hone := h (UInt32.ofNat p)
    rwa [UInt32.toNat_ofNat_of_lt' hp] at hone
  · intro h hash
    exact h hash.toNat (zero_le _) hash.toNat_lt

theorem countError_same (a : Anomalies) (err : Int) :
    (countError a err).holeCnt = a.holeCnt ∧ (countError a err).overlapCnt = a.overlapCnt ∧
      (countError a err).prevStop = a.prevStop ∧
      (countError a err).isVirgin = a.isVirgin := by
  unfold countError
  split_ifs <;> exact ⟨rfl, rfl, rfl, rfl⟩

theorem toNat_succ (x : UInt32) : (x + 1).toNat = (x.toNat + 1) % ringSize := by
  rfl

variable {e : LayoutEntry} {es : List LayoutEntry} {layout : DhtLayout}
  {ivs chain : List (Nat × Nat)} {rings : Nat}

theorem anomaliesStep_valid {a : Anomalies} (herr : e.err = 0) :
    ((anomaliesStep a e).holeCnt = 0 ∧ (anomaliesStep a e).overlapCnt = 0) ↔
      (a.holeCnt = 0 ∧ a.overlapCnt = 0) ∧ e.start.toNat = (a.prevStop.toNat + 1) % ringSize := by
  unfold anomaliesStep
  rw [if_neg (not_not.mpr herr)]
  simp only [UInt32.lt_iff_toNat_lt, toNat_succ]
  split_ifs <;> simp <;> omega

theorem foldl_anomaliesStep (es : List LayoutEntry) (a : Anomalies) :
    (((es.foldl anomaliesStep a).holeCnt = 0 ∧ (es.foldl anomaliesStep a).overlapCnt = 0) ↔
      (a.holeCnt = 0 ∧ a.overlapCnt = 0) ∧ Follows ringSize a.prevStop.toNat (ranges es)) ∧
    (es.foldl anomaliesStep a).prevStop.toNat = lastEnd a.prevStop.toNat (ranges es) ∧
    ((es.foldl anomaliesStep a).isVirgin = true ↔ a.isVirgin = true ∧ ranges es = []) := by
  induction es generalizing a with
  | nil => simp [ranges, valid, Follows, lastEnd]
  | cons e es ih =>
    obtain ⟨hcnts, hprev, hvir⟩ := ih (anomaliesStep a e)
    rw [foldl_cons, ranges_cons]
    by_cases herr : e.err = 0
    · have hstop : (anomaliesStep a e).prevStop = e.stop := by simp [anomaliesStep, herr]
      have hnot : (anomaliesStep a e).isVirgin = false := by simp [anomaliesStep, herr]
      rw [hstop] at hcnts hprev
      rw [hnot] at hvir
      rw [if_pos herr]
      refine ⟨?_, hprev, by simpa using hvir⟩
      rw [hcnts, anomaliesStep_valid herr, and_assoc]
      rfl
    · have hsame := countError_same a e.err
      rw [if_neg herr]
      rw [anomaliesStep, if_pos herr] at hcnts hprev hvir ⊢
      rw [hsame.1, hsame.2.1, hsame.2.2.1] at hcnts
      rw [hsame.2.2.1] at hprev
      rw [hsame.2.2.2] at hvir
      exact ⟨hcnts, hprev, hvir⟩

theorem dhtLayoutAnomalies_eq_zero_iff (layout : DhtLayout) :
    ((dhtLayoutAnomalies layout).holeCnt = 0 ∧ (dhtLayoutAnomalies layout).overlapCnt = 0) ↔
      ranges layout.list ≠ [] ∧
        Follows ringSize (layoutLastStop layout).toNat (ranges layout.list) ∧
        lastEnd (layoutLastStop layout).toNat (ranges layout.list) =
          (layoutLastStop layout).toNat := by
  obtain ⟨hcnts, hprev, hvir⟩ :=
    foldl_anomaliesStep layout.list ⟨0, 0, 0, 0, 0, layoutLastStop layout, true⟩
  have hstop : layoutLastStop layout - (layout.list.foldl anomaliesStep
      ⟨0, 0, 0, 0, 0, layoutLastStop layout, true⟩).prevStop ≠ 0 ↔
      lastEnd (layoutLastStop layout).toNat (ranges layout.list) ≠
        (layoutLastStop layout).toNat := by
    have hsub : ∀ x y : UInt32, x - y = 0 ↔ y = x := by grind
    rw [← hprev, Ne, Ne, UInt32.toNat_inj, hsub]
  unfold dhtLayoutAnomalies
  simp only [hstop, hvir, true_and]
  split_ifs with hbad
  · refine ⟨fun h => absurd h.1 (by simp), ?_⟩
    rintro ⟨hne, _, hlast⟩
    exact absurd hbad (not_or.mpr ⟨not_not.mpr hlast, hne⟩)
  · rw [not_or, not_not] at hbad
    rw [hcnts]
    exact ⟨fun h => ⟨hbad.2, h.2, hbad.1⟩, fun h => ⟨⟨rfl, rfl⟩, h.2.1⟩⟩

theorem mem_valid : e ∈ valid es ↔ e ∈ es ∧ e.err = 0 := by
  simp [valid]

theorem ranges_perm {es' : List LayoutEntry} (h : es.Perm es') : (ranges es).Perm (ranges es') := by
  exact (h.filter _).map _

theorem ranges_pairwise (h : es.Pairwise (fun e e' => entryGt e e' = false)) :
    (ranges es).Pairwise (fun iv iv' => iv.1 ≤ iv'.1) := by
  rw [ranges, pairwise_map]
  refine (h.filter _).imp_of_mem ?_
  intro e e' he he' hle
  have herr := (mem_valid.mp he).2
  have herr' := (mem_valid.mp he').2
  rw [entryGt_eq_false_iff] at hle
  unfold LayoutEntry.range
  omega

theorem ranges_bounds (hmrg : ∀ e ∈ es, Merged e) :
    ∀ iv ∈ ranges es, iv.1 ≤ iv.2 ∧ iv.2 < ringSize := by
  intro iv hiv
  obtain ⟨e, he, rfl⟩ := mem_map.mp hiv
  have hord := (hmrg e (mem_valid.mp he).1).ordered
  exact ⟨hord, e.stop.toNat_lt⟩

theorem toNat_pred (x : UInt32) :
    (x - 1).toNat + 1 = if x.toNat = 0 then ringSize else x.toNat := by
  have hlt := x.toNat_lt
  have hsub : (x - 1).toNat = (2 ^ 32 - 1 + x.toNat) % 2 ^ 32 := UInt32.toNat_sub x 1
  rw [hsub, ringSize]
  split_ifs <;> omega

theorem layoutLastStop_of_start (hmrg : ∀ e ∈ layout.list, Merged e)
    (hst : ∀ iv ∈ (ranges layout.list).head?, iv.1 = 0) :
    (layoutLastStop layout).toNat = ringSize - 1 := by
  unfold layoutLastStop
  cases hlist : layout.list with
  | nil => rfl
  | cons e es =>
    have hzero : e.start.toNat = 0 := by
      by_cases herr : e.err = 0
      · rw [hlist, ranges_cons, if_pos herr] at hst
        exact hst e.range rfl
      · rw [(hmrg e (by simp [hlist])).blank herr]
        rfl
    have hpred := toNat_pred e.start
    rw [if_pos hzero] at hpred
    simp only [head?_cons, Option.map_some, Option.getD_some]
    omega

theorem le_lastEnd {a prev : Nat} (hprev : a ≤ prev) (hivs : ∀ iv ∈ ivs, a ≤ iv.2) :
    a ≤ lastEnd prev ivs := by
  induction ivs generalizing prev with
  | nil => exact hprev
  | cons iv ivs ih =>
    obtain ⟨hiv, hivs'⟩ := forall_mem_cons.mp hivs
    exact ih hiv hivs'

theorem start_of_lastEnd (hsort : layout.list.Pairwise (fun e e' => entryGt e e' = false))
    (hmrg : ∀ e ∈ layout.list, Merged e)
    (hfol : Follows ringSize (layoutLastStop layout).toNat (ranges layout.list))
    (hlast : lastEnd (layoutLastStop layout).toNat (ranges layout.list) =
      (layoutLastStop layout).toNat) : ∀ iv ∈ (ranges layout.list).head?, iv.1 = 0 := by
  cases hlist : layout.list with
  | nil => simp [ranges, valid]
  | cons e es =>
    have hpred := toNat_pred e.start
    have hstop : (layoutLastStop layout).toNat = (e.start - 1).toNat := by
      simp [layoutLastStop, hlist]
    rw [hstop, hlist, ranges_cons] at hlast hfol
    rw [ranges_cons]
    by_cases herr : e.err = 0
    · rw [if_pos herr] at hlast ⊢
      have hsort' := ranges_pairwise hsort
      have hbds := ranges_bounds hmrg
      rw [hlist, ranges_cons, if_pos herr] at hsort' hbds
      -- The last stop is not before the first start.
      have hge : e.start.toNat ≤ lastEnd e.range.2 (ranges es) := by
        refine le_lastEnd (hbds e.range mem_cons_self).1 ?_
        intro iv hiv
        have hfst : e.start.toNat ≤ iv.1 := (pairwise_cons.mp hsort').1 iv hiv
        have hiv' := hbds iv (mem_cons_of_mem _ hiv)
        omega
      have hlast' : lastEnd e.range.2 (ranges es) = (e.start - 1).toNat := hlast
      rintro iv hiv
      cases hiv
      split_ifs at hpred with hzero
      · exact hzero
      · omega
    · rw [if_neg herr] at hfol ⊢
      have hzero : e.start = 0 := (hmrg e (by simp [hlist])).blank herr
      intro iv hiv
      cases hes : ranges es with
      | nil =>
        simp [hes] at hiv
      | cons iv' ivs =>
        rw [hes] at hiv hfol
        cases hiv
        rw [hfol.1, hpred, hzero]
        exact mod_self ringSize

/--
What `dht_layout_normalize` lets through: ranges that follow each other around the ring,
after any number of ranges that are the whole ring.
-/
theorem dhtLayoutNormalize_eq_zero_iff (hmrg : ∀ e ∈ layout.list, Merged e) :
    (dhtLayoutNormalize layout).2 = 0 ↔ ∃ rings chain, ranges (dhtLayoutSort layout).list =
          replicate rings wholeRing ++ chain ∧
        Chain ringSize 0 chain := by
  have hsort := dhtLayoutSort_pairwise layout
  have hmrg' : ∀ e ∈ (dhtLayoutSort layout).list, Merged e :=
    fun e he => hmrg e ((dhtLayoutSort_perm layout).subset he)
  have hzero : (dhtLayoutNormalize layout).2 = 0 ↔
      (dhtLayoutAnomalies (dhtLayoutSort layout)).holeCnt = 0 ∧
        (dhtLayoutAnomalies (dhtLayoutSort layout)).overlapCnt = 0 := by
    unfold dhtLayoutNormalize
    simp only
    split_ifs with h
    · simp only [one_ne_zero]
      tauto
    · tauto
  rw [hzero, dhtLayoutAnomalies_eq_zero_iff]
  refine Iff.trans ?_ (follows_iff (by decide) (ranges_pairwise hsort) (ranges_bounds hmrg'))
  constructor
  · rintro ⟨hne, hfol, hlast⟩
    have hstop := layoutLastStop_of_start hmrg' (start_of_lastEnd hsort hmrg' hfol hlast)
    rw [hstop] at hfol hlast
    exact ⟨hne, hfol, by rw [hlast]; rfl⟩
  · rintro ⟨hne, hfol, hlast⟩
    have hst : ∀ iv ∈ (ranges (dhtLayoutSort layout).list).head?, iv.1 = 0 := by
      intro iv hiv
      cases hes : ranges (dhtLayoutSort layout).list with
      | nil => exact absurd hes hne
      | cons iv' ivs =>
        rw [hes] at hiv hfol
        cases hiv
        exact hfol.1
    rw [layoutLastStop_of_start hmrg' hst]
    exact ⟨hne, hfol, by omega⟩

/--
One range is the whole ring, and the walk does not see the others: they are all the
whole ring too, or those that are not cover every hash exactly once.
-/
def HidesOverlap (ivs : List (Nat × Nat)) : Prop :=
  wholeRing ∈ ivs ∧ ((∀ iv ∈ ivs, iv = wholeRing) ∧ 2 ≤ ivs.length ∨
      ExactCover 0 ringSize (ivs.filter (fun iv => iv ≠ wholeRing)))

theorem hidesOverlap_perm {ivs' : List (Nat × Nat)} (h : ivs.Perm ivs') :
    HidesOverlap ivs ↔ HidesOverlap ivs' := by
  unfold HidesOverlap
  rw [h.mem_iff, h.length_eq, exactCover_perm (h.filter _)]
  simp only [h.mem_iff]

theorem not_exactCover_nil : ¬ ExactCover 0 ringSize [] := by
  intro h
  have hzero := h 0 (le_refl 0) (by decide)
  simp [coverCount] at hzero

theorem filter_rings (hnot : wholeRing ∉ chain) :
    (replicate rings wholeRing ++ chain).filter (fun iv => iv ≠ wholeRing) = chain := by
  rw [filter_append, filter_eq_nil_iff.mpr, filter_eq_self.mpr, nil_append]
  · intro iv hiv
    simp only [decide_not, Bool.not_eq_true', decide_eq_false_iff_not]
    rintro rfl
    exact hnot hiv
  · intro iv hiv
    simp [eq_of_mem_replicate hiv]

theorem hidesOverlap_rings_iff (hch : Chain ringSize 0 chain) :
    HidesOverlap (replicate rings wholeRing ++ chain) ↔ 0 < rings := by
  constructor
  · rintro ⟨hmem, hrest⟩
    by_contra hnone
    have hrings : rings = 0 := by omega
    subst hrings
    rw [hch.eq_ring hmem] at hrest
    rcases hrest with ⟨_, hlen⟩ | hcov
    · simp at hlen
    · exact not_exactCover_nil (by simpa [wholeRing] using hcov)
  · intro hrings
    have hmem : wholeRing ∈ replicate rings wholeRing ++ chain :=
      mem_append_left _ (mem_replicate.mpr ⟨by omega, rfl⟩)
    refine ⟨hmem, ?_⟩
    by_cases hring : wholeRing ∈ chain
    · have heq : chain = [wholeRing] := hch.eq_ring hring
      refine .inl ⟨?_, ?_⟩
      · rw [heq]
        intro iv hiv
        rcases mem_append.mp hiv with hiv | hiv
        · exact eq_of_mem_replicate hiv
        · exact mem_singleton.mp hiv
      · simp [heq]
        omega
    · refine .inr ?_
      rw [filter_rings hring]
      exact hch.exactCover

theorem not_exactCover_rings (hch : Chain ringSize 0 chain) (hrings : 0 < rings) :
    ¬ ExactCover 0 ringSize (replicate rings wholeRing ++ chain) := by
  intro hcov
  have hone := hcov 0 (le_refl 0) (by decide)
  have hch' := hch.exactCover 0 (le_refl 0) (by decide)
  have hring : 0 < coverCount (replicate rings wholeRing) 0 :=
    coverCount_pos (mem_replicate.mpr ⟨by omega, rfl⟩) (by simp [wholeRing])
  unfold coverCount at hone hch' hring
  rw [countP_append] at hone
  omega

def Detects (layout : DhtLayout) : Prop :=
  (dhtLayoutNormalize layout).2 = 0 ↔ ExactlyOnce layout.list

theorem dhtLayoutNormalize_of_exactlyOnce (hmrg : ∀ e ∈ layout.list, Merged e)
    (honce : ExactlyOnce layout.list) : (dhtLayoutNormalize layout).2 = 0 := by
  have hsort : ∀ e ∈ (dhtLayoutSort layout).list, Merged e :=
    fun e he => hmrg e ((dhtLayoutSort_perm layout).subset he)
  have hbds := ranges_bounds hsort
  rw [exactlyOnce_iff, ← exactCover_perm (ranges_perm (dhtLayoutSort_perm layout))] at honce
  have hch := honce.chain (zero_le _) (ranges_pairwise (dhtLayoutSort_pairwise layout))
    (fun iv hiv => (hbds iv hiv).1) (fun iv hiv => ⟨zero_le _, (hbds iv hiv).2⟩)
  exact (dhtLayoutNormalize_eq_zero_iff hmrg).mpr ⟨0, _, rfl, hch⟩

theorem detects_of_not_hidesOverlap (hmrg : ∀ e ∈ layout.list, Merged e)
    (hnot : ¬ HidesOverlap (ranges layout.list)) : Detects layout := by
  refine ⟨?_, dhtLayoutNormalize_of_exactlyOnce hmrg⟩
  intro hzero
  have hperm := ranges_perm (dhtLayoutSort_perm layout)
  obtain ⟨rings, chain, heq, hch⟩ := (dhtLayoutNormalize_eq_zero_iff hmrg).mp hzero
  rw [← hidesOverlap_perm hperm, heq, hidesOverlap_rings_iff hch] at hnot
  have hrings : rings = 0 := by omega
  rw [exactlyOnce_iff, ← exactCover_perm hperm, heq, hrings]
  exact hch.exactCover

theorem eq_filter_append_filter {α : Type*} {p : α → Bool} {l : List α}
    (h : l.Pairwise (fun x y => p y = true → p x = true)) :
    l = l.filter p ++ l.filter (fun x => !p x) := by
  induction l with
  | nil => rfl
  | cons x l ih =>
    obtain ⟨hx, hl⟩ := pairwise_cons.mp h
    cases hp : p x with
    | true => simpa [hp] using ih hl
    | false =>
      have hnone : ∀ y ∈ l, p y = false := by
        intro y hy
        by_contra hpy
        rw [Bool.not_eq_false] at hpy
        simp [hx y hy hpy] at hp
      rw [filter_cons_of_neg (by simp [hp]), filter_eq_nil_iff.mpr, filter_eq_self.mpr, nil_append]
      · simpa [hp] using hnone
      · simpa using hnone

def ringRank (e : LayoutEntry) : Nat :=
  if e.range = wholeRing then 0 else 1

/-- The order of the entries, with the whole rings before the other ranges. -/
def ringLe (e e' : LayoutEntry) : Bool :=
  decide (e.err < e'.err ∨ e.err = e'.err ∧ (e.err ≠ 0 ∨ e.start.toNat < e'.start.toNat ∨
    e.start.toNat = e'.start.toNat ∧ ringRank e ≤ ringRank e'))

theorem ringLe_iff {e' : LayoutEntry} :
    ringLe e e' = true ↔
      e.err < e'.err ∨ e.err = e'.err ∧ (e.err ≠ 0 ∨ e.start.toNat < e'.start.toNat ∨
        e.start.toNat = e'.start.toNat ∧ ringRank e ≤ ringRank e') := by
  exact decide_eq_true_iff

theorem exists_order (replies : List SubvolReply) :
    ∃ order : List SubvolReply, order.Perm replies ∧
      (order.map SubvolReply.entry).Pairwise (fun e e' => ringLe e e' = true) := by
  refine ⟨replies.mergeSort (fun r r' => ringLe r.entry r'.entry), mergeSort_perm replies _, ?_⟩
  rw [pairwise_map]
  refine pairwise_mergeSort ?_ ?_ replies
  · intro r1 r2 r3 h12 h23
    rw [ringLe_iff] at h12 h23 ⊢
    omega
  · intro r1 r2
    rw [Bool.or_eq_true, ringLe_iff, ringLe_iff]
    omega

theorem pairwise_entryGt_of_ringLe (h : es.Pairwise (fun e e' => ringLe e e' = true)) :
    es.Pairwise (fun e e' => entryGt e e' = false) := by
  refine h.imp ?_
  intro e e' hle
  rw [ringLe_iff] at hle
  rw [entryGt_eq_false_iff]
  omega

theorem ranges_of_ringLe (h : es.Pairwise (fun e e' => ringLe e e' = true)) :
    ranges es = replicate ((ranges es).countP (fun iv => iv = wholeRing)) wholeRing ++
      (ranges es).filter (fun iv => iv ≠ wholeRing) := by
  have hpair : (ranges es).Pairwise (fun iv iv' =>
      decide (iv' = wholeRing) = true → decide (iv = wholeRing) = true) := by
    rw [ranges, pairwise_map]
    refine (h.filter _).imp_of_mem ?_
    intro e e' he he' hle
    have herr := (mem_valid.mp he).2
    have herr' := (mem_valid.mp he').2
    rw [ringLe_iff] at hle
    simp only [decide_eq_true_eq]
    intro hring
    have hzero : e'.start.toNat = 0 := congrArg Prod.fst hring
    have hrank : ringRank e' = 0 := if_pos hring
    by_contra hoth
    have hrank' : ringRank e = 1 := if_neg hoth
    omega
  have hsp := eq_filter_append_filter hpair
  have hrings : (ranges es).filter (fun iv => decide (iv = wholeRing)) =
      replicate ((ranges es).countP (fun iv => iv = wholeRing)) wholeRing := by
    rw [countP_eq_length_filter, eq_replicate_iff]
    exact ⟨rfl, fun iv hiv => by simpa using (mem_filter.mp hiv).2⟩
  rw [hrings] at hsp
  simpa using hsp

theorem exists_rings_of_hidesOverlap {n : Nat} (hsort : ivs.Pairwise (fun iv iv' => iv.1 ≤ iv'.1))
    (hbds : ∀ iv ∈ ivs, iv.1 ≤ iv.2 ∧ iv.2 < ringSize)
    (hsp : ivs = replicate n wholeRing ++ ivs.filter (fun iv => iv ≠ wholeRing))
    (h : HidesOverlap ivs) :
    ∃ rings chain, 0 < rings ∧ ivs = replicate rings wholeRing ++ chain ∧
      Chain ringSize 0 chain := by
  obtain ⟨hmem, ⟨hall, hlen⟩ | hcov⟩ := h
  · refine ⟨ivs.length - 1, [wholeRing], by omega, ?_, rfl, zero_le _, rfl⟩
    rw [eq_replicate_of_mem hall, ← replicate_succ', length_replicate]
    congr 1
    omega
  · have hsub := filter_sublist (p := fun iv => decide (iv ≠ wholeRing)) (l := ivs)
    have hch := hcov.chain (zero_le _) (hsort.sublist hsub)
      (fun iv hiv => (hbds iv (hsub.subset hiv)).1)
      (fun iv hiv => ⟨zero_le _, (hbds iv (hsub.subset hiv)).2⟩)
    refine ⟨n, _, ?_, hsp, hch⟩
    by_contra hzero
    have hn : n = 0 := by omega
    rw [hsp, hn, replicate_zero, nil_append] at hmem
    simpa using (mem_filter.mp hmem).2

theorem not_detects_of_hidesOverlap (hmrg : ∀ e ∈ layout.list, Merged e)
    (hpair : layout.list.Pairwise (fun e e' => ringLe e e' = true))
    (hhides : HidesOverlap (ranges layout.list)) : ¬ Detects layout := by
  have hgt := pairwise_entryGt_of_ringLe hpair
  have hsame : (dhtLayoutSort layout).list = layout.list := exchangeSort_of_pairwise entryGt hgt
  obtain ⟨rings, chain, hpos, heq, hch⟩ := exists_rings_of_hidesOverlap
    (ranges_pairwise hgt) (ranges_bounds hmrg) (ranges_of_ringLe hpair) hhides
  intro hdet
  rw [Detects, dhtLayoutNormalize_eq_zero_iff hmrg, hsame, exactlyOnce_iff] at hdet
  have hcov := hdet.mp ⟨rings, chain, heq, hch⟩
  rw [heq] at hcov
  exact not_exactCover_rings hch hpos hcov

/--
The anomalies of a layout are detected exactly, in whatever order the replies are
merged, if and only if no range that is the whole ring hides an overlap.
-/
theorem detects_iff (replies : List SubvolReply) (hordered : ∀ r ∈ replies, r.reply.Ordered) :
    (∀ order : List SubvolReply, order.Perm replies →
      Detects (mergeReplies (dhtLayoutNew order.length) order)) ↔
      ¬ HidesOverlap (ranges (replies.map SubvolReply.entry)) := by
  have hmrg : ∀ order : List SubvolReply, order.Perm replies →
      ∀ e ∈ (mergeReplies (dhtLayoutNew order.length) order).list, Merged e := by
    intro order hperm e he
    rw [mergeReplies_list] at he
    obtain ⟨r, hr, rfl⟩ := mem_map.mp he
    exact SubvolReply.merged (hordered r (hperm.subset hr))
  constructor
  · intro h hhides
    obtain ⟨order, hperm, hpair⟩ := exists_order replies
    rw [← hidesOverlap_perm (ranges_perm (hperm.map SubvolReply.entry))] at hhides
    rw [← mergeReplies_list] at hhides hpair
    exact not_detects_of_hidesOverlap (hmrg order hperm) hpair hhides (h order hperm)
  · intro hnot order hperm
    refine detects_of_not_hidesOverlap (hmrg order hperm) ?_
    rw [mergeReplies_list, hidesOverlap_perm (ranges_perm (hperm.map SubvolReply.entry))]
    exact hnot

def rangeReply (subvol : Subvol) (start stop : UInt32) : SubvolReply :=
  ⟨subvol, .xattr ⟨hton32 1, hton32 0, hton32 start, hton32 stop⟩⟩

def twoHalves : List SubvolReply :=
  [rangeReply 0 0x80000000 0xffffffff, ⟨1, .failed ENOTCONN⟩, rangeReply 2 0 0x7fffffff]

theorem detects_iff_twoHalves :
    (∀ order : List SubvolReply, order.Perm twoHalves →
      Detects (mergeReplies (dhtLayoutNew order.length) order)) ↔
      ¬ HidesOverlap (ranges (twoHalves.map SubvolReply.entry)) := by
  exact detects_iff twoHalves (by decide)

def twoWholeRings : List SubvolReply :=
  [rangeReply 0 0 0xffffffff, rangeReply 1 0 0xffffffff]

theorem not_detects_twoWholeRings :
    ¬ Detects (mergeReplies (dhtLayoutNew twoWholeRings.length) twoWholeRings) := by
  intro h
  have honce := h.mp (by decide) 0
  revert honce
  decide

end GlusterFS.Dht
