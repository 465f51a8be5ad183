import Mathlib.Tactic.Ring
import GlusterFS.Afr.Transaction

/-!
# AFR: what a transaction does to the changelog

The three steps of a transaction, one lemma each: which calls a step winds,
what it does to the counters on the children and to `child_up`, and where it
goes on.  `accounts_of_run` puts them together for a transaction that writes
its changelog before and after its own fop, `afrChangelogPreOp_of_not_needed`
for one that leaves the post-op to a later call.
-/

namespace GlusterFS.Afr.Transaction

open FanOut List Transaction

variable {n : Nat} {Inode : Type}

/-- The calls for the inodes on each child that is up. -/
def xattropFanOut (childUp : Fin n → Bool) (inodes : List Inode) : List (Fin n × Inode) :=
  (upChildren childUp).flatMap (fun i => inodes.map (fun inode => (i, inode)))

theorem length_xattropFanOut (childUp : Fin n → Bool) (inodes : List Inode) :
    (xattropFanOut childUp inodes).length = afrUpChildrenCount childUp * inodes.length := by
  rw [← length_upChildren]
  unfold xattropFanOut
  induction upChildren childUp with
  | nil => simp
  | cons i is ih =>
    simp
    ring

variable (t : Transaction n Inode)

theorem xattropCallCount_eq :
    t.xattropCallCount = afrUpChildrenCount t.childUp * t.xattropInodes.length := by
  unfold xattropCallCount xattropInodes
  cases t.type <;> simp

theorem xattropCalls_eq (hcnt : t.callCount = t.xattropCallCount) :
    t.xattropCalls = xattropFanOut t.childUp t.xattropInodes := by
  have hflat := flatMap_upChildren t.childUp
      (fun i => t.xattropInodes.map (fun inode => (i, inode)))
  unfold xattropCalls
  rw [windLoop_eq_flatMap]
  · exact hflat
  · have hlen := length_xattropFanOut t.childUp t.xattropInodes
    unfold xattropFanOut at hlen
    rw [hflat, hlen, hcnt, xattropCallCount_eq]

theorem fopCalls_eq (hcnt : t.callCount = afrUpChildrenCount t.childUp) :
    t.fopCalls = upChildren t.childUp := by
  exact windLoop_upChildren t.childUp hcnt

/-- The part of a transaction that no callback after the lock phase changes. -/
structure SameRequest (t t' : Transaction n Inode) : Prop where
  type : t'.type = t.type
  op : t'.op = t.op
  fd : t'.fd = t.fd
  loc : t'.loc = t.loc
  parentLoc : t'.parentLoc = t.parentLoc
  newParentLoc : t'.newParentLoc = t.newParentLoc
  fdCtx : t'.fdCtx = t.fdCtx
  lockedNodes : t'.lockedNodes = t.lockedNodes

theorem SameRequest.refl : SameRequest t t :=
  ⟨rfl, rfl, rfl, rfl, rfl, rfl, rfl, rfl⟩

variable {t t' : Transaction n Inode} {priv : AfrPrivate n} {pre : List ((Fin n × Inode) × Reply)}

theorem SameRequest.trans {t'' : Transaction n Inode} (h : SameRequest t t')
    (h' : SameRequest t' t'') :
    SameRequest t t'' where
  type := h'.type.trans h.type
  op := h'.op.trans h.op
  fd := h'.fd.trans h.fd
  loc := h'.loc.trans h.loc
  parentLoc := h'.parentLoc.trans h.parentLoc
  newParentLoc := h'.newParentLoc.trans h.newParentLoc
  fdCtx := h'.fdCtx.trans h.fdCtx
  lockedNodes := h'.lockedNodes.trans h.lockedNodes

theorem SameRequest.xattropInodes (h : SameRequest t t') : t'.xattropInodes = t.xattropInodes := by
  unfold Transaction.xattropInodes
  rw [h.type, h.fd, h.loc, h.parentLoc, h.newParentLoc]

theorem SameRequest.changelogNeededPostOp (h : SameRequest t t') (priv : AfrPrivate n) :
    changelogNeededPostOp priv t' = changelogNeededPostOp priv t := by
  unfold Transaction.changelogNeededPostOp
  rw [h.type, h.op]

section

variable (t : Transaction n Inode)

theorem afrChangelogPreOpCbk_pending (i : Fin n) (r : Reply) :
    (afrChangelogPreOpCbk t i r).pending = t.pending := by
  cases r <;> rfl

theorem afrChangelogPreOpCbk_sameRequest (i : Fin n) (r : Reply) :
    SameRequest t (afrChangelogPreOpCbk t i r) := by
  cases r <;> exact ⟨rfl, rfl, rfl, rfl, rfl, rfl, rfl, rfl⟩

theorem afrFopWindCbk_sameRequest (i : Fin n) (r : Reply) :
    SameRequest t (afrFopWindCbk t i r) := by
  cases r <;>
    simp only [afrFopWindCbk] <;>
    split_ifs <;>
    exact ⟨rfl, rfl, rfl, rfl, rfl, rfl, rfl, rfl⟩

theorem afrFopWindCbk_keeps (i : Fin n) (r : Reply) :
    (afrFopWindCbk t i r).pending = t.pending ∧ (afrFopWindCbk t i r).childUp = t.childUp := by
  cases r <;>
    simp only [afrFopWindCbk] <;>
    split_ifs <;> exact ⟨rfl, rfl⟩

end

/-- The children that are up and have not failed in the pre-op. -/
def survivesPreOp (childUp : Fin n → Bool) (pre : List ((Fin n × Inode) × Reply)) : Fin n → Bool :=
  fun i => childUp i && pre.all (fun r => r.1.1 != i || r.2 == .ok)

theorem gather_sameRequest {κ : Type} (cbk : Transaction n Inode → κ → Reply → Transaction n Inode)
    (hcbk : ∀ t k r, SameRequest t (cbk t k r)) (t : Transaction n Inode) (rs : List (κ × Reply)) :
    SameRequest t (gather cbk t rs) := by
  apply gather_invariant cbk (P := SameRequest t)
  · exact SameRequest.refl t
  · intro t' k r _ h
    exact h.trans (hcbk t' k r)

theorem xattropFanOut_eq_nil (h : t.xattropCallCount = 0) :
    xattropFanOut t.childUp t.xattropInodes = [] := by
  apply eq_nil_of_length_eq_zero
  rw [length_xattropFanOut, ← xattropCallCount_eq, h]

/-- A transaction that writes its changelog before and after its own fop. -/
structure Logged (priv : AfrPrivate n) (t : Transaction n Inode) : Prop where
  enabled : changelogEnabled priv t.type = true
  op : t.op = .other

theorem Logged.changelogNeededPreOp (h : Logged priv t) :
    changelogNeededPreOp priv t = (true, t) := by
  simp [Transaction.changelogNeededPreOp, h.enabled, h.op]

theorem Logged.changelogNeededPostOp (h : Logged priv t) (hsame : SameRequest t t') :
    changelogNeededPostOp priv t' = true := by
  rw [hsame.changelogNeededPostOp]
  simp [Transaction.changelogNeededPostOp, h.enabled, h.op]

theorem survivesPreOp_iff {childUp : Fin n → Bool} {i : Fin n} :
    survivesPreOp childUp pre i = true ↔
      childUp i = true ∧ ∀ inode r, ((i, inode), r) ∈ pre → r = .ok := by
  unfold survivesPreOp
  rw [Bool.and_eq_true, all_eq_true]
  constructor
  · rintro ⟨hup, hall⟩
    refine ⟨hup, ?_⟩
    intro inode r hr
    have h := hall _ hr
    simpa using h
  · rintro ⟨hup, hall⟩
    refine ⟨hup, ?_⟩
    rintro ⟨⟨i', inode⟩, r⟩ hr
    by_cases hi : i' = i
    · subst i'
      simp [hall inode r hr]
    · simp [hi]

theorem exists_mem_xattropInodes (t : Transaction n Inode) : ∃ inode, inode ∈ t.xattropInodes := by
  unfold xattropInodes
  cases t.type <;> exact ⟨_, mem_cons_self⟩

theorem length_xattropInodes_le (t : Transaction n Inode) : t.xattropInodes.length ≤ 2 := by
  unfold xattropInodes
  cases t.type <;> simp

section

variable [DecidableEq Inode]

theorem count_xattropFanOut (childUp : Fin n → Bool) (inodes : List Inode) (s : Fin n)
    (inode : Inode) :
    (xattropFanOut childUp inodes).count (s, inode) =
      if childUp s then inodes.count inode else 0 := by
  have hone : ∀ i : Fin n, (inodes.map (fun x => (i, x))).count (s, inode) =
        if i = s then inodes.count inode else 0 := by
    intro i
    by_cases hi : i = s
    · subst i
      rw [if_pos rfl]
      exact count_map_of_injective inodes (fun x => (s, x))
        (fun a b hab => (Prod.mk.inj hab).2) inode
    · rw [if_neg hi]
      apply count_eq_zero.mpr
      intro hmem
      obtain ⟨x, _, hx⟩ := mem_map.mp hmem
      exact hi (Prod.mk.inj hx).1
  have hsum : ∀ is : List (Fin n),
      (is.flatMap (fun i => inodes.map (fun x => (i, x)))).count (s, inode) =
        is.count s * inodes.count inode := by
    intro is
    induction is with
    | nil => simp
    | cons i is ih =>
      rw [flatMap_cons, count_append, hone, ih, count_cons]
      by_cases hi : i = s
      · subst i
        simp
        ring
      · simp [hi]
  unfold xattropFanOut
  rw [hsum, (upChildren_nodup childUp).count]
  by_cases hs : childUp s = true <;> simp

/-- Each success of a child on an inode adds the array once. -/
theorem gather_xattrop_pending (cbk : Transaction n Inode → Fin n → Reply → Transaction n Inode)
    (hcbk : ∀ t i r, (cbk t i r).pending = t.pending) (delta : Fin n → Counter)
    (t : Transaction n Inode) (rs : List ((Fin n × Inode) × Reply)) (inode : Inode) (s j : Fin n) :
    (gather (xattropReply cbk delta) t rs).pending inode s j =
      t.pending inode s j + rs.count ((s, inode), .ok) • delta j := by
  have hadd := gather_add (xattropReply cbk delta) (fun t => t.pending inode s j)
      (fun call r => if (call, r) = ((s, inode), Reply.ok) then delta j else 0)
      t rs
      (by
        rintro t ⟨i, x⟩ r _
        cases r with
        | ok =>
          simp only [xattropReply, hcbk, addArray]
          by_cases hx : inode = x ∧ s = i
          · obtain ⟨rfl, rfl⟩ := hx
            simp
          · rw [if_neg hx, if_neg, add_zero]
            intro heq
            simp only [Prod.mk.injEq, and_true] at heq
            exact hx ⟨heq.2.symm, heq.1.symm⟩
        | err opErrno => simp [xattropReply, hcbk])
  rw [hadd]
  congr 1
  have hsum := sum_map_ite_eq rs (fun _ => delta j) (fun _ => 0) ((s, inode), Reply.ok)
  rw [lawful_beq_subsingleton instBEqOfDecidableEq instBEqProd] at hsum
  simpa using hsum

theorem xattropReply_preOp_childUp (delta : Fin n → Counter) (t : Transaction n Inode)
    (call : Fin n × Inode) (r : Reply) (i : Fin n) :
    (xattropReply afrChangelogPreOpCbk delta t call r).childUp i =
      (t.childUp i && (call.1 != i || r == .ok)) := by
  cases r with
  | ok => simp [xattropReply, afrChangelogPreOpCbk]
  | err opErrno =>
    simp only [xattropReply, afrChangelogPreOpCbk]
    by_cases hi : i = call.1
    · subst i
      simp
    · rw [Function.update_of_ne hi]
      simp [Ne.symm hi]

theorem xattropReply_sameRequest (cbk : Transaction n Inode → Fin n → Reply → Transaction n Inode)
    (hcbk : ∀ t i r, SameRequest t (cbk t i r)) (delta : Fin n → Counter)
    (t : Transaction n Inode) (call : Fin n × Inode) (r : Reply) :
    SameRequest t (xattropReply cbk delta t call r) := by
  cases r with
  | ok =>
    have h := hcbk
      { t with pending := addArray t.pending call.2 call.1 delta }
      call.1 .ok
    exact { h with }
  | err opErrno => exact hcbk t call.1 (.err opErrno)

variable {fin : Transaction n Inode} {sc : Script n Inode}

/-- The post-op takes one off for each child that is up. -/
theorem afrChangelogPostOp_spec (h : afrChangelogPostOp t sc = some fin) :
    Answers sc.post (xattropFanOut t.childUp t.xattropInodes) ∧
    SameRequest t fin ∧
    ∀ inode s j, fin.pending inode s j = t.pending inode s j + sc.post.count ((s, inode), .ok) •
            (if t.childUp j then (-1 : Counter) else 0) := by
  unfold afrChangelogPostOp at h
  simp only at h
  split_ifs at h with hzero hnil hans
  · cases h
    refine ⟨?_, ⟨rfl, rfl, rfl, rfl, rfl, rfl, rfl, rfl⟩, ?_⟩
    · rw [xattropFanOut_eq_nil hzero, hnil]
      exact List.Perm.refl _
    · intro inode s j
      simp [hnil]
  · rw [xattropCalls_eq _ rfl] at hans
    cases h
    refine ⟨hans, ?_, ?_⟩
    · have hsame := gather_sameRequest (xattropReply afrChangelogPostOpCbk
            (markDownChildren markAllSuccess t.childUp))
          (xattropReply_sameRequest afrChangelogPostOpCbk
            (fun t i r => ⟨rfl, rfl, rfl, rfl, rfl, rfl, rfl, rfl⟩) _)
          { t with
            pendingArray := markDownChildren markAllSuccess t.childUp
            callCount := t.xattropCallCount }
          sc.post
      exact { hsame with }
    · intro inode s j
      rw [gather_xattrop_pending afrChangelogPostOpCbk (fun t i r => rfl)]
      rfl

/-- The fop changes no counter. -/
theorem afrFopWind_spec (h : afrFopWind priv t sc = some fin) :
    Answers sc.fop (upChildren t.childUp) ∧
    ∃ t' : Transaction n Inode, SameRequest t t' ∧ t'.pending = t.pending ∧ t'.childUp = t.childUp ∧
      afrTransactionResume priv t' sc = some fin := by
  unfold afrFopWind at h
  simp only at h
  split_ifs at h with hzero hnil hans
  · refine ⟨?_, t, SameRequest.refl t, rfl, rfl, h⟩
    rw [← length_upChildren] at hzero
    rw [eq_nil_of_length_eq_zero hzero, hnil]
    exact List.Perm.refl _
  · rw [fopCalls_eq _ rfl] at hans
    refine ⟨hans, _, ?_, ?_, ?_, h⟩
    · have hsame := gather_sameRequest afrFopWindCbk afrFopWindCbk_sameRequest
          { t with callCount := afrUpChildrenCount t.childUp } sc.fop
      exact { hsame with }
    · exact gather_frame afrFopWindCbk pending _ _
        (fun t i r _ => (afrFopWindCbk_keeps t i r).1)
    · exact gather_frame afrFopWindCbk childUp _ _
        (fun t i r _ => (afrFopWindCbk_keeps t i r).2)

section

variable (t : Transaction n Inode)

theorem preOpAnswered_sameRequest (pre : List ((Fin n × Inode) × Reply)) :
    SameRequest t (t.preOpAnswered pre) := by
  have hwnd : SameRequest t t.preOpWound := ⟨rfl, rfl, rfl, rfl, rfl, rfl, rfl, rfl⟩
  apply hwnd.trans
  apply gather_sameRequest
  exact xattropReply_sameRequest afrChangelogPreOpCbk afrChangelogPreOpCbk_sameRequest _

theorem preOpAnswered_childUp (pre : List ((Fin n × Inode) × Reply)) :
    (t.preOpAnswered pre).childUp = survivesPreOp t.childUp pre := by
  funext i
  exact gather_and (xattropReply afrChangelogPreOpCbk t.preOpWound.pendingArray)
    (fun t => t.childUp i)
    (fun call r => call.1 != i || r == .ok)
    t.preOpWound pre
    (fun t call r _ => xattropReply_preOp_childUp _ t call r i)

theorem preOpAnswered_pending (pre : List ((Fin n × Inode) × Reply)) (inode : Inode) (s j : Fin n) :
    (t.preOpAnswered pre).pending inode s j = t.pending inode s j +
        pre.count ((s, inode), .ok) • (1 : Counter) := by
  exact gather_xattrop_pending afrChangelogPreOpCbk
    afrChangelogPreOpCbk_pending _ t.preOpWound pre inode s j

theorem preOpAnswered_opErrno (hok : ∀ r ∈ pre, r.2 = .ok) :
    (t.preOpAnswered pre).opErrno = t.opErrno := by
  refine gather_frame _ opErrno t.preOpWound pre ?_
  intro t call r hr
  have hr' : r = .ok := hok _ hr
  subst r
  rfl

end

theorem afrChangelogPreOp_cases (h : afrChangelogPreOp priv t sc = some fin) :
    Answers sc.pre (xattropFanOut t.childUp t.xattropInodes) ∧
    ((t.xattropCallCount = 0 ∧ sc.fop = [] ∧ sc.post = [] ∧ fin = t) ∨
      ((t.preOpAnswered sc.pre).opErrno = some .ENOTSUP ∧ sc.fop = [] ∧
        afrTransactionResume priv (t.preOpAnswered sc.pre) sc = some fin) ∨
      afrFopWind priv (t.preOpAnswered sc.pre) sc = some fin) := by
  unfold afrChangelogPreOp at h
  simp only at h
  split_ifs at h with hzero hnil hans habort hfop
  · obtain ⟨hpre, hfop, hpost⟩ := hnil
    cases h
    refine ⟨?_, .inl ⟨hzero, hfop, hpost, rfl⟩⟩
    rw [xattropFanOut_eq_nil hzero, hpre]
    exact List.Perm.refl _
  · rw [xattropCalls_eq _ rfl] at hans
    exact ⟨hans, .inr (.inl ⟨habort.2, hfop, h⟩)⟩
  · rw [xattropCalls_eq _ rfl] at hans
    exact ⟨hans, .inr (.inr h)⟩

/-- What a logged transaction does to the counters, step by step. -/
structure Accounts (t fin : Transaction n Inode) (sc : Script n Inode) : Prop where
  pre : Answers sc.pre (xattropFanOut t.childUp t.xattropInodes)
  fop : Answers sc.fop (upChildren (survivesPreOp t.childUp sc.pre)) ∨ sc.fop = []
  post : Answers sc.post (xattropFanOut (survivesPreOp t.childUp sc.pre) t.xattropInodes)
  pending : ∀ inode s j,
    fin.pending inode s j =
      t.pending inode s j +
        sc.pre.count ((s, inode), .ok) • (1 : Counter) +
        sc.post.count ((s, inode), .ok) •
          (if survivesPreOp t.childUp sc.pre j then (-1 : Counter) else 0)
  request : SameRequest t fin

theorem accounts_of_resume (hlog : Logged priv t)
    (hpre : Answers sc.pre (xattropFanOut t.childUp t.xattropInodes))
    (hfop : Answers sc.fop (upChildren (survivesPreOp t.childUp sc.pre)) ∨ sc.fop = [])
    (hsame : SameRequest (t.preOpAnswered sc.pre) t')
    (hpend : t'.pending = (t.preOpAnswered sc.pre).pending)
    (hup : t'.childUp = (t.preOpAnswered sc.pre).childUp)
    (h : afrTransactionResume priv t' sc = some fin) : Accounts t fin sc := by
  have hsame' : SameRequest t t' := (preOpAnswered_sameRequest t sc.pre).trans hsame
  unfold afrTransactionResume at h
  rw [if_pos (hlog.changelogNeededPostOp hsame')] at h
  obtain ⟨hpost, hfin, hcnt⟩ := afrChangelogPostOp_spec h
  rw [hup, preOpAnswered_childUp, hsame'.xattropInodes] at hpost
  refine ⟨hpre, hfop, hpost, ?_, hsame'.trans hfin⟩
  intro inode s j
  rw [hcnt, hpend, hup, preOpAnswered_childUp, preOpAnswered_pending]

theorem accounts_of_run (hlog : Logged priv t) (h : afrTransaction priv t sc = some fin) :
    Accounts t fin sc := by
  unfold afrTransaction at h
  rw [hlog.changelogNeededPreOp] at h
  obtain ⟨hpre, hdown | ⟨_, hfop, hres⟩ | hwind⟩ := afrChangelogPreOp_cases h
  · obtain ⟨hzero, hfop, hpost, rfl⟩ := hdown
    have hnil := xattropFanOut_eq_nil hzero
    have hpre' : sc.pre = [] := by
      have hlen := hpre.length_eq
      rw [hnil] at hlen
      exact eq_nil_of_length_eq_zero hlen
    have hup : survivesPreOp fin.childUp sc.pre = fin.childUp := by
      funext i
      simp [survivesPreOp, hpre']
    refine ⟨hpre, .inr hfop, ?_, ?_, SameRequest.refl fin⟩
    · rw [hup, hnil, hpost]
      exact List.Perm.refl _
    · intro inode s j
      simp [hpre', hpost]
  · exact accounts_of_resume hlog hpre (.inr hfop) (SameRequest.refl _) rfl rfl hres
  · obtain ⟨hfop, t', hsame, hpend, hup, hres⟩ := afrFopWind_spec hwind
    rw [preOpAnswered_childUp] at hfop
    exact accounts_of_resume hlog hpre (.inl hfop) hsame hpend hup hres

/-- On a child that never failed the fop stays held against those that the pre-op lost. -/
theorem Accounts.net (hacc : Accounts t fin sc) {s : Fin n} (hup : t.childUp s = true)
    (hpreOk : ∀ inode r, ((s, inode), r) ∈ sc.pre → r = .ok)
    (hpostOk : ∀ inode r, ((s, inode), r) ∈ sc.post → r = .ok) (inode : Inode) (j : Fin n) :
    fin.pending inode s j = t.pending inode s j +
        if survivesPreOp t.childUp sc.pre j then 0
        else (t.xattropInodes.count inode : Counter) := by
  have hsurv : survivesPreOp t.childUp sc.pre s = true := survivesPreOp_iff.mpr ⟨hup, hpreOk⟩
  have hpre : sc.pre.count ((s, inode), .ok) = t.xattropInodes.count inode := by
    rw [count_reply_eq_count_key _ _ _ (hpreOk inode),
      List.Perm.count_eq hacc.pre, count_xattropFanOut, if_pos hup]
  have hpost : sc.post.count ((s, inode), .ok) = t.xattropInodes.count inode := by
    rw [count_reply_eq_count_key _ _ _ (hpostOk inode),
      List.Perm.count_eq hacc.post, count_xattropFanOut, if_pos hsurv]
  rw [hacc.pending, hpre, hpost]
  split_ifs
  · simp only [nsmul_eq_mul]
    ring
  · simp only [nsmul_eq_mul]
    ring

section

variable (hpost : changelogNeededPostOp priv t = false)
include hpost

theorem afrTransactionResume_of_not_needed (h : afrTransactionResume priv t sc = some fin) :
    fin = t := by
  unfold afrTransactionResume at h
  rw [hpost, if_neg Bool.false_ne_true] at h
  split_ifs at h
  exact (Option.some.inj h).symm

theorem afrFopWind_of_not_needed (h : afrFopWind priv t sc = some fin) :
    fin.fdCtx = t.fdCtx ∧ fin.pending = t.pending := by
  obtain ⟨_, t', hsame, hpend, _, hres⟩ := afrFopWind_spec h
  have hpost' : changelogNeededPostOp priv t' = false := by rw [hsame.changelogNeededPostOp, hpost]
  rw [afrTransactionResume_of_not_needed hpost' hres]
  exact ⟨hsame.fdCtx, hpend⟩

theorem afrChangelogPreOp_of_not_needed (h : afrChangelogPreOp priv t sc = some fin) :
    Answers sc.pre (xattropFanOut t.childUp t.xattropInodes) ∧
    fin.fdCtx = t.fdCtx ∧
    ∀ inode s j, fin.pending inode s j = t.pending inode s j +
          sc.pre.count ((s, inode), .ok) • (1 : Counter) := by
  obtain ⟨hpre, hdown | ⟨_, _, hres⟩ | hwind⟩ := afrChangelogPreOp_cases h
  · obtain ⟨hzero, _, _, rfl⟩ := hdown
    refine ⟨hpre, rfl, ?_⟩
    intro inode s j
    have hlen := hpre.length_eq
    rw [xattropFanOut_eq_nil hzero] at hlen
    simp [eq_nil_of_length_eq_zero hlen]
  · have hsame := preOpAnswered_sameRequest t sc.pre
    have hpost' : changelogNeededPostOp priv (t.preOpAnswered sc.pre) = false := by
      rw [hsame.changelogNeededPostOp, hpost]
    rw [afrTransactionResume_of_not_needed hpost' hres]
    exact ⟨hpre, hsame.fdCtx, preOpAnswered_pending t sc.pre⟩
  · have hsame := preOpAnswered_sameRequest t sc.pre
    have hpost' : changelogNeededPostOp priv (t.preOpAnswered sc.pre) = false := by
      rw [hsame.changelogNeededPostOp, hpost]
    obtain ⟨hctx, hpend⟩ := afrFopWind_of_not_needed hpost' hwind
    rw [hctx, hpend]
    exact ⟨hpre, hsame.fdCtx, preOpAnswered_pending t sc.pre⟩

end

theorem afrTransactionResume_sameRequest (h : afrTransactionResume priv t sc = some fin) :
    SameRequest t fin := by
  unfold afrTransactionResume at h
  split_ifs at h
  · obtain ⟨_, hsame, _⟩ := afrChangelogPostOp_spec h
    exact hsame
  · cases h
    exact SameRequest.refl t

theorem afrFopWind_sameRequest (h : afrFopWind priv t sc = some fin) : SameRequest t fin := by
  obtain ⟨_, t', hsame, _, _, hres⟩ := afrFopWind_spec h
  exact hsame.trans (afrTransactionResume_sameRequest hres)

theorem afrChangelogPreOp_sameRequest (h : afrChangelogPreOp priv t sc = some fin) :
    SameRequest t fin := by
  have hpre := preOpAnswered_sameRequest t sc.pre
  obtain ⟨_, ⟨_, _, _, rfl⟩ | ⟨_, _, hres⟩ | hwind⟩ := afrChangelogPreOp_cases h
  · exact SameRequest.refl fin
  · exact hpre.trans (afrTransactionResume_sameRequest hres)
  · exact hpre.trans (afrFopWind_sameRequest hwind)

theorem afrTransaction_lockedNodes (h : afrTransaction priv t sc = some fin) :
    fin.lockedNodes = t.lockedNodes := by
  have hmark : (changelogNeededPreOp priv t).2.lockedNodes = t.lockedNodes := by
    unfold changelogNeededPreOp isFirstWriteOnFd
    split_ifs
    · cases t.op <;> rfl
    · cases t.op <;> rfl
    · cases t.op <;> rfl
    · rfl
  unfold afrTransaction at h
  cases hneed : changelogNeededPreOp priv t with
  | mk needed t' =>
    rw [hneed] at h hmark
    cases needed with
    | true => exact (afrChangelogPreOp_sameRequest h).lockedNodes.trans hmark
    | false =>
      split_ifs at h
      exact (afrFopWind_sameRequest h).lockedNodes.trans hmark

end

end GlusterFS.Afr.Transaction
