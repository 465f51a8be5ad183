import Mathlib.Tactic.FinCases
import GlusterFS.Lib.Run
import GlusterFS.Afr.SelfHealCommon
import GlusterFS.Afr.TransactionCounters

/-!
# AFR: the changelog finds the good copies

Transactions run one after another, each on the children that are up for it,
and then self-heal looks at the changelogs to tell which copies are complete.
Entry `j` of the array on child `s` counts what `j` has missed while `s` was up,
as a 32-bit number, and self-heal takes a child for a source when no other
child counts anything for it.
-/

namespace GlusterFS.Afr

open FanOut Run List Transaction

section

variable {n : Nat} {Inode : Type} [DecidableEq Inode]

/-- A transaction with its own changelog, the children it finds up, the replies. -/
structure LoggedEvent (n : Nat) (Inode : Type) where
  type : AfrTransactionType
  fop : FopFamily
  fd : Option Inode
  loc : Inode
  parentLoc : Inode
  newParentLoc : Inode
  childUp : Fin n → Bool
  script : Script n Inode

def LoggedEvent.frame (ev : LoggedEvent n Inode)
    (pending : Inode → Fin n → Fin n → Counter) : Transaction n Inode :=
  .afrLocalInit ev.type .other ev.fop ev.fd ev.loc ev.parentLoc
    ev.newParentLoc ev.childUp false pending

def loggedStep (priv : AfrPrivate n) (pending : Inode → Fin n → Fin n → Counter)
    (ev : LoggedEvent n Inode) : Option (Inode → Fin n → Fin n → Counter) :=
  (Transaction.afrTransaction priv (ev.frame pending) ev.script).map Transaction.pending

def LoggedEvent.inodes (ev : LoggedEvent n Inode) : List Inode :=
  (ev.frame (fun _ _ _ => 0)).xattropInodes

/--
A transaction on the inode that some child is up for, and that every child
which is up serves to the end.
-/
structure LoggedEvent.Served (priv : AfrPrivate n) (inode : Inode) (ev : LoggedEvent n Inode) :
    Prop where
  enabled : Transaction.changelogEnabled priv ev.type = true
  touches : inode ∈ ev.inodes
  up : ∃ i, ev.childUp i = true
  pre : ∀ r ∈ ev.script.pre, r.2 = .ok
  fop : ∀ r ∈ ev.script.fop, r.2 = .ok
  post : ∀ r ∈ ev.script.post, r.2 = .ok

def missedCount (inode : Inode) (evs : List (LoggedEvent n Inode)) (s j : Fin n) : Nat :=
  (evs.map (fun ev =>
    if ev.childUp s && !ev.childUp j then ev.inodes.count inode else 0)).sum

def LoggedEvent.AppliedBy (ev : LoggedEvent n Inode) (i : Fin n) : Prop :=
  (i, Reply.ok) ∈ ev.script.fop

theorem missedCount_concat (inode : Inode) (evs : List (LoggedEvent n Inode))
    (ev : LoggedEvent n Inode) (s j : Fin n) :
    missedCount inode (evs ++ [ev]) s j = missedCount inode evs s j +
        if ev.childUp s && !ev.childUp j then ev.inodes.count inode else 0 := by
  simp [missedCount]

end

section

variable {n : Nat} {Inode : Type}
variable {priv : AfrPrivate n} {inode : Inode} {ev : LoggedEvent n Inode}

variable (h : ev.Served priv inode)
include h

theorem LoggedEvent.Served.logged (pending : Inode → Fin n → Fin n → Counter) :
    Logged priv (ev.frame pending) :=
  ⟨h.enabled, rfl⟩

theorem LoggedEvent.Served.survivesPreOp :
    Transaction.survivesPreOp ev.childUp ev.script.pre = ev.childUp := by
  funext i
  cases hup : ev.childUp i with
  | false => simp [Transaction.survivesPreOp, hup]
  | true =>
    rw [Transaction.survivesPreOp_iff]
    exact ⟨hup, fun inode r hr => h.pre _ hr⟩

variable [DecidableEq Inode]
variable {pending pending' : Inode → Fin n → Fin n → Counter}

theorem loggedStep_pending (hstep : loggedStep priv pending ev = some pending') (s j : Fin n) :
    pending' inode s j = pending inode s j +
        ((if ev.childUp s && !ev.childUp j then ev.inodes.count inode else 0 : Nat) : Counter) := by
  obtain ⟨fin, hrun, rfl⟩ := Option.map_eq_some_iff.mp hstep
  have hacc := accounts_of_run (h.logged pending) hrun
  cases hs : ev.childUp s with
  | true =>
    have hnet := hacc.net (s := s) hs
      (fun inode r hr => h.pre _ hr) (fun inode r hr => h.post _ hr) inode j
    rw [hnet]
    change pending inode s j +
      (if survivesPreOp ev.childUp ev.script.pre j = true then 0
        else (ev.inodes.count inode : Counter)) = _
    rw [h.survivesPreOp]
    cases ev.childUp j <;> simp
  | false =>
    have hzero : ∀ rs : List ((Fin n × Inode) × Reply), ∀ inodes,
        Answers rs (xattropFanOut ev.childUp inodes) → rs.count ((s, inode), .ok) = 0 := by
      intro rs inodes hans
      apply count_eq_zero.mpr
      intro hmem
      have hcnt := count_xattropFanOut ev.childUp inodes s inode
      rw [hs] at hcnt
      exact count_eq_zero.mp hcnt (hans.key_mem hmem)
    have hpost := hacc.post
    change Answers _ (xattropFanOut
      (survivesPreOp ev.childUp ev.script.pre) _) at hpost
    rw [h.survivesPreOp] at hpost
    rw [hacc.pending, hzero _ _ hacc.pre, hzero _ _ hpost]
    simp [LoggedEvent.frame, afrLocalInit]

theorem loggedStep_appliedBy_iff (hstep : loggedStep priv pending ev = some pending') (i : Fin n) :
    ev.AppliedBy i ↔ ev.childUp i = true := by
  obtain ⟨fin, hrun, rfl⟩ := Option.map_eq_some_iff.mp hstep
  have hfop : Answers ev.script.fop (upChildren ev.childUp) := by
    unfold afrTransaction at hrun
    rw [(h.logged pending).changelogNeededPreOp] at hrun
    obtain ⟨_, ⟨hzero, _⟩ | ⟨habort, _⟩ | hwind⟩ := afrChangelogPreOp_cases hrun
    · obtain ⟨i, hi⟩ := h.up
      have hnil := xattropFanOut_eq_nil hzero
      have hcnt := count_xattropFanOut ev.childUp
        (ev.frame pending).xattropInodes i inode
      change xattropFanOut ev.childUp _ = [] at hnil
      rw [hnil, if_pos hi] at hcnt
      have htouch : 0 < (ev.frame pending).xattropInodes.count inode :=
        count_pos_iff.mpr h.touches
      rw [count_nil] at hcnt
      omega
    · rw [preOpAnswered_opErrno _ h.pre] at habort
      cases habort
    · obtain ⟨hans, _⟩ := afrFopWind_spec hwind
      rw [preOpAnswered_childUp] at hans
      change Answers _ (upChildren (survivesPreOp ev.childUp ev.script.pre)) at hans
      rwa [h.survivesPreOp] at hans
  constructor
  · intro happ
    exact mem_upChildren.mp (hfop.key_mem happ)
  · intro hup
    obtain ⟨r, hr⟩ := hfop.exists_reply (mem_upChildren.mpr hup)
    have hok : r = .ok := h.fop _ hr
    rw [hok] at hr
    exact hr

end

section

variable {n : Nat} {Inode : Type} [DecidableEq Inode]
variable {pending' : Inode → Fin n → Fin n → Counter} {evs : List (LoggedEvent n Inode)}

variable {priv : AfrPrivate n} {inode : Inode}

theorem run_loggedStep_pending (hsrv : ∀ ev ∈ evs, ev.Served priv inode)
    (hrun : run (loggedStep priv) (fun _ _ _ => 0) evs = some pending') (s j : Fin n) :
    pending' inode s j = (missedCount inode evs s j : Counter) := by
  revert hsrv
  refine run_history (loggedStep priv) ?_ ?_ hrun
  · intro _
    rfl
  · intro evs ev pending pending' ih hstep hsrv
    have hbef := ih (fun ev' hev' => hsrv ev' (by simp [hev']))
    rw [loggedStep_pending (hsrv ev (by simp)) hstep, hbef, missedCount_concat, Nat.cast_add]

theorem run_loggedStep_appliedBy_iff (hsrv : ∀ ev ∈ evs, ev.Served priv inode)
    (hrun : run (loggedStep priv) (fun _ _ _ => 0) evs = some pending') (i : Fin n) :
    ∀ ev ∈ evs, ev.AppliedBy i ↔ ev.childUp i = true := by
  revert hsrv
  refine run_history (loggedStep priv) ?_ ?_ hrun
  · intro _ ev hev
    cases hev
  · intro evs ev pending pending' ih hstep hsrv ev' hev'
    rcases mem_append.mp hev' with hold | hnew
    · exact ih (fun ev'' hev'' => hsrv ev'' (by simp [hev''])) ev' hold
    · rw [mem_singleton] at hnew
      subst hnew
      exact loggedStep_appliedBy_iff (hsrv ev' (by simp)) hstep i

/-- The purpose of the marks: a source is complete, and a complete copy is found. -/
structure SourcesSound (evs : List (LoggedEvent n Inode)) (sources : Fin n → Bool) : Prop where
  complete : ∀ i, sources i = true → ∀ ev ∈ evs, ev.AppliedBy i
  found : (∃ i, ∀ ev ∈ evs, ev.AppliedBy i) → ∃ i, sources i = true

theorem missedCount_of_up (inode : Inode) {i : Fin n}
    (hup : ∀ ev ∈ evs, ev.childUp i = true) (j : Fin n) : missedCount inode evs j i = 0 := by
  apply sum_eq_zero
  intro c hc
  obtain ⟨ev, hev, rfl⟩ := mem_map.mp hc
  simp [hup ev hev]

/--
**Source soundness.**  Self-heal marks complete copies only, and one if there is
any, exactly when for each child that missed a transaction some other child has
a count for it that is not a multiple of 2³².
-/
theorem sourcesSound_iff (priv : AfrPrivate n) (inode : Inode) (key : PendingKey)
    (evs : List (LoggedEvent n Inode))
    (pending' : Inode → Fin n → Fin n → Counter)
    (xattr : Fin n → Option (Xattr n))
    (hserved : ∀ ev ∈ evs, ev.Served priv inode)
    (hrun : run (loggedStep priv) (fun _ _ _ => 0) evs = some pending')
    (hxattr : Reports key xattr (pending' inode)) :
    SourcesSound evs (afrShMarkSources (afrShBuildPendingMatrix key xattr)) ↔
      ∀ i, (∃ ev ∈ evs, ev.childUp i = false) →
        ∃ j, j ≠ i ∧ ¬ 2 ^ 32 ∣ missedCount inode evs j i := by
  have happlied := run_loggedStep_appliedBy_iff hserved hrun
  have hzero : ∀ j i, pending' inode j i = 0 ↔ 2 ^ 32 ∣ missedCount inode evs j i := by
    intro j i
    rw [run_loggedStep_pending hserved hrun, BitVec.natCast_eq_ofNat,
      ← BitVec.toNat_inj, BitVec.toNat_ofNat, Nat.dvd_iff_mod_eq_zero]
    rfl
  have hmark : ∀ i, afrShMarkSources (afrShBuildPendingMatrix key xattr) i = true ↔
        ∀ j, j ≠ i → 2 ^ 32 ∣ missedCount inode evs j i := by
    intro i
    rw [hxattr.pendingMatrix, afrShMarkSources_iff]
    constructor
    · intro h j hj
      exact (hzero j i).mp (h j hj)
    · intro h j hj
      exact (hzero j i).mpr (h j hj)
  constructor
  · rintro hsnd i ⟨ev, hev, hdown⟩
    by_contra hcon
    push Not at hcon
    have happ := hsnd.complete i ((hmark i).mpr hcon) ev hev
    simp [happlied i ev hev, hdown] at happ
  · intro hcond
    refine ⟨?_, ?_⟩
    · intro i hi ev hev
      rw [happlied i ev hev]
      by_contra hdown
      obtain ⟨j, hj, hcnt⟩ := hcond i ⟨ev, hev, by simpa using hdown⟩
      exact hcnt ((hmark i).mp hi j hj)
    · rintro ⟨i, hi⟩
      refine ⟨i, (hmark i).mpr ?_⟩
      intro j _
      rw [missedCount_of_up inode (fun ev hev => (happlied i ev hev).mp (hi ev hev)) j]
      exact Nat.dvd_zero _

def mkdirWithoutSecond : LoggedEvent 2 Unit where
  type := .entry
  fop := .reporting
  fd := none
  loc := ()
  parentLoc := ()
  newParentLoc := ()
  childUp := fun i => i = firstChild
  script := ⟨[((firstChild, ()), .ok)], [(firstChild, .ok)], [((firstChild, ()), .ok)]⟩

theorem mkdirWithoutSecond_served :
    mkdirWithoutSecond.Served (AfrPrivate.default 2) () where
  enabled := rfl
  touches := by decide
  up := ⟨0, rfl⟩
  pre := by simp [mkdirWithoutSecond]
  fop := by simp [mkdirWithoutSecond]
  post := by simp [mkdirWithoutSecond]

theorem exists_run_mkdirWithoutSecond (k : Nat) (pending : Unit → Fin 2 → Fin 2 → Counter) :
    ∃ pending', run (loggedStep (AfrPrivate.default 2)) pending
        (replicate k mkdirWithoutSecond) = some pending' := by
  induction k generalizing pending with
  | zero => exact ⟨pending, rfl⟩
  | succ k ih =>
    have hstep : ∃ m, loggedStep (AfrPrivate.default 2) pending
        mkdirWithoutSecond = some m := ⟨_, rfl⟩
    obtain ⟨m, hm⟩ := hstep
    obtain ⟨pending', hpend'⟩ := ih m
    refine ⟨pending', ?_⟩
    rw [replicate_succ, run_cons, hm]
    exact hpend'

def fullXattr {n : Nat} (rows : Fin n → Fin n → Counter) : Fin n → Option (Xattr n) :=
  fun i => some (fun _ => some (rows i))

theorem fullXattr_reports (key : PendingKey) (rows : Fin n → Fin n → Counter) :
    Reports key (fullXattr rows) rows := by
  intro i
  exact ⟨_, rfl, .inl rfl⟩

theorem missedCount_mkdirWithoutSecond (k : Nat) :
    missedCount () (replicate k mkdirWithoutSecond) 0 1 = k := by
  unfold missedCount
  simp [mkdirWithoutSecond, LoggedEvent.inodes, LoggedEvent.frame, afrLocalInit, xattropInodes]

theorem sourcesSound_one_missed :
    ∃ pending', run (loggedStep (AfrPrivate.default 2)) (fun _ _ _ => 0)
        [mkdirWithoutSecond] = some pending' ∧
      SourcesSound [mkdirWithoutSecond] (afrShMarkSources
          (afrShBuildPendingMatrix .entryPending (fullXattr (pending' ())))) := by
  refine ⟨_, rfl, ?_⟩
  refine (sourcesSound_iff (AfrPrivate.default 2) () .entryPending
    [mkdirWithoutSecond] _ (fullXattr _) ?_ rfl
    (fullXattr_reports _ _)).mpr ?_
  · simp [mkdirWithoutSecond_served]
  · rintro i ⟨ev, hev, hdown⟩
    rw [mem_singleton] at hev
    subst hev
    have hi : i = 1 := by
      revert hdown
      fin_cases i <;> simp [mkdirWithoutSecond]
    subst hi
    exact ⟨0, by decide, by decide⟩

theorem not_sourcesSound_wrapped :
    ∃ pending', run (loggedStep (AfrPrivate.default 2)) (fun _ _ _ => 0)
        (replicate (2 ^ 32) mkdirWithoutSecond) = some pending' ∧
      (∀ ev ∈ replicate (2 ^ 32) mkdirWithoutSecond, ev.Served (AfrPrivate.default 2) ()) ∧
      Reports .entryPending (fullXattr (pending' ())) (pending' ()) ∧
      ¬ SourcesSound (replicate (2 ^ 32) mkdirWithoutSecond) (afrShMarkSources
          (afrShBuildPendingMatrix .entryPending (fullXattr (pending' ())))) := by
  have hsrv : ∀ ev ∈ replicate (2 ^ 32) mkdirWithoutSecond,
      ev.Served (AfrPrivate.default 2) () := by
    intro ev hev
    rw [eq_of_mem_replicate hev]
    exact mkdirWithoutSecond_served
  obtain ⟨pending', hrun⟩ := exists_run_mkdirWithoutSecond (2 ^ 32) (fun _ _ _ => 0)
  have hrpt := fullXattr_reports .entryPending (pending' ())
  refine ⟨pending', hrun, hsrv, hrpt, ?_⟩
  intro hsnd
  have hmark : afrShMarkSources
      (afrShBuildPendingMatrix .entryPending (fullXattr (pending' ()))) 1 =
        true := by
    rw [hrpt.pendingMatrix, afrShMarkSources_iff]
    intro j hj
    have hj0 : j = 0 := by omega
    subst hj0
    rw [run_loggedStep_pending hsrv hrun, missedCount_mkdirWithoutSecond]
    rfl
  have hmem : mkdirWithoutSecond ∈ replicate (2 ^ 32) mkdirWithoutSecond :=
    mem_replicate.mpr ⟨by decide, rfl⟩
  have happ := hsnd.complete 1 hmark mkdirWithoutSecond hmem
  simp [LoggedEvent.AppliedBy, mkdirWithoutSecond] at happ

end

end GlusterFS.Afr
