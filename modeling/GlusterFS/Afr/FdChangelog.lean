import Mathlib.Data.List.TakeWhile
import Mathlib.Tactic.FinCases
import Mathlib.Tactic.IntervalCases
import GlusterFS.Lib.Run
import GlusterFS.Afr.TransactionCounters

/-!
# AFR: the data changelog of an open file

Writes do not pay for a changelog update each.  The first `writev` or
`ftruncate` on an fd runs the pre-op and leaves a mark in the fd's context, the
later ones go straight to the children, and `flush` runs the post-op for all of
them.  Each of the calls has its own copy of `child_up`.

The module follows the calls on one fd: first the balance of the counters when
every child is up all the time, then what the counters say about the writes that
a child has missed.
-/

namespace GlusterFS.Afr

open FanOut Run List Transaction

variable {n : Nat}

/-- An open file: the context of its fd, and its data changelog on each child. -/
structure FdFile (n : Nat) where
  fdCtx : Bool
  pending : Fin n → Fin n → Counter

/-- The calls on an fd that the changelog of its data depends on. -/
inductive FdCall where
  | writev
  | ftruncate
  | flush
deriving DecidableEq

/-- A call on the fd: the children that are up at its start, and the replies. -/
structure FdEvent (n : Nat) where
  call : FdCall
  childUp : Fin n → Bool
  script : Script n Unit

def FdFile.frame (f : FdFile n) (type : AfrTransactionType) (op : AfrOp) (fop : FopFamily)
    (childUp : Fin n → Bool) : Transaction n Unit :=
  .afrLocalInit type op fop (some ()) () () () childUp f.fdCtx (fun _ => f.pending)

def FdFile.ofFrame (t : Transaction n Unit) : FdFile n where
  fdCtx := t.fdCtx
  pending := t.pending ()

variable (priv : AfrPrivate n)

def afrWritev (f : FdFile n) (childUp : Fin n → Bool) (sc : Script n Unit) : Option (FdFile n) :=
  (Transaction.afrTransaction priv (f.frame .data .write .reporting childUp) sc).map FdFile.ofFrame

def afrFtruncate (f : FdFile n) (childUp : Fin n → Bool) (sc : Script n Unit) : Option (FdFile n) :=
  (Transaction.afrTransaction priv
    (f.frame .data .ftruncate .reporting childUp) sc).map FdFile.ofFrame

/-- Without a mark on the fd a flush is sent on as it is. -/
def afrFlush (f : FdFile n) (childUp : Fin n → Bool) (sc : Script n Unit) : Option (FdFile n) :=
  let t := f.frame .flush .flush .flush childUp
  if f.fdCtx then
    (Transaction.afrTransaction priv t sc).map FdFile.ofFrame
  else if sc.pre = [] ∧ Answers sc.fop t.fopCalls ∧ sc.post = [] then
    some f
  else
    none

def fdStep (f : FdFile n) (ev : FdEvent n) : Option (FdFile n) :=
  match ev.call with
  | .writev => afrWritev priv f ev.childUp ev.script
  | .ftruncate => afrFtruncate priv f ev.childUp ev.script
  | .flush => afrFlush priv f ev.childUp ev.script

/-- A child that is up for a call and answers all of it with success. -/
structure FdEvent.ServedBy (ev : FdEvent n) (s : Fin n) : Prop where
  up : ev.childUp s = true
  pre : ∀ r, ((s, ()), r) ∈ ev.script.pre → r = .ok
  fop : ∀ r, (s, r) ∈ ev.script.fop → r = .ok
  post : ∀ r, ((s, ()), r) ∈ ev.script.post → r = .ok

variable {s : Fin n}

theorem count_served {childUp : Fin n → Bool} {rs : List ((Fin n × Unit) × Reply)}
    (hans : Answers rs (xattropFanOut childUp [()])) (hup : childUp s = true)
    (hok : ∀ r, ((s, ()), r) ∈ rs → r = .ok) : rs.count ((s, ()), .ok) = 1 := by
  rw [count_reply_eq_count_key _ _ _ hok, List.Perm.count_eq hans, count_xattropFanOut, if_pos hup]
  rfl

variable {priv} {f f' : FdFile n} {ev : FdEvent n}

theorem write_spec {op : AfrOp} (hop : op = .write ∨ op = .ftruncate)
    (h : (afrTransaction priv (f.frame .data op .reporting ev.childUp) ev.script).map
        FdFile.ofFrame = some f') :
    f'.fdCtx = (f.fdCtx || priv.dataChangeLog) ∧
    ∀ s, ev.ServedBy s → ∀ j, f'.pending s j = f.pending s j +
          if priv.dataChangeLog && !f.fdCtx then (1 : Counter) else 0 := by
  obtain ⟨fin, hrun, rfl⟩ := Option.map_eq_some_iff.mp h
  have hpost : ∀ ctx, changelogNeededPostOp priv
      { f.frame .data op .reporting ev.childUp with fdCtx := ctx } = false := by
    intro ctx
    rcases hop with rfl | rfl <;>
      simp [changelogNeededPostOp, FdFile.frame, afrLocalInit]
  have hneed : changelogNeededPreOp priv (f.frame .data op .reporting ev.childUp) =
        (priv.dataChangeLog && !f.fdCtx,
          { f.frame .data op .reporting ev.childUp with
            fdCtx := f.fdCtx || priv.dataChangeLog }) := by
    rcases hop with rfl | rfl <;>
      cases hlog : priv.dataChangeLog <;> cases hctx : f.fdCtx <;>
      simp [changelogNeededPreOp, changelogEnabled, isFirstWriteOnFd, FdFile.frame,
        afrLocalInit, hlog, hctx]
  unfold afrTransaction at hrun
  rw [hneed] at hrun
  cases hfst : priv.dataChangeLog && !f.fdCtx with
  | true =>
    rw [hfst] at hrun
    obtain ⟨hans, hctx, hpend⟩ := afrChangelogPreOp_of_not_needed (hpost _) hrun
    refine ⟨hctx, ?_⟩
    intro s hs j
    have hone := count_served hans hs.up hs.pre
    simp [FdFile.ofFrame, hpend, hone, FdFile.frame, afrLocalInit]
  | false =>
    rw [hfst] at hrun
    split_ifs at hrun
    obtain ⟨hctx, hpend⟩ := afrFopWind_of_not_needed (hpost _) hrun
    refine ⟨hctx, ?_⟩
    intro s _ j
    simp [FdFile.ofFrame, hpend, FdFile.frame, afrLocalInit]

theorem flush_spec (h : afrFlush priv f ev.childUp ev.script = some f') :
    f'.fdCtx = f.fdCtx ∧
    ∀ s, ev.ServedBy s → ∀ j, f'.pending s j = f.pending s j +
          if f.fdCtx && ev.childUp j then (-1 : Counter) else 0 := by
  unfold afrFlush at h
  simp only at h
  split_ifs at h with hctx hsimple
  · obtain ⟨fin, hrun, rfl⟩ := Option.map_eq_some_iff.mp h
    unfold afrTransaction at hrun
    simp only [changelogNeededPreOp, FdFile.frame, afrLocalInit, changelogEnabled] at hrun
    simp only [if_true] at hrun
    split_ifs at hrun
    obtain ⟨_, t', hsame, hpend, hup, hres⟩ := afrFopWind_spec hrun
    unfold afrTransactionResume at hres
    rw [if_pos (by
      simp [changelogNeededPostOp, hsame.type, hsame.op, changelogEnabled])] at hres
    obtain ⟨hans, hfin, hcnt⟩ := afrChangelogPostOp_spec hres
    rw [hup, hsame.xattropInodes] at hans
    refine ⟨hfin.fdCtx.trans hsame.fdCtx, ?_⟩
    intro s hs j
    have hone := count_served hans hs.up hs.post
    simp [FdFile.ofFrame, hcnt, hpend, hup, hone, hctx]
  · cases h
    refine ⟨rfl, ?_⟩
    intro s _ j
    simp [hctx]

def fdDelta (priv : AfrPrivate n) (fdCtx : Bool) (ev : FdEvent n) (j : Fin n) : Counter :=
  match ev.call with
  | .flush => if fdCtx && ev.childUp j then -1 else 0
  | .writev | .ftruncate => if priv.dataChangeLog && !fdCtx then 1 else 0

theorem fdStep_spec (h : fdStep priv f ev = some f') :
    f'.fdCtx = (f.fdCtx || priv.dataChangeLog && ev.call != .flush) ∧
    ∀ s, ev.ServedBy s → ∀ j, f'.pending s j = f.pending s j + fdDelta priv f.fdCtx ev j := by
  cases hcall : ev.call with
  | writev | ftruncate =>
    simp only [fdStep, hcall] at h
    obtain ⟨hctx, hpend⟩ := write_spec (by simp) h
    refine ⟨?_, ?_⟩
    · rw [hctx]
      exact congrArg (f.fdCtx || ·) (Bool.and_true _).symm
    · simpa [fdDelta, hcall] using hpend
  | flush =>
    simp only [fdStep, hcall] at h
    obtain ⟨hctx, hpend⟩ := flush_spec h
    simpa [fdDelta, hcall, hctx] using hpend

def wrote (evs : List (FdEvent n)) : Bool :=
  evs.any (fun ev => ev.call != .flush)

def closingFlushes (evs : List (FdEvent n)) (j : Fin n) : Nat :=
  (evs.dropWhile (fun ev => ev.call == .flush)).countP (fun ev => ev.call == .flush && ev.childUp j)

variable (evs : List (FdEvent n))

theorem wrote_concat (ev : FdEvent n) : wrote (evs ++ [ev]) = (wrote evs || ev.call != .flush) := by
  simp [wrote]

theorem dropWhile_flush_eq_nil_iff :
    evs.dropWhile (fun ev => ev.call == .flush) = [] ↔ wrote evs = false := by
  simp [wrote]

theorem countP_afterWrite_concat (p : FdEvent n → Bool) (evs : List (FdEvent n)) (ev : FdEvent n)
    (hp : p ev = true → ev.call = .flush) :
    ((evs ++ [ev]).dropWhile (fun ev => ev.call == .flush)).countP p =
      (evs.dropWhile (fun ev => ev.call == .flush)).countP p +
        if wrote evs && p ev then 1 else 0 := by
  rw [dropWhile_append]
  cases hw : wrote evs with
  | false =>
    have hnil := (dropWhile_flush_eq_nil_iff evs).mpr hw
    rw [hnil]
    by_cases hcall : ev.call = .flush
    · simp [hcall]
    · have hpev : ¬ p ev = true := fun h => hcall (hp h)
      simp [hcall, hpev]
  | true =>
    have hne : evs.dropWhile (fun ev => ev.call == .flush) ≠ [] := by
      intro hnil
      rw [dropWhile_flush_eq_nil_iff, hw] at hnil
      cases hnil
    rw [if_neg (by simpa using hne), countP_append, countP_singleton]
    simp

theorem closingFlushes_concat (ev : FdEvent n) (j : Fin n) :
    closingFlushes (evs ++ [ev]) j = closingFlushes evs j +
        if wrote evs && (ev.call == .flush && ev.childUp j) then 1 else 0 := by
  apply countP_afterWrite_concat
  intro h
  simp at h
  exact h.1

variable {evs}

theorem closingFlushes_of_not_wrote (h : wrote evs = false) (j : Fin n) :
    closingFlushes evs j = 0 := by
  unfold closingFlushes
  rw [(dropWhile_flush_eq_nil_iff evs).mpr h]
  rfl

/--
The counters after any calls on a new fd, on a child that served all of them:
one for the first write, less one for each flush after it that found `j` up.
-/
theorem run_fdStep_spec (hopen : f.fdCtx = false) (hrun : run (fdStep priv) f evs = some f') :
    f'.fdCtx = (priv.dataChangeLog && wrote evs) ∧
    ∀ s, (∀ ev ∈ evs, ev.ServedBy s) → ∀ j, f'.pending s j = f.pending s j +
          if priv.dataChangeLog && wrote evs then
            1 - (closingFlushes evs j : Counter)
          else 0 := by
  refine run_history (fdStep priv) ?_ ?_ hrun
  · refine ⟨?_, ?_⟩
    · simp [wrote, hopen]
    · intro s _ j
      simp [wrote]
  · rintro evs ev m f' ⟨hctx, hpend⟩ hstep
    obtain ⟨hctx', hpend'⟩ := fdStep_spec hstep
    refine ⟨?_, ?_⟩
    · rw [hctx', hctx, wrote_concat]
      cases priv.dataChangeLog <;> simp
    · intro s hs j
      rw [hpend' s (hs ev (by simp)) j, hpend s (fun ev' hev' => hs ev' (by simp [hev'])) j,
        wrote_concat, closingFlushes_concat, fdDelta, hctx]
      cases hlog : priv.dataChangeLog with
      | false => cases ev.call <;> simp
      | true =>
        cases hw : wrote evs with
        | false =>
          have hzero := closingFlushes_of_not_wrote hw j
          cases ev.call <;> simp [hzero]
        | true =>
          cases hcall : ev.call with
          | flush =>
            cases ev.childUp j with
            | false => simp
            | true =>
              simp only [Bool.and_self, if_true, Bool.true_or,
                beq_self_eq_true, Nat.cast_add, Nat.cast_one]
              ring
          | writev | ftruncate => simp

def flushesAfterWrite (evs : List (FdEvent n)) : Nat :=
  (evs.dropWhile (fun ev => ev.call == .flush)).countP (fun ev => ev.call == .flush)

theorem flushesAfterWrite_concat (evs : List (FdEvent n)) (ev : FdEvent n) :
    flushesAfterWrite (evs ++ [ev]) = flushesAfterWrite evs +
        if wrote evs && ev.call == .flush then 1 else 0 := by
  apply countP_afterWrite_concat
  intro h
  simpa using h

theorem flushesAfterWrite_of_not_wrote (h : wrote evs = false) : flushesAfterWrite evs = 0 := by
  unfold flushesAfterWrite
  rw [(dropWhile_flush_eq_nil_iff evs).mpr h]
  rfl

theorem flushesAfterWrite_mono {evs' : List (FdEvent n)} (h : evs <+: evs') :
    flushesAfterWrite evs ≤ flushesAfterWrite evs' := by
  obtain ⟨rest, rfl⟩ := h
  induction rest using reverseRecOn with
  | nil => simp
  | append_singleton rest ev ih =>
    rw [← append_assoc, flushesAfterWrite_concat]
    omega

theorem exists_second_flush (h : 2 ≤ flushesAfterWrite evs) :
    ∃ es ev, es ++ [ev] <+: evs ∧ ev.call = .flush ∧ flushesAfterWrite (es ++ [ev]) = 2 := by
  induction evs using reverseRecOn with
  | nil => simp [flushesAfterWrite] at h
  | append_singleton evs ev ih =>
    by_cases hbef : 2 ≤ flushesAfterWrite evs
    · obtain ⟨es, ev', hpre, hfl⟩ := ih hbef
      exact ⟨es, ev', hpre.trans (prefix_append evs [ev]), hfl⟩
    · rw [flushesAfterWrite_concat] at h
      split_ifs at h with hev
      · rw [Bool.and_eq_true, beq_iff_eq] at hev
        refine ⟨evs, ev, prefix_rfl, hev.2, ?_⟩
        rw [flushesAfterWrite_concat, hev.1, hev.2]
        simp only [beq_self_eq_true, Bool.and_self, if_true]
        omega
      · omega

theorem closingFlushes_of_all_up {j : Fin n} (hup : ∀ ev ∈ evs, ev.childUp j = true) :
    closingFlushes evs j = flushesAfterWrite evs := by
  apply countP_congr
  intro ev hev
  have hmem : ev ∈ evs := (dropWhile_sublist _).subset hev
  simp [hup ev hmem]

theorem run_pending_of_all_served (hopen : f.fdCtx = false) (hsrv : ∀ ev ∈ evs, ∀ s, ev.ServedBy s)
    (hrun : run (fdStep priv) f evs = some f') (s j : Fin n) :
    f'.pending s j = f.pending s j +
        if priv.dataChangeLog && wrote evs then
          1 - (flushesAfterWrite evs : Counter)
        else 0 := by
  have h := (run_fdStep_spec hopen hrun).2 s (fun ev hev => hsrv ev hev s) j
  rwa [closingFlushes_of_all_up (fun ev hev => (hsrv ev hev j).up)] at h

/--
The purpose of the flush: after each of them the counters are those that the
file was opened with, and in between no counter is off by anything but the one
of the first write.
-/
structure Balanced (priv : AfrPrivate n) (f : FdFile n) (evs : List (FdEvent n)) : Prop where
  flush : ∀ es ev f', es ++ [ev] <+: evs → ev.call = .flush →
    run (fdStep priv) f (es ++ [ev]) = some f' → f'.pending = f.pending
  between : ∀ es f', es <+: evs →
    run (fdStep priv) f es = some f' →
      ∀ s j, f'.pending s j = f.pending s j ∨ f'.pending s j = f.pending s j + 1

theorem run_pending_of_one_flush {es : List (FdEvent n)} (hopen : f.fdCtx = false)
    (hsrv : ∀ ev ∈ es, ∀ s, ev.ServedBy s) (hrun : run (fdStep priv) f es = some f')
    (hfew : priv.dataChangeLog = false ∨ n = 0 ∨ flushesAfterWrite es ≤ 1) (s j : Fin n) :
    (priv.dataChangeLog && wrote es) = false ∧ f'.pending s j = f.pending s j ∨
      wrote es = true ∧ flushesAfterWrite es ≤ 1 ∧
        f'.pending s j = f.pending s j + (1 - (flushesAfterWrite es : Counter)) := by
  have h := run_pending_of_all_served hopen hsrv hrun s j
  split_ifs at h with hlw
  · rw [Bool.and_eq_true] at hlw
    right
    refine ⟨hlw.2, ?_, h⟩
    rcases hfew with hlog | hn | hle
    · simp [hlw.1] at hlog
    · subst n
      exact s.elim0
    · exact hle
  · left
    exact ⟨by simpa using hlw, by simpa using h⟩

/--
**Balance of the data changelog.**  With every child up and every call served,
the counters balance exactly when no second flush follows the first write, or
there is no changelog to keep.
-/
theorem balanced_iff (priv : AfrPrivate n) (f fin : FdFile n) (evs : List (FdEvent n))
    (hopen : f.fdCtx = false)
    (hserved : ∀ ev ∈ evs, ∀ s, ev.ServedBy s)
    (hrun : run (fdStep priv) f evs = some fin) :
    Balanced priv f evs ↔ priv.dataChangeLog = false ∨ n = 0 ∨ flushesAfterWrite evs ≤ 1 := by
  have hpast : ∀ es, es <+: evs → ∀ ev ∈ es, ∀ s, ev.ServedBy s :=
    fun es hpre ev hev => hserved ev (hpre.subset hev)
  constructor
  · intro hbal
    by_contra hcon
    push Not at hcon
    obtain ⟨hlog, hn, htwo⟩ := hcon
    obtain ⟨es, ev, hpre, hfl, hcnt⟩ := exists_second_flush htwo
    obtain ⟨f', hf'⟩ := run_prefix (fdStep priv) hpre hrun
    have hw : wrote (es ++ [ev]) = true := by
      by_contra hw
      simp [flushesAfterWrite_of_not_wrote (by simpa using hw)] at hcnt
    let s : Fin n := ⟨0, Nat.pos_of_ne_zero hn⟩
    have hsame := congrFun (congrFun (hbal.flush es ev f' hpre hfl hf') s) s
    rw [run_pending_of_all_served hopen (hpast _ hpre) hf' s s, hcnt, hw] at hsame
    simp [hlog] at hsame
  · intro hcond
    have hcase : ∀ es f', es <+: evs → run (fdStep priv) f es = some f' →
        ∀ s j, (priv.dataChangeLog && wrote es) = false ∧ f'.pending s j = f.pending s j ∨
          wrote es = true ∧ flushesAfterWrite es ≤ 1 ∧ f'.pending s j = f.pending s j +
              (1 - (flushesAfterWrite es : Counter)) := by
      intro es f' hpre hes
      refine run_pending_of_one_flush hopen (hpast es hpre) hes ?_
      exact hcond.imp_right (Or.imp_right (flushesAfterWrite_mono hpre).trans)
    refine ⟨?_, ?_⟩
    · intro es ev f' hpre hfl hf'
      funext s j
      obtain ⟨_, hsame⟩ | ⟨hw, hle, heq⟩ := hcase _ _ hpre hf' s j
      · exact hsame
      · rw [wrote_concat, hfl] at hw
        have hone : flushesAfterWrite (es ++ [ev]) = 1 := by
          rw [flushesAfterWrite_concat, hfl] at hle ⊢
          simp at hw
          simp [hw] at hle ⊢
          exact hle
        simp [heq, hone]
    · intro es f' hpre hf' s j
      obtain ⟨_, hsame⟩ | ⟨_, hle, heq⟩ := hcase _ _ hpre hf' s j
      · exact .inl hsame
      · interval_cases hc : flushesAfterWrite es
        · right
          simpa using heq
        · left
          simpa using heq

def openedOnTwo : FdFile 2 where
  fdCtx := false
  pending := fun _ _ => 0

def replyBoth (r : Reply) : List ((Fin 2 × Unit) × Reply) :=
  [((firstChild, ()), r), ((secondChild, ()), r)]

def firstWritev : FdEvent 2 where
  call := .writev
  childUp := fun _ => true
  script := ⟨replyBoth .ok, [(firstChild, .ok), (secondChild, .ok)], []⟩

def closingFlush : FdEvent 2 where
  call := .flush
  childUp := fun _ => true
  script := ⟨[], [(secondChild, .ok), (firstChild, .ok)], replyBoth .ok⟩

theorem firstWritev_servedBy (s : Fin 2) : firstWritev.ServedBy s := by
  refine ⟨rfl, ?_, ?_, ?_⟩ <;> fin_cases s <;> simp [firstWritev, replyBoth]

theorem closingFlush_servedBy (s : Fin 2) : closingFlush.ServedBy s := by
  refine ⟨rfl, ?_, ?_, ?_⟩ <;> fin_cases s <;> simp [closingFlush, replyBoth]

theorem balanced_one_flush :
    Balanced (AfrPrivate.default 2) openedOnTwo [firstWritev, closingFlush] := by
  refine (balanced_iff (AfrPrivate.default 2) openedOnTwo _
    [firstWritev, closingFlush] rfl ?_ rfl).mpr ?_
  · simp [firstWritev_servedBy, closingFlush_servedBy]
  · exact .inr (.inr (by decide))

theorem not_balanced_two_flushes :
    (∀ ev ∈ [firstWritev, closingFlush, closingFlush], ∀ s, ev.ServedBy s) ∧
    (∃ fin, run (fdStep (AfrPrivate.default 2)) openedOnTwo
        [firstWritev, closingFlush, closingFlush] = some fin ∧
      ∀ s j, fin.pending s j = -1) ∧
    ¬ Balanced (AfrPrivate.default 2) openedOnTwo [firstWritev, closingFlush, closingFlush] := by
  refine ⟨?_, ⟨_, rfl, by decide⟩, ?_⟩
  · simp [firstWritev_servedBy, closingFlush_servedBy]
  · intro hbal
    have hsame := hbal.flush [firstWritev, closingFlush] closingFlush _ prefix_rfl rfl rfl
    exact absurd (congrFun (congrFun hsame 0) 0) (by decide)

def MissedWrite (writes : List (FdEvent n)) (j : Fin n) : Prop :=
  ∃ ev ∈ writes, (j, Reply.ok) ∉ ev.script.fop

/--
The purpose of the changelog on an fd: a child that missed a write is accused
by every child that was up from the first write to the closing flush.
-/
def RemembersMissed (fin : FdFile n) (writes : List (FdEvent n)) (flush : FdEvent n) : Prop :=
  ∀ j, MissedWrite writes j → ∀ s, (∀ ev ∈ writes ++ [flush], ev.ServedBy s) →
      Accuses (fin.pending s j)

variable {writes : List (FdEvent n)}

theorem wrote_of_writes (hne : writes ≠ []) (hcalls : ∀ ev ∈ writes, ev.call ≠ .flush) :
    wrote writes = true := by
  obtain ⟨ev, rest, rfl⟩ := exists_cons_of_ne_nil hne
  have hev := hcalls ev (by simp)
  simp [wrote, hev]

theorem closingFlushes_of_writes (hcalls : ∀ ev ∈ writes, ev.call ≠ .flush) (j : Fin n) :
    closingFlushes writes j = 0 := by
  apply countP_eq_zero.mpr
  intro ev hev
  have hmem : ev ∈ writes := (dropWhile_sublist _).subset hev
  simp [hcalls ev hmem]

theorem window_pending {fin : FdFile n} {flush : FdEvent n} (hopen : f.fdCtx = false)
    (hne : writes ≠ []) (hcalls : ∀ ev ∈ writes, ev.call ≠ .flush) (hfl : flush.call = .flush)
    (hrun : run (fdStep priv) f (writes ++ [flush]) = some fin)
    (hs : ∀ ev ∈ writes ++ [flush], ev.ServedBy s) (j : Fin n) :
    fin.pending s j = f.pending s j +
        if priv.dataChangeLog && !flush.childUp j then 1 else 0 := by
  have h := (run_fdStep_spec hopen hrun).2 s hs j
  rw [wrote_concat, closingFlushes_concat, wrote_of_writes hne hcalls,
    closingFlushes_of_writes hcalls j, hfl] at h
  rw [h]
  cases priv.dataChangeLog <;> cases flush.childUp j <;> simp

/--
**When a missed write is remembered.**  The flush takes back what the first
write recorded for every child that is up at the flush, whatever happened in
between.  So a child that missed a write is accused exactly when it is down at
the flush (and the changelog is on), unless it was accused before the open.
-/
theorem remembersMissed_iff (priv : AfrPrivate n) (f fin : FdFile n)
    (writes : List (FdEvent n)) (flush : FdEvent n)
    (hopen : f.fdCtx = false)
    (hne : writes ≠ [])
    (hcalls : ∀ ev ∈ writes, ev.call ≠ .flush)
    (hflush : flush.call = .flush)
    (hrun : run (fdStep priv) f (writes ++ [flush]) = some fin) :
    RemembersMissed fin writes flush ↔ ∀ j, MissedWrite writes j →
        ∀ s, (∀ ev ∈ writes ++ [flush], ev.ServedBy s) → Accuses (f.pending s j +
            if priv.dataChangeLog && !flush.childUp j then 1 else 0) := by
  constructor
  · intro hrem j hj s hs
    rw [← window_pending hopen hne hcalls hflush hrun hs j]
    exact hrem j hj s hs
  · intro hcond j hj s hs
    rw [window_pending hopen hne hcalls hflush hrun hs j]
    exact hcond j hj s hs

def writevOneDown : FdEvent 2 where
  call := .writev
  childUp := fun i => i = firstChild
  script := ⟨[], [(firstChild, .ok)], []⟩

def flushOneDown : FdEvent 2 where
  call := .flush
  childUp := fun i => i = firstChild
  script := ⟨[], [(firstChild, .ok)], [((firstChild, ()), .ok)]⟩

theorem remembersMissed_down_at_flush :
    ∃ fin, run (fdStep (AfrPrivate.default 2)) openedOnTwo
        ([firstWritev, writevOneDown] ++ [flushOneDown]) = some fin ∧
      MissedWrite [firstWritev, writevOneDown] 1 ∧
      RemembersMissed fin [firstWritev, writevOneDown] flushOneDown := by
  refine ⟨_, rfl, ⟨writevOneDown, by simp, by decide⟩, ?_⟩
  refine (remembersMissed_iff (AfrPrivate.default 2) openedOnTwo _
    [firstWritev, writevOneDown] flushOneDown rfl (by simp)
    (by simp [firstWritev, writevOneDown]) rfl rfl).mpr ?_
  rintro j ⟨ev, hev, hmiss⟩ s hs
  have hj : j = 1 := by
    simp only [mem_cons, not_mem_nil, or_false] at hev
    rcases hev with rfl | rfl
    · revert hmiss
      fin_cases j <;> simp [firstWritev]
    · revert hmiss
      fin_cases j <;> simp [writevOneDown]
  have hs0 : s = 0 := by
    have hup := (hs flushOneDown (by simp)).up
    simpa [flushOneDown] using hup
  subst hj hs0
  decide

theorem not_remembersMissed_up_at_flush :
    ∃ fin, run (fdStep (AfrPrivate.default 2)) openedOnTwo
        ([firstWritev, writevOneDown] ++ [closingFlush]) = some fin ∧
      MissedWrite [firstWritev, writevOneDown] 1 ∧
      (∀ ev ∈ [firstWritev, writevOneDown] ++ [closingFlush], ev.ServedBy 0) ∧
      fin.pending 0 1 = 0 ∧
      ¬ RemembersMissed fin [firstWritev, writevOneDown] closingFlush := by
  have hmiss : MissedWrite [firstWritev, writevOneDown] 1 := ⟨writevOneDown, by simp, by decide⟩
  have hmid : writevOneDown.ServedBy 0 := by refine ⟨rfl, ?_, ?_, ?_⟩ <;> simp [writevOneDown]
  have hsrv : ∀ ev ∈ [firstWritev, writevOneDown] ++ [closingFlush],
      ev.ServedBy 0 := by simp [firstWritev_servedBy, closingFlush_servedBy, hmid]
  refine ⟨_, rfl, hmiss, hsrv, by decide, ?_⟩
  intro hrem
  exact absurd (hrem 1 hmiss 0 hsrv) (by decide)

end GlusterFS.Afr
