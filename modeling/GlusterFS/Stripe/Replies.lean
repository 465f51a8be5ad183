import Mathlib.Algebra.Order.BigOperators.Group.List
import Mathlib.Algebra.Order.Group.Nat
import GlusterFS.Lib.Iovec

/-!
# stripe: the answer to a write

`stripe_writev_cbk` counts the replies to the chunks of a write and answers with the last one.  A
failed chunk sets the result to -1, but the bytes of a chunk that is answered later are added to
that.
-/

namespace GlusterFS.Stripe

open Iovec List

/-- The reply to a chunk: an error, or the bytes that were written. -/
inductive Outcome where
  | failed (opErrno : Nat)
  | wrote (bytes : Nat)
deriving DecidableEq

/-- What a write uses of `stripe_local_t`, with `op_ret` and `op_errno` as one pair. -/
structure WriteLocal where
  windCount : Nat
  callCount : Nat
  unwind : Bool
  ret : Int × Nat
  unwound : List (Int × Nat)

def WriteLocal.start : WriteLocal :=
  ⟨0, 0, false, (0, 0), []⟩

def countReply (ret : Int × Nat) : Outcome → Int × Nat
  | .failed opErrno => (-1, opErrno)
  | .wrote bytes => (int32 (ret.1 + bytes), ret.2)

def stripeWritevCbk (l : WriteLocal) (outcome : Outcome) : WriteLocal :=
  let l := { l with callCount := l.callCount + 1, ret := countReply l.ret outcome }
  if l.callCount = l.windCount ∧ l.unwind then
    { l with unwound := l.unwound ++ [l.ret] }
  else
    l

inductive WriteEvent where
  /-- A round of the loop that winds the chunks. -/
  | wind (last : Bool)
  | reply (outcome : Outcome)

def writevStep (l : WriteLocal) : WriteEvent → WriteLocal
  | .wind last => { l with windCount := l.windCount + 1, unwind := l.unwind || last }
  | .reply outcome => stripeWritevCbk l outcome

/-- No chunk is answered before it is wound: `rounds` are to come, and `out` replies are due. -/
inductive Serving : Nat → Nat → List WriteEvent → Prop
  | done : Serving 0 0 []
  | wind {rounds out : Nat} {es : List WriteEvent} :
      Serving rounds (out + 1) es →
      Serving (rounds + 1) out (.wind (rounds = 0) :: es)
  | reply {rounds out : Nat} {es : List WriteEvent} (outcome : Outcome) :
      Serving rounds out es →
      Serving rounds (out + 1) (.reply outcome :: es)

def outcomes (es : List WriteEvent) : List Outcome :=
  es.filterMap (fun e =>
    match e with
    | .wind _ => none
    | .reply outcome => some outcome)

def Outcome.bytes : Outcome → Nat
  | .failed _ => 0
  | .wrote bytes => bytes

def Failed (os : List Outcome) : Prop :=
  ∃ opErrno, Outcome.failed opErrno ∈ os

def total (os : List Outcome) : Nat :=
  (os.map Outcome.bytes).sum

/-- Whenever the replies come, the one answer is `opRet`. -/
def Answered (os : List Outcome) (opRet : Int) : Prop :=
  ∀ es, Serving os.length 0 es → (outcomes es).Perm os →
    ∃ opErrno, (es.foldl writevStep .start).unwound = [(opRet, opErrno)]

/-- The answer does not depend on the order: -1 after a failure, and the sum otherwise. -/
def AnsweredRight (os : List Outcome) : Prop :=
  (Failed os → Answered os (-1)) ∧ (¬ Failed os → Answered os (total os))

variable {es : List WriteEvent} {os : List Outcome} {rounds out : Nat} {ret : Int × Nat}

theorem Serving.unwound (h : Serving rounds out es) {l : WriteLocal}
    (hout : l.windCount = l.callCount + out) (hlast : l.unwind = decide (rounds = 0))
    (hleft : rounds ≠ 0 ∨ out ≠ 0) :
    (es.foldl writevStep l).unwound = l.unwound ++ [(outcomes es).foldl countReply l.ret] := by
  induction h generalizing l with
  | done => simp at hleft
  | @wind rounds out es h ih =>
    refine @ih (writevStep l (.wind (rounds = 0))) ?_ ?_ (by simp)
    · simp only [writevStep, hout]
      omega
    · simp [writevStep, hlast]
  | @reply rounds out es outcome h ih =>
    rw [foldl_cons, writevStep, stripeWritevCbk]
    by_cases hdone : rounds = 0 ∧ out = 0
    · obtain ⟨rfl, rfl⟩ := hdone
      cases h
      rw [if_pos ⟨hout.symm, hlast⟩]
      rfl
    · rw [if_neg]
      · exact ih (hout.trans (by dsimp only; omega)) hlast (by omega)
      · rintro ⟨hcnt, hunw⟩
        simp only [hlast, decide_eq_true_eq] at hunw
        simp only [hout] at hcnt
        omega

theorem Serving.answer (h : Serving os.length 0 es) (hne : os ≠ []) :
    (es.foldl writevStep .start).unwound = [(outcomes es).foldl countReply (0, 0)] := by
  have hlen := length_pos_iff.mpr hne
  exact h.unwound rfl (decide_eq_false (by omega)).symm (.inl (by omega))

def windFirst : Nat → List WriteEvent → List WriteEvent
  | 0, es => es
  | rounds + 1, es => .wind (rounds = 0) :: windFirst rounds es

theorem serving_windFirst (rounds : Nat) (h : Serving 0 (out + rounds) es) :
    Serving rounds out (windFirst rounds es) := by
  induction rounds generalizing out with
  | zero => exact h
  | succ rounds ih => exact .wind (ih (by rwa [Nat.add_right_comm]))

theorem outcomes_windFirst (rounds : Nat) : outcomes (windFirst rounds es) = outcomes es := by
  induction rounds with
  | zero => rfl
  | succ rounds ih => exact ih

theorem serving_replies (os : List Outcome) : Serving 0 os.length (os.map .reply) := by
  induction os with
  | nil => exact .done
  | cons o os ih => exact .reply o ih

theorem answered_iff (hne : os ≠ []) {opRet : Int} :
    Answered os opRet ↔ ∀ order : List Outcome, order.Perm os →
      (order.foldl countReply (0, 0)).1 = opRet := by
  constructor
  · intro h order horder
    have hserv : Serving os.length 0 (windFirst os.length (order.map .reply)) := by
      refine serving_windFirst _ ?_
      rw [Nat.zero_add, ← horder.length_eq]
      exact serving_replies order
    have hout : outcomes (windFirst os.length (order.map .reply)) = order := by
      rw [outcomes_windFirst, outcomes, filterMap_map]
      exact filterMap_some
    obtain ⟨opErrno, hunw⟩ := h _ hserv (by rw [hout]; exact horder)
    rw [hserv.answer hne, hout] at hunw
    rw [singleton_inj.mp hunw]
  · intro h es hserv hperm
    rw [hserv.answer hne, ← h _ hperm]
    exact ⟨_, rfl⟩

theorem foldl_countReply_of_wrote (h : ¬ Failed os) (hlow : 0 ≤ ret.1)
    (hhigh : ret.1 + total os < 2 ^ 31) : (os.foldl countReply ret).1 = ret.1 + total os := by
  induction os generalizing ret with
  | nil => simp [total]
  | cons o os ih =>
    have hrest : ¬ Failed os := fun ⟨opErrno, hmem⟩ => h ⟨opErrno, mem_cons_of_mem _ hmem⟩
    have htot : total (o :: os) = o.bytes + total os := by simp [total]
    cases o with
    | failed opErrno => exact absurd ⟨opErrno, by simp⟩ h
    | wrote bytes =>
      rw [htot, Outcome.bytes] at hhigh ⊢
      have hret : int32 (ret.1 + bytes) = ret.1 + bytes := int32_eq (by omega) (by omega)
      rw [foldl_cons, countReply, ih hrest (by rw [hret]; omega) (by rw [hret]; omega), hret]
      omega

theorem foldl_countReply_of_zero (h : ∀ o ∈ os, o.bytes = 0) (hret : Failed os ∨ ret.1 = -1)
    (hrng : -1 ≤ ret.1 ∧ ret.1 ≤ 0) : (os.foldl countReply ret).1 = -1 := by
  induction os generalizing ret with
  | nil => simpa [Failed] using hret
  | cons o os ih =>
    obtain ⟨ho, hrest⟩ := forall_mem_cons.mp h
    cases o with
    | failed opErrno => exact ih hrest (.inr rfl) (show (-1 : Int) ≤ -1 ∧ (-1 : Int) ≤ 0 by decide)
    | wrote bytes =>
      obtain rfl : bytes = 0 := ho
      have hsame : int32 (ret.1 + (0 : Nat)) = ret.1 := by
        rw [Int.natCast_zero, add_zero]
        exact int32_eq (by omega) (by omega)
      refine ih hrest ?_ (by rw [countReply, hsame]; exact hrng)
      rw [countReply, hsame]
      simpa [Failed] using hret

theorem foldl_countReply_lt (os : List Outcome) (h : ret.1 < 2 ^ 31) :
    (os.foldl countReply ret).1 < 2 ^ 31 := by
  induction os generalizing ret with
  | nil => exact h
  | cons o os ih =>
    cases o with
    | failed opErrno => exact ih (show (-1 : Int) < 2 ^ 31 by decide)
    | wrote bytes => exact ih (int32_lt _)

theorem total_eq_zero_iff : total os = 0 ↔ ∀ o ∈ os, o.bytes = 0 := by
  rw [total, sum_eq_zero_iff, forall_mem_map]

/-- The bytes of a chunk that is answered last, right after a failure, take the failure back. -/
theorem Answered.total_eq_zero (h : Answered os (-1)) (hfits : ∀ o ∈ os, o.bytes < 2 ^ 31)
    (hfail : Failed os) : total os = 0 := by
  rw [total_eq_zero_iff]
  by_contra hsome
  push Not at hsome
  obtain ⟨o, ho, hbytes⟩ := hsome
  obtain ⟨opErrno, hopErrno⟩ := hfail
  have hlt := hfits o ho
  cases o with
  | failed opErrno' => exact hbytes rfl
  | wrote bytes =>
    rw [Outcome.bytes] at hbytes hlt
    have hmem : Outcome.wrote bytes ∈ os.erase (.failed opErrno) :=
      (mem_erase_of_ne (by simp)).mpr ho
    have horder : ((os.erase (.failed opErrno)).erase (.wrote bytes) ++
        [Outcome.failed opErrno, .wrote bytes]).Perm os :=
      perm_append_comm.trans
        (((perm_cons_erase hmem).symm.cons _).trans (perm_cons_erase hopErrno).symm)
    have hret := (answered_iff (ne_nil_of_mem ho)).mp h _ horder
    rw [foldl_append] at hret
    change int32 (-1 + bytes) = -1 at hret
    rw [int32_eq (by omega) (by omega)] at hret
    omega

/-- Right where nothing is written beside a failure, and the sum fits. -/
theorem answeredRight_iff (hne : os ≠ []) (hfits : ∀ o ∈ os, o.bytes < 2 ^ 31) :
    AnsweredRight os ↔ (Failed os → total os = 0) ∧ (¬ Failed os → total os < 2 ^ 31) := by
  constructor
  · rintro ⟨hfail, hwrote⟩
    refine ⟨fun h => (hfail h).total_eq_zero hfits h, ?_⟩
    intro h
    have hret := (answered_iff hne).mp (hwrote h) os (List.Perm.refl os)
    have hlt := foldl_countReply_lt os (show (0, 0).1 < 2 ^ 31 by decide)
    omega
  · rintro ⟨hzero, hsm⟩
    constructor
    · rintro ⟨opErrno, hmem⟩
      refine (answered_iff hne).mpr (fun order horder => ?_)
      have hbytes := total_eq_zero_iff.mp (hzero ⟨opErrno, hmem⟩)
      refine foldl_countReply_of_zero (fun o ho => hbytes o (horder.mem_iff.mp ho)) ?_ (by decide)
      exact .inl ⟨opErrno, horder.mem_iff.mpr hmem⟩
    · intro h
      refine (answered_iff hne).mpr (fun order horder => ?_)
      have htot : total order = total os := (horder.map _).sum_eq
      have hnone : ¬ Failed order := fun ⟨e, he⟩ => h ⟨e, horder.mem_iff.mp he⟩
      have hlt := hsm h
      rw [foldl_countReply_of_wrote hnone le_rfl (by rw [htot]; dsimp only; omega), htot]
      exact zero_add _

theorem answeredRight_twoChunks : AnsweredRight [.wrote 4, .wrote 2] := by
  refine (answeredRight_iff (by decide) (by decide)).mpr ⟨?_, fun _ => by decide⟩
  rintro ⟨opErrno, hmem⟩
  simp at hmem

/-- The first chunk fails, and the second one, which is answered later, writes four bytes. -/
theorem not_answeredRight_failedFirst :
    ¬ AnsweredRight [.failed 28, .wrote 4] ∧
      ([WriteEvent.wind false, .wind true, .reply (.failed 28), .reply (.wrote 4)].foldl writevStep
        .start).unwound = [(3, 28)] := by
  refine ⟨?_, by decide⟩
  rintro ⟨hfail, -⟩
  have hret := (answered_iff (by decide)).mp (hfail ⟨28, by simp⟩) _ (List.Perm.refl _)
  exact absurd hret (by decide)

end GlusterFS.Stripe
