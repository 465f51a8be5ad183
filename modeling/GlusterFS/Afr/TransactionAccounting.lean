import Mathlib.Tactic.IntervalCases
import GlusterFS.Afr.TransactionCounters

/-!
# AFR: the changelog accounts for a missed fop

A counter on a child that stayed up should tell which children applied the fop
of a transaction: nothing for those that did and one more for those that did
not.  This holds when a child is down at the start or fails the pre-op, since
the post-op leaves out what `child_up` no longer names.  It does not hold for a
child that dies with the fop in hand: `afr_transaction_child_died` clears its
entry in `pending_array`, and `__mark_all_success` in the post-op overwrites it.
-/

namespace GlusterFS.Afr.Transaction

open FanOut List

section

variable {n : Nat} {Inode : Type}

/-- A child that was up at the start and answered every call with success. -/
structure StayedUp (t : Transaction n Inode) (sc : Script n Inode) (s : Fin n) : Prop where
  up : t.childUp s = true
  pre : ∀ inode r, ((s, inode), r) ∈ sc.pre → r = .ok
  fop : (s, .ok) ∈ sc.fop
  post : ∀ inode r, ((s, inode), r) ∈ sc.post → r = .ok

def Applied (sc : Script n Inode) (j : Fin n) : Prop :=
  (j, Reply.ok) ∈ sc.fop

def Died (sc : Script n Inode) (j : Fin n) : Prop :=
  ∃ opErrno, (j, Reply.err opErrno) ∈ sc.fop

/--
The purpose of the changelog: on every child that stayed up, the counter of a
child that applied the fop is as before, and that of any other is one more.
-/
def AccountsForMissed (t fin : Transaction n Inode) (sc : Script n Inode) : Prop :=
  ∀ s, StayedUp t sc s → ∀ inode ∈ t.xattropInodes, ∀ j, (Applied sc j →
        fin.pending inode s j = t.pending inode s j) ∧
      (¬ Applied sc j → fin.pending inode s j = t.pending inode s j + 1)

variable [DecidableEq Inode]
variable {t fin : Transaction n Inode} {sc : Script n Inode} {s : Fin n}

/-- With a child that stayed up, the fop went to every child it could. -/
theorem Accounts.survives_iff (hacc : Accounts t fin sc) (hs : StayedUp t sc s) (j : Fin n) :
    survivesPreOp t.childUp sc.pre j = true ↔ Applied sc j ∨ Died sc j := by
  have hfop : Answers sc.fop (upChildren (survivesPreOp t.childUp sc.pre)) := by
    rcases hacc.fop with hfop | hnil
    · exact hfop
    · have hmem := hs.fop
      rw [hnil] at hmem
      simp at hmem
  constructor
  · intro hj
    obtain ⟨r, hr⟩ := hfop.exists_reply (mem_upChildren.mpr hj)
    cases r with
    | ok => exact .inl hr
    | err opErrno => exact .inr ⟨opErrno, hr⟩
  · rintro (hr | ⟨opErrno, hr⟩) <;> exact mem_upChildren.mp (hfop.key_mem hr)

variable {j : Fin n}

theorem Accounts.not_died_of_applied (hacc : Accounts t fin sc) (hj : (j, Reply.ok) ∈ sc.fop) :
    ¬ Died sc j := by
  rintro ⟨opErrno, hr⟩
  rcases hacc.fop with hfop | hnil
  · have heq := hfop.reply_unique (upChildren_nodup _) hj hr
    cases heq
  · rw [hnil] at hj
    simp at hj

theorem Accounts.pending_of_reached (hacc : Accounts t fin sc) (hs : StayedUp t sc s)
    (hj : Applied sc j ∨ Died sc j) (inode : Inode) :
    fin.pending inode s j = t.pending inode s j := by
  have hnet := hacc.net hs.up hs.pre hs.post inode j
  rw [if_pos ((hacc.survives_iff hs j).mpr hj), add_zero] at hnet
  exact hnet

theorem Accounts.pending_of_missed (hacc : Accounts t fin sc) (hs : StayedUp t sc s)
    (happ : ¬ Applied sc j) (hdied : ¬ Died sc j) (inode : Inode) :
    fin.pending inode s j = t.pending inode s j + (t.xattropInodes.count inode : Counter) := by
  have hnet := hacc.net hs.up hs.pre hs.post inode j
  have hsurv : ¬ survivesPreOp t.childUp sc.pre j = true := by
    rw [hacc.survives_iff hs j]
    exact not_or.mpr ⟨happ, hdied⟩
  rw [if_neg hsurv] at hnet
  exact hnet

theorem count_eq_one_of_cast (t : Transaction n Inode) {inode : Inode}
    (h : (t.xattropInodes.count inode : Counter) = 1) : t.xattropInodes.count inode = 1 := by
  have hle : t.xattropInodes.count inode ≤ 2 :=
    le_trans (count_le_length) (length_xattropInodes_le t)
  interval_cases hc : t.xattropInodes.count inode
  · exact absurd h (by decide)
  · rfl
  · exact absurd h (by decide)

/--
**When the changelog accounts for a transaction.**  It does so exactly when no
child goes down with the fop in hand while another stays up, and, for a rename
inside one directory, when no child misses it.
-/
theorem accountsForMissed_iff (priv : AfrPrivate n)
    (t fin : Transaction n Inode) (sc : Script n Inode)
    (hlog : Logged priv t)
    (hrun : afrTransaction priv t sc = some fin)
    (hfop : ∀ j r, (j, r) ∈ sc.fop → r = .ok ∨ childWentDown r = true) :
    AccountsForMissed t fin sc ↔ ∀ s, StayedUp t sc s →
        (∀ j r, (j, r) ∈ sc.fop → childWentDown r = false) ∧
        (t.xattropInodes.Nodup ∨ ∀ j, Applied sc j) := by
  have hacc := accounts_of_run hlog hrun
  constructor
  · intro hmissed s hs
    have halive : ∀ j, ¬ Died sc j := by
      intro j hdied
      obtain ⟨inode, hino⟩ := exists_mem_xattropInodes t
      have hnot : ¬ Applied sc j := fun happ => hacc.not_died_of_applied happ hdied
      have hplus := (hmissed s hs inode hino j).2 hnot
      rw [hacc.pending_of_reached hs (.inr hdied)] at hplus
      simp at hplus
    refine ⟨?_, ?_⟩
    · intro j r hr
      cases r with
      | ok => rfl
      | err opErrno => exact absurd ⟨opErrno, hr⟩ (halive j)
    · by_cases hall : ∀ j, Applied sc j
      · exact .inr hall
      · left
        push Not at hall
        obtain ⟨j, hj⟩ := hall
        rw [nodup_iff_count_eq_one]
        intro inode hino
        have hplus := (hmissed s hs inode hino j).2 hj
        rw [hacc.pending_of_missed hs hj (halive j)] at hplus
        exact count_eq_one_of_cast t (add_left_cancel hplus)
  · intro hcond s hs inode hino j
    obtain ⟨halive, hdup⟩ := hcond s hs
    refine ⟨fun happ => hacc.pending_of_reached hs (.inl happ) inode, ?_⟩
    intro hnot
    have hdied : ¬ Died sc j := by
      rintro ⟨opErrno, hr⟩
      rcases hfop j _ hr with heq | hdown
      · cases heq
      · simp [halive j _ hr] at hdown
    rcases hdup with hnd | hall
    · rw [hacc.pending_of_missed hs hnot hdied, nodup_iff_count_eq_one.mp hnd inode hino]
      rfl
    · exact absurd (hall j) hnot

def metadataLogging (n : Nat) : AfrPrivate n :=
  { AfrPrivate.default n with metadataChangeLog := true }

def chmodOnTwo : Transaction 2 Unit :=
  afrLocalInit .metadata .other .reporting none () () () (fun _ => true) false (fun _ _ _ => 0)

def failsPreOp : Script 2 Unit where
  pre := [((firstChild, ()), .ok), ((secondChild, ()), .err .ENOTCONN)]
  fop := [(firstChild, .ok)]
  post := [((firstChild, ()), .ok)]

def diesInFop : Script 2 Unit where
  pre := [((firstChild, ()), .ok), ((secondChild, ()), .ok)]
  fop := [(firstChild, .ok), (secondChild, .err .ENOTCONN)]
  post := [((firstChild, ()), .ok), ((secondChild, ()), .err .ENOTCONN)]

theorem accountsForMissed_failsPreOp :
    ∃ fin, afrTransaction (metadataLogging 2) chmodOnTwo failsPreOp = some fin ∧
      AccountsForMissed chmodOnTwo fin failsPreOp := by
  refine ⟨_, rfl, ?_⟩
  refine (accountsForMissed_iff (metadataLogging 2) chmodOnTwo _ failsPreOp
    ⟨rfl, rfl⟩ rfl ?_).mpr ?_
  · simp [failsPreOp]
  · intro s _
    refine ⟨?_, .inl (by decide)⟩
    simp [failsPreOp, childWentDown]

theorem not_accountsForMissed_diesInFop :
    ∃ fin, afrTransaction (metadataLogging 2) chmodOnTwo diesInFop = some fin ∧
      StayedUp chmodOnTwo diesInFop 0 ∧
      ¬ Applied diesInFop 1 ∧
      fin.pending () 0 1 = chmodOnTwo.pending () 0 1 ∧
      ¬ AccountsForMissed chmodOnTwo fin diesInFop := by
  have hs : StayedUp chmodOnTwo diesInFop 0 :=
    ⟨rfl, by simp [diesInFop], by simp [diesInFop], by simp [diesInFop]⟩
  have hmiss : ¬ Applied diesInFop 1 := by simp [Applied, diesInFop]
  refine ⟨_, rfl, hs, hmiss, by decide, ?_⟩
  intro h
  have hplus := (h 0 hs () (by decide) 1).2 hmiss
  exact absurd hplus (by decide)

end

end GlusterFS.Afr.Transaction
