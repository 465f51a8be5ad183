import Mathlib.Tactic.FinCases
import GlusterFS.Afr.SelfHealData

/-!
# AFR: when a data self-heal repairs

What the copy loop leaves on a sink is the old content, patched with the pieces
that were read and written, and truncated if the truncate was answered with
success.  What can keep it from being the content of the source: a block of zeros
that is skipped where the sink holds something else, a read with `op_ret` 0, a
write that stored a part, and a read or a truncate whose failure is not recorded.
-/

namespace GlusterFS.Afr

open FanOut FlatFile List

variable {n : Nat} {fr : DataFrame n} {st st' : DataState n} {trims : List (Fin n × Reply)}
  {out : DataOutcome n} {rounds : List (DataRound n)} {round : DataRound n}
  {j source : Fin n} {sh : SelfHeal n}

def DataRound.data (round : DataRound n) : List Byte :=
  round.read.vector.flatten

/-- What the child stores of the data; without a write to it that is nothing. -/
def DataRound.stored (round : DataRound n) (j : Fin n) : List Byte :=
  round.data.take ((round.writes.find? (fun w => w.1 == j)).elim 0 (fun w => w.2.toNat))

/-- The pieces that a sink stores, up to the first read with `op_ret <= 0`. -/
def writtenPieces (j : Fin n) :
    Nat → List (DataRound n) → List (Piece Byte)
  | _, [] => []
  | offset, round :: rounds =>
    if round.read.opRet ≤ 0 then
      []
    else if round.stored j = [] then
      writtenPieces j (offset + round.data.length) rounds
    else
      (offset, round.stored j) :: writtenPieces j (offset + round.data.length) rounds

def trimmed (fr : DataFrame n) (trims : List (Fin n × Reply)) (j : Fin n)
    (f : List Byte) : List Byte :=
  if (j, Reply.ok) ∈ trims then ftruncate f fr.fileSize else f

/-- What a loop that reaches the erase has done. -/
structure Copied (fr : DataFrame n) (st : DataState n)
    (rounds : List (DataRound n)) (trims : List (Fin n × Reply))
    (disk : Fin n → List Byte) : Prop where
  writes : ∀ round ∈ rounds, ∀ w ∈ round.writes, w.2 ≠ -1
  answered : Answers trims (sinks fr)
  pieces : ∀ j, PiecesOf (st.disk fr.source) (writtenPieces j st.offset rounds)
  disk : ∀ j ∈ sinks fr,
    disk j = trimmed fr trims j (patch (st.disk j) (writtenPieces j st.offset rounds))

theorem afrShDataTrimSinks_erased (hfr : fr.Prepared)
    (h : afrShDataTrimSinks fr st trims = some out) :
    Answers trims (sinks fr) ∧
    ∃ disk, out = .erased disk (afrShPendingToDelta fr.pendingMatrix fr.success) ∧
      ∀ j ∈ sinks fr, disk j = trimmed fr trims j (st.disk j) := by
  unfold afrShDataTrimSinks at h
  split_ifs at h with hans
  rw [sinkCalls_eq hfr] at hans
  cases h
  refine ⟨hans, _, rfl, ?_⟩
  intro j hj
  have hnd : (sinks fr).Nodup := upChildren_nodup _
  obtain ⟨r, hr⟩ := hans.exists_reply hj
  have hok : (j, Reply.ok) ∈ trims ↔ r = .ok :=
    ⟨fun hmem => hans.reply_unique hnd hr hmem, fun heq => heq ▸ hr⟩
  rw [trimmed, if_congr hok rfl rfl]
  exact gather_slot (afrShDataTrimCbk fr) DataState.disk
    (fun f r => if r = .ok then ftruncate f fr.fileSize else f) (afrShDataTrimCbk_disk fr)
    { st with callCount := fr.activeSinks } ((List.Perm.nodup_iff hans).mpr hnd) hr

/-- The state after one turn that read data: the writes, or the skip. -/
structure Turned (fr : DataFrame n) (st : DataState n) (round : DataRound n) (st' : DataState n) :
    Prop where
  offset : st'.offset = st.offset + round.data.length
  opFailed : st'.opFailed = false ↔ st.opFailed = false ∧ ∀ w ∈ round.writes, w.2 ≠ -1
  source : st'.disk fr.source = st.disk fr.source
  disk : (∀ w ∈ round.writes, w.2 ≠ -1) → ∀ j ∈ sinks fr,
    st'.disk j = pwrite (st.disk j) st.offset (round.stored j)

theorem stored_eq {calls : List (Fin n)} {opRet : Int} (hans : Answers round.writes calls)
    (hnd : calls.Nodup) (hw : (j, opRet) ∈ round.writes) :
    round.stored j = round.data.take opRet.toNat := by
  unfold DataRound.stored
  cases hfind : round.writes.find? (fun w => w.1 == j) with
  | none => exact absurd (beq_self_eq_true j) (find?_eq_none.mp hfind _ hw)
  | some w =>
    have hmem := mem_of_find?_eq_some hfind
    obtain rfl : w.1 = j := by simpa using find?_some hfind
    rw [hans.reply_unique hnd hw hmem]
    rfl

theorem turned_of_answers (hfr : fr.Prepared) (hans : Answers round.writes (sinks fr)) :
    Turned fr st round (gather (afrShDataWriteCbk st.offset round.data)
      { st with
        offset := st.offset + round.data.length
        callCount := fr.activeSinks } round.writes) := by
  have hnd : (sinks fr).Nodup := upChildren_nodup _
  have hdisk := afrShDataWriteCbk_disk (n := n) st.offset round.data
  refine ⟨gather_write_offset .., gather_write_opFailed .., ?_, ?_⟩
  · refine gather_slot_of_not_mem _ DataState.disk (afterWrite st.offset round.data) hdisk _ ?_
    intro hmem
    have hsink := mem_upChildren.mp (hans.mem_iff.mp hmem)
    exact absurd hsink (by simp [hfr.source])
  · intro hok j hj
    obtain ⟨opRet, hw⟩ := hans.exists_reply hj
    rw [stored_eq hans hnd hw, gather_slot _ DataState.disk (afterWrite st.offset round.data)
      hdisk _ ((List.Perm.nodup_iff hans).mpr hnd) hw, afterWrite, if_neg (hok _ hw)]

theorem turned_of_skip (hwrites : round.writes = []) :
    Turned fr st round
      { st with
        offset := st.offset + round.data.length
        callCount := fr.activeSinks } := by
  refine ⟨rfl, by simp [hwrites], rfl, ?_⟩
  intro _ j _
  simp [DataRound.stored, hwrites, pwrite]

theorem readable_data (h : readable fr st round.read = true) :
    round.read.opRet.toNat = round.data.length ∧
      round.data = pread (st.disk fr.source) st.offset round.data.length := by
  simp only [readable, Bool.and_eq_true, beq_iff_eq] at h
  obtain ⟨⟨hlen, -⟩, hdata⟩ := h
  have hret : round.read.opRet.toNat = round.data.length := by
    rw [hlen]
    rfl
  rw [hret] at hdata
  exact ⟨hret, hdata⟩

theorem afrShDataReadWrite_cons (hfr : fr.Prepared)
    (h : afrShDataReadWrite fr trims st (round :: rounds) = some out) :
    (round.read.opRet ≤ 0 ∧ round.writes = [] ∧ rounds = [] ∧
      afrShDataTrimSinks fr st trims = some out) ∨
    (¬ round.read.opRet ≤ 0 ∧
      round.data = pread (st.disk fr.source) st.offset round.data.length ∧
      ∃ st', Turned fr st round st' ∧
        afrShDataReadWriteIter fr st' rounds trims
          (afrShDataReadWrite fr trims st' rounds) = some out) := by
  unfold afrShDataReadWrite at h
  split_ifs at h with hend hlast hreadable hskip hwrites hans
  · exact .inl ⟨hend, hlast.1, hlast.2, h⟩
  · obtain ⟨hret, hdata⟩ := readable_data hreadable
    rw [hret] at h
    exact .inr ⟨hend, hdata, _, turned_of_skip hwrites, h⟩
  · obtain ⟨hret, hdata⟩ := readable_data hreadable
    rw [hret] at h
    rw [sinkCalls_eq hfr] at hans
    exact .inr ⟨hend, hdata, _, turned_of_answers hfr hans, h⟩

section

variable (hread : ¬ round.read.opRet ≤ 0)
include hread

theorem Turned.patch_written (hturn : Turned fr st round st')
    (hok : ∀ w ∈ round.writes, w.2 ≠ -1) (hj : j ∈ sinks fr) (rounds : List (DataRound n)) :
    patch (st'.disk j) (writtenPieces j st'.offset rounds) =
      patch (st.disk j) (writtenPieces j st.offset (round :: rounds)) := by
  rw [writtenPieces, if_neg hread, hturn.disk hok j hj, hturn.offset]
  split_ifs with hnil
  · rw [hnil, pwrite, if_pos rfl]
  · rfl

theorem Copied.cons {disk : Fin n → List Byte}
    (hdata : round.data = pread (st.disk fr.source) st.offset round.data.length)
    (hturn : Turned fr st round st') (hok : ∀ w ∈ round.writes, w.2 ≠ -1)
    (hrest : Copied fr st' rounds trims disk) :
    Copied fr st (round :: rounds) trims disk where
  writes := forall_mem_cons.mpr ⟨hok, hrest.writes⟩
  answered := hrest.answered
  pieces := by
    intro j
    have htail := hrest.pieces j
    rw [hturn.offset, hturn.source] at htail
    rw [writtenPieces, if_neg hread]
    split_ifs with hnil
    · exact htail
    · refine forall_mem_cons.mpr ⟨⟨hnil, ?_⟩, htail⟩
      exact take_of_pread _ hdata _
  disk := by
    intro j hj
    rw [hrest.disk j hj, hturn.patch_written hread hok hj]

end

theorem afrShDataReadWrite_spec (hfr : fr.Prepared) (hst : st.opFailed = false)
    (h : afrShDataReadWrite fr trims st rounds = some out) :
    (∃ disk, out = .erased disk (afrShPendingToDelta fr.pendingMatrix fr.success) ∧
      Copied fr st rounds trims disk) ∨
    ((∃ disk, out = .finish disk) ∧ ∃ round ∈ rounds, ∃ w ∈ round.writes, w.2 = -1) := by
  induction rounds generalizing st with
  | nil => simp [afrShDataReadWrite] at h
  | cons round rounds ih =>
    rcases afrShDataReadWrite_cons hfr h with
      ⟨hread, hwrs, hrounds, htrim⟩ |
      ⟨hread, hdata, st', hturn, hiter⟩
    · obtain ⟨hans, disk, hout, hdisk⟩ := afrShDataTrimSinks_erased hfr htrim
      subst hrounds
      left
      refine ⟨disk, hout, ?_, hans, ?_, ?_⟩
      · simp [hwrs]
      · simp [writtenPieces, hread, PiecesOf]
      · intro j hj
        simp [hdisk j hj, writtenPieces, hread, patch]
    · unfold afrShDataReadWriteIter at hiter
      cases hfail : st'.opFailed with
      | true =>
        right
        split_ifs at hiter
        cases hiter
        refine ⟨⟨_, rfl⟩, round, by simp, ?_⟩
        by_contra hcon
        push Not at hcon
        simp [hturn.opFailed.mpr ⟨hst, hcon⟩] at hfail
      | false =>
        have hok := (hturn.opFailed.mp hfail).2
        rw [hfail, if_neg Bool.false_ne_true] at hiter
        split_ifs at hiter with hend hrounds
        · subst hrounds
          obtain ⟨hans, disk, hout, hdisk⟩ := afrShDataTrimSinks_erased hfr hiter
          left
          refine ⟨disk, hout, ?_⟩
          apply Copied.cons hread hdata hturn hok
          refine ⟨by simp, hans, by simp [writtenPieces, PiecesOf], ?_⟩
          intro j hj
          simp [hdisk j hj, writtenPieces, patch]
        · rcases ih hfail hiter with
            ⟨disk, hout, hcop⟩ | ⟨hout, round', hmem, hbad⟩
          · exact .inl ⟨disk, hout, Copied.cons hread hdata hturn hok hcop⟩
          · exact .inr ⟨hout, round', mem_cons_of_mem _ hmem, hbad⟩

def DataOutcome.disk : DataOutcome n → Fin n → List Byte
  | .finish disk => disk
  | .erased disk _ => disk

theorem dataFrame_prepared (childUp : Fin n → Bool) (hsrc : sh.sources source = true) :
    (dataFrame childUp source sh).Prepared where
  sinks := rfl
  source := by
    simp [dataFrame, activeSink, hsrc]

variable {disk : Fin n → List Byte}

theorem afrShDataSyncPrepare_spec {childUp : Fin n → Bool} {sc : DataScript n}
    (hsrc : sh.sources source = true)
    (h : afrShDataSyncPrepare childUp source sh disk sc = some out) :
    (∃ st : DataState n, st.offset = 0 ∧ st.disk = disk ∧ (∀ r ∈ sc.opens, r.2 = .ok) ∧ ∃ disk',
        out = .erased disk' (afrShPendingToDelta sh.pendingMatrix
          (dataFrame childUp source sh).success) ∧
        Copied (dataFrame childUp source sh) st sc.rounds sc.trims disk') ∨
    (∃ disk', out = .finish disk') ∧ ((∀ j, activeSink sh.sources childUp j = false) ∨
        (∃ r ∈ sc.opens, r.2 ≠ .ok) ∨
        ∃ round ∈ sc.rounds, ∃ w ∈ round.writes, w.2 = -1) := by
  unfold afrShDataSyncPrepare at h
  simp only at h
  split_ifs at h with hnone
  · right
    cases h
    refine ⟨⟨disk, rfl⟩, .inl ?_⟩
    intro j
    have hj := countP_eq_zero.mp hnone j (mem_finRange j)
    simpa using hj
  · unfold afrShDataOpen at h
    simp only at h
    split_ifs at h with hans hfail
    · right
      cases h
      refine ⟨⟨_, rfl⟩, .inr (.inl ?_)⟩
      by_contra hcon
      push Not at hcon
      rw [(gather_open_opFailed _ _).mpr ⟨rfl, hcon⟩] at hfail
      cases hfail
    · have hok := (gather_open_opFailed _ _).mp (by simpa using hfail)
      rcases afrShDataReadWrite_spec (dataFrame_prepared childUp hsrc)
          (by simpa using hfail) h with
        ⟨disk', hout, hcop⟩ | ⟨hout, hbad⟩
      · left
        refine ⟨_, ?_, ?_, hok.2, disk', hout, hcop⟩
        · apply gather_frame _ DataState.offset
          intro st i r _
          cases r <;> rfl
        · apply gather_frame _ DataState.disk
          intro st i r _
          cases r <;> rfl
      · exact .inr ⟨hout, .inr (.inr hbad)⟩

/-- No open, read, write or truncate fails. -/
structure NoFailure (sc : DataScript n) : Prop where
  opens : ∀ r ∈ sc.opens, r.2 = .ok
  reads : ∀ round ∈ sc.rounds, 0 ≤ round.read.opRet
  writes : ∀ round ∈ sc.rounds, ∀ w ∈ round.writes, w.2 ≠ -1
  trims : ∀ r ∈ sc.trims, r.2 = .ok

/-- The sink has the bytes of the source wherever it was not written. -/
def AgreesUnwritten (rounds : List (DataRound n)) (disk : Fin n → List Byte) (source j : Fin n) :
    Prop :=
  ∀ i, i < (disk source).length → ¬ Covers (writtenPieces j 0 rounds) i →
    unitAt (disk j) i = unitAt (disk source) i

theorem Copied.sink_eq_source_iff (h : Copied fr st rounds trims disk) (hoff : st.offset = 0)
    (hsize : fr.fileSize = (st.disk fr.source).length) (hj : j ∈ sinks fr) :
    disk j = st.disk fr.source ↔ ((j, Reply.ok) ∈ trims ∨
        max (st.disk j).length (reach (writtenPieces j 0 rounds)) =
          (st.disk fr.source).length) ∧
      AgreesUnwritten rounds st.disk fr.source j := by
  have hwrn := h.pieces j
  have hdisk := h.disk j hj
  rw [hoff] at hwrn hdisk
  rw [hdisk, trimmed, AgreesUnwritten]
  by_cases htrim : (j, Reply.ok) ∈ trims
  · rw [if_pos htrim, hsize, ftruncate_patch_eq_iff hwrn]
    simp [htrim]
  · rw [if_neg htrim, patch_eq_iff hwrn]
    simp [htrim]

/--
**Data self-heal makes the copies identical.**  With no call failing, every
active sink ends with the content of the source exactly when it has the bytes of
the source already wherever it is not written: in a block of zeros that is
skipped, behind a read with `op_ret` 0, and behind the end of a short write.
-/
theorem data_heal_identical_iff (childUp : Fin n → Bool) (source : Fin n) (sh : SelfHeal n)
    (disk : Fin n → List Byte) (sc : DataScript n) (out : DataOutcome n)
    (hsource : sh.sources source = true)
    (hstat : (sh.buf source).stSize = (disk source).length)
    (hfail : NoFailure sc)
    (hrun : afrShDataSyncPrepare childUp source sh disk sc = some out) :
    (∀ j, activeSink sh.sources childUp j = true → out.disk j = disk source) ↔
      ∀ j, activeSink sh.sources childUp j = true → AgreesUnwritten sc.rounds disk source j := by
  refine forall_congr' (fun j => forall_congr' (fun hj => ?_))
  rcases afrShDataSyncPrepare_spec hsource hrun with
    ⟨st, hoff, rfl, _, disk', rfl, hcop⟩ | ⟨_, hnone | hopen | hwr⟩
  · have hmem : j ∈ sinks (dataFrame childUp source sh) := mem_upChildren.mpr hj
    obtain ⟨r, hr⟩ := hcop.answered.exists_reply hmem
    have hrok : r = .ok := hfail.trims _ hr
    rw [hrok] at hr
    exact (hcop.sink_eq_source_iff hoff hstat hmem).trans (and_iff_right (.inl hr))
  · simp [hnone j] at hj
  · obtain ⟨r, hr, hbad⟩ := hopen
    exact absurd (hfail.opens r hr) hbad
  · obtain ⟨round, hround, w, hw, hbad⟩ := hwr
    exact absurd hbad (hfail.writes round hround w hw)

/-- The delta takes back all that is held against a child. -/
def Clears (pendingMatrix delta : Fin n → Fin n → Counter) (j : Fin n) : Prop :=
  ∀ i, delta i j = -pendingMatrix i j

/--
The erase comes after the repair: when the counters held against a sink are
taken back, the sink has the content of the source.
-/
def ErasesOnlyRepaired (childUp : Fin n → Bool) (source : Fin n) (sh : SelfHeal n)
    (disk : Fin n → List Byte) (out : DataOutcome n) : Prop :=
  ∀ disk' delta, out = .erased disk' delta → ∀ j, activeSink sh.sources childUp j = true →
      Clears sh.pendingMatrix delta j → disk' j = disk source

/--
**Erasing only after a repair.**  Opens and writes that fail keep the loop from
the erase.  Without such a failure the erase is sound exactly when every sink
already agrees with the source wherever it was not written, and its truncate
worked or was not needed.
-/
theorem erasesOnlyRepaired_iff (childUp : Fin n → Bool) (source : Fin n) (sh : SelfHeal n)
    (disk : Fin n → List Byte) (sc : DataScript n) (out : DataOutcome n)
    (hsource : sh.sources source = true)
    (hstat : (sh.buf source).stSize = (disk source).length)
    (hrun : afrShDataSyncPrepare childUp source sh disk sc = some out) :
    ErasesOnlyRepaired childUp source sh disk out ↔ ((∀ r ∈ sc.opens, r.2 = .ok) →
        (∀ round ∈ sc.rounds, ∀ w ∈ round.writes, w.2 ≠ -1) →
        ∀ j, activeSink sh.sources childUp j = true → ((j, Reply.ok) ∈ sc.trims ∨
            max (disk j).length (reach (writtenPieces j 0 sc.rounds)) = (disk source).length) ∧
          AgreesUnwritten sc.rounds disk source j) := by
  rcases afrShDataSyncPrepare_spec hsource hrun with
    ⟨st, hoff, rfl, hopens, disk', hout, hcop⟩ |
    ⟨⟨disk', hout⟩, hcause⟩
  · have hfinal : ∀ j, activeSink sh.sources childUp j = true → (disk' j = st.disk source ↔ _) :=
      fun j hj => hcop.sink_eq_source_iff hoff hstat (mem_upChildren.mpr hj)
    have hclr : ∀ j, activeSink sh.sources childUp j = true →
        Clears sh.pendingMatrix (afrShPendingToDelta sh.pendingMatrix
          (dataFrame childUp source sh).success) j := by
      intro j hj i
      simp [afrShPendingToDelta, dataFrame, hj]
    constructor
    · intro hsnd _ _ j hj
      exact (hfinal j hj).mp (hsnd disk' _ hout j hj (hclr j hj))
    · intro hcond disk'' delta hout' j hj _
      rw [hout] at hout'
      cases hout'
      exact (hfinal j hj).mpr (hcond hopens hcop.writes j hj)
  · constructor
    · intro _ hopens hwrs j hj
      rcases hcause with hnone | ⟨r, hr, hbad⟩ | ⟨round, hround, w, hw, hbad⟩
      · simp [hnone j] at hj
      · exact absurd (hopens r hr) hbad
      · exact absurd hbad (hwrs round hround w hw)
    · intro _ disk'' delta hout'
      simp [hout] at hout'

def healingSecond (stSize stBlocks : Nat) : SelfHeal 2 :=
  { SelfHeal.start (fun _ => none) with
    source := some firstChild
    sources := fun i => i = firstChild
    buf := fun _ => ⟨0, 0, 0, stSize, stBlocks⟩
    pendingMatrix := fun i j => if i = firstChild ∧ j = secondChild then 1 else 0 }

def twoFiles (source sink : List Byte) : Fin 2 → List Byte :=
  fun i => if i = firstChild then source else sink

def oneRound (round : DataRound 2) : DataScript 2 where
  opens := [(firstChild, .ok), (secondChild, .ok)]
  rounds := [round]
  trims := [(secondChild, .ok)]

def oneBlock (data : List Byte) : DataScript 2 :=
  oneRound ⟨⟨data.length, [data]⟩, [(secondChild, data.length)]⟩

def oneSkipped (data : List Byte) : DataScript 2 :=
  oneRound ⟨⟨data.length, [data]⟩, []⟩

/-- The answer of `posix_readv`. -/
def readZero (data : List Byte) : DataScript 2 :=
  oneRound ⟨⟨0, [data]⟩, []⟩

def readFails : DataScript 2 :=
  oneRound ⟨⟨-1, []⟩, []⟩

def shortWrite : DataScript 2 :=
  oneRound ⟨⟨2, [[7, 8]]⟩, [(secondChild, 1)]⟩

theorem agreesUnwritten_oneBlock :
    AgreesUnwritten (oneBlock [7, 0]).rounds (twoFiles [7, 0] [1, 2, 3]) 0 1 := by
  intro i hi hcov
  exact absurd ⟨(0, [7, 0]), by decide, Nat.zero_le i, hi⟩ hcov

theorem eq_secondChild {j : Fin 2} (hj : activeSink (healingSecond 2 8).sources (fun _ => true) j) :
    j = 1 := by
  revert hj
  fin_cases j <;> simp [activeSink, healingSecond]

theorem data_heal_identical_one_block :
    ∃ out, afrShDataSyncPrepare (fun _ => true) 0 (healingSecond 2 8)
        (twoFiles [7, 0] [1, 2, 3]) (oneBlock [7, 0]) = some out ∧
      out.disk 1 = [7, 0] := by
  refine ⟨_, rfl, ?_⟩
  refine (data_heal_identical_iff (fun _ => true) 0 (healingSecond 2 8)
    (twoFiles [7, 0] [1, 2, 3]) (oneBlock [7, 0]) _ rfl rfl ?_ rfl).mpr ?_ 1 rfl
  · refine ⟨?_, ?_, ?_, ?_⟩ <;> simp [oneBlock, oneRound]
  · intro j hj
    rw [eq_secondChild hj]
    exact agreesUnwritten_oneBlock

/-- A block of zeros is skipped, and with the answer of `posix_readv` nothing is copied. -/
theorem data_heal_leaves_stale_bytes :
    (NoFailure (oneSkipped [0, 0]) ∧
    ∃ out, afrShDataSyncPrepare (fun _ => true) 0 (healingSecond 2 0)
        (twoFiles [0, 0] [5]) (oneSkipped [0, 0]) = some out ∧
      activeSink (healingSecond 2 0).sources (fun _ => true) 1 = true ∧
      out.disk 1 = [5, 0] ∧
      out.disk 1 ≠ twoFiles [0, 0] [5] 0) ∧
    NoFailure (readZero [7, 8]) ∧
    ∃ out, afrShDataSyncPrepare (fun _ => true) 0 (healingSecond 2 8)
        (twoFiles [7, 8] [1, 2, 3]) (readZero [7, 8]) = some out ∧ out.disk 1 = [1, 2] := by
  refine ⟨⟨?_, _, rfl, rfl, rfl, by decide⟩, ?_, _, rfl, rfl⟩
  · refine ⟨?_, ?_, ?_, ?_⟩ <;> simp [oneSkipped, oneRound]
  · refine ⟨?_, ?_, ?_, ?_⟩ <;> simp [readZero, oneRound]

theorem erasesOnlyRepaired_one_block :
    ∃ out, afrShDataSyncPrepare (fun _ => true) 0 (healingSecond 2 8)
        (twoFiles [7, 0] [1, 2, 3]) (oneBlock [7, 0]) = some out ∧
      ErasesOnlyRepaired (fun _ => true) 0 (healingSecond 2 8) (twoFiles [7, 0] [1, 2, 3]) out := by
  refine ⟨_, rfl, ?_⟩
  refine (erasesOnlyRepaired_iff (fun _ => true) 0 (healingSecond 2 8)
    (twoFiles [7, 0] [1, 2, 3]) (oneBlock [7, 0]) _ rfl rfl rfl).mpr ?_
  intro _ _ j hj
  rw [eq_secondChild hj]
  exact ⟨.inl (by simp [oneBlock, oneRound]), agreesUnwritten_oneBlock⟩

/-- The pending count goes after a read that failed, and after a write of one byte of two. -/
theorem erases_after_failed_read :
    (∃ disk' delta, afrShDataSyncPrepare (fun _ => true) 0 (healingSecond 2 8)
        (twoFiles [7, 0] [1, 2, 3]) readFails = some (.erased disk' delta) ∧
      (healingSecond 2 8).pendingMatrix 0 1 + delta 0 1 = 0 ∧
      disk' 1 = [1, 2] ∧
      ¬ ErasesOnlyRepaired (fun _ => true) 0 (healingSecond 2 8)
        (twoFiles [7, 0] [1, 2, 3]) (.erased disk' delta)) ∧
    ∃ disk' delta, afrShDataSyncPrepare (fun _ => true) 0 (healingSecond 2 8)
        (twoFiles [7, 8] [1, 2, 3]) shortWrite = some (.erased disk' delta) ∧
      (healingSecond 2 8).pendingMatrix 0 1 + delta 0 1 = 0 ∧ disk' 1 = [7, 2] := by
  refine ⟨⟨_, _, rfl, by decide, rfl, ?_⟩, _, _, rfl, by decide, rfl⟩
  intro hsnd
  have hclr : Clears (healingSecond 2 8).pendingMatrix
      (afrShPendingToDelta (healingSecond 2 8).pendingMatrix
        (dataFrame (fun _ => true) 0 (healingSecond 2 8)).success) 1 := by
    intro i
    fin_cases i <;> rfl
  have heq := hsnd _ _ rfl 1 rfl hclr
  exact absurd heq (by decide)

end GlusterFS.Afr
