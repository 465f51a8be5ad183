import GlusterFS.Lib.FlatFile
import GlusterFS.Afr.SelfHealCommon

/-!
# AFR: the copy loop of a data self-heal

The data pass opens the file on the source and on every active sink, copies the
source block by block, truncates the sinks to the size of the source, and then
erases the pending counters held against them.  Where the source has holes, a
block that reads as zeros is not written.

A reply to a read is what the source holds at the offset, and an `op_ret`.  The
loop takes one that is not positive for the end of the file, and `posix_readv`
answers every read that succeeds with 0.  A write stores as many bytes as its
`op_ret` says, and only -1 is a failure.
-/

namespace GlusterFS.Afr

open FanOut FlatFile List Function

abbrev Byte := BitVec 8

/-- What a `readv` brings back. -/
structure ReadReply where
  opRet : Int
  vector : List (List Byte)

/-- One turn of the loop: the reply to the read, and the `op_ret` of each write. -/
structure DataRound (n : Nat) where
  read : ReadReply
  writes : List (Fin n × Int)

/-- The replies of a data self-heal, each list in order of arrival. -/
structure DataScript (n : Nat) where
  opens : List (Fin n × Reply)
  rounds : List (DataRound n)
  trims : List (Fin n × Reply)

/-- How a data self-heal ends: with the erasing xattrops, or without. -/
inductive DataOutcome (n : Nat) where
  | finish (disk : Fin n → List Byte)
  | erased (disk : Fin n → List Byte) (delta : Fin n → Fin n → Counter)

/-- The part of the record that the copy loop only reads. -/
structure DataFrame (n : Nat) where
  childUp : Fin n → Bool
  source : Fin n
  sources : Fin n → Bool
  success : Fin n → Bool
  pendingMatrix : Fin n → Fin n → Counter
  activeSinks : Nat
  blockSize : Nat
  fileSize : Nat
  fileHasHoles : Bool

/-- The part that it writes, and the files on the children. -/
structure DataState (n : Nat) where
  offset : Nat
  opFailed : Bool
  callCount : Nat
  disk : Fin n → List Byte

def mem0filled : List Byte → Byte
  | [] => 0
  | b :: buf => if b ≠ 0 then b else mem0filled buf

def iov0filled : List (List Byte) → Byte
  | [] => 0
  | buf :: vector => if mem0filled buf ≠ 0 then mem0filled buf else iov0filled vector

variable {n : Nat} (fr : DataFrame n)

def sinkCalls : List (Fin n) :=
  windLoop (fun i => if activeSink fr.sources fr.childUp i then [i] else [])
    fr.activeSinks (finRange n)

def afrShDataErasePending (st : DataState n) : DataOutcome n :=
  .erased st.disk (afrShPendingToDelta fr.pendingMatrix fr.success)

def afrShDataTrimCbk (st : DataState n) (childIndex : Fin n) :
    Reply → DataState n
  | .ok =>
    { st with
      disk := update st.disk childIndex (ftruncate (st.disk childIndex) fr.fileSize)
      callCount := st.callCount - 1 }
  | .err _ => { st with callCount := st.callCount - 1 }

def afrShDataTrimSinks (st : DataState n) (trims : List (Fin n × Reply)) : Option (DataOutcome n) :=
  if Answers trims (sinkCalls fr) then
    some (afrShDataErasePending fr (gather (afrShDataTrimCbk fr)
        { st with callCount := fr.activeSinks } trims))
  else
    none

def afrShDataWriteCbk (offset : Nat) (data : List Byte)
    (st : DataState n) (childIndex : Fin n) (opRet : Int) : DataState n :=
  if opRet = -1 then
    { st with
      opFailed := true
      callCount := st.callCount - 1 }
  else
    { st with
      disk := update st.disk childIndex
        (pwrite (st.disk childIndex) offset (data.take opRet.toNat))
      callCount := st.callCount - 1 }

/-- A positive `op_ret` counts the bytes, which are those of the source. -/
def readable (st : DataState n) (read : ReadReply) : Bool :=
  read.opRet == read.vector.flatten.length && read.opRet ≤ fr.blockSize &&
    read.vector.flatten == pread (st.disk fr.source) st.offset read.opRet.toNat

/-- `afr_sh_data_read_write_iter`, where `next` is the next turn of the loop. -/
def afrShDataReadWriteIter (st : DataState n) (rounds : List (DataRound n))
    (trims : List (Fin n × Reply)) (next : Option (DataOutcome n)) : Option (DataOutcome n) :=
  if st.opFailed then
    if rounds = [] ∧ trims = [] then some (.finish st.disk) else none
  else if fr.fileSize ≤ st.offset then
    if rounds = [] then afrShDataTrimSinks fr st trims else none
  else
    next

def afrShDataReadWrite (fr : DataFrame n) (trims : List (Fin n × Reply)) :
    DataState n → List (DataRound n) → Option (DataOutcome n)
  | _, [] => none
  | st, round :: rounds =>
    if round.read.opRet ≤ 0 then
      if round.writes = [] ∧ rounds = [] then
        afrShDataTrimSinks fr st trims
      else
        none
    else if readable fr st round.read then
      let offset := st.offset
      let st : DataState n :=
        { st with
          offset := st.offset + round.read.opRet.toNat
          callCount := fr.activeSinks }
      if fr.fileHasHoles && iov0filled round.read.vector == 0 then
        if round.writes = [] then
          afrShDataReadWriteIter fr st rounds trims (afrShDataReadWrite fr trims st rounds)
        else
          none
      else if Answers round.writes (sinkCalls fr) then
        let st := gather (afrShDataWriteCbk offset round.read.vector.flatten) st round.writes
        afrShDataReadWriteIter fr st rounds trims (afrShDataReadWrite fr trims st rounds)
      else
        none
    else
      none

def afrShDataOpenCbk (st : DataState n) (_childIndex : Fin n) : Reply → DataState n
  | .ok => { st with callCount := st.callCount - 1 }
  | .err _ =>
    { st with
      opFailed := true
      callCount := st.callCount - 1 }

def afrShDataOpen (st : DataState n) (sc : DataScript n) : Option (DataOutcome n) :=
  if Answers sc.opens (fr.source :: sinkCalls fr) then
    let st := gather afrShDataOpenCbk { st with callCount := fr.activeSinks + 1 } sc.opens
    if st.opFailed then
      if sc.rounds = [] ∧ sc.trims = [] then some (.finish st.disk) else none
    else
      afrShDataReadWrite fr sc.trims st sc.rounds
  else
    none

/-- The record of the copy loop, as `sync_prepare` and `open` fill it in. -/
def dataFrame (childUp : Fin n → Bool) (source : Fin n) (sh : SelfHeal n) :
    DataFrame n where
  childUp := childUp
  source := source
  sources := sh.sources
  success := fun i =>
    sh.success i || activeSink sh.sources childUp i || i == source
  pendingMatrix := sh.pendingMatrix
  activeSinks := (finRange n).countP (activeSink sh.sources childUp)
  blockSize := 65536
  fileSize := (sh.buf source).stSize
  fileHasHoles := fileHasHoles (sh.buf source)

def afrShDataSyncPrepare (childUp : Fin n → Bool) (source : Fin n) (sh : SelfHeal n)
    (disk : Fin n → List Byte) (sc : DataScript n) : Option (DataOutcome n) :=
  let fr := dataFrame childUp source sh
  if fr.activeSinks = 0 then
    if sc.opens = [] ∧ sc.rounds = [] ∧ sc.trims = [] then
      some (.finish disk)
    else
      none
  else
    afrShDataOpen fr
      { offset := 0
        opFailed := false
        callCount := 0
        disk := disk } sc

/-- What `sync_prepare` establishes for the copy loop. -/
structure DataFrame.Prepared (fr : DataFrame n) : Prop where
  sinks : fr.activeSinks = afrUpChildrenCount (activeSink fr.sources fr.childUp)
  source : activeSink fr.sources fr.childUp fr.source = false

def sinks : List (Fin n) :=
  upChildren (activeSink fr.sources fr.childUp)

theorem sinkCalls_eq {fr : DataFrame n} (hfr : fr.Prepared) : sinkCalls fr = sinks fr := by
  exact windLoop_upChildren (activeSink fr.sources fr.childUp) hfr.sinks

/-- The file after a write that is answered so. -/
def afterWrite (offset : Nat) (data f : List Byte) (opRet : Int) : List Byte :=
  if opRet = -1 then f else pwrite f offset (data.take opRet.toNat)

theorem afrShDataWriteCbk_disk (offset : Nat) (data : List Byte) (st : DataState n) (i : Fin n)
    (opRet : Int) (i' : Fin n) :
    (afrShDataWriteCbk offset data st i opRet).disk i' =
      if i' = i then afterWrite offset data (st.disk i) opRet else st.disk i' := by
  unfold afrShDataWriteCbk afterWrite
  split_ifs with hfail hi hi
  · rw [hi]
  · rfl
  · rw [hi]
    exact update_self i _ _
  · exact update_of_ne hi _ _

theorem afrShDataTrimCbk_disk (st : DataState n) (i : Fin n) (r : Reply) (i' : Fin n) :
    (afrShDataTrimCbk fr st i r).disk i' =
      if i' = i then
        (if r = .ok then ftruncate (st.disk i) fr.fileSize else st.disk i)
      else
        st.disk i' := by
  cases r with
  | ok => simp [afrShDataTrimCbk, update_apply]
  | err opErrno =>
    simp only [afrShDataTrimCbk, reduceCtorEq, if_false]
    rw [← update_apply, update_eq_self]

theorem gather_opFailed {ρ : Type} (cbk : DataState n → Fin n → ρ → DataState n) (good : ρ → Bool)
    (hcbk : ∀ st i r, (!(cbk st i r).opFailed) = (!st.opFailed && good r)) (st : DataState n)
    (rs : List (Fin n × ρ)) :
    (gather cbk st rs).opFailed = false ↔ st.opFailed = false ∧ ∀ w ∈ rs, good w.2 = true := by
  have h := gather_and cbk (fun st => !st.opFailed) (fun _ r => good r) st rs
    (fun st i r _ => hcbk st i r)
  rw [Bool.eq_iff_iff] at h
  simpa only [Bool.not_eq_true', Bool.and_eq_true, all_eq_true] using h

theorem gather_write_opFailed (offset : Nat) (data : List Byte) (st : DataState n)
    (rs : List (Fin n × Int)) :
    (gather (afrShDataWriteCbk offset data) st rs).opFailed = false ↔
      st.opFailed = false ∧ ∀ w ∈ rs, w.2 ≠ -1 := by
  rw [gather_opFailed _ (fun opRet => opRet != -1)]
  · simp
  · intro st i opRet
    by_cases hfail : opRet = -1 <;> simp [afrShDataWriteCbk, hfail]

theorem gather_open_opFailed (st : DataState n) (rs : List (Fin n × Reply)) :
    (gather afrShDataOpenCbk st rs).opFailed = false ↔
      st.opFailed = false ∧ ∀ r ∈ rs, r.2 = .ok := by
  rw [gather_opFailed _ (fun r => r == .ok)]
  · simp
  · intro st i r
    cases r <;> simp [afrShDataOpenCbk]

theorem gather_write_offset (offset : Nat) (data : List Byte) (st : DataState n)
    (rs : List (Fin n × Int)) :
    (gather (afrShDataWriteCbk offset data) st rs).offset = st.offset := by
  apply gather_frame _ DataState.offset
  intro st i opRet _
  unfold afrShDataWriteCbk
  split_ifs <;> rfl

end GlusterFS.Afr
