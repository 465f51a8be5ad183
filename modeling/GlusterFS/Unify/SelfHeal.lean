import GlusterFS.Lib.Run
import Mathlib.Algebra.BigOperators.Group.List.Basic
import Mathlib.Algebra.GroupWithZero.Nat

/-!
# Unify: the self-heal of a directory

The checksums of a directory on the storage nodes and on the namespace differ, and the lookup is
held back until the directory is healed.  It is opened on all nodes.  Then every storage node is
read in batches, each node on its own, and each batch is written to the namespace.  When the last
node has come to its end the directories of the namespace are read in batches, and each batch is
written to all storage nodes.  One counter in the local of the frame says which reply is the last
one of a phase, and a batch that is not full says that a directory has come to its end.

A reply to any of the calls in flight is a step.  When none of the calls fails every run ends with
one answer to the lookup, and then the namespace has the entries of all storage nodes and the
storage nodes have the directories of the namespace (`heals`).
-/

namespace GlusterFS.Unify.SelfHeal

open Run List Function

/-- The type of a file, the `S_IFMT` bits of its mode. -/
inductive Kind where
  | dir
  | reg
  | lnk
  | blk
  | chr
  | fifo
  | sock
deriving DecidableEq

structure Entry where
  name : String
  kind : Kind
deriving DecidableEq

def getdentsCount : Nat := 1024

inductive GetFlag where
  | getAll
  | getDirOnly
deriving DecidableEq

inductive SetFlag where
  | setIfNotPresent
  | setDirOnly
deriving DecidableEq

/--
The loop of `posix_getdents`: an entry that is not skipped goes to the front of the list, and the
loop ends with the stream or with a list of the given size.  What is left of the stream is kept
for the next call.
-/
def readEntries (flag : GetFlag) (size : Nat) :
    List Entry → List Entry → List Entry × List Entry
  | entries, [] => (entries, [])
  | entries, e :: stream =>
    if flag = .getDirOnly ∧ e.kind ≠ .dir then
      readEntries flag size entries stream
    else if entries.length + 1 = size then
      (e :: entries, stream)
    else
      readEntries flag size (e :: entries) stream

def posixGetdents (flag : GetFlag) (size : Nat) (stream : List Entry) : List Entry × List Entry :=
  readEntries flag size [] stream

/--
`create_entry`, and the change of its mode and owner behind it.  A name that is there must have the
type of the entry, and an entry that is not made must be there.
-/
def createEntry (flag : SetFlag) (entry : Entry) (dir : List Entry) : Option (List Entry) :=
  if entry.kind = .dir ∨ flag = .setIfNotPresent then
    match dir.find? (fun e => e.name = entry.name) with
    | some e => if e.kind = entry.kind then some dir else none
    | none => some (dir ++ [entry])
  else if dir.any (fun e => e.name = entry.name) then
    some dir
  else
    none

/-- `posix_setdents` stops at the first entry that it cannot make. -/
def posixSetdents (flag : SetFlag) : List Entry → List Entry → List Entry
  | [], dir => dir
  | entry :: entries, dir =>
    match createEntry flag entry dir with
    | some dir => posixSetdents flag entries dir
    | none => dir

/-- The calls of the self-heal; the entries to be written go with the call. -/
inductive Op where
  | opendir
  | getdents
  | nsSetdents (entries : List Entry)
  | nsGetdents
  | setdents (entries : List Entry)
deriving DecidableEq

/-- A call with its cookie, which for a batch on its way to the namespace is the node it is from. -/
structure Call where
  node : Nat
  op : Op
deriving DecidableEq

/--
The local of the frame, the directory on the storage nodes and on the namespace with what is left
of the streams, the calls in flight and the answers to the lookup.  The namespace has no stream
before the first read of it.
-/
structure State where
  callCount : Int
  opRet : Int
  failed : Bool
  flags : Bool
  countList : Nat → Nat
  content : Nat → List Entry
  streams : Nat → List Entry
  ns : List Entry
  nsStream : Option (List Entry)
  pending : List Call
  answers : List Int

/-- The order in which the namespace reads a directory -/
structure World where
  order : List Entry → List Entry
  order_perm : ∀ dir, (order dir).Perm dir

def wind (s : State) (calls : List Call) : State :=
  { s with pending := s.pending ++ calls }

def unwind (s : State) : State :=
  { s with answers := s.answers ++ [s.opRet] }

/-- A storage node has come to its end; behind the last one the namespace is read. -/
def nodeDone (n : Nat) (s : State) : State :=
  if s.callCount - 1 = 0 then
    wind { s with callCount := s.callCount - 1 } [⟨n, .nsGetdents⟩]
  else
    { s with callCount := s.callCount - 1 }

def shSetdentsCbk (n : Nat) (s : State) : State :=
  if s.callCount ≠ 0 then
    let s := { s with callCount := s.callCount - 1 }
    if s.callCount = 0 then
      if s.flags then
        unwind s
      else if getdentsCount ≤ s.countList 0 then
        wind s [⟨n, .nsGetdents⟩]
      else
        s
    else
      s
  else
    s

/-- `unify_sh_ns_getdents_cbk`; a call that failed may bring no entries at all. -/
def shNsGetdentsCbk (n : Nat) (s : State) (entry : Option (List Entry)) (count : Nat) : State :=
  wind
    { s with
      countList := update s.countList 0 count,
      callCount := n,
      flags := if count < getdentsCount ∨ entry = none then true else s.flags }
    ((range n).map (fun i => ⟨i, .setdents (entry.getD [])⟩))

def shNsSetdentsCbk (n : Nat) (i : Nat) (s : State) : State :=
  if s.countList i < getdentsCount then
    nodeDone n s
  else
    wind s [⟨i, .getdents⟩]

def shGetdentsCbk
    (n : Nat) (i : Nat) (s : State) (opRet : Int) (entries : List Entry) (count : Nat) : State :=
  if 0 ≤ opRet ∧ 0 < count then
    wind { s with countList := update s.countList i count } [⟨i, .nsSetdents entries⟩]
  else if count < getdentsCount then
    nodeDone n s
  else
    wind s [⟨i, .getdents⟩]

def shOpendirLast (n : Nat) (s : State) : State :=
  let s := { s with callCount := (n : Int) + 1 }
  if s.failed = false then
    let s := { s with callCount := s.callCount - 1 }
    if s.callCount ≠ 0 then
      wind { s with countList := fun _ => 0 } ((range n).map (fun i => ⟨i, .getdents⟩))
    else
      unwind { s with opRet := 0 }
  else
    unwind { s with opRet := 0 }

def shOpendirCbk (n : Nat) (s : State) (opRet : Int) : State :=
  let s := { s with callCount := s.callCount - 1 }
  let s := if 0 ≤ opRet then { s with opRet := opRet } else { s with failed := true }
  if s.callCount = 0 then
    shOpendirLast n s
  else
    s

/-- A call that fails has done nothing; a read that fails has a count all the same. -/
inductive Outcome where
  | ok
  | failed (count : Nat)

def reply (w : World) (n : Nat) (s : State) (call : Call) (outcome : Outcome) : State :=
  match call.op, outcome with
  | .opendir, .ok => shOpendirCbk n s 0
  | .opendir, .failed _ => shOpendirCbk n s (-1)
  | .getdents, .ok =>
    let r := posixGetdents .getAll getdentsCount (s.streams call.node)
    shGetdentsCbk n call.node { s with streams := update s.streams call.node r.2 } 0 r.1 r.1.length
  | .getdents, .failed count => shGetdentsCbk n call.node s (-1) [] count
  | .nsSetdents entries, .ok =>
    shNsSetdentsCbk n call.node { s with ns := posixSetdents .setIfNotPresent entries s.ns }
  | .nsSetdents _, .failed _ => shNsSetdentsCbk n call.node s
  | .nsGetdents, .ok =>
    let r := posixGetdents .getDirOnly getdentsCount (s.nsStream.getD (w.order s.ns))
    shNsGetdentsCbk n { s with nsStream := some r.2 } (some r.1) r.1.length
  | .nsGetdents, .failed count => shNsGetdentsCbk n s none count
  | .setdents entries, .ok =>
    shSetdentsCbk n
      { s with
        content := update s.content call.node
          (posixSetdents .setDirOnly entries (s.content call.node)) }
  | .setdents _, .failed _ => shSetdentsCbk n s

structure Event where
  call : Call
  outcome : Outcome

def step (w : World) (n : Nat) (s : State) (e : Event) : Option State :=
  if e.call ∈ s.pending then
    some (reply w n { s with pending := s.pending.erase e.call } e.call e.outcome)
  else
    none

/--
The end of `unify_sh_checksum_cbk` after a mismatch: the directory is opened on the storage nodes
and on the namespace, node `n`.
-/
def State.init (n : Nat) (content : Nat → List Entry) (ns : List Entry) : State where
  callCount := (n : Int) + 1
  opRet := -1
  failed := false
  flags := false
  countList := fun _ => 0
  content := content
  streams := content
  ns := ns
  nsStream := none
  pending := (range (n + 1)).map (fun i => ⟨i, .opendir⟩)
  answers := []

def SameTypes (n : Nat) (content : Nat → List Entry) (ns : List Entry) : Prop :=
  ∀ e ∈ ns ++ (range n).flatMap content, ∀ e' ∈ ns ++ (range n).flatMap content,
    e.name = e'.name → e.kind = e'.kind

instance (n : Nat) (content : Nat → List Entry) (ns : List Entry) :
    Decidable (SameTypes n content ns) :=
  inferInstanceAs (Decidable (∀ e ∈ _, ∀ e' ∈ _, _ → _))

/-- The directory is healed, and nothing that was there is lost. -/
structure Converged
    (n : Nat) (content : Nat → List Entry) (ns : List Entry) (s : State) : Prop where
  kept : ∀ i < n, ∀ e ∈ content i, e ∈ s.content i
  ns_kept : ∀ e ∈ ns, e ∈ s.ns
  names : ∀ i < n, ∀ e ∈ s.content i, e ∈ s.ns
  dirs : ∀ i < n, ∀ e ∈ s.ns, e.kind = .dir → e ∈ s.content i

/--
In whatever order the replies come, there are finitely many of them; as long as the lookup is not
answered a call is in flight; and the lookup is answered once, with the directory healed and no
call in flight any more.
-/
def Heals (w : World) (n : Nat) (content : Nat → List Entry) (ns : List Entry) : Prop :=
  ∃ bound, ∀ es s, (∀ e ∈ es, e.outcome = .ok) →
    run (step w n) (State.init n content ns) es = some s → es.length ≤ bound ∧
      (s.answers = [] → ∃ call, (step w n s ⟨call, .ok⟩).isSome) ∧
      (s.answers ≠ [] → s.answers.length = 1 ∧ s.pending = [] ∧ Converged n content ns s)

/-- What a read of a stream that has taken some entries already takes, and what it leaves. -/
structure Reads (flag : GetFlag) (size : Nat) (entries stream : List Entry)
    (r : List Entry × List Entry) : Prop where
  taken : ∀ e ∈ entries, e ∈ r.1
  cover : ∀ e ∈ stream, (flag = .getDirOnly → e.kind = .dir) → e ∈ r.1 ∨ e ∈ r.2
  from_stream : ∀ e ∈ r.1, e ∈ entries ∨ e ∈ stream ∧ (flag = .getDirOnly → e.kind = .dir)
  rest : ∀ e ∈ r.2, e ∈ stream
  at_end : r.1.length < size → r.2 = []
  length : r.1.length + r.2.length ≤ entries.length + stream.length

open Nat

variable (flag : GetFlag)

/-- The loop takes the entries at the front of the stream, but for those that the flag skips. -/
theorem exists_readEntries (size : Nat) (stream entries : List Entry) (h : entries.length < size) :
    ∃ front, stream = front ++ (readEntries flag size entries stream).2 ∧
      (readEntries flag size entries stream).1 =
        (front.filter (fun e => flag = .getDirOnly → e.kind = .dir)).reverse ++ entries ∧
      ((readEntries flag size entries stream).1.length < size →
        (readEntries flag size entries stream).2 = []) := by
  induction stream generalizing entries with
  | nil => exact ⟨[], rfl, rfl, fun _ => rfl⟩
  | cons e stream ih =>
    rw [readEntries]
    split_ifs with hskip hfull
    · obtain ⟨front, hstr, hents, hend⟩ := ih entries h
      refine ⟨e :: front, congrArg (e :: ·) hstr, ?_, hend⟩
      rw [hents, filter_cons_of_neg (by simpa using hskip)]
    · refine ⟨[e], rfl, ?_, ?_⟩
      · rw [filter_cons_of_pos (by simpa [imp_iff_not_or] using hskip)]
        rfl
      · intro hlt
        exact absurd hfull (Nat.ne_of_lt hlt)
    · obtain ⟨front, hstr, hents, hend⟩ := ih (e :: entries) (Nat.lt_of_le_of_ne h hfull)
      refine ⟨e :: front, congrArg (e :: ·) hstr, ?_, hend⟩
      rw [hents, filter_cons_of_pos (by simpa [imp_iff_not_or] using hskip),
        reverse_cons, append_assoc]
      rfl

theorem reads_readEntries (size : Nat) (stream entries : List Entry) (h : entries.length < size) :
    Reads flag size entries stream (readEntries flag size entries stream) := by
  obtain ⟨front, hstr, hents, hend⟩ := exists_readEntries flag size stream entries h
  generalize readEntries flag size entries stream = r at hstr hents hend ⊢
  subst hstr
  have hmem : ∀ e, e ∈ r.1 ↔ (e ∈ front ∧ (flag = .getDirOnly → e.kind = .dir)) ∨ e ∈ entries := by
    simp [hents, imp_iff_not_or]
  constructor
  · exact fun e he => (hmem e).mpr (.inr he)
  · intro e he hdir
    exact (mem_append.mp he).imp_left (fun he => (hmem e).mpr (.inl ⟨he, hdir⟩))
  · intro e he
    exact ((hmem e).mp he).symm.imp_right (And.imp_left (mem_append_left r.2))
  · exact fun e he => mem_append_right front he
  · exact hend
  · have := length_filter_le (fun e => flag = .getDirOnly → e.kind = .dir) front
    simp only [hents, length_append, length_reverse]
    omega

theorem reads_posixGetdents (stream : List Entry) :
    Reads flag getdentsCount [] stream (posixGetdents flag getdentsCount stream) :=
  reads_readEntries flag getdentsCount stream [] (by decide)

variable {flag : SetFlag} {entry : Entry} {dir ns es : List Entry} {K : Entry → Prop} {w : World}
  {n k i : Nat} {s : State} {calls calls' rest : List Call} {call : Call}
  {content : Nat → List Entry}

theorem length_createEntry {dir' : List Entry} (h : createEntry flag entry dir = some dir') :
    dir'.length ≤ dir.length + 1 := by
  unfold createEntry at h
  split_ifs at h with hflag hany
  · split at h
    · split_ifs at h
      cases h
      omega
    · cases h
      simp
  · cases h
    omega

theorem length_posixSetdents (flag : SetFlag) (entries dir : List Entry) :
    (posixSetdents flag entries dir).length ≤ dir.length + entries.length := by
  induction entries generalizing dir with
  | nil => simp [posixSetdents]
  | cons entry entries ih =>
    rw [posixSetdents]
    cases h : createEntry flag entry dir with
    | none => simp
    | some dir' =>
      have := ih dir'
      have := length_createEntry h
      simp only [length_cons]
      omega

def Agree (K : Entry → Prop) : Prop :=
  ∀ e e', K e → K e' → e.name = e'.name → e = e'

theorem createEntry_of_agree (hK : Agree K) (hdir : ∀ e ∈ dir, K e) (hent : K entry)
    (hflag : entry.kind = .dir ∨ flag = .setIfNotPresent) :
    ∃ dir', createEntry flag entry dir = some dir' ∧ ∀ e, e ∈ dir' ↔ e ∈ dir ∨ e = entry := by
  unfold createEntry
  rw [if_pos hflag]
  cases hfind : dir.find? (fun e => e.name = entry.name) with
  | none => exact ⟨dir ++ [entry], rfl, by simp⟩
  | some e =>
    have hmem := mem_of_find?_eq_some hfind
    have hname := find?_some hfind
    simp only [decide_eq_true_eq] at hname
    obtain rfl : e = entry := hK e entry (hdir e hmem) hent hname
    refine ⟨dir, by simp, ?_⟩
    intro e'
    constructor
    · exact .inl
    · rintro (h | rfl)
      · exact h
      · exact hmem

theorem mem_posixSetdents (hK : Agree K) {entries : List Entry} (hdir : ∀ e ∈ dir, K e)
    (hents : ∀ e ∈ entries, K e) (hflag : ∀ e ∈ entries, e.kind = .dir ∨ flag = .setIfNotPresent)
    (e : Entry) : e ∈ posixSetdents flag entries dir ↔ e ∈ dir ∨ e ∈ entries := by
  induction entries generalizing dir with
  | nil => simp [posixSetdents]
  | cons entry entries ih =>
    rw [forall_mem_cons] at hents hflag
    obtain ⟨dir', hdir', hmem⟩ := createEntry_of_agree hK hdir hents.1 hflag.1
    have hknown : ∀ e ∈ dir', K e := by
      intro e he
      rcases (hmem e).mp he with h | rfl
      · exact hdir e h
      · exact hents.1
    rw [posixSetdents, hdir']
    rw [ih hknown hents.2 hflag.2, hmem, mem_cons, or_assoc]

section

variable (w : World) (n : Nat) (content : Nat → List Entry) (ns : List Entry)

def Known (e : Entry) : Prop :=
  e ∈ ns ∨ ∃ i < n, e ∈ content i

structure Opening (s : State) (calls : List Call) : Prop where
  ops : ∀ c ∈ calls, c.op = .opendir
  nonempty : calls ≠ []
  count : s.callCount = calls.length
  ok : s.failed = false
  no_answer : s.answers = []
  flags : s.flags = false
  content_eq : s.content = content
  streams_eq : s.streams = content
  ns_eq : s.ns = ns
  ns_unread : s.nsStream = none

def Stores (s : State) (c : Call) : Prop :=
  c.op = .getdents ∨ ∃ es, c.op = .nsSetdents es ∧ (∀ e ∈ es, e ∈ content c.node) ∧
      s.countList c.node = es.length ∧ (es.length < getdentsCount → s.streams c.node = [])

/-- An entry that a call will bring to the namespace, at once or after another read. -/
def Brings (s : State) (e : Entry) (c : Call) : Prop :=
  e ∈ s.streams c.node ∨ ∃ es, c.op = .nsSetdents es ∧ e ∈ es

/-- The storage nodes are read, with one call in flight for each that has not come to its end. -/
structure Storing (s : State) (calls : List Call) : Prop where
  nodes : (calls.map Call.node).Nodup
  node_lt : ∀ c ∈ calls, c.node < n
  ops : ∀ c ∈ calls, Stores content s c
  nonempty : calls ≠ []
  count : s.callCount = calls.length
  no_answer : s.answers = []
  flags : s.flags = false
  content_eq : s.content = content
  ns_kept : ∀ e ∈ ns, e ∈ s.ns
  ns_known : ∀ e ∈ s.ns, Known n content ns e
  ns_unread : s.nsStream = none
  stream : ∀ i, ∀ e ∈ s.streams i, e ∈ content i
  stored : ∀ i < n, ∀ e ∈ content i, e ∈ s.ns ∨ ∃ c ∈ calls, c.node = i ∧ Brings s e c

structure Complete (s : State) : Prop where
  some_node : n ≠ 0
  no_answer : s.answers = []
  kept : ∀ i < n, ∀ e ∈ content i, e ∈ s.content i
  ns_kept : ∀ e ∈ ns, e ∈ s.ns
  names : ∀ i < n, ∀ e ∈ s.content i, e ∈ s.ns
  ns_known : ∀ e ∈ s.ns, Known n content ns e

def State.ahead (s : State) : List Entry :=
  s.nsStream.getD (w.order s.ns)

structure Reading (s : State) (calls : List Call) : Prop extends Complete n content ns s where
  calls_eq : calls = [⟨n, .nsGetdents⟩]
  flags : s.flags = false
  stream : ∀ e ∈ s.ahead w, e ∈ s.ns
  dirs : ∀ i < n, ∀ e ∈ s.ns, e.kind = .dir → e ∈ s.content i ∨ e ∈ s.ahead w

structure Writing
    (s : State) (calls : List Call) (es : List Entry) : Prop extends Complete n content ns s where
  ops : ∀ c ∈ calls, c.op = .setdents es
  node_lt : ∀ c ∈ calls, c.node < n
  nonempty : calls ≠ []
  count : s.callCount = calls.length
  count_list : s.countList 0 = es.length
  flags : s.flags = true ↔ es.length < getdentsCount
  batch : ∀ e ∈ es, e ∈ s.ns ∧ e.kind = .dir
  stream : ∀ e ∈ s.ahead w, e ∈ s.ns
  at_end : es.length < getdentsCount → s.ahead w = []
  dirs : ∀ i < n, ∀ e ∈ s.ns, e.kind = .dir →
    e ∈ s.content i ∨ e ∈ s.ahead w ∨ e ∈ es ∧ ∃ c ∈ calls, c.node = i

structure Healed (s : State) (calls : List Call) : Prop where
  calls_eq : calls = []
  answer : s.answers.length = 1
  converged : Converged n content ns s

inductive Phase (s : State) (calls : List Call) : Prop where
  | opening (h : Opening content ns s calls)
  | storing (h : Storing n content ns s calls)
  | reading (h : Reading w n content ns s calls)
  | writing (es : List Entry) (h : Writing w n content ns s calls es)
  | healed (h : Healed n content ns s calls)

/-- The weight of a call: more than all the calls that its reply can send, with what they write. -/
def weight : Op → Nat
  | .opendir => n * (n + 2) + 1
  | .getdents => n + 2
  | .nsSetdents es => n + 3 + n * (n + 2) * es.length
  | .nsGetdents => n + 1
  | .setdents es => if getdentsCount ≤ es.length then n + 2 else 1

def leftToRead (streams : Nat → List Entry) : Nat → Nat
  | 0 => 0
  | k + 1 => leftToRead streams k + (streams k).length

def work (s : State) (calls : List Call) : Nat :=
  (calls.map (fun c => weight n c.op)).sum + (n * (n + 2) + 2) * leftToRead s.streams n +
    n * (n + 2) * (s.ahead w).length

/-- A reply leads on, to the same phase or the next one, and leaves less work. -/
structure Advances (s : State) (calls : List Call) (s' : State) : Prop where
  phase : Phase w n content ns s' s'.pending
  less : work w n s' s'.pending < work w n s calls

end

theorem leftToRead_update_of_le (streams : Nat → List Entry) (rest : List Entry) (h : k ≤ i) :
    leftToRead (update streams i rest) k = leftToRead streams k := by
  induction k with
  | zero => rfl
  | succ k ih => rw [leftToRead, leftToRead, ih (by omega), update_of_ne (by omega)]

theorem leftToRead_update (streams : Nat → List Entry) (rest : List Entry) (h : i < k) :
    leftToRead (update streams i rest) k + (streams i).length =
      leftToRead streams k + rest.length := by
  induction k with
  | zero => omega
  | succ k ih =>
    rw [leftToRead, leftToRead]
    rcases Nat.lt_succ_iff_lt_or_eq.mp h with hlt | rfl
    · rw [update_of_ne (by omega)]
      omega
    · rw [leftToRead_update_of_le streams rest (Nat.le_refl i), update_self]
      omega

theorem work_perm (hp : calls.Perm calls') : work w n s calls = work w n s calls' := by
  unfold work
  rw [(hp.map _).sum_eq]

variable (c : Call)

theorem work_cons : work w n s (c :: calls) = weight n c.op + work w n s calls := by
  simp only [work, map_cons, sum_cons]
  omega

theorem work_append : work w n s (calls ++ [c]) = weight n c.op + work w n s calls := by
  rw [work_perm (perm_append_singleton c calls), work_cons]

theorem work_wind :
    work w n (wind s [c]) (wind s [c]).pending = weight n c.op + work w n s s.pending :=
  work_append c

theorem work_read {rest : List Entry} (hi : i < n) (h : k + rest.length ≤ (s.streams i).length) :
    work w n { s with streams := update s.streams i rest } calls + (n * (n + 2) + 2) * k ≤
      work w n s calls := by
  have hleft := leftToRead_update s.streams rest hi
  have hmul : (n * (n + 2) + 2) * (leftToRead (update s.streams i rest) n + k) ≤
      (n * (n + 2) + 2) * leftToRead s.streams n :=
    Nat.mul_le_mul_left _ (by omega)
  rw [Nat.mul_add] at hmul
  show _ + (n * (n + 2) + 2) * leftToRead (update s.streams i rest) n +
    n * (n + 2) * (s.ahead w).length + _ ≤ _
  unfold work
  omega

theorem work_store (hunread : s.nsStream = none) (h : dir.length ≤ s.ns.length + k) :
    work w n { s with ns := dir } calls ≤ work w n s calls + n * (n + 2) * k := by
  have hlen : ∀ dir, (State.ahead w { s with ns := dir }).length = dir.length := by
    intro dir
    rw [State.ahead, hunread, Option.getD_none]
    exact (w.order_perm dir).length_eq
  have hmul : n * (n + 2) * dir.length ≤ n * (n + 2) * (s.ns.length + k) := Nat.mul_le_mul_left _ h
  rw [Nat.mul_add (n * (n + 2))] at hmul
  have hold : (s.ahead w).length = s.ns.length := hlen s.ns
  show _ + (n * (n + 2) + 2) * leftToRead s.streams n + _ ≤ _
  unfold work
  rw [hlen, hold]
  omega

theorem work_ahead {rest : List Entry} (h : k + rest.length ≤ (s.ahead w).length) :
    work w n { s with nsStream := some rest } calls + n * (n + 2) * k ≤ work w n s calls := by
  have hmul : n * (n + 2) * (rest.length + k) ≤ n * (n + 2) * (s.ahead w).length :=
    Nat.mul_le_mul_left _ (by omega)
  rw [Nat.mul_add (n * (n + 2))] at hmul
  show _ + (n * (n + 2) + 2) * leftToRead s.streams n + n * (n + 2) * rest.length + _ ≤ _
  unfold work
  omega

theorem work_range (op : Op) :
    work w n s ((range n).map (fun i => ⟨i, op⟩)) = n * weight n op + work w n s [] := by
  simp only [work, map_map, comp_def, map_const', sum_replicate_nat, length_range, map_nil, sum_nil]
  omega

theorem callCount_sub_one (h : s.callCount = (call :: s.pending).length) :
    s.callCount - 1 = s.pending.length := by
  rw [h]
  simp

theorem callCount_eq_zero_iff (h : s.callCount = (call :: s.pending).length) :
    s.callCount - 1 = 0 ↔ s.pending = [] := by
  rw [callCount_sub_one h, ← length_eq_zero_iff]
  exact Int.natCast_eq_zero

theorem Opening.perm (h : Opening content ns s calls) (hp : calls.Perm calls') :
    Opening content ns s calls' :=
  { h with
    ops := fun c hc => h.ops c (hp.mem_iff.mpr hc)
    nonempty := fun hnil => h.nonempty (by rw [hnil] at hp; exact hp.eq_nil)
    count := by rw [h.count, hp.length_eq] }

theorem Opening.read (h : Opening content ns s calls) (hn : n ≠ 0) :
    Storing n content ns
      { s with
        callCount := (n : Int),
        opRet := 0,
        countList := fun _ => 0,
        pending := (range n).map (fun i => ⟨i, .getdents⟩) }
      ((range n).map (fun i => ⟨i, .getdents⟩)) := by
  refine ⟨?_, ?_, ?_, ?_, ?_, h.no_answer, h.flags, h.content_eq, ?_, ?_, h.ns_unread, ?_, ?_⟩
  · simp [comp_def, nodup_range]
  · simp
  · intro c hc
    obtain ⟨i, _, rfl⟩ := mem_map.mp hc
    exact .inl rfl
  · simpa using hn
  · simp
  · intro e he
    exact h.ns_eq ▸ he
  · intro e he
    exact .inl (h.ns_eq ▸ he)
  · intro i e he
    exact h.streams_eq ▸ he
  · intro i hi e he
    refine .inr ⟨⟨i, .getdents⟩, ?_, rfl, .inl (h.streams_eq.symm ▸ he)⟩
    exact mem_map.mpr ⟨i, mem_range.mpr hi, rfl⟩

theorem Opening.advances (h : Opening content ns s (call :: s.pending)) :
    Advances w n content ns s (call :: s.pending) (reply w n s call .ok) := by
  have hop : call.op = .opendir := h.ops call mem_cons_self
  have hcnt := callCount_sub_one h.count
  have hrep : reply w n s call .ok = shOpendirCbk n s 0 := by
    unfold reply
    rw [hop]
  have hlt : work w n s s.pending < work w n s (call :: s.pending) := by
    rw [work_cons, hop]
    simp only [weight]
    omega
  rw [hrep]
  by_cases hlast : s.pending = []
  · have hzero := (callCount_eq_zero_iff h.count).mpr hlast
    by_cases hn : n = 0
    · subst hn
      have hstate : shOpendirCbk 0 s 0 =
          { s with callCount := 0, opRet := 0, answers := s.answers ++ [0] } := by
        simp [shOpendirCbk, hzero, shOpendirLast, h.ok, unwind]
      rw [hstate]
      refine ⟨.healed ⟨hlast, by simp [h.no_answer], ?_⟩, hlt⟩
      exact ⟨by simp, fun e he => h.ns_eq.symm ▸ he, by simp, by simp⟩
    · have hstate : shOpendirCbk n s 0 =
          { s with
            callCount := (n : Int),
            opRet := 0,
            countList := fun _ => 0,
            pending := (range n).map (fun i => ⟨i, .getdents⟩) } := by
        simp [shOpendirCbk, hzero, shOpendirLast, h.ok, wind, hn, hlast]
      rw [hstate]
      refine ⟨.storing (h.read hn), ?_⟩
      show work w n s ((range n).map (fun i => ⟨i, .getdents⟩)) < _
      rw [work_range, work_cons, hop, hlast]
      simp only [weight]
      omega
  · have hne := mt (callCount_eq_zero_iff h.count).mp hlast
    have hstate : shOpendirCbk n s 0 = { s with callCount := s.callCount - 1, opRet := 0 } := by
      simp [shOpendirCbk, hne]
    rw [hstate]
    refine ⟨.opening ?_, hlt⟩
    exact { h with
      ops := (forall_mem_cons.mp h.ops).2
      nonempty := hlast
      count := hcnt }

theorem Storing.perm (h : Storing n content ns s calls) (hp : calls.Perm calls') :
    Storing n content ns s calls' :=
  { h with
    nodes := (hp.map Call.node).nodup_iff.mp h.nodes
    node_lt := fun c hc => h.node_lt c (hp.mem_iff.mpr hc)
    ops := fun c hc => h.ops c (hp.mem_iff.mpr hc)
    nonempty := fun hnil => h.nonempty (by rw [hnil] at hp; exact hp.eq_nil)
    count := by rw [h.count, hp.length_eq]
    stored := fun i hi e he => (h.stored i hi e he).imp_right
      (fun ⟨c, hc, hbri⟩ => ⟨c, hp.mem_iff.mp hc, hbri⟩) }

variable {c}

theorem Storing.node_ne (h : Storing n content ns s (call :: rest)) (hc : c ∈ rest) :
    c.node ≠ call.node := by
  have hnodes := h.nodes
  rw [map_cons, nodup_cons] at hnodes
  intro heq
  exact hnodes.1 (heq ▸ mem_map_of_mem hc)

theorem Storing.stored_node {e : Entry} (h : Storing n content ns s (call :: rest))
    (he : e ∈ content call.node) : e ∈ s.ns ∨ Brings s e call := by
  rcases h.stored call.node (h.node_lt call mem_cons_self) e he with hns | ⟨c, hc, hnode, hbri⟩
  · exact .inl hns
  · rcases mem_cons.mp hc with rfl | hc
    · exact .inr hbri
    · exact absurd hnode (h.node_ne hc)

theorem Storing.store (h : Storing n content ns s calls) (hsub : ∀ e ∈ s.ns, e ∈ dir)
    (hknown : ∀ e ∈ dir, Known n content ns e) : Storing n content ns { s with ns := dir } calls :=
  { h with
    ns_kept := fun e he => hsub e (h.ns_kept e he)
    ns_known := hknown
    stored := fun i hi e he => (h.stored i hi e he).imp_left (hsub e) }

theorem Storing.again (h : Storing n content ns s (call :: rest))
    (hdone : ∀ es, call.op = .nsSetdents es → ∀ e ∈ es, e ∈ s.ns) :
    Storing n content ns s (⟨call.node, .getdents⟩ :: rest) :=
  { h with
    nodes := h.nodes
    node_lt := by
      rw [forall_mem_cons]
      exact forall_mem_cons.mp h.node_lt
    ops := by
      rw [forall_mem_cons]
      exact ⟨.inl rfl, (forall_mem_cons.mp h.ops).2⟩
    nonempty := by simp
    stored := by
      intro i hi e he
      rcases h.stored i hi e he with hns | ⟨c, hc, rfl, hbri⟩
      · exact .inl hns
      · rcases mem_cons.mp hc with rfl | hc
        · rcases hbri with hstr | ⟨es, hop, hmem⟩
          · exact .inr ⟨_, mem_cons_self, rfl, .inl hstr⟩
          · exact .inl (hdone es hop e hmem)
        · exact .inr ⟨c, mem_cons_of_mem _ hc, rfl, hbri⟩ }

theorem Storing.send (h : Storing n content ns s (call :: rest)) (hop : call.op = .getdents)
    {r : List Entry × List Entry} (hr : Reads .getAll getdentsCount [] (s.streams call.node) r) :
    Storing n content ns
      { s with
        streams := update s.streams call.node r.2,
        countList := update s.countList call.node r.1.length }
      (⟨call.node, .nsSetdents r.1⟩ :: rest) := by
  have hfrom : ∀ e ∈ r.1, e ∈ content call.node := by
    intro e he
    rcases hr.from_stream e he with hnil | ⟨hmem, _⟩
    · simp at hnil
    · exact h.stream call.node e hmem
  refine { h with
    nodes := h.nodes, node_lt := ?_, ops := ?_, nonempty := by simp, count := h.count,
    stream := ?_, stored := ?_ }
  · rw [forall_mem_cons]
    exact forall_mem_cons.mp h.node_lt
  · rw [forall_mem_cons]
    constructor
    · refine .inr ⟨r.1, rfl, hfrom, ?_, ?_⟩
      · exact update_self ..
      · intro hlt
        show update s.streams call.node r.2 call.node = []
        rw [update_self]
        exact hr.at_end hlt
    · intro c hc
      refine (h.ops c (mem_cons_of_mem call hc)).imp_right ?_
      rintro ⟨es, hes, hmem, hlen, hend⟩
      refine ⟨es, hes, hmem, ?_, ?_⟩
      · show update s.countList call.node r.1.length c.node = es.length
        rw [update_of_ne (h.node_ne hc)]
        exact hlen
      · show es.length < getdentsCount → update s.streams call.node r.2 c.node = []
        rw [update_of_ne (h.node_ne hc)]
        exact hend
  · intro i e he
    by_cases hi : i = call.node
    · subst hi
      refine h.stream call.node e (hr.rest e ?_)
      rwa [← update_self call.node r.2 s.streams]
    · refine h.stream i e ?_
      rwa [← update_of_ne hi r.2 s.streams]
  · intro i hi e he
    rcases h.stored i hi e he with hns | ⟨c, hc, rfl, hbri⟩
    · exact .inl hns
    · rcases mem_cons.mp hc with rfl | hc
      · -- the call that is answered had its entries in the stream
        have hstr : e ∈ s.streams c.node := by
          rcases hbri with hstr | ⟨es, hes, _⟩
          · exact hstr
          · simp [hop] at hes
        refine .inr ⟨⟨c.node, .nsSetdents r.1⟩, mem_cons_self, rfl, ?_⟩
        rcases hr.cover e hstr (by simp) with hmem | hmem
        · exact .inr ⟨r.1, rfl, hmem⟩
        · refine .inl ?_
          show e ∈ update s.streams c.node r.2 c.node
          rwa [update_self]
      · refine .inr ⟨c, mem_cons_of_mem _ hc, rfl, hbri.imp_left ?_⟩
        show e ∈ s.streams c.node → e ∈ update s.streams call.node r.2 c.node
        rw [update_of_ne (h.node_ne hc)]
        exact id

theorem Storing.nodeDone (h : Storing n content ns s (call :: s.pending))
    (hdone : ∀ e ∈ content call.node, e ∈ s.ns) :
    Phase w n content ns (nodeDone n s) (nodeDone n s).pending := by
  have hcnt := callCount_sub_one h.count
  have hsto : ∀ i < n, ∀ e ∈ content i, e ∈ s.ns ∨ ∃ c ∈ s.pending, c.node = i ∧ Brings s e c := by
    intro i hi e he
    rcases h.stored i hi e he with hns | ⟨c, hc, rfl, hbri⟩
    · exact .inl hns
    · rcases mem_cons.mp hc with rfl | hc
      · exact .inl (hdone e he)
      · exact .inr ⟨c, hc, rfl, hbri⟩
  by_cases hlast : s.pending = []
  · have hzero := (callCount_eq_zero_iff h.count).mpr hlast
    have hstate : SelfHeal.nodeDone n s =
        { s with callCount := s.callCount - 1, pending := [⟨n, .nsGetdents⟩] } := by
      simp [SelfHeal.nodeDone, hzero, wind, hlast]
    rw [hstate]
    have hns : ∀ i < n, ∀ e ∈ content i, e ∈ s.ns := by
      intro i hi e he
      simpa [hlast] using hsto i hi e he
    have hstr : ∀ e, e ∈ s.ahead w ↔ e ∈ s.ns := by
      intro e
      rw [State.ahead, h.ns_unread, Option.getD_none]
      exact (w.order_perm s.ns).mem_iff
    exact .reading
      { some_node := Nat.ne_zero_of_lt (h.node_lt call mem_cons_self)
        no_answer := h.no_answer
        kept := fun i _ e he => h.content_eq.symm ▸ he
        ns_kept := h.ns_kept
        names := fun i hi e he => hns i hi e (h.content_eq ▸ he)
        ns_known := h.ns_known
        calls_eq := rfl
        flags := h.flags
        stream := fun e he => (hstr e).mp he
        dirs := fun i _ e he _ => .inr ((hstr e).mpr he) }
  · have hne := mt (callCount_eq_zero_iff h.count).mp hlast
    have hstate : SelfHeal.nodeDone n s = { s with callCount := s.callCount - 1 } := by
      simp [SelfHeal.nodeDone, hne]
    rw [hstate]
    exact .storing { h with
      nodes := (nodup_cons.mp h.nodes).2
      node_lt := (forall_mem_cons.mp h.node_lt).2
      ops := (forall_mem_cons.mp h.ops).2
      nonempty := hlast
      count := hcnt
      stored := hsto }

theorem Storing.wind (h : Storing n content ns s (c :: s.pending)) :
    Storing n content ns (wind s [c]) (wind s [c]).pending :=
  { h.perm (perm_append_singleton c s.pending).symm with }

theorem work_nodeDone (s : State) :
    work w n (nodeDone n s) (nodeDone n s).pending ≤ n + 1 + work w n s s.pending := by
  unfold nodeDone
  split_ifs
  · rw [work_wind]
    exact Nat.le_refl _
  · exact le_add_left _ _

theorem Storing.advances_getdents (h : Storing n content ns s (call :: s.pending))
    (hop : call.op = .getdents) :
    Advances w n content ns s (call :: s.pending) (reply w n s call .ok) := by
  have hr := reads_posixGetdents .getAll (s.streams call.node)
  generalize hbatch : posixGetdents .getAll getdentsCount (s.streams call.node) = r at hr
  have hrep : reply w n s call .ok = shGetdentsCbk n call.node
        { s with streams := update s.streams call.node r.2 }
        0 r.1 r.1.length := by
    unfold reply
    rw [hop]
    simp only [hbatch]
  rw [hrep]
  unfold shGetdentsCbk
  by_cases hpos : 0 < r.1.length
  · rw [if_pos ⟨Int.le_refl 0, hpos⟩]
    refine ⟨.storing (h.send hop hr).wind, ?_⟩
    rw [work_wind, work_cons, hop]
    have hread : work w n { s with streams := update s.streams call.node r.2 } s.pending +
        (n * (n + 2) + 2) * r.1.length ≤ work w n s s.pending :=
      work_read (h.node_lt call mem_cons_self) (by simpa using hr.length)
    rw [Nat.add_mul] at hread
    show n + 3 + n * (n + 2) * r.1.length +
      work w n { s with streams := update s.streams call.node r.2 } s.pending <
      n + 2 + work w n s s.pending
    omega
  · have hnil : r.1 = [] := by
      rw [← length_eq_zero_iff]
      omega
    have hend : r.2 = [] := hr.at_end (by rw [hnil]; decide)
    have hstr : s.streams call.node = [] := by
      rw [eq_nil_iff_forall_not_mem]
      intro e he
      have := hr.cover e he (by simp)
      simp [hnil, hend] at this
    have hstreams : update s.streams call.node r.2 = s.streams := by
      rw [hend, ← hstr, update_eq_self]
    rw [if_neg (fun hcond => hpos hcond.2), if_pos (by rw [hnil]; decide), hstreams]
    refine ⟨h.nodeDone ?_, ?_⟩
    · intro e he
      rcases h.stored_node he with hns | hmem | ⟨es, hes, _⟩
      · exact hns
      · simp [hstr] at hmem
      · simp [hop] at hes
    · refine Nat.lt_of_le_of_lt (work_nodeDone _) ?_
      rw [work_cons, hop]
      show n + 1 + work w n s s.pending < n + 2 + work w n s s.pending
      omega

theorem Storing.advances_nsSetdents (hK : Agree (Known n content ns))
    (h : Storing n content ns s (call :: s.pending)) (hop : call.op = .nsSetdents es) :
    Advances w n content ns s (call :: s.pending) (reply w n s call .ok) := by
  have hlt : call.node < n := h.node_lt call mem_cons_self
  obtain ⟨hmem, hlen, hend⟩ : (∀ e ∈ es, e ∈ content call.node) ∧
      s.countList call.node = es.length ∧
      (es.length < getdentsCount → s.streams call.node = []) := by
    rcases h.ops call mem_cons_self with hget | ⟨es', hes', hrest⟩
    · simp [hop] at hget
    · rw [hop] at hes'
      cases hes'
      exact hrest
  have hdir : ∀ e, e ∈ posixSetdents .setIfNotPresent es s.ns ↔ e ∈ s.ns ∨ e ∈ es :=
    mem_posixSetdents hK h.ns_known (fun e he => .inr ⟨call.node, hlt, hmem e he⟩)
      (fun _ _ => .inr rfl)
  have hlength := length_posixSetdents .setIfNotPresent es s.ns
  generalize hstore : posixSetdents .setIfNotPresent es s.ns = dir at hdir hlength
  have hrep : reply w n s call .ok = shNsSetdentsCbk n call.node { s with ns := dir } := by
    unfold reply
    rw [hop]
    simp only [hstore]
  have hs : Storing n content ns { s with ns := dir } (call :: s.pending) := by
    refine h.store (fun e he => (hdir e).mpr (.inl he)) ?_
    intro e he
    rcases (hdir e).mp he with hns | hes
    · exact h.ns_known e hns
    · exact .inr ⟨call.node, hlt, hmem e hes⟩
  have hless : n + 3 + work w n { s with ns := dir } s.pending ≤ work w n s (call :: s.pending) := by
    have hsto : work w n { s with ns := dir } s.pending ≤
        work w n s s.pending + n * (n + 2) * es.length :=
      work_store h.ns_unread hlength
    rw [work_cons, hop]
    simp only [weight]
    omega
  rw [hrep]
  unfold shNsSetdentsCbk
  by_cases hfull : es.length < getdentsCount
  · rw [if_pos (hlen.trans_lt hfull)]
    refine ⟨hs.nodeDone ?_, ?_⟩
    · intro e he
      rcases hs.stored_node he with hns | hstr | ⟨es', hes', hin⟩
      · exact hns
      · have hnone := hend hfull
        exact absurd hstr (by simp [hnone])
      · rw [hop] at hes'
        cases hes'
        exact (hdir e).mpr (.inr hin)
    · refine Nat.lt_of_le_of_lt (work_nodeDone _) ?_
      show n + 1 + work w n { s with ns := dir } s.pending < work w n s (call :: s.pending)
      omega
  · rw [if_neg (fun hcond => hfull (hlen ▸ hcond))]
    have hagain := hs.again (fun es' hes' e he => by
      rw [hop] at hes'
      cases hes'
      exact (hdir e).mpr (.inr he))
    refine ⟨.storing hagain.wind, ?_⟩
    rw [work_wind]
    show n + 2 + work w n { s with ns := dir } s.pending < _
    omega

theorem Writing.perm (h : Writing w n content ns s calls es) (hp : calls.Perm calls') :
    Writing w n content ns s calls' es :=
  { h with
    ops := fun c hc => h.ops c (hp.mem_iff.mpr hc)
    node_lt := fun c hc => h.node_lt c (hp.mem_iff.mpr hc)
    nonempty := fun hnil => h.nonempty (by rw [hnil] at hp; exact hp.eq_nil)
    count := by rw [h.count, hp.length_eq]
    dirs := fun i hi e he hdir => (h.dirs i hi e he hdir).imp_right (Or.imp_right
      (And.imp_right (fun ⟨c, hc, hnode⟩ => ⟨c, hp.mem_iff.mp hc, hnode⟩))) }

theorem Reading.advances (h : Reading w n content ns s (call :: s.pending)) :
    Advances w n content ns s (call :: s.pending) (reply w n s call .ok) := by
  have hr := reads_posixGetdents .getDirOnly (s.ahead w)
  generalize hbatch : posixGetdents .getDirOnly getdentsCount (s.ahead w) = r at hr
  obtain ⟨rfl, hnil⟩ : call = ⟨n, .nsGetdents⟩ ∧ s.pending = [] := by simpa using h.calls_eq
  have hrep : reply w n s ⟨n, .nsGetdents⟩ .ok =
      { s with
        nsStream := some r.2,
        countList := update s.countList 0 r.1.length,
        callCount := n,
        flags := decide (r.1.length < getdentsCount),
        pending := (range n).map (fun i => ⟨i, .setdents r.1⟩) } := by
    unfold State.ahead at hbatch
    simp [reply, hbatch, shNsGetdentsCbk, wind, h.flags, hnil]
  rw [hrep]
  have hfrom : ∀ e ∈ r.1, e ∈ s.ahead w ∧ e.kind = .dir := by
    intro e he
    simpa using hr.from_stream e he
  refine ⟨.writing r.1 ?_, ?_⟩
  · exact
      { h.toComplete with
        ops := by simp
        node_lt := by simp
        nonempty := by simpa using h.some_node
        count := by simp
        count_list := update_self 0 r.1.length s.countList
        flags := by simp
        batch := fun e he => ⟨h.stream e (hfrom e he).1, (hfrom e he).2⟩
        stream := fun e he => h.stream e (hr.rest e he)
        at_end := hr.at_end
        dirs := by
          intro i hi e he hdir
          rcases h.dirs i hi e he hdir with hin | hahead
          · exact .inl hin
          · rcases hr.cover e hahead (fun _ => hdir) with hmem | hmem
            · exact .inr (.inr ⟨hmem, ⟨i, .setdents r.1⟩, by simpa using hi, rfl⟩)
            · exact .inr (.inl hmem) }
  · have hread : work w n { s with nsStream := some r.2 } [] + n * (n + 2) * r.1.length ≤
        work w n s [] :=
      work_ahead (by simpa using hr.length)
    show work w n { s with nsStream := some r.2 } ((range n).map (fun i => ⟨i, .setdents r.1⟩)) < _
    have hrest : work w n s s.pending = work w n s [] := by rw [hnil]
    rw [work_range, work_cons, hrest]
    simp only [weight]
    split_ifs with hfull
    · have hbatch : n * (n + 2) * 1 ≤ n * (n + 2) * r.1.length :=
        Nat.mul_le_mul_left _ (Nat.le_trans (by decide) hfull)
      omega
    · omega

theorem Complete.write (h : Complete n content ns s) (hsub : ∀ e ∈ s.content i, e ∈ dir)
    (hdir : ∀ e ∈ dir, e ∈ s.ns) :
    Complete n content ns { s with content := update s.content i dir } := by
  refine { h with kept := ?_, names := ?_ }
  · intro j hj e he
    show e ∈ update s.content i dir j
    by_cases hji : j = i
    · subst hji
      rw [update_self]
      exact hsub e (h.kept j hj e he)
    · rw [update_of_ne hji]
      exact h.kept j hj e he
  · intro j hj e he
    by_cases hji : j = i
    · subst hji
      refine hdir e ?_
      rwa [← update_self j dir s.content]
    · refine h.names j hj e ?_
      rwa [← update_of_ne hji dir s.content]

theorem Writing.dirs_write (h : Writing w n content ns s (call :: rest) es)
    (hdir : ∀ e, e ∈ dir ↔ e ∈ s.content call.node ∨ e ∈ es) :
    ∀ i < n, ∀ e ∈ s.ns, e.kind = .dir →
      e ∈ update s.content call.node dir i ∨ e ∈ s.ahead w ∨ e ∈ es ∧ ∃ c ∈ rest, c.node = i := by
  intro i hi e he hkind
  by_cases hnode : i = call.node
  · subst hnode
    rw [update_self, hdir]
    rcases h.dirs call.node hi e he hkind with hin | hahead | ⟨hes, _⟩
    · exact .inl (.inl hin)
    · exact .inr (.inl hahead)
    · exact .inl (.inr hes)
  · rw [update_of_ne hnode]
    rcases h.dirs i hi e he hkind with hin | hahead | ⟨hes, c, hc, hci⟩
    · exact .inl hin
    · exact .inr (.inl hahead)
    · rcases mem_cons.mp hc with rfl | hc
      · exact absurd hci.symm hnode
      · exact .inr (.inr ⟨hes, c, hc, hci⟩)

theorem Writing.advances (hK : Agree (Known n content ns))
    (h : Writing w n content ns s (call :: s.pending) es) :
    Advances w n content ns s (call :: s.pending) (reply w n s call .ok) := by
  have hop : call.op = .setdents es := h.ops call mem_cons_self
  have hlt : call.node < n := h.node_lt call mem_cons_self
  have hdir : ∀ e, e ∈ posixSetdents .setDirOnly es (s.content call.node) ↔
      e ∈ s.content call.node ∨ e ∈ es :=
    mem_posixSetdents hK (fun e he => h.ns_known e (h.names call.node hlt e he))
      (fun e he => h.ns_known e (h.batch e he).1)
      (fun e he => .inl (h.batch e he).2)
  generalize hwr : posixSetdents .setDirOnly es (s.content call.node) = dir at hdir
  have hcomp : Complete n content ns
      { s with content := update s.content call.node dir } := by
    refine h.toComplete.write (fun e he => (hdir e).mpr (.inl he)) ?_
    intro e he
    rcases (hdir e).mp he with hin | hes
    · exact h.names call.node hlt e hin
    · exact (h.batch e hes).1
  have hdirs := h.dirs_write hdir
  have hcnt := callCount_sub_one h.count
  have hne : s.callCount ≠ 0 := by omega
  have hrep : reply w n s call .ok =
      shSetdentsCbk n { s with content := update s.content call.node dir } := by
    unfold reply
    rw [hop]
    simp only [hwr]
  rw [hrep]
  generalize update s.content call.node dir = stored at hcomp hdirs ⊢
  have hless : work w n s s.pending < work w n s (call :: s.pending) := by
    rw [work_cons, hop]
    simp only [weight]
    split_ifs <;> omega
  by_cases hlast : s.pending = []
  · have hzero := (callCount_eq_zero_iff h.count).mpr hlast
    by_cases hend : es.length < getdentsCount
    · -- the last node has written the last batch
      have hstate : shSetdentsCbk n { s with content := stored } =
          { s with
            content := stored,
            callCount := 0,
            answers := s.answers ++ [s.opRet] } := by
        simp [shSetdentsCbk, hne, hzero, h.flags.mpr hend, unwind]
      rw [hstate]
      refine ⟨.healed ⟨hlast, by simp [h.no_answer], ?_⟩, hless⟩
      refine ⟨hcomp.kept, h.ns_kept, hcomp.names, ?_⟩
      intro i hi e he hkind
      simpa [h.at_end hend, hlast] using hdirs i hi e he hkind
    · have hflags : s.flags = false := by
        rw [← Bool.not_eq_true]
        exact fun hflags => hend (h.flags.mp hflags)
      have hstate : shSetdentsCbk n { s with content := stored } =
          { s with
            content := stored,
            callCount := 0,
            pending := [⟨n, .nsGetdents⟩] } := by
        simp [shSetdentsCbk, hne, hzero, hflags, h.count_list, Nat.not_lt.mp hend, wind, hlast]
      rw [hstate]
      refine ⟨.reading ?_, ?_⟩
      · exact
          { hcomp with
            calls_eq := rfl
            flags := hflags
            stream := h.stream
            dirs := by
              intro i hi e he hkind
              show e ∈ stored i ∨ e ∈ s.ahead w
              simpa [hlast] using hdirs i hi e he hkind }
      · show work w n s [⟨n, .nsGetdents⟩] < _
        rw [work_cons, work_cons, hop, hlast]
        simp only [weight, if_pos (Nat.not_lt.mp hend)]
        omega
  · have hmore := mt (callCount_eq_zero_iff h.count).mp hlast
    have hstate : shSetdentsCbk n { s with content := stored } =
        { s with
          content := stored,
          callCount := s.callCount - 1 } := by simp [shSetdentsCbk, hne, hmore]
    rw [hstate]
    refine ⟨.writing es ?_, hless⟩
    exact
      { hcomp with
        ops := (forall_mem_cons.mp h.ops).2
        node_lt := (forall_mem_cons.mp h.node_lt).2
        nonempty := hlast
        count := hcnt
        count_list := h.count_list
        flags := h.flags
        batch := h.batch
        stream := h.stream
        at_end := h.at_end
        dirs := hdirs }

theorem Phase.perm (h : Phase w n content ns s calls) (hp : calls.Perm calls') :
    Phase w n content ns s calls' := by
  cases h with
  | opening h => exact .opening (h.perm hp)
  | storing h => exact .storing (h.perm hp)
  | reading h =>
    refine .reading { h with calls_eq := ?_ }
    rw [h.calls_eq] at hp
    exact (singleton_perm.mp hp).symm
  | writing es h => exact .writing es (h.perm hp)
  | healed h =>
    refine .healed { h with calls_eq := ?_ }
    rw [h.calls_eq] at hp
    exact hp.nil_eq.symm

theorem Phase.setPending (h : Phase w n content ns s calls) (pending : List Call) :
    Phase w n content ns { s with pending := pending } calls := by
  cases h with
  | opening h => exact .opening { h with }
  | storing h => exact .storing { h with }
  | reading h => exact .reading { h with }
  | writing es h => exact .writing es { h with }
  | healed h => exact .healed ⟨h.calls_eq, h.answer, { h.converged with }⟩

theorem Phase.advances (hK : Agree (Known n content ns))
    (h : Phase w n content ns s (call :: s.pending)) :
    Advances w n content ns s (call :: s.pending) (reply w n s call .ok) := by
  cases h with
  | opening h => exact h.advances
  | storing h =>
    rcases h.ops call mem_cons_self with hop | ⟨es, hop, _⟩
    · exact h.advances_getdents hop
    · exact h.advances_nsSetdents hK hop
  | reading h => exact h.advances
  | writing es h => exact h.advances hK
  | healed h => cases h.calls_eq

theorem Phase.step (hK : Agree (Known n content ns)) (h : Phase w n content ns s s.pending)
    {e : Event} {s' : State} (hok : e.outcome = .ok) (hstep : step w n s e = some s') :
    Phase w n content ns s' s'.pending ∧ work w n s' s'.pending < work w n s s.pending := by
  unfold SelfHeal.step at hstep
  split_ifs at hstep with hmem
  cases hstep
  have hperm := perm_cons_erase hmem
  obtain ⟨hph, hless⟩ := advances hK ((h.perm hperm).setPending (s.pending.erase e.call))
  rw [hok]
  refine ⟨hph, lt_of_lt_of_eq hless ?_⟩
  exact (work_perm hperm).symm

theorem Phase.answered_or_pending (h : Phase w n content ns s s.pending) :
    (s.answers = [] ∧ s.pending ≠ []) ∨ Healed n content ns s s.pending := by
  cases h with
  | opening h | storing h => exact .inl ⟨h.no_answer, h.nonempty⟩
  | reading h => exact .inl ⟨h.no_answer, by rw [h.calls_eq]; simp⟩
  | writing es h => exact .inl ⟨h.no_answer, h.nonempty⟩
  | healed h => exact .inr h

theorem Opening.init :
    Opening content ns (State.init n content ns) (State.init n content ns).pending where
  ops := by simp [State.init]
  nonempty := by simp [State.init]
  count := by simp [State.init]
  ok := rfl
  no_answer := rfl
  flags := rfl
  content_eq := rfl
  streams_eq := rfl
  ns_eq := rfl
  ns_unread := rfl

theorem agree_of_sameTypes (h : SameTypes n content ns) : Agree (Known n content ns) := by
  have hmem : ∀ e, Known n content ns e → e ∈ ns ++ (range n).flatMap content := by
    rintro e (he | ⟨i, hi, he⟩)
    · exact mem_append_left _ he
    · exact mem_append_right _ (mem_flatMap.mpr ⟨i, mem_range.mpr hi, he⟩)
  rintro ⟨name, kind⟩ ⟨name', kind'⟩ he he' hname
  have hkind : kind = kind' := h _ (hmem _ he) _ (hmem _ he') hname
  cases hname
  rw [hkind]

/--
The self-heal of a directory ends whatever the order of the replies, and answers the lookup once,
with all names on the namespace and all of its directories on every storage node.
-/
theorem heals (w : World) (n : Nat) (content : Nat → List Entry) (ns : List Entry)
    (h : SameTypes n content ns) : Heals w n content ns := by
  have hK := agree_of_sameTypes h
  refine ⟨work w n (State.init n content ns) (State.init n content ns).pending, ?_⟩
  intro es s hok hrun
  have hall : AllSteps (step w n) (fun _ e => e.outcome = .ok) (State.init n content ns) es :=
    AllSteps.of_forall _ (fun e he _ => hok e he) _
  obtain ⟨hph, hbound⟩ := run_decreases (P := fun s => Phase w n content ns s s.pending) (step w n)
    (fun s => work w n s s.pending) (fun s e s' hs he hs' => hs.step hK he hs') (.opening .init)
    hall hrun
  refine ⟨by omega, ?_⟩
  rcases hph.answered_or_pending with ⟨hanss, hpend⟩ | hhealed
  · refine ⟨fun _ => ?_, fun hne => absurd hanss hne⟩
    obtain ⟨call, hcall⟩ := exists_mem_of_ne_nil _ hpend
    exact ⟨call, by simp [SelfHeal.step, hcall]⟩
  · refine ⟨fun hnil => ?_, fun _ => ⟨hhealed.answer, hhealed.calls_eq, hhealed.converged⟩⟩
    have := hhealed.answer
    simp [hnil] at this

def oneSided : Nat → List Entry
  | 0 => [⟨"a", .dir⟩, ⟨"b", .reg⟩]
  | _ => []

theorem heals_oneSided : Heals ⟨id, fun dir => .refl dir⟩ 2 oneSided [⟨"c", .dir⟩] :=
  heals _ 2 oneSided [⟨"c", .dir⟩] (by decide)

end GlusterFS.Unify.SelfHeal
