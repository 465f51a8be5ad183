import GlusterFS.Lib.Bytes
import GlusterFS.Lib.Run
import GlusterFS.Lib.Transfer
import Mathlib.Data.List.Flatten

/-!
# Messages over a socket

A message is a header and a payload.  The sender puts a short frame with the two lengths in front
of them and queues what the socket does not take.  The receiver is a state machine that reads the
frame, and then the header and the payload into buffers of the lengths of the frame.  Both ends
keep half-moved vectors between their calls.

The calls of the two ends are taken one after the other.  Within one call of the receiver the
sender may go on, but what it writes only makes the stream longer, and so it could have been
written before.

The bytes that are in the stream and in the queue, behind those of the message that is being read,
are always the bytes of the messages that were not received yet.  So the messages come out
unchanged and in order (`received_prefix_submitted`).
-/

namespace GlusterFS.Socket

open Bytes List Function
open Run
open Transfer

structure Message where
  header : List Byte
  payload : List Byte
deriving DecidableEq

inductive Buffer where
  | frame
  | header
  | payload
deriving DecidableEq

inductive ProtoState where
  | nada
  | headerComing
  | headerCame
  | dataComing
  | dataCame
  | complete
deriving DecidableEq

structure Incoming where
  state : ProtoState
  store : Buffer → List Byte
  hdrlen : Nat
  buflen : Nat
  pending : List (Place Buffer)

def Incoming.init : Incoming where
  state := .nada
  store _ := []
  hdrlen := 0
  buflen := 0
  pending := []

def maxIovec : Nat := 16

def frameBytes (size1 size2 : Nat) : List Byte :=
  [58, 79, 0] ++ toNetwork 4 size1 ++ toNetwork 4 size2 ++ [42]

def frameSize : Nat := 12

def socketIoqNew (buf : List Byte) (vector : List (List Byte)) : List (List Byte) :=
  frameBytes buf.length vector.flatten.length :: buf :: vector

/-- `writev` takes at least one byte when it takes any. -/
def writev (stream : List Byte) (vector : List (List Byte)) (k : Nat) : Option (Nat × List Byte) :=
  let n := min (k + 1) vector.flatten.length
  if n = 0 then none else some (n, stream ++ vector.flatten.take n)

def socketWritev (stream : List Byte) (vector : List (List Byte)) (rs : List Result) :
    List Byte × List (List Byte) × List Result :=
  transfer length drop writev stream vector rs

/-- `readv` gives no more than what is there, and has to wait when there is nothing. -/
def readv (s : List Byte × (Buffer → List Byte)) (vector : List (Place Buffer)) (k : Nat) :
    Option (Nat × List Byte × (Buffer → List Byte)) :=
  let n := min (k + 1) (min s.1.length (total room vector))
  if n = 0 then none else some (n, s.1.drop n, fill (s.1.take n) vector s.2)

def socketReadv (stream : List Byte) (store : Buffer → List Byte) (vector : List (Place Buffer))
    (rs : List Result) : (List Byte × (Buffer → List Byte)) × List (Place Buffer) × List Result :=
  transfer room takeRoom readv (stream, store) vector rs

/-- The queue is written entry by entry, until the socket takes no more. -/
def socketIoqChurn :
    List Byte → List (List (List Byte)) → List Result →
      List Byte × List (List (List Byte)) × List Result
  | stream, [], rs => (stream, [], rs)
  | stream, entry :: ioq, rs =>
    let written := socketWritev stream entry rs
    if written.2.1 = [] then
      socketIoqChurn written.1 ioq written.2.2
    else
      (written.1, written.2.1 :: ioq, written.2.2)

def socketProtoValidateHeader (frame : List Byte) : Option (Nat × Nat) :=
  let size1 := ofNetwork ((frame.drop 3).take 4)
  let size2 := ofNetwork ((frame.drop 7).take 4)
  if frame.take 3 ≠ [58, 79, 0] then
    none
  else if (frame.drop 11).take 1 ≠ [42] then
    none
  else if size1 ≤ 0 ∨ size1 > 1048576 then
    none
  else if size2 > 1048576 * 4 then
    none
  else
    some (size1, size2)

/-- The receiver during a call: its state, the stream, and what the next reads will give. -/
structure Receiver where
  incoming : Incoming
  stream : List Byte
  results : List Result

inductive Outcome where
  | next (ret : Int)
  | exit (ret : Int)

/-- A read into the pending vector, and the state to go to when that is full. -/
def readInto (r : Receiver) (state : ProtoState) : Receiver × Outcome :=
  let got := socketReadv r.stream r.incoming.store r.incoming.pending r.results
  let incoming := { r.incoming with store := got.1.2, pending := got.2.1 }
  if got.2.1 = [] then
    (⟨{ incoming with state := state }, got.1.1, got.2.2⟩, .next 0)
  else
    (⟨incoming, got.1.1, got.2.2⟩, .exit got.2.1.length)

def protoTurn (ret : Int) (r : Receiver) : Receiver × Outcome :=
  match r.incoming.state with
  | .nada =>
    ({ r with incoming := { r.incoming with
        store := update r.incoming.store .frame [],
        pending := [(.frame, frameSize)],
        state := .headerComing } },
      .next ret)
  | .headerComing => readInto r .headerCame
  | .headerCame =>
    match socketProtoValidateHeader (r.incoming.store .frame) with
    | none => (r, .exit (-1))
    | some (size1, size2) =>
      ({ r with incoming := { r.incoming with
          hdrlen := size1,
          buflen := size2,
          store := update (update r.incoming.store .header []) .payload [],
          pending :=
            if size2 ≠ 0 then [(.header, size1), (.payload, size2)] else [(.header, size1)],
          state := .dataComing } },
        .next 0)
  | .dataComing => readInto r .dataCame
  | .dataCame =>
    ({ r with incoming := { r.incoming with pending := [], state := .complete } }, .next ret)
  | .complete => (r, .exit ret)

/-- `__socket_proto_state_machine`; no more turns are taken than there are states. -/
def protoLoop : Nat → Option ProtoState → Int → Receiver → Receiver × Int
  | 0, _, ret, r => (r, ret)
  | fuel + 1, previous, ret, r =>
    if r.incoming.state = .complete then
      (r, ret)
    else if previous = some r.incoming.state then
      (r, -1)
    else
      match protoTurn ret r with
      | (r', .exit ret') => (r', ret')
      | (r', .next ret') => protoLoop fuel (some r.incoming.state) ret' r'

def socketProtoStateMachine (r : Receiver) : Receiver × Int :=
  protoLoop 6 none (-1) r

/-- The two ends, and the messages that were submitted and received. -/
structure State where
  ioq : List (List (List Byte))
  stream : List Byte
  incoming : Incoming
  submitted : List Message
  received : List Message

def State.init : State where
  ioq := []
  stream := []
  incoming := .init
  submitted := []
  received := []

def Incoming.message (incoming : Incoming) : Message where
  header := (incoming.store .header).take incoming.hdrlen
  payload := (incoming.store .payload).take incoming.buflen

def socketReceive (s : State) : State :=
  if s.incoming.state = .complete then
    { s with incoming := .init, received := s.received ++ [s.incoming.message] }
  else
    s

/-- The receiver is told of a complete message and takes it; an error ends the connection. -/
def socketEventPollIn (s : State) (rs : List Result) : Option State :=
  let got := socketProtoStateMachine ⟨s.incoming, s.stream, rs⟩
  let s := { s with incoming := got.1.incoming, stream := got.1.stream }
  if got.2 = -1 then
    none
  else if got.2 = 0 then
    some (socketReceive s)
  else
    some s

def socketEventPollOut (s : State) (rs : List Result) : State :=
  let churned := socketIoqChurn s.stream s.ioq rs
  { s with stream := churned.1, ioq := churned.2.1 }

/-- A message that does not fit an entry is an assertion failure. -/
def socketSubmit (s : State) (buf : List Byte) (vector : List (List Byte)) (rs : List Result) :
    Option State :=
  if vector.length ≤ maxIovec - 2 then
    let entry := socketIoqNew buf vector
    let s : State := { s with submitted := s.submitted ++ [⟨buf, vector.flatten⟩] }
    if s.ioq = [] then
      let written := socketWritev s.stream entry rs
      if written.2.1 = [] then
        some { s with stream := written.1 }
      else
        some { s with stream := written.1, ioq := [written.2.1] }
    else
      some { s with ioq := s.ioq ++ [entry] }
  else
    none

inductive Event where
  | submit (buf : List Byte) (vector : List (List Byte)) (rs : List Result)
  | pollOut (rs : List Result)
  | pollIn (rs : List Result)

def step (s : State) : Event → Option State
  | .submit buf vector rs => socketSubmit s buf vector rs
  | .pollOut rs => some (socketEventPollOut s rs)
  | .pollIn rs => socketEventPollIn s rs

def Event.Fits : Event → Prop
  | .submit buf vector _ =>
    1 ≤ buf.length ∧ buf.length ≤ 1048576 ∧ vector.length ≤ 14 ∧ vector.flatten.length ≤ 1048576 * 4
  | _ => True

/-- The lengths of a message are such that the receiver takes it. -/
structure Message.Fits (m : Message) : Prop where
  pos : 1 ≤ m.header.length
  header_le : m.header.length ≤ 1048576
  payload_le : m.payload.length ≤ 1048576 * 4

def Message.frame (m : Message) : List Byte :=
  frameBytes m.header.length m.payload.length

def Message.encode (m : Message) : List Byte :=
  m.frame ++ (m.header ++ m.payload)

theorem length_frameBytes (size1 size2 : Nat) : (frameBytes size1 size2).length = frameSize := by
  simp [frameBytes, frameSize]

variable {m : Message} {vector : List (List Byte)} {incoming : Incoming} {r : Receiver}
  {waiting : List Message} {behind consumed : List Byte} {store₀ : Buffer → List Byte} {s : State}

open Message

theorem socketProtoValidateHeader_frame (h : m.Fits) :
    socketProtoValidateHeader m.frame = some (m.header.length, m.payload.length) := by
  have hmod : ∀ n : Nat, n < 2 ^ 32 → n % 256 ^ 4 = n := fun n hn => Nat.mod_eq_of_lt hn
  have hpos := h.pos
  have hhdr := h.header_le
  have hpay := h.payload_le
  have hsize1 : ofNetwork ((m.frame.drop 3).take 4) = m.header.length := by
    have hbytes : (m.frame.drop 3).take 4 = toNetwork 4 m.header.length := by
      simp [frame, frameBytes]
    rw [hbytes, ofNetwork_toNetwork, hmod _ (by omega)]
  have hsize2 : ofNetwork ((m.frame.drop 7).take 4) = m.payload.length := by
    have hbytes : (m.frame.drop 7).take 4 = toNetwork 4 m.payload.length := by
      simp [frame, frameBytes]
    rw [hbytes, ofNetwork_toNetwork, hmod _ (by omega)]
  have hmagic : m.frame.take 3 = [58, 79, 0] := by simp [frame, frameBytes]
  have hversion : (m.frame.drop 11).take 1 = [42] := by simp [frame, frameBytes, toNetwork]
  unfold socketProtoValidateHeader
  simp only [hsize1, hsize2, hmagic, hversion]
  rw [if_neg (not_not_intro rfl), if_neg (not_not_intro rfl), if_neg (by omega), if_neg (by omega)]

theorem socketWritev_spec (stream : List Byte) (h : Ready length vector) (rs : List Result) :
    (socketWritev stream vector rs).1 ++ (socketWritev stream vector rs).2.1.flatten =
        stream ++ vector.flatten ∧
      Ready length (socketWritev stream vector rs).2.1 := by
  refine transfer_invariant length drop
    (P := fun s ps => s ++ ps.flatten = stream ++ vector.flatten ∧ Ready length ps)
    ?_ ⟨rfl, h⟩ rs
  intro s ps k n s' hP _ hio
  unfold writev at hio
  dsimp only at hio
  split at hio
  case isTrue =>
    cases hio
  case isFalse =>
    cases hio
    refine ⟨?_, ready_advance length drop (fun _ _ => length_drop) _ ps⟩
    rw [flatten_advance, append_assoc, take_append_drop]
    exact hP.1

def queueBytes (ioq : List (List (List Byte))) : List Byte :=
  (ioq.map flatten).flatten

theorem socketIoqChurn_spec (ioq : List (List (List Byte)))
    (h : ∀ entry ∈ ioq, Ready length entry) (stream : List Byte) (rs : List Result) :
    (socketIoqChurn stream ioq rs).1 ++ queueBytes (socketIoqChurn stream ioq rs).2.1 =
        stream ++ queueBytes ioq ∧
      ∀ entry ∈ (socketIoqChurn stream ioq rs).2.1, Ready length entry := by
  induction ioq generalizing stream rs with
  | nil =>
    exact ⟨rfl, h⟩
  | cons entry ioq ih =>
    obtain ⟨hent, hioq⟩ := forall_mem_cons.mp h
    obtain ⟨hbytes, hrdy⟩ := socketWritev_spec stream hent rs
    unfold socketIoqChurn
    dsimp only
    split
    case isTrue hdone =>
      obtain ⟨hrest, hall⟩ := ih hioq (socketWritev stream entry rs).1
        (socketWritev stream entry rs).2.2
      refine ⟨?_, hall⟩
      rw [hrest]
      rw [hdone, flatten_nil, append_nil] at hbytes
      rw [hbytes, append_assoc]
      rfl
    case isFalse =>
      refine ⟨?_, forall_mem_cons.mpr ⟨hrdy, hioq⟩⟩
      show _ ++ (_ ++ queueBytes ioq) = stream ++ (entry.flatten ++ queueBytes ioq)
      rw [← append_assoc, hbytes, append_assoc]

section

/-- What was read so far into some places, and the places that are left. -/
structure Filled (places : List (Place Buffer)) (store₀ : Buffer → List Byte) (got : List Byte)
    (incoming : Incoming) : Prop where
  stored : ∀ rest, fill rest incoming.pending incoming.store = fill (got ++ rest) places store₀
  left : total room incoming.pending + got.length = total room places
  ready : Ready room incoming.pending

variable {places : List (Place Buffer)} {got : List Byte}

theorem Filled.full (h : Filled places store₀ got incoming) (hpend : incoming.pending = []) :
    incoming.store = fill got places store₀ ∧ got.length = total room places := by
  have hsto := h.stored []
  have hleft := h.left
  rw [hpend] at hsto hleft
  rw [append_nil] at hsto
  rw [total_nil, Nat.zero_add] at hleft
  exact ⟨hsto, hleft⟩

theorem socketReadv_spec (h : Filled places store₀ got r.incoming) :
    ∃ x, r.stream = x ++ (socketReadv r.stream r.incoming.store r.incoming.pending r.results).1.1 ∧
      Filled places store₀ (got ++ x) { r.incoming with
        store := (socketReadv r.stream r.incoming.store r.incoming.pending r.results).1.2,
        pending := (socketReadv r.stream r.incoming.store r.incoming.pending r.results).2.1 } := by
  refine transfer_invariant room takeRoom
    (P := fun (s : List Byte × (Buffer → List Byte)) ps => ∃ x, r.stream = x ++ s.1 ∧
      Filled places store₀ (got ++ x) { r.incoming with store := s.2, pending := ps })
    ?_ ⟨[], rfl, ?_⟩ r.results
  · rintro ⟨stream, store⟩ ps k n s' ⟨x, hx, hfld⟩ _ hio
    unfold readv at hio
    dsimp only at hio
    split at hio
    case isTrue =>
      cases hio
    case isFalse =>
      have hlen : ∀ m, m = min (k + 1) (min stream.length (total room ps)) →
          m ≤ stream.length ∧ m ≤ total room ps := by
        intro m hm
        omega
      generalize hn : min (k + 1) (min stream.length (total room ps)) = m at hio
      cases hio
      obtain ⟨hstr, htot⟩ := hlen n hn.symm
      have htake : (stream.take n).length = n := length_take_of_le hstr
      refine ⟨x ++ stream.take n, ?_, ?_, ?_, ?_⟩
      · rw [append_assoc, take_append_drop]
        exact hx
      · intro rest
        have happ := fill_append (stream.take n) rest ps store
        rw [htake] at happ
        have hsto := hfld.stored (stream.take n ++ rest)
        rw [happ, hsto]
        simp only [append_assoc]
      · have hleft := hfld.left
        dsimp only at hleft ⊢
        rw [total_advance room takeRoom room_takeRoom, length_append, length_append, htake]
        rw [length_append] at hleft
        omega
      · exact ready_advance room takeRoom room_takeRoom n ps
  · rw [append_nil]
    exact h

theorem readInto_spec (h : Filled places store₀ got r.incoming) (state : ProtoState) :
    ∃ x r', r.stream = x ++ r'.stream ∧ Filled places store₀ (got ++ x) r'.incoming ∧
      r'.incoming.hdrlen = r.incoming.hdrlen ∧ r'.incoming.buflen = r.incoming.buflen ∧
      (readInto r state = (r', .next 0) ∧ r'.incoming.state = state ∧ r'.incoming.pending = [] ∨
        readInto r state = (r', .exit r'.incoming.pending.length) ∧
          r'.incoming.state = r.incoming.state ∧ r'.incoming.pending ≠ []) := by
  obtain ⟨x, hstr, hfld⟩ := socketReadv_spec h
  unfold readInto
  dsimp only
  generalize socketReadv r.stream r.incoming.store r.incoming.pending r.results = read
    at hstr hfld ⊢
  split
  case isTrue hdone =>
    refine ⟨x, ⟨{ r.incoming with store := read.1.2, pending := read.2.1, state := state },
      read.1.1, read.2.2⟩, hstr, ?_, rfl, rfl, .inl ⟨rfl, rfl, hdone⟩⟩
    exact ⟨hfld.stored, hfld.left, hfld.ready⟩
  case isFalse hleft =>
    exact ⟨x, ⟨{ r.incoming with store := read.1.2, pending := read.2.1 }, read.1.1, read.2.2⟩,
      hstr, hfld, rfl, rfl, .inr ⟨rfl, rfl, hleft⟩⟩

end

def Message.places (m : Message) : List (Place Buffer) :=
  if m.payload.length ≠ 0 then
    [(.header, m.header.length), (.payload, m.payload.length)]
  else
    [(.header, m.header.length)]

/-- The bytes of the first waiting message that were read, by the state of the receiver. -/
def Receiving (waiting : List Message) (consumed : List Byte) (incoming : Incoming) : Prop :=
  match incoming.state with
  | .nada => consumed = []
  | .headerComing =>
    ∃ store₀, store₀ .frame = [] ∧ Filled [(.frame, frameSize)] store₀ consumed incoming
  | .headerCame => consumed.length = frameSize ∧ incoming.store .frame = consumed
  | .dataComing =>
    ∃ m rest got store₀, waiting = m :: rest ∧ consumed = m.frame ++ got ∧
      incoming.hdrlen = m.header.length ∧ incoming.buflen = m.payload.length ∧
      store₀ .header = [] ∧ store₀ .payload = [] ∧ Filled m.places store₀ got incoming
  | .dataCame => ∃ m rest, waiting = m :: rest ∧ consumed = m.encode ∧ incoming.message = m
  | .complete => ∃ m rest, waiting = m :: rest ∧ consumed = m.encode ∧ incoming.message = m

/-- What was read, is in the stream or is queued are the bytes of the waiting messages. -/
def Carries (waiting : List Message) (behind : List Byte) (r : Receiver) : Prop :=
  ∃ consumed, consumed ++ (r.stream ++ behind) = waiting.flatMap Message.encode ∧
    Receiving waiting consumed r.incoming

def ProtoState.turns : ProtoState → Nat
  | .nada => 5
  | .headerComing => 4
  | .headerCame => 3
  | .dataComing => 2
  | .dataCame => 1
  | .complete => 0

def Resting (incoming : Incoming) : Prop :=
  incoming.state = .nada ∨
    (incoming.state = .headerComing ∨ incoming.state = .dataComing) ∧ incoming.pending ≠ []

/-- What a turn of the state machine leads to. -/
inductive Turned (waiting : List Message) (behind : List Byte) (state : ProtoState) :
    Receiver × Outcome → Prop
  | next {r : Receiver} {ret : Int}
      (carries : Carries waiting behind r)
      (turns : r.incoming.state.turns < state.turns)
      (ret_eq : ret = 0 ∨ r.incoming.state = .headerComing) :
      Turned waiting behind state (r, .next ret)
  | exit {r : Receiver} {ret : Int}
      (carries : Carries waiting behind r)
      (resting : Resting r.incoming)
      (pos : 0 < ret) :
      Turned waiting behind state (r, .exit ret)

theorem turned_nada (hstate : r.incoming.state = .nada) (h : Carries waiting behind r) (ret : Int) :
    Turned waiting behind .nada (protoTurn ret r) := by
  obtain ⟨consumed, hbytes, hrecv⟩ := h
  simp only [Receiving, hstate] at hrecv
  simp only [protoTurn, hstate]
  refine .next ⟨consumed, hbytes, ?_⟩ (show 4 < 5 by decide) (.inr rfl)
  refine ⟨update r.incoming.store .frame [], update_self _ _ _, ?_⟩
  rw [hrecv]
  refine ⟨fun rest => rfl, rfl, ?_⟩
  intro p hp
  cases hp
  decide

theorem turned_headerComing (hstate : r.incoming.state = .headerComing)
    (h : Carries waiting behind r) (ret : Int) :
    Turned waiting behind .headerComing (protoTurn ret r) := by
  obtain ⟨consumed, hbytes, hrecv⟩ := h
  simp only [Receiving, hstate] at hrecv
  obtain ⟨store₀, hemp, hfld⟩ := hrecv
  simp only [protoTurn, hstate]
  obtain ⟨x, r', hstr, hfld', -, -, hread⟩ := readInto_spec hfld .headerCame
  have hbytes' : (consumed ++ x) ++ (r'.stream ++ behind) = waiting.flatMap encode := by
    rw [← hbytes, hstr]
    simp only [append_assoc]
  rcases hread with ⟨hread, hstate', hpend⟩ | ⟨hread, hstate', hpend⟩
  · rw [hread]
    obtain ⟨hstore, hlen⟩ := hfld'.full hpend
    have htwelve : (consumed ++ x).length = frameSize := hlen
    refine .next ⟨consumed ++ x, hbytes', ?_⟩ (by rw [hstate']; decide) (.inl rfl)
    simp only [Receiving, hstate']
    refine ⟨htwelve, ?_⟩
    rw [hstore]
    simp only [fill, hemp]
    exact take_of_length_le htwelve.le
  · rw [hread]
    have hstate'' : r'.incoming.state = .headerComing := hstate'.trans hstate
    refine .exit ⟨consumed ++ x, hbytes', ?_⟩ (.inr ⟨.inl hstate'', hpend⟩) ?_
    · simp only [Receiving, hstate'']
      exact ⟨store₀, hemp, hfld'⟩
    · exact Int.natCast_pos.mpr (length_pos_of_ne_nil hpend)

theorem exists_frame {rest : List Byte} (hbytes : consumed ++ rest = waiting.flatMap encode)
    (hlen : consumed.length = frameSize) :
    ∃ m waiting', waiting = m :: waiting' ∧ consumed = m.frame := by
  cases waiting with
  | nil =>
    rw [(append_eq_nil_iff.mp hbytes).1] at hlen
    cases hlen
  | cons m waiting' =>
    refine ⟨m, waiting', rfl, ?_⟩
    rw [flatMap_cons, encode, append_assoc] at hbytes
    exact (append_inj hbytes (hlen.trans (length_frameBytes _ _).symm)).1

theorem turned_headerCame (hfits : ∀ m ∈ waiting, m.Fits)
    (hstate : r.incoming.state = .headerCame) (h : Carries waiting behind r) (ret : Int) :
    Turned waiting behind .headerCame (protoTurn ret r) := by
  obtain ⟨consumed, hbytes, hrecv⟩ := h
  simp only [Receiving, hstate] at hrecv
  obtain ⟨hlen, hstore⟩ := hrecv
  obtain ⟨m, waiting', hwt, hfr⟩ := exists_frame hbytes hlen
  have hm : m.Fits := hfits m (by rw [hwt]; exact mem_cons_self)
  have hvalid := socketProtoValidateHeader_frame hm
  rw [← hfr, ← hstore] at hvalid
  simp only [protoTurn, hstate, hvalid]
  refine .next ⟨consumed, hbytes, ?_⟩ (show 2 < 3 by decide) (.inl rfl)
  refine ⟨m, waiting', [], _, hwt, ?_, rfl, rfl, ?_, ?_, fun rest => rfl, rfl, ?_⟩
  · rw [hfr, append_nil]
  · simp
  · simp
  · have hpos := hm.pos
    intro p hp
    have hp' : p = (.header, m.header.length) := by
      split at hp <;> cases hp <;> rfl
    rw [hp']
    exact Nat.one_le_iff_ne_zero.mp hpos

theorem total_places (m : Message) : total room m.places = m.header.length + m.payload.length := by
  unfold places
  split
  case isTrue =>
    simp [room]
  case isFalse h =>
    simp only [total_cons, total_nil, room]
    omega

theorem fill_places (m : Message) (hhdr : store₀ .header = []) (hpay : store₀ .payload = []) :
    fill (m.header ++ m.payload) m.places store₀ .header = m.header ∧
      fill (m.header ++ m.payload) m.places store₀ .payload = m.payload := by
  unfold places
  split
  case isTrue =>
    simp [fill, hhdr, hpay]
  case isFalse h =>
    have hnil : m.payload = [] := length_eq_zero_iff.mp (not_not.mp h)
    simp [fill, hhdr, hpay, hnil]

theorem turned_dataComing (hstate : r.incoming.state = .dataComing) (h : Carries waiting behind r)
    (ret : Int) : Turned waiting behind .dataComing (protoTurn ret r) := by
  obtain ⟨consumed, hbytes, hrecv⟩ := h
  simp only [Receiving, hstate] at hrecv
  obtain ⟨m, waiting', got, store₀, hwt, hcons, hhdrlen, hbuflen, hhdr, hpay, hfld⟩ := hrecv
  simp only [protoTurn, hstate]
  obtain ⟨x, r', hstr, hfld', hhdrlen', hbuflen', hread⟩ := readInto_spec hfld .dataCame
  have hbytes' : (m.frame ++ (got ++ x)) ++ (r'.stream ++ behind) = waiting.flatMap encode := by
    rw [← hbytes, hstr, hcons]
    simp only [append_assoc]
  rcases hread with ⟨hread, hstate', hpend⟩ | ⟨hread, hstate', hpend⟩
  · rw [hread]
    obtain ⟨hstore, hlen⟩ := hfld'.full hpend
    have hdata : got ++ x = m.header ++ m.payload := by
      have hall : m.frame ++ ((got ++ x) ++ (r'.stream ++ behind)) =
          m.frame ++ ((m.header ++ m.payload) ++ waiting'.flatMap encode) := by
        rw [← append_assoc m.frame, hbytes', hwt, flatMap_cons, encode, append_assoc m.frame]
      refine (append_inj (append_cancel_left hall) ?_).1
      rw [hlen, total_places, length_append]
    rw [hdata] at hstore
    obtain ⟨hfill, hfill'⟩ := fill_places m hhdr hpay
    refine .next ⟨m.frame ++ (got ++ x), hbytes', ?_⟩ (by rw [hstate']; decide) (.inl rfl)
    simp only [Receiving, hstate']
    refine ⟨m, waiting', hwt, ?_, ?_⟩
    · rw [hdata]
      rfl
    · simp only [Incoming.message, hstore, hfill, hfill', hhdrlen', hbuflen', hhdrlen, hbuflen,
        take_length]
  · rw [hread]
    have hstate'' : r'.incoming.state = .dataComing := hstate'.trans hstate
    refine .exit ⟨m.frame ++ (got ++ x), hbytes', ?_⟩ (.inr ⟨.inr hstate'', hpend⟩) ?_
    · simp only [Receiving, hstate'']
      exact ⟨m, waiting', got ++ x, store₀, hwt, rfl, hhdrlen'.trans hhdrlen,
        hbuflen'.trans hbuflen, hhdr, hpay, hfld'⟩
    · exact Int.natCast_pos.mpr (length_pos_of_ne_nil hpend)

theorem turned_dataCame (hstate : r.incoming.state = .dataCame) (h : Carries waiting behind r) :
    Turned waiting behind .dataCame (protoTurn 0 r) := by
  obtain ⟨consumed, hbytes, hrecv⟩ := h
  simp only [Receiving, hstate] at hrecv
  simp only [protoTurn, hstate]
  exact .next ⟨consumed, hbytes, hrecv⟩ (show 0 < 1 by decide) (.inl rfl)

/-- Every turn of the state machine gets nearer to a message, or leaves the rest for later. -/
theorem turned_protoTurn {ret : Int} (hfits : ∀ m ∈ waiting, m.Fits) (h : Carries waiting behind r)
    (hret : r.incoming.state = .dataCame → ret = 0) (hstate : r.incoming.state ≠ .complete) :
    Turned waiting behind r.incoming.state (protoTurn ret r) := by
  cases hcase : r.incoming.state with
  | nada => exact turned_nada hcase h ret
  | headerComing => exact turned_headerComing hcase h ret
  | headerCame => exact turned_headerCame hfits hcase h ret
  | dataComing => exact turned_dataComing hcase h ret
  | dataCame =>
    rw [hret hcase]
    exact turned_dataCame hcase h
  | complete => exact absurd hcase hstate

theorem protoLoop_spec (hfits : ∀ m ∈ waiting, m.Fits) (fuel : Nat) (previous : Option ProtoState)
    (ret : Int) (r : Receiver) (hfuel : r.incoming.state.turns < fuel)
    (hprevious : previous ≠ some r.incoming.state) (h : Carries waiting behind r)
    (hret : r.incoming.state = .dataCame ∨ r.incoming.state = .complete → ret = 0) :
    Carries waiting behind (protoLoop fuel previous ret r).1 ∧
      ((protoLoop fuel previous ret r).2 = 0 ∧
          (protoLoop fuel previous ret r).1.incoming.state = .complete ∨
        0 < (protoLoop fuel previous ret r).2 ∧
          Resting (protoLoop fuel previous ret r).1.incoming) := by
  induction fuel generalizing previous ret r with
  | zero => exact absurd hfuel (Nat.not_lt_zero _)
  | succ fuel ih =>
    unfold protoLoop
    by_cases hstate : r.incoming.state = .complete
    · rw [if_pos hstate]
      exact ⟨h, .inl ⟨hret (.inr hstate), hstate⟩⟩
    rw [if_neg hstate, if_neg hprevious]
    have hturned := turned_protoTurn hfits h (fun hc => hret (.inl hc)) hstate
    generalize protoTurn ret r = turn at hturned ⊢
    cases hturned with
    | @next r' ret' hcar hturns hret' =>
      apply ih
      · omega
      · intro hc
        rw [Option.some.inj hc] at hturns
        exact absurd hturns (lt_irrefl _)
      · exact hcar
      · rintro hc
        rcases hret' with hzero | hcom
        · exact hzero
        · rcases hc with hc | hc <;> rw [hcom] at hc <;> cases hc
    | exit hcar hresting hpos => exact ⟨hcar, .inr ⟨hpos, hresting⟩⟩

structure Inv (s : State) : Prop where
  ready : ∀ entry ∈ s.ioq, Ready length entry
  resting : Resting s.incoming
  carries : ∃ waiting, s.submitted = s.received ++ waiting ∧ (∀ m ∈ waiting, m.Fits) ∧
    Carries waiting (queueBytes s.ioq) ⟨s.incoming, s.stream, []⟩

theorem Inv.init :
    Inv State.init where
  ready := by
    intro entry hent
    cases hent
  resting := .inl rfl
  carries := ⟨[], rfl, by simp, [], rfl, rfl⟩

theorem Receiving.append (h : Receiving waiting consumed incoming) (added : List Message) :
    Receiving (waiting ++ added) consumed incoming := by
  cases hstate : incoming.state with
  | nada | headerComing | headerCame => simpa only [Receiving, hstate] using h
  | dataComing =>
    simp only [Receiving, hstate] at h ⊢
    obtain ⟨m, rest, got, store₀, rfl, hmore⟩ := h
    exact ⟨m, rest ++ added, got, store₀, rfl, hmore⟩
  | dataCame | complete =>
    simp only [Receiving, hstate] at h ⊢
    obtain ⟨m, rest, rfl, hmore⟩ := h
    exact ⟨m, rest ++ added, rfl, hmore⟩

theorem Inv.sent (h : Inv s) {s' : State} (hrdy : ∀ entry ∈ s'.ioq, Ready length entry)
    (hinc : s'.incoming = s.incoming) (hrcvd : s'.received = s.received)
    {added : List Message} (hfits : ∀ m ∈ added, m.Fits)
    (hsubm : s'.submitted = s.submitted ++ added)
    (hbytes : s'.stream ++ queueBytes s'.ioq =
      s.stream ++ (queueBytes s.ioq ++ added.flatMap encode)) :
    Inv s' where
  ready := hrdy
  resting := hinc ▸ h.resting
  carries := by
    obtain ⟨waiting, hwt, hall, consumed, hcons, hrecv⟩ := h.carries
    refine ⟨waiting ++ added, ?_, ?_, consumed, ?_, ?_⟩
    · rw [hsubm, hwt, hrcvd, append_assoc]
    · exact forall_mem_append.mpr ⟨hall, hfits⟩
    · rw [hbytes, flatMap_append, ← hcons]
      simp only [append_assoc]
    · rw [hinc]
      exact hrecv.append added

theorem Inv.pollOut (h : Inv s) (rs : List Result) : Inv (socketEventPollOut s rs) := by
  obtain ⟨hbytes, hrdy⟩ := socketIoqChurn_spec s.ioq h.ready s.stream rs
  have hnone : ∀ m ∈ ([] : List Message), m.Fits := by simp
  refine h.sent hrdy rfl rfl hnone (append_nil _).symm ?_
  rw [flatMap_nil, append_nil]
  exact hbytes

theorem flatten_socketIoqNew (buf : List Byte) (vector : List (List Byte)) :
    (socketIoqNew buf vector).flatten = encode ⟨buf, vector.flatten⟩ := by
  rfl

theorem ready_socketIoqNew (buf : List Byte) (vector : List (List Byte)) :
    Ready length (socketIoqNew buf vector) := by
  intro p hp
  cases hp
  rw [length_frameBytes]
  decide

theorem Inv.submit (h : Inv s) {buf : List Byte} {rs : List Result}
    (hfits : Event.Fits (.submit buf vector rs)) :
    ∃ s', socketSubmit s buf vector rs = some s' ∧ Inv s' := by
  obtain ⟨hpos, hbuf, hcnt, hvec⟩ := hfits
  have hmsg : ∀ m ∈ [(⟨buf, vector.flatten⟩ : Message)], m.Fits := by
    intro m hm
    rw [mem_singleton.mp hm]
    exact ⟨hpos, hbuf, hvec⟩
  have hencode : [(⟨buf, vector.flatten⟩ : Message)].flatMap encode =
      (socketIoqNew buf vector).flatten := by rw [flatMap_singleton, flatten_socketIoqNew]
  have hent := ready_socketIoqNew buf vector
  unfold socketSubmit
  rw [if_pos (show vector.length ≤ maxIovec - 2 from hcnt)]
  dsimp only
  split
  case isTrue hemp =>
    obtain ⟨hbytes, hrdy⟩ := socketWritev_spec s.stream hent rs
    have hqu : queueBytes s.ioq = [] := by
      rw [hemp]
      rfl
    split
    case isTrue hdone =>
      refine ⟨_, rfl, h.sent (by simpa using h.ready) rfl rfl hmsg rfl ?_⟩
      rw [hdone, flatten_nil, append_nil] at hbytes
      rw [hqu, hencode, nil_append, append_nil, hbytes]
    case isFalse =>
      refine ⟨_, rfl, h.sent ?_ rfl rfl hmsg rfl ?_⟩
      · exact forall_mem_singleton.mpr hrdy
      · rw [hqu, hencode, nil_append, ← hbytes]
        simp [queueBytes]
  case isFalse =>
    refine ⟨_, rfl, h.sent ?_ rfl rfl hmsg rfl ?_⟩
    · exact forall_mem_append.mpr ⟨h.ready, forall_mem_singleton.mpr hent⟩
    · rw [hencode]
      simp [queueBytes]

theorem Inv.receive (hrdy : ∀ entry ∈ s.ioq, Ready length entry)
    (hwt : s.submitted = s.received ++ waiting) (hfits : ∀ m ∈ waiting, m.Fits)
    (hcar : Carries waiting (queueBytes s.ioq) ⟨s.incoming, s.stream, []⟩)
    (hstate : s.incoming.state = .complete) : Inv (socketReceive s) := by
  obtain ⟨consumed, hbytes, hrecv⟩ := hcar
  simp only [Receiving, hstate] at hrecv
  obtain ⟨m, rest, rfl, rfl, hmsg⟩ := hrecv
  unfold socketReceive
  rw [if_pos hstate]
  refine ⟨hrdy, .inl rfl, rest, ?_, ?_, [], ?_, rfl⟩
  · rw [hwt, hmsg, append_assoc]
    rfl
  · intro m' hm'
    exact hfits m' (mem_cons_of_mem _ hm')
  · rw [flatMap_cons] at hbytes
    exact append_cancel_left hbytes

theorem Inv.pollIn (h : Inv s) (rs : List Result) :
    ∃ s', socketEventPollIn s rs = some s' ∧ Inv s' := by
  obtain ⟨waiting, hwt, hfits, hcar⟩ := h.carries
  have hresting : s.incoming.state ≠ .dataCame ∧ s.incoming.state ≠ .complete := by
    rcases h.resting with hstate | ⟨hstate | hstate, -⟩ <;> rw [hstate] <;> decide
  have hturns : s.incoming.state.turns < 6 := by cases s.incoming.state <;> decide
  obtain ⟨hcar', hend⟩ := protoLoop_spec hfits 6 none (-1) ⟨s.incoming, s.stream, rs⟩
    hturns (by simp) hcar (fun hc => absurd hc (not_or.mpr hresting))
  unfold socketEventPollIn socketProtoStateMachine
  rcases hend with ⟨hret, hstate⟩ | ⟨hret, hrest⟩
  · rw [if_neg (by omega), if_pos hret]
    exact ⟨_, rfl, receive h.ready hwt hfits hcar' hstate⟩
  · rw [if_neg (by omega), if_neg (by omega)]
    exact ⟨_, rfl, h.ready, hrest, waiting, hwt, hfits, hcar'⟩

theorem Inv.step (h : Inv s) {e : Event} (hfits : e.Fits) : ∃ s', step s e = some s' ∧ Inv s' := by
  cases e with
  | submit buf vector rs => exact h.submit hfits
  | pollOut rs => exact ⟨_, rfl, h.pollOut rs⟩
  | pollIn rs => exact h.pollIn rs

end GlusterFS.Socket
