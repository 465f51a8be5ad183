import Mathlib.Data.List.Chain
import GlusterFS.WriteBehind.Queue

/-!
# write-behind: where the bytes go

`wb_sync` writes the requests that it glues together at the offset of the first one.  That is
right if each request begins where the one queued before it ends.  `wb_writev` checks this
against the end of the last request, but queues the request later, so another call may come
between.
-/

namespace GlusterFS.WriteBehind

open Run List WriteData

def WriteData.bytes (x : WriteData) : List (Byte × Nat) :=
  x.vector.flatten.zipIdx x.offset

/-- The bytes of a write to the child, each with the place that it is written to. -/
def ChildWrite.bytes (w : ChildWrite) : List (Byte × Nat) :=
  w.vector.flatten.zipIdx w.offset

/-- Each byte that was queued waits in the queue or was written once, at its own place. -/
def KeepsOffsets (s : State) : Prop :=
  s.overrun = false ∧
    s.writes.flatMap ChildWrite.bytes ++ (unmarked s.file.request).flatMap WriteData.bytes =
      s.accepted.flatMap WriteData.bytes

instance (s : State) : Decidable (KeepsOffsets s) :=
  inferInstanceAs (Decidable (_ ∧ _))

/-- A request is queued behind none that waits to be written, or where the last one ends. -/
def InOrder (s : State) : Event → Prop
  | .enqueue frame =>
    ∀ c ∈ s.calls[frame]?, c.phase = .enqueue →
      unmarked s.file.request = [] ∨ s.file.offset = c.offset
  | _ => True

instance (s : State) : ∀ e, Decidable (InOrder s e) := by
  rintro (_ | _) <;> dsimp only [InOrder] <;> infer_instance

def Adjoins (x y : WriteData) : Prop :=
  y.offset = x.offset + x.size

theorem length_flatten_vector (x : WriteData) : x.vector.flatten.length = x.size := by
  simp [size, iovLength]

variable {x : WriteData} {requests winds glued : List WriteData} {conf : Conf} {s s' : State}
  {e : Event} {keep : WriteRequest → Bool} {wound : Bool} {behind : List Nat} {frame : Nat}
  {c : Call}

theorem bytes_of_count (h : x.count = 0) : x.bytes = [] := by
  rw [WriteData.count, length_eq_zero_iff] at h
  simp [bytes, h]

theorem bytes_of_chain (x : WriteData) (rest : List WriteData) (h : (x :: rest).IsChain Adjoins) :
    ((x :: rest).flatMap vector).flatten.zipIdx x.offset = (x :: rest).flatMap bytes := by
  induction rest generalizing x with
  | nil => simp [bytes]
  | cons y rest ih =>
    rw [isChain_cons_cons] at h
    have hy : y.offset = x.offset + x.vector.flatten.length := by
      rw [length_flatten_vector]
      exact h.1
    calc ((x :: y :: rest).flatMap vector).flatten.zipIdx x.offset
        = x.vector.flatten.zipIdx x.offset ++
            ((y :: rest).flatMap vector).flatten.zipIdx y.offset := by
          rw [flatMap_cons, flatten_append, zipIdx_append, hy]
      _ = x.bytes ++ (y :: rest).flatMap bytes := by
          rw [ih y h.2, bytes]
      _ = (x :: y :: rest).flatMap bytes := flatMap_cons.symm

theorem childWrite_bytes (status : WriteStatus) (h : requests.IsChain Adjoins) :
    (⟨requests, status⟩ : ChildWrite).bytes = requests.flatMap bytes := by
  cases requests with
  | nil => rfl
  | cons x rest => exact bytes_of_chain x rest h

theorem isChain_of_mem_wbSync (h : winds.IsChain Adjoins) (hmem : requests ∈ wbSync winds) :
    requests.IsChain Adjoins := by
  unfold wbSync at hmem
  split at hmem
  · cases hmem
  · next hcnt =>
      have hne : winds ≠ [] := by
        rintro rfl
        exact hcnt rfl
      rw [← nil_append winds, ← flatten_glue [] winds hne] at h
      exact h.infix (infix_of_mem_flatten hmem)

theorem flatMap_filter_hasData (xs : List WriteData) :
    (xs.filter hasData).flatMap bytes = xs.flatMap bytes := by
  induction xs with
  | nil => rfl
  | cons x xs ih =>
    by_cases hcnt : x.count = 0
    · simp [hasData, hcnt, ih, bytes_of_count hcnt]
    · simp [hasData, hcnt, ih]

/-- The requests of one write fit into the vector that is allocated for it. -/
def InVector (requests : List WriteData) : Prop :=
  (requests.flatMap WriteData.vector).length ≤ maxVectorCount

theorem inVector_iff : InVector requests ↔ (requests.map count).sum ≤ maxVectorCount := by
  rw [InVector, length_flatMap]
  rfl

theorem InVector.count (h : InVector requests) (hx : x ∈ requests) : x.count ≤ maxVectorCount :=
  (single_le_sum (by simp) _ (mem_map_of_mem hx)).trans (inVector_iff.mp h)

theorem InVector.glue (hcnts : ∀ y ∈ winds, y.count ≤ maxVectorCount)
    (hfst : ∀ y, winds.head? = some y → InVector (glued ++ [y])) :
    ∀ requests ∈ glue glued winds, InVector requests := by
  induction glued, winds using WriteBehind.glue.induct with
  | case1 glued => simp [WriteBehind.glue]
  | case2 glued y => simpa [WriteBehind.glue] using hfst
  | case3 glued y next rest hcnt ih =>
    rw [WriteBehind.glue, if_pos hcnt]
    refine forall_mem_cons.mpr ⟨hfst y rfl, ih (forall_mem_cons.mp hcnts).2 ?_⟩
    rintro z ⟨⟩
    exact inVector_iff.mpr (by simpa using hcnts next (by simp))
  | case4 glued y next rest hcnt ih =>
    rw [WriteBehind.glue, if_neg hcnt]
    refine ih (forall_mem_cons.mp hcnts).2 ?_
    rintro z ⟨⟩
    rw [inVector_iff, map_append, sum_append]
    exact not_lt.mp (by simpa using hcnt)

/-- Only one request alone can overrun. -/
theorem wbSync_inVector_iff (winds : List WriteData) :
    (∀ requests ∈ wbSync winds, InVector requests) ↔ ¬ Overruns winds := by
  have hcnts : ¬ Overruns winds ↔ ∀ y ∈ winds, y.count ≤ maxVectorCount := by
    simp [Overruns]
  rw [hcnts, wbSync]
  split_ifs with hzero
  · refine iff_of_true (by simp) ?_
    intro y hy
    have hle := single_le_sum (by simp) _ (mem_map_of_mem (f := WriteData.count) hy)
    exact hle.trans (hzero.trans_le (Nat.zero_le _))
  · constructor
    · intro h y hy
      have hflat : y ∈ (glue [] winds).flatten := by
        rw [flatten_glue [] winds (ne_nil_of_mem hy)]
        exact hy
      obtain ⟨requests, hreqs, hmem⟩ := mem_flatten.mp hflat
      exact (h requests hreqs).count hmem
    · intro h
      refine InVector.glue h ?_
      intro y hy
      exact inVector_iff.mpr (by simpa using h y (mem_of_mem_head? hy))

/-- Nine vectors of one request are copied into the eight that are allocated. -/
theorem not_inVector_nineVectors :
    ∃ requests ∈ wbSync [⟨1, 0, replicate 9 [97]⟩], ¬ InVector requests := by
  refine ⟨[⟨1, 0, replicate 9 [97]⟩], by simp [wbSync, WriteData.count, glue], ?_⟩
  rw [inVector_iff]
  decide

/-- The requests that wait adjoin, and the file's offset is the end of the last one. -/
structure Adjoining (s : State) : Prop where
  chain : (unmarked s.file.request).IsChain Adjoins
  last : ∀ x ∈ (unmarked s.file.request).getLast?, s.file.offset = x.offset + x.size
  glued : ∀ w ∈ s.writes, w.bytes = w.requests.flatMap WriteData.bytes

theorem Adjoining.same (h : Adjoining s) (hsame : SameWork s s') : Adjoining s' := by
  refine ⟨hsame.waiting ▸ h.chain, hsame.waiting ▸ hsame.offset ▸ h.last, ?_⟩
  intro w hw
  obtain ⟨v, hv, heq⟩ := mem_map.mp (hsame.requests ▸ mem_map_of_mem hw)
  simpa [ChildWrite.bytes, ChildWrite.vector, ChildWrite.offset, heq] using h.glued v hv

theorem Processed.adjoining (h : Processed s s' keep wound behind) (hque : Queued s)
    (hadj : Adjoining s) : Adjoining s' := by
  have hunmk := h.unmarked hque
  cases wound with
  | false =>
    refine ⟨hunmk ▸ hadj.chain, hunmk ▸ h.offset ▸ hadj.last, ?_⟩
    rw [h.writes]
    simpa [wbSync] using hadj.glued
  | true =>
    constructor
    · rw [hunmk]
      exact isChain_nil
    · rw [hunmk]
      nofun
    · rw [h.writes]
      refine forall_mem_append.mpr ⟨hadj.glued, forall_mem_map.mpr ?_⟩
      exact fun rs hrs => childWrite_bytes _ (isChain_of_mem_wbSync hadj.chain hrs)

theorem Adjoining.enqueue (h : Adjoining s) (hcall : s.calls[frame]? = some c)
    (hph : c.phase = .enqueue) (horder : InOrder s (.enqueue frame)) :
    Adjoining (wbEnqueue s frame c) := by
  have hoff := horder c hcall hph
  have hunmk : unmarked (wbEnqueue s frame c).file.request =
      unmarked s.file.request ++ [⟨frame, c.offset, c.vector⟩] := by simp [wbEnqueue, unmarked]
  constructor
  · rw [hunmk, isChain_append]
    refine ⟨h.chain, isChain_singleton _, ?_⟩
    intro x hx y hy
    cases hy
    rcases hoff with hnil | hoff
    · simp [hnil] at hx
    · exact hoff ▸ h.last x hx
  · intro x hx
    rw [hunmk, getLast?_concat] at hx
    cases hx
    rfl
  · exact h.glued

theorem Adjoining.step (hstep : Step conf s e s') (hque : Queued s) (horder : InOrder s e)
    (h : Adjoining s) : Adjoining s' := by
  refine hstep.keeps hque .same (fun hproc hque h => hproc.adjoining hque h) ?_ h
  rintro frame c rfl hcall hph
  exact h.enqueue hcall hph horder

theorem Adjoining.keepsOffsets (h : Adjoining s) (hcar : Carried s) (hfits : Fits s) :
    KeepsOffsets s := by
  refine ⟨hfits.overrun, ?_⟩
  have hwrs : s.writes.flatMap ChildWrite.bytes =
      (s.writes.flatMap ChildWrite.requests).flatMap bytes := by
    rw [flatMap_assoc]
    exact flatMap_congr h.glued
  calc s.writes.flatMap ChildWrite.bytes ++ (unmarked s.file.request).flatMap bytes
      = (s.writes.flatMap ChildWrite.requests ++ unmarked s.file.request).flatMap
          bytes := by
        rw [hwrs, flatMap_append]
    _ = ((s.writes.flatMap ChildWrite.requests ++ unmarked s.file.request).filter
          hasData).flatMap bytes := by
        rw [flatMap_filter_hasData]
    _ = s.accepted.flatMap bytes := by rw [← hcar, flatMap_filter_hasData]

/-- In a run whose requests are queued in order each byte is written at its own place. -/
theorem writes_keep_offsets (conf : Conf) (disabled : Bool) (disableTill : Nat)
    (events : List Event) (s : State)
    (hrun : run (step conf) (start disabled disableTill) events = some s)
    (hall : AllSteps (step conf) (fun s e => InOrder s e ∧ VectorFits s e)
      (start disabled disableTill) events) : KeepsOffsets s := by
  have hstart : Adjoining (start disabled disableTill) := ⟨isChain_nil, nofun, nofun⟩
  obtain ⟨hcar, hfits, hadj⟩ := run_queued hstart
    (fun _ _ _ hstep hque horder h => h.step hstep hque horder) hall hrun
  exact hadj.keepsOffsets hcar hfits

def adjoiningCalls : List Event :=
  [.writev 0 [[1]], .enqueue 0, .process 0, .writev 1 [[2]], .enqueue 1, .process 1,
    .writev 2 [[3]], .enqueue 2, .process 2, .reply 0 ⟨1, 0⟩, .store 0, .finish 0,
    .writev 100 [[4]], .flush 3, .enqueue 3, .process 3]

theorem writes_keep_offsets_adjoiningCalls :
    ∃ s, run (step ⟨10, 10⟩) (start false 0) adjoiningCalls = some s ∧
      s.writes.map ChildWrite.offset = [0, 1] ∧ KeepsOffsets s := by
  have hwrs : (run (step ⟨10, 10⟩) (start false 0) adjoiningCalls).map
      (fun s => s.writes.map ChildWrite.offset) = some [0, 1] := by decide
  obtain ⟨s, hrun, hs⟩ := Option.map_eq_some_iff.mp hwrs
  exact ⟨s, hrun, hs, writes_keep_offsets ⟨10, 10⟩ false 0 adjoiningCalls s hrun (by decide)⟩

/-- The second call checks the offset and flushes the queue before the first one queues. -/
def crossingCalls : List Event :=
  [.writev 0 [[1]], .writev 100 [[2]], .flush 1, .enqueue 0, .enqueue 1, .process 0]

theorem not_keepsOffsets_crossingCalls :
    ∃ s, run (step ⟨10, 10⟩) (start false 0) crossingCalls = some s ∧ ¬ KeepsOffsets s := by
  have hbrk : (run (step ⟨10, 10⟩) (start false 0) crossingCalls).map
      (fun s => decide (KeepsOffsets s)) = some false := by decide
  obtain ⟨s, hrun, hs⟩ := Option.map_eq_some_iff.mp hbrk
  exact ⟨s, hrun, of_decide_eq_false hs⟩

end GlusterFS.WriteBehind
