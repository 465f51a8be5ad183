import GlusterFS.WriteBehind.Queue

/-!
# write-behind: what the child did not write

A write that fails after its calls were answered leaves its error in the file, and the next
`wb_fsync` or `wb_flush` answers with it.  A write that the child cut short leaves nothing,
and neither does a failure that comes after the reply to the `fsync`.
-/

namespace GlusterFS.WriteBehind

open Run List WriteData

def WriteStatus.reply? : WriteStatus → Option Reply
  | .wound => none
  | .replied reply => some reply
  | .stored reply => some reply
  | .done reply => some reply

def WriteStatus.isStored : WriteStatus → Bool
  | .wound => false
  | .replied _ => false
  | .stored _ => true
  | .done _ => true

def WriteData.numbers (x : WriteData) : List (Nat × Nat) :=
  (range x.size).map (fun j => (x.frame, j))

/-- The child took as many bytes as it says, from the first one on. -/
def ChildWrite.taken (w : ChildWrite) : List (Nat × Nat) :=
  match w.status.reply? with
  | some reply => (w.requests.flatMap WriteData.numbers).take reply.opRet.toNat
  | none => []

def DirectWrite.taken (d : DirectWrite) : List (Nat × Nat) :=
  match d.reply with
  | some reply => (range reply.opRet.toNat).map (fun j => (d.frame, j))
  | none => []

def taken (s : State) : List (Nat × Nat) :=
  s.writes.flatMap ChildWrite.taken ++ s.directs.flatMap DirectWrite.taken

def syncSucceeded (s : State) : Bool :=
  match s.sync with
  | some (.answered reply) => decide (reply.opRet ≠ -1)
  | _ => false

def HidesNothing (s : State) : Prop :=
  s.overrun = false ∧ (syncSucceeded s = true →
      (∀ frame < s.calls.length, ∃ a ∈ s.unwound, a.frame = frame ∧ a.opRet ≠ -1) →
      ∀ a ∈ s.unwound, ∀ j < a.opRet.toNat, (a.frame, j) ∈ taken s)

instance (s : State) : Decidable (HidesNothing s) :=
  inferInstanceAs (Decidable (_ ∧ (syncSucceeded s = true →
    (∀ frame < s.calls.length, ∃ a ∈ s.unwound, _ ∧ _) →
    ∀ a ∈ s.unwound, ∀ j < a.opRet.toNat, _)))

/--
The child takes all of a write or none of it, and every callback has kept its failure when
the `wb_fsync` or `wb_flush` has its reply.
-/
def Reported (s : State) : Event → Prop
  | .reply i reply => ∀ w ∈ s.writes[i]?, reply.opRet = -1 ∨ reply.opRet = iovLength w.vector
  | .syncReply _ => ∀ w ∈ s.writes, w.status.isStored = true
  | _ => True

instance (s : State) : ∀ e, Decidable (Reported s e) := by
  rintro (_ | _) <;> dsimp only [Reported] <;> infer_instance

theorem length_numbers (x : WriteData) : x.numbers.length = x.size := by
  simp [numbers]

theorem iovLength_append (v v' : List (List Byte)) :
    iovLength (v ++ v') = iovLength v + iovLength v' := by
  simp [iovLength]

theorem length_flatMap_numbers (requests : List WriteData) :
    (requests.flatMap numbers).length = iovLength (requests.flatMap vector) := by
  induction requests with
  | nil => rfl
  | cons x rest ih =>
    rw [flatMap_cons, flatMap_cons, length_append, iovLength_append, ih, length_numbers, size]

variable {w : ChildWrite}

theorem taken_of_full {reply : Reply} (hrep : w.status.reply? = some reply)
    (hfull : reply.opRet = iovLength w.vector) :
    w.taken = w.requests.flatMap numbers := by
  rw [ChildWrite.taken, hrep]
  refine take_of_length_le ?_
  rw [length_flatMap_numbers, hfull, Int.toNat_natCast]
  exact le_refl _

theorem count_ne_zero {x : WriteData} {j : Nat} (h : j < x.size) : x.count ≠ 0 := by
  intro hcnt
  rw [WriteData.count, length_eq_zero_iff] at hcnt
  rw [size, hcnt] at h
  exact absurd h (Nat.not_lt_zero j)

variable {conf : Conf} {s s' : State} {e : Event} {keep : WriteRequest → Bool} {wound : Bool}
  {behind : List Nat} {i frame : Nat}

/-- The answers that the calls hold, and those that were given. -/
structure Acknowledging (s : State) : Prop where
  accepted : ∀ r ∈ s.file.request, r.toWriteData ∈ s.accepted
  held : ∀ r ∈ s.file.request, ∃ c, s.calls[r.frame]? = some c ∧
    (c.opRet = -1 ∨ c.opRet = r.toWriteData.size)
  given : ∀ a ∈ s.unwound,
    (∃ d ∈ s.directs, ∃ reply, d.reply = some reply ∧ d.frame = a.frame ∧
      reply.opRet = a.opRet) ∨
      ∃ x ∈ s.accepted, x.frame = a.frame ∧ (a.opRet = -1 ∨ a.opRet = x.size)

/-- The answer that a call holds stays, or becomes a failure. -/
def CallsKept (calls calls' : List Call) : Prop :=
  ∀ (i : Nat) (c : Call), calls[i]? = some c →
    ∃ c' : Call, calls'[i]? = some c' ∧ (c'.opRet = -1 ∨ c'.opRet = c.opRet)

theorem CallsKept.refl (calls : List Call) : CallsKept calls calls :=
  fun _ c hc => ⟨c, hc, .inr rfl⟩

theorem callsKept_append (calls : List Call) (c : Call) : CallsKept calls (calls ++ [c]) := by
  intro i d hd
  refine ⟨d, ?_, .inr rfl⟩
  rw [List.getElem?_append_left (List.getElem?_eq_some_iff.mp hd).1]
  exact hd

theorem callsKept_setPhase (s : State) (frame : Nat) (phase : CallPhase) :
    CallsKept s.calls (setPhase s frame phase).calls := by
  intro i c hc
  by_cases hi : frame = i
  · subst hi
    exact ⟨{ c with phase := phase }, by simp [setPhase, hc], .inr rfl⟩
  · exact ⟨c, by simp [setPhase, hi, hc], .inr rfl⟩

theorem Acknowledging.same (h : Acknowledging s)
    (hqu : ∀ r ∈ s'.file.request, ∃ x ∈ s.file.request, r.toWriteData = x.toWriteData)
    (hacc : s'.accepted = s.accepted) (hunw : s'.unwound = s.unwound)
    (hdirs : ∀ d ∈ s.directs, ∀ reply, d.reply = some reply → d ∈ s'.directs)
    (hcalls : CallsKept s.calls s'.calls) : Acknowledging s' := by
  constructor
  · intro r hr
    obtain ⟨x, hx, hdata⟩ := hqu r hr
    rw [hdata, hacc]
    exact h.accepted x hx
  · intro r hr
    obtain ⟨x, hx, hdata⟩ := hqu r hr
    obtain ⟨c, hc, hret⟩ := h.held x hx
    obtain ⟨c', hc', hret'⟩ := hcalls x.frame c hc
    rw [hdata]
    refine ⟨c', hc', ?_⟩
    rcases hret' with hret' | hret'
    · exact .inl hret'
    · rw [hret']
      exact hret
  · rw [hunw, hacc]
    intro a ha
    rcases h.given a ha with ⟨d, hd, reply, hrep, hfr⟩ | haccept
    · exact .inl ⟨d, hdirs d hd reply hrep, reply, hrep, hfr⟩
    · exact .inr haccept

theorem Processed.acknowledging (h : Processed s s' keep wound behind) (hcalls : s'.calls = s.calls)
    (hack : Acknowledging s) : Acknowledging s' := by
  have hqu : ∀ r ∈ s'.file.request, ∃ x ∈ s.file.request, r.toWriteData = x.toWriteData := by
    intro r hr
    obtain ⟨x, hx, rfl⟩ := h.exists_mark hr
    exact ⟨x, hx, rfl⟩
  have hkept : CallsKept s.calls s'.calls := hcalls ▸ CallsKept.refl s.calls
  -- the queue and the calls are as if nothing had been answered
  have hold : Acknowledging { s' with unwound := s.unwound } :=
    hack.same hqu h.accepted rfl (fun d hd reply _ => h.directs.symm ▸ hd) hkept
  refine ⟨hold.accepted, hold.held, ?_⟩
  rw [h.unwound]
  refine forall_mem_append.mpr ⟨hold.given, ?_⟩
  intro a ha
  obtain ⟨i, hi, rfl⟩ := mem_map.mp ha
  obtain ⟨r, hr, rfl⟩ := mem_map.mp (h.behind_sub.subset hi)
  have hr' := mem_of_mem_filter (mem_of_mem_filter hr)
  obtain ⟨c, hc, hret⟩ := hack.held r hr'
  refine .inr ⟨r.toWriteData, h.accepted.symm ▸ hack.accepted r hr', rfl, ?_⟩
  simpa [answerOf, hc] using hret

theorem callsKept_reply (i : Nat) (w : ChildWrite) (reply : Reply) :
    CallsKept s.calls (wbSyncCbk s i w reply).calls := by
  intro j c hc
  refine ⟨_, by rw [wbSyncCbk, markFailed, getElem?_mapIdx, hc]; rfl, ?_⟩
  split_ifs with hfail
  · exact .inl hfail.1
  · exact .inr rfl

theorem mem_set_of_ne {α : Type*} {l : List α} {a b x : α} (hget : l[i]? = some a)
    (hx : x ∈ l) (hne : x ≠ a) : x ∈ l.set i b := by
  obtain ⟨j, hj⟩ := getElem?_of_mem hx
  have hij : i ≠ j := by
    rintro rfl
    exact hne (Option.some_inj.mp (hj.symm.trans hget))
  refine mem_of_getElem? (i := j) ?_
  rw [getElem?_set_ne hij]
  exact hj

theorem Acknowledging.directReply {reply : Reply} (h : Acknowledging s)
    (hdir : s.directs[i]? = some ⟨frame, none⟩) :
    Acknowledging
      { s with
        directs := s.directs.set i ⟨frame, some reply⟩
        unwound := s.unwound ++ [⟨frame, reply.opRet, reply.opErrno⟩] } := by
  refine ⟨h.accepted, h.held, ?_⟩
  intro a ha
  rcases mem_append.mp ha with ha | ha
  · rcases h.given a ha with ⟨d, hd, reply', hrep, hfr⟩ | hacc
    · have hne : d ≠ ⟨frame, none⟩ := by
        rintro rfl
        cases hrep
      exact .inl ⟨d, mem_set_of_ne hdir hd hne, reply', hrep, hfr⟩
    · exact .inr hacc
  · have hlt := (List.getElem?_eq_some_iff.mp hdir).1
    rw [mem_singleton.mp ha]
    exact .inl ⟨⟨frame, some reply⟩, mem_set hlt _, reply, rfl, rfl, rfl⟩

theorem Acknowledging.step (hstep : Step conf s e s') (hque : Queued s) (h : Acknowledging s) :
    Acknowledging s' := by
  have hself : ∀ r ∈ s.file.request, ∃ x ∈ s.file.request, r.toWriteData = x.toWriteData :=
    fun r hr => ⟨r, hr, rfl⟩
  cases hstep with
  | writev offset vector hsync =>
    unfold wbWritev
    split
    · exact h.same hself rfl rfl (fun d hd _ _ => mem_append_left _ hd) (callsKept_append _ _)
    · exact h.same hself rfl rfl (fun d hd _ _ => hd) (callsKept_append _ _)
  | flush frame c hcall hph | process frame c hcall hph =>
    obtain ⟨_, _, hproc⟩ := hque.processed conf _
    exact (hproc.acknowledging rfl h).same (fun r hr => ⟨r, hr, rfl⟩) rfl rfl
      (fun d hd _ _ => hd) (callsKept_setPhase _ frame _)
  | enqueue frame c hcall hph =>
    have hnot := hque.not_mem hcall hph
    constructor
    · refine forall_mem_append.mpr ⟨fun r hr => mem_append_left _ (h.accepted r hr), ?_⟩
      exact forall_mem_singleton.mpr (mem_append_right _ (mem_singleton_self _))
    · refine forall_mem_append.mpr ⟨?_, forall_mem_singleton.mpr ?_⟩
      · intro r hr
        obtain ⟨d, hd, hret⟩ := h.held r hr
        exact ⟨d, by simp [wbEnqueue, Ne.symm (hnot r hr), hd], hret⟩
      · exact ⟨_, by simp [wbEnqueue, hcall]; rfl, .inr rfl⟩
    · intro a ha
      rcases h.given a ha with hdir | ⟨x, hx, hacc⟩
      · exact .inl hdir
      · exact .inr ⟨x, mem_append_left _ hx, hacc⟩
  | syncAll => exact (processed_wbSyncAll s).acknowledging rfl h
  | reply i w reply hwr hstat hposs =>
    refine h.same ?_ rfl rfl (fun d hd _ _ => hd) (callsKept_reply i w reply)
    intro r hr
    obtain ⟨y, hy, rfl⟩ := mem_map.mp hr
    refine ⟨y, hy, ?_⟩
    split_ifs <;> rfl
  | store i requests reply hwr =>
    rw [storeError_eq]
    exact h.same hself rfl rfl (fun d hd _ _ => hd) (CallsKept.refl _)
  | finish i requests reply hwr =>
    have hque' := hque.set hwr (.done reply)
    obtain ⟨_, _, hproc⟩ := hque'.processed conf false
    exact hproc.acknowledging rfl (h.same hself rfl rfl (fun d hd _ _ => hd) (CallsKept.refl _))
  | directReply i frame reply hdir hposs => exact h.directReply hdir
  | sync kind hsync hcalls =>
    exact ((processed_wbSyncAll s).acknowledging rfl h).same (fun r hr => ⟨r, hr, rfl⟩) rfl rfl
      (fun d hd _ _ => hd) (CallsKept.refl _)
  | syncReply kind reply hsync =>
    rw [cbk_eq]
    exact h.same hself rfl rfl (fun d hd _ _ => hd) (CallsKept.refl _)

/-- What the writes and the file know of failures. -/
structure Failing (s : State) : Prop where
  full : ∀ w ∈ s.writes, ∀ reply ∈ w.status.reply?,
    reply.opRet = -1 ∨ reply.opRet = iovLength w.vector
  kept : (∀ reply, s.sync ≠ some (.answered reply)) → ∀ w ∈ s.writes, w.status.isStored = true →
    ∀ reply ∈ w.status.reply?, reply.opRet = -1 → s.file.opRet = -1
  synced : s.sync ≠ none → unmarked s.file.request = [] ∧ ∀ c ∈ s.calls, c.phase = .returned
  success : syncSucceeded s = true → ∀ w ∈ s.writes,
    ∃ reply ∈ w.status.reply?, reply.opRet = iovLength w.vector

theorem failing_start (disabled : Bool) (disableTill : Nat) :
    Failing (start disabled disableTill) :=
  ⟨nofun, nofun, fun h => absurd rfl h, nofun⟩

theorem Failing.same (h : Failing s) (hwrs : s'.writes = s.writes)
    (hret : s'.file.opRet = s.file.opRet) (hsync : s'.sync = s.sync)
    (hsynced : s.sync ≠ none → unmarked s'.file.request = unmarked s.file.request ∧
      s'.calls.map Call.phase = s.calls.map Call.phase) : Failing s' := by
  refine ⟨hwrs ▸ h.full, ?_, ?_, ?_⟩
  · rw [hwrs, hret, hsync]
    exact h.kept
  · rw [hsync]
    intro hne
    obtain ⟨hqu, hcalls⟩ := hsynced hne
    obtain ⟨hnil, hph⟩ := h.synced hne
    refine ⟨hqu.trans hnil, ?_⟩
    intro c hc
    have hmem : c.phase ∈ s.calls.map Call.phase := hcalls ▸ mem_map_of_mem hc
    obtain ⟨d, hd, heq⟩ := mem_map.mp hmem
    rw [← heq]
    exact hph d hd
  · rw [hwrs, syncSucceeded, hsync]
    exact h.success

theorem Processed.failing (h : Processed s s' keep wound behind) (hque : Queued s)
    (hcalls : s'.calls = s.calls) (hsync : s'.sync = s.sync) (hfai : Failing s) : Failing s' := by
  have hcases : ∀ w ∈ s'.writes, w ∈ s.writes ∨ w.status = .wound := by
    intro w hw
    rw [h.writes] at hw
    refine (mem_append.mp hw).imp_right ?_
    intro hw
    obtain ⟨rs, -, rfl⟩ := mem_map.mp hw
    rfl
  constructor
  · intro w hw reply hrep
    rcases hcases w hw with hw | hstat
    · exact hfai.full w hw reply hrep
    · rw [hstat] at hrep
      cases hrep
  · rw [hsync, h.opRet]
    intro hans w hw hsto reply hrep
    rcases hcases w hw with hw | hstat
    · exact hfai.kept hans w hw hsto reply hrep
    · rw [hstat] at hrep
      cases hrep
  · rw [hsync, hcalls]
    intro hne
    obtain ⟨hnil, hph⟩ := hfai.synced hne
    refine ⟨?_, hph⟩
    rw [h.unmarked hque, hnil]
    exact ite_self _
  · intro hsuc
    rw [syncSucceeded, hsync] at hsuc
    have hne : s.sync ≠ none := by
      intro hnone
      simp [hnone] at hsuc
    -- nothing waited, so nothing was written
    have hwrs : s'.writes = s.writes := by
      rw [h.writes, (hfai.synced hne).1, ite_self]
      simp [wbSync]
    rw [hwrs]
    exact hfai.success hsuc

theorem Failing.sync_none {c : Call} (h : Failing s)
    (hcall : s.calls[frame]? = some c) (hph : c.phase ≠ .returned) : s.sync = none := by
  by_contra hne
  exact hph ((h.synced hne).2 c (mem_of_getElem? hcall))

theorem Failing.reply {reply : Reply} (h : Failing s)
    (hwr : s.writes[i]? = some w) (hstat : w.status = .wound)
    (hrptd : Reported s (.reply i reply)) : Failing (wbSyncCbk s i w reply) := by
  have hfull : ∀ v ∈ s.writes.set i { w with status := .replied reply },
      v ∈ s.writes ∨ v = { w with status := .replied reply } :=
    fun v hv => mem_or_eq_of_mem_set hv
  constructor
  · intro v hv r hr
    rcases hfull v hv with hv | rfl
    · exact h.full v hv r hr
    · cases hr
      exact hrptd w hwr
  · intro hans v hv hsto r hr
    rcases hfull v hv with hv | rfl
    · exact h.kept hans v hv hsto r hr
    · cases hsto
  · intro hne
    obtain ⟨hnil, hph⟩ := h.synced hne
    refine ⟨(unmarked_reply _ _).trans hnil, ?_⟩
    intro c hc
    obtain ⟨j, hj⟩ := getElem?_of_mem hc
    obtain ⟨f, hf, hget⟩ := getElem?_markFailed s.file.request
      (w.requests.map frame) reply s.calls j
    rw [wbSyncCbk, hget, Option.map_eq_some_iff] at hj
    obtain ⟨d, hd, rfl⟩ := hj
    rw [hf]
    exact hph d (mem_of_getElem? hd)
  · intro hsuc
    obtain ⟨r, hr, -⟩ := h.success hsuc w (mem_of_getElem? hwr)
    rw [hstat] at hr
    cases hr

theorem Failing.set (h : Failing s) (hwr : s.writes[i]? = some w)
    (status : WriteStatus) (hrep : status.reply? = w.status.reply?)
    (hwrs : s'.writes = s.writes.set i { w with status := status })
    (hret : s.file.opRet = -1 → s'.file.opRet = -1)
    (hkept : ∀ reply ∈ w.status.reply?, reply.opRet = -1 →
      w.status.isStored = true ∨ s'.file.opRet = -1) (hsync : s'.sync = s.sync)
    (hqu : s'.file.request = s.file.request) (hcalls : s'.calls = s.calls) : Failing s' := by
  have hmem := mem_of_getElem? hwr
  have hcases : ∀ v ∈ s'.writes, v ∈ s.writes ∨ v = { w with status := status } := by
    intro v hv
    rw [hwrs] at hv
    exact mem_or_eq_of_mem_set hv
  constructor
  · intro v hv r hr
    rcases hcases v hv with hv | rfl
    · exact h.full v hv r hr
    · exact h.full w hmem r (hrep ▸ hr)
  · rw [hsync]
    intro hans v hv hsto r hr hfail
    rcases hcases v hv with hv | rfl
    · exact hret (h.kept hans v hv hsto r hr hfail)
    · have hr' : r ∈ w.status.reply? := hrep ▸ hr
      rcases hkept r hr' hfail with hsto' | hret'
      · exact hret (h.kept hans w hmem hsto' r hr' hfail)
      · exact hret'
  · rw [hsync, hqu, hcalls]
    exact h.synced
  · intro hsuc v hv
    rw [syncSucceeded, hsync] at hsuc
    rcases hcases v hv with hv | rfl
    · exact h.success hsuc v hv
    · obtain ⟨r, hr, hfull⟩ := h.success hsuc w hmem
      exact ⟨r, hrep.symm ▸ hr, hfull⟩

theorem Failing.syncReply {kind : SyncKind} {reply : Reply} (h : Failing s)
    (hsync : s.sync = some (.wound kind)) (hrptd : Reported s (.syncReply reply)) :
    Failing (kind.cbk s reply) := by
  have hans : ∀ reply, s.sync ≠ some (.answered reply) := by
    intro reply hsome
    simp [hsync] at hsome
  rw [cbk_eq]
  refine ⟨h.full, fun hnot => absurd rfl (hnot _), fun _ => h.synced (by rw [hsync]; nofun), ?_⟩
  intro hsuc w hw
  have hsto := hrptd w hw
  obtain ⟨r, hr⟩ : ∃ r, w.status.reply? = some r := by
    cases hstat : w.status with
    | wound =>
      rw [hstat] at hsto
      cases hsto
    | replied r | stored r | done r => exact ⟨r, rfl⟩
  refine ⟨r, hr, (h.full w hw r hr).resolve_left ?_⟩
  -- a failure would be in the file, and the answer would be that failure
  intro hfail
  have hret := h.kept hans w hw hsto r hr hfail
  simp [syncSucceeded, hret] at hsuc

theorem Failing.step (hstep : Step conf s e s') (hque : Queued s) (hrptd : Reported s e)
    (h : Failing s) : Failing s' := by
  cases hstep with
  | writev offset vector hsync =>
    unfold wbWritev
    split <;> exact h.same rfl rfl rfl (fun hne => absurd hsync hne)
  | flush frame c hcall hph | process frame c hcall hph =>
    have hnone := h.sync_none hcall (by rw [hph]; nofun)
    obtain ⟨_, _, hproc⟩ := hque.processed conf _
    exact (hproc.failing hque rfl rfl h).same rfl rfl rfl (fun hne => absurd hnone hne)
  | enqueue frame c hcall hph =>
    have hnone := h.sync_none hcall (by rw [hph]; nofun)
    exact h.same rfl rfl rfl (fun hne => absurd hnone hne)
  | syncAll => exact (processed_wbSyncAll s).failing hque rfl rfl h
  | reply i w reply hwr hstat hposs => exact h.reply hwr hstat hrptd
  | store i requests reply hwr =>
    rw [storeError_eq]
    refine h.set hwr (.stored reply) rfl rfl ?_ ?_ rfl rfl rfl
    · intro hret
      split_ifs with hfail
      · exact hfail
      · exact hret
    · intro r hr hfail
      cases hr
      exact .inr (if_pos hfail ▸ hfail)
  | finish i requests reply hwr =>
    have hque' := hque.set hwr (.done reply)
    obtain ⟨_, _, hproc⟩ := hque'.processed conf false
    refine hproc.failing hque' rfl rfl ?_
    exact h.set hwr (.done reply) rfl rfl id (fun _ _ _ => .inl rfl) rfl rfl rfl
  | directReply i frame reply hdir hposs => exact h.same rfl rfl rfl (fun _ => ⟨rfl, rfl⟩)
  | sync kind hsync hcalls =>
    have h' := (processed_wbSyncAll s).failing hque rfl rfl h
    refine ⟨h'.full, ?_, ?_, nofun⟩
    · intro _
      refine h'.kept ?_
      intro reply hsome
      have hsome' : s.sync = some (.answered reply) := hsome
      simp [hsync] at hsome'
    · exact fun _ => ⟨(processed_wbSyncAll s).unmarked hque, hcalls⟩
  | syncReply kind reply hsync => exact h.syncReply hsync hrptd

theorem hidesNothing_of_failing (hfai : Failing s) (hcar : Carried s)
    (hack : Acknowledging s) (hfits : Fits s) : HidesNothing s := by
  refine ⟨hfits.overrun, ?_⟩
  intro hsuc _ a ha j hj
  rw [taken, mem_append]
  rcases hack.given a ha with ⟨d, hd, reply, hrep, hfr, hret⟩ | ⟨x, hx, hfr, hret⟩
  · refine .inr (mem_flatMap.mpr ⟨d, hd, ?_⟩)
    rw [← hret] at hj
    simp only [DirectWrite.taken, hrep, hfr]
    exact mem_map_of_mem (mem_range.mpr hj)
  · have hsize : a.opRet = x.size := by
      refine hret.resolve_left ?_
      intro hfail
      rw [hfail] at hj
      exact absurd hj (Nat.not_lt_zero j)
    rw [hsize, Int.toNat_natCast] at hj
    have hne : s.sync ≠ none := by
      intro hnone
      simp [syncSucceeded, hnone] at hsuc
    -- the request has data, and nothing waits, so it was written
    have hmem : x ∈ s.accepted.filter hasData :=
      mem_filter.mpr ⟨hx, decide_eq_true (count_ne_zero hj)⟩
    rw [hcar, (hfai.synced hne).1, append_nil] at hmem
    obtain ⟨w, hw, hxw⟩ := mem_flatMap.mp (mem_of_mem_filter hmem)
    obtain ⟨reply, hrep, hfull⟩ := hfai.success hsuc w hw
    refine .inl (mem_flatMap.mpr ⟨w, hw, ?_⟩)
    rw [taken_of_full hrep hfull, ← hfr]
    exact mem_flatMap.mpr ⟨x, hxw, mem_map_of_mem (mem_range.mpr hj)⟩

/--
In a run in which the child takes all of a write or none of it, and every callback has kept
its failure when the `wb_fsync` or `wb_flush` has its reply, no failure is hidden.
-/
theorem hidesNothing_of_reported (conf : Conf) (disabled : Bool) (disableTill : Nat)
    (events : List Event) (s : State)
    (hrun : run (step conf) (start disabled disableTill) events = some s)
    (hall : AllSteps (step conf) (fun s e => Reported s e ∧ VectorFits s e)
      (start disabled disableTill) events) : HidesNothing s := by
  have hstart : Acknowledging (start disabled disableTill) := ⟨nofun, nofun, nofun⟩
  obtain ⟨hcar, hfits, hack, hfai⟩ := run_queued (P := fun s => Acknowledging s ∧ Failing s)
    ⟨hstart, failing_start disabled disableTill⟩
    (fun _ _ _ hstep hque hrptd h => ⟨h.1.step hstep hque, h.2.step hstep hque hrptd⟩) hall hrun
  exact hidesNothing_of_failing hfai hcar hack hfits

def writtenCalls : List Event :=
  [.writev 0 [[1, 2]], .enqueue 0, .process 0, .reply 0 ⟨2, 0⟩, .store 0, .finish 0,
    .sync .fsync, .syncReply ⟨0, 0⟩]

theorem hidesNothing_writtenCalls :
    ∃ s, run (step ⟨10, 10⟩) (start false 0) writtenCalls = some s ∧
      syncSucceeded s = true ∧ HidesNothing s := by
  have hsuc : (run (step ⟨10, 10⟩) (start false 0) writtenCalls).map syncSucceeded =
      some true := by decide
  obtain ⟨s, hrun, hs⟩ := Option.map_eq_some_iff.mp hsuc
  exact ⟨s, hrun, hs, hidesNothing_of_reported ⟨10, 10⟩ false 0 writtenCalls s hrun (by decide)⟩

def shortCalls : List Event :=
  [.writev 0 [[1, 2]], .enqueue 0, .process 0, .reply 0 ⟨1, 0⟩, .store 0, .finish 0,
    .sync .fsync, .syncReply ⟨0, 0⟩]

def lateCalls : List Event :=
  [.writev 0 [[1]], .enqueue 0, .process 0, .sync .flush, .syncReply ⟨0, 0⟩,
    .reply 0 ⟨-1, 28⟩, .store 0, .finish 0]

theorem not_hidesNothing :
    (∃ s, run (step ⟨10, 10⟩) (start false 0) shortCalls = some s ∧ ¬ HidesNothing s) ∧
      ∃ s, run (step ⟨10, 10⟩) (start false 0) lateCalls = some s ∧ ¬ HidesNothing s := by
  have hsho : (run (step ⟨10, 10⟩) (start false 0) shortCalls).map
      (fun s => decide (HidesNothing s)) = some false := by decide
  have hlate : (run (step ⟨10, 10⟩) (start false 0) lateCalls).map
      (fun s => decide (HidesNothing s)) = some false := by decide
  obtain ⟨s, hrun, hs⟩ := Option.map_eq_some_iff.mp hsho
  obtain ⟨s', hrun', hs'⟩ := Option.map_eq_some_iff.mp hlate
  exact ⟨⟨s, hrun, of_decide_eq_false hs⟩, s', hrun', of_decide_eq_false hs'⟩

end GlusterFS.WriteBehind
