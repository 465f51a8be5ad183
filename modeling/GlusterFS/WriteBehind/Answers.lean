import GlusterFS.WriteBehind.Queue

/-!
# write-behind: the answers to the calls

A request is answered when it is marked as written behind, which happens once.  The requests
that were written and have their reply are answered as far as the window goes, and the size of
a request counts against the window whether it is written or not.  So when the last callback
has run, requests may be left that nothing is going to answer.
-/

namespace GlusterFS.WriteBehind

open Run List Function WriteRequest

abbrev answered (s : State) : List Nat :=
  s.unwound.map Answer.frame

def WriteStatus.isDone : WriteStatus → Bool
  | .done _ => true
  | _ => false

def Quiet (s : State) : Prop :=
  (∀ w ∈ s.writes, w.status.isDone = true) ∧ ∀ d ∈ s.directs, d.reply.isSome = true
deriving Decidable

/-- No call is answered twice, and once all is quiet each one that was written is answered. -/
def AnswersOnce (s : State) : Prop :=
  s.overrun = false ∧ (answered s).Nodup ∧ (Quiet s →
      (∀ w ∈ s.writes, ∀ x ∈ w.requests, (answered s).count x.frame = 1) ∧
        ∀ d ∈ s.directs, (answered s).count d.frame = 1)
deriving Decidable

def waiting (queue : List WriteRequest) : Nat :=
  ((queue.filter (fun r => !r.writeBehind)).map (fun r => r.toWriteData.size)).sum

/-- The window reaches each request that has its reply and is not answered. -/
def WindowReaches (windowConf : Nat) (queue : List WriteRequest) : Prop :=
  ∀ i < queue.length, ∀ r ∈ queue[i]?, r.gotReply = true → r.writeBehind = false →
    wbGetWindowSize queue + waiting (queue.take i) ≤ windowConf

instance (windowConf : Nat) (queue : List WriteRequest) :
    Decidable (WindowReaches windowConf queue) :=
  inferInstanceAs (Decidable (∀ i < queue.length, ∀ r ∈ queue[i]?, _ → _ → _))

/-- The last callback of all finds no request with a reply that the window does not reach. -/
def ReachesAll (conf : Conf) (s : State) : Event → Prop
  | .finish i =>
    (∀ j < s.writes.length, j ≠ i → ∀ w ∈ s.writes[j]?, w.status.isDone = true) →
      WindowReaches conf.windowSize s.file.request
  | _ => True

instance (conf : Conf) (s : State) : ∀ e, Decidable (ReachesAll conf s e) := by
  rintro (_ | _) <;> dsimp only [ReachesAll] <;> infer_instance

variable {queue : List WriteRequest} {r : WriteRequest} {conf : Conf} {s s' : State} {e : Event}
  {i frame : Nat} {w : ChildWrite} {status : WriteStatus} {keep : WriteRequest → Bool}
  {wound : Bool} {behind : List Nat}

theorem waiting_cons (x : WriteRequest) (queue : List WriteRequest) :
    waiting (x :: queue) = (if x.writeBehind then 0 else x.toWriteData.size) + waiting queue := by
  cases hbeh : x.writeBehind <;> simp [waiting, hbeh]

theorem mem_wbMarkUnwindTill {size n : Nat} {before after : List WriteRequest}
    (hr : r.writeBehind = false) (hsize : n + waiting before ≤ size) :
    r.frame ∈ (wbMarkUnwindTill size (before ++ r :: after) n).2 := by
  induction before generalizing n with
  | nil =>
    have hn : n ≤ size := by simpa [waiting] using hsize
    simp [wbMarkUnwindTill, hn, hr]
  | cons x before ih =>
    rw [waiting_cons] at hsize
    have hn : n ≤ size := by omega
    cases hbeh : x.writeBehind with
    | true =>
      rw [hbeh, if_pos rfl, Nat.zero_add] at hsize
      simpa [wbMarkUnwindTill, hn, hbeh] using ih hsize
    | false =>
      rw [hbeh, if_neg Bool.false_ne_true, ← Nat.add_assoc] at hsize
      simpa [wbMarkUnwindTill, hn, hbeh] using .inr (ih hsize)

section

variable (queue : List WriteRequest)

theorem waiting_cleanup : waiting (wbCleanupQueue queue) = waiting queue := by
  rw [waiting, waiting, wbCleanupQueue, filter_filter]
  congr 2
  refine filter_congr ?_
  intro r _
  cases r.writeBehind <;> simp

theorem wbGetWindowSize_cleanup :
    wbGetWindowSize (wbCleanupQueue queue) = wbGetWindowSize queue := by
  rw [wbGetWindowSize, wbGetWindowSize, wbCleanupQueue, filter_filter]
  congr 2
  refine filter_congr ?_
  intro r _
  cases r.gotReply <;> simp

theorem waiting_mark (wound : Bool) :
    waiting (queue.map (mark wound [])) = waiting queue := by
  simp [waiting, filter_map, comp_def, mark]

theorem wbGetWindowSize_mark (wound : Bool) :
    wbGetWindowSize (queue.map (mark wound [])) = wbGetWindowSize queue := by
  simp [wbGetWindowSize, filter_map, comp_def, mark]

end

theorem mem_wbMarkUnwinds {windowConf aggregateConf : Nat}
    (hreach : WindowReaches windowConf queue) (hr : r ∈ queue) (hrep : r.gotReply = true)
    (hbeh : r.writeBehind = false) :
    r.frame ∈ (wbMarkUnwinds (wbMarkWinds (wbCleanupQueue queue) aggregateConf).1 windowConf).2 := by
  obtain ⟨i, hi, rfl⟩ := mem_iff_getElem.mp hr
  have hle := hreach i hi queue[i] (getElem?_eq_getElem hi) hrep hbeh
  obtain ⟨wound, hwinds, -⟩ := wbMarkWinds_spec (wbCleanupQueue queue) aggregateConf
  -- the request keeps its place among those that are not finished
  have hsp : (wbCleanupQueue queue).map (mark wound []) =
      (wbCleanupQueue (queue.take i)).map (mark wound []) ++ queue[i].mark wound [] ::
          (wbCleanupQueue (queue.drop (i + 1))).map (mark wound []) := by
    have hqu : queue = queue.take i ++ queue[i] :: queue.drop (i + 1) := by
      rw [← drop_eq_getElem_cons hi, take_append_drop]
    conv_lhs => rw [hqu]
    rw [wbCleanupQueue, filter_append, filter_cons_of_pos (by simp [hbeh]), map_append, map_cons]
    rfl
  rw [hwinds, wbMarkUnwinds, if_pos]
  · rw [hsp]
    refine mem_wbMarkUnwindTill (r := queue[i].mark wound []) ?_ ?_
    · simp [mark, hbeh]
    · rw [← hsp, wbGetWindowSize_mark, wbGetWindowSize_cleanup, waiting_mark, waiting_cleanup]
      omega
  · dsimp only
    rw [wbGetWindowSize_mark, wbGetWindowSize_cleanup]
    omega

/-- Which calls were answered, in every run. -/
structure Answering (s : State) : Prop where
  nodup : (answered s).Nodup
  started : ∀ i ∈ answered s, Started s i
  behind : ∀ r ∈ s.file.request, (r.writeBehind = true ↔ r.frame ∈ answered s)
  sent : ∀ x, Sent s x → x.frame ∈ answered s ∨ ∃ r ∈ s.file.request, r.frame = x.frame
  replied : ∀ w ∈ s.writes, w.status ≠ .wound → ∀ x ∈ w.requests,
    ∀ r ∈ s.file.request, r.frame = x.frame → r.gotReply = true
  directs : (s.directs.map DirectWrite.frame).Nodup
  direct : ∀ d ∈ s.directs, Started s d.frame ∧ (∀ r ∈ s.file.request, r.frame ≠ d.frame) ∧
    (d.reply.isSome = true ↔ d.frame ∈ answered s)

theorem answering_start (disabled : Bool) (disableTill : Nat) :
    Answering (start disabled disableTill) := by
  refine ⟨nodup_nil, nofun, nofun, ?_, nofun, nodup_nil, nofun⟩
  rintro x ⟨w, hw, -⟩
  cases hw

theorem Answering.same (h : Answering s) (hqu : s'.file.request = s.file.request)
    (hunw : s'.unwound = s.unwound) (hdirs : s'.directs = s.directs)
    (hwrs : ∀ w ∈ s'.writes, ∃ v ∈ s.writes,
      v.requests = w.requests ∧ (w.status ≠ .wound → v.status ≠ .wound))
    (hsta : ∀ i, Started s i → Started s' i) : Answering s' := by
  have hans : answered s' = answered s := by rw [answered, hunw]
  refine ⟨hans ▸ h.nodup, ?_, ?_, ?_, ?_, hdirs ▸ h.directs, ?_⟩
  · intro i hi
    exact hsta i (h.started i (hans ▸ hi))
  · rw [hqu, hans]
    exact h.behind
  · rw [hqu, hans]
    rintro x ⟨w, hw, hx⟩
    obtain ⟨v, hv, hreqs, -⟩ := hwrs w hw
    exact h.sent x ⟨v, hv, hreqs ▸ hx⟩
  · rw [hqu]
    intro w hw hstat x hx
    obtain ⟨v, hv, hreqs, hstat'⟩ := hwrs w hw
    exact h.replied v hv (hstat' hstat) x (hreqs ▸ hx)
  · rw [hqu, hans, hdirs]
    intro d hd
    obtain ⟨hs, hnot, hiff⟩ := h.direct d hd
    exact ⟨hsta _ hs, hnot, hiff⟩

theorem exists_of_mem_set (hwr : s.writes[i]? = some w) (hstat : w.status ≠ .wound) :
    ∀ v ∈ s.writes.set i { w with status := status }, ∃ u ∈ s.writes,
      u.requests = v.requests ∧ (v.status ≠ .wound → u.status ≠ .wound) := by
  intro v hv
  rcases mem_or_eq_of_mem_set hv with hv | rfl
  · exact ⟨v, hv, rfl, id⟩
  · exact ⟨w, mem_of_getElem? hwr, rfl, fun _ => hstat⟩

theorem Processed.answering (h : Processed s s' keep wound behind) (hque : Queued s)
    (hansw : Answering s) (hsta : ∀ i, Started s i → Started s' i) : Answering s' := by
  have hans : answered s' = answered s ++ behind := by
    simp [answered, h.unwound, comp_def, answerOf]
  have hbeh : ∀ i ∈ behind, ∃ r ∈ s.file.request, r.writeBehind = false ∧ r.frame = i := by
    intro i hi
    obtain ⟨r, hr, rfl⟩ := mem_map.mp (h.behind_sub.subset hi)
    obtain ⟨hr, hnot⟩ := mem_filter.mp hr
    exact ⟨r, mem_of_mem_filter hr, by simpa using hnot, rfl⟩
  constructor
  · rw [hans, nodup_append]
    refine ⟨hansw.nodup, ?_, ?_⟩
    · exact hque.nodup.sublist (h.behind_sub.trans ((filter_sublist.trans filter_sublist).map _))
    · rintro i hi j hj rfl
      obtain ⟨r, hr, hnot, rfl⟩ := hbeh i hj
      simp [(hansw.behind r hr).mpr hi] at hnot
  · rw [hans]
    refine forall_mem_append.mpr ⟨fun i hi => hsta i (hansw.started i hi), ?_⟩
    intro i hi
    obtain ⟨r, hr, -, rfl⟩ := hbeh i hi
    exact hsta r.frame (hque.started r hr)
  · intro r hr
    obtain ⟨x, hx, rfl⟩ := h.exists_mark hr
    rw [hans]
    simp [mark, hansw.behind x hx]
  · intro x hx
    rw [hans]
    have hold : x.frame ∈ answered s ∨ ∃ r ∈ s.file.request, r.frame = x.frame := by
      rcases h.sent hx with hsent | ⟨-, hunmk⟩
      · exact hansw.sent x hsent
      · obtain ⟨r, hr, -, rfl⟩ := mem_unmarked.mp hunmk
        exact .inr ⟨r, hr, rfl⟩
    rcases hold with hold | ⟨r, hr, hfr⟩
    · exact .inl (mem_append_left _ hold)
    · cases hkeep : keep r with
      | false =>
        have hr' := (hansw.behind r hr).mp (h.finished r hkeep).2
        exact .inl (mem_append_left _ (hfr ▸ hr'))
      | true =>
        refine .inr ⟨r.mark wound behind, ?_, hfr⟩
        rw [h.queue]
        exact mem_map_of_mem (mem_filter.mpr ⟨hr, hkeep⟩)
  · intro w hw hstat x hx r hr hfr
    obtain ⟨y, hy, rfl⟩ := h.exists_mark hr
    rw [h.writes] at hw
    rcases mem_append.mp hw with hw | hw
    · exact hansw.replied w hw hstat x hx y hy hfr
    · obtain ⟨rs, -, rfl⟩ := mem_map.mp hw
      exact absurd rfl hstat
  · rw [h.directs]
    exact hansw.directs
  · intro d hd
    rw [h.directs] at hd
    obtain ⟨hs, hnot, hiff⟩ := hansw.direct d hd
    refine ⟨hsta _ hs, ?_, ?_⟩
    · intro r hr
      obtain ⟨x, hx, rfl⟩ := h.exists_mark hr
      exact hnot x hx
    · rw [hans, mem_append, hiff]
      refine ⟨.inl, ?_⟩
      rintro (hd | hd)
      · exact hd
      · obtain ⟨r, hr, -, hfr⟩ := hbeh _ hd
        exact absurd hfr (hnot r hr)

theorem Answering.enqueue {c : Call} (h : Answering s) (hque : Queued s)
    (hcall : s.calls[frame]? = some c) (hph : c.phase = .enqueue)
    (hsta : ∀ i, Started s i → Started (wbEnqueue s frame c) i) :
    Answering (wbEnqueue s frame c) := by
  have hnot : ∀ i, Started s i → i ≠ frame := by
    rintro i hi rfl
    exact not_started hcall hph hi
  refine ⟨h.nodup, fun i hi => hsta i (h.started i hi), ?_, ?_, ?_, h.directs, ?_⟩
  · refine forall_mem_append.mpr ⟨h.behind, forall_mem_singleton.mpr ⟨nofun, ?_⟩⟩
    intro hmem
    exact absurd rfl (hnot frame (h.started frame hmem))
  · intro x hx
    rcases h.sent x hx with hx | ⟨r, hr, hfr⟩
    · exact .inl hx
    · exact .inr ⟨r, mem_append_left _ hr, hfr⟩
  · intro w hw hstat x hx r hr hfr
    rcases mem_append.mp hr with hr | hr
    · exact h.replied w hw hstat x hx r hr hfr
    · rw [mem_singleton.mp hr] at hfr
      exact absurd hfr.symm (hnot x.frame (hque.sent_started x ⟨w, hw, hx⟩))
  · intro d hd
    obtain ⟨hs, hne, hiff⟩ := h.direct d hd
    refine ⟨hsta _ hs, forall_mem_append.mpr ⟨hne, forall_mem_singleton.mpr ?_⟩, hiff⟩
    exact (hnot d.frame hs).symm

theorem Answering.reply {reply : Reply} (h : Answering s) (hwr : s.writes[i]? = some w)
    (hsta : ∀ j, Started s j → Started (wbSyncCbk s i w reply) j) :
    Answering (wbSyncCbk s i w reply) := by
  have hmem : ∀ r ∈ (wbSyncCbk s i w reply).file.request, ∃ y ∈ s.file.request,
      r.frame = y.frame ∧ r.writeBehind = y.writeBehind ∧ (y.gotReply = true → r.gotReply = true) ∧
        (y.frame ∈ w.requests.map WriteData.frame → r.gotReply = true) := by
    intro r hr
    obtain ⟨y, hy, rfl⟩ := mem_map.mp hr
    refine ⟨y, hy, ?_⟩
    split_ifs with hfr
    · exact ⟨rfl, rfl, fun _ => rfl, fun _ => rfl⟩
    · exact ⟨rfl, rfl, id, fun hmem => absurd hmem hfr⟩
  refine ⟨h.nodup, fun j hj => hsta j (h.started j hj), ?_, ?_, ?_, h.directs, ?_⟩
  · intro r hr
    obtain ⟨y, hy, hfr, hbeh, -, -⟩ := hmem r hr
    rw [hfr, hbeh]
    exact h.behind y hy
  · intro x hx
    rcases h.sent x ((sent_set_iff hwr rfl).mp hx) with hx | ⟨r, hr, hfr⟩
    · exact .inl hx
    · refine .inr ⟨_, mem_map_of_mem hr, ?_⟩
      split_ifs <;> exact hfr
  · intro v hv hstat x hx r hr hfr
    obtain ⟨y, hy, hfr', -, hkept, hset⟩ := hmem r hr
    rw [hfr'] at hfr
    rcases mem_or_eq_of_mem_set hv with hv | rfl
    · exact hkept (h.replied v hv hstat x hx y hy hfr)
    · exact hset (hfr ▸ mem_map_of_mem hx)
  · intro d hd
    obtain ⟨hs, hne, hiff⟩ := h.direct d hd
    refine ⟨hsta _ hs, ?_, hiff⟩
    intro r hr
    obtain ⟨y, hy, hfr, -, -, -⟩ := hmem r hr
    rw [hfr]
    exact hne y hy

variable {reply : Reply}

theorem Answering.directReply (h : Answering s) (hdir : s.directs[i]? = some ⟨frame, none⟩) :
    Answering
      { s with
        directs := s.directs.set i ⟨frame, some reply⟩
        unwound := s.unwound ++ [⟨frame, reply.opRet, reply.opErrno⟩] } := by
  obtain ⟨hi, heq⟩ := List.getElem?_eq_some_iff.mp hdir
  have hi' : i < (s.directs.map DirectWrite.frame).length := by simpa using hi
  have hself : (s.directs.map DirectWrite.frame)[i] = frame := by simp [heq]
  obtain ⟨hs, hne, hiff⟩ := h.direct _ (mem_of_getElem? hdir)
  have hnew : frame ∉ answered s := fun hmem => absurd (hiff.mpr hmem) nofun
  have hans : ∀ j, j ∈ answered s ++ [frame] ↔ j ∈ answered s ∨ j = frame := by simp
  have hmap : (s.unwound ++ [(⟨frame, reply.opRet, reply.opErrno⟩ : Answer)]).map Answer.frame =
      answered s ++ [frame] := by simp
  constructor
  · rw [answered, hmap, nodup_append]
    refine ⟨h.nodup, nodup_singleton _, ?_⟩
    rintro j hj k hk rfl
    exact hnew (mem_singleton.mp hk ▸ hj)
  · intro j hj
    rw [answered, hmap, hans] at hj
    rcases hj with hj | rfl
    · exact h.started j hj
    · exact hs
  · intro r hr
    rw [answered, hmap, hans, h.behind r hr]
    exact ⟨.inl, fun hor => hor.resolve_right (hne r hr)⟩
  · intro x hx
    rw [answered, hmap, hans]
    exact (h.sent x hx).imp_left .inl
  · exact h.replied
  · rw [map_set, ← hself, set_getElem_self]
    exact h.directs
  · intro d hd
    obtain ⟨j, hj⟩ := getElem?_of_mem hd
    rw [answered, hmap, hans]
    by_cases hij : i = j
    · subst hij
      rw [getElem?_set_self hi] at hj
      cases hj
      exact ⟨hs, hne, fun _ => .inr rfl, fun _ => rfl⟩
    · rw [getElem?_set_ne hij] at hj
      obtain ⟨hs', hne', hiff'⟩ := h.direct d (mem_of_getElem? hj)
      have hfr : d.frame ≠ frame := by
        intro hsame
        obtain ⟨hlt, hget⟩ := List.getElem?_eq_some_iff.mp hj
        have hlt' : j < (s.directs.map DirectWrite.frame).length := by simpa using hlt
        refine hij ((h.directs.getElem_inj_iff).mp (?_ :
          (s.directs.map DirectWrite.frame)[i] = (s.directs.map DirectWrite.frame)[j]))
        rw [hself, getElem_map, hget, hsame]
      exact ⟨hs', hne', fun hsome => .inl (hiff'.mp hsome),
        fun hor => hiff'.mpr (hor.resolve_right hfr)⟩

theorem Started.lt (h : Started s i) : i < s.calls.length := by
  obtain ⟨c, hc, -⟩ := h
  exact (List.getElem?_eq_some_iff.mp hc).1

theorem Answering.writev (h : Answering s) (hque : Queued s) (offset : Nat)
    (vector : List (List Byte))
    (hsta : ∀ i, Started s i → Started (wbWritev s offset vector) i) :
    Answering (wbWritev s offset vector) := by
  by_cases hdisa : s.file.disabled ∨ s.file.disableTill ≠ 0
  · rw [wbWritev, if_pos hdisa] at hsta ⊢
    refine { h with started := fun j hj => hsta j (h.started j hj), directs := ?_, direct := ?_ }
    · rw [map_append, nodup_append]
      refine ⟨h.directs, nodup_singleton _, ?_⟩
      rintro j hj k hk rfl
      obtain ⟨d, hd, rfl⟩ := mem_map.mp hj
      have hlt := (h.direct d hd).1.lt
      rw [mem_singleton.mp hk] at hlt
      exact lt_irrefl _ hlt
    · refine forall_mem_append.mpr ⟨?_, forall_mem_singleton.mpr ?_⟩
      · intro d hd
        obtain ⟨hs, hne, hiff⟩ := h.direct d hd
        exact ⟨hsta _ hs, hne, hiff⟩
      · refine ⟨⟨⟨offset, vector, .returned, 0, 0⟩, by simp, .inr rfl⟩, ?_, by simp, ?_⟩
        · intro r hr heq
          have hlt := (hque.started r hr).lt
          rw [heq] at hlt
          exact lt_irrefl _ hlt
        · intro hmem
          exact absurd (h.started _ hmem).lt (lt_irrefl _)
  · rw [wbWritev, if_neg hdisa] at hsta ⊢
    exact h.same rfl rfl rfl (fun w hw => ⟨w, hw, rfl, id⟩) hsta

theorem Answering.step (hstep : Step conf s e s') (hque : Queued s) (h : Answering s) :
    Answering s' := by
  have hsta : ∀ i, Started s i → Started s' i := fun i => Started.step hstep
  cases hstep with
  | writev offset vector hsync => exact h.writev hque offset vector hsta
  | flush frame c hcall hph | process frame c hcall hph =>
    obtain ⟨_, _, hproc⟩ := hque.processed conf _
    exact (hproc.answering hque h (fun _ => id)).same rfl rfl rfl
      (fun w hw => ⟨w, hw, rfl, id⟩) hsta
  | enqueue frame c hcall hph => exact h.enqueue hque hcall hph hsta
  | syncAll => exact (processed_wbSyncAll s).answering hque h hsta
  | reply i w reply hwr hstat hposs => exact h.reply hwr hsta
  | store i requests reply hwr =>
    rw [storeError_eq] at hsta ⊢
    exact h.same rfl rfl rfl (exists_of_mem_set hwr nofun) hsta
  | finish i requests reply hwr =>
    have hque' := hque.set hwr (.done reply)
    obtain ⟨_, _, hproc⟩ := hque'.processed conf false
    exact hproc.answering hque'
      (h.same rfl rfl rfl (exists_of_mem_set hwr nofun) (fun _ => id)) hsta
  | directReply i frame reply hdir hposs => exact h.directReply hdir
  | sync kind hsync hcalls =>
    exact ((processed_wbSyncAll s).answering hque h (fun _ => id)).same rfl rfl rfl
      (fun w hw => ⟨w, hw, rfl, id⟩) hsta
  | syncReply kind reply hsync =>
    rw [cbk_eq] at hsta ⊢
    exact h.same rfl rfl rfl (fun w hw => ⟨w, hw, rfl, id⟩) hsta

def Settled (s : State) : Prop :=
  (∀ w ∈ s.writes, w.status.isDone = true) → ∀ x, Sent s x → x.frame ∈ answered s

theorem Settled.same (h : Settled s) (hwrs : s'.writes = s.writes)
    (hans : ∀ i ∈ answered s, i ∈ answered s') : Settled s' := by
  intro hdone x hx
  rw [Sent, hwrs] at hx
  rw [hwrs] at hdone
  exact hans x.frame (h hdone x hx)

theorem settled_set (hwr : s.writes[i]? = some w) (hstat : status.isDone = false)
    (hwrs : s'.writes = s.writes.set i { w with status := status }) : Settled s' := by
  intro hdone
  have hlt := (List.getElem?_eq_some_iff.mp hwr).1
  have := hdone _ (hwrs ▸ mem_set hlt _)
  simp [hstat] at this

theorem Processed.writes_of_done (h : Processed s s' keep wound behind)
    (hdone : ∀ w ∈ s'.writes, w.status.isDone = true) : s'.writes = s.writes := by
  rw [h.writes] at hdone ⊢
  cases hnew : wbSync (if wound then WriteBehind.unmarked s.file.request else []) with
  | nil => simp
  | cons rs rest =>
    rw [hnew] at hdone
    have := hdone ⟨rs, .wound⟩ (by simp)
    cases this

theorem Processed.settled (h : Processed s s' keep wound behind) (hset : Settled s) :
    Settled s' := by
  intro hdone
  refine hset.same (h.writes_of_done hdone) ?_ hdone
  intro i hi
  rw [answered, h.unwound, map_append]
  exact mem_append_left _ hi

theorem settled_finish {requests : List WriteData} (hque : Queued s)
    (hansw : Answering (wbProcessQueue conf false
      { s with writes := s.writes.set i ⟨requests, .done reply⟩ }))
    (hwr : s.writes[i]? = some ⟨requests, .stored reply⟩) (hreach : ReachesAll conf s (.finish i)) :
    Settled (wbProcessQueue conf false
      { s with writes := s.writes.set i ⟨requests, .done reply⟩ }) := by
  have hque' := hque.set hwr (.done reply)
  obtain ⟨wound, behind, hproc, -, hbeh⟩ := processed_wbProcessQueue hque' conf false
  intro hdone x hx
  have hwrs := hproc.writes_of_done hdone
  have hoths : ∀ j < s.writes.length, j ≠ i → ∀ w ∈ s.writes[j]?, w.status.isDone = true := by
    intro j hj hji w hw
    refine hdone w ?_
    rw [hwrs]
    refine mem_of_getElem? (i := j) ?_
    rw [getElem?_set_ne (Ne.symm hji)]
    exact hw
  have hwindow := hreach hoths
  rcases hansw.sent x hx with hx' | ⟨r, hr, hfr⟩
  · exact hx'
  · rw [← hfr, ← hansw.behind r hr]
    obtain ⟨w, hw, hxw⟩ := hx
    have hrep : r.gotReply = true := by
      refine hansw.replied w hw ?_ x hxw r hr hfr
      intro hstat
      have := hdone w hw
      rw [hstat] at this
      cases this
    rw [hproc.queue] at hr
    obtain ⟨y, hy, rfl⟩ := mem_map.mp hr
    cases hy' : y.writeBehind with
    | true => simp [mark, hy']
    | false =>
      -- the request has its reply, so the window reaches it
      have hmem : y.frame ∈ behind := by
        rw [hbeh]
        exact mem_wbMarkUnwinds hwindow (mem_of_mem_filter hy) hrep hy'
      simp [mark, hmem]

theorem Settled.step (hstep : Step conf s e s') (hque : Queued s) (hansw : Answering s)
    (hreach : ReachesAll conf s e) (h : Settled s) : Settled s' := by
  have hansw' := hansw.step hstep hque
  cases hstep with
  | writev offset vector hsync =>
    unfold wbWritev
    split <;> exact h
  | flush frame c hcall hph | process frame c hcall hph =>
    obtain ⟨_, _, hproc⟩ := hque.processed conf _
    exact hproc.settled h
  | enqueue frame c hcall hph => exact h
  | syncAll | sync kind hsync hcalls => exact (processed_wbSyncAll s).settled h
  | reply i w reply hwr hstat hposs => exact settled_set hwr rfl rfl
  | store i requests reply hwr =>
    exact settled_set hwr rfl rfl
  | finish i requests reply hwr => exact settled_finish hque hansw' hwr hreach
  | directReply i frame reply hdir hposs =>
    refine h.same rfl ?_
    intro j hj
    rw [answered, map_append]
    exact mem_append_left _ hj
  | syncReply kind reply hsync =>
    rw [cbk_eq]
    exact h

theorem answersOnce_of_settled (hansw : Answering s) (hset : Settled s) (hfits : Fits s) :
    AnswersOnce s := by
  refine ⟨hfits.overrun, hansw.nodup, ?_⟩
  intro hqt
  constructor
  · intro w hw x hx
    exact count_eq_one_of_mem hansw.nodup (hset hqt.1 x ⟨w, hw, hx⟩)
  · intro d hd
    exact count_eq_one_of_mem hansw.nodup ((hansw.direct d hd).2.2.mp (hqt.2 d hd))

/--
In a run in which the window reaches every request with a reply whenever the last callback
runs, each call whose request was written is answered once.
-/
theorem answersOnce_of_reachesAll (conf : Conf) (disabled : Bool) (disableTill : Nat)
    (events : List Event) (s : State)
    (hrun : run (step conf) (start disabled disableTill) events = some s)
    (hall : AllSteps (step conf) (fun s e => ReachesAll conf s e ∧ VectorFits s e)
      (start disabled disableTill) events) : AnswersOnce s := by
  have hstart : Settled (start disabled disableTill) := by
    rintro - x ⟨w, hw, -⟩
    cases hw
  obtain ⟨-, hfits, hansw, hset⟩ := run_queued (P := fun s => Answering s ∧ Settled s)
    ⟨answering_start disabled disableTill, hstart⟩
    (fun _ _ _ hstep hque hreach h => ⟨h.1.step hstep hque, h.2.step hstep hque h.1 hreach⟩)
    hall hrun
  exact answersOnce_of_settled hansw hset hfits

def threeBehind : List Event :=
  [.writev 0 [[1]], .enqueue 0, .process 0, .writev 1 [[2]], .enqueue 1, .process 1,
    .writev 2 [[3]], .enqueue 2, .process 2, .writev 3 [[4]], .enqueue 3, .process 3,
    .reply 0 ⟨1, 0⟩, .store 0, .finish 0, .reply 1 ⟨3, 0⟩, .store 1, .finish 1]

/-- With a window of two bytes all of them are answered. -/
theorem answersOnce_threeBehind :
    ∃ s, run (step ⟨10, 2⟩) (start false 0) threeBehind = some s ∧
      Quiet s ∧ s.writes.length = 2 ∧ AnswersOnce s := by
  obtain ⟨s, hrun, hs, hlen⟩ : ∃ s ∈ run (step ⟨10, 2⟩) (start false 0) threeBehind,
      Quiet s ∧ s.writes.length = 2 := by decide
  exact ⟨s, hrun, hs, hlen,
    answersOnce_of_reachesAll ⟨10, 2⟩ false 0 threeBehind s hrun (by decide)⟩

/-- Without a window the last one is not answered. -/
theorem not_answersOnce_threeBehind :
    ∃ s, run (step ⟨10, 0⟩) (start false 0) threeBehind = some s ∧ Quiet s ∧ ¬ AnswersOnce s := by
  obtain ⟨s, hrun, hs⟩ : ∃ s ∈ run (step ⟨10, 0⟩) (start false 0) threeBehind,
      Quiet s ∧ ¬ AnswersOnce s := by decide
  exact ⟨s, hrun, hs⟩

end GlusterFS.WriteBehind
