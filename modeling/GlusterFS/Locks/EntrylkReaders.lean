import GlusterFS.Locks.EntrylkExclusion
import GlusterFS.Locks.EntrylkTransport

/-!
# Posix-locks: shared entry locks

Read locks on the names of a directory that are granted and unlocked, and write requests that do
not wait.  The number of readers of a name is kept beside the state.  A second reader of a name
goes into the count of the lock of the first, and the code then frees that lock, so the count is
right exactly as long as no name has two readers.
-/

namespace GlusterFS.Locks

open Run List Function Option Prod

/-- The state with the number of read locks that were granted on a name and not unlocked. -/
structure ReaderState where
  state : EntrylkState
  readers : Option String → Nat

def ReaderState.empty : ReaderState where
  state := .empty
  readers := fun _ => 0

/-- A read lock that is granted, an unlock of one, or a write request that does not wait. -/
def InShare (s : ReaderState) (call : EntrylkCall) : Prop :=
  call.pid ≠ 0 ∧ (call.type = .rdlck ∧ call.cmd ≠ .unlock ∧
        (lockName s.state.dir call.request (call.cmd == .lockNb)).map Prod.snd = some .zero ∨
      call.type = .rdlck ∧ call.cmd = .unlock ∧ 0 < s.readers call.basename ∨
      call.type = .wrlck ∧ call.cmd = .lockNb)
deriving Decidable

def countReader (readers : Option String → Nat) (call : EntrylkCall) : Option String → Nat :=
  match call.cmd, call.type with
  | .unlock, .rdlck => update readers call.basename (readers call.basename - 1)
  | _, .rdlck => update readers call.basename (readers call.basename + 1)
  | _, .wrlck => readers

def readerStep (s : ReaderState) (call : EntrylkCall) : Option ReaderState :=
  (plEntrylkCommon s.state call).map (fun s' => ⟨s', countReader s.readers call⟩)

/-- A name with readers has a live lock that counts them and keeps writers out. -/
structure ReadersCounted (s : ReaderState) : Prop where
  counted : ∀ name, 0 < s.readers name → ∃ c ∈ s.state.dir.cells,
    c.2.basename = name ∧ c.2.type = .rdlck ∧ c.2.freed = false ∧
      c.2.readCount.toNat = s.readers name
  refuses : ∀ name, 0 < s.readers name → ∀ req : BlockedLock, req.type = .wrlck →
    namesConflict name req.basename = true →
      lockName s.state.dir req true = some (s.state.dir, .eagain)
  gone : ∀ name, s.readers name = 0 → ∀ c ∈ s.state.dir.cells,
    c.2.basename = name → c.2.type ≠ .rdlck

def FirstReader (s : ReaderState) (call : EntrylkCall) : Prop :=
  call.cmd ≠ .unlock → call.type = .rdlck → s.readers call.basename = 0
deriving Decidable

variable {cs : List (Nat × EntryLock)} {basename : Option String} {c : Nat × EntryLock}
  {d : Cells EntryLock} {req : BlockedLock} {s' : ReaderState}

theorem foldl_matchName_names (cs : List (Nat × EntryLock)) (basename : Option String) :
    (∀ c ∈ (cs.foldl (matchName basename) (none, none)).1, c.2.basename = none) ∧
      (∀ c ∈ (cs.foldl (matchName basename) (none, none)).2,
        c.2.basename = basename ∧ basename ≠ none) ∧
      ((∃ c ∈ cs, c.2.basename = basename) →
        ∃ c' ∈ (cs.foldl (matchName basename) (none, none)).2.or
          (cs.foldl (matchName basename) (none, none)).1, c'.2.basename = basename) := by
  induction cs using reverseRecOn with
  | nil => simp
  | append_singleton cs c ih =>
    rw [foldl_append]
    generalize cs.foldl (matchName basename) (none, none) = m at ih ⊢
    obtain ⟨hall, hexact, hfnd⟩ := ih
    have hearl : (∃ c' ∈ cs ++ [c], c'.2.basename = basename) →
        c.2.basename ≠ basename → ∃ c' ∈ m.2.or m.1, c'.2.basename = basename := by
      rintro ⟨c', hc', hname⟩ hne
      rcases mem_append.mp hc' with hc' | hc'
      · exact hfnd ⟨c', hc', hname⟩
      · exact absurd (mem_singleton.mp hc' ▸ hname) hne
    simp only [foldl_cons, foldl_nil, matchName, allNames, namesEqual,
      isNone_iff_eq_none, beq_iff_eq]
    split_ifs with hnone hname
    · refine ⟨by simpa using hnone, hexact, fun hex => ?_⟩
      by_cases hb : basename = none
      · have hno : m.2 = none :=
          eq_none_iff_forall_not_mem.mpr (fun c' hc' => (hexact c' hc').2 hb)
        exact ⟨c, by simp [hno], hnone.trans hb.symm⟩
      · obtain ⟨c', hc', hname⟩ := hearl hex (fun heq => hb (heq.symm.trans hnone))
        rw [mem_def, or_eq_some_iff] at hc'
        rcases hc' with hc' | ⟨_, hc'⟩
        · exact ⟨c', by simp [hc'], hname⟩
        · exact absurd (hname.symm.trans (hall c' hc')) hb
    · exact ⟨hall, by simpa [← hname] using hnone, fun _ => ⟨c, rfl, hname⟩⟩
    · exact ⟨hall, hexact, fun hex => hearl hex hname⟩

theorem findMostMatchingLock_of_mem (hlive : ∀ c ∈ cs, c.2.freed = false) (hc : c ∈ cs)
    (hname : c.2.basename = basename) :
    ∃ c', findMostMatchingLock cs basename = some (some c') ∧ c'.2.basename = basename := by
  obtain ⟨c', hc', hname'⟩ := (foldl_matchName_names cs basename).2.2 ⟨c, hc, hname⟩
  refine ⟨c', ?_, hname'⟩
  unfold findMostMatchingLock
  rw [if_neg (by simpa using hlive)]
  exact congrArg some hc'

theorem lockName_refused (hlive : ∀ c ∈ d.cells, c.2.freed = false) (hc : c ∈ d.cells)
    (hconf : (namesConflict c.2.basename req.basename && typesConflict c.2.type req.type) = true) :
    lockName d req true = some (d, .eagain) := by
  obtain ⟨conf, hgrant⟩ := exists_lockGrantable hlive req.basename req.type
  rw [lockName, hgrant]
  cases conf with
  | none => exact absurd hconf (by simp [lockGrantable_eq_none hgrant c hc])
  | some c' => rfl

theorem lockName_read {d' : Cells EntryLock} {nonblock : Bool}
    (hlive : ∀ c ∈ d.cells, c.2.freed = false) (hread : req.type = .rdlck)
    (h : lockName d req nonblock = some (d', .zero)) :
    (∀ c ∈ d.cells, c.2.type = .wrlck → namesConflict c.2.basename req.basename = false) ∧
      (d' = d.add (newEntrylkLock req) ∧ (∀ c ∈ d.cells, c.2.basename ≠ req.basename) ∨
        ∃ c ∈ d.cells, c.2.basename = req.basename ∧
          d' = d.modify c.1 (fun l => { l with readCount := l.readCount + 1, freed := true })) := by
  obtain ⟨conf, hconf, h⟩ := Option.bind_eq_some_iff.mp h
  cases conf with
  | some c => cases nonblock <;> cases h
  | none =>
    refine ⟨fun c hc htype => ?_, ?_⟩
    · simpa [htype, typesConflict] using lockGrantable_eq_none hconf c hc
    simp only [hread, lockNameRead, Option.map_map] at h
    obtain ⟨found, hfnd, heq⟩ := Option.map_eq_some_iff.mp h
    by_cases hname : ∃ c ∈ d.cells, c.2.basename = req.basename
    · obtain ⟨c, hc, hname⟩ := hname
      obtain ⟨c', hc', hname'⟩ := findMostMatchingLock_of_mem hlive hc hname
      rw [hc'] at hfnd
      cases hfnd
      simp only [comp, namesEqual, hname', beq_self_eq_true, if_true, mk.injEq, and_true] at heq
      exact .inr ⟨c', findMostMatchingLock_eq_some hc', hname', heq.symm⟩
    · push Not at hname
      refine .inl ⟨?_, hname⟩
      cases found with
      | none => exact (congrArg fst heq).symm
      | some c =>
        have hne := hname c (findMostMatchingLock_eq_some hfnd)
        simp only [comp, namesEqual, beq_iff_eq, hne, if_false, mk.injEq, and_true] at heq
        exact heq.symm

section

def readerNames (cells : List (Nat × EntryLock)) : List (Option String) :=
  (cells.filter (fun c => c.2.type = .rdlck)).map (fun c => c.2.basename)

/-- Every reader has a lock of its own, and nobody waits. -/
structure ReadersHeld (s : ReaderState) : Prop where
  released : s.state.released = []
  live : ∀ c ∈ s.state.dir.cells, c.2.freed = false
  idle : ∀ c ∈ s.state.dir.cells, c.2.blockedLocks = []
  one : ∀ c ∈ s.state.dir.cells, c.2.type = .rdlck → c.2.readCount = 1
  apart : ∀ c ∈ s.state.dir.cells, ∀ c' ∈ s.state.dir.cells,
    c.2.type = .rdlck → c'.2.type = .wrlck → namesConflict c.2.basename c'.2.basename = false
  names : (readerNames s.state.dir.cells).Nodup
  counts : ∀ name, s.readers name = (readerNames s.state.dir.cells).count name

variable {s : ReaderState} {call : EntrylkCall}

theorem mem_readerNames {cells : List (Nat × EntryLock)} {name : Option String} :
    name ∈ readerNames cells ↔ ∃ c ∈ cells, c.2.type = .rdlck ∧ c.2.basename = name := by
  simp [readerNames, and_assoc]

variable (h : ReadersHeld s)
include h

theorem ReadersHeld.pos_iff (name : Option String) :
    0 < s.readers name ↔ ∃ c ∈ s.state.dir.cells, c.2.type = .rdlck ∧ c.2.basename = name := by
  rw [h.counts, count_pos_iff, mem_readerNames]

theorem ReadersHeld.unique {c' : Nat × EntryLock} (hc : c ∈ s.state.dir.cells)
    (htype : c.2.type = .rdlck) (hc' : c' ∈ s.state.dir.cells)
    (hname : c'.2.basename = c.2.basename) : c' = c := by
  have htype' : c'.2.type = .rdlck := by
    cases htype' : c'.2.type with
    | rdlck => rfl
    | wrlck =>
      have hap := h.apart c hc c' hc' htype htype'
      simp [hname, namesConflict] at hap
  exact inj_on_of_nodup_map h.names (mem_filter.mpr ⟨hc', by simpa using htype'⟩)
    (mem_filter.mpr ⟨hc, by simpa using htype⟩) hname

theorem ReadersHeld.counted : ReadersCounted s := by
  constructor
  · intro name hpos
    obtain ⟨c, hc, htype, hname⟩ := (h.pos_iff name).mp hpos
    refine ⟨c, hc, hname, htype, h.live c hc, ?_⟩
    rw [h.one c hc htype, h.counts, h.names.count,
      if_pos (mem_readerNames.mpr ⟨c, hc, htype, hname⟩)]
    rfl
  · intro name hpos req hreq hconf
    obtain ⟨c, hc, htype, hname⟩ := (h.pos_iff name).mp hpos
    refine lockName_refused h.live hc ?_
    simpa [hname, hreq, typesConflict] using hconf
  · intro name hzero c hc hname htype
    have hpos := (h.pos_iff name).mpr ⟨c, hc, htype, hname⟩
    omega

theorem ReadersHeld.add
    (hfree : ∀ c ∈ s.state.dir.cells,
      (namesConflict c.2.basename req.basename && typesConflict c.2.type req.type) = false)
    (hnew : req.type = .rdlck → ∀ c ∈ s.state.dir.cells, c.2.basename ≠ req.basename)
    (hdir : s'.state.dir = s.state.dir.add (newEntrylkLock req))
    (hrel : s'.state.released = s.state.released)
    (hrds : ∀ name, s'.readers name =
      s.readers name + if req.type = .rdlck ∧ req.basename = name then 1 else 0)
    : ReadersHeld s' := by
  have hcells : s'.state.dir.cells =
      (s.state.dir.next, newEntrylkLock req) :: s.state.dir.cells := by
    rw [hdir, Cells.cells_add]
  have hnames : readerNames s'.state.dir.cells =
      (if req.type = .rdlck then [req.basename] else []) ++ readerNames s.state.dir.cells := by
    rw [hcells, readerNames, filter_cons]
    by_cases htype : req.type = .rdlck <;> simp [newEntrylkLock, htype, readerNames]
  have hread : req.type = .rdlck → ∀ c ∈ s.state.dir.cells, c.2.type = .wrlck →
      namesConflict req.basename c.2.basename = false := by
    intro hreq c hc htype
    rw [namesConflict_comm]
    simpa [htype, typesConflict] using hfree c hc
  have hwr : req.type = .wrlck → ∀ c ∈ s.state.dir.cells, c.2.type = .rdlck →
      namesConflict c.2.basename req.basename = false := by
    intro hreq c hc htype
    simpa [hreq, typesConflict] using hfree c hc
  refine
    { released := hrel.trans h.released
      live := by
        rw [hcells]
        exact forall_mem_cons.mpr ⟨rfl, h.live⟩
      idle := by
        rw [hcells]
        exact forall_mem_cons.mpr ⟨rfl, h.idle⟩
      one := by
        rw [hcells]
        exact forall_mem_cons.mpr ⟨fun htype => if_pos htype, h.one⟩
      apart := ?_
      names := ?_
      counts := ?_ }
  · rw [hcells]
    intro c hc c' hc' htype htype'
    rcases mem_cons.mp hc with rfl | hc <;> rcases mem_cons.mp hc' with rfl | hc'
    · exact absurd (htype.symm.trans htype') (by decide)
    · exact hread htype c' hc' htype'
    · exact hwr htype' c hc htype
    · exact h.apart c hc c' hc' htype htype'
  · rw [hnames]
    split_ifs with htype
    · refine nodup_cons.mpr ⟨fun hmem => ?_, h.names⟩
      obtain ⟨c, hc, _, hname⟩ := mem_readerNames.mp hmem
      exact hnew htype c hc hname
    · exact h.names
  · intro name
    rw [hnames, hrds, h.counts]
    by_cases htype : req.type = .rdlck <;> simp [htype, count_cons]

theorem ReadersHeld.del (hc : c ∈ s.state.dir.cells) (htype : c.2.type = .rdlck)
    (hdir : s'.state.dir = s.state.dir.del c.1) (hrel : s'.state.released = [])
    (hrds : s'.readers = update s.readers c.2.basename (s.readers c.2.basename - 1)) :
    ReadersHeld s' := by
  have hmem : ∀ c' ∈ s'.state.dir.cells, c' ∈ s.state.dir.cells := by
    intro c' hc'
    rw [hdir] at hc'
    exact (Cells.mem_del_iff.mp hc').1
  obtain ⟨before, after, hsp, hbef, haft⟩ := Cells.exists_split hc
  have hnames : (readerNames s.state.dir.cells).Perm
      (c.2.basename :: readerNames s'.state.dir.cells) := by
    rw [hdir, Cells.del_of_split hsp hbef haft, hsp]
    simp only [readerNames, filter_append, filter_cons, htype, decide_true, if_true,
      map_append, map_cons]
    exact perm_middle
  refine
    { released := hrel
      live := fun c' hc' => h.live c' (hmem c' hc')
      idle := fun c' hc' => h.idle c' (hmem c' hc')
      one := fun c' hc' => h.one c' (hmem c' hc')
      apart := fun c1 hc1 c2 hc2 => h.apart c1 (hmem c1 hc1) c2 (hmem c2 hc2)
      names := (nodup_cons.mp (hnames.nodup_iff.mp h.names)).2
      counts := ?_ }
  intro name
  rw [hrds, update_apply, h.counts, h.counts, hnames.count_eq, hnames.count_eq,
    count_cons, count_cons]
  by_cases hname : name = c.2.basename
  · simp [hname]
  · simp [hname, Ne.symm hname]

end

section

variable {s : ReaderState} {call : EntrylkCall}

theorem readerStep_lock (hpid : call.pid ≠ 0) (hcmd : call.cmd ≠ .unlock) :
    readerStep s call =
      (lockSection s.state call).map (fun s' => ⟨s', countReader s.readers call⟩) := by
  unfold readerStep plEntrylkCommon EntrylkCall.sections
  rw [if_neg hpid]
  cases hc : call.cmd with
  | lock | lockNb => simp [sectionStep]
  | unlock => exact absurd hc hcmd

theorem countReader_read {readers : Option String → Nat} (hcmd : call.cmd ≠ .unlock)
    (htype : call.type = .rdlck) :
    countReader readers call = update readers call.basename (readers call.basename + 1) := by
  unfold countReader
  rw [htype]
  cases hc : call.cmd with
  | lock | lockNb => rfl
  | unlock => exact absurd hc hcmd

variable (h : ReadersHeld s)
include h

theorem ReadersHeld.read (hpid : call.pid ≠ 0) (hcmd : call.cmd ≠ .unlock)
    (htype : call.type = .rdlck)
    (hgr : (lockName s.state.dir call.request (call.cmd == .lockNb)).map snd = some .zero)
    (hfst : s.readers call.basename = 0) : ∃ s', readerStep s call = some s' ∧ ReadersHeld s' := by
  obtain ⟨⟨d, _⟩, hd, rfl⟩ := map_eq_some_iff.mp hgr
  rw [readerStep_lock hpid hcmd, lockSection, hd]
  refine ⟨_, rfl, ?_⟩
  obtain ⟨hwrs, ⟨heq, hnew⟩ | ⟨c, hc, hname, _⟩⟩ := lockName_read h.live htype hd
  · refine h.add ?_ (fun _ => hnew) heq rfl ?_
    · intro c hc
      cases hc' : c.2.type with
      | rdlck => simp [EntrylkCall.request, htype, typesConflict]
      | wrlck => rw [hwrs c hc hc', Bool.false_and]
    · intro name
      simp only [countReader_read hcmd htype]
      by_cases hname : name = call.basename
      · simp [hname, EntrylkCall.request, htype]
      · simp [hname, EntrylkCall.request, Ne.symm hname]
  · -- a lock that a read lock is counted in is on the name, and nobody reads the name
    cases hc' : c.2.type with
    | rdlck =>
      have hpos := (h.pos_iff call.basename).mpr ⟨c, hc, hc', hname⟩
      omega
    | wrlck =>
      have hap := hwrs c hc hc'
      simp [hname, namesConflict] at hap

theorem ReadersHeld.unlock (hpid : call.pid ≠ 0) (hcmd : call.cmd = .unlock)
    (htype : call.type = .rdlck) (hpos : 0 < s.readers call.basename) :
    ∃ s', readerStep s call = some s' ∧ ReadersHeld s' := by
  obtain ⟨c, hc, hread, hname⟩ := (h.pos_iff call.basename).mp hpos
  have hfnd : findMostMatchingLock s.state.dir.cells call.basename = some (some c) := by
    obtain ⟨c', hfnd, hname'⟩ := findMostMatchingLock_of_mem h.live hc hname
    rwa [h.unique hc hread (findMostMatchingLock_eq_some hfnd) (hname'.trans hname.symm)]
      at hfnd
  have hunlod : unlockGrants s.state.dir call = ⟨s.state.dir.del c.1, [], false⟩ := by
    rw [unlockGrants, if_neg hpid, unlockName, hfnd]
    simp [hname, hread, htype, namesEqual, h.one c hc hread, grantBlockedEntryLocks, h.idle c hc]
  rw [readerStep, plEntrylkCommon_unlock hcmd h.released, hunlod]
  refine ⟨_, rfl, h.del hc hread rfl rfl ?_⟩
  rw [hname]
  simp only [countReader, hcmd, htype]

theorem ReadersHeld.write (hpid : call.pid ≠ 0) (hcmd : call.cmd = .lockNb)
    (htype : call.type = .wrlck) : ∃ s', readerStep s call = some s' ∧ ReadersHeld s' := by
  have hrds : countReader s.readers call = s.readers := by simp only [countReader, htype]
  obtain ⟨r, hr⟩ : ∃ r, lockName s.state.dir call.request true = some r :=
    exists_lockName h.live htype true
  rw [readerStep_lock hpid (by simp [hcmd]), lockSection, hcmd, hrds,
    show (EntrylkCmd.lockNb == .lockNb) = true from rfl, hr]
  refine ⟨_, rfl, ?_⟩
  cases lockName_spec hr with
  | added hfree =>
    refine h.add hfree ?_ rfl rfl ?_
    · intro hreq
      exact absurd (htype.symm.trans hreq) (by decide)
    · intro name
      simp [EntrylkCall.request, htype]
  | counted hreq => exact absurd (htype.symm.trans hreq) (by decide)
  | hung hblo => exact absurd hblo (by decide)
  | refused => exact { h with }

theorem ReadersHeld.step (hshare : InShare s call) (hfst : FirstReader s call) :
    ∃ s', readerStep s call = some s' ∧ ReadersHeld s' := by
  obtain ⟨hpid, ⟨htype, hcmd, hgr⟩ | ⟨htype, hcmd, hpos⟩ | ⟨htype, hcmd⟩⟩ := hshare
  · exact h.read hpid hcmd htype hgr (hfst hcmd htype)
  · exact h.unlock hpid hcmd htype hpos
  · exact h.write hpid hcmd htype

theorem ReadersHeld.second (hshare : InShare s call) (hsec : ¬ FirstReader s call)
    (hstep : readerStep s call = some s') : ¬ ReadersCounted s' := by
  simp only [FirstReader, not_forall] at hsec
  obtain ⟨hcmd, htype, hpos⟩ := hsec
  have hgr : (lockName s.state.dir call.request (call.cmd == .lockNb)).map snd = some .zero := by
    rcases hshare.2 with ⟨_, _, hgr⟩ | ⟨_, hunlo, _⟩ | ⟨hwr, _⟩
    · exact hgr
    · exact absurd hunlo hcmd
    · exact absurd (htype.symm.trans hwr) (by decide)
  obtain ⟨⟨d, _⟩, hd, rfl⟩ := map_eq_some_iff.mp hgr
  rw [readerStep_lock hshare.1 hcmd, lockSection, hd] at hstep
  cases hstep
  obtain ⟨c0, hc0, htype0, hname0⟩ := (h.pos_iff call.basename).mp (Nat.pos_of_ne_zero hpos)
  obtain ⟨_, ⟨_, hnew⟩ | ⟨c, hc, hname, rfl⟩⟩ := lockName_read h.live htype hd
  · exact absurd hname0 (hnew c0 hc0)
  · intro hcntd
    obtain ⟨c', hc', hname', htype', hlive, _⟩ := hcntd.counted call.basename (by
      simp [countReader_read hcmd htype])
    rcases Cells.mem_modify hc' with ⟨hc', hne⟩ | ⟨l, _, rfl⟩
    · rw [h.unique hc0 htype0 hc' (hname'.trans hname0.symm),
        h.unique hc0 htype0 hc (hname.trans hname0.symm)] at hne
      exact hne rfl
    · exact absurd hlive (by simp)

end

theorem readersHeld_empty : ReadersHeld ReaderState.empty := by
  constructor <;> simp [ReaderState.empty, EntrylkState.empty, Cells.empty, readerNames]

/--
The readers of the names are counted, and keep the writers out, as long as no name has a
second reader.
-/
theorem readersCounted_iff (calls : List EntrylkCall)
    (hshare : AllSteps readerStep InShare ReaderState.empty calls) :
    (∀ before, before <+: calls →
      ∃ s, run readerStep ReaderState.empty before = some s ∧ ReadersCounted s) ↔
    AllSteps readerStep FirstReader ReaderState.empty calls := by
  have hstep : ∀ (_ : List EntrylkCall) s call, ReadersHeld s → InShare s call →
      FirstReader s call → ∃ s', readerStep s call = some s' ∧ ReadersHeld s' :=
    fun _ _ _ h hshare hfst => h.step hshare hfst
  exact always_iff_allSteps_on readerStep readersHeld_empty hstep (fun _ _ h => h.counted)
    (fun _ _ _ _ h hshare hsec hstep => h.second hshare hsec hstep) hshare

def oneReader : List EntrylkCall :=
  [⟨1, 0, 7, some "a", .lock, .rdlck⟩, ⟨2, 1, 8, some "a", .lockNb, .wrlck⟩,
    ⟨3, 1, 8, some "b", .lockNb, .rdlck⟩, ⟨4, 0, 7, some "a", .unlock, .rdlck⟩]

theorem readersCounted_iff_oneReader :
    AllSteps readerStep InShare ReaderState.empty oneReader ∧ ∀ before, before <+: oneReader →
        ∃ s, run readerStep ReaderState.empty before = some s ∧ ReadersCounted s := by
  have hshare : AllSteps readerStep InShare ReaderState.empty oneReader := by decide
  exact ⟨hshare, (readersCounted_iff oneReader hshare).mpr (by decide)⟩

def twoReaders : List EntrylkCall :=
  [⟨1, 0, 7, some "a", .lock, .rdlck⟩, ⟨2, 1, 8, some "a", .lock, .rdlck⟩]

theorem not_readersCounted_twoReaders :
    AllSteps readerStep InShare ReaderState.empty twoReaders ∧
      ∃ s, run readerStep ReaderState.empty twoReaders = some s ∧ ¬ ReadersCounted s := by
  refine ⟨by decide, _, rfl, ?_⟩
  intro h
  obtain ⟨c, hc, _, _, hlive, _⟩ := h.counted (some "a") (by decide)
  revert c
  decide

end GlusterFS.Locks
