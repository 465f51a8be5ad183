import GlusterFS.Afr.SelfHealEntry

/-!
# AFR: when entry self-heal converges

While the listing of a child is copied, everything up to the current offset is
on every sink.  The batches of a listing hang together only if they come from
one child, and the next `readdir` goes to child 0 after a batch whose last
callback belongs to a new entry.  So the pass is sound in the runs where that
child is the one being copied.
-/

namespace GlusterFS.Afr

open FanOut Run List Bool

section

variable {n : Nat} {ν : Type} [DecidableEq ν]

/-- What a step that does not fail does. -/
inductive EntryMove (fr : EntryFrame n) (s : EntryState n ν) :
    EntryEvent n ν → EntryState n ν → Prop
  | impungeEnd {reader : Fin n}
      (phase : s.phase = .impunge reader)
      (last : isBatch (s.dirs reader) s.offset [] = true) :
      EntryMove fr s (.impunge (some []) []) (afrShEntryImpungeAll fr s)
  | impungeBatch {reader activeSrc : Fin n} {e : DirEntry ν} {es : Dir ν}
      {order : List ((DirName ν × Option (Fin n)) × ImpungeReply)}
      (phase : s.phase = .impunge reader)
      (active : s.activeSource = some activeSrc)
      (batch : isBatch (s.dirs reader) s.offset (e :: es) = true)
      (answers : Answers order (impungeCalls fr activeSrc (e :: es)))
      (possible : ∀ r ∈ order, impungePossible s.dirs activeSrc r.1 r.2 = true) :
      EntryMove fr s (.impunge (some (e :: es)) order)
        (gather (afrShEntryImpungeCbk activeSrc) { s with offset := lastOffset (e :: es) } order)
  | expungeEnd {reader : Fin n}
      (phase : s.phase = .expunge reader)
      (last : isBatch (s.dirs reader) s.offset [] = true) :
      EntryMove fr s (.expunge (some []) []) (afrShEntryExpungeAll fr s)
  | expungeBatch {reader activeSrc source : Fin n} {e : DirEntry ν} {es : Dir ν}
      {order : List (DirName ν × ExpungeReply)}
      (phase : s.phase = .expunge reader)
      (active : s.activeSource = some activeSrc)
      (lookups : fr.source = some source)
      (batch : isBatch (s.dirs reader) s.offset (e :: es) = true)
      (answers : Answers order ((e :: es).map DirEntry.name))
      (possible : ∀ r ∈ order, expungePossible s.dirs source r.1 r.2 = true) :
      EntryMove fr s (.expunge (some (e :: es)) order)
        (gather (afrShEntryExpungeCbk activeSrc) { s with offset := lastOffset (e :: es) } order)

def noFailure (s : EntryState n ν) : EntryEvent n ν → Bool
  | .impunge entries order =>
    entries.isSome && order.all (fun r =>
      match r.2 with
      | .exists | .created _ => true
      | .lookupFailed | .createFailed => false
      | .recreateFailed => s.activeSource.all (fun a => !(s.dirs a).has r.1.1))
  | .expunge entries order =>
    entries.isSome && order.all (fun r => r.2 == .exists || r.2 == .purged)

/-- A batch that ends with a new entry comes from child 0. -/
def readerStays (s : EntryState n ν) : EntryEvent n ν → Bool
  | .impunge _ order => !endsWithCreation order || s.activeSource.all (fun a => childZero a == a)
  | .expunge _ _ => true

variable {fr : EntryFrame n} {s s' : EntryState n ν} {reader : Fin n} {entries : Option (Dir ν)}

theorem entryMove_of_impunge
    {order : List ((DirName ν × Option (Fin n)) × ImpungeReply)}
    (hok : noFailure s (.impunge entries order) = true) (hph : s.phase = .impunge reader)
    (hend : endPossible fr s reader entries = true)
    (h : afrShEntryImpungeReaddirCbk fr s reader entries order = some s') :
    EntryMove fr s (.impunge entries order) s' := by
  match entries, hact : s.activeSource with
  | none, _ => simp [noFailure] at hok
  | some [], _ =>
    simp only [afrShEntryImpungeReaddirCbk] at h
    split_ifs at h with horder
    cases h
    subst horder
    simp only [endPossible, and_eq_true] at hend
    exact .impungeEnd hph hend.2
  | some (e :: es), some activeSrc =>
    simp only [afrShEntryImpungeReaddirCbk, hact] at h
    split_ifs at h with hall
    cases h
    rw [← hact]
    exact .impungeBatch hph hact hall.1 hall.2.1 (all_eq_true.mp hall.2.2)
  | some (e :: es), none => simp [afrShEntryImpungeReaddirCbk, hact] at h

theorem entryMove_of_expunge {order : List (DirName ν × ExpungeReply)}
    (hok : noFailure s (.expunge entries order) = true) (hph : s.phase = .expunge reader)
    (hend : endPossible fr s reader entries = true)
    (h : afrShEntryExpungeReaddirCbk fr s reader entries order = some s') :
    EntryMove fr s (.expunge entries order) s' := by
  match entries, hact : s.activeSource, hsrc : fr.source with
  | none, _, _ => simp [noFailure] at hok
  | some [], _, _ =>
    simp only [afrShEntryExpungeReaddirCbk] at h
    split_ifs at h with horder
    cases h
    subst horder
    simp only [endPossible, and_eq_true] at hend
    exact .expungeEnd hph hend.2
  | some (e :: es), some activeSrc, some source =>
    simp only [afrShEntryExpungeReaddirCbk, hact, hsrc] at h
    split_ifs at h with hall
    cases h
    rw [← hact]
    exact .expungeBatch hph hact hsrc hall.1 hall.2.1 (all_eq_true.mp hall.2.2)
  | some (e :: es), none, _ => simp [afrShEntryExpungeReaddirCbk, hact] at h
  | some (e :: es), some _, none => simp [afrShEntryExpungeReaddirCbk, hsrc] at h

theorem entryMove_of_entryStep {ev : EntryEvent n ν}
    (hok : noFailure s ev = true) (h : entryStep fr s ev = some s') : EntryMove fr s ev s' := by
  unfold entryStep at h
  cases ev with
  | impunge entries order =>
    cases hph : s.phase with
    | impunge reader =>
      simp only [hph] at h
      split_ifs at h with hend
      exact entryMove_of_impunge hok hph hend h
    | expunge reader | finished => simp [hph] at h
  | expunge entries order =>
    cases hph : s.phase with
    | impunge reader => simp [hph] at h
    | expunge reader =>
      simp only [hph] at h
      split_ifs at h with hend
      exact entryMove_of_expunge hok hph hend h
    | finished => simp [hph] at h

end

section

variable {n : Nat} {ν : Type} [DecidableEq ν]

/-- The listings that are copied: the source's, or else every active sink's. -/
def EntryFrame.IsTurn (fr : EntryFrame n) (i : Fin n) : Prop :=
  fr.source = some i ∨ fr.source = none ∧ fr.activeSink i = true

def Wanted (fr : EntryFrame n) (dirs : Fin n → Dir ν) (name : ν) : Prop :=
  ∃ i, fr.IsTurn i ∧ (dirs i).has (.entry name) = true

def Converged (fr : EntryFrame n) (dirs dirs' : Fin n → Dir ν) : Prop :=
  ∀ i, fr.activeSink i = true → ∀ name, (dirs' i).has (.entry name) = true ↔ Wanted fr dirs name

def CopiedFrom (fr : EntryFrame n) (dirs dirs' : Fin n → Dir ν) (b : Fin n) : Prop :=
  ∀ name, (dirs b).has (.entry name) = true →
    ∀ i, fr.activeSink i = true → (dirs' i).has (.entry name) = true

def Trimmed (dirs dirs' : Fin n → Dir ν) (source b : Fin n) : Prop :=
  ∀ name, (dirs' b).has (.entry name) = true → (dirs source).has (.entry name) = true

/-- What holds as long as nothing has been removed. -/
structure Grown (fr : EntryFrame n) (dirs dirs' : Fin n → Dir ν) : Prop where
  kept : ∀ i, fr.activeSink i = false → ∀ e, e ∈ dirs' i ↔ e ∈ dirs i
  cookies : ∀ i, ∀ e ∈ dirs' i, 0 < e.cookie
  grows : ∀ i, ∀ e ∈ dirs i, e ∈ dirs' i
  bound : fr.source = none → ∀ i, fr.activeSink i = true →
    ∀ name, (dirs' i).has (.entry name) = true → Wanted fr dirs name

/-- The listing of `a` is being copied, and has been up to the offset. -/
structure Impunging (fr : EntryFrame n) (dirs : Fin n → Dir ν)
    (s : EntryState n ν) (a : Fin n) : Prop where
  grown : Grown fr dirs s.dirs
  active : s.activeSource = some a
  phase : s.phase = .impunge a
  turn : fr.IsTurn a
  past : ∀ b, fr.IsTurn b → b < a → CopiedFrom fr dirs s.dirs b
  present : ∀ e ∈ s.dirs a, e.cookie ≤ s.offset →
    ∀ name, e.name = .entry name → ∀ i, fr.activeSink i = true → (s.dirs i).has (.entry name) = true

/-- The sink `a` is being trimmed, and has been up to the offset. -/
structure Expunging (fr : EntryFrame n) (dirs : Fin n → Dir ν)
    (s : EntryState n ν) (source a : Fin n) : Prop where
  lookups : fr.source = some source
  active : s.activeSource = some a
  phase : s.phase = .expunge a
  sink : fr.activeSink a = true
  kept : ∀ i, fr.activeSink i = false → ∀ e, e ∈ s.dirs i ↔ e ∈ dirs i
  cookies : ∀ i, ∀ e ∈ s.dirs i, 0 < e.cookie
  copied : CopiedFrom fr dirs s.dirs source
  past : ∀ b, fr.activeSink b = true → b < a → Trimmed dirs s.dirs source b
  present : ∀ e ∈ s.dirs a, e.cookie ≤ s.offset →
    ∀ name, e.name = .entry name → (dirs source).has (.entry name) = true

/-- Where a pass without failures can be. -/
inductive Healing (fr : EntryFrame n) (dirs : Fin n → Dir ν) (s : EntryState n ν) : Prop
  | impunging (a : Fin n) (h : Impunging fr dirs s a)
  | expunging (source a : Fin n) (h : Expunging fr dirs s source a)
  | finished (hphase : s.phase = .finished) (h : Converged fr dirs s.dirs)

variable {fr : EntryFrame n} {dirs : Fin n → Dir ν} {s : EntryState n ν} {dir dir' : Dir ν}
  {order : List ((DirName ν × Option (Fin n)) × ImpungeReply)} {source i a reader : Fin n}
  {e₀ : DirEntry ν} {name : DirName ν} {offset : Nat} {es : Dir ν}

theorem Dir.has_mono (h : ∀ e ∈ dir, e ∈ dir') (hname : dir.has name = true) :
    dir'.has name = true := by
  obtain ⟨e, he, rfl⟩ := has_iff.mp hname
  exact has_iff.mpr ⟨e, h e he, rfl⟩

theorem Dir.has_congr (h : ∀ e, e ∈ dir ↔ e ∈ dir') (name : DirName ν) :
    dir.has name = dir'.has name := by
  rw [Bool.eq_iff_iff]
  exact ⟨has_mono (fun e => (h e).mp), has_mono (fun e => (h e).mpr)⟩

theorem activeSink_source (hi : fr.source = some i) : fr.activeSink i = false := by
  simp [EntryFrame.activeSink, activeSink, afrShSelectSource_spec hi]

theorem EntryFrame.IsTurn.eq_source (h : fr.IsTurn i)
    (hsrc : fr.source = some source) : i = source := by
  rcases h with h | ⟨hnone, _⟩
  · rw [hsrc] at h
    cases h
    rfl
  · simp [hsrc] at hnone

theorem EntryFrame.IsTurn.activeSink (h : fr.IsTurn i) (hsrc : fr.source = none) :
    fr.activeSink i = true := by
  rcases h with h | h
  · simp [hsrc] at h
  · exact h.2

theorem wanted_iff_of_source (hsrc : fr.source = some source) (name : ν) :
    Wanted fr dirs name ↔ (dirs source).has (.entry name) = true := by
  constructor
  · rintro ⟨i, hturn, hi⟩
    rw [hturn.eq_source hsrc] at hi
    exact hi
  · intro h
    exact ⟨source, .inl hsrc, h⟩

theorem healing_expungeAll (hlooks : fr.source = some source)
    (hkept : ∀ i, fr.activeSink i = false → ∀ e, e ∈ s.dirs i ↔ e ∈ dirs i)
    (hcks : ∀ i, ∀ e ∈ s.dirs i, 0 < e.cookie) (hcop : CopiedFrom fr dirs s.dirs source)
    (hpast : ∀ c, s.activeSource = some c →
      ∀ b, fr.activeSink b = true → b ≤ c → Trimmed dirs s.dirs source b) :
    Healing fr dirs (afrShEntryExpungeAll fr s) := by
  simp only [afrShEntryExpungeAll, hlooks]
  cases hnext : nextActiveSink fr s.activeSource with
  | none =>
    refine .finished rfl ?_
    intro i hi name
    obtain ⟨c, hc, hle⟩ := nextActiveSink_none hnext hi
    rw [wanted_iff_of_source hlooks]
    exact ⟨hpast c hc i hi hle name, fun h => hcop name h i hi⟩
  | some a =>
    refine .expunging source a
      { lookups := hlooks
        active := rfl
        phase := rfl
        sink := (nextActiveSink_some hnext).1
        kept := hkept
        cookies := hcks
        copied := hcop
        past := ?_
        present := ?_ }
    · intro b hb hba
      obtain ⟨c, hc, hle⟩ := (nextActiveSink_some hnext).2 b hb hba
      exact hpast c hc b hb hle
    · intro e he hoff
      exact absurd hoff (Nat.not_le.mpr (hcks a e he))

theorem healing_impungeAll (hgrown : Grown fr dirs s.dirs) (hpast : ∀ c, s.activeSource = some c →
      ∀ b, fr.IsTurn b → b ≤ c → CopiedFrom fr dirs s.dirs b) :
    Healing fr dirs (afrShEntryImpungeAll fr s) := by
  have start : ∀ a, fr.IsTurn a → (∀ b, fr.IsTurn b → b < a → CopiedFrom fr dirs s.dirs b) →
      Healing fr dirs { s with activeSource := some a, offset := 0, phase := .impunge a } := by
    intro a hturn hbef
    refine .impunging a
      { grown := hgrown
        active := rfl
        phase := rfl
        turn := hturn
        past := hbef
        present := ?_ }
    intro e he hoff
    exact absurd hoff (Nat.not_le.mpr (hgrown.cookies a e he))
  unfold afrShEntryImpungeAll nextActiveSource
  cases hsrc : fr.source with
  | some source =>
    have hself : fr.IsTurn source := .inl hsrc
    by_cases hlast : s.activeSource = some source
    · simp only [hlast]
      refine healing_expungeAll hsrc hgrown.kept hgrown.cookies
        (hpast source hlast source hself (le_refl _)) ?_
      intro c hc
      cases hc
    · simp only [hlast]
      refine start source hself ?_
      intro b hb hlt
      rw [hb.eq_source hsrc] at hlt
      exact absurd hlt (lt_irrefl _)
  | none =>
    cases hnext : nextActiveSink fr s.activeSource with
    | none =>
      simp only [afrShEntryExpungeAll, hsrc]
      refine .finished rfl ?_
      intro i hi name
      refine ⟨hgrown.bound hsrc i hi name, ?_⟩
      rintro ⟨j, hturn, hj⟩
      obtain ⟨c, hc, hle⟩ := nextActiveSink_none hnext (hturn.activeSink hsrc)
      exact hpast c hc j hturn hle name hj i hi
    | some a =>
      obtain ⟨hsink, hfst⟩ := nextActiveSink_some hnext
      refine start a (.inr ⟨hsrc, hsink⟩) ?_
      intro b hb hba
      obtain ⟨c, hc, hle⟩ := hfst b (hb.activeSink hsrc) hba
      exact hpast c hc b hb hle

theorem Healing.impunging_of_phase (h : Healing fr dirs s)
    (hph : s.phase = .impunge reader) : Impunging fr dirs s reader := by
  cases h with
  | impunging a h =>
    rw [h.phase] at hph
    cases hph
    exact h
  | expunging source a h =>
    simp [h.phase] at hph
  | finished hfin h =>
    simp [hfin] at hph

theorem Healing.expunging_of_phase (h : Healing fr dirs s)
    (hph : s.phase = .expunge reader) : ∃ source, Expunging fr dirs s source reader := by
  cases h with
  | impunging a h =>
    simp [h.phase] at hph
  | expunging source a h =>
    rw [h.phase] at hph
    cases hph
    exact ⟨source, h⟩
  | finished hfin h =>
    simp [hfin] at hph

theorem CopiedFrom.mono {now later : Fin n → Dir ν} {b : Fin n} (h : CopiedFrom fr dirs now b)
    (hmono : ∀ i, ∀ e ∈ now i, e ∈ later i) : CopiedFrom fr dirs later b := by
  intro name hname i hi
  exact Dir.has_mono (hmono i) (h name hname i hi)

theorem has_of_impunge_reply {entries : Option (Dir ν)}
    (hact : s.activeSource = some a)
    (hposs : ∀ r ∈ order, impungePossible s.dirs a r.1 r.2 = true)
    (hok : noFailure s (.impunge entries order) = true) {r : ImpungeReply}
    (hr : ((name, some i), r) ∈ order) (hname : (s.dirs a).has name = true) :
    ((gather (afrShEntryImpungeCbk a)
      { s with offset := offset } order).dirs i).has name = true := by
  have hp := hposs _ hr
  simp only [noFailure, and_eq_true, all_eq_true] at hok
  have hclean := hok.2 _ hr
  cases r with
  | «exists» =>
    refine Dir.has_mono ?_ hp
    intro e he
    exact (mem_dirs_gather_impunge a _ order i e).mpr (.inl he)
  | created cookie =>
    refine Dir.has_iff.mpr ⟨⟨cookie, name⟩, ?_, rfl⟩
    exact (mem_dirs_gather_impunge a _ order i _).mpr (.inr hr)
  | recreateFailed => simp [hact, hname] at hclean
  | lookupFailed | createFailed => cases hclean

theorem Impunging.grown_batch {entries : Dir ν}
    (h : Impunging fr dirs s a) (hanss : Answers order (impungeCalls fr a entries))
    (hposs : ∀ r ∈ order, impungePossible s.dirs a r.1 r.2 = true) :
    Grown fr dirs (gather (afrShEntryImpungeCbk a) { s with offset := offset } order).dirs := by
  have hmem := mem_dirs_gather_impunge a { s with offset := offset } order
  refine
    { kept := ?_
      cookies := ?_
      grows := fun i e he => (hmem i e).mpr (.inl (h.grown.grows i e he))
      bound := ?_ }
  · intro i hi e
    rw [hmem, ← h.grown.kept i hi e]
    refine or_iff_left ?_
    intro hr
    simp [(impunge_target hanss hr).2] at hi
  · intro i e he
    rcases (hmem i e).mp he with hold | hnew
    · exact h.grown.cookies i e hold
    · have hp := hposs _ hnew
      simp only [impungePossible, and_eq_true, decide_eq_true_eq] at hp
      exact hp.2
  · intro hnone i hi name hname
    obtain ⟨e, he, hename⟩ := Dir.has_iff.mp hname
    rcases (hmem i e).mp he with hold | hnew
    · exact h.grown.bound hnone i hi name (Dir.has_iff.mpr ⟨e, hold, hename⟩)
    · have hp := hposs _ hnew
      simp only [impungePossible, and_eq_true, hename] at hp
      exact h.grown.bound hnone a (h.turn.activeSink hnone) name hp.1.2

theorem Impunging.batch (h : Impunging fr dirs s a)
    (hbatch : isBatch (s.dirs a) s.offset (e₀ :: es) = true)
    (hanss : Answers order (impungeCalls fr a (e₀ :: es)))
    (hposs : ∀ r ∈ order, impungePossible s.dirs a r.1 r.2 = true)
    (hok : noFailure s (.impunge (some (e₀ :: es)) order) = true)
    (hstays : readerStays s (.impunge (some (e₀ :: es)) order) = true) :
    Impunging fr dirs (gather (afrShEntryImpungeCbk a)
        { s with offset := lastOffset (e₀ :: es) } order) a := by
  have hmem := mem_dirs_gather_impunge a { s with offset := lastOffset (e₀ :: es) } order
  have hmono : ∀ i, ∀ e ∈ s.dirs i, e ∈ (gather (afrShEntryImpungeCbk a)
      { s with offset := lastOffset (e₀ :: es) } order).dirs i :=
    fun i e he => (hmem i e).mpr (.inl he)
  refine
    { grown := h.grown_batch hanss hposs
      active := (gather_impunge_keeps a _ order).1.trans h.active
      phase := ?_
      turn := h.turn
      past := fun b hb hlt => (h.past b hb hlt).mono hmono
      present := ?_ }
  · rw [gather_impunge_phase a { s with offset := lastOffset (e₀ :: es) } h.phase]
    split_ifs with hlast
    · simp only [readerStays, hlast, h.active] at hstays
      simpa using hstays
    · rfl
  · intro e he hoff name hename i hi
    have hold : e ∈ s.dirs a := by
      rcases (hmem a e).mp he with hold | hnew
      · exact hold
      · exact absurd rfl (impunge_target hanss hnew).1
    rw [(gather_impunge_keeps ..).2] at hoff
    rcases mem_of_isBatch hbatch hold hoff with hbef | hhere
    · exact Dir.has_mono (hmono i) (h.present e hold hbef name hename i hi)
    · by_cases hia : i = a
      · subst hia
        exact Dir.has_iff.mpr ⟨e, he, hename⟩
      · obtain ⟨r, hr⟩ := hanss.exists_reply
          (mem_impungeCalls.mpr ⟨⟨e, hhere, hename⟩, ⟨name, rfl⟩, hia, hi⟩)
        exact has_of_impunge_reply h.active hposs hok hr (Dir.has_iff.mpr ⟨e, hold, hename⟩)

theorem Expunging.batch
    {order : List (DirName ν × ExpungeReply)} (h : Expunging fr dirs s source a)
    (hbatch : isBatch (s.dirs a) s.offset (e₀ :: es) = true)
    (hanss : Answers order ((e₀ :: es).map DirEntry.name))
    (hposs : ∀ r ∈ order, expungePossible s.dirs source r.1 r.2 = true)
    (hok : noFailure s (.expunge (some (e₀ :: es)) order) = true) :
    Expunging fr dirs (gather (afrShEntryExpungeCbk a)
        { s with offset := lastOffset (e₀ :: es) } order) source a := by
  have hmem := mem_dirs_gather_expunge a { s with offset := lastOffset (e₀ :: es) } order
  have hsrc : ∀ name, (s.dirs source).has name = (dirs source).has name :=
    Dir.has_congr (h.kept source (activeSink_source h.lookups))
  refine
    { lookups := h.lookups
      active := (gather_expunge_keeps a _ order).1.trans h.active
      phase := gather_expunge_phase a { s with offset := lastOffset (e₀ :: es) } h.phase order
      sink := h.sink
      kept := ?_
      cookies := fun i e he => h.cookies i e ((hmem i e).mp he).1
      copied := ?_
      past := ?_
      present := ?_ }
  · intro i hi e
    rw [hmem, ← h.kept i hi e]
    refine and_iff_left ?_
    rintro ⟨rfl, _⟩
    simp [h.sink] at hi
  · intro name hname i hi
    obtain ⟨e, he, hename⟩ := Dir.has_iff.mp (h.copied name hname i hi)
    refine Dir.has_iff.mpr ⟨e, (hmem i e).mpr ⟨he, ?_⟩, hename⟩
    rintro ⟨_, hpurged⟩
    have hp := hposs _ hpurged
    simp [expungePossible, hename, hsrc, hname] at hp
  · intro b hb hba name hname
    refine h.past b hb hba name (Dir.has_mono ?_ hname)
    intro e he
    exact ((hmem b e).mp he).1
  · intro e he hoff name hename
    obtain ⟨hold, hstays⟩ := (hmem a e).mp he
    rw [(gather_expunge_keeps ..).2] at hoff
    rcases mem_of_isBatch hbatch hold hoff with hbef | hhere
    · exact h.present e hold hbef name hename
    · obtain ⟨r, hr⟩ := hanss.exists_reply (mem_map.mpr ⟨e, hhere, rfl⟩)
      have hp := hposs _ hr
      simp only [noFailure, and_eq_true, all_eq_true] at hok
      have hclean := hok.2 _ hr
      cases r with
      | «exists» => simpa [expungePossible, hename, hsrc] using hp
      | purged => exact absurd ⟨rfl, hr⟩ hstays
      | lookupFailed | purgeFailed => cases hclean

theorem Healing.step {s' : EntryState n ν} {ev : EntryEvent n ν} (h : Healing fr dirs s)
    (hok : noFailure s ev = true) (hstays : readerStays s ev = true)
    (hstep : entryStep fr s ev = some s') : Healing fr dirs s' := by
  cases entryMove_of_entryStep hok hstep with
  | @impungeEnd reader hph hlast =>
    have h := h.impunging_of_phase hph
    refine healing_impungeAll h.grown ?_
    intro c hc b hb hle
    rw [h.active] at hc
    cases hc
    rcases lt_or_eq_of_le hle with hlt | rfl
    · exact h.past b hb hlt
    · intro name hname i hi
      obtain ⟨e, he, hename⟩ := Dir.has_iff.mp hname
      have hnow := h.grown.grows b e he
      exact h.present e hnow (cookie_le_of_isBatch_nil hlast hnow) name hename i hi
  | @impungeBatch reader activeSrc e es order hph hact hbatch hanss hposs =>
    have h := h.impunging_of_phase hph
    rw [h.active] at hact
    cases hact
    exact .impunging reader (h.batch hbatch hanss hposs hok hstays)
  | @expungeEnd reader hph hlast =>
    obtain ⟨source, h⟩ := h.expunging_of_phase hph
    refine healing_expungeAll h.lookups h.kept h.cookies h.copied ?_
    intro c hc b hb hle
    rw [h.active] at hc
    cases hc
    rcases lt_or_eq_of_le hle with hlt | rfl
    · exact h.past b hb hlt
    · intro name hname
      obtain ⟨e, he, hename⟩ := Dir.has_iff.mp hname
      exact h.present e he (cookie_le_of_isBatch_nil hlast he) name hename
  | @expungeBatch reader activeSrc source e es order hph hact hlooks
      hbatch hanss hposs =>
      obtain ⟨_, h⟩ := h.expunging_of_phase hph
      rw [h.active] at hact
      cases hact
      rw [h.lookups] at hlooks
      cases hlooks
      exact .expunging _ reader (h.batch hbatch hanss hposs hok)

theorem eq_of_afrUpChildrenCount_lt_two {childUp : Fin n → Bool} {j : Fin n}
    (hcnt : afrUpChildrenCount childUp < 2) (hi : childUp i = true) (hj : childUp j = true) :
    i = j := by
  rw [← length_upChildren] at hcnt
  rw [← mem_upChildren] at hi hj
  match hup : upChildren childUp with
  | [] => simp [hup] at hi
  | [k] =>
    simp only [hup, mem_singleton] at hi hj
    rw [hi, hj]
  | _ :: _ :: _ =>
    simp only [hup, length_cons] at hcnt
    omega

theorem healing_syncPrepare {opens : List (Fin n × Reply)}
    (hcks : ∀ i, ∀ e ∈ dirs i, 0 < e.cookie) (hopens : opens.all (fun r => r.2 == .ok) = true)
    (h : afrShEntrySyncPrepare fr dirs opens = some s) : Healing fr dirs s := by
  unfold afrShEntrySyncPrepare at h
  simp only [hopens] at h
  split_ifs at h with hfew hnone hanss
  · cases h
    refine .finished rfl ?_
    intro i hi name
    have hsome : afrUpChildrenCount fr.activeSink ≠ 0 := by
      rw [← length_upChildren]
      exact length_pos_iff_exists_mem.mpr ⟨i, mem_upChildren.mpr hi⟩ |>.ne'
    obtain ⟨hsrc, hcnt⟩ := hfew.resolve_left hsome
    constructor
    · intro hname
      exact ⟨i, .inr ⟨hsrc, hi⟩, hname⟩
    · rintro ⟨j, hturn, hname⟩
      rw [eq_of_afrUpChildrenCount_lt_two hcnt hi (hturn.activeSink hsrc)]
      exact hname
  · cases h
    refine healing_impungeAll
      { kept := fun _ _ _ => Iff.rfl
        cookies := hcks
        grows := fun _ _ he => he
        bound := fun hsrc i hi name hname => ⟨i, .inr ⟨hsrc, hi⟩, hname⟩ }
      ?_
    intro c hc
    cases hc

/--
In every run without failures in which no batch of another child than child 0
ends with the callback of a new entry, the pass converges.
-/
theorem entry_heal_converges (childUp : Fin n → Bool) (childErrno : Fin n → Option Errno)
    (xattr : Fin n → Option (Xattr n)) (dirs : Fin n → Dir ν)
    (opens : List (Fin n × Reply)) (evs : List (EntryEvent n ν))
    (s s' : EntryState n ν)
    (hcookies : ∀ i, ∀ e ∈ dirs i, 0 < e.cookie)
    (hopens : opens.all (fun r => r.2 == .ok) = true)
    (hprepare : afrShEntrySyncPrepare (afrShEntryFix childUp childErrno xattr) dirs opens = some s)
    (hsteps :
      AllSteps (entryStep (afrShEntryFix childUp childErrno xattr))
        (fun s ev => noFailure s ev = true ∧ readerStays s ev = true) s evs)
    (hrun : run (entryStep (afrShEntryFix childUp childErrno xattr)) s evs = some s')
    (hfinished : s'.phase = .finished) :
    Converged (afrShEntryFix childUp childErrno xattr) dirs s'.dirs := by
  have hhealing : Healing (afrShEntryFix childUp childErrno xattr) dirs s' := by
    refine run_invariant _ ?_ (healing_syncPrepare hcookies hopens hprepare) hsteps hrun
    rintro s ev s' h ⟨hok, hstays⟩ hstep
    exact h.step hok hstays hstep
  cases hhealing with
  | impunging a h | expunging source a h =>
    simp [h.phase] at hfinished
  | finished _ h => exact h

def accusing (a : Fin 2) : Fin 2 → Option (Xattr 2) :=
  fun i => some (fun _ => some (fun j => if i = a ∧ j ≠ a then 1 else 0))

def twoEntriesOn (a : Fin 2) : Fin 2 → Dir Nat :=
  fun i =>
    [⟨1, .dot⟩, ⟨2, .dotDot⟩] ++
      if i = a then [⟨3, .entry 10⟩, ⟨4, .entry 11⟩] else []

def firstCreated (sink : Fin 2) : EntryEvent 2 Nat :=
  .impunge (some [⟨1, .dot⟩, ⟨2, .dotDot⟩, ⟨3, .entry 10⟩])
    [((.dot, none), .exists), ((.dotDot, none), .exists), ((.entry 10, some sink), .created 3)]

def healFromChildZero : List (EntryEvent 2 Nat) :=
  [firstCreated secondChild,
    .impunge (some [⟨4, .entry 11⟩]) [((.entry 11, some secondChild), .created 4)],
    .impunge (some []) [],
    .expunge (some [⟨1, .dot⟩, ⟨2, .dotDot⟩, ⟨3, .entry 10⟩, ⟨4, .entry 11⟩])
      [(.dot, .exists), (.dotDot, .exists), (.entry 10, .exists), (.entry 11, .exists)],
    .expunge (some []) []]

theorem entry_heal_converges_from_child_zero :
    ∃ s s', afrShEntrySyncPrepare (afrShEntryFix (fun _ => true) (fun _ => none)
        (accusing 0)) (twoEntriesOn 0) [(0, .ok), (1, .ok)] = some s ∧
      run (entryStep (afrShEntryFix (fun _ => true) (fun _ => none)
        (accusing 0))) s healFromChildZero = some s' ∧
      Converged (afrShEntryFix (fun _ => true) (fun _ => none) (accusing 0))
        (twoEntriesOn 0) s'.dirs := by
  refine ⟨_, _, rfl, rfl, ?_⟩
  exact entry_heal_converges (fun _ => true) (fun _ => none) (accusing 0)
    (twoEntriesOn 0) [(0, .ok), (1, .ok)] healFromChildZero _ _
    (by decide) (by decide) rfl (by decide) rfl rfl

def healFromChildOne : List (EntryEvent 2 Nat) :=
  [firstCreated firstChild, .impunge (some []) [],
    .expunge (some [⟨1, .dot⟩, ⟨2, .dotDot⟩, ⟨3, .entry 10⟩])
      [(.dot, .exists), (.dotDot, .exists), (.entry 10, .exists)],
    .expunge (some []) []]

theorem entry_heal_misses_entry :
    ∃ s s', afrShEntrySyncPrepare (afrShEntryFix (fun _ => true) (fun _ => none)
        (accusing 1)) (twoEntriesOn 1) [(1, .ok), (0, .ok)] = some s ∧
      AllSteps (entryStep (afrShEntryFix (fun _ => true) (fun _ => none)
        (accusing 1))) (fun s ev => noFailure s ev = true) s healFromChildOne ∧
      run (entryStep (afrShEntryFix (fun _ => true) (fun _ => none)
        (accusing 1))) s healFromChildOne = some s' ∧
      s'.phase = .finished ∧
      (twoEntriesOn 1 1).has (.entry 11) = true ∧
      (s'.dirs 0).has (.entry 11) = false ∧
      ¬ Converged (afrShEntryFix (fun _ => true) (fun _ => none) (accusing 1))
        (twoEntriesOn 1) s'.dirs := by
  refine ⟨_, _, rfl, by decide, rfl, rfl, by decide, by decide, ?_⟩
  intro h
  have hwanted : Wanted (afrShEntryFix (fun _ => true) (fun _ => none)
      (accusing 1)) (twoEntriesOn 1) 11 :=
    ⟨1, .inl (by decide), by decide⟩
  exact absurd ((h 0 (by decide) 11).mpr hwanted) (by decide)

end

end GlusterFS.Afr
