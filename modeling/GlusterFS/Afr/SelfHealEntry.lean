import GlusterFS.Lib.Run
import GlusterFS.Afr.SelfHealCommon

/-!
# AFR: the entry self-heal of a directory

The entry pass lists the directory on the source, batch by batch, and creates on
every sink what it lacks (impunge); then it lists each sink and removes what the
source does not have (expunge).  Without a source each sink takes its turn as
the source, and nothing is removed.

`sh->active_source` is the child whose listing is being copied.  It travels
through the callbacks of an entry as the argument `active_src`, and the last
callback of a batch sends the next `readdir` to it.  The callbacks of a newly
created entry do not set their `active_src`, which stays 0.

A listing is a set of entries, each with the cookie at which a `readdir` goes
on after it.  The state machine takes one batch at a time, with the replies for
its entries in order of arrival.
-/

namespace GlusterFS.Afr

open FanOut Run List Function Prod

/-- A name in a listing; the two names that every directory has are skipped. -/
inductive DirName (ν : Type) where
  | dot
  | dotDot
  | entry (name : ν)
deriving DecidableEq

@[ext]
structure DirEntry (ν : Type) where
  cookie : Nat
  name : DirName ν
deriving DecidableEq

abbrev Dir (ν : Type) := List (DirEntry ν)

inductive ImpungeReply where
  | exists
  | lookupFailed
  | recreateFailed
  | createFailed
  | created (cookie : Nat)

inductive ExpungeReply where
  | exists
  | lookupFailed
  | purgeFailed
  | purged
deriving DecidableEq

/-- A reply to `readdir`, `none` if it failed, and the replies for its entries. -/
inductive EntryEvent (n : Nat) (ν : Type) where
  | impunge
    (entries : Option (Dir ν))
    (order : List ((DirName ν × Option (Fin n)) × ImpungeReply))
  | expunge
    (entries : Option (Dir ν))
    (order : List (DirName ν × ExpungeReply))

/-- Where the pass is: which child has been sent the next `readdir`. -/
inductive EntryPhase (n : Nat) where
  | impunge (reader : Fin n)
  | expunge (reader : Fin n)
  | finished

/-- The part of the record that the pass only reads. -/
structure EntryFrame (n : Nat) where
  childUp : Fin n → Bool
  sources : Fin n → Bool

structure EntryState (n : Nat) (ν : Type) where
  dirs : Fin n → Dir ν
  activeSource : Option (Fin n)
  offset : Nat
  phase : EntryPhase n

section

variable {ν : Type} [DecidableEq ν]

def Dir.has (dir : Dir ν) (name : DirName ν) : Bool :=
  dir.any (fun e => e.name == name)

/--
What a `readdir` at an offset can bring back: entries past the offset, in order,
with none left out before the last; and nothing only when nothing is left.
-/
def isBatch (dir : Dir ν) (offset : Nat) (entries : Dir ν) : Bool :=
  entries.all (fun e => e ∈ dir && offset < e.cookie) &&
    match entries.getLast? with
    | none => dir.all (fun e => e.cookie ≤ offset)
    | some last =>
      entries.all (fun e => e.cookie ≤ last.cookie) && dir.all (fun e =>
          e.cookie ≤ offset || last.cookie < e.cookie || e ∈ entries)

def lastOffset (entries : Dir ν) : Nat :=
  (entries.getLast?.map DirEntry.cookie).getD 0

end

section

variable {n : Nat} {ν : Type} [DecidableEq ν]

/-- The choice of the sources from the changelogs that the lookup brought. -/
def afrShEntryFix (childUp : Fin n → Bool) (childErrno : Fin n → Option Errno)
    (xattr : Fin n → Option (Xattr n)) : EntryFrame n where
  childUp := childUp
  sources := afrShSupressErrenousChildren
      (afrShMarkSources (afrShBuildPendingMatrix .entryPending xattr))
      childErrno

variable (fr : EntryFrame n)

def EntryFrame.source : Option (Fin n) :=
  afrShSelectSource fr.sources

def EntryFrame.activeSink (i : Fin n) : Bool :=
  Afr.activeSink fr.sources fr.childUp i

def EntryFrame.opened (i : Fin n) : Bool :=
  fr.activeSink i || fr.source == some i

def nextActiveSink (current : Option (Fin n)) : Option (Fin n) :=
  (finRange n).find? (fun i =>
    fr.activeSink i && current.all (fun c => c < i))

def nextActiveSource (current : Option (Fin n)) : Option (Fin n) :=
  match fr.source with
  | some source => if current = some source then none else some source
  | none => nextActiveSink fr current

def afrShEntryExpungeAll (s : EntryState n ν) : EntryState n ν :=
  let s : EntryState n ν := { s with offset := 0 }
  match fr.source with
  | none => { s with phase := .finished }
  | some _ =>
    let active := nextActiveSink fr s.activeSource
    { s with
      activeSource := active
      phase :=
        match active with
        | none => .finished
        | some i => .expunge i }

def afrShEntryImpungeAll (s : EntryState n ν) : EntryState n ν :=
  let active := nextActiveSource fr s.activeSource
  let s : EntryState n ν :=
    { s with
      offset := 0
      activeSource := active }
  match active with
  | none => afrShEntryExpungeAll fr s
  | some i => { s with phase := .impunge i }

def impungeSinks (activeSrc : Fin n) : List (Fin n) :=
  windLoop (fun i => if i != activeSrc && fr.activeSink i then [i] else [])
    (afrUpChildrenCount (fun i => i != activeSrc && fr.activeSink i))
    (finRange n)

def impungeCalls (activeSrc : Fin n) (entries : Dir ν) : List (DirName ν × Option (Fin n)) :=
  entries.flatMap (fun e =>
    match e.name with
    | .dot => [(.dot, none)]
    | .dotDot => [(.dotDot, none)]
    | .entry name => (impungeSinks fr activeSrc).map (fun i => (.entry name, some i)))

def childZero (i : Fin n) : Fin n :=
  ⟨0, i.pos⟩

def impungePossible (dirs : Fin n → Dir ν) (activeSrc : Fin n)
    (call : DirName ν × Option (Fin n)) (r : ImpungeReply) : Bool :=
  match call.2, r with
  | none, .exists => true
  | none, _ => false
  | some i, .exists => (dirs i).has call.1
  | some _, .lookupFailed => true
  | some i, .recreateFailed => !(dirs i).has call.1
  | some i, .createFailed => !(dirs i).has call.1 && (dirs activeSrc).has call.1
  | some i, .created cookie => !(dirs i).has call.1 && (dirs activeSrc).has call.1 && 0 < cookie

/--
The last callback of an entry on a sink.  It hands an `active_src` to
`afr_sh_entry_impunge_entry_done`, which the last of them all sends the next
`readdir` to.
-/
def afrShEntryImpungeCbk (activeSrc : Fin n)
    (s : EntryState n ν) (call : DirName ν × Option (Fin n)) :
    ImpungeReply → EntryState n ν
  | .exists | .lookupFailed | .recreateFailed => { s with phase := .impunge activeSrc }
  | .createFailed => { s with phase := .impunge (childZero activeSrc) }
  | .created cookie =>
    { s with
      dirs :=
        match call.2 with
        | none => s.dirs
        | some i => update s.dirs i (⟨cookie, call.1⟩ :: s.dirs i)
      phase := .impunge (childZero activeSrc) }

def afrShEntryImpungeReaddirCbk (s : EntryState n ν) (reader : Fin n) (entries : Option (Dir ν))
    (order : List ((DirName ν × Option (Fin n)) × ImpungeReply)) : Option (EntryState n ν) :=
  match entries, s.activeSource with
  | none, _ | some [], _ => if order = [] then some (afrShEntryImpungeAll fr s) else none
  | some (e :: es), some activeSrc =>
    if isBatch (s.dirs reader) s.offset (e :: es) ∧
        Answers order (impungeCalls fr activeSrc (e :: es)) ∧
        order.all (fun r => impungePossible s.dirs activeSrc r.1 r.2) then
      some (gather (afrShEntryImpungeCbk activeSrc) { s with offset := lastOffset (e :: es) } order)
    else
      none
  | some (_ :: _), none => none

/-- What can have happened to an entry of the sink that is being listed. -/
def expungePossible (dirs : Fin n → Dir ν) (source : Fin n) (name : DirName ν) : ExpungeReply → Bool
  | .exists => name == .dot || name == .dotDot || (dirs source).has name
  | .lookupFailed => name != .dot && name != .dotDot
  | .purgeFailed | .purged => name != .dot && name != .dotDot && !(dirs source).has name

def afrShEntryExpungeCbk (activeSrc : Fin n) (s : EntryState n ν) (name : DirName ν) :
    ExpungeReply → EntryState n ν
  | .exists | .lookupFailed | .purgeFailed => { s with phase := .expunge activeSrc }
  | .purged =>
    { s with
      dirs := update s.dirs activeSrc ((s.dirs activeSrc).filter (fun e => e.name != name))
      phase := .expunge activeSrc }

def afrShEntryExpungeReaddirCbk (s : EntryState n ν) (reader : Fin n) (entries : Option (Dir ν))
    (order : List (DirName ν × ExpungeReply)) : Option (EntryState n ν) :=
  match entries, s.activeSource, fr.source with
  | none, _, _ | some [], _, _ => if order = [] then some (afrShEntryExpungeAll fr s) else none
  | some (e :: es), some activeSrc, some source =>
    if isBatch (s.dirs reader) s.offset (e :: es) ∧ Answers order ((e :: es).map DirEntry.name) ∧
        order.all (fun r => expungePossible s.dirs source r.1 r.2) then
      some (gather (afrShEntryExpungeCbk activeSrc) { s with offset := lastOffset (e :: es) } order)
    else
      none
  | some (_ :: _), _, _ => none

/-- A `readdir` that finds nothing more, or that cannot be answered. -/
def endPossible (s : EntryState n ν) (reader : Fin n) :
    Option (Dir ν) → Bool
  | none => true
  | some entries => fr.opened reader && (entries != [] || isBatch (s.dirs reader) s.offset [])

def entryStep (s : EntryState n ν) (ev : EntryEvent n ν) : Option (EntryState n ν) :=
  match s.phase, ev with
  | .impunge reader, .impunge entries order =>
    if endPossible fr s reader entries then
      afrShEntryImpungeReaddirCbk fr s reader entries order
    else
      none
  | .expunge reader, .expunge entries order =>
    if endPossible fr s reader entries then
      afrShEntryExpungeReaddirCbk fr s reader entries order
    else
      none
  | _, _ => none

def opendirCalls : List (Fin n) :=
  fr.source.toList ++ windLoop (fun i => if fr.activeSink i then [i] else [])
      (afrUpChildrenCount fr.activeSink) (finRange n)

def afrShEntrySyncPrepare (dirs : Fin n → Dir ν) (opens : List (Fin n × Reply)) :
    Option (EntryState n ν) :=
  let s : EntryState n ν :=
    { dirs := dirs
      activeSource := none
      offset := 0
      phase := .finished }
  let activeSinks := afrUpChildrenCount fr.activeSink
  if activeSinks = 0 ∨ fr.source = none ∧ activeSinks < 2 then
    if opens = [] then some s else none
  else if Answers opens (opendirCalls fr) then
    if opens.all (fun r => r.2 == .ok) then
      some (afrShEntryImpungeAll fr s)
    else
      some s
  else
    none

end

section

variable {ν : Type} [DecidableEq ν] {dir : Dir ν}

theorem Dir.has_iff {name : DirName ν} : dir.has name = true ↔ ∃ e ∈ dir, e.name = name := by
  simp [has]

variable {offset : Nat} {e : DirEntry ν}

theorem cookie_le_of_isBatch_nil (h : isBatch dir offset [] = true) (he : e ∈ dir)
    : e.cookie ≤ offset := by
  simp only [isBatch, all_nil, getLast?_nil, Bool.true_and, all_eq_true, decide_eq_true_eq] at h
  exact h e he

theorem mem_of_isBatch {e₀ : DirEntry ν} {es : Dir ν} (h : isBatch dir offset (e₀ :: es) = true)
    (he : e ∈ dir) (hcookie : e.cookie ≤ lastOffset (e₀ :: es)) :
    e.cookie ≤ offset ∨ e ∈ e₀ :: es := by
  unfold isBatch lastOffset at *
  rw [getLast?_cons] at *
  simp only [Option.map_some, Option.getD_some] at hcookie
  simp only [Bool.and_eq_true, all_eq_true, Bool.or_eq_true, decide_eq_true_eq] at h
  rcases h.2.2 e he with (hlow | hhigh) | hmem
  · exact .inl hlow
  · omega
  · exact .inr hmem

end

variable {n : Nat} {j : Fin n} {current : Option (Fin n)} {fr : EntryFrame n} {i : Fin n}

theorem find?_finRange_le {p : Fin n → Bool} (h : (finRange n).find? p = some i)
    (hj : p j = true) : i ≤ j := by
  rw [find?_eq_some_iff_append] at h
  obtain ⟨_, before, after, hsp, hbef⟩ := h
  have hmem : j ∈ before ++ i :: after := by
    rw [← hsp]
    exact mem_finRange j
  have hsort : (before ++ i :: after).Pairwise (· < ·) := by
    rw [← hsp]
    exact pairwise_lt_finRange n
  rcases mem_append.mp hmem with hpre | hpost
  · have hfalse := hbef j hpre
    simp [hj] at hfalse
  · rcases mem_cons.mp hpost with rfl | haft
    · exact le_refl _
    · rw [pairwise_append] at hsort
      exact le_of_lt ((pairwise_cons.mp hsort.2.1).1 j haft)

theorem nextActiveSink_some (h : nextActiveSink fr current = some i)
    :
    fr.activeSink i = true ∧
    ∀ j, fr.activeSink j = true → j < i → ∃ c, current = some c ∧ j ≤ c := by
  have hi := find?_some h
  simp only [Bool.and_eq_true] at hi
  refine ⟨hi.1, ?_⟩
  intro j hj hji
  cases current with
  | none =>
    have hle := find?_finRange_le h (j := j) (by simp [hj])
    exact absurd hji (not_lt.mpr hle)
  | some c =>
    refine ⟨c, rfl, ?_⟩
    by_contra hcj
    have hle := find?_finRange_le h (j := j) (by simpa [hj] using not_le.mp hcj)
    exact absurd hji (not_lt.mpr hle)

theorem nextActiveSink_none (h : nextActiveSink fr current = none)
    (hj : fr.activeSink j = true) : ∃ c, current = some c ∧ j ≤ c := by
  have hnot := find?_eq_none.mp h j (mem_finRange j)
  cases current with
  | none => simp [hj] at hnot
  | some c =>
    refine ⟨c, rfl, ?_⟩
    by_contra hcj
    apply hnot
    simpa [hj] using not_le.mp hcj

section

variable {ν : Type} {name : DirName ν} {entries : Dir ν}

theorem mem_impungeSinks {activeSrc i : Fin n} :
    i ∈ impungeSinks fr activeSrc ↔ i ≠ activeSrc ∧ fr.activeSink i = true := by
  unfold impungeSinks
  rw [windLoop_upChildren _ rfl]
  simp

theorem mem_impungeCalls {activeSrc i : Fin n} :
    (name, some i) ∈ impungeCalls fr activeSrc entries ↔
      (∃ e ∈ entries, e.name = name) ∧ (∃ v, name = .entry v) ∧
        i ≠ activeSrc ∧ fr.activeSink i = true := by
  unfold impungeCalls
  rw [mem_flatMap]
  constructor
  · rintro ⟨e, he, hmem⟩
    cases hname : e.name with
    | dot | dotDot => simp [hname] at hmem
    | entry v =>
      simp only [hname, mem_map, mk.injEq, Option.some.injEq] at hmem
      obtain ⟨i', hi', rfl, rfl⟩ := hmem
      exact ⟨⟨e, he, hname⟩, ⟨v, rfl⟩, mem_impungeSinks.mp hi'⟩
  · rintro ⟨⟨e, he, hname⟩, ⟨v, rfl⟩, hsink⟩
    refine ⟨e, he, ?_⟩
    simp only [hname, mem_map]
    exact ⟨i, mem_impungeSinks.mpr hsink, rfl⟩

theorem impunge_target {a i : Fin n}
    {order : List ((DirName ν × Option (Fin n)) × ImpungeReply)}
    (hanss : Answers order (impungeCalls fr a entries)) {r : ImpungeReply}
    (hr : ((name, some i), r) ∈ order) : i ≠ a ∧ fr.activeSink i = true := by
  exact (mem_impungeCalls.mp (hanss.key_mem hr)).2.2

variable (activeSrc : Fin n) (s : EntryState n ν)
    (order : List ((DirName ν × Option (Fin n)) × ImpungeReply))

theorem mem_dirs_gather_impunge (i : Fin n) (e : DirEntry ν) :
    e ∈ (gather (afrShEntryImpungeCbk activeSrc) s order).dirs i ↔
      e ∈ s.dirs i ∨ ((e.name, some i), .created e.cookie) ∈ order := by
  induction order generalizing s with
  | nil => simp
  | cons r order ih =>
    obtain ⟨⟨name, target⟩, r⟩ := r
    rw [gather_cons, ih]
    cases r with
    | created cookie =>
      cases target with
      | none => simp [afrShEntryImpungeCbk]
      | some j =>
        by_cases hij : i = j
        · subst hij
          simp only [afrShEntryImpungeCbk, update_self,
            mem_cons, mk.injEq, ImpungeReply.created.injEq,
            and_true]
          have heq : e = ⟨cookie, name⟩ ↔ e.name = name ∧ e.cookie = cookie := by
            rw [DirEntry.ext_iff]
            exact and_comm
          tauto
        · simp [afrShEntryImpungeCbk, hij]
    | _ => simp [afrShEntryImpungeCbk]

theorem gather_impunge_keeps :
    (gather (afrShEntryImpungeCbk activeSrc) s order).activeSource = s.activeSource ∧
      (gather (afrShEntryImpungeCbk activeSrc) s order).offset = s.offset := by
  apply mk.inj
  apply gather_frame (afrShEntryImpungeCbk activeSrc) (fun s => (s.activeSource, s.offset))
  intro s call r _
  cases r <;> rfl

/-- The last callback of the batch belongs to an entry that was to be created. -/
def endsWithCreation (order : List ((DirName ν × Option (Fin n)) × ImpungeReply)) : Bool :=
  match order.getLast? with
  | some (_, .createFailed) | some (_, .created _) => true
  | _ => false

theorem gather_impunge_phase (hph : s.phase = .impunge activeSrc)
    (order : List ((DirName ν × Option (Fin n)) × ImpungeReply)) :
    (gather (afrShEntryImpungeCbk activeSrc) s order).phase = .impunge
        (if endsWithCreation order then childZero activeSrc else activeSrc) := by
  rcases eq_nil_or_concat order with rfl | ⟨before, ⟨call, r⟩, rfl⟩
  · exact hph
  · rw [concat_eq_append, gather_append, gather_cons, gather_nil]
    cases r <;> simp [endsWithCreation, afrShEntryImpungeCbk]

variable [DecidableEq ν]

section

variable (order : List (DirName ν × ExpungeReply))

theorem mem_dirs_gather_expunge (i : Fin n) (e : DirEntry ν) :
    e ∈ (gather (afrShEntryExpungeCbk activeSrc) s order).dirs i ↔
      e ∈ s.dirs i ∧ ¬ (i = activeSrc ∧ (e.name, .purged) ∈ order) := by
  induction order generalizing s with
  | nil => simp
  | cons r order ih =>
    obtain ⟨name, r⟩ := r
    rw [gather_cons, ih]
    cases r with
    | purged =>
      by_cases hi : i = activeSrc
      · subst hi
        simp only [afrShEntryExpungeCbk, update_self, mem_filter, bne_iff_ne, mem_cons, mk.injEq,
          and_true, true_and, not_or, ne_eq]
        tauto
      · simp [afrShEntryExpungeCbk, hi]
    | _ => simp [afrShEntryExpungeCbk]

theorem gather_expunge_keeps :
    (gather (afrShEntryExpungeCbk activeSrc) s order).activeSource = s.activeSource ∧
      (gather (afrShEntryExpungeCbk activeSrc) s order).offset = s.offset := by
  apply mk.inj
  apply gather_frame (afrShEntryExpungeCbk activeSrc) (fun s => (s.activeSource, s.offset))
  intro s name r _
  cases r <;> rfl

end

theorem gather_expunge_phase
    (hph : s.phase = .expunge activeSrc) (order : List (DirName ν × ExpungeReply)) :
    (gather (afrShEntryExpungeCbk activeSrc) s order).phase = .expunge activeSrc := by
  refine gather_invariant (afrShEntryExpungeCbk activeSrc)
    (P := fun s => s.phase = .expunge activeSrc) hph ?_
  intro s name r _ _
  cases r <;> rfl

end

end GlusterFS.Afr
