import Mathlib.Algebra.BigOperators.Fin
import Mathlib.Tactic.FinCases
import GlusterFS.Lib.Run

/-!
# DHT: the lookup of a file

A file is data on one subvolume.  The other subvolumes can have linkfiles of its name, and the
subvolume that the name hashes to should have one that names the subvolume of the data.  A fresh
`dht_lookup` asks the hashed subvolume, follows a linkfile once, and otherwise asks all subvolumes,
removes the linkfiles that it finds, and makes a new one.

A subvolume serves the calls that were wound to it in their order, and its replies arrive at any
time; those of two subvolumes arrive in any order.  `dht_linkfile_unlink_cbk` does nothing but end
its frame, so the reply to an unlink is left out.

A linkfile is known by its mode.  A file that was reached over a linkfile is not looked at again,
and a data file can have the mode of a linkfile.  The lookup finds every other file
(`finds_iff_follows`).
-/

namespace GlusterFS.Dht.Lookup

open Run List Function Option

section

def S_ISVTX : Nat := 512

/-- A file with its permissions, or a linkfile with the subvolume in its attribute. -/
inductive File (n : Nat) where
  | data (mode : Nat)
  | linkfile (linkto : Option (Fin n))
deriving DecidableEq

variable {n : Nat}

def File.mode : File n → Nat
  | .data mode => mode
  | .linkfile _ => S_ISVTX

def checkIsLinkfile (file : File n) : Prop :=
  file.mode = S_ISVTX
deriving Decidable

def dhtLinkfileSubvol : File n → Option (Fin n)
  | .data _ => none
  | .linkfile linkto => linkto

inductive LookupCbk where
  | lookup
  | linkfile
  | everywhere

inductive Call (n : Nat) where
  | lookup (cbk : LookupCbk)
  | unlink
  | mknod
  | setxattr (linkto : Fin n)

inductive Reply (n : Nat) where
  | lookup (cbk : LookupCbk) (found : Option (File n))
  | mknod (made : Bool)
  | setxattr

/--
`unwound` has the subvolume whose layout was put into the inode for each unwind with success, and
`none` for each one without.
-/
structure State (n : Nat) where
  hashed : Fin n
  files : Fin n → Option (File n)
  sent : Fin n → List (Call n)
  replies : Fin n → List (Reply n)
  callCnt : Int
  cached : Option (Fin n)
  unwound : List (Option (Fin n))

variable (st : State n)

def wind (subvol : Fin n) (call : Call n) : State n :=
  { st with sent := update st.sent subvol (st.sent subvol ++ [call]) }

def unwind (result : Option (Fin n)) : State n :=
  { st with unwound := st.unwound ++ [result] }

def dhtLookupEverywhere : State n :=
  { st with
    callCnt := n,
    sent := fun subvol => st.sent subvol ++ [.lookup .everywhere] }

def dhtLookup (files : Fin n → Option (File n)) (hashed : Fin n) : State n :=
  { hashed := hashed,
    files := files,
    sent := update (fun _ => []) hashed [.lookup .lookup],
    replies := fun _ => [],
    callCnt := 0,
    cached := none,
    unwound := [] }

def dhtLookupCbk (subvol : Fin n) : Option (File n) → State n
  | none => dhtLookupEverywhere st
  | some file =>
    if checkIsLinkfile file then
      match dhtLinkfileSubvol file with
      | none => dhtLookupEverywhere st
      | some linkto => wind st linkto (.lookup .linkfile)
    else
      unwind st (some subvol)

/-- It does not look at what kind of file was found. -/
def dhtLookupLinkfileCbk (subvol : Fin n) : Option (File n) → State n
  | none => dhtLookupEverywhere st
  | some _ => unwind st (some subvol)

def dhtLinkfileCreate : State n :=
  wind st st.hashed .mknod

/-- `dht_lookup_everywhere_cbk`, what it does with the file that was found -/
def everywhereFound (subvol : Fin n) : Option (File n) → State n
  | none => st
  | some file =>
    if checkIsLinkfile file then
      wind st subvol .unlink
    else if st.cached = none then
      { st with cached := some subvol }
    else
      st

def everywhereLast : State n :=
  match st.cached with
  | none => unwind st none
  | some _ => dhtLinkfileCreate st

def everywhereReturn : State n :=
  if st.callCnt - 1 = 0 then
    everywhereLast { st with callCnt := st.callCnt - 1 }
  else
    { st with callCnt := st.callCnt - 1 }

def dhtLookupEverywhereCbk (subvol : Fin n) (found : Option (File n)) : State n :=
  everywhereReturn (everywhereFound st subvol found)

/-- It succeeds also when the linkfile was not made. -/
def dhtLookupLinkfileCreateCbk : State n :=
  unwind st st.cached

/-- The subvolume that the linkfile is to name is the cached one. -/
def dhtLinkfileCreateCbk (subvol : Fin n) : Bool → State n
  | true =>
    match st.cached with
    | some srcvol => wind st subvol (.setxattr srcvol)
    | none => dhtLookupLinkfileCreateCbk st
  | false => dhtLookupLinkfileCreateCbk st

def callback (subvol : Fin n) : Reply n → State n
  | .lookup .lookup found => dhtLookupCbk st subvol found
  | .lookup .linkfile found => dhtLookupLinkfileCbk st subvol found
  | .lookup .everywhere found => dhtLookupEverywhereCbk st subvol found
  | .mknod made => dhtLinkfileCreateCbk st subvol made
  | .setxattr => dhtLookupLinkfileCreateCbk st

def execute (file : Option (File n)) : Call n → Option (File n) × List (Reply n)
  | .lookup cbk => (file, [.lookup cbk file])
  | .unlink => (none, [])
  | .mknod =>
    match file with
    | none => (some (.linkfile none), [.mknod true])
    | some file => (some file, [.mknod false])
  | .setxattr linkto =>
    match file with
    | none => (none, [.setxattr])
    | some (.data mode) => (some (.data mode), [.setxattr])
    | some (.linkfile _) => (some (.linkfile (some linkto)), [.setxattr])

inductive Event (n : Nat) where
  | serve (subvol : Fin n)
  | reply (subvol : Fin n)

def serve (subvol : Fin n) (call : Call n) (rest : List (Call n)) : State n :=
  { st with
    files := update st.files subvol (execute (st.files subvol) call).1,
    sent := update st.sent subvol rest,
    replies := update st.replies subvol (st.replies subvol ++ (execute (st.files subvol) call).2) }

def arrive (subvol : Fin n) (rest : List (Reply n)) : State n :=
  { st with replies := update st.replies subvol rest }

def step : Event n → Option (State n)
  | .serve subvol =>
    match st.sent subvol with
    | [] => none
    | call :: rest => some (serve st subvol call rest)
  | .reply subvol =>
    match st.replies subvol with
    | [] => none
    | reply :: rest => some (callback (arrive st subvol rest) subvol reply)

end

variable {n : Nat} {st st' : State n} {subvol other : Fin n} {files : Fin n → Option (File n)}
  {hashed cached : Fin n} {mode : Nat} {cbk : LookupCbk} {events : List (Event n)}

def Quiet (st : State n) : Prop :=
  ∀ subvol, st.sent subvol = [] ∧ st.replies subvol = []
deriving Decidable

/-- The data file is on one subvolume, and the others have linkfiles or nothing. -/
structure DataOn (files : Fin n → Option (File n)) (cached : Fin n) (mode : Nat) : Prop where
  here : files cached = some (.data mode)
  only : ∀ subvol mode', files subvol = some (.data mode') → subvol = cached

/--
Every run comes to its end, the data file stays, and at the end the lookup has succeeded once with
the subvolume of the data file, and the hashed subvolume has the data file or names its subvolume.
-/
structure Finds (files : Fin n → Option (File n)) (hashed cached : Fin n) : Prop where
  ends : ∀ events st, run step (dhtLookup files hashed) events = some st →
    events.length ≤ 4 + 7 * n ∧ (¬ Quiet st → ∃ e st', step st e = some st')
  keeps : ∀ events st, run step (dhtLookup files hashed) events = some st →
    st.files cached = files cached
  finds : ∀ events st, run step (dhtLookup files hashed) events = some st → Quiet st →
    st.unwound = [some cached] ∧
      (hashed = cached ∨ st.files hashed = some (.linkfile (some cached)))

/--
A linkfile on the hashed subvolume does not lead to a linkfile, and the data file does not look like
a linkfile, unless it is the one that the hashed subvolume leads to.
-/
def Follows (files : Fin n → Option (File n)) (hashed cached : Fin n) (mode : Nat) : Prop :=
  (∀ subvol linkto, files hashed = some (.linkfile (some subvol)) →
    files subvol ≠ some (.linkfile linkto)) ∧
  (mode ≠ S_ISVTX ∨ files hashed = some (.linkfile (some cached)))

theorem DataOn.ne
    (h : DataOn files cached mode) (hfile : files subvol ≠ some (.data mode)) :
    subvol ≠ cached := by
  rintro rfl
  exact hfile h.here

def Reply.weight : Reply n → Nat
  | .lookup .lookup _ => 3 + 7 * n
  | .lookup .linkfile _ => 1 + 7 * n
  | .lookup .everywhere _ => 6
  | .mknod _ => 3
  | .setxattr => 1

def Call.weight : Call n → Nat
  | .lookup .lookup => 4 + 7 * n
  | .lookup .linkfile => 2 + 7 * n
  | .lookup .everywhere => 7
  | .unlink => 1
  | .mknod => 4
  | .setxattr _ => 2

def callsWeight (calls : List (Call n)) : Nat :=
  (calls.map Call.weight).sum

def repliesWeight (replies : List (Reply n)) : Nat :=
  (replies.map Reply.weight).sum

def State.weight (st : State n) : Nat :=
  ∑ subvol, callsWeight (st.sent subvol) + ∑ subvol, repliesWeight (st.replies subvol)

theorem sum_update {α : Type*} (f : α → Nat) (g : Fin n → α) (i : Fin n) (x : α) :
    ∑ j, f (update g i x j) + f (g i) = ∑ j, f (g j) + f x := by
  rw [← Finset.sum_erase_add _ _ (Finset.mem_univ i),
    ← Finset.sum_erase_add Finset.univ (fun j => f (g j)) (Finset.mem_univ i),
    update_self]
  have hrest : ∑ j ∈ Finset.univ.erase i, f (update g i x j) =
      ∑ j ∈ Finset.univ.erase i, f (g j) := by
    apply Finset.sum_congr rfl
    intro j hj
    rw [update_of_ne (Finset.ne_of_mem_erase hj)]
  omega

def State.total (f : Call n → Nat) (g : Reply n → Nat) (st : State n) : Nat :=
  ∑ subvol, ((st.sent subvol).map f).sum + ∑ subvol, ((st.replies subvol).map g).sum

theorem weight_eq (st : State n) : st.weight = st.total Call.weight Reply.weight :=
  rfl

section

variable (f : Call n → Nat) (g : Reply n → Nat) (st : State n)

theorem total_wind (subvol : Fin n) (call : Call n) :
    (wind st subvol call).total f g = st.total f g + f call := by
  have hsum := sum_update (fun calls => (calls.map f).sum) st.sent subvol
    (st.sent subvol ++ [call])
  simp only [State.total, wind, map_append, map_singleton, sum_append, sum_singleton] at hsum ⊢
  omega

theorem total_dhtLookupEverywhere :
    (dhtLookupEverywhere st).total f g = st.total f g + n * f (.lookup .everywhere) := by
  simp [State.total, dhtLookupEverywhere, Finset.sum_add_distrib]
  omega

theorem total_unwind (result : Option (Fin n)) : (unwind st result).total f g = st.total f g :=
  rfl

theorem weight_everywhereFound_le (subvol : Fin n) (found : Option (File n)) :
    (everywhereFound st subvol found).weight ≤ st.weight + 1 := by
  fun_cases everywhereFound st subvol found
  · exact Nat.le_add_right _ _
  · exact (total_wind ..).le
  · exact Nat.le_add_right _ _
  · exact Nat.le_add_right _ _

theorem weight_everywhereReturn_le : (everywhereReturn st).weight ≤ st.weight + 4 := by
  rw [everywhereReturn]
  split_ifs
  · rw [everywhereLast]
    cases st.cached with
    | none => exact Nat.le_add_right _ _
    | some subvol => exact (total_wind ..).le
  · exact Nat.le_add_right _ _

theorem weight_callback_lt (subvol : Fin n) (reply : Reply n) :
    (callback st subvol reply).weight < st.weight + reply.weight := by
  fun_cases callback st subvol reply with
  | case1 found =>
    fun_cases dhtLookupCbk st subvol found <;>
      simp only [weight_eq, Reply.weight, total_dhtLookupEverywhere, total_wind, total_unwind,
        Call.weight] <;> omega
  | case2 found =>
    fun_cases dhtLookupLinkfileCbk st subvol found <;>
      simp only [weight_eq, Reply.weight, total_dhtLookupEverywhere, total_unwind,
        Call.weight] <;> omega
  | case3 found =>
    have hfnd := weight_everywhereFound_le st subvol found
    have hreturn := weight_everywhereReturn_le (everywhereFound st subvol found)
    rw [dhtLookupEverywhereCbk, Reply.weight]
    omega
  | case4 made =>
    fun_cases dhtLinkfileCreateCbk st subvol made <;>
      simp only [weight_eq, Reply.weight, dhtLookupLinkfileCreateCbk, total_wind, total_unwind,
        Call.weight] <;> omega
  | case5 => exact Nat.lt_succ_self _

variable {st}

theorem total_serve {call : Call n} {rest : List (Call n)} (hsent : st.sent subvol = call :: rest) :
    (serve st subvol call rest).total f g + f call =
      st.total f g + ((execute (st.files subvol) call).2.map g).sum := by
  have hcalls := sum_update (fun calls => (calls.map f).sum) st.sent subvol rest
  have hreps := sum_update (fun replies => (replies.map g).sum) st.replies subvol
    (st.replies subvol ++ (execute (st.files subvol) call).2)
  simp only [State.total, serve, hsent, map_cons, sum_cons, map_append, sum_append] at *
  omega

theorem total_arrive {reply : Reply n} {rest : List (Reply n)}
    (hreps : st.replies subvol = reply :: rest) :
    (arrive st subvol rest).total f g + g reply = st.total f g := by
  have hsum := sum_update (fun replies => (replies.map g).sum) st.replies subvol rest
  simp only [State.total, arrive, hreps, map_cons, sum_cons] at *
  omega

end

theorem weight_execute_lt (file : Option (File n)) (call : Call n) :
    repliesWeight (execute file call).2 < call.weight := by
  cases call with
  | lookup cbk =>
    cases cbk with
    | lookup =>
      show 3 + 7 * n + 0 < 4 + 7 * n
      omega
    | linkfile =>
      show 1 + 7 * n + 0 < 2 + 7 * n
      omega
    | everywhere => exact Nat.lt_succ_self 6
  | unlink => exact Nat.one_pos
  | mknod => cases file <;> exact Nat.lt_succ_self 3
  | setxattr linkto => rcases file with _ | _ | _ <;> exact Nat.lt_succ_self 1

theorem step_serve (h : step st (.serve subvol) = some st') :
    ∃ call rest, st.sent subvol = call :: rest ∧ st' = serve st subvol call rest := by
  rw [step] at h
  cases hsent : st.sent subvol with
  | nil =>
    simp [hsent] at h
  | cons call rest =>
    rw [hsent] at h
    cases h
    exact ⟨call, rest, rfl, rfl⟩

theorem step_reply (h : step st (.reply subvol) = some st') :
    ∃ reply rest, st.replies subvol = reply :: rest ∧
      st' = callback (arrive st subvol rest) subvol reply := by
  rw [step] at h
  cases hreps : st.replies subvol with
  | nil =>
    simp [hreps] at h
  | cons reply rest =>
    rw [hreps] at h
    cases h
    exact ⟨reply, rest, rfl, rfl⟩

variable {e : Event n}

theorem weight_step_lt (h : step st e = some st') : st'.weight < st.weight := by
  cases e with
  | serve subvol =>
    obtain ⟨call, rest, hsent, rfl⟩ := step_serve h
    have hlt := weight_execute_lt (st.files subvol) call
    have htotal := total_serve Call.weight Reply.weight hsent
    rw [weight_eq, weight_eq]
    rw [repliesWeight] at hlt
    omega
  | reply subvol =>
    obtain ⟨reply, rest, hreps, rfl⟩ := step_reply h
    exact (weight_callback_lt _ subvol reply).trans_eq (total_arrive _ _ hreps)

theorem total_dhtLookup (f : Call n → Nat) (g : Reply n → Nat) (files : Fin n → Option (File n))
    (hashed : Fin n) : (dhtLookup files hashed).total f g = f (.lookup .lookup) := by
  have hsum := sum_update (fun calls => (calls.map f).sum) (fun _ => []) hashed [.lookup .lookup]
  simpa [State.total, dhtLookup] using hsum

theorem exists_step_of_not_quiet (h : ¬ Quiet st) : ∃ e st', step st e = some st' := by
  obtain ⟨subvol, hsub⟩ := not_forall.mp h
  rw [not_and] at hsub
  cases hsent : st.sent subvol with
  | nil =>
    obtain ⟨reply, rest, hreps⟩ := exists_cons_of_ne_nil (hsub hsent)
    refine ⟨.reply subvol, ?_⟩
    rw [step, hreps]
    exact ⟨_, rfl⟩
  | cons call rest =>
    refine ⟨.serve subvol, ?_⟩
    rw [step, hsent]
    exact ⟨_, rfl⟩

theorem ends_dhtLookup
    (h : run step (dhtLookup files hashed) events = some st) :
    events.length ≤ 4 + 7 * n := by
  have hstep : ∀ (s : State n) (e : Event n) (s' : State n), True → True →
      step s e = some s' → True ∧ s'.weight < s.weight :=
    fun s e s' _ _ hs => ⟨trivial, weight_step_lt hs⟩
  obtain ⟨-, hlt⟩ := run_decreases step State.weight hstep trivial
    (AllSteps.of_forall step (fun _ _ _ => trivial) (dhtLookup files hashed)) h
  rw [weight_eq (dhtLookup _ _), total_dhtLookup, Call.weight] at hlt
  omega

def slot (st : State n) (subvol : Fin n) : List (Call n) × List (Reply n) × Option (File n) :=
  (st.sent subvol, st.replies subvol, st.files subvol)

theorem slot_eq_iff {calls : List (Call n)} {replies : List (Reply n)} {file : Option (File n)} :
    slot st subvol = (calls, replies, file) ↔
      st.sent subvol = calls ∧ st.replies subvol = replies ∧ st.files subvol = file := by
  simp only [slot, Prod.mk.injEq]

theorem slot_serve (call : Call n) (rest : List (Call n)) :
    slot (serve st subvol call rest) subvol =
      (rest, st.replies subvol ++ (execute (st.files subvol) call).2,
        (execute (st.files subvol) call).1) := by
  simp only [slot, serve, update_self]

theorem slot_serve_of_ne (hne : other ≠ subvol) (call : Call n) (rest : List (Call n)) :
    slot (serve st subvol call rest) other = slot st other := by
  simp only [slot, serve, update_of_ne hne]

/-- What a call keeps of its own slot it keeps of every slot. -/
theorem serve_keeps {P : List (Call n) × List (Reply n) × Option (File n) → Prop} {call : Call n}
    {rest : List (Call n)} (hsent : st.sent subvol = call :: rest)
    (hserve : ∀ replies stored, P (call :: rest, replies, stored) →
      P (rest, replies ++ (execute stored call).2, (execute stored call).1))
    (h : P (slot st other)) : P (slot (serve st subvol call rest) other) := by
  by_cases hne : other = subvol
  · subst hne
    rw [slot_serve]
    rw [slot, hsent] at h
    exact hserve _ _ h
  · rwa [slot_serve_of_ne hne]

theorem slot_arrive (rest : List (Reply n)) :
    slot (arrive st subvol rest) subvol = (st.sent subvol, rest, st.files subvol) := by
  simp only [slot, arrive, update_self]

theorem slot_arrive_of_ne (hne : other ≠ subvol) (rest : List (Reply n)) :
    slot (arrive st subvol rest) other = slot st other := by
  simp only [slot, arrive, update_of_ne hne]

theorem slot_wind (call : Call n) :
    slot (wind st subvol call) subvol =
      (st.sent subvol ++ [call], st.replies subvol, st.files subvol) := by
  simp only [slot, wind, update_self]

theorem slot_wind_of_ne (hne : other ≠ subvol) (call : Call n) :
    slot (wind st subvol call) other = slot st other := by
  simp only [slot, wind, update_of_ne hne]

section

/-- A subvolume that has not been heard of in the search. -/
inductive Waiting (file : Option (File n)) :
    List (Call n) × List (Reply n) × Option (File n) → Prop
  | asked : Waiting file ([.lookup .everywhere], [], file)
  | replied : Waiting file ([], [.lookup .everywhere file], file)

/-- A subvolume that has been heard of; a linkfile there is removed. -/
inductive Answered (file : Option (File n)) :
    List (Call n) × List (Reply n) × Option (File n) → Prop
  | unlinking {linkto : Option (Fin n)} (h : file = some (.linkfile linkto)) :
      Answered file ([.unlink], [], file)
  | unlinked {linkto : Option (Fin n)} (h : file = some (.linkfile linkto)) :
      Answered file ([], [], none)
  | kept (h : ∀ linkto, file ≠ some (.linkfile linkto)) : Answered file ([], [], file)

/-- The hashed subvolume while the new linkfile is made. -/
inductive Linking (cached : Fin n) (file : Option (File n)) :
    List (Call n) × List (Reply n) × Option (File n) → Prop
  | unlinking : Linking cached file ([.unlink, .mknod], [], file)
  | making : Linking cached file ([.mknod], [], none)
  | made : Linking cached file ([], [.mknod true], some (.linkfile none))
  | marking : Linking cached file ([.setxattr cached], [], some (.linkfile none))
  | marked : Linking cached file ([], [.setxattr], some (.linkfile (some cached)))

variable (files : Fin n → Option (File n)) (hashed cached : Fin n)

structure Asking (st : State n) (subvol : Fin n) (cbk : LookupCbk) : Prop where
  here : slot st subvol = ([.lookup cbk], [], files subvol) ∨
    slot st subvol = ([], [.lookup cbk (files subvol)], files subvol)
  others : ∀ other, other ≠ subvol → slot st other = ([], [], files other)
  cached_eq : st.cached = none
  unwound_eq : st.unwound = []

/-- Nothing is under way, and nothing has been found. -/
structure Idle (st : State n) : Prop where
  slots : ∀ subvol, slot st subvol = ([], [], files subvol)
  cached_eq : st.cached = none
  unwound_eq : st.unwound = []

/-- All subvolumes are asked, and those in `waiting` have not been heard of. -/
structure Searching (st : State n) (waiting : Finset (Fin n)) : Prop where
  asked : ∀ subvol ∈ waiting, Waiting (files subvol) (slot st subvol)
  answered : ∀ subvol, subvol ∉ waiting → Answered (files subvol) (slot st subvol)
  cached_eq : st.cached = if cached ∈ waiting then none else some cached
  unwound_eq : st.unwound = []

structure Making (st : State n) : Prop where
  here : Linking cached (files hashed) (slot st hashed)
  answered : ∀ subvol, subvol ≠ hashed → Answered (files subvol) (slot st subvol)
  cached_eq : st.cached = some cached
  unwound_eq : st.unwound = []

/-- The lookup has succeeded, and some linkfiles are still to be removed. -/
structure Ended (st : State n) : Prop where
  left : ∀ subvol, st.replies subvol = [] ∧
    (st.sent subvol = [] ∨ st.sent subvol = [.unlink] ∧ subvol ≠ cached ∧ subvol ≠ hashed)
  keeps : st.files cached = files cached
  links : hashed = cached ∨ st.files hashed = some (.linkfile (some cached))
  unwound_eq : st.unwound = [some cached]

inductive Phase (mode : Nat) (st : State n) : Prop
  | first (h : Asking files st hashed .lookup)
  | second {subvol : Fin n} (hlink : files hashed = some (.linkfile (some subvol)))
      (h : Asking files st subvol .linkfile)
  | search {waiting : Finset (Fin n)} (hne : hashed ≠ cached) (hmode : mode ≠ S_ISVTX)
      (hsome : waiting.Nonempty) (hcount : st.callCnt = waiting.card)
      (h : Searching files cached st waiting)
  | make (hne : hashed ≠ cached) (h : Making files hashed cached st)
  | ended (h : Ended files hashed cached st)

end

theorem asking_dhtLookup (files : Fin n → Option (File n)) (hashed : Fin n) :
    Asking files (dhtLookup files hashed) hashed .lookup := by
  refine ⟨.inl ?_, ?_, rfl, rfl⟩
  · simp only [slot, dhtLookup, update_self]
  · intro other hne
    simp only [slot, dhtLookup, update_of_ne hne]

theorem Asking.serve (h : Asking files st subvol cbk)
    (hstep : step st (.serve other) = some st') : Asking files st' subvol cbk := by
  obtain ⟨call, rest, hsent, rfl⟩ := step_serve hstep
  have hoth : other = subvol := by
    by_contra hne
    simp [(slot_eq_iff.mp (h.others other hne)).1] at hsent
  subst hoth
  rcases h.here with hslot | hslot
  · obtain ⟨hsent', hreps, hfile⟩ := slot_eq_iff.mp hslot
    rw [hsent'] at hsent
    cases hsent
    refine { h with here := ?_, others := ?_ }
    · right
      rw [slot_serve, hreps, hfile]
      rfl
    · intro s hne
      rw [slot_serve_of_ne hne]
      exact h.others s hne
  · simp [(slot_eq_iff.mp hslot).1] at hsent

theorem Asking.reply (h : Asking files st subvol cbk) (hstep : step st (.reply other) = some st') :
    ∃ st₀, Idle files st₀ ∧ st₀.hashed = st.hashed ∧
      st' = callback st₀ subvol (.lookup cbk (files subvol)) := by
  obtain ⟨reply, rest, hreps, rfl⟩ := step_reply hstep
  have hoth : other = subvol := by
    by_contra hne
    simp [(slot_eq_iff.mp (h.others other hne)).2.1] at hreps
  subst hoth
  rcases h.here with hslot | hslot
  · simp [(slot_eq_iff.mp hslot).2.1] at hreps
  · obtain ⟨hsent, hreps', hfile⟩ := slot_eq_iff.mp hslot
    rw [hreps'] at hreps
    cases hreps
    refine ⟨arrive st other [], ⟨?_, h.cached_eq, h.unwound_eq⟩, rfl, rfl⟩
    intro s
    by_cases hne : s = other
    · subst hne
      rw [slot_arrive, hsent, hfile]
    · rw [slot_arrive_of_ne hne]
      exact h.others s hne

theorem Idle.asking (h : Idle files st) (subvol : Fin n) (cbk : LookupCbk) :
    Asking files (wind st subvol (.lookup cbk)) subvol cbk := by
  obtain ⟨hsent, hreps, hfile⟩ := slot_eq_iff.mp (h.slots subvol)
  refine { h with here := ?_, others := ?_ }
  · left
    rw [slot_wind, hsent, hreps, hfile]
    rfl
  · intro other hne
    rw [slot_wind_of_ne hne]
    exact h.slots other

theorem Idle.searching (h : Idle files st) (cached : Fin n) :
    Searching files cached (dhtLookupEverywhere st) Finset.univ := by
  constructor
  · intro subvol _
    obtain ⟨hsent, hreps, hfile⟩ := slot_eq_iff.mp (h.slots subvol)
    simp only [slot, dhtLookupEverywhere, hsent, hreps, hfile]
    exact .asked
  · intro subvol hsub
    exact absurd (Finset.mem_univ subvol) hsub
  · rw [if_pos (Finset.mem_univ cached)]
    exact h.cached_eq
  · exact h.unwound_eq

theorem Idle.ended (h : Idle files st)
    (hlks : hashed = cached ∨ files hashed = some (.linkfile (some cached))) :
    Ended files hashed cached (unwind st (some cached)) := by
  have hslots := fun subvol => slot_eq_iff.mp (h.slots subvol)
  constructor
  · intro subvol
    exact ⟨(hslots subvol).2.1, .inl (hslots subvol).1⟩
  · exact (hslots cached).2.2
  · exact hlks.imp_right (hslots hashed).2.2.trans
  · show st.unwound ++ [some cached] = [some cached]
    rw [h.unwound_eq]
    rfl

variable {waiting : Finset (Fin n)}
variable {file : Option (File n)}

theorem Answered.replies_eq (h : Answered file (slot st subvol)) : st.replies subvol = [] := by
  rw [slot] at h
  generalize st.sent subvol = calls, st.replies subvol = replies, st.files subvol = stored at h ⊢
  cases h <;> rfl

variable {call : Call n} {rest : List (Call n)}

theorem Answered.serve (h : Answered file (slot st other)) (hsent : st.sent subvol = call :: rest) :
    Answered file (slot (serve st subvol call rest) other) := by
  refine serve_keeps hsent ?_ h
  intro replies stored h
  cases h with
  | unlinking hlink => exact .unlinked hlink

theorem Waiting.serve (h : Waiting file (slot st other)) (hsent : st.sent subvol = call :: rest) :
    Waiting file (slot (Lookup.serve st subvol call rest) other) := by
  refine serve_keeps hsent ?_ h
  intro replies stored h
  cases h with
  | asked => exact .replied

theorem Waiting.slot_eq (h : Waiting file (slot st subvol)) {reply : Reply n}
    {rest : List (Reply n)} (hreps : st.replies subvol = reply :: rest) :
    slot st subvol = ([], [.lookup .everywhere file], file) := by
  rw [slot, hreps] at h ⊢
  generalize st.sent subvol = calls, st.files subvol = stored at h ⊢
  cases h with
  | replied => rfl

theorem Searching.serve (h : Searching files cached st waiting)
    (hstep : step st (.serve subvol) = some st') : Searching files cached st' waiting := by
  obtain ⟨call, rest, hsent, rfl⟩ := step_serve hstep
  exact { h with
    asked := fun other hoth => (h.asked other hoth).serve hsent
    answered := fun other hoth => (h.answered other hoth).serve hsent }

theorem slot_everywhereFound_of_ne (hne : other ≠ subvol)
    (found : Option (File n)) : slot (everywhereFound st subvol found) other = slot st other := by
  fun_cases everywhereFound st subvol found
  · rfl
  · exact slot_wind_of_ne hne .unlink
  · rfl
  · rfl

theorem everywhereFound_unwound (st : State n) (subvol : Fin n) (found : Option (File n)) :
    (everywhereFound st subvol found).unwound = st.unwound := by
  fun_cases everywhereFound st subvol found <;> rfl

theorem Searching.found (hdata : DataOn files cached mode) (hmode : mode ≠ S_ISVTX)
    (h : Searching files cached st waiting) (hsub : subvol ∈ waiting)
    (hslot : slot st subvol = ([], [.lookup .everywhere (files subvol)], files subvol)) :
    Searching files cached (everywhereFound (arrive st subvol []) subvol (files subvol))
      (waiting.erase subvol) := by
  obtain ⟨hsent, _, hfile⟩ := slot_eq_iff.mp hslot
  have hoths : ∀ other, other ≠ subvol →
      slot (everywhereFound (arrive st subvol []) subvol (files subvol)) other = slot st other := by
    intro other hne
    exact (slot_everywhereFound_of_ne hne _).trans (slot_arrive_of_ne hne [])
  -- What becomes of the subvolume itself, by what it has.
  have hhere : Answered (files subvol)
        (slot (everywhereFound (arrive st subvol []) subvol (files subvol)) subvol) ∧
      (everywhereFound (arrive st subvol []) subvol (files subvol)).cached =
        if cached ∈ waiting.erase subvol then none else some cached := by
    cases hfnd : files subvol with
    | none =>
      have hne : cached ≠ subvol := (hdata.ne (by simp [hfnd])).symm
      rw [everywhereFound, slot_arrive, hsent, hfile, hfnd]
      refine ⟨.kept nofun, ?_⟩
      simp only [arrive, h.cached_eq, Finset.mem_erase, hne, ne_eq, not_false_iff, true_and]
    | some file =>
      cases file with
      | data mode' =>
        have heq := hdata.only subvol mode' hfnd
        subst heq
        have hmode' : mode' = mode := by
          have hboth := hfnd.symm.trans hdata.here
          cases hboth
          rfl
        have hnot : ¬ checkIsLinkfile (.data mode' : File n) := by
          rw [hmode']
          exact hmode
        have hcach : (arrive st subvol []).cached = none := by
          simp only [arrive, h.cached_eq, if_pos hsub]
        rw [everywhereFound, if_neg hnot, if_pos hcach]
        refine ⟨?_, ?_⟩
        · have hslot : slot ({ arrive st subvol [] with cached := some subvol } : State n)
              subvol = slot (arrive st subvol []) subvol := rfl
          rw [hslot, slot_arrive, hsent, hfile, hfnd]
          exact .kept nofun
        · simp only [Finset.mem_erase, ne_eq, not_true_eq_false, false_and, if_false]
      | linkfile linkto =>
        have hne : cached ≠ subvol := (hdata.ne (by simp [hfnd])).symm
        have hlink : checkIsLinkfile (.linkfile linkto : File n) := rfl
        rw [everywhereFound, if_pos hlink, slot_wind]
        refine ⟨?_, ?_⟩
        · simp only [arrive, update_self, hsent, hfile, hfnd]
          exact .unlinking rfl
        · simp only [wind, arrive, h.cached_eq, Finset.mem_erase, hne, ne_eq, not_false_iff,
            true_and]
  constructor
  · intro other hoth
    obtain ⟨hne, hoth⟩ := Finset.mem_erase.mp hoth
    rw [hoths other hne]
    exact h.asked other hoth
  · intro other hoth
    by_cases hne : other = subvol
    · subst hne
      exact hhere.1
    · rw [hoths other hne]
      exact h.answered other (fun hc => hoth (Finset.mem_erase.mpr ⟨hne, hc⟩))
  · exact hhere.2
  · exact (everywhereFound_unwound _ _ _).trans h.unwound_eq

theorem everywhereFound_keeps (st : State n) (subvol : Fin n) (found : Option (File n)) :
    (everywhereFound st subvol found).callCnt = st.callCnt ∧
      (everywhereFound st subvol found).hashed = st.hashed := by
  fun_cases everywhereFound st subvol found <;> exact ⟨rfl, rfl⟩

theorem everywhereLast_of_cached (h : st.cached = some cached) :
    everywhereLast st = dhtLinkfileCreate st := by
  rw [everywhereLast, h]

theorem Searching.making (hdata : DataOn files cached mode) (hne : hashed ≠ cached)
    (hhash : st.hashed = hashed) (h : Searching files cached st ∅) :
    Making files hashed cached (dhtLinkfileCreate st) := by
  constructor
  · rw [dhtLinkfileCreate, hhash, slot_wind]
    have hans := h.answered hashed (Finset.notMem_empty hashed)
    rw [slot] at hans
    generalize st.sent hashed = calls, st.replies hashed = replies,
      st.files hashed = stored at hans ⊢
    cases hans with
    | unlinking hlink => exact .unlinking
    | unlinked hlink => exact .making
    | kept hkept =>
      have hnone : files hashed = none := by
        cases hfile : files hashed with
        | none => rfl
        | some file =>
          cases file with
          | data mode' => exact absurd (hdata.only hashed mode' hfile) hne
          | linkfile linkto => exact absurd hfile (hkept linkto)
      rw [hnone]
      exact .making
  · intro other hoth
    rw [dhtLinkfileCreate, hhash, slot_wind_of_ne hoth]
    exact h.answered other (Finset.notMem_empty other)
  · exact h.cached_eq
  · exact h.unwound_eq

theorem Searching.reply (hdata : DataOn files cached mode) (hmode : mode ≠ S_ISVTX)
    (hne : hashed ≠ cached) (hhashed : st.hashed = hashed) (hcount : st.callCnt = waiting.card)
    (h : Searching files cached st waiting) (hstep : step st (.reply subvol) = some st') :
    Phase files hashed cached mode st' := by
  obtain ⟨reply, rest, hreps, rfl⟩ := step_reply hstep
  have hsub : subvol ∈ waiting := by
    by_contra hc
    simp [(h.answered subvol hc).replies_eq] at hreps
  have hslot := (h.asked subvol hsub).slot_eq hreps
  have hfnd := h.found hdata hmode hsub hslot
  rw [(slot_eq_iff.mp hslot).2.1] at hreps
  cases hreps
  rw [callback, dhtLookupEverywhereCbk]
  obtain ⟨st₁, hst₁⟩ : ∃ st₁, st₁ = everywhereFound (arrive st subvol []) subvol
    (files subvol) := ⟨_, rfl⟩
  have hcnt : st₁.callCnt = waiting.card := by
    rw [hst₁, (everywhereFound_keeps ..).1]
    exact hcount
  have hhash : st₁.hashed = hashed := by
    rw [hst₁, (everywhereFound_keeps ..).2]
    exact hhashed
  rw [← hst₁] at hfnd ⊢
  have hcard : (waiting.erase subvol).card = waiting.card - 1 := Finset.card_erase_of_mem hsub
  have hpos : 0 < waiting.card := Finset.card_pos.mpr ⟨subvol, hsub⟩
  rw [everywhereReturn]
  by_cases hlast : st₁.callCnt - 1 = 0
  · rw [if_pos hlast]
    have hemp : waiting.erase subvol = ∅ := by
      rw [← Finset.card_eq_zero]
      omega
    rw [hemp] at hfnd
    have hlast' : Searching files cached { st₁ with callCnt := st₁.callCnt - 1 } ∅ :=
      { hfnd with }
    have hcach : ({ st₁ with callCnt := st₁.callCnt - 1 } : State n).cached = some cached := by
      rw [hfnd.cached_eq, if_neg (Finset.notMem_empty cached)]
    rw [everywhereLast_of_cached hcach]
    exact .make hne (hlast'.making hdata hne hhash)
  · rw [if_neg hlast]
    have hsome : (waiting.erase subvol).Nonempty := by
      rw [← Finset.card_pos]
      omega
    refine .search hne hmode hsome ?_ { hfnd with }
    dsimp only
    omega

theorem Linking.serve (h : Linking cached file (slot st other))
    (hsent : st.sent subvol = call :: rest) :
    Linking cached file (slot (Lookup.serve st subvol call rest) other) := by
  refine serve_keeps hsent ?_ h
  intro replies stored h
  cases h with
  | unlinking => exact .making
  | making => exact .made
  | marking => exact .marked

theorem Making.serve (h : Making files hashed cached st)
    (hstep : step st (.serve subvol) = some st') : Making files hashed cached st' := by
  obtain ⟨call, rest, hsent, rfl⟩ := step_serve hstep
  exact { h with
    here := h.here.serve hsent
    answered := fun other hoth => (h.answered other hoth).serve hsent }

theorem Answered.left (h : Answered file (slot st subvol))
    (hlink : ∀ linkto, file = some (.linkfile linkto) → subvol ≠ cached) :
    st.replies subvol = [] ∧
      (st.sent subvol = [] ∨ st.sent subvol = [.unlink] ∧ subvol ≠ cached) := by
  refine ⟨h.replies_eq, ?_⟩
  rw [slot] at h
  generalize st.sent subvol = calls, st.replies subvol = replies, st.files subvol = stored at h ⊢
  cases h with
  | unlinking hfile => exact .inr ⟨rfl, hlink _ hfile⟩
  | unlinked | kept => exact .inl rfl

theorem Answered.keeps (hdata : DataOn files cached mode)
    (h : Answered (files cached) (slot st cached)) : st.files cached = files cached := by
  have hnot : ∀ linkto, files cached ≠ some (.linkfile linkto) := by
    intro linkto hc
    simp [hdata.here] at hc
  rw [slot] at h
  generalize st.sent cached = calls, st.replies cached = replies, st.files cached = stored at h ⊢
  cases h with
  | unlinking hfile | unlinked hfile => exact absurd hfile (hnot _)
  | kept hkept => rfl

theorem Making.reply (hdata : DataOn files cached mode) (hne : hashed ≠ cached)
    (h : Making files hashed cached st) (hstep : step st (.reply subvol) = some st') :
    Phase files hashed cached mode st' := by
  obtain ⟨reply, rest, hreps, rfl⟩ := step_reply hstep
  have hsub : subvol = hashed := by
    by_contra hc
    simp [(h.answered subvol hc).replies_eq] at hreps
  subst hsub
  have hhere := h.here
  rw [slot, hreps] at hhere
  generalize hsent : st.sent subvol = calls, hfile : st.files subvol = stored at hhere
  cases hhere with
  | made =>
    have hcach : (arrive st subvol []).cached = some cached := h.cached_eq
    rw [callback, dhtLinkfileCreateCbk, hcach]
    refine .make hne ⟨?_, ?_, h.cached_eq, h.unwound_eq⟩
    · rw [slot_wind]
      simp only [arrive, update_self, hsent, hfile]
      exact .marking
    · intro other hoth
      rw [slot_wind_of_ne hoth, slot_arrive_of_ne hoth]
      exact h.answered other hoth
  | marked =>
    refine .ended ⟨?_, ?_, .inr hfile, ?_⟩
    · intro other
      by_cases hoth : other = subvol
      · subst hoth
        refine ⟨?_, .inl hsent⟩
        show (arrive st other []).replies other = []
        simp only [arrive, update_self]
      · have hlink : ∀ linkto, files other = some (.linkfile linkto) → other ≠ cached := by
          rintro linkto hlink rfl
          simp [hdata.here] at hlink
        have hleft := (h.answered other hoth).left hlink
        refine ⟨?_, ?_⟩
        · show (arrive st subvol []).replies other = []
          simp only [arrive, update_of_ne hoth]
          exact hleft.1
        · rcases hleft.2 with hnil | ⟨hunlk, hnc⟩
          · exact .inl hnil
          · exact .inr ⟨hunlk, hnc, hoth⟩
    · show st.files cached = _
      exact (h.answered cached (Ne.symm hne)).keeps hdata
    · show st.unwound ++ [st.cached] = _
      rw [h.unwound_eq, h.cached_eq]
      rfl

theorem Ended.serve (h : Ended files hashed cached st)
    (hstep : step st (.serve subvol) = some st') : Ended files hashed cached st' := by
  obtain ⟨call, rest, hsent, rfl⟩ := step_serve hstep
  obtain ⟨hreps, hleft⟩ := h.left subvol
  rcases hleft with hnil | ⟨hunlk, hcach, hhash⟩
  · simp [hnil] at hsent
  rw [hunlk] at hsent
  cases hsent
  constructor
  · intro other
    by_cases hne : other = subvol
    · subst hne
      obtain ⟨hsent, hreps', _⟩ := slot_eq_iff.mp (@slot_serve _ st other .unlink [])
      rw [hreps] at hreps'
      exact ⟨hreps', .inl hsent⟩
    · simp only [Lookup.serve, update_of_ne hne]
      exact h.left other
  · simp only [Lookup.serve, update_of_ne (Ne.symm hcach)]
    exact h.keeps
  · simp only [Lookup.serve, update_of_ne (Ne.symm hhash)]
    exact h.links
  · exact h.unwound_eq

theorem Follows.mode_ne (hfol : Follows files hashed cached mode)
    (h : files hashed ≠ some (.linkfile (some cached))) : mode ≠ S_ISVTX :=
  hfol.2.resolve_right h

theorem Idle.search (hne : hashed ≠ cached) (hmode : mode ≠ S_ISVTX) (h : Idle files st) :
    Phase files hashed cached mode (dhtLookupEverywhere st) := by
  refine .search hne hmode ⟨hashed, Finset.mem_univ hashed⟩ ?_ (h.searching cached)
  rw [Finset.card_univ, Fintype.card_fin]
  rfl

theorem phase_dhtLookupCbk (hdata : DataOn files cached mode)
    (hfol : Follows files hashed cached mode) (h : Idle files st) :
    Phase files hashed cached mode (dhtLookupCbk st hashed (files hashed)) := by
  cases hfile : files hashed with
  | none =>
    have hne : hashed ≠ cached := hdata.ne (by simp [hfile])
    exact h.search hne (hfol.mode_ne (by rw [hfile]; simp))
  | some file =>
    rw [dhtLookupCbk]
    cases file with
    | data mode' =>
      have heq := hdata.only hashed mode' hfile
      have hmode := hfol.mode_ne (by rw [hfile]; simp)
      have hmode' : mode' = mode := by
        rw [heq, hdata.here] at hfile
        cases hfile
        rfl
      have hnot : ¬ checkIsLinkfile (.data mode' : File n) := by
        rw [hmode']
        exact hmode
      rw [if_neg hnot, heq]
      exact .ended (h.ended (.inl rfl))
    | linkfile linkto =>
      have hne : hashed ≠ cached := hdata.ne (by simp [hfile])
      cases linkto with
      | none => exact h.search hne (hfol.mode_ne (by rw [hfile]; simp))
      | some subvol => exact .second hfile (h.asking subvol .linkfile)

theorem phase_dhtLookupLinkfileCbk (hdata : DataOn files cached mode)
    (hfol : Follows files hashed cached mode)
    (hlink : files hashed = some (.linkfile (some subvol))) (h : Idle files st) :
    Phase files hashed cached mode (dhtLookupLinkfileCbk st subvol (files subvol)) := by
  cases hfile : files subvol with
  | none =>
    have hne : hashed ≠ cached := hdata.ne (by simp [hlink])
    have hnot : files hashed ≠ some (.linkfile (some cached)) := by
      intro hc
      rw [hlink] at hc
      cases hc
      simp [hdata.here] at hfile
    exact h.search hne (hfol.mode_ne hnot)
  | some file =>
    cases file with
    | data mode' =>
      obtain rfl := hdata.only subvol mode' hfile
      exact .ended (h.ended (.inr hlink))
    | linkfile linkto => exact absurd hfile (hfol.1 subvol linkto hlink)

theorem callback_hashed (st : State n) (subvol : Fin n) (reply : Reply n) :
    (callback st subvol reply).hashed = st.hashed := by
  fun_cases callback st subvol reply with
  | case1 found => fun_cases dhtLookupCbk st subvol found <;> rfl
  | case2 found => fun_cases dhtLookupLinkfileCbk st subvol found <;> rfl
  | case3 found =>
    rw [dhtLookupEverywhereCbk, ← (everywhereFound_keeps st subvol found).2]
    generalize everywhereFound st subvol found = st₁
    fun_cases everywhereReturn st₁
    · fun_cases everywhereLast <;> rfl
    · rfl
  | case4 made => fun_cases dhtLinkfileCreateCbk st subvol made <;> rfl
  | case5 => rfl

theorem step_hashed (h : step st e = some st') : st'.hashed = st.hashed := by
  cases e with
  | serve subvol =>
    obtain ⟨call, rest, _, rfl⟩ := step_serve h
    rfl
  | reply subvol =>
    obtain ⟨reply, rest, _, rfl⟩ := step_reply h
    exact callback_hashed _ subvol reply

theorem Phase.step (hdata : DataOn files cached mode)
    (hfol : Follows files hashed cached mode) (hhash : st.hashed = hashed)
    (h : Phase files hashed cached mode st) (hstep : Lookup.step st e = some st') :
    Phase files hashed cached mode st' := by
  cases e with
  | serve subvol =>
    cases h with
    | first h => exact .first (h.serve hstep)
    | second hlink h => exact .second hlink (h.serve hstep)
    | search hne hmode hsome hcnt h =>
      have hsrch := h.serve hstep
      obtain ⟨call, rest, _, rfl⟩ := step_serve hstep
      exact .search hne hmode hsome hcnt hsrch
    | make hne h => exact .make hne (h.serve hstep)
    | ended h => exact .ended (h.serve hstep)
  | reply subvol =>
    cases h with
    | first h =>
      obtain ⟨st₀, hidle, _, rfl⟩ := h.reply hstep
      exact phase_dhtLookupCbk hdata hfol hidle
    | second hlink h =>
      obtain ⟨st₀, hidle, _, rfl⟩ := h.reply hstep
      exact phase_dhtLookupLinkfileCbk hdata hfol hlink hidle
    | search hne hmode hsome hcnt h => exact h.reply hdata hmode hne hhash hcnt hstep
    | make hne h => exact h.reply hdata hne hstep
    | ended h =>
      obtain ⟨reply, rest, hreps, _⟩ := step_reply hstep
      simp [(h.left subvol).1] at hreps

theorem phase_of_run (hdata : DataOn files cached mode)
    (hfol : Follows files hashed cached mode)
    (h : run Lookup.step (dhtLookup files hashed) events = some st) :
    Phase files hashed cached mode st := by
  have hinv : st.hashed = hashed ∧ Phase files hashed cached mode st := by
    refine run_keeps Lookup.step ?_ ⟨rfl, .first (asking_dhtLookup files hashed)⟩ h
    intro e _ s s' hs hs'
    exact ⟨(step_hashed hs').trans hs.1, hs.2.step hdata hfol hs.1 hs'⟩
  exact hinv.2

theorem Waiting.not_quiet (h : Waiting file (slot st subvol)) : ¬ Quiet st := by
  intro hqt
  rw [slot, (hqt subvol).1, (hqt subvol).2] at h
  cases h

theorem Phase.keeps (hdata : DataOn files cached mode) (h : Phase files hashed cached mode st) :
    st.files cached = files cached := by
  have hasking : ∀ {subvol : Fin n} {cbk : LookupCbk}, Asking files st subvol cbk →
      st.files cached = files cached := by
    intro subvol cbk h
    by_cases hne : cached = subvol
    · subst hne
      rcases h.here with hslot | hslot <;> exact congrArg (fun x => x.2.2) hslot
    · exact congrArg (fun x => x.2.2) (h.others cached hne)
  cases h with
  | first h | second hlink h => exact hasking h
  | @search waiting hne hmode hsome hcnt h =>
    by_cases hwt : cached ∈ waiting
    · have hask := h.asked cached hwt
      rw [slot] at hask
      generalize st.sent cached = calls, st.replies cached = replies,
        st.files cached = stored at hask ⊢
      cases hask <;> rfl
    · exact (h.answered cached hwt).keeps hdata
  | make hne h => exact (h.answered cached (Ne.symm hne)).keeps hdata
  | ended h => exact h.keeps

theorem Phase.ended_of_quiet (h : Phase files hashed cached mode st) (hqt : Quiet st) :
    Ended files hashed cached st := by
  have hslot : ∀ subvol, slot st subvol = ([], [], st.files subvol) := by
    intro subvol
    rw [slot, (hqt subvol).1, (hqt subvol).2]
  have hask : ∀ {subvol : Fin n} {cbk : LookupCbk}, ¬ Asking files st subvol cbk := by
    intro subvol cbk h
    have hhere := h.here
    rw [hslot] at hhere
    rcases hhere with hc | hc
    · cases congrArg Prod.fst hc
    · cases congrArg (fun x => x.2.1) hc
  cases h with
  | first h | second hlink h => exact absurd h hask
  | search hne hmode hsome hcnt h =>
    obtain ⟨subvol, hsub⟩ := hsome
    exact absurd hqt (h.asked subvol hsub).not_quiet
  | make hne h =>
    have hhere := h.here
    rw [hslot] at hhere
    cases hhere
  | ended h => exact h

theorem finds_of_follows (hdata : DataOn files cached mode)
    (hfol : Follows files hashed cached mode) : Finds files hashed cached := by
  constructor
  · intro events st h
    exact ⟨ends_dhtLookup h, exists_step_of_not_quiet⟩
  · intro events st h
    exact (phase_of_run hdata hfol h).keeps hdata
  · intro events st h hqt
    have hended := (phase_of_run hdata hfol h).ended_of_quiet hqt
    exact ⟨hended.unwound_eq, hended.links⟩

theorem Asking.run_reply (h : Asking files st subvol cbk) (hsent : st.sent subvol = [.lookup cbk]) :
    ∃ st₀, Idle files st₀ ∧ run step st [.serve subvol, .reply subvol] =
        some (callback st₀ subvol (.lookup cbk (files subvol))) := by
  have hserve : step st (.serve subvol) = some (Lookup.serve st subvol (.lookup cbk) []) := by
    rw [step, hsent]
  have hask := h.serve hserve
  have hreps : (Lookup.serve st subvol (.lookup cbk) []).replies subvol =
      st.replies subvol ++ [.lookup cbk (st.files subvol)] := by
    simp only [Lookup.serve, update_self, execute]
  have hpend : ∃ reply rest,
      (Lookup.serve st subvol (.lookup cbk) []).replies subvol = reply :: rest := by
    rw [hreps]
    exact exists_cons_of_ne_nil (by simp)
  obtain ⟨reply, rest, hpend⟩ := hpend
  obtain ⟨st', hrep⟩ : ∃ st', step (Lookup.serve st subvol (.lookup cbk) []) (.reply subvol) =
      some st' := by
    rw [step, hpend]
    exact ⟨_, rfl⟩
  obtain ⟨st₀, hidle, _, rfl⟩ := hask.reply hrep
  refine ⟨st₀, hidle, ?_⟩
  rw [run_cons, hserve, bind_some, run_cons, hrep, bind_some, run_nil]

theorem exists_run_dhtLookupCbk (files : Fin n → Option (File n)) (hashed : Fin n) :
    ∃ st₀, Idle files st₀ ∧ ∃ events, run step (dhtLookup files hashed) events =
        some (dhtLookupCbk st₀ hashed (files hashed)) := by
  have hsent : (dhtLookup files hashed).sent hashed = [.lookup .lookup] := by
    simp only [dhtLookup, update_self]
  obtain ⟨st₀, hidle, hrun⟩ := (asking_dhtLookup files hashed).run_reply hsent
  exact ⟨st₀, hidle, _, hrun⟩

theorem exists_run_dhtLookupLinkfileCbk (hlink : files hashed = some (.linkfile (some subvol))) :
    ∃ st₀, Idle files st₀ ∧ ∃ events, run step (dhtLookup files hashed) events =
        some (dhtLookupLinkfileCbk st₀ subvol (files subvol)) := by
  obtain ⟨st₀, hidle, events, hrun⟩ := exists_run_dhtLookupCbk files hashed
  have hwind : dhtLookupCbk st₀ hashed (files hashed) = wind st₀ subvol (.lookup .linkfile) := by
    rw [hlink]
    rfl
  have hsent : (wind st₀ subvol (.lookup .linkfile)).sent subvol = [.lookup .linkfile] := by
    simp only [wind, update_self, (slot_eq_iff.mp (hidle.slots subvol)).1, nil_append]
  obtain ⟨st₁, hidle', hrun'⟩ := (hidle.asking subvol .linkfile).run_reply hsent
  refine ⟨st₁, hidle', events ++ [.serve subvol, .reply subvol], ?_⟩
  rw [run_append, hrun, hwind, bind_some, hrun']
  rfl

theorem Idle.quiet_unwind (h : Idle files st) (result : Option (Fin n)) :
    Quiet (unwind st result) ∧ (unwind st result).unwound = [result] := by
  constructor
  · intro subvol
    obtain ⟨hsent, hreps, _⟩ := slot_eq_iff.mp (h.slots subvol)
    exact ⟨hsent, hreps⟩
  · show st.unwound ++ [result] = [result]
    rw [h.unwound_eq]
    rfl

theorem not_finds_of_linkfile (hdata : DataOn files cached mode)
    (hlink : files hashed = some (.linkfile (some subvol))) {linkto : Option (Fin n)}
    (hfile : files subvol = some (.linkfile linkto)) : ¬ Finds files hashed cached := by
  intro hfnds
  obtain ⟨st₀, hidle, events, hrun⟩ := exists_run_dhtLookupLinkfileCbk hlink
  rw [hfile] at hrun
  obtain ⟨hqt, hunw⟩ := hidle.quiet_unwind (some subvol)
  have hfnd := (hfnds.finds events _ hrun hqt).1
  have heq : [some subvol] = [some cached] := hunw.symm.trans hfnd
  cases heq
  simp [hdata.here] at hfile

theorem everywhereReturn_sent (h : st.cached = none) : (everywhereReturn st).sent = st.sent := by
  rw [everywhereReturn]
  split_ifs
  · rw [everywhereLast, h]
    rfl
  · rfl

section

variable (hdata : DataOn files cached S_ISVTX)
include hdata

theorem Idle.exists_run_removed (h : Idle files st) :
    ∃ events st', run step (dhtLookupEverywhere st) events = some st' ∧
      st'.files cached = none := by
  obtain ⟨hsent, hreps, hfile⟩ := slot_eq_iff.mp (h.slots cached)
  rw [hdata.here] at hfile
  obtain ⟨st₁, hst₁⟩ : ∃ st₁, st₁ = Lookup.serve (dhtLookupEverywhere st) cached
    (.lookup .everywhere) [] := ⟨_, rfl⟩
  have hserve : step (dhtLookupEverywhere st) (.serve cached) = some st₁ := by
    rw [step, hst₁]
    simp only [dhtLookupEverywhere, hsent, nil_append]
  have hsent₁ : st₁.sent cached = [] := by simp only [hst₁, Lookup.serve, update_self]
  have hreps₁ : st₁.replies cached = [.lookup .everywhere (some (.data S_ISVTX))] := by
    simp only [hst₁, Lookup.serve, dhtLookupEverywhere, update_self, hreps, hfile,
      execute, nil_append]
  have hcach₁ : st₁.cached = none := by
    rw [hst₁]
    exact h.cached_eq
  have hrep : step st₁ (.reply cached) =
      some (everywhereReturn (wind (arrive st₁ cached []) cached .unlink)) := by
    rw [step, hreps₁]
    rfl
  obtain ⟨st₂, hst₂⟩ : ∃ st₂, st₂ = everywhereReturn
    (wind (arrive st₁ cached []) cached .unlink) := ⟨_, rfl⟩
  have hcach₂ : (wind (arrive st₁ cached []) cached .unlink).cached = none := hcach₁
  have hsent₂ : st₂.sent cached = [.unlink] := by
    rw [hst₂, everywhereReturn_sent hcach₂]
    simp only [wind, arrive, update_self, hsent₁, nil_append]
  have hunlk : step st₂ (.serve cached) = some (Lookup.serve st₂ cached .unlink []) := by
    rw [step, hsent₂]
  refine ⟨[.serve cached, .reply cached, .serve cached], Lookup.serve st₂ cached .unlink [], ?_, ?_⟩
  · rw [run_cons, hserve, bind_some, run_cons, hrep, bind_some, ← hst₂, run_cons,
      hunlk, bind_some, run_nil]
  · simp only [Lookup.serve, update_self, execute]

theorem not_finds_of_search (h : Idle files st)
    (hrun : run step (dhtLookup files hashed) events = some (dhtLookupEverywhere st)) :
    ¬ Finds files hashed cached := by
  intro hfnds
  obtain ⟨events', st', hrun', hgone⟩ := h.exists_run_removed hdata
  have hboth : run step (dhtLookup files hashed) (events ++ events') = some st' := by
    rw [run_append, hrun, bind_some, hrun']
  have hkeeps := hfnds.keeps _ st' hboth
  simp [hgone, hdata.here] at hkeeps

/-- A data file with the mode of a linkfile, where the hashed subvolume does not lead to it. -/
theorem not_finds_of_mode (hnot : files hashed ≠ some (.linkfile (some cached))) :
    ¬ Finds files hashed cached := by
  obtain ⟨st₀, hidle, events, hrun⟩ := exists_run_dhtLookupCbk files hashed
  cases hfile : files hashed with
  | none =>
    rw [hfile] at hrun
    exact not_finds_of_search hdata hidle hrun
  | some file =>
    cases file with
    | data mode =>
      obtain rfl := hdata.only hashed mode hfile
      rw [hdata.here] at hrun
      exact not_finds_of_search hdata hidle hrun
    | linkfile linkto =>
      cases linkto with
      | none =>
        rw [hfile] at hrun
        exact not_finds_of_search hdata hidle hrun
      | some subvol =>
        cases hsub : files subvol with
        | none =>
          obtain ⟨st₁, hidle', events', hrun'⟩ := exists_run_dhtLookupLinkfileCbk hfile
          rw [hsub] at hrun'
          exact not_finds_of_search hdata hidle' hrun'
        | some file =>
          cases file with
          | data mode =>
            obtain rfl := hdata.only subvol mode hsub
            exact absurd hfile hnot
          | linkfile linkto => exact not_finds_of_linkfile hdata hfile hsub

end

/-- The lookup finds a file exactly if what it follows is not taken for something else. -/
theorem finds_iff_follows (hdata : DataOn files cached mode) :
    Finds files hashed cached ↔ Follows files hashed cached mode := by
  constructor
  · intro hfnds
    constructor
    · intro subvol linkto hlink hfile
      exact not_finds_of_linkfile hdata hlink hfile hfnds
    · by_contra hc
      rw [not_or, not_not] at hc
      obtain ⟨rfl, hnot⟩ := hc
      exact not_finds_of_mode hdata hnot hfnds
  · exact finds_of_follows hdata

def staleLinkfiles : Fin 4 → Option (File 4) :=
  ![some (.linkfile (some 2)), some (.data 420), none, some (.linkfile (some 0))]

theorem dataOn_staleLinkfiles : DataOn staleLinkfiles 1 420 := by
  refine ⟨rfl, ?_⟩
  intro subvol mode h
  fin_cases subvol
  · cases h
  · rfl
  · cases h
  · cases h

theorem finds_staleLinkfiles : Finds staleLinkfiles 0 1 :=
  (finds_iff_follows dataOn_staleLinkfiles).mpr ⟨by decide, .inl (by decide)⟩

def twoLinkfiles : Fin 3 → Option (File 3) :=
  ![some (.linkfile (some 1)), some (.linkfile (some 2)), some (.data 420)]

theorem not_finds_twoLinkfiles : DataOn twoLinkfiles 2 420 ∧ ¬ Finds twoLinkfiles 0 2 := by
  have hdata : DataOn twoLinkfiles 2 420 := by
    refine ⟨rfl, ?_⟩
    intro subvol mode h
    fin_cases subvol
    · cases h
    · cases h
    · rfl
  exact ⟨hdata, not_finds_of_linkfile hdata rfl rfl⟩

/-- What the lookup waits for, with `k` for each call of a search. -/
def Call.owed (k : Nat) : Call n → Nat
  | .lookup .everywhere => k
  | .unlink => 0
  | .lookup .lookup | .lookup .linkfile | .mknod | .setxattr _ => 1

def Reply.owed (k : Nat) : Reply n → Nat
  | .lookup .everywhere _ => k
  | .lookup .lookup _ | .lookup .linkfile _ | .mknod _ | .setxattr => 1

def State.owed (st : State n) (k : Nat) : Nat :=
  st.total (Call.owed k) (Reply.owed k) + st.unwound.length

/-- The lookup waits for one call or is answered, or it waits for the calls of a search. -/
inductive Owed (st : State n) : Prop where
  | once (h : ∀ k, st.owed k = 1)
  | search (cnt : Nat) (hcnt : st.callCnt = cnt + 1) (h : ∀ k, st.owed k = k * (cnt + 1))

theorem owed_wind (st : State n) (subvol : Fin n) (call : Call n) (k : Nat) :
    (wind st subvol call).owed k = st.owed k + call.owed k := by
  rw [State.owed, total_wind, Nat.add_right_comm]
  rfl

section
variable (h : ∀ k, st.owed k = 0)
include h

theorem Owed.unwind (result : Option (Fin n)) : Owed (unwind st result) := by
  refine .once fun k => ?_
  rw [State.owed, total_unwind, Lookup.unwind, length_append, ← Nat.add_assoc]
  exact congrArg (· + 1) (h k)

theorem Owed.wind {call : Call n} (hone : ∀ k, call.owed k = 1) (subvol : Fin n) :
    Owed (wind st subvol call) := by
  refine .once fun k => ?_
  rw [owed_wind, h, hone]

theorem Owed.everywhere (subvol : Fin n) : Owed (dhtLookupEverywhere st) := by
  obtain ⟨cnt, rfl⟩ := Nat.exists_eq_add_of_le' subvol.pos
  refine .search cnt rfl fun k => ?_
  rw [State.owed, total_dhtLookupEverywhere, Nat.add_right_comm, mul_comm k]
  exact (congrArg (· + _) (h k)).trans (Nat.zero_add _)

end

theorem owed_arrive {reply : Reply n} {rest : List (Reply n)}
    (hreps : st.replies subvol = reply :: rest) (k : Nat) :
    (arrive st subvol rest).owed k + reply.owed k = st.owed k := by
  rw [State.owed, Nat.add_right_comm, total_arrive _ _ hreps]
  rfl

theorem Owed.arrive {reply : Reply n} {rest : List (Reply n)} (h : Owed st)
    (hreps : st.replies subvol = reply :: rest) (hone : ∀ k, reply.owed k = 1) (k : Nat) :
    (arrive st subvol rest).owed k = 0 := by
  have harr := owed_arrive hreps
  simp only [hone] at harr
  cases h with
  | once h => exact Nat.succ.inj ((harr k).trans (h k))
  | search cnt hcnt h =>
    have hzero := (harr 0).trans (h 0)
    omega

theorem Owed.everywhereCbk {rest : List (Reply n)} {found : Option (File n)} (h : Owed st)
    (hreps : st.replies subvol = .lookup .everywhere found :: rest) :
    Owed (dhtLookupEverywhereCbk (Lookup.arrive st subvol rest) subvol found) := by
  have harr := owed_arrive hreps
  cases h with
  | once h =>
    have htwo : _ + 2 = 1 := (harr 2).trans (h 2)
    omega
  | search cnt hcnt h =>
    have hfound : ∀ k, (everywhereFound (Lookup.arrive st subvol rest) subvol found).owed k =
        k * cnt := by
      intro k
      refine Nat.add_right_cancel (.trans ?_ ((harr k).trans (h k)))
      fun_cases everywhereFound _ subvol found
      · rfl
      · rw [owed_wind]
        rfl
      · rfl
      · rfl
    have hkeeps := (everywhereFound_keeps (Lookup.arrive st subvol rest) subvol found).1.trans hcnt
    rw [dhtLookupEverywhereCbk]
    generalize everywhereFound (Lookup.arrive st subvol rest) subvol found = st₁ at *
    fun_cases everywhereReturn st₁ with
    | case1 hlast =>
      obtain rfl : cnt = 0 := by omega
      have hidle : ∀ k, State.owed { st₁ with callCnt := st₁.callCnt - 1 } k = 0 := hfound
      fun_cases everywhereLast
      · exact .unwind hidle none
      · exact .wind hidle (fun _ => rfl) _
    | case2 hlast =>
      obtain ⟨more, rfl⟩ := Nat.exists_eq_succ_of_ne_zero (show cnt ≠ 0 by omega)
      exact .search more (by simp [hkeeps]) hfound

theorem Owed.step (h : Owed st) (hstep : step st e = some st') : Owed st' := by
  cases e with
  | serve subvol =>
    obtain ⟨call, rest, hsent, rfl⟩ := step_serve hstep
    have hsame : ∀ k, (serve st subvol call rest).owed k = st.owed k := by
      intro k
      have htotal := total_serve (Call.owed k) (Reply.owed k) hsent
      have hexec : ((execute (st.files subvol) call).2.map (Reply.owed k)).sum = call.owed k := by
        rcases call with (_ | _ | _) | _ | _ | _ <;> rcases st.files subvol with _ | _ | _ <;> rfl
      rw [hexec] at htotal
      exact congrArg (· + st.unwound.length) (Nat.add_right_cancel htotal)
    cases h with
    | once h => exact .once fun k => (hsame k).trans (h k)
    | search cnt hcnt h => exact .search cnt hcnt fun k => (hsame k).trans (h k)
  | reply subvol =>
    obtain ⟨reply, rest, hreps, rfl⟩ := step_reply hstep
    have hidle := h.arrive hreps
    fun_cases callback (Lookup.arrive st subvol rest) subvol reply with
    | case1 found =>
      fun_cases dhtLookupCbk _ subvol found
      · exact .everywhere (hidle fun _ => rfl) subvol
      · exact .everywhere (hidle fun _ => rfl) subvol
      · exact .wind (hidle fun _ => rfl) (fun _ => rfl) _
      · exact .unwind (hidle fun _ => rfl) _
    | case2 found =>
      fun_cases dhtLookupLinkfileCbk _ subvol found
      · exact .everywhere (hidle fun _ => rfl) subvol
      · exact .unwind (hidle fun _ => rfl) _
    | case3 found => exact h.everywhereCbk hreps
    | case4 made =>
      fun_cases dhtLinkfileCreateCbk _ subvol made
      · exact .wind (hidle fun _ => rfl) (fun _ => rfl) _
      · exact .unwind (hidle fun _ => rfl) _
      · exact .unwind (hidle fun _ => rfl) _
    | case5 => exact .unwind (hidle fun _ => rfl) _

/--
Whatever is on the subvolumes and however their replies arrive, a lookup comes to an end, and is
answered once.
-/
theorem dhtLookup_answered_once (files : Fin n → Option (File n)) (hashed : Fin n)
    (events : List (Event n)) (st : State n)
    (hrun : run step (dhtLookup files hashed) events = some st) :
    events.length ≤ 4 + 7 * n ∧ st.unwound.length ≤ 1 ∧
      (Quiet st ∧ st.unwound.length = 1 ∨ ∃ e st', step st e = some st') := by
  have hstart : Owed (dhtLookup files hashed) :=
    .once fun k => by rw [State.owed, total_dhtLookup]; rfl
  have h : Owed st := run_keeps step (fun _ _ _ _ => Owed.step) hstart hrun
  have hle : st.unwound.length ≤ st.owed 0 := Nat.le_add_left ..
  have hquiet : Quiet st → ∀ k, st.owed k = st.unwound.length := by
    intro hqt k
    simp [State.owed, State.total, (hqt _).1, (hqt _).2]
  have hlen : st.unwound.length ≤ 1 ∧ (Quiet st → st.unwound.length = 1) := by
    cases h with
    | once h => exact ⟨hle.trans_eq (h 0), fun hqt => (hquiet hqt 0).symm.trans (h 0)⟩
    | search cnt hcnt h =>
      have hzero := h 0
      have hone := h 1
      exact ⟨by omega, fun hqt => by have := hquiet hqt; grind⟩
  refine ⟨ends_dhtLookup hrun, hlen.1, ?_⟩
  by_cases hqt : Quiet st
  · exact .inl ⟨hqt, hlen.2 hqt⟩
  · exact .inr (exists_step_of_not_quiet hqt)

/-- A linkfile leads to a linkfile, and the lookup succeeds with that. -/
theorem dhtLookup_answered_once_twoLinkfiles :
    ∃ st, run step (dhtLookup twoLinkfiles 0) [.serve 0, .reply 0, .serve 1, .reply 1] = some st ∧
      st.unwound = [some 1] ∧ st.unwound.length ≤ 1 := by
  obtain ⟨st, hrun, hunw⟩ : ∃ st, run step (dhtLookup twoLinkfiles 0)
      [.serve 0, .reply 0, .serve 1, .reply 1] = some st ∧ st.unwound = [some 1] := ⟨_, rfl, rfl⟩
  exact ⟨st, hrun, hunw, (dhtLookup_answered_once twoLinkfiles 0 _ st hrun).2.1⟩

end GlusterFS.Dht.Lookup
