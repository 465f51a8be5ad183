import GlusterFS.Lib.Run

/-!
# The map translator: routing by the top level directory

A mapping names a top level directory, with or without a slash at its end, and a subvolume.  The
first mapping that matches a path says where the path goes.  The match compares a prefix and looks
at one character behind it, and that is to compare the first components of the two paths
(`routesByComponent`).  Strings are lists of characters without the terminator.
-/

namespace GlusterFS.Map

open Run List

abbrev Str := List Char

structure MapPattern where
  xl : Str
  directory : Str
  dirLen : Nat

/-- `mapped` are the subvolumes with the flag of that name in `xlarray`. -/
structure MapPrivate where
  map : List MapPattern
  defaultXl : Option Str
  mapped : List Str

def slash : Str := ['/']

def star : Str := ['*']

/-- `strncmp` over `dir_len` characters, and then a slash or the end of the path. -/
def MapPattern.matchesPath (m : MapPattern) (path : Str) : Bool :=
  path.take m.dirLen == m.directory.take m.dirLen &&
    ((path.drop m.dirLen).head?.getD '/' == '/')

def getMappingSubvolFromPath (priv : MapPrivate) (path : Str) : Option Str :=
  if path = slash then
    none
  else
    match priv.map.find? (fun m => m.matchesPath path) with
    | some m => some m.xl
    | none => priv.defaultXl

def checkMultipleVolumeEntry (priv : MapPrivate) (subvol : Str) : Option MapPrivate :=
  if subvol ∈ priv.mapped then none else some { priv with mapped := subvol :: priv.mapped }

/-- The check of a directory that is not the star. -/
def topLevel (directory : Str) : Bool :=
  directory.head? == some '/' && '/' ∉ directory.tail.dropLast

/-- The entry of the list; a slash at the end does not count. -/
def newPattern (directory subvol : Str) : MapPattern where
  xl := subvol
  directory := directory
  dirLen :=
    if directory.getLast? = some '/' then directory.length - 1 else directory.length

/-- `none` is a configuration that is refused. -/
def verifyDirAndAssignSubvol (children : List Str) (priv : MapPrivate) (directory subvol : Str) :
    Option MapPrivate :=
  if directory ≠ star ∧ topLevel directory = false ∨ subvol ∉ children then
    none
  else
    (checkMultipleVolumeEntry priv subvol).bind (fun priv =>
      if directory = star then
        if priv.defaultXl.isSome then none else some { priv with defaultXl := some subvol }
      else
        some { priv with map := priv.map ++ [newPattern directory subvol] })

def assignDefaultSubvol (children : List Str) (priv : MapPrivate) (defaultXl : Str) :
    Option MapPrivate :=
  if defaultXl ∈ children then
    (checkMultipleVolumeEntry priv defaultXl).map
      (fun priv => { priv with defaultXl := some defaultXl })
  else
    none

/-- Without a default, the first subvolume that is not mapped becomes it. -/
def verifyIfAllSubvolumesGotUsed (children : List Str) (priv : MapPrivate) : MapPrivate :=
  { priv with
    defaultXl := priv.defaultXl.or (children.find? (fun child => child ∉ priv.mapped)) }

/-- The pairs of the option `map-directory`, and the option `default-volume`. -/
def init (children : List Str) (pairs : List (Str × Str)) (defaultVolume : Option Str) :
    Option MapPrivate :=
  (run (fun priv p => verifyDirAndAssignSubvol children priv p.1 p.2) ⟨[], none, []⟩ pairs).bind
    (fun priv =>
      (defaultVolume.elim (some priv) (assignDefaultSubvol children priv)).map
        (verifyIfAllSubvolumesGotUsed children))

/-- The first component of a path that starts with a slash. -/
def component (path : Str) : Str :=
  path.tail.takeWhile (· ≠ '/')

theorem takeWhile_eq_iff {name p : Str} (hname : '/' ∉ name) :
    p.takeWhile (· ≠ '/') = name ↔
      p.take name.length = name ∧ (p.drop name.length).head?.getD '/' = '/' := by
  induction name generalizing p with
  | nil =>
    cases p with
    | nil => simp
    | cons d p => by_cases hd : d = '/' <;> simp [hd]
  | cons c name ih =>
    obtain ⟨hc, hrest⟩ := not_or.mp (mem_cons.not.mp hname)
    cases p with
    | nil => simp
    | cons d p =>
      by_cases hd : d = c
      · subst hd
        simpa [Ne.symm hc] using ih hrest
      · by_cases hslash : d = '/' <;> simp [hd, hslash, hc]

/-- The stored length is that of the slash and the first component. -/
theorem newPattern_spec {directory : Str} (htop : topLevel directory = true)
    (hroot : directory ≠ slash) (subvol : Str) :
    (newPattern directory subvol).dirLen = (component directory).length + 1 ∧
      directory.take ((component directory).length + 1) = '/' :: component directory := by
  simp only [topLevel, Bool.and_eq_true, beq_iff_eq, decide_eq_true_eq] at htop
  obtain ⟨hhead, hinner⟩ := htop
  obtain ⟨rest, rfl⟩ := head?_eq_some_iff.mp hhead
  rw [tail_cons] at hinner
  have hne : rest ≠ [] := fun hnil => hroot (congrArg (List.cons '/') hnil)
  obtain ⟨name, last, rfl⟩ : ∃ name last, rest = name ++ [last] :=
    ⟨rest.dropLast, rest.getLast hne, (dropLast_concat_getLast hne).symm⟩
  rw [dropLast_concat] at hinner
  have hall : ∀ c ∈ name, (decide (c ≠ '/')) = true := by
    intro c hc
    exact decide_eq_true (fun heq => hinner (heq ▸ hc))
  rw [component, tail_cons, takeWhile_append_of_pos hall]
  have hend : ('/' :: (name ++ [last])).getLast? = some last := getLast?_concat (l := '/' :: name)
  by_cases hlast : last = '/'
  · subst hlast
    simp [newPattern, hend]
  · simp [newPattern, hend, hlast, take_of_length_le]

theorem slash_notMem_component (path : Str) : '/' ∉ component path := by
  intro hmem
  have := List.all_takeWhile (p := (· ≠ '/')) (l := path.tail)
  simpa using all_eq_true.mp this _ hmem

theorem newPattern_matchesPath {directory : Str} (htop : topLevel directory = true)
    (hroot : directory ≠ slash) (subvol p : Str) :
    (newPattern directory subvol).matchesPath ('/' :: p) =
      (component directory == component ('/' :: p)) := by
  obtain ⟨hlen, htake⟩ := newPattern_spec htop hroot subvol
  have hdir : (newPattern directory subvol).directory = directory := rfl
  have hcomp : component ('/' :: p) = p.takeWhile (· ≠ '/') := rfl
  rw [Bool.eq_iff_iff, beq_iff_eq, MapPattern.matchesPath, hlen, hdir, htake, hcomp,
    eq_comm (a := component directory), takeWhile_eq_iff (slash_notMem_component directory)]
  simp

theorem checkMultipleVolumeEntry_map {priv priv' : MapPrivate} {subvol : Str}
    (h : checkMultipleVolumeEntry priv subvol = some priv') : priv'.map = priv.map := by
  unfold checkMultipleVolumeEntry at h
  split_ifs at h
  cases h
  rfl

/-- The list has the pairs with a directory, in their order. -/
def Assigned (pairs : List (Str × Str)) (priv : MapPrivate) : Prop :=
  priv.map = (pairs.filter (fun p => p.1 ≠ star)).map (fun p => newPattern p.1 p.2) ∧
    ∀ p ∈ pairs, p.1 ≠ star → topLevel p.1 = true

theorem Assigned.step {children : List Str} {pairs : List (Str × Str)} {priv priv' : MapPrivate}
    {p : Str × Str} (h : Assigned pairs priv)
    (hstep : verifyDirAndAssignSubvol children priv p.1 p.2 = some priv') :
    Assigned (pairs ++ [p]) priv' := by
  unfold verifyDirAndAssignSubvol at hstep
  split at hstep
  · cases hstep
  rename_i hrefused
  obtain ⟨hdir, _⟩ := not_or.mp hrefused
  rw [not_and, Bool.not_eq_false] at hdir
  refine ⟨?_, forall_mem_append.mpr ⟨h.2, forall_mem_singleton.mpr hdir⟩⟩
  obtain ⟨mid, hmid, hstep⟩ := Option.bind_eq_some_iff.mp hstep
  have hmap : mid.map = priv.map := checkMultipleVolumeEntry_map hmid
  split_ifs at hstep with hstar
  · cases hstep
    simp [hstar, hmap, h.1]
  · cases hstep
    simp [hstar, hmap, h.1]

/-- The subvolume of the first pair with this component, or else the default. -/
def route (pairs : List (Str × Str)) (defaultXl : Option Str) (name : Str) : Option Str :=
  match pairs.find? (fun p => p.1 ≠ star && component p.1 == name) with
  | some p => some p.2
  | none => defaultXl

/-- A path goes where its first component is mapped to. -/
theorem routesByComponent (children : List Str) (pairs : List (Str × Str))
    (defaultVolume : Option Str) (priv : MapPrivate)
    (hinit : init children pairs defaultVolume = some priv) (hroot : ∀ p ∈ pairs, p.1 ≠ slash)
    (path : Str) (habs : path.head? = some '/') (hpath : path ≠ slash) :
    getMappingSubvolFromPath priv path = route pairs priv.defaultXl (component path) := by
  obtain ⟨p, rfl⟩ := head?_eq_some_iff.mp habs
  obtain ⟨mid, hrun, hdefault⟩ := Option.bind_eq_some_iff.mp hinit
  obtain ⟨hmap, htop⟩ : Assigned pairs mid :=
    run_history _ ⟨rfl, nofun⟩ (fun _ _ _ _ hm hs => hm.step hs) hrun
  have hkept : priv.map = mid.map := by
    obtain ⟨last, hlast, rfl⟩ := Option.map_eq_some_iff.mp hdefault
    cases defaultVolume with
    | none =>
      cases hlast
      rfl
    | some volume =>
      simp only [Option.elim_some, assignDefaultSubvol] at hlast
      split_ifs at hlast
      obtain ⟨checked, hchecked, rfl⟩ := Option.map_eq_some_iff.mp hlast
      exact (checkMultipleVolumeEntry_map hchecked :)
  have hfind : priv.map.find? (fun m => m.matchesPath ('/' :: p)) =
      (pairs.find? (fun q => q.1 ≠ star && component q.1 == component ('/' :: p))).map
        (fun q => newPattern q.1 q.2) := by
    rw [hkept, hmap, find?_map, find?_filter, ← head?_filter, ← head?_filter]
    congr 2
    refine filter_congr ?_
    intro q hq
    by_cases hstar : q.1 = star
    · simp [hstar]
    · rw [Bool.eq_iff_iff]
      simp [hstar, newPattern_matchesPath (htop q hq hstar) (hroot q hq)]
  rw [getMappingSubvolFromPath, if_neg hpath, hfind, route]
  cases pairs.find? (fun q => q.1 ≠ star && component q.1 == component ('/' :: p)) <;> rfl

def threeChildren : List Str :=
  [['a'], ['b'], ['c']]

def threePairs : List (Str × Str) :=
  [("/docs/".toList, ['a']), ("/img".toList, ['b']), (star, ['c'])]

theorem routesByComponent_threePairs :
    ∃ priv, init threeChildren threePairs none = some priv ∧
      getMappingSubvolFromPath priv "/docs/x".toList = some ['a'] ∧
      getMappingSubvolFromPath priv "/docs2".toList = some ['c'] := by
  refine ⟨_, rfl, ?_, ?_⟩
  · exact (routesByComponent threeChildren threePairs none _ rfl (by decide) _ rfl
      (by decide)).trans rfl
  · exact (routesByComponent threeChildren threePairs none _ rfl (by decide) _ rfl
      (by decide)).trans rfl

end GlusterFS.Map
