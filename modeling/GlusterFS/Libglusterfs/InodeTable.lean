import GlusterFS.Lib.Run
import Mathlib.Algebra.GroupWithZero.Nat
import Mathlib.Algebra.Ring.Int.Defs
import Mathlib.Data.List.Find

/-!
# The lookup counts of the inode table

Several inode objects can stand for one inode number.  Only one of them is hashed, and it has the
count of the lookups: an object that is linked in its place takes the count over, and a call on
an object that is not hashed is redirected to the one that is.

An object may be linked again only under the number it has, but an object with number 0 counts
as one that was never linked.  As long as no object is linked with number 0, the count is the
lookups less the forgets for the number (`conserved_of_legal`).
-/

namespace GlusterFS.InodeTable

open Run List Function

/--
The fields of the objects, and the objects that are hashed, the latest first.  A bucket of
the hash is the part of the list with its number.
-/
structure Table where
  ino : Nat → Nat
  nlookup : Nat → Nat
  bucket : Nat → Nat
  hashed : List Nat

variable (hashInode : Nat → Nat)

def inodeSearch (t : Table) (ino : Nat) : Option Nat :=
  t.hashed.find? (fun o => t.bucket o = hashInode ino ∧ t.ino o = ino)

def inodeReplace (t : Table) (oldi newi : Nat) : Table :=
  { t with
    nlookup := update (update t.nlookup newi (t.nlookup oldi)) oldi 0
    hashed := t.hashed.erase oldi }

def inodeHash (t : Table) (o : Nat) : Table :=
  { t with
    bucket := update t.bucket o (hashInode (t.ino o))
    hashed := o :: t.hashed.erase o }

/-- A failed assertion gives no table. -/
def inodeLink (t : Table) (o stIno : Nat) : Option Table :=
  if t.ino o ≠ 0 ∧ t.ino o ≠ stIno then
    none
  else
    let t := { t with ino := update t.ino o stIno }
    some (inodeHash hashInode
      (match inodeSearch hashInode t stIno with
        | none => t
        | some old => if old = o then t else inodeReplace t old o) o)

/-- The object that `inode_lookup` and `inode_forget` change, if there is one. -/
def counted (t : Table) (o : Nat) : Option Nat :=
  if o ∈ t.hashed then some o else inodeSearch hashInode t (t.ino o)

def inodeLookup (t : Table) (o : Nat) : Option Table :=
  (counted hashInode t o).map (fun o' =>
    { t with nlookup := update t.nlookup o' ((t.nlookup o' + 1) % 2 ^ 64) })

def inodeForget (t : Table) (o nlookup : Nat) : Option Table :=
  (counted hashInode t o).bind (fun o' =>
    if t.nlookup o' < nlookup then
      none
    else
      some { t with
        nlookup := update t.nlookup o' (if nlookup = 0 then 0 else t.nlookup o' - nlookup) })

inductive Event where
  | link (o stIno : Nat)
  | lookup (o : Nat)
  | forget (o nlookup : Nat)

/-- A table, and the lookups less the forgets for each number since it was hashed anew. -/
structure State where
  table : Table
  count : Nat → Int

def step (s : State) : Event → Option State
  | .link o stIno => (inodeLink hashInode s.table o stIno).map (fun t => ⟨t,
      if (inodeSearch hashInode s.table stIno).isNone then update s.count stIno 0 else s.count⟩)
  | .lookup o =>
    let ino := s.table.ino o
    (inodeLookup hashInode s.table o).map (fun t => ⟨t, update s.count ino (s.count ino + 1)⟩)
  | .forget o n =>
    let ino := s.table.ino o
    (inodeForget hashInode s.table o n).map (fun t => ⟨t, update s.count ino (s.count ino - n)⟩)

def start : State :=
  ⟨⟨fun _ => 0, fun _ => 0, fun _ => 0, []⟩, fun _ => 0⟩

def Conserved (s : State) : Prop :=
  ∀ ino, ∀ o ∈ inodeSearch hashInode s.table ino, s.table.nlookup o = s.count ino

/-- The calls that are made, with a number other than 0 in each link. -/
def Legal (s : State) : Event → Prop
  | .link o stIno => stIno ≠ 0 ∧ (s.table.ino o = 0 ∨ s.table.ino o = stIno)
  | .lookup o => s.table.ino o ≠ 0 ∧ s.count (s.table.ino o) + 1 < 2 ^ 64
  | .forget o n => s.table.ino o ≠ 0 ∧ 0 < n ∧ n ≤ s.count (s.table.ino o)

instance (s : State) : ∀ e, Decidable (Legal s e) := by
  rintro (_ | _) <;> dsimp only [Legal] <;> infer_instance

structure Inv (t : Table) (count : Nat → Int) : Prop where
  nodup : t.hashed.Nodup
  bucket : ∀ o ∈ t.hashed, t.bucket o = hashInode (t.ino o)
  linked : ∀ o ∈ t.hashed, t.ino o ≠ 0
  unique : ∀ o ∈ t.hashed, ∀ o' ∈ t.hashed, t.ino o = t.ino o' → o = o'
  count : ∀ o ∈ t.hashed, t.nlookup o = count (t.ino o)
  stale : ∀ o ∉ t.hashed, t.nlookup o = 0
  known : ∀ o, t.ino o ≠ 0 → ∃ o' ∈ t.hashed, t.ino o' = t.ino o

variable {hashInode} {t : Table} {count : Nat → Int}

variable {o ino : Nat}

section

variable (h : Inv hashInode t count)
include h

theorem Inv.search_eq : inodeSearch hashInode t ino = some o ↔ o ∈ t.hashed ∧ t.ino o = ino := by
  constructor
  · intro hfind
    have := find?_some hfind
    exact ⟨mem_of_find?_eq_some hfind, by simp_all⟩
  · rintro ⟨ho, rfl⟩
    cases hfind : inodeSearch hashInode t (t.ino o) with
    | none =>
      have := find?_eq_none.mp hfind o ho
      simp [h.bucket o ho] at this
    | some o' =>
      have := find?_some hfind
      rw [h.unique o' (mem_of_find?_eq_some hfind) o ho (by simp_all)]

theorem Inv.counted_eq (ho : t.ino o ≠ 0) :
    ∃ o' ∈ t.hashed, t.ino o' = t.ino o ∧ counted hashInode t o = some o' := by
  rw [counted]
  split_ifs with hmem
  · exact ⟨o, hmem, rfl, rfl⟩
  · obtain ⟨o', ho', hino⟩ := h.known o ho
    exact ⟨o', ho', hino, h.search_eq.mpr ⟨ho', hino⟩⟩

theorem Inv.setNlookup {n : Nat} {c : Int} (ho : o ∈ t.hashed) (hn : n = c) :
    Inv hashInode { t with nlookup := update t.nlookup o n } (update count (t.ino o) c) := by
  constructor <;> grind [update_apply, Inv]

/-- The object that is linked is the hashed one from then on, with the count of its number. -/
theorem Inv.relink {nlookup : Nat → Nat} {hashed : List Nat} {count' : Nat → Int} (hne : ino ≠ 0)
    (hino : t.ino o = 0 ∨ t.ino o = ino) (hnodup : hashed.Nodup)
    (hmem : ∀ x, x ∈ hashed ↔ x = o ∨ x ∈ t.hashed ∧ t.ino x ≠ ino) (hself : nlookup o = count' ino)
    (hother : ∀ x ≠ o, nlookup x = if x ∈ t.hashed ∧ t.ino x = ino then 0 else t.nlookup x)
    (hcount : ∀ i ≠ ino, count' i = count i) :
    Inv hashInode ⟨update t.ino o ino, nlookup, update t.bucket o (hashInode ino), hashed⟩
      count' := by
  obtain ⟨_, hbucket, hlinked, hunique, hcnt, hstale, hknown⟩ := h
  constructor <;> simp only [update_apply] <;> grind

end

theorem Inv.step {s : State} (h : Inv hashInode s.table s.count) {e : Event} (he : Legal s e) :
    ∃ s', step hashInode s e = some s' ∧ Inv hashInode s'.table s'.count := by
  cases e with
  | lookup o =>
    obtain ⟨o', ho', hino, hcounted⟩ := h.counted_eq he.1
    have := h.count o' ho'
    have := he.2
    rw [InodeTable.step, inodeLookup, hcounted, ← hino]
    exact ⟨_, rfl, h.setNlookup ho' (by grind)⟩
  | forget o n =>
    obtain ⟨o', ho', hino, hcounted⟩ := h.counted_eq he.1
    have := h.count o' ho'
    have := he.2
    rw [InodeTable.step, inodeForget, hcounted, ← hino, Option.bind_some, if_neg (by grind)]
    exact ⟨_, rfl, h.setNlookup ho' (by grind)⟩
  | link o ino =>
    obtain ⟨hne, hino⟩ := he
    have hassert : ¬ (s.table.ino o ≠ 0 ∧ s.table.ino o ≠ ino) := by grind
    have hsame : inodeSearch hashInode { s.table with ino := update s.table.ino o ino } ino =
        inodeSearch hashInode s.table ino := by
      have hfield : ∀ x ∈ s.table.hashed, update s.table.ino o ino x = s.table.ino x := by
        grind [update_apply, Inv]
      exact List.find?_congr (fun x hx => by simp only [hfield x hx])
    simp only [InodeTable.step, inodeLink, if_neg hassert, hsame]
    cases hsearch : inodeSearch hashInode s.table ino with
    | none =>
      have hnone : ∀ x ∈ s.table.hashed, s.table.ino x ≠ ino := by
        intro x hx hxino
        simp [h.search_eq.mpr ⟨hx, hxino⟩] at hsearch
      refine ⟨_, rfl, ?_⟩
      simp only [inodeHash, update_self]
      refine h.relink hne hino ?_ ?_ ?_ ?_ ?_ <;> grind [update_apply, Inv]
    | some old =>
      obtain ⟨hold, hoino⟩ := h.search_eq.mp hsearch
      by_cases heq : old = o
      · simp only [if_pos heq]
        refine ⟨_, rfl, ?_⟩
        simp only [inodeHash, update_self]
        refine h.relink hne hino ?_ ?_ ?_ ?_ ?_ <;> grind [Inv]
      · simp only [if_neg heq]
        refine ⟨_, rfl, ?_⟩
        simp only [inodeHash, inodeReplace, update_self]
        refine h.relink hne hino ?_ ?_ ?_ ?_ ?_ <;> grind [update_apply, Inv]

/-- No lookup is lost, in every run. -/
theorem conserved_of_legal (events : List Event)
    (hlegal : AllSteps (step hashInode) Legal start events) :
    ∃ s, run (step hashInode) start events = some s ∧ Conserved hashInode s := by
  have hstart : Inv hashInode start.table start.count := by constructor <;> simp [start]
  obtain ⟨s, hrun, hs⟩ :=
    exists_run (step hashInode) (fun s e hs he => Inv.step hs he) hstart hlegal
  refine ⟨s, hrun, ?_⟩
  intro ino o ho
  obtain ⟨hmem, rfl⟩ := hs.search_eq.mp ho
  exact hs.count o hmem

/-- The second object replaces the first, which the next lookup is still made on. -/
def replaced : List Event :=
  [.link 1 5, .lookup 1, .lookup 1, .link 2 5, .lookup 1, .forget 2 1]

theorem conserved_replaced : ∃ s, run (step id) start replaced = some s ∧ Conserved id s :=
  conserved_of_legal replaced (by decide +kernel)

/-- The lookup for number 0 is counted for number 7. -/
def linkedAgain : List Event :=
  [.link 1 0, .lookup 1, .link 1 7]

theorem not_conserved_linkedAgain :
    ∃ s, run (step id) start linkedAgain = some s ∧ ¬ Conserved id s := by
  obtain ⟨s, hrun, hfind, hcount⟩ : ∃ s ∈ run (step id) start linkedAgain,
      inodeSearch id s.table 7 = some 1 ∧ (s.table.nlookup 1 : Int) ≠ s.count 7 := by
    decide +kernel
  exact ⟨s, hrun, fun h => hcount (h 7 1 hfind)⟩

end GlusterFS.InodeTable
