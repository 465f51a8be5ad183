import GlusterFS.Lib.Bytes
import GlusterFS.Lib.Run

/-!
# The cache of symbolic links

The first answer to a `readlink`, or the target that a link was made with, is kept for the next
`readlink`, until a lookup sees another change time.  But an answer from the cache is counted with
the byte that ends the string, so it is never the one that the child would give; and a lookup that
fails frees the cache and leaves it in the context.  The translator is transparent as long as no
`readlink` finds a target in the cache and no call finds a cache that was freed
(`transparent_iff`).
-/

namespace GlusterFS.SymlinkCache

open Bytes Run List

structure Cache where
  ctime : Int
  readlink : Option (List Byte)
deriving DecidableEq

inductive Ctx where
  | unset
  | set (sc : Cache)
  | freed
deriving DecidableEq

/-- The context, and the answers to `readlink` with the sizes that were asked for. -/
structure State where
  ctx : Ctx
  answers : List (Nat × Int × List Byte)

/-- A cache that was freed must not be used. -/
def ctxGet : Ctx → Option (Option Cache)
  | .unset => some none
  | .set sc => some (some sc)
  | .freed => none

def scCacheUpdate (sc : Option Cache) (link : List Byte) : Ctx :=
  match sc with
  | none => .unset
  | some sc => .set { sc with readlink := sc.readlink.or link }

def scCacheFlush (sc : Option Cache) : Ctx :=
  if sc.isSome then .freed else .unset

def scCacheValidate (sc : Option Cache) (ctime : Int) : Ctx :=
  match sc with
  | none => .set ⟨ctime, none⟩
  | some sc => .set ⟨ctime, if sc.ctime = ctime then sc.readlink else none⟩

def childReadlink (target : List Byte) (size : Nat) : Int × List Byte :=
  (min size target.length, target.take size)

/-- The calls, with the change time in the reply of the child if it succeeded. -/
inductive Event where
  | lookup (reply : Option Int)
  | symlink (reply : Option Int)
  | readlink (size : Nat)

def scReadlink (target : List Byte) (sc : Option Cache) (size : Nat) : Ctx × Int × List Byte :=
  match sc.bind Cache.readlink with
  | some link => (sc.elim .unset .set, link.length + 1, link)
  | none =>
    let reply := childReadlink target size
    (if 0 < reply.1 then scCacheUpdate sc reply.2 else sc.elim .unset .set, reply)

def step (target : List Byte) (s : State) : Event → Option State
  -- a `symlink` that failed does not look at the context
  | .symlink none => some s
  | .symlink (some ctime) =>
    (ctxGet s.ctx).map (fun _ => { s with ctx := .set ⟨ctime, some target⟩ })
  | .lookup (some ctime) =>
    (ctxGet s.ctx).map (fun sc => { s with ctx := scCacheValidate sc ctime })
  | .lookup none => (ctxGet s.ctx).map (fun sc => { s with ctx := scCacheFlush sc })
  | .readlink size =>
    (ctxGet s.ctx).map (fun sc =>
      let r := scReadlink target sc size
      ⟨r.1, s.answers ++ [(size, r.2)]⟩)

def start : State :=
  ⟨.unset, []⟩

def Transparent (target : List Byte) (s : State) : Prop :=
  ∀ p ∈ s.answers, p.2 = childReadlink target p.1
deriving Decidable

def Misses (s : State) (e : Event) : Prop :=
  e = .symlink none ∨
    ∃ sc ∈ ctxGet s.ctx, ∀ size, e = .readlink size → sc.bind Cache.readlink = none

variable {target : List Byte} {s s' : State} {e : Event}

theorem hit_ne (link : List Byte) (size : Nat) :
    ((link.length + 1 : Int), link) ≠ childReadlink target size := by
  intro h
  obtain ⟨hret, rfl⟩ := Prod.mk.inj h
  rw [length_take] at hret
  omega

theorem Transparent.step (h : Transparent target s) (he : Misses s e) :
    ∃ s', step target s e = some s' ∧ Transparent target s' := by
  obtain rfl | ⟨sc, hsc, hmiss⟩ := he
  · exact ⟨s, rfl, h⟩
  rcases e with (_ | _) | (_ | _) | size
  case readlink =>
    refine ⟨_, Option.map_eq_some_iff.mpr ⟨sc, hsc, rfl⟩, ?_⟩
    simpa [Transparent, or_imp, forall_and, scReadlink, hmiss size rfl] using h
  case symlink.none => exact ⟨s, rfl, h⟩
  all_goals exact ⟨_, Option.map_eq_some_iff.mpr ⟨sc, hsc, rfl⟩, h⟩

theorem not_transparent_of_hit (he : ¬ Misses s e) (hstep : step target s e = some s') :
    ¬ Transparent target s' := by
  simp only [Misses, not_or, not_exists, not_and, not_forall] at he
  obtain ⟨hne, hhit⟩ := he
  rcases e with (_ | _) | (_ | _) | size
  case symlink.none => exact absurd rfl hne
  all_goals
    obtain ⟨sc, hsc, rfl⟩ := Option.map_eq_some_iff.mp hstep
    obtain ⟨size, heq, hhit⟩ := hhit sc hsc
    cases heq
  obtain ⟨link, hlink⟩ := Option.ne_none_iff_exists'.mp hhit
  intro h
  refine hit_ne link size (h (size, _) (mem_append_right _ ?_))
  simp [scReadlink, hlink]

/-- Transparent exactly as long as no call hits. -/
theorem transparent_iff (target : List Byte) (events : List Event) :
    (∀ before, before <+: events → ∃ s, run (step target) start before = some s ∧
      Transparent target s) ↔ AllSteps (step target) Misses start events :=
  always_iff_allSteps (step target) (P := fun _ s => Transparent target s)
    (by simp [Transparent, start]) (fun _ _ _ => Transparent.step) (fun _ _ => id)
    (fun _ _ _ _ _ => not_transparent_of_hit) events

/-- The second of two calls is answered with one byte more. -/
theorem not_transparent_twice :
    ∃ s, run (step [47, 97]) start [.lookup (some 5), .readlink 9, .readlink 9] = some s ∧
      s.answers = [(9, 2, [47, 97]), (9, 3, [47, 97])] ∧ ¬ Transparent [47, 97] s :=
  ⟨_, rfl, rfl, by decide⟩

end GlusterFS.SymlinkCache
