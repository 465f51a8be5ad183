import Mathlib.Data.List.Infix

/-!
# A tree of files

The names of a file system as a finite map from paths to objects, with the calls that change them:
`make` for a new directory or file, `link`, `unlink`, `rmdir` and `rename`.  A file is told from
the others by its value, so that two names with one value are two links to one file.

A file system `Restricts` another one when it has all the directories and some of the files, at
the same names.  What is done to the larger one can be done to the smaller one: a call about a
directory, or about a file that is kept, goes through and leaves a restriction again, and a call
about a file that is not kept need not be made.
-/

namespace GlusterFS.FileTree

open List

universe u v

inductive Object (α : Type u) where
  | dir
  | file (a : α)
deriving DecidableEq

abbrev Tree (ν : Type u) (α : Type v) := List (List ν × Object α)

inductive Refusal where
  | noEntry
  | notDir
  | exist
  | isDir
  | notEmpty
  | invalid
  | notPermitted
  | busy
deriving DecidableEq

variable {ν : Type u} {old new q : List ν}

def Apart (p q : List ν) : Prop :=
  ¬ p <+: q ∧ ¬ q <+: p

theorem Apart.not_both (h : Apart old new) (hold : old <+: q) : ¬ new <+: q := by
  intro hnew
  rcases prefix_or_prefix_of_prefix hold hnew with hpre | hpre
  · exact h.1 hpre
  · exact h.2 hpre

theorem append_drop_eq_iff (r : List ν) (hq : new <+: q) :
    new ++ r = q ↔ old ++ r = old ++ q.drop new.length := by
  obtain ⟨r', rfl⟩ := hq
  simp

variable {α : Type v} [DecidableEq ν]

def get (t : Tree ν α) (p : List ν) : Option (Object α) :=
  (t.find? (fun e => e.1 = p)).map Prod.snd

def make (t : Tree ν α) (p : List ν) (o : Object α) : Except Refusal (Tree ν α) :=
  match get t p, get t p.dropLast with
  | some _, _ => .error .exist
  | none, some .dir => .ok ((p, o) :: t)
  | none, some (.file _) => .error .notDir
  | none, none => .error .noEntry

def remove (t : Tree ν α) (p : List ν) : Tree ν α :=
  t.filter (fun e => e.1 ≠ p)

def unlink (t : Tree ν α) (p : List ν) : Except Refusal (Tree ν α) :=
  match get t p with
  | some (.file _) => .ok (remove t p)
  | some .dir => .error .isDir
  | none => .error .noEntry

def isEmpty (t : Tree ν α) (p : List ν) : Bool :=
  t.all (fun e => ¬ (p <+: e.1 ∧ e.1 ≠ p))

def rmdir (t : Tree ν α) (p : List ν) : Except Refusal (Tree ν α) :=
  match get t p with
  | some .dir =>
    if p = [] then .error .busy
    else if isEmpty t p then .ok (remove t p)
    else .error .notEmpty
  | some (.file _) => .error .notDir
  | none => .error .noEntry

def link (t : Tree ν α) (old new : List ν) : Except Refusal (Tree ν α) :=
  match get t old with
  | some (.file a) => make t new (.file a)
  | some .dir => .error .notPermitted
  | none => .error .noEntry

/-- What is at a path and below it takes another place, and what was there is gone. -/
def move (t : Tree ν α) (old new : List ν) : Tree ν α :=
  (t.filter (fun e => ¬ new <+: e.1)).map
    (fun e => (if old <+: e.1 then new ++ e.1.drop old.length else e.1, e.2))

/-- The object at `old` may take the place of what is at `new`. -/
def replace [DecidableEq α] (t : Tree ν α) (old new : List ν) :
    Option (Object α) → Option (Object α) → Except Refusal (Tree ν α)
  | none, _ => .error .noEntry
  | some _, none => .ok (move t old new)
  | some .dir, some .dir => if isEmpty t new then .ok (move t old new) else .error .notEmpty
  | some .dir, some (.file _) => .error .notDir
  | some (.file _), some .dir => .error .isDir
  | some (.file a), some (.file b) => if a = b then .ok t else .ok (move t old new)

/-- Of two names for one file both stay, and nothing is moved below itself. -/
def rename [DecidableEq α] (t : Tree ν α) (old new : List ν) : Except Refusal (Tree ν α) :=
  match get t old, get t new.dropLast with
  | none, _ => .error .noEntry
  | some _, none => .error .noEntry
  | some _, some (.file _) => .error .notDir
  | some _, some .dir =>
    if old = new then .ok t
    else if old <+: new then .error .invalid
    else if new <+: old then .error .notEmpty
    else replace t old new (get t old) (get t new)

@[simp] theorem get_nil (p : List ν) : get ([] : Tree ν α) p = none := by
  rfl

theorem get_cons (e : List ν × Object α) (t : Tree ν α) (p : List ν) :
    get (e :: t) p = if e.1 = p then some e.2 else get t p := by
  unfold get
  by_cases h : e.1 = p <;> simp [h]

variable {t t' : Tree ν α} {p : List ν} {o : Object α} {a : α}

theorem get_eq_none_iff : get t p = none ↔ ∀ e ∈ t, e.1 ≠ p := by
  simp [get]

theorem get_remove (t : Tree ν α) (p q : List ν) :
    get (remove t p) q = if q = p then none else get t q := by
  induction t with
  | nil => simp [remove]
  | cons e t ih =>
    unfold remove at ih ⊢
    rw [filter_cons, get_cons]
    by_cases he : e.1 = p
    · subst he
      rw [if_neg (by simp), ih]
      by_cases hq : q = e.1
      · simp [hq]
      · rw [if_neg hq, if_neg (Ne.symm hq), if_neg hq]
    · rw [if_pos (by simpa using he), get_cons, ih]
      by_cases hq : q = p
      · subst hq
        simp [he]
      · simp [hq]

theorem get_remove_of_none (h : get t p = none) (q : List ν) : get (remove t p) q = get t q := by
  rw [get_remove]
  split_ifs with hq
  · rw [hq, h]
  · rfl

theorem isEmpty_iff : isEmpty t p = true ↔ ∀ r, r ≠ [] → get t (p ++ r) = none := by
  simp only [isEmpty, all_eq_true, decide_eq_true_eq, not_and, not_not]
  constructor
  · intro h r hr
    rw [get_eq_none_iff]
    rintro e he heq
    have := h e he (heq ▸ prefix_append p r)
    rw [heq] at this
    exact hr (append_right_eq_self.mp this)
  · rintro h e he ⟨r, hr⟩
    by_contra hne
    have hrest : r ≠ [] := by
      rintro rfl
      rw [append_nil] at hr
      exact hne hr.symm
    exact get_eq_none_iff.mp (h r hrest) e he hr.symm

theorem get_move (t : Tree ν α) (h : Apart old new) (q : List ν) :
    get (move t old new) q =
      if new <+: q then get t (old ++ q.drop new.length)
      else if old <+: q then none
      else get t q := by
  induction t with
  | nil => simp [move]
  | cons e t ih =>
    have hbelow : old <+: old ++ q.drop new.length := prefix_append _ _
    unfold move at ih ⊢
    rw [filter_cons]
    by_cases hnew : new <+: e.1
    · -- an entry whose place is taken
      rw [if_neg (by simpa using hnew), ih]
      have hne : e.1 ≠ old ++ q.drop new.length := fun heq =>
        h.not_both hbelow (heq ▸ hnew)
      split_ifs with hq
      · rw [get_cons, if_neg hne]
      · rfl
      · have hne' : e.1 ≠ q := fun heq => hq (heq ▸ hnew)
        rw [get_cons, if_neg hne']
    · rw [if_pos (by simpa using hnew), map_cons, get_cons, ih]
      by_cases hold : old <+: e.1
      · -- an entry that moves
        obtain ⟨r, hr⟩ := hold
        have hkey : (if old <+: e.1 then new ++ e.1.drop old.length else e.1) = new ++ r := by
          rw [if_pos ⟨r, hr⟩, ← hr, drop_left]
        simp only [hkey]
        by_cases hq : new <+: q
        · rw [if_pos hq, if_pos hq, get_cons, ← hr]
          exact if_congr (append_drop_eq_iff r hq) rfl rfl
        · rw [if_neg (fun heq => hq ⟨r, heq⟩), if_neg hq, if_neg hq, get_cons]
          split_ifs with hq' heq
          · rfl
          · exact absurd (heq ▸ ⟨r, hr⟩) hq'
          · rfl
      · have hne : e.1 ≠ old ++ q.drop new.length := fun heq => hold (heq ▸ hbelow)
        split_ifs with heq hq hq' hq
        · exact absurd (heq ▸ hq) hnew
        · exact absurd (heq ▸ hq') hold
        · rw [get_cons, if_pos heq]
        · rw [get_cons, if_neg hne]
        · rfl
        · rw [get_cons, if_neg heq]

section

/-- The root is a directory, and a name is in a directory. -/
structure WellFormed (t : Tree ν α) : Prop where
  root : get t [] = some .dir
  parent : ∀ p x o, get t (p ++ [x]) = some o → get t p = some .dir

variable {r : List ν}

variable (h : WellFormed t)
include h

theorem WellFormed.dir_above (hr : r ≠ []) (hget : get t (p ++ r) = some o) :
    get t p = some .dir := by
  induction r using reverseRecOn generalizing o with
  | nil => exact absurd rfl hr
  | append_singleton r x ih =>
    rw [← append_assoc] at hget
    have hpar := h.parent (p ++ r) x o hget
    by_cases hnil : r = []
    · subst hnil
      rwa [append_nil] at hpar
    · exact ih hnil hpar

theorem WellFormed.get_below (hdir : get t p ≠ some .dir) (hr : r ≠ []) :
    get t (p ++ r) = none := by
  cases hget : get t (p ++ r) with
  | none => rfl
  | some o => exact absurd (h.dir_above hr hget) hdir

theorem WellFormed.get_move_file (hap : Apart old new) (hold : get t old = some (.file a))
    (hnew : get t new ≠ some .dir) (q : List ν) :
    get (move t old new) q =
      if q = new then some (.file a) else if q = old then none else get t q := by
  rw [get_move t hap]
  by_cases hq : new <+: q
  · obtain ⟨r, rfl⟩ := hq
    rw [if_pos (prefix_append _ _), drop_left]
    by_cases hr : r = []
    · subst hr
      simp [hold]
    · have hne : ¬ new ++ r = new := fun heq => hr (append_right_eq_self.mp heq)
      have hne' : ¬ new ++ r = old := fun heq => hap.2 (heq ▸ prefix_append _ _)
      rw [if_neg hne, if_neg hne', h.get_below (by simp [hold]) hr, h.get_below hnew hr]
  · have hne : ¬ q = new := fun heq => hq (heq ▸ prefix_refl _)
    rw [if_neg hq, if_neg hne]
    by_cases hq' : old <+: q
    · obtain ⟨r, rfl⟩ := hq'
      rw [if_pos (prefix_append _ _)]
      by_cases hr : r = []
      · subst hr
        simp
      · have hne' : ¬ old ++ r = old := fun heq => hr (append_right_eq_self.mp heq)
        rw [if_neg hne', h.get_below (by simp [hold]) hr]
    · have hne' : ¬ q = old := fun heq => hq' (heq ▸ prefix_refl _)
      rw [if_neg hq', if_neg hne']

theorem WellFormed.cons (o : Object α) (hp : get t p = none) (hpar : get t p.dropLast = some .dir) :
    WellFormed ((p, o) :: t) := by
  have hkeeps : ∀ q, get t q = some .dir → get ((p, o) :: t) q = some .dir := by
    intro q hq
    have hpq : p ≠ q := by
      rintro rfl
      simp [hp] at hq
    rw [get_cons, if_neg hpq, hq]
  refine ⟨hkeeps [] h.root, ?_⟩
  intro q x o' hget
  rw [get_cons] at hget
  split_ifs at hget with hpq
  · have hq : p.dropLast = q := by rw [show p = q ++ [x] from hpq, dropLast_concat]
    exact hkeeps q (hq ▸ hpar)
  · exact hkeeps q (h.parent q x o' hget)

theorem WellFormed.remove (hp : p ≠ []) (hbelow : ∀ r, r ≠ [] → get t (p ++ r) = none) :
    WellFormed (remove t p) := by
  constructor
  · rw [get_remove, if_neg (Ne.symm hp), h.root]
  · intro q x o hget
    rw [get_remove] at hget ⊢
    split_ifs at hget with hqx
    have hq : q ≠ p := by
      rintro rfl
      simp [hbelow [x] (by simp)] at hget
    rw [if_neg hq]
    exact h.parent q x o hget

theorem WellFormed.move (hap : Apart old new) (hpar : get t new.dropLast = some .dir) :
    WellFormed (move t old new) := by
  have hrest : ∀ q, ¬ new <+: q → ¬ old <+: q → get (FileTree.move t old new) q = get t q := by
    intro q hnew hold
    rw [get_move t hap, if_neg hnew, if_neg hold]
  constructor
  · rw [hrest [], h.root]
    · intro hnil
      exact hap.2 (prefix_nil.mp hnil ▸ nil_prefix)
    · intro hnil
      exact hap.1 (prefix_nil.mp hnil ▸ nil_prefix)
  · intro q x o hget
    by_cases hqx : new = q ++ [x]
    · have hq : new.dropLast = q := by rw [hqx, dropLast_concat]
      rw [hrest q, ← hq, hpar]
      · intro hpre
        have hlen := hpre.length_le
        rw [hqx, length_append, length_singleton] at hlen
        omega
      · intro hpre
        exact hap.1 (hqx ▸ hpre.trans (prefix_append q [x]))
    · by_cases hnew : new <+: q
      · obtain ⟨r, rfl⟩ := hnew
        rw [get_move t hap, if_pos (prefix_append _ _), drop_left]
        rw [get_move t hap, if_pos (by rw [append_assoc]; exact prefix_append _ _),
          append_assoc, drop_left, ← append_assoc] at hget
        exact h.parent (old ++ r) x o hget
      · have hnew' : ¬ new <+: q ++ [x] := by
          rw [prefix_concat_iff]
          exact not_or.mpr ⟨hqx, hnew⟩
        rw [get_move t hap, if_neg hnew'] at hget
        split_ifs at hget with hold
        rw [hrest q hnew (fun hpre => hold (hpre.trans (prefix_append q [x])))]
        exact h.parent q x o hget

end

theorem make_eq_ok_iff :
    make t p o = .ok t' ↔ get t p = none ∧ get t p.dropLast = some .dir ∧ (p, o) :: t = t' := by
  unfold make
  split <;> simp [*]

theorem unlink_eq_ok_iff :
    unlink t p = .ok t' ↔ (∃ a, get t p = some (.file a)) ∧ remove t p = t' := by
  unfold unlink
  split <;> simp [*]

theorem rmdir_eq_ok_iff :
    rmdir t p = .ok t' ↔ get t p = some .dir ∧ p ≠ [] ∧ isEmpty t p = true ∧ remove t p = t' := by
  unfold rmdir
  split
  · split_ifs <;> simp [*]
  · simp [*]
  · simp [*]

theorem link_eq_ok_iff :
    link t old new = .ok t' ↔ ∃ a, get t old = some (.file a) ∧ make t new (.file a) = .ok t' := by
  unfold link
  split <;> simp [*]

inductive Renamed (t : Tree ν α) (old new : List ν) : Tree ν α → Prop where
  | same {o : Object α}
      (heq : old = new) (hparent : get t new.dropLast = some .dir)
      (hold : get t old = some o) :
      Renamed t old new t
  | links {a : α}
      (hapart : Apart old new) (hparent : get t new.dropLast = some .dir)
      (hold : get t old = some (.file a)) (hnew : get t new = some (.file a)) :
      Renamed t old new t
  | dir
      (hapart : Apart old new) (hparent : get t new.dropLast = some .dir)
      (hold : get t old = some .dir)
      (hnew : get t new = none ∨ get t new = some .dir ∧ isEmpty t new = true) :
      Renamed t old new (move t old new)
  | file {a : α}
      (hapart : Apart old new) (hparent : get t new.dropLast = some .dir)
      (hold : get t old = some (.file a))
      (hnew : get t new = none ∨ ∃ b, b ≠ a ∧ get t new = some (.file b)) :
      Renamed t old new (move t old new)

theorem renamed_of_rename [DecidableEq α] (h : rename t old new = .ok t') :
    Renamed t old new t' := by
  unfold rename at h
  split at h
  · cases h
  · cases h
  · cases h
  · rename_i o hold hpar
    split_ifs at h with heq hbelow habove
    · cases h
      exact .same heq hpar hold
    · have hap : Apart old new := ⟨hbelow, habove⟩
      rw [hold] at h
      cases o with
      | dir =>
        cases hnew : get t new with
        | none =>
          rw [hnew] at h
          cases h
          exact .dir hap hpar hold (.inl hnew)
        | some o' =>
          rw [hnew] at h
          cases o' with
          | dir =>
            simp only [replace] at h
            split_ifs at h with hemp
            cases h
            exact .dir hap hpar hold (.inr ⟨hnew, hemp⟩)
          | file b => cases h
      | file a =>
        cases hnew : get t new with
        | none =>
          rw [hnew] at h
          cases h
          exact .file hap hpar hold (.inl hnew)
        | some o' =>
          rw [hnew] at h
          cases o' with
          | dir => cases h
          | file b =>
            simp only [replace] at h
            split_ifs at h with hab
            · cases h
              exact .links hap hpar hold (hab ▸ hnew)
            · cases h
              exact .file hap hpar hold (.inr ⟨b, Ne.symm hab, hnew⟩)

theorem get_rename [DecidableEq α] (h : rename t old new = .ok t') : get t' new = get t old := by
  have hmove : Apart old new → get (move t old new) new = get t old := by
    intro hap
    rw [get_move t hap, if_pos (prefix_refl _), drop_length, append_nil]
  cases renamed_of_rename h with
  | same heq _ _ => rw [heq]
  | links _ _ hold hnew => rw [hold, hnew]
  | dir hap _ _ _ | file hap _ _ _ => exact hmove hap

theorem get_ne_dir_of_rename [DecidableEq α] (h : rename t old new = .ok t')
    (hold : get t old = some (.file a)) : get t new ≠ some .dir := by
  cases renamed_of_rename h with
  | same heq _ _ => simp [← heq, hold]
  | links _ _ _ hnew => simp [hnew]
  | dir _ _ hdir _ =>
    simp [hold] at hdir
  | file _ _ _ hnew =>
    rcases hnew with hnew | ⟨b, _, hnew⟩ <;> simp [hnew]

theorem rename_self [DecidableEq α] (hpar : get t p.dropLast = some .dir)
    (hp : get t p = some o) : rename t p p = .ok t := by
  unfold rename
  rw [hp, hpar]
  simp

theorem rename_apart [DecidableEq α] (hap : Apart old new)
    (hpar : get t new.dropLast = some .dir) (hold : get t old = some o) :
    rename t old new = replace t old new (some o) (get t new) := by
  have hne : old ≠ new := by
    rintro rfl
    exact hap.1 (prefix_refl _)
  unfold rename
  rw [hold, hpar]
  rw [if_neg hne, if_neg hap.1, if_neg hap.2]

section

variable (h : WellFormed t)
include h

theorem WellFormed.make (hmake : make t p o = .ok t') : WellFormed t' := by
  obtain ⟨hp, hpar, rfl⟩ := make_eq_ok_iff.mp hmake
  exact h.cons o hp hpar

theorem WellFormed.unlink (hunlk : unlink t p = .ok t') : WellFormed t' := by
  obtain ⟨⟨a, ha⟩, rfl⟩ := unlink_eq_ok_iff.mp hunlk
  refine h.remove ?_ (fun r hr => h.get_below (by simp [ha]) hr)
  rintro rfl
  simp [h.root] at ha

theorem WellFormed.rmdir (hrmdir : rmdir t p = .ok t') : WellFormed t' := by
  obtain ⟨_, hp, hemp, rfl⟩ := rmdir_eq_ok_iff.mp hrmdir
  exact h.remove hp (isEmpty_iff.mp hemp)

theorem WellFormed.link (hlink : link t old new = .ok t') : WellFormed t' := by
  obtain ⟨a, _, hmake⟩ := link_eq_ok_iff.mp hlink
  exact h.make hmake

theorem WellFormed.rename [DecidableEq α] (hren : rename t old new = .ok t') : WellFormed t' := by
  cases renamed_of_rename hren with
  | same _ _ _ | links _ _ _ _ => exact h
  | dir hap hpar _ _ | file hap hpar _ _ => exact h.move hap hpar

end

def HasFile (t : Tree ν α) (a : α) : Prop :=
  ∃ p, get t p = some (.file a)

theorem hasFile_of_make (h : make t p o = .ok t') (ha : HasFile t' a) :
    HasFile t a ∨ o = .file a := by
  obtain ⟨_, _, rfl⟩ := make_eq_ok_iff.mp h
  obtain ⟨q, hq⟩ := ha
  rw [get_cons] at hq
  split_ifs at hq
  · exact .inr (Option.some.inj hq)
  · exact .inl ⟨q, hq⟩

theorem hasFile_of_remove (ha : HasFile (remove t p) a) : HasFile t a := by
  obtain ⟨q, hq⟩ := ha
  rw [get_remove] at hq
  split_ifs at hq
  exact ⟨q, hq⟩

theorem hasFile_of_unlink (h : unlink t p = .ok t') (ha : HasFile t' a) : HasFile t a := by
  obtain ⟨_, rfl⟩ := unlink_eq_ok_iff.mp h
  exact hasFile_of_remove ha

theorem hasFile_of_rmdir (h : rmdir t p = .ok t') (ha : HasFile t' a) : HasFile t a := by
  obtain ⟨_, _, _, rfl⟩ := rmdir_eq_ok_iff.mp h
  exact hasFile_of_remove ha

theorem hasFile_of_link (h : link t old new = .ok t') (ha : HasFile t' a) : HasFile t a := by
  obtain ⟨b, hb, hmake⟩ := link_eq_ok_iff.mp h
  rcases hasFile_of_make hmake ha with hmem | heq
  · exact hmem
  · cases heq
    exact ⟨old, hb⟩

theorem hasFile_of_move (hap : Apart old new) (ha : HasFile (move t old new) a) : HasFile t a := by
  obtain ⟨q, hq⟩ := ha
  rw [get_move t hap] at hq
  split_ifs at hq
  · exact ⟨_, hq⟩
  · exact ⟨q, hq⟩

theorem hasFile_of_rename [DecidableEq α] (h : rename t old new = .ok t') (ha : HasFile t' a) :
    HasFile t a := by
  cases renamed_of_rename h with
  | same _ _ _ | links _ _ _ _ => exact ha
  | dir hap _ _ _ | file hap _ _ _ => exact hasFile_of_move hap ha

section

def visible (keep : α → Bool) : Option (Object α) → Option (Object α)
  | some (.file a) => if keep a then some (.file a) else none
  | some .dir => some .dir
  | none => none

/-- All the directories of a tree, and some of its files -/
structure Restricts (keep : α → Bool) (t sub : Tree ν α) : Prop where
  get_eq : ∀ p, get sub p = visible keep (get t p)

variable {keep keep' : α → Bool} {sub : Tree ν α}

variable (h : Restricts keep t sub)
include h

theorem Restricts.none (hp : get t p = none) : get sub p = none := by
  rw [h.get_eq, hp]
  rfl

theorem Restricts.dir (hp : get t p = some .dir) : get sub p = some .dir := by
  rw [h.get_eq, hp]
  rfl

theorem Restricts.file (hp : get t p = some (.file a)) (ha : keep a = true) :
    get sub p = some (.file a) := by
  rw [h.get_eq, hp, visible, if_pos ha]

theorem Restricts.hidden (hp : get t p = some (.file a)) (ha : keep a = false) :
    get sub p = Option.none := by
  rw [h.get_eq, hp, visible, if_neg (by simp [ha])]

theorem Restricts.congr (hkeep : ∀ p a, get t p = some (.file a) → keep a = keep' a) :
    Restricts keep' t sub := by
  constructor
  intro p
  rw [h.get_eq]
  cases hp : get t p with
  | none => rfl
  | some o =>
    cases o with
    | dir => rfl
    | file a => rw [visible, visible, hkeep p a hp]

theorem Restricts.isEmpty (hemp : isEmpty t p = true) : isEmpty sub p = true :=
  isEmpty_iff.mpr (fun r hr => h.none (isEmpty_iff.mp hemp r hr))

theorem Restricts.cons (ho : visible keep (some o) = some o) :
    Restricts keep ((p, o) :: t) ((p, o) :: sub) := by
  constructor
  intro q
  rw [get_cons, get_cons, h.get_eq]
  split_ifs
  · exact ho.symm
  · rfl

theorem Restricts.remove (p : List ν) : Restricts keep (remove t p) (remove sub p) := by
  constructor
  intro q
  rw [get_remove, get_remove, h.get_eq]
  split_ifs <;> rfl

theorem Restricts.move (hap : Apart old new) :
    Restricts keep (move t old new) (move sub old new) := by
  constructor
  intro q
  rw [get_move t hap, get_move sub hap, h.get_eq, h.get_eq]
  split_ifs <;> rfl

theorem Restricts.of_get_eq {sub' : Tree ν α} (hget : ∀ q, get sub' q = get sub q) :
    Restricts keep t sub' :=
  ⟨fun q => (hget q).trans (h.get_eq q)⟩

theorem Restricts.make (ho : visible keep (some o) = some o) (hmake : make t p o = .ok t') :
    ∃ sub', make sub p o = .ok sub' ∧ Restricts keep t' sub' := by
  obtain ⟨hp, hpar, rfl⟩ := make_eq_ok_iff.mp hmake
  exact ⟨_, make_eq_ok_iff.mpr ⟨h.none hp, h.dir hpar, rfl⟩, h.cons ho⟩

theorem Restricts.make_hidden (ha : keep a = false) (hmake : FileTree.make t p (.file a) = .ok t') :
    Restricts keep t' sub := by
  obtain ⟨hp, hpar, rfl⟩ := make_eq_ok_iff.mp hmake
  constructor
  intro q
  rw [get_cons]
  split_ifs with hpq
  · subst hpq
    rw [h.none hp, visible, if_neg (by simp [ha])]
  · exact h.get_eq q

theorem Restricts.remove_hidden (hp : get sub p = Option.none) :
    Restricts keep (FileTree.remove t p) sub :=
  (h.remove p).of_get_eq (fun q => (get_remove_of_none hp q).symm)

theorem Restricts.rmdir (hrmdir : rmdir t p = .ok t') :
    ∃ sub', rmdir sub p = .ok sub' ∧ Restricts keep t' sub' := by
  obtain ⟨hdir, hp, hemp, rfl⟩ := rmdir_eq_ok_iff.mp hrmdir
  exact ⟨_, rmdir_eq_ok_iff.mpr ⟨h.dir hdir, hp, h.isEmpty hemp, rfl⟩, h.remove p⟩

theorem Restricts.link (hold : get t old = some (.file a))
    (ha : keep a = true) (hlink : link t old new = .ok t') :
    ∃ sub', link sub old new = .ok sub' ∧ Restricts keep t' sub' := by
  obtain ⟨a', ha', hmake⟩ := link_eq_ok_iff.mp hlink
  rw [hold] at ha'
  cases ha'
  obtain ⟨sub', hsub', hrestr⟩ := h.make (by rw [visible, if_pos ha]) hmake
  exact ⟨sub', link_eq_ok_iff.mpr ⟨a, h.file hold ha, hsub'⟩, hrestr⟩

theorem Restricts.link_hidden (hold : get t old = some (.file a))
    (ha : keep a = false) (hlink : FileTree.link t old new = .ok t') : Restricts keep t' sub := by
  obtain ⟨a', ha', hmake⟩ := link_eq_ok_iff.mp hlink
  rw [hold] at ha'
  cases ha'
  exact h.make_hidden ha hmake

variable [DecidableEq α]

theorem Restricts.rename_dir (hold : get t old = some .dir) (hren : rename t old new = .ok t') :
    ∃ sub', rename sub old new = .ok sub' ∧ Restricts keep t' sub' := by
  cases renamed_of_rename hren with
  | same heq hpar _ =>
    subst heq
    exact ⟨sub, rename_self (h.dir hpar) (h.dir hold), h⟩
  | links _ _ hfile _ | file _ _ hfile _ =>
    simp [hold] at hfile
  | dir hap hpar _ hnew =>
    refine ⟨_, ?_, h.move hap⟩
    rw [rename_apart hap (h.dir hpar) (h.dir hold)]
    rcases hnew with hnew | ⟨hnew, hemp⟩
    · rw [h.none hnew]
      rfl
    · rw [h.dir hnew]
      simp only [replace, if_pos (h.isEmpty hemp)]

theorem Restricts.rename_file (hold : get t old = some (.file a))
    (ha : keep a = true) (hren : rename t old new = .ok t') :
    ∃ sub', rename sub old new = .ok sub' ∧ Restricts keep t' sub' := by
  cases renamed_of_rename hren with
  | same heq hpar _ =>
    subst heq
    exact ⟨sub, rename_self (h.dir hpar) (h.file hold ha), h⟩
  | links hap hpar hfile hnew =>
    rw [hold] at hfile
    cases hfile
    refine ⟨sub, ?_, h⟩
    rw [rename_apart hap (h.dir hpar) (h.file hold ha), h.file hnew ha]
    simp [replace]
  | dir _ _ hdir _ =>
    simp [hold] at hdir
  | file hap hpar hfile hnew =>
    rw [hold] at hfile
    cases hfile
    refine ⟨_, ?_, h.move hap⟩
    rw [rename_apart hap (h.dir hpar) (h.file hold ha)]
    rcases hnew with hnew | ⟨b, hab, hnew⟩
    · rw [h.none hnew]
      rfl
    · cases hb : keep b with
      | false =>
        rw [h.hidden hnew hb]
        rfl
      | true =>
        rw [h.file hnew hb]
        simp only [replace, if_neg (Ne.symm hab)]

theorem Restricts.rename_remove (hwf : WellFormed t) (hold : get t old = some (.file a))
    (ha : keep a = false) (hren : FileTree.rename t old new = .ok t') :
    Restricts keep t' (FileTree.remove sub new) := by
  cases renamed_of_rename hren with
  | same heq _ _ =>
    subst heq
    exact h.of_get_eq (get_remove_of_none (h.hidden hold ha))
  | links _ _ hfile hnew =>
    rw [hold] at hfile
    cases hfile
    exact h.of_get_eq (get_remove_of_none (h.hidden hnew ha))
  | dir _ _ hdir _ =>
    simp [hold] at hdir
  | file hap _ _ _ =>
    constructor
    intro q
    rw [get_remove, hwf.get_move_file hap hold (get_ne_dir_of_rename hren hold)]
    split_ifs with hq hq'
    · rw [visible, if_neg (by simp [ha])]
    · rw [hq', h.hidden hold ha]
      rfl
    · exact h.get_eq q

end

end GlusterFS.FileTree
