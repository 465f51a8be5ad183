import GlusterFS.Lib.Run

/-!
# Contexts of translators on inodes and descriptors

An inode has one slot for each translator of the graph, and so has an open descriptor.  A slot
is empty, or it has the address of a translator and the value that the translator has put there.
A value is put into the first slot that is empty or the translator's own, whichever comes first.

When another translator has left a hole, a translator that already has a slot behind it gets a
second one.  Its old value comes back when the second slot is deleted.  Where this does not
happen, and there is room for every translator that comes anew (`HasPlace`), the slots are a map
(`isMap_of_hasPlace`).
-/

namespace GlusterFS.Ctx

open Run List Function

/-- An address of a translator is not zero, and zero is the key of an empty slot. -/
structure Slot where
  key : Nat
  value : Nat

abbrev Slots := List Slot

def ctxCreate (xlCount : Nat) : Slots :=
  replicate xlCount { key := 0, value := 0 }

def ctxPut (ctx : Slots) (xlator value : Nat) : Option Slots :=
  if xlator = 0 then
    none
  else
    (ctx.findIdx? (fun slot => slot.key == 0 || slot.key == xlator)).map (fun index =>
      ctx.set index { key := xlator, value := value })

def ctxGet (ctx : Slots) (xlator : Nat) : Option Nat :=
  if xlator = 0 then
    none
  else
    (ctx.findIdx? (fun slot => slot.key == xlator)).bind (fun index =>
      ctx[index]?.map Slot.value)

def ctxDel (ctx : Slots) (xlator : Nat) : Option (Nat × Slots) :=
  if xlator = 0 then
    none
  else
    (ctx.findIdx? (fun slot => slot.key == xlator)).bind (fun index =>
      ctx[index]?.map (fun slot => (slot.value, ctx.set index { key := 0, value := 0 })))

def inodeCtxPut : Slots → Nat → Nat → Option Slots := ctxPut
def inodeCtxGet : Slots → Nat → Option Nat := ctxGet
def inodeCtxDel : Slots → Nat → Option (Nat × Slots) := ctxDel
def fdCtxSet : Slots → Nat → Nat → Option Slots := ctxPut
def fdCtxGet : Slots → Nat → Option Nat := ctxGet
def fdCtxDel : Slots → Nat → Option (Nat × Slots) := ctxDel

inductive Holder where
  | inode
  | fd

def Holder.put : Holder → Slots → Nat → Nat → Option Slots
  | .inode => inodeCtxPut
  | .fd => fdCtxSet

def Holder.get : Holder → Slots → Nat → Option Nat
  | .inode => inodeCtxGet
  | .fd => fdCtxGet

def Holder.del : Holder → Slots → Nat → Option (Nat × Slots)
  | .inode => inodeCtxDel
  | .fd => fdCtxDel

inductive Event where
  | put (xlator value : Nat)
  | get (xlator : Nat)
  | del (xlator : Nat)

def step (holder : Holder) : Slots → Event → Option Slots
  | ctx, .put xlator value => some ((holder.put ctx xlator value).getD ctx)
  | ctx, .get _ => some ctx
  | ctx, .del xlator => some (((holder.del ctx xlator).map Prod.snd).getD ctx)

def lastPutStep (m : Nat → Option Nat) : Event → Nat → Option Nat
  | .put xlator value => update m xlator (some value)
  | .get _ => m
  | .del xlator => update m xlator none

def lastPut (events : List Event) : Nat → Option Nat :=
  events.foldl lastPutStep (fun _ => none)

def IsMap (holder : Holder) (ctx : Slots) (m : Nat → Option Nat) : Prop :=
  ∀ xlator, xlator ≠ 0 → holder.get ctx xlator = m xlator

/-- A slot of the translator that no hole comes before. -/
def HasOwnPlace (ctx : Slots) (xlator : Nat) : Prop :=
  ∃ index ∈ ctx.findIdx? (fun slot => slot.key == xlator), ∀ slot ∈ ctx.take index, slot.key ≠ 0
deriving Decidable

/--
The condition on a step: a translator that puts a value has a slot without a hole before it, or it
has no slot and there is an empty one.
-/
def HasPlace (ctx : Slots) : Event → Prop
  | .put xlator _ =>
    xlator ≠ 0 → HasOwnPlace ctx xlator ∨
      (∀ slot ∈ ctx, slot.key ≠ xlator) ∧ ∃ slot ∈ ctx, slot.key = 0
  | _ => True

instance (ctx : Slots) : ∀ e, Decidable (HasPlace ctx e) := by
  rintro (_ | _) <;> dsimp only [HasPlace] <;> infer_instance

section

/-- The slots stand for a map: no translator has two, and what they hold is in the map. -/
structure Represents (ctx : Slots) (m : Nat → Option Nat) : Prop where
  unique : ∀ (i j : Nat) (x y : Slot), ctx[i]? = some x → ctx[j]? = some y → x.key = y.key →
    x.key ≠ 0 → i = j
  holds : ∀ xlator value, xlator ≠ 0 →
    (m xlator = some value ↔ ∃ i : Nat, ctx[i]? = some { key := xlator, value := value })

variable {ctx : Slots} {m : Nat → Option Nat} {index xlator : Nat} {old : Slot}

theorem represents_create (xlCount : Nat) : Represents (ctxCreate xlCount) (fun _ => none) := by
  have hemp : ∀ (i : Nat) (x : Slot), (ctxCreate xlCount)[i]? = some x → x.key = 0 := by
    intro i x hx
    rw [eq_of_mem_replicate (mem_of_getElem? hx)]
  constructor
  · intro i j x y hx _ _ hkey
    exact absurd (hemp i x hx) hkey
  · intro xlator value hne
    constructor
    · intro h
      cases h
    · rintro ⟨i, hi⟩
      exact absurd (hemp i _ hi) hne

theorem getElem?_set_iff (hold : ctx[index]? = some old) (new : Slot) (i : Nat) (x : Slot) :
    (ctx.set index new)[i]? = some x ↔ i = index ∧ x = new ∨ i ≠ index ∧ ctx[i]? = some x := by
  have hlt := (List.getElem?_eq_some_iff.mp hold).1
  rw [getElem?_set]
  by_cases hi : index = i
  · simp [← hi, hlt, eq_comm]
  · simp [hi, Ne.symm hi]

variable (h : Represents ctx m)
include h

theorem Represents.ctxGet_eq (hne : xlator ≠ 0) : ctxGet ctx xlator = m xlator := by
  rw [ctxGet, if_neg hne]
  cases hfind : ctx.findIdx? (fun slot => slot.key == xlator) with
  | none =>
    cases hm : m xlator with
    | none => rfl
    | some value =>
      obtain ⟨i, hi⟩ := (h.holds xlator value hne).mp hm
      have := findIdx?_eq_none_iff.mp hfind _ (mem_of_getElem? hi)
      simp at this
  | some index =>
    obtain ⟨hlt, hkey, _⟩ := findIdx?_eq_some_iff_getElem.mp hfind
    have hget : ctx[index]? = some ctx[index] := getElem?_eq_getElem hlt
    rw [Option.bind_some, hget]
    have hslot : ctx[index] = { key := xlator, value := ctx[index].value } := by
      rw [← eq_of_beq hkey]
    exact ((h.holds xlator ctx[index].value hne).mpr ⟨index, hslot ▸ hget⟩).symm

theorem Represents.put (hold : ctx[index]? = some old) (hown : old.key = xlator ∨ old.key = 0)
    (honly : ∀ (i : Nat) (x : Slot), ctx[i]? = some x → x.key = xlator → i = index) (value : Nat) :
    Represents (ctx.set index { key := xlator, value := value })
      (update m xlator (some value)) := by
  have hset := getElem?_set_iff hold { key := xlator, value := value }
  constructor
  · intro i j x y hx hy hkey hkne
    rcases (hset i x).mp hx with ⟨hi, rfl⟩ | ⟨hi, hx⟩
    · rcases (hset j y).mp hy with ⟨hj, _⟩ | ⟨hj, hy⟩
      · rw [hi, hj]
      · exact absurd (honly j y hy hkey.symm) hj
    · rcases (hset j y).mp hy with ⟨_, rfl⟩ | ⟨_, hy⟩
      · exact absurd (honly i x hx hkey) hi
      · exact h.unique i j x y hx hy hkey hkne
  · intro xlator' value' hne'
    rw [update_apply]
    split_ifs with hsame
    · constructor
      · intro hv
        cases hv
        exact ⟨index, (hset index _).mpr (.inl ⟨rfl, by rw [hsame]⟩)⟩
      · rintro ⟨i, hi⟩
        rcases (hset i _).mp hi with ⟨_, hslot⟩ | ⟨hne'', hi⟩
        · cases hslot
          rfl
        · exact absurd (honly i _ hi hsame) hne''
    · rw [h.holds xlator' value' hne']
      constructor
      · rintro ⟨i, hi⟩
        refine ⟨i, (hset i _).mpr (.inr ⟨?_, hi⟩)⟩
        rintro rfl
        rw [hold] at hi
        cases hi
        rcases hown with hkey | hkey
        · exact hsame hkey
        · exact hne' hkey
      · rintro ⟨i, hi⟩
        rcases (hset i _).mp hi with ⟨_, hslot⟩ | ⟨_, hi⟩
        · cases hslot
          exact absurd rfl hsame
        · exact ⟨i, hi⟩

theorem Represents.del (hold : ctx[index]? = some old) (hown : old.key = xlator) :
    Represents (ctx.set index { key := 0, value := 0 }) (update m xlator none) := by
  have hset := getElem?_set_iff hold { key := 0, value := 0 }
  have hkept : ∀ (i : Nat) (x : Slot), (ctx.set index { key := 0, value := 0 })[i]? = some x →
      x.key ≠ 0 → i ≠ index ∧ ctx[i]? = some x := by
    intro i x hx hkey
    rcases (hset i x).mp hx with ⟨_, rfl⟩ | hx
    · exact absurd rfl hkey
    · exact hx
  constructor
  · intro i j x y hx hy hkey hkne
    exact h.unique i j x y (hkept i x hx hkne).2 (hkept j y hy (hkey ▸ hkne)).2 hkey hkne
  · intro xlator' value' hne'
    rw [update_apply]
    split_ifs with hsame
    · constructor
      · intro hc
        cases hc
      · rintro ⟨i, hi⟩
        obtain ⟨hi', hi⟩ := hkept i _ hi hne'
        exact absurd (h.unique i index _ old hi hold (hsame.trans hown.symm) hne') hi'
    · rw [h.holds xlator' value' hne']
      constructor
      · rintro ⟨i, hi⟩
        refine ⟨i, (hset i _).mpr (.inr ⟨?_, hi⟩)⟩
        rintro rfl
        rw [hold] at hi
        cases hi
        exact hsame hown
      · rintro ⟨i, hi⟩
        exact ⟨i, (hkept i _ hi hne').2⟩

/-- With a place for it, a value goes to the only slot of the translator, or to a new one. -/
theorem Represents.ctxPut (hne : xlator ≠ 0) {value : Nat}
    (hplace : HasPlace ctx (.put xlator value)) :
    ∃ ctx', ctxPut ctx xlator value = some ctx' ∧
      Represents ctx' (update m xlator (some value)) := by
  rw [Ctx.ctxPut, if_neg hne]
  cases hfind : ctx.findIdx? (fun slot => slot.key == 0 || slot.key == xlator) with
  | none =>
    have hnone := findIdx?_eq_none_iff.mp hfind
    rcases hplace hne with ⟨index, hindex, _⟩ | ⟨_, slot, hslot, hkey⟩
    · obtain ⟨hlt, hkey, _⟩ := findIdx?_eq_some_iff_getElem.mp hindex
      have := hnone _ (getElem_mem hlt)
      simp [eq_of_beq hkey] at this
    · have := hnone slot hslot
      simp [hkey] at this
  | some index =>
    obtain ⟨hlt, hkey, hbef⟩ := findIdx?_eq_some_iff_getElem.mp hfind
    have hold : ctx[index]? = some ctx[index] := getElem?_eq_getElem hlt
    have hown : ctx[index].key = xlator ∨ ctx[index].key = 0 := by
      rcases Bool.or_eq_true_iff.mp hkey with hkey | hkey
      · exact .inr (eq_of_beq hkey)
      · exact .inl (eq_of_beq hkey)
    refine ⟨_, rfl, h.put hold hown ?_ value⟩
    intro i x hx hxkey
    rcases hplace hne with ⟨index', hindex', hnohole⟩ | ⟨hnew, _⟩
    · obtain ⟨hlt', hkey', _⟩ := findIdx?_eq_some_iff_getElem.mp hindex'
      have hold' : ctx[index']? = some ctx[index'] := getElem?_eq_getElem hlt'
      have hii' : i = index' :=
        h.unique i index' x _ hx hold' (hxkey.trans (eq_of_beq hkey').symm) (hxkey ▸ hne)
      -- The first slot found is not behind the own one, and it is no hole before it.
      rcases Nat.lt_trichotomy index index' with hlt'' | heq | hgt
      · rcases hown with hown | hown
        · have := h.unique index index' _ _ hold hold' (hown.trans (eq_of_beq hkey').symm)
            (hown ▸ hne)
          exact hii'.trans this.symm
        · have hmem : ctx[index] ∈ ctx.take index' := by
            apply mem_of_getElem? (i := index)
            rw [getElem?_take_of_lt hlt'', hold]
          exact absurd hown (hnohole _ hmem)
      · exact hii'.trans heq.symm
      · have := hbef index' hgt
        simp [eq_of_beq hkey'] at this
    · exact absurd hxkey (hnew x (mem_of_getElem? hx))

theorem Represents.ctxDel (hne : xlator ≠ 0) :
    Represents (((ctxDel ctx xlator).map Prod.snd).getD ctx) (update m xlator none) := by
  rw [Ctx.ctxDel, if_neg hne]
  cases hfind : ctx.findIdx? (fun slot => slot.key == xlator) with
  | none =>
    have hm : m xlator = none := by
      rw [← h.ctxGet_eq hne, ctxGet, if_neg hne, hfind]
      rfl
    have hsame : update m xlator none = m := by rw [← hm, update_eq_self]
    rw [hsame]
    exact h
  | some index =>
    obtain ⟨hlt, hkey, _⟩ := findIdx?_eq_some_iff_getElem.mp hfind
    have hold : ctx[index]? = some ctx[index] := getElem?_eq_getElem hlt
    rw [Option.bind_some, hold]
    exact h.del hold (eq_of_beq hkey)

omit h

variable (holder : Holder)

theorem Holder.put_eq : holder.put = Ctx.ctxPut := by
  cases holder <;> rfl

theorem Holder.get_eq : holder.get = ctxGet := by
  cases holder <;> rfl

theorem Holder.del_eq : holder.del = Ctx.ctxDel := by
  cases holder <;> rfl

theorem Represents.update_zero (h : Represents ctx m) (value : Option Nat) :
    Represents ctx (update m 0 value) := by
  refine ⟨h.unique, ?_⟩
  intro xlator value' hne
  rw [update_of_ne hne]
  exact h.holds xlator value' hne

theorem Represents.step (h : Represents ctx m) (holder : Holder) {e : Event}
    (hplace : HasPlace ctx e) :
    ∃ ctx', step holder ctx e = some ctx' ∧ Represents ctx' (lastPutStep m e) := by
  cases e with
  | put xlator value =>
    rw [Ctx.step, holder.put_eq]
    by_cases hne : xlator = 0
    · refine ⟨_, rfl, ?_⟩
      rw [Ctx.ctxPut, if_pos hne, hne]
      exact h.update_zero (some value)
    · obtain ⟨ctx', hput, hctx'⟩ := h.ctxPut hne hplace
      rw [hput]
      exact ⟨ctx', rfl, hctx'⟩
  | get xlator => exact ⟨ctx, rfl, h⟩
  | del xlator =>
    rw [Ctx.step, holder.del_eq]
    refine ⟨_, rfl, ?_⟩
    by_cases hne : xlator = 0
    · rw [Ctx.ctxDel, if_pos hne, hne]
      exact h.update_zero none
    · exact h.ctxDel hne

end

/-- In every run with a place for each value that is put, the slots are a map. -/
theorem isMap_of_hasPlace (holder : Holder) (xlCount : Nat) (events : List Event)
    (hall : AllSteps (step holder) HasPlace (ctxCreate xlCount) events) :
    ∃ ctx, run (step holder) (ctxCreate xlCount) events = some ctx ∧
      IsMap holder ctx (lastPut events) := by
  have hstep : ∀ es ctx e, Represents ctx (lastPut es) → HasPlace ctx e →
      ∃ ctx', step holder ctx e = some ctx' ∧ Represents ctx' (lastPut (es ++ [e])) := by
    intro es ctx e h hplace
    rw [lastPut, foldl_append]
    exact h.step holder hplace
  obtain ⟨ctx, hrun, hctx⟩ := @exists_run_history _ _ (step holder) _ _ _
    (fun es ctx => Represents ctx (lastPut es)) (represents_create xlCount) hstep hall
  refine ⟨ctx, hrun, ?_⟩
  intro xlator hne
  rw [holder.get_eq]
  exact hctx.ctxGet_eq hne

def oneByOne : List Event :=
  [.put 1 10, .put 2 20, .put 2 21, .del 2, .put 1 11]

theorem isMap_oneByOne :
    AllSteps (step .fd) HasPlace (ctxCreate 2) oneByOne ∧
      ∃ ctx, run (step .fd) (ctxCreate 2) oneByOne = some ctx ∧
        IsMap .fd ctx (lastPut oneByOne) := by
  have hall : AllSteps (step .fd) HasPlace (ctxCreate 2) oneByOne := by decide
  exact ⟨hall, isMap_of_hasPlace .fd 2 oneByOne hall⟩

def putAfterHole : List Event :=
  [.put 1 10, .put 2 20, .del 1, .put 2 21, .del 2]

/-- It deletes the new value, and finds the old one. -/
theorem not_isMap_putAfterHole :
    ∃ ctx, run (step .inode) (ctxCreate 2) putAfterHole = some ctx ∧
      inodeCtxGet ctx 2 = some 20 ∧ lastPut putAfterHole 2 = none ∧
      ¬ IsMap .inode ctx (lastPut putAfterHole) := by
  obtain ⟨ctx, hrun, hctx⟩ : ∃ ctx ∈ run (step .inode) (ctxCreate 2) putAfterHole,
      inodeCtxGet ctx 2 = some 20 := by decide
  refine ⟨ctx, hrun, hctx, rfl, ?_⟩
  intro h
  have hnone : inodeCtxGet ctx 2 = none := h 2 (by decide)
  simp [hctx] at hnone

end GlusterFS.Ctx
