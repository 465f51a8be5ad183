import Mathlib.Algebra.BigOperators.Group.List.Basic
import Mathlib.Data.List.Nodup

/-!
# Fan-out of calls and gathering of replies

A caller winds one call to each key of a list and keeps a counter of the calls
that are still out.  Every reply runs a callback on the caller's state, in the
order in which the replies happen to arrive, and the caller goes on when the
counter reaches zero.

Replies are a list of keyed values.  `Answers` says that a list of replies
answers a list of calls, each call exactly once and in any order, and `gather`
runs the callback on the list.  The rules below compute one observation of the
gathered state at a time: an observation that no reply touches (`gather_frame`),
a slot for each key (`gather_slot`), a sum (`gather_add`) and a conjunction
(`gather_and`).  `gather_last` is for a callback that has the code for the last reply in it.
-/

namespace GlusterFS.FanOut

open List Prod

universe u v w x

variable {κ : Type u} {ρ γ : Type v} {rs : List (κ × ρ)} {calls : List κ} {k : κ} {r : ρ}

/-- Every call is answered exactly once; the order of the answers is free. -/
def Answers (rs : List (κ × ρ)) (calls : List κ) : Prop :=
  (rs.map Prod.fst).Perm calls

instance [DecidableEq κ] (rs : List (κ × ρ)) (calls : List κ) : Decidable (Answers rs calls) :=
  inferInstanceAs (Decidable ((rs.map Prod.fst).Perm calls))

section

variable (h : Answers rs calls)
include h

theorem Answers.length_eq : rs.length = calls.length := by
  have hlen := List.Perm.length_eq h
  simpa using hlen

theorem Answers.key_mem (hr : (k, r) ∈ rs) : k ∈ calls := by
  have hk : k ∈ rs.map fst := mem_map.mpr ⟨(k, r), hr, rfl⟩
  exact (List.Perm.mem_iff h).mp hk

theorem Answers.exists_reply (hk : k ∈ calls) : ∃ r, (k, r) ∈ rs := by
  have hk' : k ∈ rs.map fst := (List.Perm.mem_iff h).mpr hk
  obtain ⟨⟨k', r⟩, hr, rfl⟩ := mem_map.mp hk'
  exact ⟨r, hr⟩

theorem Answers.reply_unique (hnd : calls.Nodup) {r' : ρ} (hr : (k, r) ∈ rs) (hr' : (k, r') ∈ rs) :
    r = r' := by
  have hnd' : (rs.map fst).Nodup := (List.Perm.nodup_iff h).mpr hnd
  have heq := inj_on_of_nodup_map hnd' hr hr' rfl
  exact congrArg snd heq

end

theorem count_reply_eq_count_key [BEq κ] [LawfulBEq κ] [BEq ρ] [LawfulBEq ρ] (rs : List (κ × ρ))
    (k : κ) (v : ρ) (h : ∀ r, (k, r) ∈ rs → r = v) :
    rs.count (k, v) = (rs.map fst).count k := by
  induction rs with
  | nil => rfl
  | cons r rs ih =>
    obtain ⟨k', r⟩ := r
    have htail := ih (fun r' hr' => h r' (mem_cons_of_mem _ hr'))
    rw [map_cons, count_cons, count_cons, htail]
    by_cases hk : k' = k
    · subst k'
      have hr : r = v := h r (by simp)
      simp [hr]
    · simp [hk]

section

variable {σ : Type w} {α M : Type x} {s : σ}

/-- The state after the callback has run on every reply, in order of arrival. -/
def gather (cbk : σ → κ → ρ → σ) :
    σ → List (κ × ρ) → σ
  | s, [] => s
  | s, r :: rs => gather cbk (cbk s r.1 r.2) rs

variable (cbk : σ → κ → ρ → σ)

@[simp] theorem gather_nil (s : σ) : gather cbk s [] = s := by
  rfl

@[simp] theorem gather_cons (s : σ) (r : κ × ρ) (rs : List (κ × ρ)) :
    gather cbk s (r :: rs) = gather cbk (cbk s r.1 r.2) rs := by
  rfl

theorem gather_invariant {P : σ → Prop} (hs : P s)
    (hstep : ∀ s k r, (k, r) ∈ rs → P s → P (cbk s k r)) : P (gather cbk s rs) := by
  induction rs generalizing s with
  | nil => exact hs
  | cons r rs ih =>
    apply ih
    · exact hstep s r.1 r.2 (by simp) hs
    · intro s' k r' hr'
      exact hstep s' k r' (mem_cons_of_mem _ hr')

theorem gather_append (s : σ) (rs rs' : List (κ × ρ)) :
    gather cbk s (rs ++ rs') = gather cbk (gather cbk s rs) rs' := by
  induction rs generalizing s with
  | nil => rfl
  | cons r rs ih => exact ih (cbk s r.1 r.2)

theorem gather_frame (get : σ → α) (s : σ) (rs : List (κ × ρ))
    (h : ∀ s k r, (k, r) ∈ rs → get (cbk s k r) = get s) : get (gather cbk s rs) = get s := by
  refine gather_invariant cbk (P := fun s' => get s' = get s) rfl ?_
  intro s' k r hr hs'
  rw [h s' k r hr, hs']

theorem gather_slot_of_not_mem [DecidableEq κ] (get : σ → κ → α) (upd : α → ρ → α)
    (h : ∀ s k r k', get (cbk s k r) k' = if k' = k then upd (get s k) r else get s k') (s : σ)
    (hk : k ∉ rs.map fst) : get (gather cbk s rs) k = get s k := by
  apply gather_frame cbk (fun s => get s k)
  intro s k' r hr
  have hne : k ≠ k' := by
    rintro rfl
    exact hk (mem_map.mpr ⟨(k, r), hr, rfl⟩)
  simp only [h, if_neg hne]

theorem gather_slot [DecidableEq κ] (get : σ → κ → α) (upd : α → ρ → α)
    (h : ∀ s k r k', get (cbk s k r) k' = if k' = k then upd (get s k) r else get s k') (s : σ)
    (hnd : (rs.map fst).Nodup) (hr : (k, r) ∈ rs) :
    get (gather cbk s rs) k = upd (get s k) r := by
  induction rs generalizing s with
  | nil => cases hr
  | cons head rs ih =>
    obtain ⟨k', r'⟩ := head
    rw [map_cons, nodup_cons] at hnd
    rw [gather_cons]
    rcases mem_cons.mp hr with heq | htail
    · cases heq
      rw [gather_slot_of_not_mem cbk get upd h _ hnd.1, h, if_pos rfl]
    · have hne : k ≠ k' := by
        rintro rfl
        exact hnd.1 (mem_map.mpr ⟨(k, r), htail, rfl⟩)
      rw [ih _ hnd.2 htail, h, if_neg hne]

theorem gather_add [AddCommMonoid M] (get : σ → M) (w : κ → ρ → M) (s : σ) (rs : List (κ × ρ))
    (h : ∀ s k r, (k, r) ∈ rs → get (cbk s k r) = get s + w k r) :
    get (gather cbk s rs) = get s + (rs.map (fun r => w r.1 r.2)).sum := by
  induction rs generalizing s with
  | nil => simp
  | cons r rs ih =>
    have hhead := h s r.1 r.2 (by simp)
    have htail := ih (cbk s r.1 r.2) (fun s k r' hr' => h s k r' (mem_cons_of_mem _ hr'))
    simp only [gather_cons, map_cons, sum_cons]
    rw [htail, hhead, add_assoc]

theorem gather_and (get : σ → Bool) (keep : κ → ρ → Bool) (s : σ) (rs : List (κ × ρ))
    (h : ∀ s k r, (k, r) ∈ rs → get (cbk s k r) = (get s && keep k r)) :
    get (gather cbk s rs) = (get s && rs.all (fun r => keep r.1 r.2)) := by
  induction rs generalizing s with
  | nil => simp
  | cons r rs ih =>
    have hhead := h s r.1 r.2 (by simp)
    have htail := ih (cbk s r.1 r.2) (fun s k r' hr' => h s k r' (mem_cons_of_mem _ hr'))
    simp only [gather_cons, all_cons]
    rw [htail, hhead, Bool.and_assoc]

/--
A callback that goes on by itself when its reply was the last one: it goes on once, with what
all of the replies have left.
-/
theorem gather_last (upd : σ → κ → ρ → σ) (last : σ → σ) (count : σ → Int)
    (hcbk : ∀ s k r, cbk s k r = if count (upd s k r) = 0 then last (upd s k r) else upd s k r)
    (hcnt : ∀ s k r, count (upd s k r) = count s - 1) (hne : rs ≠ []) (hs : count s = rs.length) :
    gather cbk s rs = last (gather upd s rs) := by
  induction rs generalizing s with
  | nil => exact absurd rfl hne
  | cons r rs ih =>
    rw [length_cons] at hs
    have hr := hcnt s r.1 r.2
    rw [gather_cons, gather_cons, hcbk]
    cases rs with
    | nil =>
      rw [length_nil] at hs
      rw [if_pos (by omega)]
      rfl
    | cons r' rs =>
      rw [length_cons] at hs
      rw [if_neg (by omega)]
      apply ih
      · simp
      · rw [length_cons]
        omega

end

/--
The loop that winds the calls: it visits the keys in order, winds what a key
asks for, counts down, and leaves as soon as the counter is zero.
-/
def windLoop (calls : κ → List γ) :
    Int → List κ → List γ
  | _, [] => []
  | count, k :: ks =>
    if calls k = [] then
      windLoop calls count ks
    else if count - (calls k).length = 0 then
      calls k
    else
      calls k ++ windLoop calls (count - (calls k).length) ks

theorem windLoop_eq_flatMap (calls : κ → List γ) (ks : List κ) {count : Int}
    (h : count = (ks.flatMap calls).length) : windLoop calls count ks = ks.flatMap calls := by
  induction ks generalizing count with
  | nil => rfl
  | cons k ks ih =>
    simp only [flatMap_cons, length_append] at h
    simp only [windLoop, flatMap_cons]
    split_ifs with hk hzero
    · rw [hk, nil_append]
      apply ih
      simpa [hk] using h
    · have hrest : ks.flatMap calls = [] := by
        apply eq_nil_of_length_eq_zero
        omega
      rw [hrest, append_nil]
    · rw [ih]
      omega

/-- Steps that commute in the states with an invariant may be taken in any order. -/
theorem foldl_perm_of_invariant {σ α : Type*} {f : σ → α → σ} {I : σ → Prop} {l l' : List α}
    (hperm : l.Perm l') (hstep : ∀ s, I s → ∀ x ∈ l, I (f s x))
    (hcomm : ∀ s, I s → ∀ x ∈ l, ∀ y ∈ l, f (f s x) y = f (f s y) x) (s : σ) (hs : I s) :
    l.foldl f s = l'.foldl f s := by
  induction hperm generalizing s with
  | nil => rfl
  | cons x _ ih =>
    refine ih (fun s hs y hy => hstep s hs y (mem_cons_of_mem x hy)) ?_ _
      (hstep s hs x mem_cons_self)
    exact fun s hs y hy z hz => hcomm s hs y (mem_cons_of_mem x hy) z (mem_cons_of_mem x hz)
  | swap x y l =>
    simp only [foldl_cons]
    rw [hcomm s hs y mem_cons_self x (mem_cons_of_mem y mem_cons_self)]
  | trans hp _ ih ih' =>
    rw [ih hstep hcomm s hs]
    refine ih' (fun s hs x hx => hstep s hs x (hp.mem_iff.mpr hx)) ?_ s hs
    exact fun s hs x hx y hy => hcomm s hs x (hp.mem_iff.mpr hx) y (hp.mem_iff.mpr hy)

end GlusterFS.FanOut
