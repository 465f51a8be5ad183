import Mathlib.Data.List.Induction

/-!
# Runs of a partial machine

A machine takes one event at a time; a step that the event does not allow gives no state.  `run`
takes a list of events.  The rules below are for relations between the history and the state
(`run_history`), for invariants that only the steps with some condition preserve (`run_invariant`,
and `exists_run` if such a run does not get stuck), for measures (`run_decreases`), and for
properties that exactly those steps keep (`always_iff_allSteps`).  `run_move` takes an event before
those that it commutes with.
-/

namespace GlusterFS.Run

open List Option

universe u v

variable {σ : Type u} {ε : Type v}

def run (step : σ → ε → Option σ) :
    σ → List ε → Option σ
  | s, [] => some s
  | s, e :: es => (step s e).bind (fun s' => run step s' es)

variable (step : σ → ε → Option σ) (s : σ)

@[simp] theorem run_nil : run step s [] = some s := by
  rfl

@[simp] theorem run_cons (e : ε) (es : List ε) :
    run step s (e :: es) = (step s e).bind (fun s' => run step s' es) := by
  rfl

theorem run_append (es es' : List ε) :
    run step s (es ++ es') = (run step s es).bind (fun s' => run step s' es') := by
  induction es generalizing s with
  | nil => rfl
  | cons e es ih =>
    cases hstep : step s e with
    | none => simp [hstep]
    | some s' => simp [hstep, ih]

variable {s s' : σ} {es es' : List ε} {e : ε} {cond cond' : σ → ε → Prop} {P : σ → Prop}

theorem run_prefix (hpre : es <+: es') (h : run step s es' = some s') :
    ∃ m, run step s es = some m := by
  obtain ⟨rest, rfl⟩ := hpre
  rw [run_append, bind_eq_some_iff] at h
  obtain ⟨m, hm, _⟩ := h
  exact ⟨m, hm⟩

theorem run_concat_iff :
    run step s (es ++ [e]) = some s' ↔ ∃ m, run step s es = some m ∧ step m e = some s' := by
  rw [run_append, bind_eq_some_iff]
  simp

theorem run_flatMap {ε' : Type*} (parts : ε' → List ε) (s : σ) (es : List ε') :
    run step s (es.flatMap parts) = run (fun s e => run step s (parts e)) s es := by
  induction es generalizing s with
  | nil => rfl
  | cons e es ih =>
    rw [flatMap_cons, run_append, run_cons]
    exact bind_congr (fun s' _ => ih s')

/-- Two events with the same outcome in either order. -/
def Commutes (e e' : ε) : Prop :=
  ∀ s, (step s e).bind (fun s' => step s' e') = (step s e').bind (fun s' => step s' e)

theorem run_move (h : ∀ e' ∈ es, Commutes step e' e) (es' : List ε) (s : σ) :
    run step s (es ++ e :: es') = run step s (e :: (es ++ es')) := by
  induction es generalizing s with
  | nil => rfl
  | cons e' es ih =>
    obtain ⟨he', hes⟩ := forall_mem_cons.mp h
    calc run step s (e' :: (es ++ e :: es'))
        = (step s e').bind (fun s' => run step s' (e :: (es ++ es'))) :=
          bind_congr (fun s' _ => ih hes s')
      _ = ((step s e').bind (fun s' => step s' e)).bind (fun s' => run step s' (es ++ es')) :=
          (bind_assoc _ _ _).symm
      _ = ((step s e).bind (fun s' => step s' e')).bind (fun s' => run step s' (es ++ es')) := by
          rw [he' s]
      _ = run step s (e :: (e' :: es ++ es')) := bind_assoc _ _ _

@[elab_as_elim]
theorem run_history {P : List ε → σ → Prop} (hinit : P [] s)
    (hstep : ∀ es e m s', P es m → step m e = some s' → P (es ++ [e]) s')
    (h : run step s es = some s') : P es s' := by
  induction es using reverseRecOn generalizing s' with
  | nil =>
    cases h
    exact hinit
  | append_singleton es e ih =>
    obtain ⟨m, hm, he⟩ := (run_concat_iff step).mp h
    exact hstep es e m s' (ih hm) he

theorem run_mono {step' : σ → ε → Option σ}
    (hstep : ∀ s e s', step s e = some s' → step' s e = some s') (h : run step s es = some s') :
    run step' s es = some s' := by
  induction es generalizing s with
  | nil => exact h
  | cons e es ih =>
    rw [run_cons, bind_eq_some_iff] at h
    obtain ⟨m, hm, hrest⟩ := h
    rw [run_cons, hstep s e m hm]
    exact ih hrest

/-- Every step of the run meets a condition on the state before it. -/
def AllSteps (cond : σ → ε → Prop) : σ → List ε → Prop
  | _, [] => True
  | s, e :: es => cond s e ∧ ∀ s' ∈ step s e, AllSteps cond s' es

instance decidableAllSteps (cond : σ → ε → Prop) [∀ s e, Decidable (cond s e)] :
    ∀ s es, Decidable (AllSteps step cond s es)
  | _, [] => inferInstanceAs (Decidable True)
  | s, e :: es =>
    have : DecidablePred (fun s' => AllSteps step cond s' es) :=
      fun s' => decidableAllSteps cond s' es
    inferInstanceAs (Decidable (cond s e ∧ ∀ s' ∈ step s e, AllSteps step cond s' es))

theorem AllSteps.mono (hcond : ∀ s e, cond s e → cond' s e) (h : AllSteps step cond s es) :
    AllSteps step cond' s es := by
  induction es generalizing s with
  | nil => trivial
  | cons e es ih => exact ⟨hcond s e h.1, fun s' hs' => ih (h.2 s' hs')⟩

theorem AllSteps.and (h : AllSteps step cond s es) (h' : AllSteps step cond' s es) :
    AllSteps step (fun s e => cond s e ∧ cond' s e) s es := by
  induction es generalizing s with
  | nil => trivial
  | cons e es ih => exact ⟨⟨h.1, h'.1⟩, fun s' hs' => ih (h.2 s' hs') (h'.2 s' hs')⟩

theorem AllSteps.of_forall (h : ∀ e ∈ es, ∀ s, cond s e) (s : σ) : AllSteps step cond s es := by
  induction es generalizing s with
  | nil => trivial
  | cons e es ih =>
    exact ⟨h e mem_cons_self s,
      fun s' _ => ih (fun e' he' => h e' (mem_cons_of_mem e he')) s'⟩

theorem allSteps_append_iff :
    AllSteps step cond s (es ++ es') ↔ AllSteps step cond s es ∧
        ∀ s', run step s es = some s' → AllSteps step cond s' es' := by
  induction es generalizing s with
  | nil => simp [AllSteps]
  | cons e es ih =>
    cases hstep : step s e with
    | none => simp [AllSteps, hstep]
    | some m => simp [AllSteps, hstep, ih, and_assoc]

theorem allSteps_concat_iff :
    AllSteps step cond s (es ++ [e]) ↔
      AllSteps step cond s es ∧ ∀ s', run step s es = some s' → cond s' e := by
  rw [allSteps_append_iff]
  simp [AllSteps]

@[elab_as_elim]
theorem run_invariant (hstep : ∀ s e s', P s → cond s e → step s e = some s' → P s') (hinit : P s)
    (hall : AllSteps step cond s es) (h : run step s es = some s') : P s' := by
  induction es generalizing s with
  | nil =>
    cases h
    exact hinit
  | cons e es ih =>
    rw [run_cons, bind_eq_some_iff] at h
    obtain ⟨m, hm, hrest⟩ := h
    exact ih (hstep s e m hinit hall.1 hm) (hall.2 m hm) hrest

@[elab_as_elim]
theorem run_keeps (hstep : ∀ e ∈ es, ∀ s s', P s → step s e = some s' → P s') (hinit : P s)
    (h : run step s es = some s') : P s' := by
  have hall : AllSteps step (fun _ e => e ∈ es) s es := .of_forall step (fun _ he _ => he) s
  exact run_invariant step (fun s e s' hP he => hstep e he s s' hP) hinit hall h

theorem run_decreases (measure : σ → Nat)
    (hstep : ∀ s e s', P s → cond s e → step s e = some s' → P s' ∧ measure s' < measure s)
    (hinit : P s) (hall : AllSteps step cond s es) (h : run step s es = some s') :
    P s' ∧ es.length + measure s' ≤ measure s := by
  induction es generalizing s with
  | nil =>
    cases h
    simpa using hinit
  | cons e es ih =>
    rw [run_cons, bind_eq_some_iff] at h
    obtain ⟨m, hm, hrest⟩ := h
    obtain ⟨hP, hlt⟩ := hstep s e m hinit hall.1 hm
    obtain ⟨hP', hle⟩ := ih hP (hall.2 m hm) hrest
    rw [length_cons]
    exact ⟨hP', by omega⟩

/--
A total that no step raises, and that the steps with a condition leave as it is, is what
it was after the runs of steps with the condition, and after no other run.
-/
theorem allSteps_iff_total (total : σ → Nat) (hstep : ∀ s e s', P s → step s e = some s' →
      P s' ∧ total s' ≤ total s ∧ (cond s e ↔ total s' = total s))
    (hinit : P s) (h : run step s es = some s') :
    total s' ≤ total s ∧ (AllSteps step cond s es ↔ total s' = total s) := by
  induction es generalizing s with
  | nil =>
    cases h
    simp [AllSteps]
  | cons e es ih =>
    rw [run_cons, bind_eq_some_iff] at h
    obtain ⟨m, hm, hrest⟩ := h
    obtain ⟨hP, hle, hiff⟩ := hstep s e m hinit hm
    obtain ⟨hle', hiff'⟩ := ih hP hrest
    refine ⟨by omega, ?_⟩
    constructor
    · rintro ⟨hcond, hall⟩
      have := hiff'.mp (hall m hm)
      have := hiff.mp hcond
      omega
    · intro heq
      refine ⟨hiff.mpr (by omega), ?_⟩
      intro m' hm'
      rw [hm] at hm'
      cases hm'
      exact hiff'.mpr (by omega)

theorem exists_run_history {I : List ε → σ → Prop} (hinit : I [] s)
    (hstep : ∀ es m e, I es m → cond m e → ∃ s', step m e = some s' ∧ I (es ++ [e]) s')
    (hall : AllSteps step cond s es) : ∃ s', run step s es = some s' ∧ I es s' := by
  induction es using reverseRecOn with
  | nil => exact ⟨s, rfl, hinit⟩
  | append_singleton es e ih =>
    rw [allSteps_concat_iff] at hall
    obtain ⟨m, hm, hinv⟩ := ih hall.1
    obtain ⟨s', hs', hinv'⟩ := hstep es m e hinv (hall.2 m hm)
    exact ⟨s', (run_concat_iff step).mpr ⟨m, hm, hs'⟩, hinv'⟩

theorem exists_run (hstep : ∀ s e, P s → cond s e → ∃ s', step s e = some s' ∧ P s') (hinit : P s)
    (hall : AllSteps step cond s es) : ∃ s', run step s es = some s' ∧ P s' := by
  exact exists_run_history step hinit (fun _ => hstep) hall

theorem exists_run_account {α : Type*} {items : σ → List α} {added : ε → List α}
    (hstep : ∀ s e, P s → cond s e →
      ∃ s', step s e = some s' ∧ P s' ∧ (items s').Perm (items s ++ added e)) (hinit : P s)
    (hall : AllSteps step cond s es) :
    ∃ s', run step s es = some s' ∧ P s' ∧ (items s').Perm (items s ++ es.flatMap added) := by
  refine exists_run_history step (I := fun es s' => P s' ∧
    (items s').Perm (items s ++ es.flatMap added)) ⟨hinit, by simp⟩ ?_ hall
  rintro es m e ⟨hP, hperm⟩ hcond
  obtain ⟨s', hs', hP', hadd⟩ := hstep m e hP hcond
  refine ⟨s', hs', hP', hadd.trans ?_⟩
  rw [flatMap_append, flatMap_singleton, ← append_assoc]
  exact hperm.append_right _

/--
A property that the steps with a condition keep, by way of an invariant, and that
every other step of a domain breaks, holds all the way along the runs of steps with the
condition.
-/
theorem always_iff_allSteps_on {P Inv : List ε → σ → Prop} {dom : σ → ε → Prop} (hinit : Inv [] s)
    (hstep : ∀ es m e, Inv es m → dom m e → cond m e → ∃ s', step m e = some s' ∧
      Inv (es ++ [e]) s')
    (hsnd : ∀ es m, Inv es m → P es m)
    (hbreak : ∀ es m e s', Inv es m → dom m e → ¬ cond m e → step m e = some s' →
      ¬ P (es ++ [e]) s')
    (hdom : AllSteps step dom s es) :
    (∀ before, before <+: es → ∃ s', run step s before = some s' ∧ P before s') ↔
      AllSteps step cond s es := by
  have hrun : ∀ {es : List ε}, AllSteps step dom s es → AllSteps step cond s es →
      ∃ s', run step s es = some s' ∧ Inv es s' := fun hdom hall =>
    exists_run_history step hinit (fun es m e hinv hboth => hstep es m e hinv hboth.1 hboth.2)
      (hdom.and step hall)
  constructor
  · intro h
    induction es using reverseRecOn with
    | nil => trivial
    | append_singleton es e ih =>
      rw [allSteps_concat_iff] at hdom ⊢
      have hall := ih hdom.1 (fun before hbef =>
        h before (hbef.trans (prefix_append es [e])))
      refine ⟨hall, ?_⟩
      intro m hm
      by_contra hcond
      obtain ⟨m', hm', hinv⟩ := hrun hdom.1 hall
      rw [hm] at hm'
      cases hm'
      obtain ⟨s', hs', hP⟩ := h (es ++ [e]) (prefix_refl _)
      obtain ⟨m', hm', he⟩ := (run_concat_iff step).mp hs'
      rw [hm] at hm'
      cases hm'
      exact hbreak es m e s' hinv (hdom.2 m hm) hcond he hP
  · rintro hall before ⟨after, rfl⟩
    obtain ⟨s', hs', hinv⟩ :=
      hrun ((allSteps_append_iff step).mp hdom).1 ((allSteps_append_iff step).mp hall).1
    exact ⟨s', hs', hsnd before s' hinv⟩

theorem always_iff_allSteps {P Inv : List ε → σ → Prop} (hinit : Inv [] s)
    (hstep : ∀ es m e, Inv es m → cond m e → ∃ s', step m e = some s' ∧ Inv (es ++ [e]) s')
    (hsnd : ∀ es m, Inv es m → P es m)
    (hbreak : ∀ es m e s', Inv es m → ¬ cond m e → step m e = some s' → ¬ P (es ++ [e]) s')
    (es : List ε) :
    (∀ before, before <+: es → ∃ s', run step s before = some s' ∧ P before s') ↔
      AllSteps step cond s es := by
  have hdom : AllSteps step (fun _ _ => True) s es :=
    AllSteps.of_forall step (fun _ _ _ => trivial) s
  exact always_iff_allSteps_on step hinit (fun es m e hinv _ => hstep es m e hinv) hsnd
    (fun es m e s' hinv _ => hbreak es m e s' hinv) hdom

end GlusterFS.Run
