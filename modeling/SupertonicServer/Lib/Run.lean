import Mathlib.Data.List.Basic

/-!
# Runs of a labelled step function

A concurrent program is modelled here by a *step function* `step : σ → α → Option σ`: the
action `a : α` says which party moves and how its environment answers, and `none` says that
the action is not enabled in that state. All the nondeterminism of a scheduler is then in
the list of actions, and a run is a list that `run` accepts.

The three rules every later file uses:

* `run_inv`: an invariant of one step holds after every run;
* `run_inv_of`: the same for runs whose steps all meet a side condition (`StepsMeet`);
* `run_simulates`: a forward simulation in which one concrete action is answered by a list
  of abstract ones (the empty list for a step the abstract system does not see).
-/

namespace SupertonicServer.Lib

variable {σ τ α β : Type}

/-- Run a list of actions from a state; `none` as soon as one of them is not enabled. -/
def run (step : σ → α → Option σ) : σ → List α → Option σ
  | s, [] => some s
  | s, a :: as => (step s a).bind fun s' => run step s' as

variable {step : σ → α → Option σ}

@[simp] theorem run_nil (s : σ) : run step s [] = some s := rfl

theorem run_cons (s : σ) (a : α) (as : List α) :
    run step s (a :: as) = (step s a).bind fun s' => run step s' as := rfl

/-- A nonempty run is a first step and the run of the rest. -/
theorem run_cons_some {s t : σ} {a : α} {as : List α} :
    run step s (a :: as) = some t ↔ ∃ s', step s a = some s' ∧ run step s' as = some t := by
  rw [run_cons, Option.bind_eq_some_iff]

theorem run_append (s : σ) (as bs : List α) :
    run step s (as ++ bs) = (run step s as).bind fun s' => run step s' bs := by
  induction as generalizing s with
  | nil => rfl
  | cons a as ih =>
    simp only [List.cons_append, run_cons]
    cases step s a with
    | none => rfl
    | some s' => exact ih s'

/-- Two runs in a row are one run. -/
theorem run_trans {s s' t : σ} {as bs : List α} (h : run step s as = some s')
    (h' : run step s' bs = some t) : run step s (as ++ bs) = some t := by
  rw [run_append, h]
  exact h'

/-- A run of a concatenation passes through a middle state. -/
theorem run_append_some {s t : σ} {as bs : List α} (h : run step s (as ++ bs) = some t) :
    ∃ s', run step s as = some s' ∧ run step s' bs = some t := by
  rw [run_append] at h
  exact Option.bind_eq_some_iff.mp h

@[simp] theorem run_singleton (s : σ) (a : α) : run step s [a] = step s a := by
  rw [run_cons]
  cases step s a <;> rfl

/-- What a written run computes of its last state. -/
theorem run_reads {s t : σ} {as : List α} {f : σ → β} {b : β} (hrun : run step s as = some t)
    (hread : (run step s as).map f = some b) : f t = b := by
  rw [hrun] at hread
  exact Option.some.inj hread

/-- Repeating one action comes to one end, however often it is repeated. -/
theorem run_replicate_unique {s t t' : σ} {a : α} {m n : Nat}
    (h : run step s (List.replicate m a) = some t) (hend : step t a = none)
    (h' : run step s (List.replicate n a) = some t') (hend' : step t' a = none) : t = t' := by
  have hmore : ∀ {u u' : σ} {k : Nat}, step u a = none →
      run step u (List.replicate k a) = some u' → u = u' := by
    intro u u' k hstuck hrun
    cases k with
    | zero => exact Option.some.inj hrun
    | succ k =>
      rw [List.replicate_succ, run_cons, hstuck] at hrun
      exact absurd hrun (by simp)
  rcases Nat.le_total m n with hmn | hnm
  · obtain ⟨k, rfl⟩ := Nat.exists_eq_add_of_le hmn
    rw [List.replicate_add, run_append, h] at h'
    exact hmore hend h'
  · obtain ⟨k, rfl⟩ := Nat.exists_eq_add_of_le hnm
    rw [List.replicate_add, run_append, h'] at h
    exact (hmore hend' h).symm

/-- Every step a run takes meets `P`, a condition on the action and the state before it. -/
def StepsMeet (step : σ → α → Option σ) (P : σ → α → Prop) (s₀ : σ) (as : List α) : Prop :=
  ∀ pre a post s s', as = pre ++ a :: post → run step s₀ pre = some s → step s a = some s' →
    P s a

/-- Every state a run reaches, the first and the last included, meets `Q`. -/
def StatesMeet (step : σ → α → Option σ) (Q : σ → Prop) (s₀ : σ) (as : List α) : Prop :=
  ∀ pre post s, as = pre ++ post → run step s₀ pre = some s → Q s

theorem StepsMeet.head {P : σ → α → Prop} {s s' : σ} {a : α} {as : List α}
    (h : StepsMeet step P s (a :: as)) (ha : step s a = some s') : P s a :=
  h [] a as s s' rfl rfl ha

theorem StepsMeet.tail {P : σ → α → Prop} {s s' : σ} {a : α} {as : List α}
    (h : StepsMeet step P s (a :: as)) (ha : step s a = some s') : StepsMeet step P s' as := by
  intro pre b post t t' hsplit hrun hb
  refine h (a :: pre) b post t t' (by rw [hsplit]; rfl) ?_ hb
  rw [run_cons, ha]
  exact hrun

theorem stepsMeet_nil {P : σ → α → Prop} (s : σ) : StepsMeet step P s [] := by
  intro pre a post _ _ hsplit
  exact absurd hsplit (by simp)

/-- A run meets `P` when its first step does and the run of the rest does. -/
theorem StepsMeet.cons {P : σ → α → Prop} {s s' : σ} {a : α} {as : List α}
    (ha : step s a = some s') (hP : P s a) (h : StepsMeet step P s' as) :
    StepsMeet step P s (a :: as) := by
  intro pre b post t t' hsplit hrun hb
  cases pre with
  | nil =>
    -- the step asked about is the first one
    obtain ⟨rfl, rfl⟩ := List.cons.inj hsplit
    cases hrun
    exact hP
  | cons c pre =>
    -- it is one of the rest, behind the first
    obtain ⟨rfl, rfl⟩ := List.cons.inj hsplit
    rw [run_cons, ha] at hrun
    exact h pre b post t t' rfl hrun hb

/-- Of a run that is written down the side condition can be computed. -/
instance StepsMeet.decidable {P : σ → α → Prop} [∀ s a, Decidable (P s a)] :
    ∀ s as, Decidable (StepsMeet step P s as)
  | s, [] => isTrue (stepsMeet_nil s)
  | s, a :: as =>
    match h : step s a with
    | none => isTrue fun pre b post t t' hsplit hrun hb => by
        cases pre with
        | nil =>
          obtain ⟨rfl, rfl⟩ := List.cons.inj hsplit
          cases hrun
          exact absurd hb (by simp [h])
        | cons c pre =>
          obtain ⟨rfl, rfl⟩ := List.cons.inj hsplit
          exact absurd hrun (by simp [run_cons, h])
    | some s' =>
      have := StepsMeet.decidable (P := P) s' as
      decidable_of_iff (P s a ∧ StepsMeet step P s' as)
        ⟨fun hmeet => .cons h hmeet.1 hmeet.2, fun hmeet => ⟨hmeet.head h, hmeet.tail h⟩⟩

theorem StepsMeet.take {P : σ → α → Prop} {s : σ} {as bs : List α}
    (h : StepsMeet step P s (as ++ bs)) : StepsMeet step P s as := by
  intro pre a post t t' hsplit hrun ha
  exact h pre a (post ++ bs) t t' (by rw [hsplit]; simp) hrun ha

/-- A side condition that every enabled step meets is met by every run. -/
theorem stepsMeet_of_forall {P : σ → α → Prop}
    (h : ∀ s a s', step s a = some s' → P s a) (s₀ : σ) (as : List α) :
    StepsMeet step P s₀ as :=
  fun _ a _ s s' _ _ ha => h s a s' ha

/-- The invariant rule, for runs whose steps meet a side condition. -/
theorem run_inv_of {P : σ → α → Prop} {I : σ → Prop}
    (hstep : ∀ s a s', I s → P s a → step s a = some s' → I s') :
    ∀ {as : List α} {s s' : σ}, StepsMeet step P s as → I s → run step s as = some s' → I s' := by
  intro as
  induction as with
  | nil =>
    intro s s' _ hI hrun
    rw [run_nil] at hrun
    cases hrun
    exact hI
  | cons a as ih =>
    intro s s' hP hI hrun
    obtain ⟨t, ht, hrest⟩ := run_cons_some.mp hrun
    exact ih (hP.tail ht) (hstep s a t hI (hP.head ht) ht) hrest

/-- The invariant rule: what one step preserves, a run preserves. -/
theorem run_inv {I : σ → Prop} (hstep : ∀ s a s', I s → step s a = some s' → I s')
    {as : List α} {s s' : σ} (hI : I s) (hrun : run step s as = some s') : I s' :=
  run_inv_of (P := fun _ _ => True) (fun s a s' hI _ h => hstep s a s' hI h)
    (stepsMeet_of_forall (fun _ _ _ _ => trivial) s as) hI hrun

/-- An invariant of one step holds in every state a run reaches. -/
theorem statesMeet_of_inv {P : σ → α → Prop} {I : σ → Prop}
    (hstep : ∀ s a s', I s → P s a → step s a = some s' → I s') {as : List α} {s₀ : σ}
    (hP : StepsMeet step P s₀ as) (hI : I s₀) : StatesMeet step I s₀ as := by
  intro pre post s hsplit hrun
  rw [hsplit] at hP
  exact run_inv_of hstep hP.take hI hrun

/-- The simulation rule. The abstract system answers each concrete action `a` by the run
`f a` of its own actions; related states stay related. -/
theorem run_simulates {step₂ : τ → β → Option τ} {R : σ → τ → Prop} {P : σ → α → Prop}
    {f : α → List β}
    (hstep : ∀ s a s' t, R s t → P s a → step s a = some s' →
      ∃ t', run step₂ t (f a) = some t' ∧ R s' t') :
    ∀ {as : List α} {s s' : σ} {t : τ}, StepsMeet step P s as → R s t →
      run step s as = some s' → ∃ t', run step₂ t (as.flatMap f) = some t' ∧ R s' t' := by
  intro as
  induction as with
  | nil =>
    intro s s' t _ hR hrun
    rw [run_nil] at hrun
    cases hrun
    exact ⟨t, rfl, hR⟩
  | cons a as ih =>
    intro s s' t hP hR hrun
    obtain ⟨u, hu, hrest⟩ := run_cons_some.mp hrun
    -- answer the first step by `f a`, and go on from the related states
    obtain ⟨t₁, ht₁, hR₁⟩ := hstep s a u t hR (hP.head hu) hu
    obtain ⟨t₂, ht₂, hR₂⟩ := ih (hP.tail hu) hR₁ hrest
    exact ⟨t₂, run_trans ht₁ ht₂, hR₂⟩

end SupertonicServer.Lib
