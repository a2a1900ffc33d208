import Mathlib.Order.WellFounded
import SupertonicServer.Lib.Run

/-!
# Runs that come to rest

Some actions of a system are its own, `inner`, the others come from its environment. If every
inner step takes some measure down in a well-founded order, then no schedule of inner steps
goes on for ever, whichever enabled step it takes next, and from every state some schedule
ends where no inner step is enabled. The measure may rest on an invariant.
-/

namespace SupertonicServer.Lib

variable {σ τ α β γ : Type}

/-- No inner action is enabled. -/
def Settled (step : σ → α → Option σ) (inner : α → Prop) (s : σ) : Prop :=
  ∀ a, inner a → step s a = none

/-- Some schedule of inner steps never ends. -/
def RunsOn (step : σ → α → Option σ) (inner : α → Prop) (s : σ) : Prop :=
  ∃ states : Nat → σ, states 0 = s ∧
    ∀ k, ∃ a, inner a ∧ step (states k) a = some (states (k + 1))

/-- Every inner step from a state of the invariant stays in it and takes the measure down. -/
structure Descends (step : σ → α → Option σ) (inner : α → Prop) (I : σ → Prop)
    (r : β → β → Prop) (measure : σ → β) : Prop where
  keeps : ∀ {s a s'}, I s → inner a → step s a = some s' → I s'
  down : ∀ {s a s'}, I s → inner a → step s a = some s' → r (measure s') (measure s)

variable {step : σ → α → Option σ} {inner : α → Prop} {I : σ → Prop} {r : β → β → Prop}
  {measure : σ → β}

/-- Where not settled, an inner step can be taken. -/
theorem exists_step_of_not_settled {s : σ} (h : ¬ Settled step inner s) :
    ∃ a s', inner a ∧ step s a = some s' := by
  simp only [Settled, not_forall] at h
  obtain ⟨a, ha, hstep⟩ := h
  obtain ⟨s', hs'⟩ := Option.ne_none_iff_exists'.mp hstep
  exact ⟨a, s', ha, hs'⟩

theorem Descends.not_runsOn (h : Descends step inner I r measure) (hwf : WellFounded r) {s : σ}
    (hs : I s) : ¬ RunsOn step inner s := by
  intro hon
  obtain ⟨states, hzero, hnext⟩ := hon
  have hinv : ∀ k, I (states k) := by
    intro k
    induction k with
    | zero => rwa [hzero]
    | succ k ih =>
      obtain ⟨a, ha, hstep⟩ := hnext k
      exact h.keeps ih ha hstep
  -- the measures would go down for ever
  have : IsWellFounded β r := ⟨hwf⟩
  obtain ⟨k, hk⟩ := WellFounded.not_rel_apply_succ (r := r) fun k => measure (states k)
  obtain ⟨a, ha, hstep⟩ := hnext k
  exact hk (h.down (hinv k) ha hstep)

theorem Descends.exists_settled (h : Descends step inner I r measure) (hwf : WellFounded r)
    {s : σ} (hs : I s) :
    ∃ as t, (∀ a ∈ as, inner a) ∧ run step s as = some t ∧ Settled step inner t := by
  -- induction on the measure of the state
  generalize hb : measure s = b
  induction b using hwf.induction generalizing s with
  | _ b ih =>
    by_cases hset : Settled step inner s
    · exact ⟨[], s, by simp, rfl, hset⟩
    · obtain ⟨a, s', ha, hstep⟩ := exists_step_of_not_settled hset
      have hdown := h.down hs ha hstep
      rw [hb] at hdown
      obtain ⟨as, t, has, hrun, ht⟩ := ih (measure s') hdown (h.keeps hs ha hstep) rfl
      refine ⟨a :: as, t, ?_, ?_, ht⟩
      · rw [List.forall_mem_cons]
        exact ⟨ha, has⟩
      · exact run_cons_some.mpr ⟨s', hstep, hrun⟩

/-- **Refinement keeps coming to rest.** Each inner step of the finer system is an inner step of
the coarser one, or takes down a count of its own while the coarser state stays as it is. -/
theorem Descends.refine (h : Descends step inner I r measure) {fine : τ → γ → Option τ}
    {innerFine : γ → Prop} {J : τ → Prop} {proj : τ → σ} {count : τ → Nat}
    (hkeeps : ∀ {t a t'}, J t → innerFine a → fine t a = some t' → J t')
    (hcases : ∀ {t a t'}, J t → innerFine a → fine t a = some t' →
      (∃ b, inner b ∧ step (proj t) b = some (proj t')) ∨
      (proj t' = proj t ∧ count t' < count t)) :
    Descends fine innerFine (fun t => I (proj t) ∧ J t) (Prod.Lex r (· < ·))
      (fun t => (measure (proj t), count t)) := by
  constructor
  · intro t a t' hI ha hstep
    refine ⟨?_, hkeeps hI.2 ha hstep⟩
    rcases hcases hI.2 ha hstep with ⟨b, hb, hcoarse⟩ | ⟨hsame, -⟩
    · exact h.keeps hI.1 hb hcoarse
    · rw [hsame]
      exact hI.1
  · intro t a t' hI ha hstep
    rcases hcases hI.2 ha hstep with ⟨b, hb, hcoarse⟩ | ⟨hsame, hcount⟩
    · exact Prod.Lex.left _ _ (h.down hI.1 hb hcoarse)
    · show Prod.Lex r (· < ·) (measure (proj t'), count t') (measure (proj t), count t)
      rw [hsame]
      exact Prod.Lex.right _ hcount

end SupertonicServer.Lib
