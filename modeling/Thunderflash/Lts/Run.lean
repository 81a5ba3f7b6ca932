/-
Runs of a partial step function: reachability under a condition on the steps taken, and the rules
by which invariants and projections carry over to every reachable state.
-/
import Mathlib.Logic.Relation
import Mathlib.Tactic

namespace Lts

section Run

variable {σ α : Type*} {step : σ → α → Option σ} {ok : σ → α → σ → Prop} {s0 s s' : σ}

/-- The state after a list of actions, if each of them can be taken. -/
def run (step : σ → α → Option σ) (s : σ) : List α → Option σ
  | [] => some s
  | a :: as => (step s a).bind fun s' => run step s' as

/-- The same with a check of every step taken. -/
def runIf (step : σ → α → Option σ) (check : σ → α → σ → Bool) (s : σ) : List α → Option σ
  | [] => some s
  | a :: as => (step s a).bind fun s' => if check s a s' then runIf step check s' as else none

/-- The states reachable from `s0` by steps that meet `ok`. -/
inductive Reach (step : σ → α → Option σ) (ok : σ → α → σ → Prop) (s0 : σ) : σ → Prop
  | init : Reach step ok s0 s0
  | step {s : σ} {a : α} {s' : σ} : Reach step ok s0 s → step s a = some s' → ok s a s' → Reach step ok s0 s'

/-- No condition on the steps. -/
def Any (_ : σ) (_ : α) (_ : σ) : Prop := True

theorem Reach.mono {ok' : σ → α → σ → Prop} (h : Reach step ok s0 s) (hok : ∀ s a s', ok s a s' → ok' s a s') :
    Reach step ok' s0 s := by
  induction h with
  | init => exact .init
  | step _ hs ho ih => exact .step ih hs (hok _ _ _ ho)

theorem Reach.any (h : Reach step ok s0 s) : Reach step Any s0 s := h.mono fun _ _ _ _ => trivial

theorem Reach.trans (h : Reach step ok s0 s) (h' : Reach step ok s s') : Reach step ok s0 s' := by
  induction h' with
  | init => exact h
  | step _ hs ho ih => exact .step ih hs ho

theorem Reach.of_run : ∀ {as : List α} {s0 : σ}, run step s0 as = some s → Reach step Any s0 s
  | [], _, h => by cases h; exact .init
  | a :: as, s0, h => by
    obtain ⟨s1, h1, h2⟩ := Option.bind_eq_some_iff.1 h
    have hfirst : Reach step Any s0 s1 := .step .init h1 trivial
    exact hfirst.trans (of_run h2)

theorem Reach.of_runIf {check : σ → α → σ → Bool} (hc : ∀ s a s', check s a s' = true → ok s a s') :
    ∀ {as : List α} {s0 : σ}, runIf step check s0 as = some s → Reach step ok s0 s
  | [], _, h => by cases h; exact .init
  | a :: as, s0, h => by
    obtain ⟨s1, h1, h2⟩ := Option.bind_eq_some_iff.1 h
    split at h2
    · rename_i hs
      have hfirst : Reach step ok s0 s1 := .step .init h1 (hc _ _ _ hs)
      exact hfirst.trans (of_runIf hc h2)
    · cases h2

/-- Where every step keeps `P` and costs some of a store of work, a run is no longer than what there
was. -/
theorem run_length_le {P : σ → Prop} {work : σ → Nat}
    (hd : ∀ s a s', P s → step s a = some s' → P s' ∧ work s' < work s) :
    ∀ {as : List α} {s s' : σ}, P s → run step s as = some s' → as.length + work s' ≤ work s
  | [], _, _, _, h => by cases h; simp
  | a :: as, s, s', hp, h => by
    obtain ⟨s1, h1, h2⟩ := Option.bind_eq_some_iff.1 h
    obtain ⟨hp1, hlt⟩ := hd _ _ _ hp h1
    have hrest := run_length_le hd hp1 h2
    rw [List.length_cons]
    omega

/-- Where every step keeps `P` and lowers a measure, no run goes on forever. -/
theorem no_endless {μ : Type*} [LT μ] [WellFoundedLT μ] {m : σ → μ} {P : σ → Prop} {R : σ → σ → Prop}
    (hd : ∀ s s', P s → R s s' → P s' ∧ m s' < m s) {f : ℕ → σ} (h0 : P (f 0)) : ¬ ∀ n, R (f n) (f (n + 1)) := by
  intro hR
  have hP : ∀ n, P (f n) := by
    intro n
    induction n with
    | zero => exact h0
    | succ n ih => exact (hd _ _ ih (hR n)).1
  obtain ⟨n, hn⟩ := WellFounded.not_rel_apply_succ (r := (· < ·)) fun n => m (f n)
  exact hn (hd _ _ (hP n) (hR n)).2

/-- Where one of several does some of its work, there is less to do for all of them. -/
theorem sum_update_lt {β : Type*} {n k : ℕ} {f : ℕ → β} {y : β} (w : ℕ → β → ℕ) (hk : k < n) (h : w k y < w k (f k)) :
    ∑ i ∈ Finset.range n, w i (Function.update f k y i) < ∑ i ∈ Finset.range n, w i (f i) := by
  refine Finset.sum_lt_sum (fun i _ => ?_) ⟨k, Finset.mem_range.2 hk, ?_⟩
  · by_cases hi : i = k
    · subst hi
      rw [Function.update_self]
      exact h.le
    · rw [Function.update_of_ne hi]
  · rw [Function.update_self]
    exact h

/-- What holds at first and is kept by every step holds of every reachable state. -/
theorem Reach.invariant {I : σ → Prop} (h : Reach step ok s0 s) (h0 : I s0)
    (hs : ∀ s a s', Reach step ok s0 s → I s → step s a = some s' → ok s a s' → I s') : I s := by
  induction h with
  | init => exact h0
  | step hr hst ho ih => exact hs _ _ _ hr ih hst ho

/-- The same for an invariant that needs `P` of the state it is proved of, where what fails `P`
fails it for good. -/
theorem Reach.invariant_while {I P : σ → Prop} (h : Reach step ok s0 s) (h0 : I s0)
    (hP : ∀ s a s', step s a = some s' → P s' → P s)
    (hs : ∀ s a s', Reach step ok s0 s → P s → P s' → I s → step s a = some s' → ok s a s' → I s') :
    P s → I s := by
  induction h with
  | init => exact fun _ => h0
  | step hr hst ho ih =>
    intro hp
    have hp' := hP _ _ _ hst hp
    exact hs _ _ _ hr hp' hp (ih hp') hst ho

/-- A relation that every step respects holds between the start and every reachable state. -/
theorem Reach.rel {R : σ → σ → Prop} (h : Reach step ok s0 s) (hrefl : ∀ s, R s s)
    (htrans : ∀ a b c, R a b → R b c → R a c) (hs : ∀ s a s', step s a = some s' → R s s') : R s0 s := by
  induction h with
  | init => exact hrefl _
  | step _ hst _ ih => exact htrans _ _ _ ih (hs _ _ _ hst)

/-- A projection under which every step becomes a run projects every run to one. -/
theorem Reach.project {τ β : Type*} {step' : τ → β → Option τ} {ok' : τ → β → τ → Prop} (f : σ → τ)
    (h : Reach step ok s0 s)
    (hs : ∀ s a s', step s a = some s' → ok s a s' → Reach step' ok' (f s) (f s')) :
    Reach step' ok' (f s0) (f s) := by
  induction h with
  | init => exact .init
  | step _ hst ho ih => exact ih.trans (hs _ _ _ hst ho)

end Run

end Lts
