import Mathlib.Data.List.Basic
import Mathlib.Data.List.Induction

/-! Runs of a deterministic transition function under a condition on each step, and
the induction over them. -/

namespace Runs

variable {σ ε : Type}

/-- `Run step ok s es t`: the events `es`, each of which meets `ok` in the state in
which it happens, lead from `s` to `t`. -/
inductive Run (step : σ → ε → Option σ) (ok : σ → ε → Prop) (s : σ) : List ε → σ → Prop
  | nil : Run step ok s [] s
  | snoc {es : List ε} {e : ε} {t u : σ} :
      Run step ok s es t → ok t e → step t e = some u → Run step ok s (es ++ [e]) u

/-- The state after the events `es`, if each of them meets `ok` and can happen. -/
def exec (step : σ → ε → Option σ) (ok : σ → ε → Prop) [∀ s e, Decidable (ok s e)] :
    σ → List ε → Option σ
  | s, [] => some s
  | s, e :: es => if ok s e then (step s e).bind fun t => exec step ok t es else none

variable {step : σ → ε → Option σ} {ok : σ → ε → Prop}

theorem Run.cons {s t u : σ} {e : ε} {es : List ε} (hok : ok s e) (hs : step s e = some t)
    (h : Run step ok t es u) : Run step ok s (e :: es) u := by
  induction h with
  | nil =>
    have h₁ : Run step ok s ([] ++ [e]) t := Run.snoc Run.nil hok hs
    exact h₁
  | snoc _ hok' hs' ih => exact Run.snoc ih hok' hs'

theorem Run.mono {ok' : σ → ε → Prop} {s t : σ} {es : List ε} (h : Run step ok s es t)
    (hok : ∀ s, ∀ e ∈ es, ok s e → ok' s e) : Run step ok' s es t := by
  induction h with
  | nil => exact Run.nil
  | snoc _ h hs ih =>
    have hlast := hok _ _ (List.mem_append_right _ List.mem_cons_self) h
    exact Run.snoc (ih fun s e he => hok s e (List.mem_append_left _ he)) hlast hs

theorem run_of_exec [∀ s e, Decidable (ok s e)] {s t : σ} {es : List ε}
    (h : exec step ok s es = some t) : Run step ok s es t := by
  induction es generalizing s with
  | nil =>
    simp only [exec, Option.some.injEq] at h
    exact h ▸ Run.nil
  | cons e es ih =>
    simp only [exec] at h
    split at h
    · rename_i hok
      obtain ⟨u, hu, h⟩ := Option.bind_eq_some_iff.mp h
      exact Run.cons hok hu (ih h)
    · exact absurd h (by simp)

/-- A run by evaluation, with what is observed of its last state. -/
theorem run_of_exec_map [∀ s e, Decidable (ok s e)] {α : Type} (f : σ → α) {s : σ} {es : List ε}
    {a : α} (h : (exec step ok s es).map f = some a) : ∃ t, Run step ok s es t ∧ f t = a := by
  obtain ⟨t, ht, hf⟩ := Option.map_eq_some_iff.mp h
  exact ⟨t, run_of_exec ht, hf⟩

/-- What holds at the start and is kept by every step that meets `ok` holds at the
end of every run. -/
theorem Run.invariant {s t : σ} {es : List ε} (h : Run step ok s es t) (inv : σ → Prop)
    (h₀ : inv s) (hs : ∀ s e t, inv s → ok s e → step s e = some t → inv t) : inv t := by
  induction h with
  | nil => exact h₀
  | snoc _ hok hst ih => exact hs _ _ _ ih hok hst

/-- The same for what holds of a state together with the events that have led to it. -/
theorem Run.invariant_events {s t : σ} {es : List ε} (h : Run step ok s es t)
    (inv : List ε → σ → Prop) (h₀ : inv [] s)
    (hs : ∀ es u e v, Run step ok s es u → inv es u → ok u e → step u e = some v →
      inv (es ++ [e]) v) : inv es t := by
  induction h with
  | nil => exact h₀
  | snoc hr hok hst ih => exact hs _ _ _ _ hr ih hok hst

/-- Where each step of a system is matched by a step of another one, or by none, so is each
run. -/
theorem Run.simulated {σ' ε' : Type} {step' : σ' → ε' → Option σ'} {ok' : σ' → ε' → Prop} {s t : σ}
    {es : List ε} (h : Run step ok s es t) (R : σ → σ' → Prop) {s' : σ'} (h₀ : R s s')
    (hs : ∀ s s' e t, R s s' → ok s e → step s e = some t →
      R t s' ∨ ∃ e' t', ok' s' e' ∧ step' s' e' = some t' ∧ R t t') :
    ∃ es' t', Run step' ok' s' es' t' ∧ R t t' := by
  induction h with
  | nil => exact ⟨[], s', Run.nil, h₀⟩
  | snoc _ hok hst ih =>
    obtain ⟨es', u', hr, hu⟩ := ih
    rcases hs _ _ _ _ hu hok hst with ht | ⟨e', t', hok', hst', ht⟩
    · exact ⟨es', u', hr, ht⟩
    · exact ⟨es' ++ [e'], t', Run.snoc hr hok' hst', ht⟩

/-- On its way along `es` a run from `s` takes the event `e` behind events and in a state
with `P`. -/
def Took (step : σ → ε → Option σ) (ok : σ → ε → Prop) (s : σ) (es : List ε) (e : ε)
    (P : List ε → σ → Prop) : Prop :=
  ∃ pre post t, es = pre ++ e :: post ∧ Run step ok s pre t ∧ P pre t

theorem Took.snoc {s : σ} {es : List ε} {e : ε} {P : List ε → σ → Prop}
    (h : Took step ok s es e P) (f : ε) : Took step ok s (es ++ [f]) e P := by
  obtain ⟨pre, post, t, rfl, hr, hp⟩ := h
  exact ⟨pre, post ++ [f], t, by simp, hr, hp⟩

theorem Run.took {s t : σ} {es : List ε} {e : ε} {P : List ε → σ → Prop} (h : Run step ok s es t)
    (hp : P es t) : Took step ok s (es ++ [e]) e P :=
  ⟨es, [], t, rfl, h, hp⟩

/-- Where each step lowers a rank, a run is no longer than the rank of its first state. -/
theorem Run.ranked {s t : σ} {es : List ε} (h : Run step ok s es t) (rank : σ → Nat → Prop)
    (hs : ∀ s e t n, rank s n → ok s e → step s e = some t → ∃ n' < n, rank t n') {n : Nat}
    (h₀ : rank s n) : ∃ n', rank t n' ∧ es.length + n' ≤ n := by
  induction h with
  | nil => exact ⟨n, h₀, by simp⟩
  | snoc _ hok hst ih =>
    obtain ⟨m, hm, hle⟩ := ih
    obtain ⟨n', hlt, hn'⟩ := hs _ _ _ m hm hok hst
    refine ⟨n', hn', ?_⟩
    rw [List.length_append, List.length_singleton]
    omega

/-- Where runs are bounded and can go on until they get to `Q`, some run gets there. -/
theorem exists_run_of_bounded {s : σ} {Q : σ → Prop} {bound : Nat}
    (hb : ∀ es t, Run step ok s es t → es.length ≤ bound)
    (hgo : ∀ es t, Run step ok s es t → ¬ Q t → ∃ e u, ok t e ∧ step t e = some u) :
    ∃ es t, Run step ok s es t ∧ Q t := by
  by_contra hnot
  have hlong : ∀ n, ∃ es t, Run step ok s es t ∧ es.length = n := by
    intro n
    induction n with
    | zero => exact ⟨[], s, Run.nil, rfl⟩
    | succ n ih =>
      obtain ⟨es, t, hr, rfl⟩ := ih
      obtain ⟨e, u, hok, hs⟩ := hgo es t hr fun hq => hnot ⟨es, t, hr, hq⟩
      exact ⟨es ++ [e], u, Run.snoc hr hok hs, by simp⟩
  obtain ⟨es, t, hr, hlen⟩ := hlong (bound + 1)
  have hle := hb es t hr
  omega

theorem Run.nil_inv {s t : σ} (h : Run step ok s [] t) : t = s := by
  generalize hl : ([] : List ε) = l at h
  cases h with
  | nil => rfl
  | snoc => exact absurd hl (by simp)

theorem Run.concat_inv {s u : σ} {es : List ε} {e : ε} (h : Run step ok s (es ++ [e]) u) :
    ∃ t, Run step ok s es t ∧ ok t e ∧ step t e = some u := by
  generalize hl : es ++ [e] = l at h
  cases h with
  | nil => exact absurd hl (by simp)
  | @snoc es' e' t _ hr hok hs =>
    obtain ⟨rfl, he⟩ := List.append_inj' hl rfl
    cases he
    exact ⟨t, hr, hok, hs⟩

theorem Run.unique {s t u : σ} {es : List ε} (h : Run step ok s es t) (h' : Run step ok s es u) :
    t = u := by
  induction h generalizing u with
  | nil => exact h'.nil_inv.symm
  | snoc _ _ hs ih =>
    obtain ⟨t', hr', -, hs'⟩ := h'.concat_inv
    obtain rfl := ih hr'
    exact Option.some.inj (hs.symm.trans hs')

/-- Two evaluations that are one event apart, with what is observed before and after it. -/
theorem step_of_exec_map [∀ s e, Decidable (ok s e)] {α β : Type} (f : σ → α) (g : σ → β) {s : σ}
    {es : List ε} {e : ε} {a : α} {b : β} (h : (exec step ok s es).map f = some a)
    (h' : (exec step ok s (es ++ [e])).map g = some b) :
    ∃ t u, Run step ok s es t ∧ ok t e ∧ step t e = some u ∧ Run step ok s (es ++ [e]) u ∧
      f t = a ∧ g u = b := by
  obtain ⟨t, ht, hf⟩ := run_of_exec_map f h
  obtain ⟨u, hu, hg⟩ := run_of_exec_map g h'
  obtain ⟨t', ht', hok, hs⟩ := hu.concat_inv
  obtain rfl := ht.unique ht'
  exact ⟨t, u, ht, hok, hs, hu, hf, hg⟩

/-- A run goes on from each state it has passed. -/
theorem Run.rest {s t u : σ} {es fs : List ε} (h : Run step ok s es t)
    (h' : Run step ok s (es ++ fs) u) : Run step ok t fs u := by
  induction fs using List.reverseRecOn generalizing u with
  | nil =>
    rw [List.append_nil] at h'
    exact h.unique h' ▸ Run.nil
  | append_singleton fs f ih =>
    rw [← List.append_assoc] at h'
    obtain ⟨v, hv, hok, hs⟩ := h'.concat_inv
    exact Run.snoc (ih hv) hok hs

/-- One component of a system changes. -/
theorem split_at {α : Type} {l : List α} {i : Nat} {a : α} (h : l[i]? = some a) :
    ∃ xs ys, l = xs ++ a :: ys ∧ ∀ b, l.set i b = xs ++ b :: ys := by
  obtain ⟨hi, rfl⟩ := List.getElem?_eq_some_iff.mp h
  refine ⟨l.take i, l.drop (i + 1), ?_, fun b => List.set_eq_take_append_cons_drop .. ▸ if_pos hi⟩
  simp

/-- All the others are as they were. -/
theorem forall_mem_replaced {α : Type} {P Q : α → Prop} {xs ys : List α} {a b : α}
    (h : ∀ c ∈ xs ++ a :: ys, P c) (himp : ∀ c, P c → Q c) (hb : Q b) :
    ∀ c ∈ xs ++ b :: ys, Q c := by
  intro c hc
  rcases List.mem_append.mp hc with hc | hc
  · exact himp c (h c (List.mem_append_left _ hc))
  · rcases List.mem_cons.mp hc with rfl | hc
    · exact hb
    · exact himp c (h c (List.mem_append_right _ (List.mem_cons_of_mem _ hc)))

end Runs
