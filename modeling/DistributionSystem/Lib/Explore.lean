import Mathlib.Data.List.Basic

/-! Depth-first search with a cache of the configurations met so far. The search tries moves in
order, skips a configuration that the cache has, and otherwise puts it in the cache before it
goes on below it. Every move leads to a configuration of smaller rank, so a cached
configuration that is met again is never one that is still being explored. -/

namespace Explore

variable {C : Type}

/-- A search problem: the moves from a configuration, in the order in which they are tried
(`none` for one that is not possible), and which configurations the cache takes as the same. -/
structure Problem (C : Type) where
  moves : C → List (Option C)
  goal : C → Prop
  rank : C → Nat
  same : C → C → Bool

/-- A goal can be reached. -/
inductive Reach (P : Problem C) : C → Prop
  | goal {c : C} : P.goal c → Reach P c
  | move {c d : C} : some d ∈ P.moves c → Reach P d → Reach P c

/-- Moves lower the rank, and what the cache takes as the same can do the same. -/
structure Lawful (P : Problem C) : Prop where
  rank_lt : ∀ c d, some d ∈ P.moves c → P.rank d < P.rank c
  same_rank : ∀ c d, P.same c d = true → P.rank c = P.rank d
  same_goal : ∀ c d, P.same c d = true → P.goal c → P.goal d
  same_moves : ∀ c d c', P.same c d = true → some c' ∈ P.moves c →
    ∃ d', some d' ∈ P.moves d ∧ P.same c' d' = true

/-- `Explores P ms k b k'`: trying the moves `ms` with the cache `k` ends with the cache `k'`,
and `b` says whether a goal was found. -/
inductive Explores (P : Problem C) : List (Option C) → List C → Bool → List C → Prop
  | nil {k : List C} : Explores P [] k false k
  | blocked {ms : List (Option C)} {k k' : List C} {b : Bool} :
      Explores P ms k b k' → Explores P (none :: ms) k b k'
  | seen {c : C} {ms : List (Option C)} {k k' : List C} {b : Bool} :
      k.any (P.same c) = true → Explores P ms k b k' → Explores P (some c :: ms) k b k'
  | found {c : C} {ms : List (Option C)} {k : List C} :
      k.any (P.same c) = false → P.goal c → Explores P (some c :: ms) k true (k ++ [c])
  | deeper {c : C} {ms : List (Option C)} {k k' : List C} :
      k.any (P.same c) = false → ¬ P.goal c → Explores P (P.moves c) (k ++ [c]) true k' →
      Explores P (some c :: ms) k true k'
  | back {c : C} {ms : List (Option C)} {k k' k'' : List C} {b : Bool} :
      k.any (P.same c) = false → ¬ P.goal c → Explores P (P.moves c) (k ++ [c]) false k' →
      Explores P ms k' b k'' → Explores P (some c :: ms) k b k''

variable {P : Problem C}

theorem Reach.of_same (hP : Lawful P) {c d : C} (h : Reach P c) (hs : P.same c d = true) :
    Reach P d := by
  induction h generalizing d with
  | goal hg => exact Reach.goal (hP.same_goal _ _ hs hg)
  | move hm _ ih =>
    obtain ⟨d', hm', hs'⟩ := hP.same_moves _ _ _ hs hm
    exact Reach.move hm' (ih hs')

/-- The search ends, whatever the cache takes as the same. -/
theorem explores_total (hlt : ∀ c d, some d ∈ P.moves c → P.rank d < P.rank c) {r : Nat}
    {ms : List (Option C)} (hr : ∀ c, some c ∈ ms → P.rank c < r) (k : List C) :
    ∃ b k', Explores P ms k b k' := by
  induction r generalizing ms k with
  | zero =>
    -- no move is possible
    induction ms with
    | nil => exact ⟨false, k, .nil⟩
    | cons m ms ih =>
      cases m with
      | some c => exact absurd (hr c List.mem_cons_self) (Nat.not_lt_zero _)
      | none =>
        obtain ⟨b, k', h⟩ := ih fun c hc => hr c (List.mem_cons_of_mem _ hc)
        exact ⟨b, k', .blocked h⟩
  | succ r ihr =>
    induction ms generalizing k with
    | nil => exact ⟨false, k, .nil⟩
    | cons m ms ih =>
      have hrest : ∀ c, some c ∈ ms → P.rank c < r + 1 :=
        fun c hc => hr c (List.mem_cons_of_mem _ hc)
      cases m with
      | none =>
        obtain ⟨b, k', h⟩ := ih hrest k
        exact ⟨b, k', .blocked h⟩
      | some c =>
        have hc := hr c List.mem_cons_self
        cases hseen : k.any (P.same c) with
        | true =>
          obtain ⟨b, k', h⟩ := ih hrest k
          exact ⟨b, k', .seen hseen h⟩
        | false =>
          by_cases hg : P.goal c
          · exact ⟨true, _, .found hseen hg⟩
          · have hbelow : ∀ d, some d ∈ P.moves c → P.rank d < r := by
              intro d hd
              have hrank := hlt c d hd
              omega
            obtain ⟨b₁, k₁, h₁⟩ := ihr hbelow (k ++ [c])
            cases b₁ with
            | true => exact ⟨true, k₁, .deeper hseen hg h₁⟩
            | false =>
              obtain ⟨b, k', h⟩ := ih hrest k₁
              exact ⟨b, k', .back hseen hg h₁ h⟩

/-- From the cached configurations of rank below `r` no goal can be reached. -/
def Spent (P : Problem C) (r : Nat) (k : List C) : Prop :=
  ∀ c ∈ k, P.rank c < r → ¬ Reach P c

/-- While `c` is explored it does not count as spent. -/
theorem Spent.enter {r : Nat} {k : List C} (hk : Spent P r k) {c : C} (hc : P.rank c < r) :
    Spent P (P.rank c) (k ++ [c]) := by
  intro x hx hlt
  rcases List.mem_append.mp hx with hx | hx
  · exact hk x hx (Nat.lt_trans hlt hc)
  · rw [List.mem_singleton.mp hx] at hlt
    exact absurd hlt (Nat.lt_irrefl _)

/-- Once the search below `c` has failed, `c` is spent, and so is what that search has added. -/
theorem Spent.leave {r : Nat} {k k' : List C} (hk : Spent P r k) {c : C} (hfail : ¬ Reach P c)
    (hspent : Spent P (P.rank c) k') (hnew : ∀ x ∈ k', x ∈ k ++ [c] ∨ P.rank x < P.rank c) :
    Spent P r k' := by
  intro x hx hlt
  rcases hnew x hx with hx | hxr
  · rcases List.mem_append.mp hx with hx | hx
    · exact hk x hx hlt
    · rw [List.mem_singleton.mp hx]
      exact hfail
  · exact hspent x hx hxr

/-- A positive answer is right; after a negative one nothing can be reached, and the search
has only added spent configurations. -/
theorem explores_correct (hP : Lawful P) {ms : List (Option C)} {k k' : List C} {b : Bool}
    (h : Explores P ms k b k') {r : Nat} (hr : ∀ c, some c ∈ ms → P.rank c < r)
    (hk : Spent P r k) :
    (b = true → ∃ c, some c ∈ ms ∧ Reach P c) ∧
      (b = false → (∀ c, some c ∈ ms → ¬ Reach P c) ∧ Spent P r k' ∧
        ∀ c ∈ k', c ∈ k ∨ P.rank c < r) := by
  induction h generalizing r with
  | nil => exact ⟨fun hb => absurd hb (by simp), fun _ => ⟨by simp, hk, fun c hc => Or.inl hc⟩⟩
  | blocked _ ih =>
    obtain ⟨htrue, hfalse⟩ := ih (fun c hc => hr c (List.mem_cons_of_mem _ hc)) hk
    refine ⟨fun hb => ?_, fun hb => ?_⟩
    · obtain ⟨c, hc, hreach⟩ := htrue hb
      exact ⟨c, List.mem_cons_of_mem _ hc, hreach⟩
    · obtain ⟨hnone, hspent⟩ := hfalse hb
      refine ⟨fun c hc => hnone c ?_, hspent⟩
      simpa using hc
  | @seen c ms k k' b hseen _ ih =>
    obtain ⟨htrue, hfalse⟩ := ih (fun c hc => hr c (List.mem_cons_of_mem _ hc)) hk
    refine ⟨fun hb => ?_, fun hb => ?_⟩
    · obtain ⟨d, hd, hreach⟩ := htrue hb
      exact ⟨d, List.mem_cons_of_mem _ hd, hreach⟩
    · obtain ⟨hnone, hspent⟩ := hfalse hb
      refine ⟨fun d hd => ?_, hspent⟩
      rcases List.mem_cons.mp hd with heq | hd
      · obtain rfl := Option.some.inj heq
        obtain ⟨x, hx, hsame⟩ := List.any_eq_true.mp hseen
        intro hreach
        have hrank := hP.same_rank _ _ hsame
        exact hk x hx (hrank ▸ hr d List.mem_cons_self) (hreach.of_same hP hsame)
      · exact hnone d hd
  | @found c ms k _ hg =>
    exact ⟨fun _ => ⟨c, List.mem_cons_self, Reach.goal hg⟩, fun hb => absurd hb (by simp)⟩
  | @deeper c ms k k' _ _ _ ih =>
    refine ⟨fun hb => ?_, fun hb => absurd hb (by simp)⟩
    have hspent := hk.enter (hr c List.mem_cons_self)
    obtain ⟨d, hd, hreach⟩ := (ih (hP.rank_lt c) hspent).1 hb
    exact ⟨c, List.mem_cons_self, Reach.move hd hreach⟩
  | @back c ms k k' k'' b _ hg _ _ ih₁ ih₂ =>
    have hc := hr c List.mem_cons_self
    obtain ⟨hnone, hspent, hnew⟩ := (ih₁ (hP.rank_lt c) (hk.enter hc)).2 rfl
    have hfail : ¬ Reach P c := by
      intro hreach
      cases hreach with
      | goal hgoal => exact hg hgoal
      | move hm hd => exact hnone _ hm hd
    obtain ⟨htrue, hfalse⟩ := ih₂ (fun d hd => hr d (List.mem_cons_of_mem _ hd))
      (hk.leave hfail hspent hnew)
    refine ⟨fun hb => ?_, fun hb => ?_⟩
    · obtain ⟨d, hd, hreach⟩ := htrue hb
      exact ⟨d, List.mem_cons_of_mem _ hd, hreach⟩
    · obtain ⟨hrest, hspent'', hnew''⟩ := hfalse hb
      refine ⟨fun d hd => ?_, hspent'', fun x hx => ?_⟩
      · rcases List.mem_cons.mp hd with heq | hd
        · exact Option.some.inj heq ▸ hfail
        · exact hrest d hd
      · rcases hnew'' x hx with hx | hxr
        · rcases hnew x hx with hx | hxr
          · rcases List.mem_append.mp hx with hx | hx
            · exact Or.inl hx
            · exact Or.inr (List.mem_singleton.mp hx ▸ hc)
          · exact Or.inr (Nat.lt_trans hxr hc)
        · exact Or.inr hxr

/-- The search from a configuration that is no goal finds one if and only if one can be
reached. -/
theorem explores_iff (hP : Lawful P) {c : C} (hg : ¬ P.goal c) {b : Bool} {k : List C}
    (h : Explores P (P.moves c) [] b k) : b = true ↔ Reach P c := by
  obtain ⟨htrue, hfalse⟩ := explores_correct hP h (hP.rank_lt c) (fun x hx => absurd hx (by simp))
  constructor
  · intro hb
    obtain ⟨d, hd, hreach⟩ := htrue hb
    exact Reach.move hd hreach
  · intro hreach
    cases hb : b with
    | true => rfl
    | false =>
      cases hreach with
      | goal hgoal => exact absurd hgoal hg
      | move hm hd => exact absurd hd ((hfalse hb).1 _ hm)

end Explore
