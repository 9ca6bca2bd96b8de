import Mathlib.Data.List.Basic
import Mathlib.Data.List.Nodup
import Mathlib.Data.List.Flatten

/-! Linearizability of a history of concurrent calls with respect to a sequential object,
and the rule by which it is proved here: the calls lie in blocks one after the other, and
a call that returns before another one is made lies in an earlier block. -/

namespace Linearizability

variable {ι O R σ : Type}

inductive Event (ι O R : Type) where
  | invoke (id : ι) (op : O)
  | respond (id : ι) (res : R)
  deriving DecidableEq, Repr

/-- A call of a sequential history. -/
structure Call (ι O R : Type) where
  id : ι
  op : O
  res : R

/-- Each call returns what the object answers in its state. -/
def Legal (spec : σ → O → σ × R) : σ → List (Call ι O R) → Prop
  | _, [] => True
  | s, c :: cs => (spec s c.op).2 = c.res ∧ Legal spec (spec s c.op).1 cs

def final (spec : σ → O → σ × R) (s : σ) (cs : List (Call ι O R)) : σ :=
  cs.foldl (fun s c => (spec s c.op).1) s

/-- The call `a` has returned before the call `b` is made. -/
def Precedes (h : List (Event ι O R)) (a b : ι) : Prop :=
  ∃ h₁ h₂ res op, h = h₁ ++ h₂ ∧ .respond a res ∈ h₁ ∧ .invoke b op ∈ h₂

/-- `cs` is a sequential history for `h`: it has every call that has returned, with its
result, and some of the pending ones, and it keeps their order. -/
structure Linearizes (spec : σ → O → σ × R) (s : σ) (h : List (Event ι O R))
    (cs : List (Call ι O R)) : Prop where
  nodup : (cs.map Call.id).Nodup
  invoked : ∀ c ∈ cs, .invoke c.id c.op ∈ h
  answered : ∀ id res, .respond id res ∈ h → ∃ c ∈ cs, c.id = id ∧ c.res = res
  legal : Legal spec s cs
  order : cs.Pairwise fun a b => ¬ Precedes h b.id a.id

def Linearizable (spec : σ → O → σ × R) (s : σ) (h : List (Event ι O R)) : Prop :=
  ∃ cs, Linearizes spec s h cs

variable {spec : σ → O → σ × R}

theorem legal_append {s : σ} {cs ds : List (Call ι O R)} :
    Legal spec s (cs ++ ds) ↔ Legal spec s cs ∧ Legal spec (final spec s cs) ds := by
  induction cs generalizing s with
  | nil => exact ⟨fun h => ⟨trivial, h⟩, fun h => h.2⟩
  | cons c cs ih =>
    simp only [List.cons_append, Legal, ih, and_assoc]
    exact Iff.rfl

theorem final_append (s : σ) (cs ds : List (Call ι O R)) :
    final spec s (cs ++ ds) = final spec (final spec s cs) ds := by
  unfold final
  rw [List.foldl_append]

/-- Calls that leave the state alone and return what it says. -/
theorem legal_of_reads {s : σ} {cs : List (Call ι O R)}
    (h : ∀ c ∈ cs, spec s c.op = (s, c.res)) : Legal spec s cs ∧ final spec s cs = s := by
  induction cs with
  | nil => exact ⟨trivial, rfl⟩
  | cons c cs ih =>
    have hc := h c List.mem_cons_self
    obtain ⟨hlegal, hfinal⟩ := ih fun d hd => h d (List.mem_cons_of_mem _ hd)
    refine ⟨⟨by rw [hc], by rw [hc]; exact hlegal⟩, ?_⟩
    show final spec (spec s c.op).1 cs = s
    rw [hc]
    exact hfinal

section

variable {block : Nat → List (Call ι O R)} {state : Nat → σ}

theorem legal_blocks {N : Nat} (h : ∀ k < N, Legal spec (state k) (block k) ∧
    final spec (state k) (block k) = state (k + 1)) :
    Legal spec (state 0) ((List.range N).flatMap block) ∧
      final spec (state 0) ((List.range N).flatMap block) = state N := by
  induction N with
  | zero => exact ⟨trivial, rfl⟩
  | succ N ih =>
    obtain ⟨hlegal, hfinal⟩ := ih fun k hk => h k (Nat.lt_succ_of_lt hk)
    obtain ⟨hlegal', hfinal'⟩ := h N (Nat.lt_succ_self N)
    rw [List.range_succ, List.flatMap_append, List.flatMap_singleton, legal_append, final_append,
      hfinal]
    exact ⟨⟨hlegal, hlegal'⟩, hfinal'⟩

theorem linearizable_of_blocks {h : List (Event ι O R)} (N : Nat)
    (hstate : ∀ k < N, Legal spec (state k) (block k) ∧
      final spec (state k) (block k) = state (k + 1))
    (hnodup : ∀ k, ((block k).map Call.id).Nodup)
    (hdisj : ∀ i j, ∀ a ∈ block i, ∀ b ∈ block j, a.id = b.id → i = j)
    (hinv : ∀ k, ∀ c ∈ block k, .invoke c.id c.op ∈ h)
    (hres : ∀ id res, .respond id res ∈ h → ∃ k < N, ∃ c ∈ block k, c.id = id ∧ c.res = res)
    (horder : ∀ i j, ∀ a ∈ block i, ∀ b ∈ block j, Precedes h a.id b.id → i < j) :
    Linearizable spec (state 0) h := by
  refine ⟨(List.range N).flatMap block, ?_, ?_, ?_, (legal_blocks hstate).1, ?_⟩
  · rw [List.map_flatMap, List.nodup_flatMap]
    refine ⟨fun k _ => hnodup k, List.pairwise_lt_range.imp fun {i j} hlt => ?_⟩
    intro id hi hj
    obtain ⟨a, ha, rfl⟩ := List.mem_map.mp hi
    obtain ⟨b, hb, heq⟩ := List.mem_map.mp hj
    exact absurd (hdisj i j a ha b hb heq.symm) (Nat.ne_of_lt hlt)
  · intro c hc
    obtain ⟨k, -, hc⟩ := List.mem_flatMap.mp hc
    exact hinv k c hc
  · intro id res hr
    obtain ⟨k, hk, c, hc, heq⟩ := hres id res hr
    exact ⟨c, List.mem_flatMap.mpr ⟨k, List.mem_range.mpr hk, hc⟩, heq⟩
  · rw [List.pairwise_flatMap]
    refine ⟨fun k _ => ?_, List.pairwise_lt_range.imp fun {i j} hlt a ha b hb hp => ?_⟩
    · exact List.pairwise_of_forall_mem_list fun a ha b hb hp =>
        Nat.lt_irrefl k (horder k k b hb a ha hp)
    · exact Nat.lt_asymm hlt (horder j i b hb a ha hp)

end

end Linearizability
