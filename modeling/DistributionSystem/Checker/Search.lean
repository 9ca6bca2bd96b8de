import DistributionSystem.Checker.Lifting
import DistributionSystem.Lib.Explore
import Mathlib.Logic.Relation

/-! The search `checkSingle` over the linked entries of a history, and the search problem that
it stands for: a configuration is the set of linearized operations with the state they lead to,
a move linearizes an operation that is called before anything returns, and what can be reached
is whether the rest of the history is linearizable. -/

namespace DistributionSystem.Checker

open Explore Heap

variable {V S : Type}

structure CacheEntry (S : Type) where
  linearized : Bitset
  state : S

def cacheContains (model : Model V S) (cache : UInt64 → List (CacheEntry S))
    (entry : CacheEntry S) : Bool :=
  (cache entry.linearized.hash).any fun elem =>
    entry.linearized.equals elem.linearized && model.equal entry.state elem.state

/-- The variables of `checkSingle`. The last of `calls` is the first element here. -/
structure Search (V S : Type) where
  heap : Heap V
  linearized : Bitset
  cache : UInt64 → List (CacheEntry S)
  calls : List (Nat × S)
  state : S
  entry : Option Nat

/-- The branch of a call entry. Only the head entry has no value. -/
def tryCall (model : Model V S) (headEntry : Nat) (m : Search V S) (p matching : Nat)
    (entry : Node V) : Option (Search V S ⊕ Bool) := do
  let ret ← m.heap[matching]?
  let input ← entry.value
  let output ← ret.value
  let (ok, newState) := model.step m.state input output
  if ok then do
    let newLinearized ← (Bitset.clone m.linearized).set entry.id
    let newCacheEntry : CacheEntry S := ⟨newLinearized, newState⟩
    if !cacheContains model m.cache newCacheEntry then do
      let hash := newLinearized.hash
      let linearized ← m.linearized.set entry.id
      let heap ← lift m.heap p
      let head ← heap[headEntry]?
      some (.inl ⟨heap, linearized,
        Function.update m.cache hash (m.cache hash ++ [newCacheEntry]), (p, m.state) :: m.calls,
        newState, head.next⟩)
    else some (.inl { m with entry := entry.next })
  else some (.inl { m with entry := entry.next })

/-- The branch of a return entry. -/
def backtrack (m : Search V S) : Option (Search V S ⊕ Bool) :=
  match m.calls with
  | [] => some (.inr false)
  | (p, state) :: calls => do
    let entry ← m.heap[p]?
    let linearized ← m.linearized.clear entry.id
    let heap ← unlift m.heap p
    let entry ← heap[p]?
    some (.inl ⟨heap, linearized, m.cache, calls, state, entry.next⟩)

/-- One round of the loop, with the kill flag as it is read then: the search goes on, or gives
its answer. -/
def iterate (model : Model V S) (headEntry : Nat) (kill : Bool) (m : Search V S) :
    Option (Search V S ⊕ Bool) := do
  let head ← m.heap[headEntry]?
  match head.next with
  | none => some (.inr true)
  | some _ =>
    if kill then some (.inr false)
    else do
      let p ← m.entry
      let entry ← m.heap[p]?
      match entry.matching with
      | some matching => tryCall model headEntry m p matching entry
      | none => backtrack m

/-- At most `fuel` rounds of the loop. -/
def loop (model : Model V S) (headEntry : Nat) : Nat → (Nat → Bool) → Search V S → Option Bool
  | 0, _, _ => none
  | fuel + 1, kill, m => do
    match ← iterate model headEntry (kill 0) m with
    | .inr answer => some answer
    | .inl m => loop model headEntry fuel (fun round => kill (round + 1)) m

/-- `none` stands for a nil dereference, an index out of range, or no answer within `fuel`. -/
def checkSingle (model : Model V S) (fuel : Nat) (kill : Nat → Bool) (h : Heap V)
    (subhistory : Option Nat) : Option Bool := do
  let n ← length h fuel subhistory
  let headEntry := h.length
  let h ← insertBefore (h ++ [headNode]) headEntry subhistory
  loop model headEntry fuel kill
    ⟨h, Bitset.newBitset (n / 2), fun _ => [], [], model.init, subhistory⟩

/-- The head entry and the variables of `checkSingle` when its loop begins. -/
def startSearch (model : Model V S) (fuel : Nat) (h : Heap V) (subhistory : Option Nat) :
    Option (Nat × Search V S) := do
  let n ← length h fuel subhistory
  let headEntry := h.length
  let h ← insertBefore (h ++ [headNode]) headEntry subhistory
  some (headEntry, ⟨h, Bitset.newBitset (n / 2), fun _ => [], [], model.init, subhistory⟩)

theorem checkSingle_eq (model : Model V S) (fuel : Nat) (kill : Nat → Bool) (h : Heap V)
    (subhistory : Option Nat) : checkSingle model fuel kill h subhistory =
      (startSearch model fuel h subhistory).bind fun x => loop model x.1 fuel kill x.2 := by
  rw [checkSingle, startSearch]
  cases length h fuel subhistory with
  | none => rfl
  | some n =>
    cases hins : insertBefore (h ++ [headNode]) h.length subhistory <;>
      simp [hins]

/-- What the checker runs for the entries of one part of a history. -/
def checkEntries (model : Model V S) (fuel : Nat) (kill : Nat → Bool) (entries : List (Entry V)) :
    Option Bool := do
  let (l, root, _) ← makeLinkedEntries entries
  checkSingle model fuel kill l root

/-- What it runs for one part of a history of events. -/
def checkEvents (model : Model V S) (fuel : Nat) (kill : Nat → Bool) (subhistory : List (Event V)) :
    Option Bool :=
  checkEntries model fuel kill (convertEntries (renumber subhistory))

section problem

/-- The events of the operations that are not linearized yet. -/
def remaining (evs : List (Event V)) (b : Bitset) : List (Event V) :=
  evs.filter fun e => !b.has e.id

/-- The configuration after linearizing the operation that `e` calls. -/
def move (model : Model V S) (evs : List (Event V)) (c : CacheEntry S) (e : Event V) :
    Option (CacheEntry S) := do
  let output ← outputOf evs e.id
  let linearized ← c.linearized.set e.id
  let (ok, state) := model.step c.state e.value output
  if ok then some ⟨linearized, state⟩ else none

/-- The search for an order of the operations. -/
def problem (model : Model V S) (evs : List (Event V)) : Problem (CacheEntry S) where
  moves c := ((remaining evs c.linearized).takeWhile Event.isCall).map (move model evs c)
  goal c := remaining evs c.linearized = []
  rank c := (remaining evs c.linearized).length
  same c d := c.linearized.equals d.linearized && model.equal c.state d.state

variable {model : Model V S} {evs : List (Event V)} {c d : CacheEntry S} {e : Event V}

theorem move_eq_some (h : move model evs c e = some d) : ∃ output,
    outputOf evs e.id = some output ∧ c.linearized.set e.id = some d.linearized ∧
      (model.step c.state e.value output).1 = true ∧
      d.state = (model.step c.state e.value output).2 := by
  simp only [move, Option.bind_eq_bind, Option.bind_eq_some_iff] at h
  obtain ⟨output, hout, lin, hlin, h⟩ := h
  split at h
  · rename_i hok
    obtain rfl := Option.some.inj h
    exact ⟨output, hout, hlin, hok, rfl⟩
  · exact absurd h (by simp)

/-- Linearizing an operation takes its events out. -/
theorem remaining_set {b b' : Bitset} {id : Nat} (h : b.set id = some b') :
    remaining evs b' = without id (remaining evs b) := by
  rw [remaining, without, remaining, List.filter_filter]
  apply List.filter_congr
  intro x _
  rw [Bitset.has_set h, Bool.not_or, Event.of, Bool.and_comm]
  simp only [eq_comm]

theorem length_remaining_lt {b b' : Bitset} (he : e ∈ remaining evs b) (h : b.set e.id = some b') :
    (remaining evs b').length < (remaining evs b).length := by
  rw [remaining_set h, without]
  exact List.length_filter_lt_length_iff_exists.mpr ⟨e, he, by simp [Event.of]⟩

theorem outputOf_remaining {b : Bitset} (he : e ∈ remaining evs b) :
    outputOf (remaining evs b) e.id = outputOf evs e.id :=
  outputOf_filter_id (p := fun i => !b.has i) (List.mem_filter.mp he).2

theorem same_iff : (problem model evs).same c d = true ↔
    c.linearized = d.linearized ∧ model.equal c.state d.state = true := by
  simp only [problem, Bool.and_eq_true, Bitset.equals_iff]

/-- From equal states the same moves are possible. -/
theorem move_same (hm : model.Lawful) {c' : CacheEntry S} (hs : (problem model evs).same c d = true)
    (h : move model evs c e = some c') :
    ∃ d', move model evs d e = some d' ∧ (problem model evs).same c' d' = true := by
  obtain ⟨hlin, heq⟩ := same_iff.mp hs
  obtain ⟨output, hout, hset, hok, hstate⟩ := move_eq_some h
  have hok' := (hm.step_ok _ _ e.value output heq).symm.trans hok
  refine ⟨⟨c'.linearized, (model.step d.state e.value output).2⟩, ?_, same_iff.mpr ⟨rfl, ?_⟩⟩
  · simp [move, hout, ← hlin, hset, hok']
  · rw [hstate]
    exact hm.step_equal _ _ e.value output heq hok

/-- Each move linearizes one more operation. -/
theorem problem_rank_lt (model : Model V S) (evs : List (Event V)) (c d : CacheEntry S)
    (hd : some d ∈ (problem model evs).moves c) :
    (problem model evs).rank d < (problem model evs).rank c := by
  obtain ⟨e, he, hmove⟩ := List.mem_map.mp hd
  obtain ⟨output, -, hset, -⟩ := move_eq_some hmove
  exact length_remaining_lt ((List.takeWhile_prefix _).subset he) hset

theorem problem_lawful (hm : model.Lawful) (evs : List (Event V)) :
    Lawful (problem model evs) := by
  constructor
  · exact problem_rank_lt model evs
  · intro c d hs
    simp only [problem, (same_iff.mp hs).1]
  · intro c d hs hg
    simp only [problem, ← (same_iff.mp hs).1]
    exact hg
  · intro c d c' hs hc'
    obtain ⟨e, he, hmove⟩ := List.mem_map.mp hc'
    obtain ⟨d', hd', hs'⟩ := move_same hm hs hmove
    rw [(same_iff.mp hs).1] at he
    exact ⟨d', List.mem_map.mpr ⟨e, he, hd'⟩, hs'⟩

variable (model) in
/-- A goal can be reached exactly if what remains is linearizable from the state. -/
theorem reach_iff (hw : WellFormed evs) (hc : ∀ e ∈ evs, e.id / 64 < c.linearized.length) :
    Reach (problem model evs) c ↔
      LinearizableFrom model c.state (remaining evs c.linearized) := by
  induction hn : (remaining evs c.linearized).length using Nat.strong_induction_on
    generalizing c with
  | _ n ih =>
    subst hn
    have hwr : WellFormed (remaining evs c.linearized) := hw.filter_id fun i => !c.linearized.has i
    by_cases hg : remaining evs c.linearized = []
    · refine ⟨fun _ => ?_, fun _ => Reach.goal hg⟩
      rw [hg]
      exact ⟨[], List.Perm.nil, trivial, List.Pairwise.nil⟩
    · have hbelow : ∀ e ∈ (remaining evs c.linearized).takeWhile Event.isCall, ∀ d,
          move model evs c e = some d → (Reach (problem model evs) d ↔
            LinearizableFrom model d.state (without e.id (remaining evs c.linearized))) := by
        intro e he d hd
        obtain ⟨output, -, hset, -⟩ := move_eq_some hd
        rw [← remaining_set hset]
        refine ih _ (length_remaining_lt ((List.takeWhile_prefix _).subset he) hset)
          (fun x hx => ?_) rfl
        rw [Bitset.length_set hset]
        exact hc x hx
      rw [hwr.linearizable_iff hg]
      constructor
      · intro hreach
        cases hreach with
        | goal hgoal => exact absurd hgoal hg
        | move hm hd =>
          obtain ⟨e, he, hmove⟩ := List.mem_map.mp hm
          obtain ⟨output, hout, -, hok, hstate⟩ := move_eq_some hmove
          have hlin := (hbelow e he _ hmove).mp hd
          rw [hstate] at hlin
          have hmem := (List.takeWhile_prefix _).subset he
          exact ⟨e, he, output, (outputOf_remaining hmem).trans hout, hok, hlin⟩
      · rintro ⟨e, he, output, hout, hok, hlin⟩
        have hmem := (List.takeWhile_prefix _).subset he
        have hout' := (outputOf_remaining hmem).symm.trans hout
        obtain ⟨lin, hset⟩ := Bitset.set_isSome (hc e (List.mem_filter.mp hmem).1)
        have hmove : move model evs c e =
            some ⟨lin, (model.step c.state e.value output).2⟩ := by
          simp [move, hout', hset, hok]
        exact Reach.move (List.mem_map.mpr ⟨e, he, hmove⟩) ((hbelow e he _ hmove).mpr hlin)

end problem

end DistributionSystem.Checker
