import DistributionSystem.Checker.Search

/-! The loop of `checkSingle` follows the depth-first search with a cache: it tries the calls
before the first return in order, goes down by lifting a call and its return out of the list,
and comes back by putting them in again. So its answer is whether the history is linearizable. -/

namespace DistributionSystem.Checker

open Explore Heap

variable {V S : Type}

/-- The heap of the search when the operations in `b` are linearized. -/
structure Rep (evs : List (Event V)) (h : Heap V) (b : Bitset) : Prop where
  chain : Chain h evs.length ((left evs b.has).map Prod.fst)
  bare : h.bare = nodesOf evs ++ [headNode]
  range : ∀ e ∈ evs, e.id / 64 < b.length

namespace Rep

variable {evs : List (Event V)} {h : Heap V} {b : Bitset}

theorem held (hr : Rep evs h b) : Held evs h b.has := ⟨hr.chain, hr.bare⟩

theorem head (hr : Rep evs h b) :
    ∃ n, h[evs.length]? = some n ∧ n.next = ((left evs b.has).map Prod.fst).head? := hr.held.head

/-- Lifting a call. -/
theorem lift (hw : Paired evs) (hr : Rep evs h b) {p : Nat} {e : Event V}
    (hp : (p, e) ∈ left evs b.has) (hk : e.kind = .call) {b' : Bitset}
    (hset : b.set e.id = some b') :
    ∃ h', Checker.lift h p = some h' ∧ Rep evs h' b' ∧ unlift h' p = some h := by
  obtain ⟨h', hlift, hback, hheld⟩ := hr.held.lift hw hp hk
  obtain ⟨hchain, hbare⟩ := hheld _ (Bitset.has_set hset)
  refine ⟨h', hlift, ⟨hchain, hbare, fun x hx => ?_⟩, hback⟩
  rw [Bitset.length_set hset]
  exact hr.range x hx

end Rep

/-- The cache of the search, by hashes. -/
def cacheOf (k : List (CacheEntry S)) (hash : UInt64) : List (CacheEntry S) :=
  k.filter fun x => x.linearized.hash == hash

theorem cacheContains_cacheOf (model : Model V S) (evs : List (Event V)) (k : List (CacheEntry S))
    (c : CacheEntry S) :
    cacheContains model (cacheOf k) c = k.any ((problem model evs).same c) := by
  rw [cacheContains, cacheOf, List.any_filter]
  congr 1
  funext x
  cases hs : (problem model evs).same c x with
  | true =>
    have hhash : (x.linearized.hash == c.linearized.hash) = true := by
      rw [(same_iff.mp hs).1, beq_self_eq_true]
    rw [hhash, Bool.true_and]
    exact hs
  | false =>
    rw [Bool.and_eq_false_imp]
    intro _
    exact hs

theorem cacheOf_append (k : List (CacheEntry S)) (c : CacheEntry S) :
    Function.update (cacheOf k) c.linearized.hash (cacheOf k c.linearized.hash ++ [c]) =
      cacheOf (k ++ [c]) := by
  funext hash
  by_cases hh : hash = c.linearized.hash
  · subst hh
    rw [Function.update_self, cacheOf, cacheOf, List.filter_append]
    simp
  · rw [Function.update_of_ne hh, cacheOf, cacheOf, List.filter_append]
    simp [Ne.symm hh]

/-- The search at the configuration `c`, with the cursor at the first of `suf`. -/
def stateAt (h : Heap V) (c : CacheEntry S) (k : List (CacheEntry S)) (calls : List (Nat × S))
    (suf : List (Nat × Event V)) : Search V S :=
  ⟨h, c.linearized, cacheOf k, calls, c.state, (suf.map Prod.fst).head?⟩

section rounds

variable {evs : List (Event V)} {model : Model V S} {h : Heap V} {c d : CacheEntry S}
  {k : List (CacheEntry S)} {calls : List (Nat × S)} {pre suf : List (Nat × Event V)} {p : Nat}
  {e : Event V}

theorem iterate_goal (hr : Rep evs h c.linearized) (hg : left evs c.linearized.has = []) :
    iterate model evs.length false (stateAt h c k calls suf) = some (.inr true) := by
  obtain ⟨n, hn, hnext⟩ := hr.head
  rw [hg] at hnext
  simp [iterate, stateAt, hn, hnext]

variable (model k calls) in
/-- While the list has an entry, the round is that of the entry at the cursor. -/
theorem iterate_entry (hr : Rep evs h c.linearized)
    (hp : left evs c.linearized.has = pre ++ (p, e) :: suf) {n : Node V} (hn : h[p]? = some n) :
    (∀ q, n.matching = some q →
      iterate model evs.length false (stateAt h c k calls ((p, e) :: suf)) =
        tryCall model evs.length (stateAt h c k calls ((p, e) :: suf)) p q n) ∧
    (n.matching = none →
      iterate model evs.length false (stateAt h c k calls ((p, e) :: suf)) =
        backtrack (stateAt h c k calls ((p, e) :: suf))) := by
  obtain ⟨hd, hhd, hnext⟩ := hr.head
  obtain ⟨q, hq⟩ : ∃ q, hd.next = some q := by
    rw [hnext, hp]
    cases pre with
    | nil => exact ⟨p, rfl⟩
    | cons x pre => exact ⟨x.1, rfl⟩
  constructor
  · intro q' hm
    simp [iterate, stateAt, hhd, hq, hn, hm]
  · intro hm
    simp [iterate, stateAt, hhd, hq, hn, hm]

theorem mem_of_cursor (hp : left evs c.linearized.has = pre ++ (p, e) :: suf) :
    (p, e) ∈ left evs c.linearized.has := by
  rw [hp]
  exact List.mem_append_right _ List.mem_cons_self

variable (model k calls) in
/-- A round at a call tries it, with the value that its operation returns. -/
theorem iterate_call (hw : Paired evs) (hr : Rep evs h c.linearized)
    (hp : left evs c.linearized.has = pre ++ (p, e) :: suf) (hk : e.kind = .call) :
    ∃ q n m output, h[q]? = some m ∧ m.value = some output ∧ outputOf evs e.id = some output ∧
      n.value = some e.value ∧ n.id = e.id ∧ n.next = (suf.map Prod.fst).head? ∧
      iterate model evs.length false (stateAt h c k calls ((p, e) :: suf)) =
        tryCall model evs.length (stateAt h c k calls ((p, e) :: suf)) p q n := by
  obtain ⟨q, r, -, -, -, -, -, hpn, hqn, -, hout⟩ := hw.left_call (mem_of_cursor hp) hk
  obtain ⟨n, hn, hnv, hnm, hnid, hnn⟩ := hr.held.node hpn
  obtain ⟨m, hm, hmv, -⟩ := hr.held.node hqn
  exact ⟨q, n, m, r.value, hm, hmv, hout, hnv, hnid, hnn.trans (hr.held.next_eq hp),
    (iterate_entry model k calls hr hp hn).1 q hnm⟩

/-- `Step` does not accept the operation: on to the next entry. -/
theorem iterate_blocked (hw : Paired evs) (hr : Rep evs h c.linearized)
    (hp : left evs c.linearized.has = pre ++ (p, e) :: suf) (hk : e.kind = .call)
    (hnone : move model evs c e = none) :
    iterate model evs.length false (stateAt h c k calls ((p, e) :: suf)) =
      some (.inl (stateAt h c k calls suf)) := by
  obtain ⟨q, n, m, output, hm, hmv, hout, hnv, -, hnext, hround⟩ :=
    iterate_call model k calls hw hr hp hk
  have hev : e ∈ evs := by
    rw [← map_snd_cells evs]
    exact List.mem_map_of_mem (List.mem_filter.mp (mem_of_cursor hp)).1
  obtain ⟨lin, hset⟩ := Bitset.set_isSome (hr.range e hev)
  have hok : (model.step c.state e.value output).1 = false := by
    simpa [move, hout, hset] using hnone
  rw [hround]
  simp [tryCall, stateAt, hm, hnv, hmv, hok, hnext]

/-- The cache has the configuration: on to the next entry. -/
theorem iterate_seen (hw : Paired evs) (hr : Rep evs h c.linearized)
    (hp : left evs c.linearized.has = pre ++ (p, e) :: suf) (hk : e.kind = .call)
    (hd : move model evs c e = some d) (hseen : k.any ((problem model evs).same d) = true) :
    iterate model evs.length false (stateAt h c k calls ((p, e) :: suf)) =
      some (.inl (stateAt h c k calls suf)) := by
  obtain ⟨q, n, m, output, hm, hmv, hout, hnv, hnid, hnext, hround⟩ :=
    iterate_call model k calls hw hr hp hk
  obtain ⟨output', hout', hset, hok, hstate⟩ := move_eq_some hd
  obtain rfl := Option.some.inj (hout.symm.trans hout')
  obtain ⟨lin, state⟩ := d
  obtain rfl : state = _ := hstate
  rw [← cacheContains_cacheOf] at hseen
  rw [hround]
  simp [tryCall, stateAt, hm, hnv, hmv, hok, hnext, hnid, Bitset.clone, hset, hseen]

variable (calls) in
/-- A new configuration: the operation is linearized and taken out of the list. -/
theorem iterate_push (hw : Paired evs) (hr : Rep evs h c.linearized)
    (hp : left evs c.linearized.has = pre ++ (p, e) :: suf) (hk : e.kind = .call)
    (hd : move model evs c e = some d) (hnew : k.any ((problem model evs).same d) = false) :
    ∃ h', Rep evs h' d.linearized ∧ unlift h' p = some h ∧
      iterate model evs.length false (stateAt h c k calls ((p, e) :: suf)) =
        some (.inl (stateAt h' d (k ++ [d]) ((p, c.state) :: calls)
          (left evs d.linearized.has))) := by
  obtain ⟨q, n, m, output, hm, hmv, hout, hnv, hnid, -, hround⟩ :=
    iterate_call model k calls hw hr hp hk
  obtain ⟨output', hout', hset, hok, hstate⟩ := move_eq_some hd
  obtain rfl := Option.some.inj (hout.symm.trans hout')
  obtain ⟨lin, state⟩ := d
  obtain rfl : state = _ := hstate
  rw [← cacheContains_cacheOf] at hnew
  obtain ⟨h', hlift, hr', hback⟩ := hr.lift hw (mem_of_cursor hp) hk hset
  obtain ⟨hd', hhd', hfirst⟩ := hr'.head
  refine ⟨h', hr', hback, ?_⟩
  rw [hround, stateAt, stateAt, ← cacheOf_append]
  simp [tryCall, hm, hnv, hmv, hok, hnid, Bitset.clone, hset, hnew, hlift, hhd', hfirst]

theorem iterate_return (hr : Rep evs h c.linearized)
    (hp : left evs c.linearized.has = pre ++ (p, e) :: suf) (hk : e.kind = .ret) :
    iterate model evs.length false (stateAt h c k calls ((p, e) :: suf)) =
      backtrack (stateAt h c k calls ((p, e) :: suf)) := by
  have hcell := (List.mem_filter.mp (mem_of_cursor hp)).1
  obtain ⟨n, hn, -, hnm, -⟩ := hr.held.node (node_of_ret hcell hk)
  exact (iterate_entry model k calls hr hp hn).2 hnm

/-- A round at a return goes back to the entry after the last call. -/
theorem iterate_back (hw : Paired evs) (hr : Rep evs h c.linearized)
    (hp : left evs c.linearized.has = pre ++ (p, e) :: suf) (hk : e.kind = .call)
    (hd : move model evs c e = some d) {h' : Heap V} (hr' : Rep evs h' d.linearized)
    (hback : unlift h' p = some h) {pre' suf' : List (Nat × Event V)} {q : Nat} {r : Event V}
    (hq : left evs d.linearized.has = pre' ++ (q, r) :: suf') (hrk : r.kind = .ret) :
    iterate model evs.length false (stateAt h' d k ((p, c.state) :: calls) ((q, r) :: suf')) =
      some (.inl (stateAt h c k calls suf)) := by
  have hmem := mem_of_cursor hp
  obtain ⟨_, _, -, -, -, -, -, hpn, -⟩ := hw.left_call hmem hk
  obtain ⟨n', hn', -, -, hnid', -⟩ := hr'.held.node hpn
  obtain ⟨n, hn, -, -, -, hnn⟩ := hr.held.node hpn
  obtain ⟨-, -, hset, -⟩ := move_eq_some hd
  have hfree : c.linearized.has e.id = false := by
    simpa [isLeft] using (List.mem_filter.mp hmem).2
  have hclear := Bitset.clear_set hset hfree
  have hnext : n.next = (suf.map Prod.fst).head? := hnn.trans (hr.held.next_eq hp)
  rw [iterate_return hr' hq hrk]
  simp [backtrack, stateAt, hn', hnid', hclear, hback, hn, hnext]

end rounds

def callCell (x : Nat × Event V) : Bool := x.2.isCall

/-- Behind the calls at the front of the list there is a return. -/
theorem Paired.first_return {evs : List (Event V)} (hw : Paired evs) {b : Bitset}
    (hne : left evs b.has ≠ []) : ∃ pre q r suf, left evs b.has = pre ++ (q, r) :: suf ∧
      r.kind = .ret ∧ (left evs b.has).dropWhile callCell = (q, r) :: suf := by
  cases hd : (left evs b.has).dropWhile callCell with
  | nil =>
    -- the first entry would be a call without its return
    have hall := List.dropWhile_eq_nil_iff.mp hd
    obtain ⟨⟨p, e⟩, hmem⟩ := List.exists_mem_of_ne_nil _ hne
    obtain ⟨q, r, xs, ys, zs, hsplit, -, -, -, hrk, -⟩ :=
      hw.left_call hmem (Event.isCall_iff.mp (hall _ hmem))
    have hret := hall (q, r) (by rw [hsplit]; simp)
    exact absurd (hrk.symm.trans (Event.isCall_iff.mp hret)) (by decide)
  | cons x suf =>
    obtain ⟨q, r⟩ := x
    refine ⟨(left evs b.has).takeWhile callCell, q, r, suf, ?_, ?_, rfl⟩
    · rw [← hd]
      exact List.takeWhile_append_dropWhile.symm
    · have hhead := List.head?_dropWhile_not callCell (left evs b.has)
      rw [hd] at hhead
      cases hkind : r.kind with
      | ret => rfl
      | call => simp [callCell, Event.isCall, hkind] at hhead

theorem map_snd_left (evs : List (Event V)) (b : Bitset) :
    (left evs b.has).map Prod.snd = remaining evs b := by
  rw [remaining, ← map_snd_cells evs, List.filter_map, map_snd_cells]
  rfl

theorem moves_eq (model : Model V S) (evs : List (Event V)) (c : CacheEntry S) :
    (problem model evs).moves c =
      ((left evs c.linearized.has).takeWhile callCell).map fun x => move model evs c x.2 := by
  simp only [problem, ← map_snd_left, List.takeWhile_map, List.map_map]
  rfl

theorem goal_iff {model : Model V S} {evs : List (Event V)} {c : CacheEntry S} :
    (problem model evs).goal c ↔ left evs c.linearized.has = [] := by
  simp only [problem, ← map_snd_left, List.map_eq_nil_iff]

section run

variable {model : Model V S} {evs : List (Event V)} {m m₁ m' : Search V S} {b : Bool}

/-- Rounds of the loop that give no answer yet, with the kill flag not set. -/
def Steps (model : Model V S) (evs : List (Event V)) : Search V S → Search V S → Prop :=
  Relation.ReflTransGen fun m m' => iterate model evs.length false m = some (.inl m')

/-- From `m` on the loop answers true, or it comes to `m'`. -/
def Answers (model : Model V S) (evs : List (Event V)) (m m' : Search V S) : Bool → Prop
  | true => ∃ m₁, Steps model evs m m₁ ∧ iterate model evs.length false m₁ = some (.inr true)
  | false => Steps model evs m m'

theorem Answers.after (h : Steps model evs m m₁) (ha : Answers model evs m₁ m' b) :
    Answers model evs m m' b := by
  cases b with
  | true =>
    obtain ⟨m₂, hsteps, hend⟩ := ha
    exact ⟨m₂, h.trans hsteps, hend⟩
  | false => exact h.trans ha

theorem Answers.step (h : iterate model evs.length false m = some (.inl m₁))
    (ha : Answers model evs m₁ m' b) : Answers model evs m m' b :=
  ha.after (Relation.ReflTransGen.single h)

/-- The next move is the one of the entry at the cursor. -/
theorem cursor_eq {A : Type} {f : Nat × Event V → A} {a : A} {as : List A}
    {suf : List (Nat × Event V)} (h : (suf.takeWhile callCell).map f = a :: as) :
    ∃ p e rest, suf = (p, e) :: rest ∧ e.kind = .call ∧ f (p, e) = a ∧
      (rest.takeWhile callCell).map f = as ∧
      suf.dropWhile callCell = rest.dropWhile callCell := by
  cases suf with
  | nil => exact absurd h (by simp)
  | cons x rest =>
    obtain ⟨p, e⟩ := x
    cases hc : callCell (p, e) with
    | false => rw [List.takeWhile_cons_of_neg (by simp [hc])] at h; exact absurd h (by simp)
    | true =>
      rw [List.takeWhile_cons_of_pos hc] at h
      obtain ⟨rfl, rfl⟩ := List.cons.inj h
      exact ⟨p, e, rest, rfl, Event.isCall_iff.mp hc, rfl, rfl, List.dropWhile_cons_of_pos hc⟩

/-- The loop does what the depth-first search does: when the search below a configuration fails,
the loop has put back what it had lifted, and stands at the first return. -/
theorem simulates (hw : Paired evs) {ms : List (Option (CacheEntry S))}
    {k k' : List (CacheEntry S)} (hE : Explores (problem model evs) ms k b k') {h : Heap V}
    {c : CacheEntry S} (calls : List (Nat × S)) {pre suf : List (Nat × Event V)}
    (hr : Rep evs h c.linearized) (hp : left evs c.linearized.has = pre ++ suf)
    (hms : (suf.takeWhile callCell).map (fun x => move model evs c x.2) = ms) :
    Answers model evs (stateAt h c k calls suf)
      (stateAt h c k' calls (suf.dropWhile callCell)) b := by
  induction hE generalizing h c calls pre suf with
  | nil =>
    have hsplit := List.takeWhile_append_dropWhile (p := callCell) (l := suf)
    rw [List.map_eq_nil_iff.mp hms, List.nil_append] at hsplit
    rw [hsplit]
    exact Relation.ReflTransGen.refl
  | blocked _ ih =>
    obtain ⟨p, e, rest, rfl, hk, hmove, hrest, hdrop⟩ := cursor_eq hms
    rw [hdrop]
    have hp' : left evs c.linearized.has = (pre ++ [(p, e)]) ++ rest := by simp [hp]
    exact (ih calls hr hp' hrest).step (iterate_blocked hw hr hp hk hmove)
  | seen hseen _ ih =>
    obtain ⟨p, e, rest, rfl, hk, hmove, hrest, hdrop⟩ := cursor_eq hms
    rw [hdrop]
    have hp' : left evs c.linearized.has = (pre ++ [(p, e)]) ++ rest := by simp [hp]
    exact (ih calls hr hp' hrest).step (iterate_seen hw hr hp hk hmove hseen)
  | found hnew hg =>
    obtain ⟨p, e, rest, rfl, hk, hmove, -⟩ := cursor_eq hms
    obtain ⟨h', hr', -, hround⟩ := iterate_push calls hw hr hp hk hmove hnew
    exact ⟨_, Relation.ReflTransGen.single hround, iterate_goal hr' (goal_iff.mp hg)⟩
  | deeper hnew hg _ ih =>
    obtain ⟨p, e, rest, rfl, hk, hmove, -⟩ := cursor_eq hms
    obtain ⟨h', hr', -, hround⟩ := iterate_push calls hw hr hp hk hmove hnew
    obtain ⟨m₂, hsteps, hend⟩ :=
      ih ((p, c.state) :: calls) hr' (List.nil_append _).symm (moves_eq ..).symm
    exact ⟨m₂, hsteps.head hround, hend⟩
  | back hnew hg _ _ ih₁ ih₂ =>
    obtain ⟨p, e, rest, rfl, hk, hmove, hrest, hdrop⟩ := cursor_eq hms
    obtain ⟨h', hr', hback, hround⟩ := iterate_push calls hw hr hp hk hmove hnew
    have hbelow := ih₁ ((p, c.state) :: calls) hr' (List.nil_append _).symm (moves_eq ..).symm
    obtain ⟨pre', q, r, suf', hq, hrk, hfirst⟩ :=
      hw.first_return (fun hnil => hg (goal_iff.mpr hnil))
    rw [hfirst] at hbelow
    rw [hdrop]
    have hp' : left evs c.linearized.has = (pre ++ [(p, e)]) ++ rest := by simp [hp]
    have hafter := (ih₂ calls hr hp' hrest).step (iterate_back hw hr hp hk hmove hr' hback hq hrk)
    exact (hafter.after hbelow).step hround

/-- With enough fuel the loop gives the answer that its rounds come to. -/
theorem loop_of_steps {answer : Bool} (h : Steps model evs m m₁)
    (hend : iterate model evs.length false m₁ = some (.inr answer)) :
    ∃ bound, ∀ fuel, bound ≤ fuel →
      loop model evs.length fuel (fun _ => false) m = some answer := by
  induction h using Relation.ReflTransGen.head_induction_on with
  | refl =>
    refine ⟨1, fun fuel hf => ?_⟩
    obtain ⟨fuel, rfl⟩ := Nat.exists_eq_add_of_le' hf
    simp [loop, hend]
  | head hstep _ ih =>
    obtain ⟨bound, hbound⟩ := ih
    refine ⟨bound + 1, fun fuel hf => ?_⟩
    obtain ⟨fuel, rfl⟩ := Nat.exists_eq_add_of_le' (Nat.le_trans (Nat.le_add_left 1 bound) hf)
    simp [loop, hstep, hbound fuel (by omega)]

end run

section decides

variable {model : Model V S} {evs : List (Event V)}

theorem left_newBitset (evs : List (Event V)) (n : Nat) :
    left evs (Bitset.newBitset n).has = cells evs := by
  rw [left, List.filter_eq_self]
  intro x _
  simp [isLeft, Bitset.has_newBitset]

theorem remaining_newBitset (evs : List (Event V)) (n : Nat) :
    remaining evs (Bitset.newBitset n) = evs := by
  rw [← map_snd_left, left_newBitset, map_snd_cells]

/-- `checkSingle` comes to its loop, with all operations still in the list. -/
theorem startSearch_eq {entries : List (Entry V)}
    (hnodes : nodesOf (entries.map Entry.event) = nodesOf evs)
    (hid : ∀ e ∈ evs, e.id < evs.length / 2) :
    ∃ h root m h', makeLinkedEntries entries = some (h, root, m) ∧ h.length = evs.length ∧
      Rep evs h' (Bitset.newBitset (evs.length / 2)) ∧
      ∀ (model : Model V S) (fuel : Nat), evs.length ≤ fuel →
        startSearch model fuel h root = some (evs.length,
          stateAt h' ⟨Bitset.newBitset (evs.length / 2), model.init⟩ [] [] (cells evs)) := by
  obtain ⟨h, m, h', hmake, hroot, hlen, hins, hheld⟩ := makeLinkedEntries_held hnodes
  have hlength : ∀ fuel, evs.length ≤ fuel →
      length h fuel ((cells evs).map Prod.fst).head? = some evs.length := by
    intro fuel hf
    rw [← length_cells evs, ← List.length_map (f := Prod.fst)] at hf ⊢
    cases hps : (cells evs).map Prod.fst with
    | nil => cases fuel <;> rfl
    | cons r rest =>
      rw [hps] at hroot hf
      exact length_eq hroot.inside (hroot.chain r rest rfl).2 hf
  refine ⟨h, _, m, h', hmake, hlen, ⟨?_, hheld.bare, ?_⟩, fun model fuel hf => ?_⟩
  · rw [left_newBitset, ← left_none]
    exact hheld.chain
  · intro e he
    exact Bitset.index_lt_newBitset (hid e he)
  · simp only [startSearch, hlength fuel hf, hlen, hins, Option.bind_eq_bind, Option.bind_some]
    rfl

/-- The loop ends, for every model; if the model is lawful it says whether a goal can be
reached. -/
theorem loop_ends (model : Model V S) (hw : Paired evs) {h : Heap V} {c : CacheEntry S}
    (hr : Rep evs h c.linearized) :
    ∃ answer bound, (∀ fuel, bound ≤ fuel → loop model evs.length fuel (fun _ => false)
        (stateAt h c [] [] (left evs c.linearized.has)) = some answer) ∧
      (model.Lawful → (answer = true ↔ Reach (problem model evs) c)) := by
  by_cases hg : (problem model evs).goal c
  · have hend : iterate model evs.length false
        (stateAt h c [] [] (left evs c.linearized.has)) = some (.inr true) :=
      iterate_goal hr (goal_iff.mp hg)
    obtain ⟨bound, hbound⟩ := loop_of_steps Relation.ReflTransGen.refl hend
    exact ⟨true, bound, hbound, fun _ => ⟨fun _ => Reach.goal hg, fun _ => rfl⟩⟩
  · have hlt := problem_rank_lt model evs
    obtain ⟨b, k, hE⟩ := explores_total hlt (hlt c) []
    have hanswers := simulates hw hE [] hr (List.nil_append _).symm (moves_eq model evs c).symm
    have hiff : model.Lawful → (b = true ↔ Reach (problem model evs) c) :=
      fun hm => explores_iff (problem_lawful hm evs) hg hE
    cases b with
    | true =>
      obtain ⟨m₁, hsteps, hend⟩ := hanswers
      obtain ⟨bound, hbound⟩ := loop_of_steps hsteps hend
      exact ⟨true, bound, hbound, hiff⟩
    | false =>
      obtain ⟨pre, q, r, suf, hq, hrk, hfirst⟩ :=
        hw.first_return (fun hnil => hg (goal_iff.mpr hnil))
      rw [hfirst] at hanswers
      obtain ⟨bound, hbound⟩ := loop_of_steps hanswers (iterate_return hr hq hrk)
      exact ⟨false, bound, hbound, hiff⟩

/-- The check of entries whose ids are below the number of operations. The events matter only
through the nodes they make. -/
theorem checkEntries_ends (model : Model V S) {entries : List (Entry V)} (hw : Paired evs)
    (hnodes : nodesOf (entries.map Entry.event) = nodesOf evs)
    (hid : ∀ e ∈ evs, e.id < evs.length / 2) :
    ∃ answer bound, (∀ fuel, bound ≤ fuel →
        checkEntries model fuel (fun _ => false) entries = some answer) ∧
      (model.Lawful → (answer = true ↔ Reach (problem model evs)
        ⟨Bitset.newBitset (evs.length / 2), model.init⟩)) := by
  obtain ⟨h, root, m, h', hmake, -, hr, hstart⟩ := startSearch_eq (S := S) hnodes hid
  obtain ⟨answer, bound, hloop, hiff⟩ :=
    loop_ends (c := ⟨Bitset.newBitset (evs.length / 2), model.init⟩) model hw hr
  rw [left_newBitset] at hloop
  refine ⟨answer, max bound evs.length, fun fuel hf => ?_, hiff⟩
  simp only [checkEntries, hmake, Option.bind_eq_bind, Option.bind_some, checkSingle_eq,
    hstart model fuel (Nat.le_trans (Nat.le_max_right ..) hf)]
  exact hloop fuel (Nat.le_trans (Nat.le_max_left ..) hf)

/-- For a lawful model, it decides whether a well-formed history is linearizable. -/
theorem checkEntries_decides (model : Model V S) {entries : List (Entry V)}
    (hw : WellFormed (entries.map Entry.event))
    (hid : ∀ e ∈ entries.map Entry.event, e.id < (entries.map Entry.event).length / 2) :
    ∃ answer bound, (∀ fuel, bound ≤ fuel →
        checkEntries model fuel (fun _ => false) entries = some answer) ∧
      (model.Lawful → (answer = true ↔
        LinearizableFrom model model.init (entries.map Entry.event))) := by
  obtain ⟨answer, bound, hcheck, hiff⟩ := checkEntries_ends model hw.paired rfl hid
  have hrange : ∀ e ∈ entries.map Entry.event,
      e.id / 64 < (Bitset.newBitset ((entries.map Entry.event).length / 2)).length :=
    fun e he => Bitset.index_lt_newBitset (hid e he)
  have hreach := reach_iff (c := ⟨Bitset.newBitset _, model.init⟩) model hw hrange
  rw [remaining_newBitset] at hreach
  exact ⟨answer, bound, hcheck, fun hm => (hiff hm).trans hreach⟩

theorem map_event_convertEntries (evs : List (Event V)) :
    (convertEntries evs).map Entry.event = evs := by
  rw [convertEntries, List.map_map]
  exact List.map_id' evs

/-- The entries of a history with its own numbers. -/
theorem renumbered (model : Model V S) {history : List (Event V)} (hw : WellFormed history) :
    WellFormed ((convertEntries (renumber history)).map Entry.event) ∧
      (∀ e ∈ (convertEntries (renumber history)).map Entry.event,
        e.id < ((convertEntries (renumber history)).map Entry.event).length / 2) ∧
      (LinearizableFrom model model.init ((convertEntries (renumber history)).map Entry.event) ↔
        LinearizableFrom model model.init history) := by
  obtain ⟨f, hrenumber, hf, hid⟩ := renumber_spec hw
  rw [map_event_convertEntries, hrenumber]
  refine ⟨hw.rename hf, fun e' he' => ?_, hf.linearizable_iff model model.init⟩
  obtain ⟨e, he, rfl⟩ := List.mem_map.mp he'
  rw [List.length_map]
  exact hid e he

/-- The search decides linearizability: on every history in which each id has one call and later
one return it ends, without a nil dereference or a bit out of range, and its answer is whether
some order of the operations keeps real time and is accepted by `Step`. -/
theorem checkSingle_decides (hm : model.Lawful) {history : List (Event V)}
    (hw : WellFormed history) :
    ∃ answer bound,
      (∀ fuel, bound ≤ fuel → checkEvents model fuel (fun _ => false) history = some answer) ∧
      (answer = true ↔ LinearizableFrom model model.init history) := by
  obtain ⟨hw', hid, hlin⟩ := renumbered model hw
  obtain ⟨answer, bound, hcheck, hiff⟩ := checkEntries_decides model hw' hid
  exact ⟨answer, bound, hcheck, (hiff hm).trans hlin⟩

/-- A counter: an operation adds its input and returns the value before. -/
def counter : Model Nat Nat := ⟨0, fun s v w => (s == w, s + v), fun s t => s == t⟩

theorem counter_lawful : counter.Lawful where
  refl := by simp [counter]
  symm := by simp [counter]
  trans := by simp [counter]
  step_ok := by simp +contextual [counter]
  step_equal := by simp [counter]

/-- Two operations that overlap and return in the order in which they take effect, and a third
one after them. -/
def overlappingAdds : List (Event Nat) :=
  [⟨.call, 1, 7⟩, ⟨.call, 2, 3⟩, ⟨.ret, 0, 3⟩, ⟨.ret, 2, 7⟩, ⟨.call, 5, 9⟩, ⟨.ret, 3, 9⟩]

theorem checkSingle_decides_counter :
    counter.Lawful ∧ WellFormed overlappingAdds ∧
      ∃ answer bound, (∀ fuel, bound ≤ fuel →
          checkEvents counter fuel (fun _ => false) overlappingAdds = some answer) ∧
        (answer = true ↔ LinearizableFrom counter counter.init overlappingAdds) :=
  have hw : WellFormed overlappingAdds := by decide
  ⟨counter_lawful, hw, checkSingle_decides counter_lawful hw⟩

example : checkEvents counter 10 (fun _ => false) overlappingAdds = some true := by decide +kernel

end decides

end DistributionSystem.Checker
