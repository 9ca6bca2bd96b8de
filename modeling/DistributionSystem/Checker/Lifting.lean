import DistributionSystem.Checker.Layout

/-! The list of the entries while calls are lifted out of it and put back. Whatever calls are
lifted, the nodes after the head entry are those of the operations that are left, in their
order, and unlifting in reverse gives back the list with every link. -/

namespace DistributionSystem.Checker

open Heap

variable {V : Type}

/-- The list of the entries behind the head entry, which is the second result. -/
def linkedEntries (entries : List (Entry V)) : Option (Heap V × Nat) := do
  let (h, root, _) ← makeLinkedEntries entries
  let headEntry := h.length
  let h ← insertBefore (h ++ [headNode]) headEntry root
  some (h, headEntry)

/-- The heap when the operations `gone` are lifted out of the list. -/
structure Held (evs : List (Event V)) (h : Heap V) (gone : Nat → Bool) : Prop where
  chain : Chain h evs.length ((left evs gone).map Prod.fst)
  bare : h.bare = nodesOf evs ++ [headNode]

namespace Held

variable {evs : List (Event V)} {h : Heap V} {gone : Nat → Bool}

/-- A node as it is read. -/
theorem node (hh : Held evs h gone) {p : Nat} {n : Node V} (hn : (nodesOf evs)[p]? = some n) :
    ∃ m, h[p]? = some m ∧ m.value = n.value ∧ m.matching = n.matching ∧ m.id = n.id ∧
      m.next = h.links.next p := by
  obtain ⟨hlt, -⟩ := List.getElem?_eq_some_iff.mp hn
  have hbare : h.bare[p]? = some n := by
    rw [hh.bare, List.getElem?_append_left hlt]
    exact hn
  rw [Heap.bare, List.getElem?_map] at hbare
  obtain ⟨m, hm, rfl⟩ := Option.map_eq_some_iff.mp hbare
  exact ⟨m, hm, rfl, rfl, rfl, by simp [links, hm]⟩

theorem head (hh : Held evs h gone) :
    ∃ n, h[evs.length]? = some n ∧ n.next = ((left evs gone).map Prod.fst).head? := by
  obtain ⟨n, hn, hnext, -⟩ := getElem?_links (hh.chain.inside _ List.mem_cons_self)
  exact ⟨n, hn, hnext.trans hh.chain.chain.next_eq⟩

/-- The node after a node of the list. -/
theorem next_eq (hh : Held evs h gone) {pre suf : List (Nat × Event V)} {x : Nat × Event V}
    (hp : left evs gone = pre ++ x :: suf) : h.links.next x.1 = (suf.map Prod.fst).head? := by
  have hchain := hh.chain.chain
  rw [hp, List.map_append, List.map_cons] at hchain
  exact hchain.drop.next_eq

/-- Lifting a call. -/
theorem lift (hh : Held evs h gone) (hw : Paired evs) {p : Nat} {e : Event V}
    (hp : (p, e) ∈ left evs gone) (hk : e.kind = .call) :
    ∃ h', Checker.lift h p = some h' ∧ unlift h' p = some h ∧ ∀ gone' : Nat → Bool,
      (∀ i, gone' i = (gone i || decide (e.id = i))) → Held evs h' gone' := by
  obtain ⟨q, r, xs, ys, zs, hsplit, hrest, hpn, -⟩ := hw.left_call hp hk
  obtain ⟨m, hm, -, hmatch, -⟩ := hh.node hpn
  have hchain := hh.chain
  rw [hsplit, List.map_append, List.map_cons, List.map_append, List.map_cons] at hchain
  obtain ⟨h', hlift, hchain', hbare, hback⟩ :=
    lift_spec hchain (by rw [hm, Option.map_some, hmatch])
  refine ⟨h', hlift, hback, fun gone' hgone => ⟨?_, hbare.trans hh.bare⟩⟩
  rw [hrest gone' hgone, List.map_append, List.map_append]
  exact hchain'

/-- A node of the list that has a matching node is a call. -/
theorem kind_of_matching (hh : Held evs h gone) {p m : Nat} {e : Event V}
    (hp : (p, e) ∈ left evs gone) (hm : h[p]?.map Node.matching = some (some m)) :
    e.kind = .call := by
  cases hk : e.kind with
  | call => rfl
  | ret =>
    obtain ⟨n, hn, -, hmatch, -⟩ := hh.node (node_of_ret (List.mem_filter.mp hp).1 hk)
    simp [hn, hmatch] at hm

end Held

theorem left_none (evs : List (Event V)) : left evs (fun _ => false) = cells evs := by
  rw [left, List.filter_eq_self]
  intro c _
  rfl

theorem map_fst_cells (evs : List (Event V)) :
    (cells evs).map Prod.fst = (List.range evs.length).reverse := by
  induction evs with
  | nil => rfl
  | cons e rest ih => simp [cells, ih, List.range_succ]

/-- The list as it is built, before and after the head entry is put in front of it. The events
matter only through their nodes. -/
theorem makeLinkedEntries_held {entries : List (Entry V)} {evs : List (Event V)}
    (hnodes : nodesOf (entries.map Entry.event) = nodesOf evs) :
    ∃ h m h', makeLinkedEntries entries = some (h, ((cells evs).map Prod.fst).head?, m) ∧
      Rooted h ((cells evs).map Prod.fst) ∧ h.length = evs.length ∧
      insertBefore (h ++ [headNode]) evs.length ((cells evs).map Prod.fst).head? = some h' ∧
      Held evs h' fun _ => false := by
  obtain ⟨h, hmake, hroot, hbare⟩ := makeLinkedEntries_spec (entries.map Entry.event)
  have hcount : (entries.map Entry.event).length = evs.length := by
    rw [← length_nodesOf, hnodes, length_nodesOf]
  have hlen : h.length = evs.length := by
    rw [← hcount, ← length_nodesOf, ← hbare]
    simp [bare]
  rw [map_fst_cells, hcount, ← map_fst_cells] at hroot
  rw [← makeLinkedEntries_event, map_fst_cells, hcount, ← map_fst_cells] at hmake
  obtain ⟨h', hins, hroot', hbare'⟩ := insertBefore_spec hroot (n := headNode) rfl
  rw [hlen] at hins
  refine ⟨h, _, h', hmake, hroot, hlen, hins, ⟨?_, by rw [hbare', hbare, hnodes]⟩⟩
  rw [left_none, ← hlen]
  exact ⟨(hroot'.chain _ _ rfl).2, hroot'.nodup, hroot'.inside⟩

section runs

/-- The nodes from a pointer on, with a bound on the number of steps. -/
def Heap.walk (h : Heap V) : Nat → Option Nat → Option (List Nat)
  | _, none => some []
  | 0, some _ => none
  | fuel + 1, some p => do
    let n ← h[p]?
    let ps ← walk h fuel n.next
    some (p :: ps)

/-- The nodes behind the node `a`. -/
def Heap.nodesAfter (h : Heap V) (a : Nat) : Option (List Nat) := do
  let n ← h[a]?
  h.walk h.length n.next

/-- The heap `h` comes from `h₀` by lifting calls of the list behind `head`: those of `ps`, of
which the first is the last one lifted. -/
inductive Lifted (head : Nat) (h₀ : Heap V) : List Nat → Heap V → Prop
  | start : Lifted head h₀ [] h₀
  | lift {ps qs : List Nat} {p m : Nat} {h h' : Heap V} : Lifted head h₀ ps h →
      h.nodesAfter head = some qs → p ∈ qs → h[p]?.map Node.matching = some (some m) →
      Checker.lift h p = some h' → Lifted head h₀ (p :: ps) h'

def unliftAll (h : Heap V) (ps : List Nat) : Option (Heap V) := ps.foldlM unlift h

/-- The ids of the nodes `ps`. -/
def idsOf (h : Heap V) (ps : List Nat) : List Nat := ps.filterMap fun p => h[p]?.map Node.id

variable {h : Heap V}

theorem walk_eq {r : Nat} {ps : List Nat} (hr : ∀ p ∈ r :: ps, p < h.length)
    (hc : h.links.From r ps) {fuel : Nat} (hf : ps.length < fuel) :
    h.walk fuel (some r) = some (r :: ps) := by
  induction ps generalizing r fuel with
  | nil =>
    obtain ⟨fuel, rfl⟩ := Nat.exists_eq_add_of_lt hf
    obtain ⟨n, hn, hnn, -⟩ := getElem?_links (hr r List.mem_cons_self)
    rw [hc.next_eq] at hnn
    cases fuel <;> simp [walk, hn, hnn]
  | cons b ps ih =>
    cases fuel with
    | zero => exact absurd hf (by simp)
    | succ fuel =>
      obtain ⟨n, hn, hnn, -⟩ := getElem?_links (hr r List.mem_cons_self)
      rw [hc.next_eq] at hnn
      have hrest := ih (fun p hp => hr p (List.mem_cons_of_mem _ hp)) hc.2.2
        (Nat.lt_of_succ_lt_succ hf)
      simp [walk, hn, hnn, hrest]

theorem Heap.Chain.nodesAfter_eq {a : Nat} {ps : List Nat} (hc : Chain h a ps) :
    h.nodesAfter a = some ps := by
  obtain ⟨n, hn, hnext, -⟩ := getElem?_links (hc.inside a List.mem_cons_self)
  rw [hc.chain.next_eq] at hnext
  -- the nodes are different numbers below the size of the heap
  have hsub : (a :: ps).Subperm (List.range h.length) :=
    List.subperm_of_subset hc.nodup fun p hp => List.mem_range.mpr (hc.inside p hp)
  have hle := hsub.length_le
  rw [List.length_cons, List.length_range] at hle
  simp only [nodesAfter, hn, Option.bind_eq_bind, Option.bind_some, hnext]
  cases ps with
  | nil => cases h.length <;> rfl
  | cons b ps =>
    rw [List.length_cons] at hle
    exact walk_eq (fun p hp => hc.inside p (List.mem_cons_of_mem _ hp)) hc.chain.2.2 (by omega)

variable {evs : List (Event V)} {h₀ : Heap V}

/-- What a run of lifts keeps. -/
theorem Lifted.held (hw : Paired evs) (h0 : Held evs h₀ fun _ => false) {ps : List Nat}
    (hl : Lifted evs.length h₀ ps h) :
    Held evs h (idsOf h₀ ps).contains ∧ unliftAll h ps = some h₀ := by
  induction hl with
  | start => exact ⟨h0, rfl⟩
  | @lift ps qs p m h h' _ hqs hp hm hlift ih =>
    obtain ⟨hh, hback⟩ := ih
    rw [hh.chain.nodesAfter_eq] at hqs
    rw [← Option.some.inj hqs] at hp
    obtain ⟨⟨p, e⟩, hmem, rfl⟩ := List.mem_map.mp hp
    have hk := hh.kind_of_matching hmem hm
    obtain ⟨_, _, _, _, _, -, -, hpn, -⟩ := hw.left_call hmem hk
    obtain ⟨n, hn, -, -, hid, -⟩ := h0.node hpn
    have hids : idsOf h₀ (p :: ps) = e.id :: idsOf h₀ ps := by
      simp [idsOf, hn, hid]
    have hgone : ∀ i, (idsOf h₀ (p :: ps)).contains i =
        ((idsOf h₀ ps).contains i || decide (e.id = i)) := by
      intro i
      rw [hids]
      simp [Bool.or_comm, eq_comm]
    obtain ⟨h₁, hlift₁, hback₁, hh₁⟩ := hh.lift hw hmem hk
    obtain rfl := Option.some.inj (hlift₁.symm.trans hlift)
    refine ⟨hh₁ _ hgone, ?_⟩
    simp only [unliftAll, List.foldlM_cons, hback₁, Option.bind_eq_bind, Option.bind_some]
    exact hback

end runs

/-- Whatever calls of the list are lifted, none of the lifts dereferences nil, unlifting them in
reverse restores every link, and the nodes after the head entry are those of the other
operations, in their order, with each node linked back to the one before it. -/
theorem unlift_undoes_lift {entries : List (Entry V)}
    (hw : WellFormed (entries.map Entry.event)) :
    ∃ h₀, linkedEntries entries = some (h₀, entries.length) ∧
      ∀ ps h, Lifted entries.length h₀ ps h →
        unliftAll h ps = some h₀ ∧
        h.nodesAfter entries.length =
          some ((left (entries.map Entry.event) (idsOf h₀ ps).contains).map Prod.fst) ∧
        h.links.From entries.length
          ((left (entries.map Entry.event) (idsOf h₀ ps).contains).map Prod.fst) ∧
        (∀ c ∈ left (entries.map Entry.event) (idsOf h₀ ps).contains,
          ∃ n, h[c.1]? = some n ∧ n.value = some c.2.value ∧ n.id = c.2.id) ∧
        ∀ p m, p ∈ (left (entries.map Entry.event) (idsOf h₀ ps).contains).map Prod.fst →
          h[p]?.map Node.matching = some (some m) → ∃ h', lift h p = some h' := by
  have hnodes : nodesOf (entries.map Entry.event) = nodesOf (entries.map Entry.event) := rfl
  obtain ⟨h, m, h₀, hmake, -, hlen, hins, h0⟩ := makeLinkedEntries_held hnodes
  have hcount : (entries.map Entry.event).length = entries.length := List.length_map _
  rw [hcount] at hlen hins
  refine ⟨h₀, ?_, fun ps h hl => ?_⟩
  · simp only [linkedEntries, hmake, hlen, hins, Option.bind_eq_bind, Option.bind_some]
  · rw [← hcount] at hl ⊢
    obtain ⟨hh, hback⟩ := hl.held hw.paired h0
    refine ⟨hback, hh.chain.nodesAfter_eq, hh.chain.chain, fun c hc => ?_, fun p m hp hm => ?_⟩
    · obtain ⟨X, Y, hsplit⟩ := List.append_of_mem (List.mem_filter.mp hc).1
      obtain ⟨n, hn, hv, -, hid, -⟩ := hh.node (cells_eq_append hsplit).2
      exact ⟨n, hn, hv, hid⟩
    · obtain ⟨⟨p, e⟩, hmem, rfl⟩ := List.mem_map.mp hp
      obtain ⟨h', hlift, -⟩ := hh.lift hw.paired hmem (hh.kind_of_matching hmem hm)
      exact ⟨h', hlift⟩

/-- A call next to its return, inside an operation that returns last. -/
def nestedCalls : List (Entry Nat) :=
  [⟨.call, 1, 0, 0⟩, ⟨.call, 2, 1, 1⟩, ⟨.ret, 0, 1, 2⟩, ⟨.ret, 2, 0, 3⟩]

def nestedHeap : Heap Nat :=
  [⟨some 2, none, 0, none, some 1⟩, ⟨some 0, none, 1, some 0, some 2⟩,
    ⟨some 2, some 1, 1, some 1, some 3⟩, ⟨some 1, some 0, 0, some 2, some 4⟩,
    ⟨none, none, 0xFFFFFFFFFFFFFFFF, some 3, none⟩]

theorem unlift_undoes_lift_nestedCalls :
    WellFormed (nestedCalls.map Entry.event) ∧
      linkedEntries nestedCalls = some (nestedHeap, 4) ∧
      ∃ h, Lifted 4 nestedHeap [3, 2] h ∧ unliftAll h [3, 2] = some nestedHeap ∧
        h.nodesAfter 4 = some [] := by
  have hw : WellFormed (nestedCalls.map Entry.event) := by decide
  have hheap : linkedEntries nestedCalls = some (nestedHeap, 4) := rfl
  obtain ⟨h₀, hlinked, hrun⟩ := unlift_undoes_lift hw
  obtain ⟨rfl, -⟩ := Prod.mk.inj (Option.some.inj (hheap.symm.trans hlinked))
  obtain ⟨h₁, hlift₁, hnodes₁, hmatch₁, h₂, hlift₂⟩ : ∃ h₁, lift nestedHeap 2 = some h₁ ∧
      h₁.nodesAfter 4 = some [3, 0] ∧ h₁[3]?.map Node.matching = some (some 0) ∧
      ∃ h₂, lift h₁ 3 = some h₂ := ⟨_, rfl, rfl, rfl, _, rfl⟩
  have hnodes : nestedHeap.nodesAfter 4 = some [3, 2, 1, 0] := rfl
  have hinner : Lifted 4 nestedHeap [2] h₁ := Lifted.lift .start hnodes (by decide) rfl hlift₁
  have hboth : Lifted 4 nestedHeap [3, 2] h₂ :=
    Lifted.lift hinner hnodes₁ (by decide) hmatch₁ hlift₂
  obtain ⟨hback, hleft, -⟩ := hrun _ _ hboth
  exact ⟨hw, hlinked, h₂, hboth, hback, hleft⟩

end DistributionSystem.Checker
