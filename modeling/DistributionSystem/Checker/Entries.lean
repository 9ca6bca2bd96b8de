import DistributionSystem.Checker.Model
import DistributionSystem.Lib.LinkedList

/-! The entries of a history as a doubly linked list of nodes in memory (`linearizability.go`).
A pointer is the number of its node in the heap, `none` is nil, and a result `none` of an
operation is a nil dereference. -/

namespace DistributionSystem.Checker

open LinkedList LinkedList.Links

structure Entry (V : Type) where
  kind : EventKind
  value : V
  id : Nat
  time : Int

structure Node (V : Type) where
  value : Option V
  matching : Option Nat
  id : Nat
  next : Option Nat
  prev : Option Nat

abbrev Heap (V : Type) := List (Node V)

variable {V : Type}

namespace Heap

def setNext (h : Heap V) (p : Nat) (v : Option Nat) : Option (Heap V) :=
  match h[p]? with
  | none => none
  | some n => some (h.set p { n with next := v })

def setPrev (h : Heap V) (p : Nat) (v : Option Nat) : Option (Heap V) :=
  match h[p]? with
  | none => none
  | some n => some (h.set p { n with prev := v })

end Heap

/-- The loop of `renumber`, with the numbers given so far and the next number. -/
def renumberFrom (m : Nat → Option Nat) (id : Nat) : List (Event V) → List (Event V)
  | [] => []
  | v :: events =>
    match m v.id with
    | some r => ⟨v.kind, v.value, r⟩ :: renumberFrom m id events
    | none =>
      ⟨v.kind, v.value, id⟩ :: renumberFrom (Function.update m v.id (some id)) (id + 1) events

def renumber (events : List (Event V)) : List (Event V) := renumberFrom (fun _ => none) 0 events

def convertEntries (events : List (Event V)) : List (Entry V) :=
  events.map fun elem => ⟨elem.kind, elem.value, elem.id, -1⟩

/-- What the list of an entry depends on. -/
def Entry.event (e : Entry V) : Event V := ⟨e.kind, e.value, e.id⟩

def insertBefore (h : Heap V) (n : Nat) (mark : Option Nat) : Option (Heap V) :=
  match mark with
  | none => some h
  | some mark => do
    let m ← h[mark]?
    let h ← Heap.setPrev h mark (some n)
    let h ← Heap.setNext h n (some mark)
    match m.prev with
    | none => some h
    | some beforeMark => do
      let h ← Heap.setPrev h n (some beforeMark)
      Heap.setNext h beforeMark (some n)

/-- `length`, with a bound on the number of steps. -/
def length (h : Heap V) : Nat → Option Nat → Option Nat
  | _, none => some 0
  | 0, some _ => none
  | fuel + 1, some p => do
    let n ← h[p]?
    let l ← length h fuel n.next
    some (l + 1)

/-- The loop goes from the last entry to the first. The results are the heap, the root and the
map of the return nodes by id. -/
def makeLinkedEntries : List (Entry V) → Option (Heap V × Option Nat × (Nat → Option Nat))
  | [] => some ([], none, fun _ => none)
  | elem :: entries => do
    let (h, root, matching) ← makeLinkedEntries entries
    let entry := h.length
    match elem.kind with
    | .ret => do
      let h ← insertBefore (h ++ [⟨some elem.value, none, elem.id, none, none⟩]) entry root
      some (h, some entry, Function.update matching elem.id (some entry))
    | .call => do
      let h ← insertBefore (h ++ [⟨some elem.value, matching elem.id, elem.id, none, none⟩])
        entry root
      some (h, some entry, matching)

/-- The head entry of `checkSingle`. Its id is the largest `uint`. -/
def headNode : Node V := ⟨none, none, 0xFFFFFFFFFFFFFFFF, none, none⟩

/-- The first half of `lift`: the call entry, which is never the last one. -/
def liftCall (h : Heap V) (entry : Nat) : Option (Heap V) := do
  let e ← h[entry]?
  let prev ← e.prev
  let h ← Heap.setNext h prev e.next
  let e ← h[entry]?
  let next ← e.next
  Heap.setPrev h next e.prev

/-- The second half of `lift`: the return entry. -/
def liftReturn (h : Heap V) (entry : Nat) : Option (Heap V) := do
  let e ← h[entry]?
  let prev ← e.prev
  let h ← Heap.setNext h prev e.next
  let e ← h[entry]?
  match e.next with
  | none => some h
  | some next => Heap.setPrev h next e.prev

def lift (h : Heap V) (entry : Nat) : Option (Heap V) := do
  let h ← liftCall h entry
  let e ← h[entry]?
  let matching ← e.matching
  liftReturn h matching

def unliftReturn (h : Heap V) (entry : Nat) : Option (Heap V) := do
  let e ← h[entry]?
  let prev ← e.prev
  let h ← Heap.setNext h prev (some entry)
  let e ← h[entry]?
  match e.next with
  | none => some h
  | some next => Heap.setPrev h next (some entry)

def unliftCall (h : Heap V) (entry : Nat) : Option (Heap V) := do
  let e ← h[entry]?
  let prev ← e.prev
  let h ← Heap.setNext h prev (some entry)
  let e ← h[entry]?
  let next ← e.next
  Heap.setPrev h next (some entry)

def unlift (h : Heap V) (entry : Nat) : Option (Heap V) := do
  let e ← h[entry]?
  let matching ← e.matching
  let h ← unliftReturn h matching
  unliftCall h entry

namespace Heap

/-- The links of a heap. -/
def links (h : Heap V) : Links Nat :=
  ⟨fun p => h[p]?.bind Node.next, fun p => h[p]?.bind Node.prev⟩

def bareNode (n : Node V) : Node V := { n with next := none, prev := none }

/-- What the links of a heap leave out. -/
def bare (h : Heap V) : List (Node V) := h.map bareNode

variable {h h' : Heap V}

theorem length_eq_of_bare (hb : h'.bare = h.bare) : h'.length = h.length := by
  simpa [bare] using congrArg List.length hb

/-- A heap is its links and the rest. -/
theorem eq_of_links (hl : h.links = h'.links) (hb : h.bare = h'.bare) : h = h' := by
  apply List.ext_getElem?
  intro p
  have hbare : (h.bare)[p]? = (h'.bare)[p]? := by rw [hb]
  have hnext := congrFun (congrArg Links.next hl) p
  have hprev := congrFun (congrArg Links.prev hl) p
  simp only [bare, List.getElem?_map] at hbare
  simp only [links] at hnext hprev
  cases hn : h[p]? with
  | none =>
    cases hn' : h'[p]? with
    | none => rfl
    | some n' => simp [hn, hn'] at hbare
  | some n =>
    cases hn' : h'[p]? with
    | none => simp [hn, hn'] at hbare
    | some n' =>
      simp only [hn, hn', Option.map_some, Option.some.injEq, bareNode, Node.mk.injEq,
        Option.bind_some] at hbare hnext hprev ⊢
      cases n
      cases n'
      simp_all

/-- Nodes without links do not change the links. -/
theorem links_append {n : Node V} (hn : bareNode n = n) : links (h ++ [n]) = h.links := by
  have hnext : n.next = none := by rw [← hn]; rfl
  have hprev : n.prev = none := by rw [← hn]; rfl
  ext1 <;> funext p <;> simp only [links]
  all_goals
    rcases Nat.lt_trichotomy p h.length with hlt | heq | hgt
    · rw [List.getElem?_append_left hlt]
    · subst heq
      simp [hnext, hprev]
    · rw [List.getElem?_eq_none (by simp; omega), List.getElem?_eq_none (by omega)]

theorem links_set {p : Nat} (hp : p < h.length) (n : Node V) : links (h.set p n) =
    ⟨Function.update h.links.next p n.next, Function.update h.links.prev p n.prev⟩ := by
  ext1 <;> funext q <;> by_cases hq : q = p
  · subst hq
    simp [links, hp]
  · simp only [links, List.getElem?_set_ne (Ne.symm hq), Function.update_of_ne hq]
  · subst hq
    simp [links, hp]
  · simp only [links, List.getElem?_set_ne (Ne.symm hq), Function.update_of_ne hq]

theorem bare_set {p : Nat} {m n : Node V} (hp : h[p]? = some m) (hb : bareNode n = bareNode m) :
    bare (h.set p n) = h.bare := by
  obtain ⟨hlt, hm⟩ := List.getElem?_eq_some_iff.mp hp
  have hlt' : p < (h.map bareNode).length := by simpa using hlt
  have hself : bareNode m = (h.map bareNode)[p] := by simp [hm]
  rw [bare, List.map_set, hb, hself]
  exact List.set_getElem_self hlt'

theorem setNext_spec {p : Nat} (hp : p < h.length) (v : Option Nat) :
    ∃ h', setNext h p v = some h' ∧ h'.links = h.links.setNext p v ∧ h'.bare = h.bare := by
  have hn := List.getElem?_eq_getElem hp
  refine ⟨h.set p { h[p] with next := v }, by rw [setNext, hn], ?_, bare_set hn rfl⟩
  rw [links_set hp]
  ext1
  · rfl
  · exact Function.update_eq_self_iff.mpr (by simp [links, hn])

theorem setPrev_spec {p : Nat} (hp : p < h.length) (v : Option Nat) :
    ∃ h', setPrev h p v = some h' ∧ h'.links = h.links.setPrev p v ∧ h'.bare = h.bare := by
  have hn := List.getElem?_eq_getElem hp
  refine ⟨h.set p { h[p] with prev := v }, by rw [setPrev, hn], ?_, bare_set hn rfl⟩
  rw [links_set hp]
  ext1
  · exact Function.update_eq_self_iff.mpr (by simp [links, hn])
  · rfl

/-- A node as it is read. -/
theorem getElem?_links {p : Nat} (hp : p < h.length) :
    ∃ n, h[p]? = some n ∧ n.next = h.links.next p ∧ n.prev = h.links.prev p := by
  have hn := List.getElem?_eq_getElem hp
  exact ⟨h[p], hn, by simp [links, hn], by simp [links, hn]⟩

/-- What taking out a node and putting it back have in common: a store to the node before it
and a store to the node after it. -/
theorem stores_spec {e p : Nat} (he : e < h.length) (hp : h.links.prev e = some p) (hne : p ≠ e)
    (hplt : p < h.length) (hnext : ∀ b, h.links.next e = some b → b < h.length)
    (v w : Option Nat) :
    ∃ n h₁ n₁, h[e]? = some n ∧ n.next = h.links.next e ∧ n.prev = some p ∧
      setNext h p v = some h₁ ∧ h₁[e]? = some n₁ ∧ n₁.next = h.links.next e ∧ n₁.prev = some p ∧
      h₁.links = h.links.setNext p v ∧ h₁.bare = h.bare ∧
      ∀ b, h.links.next e = some b → ∃ h₂, setPrev h₁ b w = some h₂ ∧
        h₂.links = (h.links.setNext p v).setPrev b w ∧ h₂.bare = h.bare := by
  obtain ⟨n, hn, hn₁, hn₂⟩ := getElem?_links he
  obtain ⟨h₁, hs, hl, hb⟩ := setNext_spec hplt v
  have hlen := length_eq_of_bare hb
  obtain ⟨n₁, hm, hm₁, hm₂⟩ := getElem?_links (h := h₁) (p := e) (by omega)
  rw [hl] at hm₁ hm₂
  refine ⟨n, h₁, n₁, hn, hn₁, hn₂.trans hp, hs, hm, ?_, hm₂.trans hp, hl, hb, ?_⟩
  · exact hm₁.trans (Function.update_of_ne (Ne.symm hne) ..)
  · intro b hb'
    have hblt := hnext b hb'
    obtain ⟨h₂, hs₂, hl₂, hb₂⟩ := setPrev_spec (h := h₁) (p := b) (by omega) w
    exact ⟨h₂, hs₂, by rw [hl₂, hl], hb₂.trans hb⟩

/-- From the node `a` on, the nodes of the heap are `ps`. -/
structure Chain (h : Heap V) (a : Nat) (ps : List Nat) : Prop where
  chain : h.links.From a ps
  nodup : (a :: ps).Nodup
  inside : ∀ p ∈ a :: ps, p < h.length

namespace Chain

variable {a e : Nat} {xs ys : List Nat}

theorem neighbours (hc : Chain h a (xs ++ e :: ys)) :
    ∃ p, h.links.prev e = some p ∧ p ≠ e ∧ p < h.length ∧ e < h.length ∧
      ∀ b, h.links.next e = some b → b < h.length := by
  obtain ⟨p, hp, hpe, -⟩ := hc.chain.prev_eq
  have hsplit : ((a :: xs) ++ e :: ys).Nodup := hc.nodup
  have hin : ∀ q ∈ (a :: xs) ++ e :: ys, q < h.length := hc.inside
  refine ⟨p, hpe, ((nodup_split hsplit).1 p hp).1, hin p (List.mem_append_left _ hp),
    hin e (by simp), fun b hb => ?_⟩
  have hbys := (hc.chain.drop.back hb).2
  exact hin b (by simp [hbys])

end Chain

end Heap

open Heap

section lifting

variable {h : Heap V} {a e : Nat} {xs ys : List Nat}

theorem liftReturn_spec (hc : Chain h a (xs ++ e :: ys)) :
    ∃ h', liftReturn h e = some h' ∧ h'.links = h.links.unlink e ∧ h'.bare = h.bare := by
  obtain ⟨p, hp, hne, hplt, helt, hnext⟩ := hc.neighbours
  obtain ⟨n, h₁, n₁, hn, hnn, hnp, hs, hn₁, hn₁n, hn₁p, hl, hb, hafter⟩ :=
    stores_spec helt hp hne hplt hnext (h.links.next e) (some p)
  cases hcase : h.links.next e with
  | none =>
    rw [hcase] at hnn hs hn₁n hl
    refine ⟨h₁, ?_, hl.trans (unlink_last hp hne hcase).symm, hb⟩
    simp [liftReturn, hn, hnn, hnp, hs, hn₁, hn₁n]
  | some b =>
    obtain ⟨h₂, hs₂, hl₂, hb₂⟩ := hafter b hcase
    rw [hcase] at hnn hs hn₁n hl₂
    refine ⟨h₂, ?_, hl₂.trans (unlink_inner hp hne hcase).symm, hb₂⟩
    simp [liftReturn, hn, hnn, hnp, hs, hn₁, hn₁n, hn₁p, hs₂]

theorem liftCall_spec {b : Nat} (hc : Chain h a (xs ++ e :: b :: ys)) :
    ∃ h', liftCall h e = some h' ∧ h'.links = h.links.unlink e ∧ h'.bare = h.bare := by
  obtain ⟨p, hp, hne, hplt, helt, hnext⟩ := hc.neighbours
  have hcase : h.links.next e = some b := hc.chain.drop.next_eq
  obtain ⟨n, h₁, n₁, hn, hnn, hnp, hs, hn₁, hn₁n, hn₁p, hl, hb, hafter⟩ :=
    stores_spec helt hp hne hplt hnext (some b) (some p)
  obtain ⟨h₂, hs₂, hl₂, hb₂⟩ := hafter b hcase
  rw [hcase] at hnn hn₁n
  refine ⟨h₂, ?_, hl₂.trans (unlink_inner hp hne hcase).symm, hb₂⟩
  simp [liftCall, hn, hnn, hnp, hs, hn₁, hn₁n, hn₁p, hs₂]

/-- The stores that put the node `e` back. -/
theorem unlink_stores {h' : Heap V} (hc : Chain h a (xs ++ e :: ys))
    (hl : h'.links = h.links.unlink e) (hb : h'.bare = h.bare) :
    ∃ p n h₁ n₁, h'[e]? = some n ∧ n.prev = some p ∧ setNext h' p (some e) = some h₁ ∧
      h₁[e]? = some n₁ ∧ n₁.next = h.links.next e ∧ (h.links.next e = none → h₁ = h) ∧
      ∀ b, h.links.next e = some b → setPrev h₁ b (some e) = some h := by
  obtain ⟨p, hp, hne, hplt, helt, hnext⟩ := hc.neighbours
  obtain ⟨hnext', hprev'⟩ := hc.chain.unlink_self hc.nodup
  have hback := relink_unlink hc.chain hc.nodup
  rw [← hl] at hnext' hprev' hback
  have hlen := length_eq_of_bare hb
  obtain ⟨n, h₁, n₁, hn, -, hnp, hs, hn₁, hn₁n, -, hl₁, hb₁, hafter⟩ :=
    stores_spec (by omega) (hprev'.trans hp) hne (by omega)
      (fun b hb => by rw [hlen]; exact hnext b (hnext'.symm.trans hb)) (some e) (some e)
  refine ⟨p, n, h₁, n₁, hn, hnp, hs, hn₁, hn₁n.trans hnext', fun hnone => ?_, fun b hsome => ?_⟩
  · refine eq_of_links ?_ (hb₁.trans hb)
    rw [hl₁, ← relink_last (hprev'.trans hp) hne (hnext'.trans hnone), hback]
  · obtain ⟨h₂, hs₂, hl₂, hb₂⟩ := hafter b (hnext'.trans hsome)
    rw [hs₂]
    congr 1
    refine eq_of_links ?_ (hb₂.trans hb)
    rw [hl₂, ← relink_inner (hprev'.trans hp) hne (hnext'.trans hsome), hback]

theorem unliftReturn_spec {h' : Heap V} (hc : Chain h a (xs ++ e :: ys))
    (hl : h'.links = h.links.unlink e) (hb : h'.bare = h.bare) : unliftReturn h' e = some h := by
  obtain ⟨p, n, h₁, n₁, hn, hnp, hs, hn₁, hn₁n, hlast, hinner⟩ := unlink_stores hc hl hb
  cases hcase : h.links.next e with
  | none =>
    obtain rfl := hlast hcase
    simp [unliftReturn, hn, hnp, hs, hn₁, hn₁n, hcase]
  | some b => simp [unliftReturn, hn, hnp, hs, hn₁, hn₁n, hcase, hinner b hcase]

theorem unliftCall_spec {h' : Heap V} {b : Nat} (hc : Chain h a (xs ++ e :: b :: ys))
    (hl : h'.links = h.links.unlink e) (hb : h'.bare = h.bare) : unliftCall h' e = some h := by
  obtain ⟨p, n, h₁, n₁, hn, hnp, hs, hn₁, hn₁n, -, hinner⟩ := unlink_stores hc hl hb
  have hcase : h.links.next e = some b := hc.chain.drop.next_eq
  simp [unliftCall, hn, hnp, hs, hn₁, hn₁n, hcase, hinner b hcase]

/-- The list without a node. -/
theorem Heap.Chain.unlink {h' : Heap V} (hc : Chain h a (xs ++ e :: ys))
    (hl : h'.links = h.links.unlink e) (hb : h'.bare = h.bare) : Chain h' a (xs ++ ys) := by
  have hsub : (a :: (xs ++ ys)).Sublist (a :: (xs ++ e :: ys)) :=
    ((List.sublist_cons_self e ys).append_left xs).cons_cons a
  refine ⟨?_, hc.nodup.sublist hsub, fun p hp => ?_⟩
  · rw [hl]
    exact hc.chain.unlink hc.nodup
  · rw [length_eq_of_bare hb]
    exact hc.inside p (hsub.subset hp)

/-- The matching node is part of what lifting keeps. -/
theorem matching_of_bare {h' : Heap V} {p : Nat} (hb : h'.bare = h.bare) :
    h'[p]?.map Node.matching = h[p]?.map Node.matching := by
  have hnodes := congrArg (fun l : List (Node V) => l[p]?.map Node.matching) hb
  simp only [bare, List.getElem?_map, Option.map_map] at hnodes
  exact hnodes

/-- `lift` takes a call and its return out of the list, and `unlift` puts them back. -/
theorem lift_spec {m : Nat} {zs : List Nat} (hc : Chain h a (xs ++ e :: (ys ++ m :: zs)))
    (hm : h[e]?.map Node.matching = some (some m)) :
    ∃ h', lift h e = some h' ∧ Chain h' a (xs ++ (ys ++ zs)) ∧ h'.bare = h.bare ∧
      unlift h' e = some h := by
  obtain ⟨b, rest, hrest⟩ : ∃ b rest, ys ++ m :: zs = b :: rest :=
    List.exists_cons_of_ne_nil (by simp)
  have hcall : Chain h a (xs ++ e :: b :: rest) := hrest ▸ hc
  obtain ⟨h₁, hs₁, hl₁, hb₁⟩ := liftCall_spec hcall
  have hc₁ : Chain h₁ a ((xs ++ ys) ++ m :: zs) := by
    rw [List.append_assoc]
    exact hc.unlink hl₁ hb₁
  obtain ⟨h₂, hs₂, hl₂, hb₂⟩ := liftReturn_spec hc₁
  have hm₁ := (matching_of_bare (p := e) hb₁).trans hm
  have hm₂ := (matching_of_bare (p := e) hb₂).trans hm₁
  obtain ⟨n₁, hn₁, hnm₁⟩ := Option.map_eq_some_iff.mp hm₁
  obtain ⟨n₂, hn₂, hnm₂⟩ := Option.map_eq_some_iff.mp hm₂
  refine ⟨h₂, by simp [lift, hs₁, hn₁, hnm₁, hs₂], ?_, hb₂.trans hb₁, ?_⟩
  · rw [← List.append_assoc]
    exact hc₁.unlink hl₂ hb₂
  · simp [unlift, hn₂, hnm₂, unliftReturn_spec hc₁ hl₂ hb₂, unliftCall_spec hcall hl₁ hb₁]

end lifting

section building

variable {h : Heap V} {ps : List Nat}

/-- The nodes of the heap are `ps`, from the root on. -/
structure Heap.Rooted (h : Heap V) (ps : List Nat) : Prop where
  nodup : ps.Nodup
  inside : ∀ p ∈ ps, p < h.length
  chain : ∀ r rest, ps = r :: rest → h.links.prev r = none ∧ h.links.From r rest

/-- A new node becomes the root. -/
theorem insertBefore_spec (hr : Rooted h ps) {n : Node V} (hn : bareNode n = n) :
    ∃ h', insertBefore (h ++ [n]) h.length ps.head? = some h' ∧ Rooted h' (h.length :: ps) ∧
      h'.bare = h.bare ++ [n] := by
  have hlinks := links_append (h := h) hn
  have hbare : bare (h ++ [n]) = h.bare ++ [n] := by simp [bare, hn]
  have hnew : h.length ∉ ps := fun hmem => Nat.lt_irrefl _ (hr.inside _ hmem)
  cases ps with
  | nil =>
    refine ⟨h ++ [n], rfl, ⟨by simp, by simp, ?_⟩, hbare⟩
    rintro r rest ⟨rfl, rfl⟩
    rw [hlinks]
    constructor
    · simp [links]
    · simp [links, From]
  | cons r rest =>
    obtain ⟨hprev, hchain⟩ := hr.chain r rest rfl
    have hrlt := hr.inside r List.mem_cons_self
    obtain ⟨m, hm, -, hmp⟩ := getElem?_links (h := h ++ [n]) (p := r) (by simp; omega)
    rw [hlinks, hprev] at hmp
    obtain ⟨h₁, hs₁, hl₁, hb₁⟩ :=
      setPrev_spec (h := h ++ [n]) (p := r) (by simp; omega) (some h.length)
    have hlen₁ : h₁.length = h.length + 1 := by rw [length_eq_of_bare hb₁]; simp
    obtain ⟨h₂, hs₂, hl₂, hb₂⟩ := setNext_spec (h := h₁) (p := h.length) (by omega) (some r)
    have hlen₂ : h₂.length = h.length + 1 := by rw [length_eq_of_bare hb₂, hlen₁]
    refine ⟨h₂, ?_, ⟨List.nodup_cons.mpr ⟨hnew, hr.nodup⟩, ?_, ?_⟩, ?_⟩
    · simp [insertBefore, hm, hmp, hs₁, hs₂]
    · intro p hp
      rcases List.mem_cons.mp hp with rfl | hp
      · omega
      · have := hr.inside p hp
        omega
    · rintro r' rest' ⟨rfl, rfl⟩
      rw [hl₂, hl₁, hlinks]
      refine ⟨?_, hchain.cons hnew hr.nodup⟩
      have hne : h.length ≠ r := by omega
      simp [Links.setNext, Links.setPrev, Function.update_of_ne hne, links]
    · rw [hb₂, hb₁, hbare]

theorem length_eq {r : Nat} (hr : ∀ p ∈ r :: ps, p < h.length) (hc : h.links.From r ps)
    {fuel : Nat} (hf : ps.length < fuel) : length h fuel (some r) = some (ps.length + 1) := by
  induction ps generalizing r fuel with
  | nil =>
    obtain ⟨fuel, rfl⟩ := Nat.exists_eq_add_of_lt hf
    obtain ⟨n, hn, hnn, -⟩ := getElem?_links (hr r List.mem_cons_self)
    rw [hc.next_eq] at hnn
    cases fuel <;> simp [length, hn, hnn]
  | cons b ps ih =>
    cases fuel with
    | zero => exact absurd hf (by simp)
    | succ fuel =>
      obtain ⟨n, hn, hnn, -⟩ := getElem?_links (hr r List.mem_cons_self)
      rw [hc.next_eq] at hnn
      have hrest := ih (fun p hp => hr p (List.mem_cons_of_mem _ hp)) hc.2.2
        (Nat.lt_of_succ_lt_succ hf)
      simp [length, hn, hnn, hrest]

end building

end DistributionSystem.Checker
