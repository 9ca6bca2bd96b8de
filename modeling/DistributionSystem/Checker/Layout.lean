import DistributionSystem.Checker.Bitset
import DistributionSystem.Checker.Entries
import DistributionSystem.Checker.Spec

/-! What `renumber` and `makeLinkedEntries` make of a history. The numbers of the operations are
below their count, and the node of an event is the one with as many nodes made before it as
there are later events. -/

namespace DistributionSystem.Checker

open Heap

variable {V : Type}

section numbers

/-- The numbers that the loop of `renumber` has given are different, and below the next one. -/
structure Numbering (m : Nat → Option Nat) (id : Nat) : Prop where
  below : ∀ a r, m a = some r → r < id
  inj : ∀ a b r, m a = some r → m b = some r → a = b

theorem Numbering.update {m : Nat → Option Nat} {id a : Nat} (hm : Numbering m id) :
    Numbering (Function.update m a (some id)) (id + 1) := by
  constructor
  · intro b r hb
    by_cases hba : b = a
    · subst hba
      rw [Function.update_self] at hb
      have := Option.some.inj hb
      omega
    · rw [Function.update_of_ne hba] at hb
      have := hm.below b r hb
      omega
  · intro b c r hb hc
    by_cases hba : b = a <;> by_cases hca : c = a
    · exact hba.trans hca.symm
    · rw [hba, Function.update_self] at hb
      rw [Function.update_of_ne hca] at hc
      exact absurd (hm.below c r hc) (by simp [Option.some.inj hb])
    · rw [Function.update_of_ne hba] at hb
      rw [hca, Function.update_self] at hc
      exact absurd (hm.below b r hb) (by simp [Option.some.inj hc])
    · rw [Function.update_of_ne hba] at hb
      rw [Function.update_of_ne hca] at hc
      exact hm.inj b c r hb hc

/-- An id without a number is first met at a call. -/
def CallsFirst (m : Nat → Option Nat) (events : List (Event V)) : Prop :=
  ∀ e ∈ events, m e.id = none → ((events.filter (Event.of e.id)).map Event.kind).head? = some .call

theorem CallsFirst.tail {v : Event V} {events : List (Event V)} {m m' : Nat → Option Nat}
    (h : CallsFirst m (v :: events)) (hm : ∀ a, m' a = none → m a = none ∧ v.id ≠ a) :
    CallsFirst m' events := by
  intro e he hnone
  obtain ⟨hnone', hne⟩ := hm e.id hnone
  have hhead := h e (List.mem_cons_of_mem _ he) hnone'
  rwa [List.filter_cons_of_neg (by simp [Event.of, hne])] at hhead

/-- The first event of an id without a number is a call. -/
theorem CallsFirst.head {v : Event V} {events : List (Event V)} {m : Nat → Option Nat}
    (h : CallsFirst m (v :: events)) (hv : m v.id = none) : v.isCall = true := by
  have hhead := h v List.mem_cons_self hv
  rw [List.filter_cons_of_pos (Event.of_iff.mpr rfl), List.map_cons, List.head?_cons] at hhead
  exact Event.isCall_iff.mpr (Option.some.inj hhead)

theorem renumberFrom_spec {events : List (Event V)} {m : Nat → Option Nat} {id : Nat}
    (hm : Numbering m id) (hfirst : CallsFirst m events) :
    ∃ m' id', renumberFrom m id events = events.map (Event.rename fun a => (m' a).getD 0) ∧
      Numbering m' id' ∧ (∀ a r, m a = some r → m' a = some r) ∧
      (∀ e ∈ events, ∃ r, m' e.id = some r) ∧ id' ≤ id + (events.filter Event.isCall).length := by
  induction events generalizing m id with
  | nil => exact ⟨m, id, rfl, hm, fun _ _ h => h, by simp, by simp⟩
  | cons v events ih =>
    cases hv : m v.id with
    | some r =>
      have hrest : CallsFirst m events := by
        refine hfirst.tail fun a hnone => ⟨hnone, ?_⟩
        rintro rfl
        exact absurd (hv.symm.trans hnone) (by simp)
      obtain ⟨m', id', heq, hm', hext, hall, hle⟩ := ih hm hrest
      refine ⟨m', id', ?_, hm', hext, ?_, ?_⟩
      · simp only [renumberFrom, hv, heq, List.map_cons, Event.rename, hext _ _ hv,
          Option.getD_some]
      · intro e he
        rcases List.mem_cons.mp he with rfl | he
        · exact ⟨r, hext _ _ hv⟩
        · exact hall e he
      · have hsub := ((List.sublist_cons_self v events).filter Event.isCall).length_le
        omega
    | none =>
      have hrest : CallsFirst (Function.update m v.id (some id)) events := by
        refine hfirst.tail fun a hnone => ?_
        have hne : a ≠ v.id := by
          rintro rfl
          exact absurd ((Function.update_self ..).symm.trans hnone) (by simp)
        exact ⟨(Function.update_of_ne hne ..).symm.trans hnone, hne.symm⟩
      obtain ⟨m', id', heq, hm', hext, hall, hle⟩ := ih hm.update hrest
      have hv' : m' v.id = some id := hext _ _ (Function.update_self ..)
      refine ⟨m', id', ?_, hm', fun a r ha => ?_, ?_, ?_⟩
      · simp only [renumberFrom, hv, heq, List.map_cons, Event.rename, hv', Option.getD_some]
      · have hne : a ≠ v.id := fun heq => by rw [heq, hv] at ha; simp at ha
        exact hext a r ((Function.update_of_ne hne ..).trans ha)
      · intro e he
        rcases List.mem_cons.mp he with rfl | he
        · exact ⟨id, hv'⟩
        · exact hall e he
      · rw [List.filter_cons_of_pos (hfirst.head hv), List.length_cons]
        omega

/-- Half of the events are calls. -/
theorem WellFormed.length_calls {h : List (Event V)} (hw : WellFormed h) :
    2 * (h.filter Event.isCall).length = h.length := by
  induction hn : h.length using Nat.strong_induction_on generalizing h with
  | _ n ih =>
    subst hn
    cases hcase : h with
    | nil => rfl
    | cons e rest =>
      obtain ⟨c, r, xs, ys, zs, hsplit, hck, hrk, hcid, hrid, hxs, hys, hzs⟩ :=
        hw.pair (e := e) (by rw [hcase]; exact List.mem_cons_self)
      have hrest : Checker.without e.id h = xs ++ (ys ++ zs) := by
        rw [hsplit, without_append, without_cons hcid, without_append, without_cons hrid,
          without_eq_self hxs, without_eq_self hys, without_eq_self hzs]
      have hshort : (Checker.without e.id h).length < h.length := by
        rw [hrest, hsplit]
        simp only [List.length_append, List.length_cons]
        omega
      have hhalf := ih _ hshort (hw.without e.id) rfl
      have hc : c.isCall = true := Event.isCall_iff.mpr hck
      have hr : ¬ r.isCall = true := by
        rw [Event.isCall_iff, hrk]
        decide
      rw [hrest] at hhalf
      rw [← hcase, hsplit]
      simp only [List.filter_append, List.filter_cons_of_pos hc, List.filter_cons_of_neg hr,
        List.length_append, List.length_cons] at hhalf ⊢
      omega

/-- `renumber` renames the operations, with numbers below their count. -/
theorem renumber_spec {h : List (Event V)} (hw : WellFormed h) :
    ∃ f, renumber h = h.map (Event.rename f) ∧ Renames f h ∧ ∀ e ∈ h, f e.id < h.length / 2 := by
  have hnone : Numbering (fun _ => none) 0 := ⟨by simp, by simp⟩
  have hfirst : CallsFirst (fun _ => none) h := by
    intro e he _
    rw [hw e he]
    rfl
  obtain ⟨m', id', heq, hm', -, hall, hle⟩ := renumberFrom_spec hnone hfirst
  refine ⟨_, heq, ?_, ?_⟩
  · intro a ha b hb hab
    obtain ⟨r, hr⟩ := hall a ha
    obtain ⟨r', hr'⟩ := hall b hb
    simp only [hr, hr', Option.getD_some] at hab
    subst hab
    exact hm'.inj _ _ _ hr hr'
  · intro e he
    obtain ⟨r, hr⟩ := hall e he
    have hlt := hm'.below _ _ hr
    have hcalls := hw.length_calls
    simp only [hr, Option.getD_some]
    omega

end numbers

section cells

/-- The events with the pointers to their nodes. -/
def cells : List (Event V) → List (Nat × Event V)
  | [] => []
  | e :: rest => (rest.length, e) :: cells rest

/-- The node of the return of the operation `id`. -/
def returnAt (id : Nat) (cs : List (Nat × Event V)) : Option Nat :=
  (cs.find? fun c => c.2.returns id).map Prod.fst

/-- The node of an event, without its links. -/
def nodeOf (e : Event V) (later : List (Event V)) : Node V :=
  ⟨some e.value, if e.isCall then returnAt e.id (cells later) else none, e.id, none, none⟩

def nodesOf : List (Event V) → List (Node V)
  | [] => []
  | e :: rest => nodesOf rest ++ [nodeOf e rest]

theorem length_nodesOf (evs : List (Event V)) : (nodesOf evs).length = evs.length := by
  induction evs with
  | nil => rfl
  | cons e rest ih => simp [nodesOf, ih]

theorem map_snd_cells (evs : List (Event V)) : (cells evs).map Prod.snd = evs := by
  induction evs with
  | nil => rfl
  | cons e rest ih => simp [cells, ih]

/-- `makeLinkedEntries` makes one node for each event, and links them in order. -/
theorem makeLinkedEntries_spec (evs : List (Event V)) :
    ∃ h, makeLinkedEntries (convertEntries evs) =
        some (h, ((cells evs).map Prod.fst).head?, fun id => returnAt id (cells evs)) ∧
      Rooted h ((cells evs).map Prod.fst) ∧ h.bare = nodesOf evs := by
  induction evs with
  | nil => exact ⟨[], rfl, ⟨by simp [cells], by simp [cells], by simp [cells]⟩, rfl⟩
  | cons e rest ih =>
    obtain ⟨h, hmake, hr, hb⟩ := ih
    have hlen : h.length = rest.length := by
      rw [← length_nodesOf rest, ← hb]
      simp [bare]
    obtain ⟨h', hins, hr', hb'⟩ := insertBefore_spec hr (n := nodeOf e rest) rfl
    rw [hlen] at hr' hins
    refine ⟨h', ?_, hr', by rw [hb', hb]; rfl⟩
    have hmake' : makeLinkedEntries (rest.map fun elem => ⟨elem.kind, elem.value, elem.id, -1⟩) =
        some (h, ((cells rest).map Prod.fst).head?, fun id => returnAt id (cells rest)) := hmake
    cases hk : e.kind with
    | ret =>
      have hmap : Function.update (fun id => returnAt id (cells rest)) e.id (some rest.length) =
          fun id => returnAt id (cells (e :: rest)) := by
        funext id
        by_cases hid : id = e.id
        · subst hid
          simp [returnAt, cells, Event.returns, hk]
        · simp [returnAt, cells, Event.returns, hk, Ne.symm hid, Function.update_of_ne hid]
      have hnode : nodeOf e rest = ⟨some e.value, none, e.id, none, none⟩ := by
        simp [nodeOf, Event.isCall, hk]
      rw [hnode] at hins
      simp only [convertEntries, List.map_cons, makeLinkedEntries, hmake', hk, hlen,
        Option.bind_eq_bind, Option.bind_some, hins, hmap]
      rfl
    | call =>
      have hmap : (fun id => returnAt id (cells rest)) =
          fun id => returnAt id (cells (e :: rest)) := by
        funext id
        simp [returnAt, cells, Event.returns, hk]
      have hnode : nodeOf e rest =
          ⟨some e.value, returnAt e.id (cells rest), e.id, none, none⟩ := by
        simp [nodeOf, Event.isCall, hk]
      rw [hnode] at hins
      simp only [convertEntries, List.map_cons, makeLinkedEntries, hmake', hk, hlen,
        Option.bind_eq_bind, Option.bind_some, hins, ← hmap]
      rfl

/-- The times of the entries do not matter for their list. -/
theorem makeLinkedEntries_event (entries : List (Entry V)) :
    makeLinkedEntries entries = makeLinkedEntries (convertEntries (entries.map Entry.event)) := by
  induction entries with
  | nil => rfl
  | cons elem entries ih =>
    simp only [convertEntries, List.map_cons, makeLinkedEntries, Entry.event] at ih ⊢
    rw [ih]

theorem length_cells (evs : List (Event V)) : (cells evs).length = evs.length := by
  rw [← List.length_map (f := Prod.snd), map_snd_cells]

/-- The node of an event, and the events behind it. -/
theorem cells_eq_append {evs : List (Event V)} {c : Nat × Event V} {X Y : List (Nat × Event V)}
    (h : cells evs = X ++ c :: Y) :
    Y = cells (Y.map Prod.snd) ∧ (nodesOf evs)[c.1]? = some (nodeOf c.2 (Y.map Prod.snd)) := by
  induction X generalizing evs with
  | nil =>
    cases evs with
    | nil => exact absurd h (by simp [cells])
    | cons e rest =>
      obtain ⟨rfl, rfl⟩ := List.cons.inj h
      rw [map_snd_cells]
      refine ⟨rfl, ?_⟩
      rw [nodesOf, ← length_nodesOf rest]
      exact List.getElem?_concat_length
  | cons x X ih =>
    cases evs with
    | nil => exact absurd h (by simp [cells])
    | cons e rest =>
      obtain ⟨hY, hnode⟩ := ih (List.cons.inj h).2
      obtain ⟨hlt, -⟩ := List.getElem?_eq_some_iff.mp hnode
      exact ⟨hY, (List.getElem?_append_left hlt).trans hnode⟩

/-- A return has no matching node. -/
theorem node_of_ret {evs : List (Event V)} {p : Nat} {e : Event V} (hc : (p, e) ∈ cells evs)
    (hk : e.kind = .ret) :
    (nodesOf evs)[p]? = some ⟨some e.value, none, e.id, none, none⟩ := by
  obtain ⟨X, Y, hsplit⟩ := List.append_of_mem hc
  rw [(cells_eq_append hsplit).2]
  simp [nodeOf, Event.isCall, hk]

/-- A call and its return among the cells. -/
theorem Paired.cells_call {evs : List (Event V)} (hw : Paired evs) {p : Nat} {e : Event V}
    (hc : (p, e) ∈ cells evs) (hk : e.kind = .call) :
    ∃ q r X Y Z, cells evs = X ++ (p, e) :: (Y ++ (q, r) :: Z) ∧ r.kind = .ret ∧ r.id = e.id ∧
      (∀ c ∈ X, c.2.id ≠ e.id) ∧ (∀ c ∈ Y, c.2.id ≠ e.id) ∧ ∀ c ∈ Z, c.2.id ≠ e.id := by
  obtain ⟨X, B, hsplit⟩ := List.append_of_mem hc
  have hevs : evs = X.map Prod.snd ++ e :: B.map Prod.snd := by
    rw [← map_snd_cells evs, hsplit, List.map_append, List.map_cons]
  have hof : e.of e.id = true := Event.of_iff.mpr rfl
  have hkinds := hw e (by rw [hevs]; exact List.mem_append_right _ List.mem_cons_self) hk
  rw [hevs, List.filter_append, List.filter_cons_of_pos hof, List.map_append, List.map_cons, hk]
    at hkinds
  rcases List.append_eq_cons_iff.mp hkinds with ⟨hX, hB⟩ | ⟨l, -, hl⟩
  · have hret := (List.cons.inj hB).2
    rw [List.filter_map, List.map_map] at hret
    obtain ⟨c, rest, hcs, hck, hnil⟩ := List.map_eq_cons_iff.mp hret
    obtain rfl := List.map_eq_nil_iff.mp hnil
    obtain ⟨Y, Z, rfl, hY, hcid, hZ⟩ := List.filter_eq_cons_iff.mp hcs
    rw [List.map_eq_nil_iff, List.filter_map, List.map_eq_nil_iff, List.filter_eq_nil_iff] at hX
    refine ⟨c.1, c.2, X, Y, Z, hsplit, hck, by simpa using hcid, fun x hx => by simpa using hX x hx,
      fun x hx => by simpa using hY x hx, fun x hx => ?_⟩
    simpa using List.filter_eq_nil_iff.mp hZ x hx
  · have hmem : EventKind.call ∈ [EventKind.ret] := by
      rw [hl]
      exact List.mem_append_right _ List.mem_cons_self
    exact absurd hmem (by decide)

/-- The operation of the cell is not gone. -/
def isLeft (gone : Nat → Bool) (c : Nat × Event V) : Bool := !gone c.2.id

def left (evs : List (Event V)) (gone : Nat → Bool) : List (Nat × Event V) :=
  (cells evs).filter (isLeft gone)

/-- A call among the cells that are left: the nodes of the call and of its return, and what is
left once the operation is gone. -/
theorem Paired.left_call {evs : List (Event V)} (hw : Paired evs) {gone : Nat → Bool} {p : Nat}
    {e : Event V} (hc : (p, e) ∈ left evs gone) (hk : e.kind = .call) :
    ∃ q r xs ys zs, left evs gone = xs ++ (p, e) :: (ys ++ (q, r) :: zs) ∧
      (∀ gone' : Nat → Bool, (∀ i, gone' i = (gone i || decide (e.id = i))) →
        left evs gone' = xs ++ (ys ++ zs)) ∧
      (nodesOf evs)[p]? = some ⟨some e.value, some q, e.id, none, none⟩ ∧
      (nodesOf evs)[q]? = some ⟨some r.value, none, e.id, none, none⟩ ∧ r.kind = .ret ∧
      outputOf evs e.id = some r.value := by
  obtain ⟨hcell, hb⟩ := List.mem_filter.mp hc
  obtain ⟨q, r, X, Y, Z, hsplit, hrk, hrid, hX, hY, hZ⟩ := hw.cells_call hcell hk
  obtain ⟨hlater, hnode⟩ := cells_eq_append hsplit
  have hp : (nodesOf evs)[p]? = some (nodeOf e ((Y ++ (q, r) :: Z).map Prod.snd)) := hnode
  have hfind : ∀ l : List (Nat × Event V), (∀ c ∈ l, c.2.id ≠ e.id) →
      l.find? (fun c => c.2.returns e.id) = none := fun l hl => find?_returns_none hl
  have hqcell : (q, r) ∈ cells evs := by
    rw [hsplit]
    simp
  have hret : r.returns e.id = true := Event.returns_iff.mpr ⟨hrk, hrid⟩
  have hcall : e.returns e.id = false := by simp [Event.returns, hk]
  have hbr : isLeft gone (q, r) = true := by rw [isLeft, hrid]; exact hb
  refine ⟨q, r, X.filter (isLeft gone), Y.filter (isLeft gone), Z.filter (isLeft gone), ?_,
    fun gone' hset => ?_, ?_, ?_, hrk, ?_⟩
  · rw [left, hsplit, List.filter_append, List.filter_cons_of_pos hb, List.filter_append,
      List.filter_cons_of_pos hbr]
  · have hkept : ∀ l : List (Nat × Event V), (∀ c ∈ l, c.2.id ≠ e.id) →
        l.filter (isLeft gone') = l.filter (isLeft gone) := by
      intro l hl
      apply List.filter_congr
      intro c hc
      simp [isLeft, hset, Ne.symm (hl c hc)]
    have hgone : gone' e.id = true := by simp [hset]
    rw [left, hsplit, List.filter_append, List.filter_cons_of_neg (by simp [isLeft, hgone]),
      List.filter_append, List.filter_cons_of_neg (by simp [isLeft, hrid, hgone]), hkept X hX,
      hkept Y hY, hkept Z hZ]
  · rw [hp, nodeOf, ← hlater]
    simp [Event.isCall, hk, returnAt, List.find?_append, hfind Y hY, hret]
  · rw [node_of_ret hqcell hrk, hrid]
  · rw [outputOf, ← map_snd_cells evs, List.find?_map, hsplit]
    have hfind' : (X ++ (p, e) :: (Y ++ (q, r) :: Z)).find? (fun c => c.2.returns e.id) =
        some (q, r) := by
      simp [List.find?_append, hfind X hX, hfind Y hY, hcall, hret]
    rw [show Event.returns e.id ∘ Prod.snd = fun c : Nat × Event V => c.2.returns e.id from rfl,
      hfind']
    rfl

end cells

end DistributionSystem.Checker
