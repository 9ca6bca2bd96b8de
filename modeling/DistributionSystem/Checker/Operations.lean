import DistributionSystem.Checker.Decides
import Mathlib.Data.List.Sort

/-! Histories of operations with times (`model.go`, `linearizability.go`). `makeEntries` sorts
calls and returns by their times alone, so where times are equal the order is that of the sort:
the return of an operation may come before the call of another one, or even before its own. An
operation that returns before its call is never linearized. -/

namespace DistributionSystem.Checker

open Explore Heap

section backwards

variable {V S : Type}

/-- Each id has one call and one return, in either order. -/
def Coupled (history : List (Event V)) : Prop :=
  ∀ e ∈ history, ((history.filter (Event.of e.id)).map Event.kind).Perm [.call, .ret]

/-- The operation `id` is called and then returns. -/
def Forward (history : List (Event V)) (id : Nat) : Prop :=
  (history.filter (Event.of id)).map Event.kind = [.call, .ret]

instance (history : List (Event V)) (id : Nat) : Decidable (Forward history id) :=
  inferInstanceAs (Decidable ((history.filter (Event.of id)).map Event.kind = [.call, .ret]))

/-- What the list makes of an event: neither event of an operation that is not forward has a
matching node, so both are returns. -/
def Event.settle (forward : Nat → Bool) (e : Event V) : Event V :=
  if forward e.id then e else ⟨.ret, e.value, e.id⟩

def settled (history : List (Event V)) : List (Event V) :=
  history.map (Event.settle fun id => decide (Forward history id))

variable {forward : Nat → Bool} {evs : List (Event V)}

theorem Event.settle_id (e : Event V) : (e.settle forward).id = e.id := by
  unfold settle
  split <;> rfl

theorem Event.settle_of_forward {e : Event V} (h : forward e.id = true) :
    e.settle forward = e := by
  simp [settle, h]

theorem Event.settle_of_not {e : Event V} (h : forward e.id = false) :
    e.settle forward = ⟨.ret, e.value, e.id⟩ := by
  simp [settle, h]

theorem filter_of_settle (l : List (Event V)) (id : Nat) :
    (l.map (Event.settle forward)).filter (Event.of id) =
      (l.filter (Event.of id)).map (Event.settle forward) := by
  rw [List.filter_map]
  congr 1
  apply List.filter_congr
  intro e _
  simp [Event.of, Event.settle_id]

/-- The calls that are left have their returns. -/
theorem paired_settled (evs : List (Event V)) : Paired (settled evs) := by
  intro e' he' hk
  obtain ⟨e, -, rfl⟩ := List.mem_map.mp he'
  cases hf : decide (Forward evs e.id) with
  | false =>
    rw [Event.settle_of_not hf] at hk
    exact absurd hk (by simp)
  | true =>
    have hsame : (evs.filter (Event.of e.id)).map
        (Event.settle fun id => decide (Forward evs id)) = evs.filter (Event.of e.id) := by
      refine (List.map_congr_left fun x hx => ?_).trans (List.map_id _)
      have hx : x.id = e.id := Event.of_iff.mp (List.mem_filter.mp hx).2
      exact Event.settle_of_forward (by rw [hx]; exact hf)
    rw [Event.settle_id, settled, filter_of_settle, hsame]
    exact of_decide_eq_true hf

theorem cells_map (g : Event V → Event V) (l : List (Event V)) :
    cells (l.map g) = (cells l).map fun c => (c.1, g c.2) := by
  induction l with
  | nil => rfl
  | cons e l ih => simp [cells, ih]

theorem returnAt_settle {id : Nat} (h : forward id = true) (l : List (Event V)) :
    returnAt id (cells (l.map (Event.settle forward))) = returnAt id (cells l) := by
  have hpred : ∀ x : Event V, (x.settle forward).returns id = x.returns id := by
    intro x
    by_cases hx : x.id = id
    · rw [Event.settle_of_forward (by rw [hx]; exact h)]
    · simp [Event.returns, Event.settle_id, hx]
  simp only [returnAt, cells_map, List.find?_map, Function.comp_def, hpred, Option.map_map]

/-- In a backward operation nothing comes after the call. -/
theorem Coupled.no_return_after (hc : Coupled evs) {pre l : List (Event V)} {e : Event V}
    (hsplit : evs = pre ++ e :: l) (hk : e.kind = .call) (hf : ¬ Forward evs e.id) :
    ∀ x ∈ l, x.id ≠ e.id := by
  have hmem : e ∈ evs := by
    rw [hsplit]
    exact List.mem_append_right _ List.mem_cons_self
  have hperm := hc e hmem
  have hkinds : (evs.filter (Event.of e.id)).map Event.kind =
      (pre.filter (Event.of e.id)).map Event.kind ++
        .call :: (l.filter (Event.of e.id)).map Event.kind := by
    rw [hsplit, List.filter_append, List.filter_cons_of_pos (Event.of_iff.mpr rfl),
      List.map_append, List.map_cons, hk]
  have hrest : ((pre.filter (Event.of e.id)).map Event.kind ++
      (l.filter (Event.of e.id)).map Event.kind).Perm [.ret] := by
    rw [hkinds] at hperm
    exact (List.perm_middle.symm.trans hperm).cons_inv
  rcases List.append_eq_singleton_iff.mp (List.perm_singleton.mp hrest) with ⟨hpre, hl⟩ | ⟨-, hl⟩
  · refine absurd ?_ hf
    rw [Forward, hkinds, hpre, hl]
    rfl
  · intro x hx hid
    have hnil := List.filter_eq_nil_iff.mp (List.map_eq_nil_iff.mp hl) x hx
    exact hnil (Event.of_iff.mpr hid)

/-- The settled events make the same nodes. -/
theorem Coupled.nodesOf_settled (hc : Coupled evs) : nodesOf (settled evs) = nodesOf evs := by
  have hsuffix : ∀ l pre : List (Event V), evs = pre ++ l →
      nodesOf (l.map (Event.settle fun id => decide (Forward evs id))) = nodesOf l := by
    intro l
    induction l with
    | nil => exact fun _ _ => rfl
    | cons e l ih =>
      intro pre hsplit
      rw [List.map_cons, nodesOf, nodesOf, ih (pre ++ [e]) (by simp [hsplit])]
      congr 2
      cases hf : decide (Forward evs e.id) with
      | true =>
        have hat : returnAt e.id
            (cells (l.map (Event.settle fun id => decide (Forward evs id)))) =
          returnAt e.id (cells l) := returnAt_settle hf l
        rw [Event.settle_of_forward hf, nodeOf, nodeOf, hat]
      | false =>
        rw [Event.settle_of_not hf, nodeOf, nodeOf]
        cases hk : e.kind with
        | ret => simp [Event.isCall, hk]
        | call =>
          have hnone := hc.no_return_after hsplit hk (of_decide_eq_false hf)
          have hcells : ∀ c ∈ cells l, c.2.id ≠ e.id := by
            intro c hmem
            apply hnone
            rw [← map_snd_cells l]
            exact List.mem_map_of_mem hmem
          simp [Event.isCall, hk, returnAt, find?_returns_none hcells]
  exact hsuffix evs [] rfl

/-- A backward operation stays in the list. -/
theorem not_reach_of_backward (model : Model V S) {e : Event V} (he : e ∈ evs)
    (hf : ¬ Forward evs e.id) {c : CacheEntry S} (hc : c.linearized.has e.id = false) :
    ¬ Reach (problem model (settled evs)) c := by
  intro hreach
  induction hreach with
  | @goal c hg =>
    have hnil : remaining (settled evs) c.linearized = [] := hg
    have hmem : e.settle (fun id => decide (Forward evs id)) ∈
        remaining (settled evs) c.linearized := by
      refine List.mem_filter.mpr ⟨List.mem_map_of_mem he, ?_⟩
      rw [Event.settle_id, hc]
      rfl
    rw [hnil] at hmem
    exact absurd hmem (by simp)
  | move hm _ ih =>
    obtain ⟨x', hx', hmove⟩ := List.mem_map.mp hm
    obtain ⟨-, -, hset, -⟩ := move_eq_some hmove
    apply ih
    -- the event moved is a call, so it belongs to a forward operation
    have hk : x'.kind = .call := Event.isCall_iff.mp (List.mem_takeWhile_imp hx')
    have hin : x' ∈ settled evs := (List.mem_filter.mp ((List.takeWhile_prefix _).subset hx')).1
    obtain ⟨x, -, rfl⟩ := List.mem_map.mp hin
    have hne : x.id ≠ e.id := by
      intro heq
      rw [Event.settle_of_not (by rw [heq]; exact decide_eq_false hf)] at hk
      exact absurd hk (by simp)
    rw [Bitset.has_set hset, hc, Event.settle_id]
    simp [hne]

/-- The check ends whatever the model is. For a lawful one it says whether no operation is
backward and the history is linearizable. -/
theorem Coupled.checkEntries_decides (model : Model V S) {entries : List (Entry V)}
    (hc : Coupled (entries.map Entry.event))
    (hid : ∀ e ∈ entries.map Entry.event, e.id < (entries.map Entry.event).length / 2) :
    ∃ answer bound, (∀ fuel, bound ≤ fuel →
        checkEntries model fuel (fun _ => false) entries = some answer) ∧
      (model.Lawful → (answer = true ↔ WellFormed (entries.map Entry.event) ∧
        LinearizableFrom model model.init (entries.map Entry.event))) := by
  by_cases hw : WellFormed (entries.map Entry.event)
  · obtain ⟨answer, bound, hcheck, hiff⟩ := Checker.checkEntries_decides model hw hid
    exact ⟨answer, bound, hcheck, fun hm => (hiff hm).trans (and_iff_right hw).symm⟩
  · have hlen : (settled (entries.map Entry.event)).length = (entries.map Entry.event).length :=
      List.length_map _
    have hid' : ∀ e ∈ settled (entries.map Entry.event),
        e.id < (settled (entries.map Entry.event)).length / 2 := by
      intro e' he'
      obtain ⟨e, he, rfl⟩ := List.mem_map.mp he'
      rw [Event.settle_id, hlen]
      exact hid e he
    obtain ⟨answer, bound, hcheck, hiff⟩ :=
      checkEntries_ends model (paired_settled _) hc.nodesOf_settled.symm hid'
    refine ⟨answer, bound, hcheck, fun hm => ?_⟩
    obtain ⟨e, he, hf⟩ : ∃ e ∈ entries.map Entry.event,
        ¬ Forward (entries.map Entry.event) e.id := by
      by_contra hall
      exact hw fun e he => by_contra fun hf => hall ⟨e, he, hf⟩
    have hfree : (Bitset.newBitset ((settled (entries.map Entry.event)).length / 2)).has e.id =
        false := Bitset.has_newBitset ..
    have hstuck := not_reach_of_backward model (c := ⟨_, model.init⟩) he hf hfree
    exact ⟨fun hans => absurd ((hiff hm).mp hans) hstuck, fun h => absurd h.1 hw⟩

end backwards

/-- A model whose functions are all there. -/
structure OperationModel (I O S : Type) where
  partition : List (Operation I O) → List (List (Operation I O))
  partitionEvent : List (Event (I ⊕ O)) → List (List (Event (I ⊕ O)))
  init : S
  step : S → I → O → Bool × S
  equal : S → S → Bool

section times

variable {V I O S : Type}

/-- The search has inputs and outputs as values of one type. At a value of the wrong type `Step`
panics; no history of operations has one. -/
def OperationModel.search (model : OperationModel I O S) : Model (I ⊕ O) S where
  init := model.init
  step s v w :=
    match v, w with
    | .inl input, .inr output => model.step s input output
    | _, _ => (false, s)
  equal := model.equal

/-- `Less` of `byTime`. -/
def less (a b : Entry V) : Bool := a.time < b.time

/-- What is known of `sort.Sort` on `byTime`. -/
structure SortsByTime (sort : List (Entry V) → List (Entry V)) : Prop where
  perm : ∀ l, (sort l).Perm l
  sorted : ∀ l, (sort l).Pairwise fun a b => less b a = false

/-- A sort of the entries by a number. -/
def sortBy (key : Entry V → Int) (l : List (Entry V)) : List (Entry V) :=
  l.insertionSort fun a b => key a ≤ key b

theorem pairwise_sortBy (key : Entry V → Int) (l : List (Entry V)) :
    (sortBy key l).Pairwise fun a b => key a ≤ key b := by
  have : Std.Total fun a b : Entry V => key a ≤ key b := ⟨fun a b => Int.le_total ..⟩
  have : IsTrans (Entry V) fun a b => key a ≤ key b := ⟨fun a b c => Int.le_trans⟩
  exact List.pairwise_insertionSort _ l

/-- A sort whose number never goes against the time is one by time. -/
theorem sortsByTime_sortBy {key : Entry V → Int}
    (hkey : ∀ a b : Entry V, key a ≤ key b → a.time ≤ b.time) : SortsByTime (sortBy key) where
  perm l := List.perm_insertionSort _ l
  sorted l := (pairwise_sortBy key l).imp fun h => by simpa [less] using hkey _ _ h

def callEntry (x : Operation I O × Nat) : Entry (I ⊕ O) := ⟨.call, .inl x.1.input, x.2, x.1.call⟩

def returnEntry (x : Operation I O × Nat) : Entry (I ⊕ O) := ⟨.ret, .inr x.1.output, x.2, x.1.ret⟩

/-- The operation as the search sees it. -/
def opOf (x : Operation I O × Nat) : Op (I ⊕ O) := ⟨x.2, .inl x.1.input, .inr x.1.output⟩

def makeEntries (sort : List (Entry (I ⊕ O)) → List (Entry (I ⊕ O)))
    (history : List (Operation I O)) : List (Entry (I ⊕ O)) :=
  sort (history.zipIdx.flatMap fun x => [callEntry x, returnEntry x])

/-- The entries of a history, in order of their times. -/
structure Timed (history : List (Operation I O)) (es : List (Entry (I ⊕ O))) : Prop where
  perm : es.Perm (history.zipIdx.flatMap fun x => [callEntry x, returnEntry x])
  sorted : es.Pairwise fun a b => a.time ≤ b.time

theorem SortsByTime.timed {sort : List (Entry (I ⊕ O)) → List (Entry (I ⊕ O))}
    (hs : SortsByTime sort) (history : List (Operation I O)) :
    Timed history (makeEntries sort history) where
  perm := hs.perm _
  sorted := (hs.sorted _).imp fun h => by simpa [less] using h

theorem eq_or_eq_of_perm_pair {A : Type} {l : List A} {a b : A} (h : l.Perm [a, b]) :
    l = [a, b] ∨ l = [b, a] := by
  match l, h.length_eq with
  | [x, y], _ =>
    rcases List.mem_pair.mp (h.mem_iff.mp List.mem_cons_self) with rfl | rfl
    · rw [List.perm_singleton.mp h.cons_inv]
      exact Or.inl rfl
    · have hswap := h.trans (List.Perm.swap x a [])
      rw [List.perm_singleton.mp hswap.cons_inv]
      exact Or.inr rfl

/-- The entries of one operation among those of operations with different numbers. -/
theorem filter_entries {idx : List (Operation I O × Nat)} (hn : (idx.map Prod.snd).Nodup)
    {x : Operation I O × Nat} (hx : x ∈ idx) :
    (idx.flatMap fun x => [callEntry x, returnEntry x]).filter (fun e => e.event.of x.2) =
      [callEntry x, returnEntry x] := by
  induction idx with
  | nil => exact absurd hx (by simp)
  | cons y idx ih =>
    rw [List.map_cons, List.nodup_cons] at hn
    rw [List.flatMap_cons, List.filter_append]
    rcases List.mem_cons.mp hx with rfl | hx
    · have hnone : (idx.flatMap fun x => [callEntry x, returnEntry x]).filter
          (fun e => e.event.of x.2) = [] := by
        rw [List.filter_eq_nil_iff]
        intro e he hof
        obtain ⟨z, hz, hez⟩ := List.mem_flatMap.mp he
        have hid : e.id = z.2 := by
          rcases List.mem_pair.mp hez with rfl | rfl <;> rfl
        have heq : e.id = x.2 := Event.of_iff.mp hof
        exact hn.1 (List.mem_map.mpr ⟨z, hz, hid.symm.trans heq⟩)
      rw [hnone]
      simp [callEntry, returnEntry, Entry.event, Event.of]
    · have hne : y.2 ≠ x.2 := fun heq => hn.1 (heq ▸ List.mem_map_of_mem hx)
      rw [ih hn.2 hx]
      simp [callEntry, returnEntry, Entry.event, Event.of, hne]

namespace Timed

variable {history : List (Operation I O)} {es : List (Entry (I ⊕ O))}
  {x a b : Operation I O × Nat}

theorem filter_perm (h : Timed history es) (hx : x ∈ history.zipIdx) :
    (es.filter fun e => e.event.of x.2).Perm [callEntry x, returnEntry x] := by
  have hn : (history.zipIdx.map Prod.snd).Nodup := by
    rw [List.zipIdx_map_snd]
    exact List.nodup_range'
  rw [← filter_entries hn hx]
  exact h.perm.filter _

theorem exists_of_mem (h : Timed history es) {e : Entry (I ⊕ O)} (he : e ∈ es) :
    ∃ x ∈ history.zipIdx, e = callEntry x ∨ e = returnEntry x := by
  obtain ⟨x, hx, hex⟩ := List.mem_flatMap.mp (h.perm.mem_iff.mp he)
  exact ⟨x, hx, List.mem_pair.mp hex⟩

theorem mem_entries (h : Timed history es) (hx : x ∈ history.zipIdx) :
    callEntry x ∈ es ∧ returnEntry x ∈ es := by
  constructor
  · exact h.perm.mem_iff.mpr (List.mem_flatMap.mpr ⟨x, hx, List.mem_cons_self⟩)
  · exact h.perm.mem_iff.mpr (List.mem_flatMap.mpr ⟨x, hx, by simp⟩)

/-- The entry of an operation is one of its two. -/
theorem eq_of_id (h : Timed history es) (hx : x ∈ history.zipIdx) {e : Entry (I ⊕ O)}
    (he : e ∈ es) (hid : e.id = x.2) : e = callEntry x ∨ e = returnEntry x := by
  have hmem : e ∈ es.filter fun e => e.event.of x.2 :=
    List.mem_filter.mpr ⟨he, Event.of_iff.mpr hid⟩
  exact List.mem_pair.mp ((h.filter_perm hx).mem_iff.mp hmem)

theorem filter_of (es : List (Entry (I ⊕ O))) (id : Nat) :
    (es.map Entry.event).filter (Event.of id) =
      (es.filter fun e => e.event.of id).map Entry.event := by
  rw [List.filter_map]
  rfl

theorem coupled (h : Timed history es) : Coupled (es.map Entry.event) := by
  intro e' he'
  obtain ⟨e, he, rfl⟩ := List.mem_map.mp he'
  obtain ⟨x, hx, hex⟩ := h.exists_of_mem he
  have hid : e.event.id = x.2 := by
    rcases hex with rfl | rfl <;> rfl
  rw [hid, filter_of]
  exact ((h.filter_perm hx).map Entry.event).map Event.kind

theorem length_eq (h : Timed history es) : es.length = 2 * history.length := by
  have hflat : ∀ idx : List (Operation I O × Nat),
      (idx.flatMap fun x => [callEntry x, returnEntry x]).length = 2 * idx.length := by
    intro idx
    induction idx with
    | nil => rfl
    | cons x idx ih =>
      rw [List.flatMap_cons, List.length_append, ih, List.length_cons]
      simp only [List.length_cons, List.length_nil]
      omega
  rw [h.perm.length_eq, hflat, List.length_zipIdx]

theorem id_lt (h : Timed history es) :
    ∀ e ∈ es.map Entry.event, e.id < (es.map Entry.event).length / 2 := by
  intro e' he'
  obtain ⟨e, he, rfl⟩ := List.mem_map.mp he'
  obtain ⟨x, hx, hex⟩ := h.exists_of_mem he
  have hid : e.event.id = x.2 := by
    rcases hex with rfl | rfl <;> rfl
  obtain ⟨hlt, -⟩ := List.getElem?_eq_some_iff.mp (List.mem_zipIdx_iff_getElem?.mp hx)
  rw [hid, List.length_map, h.length_eq]
  omega

theorem wellFormed_iff (h : Timed history es) : WellFormed (es.map Entry.event) ↔
    ∀ x ∈ history.zipIdx, Forward (es.map Entry.event) x.2 := by
  constructor
  · intro hw x hx
    exact hw _ (List.mem_map_of_mem (h.mem_entries hx).1)
  · intro hall e' he'
    obtain ⟨e, he, rfl⟩ := List.mem_map.mp he'
    obtain ⟨x, hx, hex⟩ := h.exists_of_mem he
    have hid : e.event.id = x.2 := by
      rcases hex with rfl | rfl <;> rfl
    rw [hid]
    exact hall x hx

/-- An operation that takes time is forward. -/
theorem forward_of_lt (h : Timed history es) (hx : x ∈ history.zipIdx)
    (hlt : x.1.call < x.1.ret) : Forward (es.map Entry.event) x.2 := by
  rw [Forward, filter_of]
  have hsorted := h.sorted.filter fun e => e.event.of x.2
  rcases eq_or_eq_of_perm_pair (h.filter_perm hx) with heq | heq
  · rw [heq]
    rfl
  · rw [heq] at hsorted
    have hle : x.1.ret ≤ x.1.call := (List.pairwise_cons.mp hsorted).1 _ List.mem_cons_self
    omega

/-- The return of `a` comes before the call of `b`, or the call of `b` before the return. -/
theorem precedes_or (h : Timed history es) (ha : a ∈ history.zipIdx) (hb : b ∈ history.zipIdx)
    {R : Entry (I ⊕ O) → Entry (I ⊕ O) → Prop} (hR : es.Pairwise R) :
    Precedes (es.map Entry.event) a.2 b.2 ∨ R (callEntry b) (returnEntry a) := by
  obtain ⟨X, Y, hsplit⟩ := List.append_of_mem (h.mem_entries ha).2
  have hmem := (h.mem_entries hb).1
  rw [hsplit] at hmem hR
  rcases List.mem_append.mp hmem with hX | hY
  · exact Or.inr ((List.pairwise_append.mp hR).2.2 _ hX _ List.mem_cons_self)
  · rcases List.mem_cons.mp hY with heq | hY
    · exact absurd (congrArg Entry.kind heq) (by simp [callEntry, returnEntry])
    · refine Or.inl ⟨(X ++ [returnEntry a]).map Entry.event, Y.map Entry.event, ?_, ?_, ?_⟩
      · rw [hsplit, ← List.map_append, List.append_assoc]
        rfl
      · exact ⟨(returnEntry a).event, List.mem_map_of_mem (by simp), rfl, rfl⟩
      · exact ⟨(callEntry b).event, List.mem_map_of_mem hY, rfl, rfl⟩

theorem precedes_of_lt (h : Timed history es) (ha : a ∈ history.zipIdx) (hb : b ∈ history.zipIdx)
    (hlt : a.1.ret < b.1.call) : Precedes (es.map Entry.event) a.2 b.2 := by
  rcases h.precedes_or ha hb h.sorted with hp | hle
  · exact hp
  · have hle : b.1.call ≤ a.1.ret := hle
    omega

theorem le_of_precedes (h : Timed history es) (ha : a ∈ history.zipIdx)
    (hb : b ∈ history.zipIdx) (hp : Precedes (es.map Entry.event) a.2 b.2) :
    a.1.ret ≤ b.1.call := by
  obtain ⟨l₁, l₂, heq, ⟨r', hr', hrk, hrid⟩, c', hc', hck, hcid⟩ := hp
  obtain ⟨X, Y, rfl, rfl, rfl⟩ := List.map_eq_append_iff.mp heq
  obtain ⟨r, hr, rfl⟩ := List.mem_map.mp hr'
  obtain ⟨c, hc, rfl⟩ := List.mem_map.mp hc'
  have hle := (List.pairwise_append.mp h.sorted).2.2 r hr c hc
  rcases h.eq_of_id ha (List.mem_append_left _ hr) hrid with rfl | rfl
  · exact absurd hrk (by simp [callEntry, Entry.event])
  · rcases h.eq_of_id hb (List.mem_append_right _ hc) hcid with rfl | rfl
    · exact hle
    · exact absurd hck (by simp [returnEntry, Entry.event])

theorem outputOf_eq (h : Timed history es) (hx : x ∈ history.zipIdx) :
    outputOf (es.map Entry.event) x.2 = some (.inr x.1.output) := by
  have hret : (es.map Entry.event).filter (Event.returns x.2) = [(returnEntry x).event] := by
    have hboth : (es.map Entry.event).filter (Event.returns x.2) =
        ((es.map Entry.event).filter (Event.of x.2)).filter (Event.returns x.2) := by
      rw [List.filter_filter]
      apply List.filter_congr
      intro e _
      cases hr : e.returns x.2 with
      | false => rfl
      | true => rw [Event.of_iff.mpr (Event.returns_iff.mp hr).2]; rfl
    rw [hboth, filter_of]
    have hperm := ((h.filter_perm hx).map Entry.event).filter (Event.returns x.2)
    apply List.perm_singleton.mp
    simpa [callEntry, returnEntry, Entry.event, Event.returns] using hperm
  rw [outputOf, ← List.head?_filter, hret]
  rfl

/-- The operations of the events are those of the history. -/
theorem operations_perm (h : Timed history es) :
    (operations (es.map Entry.event)).Perm (history.zipIdx.map opOf) := by
  have hcalls : ((es.map Entry.event).filter Event.isCall).Perm
      (history.zipIdx.map fun x => (callEntry x).event) := by
    refine ((h.perm.map Entry.event).filter Event.isCall).trans (List.Perm.of_eq ?_)
    rw [List.map_flatMap, List.filter_flatMap, List.map_eq_flatMap]
    rfl
  have hops : ∀ x ∈ history.zipIdx, ((outputOf (es.map Entry.event) (callEntry x).event.id).map
      fun out => (⟨(callEntry x).event.id, (callEntry x).event.value, out⟩ : Op (I ⊕ O))) =
        some (opOf x) := by
    intro x hx
    have hout : outputOf (es.map Entry.event) (callEntry x).event.id = _ := h.outputOf_eq hx
    rw [hout]
    rfl
  refine (hcalls.filterMap _).trans (List.Perm.of_eq ?_)
  rw [List.filterMap_map]
  exact (List.filterMap_congr hops).trans (congrFun List.filterMap_eq_map' _)

/-- An order of the events' operations is one of the history's. -/
theorem linearizableFrom_iff (h : Timed history es) (model : OperationModel I O S) (s : S) :
    LinearizableFrom model.search s (es.map Entry.event) ↔
      Serial.Serializable (fun s x => model.step s x.1.input x.1.output)
        (fun a b => Precedes (es.map Entry.event) a.2 b.2) s history.zipIdx := by
  have hmap : Serial.Serializable (fun s o => model.search.step s o.input o.output)
      (fun a b => Precedes (es.map Entry.event) a.id b.id) s (history.zipIdx.map opOf) ↔
        Serial.Serializable (fun s x => model.step s x.1.input x.1.output)
          (fun a b => Precedes (es.map Entry.event) a.2 b.2) s history.zipIdx :=
    Serial.serializable_map (fun _ _ => rfl) fun _ _ _ _ => Iff.rfl
  rw [← hmap]
  exact ⟨fun hl => hl.perm h.operations_perm, fun hl => hl.perm h.operations_perm.symm⟩

end Timed

end times

end DistributionSystem.Checker
