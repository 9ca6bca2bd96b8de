import Mathlib.Data.List.Basic
import Mathlib.Data.List.Nodup
import Mathlib.Logic.Function.Basic

/-! Doubly linked lists. A node is taken out by linking its neighbours to each other, and put
back by linking them to the node again; the node itself keeps its links, so that taking out and
putting back cancel. -/

namespace LinkedList

/-- The links of the nodes. -/
@[ext] structure Links (P : Type) where
  next : P → Option P
  prev : P → Option P

namespace Links

variable {P : Type}

/-- From the node `a` on, the nodes are `ps`. -/
def From (l : Links P) : P → List P → Prop
  | a, [] => l.next a = none
  | a, b :: ps => l.next a = some b ∧ l.prev b = some a ∧ From l b ps

theorem From.frame {l l' : Links P} {a : P} {ps : List P} (h : l.From a ps)
    (hnext : ∀ p ∈ a :: ps, l'.next p = l.next p) (hprev : ∀ p ∈ ps, l'.prev p = l.prev p) :
    l'.From a ps := by
  induction ps generalizing a with
  | nil => exact (hnext a List.mem_cons_self).trans h
  | cons b ps ih =>
    obtain ⟨hn, hp, hrest⟩ := h
    refine ⟨(hnext a List.mem_cons_self).trans hn, (hprev b List.mem_cons_self).trans hp, ?_⟩
    exact ih hrest (fun p hp => hnext p (List.mem_cons_of_mem _ hp))
      (fun p hp => hprev p (List.mem_cons_of_mem _ hp))

theorem From.next_eq {l : Links P} {a : P} {ps : List P} (h : l.From a ps) :
    l.next a = ps.head? := by
  cases ps with
  | nil => exact h
  | cons b ps => exact h.1

/-- The part behind a node of the list. -/
theorem From.drop {l : Links P} {a e : P} {xs ys : List P} (h : l.From a (xs ++ e :: ys)) :
    l.From e ys := by
  induction xs generalizing a with
  | nil => exact h.2.2
  | cons x xs ih => exact ih h.2.2

/-- The node before a node of the list. -/
theorem From.prev_eq {l : Links P} {a e : P} {xs ys : List P} (h : l.From a (xs ++ e :: ys)) :
    ∃ p ∈ a :: xs, l.prev e = some p ∧ l.next p = some e := by
  induction xs generalizing a with
  | nil => exact ⟨a, List.mem_cons_self, h.2.1, h.1⟩
  | cons x xs ih =>
    obtain ⟨p, hp, hlinks⟩ := ih h.2.2
    exact ⟨p, List.mem_cons_of_mem _ hp, hlinks⟩

/-- The node after a node of the list links back to it. -/
theorem From.back {l : Links P} {e b : P} {ys : List P} (h : l.From e ys)
    (hb : l.next e = some b) : l.prev b = some e ∧ b ∈ ys := by
  cases ys with
  | nil => exact absurd (h.symm.trans hb) (by simp)
  | cons c ys =>
    obtain ⟨hn, hp, -⟩ := h
    obtain rfl := Option.some.inj (hn.symm.trans hb)
    exact ⟨hp, List.mem_cons_self⟩

theorem nodup_split {zs ys : List P} {e : P} (h : (zs ++ e :: ys).Nodup) :
    (∀ p ∈ zs, p ≠ e ∧ p ∉ ys) ∧ e ∉ ys := by
  obtain ⟨-, hys, hdisj⟩ := List.nodup_append.mp h
  refine ⟨fun p hp => ⟨hdisj p hp e List.mem_cons_self, fun hmem => ?_⟩, (List.nodup_cons.mp hys).1⟩
  exact hdisj p hp p (List.mem_cons_of_mem _ hmem) rfl

variable [DecidableEq P]

def setNext (l : Links P) (p : P) (v : Option P) : Links P :=
  { l with next := Function.update l.next p v }

def setPrev (l : Links P) (p : P) (v : Option P) : Links P :=
  { l with prev := Function.update l.prev p v }

/-- The neighbours of `e` are linked to each other. -/
def unlink (l : Links P) (e : P) : Links P :=
  let l := match l.prev e with
    | none => l
    | some a => l.setNext a (l.next e)
  match l.next e with
  | none => l
  | some b => l.setPrev b (l.prev e)

/-- The neighbours of `e` are linked to `e`. -/
def relink (l : Links P) (e : P) : Links P :=
  let l := match l.prev e with
    | none => l
    | some a => l.setNext a (some e)
  match l.next e with
  | none => l
  | some b => l.setPrev b (some e)

theorem unlink_last {l : Links P} {a e : P} (hprev : l.prev e = some a) (hne : a ≠ e)
    (hnext : l.next e = none) : l.unlink e = l.setNext a none := by
  have hkept : Function.update l.next a none e = none :=
    (Function.update_of_ne (Ne.symm hne) ..).trans hnext
  simp only [unlink, hprev, hnext, setNext, hkept]

theorem unlink_inner {l : Links P} {a e b : P} (hprev : l.prev e = some a) (hne : a ≠ e)
    (hnext : l.next e = some b) : l.unlink e = (l.setNext a (some b)).setPrev b (some a) := by
  have hkept : Function.update l.next a (some b) e = some b :=
    (Function.update_of_ne (Ne.symm hne) ..).trans hnext
  simp only [unlink, hprev, hnext, setNext, hkept]

theorem relink_last {l : Links P} {a e : P} (hprev : l.prev e = some a) (hne : a ≠ e)
    (hnext : l.next e = none) : l.relink e = l.setNext a (some e) := by
  have hkept : Function.update l.next a (some e) e = none :=
    (Function.update_of_ne (Ne.symm hne) ..).trans hnext
  simp only [relink, hprev, setNext, hkept]

theorem relink_inner {l : Links P} {a e b : P} (hprev : l.prev e = some a) (hne : a ≠ e)
    (hnext : l.next e = some b) : l.relink e = (l.setNext a (some e)).setPrev b (some e) := by
  have hkept : Function.update l.next a (some e) e = some b :=
    (Function.update_of_ne (Ne.symm hne) ..).trans hnext
  simp only [relink, hprev, setNext, hkept]

/-- Only the node before `e` gets another next node. -/
theorem unlink_next {l : Links P} {a e q : P} (hprev : l.prev e = some a) (hne : a ≠ e)
    (hq : q ≠ a) : (l.unlink e).next q = l.next q := by
  cases hnext : l.next e with
  | none =>
    rw [unlink_last hprev hne hnext]
    exact Function.update_of_ne hq ..
  | some b =>
    rw [unlink_inner hprev hne hnext]
    exact Function.update_of_ne hq ..

/-- Only the node after `e` gets another previous node. -/
theorem unlink_prev {l : Links P} {a e q : P} (hprev : l.prev e = some a) (hne : a ≠ e)
    (hq : l.next e ≠ some q) : (l.unlink e).prev q = l.prev q := by
  cases hnext : l.next e with
  | none => rw [unlink_last hprev hne hnext]; rfl
  | some b =>
    have hqb : q ≠ b := fun heq => hq (by rw [hnext, heq])
    rw [unlink_inner hprev hne hnext]
    exact Function.update_of_ne hqb ..

/-- Taking out a node that is not the first one. -/
theorem From.unlink {l : Links P} {a e : P} {xs ys : List P} (h : l.From a (xs ++ e :: ys))
    (hn : (a :: (xs ++ e :: ys)).Nodup) : (l.unlink e).From a (xs ++ ys) := by
  induction xs generalizing a with
  | nil =>
    obtain ⟨hnext, hprev, hrest⟩ := h
    obtain ⟨ha, hn⟩ := List.nodup_cons.mp hn
    have hne : a ≠ e := fun heq => ha (heq ▸ List.mem_cons_self)
    cases ys with
    | nil =>
      rw [unlink_last hprev hne hrest]
      exact Function.update_self ..
    | cons b ys =>
      obtain ⟨hb, -, hrest⟩ := hrest
      have hbys : b ∉ ys := (List.nodup_cons.mp (List.nodup_cons.mp hn).2).1
      rw [unlink_inner hprev hne hb]
      refine ⟨Function.update_self .., Function.update_self .., hrest.frame ?_ ?_⟩
      · intro p hp
        have hpa : p ≠ a := fun heq => ha (heq ▸ List.mem_cons_of_mem _ hp)
        exact Function.update_of_ne hpa ..
      · intro p hp
        have hpb : p ≠ b := fun heq => hbys (heq ▸ hp)
        exact Function.update_of_ne hpb ..
  | cons x xs ih =>
    obtain ⟨hnext, hprev, hrest⟩ := h
    obtain ⟨ha, hn⟩ := List.nodup_cons.mp hn
    have hsplit : ((x :: xs) ++ e :: ys).Nodup := hn
    obtain ⟨hbefore, -⟩ := nodup_split hsplit
    obtain ⟨p, hp, hpe, -⟩ := hrest.prev_eq
    have hpa : a ≠ p := fun heq => ha (List.mem_append_left _ (heq ▸ hp))
    have hpne := (hbefore p hp).1
    refine ⟨(unlink_next hpe hpne hpa).trans hnext, (unlink_prev hpe hpne ?_).trans hprev,
      ih hrest hn⟩
    intro hx
    exact (hbefore x List.mem_cons_self).2 (hrest.drop.back hx).2

/-- A node that was taken out keeps its links. -/
theorem From.unlink_self {l : Links P} {a e : P} {xs ys : List P} (h : l.From a (xs ++ e :: ys))
    (hn : (a :: (xs ++ e :: ys)).Nodup) :
    (l.unlink e).next e = l.next e ∧ (l.unlink e).prev e = l.prev e := by
  have hsplit : ((a :: xs) ++ e :: ys).Nodup := hn
  obtain ⟨hbefore, hafter⟩ := nodup_split hsplit
  obtain ⟨p, hp, hpe, -⟩ := h.prev_eq
  have hne := (hbefore p hp).1
  refine ⟨unlink_next hpe hne (Ne.symm hne), unlink_prev hpe hne ?_⟩
  intro hnext
  exact hafter (h.drop.back hnext).2

/-- A node that was taken out is put back. -/
theorem relink_unlink {l : Links P} {a e : P} {xs ys : List P} (h : l.From a (xs ++ e :: ys))
    (hn : (a :: (xs ++ e :: ys)).Nodup) : (l.unlink e).relink e = l := by
  have hsplit : ((a :: xs) ++ e :: ys).Nodup := hn
  obtain ⟨hbefore, -⟩ := nodup_split hsplit
  obtain ⟨p, hp, hpe, hep⟩ := h.prev_eq
  have hne := (hbefore p hp).1
  obtain ⟨hnext', hprev'⟩ := h.unlink_self hn
  rw [hpe] at hprev'
  cases hnext : l.next e with
  | none =>
    rw [relink_last hprev' hne (hnext'.trans hnext), unlink_last hpe hne hnext]
    ext1
    · simp only [setNext, Function.update_idem]
      exact Function.update_eq_self_iff.mpr hep.symm
    · rfl
  | some b =>
    obtain ⟨hbe, -⟩ := h.drop.back hnext
    rw [relink_inner hprev' hne (hnext'.trans hnext), unlink_inner hpe hne hnext]
    ext1
    · simp only [setNext, setPrev, Function.update_idem]
      exact Function.update_eq_self_iff.mpr hep.symm
    · simp only [setNext, setPrev, Function.update_idem]
      exact Function.update_eq_self_iff.mpr hbe.symm

/-- A new first node. -/
theorem From.cons {l : Links P} {a n : P} {ps : List P} (h : l.From a ps) (hn : n ∉ a :: ps)
    (hd : (a :: ps).Nodup) :
    ((l.setPrev a (some n)).setNext n (some a)).From n (a :: ps) := by
  refine ⟨Function.update_self .., Function.update_self .., h.frame ?_ ?_⟩
  · intro p hp
    have hpn : p ≠ n := fun heq => hn (heq ▸ hp)
    exact Function.update_of_ne hpn ..
  · intro p hp
    have hpa : p ≠ a := fun heq => (List.nodup_cons.mp hd).1 (heq ▸ hp)
    exact Function.update_of_ne hpa ..

end Links

end LinkedList
