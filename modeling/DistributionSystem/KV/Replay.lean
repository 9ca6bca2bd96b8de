import DistributionSystem.KV.Server

/-! The replicated state as a function of the log. Along a log the maps only gain keys,
and an entry that has been applied is a duplicate from then on; so a prefix of the log
can be fed in again, and a snapshot can be decoded over an older state. -/

namespace DistributionSystem.Store

theorem isDuplicateRequest_iff {kv : Store} {c r : Int} :
    kv.isDuplicateRequest c r = true ↔ ∃ a, kv.lastAppliedRequestId.lookup c = some a ∧ r ≤ a := by
  unfold isDuplicateRequest
  cases h : kv.lastAppliedRequestId.lookup c with
  | none => simp
  | some a => simp

/-! ## The state grows -/

/-- `new` has the keys of `old` and counts its requests as duplicates. -/
structure Covers (new old : Store) : Prop where
  db : ∀ key ∈ old.db, key ∈ new.db
  duplicate : ∀ c r, old.isDuplicateRequest c r = true → new.isDuplicateRequest c r = true

theorem Covers.refl (kv : Store) : Covers kv kv := ⟨fun _ h => h, fun _ _ h => h⟩

theorem Covers.trans {a b c : Store} (h : Covers a b) (h' : Covers b c) : Covers a c :=
  ⟨fun key hk => h.db key (h'.db key hk), fun _ _ hd => h.duplicate _ _ (h'.duplicate _ _ hd)⟩

theorem execute_recorded (kv : Store) (op : Op) :
    (kv.execute op).lastAppliedRequestId.lookup op.clientId = some op.requestId :=
  Finmap.lookup_insert _

theorem execute_recorded_of_ne {kv : Store} {op : Op} {c : Int} (h : c ≠ op.clientId) :
    (kv.execute op).lastAppliedRequestId.lookup c = kv.lastAppliedRequestId.lookup c :=
  Finmap.lookup_insert_of_ne _ h

theorem apply_of_duplicate {kv : Store} {op : Op}
    (h : kv.isDuplicateRequest op.clientId op.requestId = true) : kv.apply op = kv := by
  unfold apply
  rw [if_pos h]

theorem duplicate_apply (kv : Store) (op : Op) :
    (kv.apply op).isDuplicateRequest op.clientId op.requestId = true := by
  unfold apply
  split
  · assumption
  · exact isDuplicateRequest_iff.mpr ⟨_, execute_recorded kv op, Int.le_refl _⟩

theorem mem_execute {kv : Store} {op : Op} {key : String} (h : key ∈ kv.db) :
    key ∈ (kv.execute op).db := by
  unfold execute
  cases hn : op.name with
  | get => exact h
  | put | append => exact Finmap.mem_insert.mpr (Or.inr h)

theorem covers_apply (kv : Store) (op : Op) : Covers (kv.apply op) kv := by
  unfold apply
  split
  · exact Covers.refl kv
  · rename_i hdup
    refine ⟨fun key => mem_execute, fun c r hd => ?_⟩
    obtain ⟨a, ha, hr⟩ := isDuplicateRequest_iff.mp hd
    by_cases hc : c = op.clientId
    · subst hc
      -- the request is new, so it is larger than the recorded one
      have hlt : a < op.requestId := by
        by_contra hle
        exact hdup (isDuplicateRequest_iff.mpr ⟨a, ha, by omega⟩)
      exact isDuplicateRequest_iff.mpr ⟨_, execute_recorded kv op, by omega⟩
    · exact isDuplicateRequest_iff.mpr ⟨a, (execute_recorded_of_ne hc).trans ha, hr⟩

/-! ## Along a log -/

theorem replay_concat (log : List Op) (op : Op) :
    replay (log ++ [op]) = (replay log).apply op := by
  unfold replay
  rw [List.foldl_append, List.foldl_cons, List.foldl_nil]

theorem replay_take_succ {log : List Op} {k : Nat} {op : Op} (h : log[k]? = some op) :
    replay (log.take (k + 1)) = (replay (log.take k)).apply op := by
  rw [List.take_add_one, h, Option.toList_some, replay_concat]

theorem covers_take_succ (log : List Op) (k : Nat) :
    Covers (replay (log.take (k + 1))) (replay (log.take k)) := by
  cases h : log[k]? with
  | none =>
    have hlen : log.length ≤ k := List.getElem?_eq_none_iff.mp h
    rw [List.take_of_length_le hlen, List.take_of_length_le (by omega)]
    exact Covers.refl _
  | some op =>
    rw [replay_take_succ h]
    exact covers_apply _ op

theorem covers_take (log : List Op) {i j : Nat} (h : i ≤ j) :
    Covers (replay (log.take j)) (replay (log.take i)) := by
  induction h with
  | refl => exact Covers.refl _
  | step _ ih => exact (covers_take_succ log _).trans ih

/-- Every entry of the prefix is a duplicate in the state it leads to. -/
theorem duplicate_of_lt {log : List Op} {i k : Nat} {op : Op} (h : log[i]? = some op)
    (hlt : i < k) :
    (replay (log.take k)).isDuplicateRequest op.clientId op.requestId = true := by
  refine (covers_take log (show i + 1 ≤ k from hlt)).duplicate _ _ ?_
  rw [replay_take_succ h]
  exact duplicate_apply _ op

/-- What is recorded for a client is a request of the log. -/
theorem exists_of_recorded {log : List Op} {k : Nat} {c a : Int}
    (h : (replay (log.take k)).lastAppliedRequestId.lookup c = some a) :
    ∃ i op, i < k ∧ log[i]? = some op ∧ op.clientId = c ∧ op.requestId = a := by
  induction k with
  | zero => exact absurd h (by simp [replay, empty])
  | succ k ih =>
    cases hk : log[k]? with
    | none =>
      have hlen : log.length ≤ k := List.getElem?_eq_none_iff.mp hk
      rw [List.take_of_length_le (by omega), ← List.take_of_length_le hlen] at h
      obtain ⟨i, op, hi, hop⟩ := ih h
      exact ⟨i, op, by omega, hop⟩
    | some op =>
      rw [replay_take_succ hk] at h
      by_cases hdup : (replay (log.take k)).isDuplicateRequest op.clientId op.requestId = true
      · rw [apply_of_duplicate hdup] at h
        obtain ⟨i, op', hi, hop⟩ := ih h
        exact ⟨i, op', by omega, hop⟩
      · unfold apply at h
        rw [if_neg hdup] at h
        by_cases hc : c = op.clientId
        · subst hc
          rw [execute_recorded] at h
          exact ⟨k, op, Nat.lt_succ_self k, hk, rfl, Option.some.inj h⟩
        · rw [execute_recorded_of_ne hc] at h
          obtain ⟨i, op', hi, hop⟩ := ih h
          exact ⟨i, op', by omega, hop⟩

/-! ## Snapshots -/

theorem union_of_subset {α β : Type} [DecidableEq α] {new old : GoMap α β}
    (h : ∀ a ∈ old, a ∈ new) : new ∪ old = new := by
  refine Finmap.ext_lookup fun a => ?_
  by_cases ha : a ∈ new
  · exact Finmap.lookup_union_left ha
  · rw [Finmap.lookup_union_right ha, Finmap.lookup_eq_none.mpr ha,
      Finmap.lookup_eq_none.mpr fun ho => ha (h a ho)]

theorem overlay_of_covers {new old : Store} (h : Covers new old) : overlay new old = new := by
  unfold overlay
  rw [union_of_subset h.db, union_of_subset]
  intro c hc
  obtain ⟨a, ha⟩ := Finmap.mem_iff.mp hc
  obtain ⟨b, hb, -⟩ := isDuplicateRequest_iff.mp
    (h.duplicate c a (isDuplicateRequest_iff.mpr ⟨a, ha, Int.le_refl _⟩))
  exact Finmap.mem_iff.mpr ⟨b, hb⟩

theorem decode_encode {B : Type} {gob : KVGob B} (hg : gob.RoundTrip) (kv saved : Store) :
    kv.decode gob (saved.encode gob) = overlay saved kv := by
  have hids := hg.ids saved.lastAppliedRequestId []
  rw [List.append_nil] at hids
  unfold decode encode
  simp only [hg.db, hids, overlay, Finmap.empty_union]

theorem covers_empty (kv : Store) : Covers kv empty :=
  ⟨fun _ h => absurd h Finmap.notMem_empty, fun _ _ h =>
    absurd h (by simp [isDuplicateRequest, empty])⟩

end DistributionSystem.Store
