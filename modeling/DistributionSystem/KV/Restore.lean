import DistributionSystem.KV.Replay

/-! What `installSnapshot` leaves of the state it finds. The two maps are decoded one after
the other into the maps of the server, and gob sets the keys that it reads, up to the place where
it fails. So the server has the maps of the snapshot, or its own, unless a key or a client of its
own is not in the snapshot, or a read fails that has changed something before. -/

namespace DistributionSystem

namespace Store

variable {B : Type} {gob : KVGob B} {kv : Store} {data : List B}

/-- The entries that the two reads set, and whether both succeed. -/
def read (gob : KVGob B) (data : List B) : Store × Bool :=
  match gob.decodeDb data with
  | (db, none) => (⟨db, ∅⟩, false)
  | (db, some data) => (⟨db, (gob.decodeIds data).1⟩, (gob.decodeIds data).2.isSome)

/-- The maps that the bytes encode, if both can be read. -/
def encoded (gob : KVGob B) (data : List B) : Option Store :=
  if (read gob data).2 = true then some (read gob data).1 else none

/-- The server has other values for some of the entries. -/
def Changes (new old : Store) : Prop :=
  (∃ key value, new.db.lookup key = some value ∧ old.db.lookup key ≠ some value) ∨
    ∃ c r, new.lastAppliedRequestId.lookup c = some r ∧ old.lastAppliedRequestId.lookup c ≠ some r

/-- The server has a key or a client that is not among the entries. -/
def Exceeds (new old : Store) : Prop :=
  (∃ key ∈ old.db, key ∉ new.db) ∨ ∃ c ∈ old.lastAppliedRequestId, c ∉ new.lastAppliedRequestId

/-- The maps of the bytes and of the server end up in one state. -/
def Mixes (gob : KVGob B) (kv : Store) (data : List B) : Prop :=
  if (read gob data).2 = true then Exceeds (read gob data).1 kv else Changes (read gob data).1 kv

/-! ## Unions of maps -/

section

variable {α β : Type} [DecidableEq α] {new old : GoMap α β}

theorem union_eq_left_iff : new ∪ old = new ↔ ∀ a ∈ old, a ∈ new := by
  refine ⟨fun h a ha => ?_, union_of_subset⟩
  rw [← h]
  exact Finmap.mem_union.mpr (Or.inr ha)

theorem union_eq_right_iff :
    new ∪ old = old ↔ ∀ a v, new.lookup a = some v → old.lookup a = some v := by
  constructor
  · intro h a v hv
    rw [← h, Finmap.lookup_union_left (Finmap.mem_iff.mpr ⟨v, hv⟩)]
    exact hv
  · intro h
    refine Finmap.ext_lookup fun a => ?_
    by_cases ha : a ∈ new
    · obtain ⟨v, hv⟩ := Finmap.mem_iff.mp ha
      rw [Finmap.lookup_union_left ha, hv, h a v hv]
    · exact Finmap.lookup_union_right ha

end

theorem overlay_eq_left_iff {new old : Store} : overlay new old = new ↔ ¬ Exceeds new old := by
  unfold Exceeds
  push Not
  rw [← union_eq_left_iff, ← union_eq_left_iff]
  exact Store.mk.injEq _ _ _ _ ▸ Iff.rfl

theorem overlay_eq_right_iff {new old : Store} : overlay new old = old ↔ ¬ Changes new old := by
  unfold Changes
  push Not
  rw [← union_eq_right_iff, ← union_eq_right_iff]
  exact Store.mk.injEq _ _ _ _ ▸ Iff.rfl

/-! ## The two reads -/

theorem decode_eq_overlay : kv.decode gob data = overlay (read gob data).1 kv := by
  unfold decode read
  obtain ⟨db, rest⟩ := gob.decodeDb data
  cases rest with
  | none => rfl
  | some rest => simp only [overlay, Finmap.empty_union]

theorem decode_eq_iff : kv.decode gob data = (encoded gob data).getD kv ↔ ¬ Mixes gob kv data := by
  rw [decode_eq_overlay]
  unfold encoded Mixes
  split
  · exact overlay_eq_left_iff
  · exact overlay_eq_right_iff

end Store

namespace KVServer

variable {B : Type}

/-- The state is the one in the bytes, or the old one if they cannot be read, exactly when
the two are not mixed. -/
theorem install_all_or_nothing (gob : KVGob B) (kv : KVServer B) (data : List B) :
    (kv.installSnapshot gob (some data)).toStore =
        (Store.encoded gob data).getD kv.toStore ↔
      ¬ Store.Mixes gob kv.toStore data :=
  Store.decode_eq_iff

def onePut : Store := .replay [⟨"x", "a", .put, 1, 1⟩]

def otherPut : Store := .replay [⟨"y", "b", .put, 2, 1⟩]

/-- The server has one put. The snapshot of another put adds to it. Of a snapshot that ends behind
its first map, the database is taken, and so are the entries before the end of one that ends in the
middle of its first map, or of its second. -/
theorem install_mixes_maps :
    Store.encoded KVGob.words (otherPut.encode KVGob.words) = some otherPut ∧
    ({ blank with toStore := onePut }.installSnapshot KVGob.words
      (some (otherPut.encode KVGob.words))).toStore = .overlay otherPut onePut ∧
    Store.overlay otherPut onePut ≠ otherPut ∧
    (∀ data ∈ [KVGob.words.encodeDb otherPut.db, [.cutDb otherPut.db]],
      Store.encoded KVGob.words data = none ∧
      ({ blank with toStore := onePut }.installSnapshot KVGob.words (some data)).toStore =
        ⟨otherPut.db ∪ onePut.db, onePut.lastAppliedRequestId⟩) ∧
    (⟨otherPut.db ∪ onePut.db, onePut.lastAppliedRequestId⟩ : Store) ≠ onePut ∧
    Store.encoded KVGob.words [.db onePut.db, .cutIds otherPut.lastAppliedRequestId] = none ∧
    ({ blank with toStore := onePut }.installSnapshot KVGob.words
      (some [.db onePut.db, .cutIds otherPut.lastAppliedRequestId])).toStore =
        ⟨onePut.db, otherPut.lastAppliedRequestId ∪ onePut.lastAppliedRequestId⟩ ∧
    (⟨onePut.db, otherPut.lastAppliedRequestId ∪ onePut.lastAppliedRequestId⟩ : Store) ≠ onePut := by
  decide +kernel

end KVServer

end DistributionSystem
