import DistributionSystem.KV.ConfigSteps

/-! What the functions of `config` do while they hold the lock: which ends they enable and disable,
and when they change the slot of a server. -/

namespace DistributionSystem.Config

variable {n : Nat} {W B P : Type} {cfg : Config n W B P}

/-- The ends of this start of the server may be enabled. -/
def Present (cfg : Config n W B P) (i : Fin n) (start : Nat) : Prop :=
  start = cfg.starts i ∧ start ≠ 0 ∧ (cfg.slots i).alive = true

def Cuts : Operation n → Prop
  | .enable _ false | .deleteServer _ => True
  | _ => False

theorem mem_mapM {α β : Type} {f : α → Option β} {l : List α} {l' : List β}
    (h : l.mapM f = some l') {b : β} (hb : b ∈ l') : ∃ a ∈ l, f a = some b := by
  induction l generalizing l' with
  | nil =>
    cases h
    exact absurd hb List.not_mem_nil
  | cons a l ih =>
    rw [List.mapM_cons] at h
    obtain ⟨b₀, hb₀, h⟩ := Option.bind_eq_some_iff.mp h
    obtain ⟨bs, hbs, h⟩ := Option.bind_eq_some_iff.mp h
    cases h
    rcases List.mem_cons.mp hb with rfl | hb
    · exact ⟨a, List.mem_cons_self, hb₀⟩
    · obtain ⟨a', ha', hf⟩ := ih hbs hb
      exact ⟨a', List.mem_cons_of_mem _ ha', hf⟩

/-- The place of an element that is not in the first part. -/
theorem eq_concat_of_notMem {α : Type} {xs ys zs : List α} {a b : α}
    (h : zs ++ [b] = xs ++ a :: ys) (ha : a ∉ zs) : xs = zs ∧ a = b ∧ ys = [] := by
  rcases List.eq_nil_or_concat ys with rfl | ⟨ys', y, rfl⟩
  · obtain ⟨hz, hb⟩ := List.append_inj' h rfl
    exact ⟨hz.symm, (List.cons.inj hb).1.symm, rfl⟩
  · rw [List.concat_eq_append, ← List.cons_append, ← List.append_assoc] at h
    obtain ⟨hz, -⟩ := List.append_inj' h rfl
    exact absurd (by rw [hz]; simp) ha

theorem concat_cases {α : Type} {l : List α} {x y : α} {j : Nat} (h : (l ++ [x])[j]? = some y) :
    l[j]? = some y ∨ (j = l.length ∧ y = x) := by
  rcases Nat.lt_or_ge j l.length with hlt | hge
  · rw [List.getElem?_append_left hlt] at h
    exact Or.inl h
  · rw [List.getElem?_append_right hge, List.getElem?_singleton] at h
    split at h
    · cases h
      exact Or.inr ⟨by omega, rfl⟩
    · exact absurd h (by simp)

theorem concat_old {α : Type} {l : List α} {x y : α} {j : Nat} (h : l[j]? = some y) :
    (l ++ [x])[j]? = some y := by
  rw [List.getElem?_append_left (List.getElem?_eq_some_iff.mp h).1]
  exact h

theorem endnames_eq_some {i : Fin n} {names : Fin n → EndName n}
    (h : cfg.endnames i = some names) :
    cfg.starts i ≠ 0 ∧ names = .server i (cfg.starts i) := by
  unfold endnames at h
  split at h
  · exact absurd h (by simp)
  · rename_i h₀
    cases h
    exact ⟨h₀, rfl⟩

/-- `connect` enables ends between the servers that it names. -/
theorem mem_connectUnlocked {i : Fin n} {others : List (Fin n)} {ops : List (Operation n)}
    (h : cfg.connectUnlocked i others = some ops) {op : Operation n} (hop : op ∈ ops) :
    ∃ k ∈ i :: others, ∃ dst, cfg.starts k ≠ 0 ∧
      op = .enable (.server k (cfg.starts k) dst) true := by
  obtain ⟨out, hout, h⟩ := Option.bind_eq_some_iff.mp h
  obtain ⟨inc, hinc, h⟩ := Option.bind_eq_some_iff.mp h
  cases h
  rcases List.mem_append.mp hop with hop | hop
  · obtain ⟨j, -, hj⟩ := mem_mapM hout hop
    obtain ⟨names, hnames, rfl⟩ := Option.map_eq_some_iff.mp hj
    obtain ⟨h₀, rfl⟩ := endnames_eq_some hnames
    exact ⟨i, List.mem_cons_self, j, h₀, rfl⟩
  · obtain ⟨j, hmem, hj⟩ := mem_mapM hinc hop
    obtain ⟨names, hnames, rfl⟩ := Option.map_eq_some_iff.mp hj
    obtain ⟨h₀, rfl⟩ := endnames_eq_some hnames
    exact ⟨j, List.mem_cons_of_mem _ hmem, i, h₀, rfl⟩

/-- `disconnect` disables ends, those of the server to the others among them. -/
theorem disconnectUnlocked_spec {i : Fin n} {away : List (Fin n)} {ops : List (Operation n)}
    (h : cfg.disconnectUnlocked i away = some ops) :
    (∀ op ∈ ops, ∃ endname, op = .enable endname false) ∧
      ∀ j ∈ away, cfg.starts i ≠ 0 → .enable (.server i (cfg.starts i) j) false ∈ ops := by
  obtain ⟨inc, hinc, h⟩ := Option.bind_eq_some_iff.mp h
  cases h
  constructor
  · intro op hop
    rcases List.mem_append.mp hop with hop | hop
    · split at hop
      · obtain ⟨j, -, rfl⟩ := List.mem_map.mp hop
        exact ⟨_, rfl⟩
      · exact absurd hop List.not_mem_nil
    · obtain ⟨l, hl, hop⟩ := List.mem_flatten.mp hop
      obtain ⟨⟨j, k⟩, -, hjk⟩ := mem_mapM hinc hl
      simp only at hjk
      split at hjk
      · split at hjk
        · obtain ⟨names, -, rfl⟩ := Option.map_eq_some_iff.mp hjk
          exact ⟨_, List.mem_singleton.mp hop⟩
        · cases hjk
          exact absurd hop List.not_mem_nil
      · exact absurd hjk (by simp)
  · intro j hj h₀
    refine List.mem_append_left _ ?_
    have hnames : cfg.endnames i = some (.server i (cfg.starts i)) := if_neg h₀
    simp only [hnames]
    exact List.mem_map.mpr ⟨j, hj, rfl⟩

theorem mem_partitionHalf {p q : List (Fin n)} {ops : List (Operation n)}
    (h : cfg.partitionHalf p q = some ops) {op : Operation n} (hop : op ∈ ops) :
    (∃ endname, op = .enable endname false) ∨ ∃ k ∈ p, ∃ dst, cfg.starts k ≠ 0 ∧
      op = .enable (.server k (cfg.starts k) dst) true := by
  obtain ⟨ls, hls, rfl⟩ := Option.map_eq_some_iff.mp h
  obtain ⟨l, hl, hop⟩ := List.mem_flatten.mp hop
  obtain ⟨i, hi, hil⟩ := mem_mapM hls hl
  obtain ⟨cut, hcut, hil⟩ := Option.bind_eq_some_iff.mp hil
  obtain ⟨join, hjoin, hil⟩ := Option.bind_eq_some_iff.mp hil
  cases hil
  rcases List.mem_append.mp hop with hop | hop
  · exact Or.inl ((disconnectUnlocked_spec hcut).1 op hop)
  · obtain ⟨k, hk, hx⟩ := mem_connectUnlocked hjoin hop
    refine Or.inr ⟨k, ?_, hx⟩
    rcases List.mem_cons.mp hk with rfl | hk
    · exact hi
    · exact hk

/-- The steps that neither enable an end of a server nor change its slot. -/
def Harmless : Operation n → Prop
  | .enable (.server ..) true | .copy _ | .prepare _ => False
  | _ => True

theorem mem_makeEnds {endname : Fin n → EndName n} {op : Operation n}
    (h : op ∈ makeEnds endname) : Harmless op := by
  obtain ⟨j, -, hop⟩ := List.mem_flatMap.mp h
  rcases List.mem_cons.mp hop with rfl | hop
  · trivial
  · obtain rfl := List.mem_singleton.mp hop
    trivial

theorem mem_enableClient {client : Int} {yes : Bool} {others : List (Fin n)}
    {ops : List (Operation n)} (h : cfg.enableClient client yes others = some ops)
    {op : Operation n} (hop : op ∈ ops) : Harmless op := by
  obtain ⟨j, -, hj⟩ := mem_mapM h hop
  split at hj
  · cases hj
    cases yes <;> trivial
  · exact absurd hj (by simp)

/-- What a function of `config` that starts or stops no server does. -/
theorem mem_body {call : ConfigCall n} {ops : List (Operation n)}
    (hstart : ∀ i, call ≠ .startServer i) (hshut : ∀ i, call ≠ .shutdownServer i)
    (horder : cfg.Orderly (.enter call : ConfigEvent n B P)) (h : cfg.body call = some ops)
    (op : Operation n) (hop : op ∈ ops) :
    Harmless op ∨ ∃ k dst, cfg.Present k (cfg.starts k) ∧
      op = .enable (.server k (cfg.starts k) dst) true := by
  cases call with
  | connect i others =>
    obtain ⟨k, hk, dst, h₀, rfl⟩ := mem_connectUnlocked h hop
    exact Or.inr ⟨k, dst, ⟨rfl, h₀, horder k hk⟩, rfl⟩
  | disconnect i away =>
    obtain ⟨name, rfl⟩ := (disconnectUnlocked_spec h).1 op hop
    cases name <;> exact Or.inl trivial
  | connectAll =>
    obtain ⟨ls, hls, rfl⟩ := Option.map_eq_some_iff.mp h
    obtain ⟨l, hl, hop⟩ := List.mem_flatten.mp hop
    obtain ⟨i, -, hil⟩ := mem_mapM hls hl
    obtain ⟨k, -, dst, h₀, rfl⟩ := mem_connectUnlocked hil hop
    exact Or.inr ⟨k, dst, ⟨rfl, h₀, horder k⟩, rfl⟩
  | partition p q =>
    obtain ⟨first, hfirst, h⟩ := Option.bind_eq_some_iff.mp h
    obtain ⟨second, hsecond, h⟩ := Option.bind_eq_some_iff.mp h
    cases h
    have hhalf : (∃ name, op = .enable name false) ∨ ∃ k ∈ p ++ q, ∃ dst, cfg.starts k ≠ 0 ∧
        op = .enable (.server k (cfg.starts k) dst) true := by
      rcases List.mem_append.mp hop with hop | hop
      · refine (mem_partitionHalf hfirst hop).imp_right ?_
        rintro ⟨k, hk, hx⟩
        exact ⟨k, List.mem_append_left _ hk, hx⟩
      · refine (mem_partitionHalf hsecond hop).imp_right ?_
        rintro ⟨k, hk, hx⟩
        exact ⟨k, List.mem_append_right _ hk, hx⟩
    rcases hhalf with ⟨name, rfl⟩ | ⟨k, hk, dst, h₀, rfl⟩
    · cases name <;> exact Or.inl trivial
    · exact Or.inr ⟨k, dst, ⟨rfl, h₀, horder k hk⟩, rfl⟩
  | makeClient client others =>
    cases h
    refine Or.inl ?_
    rcases List.mem_append.mp hop with hop | hop
    · rcases List.mem_append.mp hop with hop | hop
      · exact mem_makeEnds hop
      · obtain rfl := List.mem_singleton.mp hop
        trivial
    · obtain ⟨j, -, rfl⟩ := List.mem_map.mp hop
      trivial
  | connectClient client others => exact Or.inl (mem_enableClient h hop)
  | disconnectClient client away => exact Or.inl (mem_enableClient h hop)
  | shutdownServer i => exact absurd rfl (hshut i)
  | startServer i => exact absurd rfl (hstart i)

end DistributionSystem.Config
