import Mathlib.Data.List.Basic
import Mathlib.Data.List.Infix
import Mathlib.Logic.Function.Basic
import Mathlib.Logic.Relation
import DistributionSystem.Lib.Quorum

/-! Replicated logs under elected leaders, apart from any implementation. The state
holds the members' terms and logs together with what has ever happened: votes,
candidacies, elections, the log that the leader of a term has built, and the
prefixes of it that members have acknowledged.

`Step` lists what members may do. `Ballots` and `Logs` are the invariants about votes
and about the shape of the logs; what has been acknowledged is in `LeaderCommit`. -/

namespace LeaderLog

open Quorum

/-- `leaderLog t` is the log that the leader of the term `t` has built so far, `stood`
and `elected` carry the log that the candidate had. -/
structure State (ι ε : Type) where
  now : ι → Int
  log : ι → List ε
  vote : ι → Int → ι → Prop
  stood : ι → Int → List ε → Prop
  elected : Int → ι → List ε → Prop
  leaderLog : Int → List ε
  ack : ι → Int → Nat → Prop

variable {ι ε : Type} [DecidableEq ι]

namespace State

def raise (s : State ι ε) (i : ι) (t : Int) : State ι ε :=
  { s with now := Function.update s.now i t }

def stand (s : State ι ε) (i : ι) (t : Int) : State ι ε :=
  { s with
    now := Function.update s.now i t
    vote := fun v t' c => s.vote v t' c ∨ (v = i ∧ t' = t ∧ c = i)
    stood := fun c t' l => s.stood c t' l ∨ (c = i ∧ t' = t ∧ l = s.log i) }

def grant (s : State ι ε) (v c : ι) : State ι ε :=
  { s with vote := fun v' t c' => s.vote v' t c' ∨ (v' = v ∧ t = s.now v ∧ c' = c) }

def win (s : State ι ε) (i : ι) : State ι ε :=
  { s with
    elected := fun t c l => s.elected t c l ∨ (t = s.now i ∧ c = i ∧ l = s.log i)
    leaderLog := Function.update s.leaderLog (s.now i) (s.log i) }

def append (s : State ι ε) (i : ι) (e : ε) : State ι ε :=
  { s with
    log := Function.update s.log i (s.log i ++ [e])
    leaderLog := Function.update s.leaderLog (s.now i) (s.log i ++ [e]) }

def replace (s : State ι ε) (v : ι) (l : List ε) : State ι ε :=
  { s with log := Function.update s.log v l }

def acknowledge (s : State ι ε) (v : ι) (k : Nat) : State ι ε :=
  { s with ack := fun v' t k' => s.ack v' t k' ∨ (v' = v ∧ t = s.now v ∧ k' ≤ k) }

/-- Someone has won the term `t`. -/
def Won (s : State ι ε) (t : Int) : Prop := ∃ i l, s.elected t i l

end State

variable (term : ε → Int)

/-- The term of the last entry, 0 for an empty log. -/
def lastTerm (l : List ε) : Int := (l.getLast?.map term).getD 0

/-- A candidate's log `l` is at least as up-to-date as a voter's log `l'`. -/
def UpToDate (l l' : List ε) : Prop :=
  ¬ (lastTerm term l < lastTerm term l' ∨
    (lastTerm term l = lastTerm term l' ∧ l.length < l'.length))

inductive Step [Fintype ι] (s : State ι ε) : State ι ε → Prop
  | raise (i : ι) (t : Int) (h : s.now i ≤ t) : Step s (s.raise i t)
  | stand (i : ι) (t : Int) (h : s.now i < t) : Step s (s.stand i t)
  | grant (v c : ι) (l : List ε) (hs : s.stood c (s.now v) l)
      (hv : ∀ c', s.vote v (s.now v) c' → c' = c) (hu : UpToDate term l (s.log v)) :
      Step s (s.grant v c)
  | win (i : ι) (S : Finset ι) (hS : Majority S) (hv : ∀ v ∈ S, s.vote v (s.now i) i)
      (hs : s.stood i (s.now i) (s.log i)) (hn : ¬ s.Won (s.now i)) : Step s (s.win i)
  | append (i : ι) (e : ε) (l : List ε) (he : s.elected (s.now i) i l)
      (hl : s.leaderLog (s.now i) = s.log i) (ht : term e = s.now i) : Step s (s.append i e)
  | replace (v : ι) (l : List ε) (he : s.Won (s.now v)) (hl : l <+: s.leaderLog (s.now v))
      (hn : ¬ l <+: s.log v) : Step s (s.replace v l)
  | acknowledge (v : ι) (k : Nat) (hk : k ≤ (s.leaderLog (s.now v)).length)
      (hl : (s.leaderLog (s.now v)).take k <+: s.log v) : Step s (s.acknowledge v k)

/-- A member holds nothing and has done nothing. -/
def init (ι ε : Type) : State ι ε :=
  ⟨fun _ => 0, fun _ => [], fun _ _ _ => False, fun _ _ _ => False, fun _ _ _ => False,
    fun _ => [], fun _ _ _ => False⟩

/-! ## Ballots -/

structure Ballots (s : State ι ε) : Prop where
  now_nonneg : ∀ v, 0 ≤ s.now v
  vote_le : ∀ v t c, s.vote v t c → t ≤ s.now v
  vote_unique : ∀ v t c c', s.vote v t c → s.vote v t c' → c = c'
  vote_stood : ∀ v t c, s.vote v t c → ∃ l, s.stood c t l
  stood_vote : ∀ c t l, s.stood c t l → s.vote c t c
  stood_unique : ∀ c t l l', s.stood c t l → s.stood c t l' → l = l'
  stood_pos : ∀ c t l, s.stood c t l → 0 < t

omit [DecidableEq ι] in
theorem ballots_init : Ballots (init ι ε) :=
  ⟨fun _ => Int.le_refl 0, by simp [init], by simp [init], by simp [init], by simp [init],
    by simp [init], by simp [init]⟩

theorem Ballots.raise {s : State ι ε} (h : Ballots s) {i : ι} {t : Int} (ht : s.now i ≤ t) :
    Ballots (s.raise i t) := by
  have hle : ∀ v, s.now v ≤ (s.raise i t).now v := by
    intro v
    by_cases hv : v = i
    · subst hv; simpa [State.raise] using ht
    · simp [State.raise, hv]
  exact ⟨fun v => Int.le_trans (h.now_nonneg v) (hle v),
    fun v t' c hv => Int.le_trans (h.vote_le v t' c hv) (hle v),
    h.vote_unique, h.vote_stood, h.stood_vote, h.stood_unique, h.stood_pos⟩

theorem Ballots.stand {s : State ι ε} (h : Ballots s) {i : ι} {t : Int} (ht : s.now i < t) :
    Ballots (s.stand i t) := by
  have hr := h.raise (Int.le_of_lt ht)
  have hnone : ∀ c, ¬ s.vote i t c := fun c hv => by
    have := h.vote_le _ _ _ hv
    omega
  have hfresh : ∀ l, ¬ s.stood i t l := fun l hs => hnone _ (h.stood_vote _ _ _ hs)
  refine ⟨hr.now_nonneg, ?_, ?_, ?_, ?_, ?_, ?_⟩
  · rintro v t' c (hv | ⟨rfl, rfl, rfl⟩)
    · exact hr.vote_le v t' c hv
    · simp [State.stand]
  · rintro v t' c c' (hv | ⟨rfl, rfl, rfl⟩) (hv' | ⟨h1, h2, rfl⟩)
    · exact h.vote_unique _ _ _ _ hv hv'
    · subst h1 h2; exact absurd hv (hnone c)
    · exact absurd hv' (hnone c')
    · rfl
  · rintro v t' c (hv | ⟨rfl, rfl, rfl⟩)
    · obtain ⟨l, hl⟩ := h.vote_stood _ _ _ hv
      exact ⟨l, Or.inl hl⟩
    · exact ⟨_, Or.inr ⟨rfl, rfl, rfl⟩⟩
  · rintro c t' l (hs | ⟨rfl, rfl, rfl⟩)
    · exact Or.inl (h.stood_vote _ _ _ hs)
    · exact Or.inr ⟨rfl, rfl, rfl⟩
  · rintro c t' l l' (hs | ⟨rfl, rfl, rfl⟩) (hs' | ⟨h1, h2, rfl⟩)
    · exact h.stood_unique _ _ _ _ hs hs'
    · subst h1 h2; exact absurd hs (hfresh l)
    · exact absurd hs' (hfresh l')
    · rfl
  · rintro c t' l (hs | ⟨rfl, rfl, rfl⟩)
    · exact h.stood_pos _ _ _ hs
    · have := h.now_nonneg c
      omega

omit [DecidableEq ι] in
theorem Ballots.grant {s : State ι ε} (h : Ballots s) {v c : ι} {l : List ε}
    (hs : s.stood c (s.now v) l) (hv : ∀ c', s.vote v (s.now v) c' → c' = c) :
    Ballots (s.grant v c) := by
  refine ⟨h.now_nonneg, ?_, ?_, ?_, ?_, h.stood_unique, h.stood_pos⟩
  · rintro v' t c' (hv' | ⟨rfl, rfl, rfl⟩)
    · exact h.vote_le _ _ _ hv'
    · exact Int.le_refl _
  · rintro v' t c₁ c₂ (h₁ | ⟨rfl, rfl, rfl⟩) (h₂ | ⟨h1, h2, rfl⟩)
    · exact h.vote_unique _ _ _ _ h₁ h₂
    · subst h1 h2; exact hv c₁ h₁
    · exact (hv c₂ h₂).symm
    · rfl
  · rintro v' t c' (hv' | ⟨rfl, rfl, rfl⟩)
    · exact h.vote_stood _ _ _ hv'
    · exact ⟨l, hs⟩
  · exact fun c' t l' hs' => Or.inl (h.stood_vote _ _ _ hs')

theorem Ballots.step [Fintype ι] {s s' : State ι ε} (h : Ballots s) (hs : Step term s s') :
    Ballots s' := by
  cases hs with
  | raise i t ht => exact h.raise ht
  | stand i t ht => exact h.stand ht
  | grant v c l hs hv _ => exact h.grant hs hv
  | win | append | replace | acknowledge => exact { h with }

/-! ## Logs -/

/-- Each entry of `l` stands where the leader of its term has it, behind the same
entries. -/
def Chain (s : State ι ε) (l : List ε) : Prop :=
  ∀ k e, l[k]? = some e → l.take (k + 1) <+: s.leaderLog (term e)

section

variable {term} {s s' : State ι ε} {l l' : List ε}

omit [DecidableEq ι]

theorem chain_nil : Chain term s [] := by
  intro k e he
  simp at he

theorem Chain.shorten (h : Chain term s l) (hp : l' <+: l) : Chain term s l' := by
  intro k e he
  have hk : k < l'.length := (List.getElem?_eq_some_iff.mp he).1
  obtain ⟨r, rfl⟩ := hp
  have hc := h k e (by rw [List.getElem?_append_left hk, he])
  rwa [List.take_append_of_le_length (by omega)] at hc

theorem Chain.mono (h : Chain term s l) (hl : ∀ t, s.leaderLog t <+: s'.leaderLog t) :
    Chain term s' l := fun k e he => (h k e he).trans (hl _)

theorem Chain.concat (h : Chain term s l) {e : ε} (he : l ++ [e] <+: s.leaderLog (term e)) :
    Chain term s (l ++ [e]) := by
  intro k x hx
  by_cases hk : k < l.length
  · rw [List.getElem?_append_left hk] at hx
    rw [List.take_append_of_le_length (by omega)]
    exact h k x hx
  · have hlt := (List.getElem?_eq_some_iff.mp hx).1
    rw [List.length_append, List.length_singleton] at hlt
    obtain rfl : k = l.length := by omega
    rw [List.getElem?_concat_length, Option.some.injEq] at hx
    subst hx
    rwa [List.take_of_length_le (by simp)]

/-- A chain lies in the log of the leader of its last term. -/
theorem Chain.last (h : Chain term s l) {e : ε} (he : l.getLast? = some e) :
    l <+: s.leaderLog (term e) := by
  rw [List.getLast?_eq_getElem?] at he
  have hlt := (List.getElem?_eq_some_iff.mp he).1
  have hc := h _ e he
  rwa [List.take_of_length_le (by omega)] at hc

end

structure Logs (s : State ι ε) : Prop where
  stood_lt : ∀ c t l, s.stood c t l → ∀ e ∈ l, term e < t
  stood_chain : ∀ c t l, s.stood c t l → Chain term s l
  elected_stood : ∀ t i l, s.elected t i l → s.stood i t l
  elected_le : ∀ t i l, s.elected t i l → l <+: s.leaderLog t
  elected_suffix : ∀ t i l, s.elected t i l → ∀ e ∈ (s.leaderLog t).drop l.length, term e = t
  leaderLog_nil : ∀ t, ¬ s.Won t → s.leaderLog t = []
  leaderLog_chain : ∀ t, Chain term s (s.leaderLog t)
  log_chain : ∀ v, Chain term s (s.log v)
  log_le : ∀ v, ∀ e ∈ s.log v, term e ≤ s.now v

omit [DecidableEq ι] in
theorem logs_init : Logs term (init ι ε) :=
  ⟨by simp [init], by simp [init], by simp [init], by simp [init], by simp [init],
    fun _ _ => rfl, fun _ => chain_nil, fun _ => chain_nil, by simp [init]⟩

section

variable {term} {s : State ι ε}

omit [DecidableEq ι]

/-- The leader of a term holds no entry of a later term. -/
theorem Logs.leaderLog_le (h : Logs term s) {t : Int} {e : ε} (he : e ∈ s.leaderLog t) :
    term e ≤ t := by
  by_cases hw : s.Won t
  · obtain ⟨i, l, hi⟩ := hw
    obtain ⟨r, hr⟩ := h.elected_le _ _ _ hi
    have hsuffix := h.elected_suffix _ _ _ hi
    rw [← hr, List.mem_append] at he
    rw [← hr, List.drop_left] at hsuffix
    rcases he with he | he
    · exact Int.le_of_lt (h.stood_lt _ _ _ (h.elected_stood _ _ _ hi) e he)
    · exact Int.le_of_eq (hsuffix e he)
  · rw [h.leaderLog_nil t hw] at he
    exact absurd he (by simp)

theorem Logs.won_of_ne_nil (h : Logs term s) {t : Int} (hne : s.leaderLog t ≠ []) : s.Won t :=
  Classical.byContradiction fun hw => hne (h.leaderLog_nil t hw)

theorem Chain.won {l : List ε} (hc : Chain term s l) (h : Logs term s) {e : ε} (he : e ∈ l) :
    s.Won (term e) := by
  obtain ⟨k, hk⟩ := List.getElem?_of_mem he
  have hlt := (List.getElem?_eq_some_iff.mp hk).1
  apply h.won_of_ne_nil
  intro hnil
  have hp := hc k e hk
  rw [hnil, List.prefix_nil] at hp
  have hlen := congrArg List.length hp
  rw [List.length_take, List.length_nil] at hlen
  omega

end

section

variable {term} {s s' : State ι ε}

/-- The leaders' logs only grow. -/
theorem Step.leaderLog_mono [Fintype ι] (hs : Step term s s') (h : Logs term s) (t : Int) :
    s.leaderLog t <+: s'.leaderLog t := by
  cases hs with
  | win i S _ _ _ hn =>
    by_cases ht : t = s.now i
    · subst ht
      rw [h.leaderLog_nil _ hn]
      exact List.nil_prefix
    · simp [State.win, ht]
  | append i e l _ hl _ =>
    by_cases ht : t = s.now i
    · subst ht
      simp [State.append, hl]
    · simp [State.append, ht]
  | _ => exact List.prefix_refl _

theorem Logs.stand (h : Logs term s) {i : ι} {t : Int} (ht : s.now i < t) :
    Logs term (s.stand i t) := by
  refine { h with stood_lt := ?_, stood_chain := ?_, elected_stood := ?_, log_le := ?_ }
  · rintro c t' l (hs | ⟨rfl, rfl, rfl⟩)
    · exact h.stood_lt _ _ _ hs
    · intro e he
      have := h.log_le c e he
      omega
  · rintro c t' l (hs | ⟨rfl, rfl, rfl⟩)
    · exact h.stood_chain _ _ _ hs
    · exact h.log_chain c
  · exact fun t' c l he => Or.inl (h.elected_stood _ _ _ he)
  · intro v e he
    have hle := h.log_le v e he
    by_cases hv : v = i
    · subst hv
      simp only [State.stand, Function.update_self]
      omega
    · simpa [State.stand, hv] using hle

omit [DecidableEq ι] in
theorem Logs.win (h : Logs term s) {i : ι} (hst : s.stood i (s.now i) (s.log i))
    (hn : ¬ s.Won (s.now i)) (hmono : ∀ t, s.leaderLog t <+: (s.win i).leaderLog t) :
    Logs term (s.win i) := by
  have hself : (s.win i).leaderLog (s.now i) = s.log i := by simp [State.win]
  have hother : ∀ t, t ≠ s.now i → (s.win i).leaderLog t = s.leaderLog t := by
    intro t ht
    simp [State.win, ht]
  have hne : ∀ t c l, s.elected t c l → t ≠ s.now i := fun t c l he ht => hn ⟨c, l, ht ▸ he⟩
  refine ⟨h.stood_lt, fun c t l hs => (h.stood_chain _ _ _ hs).mono hmono, ?_, ?_, ?_, ?_, ?_,
    fun v => (h.log_chain v).mono hmono, h.log_le⟩
  · rintro t c l (he | ⟨rfl, rfl, rfl⟩)
    · exact h.elected_stood _ _ _ he
    · exact hst
  · rintro t c l (he | ⟨rfl, rfl, rfl⟩)
    · rw [hother t (hne _ _ _ he)]
      exact h.elected_le _ _ _ he
    · rw [hself]
  · rintro t c l (he | ⟨rfl, rfl, rfl⟩)
    · rw [hother t (hne _ _ _ he)]
      exact h.elected_suffix _ _ _ he
    · rw [hself, List.drop_length]
      simp
  · intro t hw
    have ht : t ≠ s.now i := fun ht => hw ⟨i, s.log i, Or.inr ⟨ht, rfl, rfl⟩⟩
    rw [hother t ht]
    exact h.leaderLog_nil t fun ⟨c, l, he⟩ => hw ⟨c, l, Or.inl he⟩
  · intro t
    by_cases ht : t = s.now i
    · rw [ht, hself]
      exact (h.log_chain i).mono hmono
    · rw [hother t ht]
      exact (h.leaderLog_chain t).mono hmono

theorem Logs.append (h : Logs term s) {i : ι} {e : ε} {l : List ε}
    (he : s.elected (s.now i) i l) (hl : s.leaderLog (s.now i) = s.log i)
    (ht : term e = s.now i) (hmono : ∀ t, s.leaderLog t <+: (s.append i e).leaderLog t) :
    Logs term (s.append i e) := by
  have hself : (s.append i e).leaderLog (s.now i) = s.log i ++ [e] := by simp [State.append]
  have hother : ∀ t, t ≠ s.now i → (s.append i e).leaderLog t = s.leaderLog t := by
    intro t hne
    simp [State.append, hne]
  have hchain : Chain term (s.append i e) (s.log i ++ [e]) := by
    refine ((h.log_chain i).mono hmono).concat ?_
    rw [ht, hself]
  refine ⟨h.stood_lt, fun c t l hs => (h.stood_chain _ _ _ hs).mono hmono, h.elected_stood,
    fun t c l hc => (h.elected_le _ _ _ hc).trans (hmono t), ?_, ?_, ?_, ?_, ?_⟩
  · intro t c l' hc x hx
    by_cases htt : t = s.now i
    · subst htt
      have hlen := (h.elected_le _ _ _ hc).length_le
      rw [hself, List.drop_append_of_le_length (by rwa [← hl]), List.mem_append, ← hl,
        List.mem_singleton] at hx
      rcases hx with hx | rfl
      · exact h.elected_suffix _ _ _ hc x hx
      · exact ht
    · rw [hother t htt] at hx
      exact h.elected_suffix _ _ _ hc x hx
  · intro t hw
    have htt : t ≠ s.now i := fun htt => hw ⟨i, l, htt ▸ he⟩
    rw [hother t htt]
    exact h.leaderLog_nil t hw
  · intro t
    by_cases htt : t = s.now i
    · rw [htt, hself]; exact hchain
    · rw [hother t htt]; exact (h.leaderLog_chain t).mono hmono
  · intro v
    by_cases hv : v = i
    · subst hv; simpa [State.append] using hchain
    · simpa [State.append, hv] using (h.log_chain v).mono hmono
  · intro v x hx
    by_cases hv : v = i
    · subst hv
      simp only [State.append, Function.update_self, List.mem_append, List.mem_singleton] at hx
      rcases hx with hx | rfl
      · exact h.log_le v x hx
      · exact Int.le_of_eq ht
    · simp only [State.append, Function.update_of_ne hv] at hx
      exact h.log_le v x hx

theorem Logs.replace (h : Logs term s) {v : ι} {l : List ε} (hl : l <+: s.leaderLog (s.now v)) :
    Logs term (s.replace v l) := by
  refine { h with log_chain := ?_, log_le := ?_ }
  · intro w
    show Chain term s (Function.update s.log v l w)
    by_cases hw : w = v
    · subst hw
      rw [Function.update_self]
      exact (h.leaderLog_chain _).shorten hl
    · rw [Function.update_of_ne hw]
      exact h.log_chain w
  · intro w x hx
    by_cases hw : w = v
    · subst hw
      simp only [State.replace, Function.update_self] at hx
      exact h.leaderLog_le (hl.subset hx)
    · simp only [State.replace, Function.update_of_ne hw] at hx
      exact h.log_le w x hx

theorem Logs.step [Fintype ι] (h : Logs term s) (hs : Step term s s') : Logs term s' := by
  have hmono := hs.leaderLog_mono h
  cases hs with
  | raise i t ht =>
    refine { h with log_le := fun v e he => ?_ }
    have hle := h.log_le v e he
    by_cases hv : v = i
    · subst hv
      simp only [State.raise, Function.update_self]
      omega
    · simpa [State.raise, hv] using hle
  | stand i t ht => exact h.stand ht
  | grant => exact { h with }
  | win i S _ _ hst hn => exact h.win hst hn hmono
  | append i e l he hl ht => exact h.append he hl ht hmono
  | replace v l _ hl _ => exact h.replace hl
  | acknowledge => exact { h with }

end

/-! ## Comparing two logs -/

/-- Where two logs have entries of one term at one index, they are the same up to it. -/
def Matching (l l' : List ε) : Prop :=
  ∀ k e e', l[k]? = some e → l'[k]? = some e' → term e = term e' →
    l.take (k + 1) = l'.take (k + 1)

section

variable {term} {s : State ι ε} {l l' : List ε}

omit [DecidableEq ι]

theorem Chain.matching (h : Chain term s l) (h' : Chain term s l') : Matching term l l' := by
  intro k e e' he he' ht
  have hk := (List.getElem?_eq_some_iff.mp he).1
  have hk' := (List.getElem?_eq_some_iff.mp he').1
  have hlen : (l.take (k + 1)).length = (l'.take (k + 1)).length := by
    rw [List.length_take, List.length_take]
    omega
  have hp := List.prefix_of_prefix_length_le (h k e he) (ht ▸ h' k e' he') (Nat.le_of_eq hlen)
  exact hp.eq_of_length hlen

theorem lastTerm_take {k : Nat} {e : ε} (he : l[k]? = some e) :
    lastTerm term (l.take (k + 1)) = term e := by
  rw [List.take_add_one, he]
  simp [lastTerm]

theorem Matching.refl (l : List ε) : Matching term l l :=
  fun _ _ _ _ _ _ => rfl

theorem Matching.symm (h : Matching term l l') : Matching term l' l :=
  fun k e e' he he' ht => (h k e' e he' he ht.symm).symm

/-- Matching logs whose prefixes of one length end in one term agree up to there. -/
theorem Matching.take_eq (h : Matching term l l') {k : Nat} (hk : k ≤ l.length)
    (hk' : k ≤ l'.length) (ht : lastTerm term (l.take k) = lastTerm term (l'.take k)) :
    l.take k = l'.take k := by
  cases k with
  | zero => rw [List.take_zero, List.take_zero]
  | succ k =>
    have he := List.getElem?_eq_getElem hk
    have he' := List.getElem?_eq_getElem hk'
    rw [lastTerm_take he, lastTerm_take he'] at ht
    exact h k _ _ he he' ht

end

end LeaderLog
