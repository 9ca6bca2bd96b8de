import DistributionSystem.Lib.LeaderLog

/-! What leaders may call committed. `Acks` says what becomes of an acknowledged prefix:
its holder and the candidates it votes for keep it, as long as every leader in between
does. From it, by induction on the term:

* `leader_completeness`: what a majority has acknowledged up to an entry of the leader's
  own term is in the log of every later leader;
* `com_comparable`: of two committed prefixes one goes on from the other. -/

namespace LeaderLog

open Quorum

variable {ι ε : Type} (term : ε → Int)

/-- The leader of the term `t` put an entry of its own at the index `k`. -/
def Own (s : State ι ε) (t : Int) (k : Nat) : Prop :=
  0 < k ∧ ∃ e, (s.leaderLog t)[k - 1]? = some e ∧ term e = t

section

variable {s s' : State ι ε}

/-- The log `l` goes on from the first `k` entries of the leader of the term `t`, unless
a leader after `t` and before the limit did not. -/
def Carries (s : State ι ε) (t : Int) (k : Nat) (limit : Int) (l : List ε) : Prop :=
  (s.leaderLog t).take k <+: l ∨
    ∃ t' i l', t < t' ∧ t' < limit ∧ s.elected t' i l' ∧ ¬ (s.leaderLog t).take k <+: l'

theorem take_leaderLog {t : Int} {k : Nat} (hl : s.leaderLog t <+: s'.leaderLog t)
    (hk : k ≤ (s.leaderLog t).length) : (s'.leaderLog t).take k = (s.leaderLog t).take k := by
  obtain ⟨r, hr⟩ := hl
  rw [← hr, List.take_append_of_le_length hk]

theorem Carries.mono {t limit limit' : Int} {k : Nat} {l : List ε} (h : Carries s t k limit l)
    (hlim : limit ≤ limit') (hk : k ≤ (s.leaderLog t).length)
    (hl : s.leaderLog t <+: s'.leaderLog t)
    (he : ∀ t i l, s.elected t i l → s'.elected t i l) : Carries s' t k limit' l := by
  unfold Carries
  rw [take_leaderLog hl hk]
  rcases h with h | ⟨t', i, l', h1, h2, h3, h4⟩
  · exact Or.inl h
  · exact Or.inr ⟨t', i, l', h1, by omega, he _ _ _ h3, h4⟩

theorem Own.of_mono {t : Int} {k : Nat} (h : Own term s' t k)
    (hl : s.leaderLog t <+: s'.leaderLog t) (hk : k ≤ (s.leaderLog t).length) : Own term s t k := by
  obtain ⟨hpos, e, he, ht⟩ := h
  obtain ⟨r, hr⟩ := hl
  refine ⟨hpos, e, ?_, ht⟩
  rwa [← hr, List.getElem?_append_left (by omega)] at he

end

structure Acks [Fintype ι] (s : State ι ε) : Prop where
  ack_down : ∀ v t k k', s.ack v t k → k' ≤ k → s.ack v t k'
  ack_le : ∀ v t k, s.ack v t k → t ≤ s.now v
  ack_length : ∀ v t k, s.ack v t k → k ≤ (s.leaderLog t).length
  ack_log : ∀ v t k, s.ack v t k → Carries s t k (s.now v + 1) (s.log v)
  elected_votes : ∀ t i l, s.elected t i l → ∃ S, Majority S ∧ ∀ v ∈ S, s.vote v t i ∧
    ∀ t' k, t' < t → Own term s t' k → s.ack v t' k → Carries s t' k t l
  vote_log : ∀ v t c l, s.vote v t c → s.stood c t l → ¬ s.Won t →
    ∀ t' k, t' < t → Own term s t' k → s.ack v t' k → Carries s t' k t l

theorem acks_init [Fintype ι] : Acks term (init ι ε) :=
  ⟨by simp [init], by simp [init], by simp [init], by simp [init], by simp [init], by simp [init]⟩

structure Sound [Fintype ι] (s : State ι ε) : Prop where
  ballots : Ballots s
  logs : Logs term s
  acks : Acks term s

theorem sound_init [Fintype ι] : Sound term (init ι ε) :=
  ⟨ballots_init, logs_init term, acks_init term⟩

section

variable {term} {s s' : State ι ε}

/-- The vote rule: a log that is at least as up-to-date as one that holds the prefix
carries it on. -/
theorem carries_of_upToDate (hb : Ballots s) (h : Logs term s) {v c : ι} {t t' : Int} {k : Nat}
    {l : List ε} (hst : s.stood c t l) (ho : Own term s t' k)
    (hk : (s.leaderLog t').take k <+: s.log v) (hu : UpToDate term l (s.log v)) :
    Carries s t' k t l := by
  obtain ⟨hpos, e, he, hte⟩ := ho
  have hklen : k ≤ (s.leaderLog t').length := by
    have := (List.getElem?_eq_some_iff.mp he).1
    omega
  have hev : e ∈ s.log v := by
    refine hk.subset (List.mem_of_getElem? (i := k - 1) ?_)
    rw [List.getElem?_take_of_lt (by omega), he]
  obtain ⟨x, hx⟩ : ∃ x, (s.log v).getLast? = some x := by
    rw [← Option.isSome_iff_exists, List.getLast?_isSome]
    exact List.ne_nil_of_mem hev
  have hchainv := (h.log_chain v).last hx
  have hle : t' ≤ term x := hte ▸ h.leaderLog_le (hchainv.subset hev)
  have hlastv : lastTerm term (s.log v) = term x := by simp [lastTerm, hx]
  obtain ⟨hu1, hu2⟩ := not_or.mp hu
  rw [hlastv] at hu1 hu2
  have htpos : 0 < t' := by
    obtain ⟨i, m, hi⟩ := (h.log_chain v).won h hev
    exact hte ▸ hb.stood_pos _ _ _ (h.elected_stood _ _ _ hi)
  obtain ⟨y, hy⟩ : ∃ y, l.getLast? = some y := by
    cases hl : l.getLast? with
    | some y => exact ⟨y, rfl⟩
    | none =>
      have : lastTerm term l = 0 := by simp [lastTerm, hl]
      omega
  have hlastl : lastTerm term l = term y := by simp [lastTerm, hy]
  rw [hlastl] at hu1 hu2
  have hymem : y ∈ l := List.mem_of_getLast? hy
  have hyt : term y < t := h.stood_lt _ _ _ hst y hymem
  have hchainl := (h.stood_chain _ _ _ hst).last hy
  by_cases heq : term y = t'
  · -- both logs end in the term of the leader, and the candidate's is not shorter
    left
    rw [heq] at hchainl
    refine List.prefix_of_prefix_length_le (List.take_prefix _ _) hchainl ?_
    have hlen := hk.length_le
    rw [List.length_take, Nat.min_eq_left hklen] at hlen ⊢
    have : ¬ l.length < (s.log v).length := fun hlt => hu2 ⟨by omega, hlt⟩
    omega
  · -- the candidate's log ends in a later term, whose leader decides
    obtain ⟨i, m, hi⟩ := (h.stood_chain _ _ _ hst).won h hymem
    by_cases hm : (s.leaderLog t').take k <+: m
    · left
      refine hm.trans (List.prefix_of_prefix_length_le (h.elected_le _ _ _ hi) hchainl ?_)
      by_contra hlt
      have hsub := List.prefix_of_prefix_length_le hchainl (h.elected_le _ _ _ hi) (by omega)
      have := h.stood_lt _ _ _ (h.elected_stood _ _ _ hi) y (hsub.subset hymem)
      omega
    · exact Or.inr ⟨term y, i, m, by omega, hyt, hi, hm⟩

variable [Fintype ι]

theorem Acks.carries_mono (h : Acks term s) (hl : ∀ t, s.leaderLog t <+: s'.leaderLog t)
    (he : ∀ t i l, s.elected t i l → s'.elected t i l) {v : ι} {t limit : Int} {k : Nat}
    {l : List ε} (ha : s.ack v t k) (hc : Carries s t k limit l) : Carries s' t k limit l :=
  hc.mono (Int.le_refl _) (h.ack_length _ _ _ ha) (hl t) he

theorem Acks.own_of_mono (h : Acks term s) (hl : ∀ t, s.leaderLog t <+: s'.leaderLog t)
    {v : ι} {t : Int} {k : Nat} (ha : s.ack v t k) (ho : Own term s' t k) : Own term s t k :=
  Own.of_mono term ho (hl t) (h.ack_length _ _ _ ha)

/-- A step that adds no vote, candidacy or acknowledgement keeps what is known of the
acknowledged prefixes, if the logs and the new elections do. -/
theorem Acks.of_mono (h : Acks term s) (hl : ∀ t, s.leaderLog t <+: s'.leaderLog t)
    (he : ∀ t i l, s.elected t i l → s'.elected t i l) (hnow : s'.now = s.now)
    (hvote : s'.vote = s.vote) (hstood : s'.stood = s.stood) (hack : s'.ack = s.ack)
    (hlog : ∀ v t k, s.ack v t k → Carries s t k (s.now v + 1) (s.log v) →
      Carries s' t k (s.now v + 1) (s'.log v))
    (hnew : ∀ t i l, s'.elected t i l → ¬ s.elected t i l → ∃ S, Majority S ∧ ∀ v ∈ S,
      s.vote v t i ∧ ∀ t' k, t' < t → Own term s t' k → s.ack v t' k → Carries s t' k t l) :
    Acks term s' := by
  refine ⟨?_, ?_, ?_, ?_, ?_, ?_⟩
  · rw [hack]; exact h.ack_down
  · rw [hack, hnow]; exact h.ack_le
  · rw [hack]
    exact fun v t k ha => Nat.le_trans (h.ack_length _ _ _ ha) (hl t).length_le
  · rw [hack, hnow]
    exact fun v t k ha => hlog v t k ha (h.ack_log _ _ _ ha)
  · rw [hack, hvote]
    intro t i l hel
    obtain ⟨S, hS, hv⟩ : ∃ S, Majority S ∧ ∀ v ∈ S, s.vote v t i ∧
        ∀ t' k, t' < t → Own term s t' k → s.ack v t' k → Carries s t' k t l := by
      by_cases hold : s.elected t i l
      · exact h.elected_votes _ _ _ hold
      · exact hnew _ _ _ hel hold
    refine ⟨S, hS, fun v hvS => ⟨(hv v hvS).1, fun t' k hlt ho ha => ?_⟩⟩
    exact h.carries_mono hl he ha ((hv v hvS).2 t' k hlt (h.own_of_mono hl ha ho) ha)
  · rw [hack, hvote, hstood]
    intro v t c l hv hs hw t' k hlt ho ha
    refine h.carries_mono hl he ha (h.vote_log _ _ _ _ hv hs ?_ t' k hlt
      (h.own_of_mono hl ha ho) ha)
    exact fun ⟨i, l', hel⟩ => hw ⟨i, l', he _ _ _ hel⟩

theorem Acks.grant (h : Acks term s) (hb : Ballots s) (hlogs : Logs term s) {v c : ι} {l : List ε}
    (hs : s.stood c (s.now v) l) (hu : UpToDate term l (s.log v)) : Acks term (s.grant v c) := by
  refine ⟨h.ack_down, h.ack_le, h.ack_length, h.ack_log, ?_, ?_⟩
  · intro t i l' he
    obtain ⟨S, hS, hv⟩ := h.elected_votes _ _ _ he
    exact ⟨S, hS, fun w hw => ⟨Or.inl (hv w hw).1, (hv w hw).2⟩⟩
  · rintro w t c' l' (hv | ⟨rfl, rfl, rfl⟩) hs' hw t' k hlt ho ha
    · exact h.vote_log _ _ _ _ hv hs' hw t' k hlt ho ha
    · obtain rfl := hb.stood_unique _ _ _ _ hs hs'
      rcases h.ack_log _ _ _ ha with hk | ⟨t₁, i, m, h1, h2, h3, h4⟩
      · exact carries_of_upToDate hb hlogs hs ho hk hu
      · have hne : t₁ ≠ s.now w := fun heq => hw ⟨i, m, heq ▸ h3⟩
        exact Or.inr ⟨t₁, i, m, h1, by omega, h3, h4⟩

variable [DecidableEq ι]

theorem Acks.stand (h : Acks term s) (hb : Ballots s) {i : ι} {t : Int} (ht : s.now i < t) :
    Acks term (s.stand i t) := by
  have hle : ∀ v, s.now v ≤ (s.stand i t).now v := by
    intro v
    by_cases hv : v = i
    · subst hv
      simp only [State.stand, Function.update_self]
      omega
    · simp [State.stand, hv]
  have hnone : ∀ c, ¬ s.vote i t c := fun c hv => by
    have := hb.vote_le _ _ _ hv
    omega
  refine ⟨h.ack_down, fun v t' k ha => Int.le_trans (h.ack_le _ _ _ ha) (hle v), h.ack_length,
    ?_, ?_, ?_⟩
  · intro v t' k ha
    have := hle v
    exact (h.ack_log _ _ _ ha).mono (by omega) (h.ack_length _ _ _ ha) (List.prefix_refl _)
      fun _ _ _ he => he
  · intro t' c l he
    obtain ⟨S, hS, hv⟩ := h.elected_votes _ _ _ he
    exact ⟨S, hS, fun v hvS => ⟨Or.inl (hv v hvS).1, (hv v hvS).2⟩⟩
  · rintro v t' c l (hv | ⟨rfl, rfl, rfl⟩) (hs | ⟨h1, h2, rfl⟩) hw t₀ k hlt ho ha
    · exact h.vote_log _ _ _ _ hv hs hw t₀ k hlt ho ha
    · subst h1 h2
      obtain ⟨l', hs⟩ := hb.vote_stood _ _ _ hv
      exact absurd (hb.stood_vote _ _ _ hs) (hnone _)
    · exact absurd (hb.stood_vote _ _ _ hs) (hnone _)
    · exact (h.ack_log _ _ _ ha).mono (by omega) (h.ack_length _ _ _ ha) (List.prefix_refl _)
        fun _ _ _ he => he

theorem Acks.replace (h : Acks term s) (hlogs : Logs term s) {v : ι} {l : List ε}
    (hw : s.Won (s.now v)) (hl : l <+: s.leaderLog (s.now v)) (hn : ¬ l <+: s.log v) :
    Acks term (s.replace v l) := by
  refine h.of_mono (fun _ => List.prefix_refl _) (fun _ _ _ he => he) rfl rfl rfl rfl ?_
    (fun _ _ _ he hne => absurd he hne)
  intro w t k ha hc
  by_cases hwv : w = v
  · subst hwv
    -- what `w` holds of the leader's log and `l` are comparable, and `w` does not hold `l`
    have hkeep : (s.leaderLog t).take k <+: s.leaderLog (s.now w) →
        (s.leaderLog t).take k <+: s.log w → (s.leaderLog t).take k <+: l := by
      intro h1 h2
      rcases List.prefix_or_prefix_of_prefix h1 hl with h3 | h3
      · exact h3
      · exact absurd (h3.trans h2) hn
    show (s.leaderLog t).take k <+: Function.update s.log w l w ∨ _
    rw [Function.update_self]
    rcases hc with hc | hc
    · by_cases ht : t = s.now w
      · exact Or.inl (hkeep (ht ▸ List.take_prefix _ _) hc)
      · obtain ⟨i, m, hi⟩ := hw
        by_cases hm : (s.leaderLog t).take k <+: m
        · exact Or.inl (hkeep (hm.trans (hlogs.elected_le _ _ _ hi)) hc)
        · have := h.ack_le _ _ _ ha
          exact Or.inr ⟨s.now w, i, m, by omega, by omega, hi, hm⟩
    · exact Or.inr hc
  · show Carries s t k (s.now w + 1) (Function.update s.log v l w)
    rwa [Function.update_of_ne hwv]

omit [DecidableEq ι] in
theorem Acks.acknowledge (h : Acks term s) (hb : Ballots s) {v : ι} {k : Nat}
    (hk : k ≤ (s.leaderLog (s.now v)).length)
    (hl : (s.leaderLog (s.now v)).take k <+: s.log v) : Acks term (s.acknowledge v k) := by
  refine ⟨?_, ?_, ?_, ?_, ?_, ?_⟩
  · rintro w t k₁ k₂ (ha | ⟨rfl, rfl, hk₁⟩) hle
    · exact Or.inl (h.ack_down _ _ _ _ ha hle)
    · exact Or.inr ⟨rfl, rfl, Nat.le_trans hle hk₁⟩
  · rintro w t k' (ha | ⟨rfl, rfl, -⟩)
    · exact h.ack_le _ _ _ ha
    · exact Int.le_refl _
  · rintro w t k' (ha | ⟨rfl, rfl, hk'⟩)
    · exact h.ack_length _ _ _ ha
    · exact Nat.le_trans hk' hk
  · rintro w t k' (ha | ⟨rfl, rfl, hk'⟩)
    · exact h.ack_log _ _ _ ha
    · exact Or.inl ((List.take_prefix_take_left hk').trans hl)
  · intro t i l he
    obtain ⟨S, hS, hv⟩ := h.elected_votes _ _ _ he
    refine ⟨S, hS, fun w hw => ⟨(hv w hw).1, ?_⟩⟩
    rintro t' k' hlt ho (ha | ⟨rfl, rfl, -⟩)
    · exact (hv w hw).2 t' k' hlt ho ha
    · have := hb.vote_le _ _ _ (hv w hw).1
      omega
  · rintro w t c l hv hs hw t' k' hlt ho (ha | ⟨rfl, rfl, -⟩)
    · exact h.vote_log _ _ _ _ hv hs hw t' k' hlt ho ha
    · have := hb.vote_le _ _ _ hv
      omega

theorem Acks.step (h : Acks term s) (hb : Ballots s) (hlogs : Logs term s)
    (hs : Step term s s') : Acks term s' := by
  have hmono := hs.leaderLog_mono hlogs
  cases hs with
  | raise i t ht =>
    have hle : ∀ v, s.now v ≤ (s.raise i t).now v := by
      intro v
      by_cases hv : v = i
      · subst hv; simpa [State.raise] using ht
      · simp [State.raise, hv]
    refine ⟨h.ack_down, fun v t' k ha => Int.le_trans (h.ack_le _ _ _ ha) (hle v), h.ack_length,
      ?_, h.elected_votes, h.vote_log⟩
    intro v t' k ha
    have := hle v
    exact (h.ack_log _ _ _ ha).mono (by omega) (h.ack_length _ _ _ ha) (List.prefix_refl _)
      fun _ _ _ he => he
  | stand i t ht => exact h.stand hb ht
  | grant v c l hst _ hu => exact h.grant hb hlogs hst hu
  | win i S hS hv hst hn =>
    refine h.of_mono hmono (fun _ _ _ he => Or.inl he) rfl rfl rfl rfl
      (fun v t k ha hc => h.carries_mono hmono (fun _ _ _ he => Or.inl he) ha hc) ?_
    rintro t c l (he | ⟨rfl, rfl, rfl⟩) hne
    · exact absurd he hne
    · exact ⟨S, hS, fun v hvS => ⟨hv v hvS, h.vote_log _ _ _ _ (hv v hvS) hst hn⟩⟩
  | append i e l _ _ _ =>
    refine h.of_mono hmono (fun _ _ _ he => he) rfl rfl rfl rfl ?_
      (fun _ _ _ he hne => absurd he hne)
    intro v t k ha hc
    have hlog : s.log v <+: (s.append i e).log v := by
      by_cases hv : v = i
      · subst hv; simp [State.append]
      · simp [State.append, hv]
    rcases h.carries_mono hmono (fun _ _ _ he => he) ha hc with hc | hc
    · exact Or.inl (hc.trans hlog)
    · exact Or.inr hc
  | replace v l hw hl hn => exact h.replace hlogs hw hl hn
  | acknowledge v k hk hl => exact h.acknowledge hb hk hl

theorem Sound.step (h : Sound term s) (hs : Step term s s') : Sound term s' :=
  ⟨h.ballots.step term hs, h.logs.step hs, h.acks.step h.ballots h.logs hs⟩

theorem Sound.steps (h : Sound term s) (hs : Relation.ReflTransGen (Step term) s s') :
    Sound term s' := by
  induction hs with
  | refl => exact h
  | tail _ hst ih => exact ih.step hst

/-! ## Leader completeness -/

/-- Two winners of one term share a voter. -/
theorem Sound.elected_unique (h : Sound term s) {t : Int} {i j : ι} {l l' : List ε}
    (hi : s.elected t i l) (hj : s.elected t j l') : i = j ∧ l = l' := by
  obtain ⟨S, hS, hvS⟩ := h.acks.elected_votes _ _ _ hi
  obtain ⟨S', hS', hvS'⟩ := h.acks.elected_votes _ _ _ hj
  obtain ⟨v, hv, hv'⟩ := hS.inter hS'
  obtain rfl := h.ballots.vote_unique _ _ _ _ (hvS v hv).1 (hvS' v hv').1
  exact ⟨rfl, h.ballots.stood_unique _ _ _ _ (h.logs.elected_stood _ _ _ hi)
    (h.logs.elected_stood _ _ _ hj)⟩

end

/-- A majority has acknowledged the leader's log up to an entry of its own term. -/
def Committed [Fintype ι] (s : State ι ε) (t : Int) (k : Nat) : Prop :=
  Own term s t k ∧ ∃ S : Finset ι, Majority S ∧ ∀ v ∈ S, s.ack v t k

/-- `l` is committed by a leader of the term `t` or an earlier one. -/
def Com [Fintype ι] (s : State ι ε) (t : Int) (l : List ε) : Prop :=
  l = [] ∨ ∃ t' k, t' ≤ t ∧ Committed term s t' k ∧ l <+: (s.leaderLog t').take k

section

variable [Fintype ι] [DecidableEq ι] {term} {s s' : State ι ε}

theorem leader_completeness (h : Sound term s) {t : Int} {k : Nat} (hc : Committed term s t k)
    {t' : Int} {i : ι} {l : List ε} (he : s.elected t' i l) (hlt : t < t') :
    (s.leaderLog t).take k <+: l := by
  -- strong induction on the distance to the later term
  obtain ⟨d, hd⟩ : ∃ d : Nat, t' = t + d := ⟨(t' - t).toNat, by omega⟩
  induction d using Nat.strongRecOn generalizing t' i l with
  | ind d ih =>
    obtain ⟨ho, S, hS, hack⟩ := hc
    obtain ⟨Q, hQ, hvote⟩ := h.acks.elected_votes _ _ _ he
    obtain ⟨v, hvS, hvQ⟩ := hS.inter hQ
    rcases (hvote v hvQ).2 t k hlt ho (hack v hvS) with hk | ⟨t₁, j, m, h1, h2, h3, h4⟩
    · exact hk
    · exact absurd (ih (t₁ - t).toNat (by omega) h3 h1 (by omega)) h4

/-- A leader of a later term was elected with what is committed. -/
theorem Com.elected_le {t t' : Int} {i : ι} {l m : List ε} (hc : Com term s t l)
    (h : Sound term s) (he : s.elected t' i m) (hlt : t < t') : l <+: m := by
  rcases hc with rfl | ⟨t₁, k, ht, hcom, hp⟩
  · exact List.nil_prefix
  · exact hp.trans (leader_completeness h hcom he (by omega))

theorem Com.leaderLog {t t' : Int} {l : List ε} (hc : Com term s t l) (h : Sound term s)
    (hw : s.Won t') (hle : t ≤ t') : l <+: s.leaderLog t' := by
  rcases hc with rfl | ⟨t₁, k, ht, hcom, hp⟩
  · exact List.nil_prefix
  · by_cases heq : t₁ = t'
    · subst heq
      exact hp.trans (List.take_prefix _ _)
    · obtain ⟨i, m, hi⟩ := hw
      have hl : l <+: m := Com.elected_le (Or.inr ⟨t₁, k, Int.le_refl _, hcom, hp⟩) h hi (by omega)
      exact hl.trans (h.logs.elected_le _ _ _ hi)

omit [DecidableEq ι] in
theorem Committed.won {t : Int} {k : Nat} (hc : Committed term s t k) (h : Sound term s) : s.Won t := by
  obtain ⟨⟨-, e, he, -⟩, -⟩ := hc
  exact h.logs.won_of_ne_nil fun hnil => by simp [hnil] at he

/-- Of two committed prefixes one goes on from the other. -/
theorem com_comparable (h : Sound term s) {t t' : Int} {l l' : List ε} (hc : Com term s t l)
    (hc' : Com term s t' l') : l <+: l' ∨ l' <+: l := by
  rcases hc with rfl | ⟨t₁, k₁, -, hcom₁, hp₁⟩
  · exact Or.inl List.nil_prefix
  rcases hc' with rfl | ⟨t₂, k₂, -, hcom₂, hp₂⟩
  · exact Or.inr List.nil_prefix
  have hC₁ : Com term s t₁ l := Or.inr ⟨t₁, k₁, Int.le_refl _, hcom₁, hp₁⟩
  have hC₂ : Com term s t₂ l' := Or.inr ⟨t₂, k₂, Int.le_refl _, hcom₂, hp₂⟩
  rcases Int.le_total t₁ t₂ with hle | hle
  · have hw := hcom₂.won h
    exact List.prefix_or_prefix_of_prefix (hC₁.leaderLog h hw hle)
      (hC₂.leaderLog h hw (Int.le_refl _))
  · have hw := hcom₁.won h
    exact List.prefix_or_prefix_of_prefix (hC₁.leaderLog h hw (Int.le_refl _))
      (hC₂.leaderLog h hw hle)

omit [DecidableEq ι] in
theorem Com.shorten {t t' : Int} {l l' : List ε} (hc : Com term s t l) (hle : t ≤ t')
    (hp : l' <+: l) : Com term s t' l' := by
  rcases hc with rfl | ⟨t₁, k, ht, hcom, hp'⟩
  · exact Or.inl (List.prefix_nil.mp hp)
  · exact Or.inr ⟨t₁, k, by omega, hcom, hp.trans hp'⟩

/-! ## What is recorded stays recorded -/

/-- All that `s` has recorded, `s'` has too. -/
structure Extends (s s' : State ι ε) : Prop where
  elected : ∀ t i l, s.elected t i l → s'.elected t i l
  stood : ∀ c t l, s.stood c t l → s'.stood c t l
  leaderLog : ∀ t, s.leaderLog t <+: s'.leaderLog t
  ack : ∀ v t k, s.ack v t k → s'.ack v t k

omit [Fintype ι] [DecidableEq ι] in
theorem Extends.refl (s : State ι ε) : Extends s s :=
  ⟨fun _ _ _ h => h, fun _ _ _ h => h, fun _ => List.prefix_refl _, fun _ _ _ h => h⟩

omit [Fintype ι] [DecidableEq ι] in
theorem Extends.trans {a b c : State ι ε} (h : Extends a b) (h' : Extends b c) : Extends a c :=
  ⟨fun _ _ _ he => h'.elected _ _ _ (h.elected _ _ _ he),
    fun _ _ _ he => h'.stood _ _ _ (h.stood _ _ _ he),
    fun t => (h.leaderLog t).trans (h'.leaderLog t), fun _ _ _ he => h'.ack _ _ _ (h.ack _ _ _ he)⟩

theorem Step.extends (hs : Step term s s') (h : Logs term s) : Extends s s' := by
  refine ⟨?_, ?_, hs.leaderLog_mono h, ?_⟩
  · intro t i l he
    cases hs with
    | win => exact Or.inl he
    | _ => exact he
  · intro c t l he
    cases hs with
    | stand => exact Or.inl he
    | _ => exact he
  · intro v t k ha
    cases hs with
    | acknowledge => exact Or.inl ha
    | _ => exact ha

theorem extends_of_steps (h : Sound term s) (hs : Relation.ReflTransGen (Step term) s s') :
    Extends s s' := by
  induction hs with
  | refl => exact Extends.refl s
  | tail hss hst ih => exact ih.trans (hst.extends (h.steps hss).logs)

omit [DecidableEq ι] in
theorem Committed.mono {t : Int} {k : Nat} (hc : Committed term s t k) (hx : Extends s s') :
    Committed term s' t k ∧ (s'.leaderLog t).take k = (s.leaderLog t).take k := by
  obtain ⟨⟨hpos, e, he, ht⟩, S, hS, hack⟩ := hc
  have hlt := (List.getElem?_eq_some_iff.mp he).1
  refine ⟨⟨⟨hpos, e, ?_, ht⟩, S, hS, fun v hv => hx.ack _ _ _ (hack v hv)⟩,
    take_leaderLog (hx.leaderLog t) (by omega)⟩
  obtain ⟨r, hr⟩ := hx.leaderLog t
  rw [← hr, List.getElem?_append_left hlt, he]

omit [DecidableEq ι] in
theorem Com.mono {t : Int} {l : List ε} (hc : Com term s t l) (hx : Extends s s') :
    Com term s' t l := by
  rcases hc with rfl | ⟨t₁, k, ht, hcom, hp⟩
  · exact Or.inl rfl
  · obtain ⟨hcom', htake⟩ := hcom.mono hx
    exact Or.inr ⟨t₁, k, ht, hcom', htake ▸ hp⟩

end

end LeaderLog
