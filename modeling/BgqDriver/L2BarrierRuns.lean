import BgqDriver.L2Barrier
import Mathlib.Algebra.BigOperators.Fin
import Mathlib.Algebra.Order.BigOperators.Group.Finset
import Mathlib.Data.Nat.Count

/-!
The rounds of the barrier. While some thread has not yet arrived in round `K`, both
counters are below the end of that round, all threads are in two neighbouring
rounds, and `start` is the number of arrivals in the finished ones.
-/

namespace BgqDriver.L2Barrier

open Nat hiding count
open EventRuns Option BitVec Function State Finset

variable {n : Nat}

/-- Has the thread incremented `count` in its present call? -/
def Phase.arrived : Phase → Nat
  | .idle | .entered _ | .loaded _ _ => 0
  | .early _ | .counted _ _ _ | .waiting _ _ _ | .done _ _ _ => 1

def State.arrivals (s : State n) (t : Fin n) : Nat := s.returns t + (s.phase t).arrived

/-- The values that a call of a thread which has returned `r` times has read; `fetched`
is what it got from `count`. -/
def Local (n fetched r : Nat) : Phase → Prop
  | .idle | .entered _ => True
  | .loaded _ start => start.toNat = r * n
  | .early count => count.toNat = fetched
  | .counted withTicket start count | .waiting withTicket start count
  | .done withTicket start count =>
    count.toNat = fetched ∧ (withTicket = true → start.toNat = r * n)

/-- Where a thread can be when `R` rounds are finished: it has returned from all of
them, or it is still leaving the last one. The thread that arrives last in a round
finishes it. -/
def InRound (n R fetched r : Nat) : Phase → Prop
  | .idle | .entered _ | .loaded _ _ => r = R
  | .early _ => r = R ∨ (r + 1 = R ∧ fetched + 1 ≠ R * n)
  | .counted _ start _ => (r = R ∧ start.toNat = R * n) ∨
      (r + 1 = R ∧ fetched + 1 ≠ R * n ∧ (start.toNat = r * n ∨ start.toNat = R * n))
  | .waiting _ _ _ => (r = R ∧ fetched + 1 ≠ (R + 1) * n) ∨ r + 1 = R
  | .done _ _ _ => r + 1 = R

/-- The state when `R` rounds are finished. -/
structure Aligned (R : Nat) (fetched : Fin n → Nat → Nat) (s : State n) : Prop where
  start : s.start.toNat = R * n
  count : s.count.toNat = ∑ t, s.arrivals t
  phase : ∀ t, InRound n R (fetched t (s.returns t)) (s.returns t) (s.phase t)
  below : ∀ t, s.arrivals t = R + 1 → fetched t R < ∑ t, s.arrivals t

/-- What is known of the first `K` rounds. -/
structure History (K : Nat) (fetched : Fin n → Nat → Nat) (s : State n) : Prop where
  values : ∀ t, s.returns t < K →
    Local n (fetched t (s.returns t)) (s.returns t) (s.phase t)
  range : ∀ t, ∀ k < K, k < s.arrivals t → k * n ≤ fetched t k ∧ fetched t k < (k + 1) * n
  inj : ∀ t t', ∀ k < K, k < s.arrivals t → k < s.arrivals t' →
    fetched t k = fetched t' k → t = t'
  ticket : ∀ t, ∀ k < K, ∀ v, s.tickets t (k + 1) = some v →
    k < s.returns t ∧ v = BitVec.ofNat 32 (fetched t k - k * n)

/-- All threads have arrived in the first `K` rounds, or the rounds are aligned. -/
def Inv (K : Nat) (s : State n) : Prop :=
  ∃ fetched, History K fetched s ∧
    ((∀ t, K ≤ s.arrivals t) ∨ ∃ R < K, Aligned R fetched s)

theorem sum_const_mul (c : Nat) : ∑ _t : Fin n, c = c * n := by
  rw [sum_const, Finset.card_univ, Fintype.card_fin, smul_eq_mul, Nat.mul_comm]

variable {c r : Nat} {f : Fin n → Nat}

theorem sum_le_mul (h : ∀ t, f t ≤ c) : ∑ t, f t ≤ c * n := by
  rw [← sum_const_mul c]
  exact sum_le_sum fun t _ => h t

theorem sum_lt_mul (h : ∀ t, f t ≤ c) (t : Fin n) (ht : f t < c) : ∑ t, f t < c * n := by
  rw [← sum_const_mul c]
  exact sum_lt_sum (fun t _ => h t) ⟨t, mem_univ t, ht⟩

section Rounds

variable {K R : Nat} {fetched : Fin n → Nat → Nat} {s : State n} {t : Fin n} {p : Phase}

theorem InRound.bounds {f : Nat} (h : InRound n R f r p) :
    r ≤ R ∧ R ≤ r + p.arrived ∧ r + p.arrived ≤ R + 1 := by
  cases p <;> simp only [InRound, Phase.arrived] at h ⊢ <;> omega

theorem Aligned.bounds (h : Aligned R fetched s) (t : Fin n) :
    s.returns t ≤ R ∧ R ≤ s.arrivals t ∧ s.arrivals t ≤ R + 1 :=
  (h.phase t).bounds

theorem Aligned.returns_eq (h : Aligned R fetched s)
    (hbefore : (s.phase t).arrived = 0) : s.returns t = R := by
  have := h.bounds t
  rw [arrivals, hbefore] at this
  omega

theorem Aligned.count_bounds (h : Aligned R fetched s) :
    R * n ≤ ∑ t, s.arrivals t ∧ ∑ t, s.arrivals t ≤ (R + 1) * n ∧
      ∀ t, s.arrivals t = R → ∑ t, s.arrivals t < (R + 1) * n := by
  refine ⟨?_, sum_le_mul fun t => (h.bounds t).2.2, fun t ht => ?_⟩
  · rw [← sum_const_mul R]
    exact sum_le_sum fun t _ => (h.bounds t).2.1
  · exact sum_lt_mul (fun t => (h.bounds t).2.2) t (by omega)

theorem arrivals_move (hp : p.arrived = (s.phase t).arrived) :
    (s.move t p).arrivals = s.arrivals := by
  funext u
  by_cases hu : u = t
  · subst hu
    simp [arrivals, move, hp]
  · simp [arrivals, move, hu]

theorem forall_move {P : Fin n → Phase → Prop} (hothers : ∀ u, u ≠ t → P u (s.phase u))
    (hself : P t p) (u : Fin n) : P u ((s.move t p).phase u) := by
  by_cases hu : u = t
  · subst hu
    simpa [move] using hself
  · simpa [move, hu] using hothers u hu

theorem History.move (h : History K fetched s) (hp : p.arrived = (s.phase t).arrived)
    (hlocal : s.returns t < K → Local n (fetched t (s.returns t)) (s.returns t) p) :
    History K fetched (s.move t p) where
  values := forall_move (P := fun u q => s.returns u < K →
    Local n (fetched u (s.returns u)) (s.returns u) q) (fun u _ => h.values u) hlocal
  range := by rw [arrivals_move hp]; exact h.range
  inj := by rw [arrivals_move hp]; exact h.inj
  ticket := h.ticket

theorem Aligned.move (h : Aligned R fetched s) (hp : p.arrived = (s.phase t).arrived)
    (hround : InRound n R (fetched t (s.returns t)) (s.returns t) p) :
    Aligned R fetched (s.move t p) where
  start := h.start
  count := by rw [arrivals_move hp]; exact h.count
  phase := forall_move (P := fun u q => InRound n R (fetched u (s.returns u)) (s.returns u) q)
    (fun u _ => h.phase u) hround
  below := by rw [arrivals_move hp]; exact h.below

theorem Inv.move {q : Phase} (h : Inv K s) (hphase : s.phase t = q) (hp : p.arrived = q.arrived)
    (hlocal : ∀ {f}, (q.arrived = 0 → s.start.toNat = s.returns t * n) →
      Local n f (s.returns t) q → Local n f (s.returns t) p)
    (hround : ∀ {fetched R}, History K fetched s → R < K → Aligned R fetched s →
      InRound n R (fetched t (s.returns t)) (s.returns t) q →
      InRound n R (fetched t (s.returns t)) (s.returns t) p) : Inv K (s.move t p) := by
  subst hphase
  obtain ⟨fetched, hhist, hall | ⟨R, hR, haligned⟩⟩ := h
  · refine ⟨fetched, hhist.move hp fun hr => hlocal (fun hzero => ?_) (hhist.values t hr),
      .inl (by rw [arrivals_move hp]; exact hall)⟩
    have := hall t
    rw [arrivals, hzero] at this
    omega
  · refine ⟨fetched, hhist.move hp fun hr => hlocal (fun hzero => ?_) (hhist.values t hr),
      .inr ⟨R, hR, haligned.move hp (hround hhist hR haligned (haligned.phase t))⟩⟩
    rw [haligned.start, haligned.returns_eq hzero]

def State.arrive (s : State n) (t : Fin n) (p : Phase) : State n :=
  { s.move t p with count := s.count + 1 }

def fetch (fetched : Fin n → Nat → Nat) (s : State n) (t : Fin n) : Fin n → Nat → Nat :=
  update fetched t (update (fetched t) (s.returns t) s.count.toNat)

theorem fetch_self : fetch fetched s t t (s.returns t) = s.count.toNat := by
  simp [fetch]

theorem fetch_of_ne {u : Fin n} {k : Nat} (h : u ≠ t ∨ k ≠ s.returns t) :
    fetch fetched s t u k = fetched u k := by
  by_cases hu : u = t
  · subst hu
    simp [fetch, h.resolve_left (fun h => h rfl)]
  · simp [fetch, hu]

section

variable (hbefore : (s.phase t).arrived = 0) (hafter : p.arrived = 1)
include hbefore hafter

theorem arrivals_arrive : (s.arrive t p).arrivals = update s.arrivals t (s.returns t + 1) := by
  funext u
  by_cases hu : u = t
  · subst hu
    simp [arrivals, arrive, move, hafter]
  · simp [arrivals, arrive, move, hu]

theorem sum_arrivals_arrive : ∑ u, (s.arrive t p).arrivals u = ∑ u, s.arrivals u + 1 := by
  have hself : s.arrivals t = s.returns t := by rw [arrivals, hbefore, Nat.add_zero]
  rw [arrivals_arrive hbefore hafter, sum_update_of_mem (mem_univ t),
    ← add_sum_erase _ _ (mem_univ t), hself, sdiff_singleton_eq_erase]
  omega

theorem History.arrive_late (h : History K fetched s) (hlate : K ≤ s.returns t) :
    History K fetched (s.arrive t p) := by
  have harrivals : ∀ u, ∀ k < K, k < (s.arrive t p).arrivals u → k < s.arrivals u := by
    intro u k hk hu
    rw [arrivals_arrive hbefore hafter] at hu
    by_cases hut : u = t
    · subst hut
      rw [arrivals]
      omega
    · rwa [update_of_ne hut] at hu
  refine ⟨?_, fun u k hk hu => h.range u k hk (harrivals u k hk hu),
    fun u u' k hk hu hu' => h.inj u u' k hk (harrivals u k hk hu) (harrivals u' k hk hu'), h.ticket⟩
  exact forall_move (P := fun u q => s.returns u < K →
    Local n (fetched u (s.returns u)) (s.returns u) q) (fun u _ => h.values u)
    fun hr => absurd hr (Nat.not_lt.mpr hlate)

theorem History.arrive (h : History K fetched s) (haligned : Aligned R fetched s)
    (hlocal : Local n s.count.toNat (s.returns t) p) :
    History K (fetch fetched s t) (s.arrive t p) := by
  have hself : s.arrivals t = s.returns t := by rw [arrivals, hbefore, Nat.add_zero]
  have hround := haligned.returns_eq hbefore
  obtain ⟨hlow, -, hhigh⟩ := haligned.count_bounds
  have hcount := haligned.count
  have hin : R * n ≤ s.count.toNat ∧ s.count.toNat < (R + 1) * n :=
    ⟨by omega, by rw [hcount]; exact hhigh t (by omega)⟩
  have hold : ∀ {u k}, k < (s.arrive t p).arrivals u → u ≠ t ∨ k ≠ s.returns t →
      k < s.arrivals u := by
    intro u k hu hne
    rw [arrivals_arrive hbefore hafter] at hu
    by_cases hut : u = t
    · subst hut
      rw [update_self] at hu
      have := hne.resolve_left fun h => h rfl
      omega
    · rwa [update_of_ne hut] at hu
  -- no thread has fetched the present value of `count`
  have hnew : ∀ {u k}, k < (s.arrive t p).arrivals u → u ≠ t → k = s.returns t →
      fetched u k ≠ s.count.toNat := by
    intro u k hu hut hk
    have harrived := hold hu (.inl hut)
    have hbound := haligned.bounds u
    have hlt := haligned.below u (by omega)
    rw [hk, hround, hcount]
    omega
  refine ⟨?_, fun u k hk hu => ?_, fun u u' k hk hu hu' heq => ?_, fun u k hk v hv => ?_⟩
  · refine forall_move (P := fun u q => s.returns u < K →
      Local n (fetch fetched s t u (s.returns u)) (s.returns u) q) (fun u hut => ?_) fun _ => ?_
    · rw [fetch_of_ne (.inl hut)]
      exact h.values u
    · rw [fetch_self]
      exact hlocal
  · by_cases hcase : u = t ∧ k = s.returns t
    · obtain ⟨rfl, rfl⟩ := hcase
      rw [fetch_self, hround]
      exact hin
    · have hne : u ≠ t ∨ k ≠ s.returns t := not_and_or.mp hcase
      rw [fetch_of_ne hne]
      exact h.range u k hk (hold hu hne)
  · by_cases hk' : k = s.returns t
    · by_cases hut : u = t <;> by_cases hut' : u' = t
      · rw [hut, hut']
      · rw [hut, hk', fetch_self, fetch_of_ne (.inl hut')] at heq
        exact absurd heq.symm (hk' ▸ hnew hu' hut' hk')
      · rw [hut', hk', fetch_self, fetch_of_ne (.inl hut)] at heq
        exact absurd heq (hk' ▸ hnew hu hut hk')
      · rw [fetch_of_ne (.inl hut), fetch_of_ne (.inl hut')] at heq
        exact h.inj u u' k hk (hold hu (.inl hut)) (hold hu' (.inl hut')) heq
    · rw [fetch_of_ne (.inr hk'), fetch_of_ne (.inr hk')] at heq
      exact h.inj u u' k hk (hold hu (.inr hk')) (hold hu' (.inr hk')) heq
  · obtain ⟨hlt, rfl⟩ := h.ticket u k hk v hv
    have hne : u ≠ t ∨ k ≠ s.returns t := by
      by_cases hut : u = t
      · subst hut
        exact .inr (Nat.ne_of_lt hlt)
      · exact .inl hut
    exact ⟨hlt, by rw [fetch_of_ne hne]⟩

theorem Aligned.arrive (haligned : Aligned R fetched s) (hround : InRound n R s.count.toNat R p)
    (hfits : ∑ u, s.arrivals u + 1 < 2 ^ 64) : Aligned R (fetch fetched s t) (s.arrive t p) := by
  have hself := haligned.returns_eq hbefore
  have hsum := sum_arrivals_arrive (s := s) (t := t) hbefore hafter
  refine ⟨haligned.start, ?_, ?_, fun u hu => ?_⟩
  · have hcount : (s.arrive t p).count = s.count + 1 := rfl
    rw [hsum, hcount, toNat_add, haligned.count]
    exact mod_eq_of_lt hfits
  · refine forall_move (P := fun u q =>
      InRound n R (fetch fetched s t u (s.returns u)) (s.returns u) q) (fun u hut => ?_) ?_
    · rw [fetch_of_ne (.inl hut)]
      exact haligned.phase u
    · rw [fetch_self, hself]
      exact hround
  · rw [hsum]
    by_cases hut : u = t
    · subst hut
      rw [← hself, fetch_self, haligned.count]
      exact lt_succ_self _
    · rw [arrivals_arrive hbefore hafter, update_of_ne hut] at hu
      rw [fetch_of_ne (.inl hut)]
      exact lt_succ_of_lt (haligned.below u hu)

/-- An increment keeps the invariant. The last increment of round `K` may wrap the
counter; it completes the first `K` rounds. -/
theorem Inv.arrive (hK : K * n ≤ 2 ^ 64) (h : Inv K s)
    (hlocal : (∀ f, Local n f (s.returns t) (s.phase t)) →
      Local n s.count.toNat (s.returns t) p)
    (hround : ∀ {R}, s.returns t = R → (∀ f, Local n f (s.returns t) (s.phase t)) →
      InRound n R s.count.toNat R p) : Inv K (s.arrive t p) := by
  -- before the increment the values do not depend on what it fetches
  have hany : ∀ {f}, Local n f (s.returns t) (s.phase t) →
      ∀ f, Local n f (s.returns t) (s.phase t) := by
    intro f hf f'
    cases hphase : s.phase t <;> rw [hphase] at hbefore hf <;>
      first | exact hf | exact absurd hbefore Nat.one_ne_zero
  obtain ⟨fetched, hhist, hall | ⟨R, hR, haligned⟩⟩ := h
  · have hlate : K ≤ s.returns t := by
      have := hall t
      rwa [arrivals, hbefore] at this
    refine ⟨fetched, hhist.arrive_late hbefore hafter hlate, .inl fun u => ?_⟩
    rw [arrivals_arrive hbefore hafter]
    by_cases hut : u = t
    · subst hut
      rw [update_self]
      omega
    · rw [update_of_ne hut]
      exact hall u
  · have hself := haligned.returns_eq hbefore
    have hvalues := hany (hhist.values t (by omega))
    refine ⟨fetch fetched s t, hhist.arrive hbefore hafter haligned (hlocal hvalues), ?_⟩
    by_cases hlast : ∀ u, K ≤ (s.arrive t p).arrivals u
    · exact .inl hlast
    · refine .inr ⟨R, hR, haligned.arrive hbefore hafter (hround hself hvalues) ?_⟩
      obtain ⟨u, hu⟩ := not_forall.mp hlast
      have hpos : 0 < n := zero_lt_of_lt t.isLt
      rw [← sum_arrivals_arrive hbefore hafter]
      have hle : ∀ u, (s.arrive t p).arrivals u ≤ R + 1 := fun u => by
        rw [arrivals_arrive hbefore hafter]
        by_cases hut : u = t
        · rw [hut, update_self, hself]
        · rw [update_of_ne hut]
          exact (haligned.bounds u).2.2
      rcases Nat.lt_or_ge (R + 1) K with hmore | hfinal
      · calc ∑ u, (s.arrive t p).arrivals u ≤ (R + 1) * n := sum_le_mul hle
          _ < K * n := Nat.mul_lt_mul_of_pos_right hmore hpos
          _ ≤ 2 ^ 64 := hK
      · calc ∑ u, (s.arrive t p).arrivals u < (R + 1) * n := sum_lt_mul hle u (by omega)
          _ ≤ K * n := Nat.mul_le_mul_right n hR
          _ ≤ 2 ^ 64 := hK

end

variable {withTicket : Bool} {start count : BitVec 64}

theorem current_eq_target_iff (hstart : start.toNat = R * n)
    (hcount : R * n ≤ count.toNat ∧ count.toNat < (R + 1) * n) (hR : (R + 1) * n ≤ 2 ^ 64) :
    count + 1 = start + BitVec.ofNat 64 n ↔ count.toNat + 1 = (R + 1) * n := by
  have hsucc : (R + 1) * n = R * n + n := Nat.succ_mul R n
  rw [← toNat_inj, toNat_add, toNat_add, toNat_ofNat, hstart]
  have hone : (1 : BitVec 64).toNat = 1 := rfl
  omega

theorem current_ne_target (hpos : 0 < n) (hcount : count.toNat + 1 < (R + 1) * n)
    (hstart : start.toNat = R * n ∨ start.toNat = (R + 1) * n) (hR : (R + 2) * n ≤ 2 ^ 64) :
    count + 1 ≠ start + BitVec.ofNat 64 n := by
  have hsucc : (R + 1) * n = R * n + n := Nat.succ_mul R n
  have hsucc' : (R + 2) * n = R * n + n + n := by rw [Nat.succ_mul, hsucc]
  rw [ne_eq, ← toNat_inj, toNat_add, toNat_add, toNat_ofNat]
  have hone : (1 : BitVec 64).toNat = 1 := rfl
  omega

theorem Aligned.all_arrived (haligned : Aligned R fetched s) (harrived : s.arrivals t = R + 1)
    (hlast : fetched t R + 1 = (R + 1) * n) (u : Fin n) : s.arrivals u = R + 1 := by
  have hbelow := haligned.below t harrived
  have hbound := haligned.bounds u
  by_contra hmissing
  have hlt := haligned.count_bounds.2.2 u (by omega)
  omega

theorem History.setStart (h : History K fetched s) (start : BitVec 64) :
    History K fetched { s with start := start } :=
  ⟨h.values, h.range, h.inj, h.ticket⟩

theorem Aligned.finish (hhist : History K fetched s) (hR : R + 1 < K) (hK : K * n ≤ 2 ^ 64)
    (haligned : Aligned R fetched s) (hphase : s.phase t = .counted withTicket start count)
    (hreturns : s.returns t = R) (hlast : count.toNat + 1 = (R + 1) * n) : Aligned (R + 1) fetched
      { s.move t (.done withTicket start count) with start := count + 1 } := by
  have hfetched : count.toNat = fetched t R := by
    have hvalues := hhist.values t (by omega)
    rw [hphase, hreturns] at hvalues
    exact hvalues.1
  have harrived : s.arrivals t = R + 1 := by rw [arrivals, hphase, hreturns]; rfl
  have hall := haligned.all_arrived harrived (by omega)
  have hmove : (s.move t (.done withTicket start count)).arrivals = s.arrivals :=
    arrivals_move (by rw [hphase]; rfl)
  have hwrap : (R + 1) * n < 2 ^ 64 := by
    calc (R + 1) * n < K * n :=
          Nat.mul_lt_mul_of_pos_right hR (zero_lt_of_lt t.isLt)
      _ ≤ 2 ^ 64 := hK
  refine ⟨?_, ?_, ?_, fun u hu => ?_⟩
  · have hone : (1 : BitVec 64).toNat = 1 := rfl
    rw [toNat_add, hone, hlast, mod_eq_of_lt hwrap]
  · change s.count.toNat = ∑ u, (s.move t _).arrivals u
    rw [hmove, haligned.count]
  · refine forall_move (P := fun u q =>
      InRound n (R + 1) (fetched u (s.returns u)) (s.returns u) q) (fun u hut => ?_) (by
        rw [hreturns]; rfl)
    have hround := haligned.phase u
    have hu := hall u
    -- only one thread has fetched the last value of the round
    have hother : s.returns u = R → fetched u (s.returns u) + 1 ≠ (R + 1) * n := by
      intro hr heq
      rw [hr] at heq
      exact hut (hhist.inj u t R (by omega) (by omega) (by omega) (by omega))
    rw [arrivals] at hu
    cases hp : s.phase u <;> rw [hp] at hround hu <;>
      simp only [InRound, Phase.arrived] at hround hu ⊢ <;> try omega
    rcases hround with ⟨hr, hstart⟩ | hround
    · exact .inr ⟨by omega, hother hr, .inl (by rw [hstart, hr])⟩
    · omega
  · have hu : (s.move t (.done withTicket start count)).arrivals u = R + 1 + 1 := hu
    rw [hmove, hall u] at hu
    omega

theorem Aligned.compared (hK : K * n ≤ 2 ^ 64) (hhist : History K fetched s) (hR : R < K)
    (haligned : Aligned R fetched s) (hphase : s.phase t = .counted withTicket start count) :
    (s.returns t = R ∧ count.toNat = fetched t R ∧
        (count + 1 = start + BitVec.ofNat 64 n ↔ count.toNat + 1 = (R + 1) * n)) ∨
      (s.returns t + 1 = R ∧ count + 1 ≠ start + BitVec.ofNat 64 n) := by
  have hend : (R + 1) * n ≤ 2 ^ 64 := le_trans (Nat.mul_le_mul_right n hR) hK
  have harrivals : s.arrivals t = s.returns t + 1 := by rw [arrivals, hphase]; rfl
  have hbound := haligned.bounds t
  have hvalues := hhist.values t (by omega)
  have hround := haligned.phase t
  rw [hphase] at hvalues hround
  have hrange := hhist.range t (s.returns t) (by omega) (by omega)
  rw [← hvalues.1] at hrange
  rcases hround with ⟨hr, hstart⟩ | ⟨hr, hleft, hstart⟩
  · rw [hr] at hvalues hrange
    exact .inl ⟨hr, hvalues.1, current_eq_target_iff hstart hrange hend⟩
  · subst hr
    have hlt : count.toNat + 1 < (s.returns t + 1) * n := by
      rw [hvalues.1] at hrange ⊢
      omega
    exact .inr ⟨rfl, current_ne_target (zero_lt_of_lt t.isLt) hlt hstart hend⟩

theorem Inv.compare (hK : K * n ≤ 2 ^ 64) (h : Inv K s)
    (hphase : s.phase t = .counted withTicket start count) :
    Inv K (if count + 1 = start + BitVec.ofNat 64 n then
        { s.move t (.done withTicket start count) with start := count + 1 }
      else s.move t (.waiting withTicket start count)) := by
  split
  next hequal =>
    have hp : (Phase.done withTicket start count).arrived = (s.phase t).arrived := by
      rw [hphase]
      rfl
    obtain ⟨fetched, hhist, hcase⟩ := h
    refine ⟨fetched, (hhist.move hp fun hr => ?_).setStart _, ?_⟩
    · have hlocal := hhist.values t hr
      rwa [hphase] at hlocal
    change (∀ u, K ≤ (s.move t _).arrivals u) ∨ _
    rw [arrivals_move hp]
    rcases hcase with hall | ⟨R, hR, haligned⟩
    · exact .inl hall
    rcases haligned.compared hK hhist hR hphase with ⟨hr, hfetched, hiff⟩ | ⟨-, hne⟩
    · have hlast := hiff.mp hequal
      rcases Nat.lt_or_ge (R + 1) K with hmore | hfinal
      · exact .inr ⟨R + 1, hmore, haligned.finish hhist hmore hK hphase hr hlast⟩
      · have harrived : s.arrivals t = R + 1 := by rw [arrivals, hphase, hr]; rfl
        refine .inl fun u => ?_
        rw [haligned.all_arrived harrived (by omega) u]
        exact hfinal
    · exact absurd hequal hne
  next hdiffers =>
    refine h.move hphase rfl (fun _ hlocal => hlocal) fun hhist hR haligned _ => ?_
    rcases haligned.compared hK hhist hR hphase with ⟨hr, hfetched, hiff⟩ | ⟨hr, -⟩
    · exact .inl ⟨hr, by rw [hr, ← hfetched]; exact mt hiff.mpr hdiffers⟩
    · exact .inr hr

theorem Inv.poll (hK : K * n ≤ 2 ^ 64) (h : Inv K s)
    (hphase : s.phase t = .waiting withTicket start count) (hexit : ¬ s.start < count + 1) :
    Inv K (s.move t (.done withTicket start count)) := by
  refine h.move hphase rfl (fun _ hlocal => hlocal) ?_
  rintro fetched R hhist hR haligned (⟨hr, hnot⟩ | hr)
  · -- a thread of the present round does not leave it
    have harrivals : s.arrivals t = R + 1 := by rw [arrivals, hphase, hr]; rfl
    have hend : (R + 1) * n ≤ 2 ^ 64 := le_trans (Nat.mul_le_mul_right n hR) hK
    have hvalues := hhist.values t (by omega)
    have hrange := hhist.range t R hR (by omega)
    rw [hphase, hr] at hvalues
    rw [hr] at hnot
    have hone : (1 : BitVec 64).toNat = 1 := rfl
    rw [lt_def, haligned.start, toNat_add, hvalues.1, hone,
      mod_eq_of_lt (by omega)] at hexit
    omega
  · exact hr

theorem Inv.call (h : Inv K s) (hphase : s.phase t = .idle) (withTicket : Bool) :
    Inv K (s.move t (.entered withTicket)) := by
  exact h.move hphase rfl (fun _ _ => trivial) fun _ _ _ hround => hround

theorem Inv.loadStart (h : Inv K s) (hphase : s.phase t = .entered withTicket) :
    Inv K (s.move t (.loaded withTicket s.start)) := by
  exact h.move hphase rfl (fun hstart _ => hstart rfl) fun _ _ _ hround => hround

theorem Inv.loadStart_early (h : Inv K s) (hphase : s.phase t = .early count) :
    Inv K (s.move t (.counted false s.start count)) := by
  refine h.move hphase rfl (fun _ hlocal => ⟨hlocal, nofun⟩) ?_
  rintro fetched R - - haligned (hr | ⟨hr, hleft⟩)
  · exact .inl ⟨hr, haligned.start⟩
  · exact .inr ⟨hr, hleft, .inr haligned.start⟩

def State.ret (s : State n) (t : Fin n) (ticket : Option (BitVec 32)) : State n :=
  { s.move t .idle with
    returns := update s.returns t (s.returns t + 1)
    tickets := update s.tickets t
      (update (s.tickets t) (s.returns t + 1) ticket) }

theorem Inv.ret (h : Inv K s)
    (hphase : s.phase t = .done withTicket start count) :
    Inv K (s.ret t (if withTicket then some ((count - start).setWidth 32) else none)) := by
  generalize hticket : (if withTicket then some ((count - start).setWidth 32) else none) = ticket
  have hself : (s.ret t ticket).returns t = s.returns t + 1 := update_self ..
  have hother : ∀ {u}, u ≠ t → (s.ret t ticket).returns u = s.returns u ∧
      (s.ret t ticket).phase u = s.phase u := fun hut =>
    ⟨update_of_ne hut .., update_of_ne hut ..⟩
  have hidle : (s.ret t ticket).phase t = .idle := update_self ..
  have harrivals : (s.ret t ticket).arrivals = s.arrivals := by
    funext u
    by_cases hut : u = t
    · rw [hut, arrivals, arrivals, hself, hidle, hphase]
      rfl
    · rw [arrivals, arrivals, (hother hut).1, (hother hut).2]
  obtain ⟨fetched, hhist, hcase⟩ := h
  refine ⟨fetched, ⟨fun u hu => ?_, ?_, ?_, fun u k hk v hv => ?_⟩, ?_⟩
  · by_cases hut : u = t
    · rw [hut, hidle]
      trivial
    · rw [(hother hut).1] at hu ⊢
      rw [(hother hut).2]
      exact hhist.values u hu
  · rw [harrivals]
    exact hhist.range
  · rw [harrivals]
    exact hhist.inj
  · by_cases hut : u = t
    · subst hut
      rw [hself]
      have htickets : (s.ret u ticket).tickets u =
          update (s.tickets u) (s.returns u + 1) ticket := update_self ..
      rw [htickets] at hv
      by_cases hlast : k = s.returns u
      · subst hlast
        rw [update_self, ← hticket] at hv
        refine ⟨lt_succ_self _, ?_⟩
        have hvalues := hhist.values u hk
        rw [hphase] at hvalues
        obtain ⟨hlow, hhigh⟩ := hhist.range u _ hk (by rw [arrivals, hphase]; exact lt_succ_self _)
        cases withTicket with
        | false => cases hv
        | true =>
          rw [← some_inj.mp hv]
          apply eq_of_toNat_eq
          have hle : start ≤ count := by
            rw [le_def, hvalues.1, hvalues.2 rfl]
            exact hlow
          rw [toNat_setWidth, toNat_sub_of_le hle, hvalues.1, hvalues.2 rfl, toNat_ofNat]
      · rw [update_of_ne (fun h => hlast (succ.inj h))] at hv
        obtain ⟨hlt, hvalue⟩ := hhist.ticket u k hk v hv
        exact ⟨lt_succ_of_lt hlt, hvalue⟩
    · have htickets : (s.ret t ticket).tickets u = s.tickets u := update_of_ne hut ..
      rw [htickets] at hv
      rw [(hother hut).1]
      exact hhist.ticket u k hk v hv
  · rw [harrivals]
    refine hcase.imp id ?_
    rintro ⟨R, hR, haligned⟩
    refine ⟨R, hR, haligned.start, by rw [harrivals]; exact haligned.count, fun u => ?_,
      by rw [harrivals]; exact haligned.below⟩
    have hround := haligned.phase u
    by_cases hut : u = t
    · subst hut
      rw [hphase] at hround
      rw [hidle, hself]
      exact hround
    · rwa [(hother hut).1, (hother hut).2]

theorem step_inv (hK : K * n ≤ 2 ^ 64) {s' : State n} {l : Label n} (h : Inv K s)
    (hstep : step s l = some s') : Inv K s' := by
  cases l with
  | call t withTicket =>
    cases hphase : s.phase t <;> simp only [step, hphase, reduceCtorEq, some.injEq] at hstep
    subst hstep
    exact h.call hphase withTicket
  | loadStart t =>
    cases hphase : s.phase t <;> simp only [step, hphase, reduceCtorEq, some.injEq] at hstep
    · subst hstep
      exact h.loadStart hphase
    · subst hstep
      exact h.loadStart_early hphase
  | loadIncrement t =>
    cases hphase : s.phase t with
    | entered withTicket =>
      cases withTicket <;> simp only [step, hphase, reduceCtorEq, some.injEq] at hstep
      subst hstep
      exact h.arrive (by rw [hphase]; rfl) rfl hK (fun _ => rfl) fun _ _ => .inl rfl
    | loaded withTicket start =>
      simp only [step, hphase, some.injEq] at hstep
      subst hstep
      refine h.arrive (by rw [hphase]; rfl) rfl hK (fun hvalues => ?_) fun hr hvalues => ?_
      · rw [hphase] at hvalues
        exact ⟨rfl, fun _ => hvalues 0⟩
      · rw [hphase, hr] at hvalues
        exact .inl ⟨rfl, hvalues 0⟩
    | _ => simp only [step, hphase, reduceCtorEq] at hstep
  | compare t =>
    cases hphase : s.phase t <;> simp only [step, hphase, reduceCtorEq] at hstep
    have hcompare := h.compare hK hphase
    split at hstep <;> rename_i heq <;> cases hstep
    · rwa [if_pos heq] at hcompare
    · rwa [if_neg heq] at hcompare
  | poll t =>
    cases hphase : s.phase t <;> simp only [step, hphase, reduceCtorEq] at hstep
    split at hstep <;> rename_i hless <;> cases hstep
    · exact h
    · exact h.poll hK hphase hless
  | ret t =>
    cases hphase : s.phase t <;> simp only [step, hphase, reduceCtorEq, some.injEq] at hstep
    subst hstep
    exact h.ret hphase

end Rounds

theorem init_inv (K : Nat) : Inv K (init n) := by
  refine ⟨fun _ _ => 0, ⟨fun _ _ => trivial, ?_, ?_, nofun⟩, ?_⟩
  · exact fun _ _ _ hk => absurd hk (Nat.not_lt_zero _)
  · exact fun _ _ _ _ hk => absurd hk (Nat.not_lt_zero _)
  · rcases Nat.eq_zero_or_pos K with rfl | hK
    · exact .inl fun _ => Nat.zero_le _
    · refine .inr ⟨0, hK, ?_, ?_, fun _ => rfl, fun t ht => ?_⟩
      · exact (Nat.zero_mul n).symm
      · exact (sum_eq_zero fun _ _ => rfl).symm
      · exact absurd ht (succ_ne_zero 0).symm

/-- In every run of `n` threads and for every `k` such that the counters can hold the
`k * n` calls of `k` rounds: a thread has returned from its `k`-th call only if all
threads have made theirs. The tickets of the `k`-th calls are different numbers below
`n`, so if all of these calls ask for a ticket they return a permutation of them. -/
theorem barrier_rounds (hn : n < 2 ^ 31) (labels : List (Label n)) (s : State n)
    (hrun : run step (init n) labels = some s) (k : Nat) (hk : k * n ≤ 2 ^ 64) :
    (∀ t, k ≤ s.returns t → ∀ t', k ≤ s.calls t') ∧
      (∀ t t' v, 0 < k → s.tickets t k = some v → v.toNat < n ∧
        (s.tickets t' k = some v → t = t')) ∧
      (0 < k → (∀ t, (s.tickets t k).isSome) →
        ∃ σ : Equiv.Perm (Fin n), ∀ t, s.tickets t k = some (BitVec.ofNat 32 (σ t))) := by
  have hinv : Inv k s := run_invariant (fun _ s => Inv k s) (init_inv k)
    (fun _ _ _ _ _ h hstep => step_inv hk h hstep) hrun
  obtain ⟨fetched, hhist, hcase⟩ := hinv
  have hticket : ∀ t t' v, 0 < k → s.tickets t k = some v → v.toNat < n ∧
      (s.tickets t' k = some v → t = t') := by
    intro t t' v hpos hv
    obtain ⟨k, rfl⟩ := exists_eq_succ_of_ne_zero (Nat.pos_iff_ne_zero.mp hpos)
    have hfetch : ∀ {t}, s.tickets t (k + 1) = some v →
        k < s.arrivals t ∧ k * n ≤ fetched t k ∧ v.toNat = fetched t k - k * n ∧
          fetched t k - k * n < n := by
      intro t hv
      obtain ⟨hlt, rfl⟩ := hhist.ticket t k (lt_succ_self k) v hv
      have harrivals : k < s.arrivals t := Nat.lt_of_lt_of_le hlt (Nat.le_add_right _ _)
      obtain ⟨hlow, hhigh⟩ := hhist.range t k (lt_succ_self k) harrivals
      rw [Nat.succ_mul] at hhigh
      refine ⟨harrivals, hlow, ?_, by omega⟩
      rw [toNat_ofNat, mod_eq_of_lt (by omega)]
    obtain ⟨harrivals, hlow, hvalue, hlt⟩ := hfetch hv
    refine ⟨by omega, fun hv' => ?_⟩
    obtain ⟨harrivals', hlow', hvalue', -⟩ := hfetch hv'
    exact hhist.inj t t' k (lt_succ_self k) harrivals harrivals' (by omega)
  refine ⟨fun t ht t' => ?_, hticket, fun hpos hall => ?_⟩
  · rcases hcase with hall | ⟨R, hR, haligned⟩
    · refine le_trans (hall t') ?_
      unfold State.arrivals State.calls
      cases s.phase t' <;> simp [Phase.arrived]
    · have hbound := (haligned.bounds t).1
      omega
  · have hget : ∀ t, s.tickets t k = some ((s.tickets t k).get (hall t)) := fun t =>
      (some_get _).symm
    let f : Fin n → Fin n := fun t =>
      ⟨((s.tickets t k).get (hall t)).toNat, (hticket t t _ hpos (hget t)).1⟩
    have hinj : Injective f := by
      intro t t' heq
      have hvalue : ((s.tickets t k).get (hall t)).toNat =
          ((s.tickets t' k).get (hall t')).toNat := congrArg (fun u : Fin n => u.val) heq
      have hsame := eq_of_toNat_eq hvalue
      exact (hticket t t' _ hpos (hget t)).2 (by rw [hget t', hsame])
    refine ⟨Equiv.ofBijective f (Finite.injective_iff_bijective.mp hinj), fun t => ?_⟩
    simp [f]

/-- Two calls with a ticket, the second of which ends the round. -/
theorem barrier_rounds_pair : ∃ σ : Equiv.Perm (Fin 2), ∀ t,
      ((run step (init 2)
        [.call 0 true, .loadStart 0, .call 1 true, .loadStart 1, .loadIncrement 1,
          .loadIncrement 0, .compare 0, .compare 1, .poll 1, .ret 1, .ret 0]).map
            fun s => s.tickets t 1) = some (some (BitVec.ofNat 32 (σ t))) := by
  obtain ⟨σ, hσ⟩ := (barrier_rounds (n := 2) (by decide)
    [.call 0 true, .loadStart 0, .call 1 true, .loadStart 1, .loadIncrement 1,
      .loadIncrement 0, .compare 0, .compare 1, .poll 1, .ret 1, .ret 0] _ rfl 1
      (by decide)).2.2 (by decide) (by decide)
  exact ⟨σ, fun t => congrArg some (hσ t)⟩

section Wrap

variable {s : State n} {t : Fin n} {start count : BitVec 64}

/-- A call of `L2_Barrier` up to its comparison. -/
def enter (t : Fin n) : List (Label n) := [.call t false, .loadStart t, .loadIncrement t]

/-- A call of `L2_Barrier` after its comparison. -/
def leave (t : Fin n) : List (Label n) := [.poll t, .ret t]

theorem run_enter (h : s.phase t = .idle) (labels : List (Label n)) :
    run step s (enter t ++ labels) =
      run step (s.arrive t (.counted false s.start s.count)) labels := by
  have hcall : step s (.call t false) = some (s.move t (.entered false)) := by
    simp only [step, h]
  have hload : step (s.move t (.entered false)) (.loadStart t) =
      some (s.move t (.loaded false s.start)) := by
    simp [step, move]
  have hcount : step (s.move t (.loaded false s.start)) (.loadIncrement t) =
      some (s.arrive t (.counted false s.start s.count)) := by
    simp [step, move, arrive]
  simp only [enter, List.cons_append, List.nil_append, run_cons, hcall, hload, hcount, bind_some]

theorem run_enter_waiting (h : s.phase t = .idle) (hnot : s.count + 1 ≠ s.start + BitVec.ofNat 64 n)
    (labels : List (Label n)) : run step s (enter t ++ .compare t :: labels) =
      run step (s.arrive t (.waiting false s.start s.count)) labels := by
  have hcompare : step (s.arrive t (.counted false s.start s.count)) (.compare t) =
      some (s.arrive t (.waiting false s.start s.count)) := by
    simp only [step, arrive, move, update_self, update_idem, if_neg hnot]
  rw [run_enter h, run_cons, hcompare, bind_some]

theorem run_enter_done (h : s.phase t = .idle) (hlast : s.count + 1 = s.start + BitVec.ofNat 64 n)
    (labels : List (Label n)) : run step s (enter t ++ .compare t :: labels) =
      run step { s.arrive t (.done false s.start s.count) with start := s.count + 1 } labels := by
  have hcompare : step (s.arrive t (.counted false s.start s.count)) (.compare t) =
      some { s.arrive t (.done false s.start s.count) with start := s.count + 1 } := by
    simp only [step, arrive, move, update_self, update_idem, if_pos hlast]
  rw [run_enter h, run_cons, hcompare, bind_some]

theorem run_leave (h : s.phase t = .waiting false start count) (hnot : ¬ s.start < count + 1)
    (labels : List (Label n)) :
    run step s (leave t ++ labels) = run step (s.ret t none) labels := by
  have hpoll : step s (.poll t) = some (s.move t (.done false start count)) := by
    simp only [step, h, if_neg hnot]
  have hret : step (s.move t (.done false start count)) (.ret t) = some (s.ret t none) := by
    simp [step, move, State.ret]
  simp only [leave, List.cons_append, List.nil_append, run_cons, hpoll, hret, bind_some]

end Wrap

structure AtRest (r : Nat) (x : BitVec 64) (s : State 3) : Prop where
  start : s.start = x
  count : s.count = x
  phase : ∀ t, s.phase t = .idle
  returns : ∀ t, s.returns t = r

def round : List (Label 3) :=
  enter 0 ++ .compare 0 :: (enter 1 ++ .compare 1 :: (enter 2 ++ .compare 2 ::
    (leave 0 ++ (leave 1 ++ [.ret 2]))))

theorem run_round {x : BitVec 64} {s : State 3} (h : AtRest r x s) (hx : x.toNat + 3 < 2 ^ 64) :
    ∃ s', run step s round = some s' ∧ AtRest (r + 1) (x + 3) s' := by
  obtain ⟨rfl, hcount, hphase, hreturns⟩ := h
  have hone : s.count + 1 ≠ s.start + BitVec.ofNat 64 3 := by bv_omega
  have htwo : s.count + 1 + 1 ≠ s.start + BitVec.ofNat 64 3 := by bv_omega
  have hthree : s.count + 1 + 1 + 1 = s.start + BitVec.ofNat 64 3 := by bv_omega
  have hfirst : ¬ s.count + 1 + 1 + 1 < s.count + 1 := by bv_omega
  have hsecond : ¬ s.count + 1 + 1 + 1 < s.count + 1 + 1 := by bv_omega
  let s1 := s.arrive 0 (.waiting false s.start s.count)
  let s2 := s1.arrive 1 (.waiting false s.start (s.count + 1))
  let s3 := { s2.arrive 2 (.done false s.start (s.count + 1 + 1)) with
    start := s.count + 1 + 1 + 1 }
  have henter : run step s round = run step s3 (leave 0 ++ (leave 1 ++ [.ret 2])) := by
    rw [round, run_enter_waiting (hphase 0) hone]
    refine (run_enter_waiting (s := s1) (t := 1) (hphase 1) htwo _).trans ?_
    exact run_enter_done (s := s2) (t := 2) (hphase 2) hthree _
  have hleave : run step s3 (leave 0 ++ (leave 1 ++ [.ret 2])) =
      some (((s3.ret 0 none).ret 1 none).ret 2 none) := by
    refine (run_leave (s := s3) (t := 0) rfl hfirst _).trans ?_
    exact (run_leave (s := s3.ret 0 none) (t := 1) rfl hsecond _).trans rfl
  refine ⟨_, henter.trans hleave, hthree, hthree, fun t => ?_, fun t => ?_⟩
  · match t with
    | 0 | 1 | 2 => rfl
  · match t with
    | 0 => exact congrArg (· + 1) (hreturns 0)
    | 1 => exact congrArg (· + 1) (hreturns 1)
    | 2 => exact congrArg (· + 1) (hreturns 2)

theorem exists_atRest (r : Nat) (hr : 3 * r < 2 ^ 64) :
    ∃ labels s, run step (init 3) labels = some s ∧ AtRest r (BitVec.ofNat 64 (3 * r)) s := by
  induction r with
  | zero => exact ⟨[], init 3, rfl, rfl, rfl, fun _ => rfl, fun _ => rfl⟩
  | succ r ih =>
    obtain ⟨labels, s, hrun, hrest⟩ := ih (by omega)
    have hx : (BitVec.ofNat 64 (3 * r)).toNat + 3 < 2 ^ 64 := by
      rw [toNat_ofNat, mod_eq_of_lt (by omega)]
      omega
    obtain ⟨s', hrun', hrest'⟩ := run_round hrest hx
    refine ⟨labels ++ round, s', ?_, ?_⟩
    · rw [run_append, hrun, bind_some, hrun']
    · rwa [Nat.mul_succ, ofNat_add]

/-- The round in which the 64-bit counters of three threads wrap. -/
def wrapRound : Nat := (2 ^ 64 - 1) / 3

/-- When the counter wraps, the first thread to arrive finds that its `start` is not below the
wrapped count and leaves alone. -/
theorem not_barrier_rounds : ∃ (labels : List (Label 3)) (s : State 3),
    run step (init 3) labels = some s ∧
      s.returns 0 = wrapRound + 1 ∧ s.calls 1 = wrapRound := by
  obtain ⟨labels, s, hrun, hstart, hcount, hphase, hreturns⟩ :=
    exists_atRest wrapRound (by decide)
  refine ⟨labels ++ (enter 0 ++ .compare 0 :: (leave 0 ++ [])),
    (s.arrive 0 (.waiting false s.start s.count)).ret 0 none, ?_, ?_, ?_⟩
  · have hwrap : s.count + 1 = 0 := by
      rw [hcount]
      decide
    have hnot : s.count + 1 ≠ s.start + BitVec.ofNat 64 3 := by
      rw [hcount, hstart]
      decide
    have hleave : ¬ s.start < s.count + 1 := by
      rw [hwrap]
      exact BitVec.not_lt_zero
    rw [run_append, hrun, bind_some, run_enter_waiting (hphase 0) hnot]
    exact run_leave (s := s.arrive 0 _) (t := 0) rfl hleave []
  · exact congrArg (· + 1) (hreturns 0)
  · have hidle : ((s.arrive 0 (.waiting false s.start s.count)).ret 0 none).phase 1 = .idle :=
      hphase 1
    rw [calls, if_pos hidle]
    exact hreturns 1

end BgqDriver.L2Barrier
