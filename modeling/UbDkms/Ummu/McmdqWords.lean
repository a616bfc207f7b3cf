import UbDkms.Lib.Ring
import UbDkms.Ummu.Mcmdq

/-!
# Positions and their words

What the code learns from the words of two positions that are at most one round of
the queue apart.
-/

namespace UbDkms.Ummu

variable {N p q : Nat}

theorem sameWord_iff : sameWord N p q ↔ p % (2 * N) = q % (2 * N) := decide_eq_true_iff

theorem sameWord_eq (hpq : p ≤ q) (hlt : q < p + 2 * N) (h : sameWord N p q) : p = q := by
  have hdvd : 2 * N ∣ q - p := (Nat.modEq_iff_dvd' hpq).mp (sameWord_iff.mp h)
  have hzero := Nat.eq_zero_of_dvd_of_lt hdvd (by omega)
  omega

theorem sameWord_self (p : Nat) : sameWord N p p := sameWord_iff.mpr rfl

theorem slot_inj {a : Nat} (hp : a ≤ p) (hp' : p < a + N) (hq : a ≤ q) (hq' : q < a + N)
    (h : qIdx N p = qIdx N q) : p = q := by
  obtain ⟨i, rfl⟩ := Nat.exists_eq_add_of_le hp
  obtain ⟨j, rfl⟩ := Nat.exists_eq_add_of_le hq
  rw [Lib.ring_inj (by omega) (by omega) h]

theorem round_cases (hN : 0 < N) (d : Nat) (hd : d ≤ N) :
    (p % N + d < N ∧ (p + d) / N = p / N ∧ (p + d) % N = p % N + d) ∨
    (N ≤ p % N + d ∧ (p + d) / N = p / N + 1 ∧ (p + d) % N + N = p % N + d) := by
  have hdm := Nat.div_add_mod p N
  have hlt := Nat.mod_lt p hN
  by_cases h : p % N + d < N
  · obtain ⟨h1, h2⟩ := (Nat.div_mod_unique hN).mpr (⟨by omega, h⟩ : p % N + d + N * (p / N) = p + d ∧ _)
    exact .inl ⟨h, h1, h2⟩
  have hmul : N * (p / N + 1) = N * (p / N) + N := Nat.mul_succ N (p / N)
  obtain ⟨h1, h2⟩ := (Nat.div_mod_unique hN).mpr
    (⟨by omega, by omega⟩ : p % N + d - N + N * (p / N + 1) = p + d ∧ p % N + d - N < N)
  exact .inr ⟨by omega, h1, by omega⟩

theorem qIdx_add_size : qIdx N (p + N) = qIdx N p := Nat.add_mod_right p N

theorem qWrp_add_size (hN : 0 < N) : qWrp N (p + N) = !qWrp N p := by
  unfold qWrp
  rw [Nat.add_div_right p hN]
  rcases Nat.mod_two_eq_zero_or_one (p / N) with h | h
  · rw [Nat.add_mod, h]
    rfl
  · rw [Nat.add_mod, h]
    rfl

theorem qIdx_congr (h : sameWord N p q) : qIdx N p = qIdx N q := by
  have h := sameWord_iff.mp h
  unfold qIdx
  rw [← Nat.mod_mod_of_dvd p (Dvd.intro_left 2 rfl : N ∣ 2 * N), h, Nat.mod_mod_of_dvd q (Dvd.intro_left 2 rfl)]

theorem qWrp_congr (h : sameWord N p q) : qWrp N p = qWrp N q := by
  have h := sameWord_iff.mp h
  unfold qWrp
  rw [Nat.mul_comm 2 N] at h
  rw [← Nat.mod_mul_right_div_self p N 2, h, Nat.mod_mul_right_div_self q N 2]

theorem ummuQueueHasSpace_congr {p' q' n : Nat} (hp : sameWord N p p') (hq : sameWord N q q') :
    ummuQueueHasSpace N p q n = ummuQueueHasSpace N p' q' n := by
  unfold ummuQueueHasSpace
  rw [qIdx_congr hp, qIdx_congr hq, qWrp_congr hp, qWrp_congr hq]

theorem ummuQueueHasSpace_le {n : Nat} (hN : 0 < N) (hqp : q ≤ p) (hpq : p ≤ q + N)
    (h : ummuQueueHasSpace N p q n) : p + n ≤ q + N := by
  obtain ⟨d, rfl⟩ := Nat.exists_eq_add_of_le hqp
  have h := of_decide_eq_true h
  unfold qIdx qWrp at h
  rcases round_cases (p := q) hN d (by omega) with ⟨h1, h2, h3⟩ | ⟨h1, h2, h3⟩
  · rw [h2, h3, if_pos rfl] at h
    omega
  · have hne : decide ((q / N + 1) % 2 = 1) ≠ decide (q / N % 2 = 1) := by
      intro hc
      have := decide_eq_decide.mp hc
      omega
    rw [h2, if_neg hne] at h
    omega

theorem ummuQueueConsumed_false (hN : 0 < N) (hqp : q ≤ p) (hpq : p < q + N) :
    ummuQueueConsumed N q p = false := by
  obtain ⟨d, rfl⟩ := Nat.exists_eq_add_of_le hqp
  unfold ummuQueueConsumed qIdx qWrp
  rcases round_cases (p := q) hN d (by omega) with ⟨h1, h2, h3⟩ | ⟨h1, h2, h3⟩
  · rw [h2, h3]
    simp
  · have hne : decide (q / N % 2 = 1) ≠ decide ((q / N + 1) % 2 = 1) := by
      intro hc
      have := decide_eq_decide.mp hc
      omega
    have hge : ¬ q % N ≤ (q + d) % N := by omega
    rw [h2]
    simp [hge, hne]

theorem mapRound_spec (h64 : bitsPerLong ∣ N) (hN : 0 < N) (hpq : p < q) (hqp : q ≤ p + N) :
    0 < mapRound N p q ∧ p + mapRound N p q ≤ q ∧ qIdx N p + mapRound N p q ≤ N := by
  obtain ⟨m, rfl⟩ := h64
  obtain ⟨d, rfl⟩ := Nat.exists_eq_add_of_le hpq.le
  have hlt := Nat.mod_lt p hN
  have hcases := round_cases (p := p) hN d (by omega)
  unfold mapRound mapLimit qIdx
  unfold bitsPerLong at hcases hlt ⊢
  generalize hi : p % (64 * m) = i at hcases hlt ⊢
  generalize hj : (p + d) % (64 * m) = j at hcases ⊢
  split <;> omega

theorem qIdx_add {d : Nat} (h : qIdx N p + d < N) : qIdx N (p + d) = qIdx N p + d ∧ qWrp N (p + d) = qWrp N p := by
  have hN : 0 < N := by omega
  unfold qIdx at h ⊢
  unfold qWrp
  rcases round_cases (p := p) hN d (by omega) with ⟨h1, h2, h3⟩ | ⟨h1, h2, h3⟩
  · rw [h2]
    exact ⟨h3, rfl⟩
  · omega

end UbDkms.Ummu
