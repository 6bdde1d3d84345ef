import Mathlib.Tactic
import Mathlib.Algebra.Order.Floor.Ring
import Mathlib.Data.Rat.Floor

/-!
# Digital lines

A segment of the plane is followed in unit steps along its longer axis, and
the other coordinate is rounded to the nearest integer. Both coordinates are
instances of one rounding, since along the longer axis it rounds nothing.
-/

set_option autoImplicit false

namespace Wasabi.DigitalLine

/-- The integer nearest to `d*k/D`, halves upwards. -/
def rounded (d D k : ℤ) : ℤ := ⌊((d*k : ℤ) : ℚ)/D+1/2⌋

section Rounded
variable (d D k : ℤ) (hD : 0 < D)
include hD

/-- Twice the rounded value against the exact one, without fractions. -/
theorem rounded_bounds : 2*D*rounded d D k ≤ 2*d*k+D ∧ 2*d*k+D < 2*D*rounded d D k+2*D := by
  have hq : (0:ℚ) < D := by exact_mod_cast hD
  have hle : (rounded d D k : ℚ) ≤ ((d*k : ℤ) : ℚ)/D+1/2 := Int.floor_le _
  have hlt : ((d*k : ℤ) : ℚ)/D+1/2 < rounded d D k+1 := Int.lt_floor_add_one _
  have hx : 2*(D:ℚ)*(((d*k : ℤ) : ℚ)/D+1/2) = 2*d*k+D := by
    push_cast
    field_simp
  constructor
  · have h := mul_le_mul_of_nonneg_left hle (by linarith : (0:ℚ) ≤ 2*D)
    rw [hx] at h
    exact_mod_cast h
  · have h := mul_lt_mul_of_pos_left hlt (by linarith : (0:ℚ) < 2*D)
    rw [hx, mul_add, mul_one] at h
    exact_mod_cast h

/-- The bounds determine the rounded value. -/
theorem rounded_unique (m : ℤ) (h1 : 2*D*m ≤ 2*d*k+D) (h2 : 2*d*k+D < 2*D*m+2*D) :
    rounded d D k = m := by
  obtain ⟨h3,h4⟩ := rounded_bounds d D k hD
  have hup : 2*D*m < 2*D*(rounded d D k+1) := by linarith
  have hdown : 2*D*rounded d D k < 2*D*(m+1) := by linarith
  have hm := lt_of_mul_lt_mul_left hup (by omega)
  have hr := lt_of_mul_lt_mul_left hdown (by omega)
  omega

/-- Rounding by two integer divisions. -/
theorem rounded_div : rounded d D k = (2*d*k+D)/D/2 := by
  apply rounded_unique d D k hD
  · have h1 := Int.mul_ediv_self_le (x := 2*d*k+D) (k := D) (by omega)
    have h2 := Int.mul_ediv_self_le (x := (2*d*k+D)/D) (k := 2) (by omega)
    nlinarith
  · have h1 := Int.lt_mul_ediv_self_add (x := 2*d*k+D) hD
    have h2 := Int.lt_mul_ediv_self_add (x := (2*d*k+D)/D) (k := 2) (by omega)
    nlinarith

theorem rounded_near : |(rounded d D k : ℚ)-d*k/D| ≤ 1/2 := by
  have hq : (0:ℚ) < D := by exact_mod_cast hD
  obtain ⟨h1,h2⟩ := rounded_bounds d D k hD
  have h1 : 2*(D:ℚ)*rounded d D k ≤ 2*d*k+D := by exact_mod_cast h1
  have h2 : 2*(d:ℚ)*k+D < 2*D*rounded d D k+2*D := by exact_mod_cast h2
  have hdiv : (d:ℚ)*k/D*D = d*k := div_mul_cancel₀ _ hq.ne'
  rw [abs_le]
  constructor
  · nlinarith
  · nlinarith

theorem rounded_self : rounded D D k = k := by
  apply rounded_unique D D k hD
  · linarith
  · linarith

theorem rounded_nonneg (hd : 0 ≤ d) (hk : 0 ≤ k) : 0 ≤ rounded d D k := by
  obtain ⟨-,h2⟩ := rounded_bounds d D k hD
  have hp := mul_nonneg hd hk
  have hlt : 2*D*(-1) < 2*D*rounded d D k := by linarith
  have h := lt_of_mul_lt_mul_left hlt (by omega)
  omega

theorem rounded_le (hd : 0 ≤ d) (hk : k ≤ D) : rounded d D k ≤ d := by
  obtain ⟨h1,-⟩ := rounded_bounds d D k hD
  have hp := mul_le_mul_of_nonneg_left hk hd
  have hlt : 2*D*rounded d D k < 2*D*(d+1) := by linarith
  have h := lt_of_mul_lt_mul_left hlt (by omega)
  omega

/-- One step moves the rounded value by at most one. -/
theorem rounded_step (hd : 0 ≤ d) (hle : d ≤ D) :
    rounded d D k ≤ rounded d D (k+1) ∧ rounded d D (k+1) ≤ rounded d D k+1 := by
  obtain ⟨h1,h2⟩ := rounded_bounds d D k hD
  obtain ⟨h3,h4⟩ := rounded_bounds d D (k+1) hD
  have hup : 2*D*rounded d D k < 2*D*(rounded d D (k+1)+1) := by linarith
  have hdown : 2*D*rounded d D (k+1) < 2*D*(rounded d D k+2) := by linarith
  have h5 := lt_of_mul_lt_mul_left hup (by omega)
  have h6 := lt_of_mul_lt_mul_left hdown (by omega)
  constructor
  · omega
  · omega

end Rounded

/-- The integer at distance `t` from `a` on the way to `c`. -/
def towards (a c t : ℤ) : ℤ := a+t*(c-a).sign

theorem towards_between (a c t : ℤ) (h0 : 0 ≤ t) (h : t ≤ |c-a|) :
    min a c ≤ towards a c t ∧ towards a c t ≤ max a c := by
  unfold towards
  rcases lt_trichotomy (c-a) 0 with hneg | hzero | hpos
  · rw [abs_of_neg hneg] at h
    rw [Int.sign_eq_neg_one_of_neg hneg]
    omega
  · rw [hzero, Int.sign_zero]
    omega
  · rw [abs_of_pos hpos] at h
    rw [Int.sign_eq_one_of_pos hpos]
    omega

theorem towards_end (a c : ℤ) : towards a c |c-a| = c := by
  rw [towards, mul_comm, Int.sign_mul_abs]
  omega

theorem towards_injective (a c t u : ℤ) (hne : a ≠ c) (h : towards a c t = towards a c u) :
    t = u := by
  unfold towards at h
  have hs : (c-a).sign ≠ 0 := by
    rw [Ne, Int.sign_eq_zero_iff_zero]
    omega
  exact mul_right_cancel₀ hs (by omega)

/-- Places whose distances differ by at most one are neighbours. -/
theorem towards_step (a c t u : ℤ) (h1 : t ≤ u) (h2 : u ≤ t+1) :
    |towards a c u-towards a c t| ≤ 1 := by
  unfold towards
  have hu : u = t ∨ u = t+1 := by omega
  rcases hu with rfl | rfl
  · simp
  · rcases Int.sign_trichotomy (c-a) with hs | hs | hs <;> rw [hs] <;> norm_num

/-- An error of the distance is an error of the place. -/
theorem towards_near (a c m k D : ℤ) (ε : ℚ) (h : |(m:ℚ)-(|c-a| : ℤ)*k/D| ≤ ε) :
    |(towards a c m : ℚ)-(a+(c-a)*k/D)| ≤ ε := by
  have hsign : ((c-a : ℤ) : ℚ) = (c-a).sign*(|c-a| : ℤ) := by
    exact_mod_cast (Int.sign_mul_abs (c-a)).symm
  have hfactor : (towards a c m : ℚ)-(a+(c-a)*k/D) =
      (c-a).sign*((m:ℚ)-(|c-a| : ℤ)*k/D) := by
    rw [← Int.cast_sub, hsign, towards]
    push_cast
    ring
  have hone : |((c-a).sign : ℚ)| ≤ 1 := by
    rcases Int.sign_trichotomy (c-a) with hs | hs | hs <;> rw [hs] <;> norm_num
  rw [hfactor, abs_mul]
  calc |((c-a).sign : ℚ)| * |(m:ℚ)-(|c-a| : ℤ)*k/D|
      ≤ 1 * |(m:ℚ)-(|c-a| : ℤ)*k/D| := mul_le_mul_of_nonneg_right hone (abs_nonneg _)
    _ ≤ ε := by rwa [one_mul]

/-- The length of the longer axis. -/
def steps (p q : ℤ × ℤ) : ℤ := max |q.1-p.1| |q.2-p.2|

/-- The place after `k` steps along the longer axis. -/
def place (p q : ℤ × ℤ) (k : ℤ) : ℤ × ℤ :=
  if |q.2-p.2| ≤ |q.1-p.1| then
    (towards p.1 q.1 k,towards p.2 q.2 (rounded |q.2-p.2| |q.1-p.1| k))
  else (towards p.1 q.1 (rounded |q.1-p.1| |q.2-p.2| k),towards p.2 q.2 k)

/-- The places of the segment without its end. -/
def trail (p q : ℤ × ℤ) : Set (ℤ × ℤ) := place p q '' Set.Ico 0 (steps p q)

/-- One coordinate after `k` of `D` steps. -/
def coordinate (a c D k : ℤ) : ℤ := towards a c (rounded |c-a| D k)

/-- Both coordinates are rounded, one of them without effect. -/
theorem place_eq (p q : ℤ × ℤ) (k : ℤ) (hD : 0 < steps p q) :
    place p q k = (coordinate p.1 q.1 (steps p q) k,coordinate p.2 q.2 (steps p q) k) := by
  unfold place steps coordinate at *
  split_ifs with h
  · rw [max_eq_left h] at hD ⊢
    rw [rounded_self _ k hD]
  · rw [max_eq_right (le_of_not_ge h)] at hD ⊢
    rw [rounded_self _ k hD]

section Coordinate
variable (a c D k : ℤ) (hD : 0 < D) (hle : |c-a| ≤ D)
include hD

theorem coordinate_near : |(coordinate a c D k : ℚ)-(a+(c-a)*k/D)| ≤ 1/2 :=
  towards_near a c _ k D (1/2) (rounded_near |c-a| D k hD)

theorem coordinate_between (h0 : 0 ≤ k) (h : k ≤ D) :
    min a c ≤ coordinate a c D k ∧ coordinate a c D k ≤ max a c :=
  towards_between a c _ (rounded_nonneg _ D k hD (abs_nonneg _) h0)
    (rounded_le _ D k hD (abs_nonneg _) h)

include hle

theorem coordinate_step : |coordinate a c D (k+1)-coordinate a c D k| ≤ 1 := by
  obtain ⟨h1,h2⟩ := rounded_step |c-a| D k hD (abs_nonneg _) hle
  exact towards_step a c _ _ h1 h2

end Coordinate

section Segment
variable (p q : ℤ × ℤ)

theorem place_near (k : ℤ) (hD : 0 < steps p q) :
    |((place p q k).1 : ℚ)-(p.1+(q.1-p.1)*k/steps p q)| ≤ 1/2 ∧
      |((place p q k).2 : ℚ)-(p.2+(q.2-p.2)*k/steps p q)| ≤ 1/2 := by
  rw [place_eq p q k hD]
  exact ⟨coordinate_near p.1 q.1 _ k hD,coordinate_near p.2 q.2 _ k hD⟩

theorem place_step (k : ℤ) (hD : 0 < steps p q) :
    |(place p q (k+1)).1-(place p q k).1| ≤ 1 ∧ |(place p q (k+1)).2-(place p q k).2| ≤ 1 := by
  rw [place_eq p q k hD, place_eq p q (k+1) hD]
  exact ⟨coordinate_step p.1 q.1 _ k hD (le_max_left _ _),
    coordinate_step p.2 q.2 _ k hD (le_max_right _ _)⟩

theorem place_between (k : ℤ) (h0 : 0 ≤ k) (hk : k < steps p q) :
    (min p.1 q.1 ≤ (place p q k).1 ∧ (place p q k).1 ≤ max p.1 q.1) ∧
      (min p.2 q.2 ≤ (place p q k).2 ∧ (place p q k).2 ≤ max p.2 q.2) := by
  rw [place_eq p q k (by omega)]
  exact ⟨coordinate_between p.1 q.1 _ k (by omega) h0 hk.le,
    coordinate_between p.2 q.2 _ k (by omega) h0 hk.le⟩

/-- Along an axis or a diagonal nothing is rounded. -/
theorem mem_trail_straight (D : ℤ) (hD : 0 < D) (hs : steps p q = D)
    (hx : |q.1-p.1| = 0 ∨ |q.1-p.1| = D) (hy : |q.2-p.2| = 0 ∨ |q.2-p.2| = D) (r : ℤ × ℤ) :
    r ∈ trail p q ↔ ∃ k, (0 ≤ k ∧ k < D) ∧ D*(r.1-p.1) = k*(q.1-p.1) ∧
      D*(r.2-p.2) = k*(q.2-p.2) := by
  have hcoord : ∀ a c k x, |c-a| = 0 ∨ |c-a| = D →
      (coordinate a c D k = x ↔ D*(x-a) = k*(c-a)) := by
    intro a c k x h
    have hsign : D*(k*(c-a).sign) = k*(c-a) ∧ coordinate a c D k = a+k*(c-a).sign := by
      rcases h with h | h
      · rw [abs_eq_zero] at h
        simp [coordinate, towards, h]
      · constructor
        · rw [mul_left_comm, ← h, mul_comm |c-a|, Int.sign_mul_abs]
        · rw [coordinate, h, rounded_self D k hD, towards]
    rw [hsign.2, ← hsign.1, mul_right_inj' hD.ne']
    omega
  constructor
  · rintro ⟨k,hk,rfl⟩
    rw [hs] at hk
    rw [place_eq p q k (by omega), hs]
    exact ⟨k,hk,(hcoord _ _ k _ hx).mp rfl,(hcoord _ _ k _ hy).mp rfl⟩
  · rintro ⟨k,hk,h1,h2⟩
    refine ⟨k,by rwa [hs],?_⟩
    rw [place_eq p q k (by omega), hs]
    exact Prod.ext ((hcoord _ _ k _ hx).mpr h1) ((hcoord _ _ k _ hy).mpr h2)

theorem steps_nonneg : 0 ≤ steps p q := le_max_of_le_left (abs_nonneg _)

theorem steps_eq_zero : steps p q = 0 ↔ p = q := by
  constructor
  · intro h
    have hx : |q.1-p.1| ≤ 0 := h ▸ le_max_left _ _
    have hy : |q.2-p.2| ≤ 0 := h ▸ le_max_right _ _
    rw [abs_nonpos_iff] at hx hy
    exact Prod.ext (by omega) (by omega)
  · rintro rfl
    simp [steps]

theorem place_zero (hne : p ≠ q) : place p q 0 = p := by
  have hD : 0 < steps p q := lt_of_le_of_ne (steps_nonneg p q)
    (fun h => hne ((steps_eq_zero p q).mp h.symm))
  have hz (d : ℤ) : rounded d (steps p q) 0 = 0 := by
    apply rounded_unique d _ 0 hD
    · linarith
    · linarith
  simp [place_eq p q 0 hD, coordinate, hz, towards]

theorem place_injective (k l : ℤ) (hne : p ≠ q) (h : place p q k = place p q l) : k = l := by
  unfold place at h
  split_ifs at h with hle
  · apply towards_injective p.1 q.1 k l _ (congrArg Prod.fst h)
    intro heq
    rw [heq, sub_self, abs_zero, abs_nonpos_iff] at hle
    exact hne (Prod.ext heq (by omega))
  · apply towards_injective p.2 q.2 k l _ (congrArg Prod.snd h)
    intro heq
    rw [heq, sub_self, abs_zero] at hle
    exact hle (abs_nonneg _)

/-- The last step is not a step of the open segment. -/
theorem place_steps : place p q (steps p q) = q := by
  by_cases hne : p = q
  · simp [hne, place, steps, towards]
  · have hD : 0 < steps p q := lt_of_le_of_ne (steps_nonneg p q)
      (fun h => hne ((steps_eq_zero p q).mp h.symm))
    have hr (d : ℤ) : rounded d (steps p q) (steps p q) = d := by
      apply rounded_unique d _ _ hD
      · linarith
      · linarith
    rw [place_eq p q _ hD, coordinate, coordinate, hr, hr, towards_end, towards_end]

theorem end_notMem : q ∉ trail p q := by
  rintro ⟨k,⟨h0,h1⟩,hk⟩
  have hne : p ≠ q := by
    rintro rfl
    rw [(steps_eq_zero p p).mpr rfl] at h1
    omega
  have h := place_injective p q k (steps p q) hne (hk.trans (place_steps p q).symm)
  omega

theorem start_mem (hne : p ≠ q) : p ∈ trail p q := by
  have h0 := steps_nonneg p q
  have hz : steps p q ≠ 0 := fun h => hne ((steps_eq_zero p q).mp h)
  exact ⟨0,⟨le_rfl,by omega⟩,place_zero p q hne⟩

theorem trail_ncard : (trail p q).ncard = (steps p q).toNat := by
  by_cases hne : p = q
  · simp [trail, (steps_eq_zero p q).mpr hne]
  · rw [trail, Set.ncard_image_of_injective _ (fun k l h => place_injective p q k l hne h)]
    simp [Set.ncard_eq_toFinset_card']

end Segment

end Wasabi.DigitalLine
