import GaussMatrix.Library.Float64

/-!
# Rounding to a double, and the shortest decimal

A ratio close enough to a double rounds to it: the gap to the next double is a relative `2 ^ -53` or
more, and seventeen digits stand closer than that.  So the search for the shortest decimal ends, and
what it writes reads back.
-/

namespace GaussMatrix.Library

namespace F64

/-! ## Rounding -/

/-- A ratio within half a grain of a whole number of grains rounds to it. -/
theorem roundUnits_near {num den drop m : Nat} (hden : 0 < den)
    (hdrop : (num / den).log2 - 52 = drop)
    (hlo : 2 * (m * (den * 2 ^ drop)) < 2 * num + den * 2 ^ drop)
    (hhi : 2 * num < 2 * (m * (den * 2 ^ drop)) + den * 2 ^ drop) :
    roundUnits num den = m * 2 ^ drop := by
  have hgrain : 0 < den * 2 ^ drop := Nat.mul_pos hden (Nat.two_pow_pos drop)
  simp only [roundUnits, hdrop]
  generalize hg : den * 2 ^ drop = grain at *
  have hsplit := Nat.div_add_mod num grain
  have hrem := Nat.mod_lt num hgrain
  congr 1
  by_cases hle : m * grain ≤ num
  · have hm : num / grain = m := by
      rw [Nat.div_eq_iff hgrain]
      omega
    rw [hm, Nat.mul_comm grain m] at hsplit
    rw [hm, if_pos (by omega)]
  · -- the ratio is just below: the whole part is one short, and the remainder rounds up
    have hm : num / grain = m - 1 := by
      cases m with
      | zero => omega
      | succ m =>
          rw [Nat.add_one_mul m] at hlo hhi hle
          rw [Nat.div_eq_iff hgrain, Nat.add_sub_cancel]
          omega
    have hpos : 0 < m := by
      by_contra h
      rw [Nat.eq_zero_of_not_pos h, Nat.zero_mul] at hle
      omega
    have hprev : (m - 1) * grain + grain = m * grain := by
      rw [← Nat.add_one_mul, Nat.sub_add_cancel hpos]
    rw [hm, Nat.mul_comm grain (m - 1)] at hsplit
    rw [hm, if_neg (by omega), if_pos (by omega)]
    omega

theorem roundUnits_scale {c : Nat} (hc : 0 < c) (num den : Nat) :
    roundUnits (c * num) (c * den) = roundUnits num den := by
  simp only [roundUnits]
  rw [Nat.mul_div_mul_left num den hc]
  generalize (num / den).log2 - 52 = drop
  have hcmp (r grain : Nat) : 2 * (c * r) < c * grain ↔ 2 * r < grain := by
    rw [Nat.mul_left_comm, Nat.mul_lt_mul_left hc]
  have hcmp' (r grain : Nat) : c * grain < 2 * (c * r) ↔ grain < 2 * r := by
    rw [Nat.mul_left_comm, Nat.mul_lt_mul_left hc]
  rw [Nat.mul_assoc c den, Nat.mul_div_mul_left num _ hc, Nat.mul_mod_mul_left]
  simp only [hcmp, hcmp']

/-- The significand of a magnitude, and the place of its last bit. -/
theorem representable_split {u : Nat} (h : Representable u) :
    ∃ m, u = m * 2 ^ (u.log2 - 52) ∧ m < 2 ^ 53 ∧ (52 < u.log2 → 2 ^ 52 ≤ m) := by
  obtain ⟨m, hm⟩ := h.2
  have hu : u = m * 2 ^ (u.log2 - 52) := hm.trans (Nat.mul_comm _ _)
  have hlt : u < 2 ^ (u.log2 + 1) := Nat.lt_log2_self
  refine ⟨m, hu, ?_, fun hlog => ?_⟩
  · have hle : 2 ^ (u.log2 + 1) ≤ 2 ^ 53 * 2 ^ (u.log2 - 52) := by
      rw [← Nat.pow_add]
      exact Nat.pow_le_pow_right (by decide) (by omega)
    have hlt' : m * 2 ^ (u.log2 - 52) < 2 ^ 53 * 2 ^ (u.log2 - 52) := hu ▸ hlt.trans_le hle
    exact Nat.lt_of_mul_lt_mul_right hlt'
  · have hne : u ≠ 0 := by
      intro h0
      rw [h0] at hlog
      exact absurd hlog (by decide)
    have hge : 2 ^ u.log2 ≤ u := Nat.log2_self_le hne
    have hpow : 2 ^ u.log2 = 2 ^ 52 * 2 ^ (u.log2 - 52) := by
      rw [← Nat.pow_add]
      congr 1
      omega
    have hle : 2 ^ 52 * 2 ^ (u.log2 - 52) ≤ m * 2 ^ (u.log2 - 52) := by
      rw [← hpow, ← hu]
      exact hge
    exact Nat.le_of_mul_le_mul_right hle (Nat.two_pow_pos _)

theorem log2_div_eq {num den k : Nat} (hden : 0 < den) (hlo : 2 ^ k * den ≤ num)
    (hhi : num < 2 ^ (k + 1) * den) : (num / den).log2 = k := by
  have hge : 2 ^ k ≤ num / den := (Nat.le_div_iff_mul_le hden).mpr hlo
  have hlt : num / den < 2 ^ (k + 1) := (Nat.div_lt_iff_lt_mul hden).mpr hhi
  have hne : num / den ≠ 0 := by
    have hpos := Nat.two_pow_pos k
    omega
  exact (Nat.log2_eq_iff hne).mpr ⟨hge, hlt⟩

/-- A ratio within a relative `1 / (2 * 10 ^ 16)` of a double rounds to it. -/
theorem roundUnits_close {u num den : Nat} (hu : Representable u) (hden : 0 < den)
    (hlo : 2 * 10 ^ 16 * (u * den) ≤ 2 * 10 ^ 16 * num + u * den)
    (hhi : 2 * 10 ^ 16 * num ≤ 2 * 10 ^ 16 * (u * den) + u * den) : roundUnits num den = u := by
  obtain ⟨m, hm, hlt, hge⟩ := representable_split hu
  by_cases hlog : u.log2 ≤ 52
  · -- the grain is one unit
    rw [Nat.sub_eq_zero_of_le hlog, Nat.pow_zero, Nat.mul_one] at hm
    subst hm
    have hbound : u * den ≤ (2 ^ 53 - 1) * den := Nat.mul_le_mul_right den (by omega)
    have hdiv : num / den < 2 ^ 53 := (Nat.div_lt_iff_lt_mul hden).mpr (by omega)
    have hdrop : (num / den).log2 - 52 = 0 := by
      by_cases h0 : num / den = 0
      · rw [h0]
        rfl
      · have hlt53 := (Nat.log2_lt h0).mpr hdiv
        omega
    have hround := roundUnits_near (m := u) hden hdrop
    rw [Nat.pow_zero, Nat.mul_one, Nat.mul_one] at hround
    exact hround (by omega) (by omega)
  · have hge := hge (by omega)
    obtain ⟨drop, hdrop⟩ : ∃ drop, u.log2 = drop + 53 := ⟨u.log2 - 53, by omega⟩
    have hprod : u * den = m * (den * 2 ^ (drop + 1)) := by
      rw [show drop + 1 = u.log2 - 52 by omega]
      conv_lhs => rw [hm]
      rw [Nat.mul_assoc, Nat.mul_comm (2 ^ _)]
    have hpow (k : Nat) : 2 ^ (k + (drop + 1)) * den = 2 ^ k * (den * 2 ^ (drop + 1)) := by
      rw [Nat.pow_add, Nat.mul_assoc, Nat.mul_comm (2 ^ (drop + 1))]
    have hlow : 2 ^ 52 * (den * 2 ^ (drop + 1)) ≤ m * (den * 2 ^ (drop + 1)) :=
      Nat.mul_le_mul_right _ hge
    have hhigh : m * (den * 2 ^ (drop + 1)) ≤ (2 ^ 53 - 1) * (den * 2 ^ (drop + 1)) :=
      Nat.mul_le_mul_right _ (by omega)
    have hgrain : 0 < den * 2 ^ (drop + 1) := Nat.mul_pos hden (Nat.two_pow_pos _)
    rw [hprod] at hlo hhi
    by_cases hbelow : num < m * (den * 2 ^ (drop + 1)) ∧ m = 2 ^ 52
    · -- below a power of two the grain halves
      obtain ⟨hbelow, rfl⟩ := hbelow
      have hhalf : den * 2 ^ (drop + 1) = 2 * (den * 2 ^ drop) := by
        rw [Nat.pow_succ]
        ring
      have hdrop' : (num / den).log2 - 52 = drop := by
        rw [log2_div_eq (k := 52 + drop) hden, Nat.add_sub_cancel_left]
        · rw [Nat.pow_add, Nat.mul_assoc, Nat.mul_comm (2 ^ drop)]
          omega
        · rw [show 52 + drop + 1 = 52 + (drop + 1) by omega, hpow]
          exact hbelow
      have hround := roundUnits_near (m := 2 ^ 53) hden hdrop' (by omega) (by omega)
      rw [hround, hm, hdrop, ← Nat.pow_add, ← Nat.pow_add]
      congr 1
      omega
    · have hm1 : num < m * (den * 2 ^ (drop + 1)) →
          (2 ^ 52 + 1) * (den * 2 ^ (drop + 1)) ≤ m * (den * 2 ^ (drop + 1)) := by
        intro h
        exact Nat.mul_le_mul_right _ (by omega)
      have hdrop' : (num / den).log2 - 52 = drop + 1 := by
        rw [log2_div_eq (k := 52 + (drop + 1)) hden, Nat.add_sub_cancel_left]
        · rw [hpow]
          omega
        · rw [show 52 + (drop + 1) + 1 = 53 + (drop + 1) by omega, hpow]
          omega
      have hround := roundUnits_near (m := m) hden hdrop' (by omega) (by omega)
      rw [hround, show drop + 1 = u.log2 - 52 by omega, ← hm]

theorem roundUnits_self {u : Nat} (hu : Representable u) {den : Nat} (hden : 0 < den) :
    roundUnits (u * den) den = u :=
  roundUnits_close hu hden (Nat.le_add_right _ _) (Nat.le_add_right _ _)

/-! ## Doubles from ratios -/

theorem ofUnits_eq_finite {neg : Bool} {num den u : Nat} (hu : Representable u)
    (h : roundUnits num den = u) : ofUnits neg num den = .finite neg u hu := by
  subst h
  exact dif_pos hu

theorem ofUnits_finite_iff {neg : Bool} {num den u : Nat} {fits : Representable u} :
    ofUnits neg num den = .finite neg u fits ↔ roundUnits num den = u := by
  rw [ofUnits]
  split
  · rw [F64.finite.injEq]
    exact ⟨fun h => h.2, fun h => ⟨rfl, h⟩⟩
  · rename_i h
    constructor
    · intro hinf
      cases hinf
    · intro hround
      exact absurd (hround ▸ fits) h

theorem ofUnits_sign (neg : Bool) (num den : Nat) (neg' : Bool) (u : Nat) (fits : Representable u)
    (h : ofUnits neg num den = .finite neg' u fits) : neg' = neg := by
  rw [ofUnits] at h
  split at h
  · cases h
    rfl
  · cases h

theorem ofDecimal_sign (neg : Bool) (mantissa : Nat) (exponent : Int) (neg' : Bool) (u : Nat)
    (fits : Representable u) (h : ofDecimal neg mantissa exponent = .finite neg' u fits) :
    neg' = neg := by
  cases exponent with
  | ofNat e => exact ofUnits_sign neg _ _ neg' u fits h
  | negSucc e => exact ofUnits_sign neg _ _ neg' u fits h

/-- The sign does not bear on the magnitude. -/
theorem ofDecimal_neg {mantissa u : Nat} {exponent : Int} {fits : Representable u}
    (h : ofDecimal false mantissa exponent = .finite false u fits) (neg : Bool) :
    ofDecimal neg mantissa exponent = .finite neg u fits := by
  cases exponent with
  | ofNat e => exact ofUnits_finite_iff.mpr (ofUnits_finite_iff.mp h)
  | negSucc e => exact ofUnits_finite_iff.mpr (ofUnits_finite_iff.mp h)

theorem ofUnits_scale {c : Nat} (hc : 0 < c) (neg : Bool) (num den : Nat) :
    ofUnits neg (c * num) (c * den) = ofUnits neg num den := by
  rw [ofUnits, ofUnits]
  simp only [roundUnits_scale hc]

theorem ofDecimal_negSucc (neg : Bool) (mantissa e : Nat) :
    ofDecimal neg mantissa (Int.negSucc e) = ofUnits neg (mantissa * unitsPerOne) (10 ^ (e + 1)) :=
  rfl

theorem ofDecimal_natCast (neg : Bool) (mantissa e : Nat) :
    ofDecimal neg mantissa (e : Int) = ofUnits neg (mantissa * 10 ^ e * unitsPerOne) 1 :=
  rfl

/-- A power of ten moves between the mantissa and the exponent. -/
theorem ofDecimal_shift (neg : Bool) (mantissa j : Nat) (exponent : Int) :
    ofDecimal neg (mantissa * 10 ^ j) exponent = ofDecimal neg mantissa (exponent + j) := by
  have hten (i : Nat) : 0 < 10 ^ i := Nat.pow_pos (by decide)
  rcases exponent with e | e
  · rw [Int.ofNat_eq_natCast, ← Int.natCast_add, ofDecimal_natCast, ofDecimal_natCast,
      Nat.mul_assoc mantissa, ← Nat.pow_add, Nat.add_comm j e]
  · by_cases hj : j ≤ e
    · have hexp : Int.negSucc e + (j : Int) = Int.negSucc (e - j) := by omega
      have hnum : mantissa * 10 ^ j * unitsPerOne = 10 ^ j * (mantissa * unitsPerOne) := by
        rw [Nat.mul_assoc, Nat.mul_left_comm]
      have hden : 10 ^ (e + 1) = 10 ^ j * 10 ^ (e - j + 1) := by
        rw [← Nat.pow_add, show j + (e - j + 1) = e + 1 by omega]
      rw [hexp, ofDecimal_negSucc, ofDecimal_negSucc, hnum, hden, ofUnits_scale (hten j)]
    · have hexp : Int.negSucc e + (j : Int) = ((j - (e + 1) : Nat) : Int) := by omega
      have hnum : mantissa * 10 ^ j * unitsPerOne =
          10 ^ (e + 1) * (mantissa * 10 ^ (j - (e + 1)) * unitsPerOne) := by
        rw [← Nat.mul_assoc, Nat.mul_left_comm, ← Nat.pow_add,
          show e + 1 + (j - (e + 1)) = j by omega]
      rw [hexp, ofDecimal_negSucc, ofDecimal_natCast, hnum, ← ofUnits_scale (hten (e + 1)) neg _ 1,
        Nat.mul_one]

/-! ## The leading digit -/

theorem pow_length_decimal_le {n : Nat} (hn : 0 < n) : 10 ^ ((decimal n).length - 1) ≤ n := by
  by_cases hone : (decimal n).length ≤ 1
  · rw [Nat.sub_eq_zero_of_le hone, Nat.pow_zero]
    exact hn
  · by_contra hlt
    have hle := (Nat.length_toDigits_le_iff (b := 10) (by decide)
      (by omega : 0 < (decimal n).length - 1)).mpr (Nat.lt_of_not_le hlt)
    have hlen : (Nat.toDigits 10 n).length = (decimal n).length := rfl
    omega

theorem leadingBelowOne_spec {units fuel j : Nat} (h : unitsPerOne ≤ units * 10 ^ (j + fuel)) :
    ∃ i : Nat, leadingBelowOne units fuel j = -(i : Int) ∧ unitsPerOne ≤ units * 10 ^ i := by
  induction fuel generalizing j with
  | zero => exact ⟨j, rfl, h⟩
  | succ fuel ih =>
      rw [leadingBelowOne]
      split
      · rename_i hj
        exact ⟨j, rfl, hj⟩
      · have hnext : j + (fuel + 1) = j + 1 + fuel := by omega
        exact ih (hnext ▸ h)

theorem unitsPerOne_pos : 0 < unitsPerOne := by decide +kernel

theorem unitsPerOne_le : unitsPerOne ≤ 10 ^ (1 + 330) := by decide +kernel

/-- The leading digit of a positive magnitude stands at or below the magnitude. -/
theorem leadingExponent_le {units : Nat} (hpos : 0 < units) :
    10 ^ (leadingExponent units).toNat * unitsPerOne ≤
      units * 10 ^ (-leadingExponent units).toNat := by
  have hone := unitsPerOne_pos
  rw [leadingExponent]
  split
  · rename_i hge
    have hdiv : 0 < units / unitsPerOne := Nat.div_pos hge hone
    have hlen : 0 < (decimal (units / unitsPerOne)).length := Nat.length_toDigits_pos
    have hle := pow_length_decimal_le hdiv
    rw [show (((decimal (units / unitsPerOne)).length : Int) - 1).toNat =
        (decimal (units / unitsPerOne)).length - 1 by omega,
      show (-(((decimal (units / unitsPerOne)).length : Int) - 1)).toNat = 0 by omega,
      Nat.pow_zero, Nat.mul_one]
    exact (Nat.le_div_iff_mul_le hone).mp hle
  · have hbound : unitsPerOne ≤ units * 10 ^ (1 + 330) :=
      unitsPerOne_le.trans (Nat.le_mul_of_pos_left _ hpos)
    obtain ⟨i, hi, hle⟩ := leadingBelowOne_spec hbound
    rw [hi, Int.toNat_neg_natCast, Int.neg_neg, Int.toNat_natCast, Nat.pow_zero, Nat.one_mul]
    exact hle

/-! ## The search for the shortest decimal -/

/-- The test of the search: a decimal reads back to a magnitude. -/
def readsBack (units : Nat) (k : Int) (d : Nat) : Bool :=
  match ofDecimal false d k with
  | .finite _ u _ => u = units
  | _ => false

theorem readsBack_iff {units : Nat} (fits : Representable units) (d : Nat) (k : Int) :
    readsBack units k d = true ↔ ofDecimal false d k = .finite false units fits := by
  have hsign := ofDecimal_sign false d k
  rw [readsBack]
  generalize ofDecimal false d k = n at *
  cases n with
  | finite neg u h =>
      rw [hsign neg u h rfl, decide_eq_true_eq, F64.finite.injEq]
      exact (and_iff_right rfl).symm
  | inf neg => simp
  | nan => simp

/-- What the search finds reads back. -/
theorem shortestAt_readsBack {units digits d : Nat} {k : Int} (fits : Representable units)
    (h : shortestAt units digits = some (d, k)) :
    ofDecimal false d k = .finite false units fits := by
  unfold shortestAt at h
  extract_lets k' at h
  clear_value k'
  generalize scaled units k' = parts at h
  obtain ⟨low, rem, den⟩ := parts
  obtain ⟨d', hpick, hd⟩ := Option.map_eq_some_iff.mp h
  have hback : ofDecimal false d' k' = .finite false units fits := by
    rw [← readsBack_iff fits]
    split at hpick
    · rename_i hlow
      cases hpick
      exact hlow.1
    · split at hpick
      · rename_i hhigh
        cases hpick
        exact hhigh
      · cases hpick
  split at hd
  · rename_i hten
    obtain ⟨rfl, rfl⟩ := Prod.mk.inj hd
    rw [← ofDecimal_shift, Nat.one_mul, ← hten]
    exact hback
  · obtain ⟨rfl, rfl⟩ := Prod.mk.inj hd
    exact hback

/-- The search with a given number of digits succeeds if one of the two decimals around the
magnitude reads back. -/
theorem shortestAt_isSome {units digits : Nat} (fits : Representable units)
    (h : ∃ d, (d = (scaled units (leadingExponent units - (digits - 1 : Nat))).1 ∨
        d = (scaled units (leadingExponent units - (digits - 1 : Nat))).1 + 1) ∧
      ofDecimal false d (leadingExponent units - (digits - 1 : Nat)) = .finite false units fits) :
    (shortestAt units digits).isSome := by
  unfold shortestAt
  extract_lets k
  have hk : k = leadingExponent units - (digits - 1 : Nat) := rfl
  rw [← hk] at h
  clear_value k
  generalize scaled units k = parts at *
  obtain ⟨low, rem, den⟩ := parts
  obtain ⟨d, hd, hback⟩ := h
  rw [← readsBack_iff fits] at hback
  rw [Option.isSome_map]
  show (if readsBack units k low = true ∧ (2 * rem < den ∨ ¬ readsBack units k (low + 1) = true)
    then some low
    else if readsBack units k (low + 1) = true then some (low + 1) else none).isSome = true
  rcases hd with hd | hd
  · rw [hd] at hback
    by_cases hhigh : readsBack units k (low + 1) = true
    · rw [if_pos hhigh]
      split <;> rfl
    · rw [if_pos ⟨hback, .inr hhigh⟩]
      rfl
  · rw [hd] at hback
    rw [if_pos hback]
    split <;> rfl

/-- One of the two multiples of a fine enough step around a double rounds to it. -/
theorem multiple_rounds {u den step : Nat} (hu : Representable u) (hden : 0 < den)
    (hstep : 0 < step) (hfine : 10 ^ 16 * step ≤ u * den) :
    ∃ d, (d = u * den / step ∨ d = u * den / step + 1) ∧ roundUnits (d * step) den = u := by
  have hsplit := Nat.div_add_mod (u * den) step
  have hrem := Nat.mod_lt (u * den) hstep
  rw [Nat.mul_comm step] at hsplit
  by_cases hhalf : 2 * (u * den % step) ≤ step
  · exact ⟨u * den / step, .inl rfl, roundUnits_close hu hden (by omega) (by omega)⟩
  · have hnext := Nat.add_one_mul (u * den / step) step
    exact ⟨u * den / step + 1, .inr rfl, roundUnits_close hu hden (by omega) (by omega)⟩

/-- Seventeen digits are enough. -/
theorem seventeen_digits {units : Nat} (fits : Representable units) (hpos : 0 < units) :
    (shortestAt units 17).isSome := by
  apply shortestAt_isSome fits
  have hlead := leadingExponent_le hpos
  have hone := unitsPerOne_pos
  generalize leadingExponent units = e at *
  rcases hk : e - (17 - 1 : Nat) with k | k
  · have he : e.toNat = 16 + k ∧ (-e).toNat = 0 := by
      rw [Int.ofNat_eq_natCast] at hk
      omega
    rw [he.1, he.2, Nat.pow_zero, Nat.pow_add, Nat.mul_assoc, Nat.mul_comm (10 ^ k)] at hlead
    obtain ⟨d, hd, hround⟩ := multiple_rounds fits Nat.one_pos
      (Nat.mul_pos hone (Nat.pow_pos (n := k) (by decide : 0 < 10))) hlead
    rw [Nat.mul_one] at hd
    have hnum : d * 10 ^ k * unitsPerOne = d * (unitsPerOne * 10 ^ k) := by
      rw [Nat.mul_assoc, Nat.mul_comm (10 ^ k)]
    refine ⟨d, hd, ?_⟩
    rw [Int.ofNat_eq_natCast, ofDecimal_natCast, hnum]
    exact ofUnits_eq_finite fits hround
  · have hfine : 10 ^ 16 * unitsPerOne ≤ units * 10 ^ (k + 1) := by
      have hexp : e.toNat + (k + 1) = 16 + (-e).toNat := by omega
      have hmul := Nat.mul_le_mul_right (10 ^ (k + 1)) hlead
      have hleft : 10 ^ e.toNat * unitsPerOne * 10 ^ (k + 1) =
          10 ^ 16 * unitsPerOne * 10 ^ (-e).toNat := by
        rw [Nat.mul_right_comm, ← Nat.pow_add, hexp, Nat.pow_add, Nat.mul_right_comm]
      rw [hleft, Nat.mul_right_comm units] at hmul
      exact Nat.le_of_mul_le_mul_right hmul (Nat.pow_pos (by decide))
    obtain ⟨d, hd, hround⟩ := multiple_rounds fits
      (Nat.pow_pos (n := k + 1) (by decide : 0 < 10)) hone hfine
    refine ⟨d, hd, ?_⟩
    rw [ofDecimal_negSucc]
    exact ofUnits_eq_finite fits hround

/-- The shortest decimal of a positive double reads back. -/
theorem shortest_readsBack {units : Nat} (fits : Representable units) (hpos : 0 < units) :
    ofDecimal false (shortest units 17 1).1 (shortest units 17 1).2 =
      .finite false units fits := by
  have hrun : ∀ fuel digits, 0 < fuel → fuel + digits = 18 →
      ofDecimal false (shortest units fuel digits).1 (shortest units fuel digits).2 =
        .finite false units fits := by
    intro fuel
    induction fuel with
    | zero => intro digits hfuel
              omega
    | succ fuel ih =>
        intro digits _ hsum
        rw [shortest]
        cases hat : shortestAt units digits with
        | some found => exact shortestAt_readsBack fits hat
        | none =>
            -- the search has not reached seventeen digits yet
            have hmore : 0 < fuel := by
              by_contra hzero
              have hdigits : digits = 17 := by omega
              have hsome := seventeen_digits fits hpos
              rw [← hdigits, hat] at hsome
              cases hsome
            exact ih (digits + 1) hmore (by omega)
  exact hrun 17 1 (by decide) rfl

/-! ## Reading back what was printed -/

theorem parseUnsigned_digits (neg : Bool) (ds : Str) (hne : ds ≠ [])
    (hdigits : ∀ c ∈ ds, c.isDigit = true) :
    parseUnsigned neg ds = some (ofDecimal neg (Nat.ofDigitChars 10 ds 0) 0) := by
  have htake : ds.takeWhile Char.isDigit = ds := List.takeWhile_eq_self_iff.mpr hdigits
  have hdrop : ds.dropWhile Char.isDigit = [] := List.dropWhile_eq_nil_iff.mpr hdigits
  simp only [parseUnsigned, htake, hdrop, List.append_nil, if_neg hne]
  rfl

theorem parseUnsigned_point (neg : Bool) (whole fraction : Str) (hne : whole ++ fraction ≠ [])
    (hwhole : ∀ c ∈ whole, c.isDigit = true) (hfraction : ∀ c ∈ fraction, c.isDigit = true) :
    parseUnsigned neg (whole ++ '.' :: fraction) =
      some (ofDecimal neg (Nat.ofDigitChars 10 (whole ++ fraction) 0) (0 - fraction.length)) := by
  have hpoint : ∀ c ∈ ('.' :: fraction).head?, Char.isDigit c = false :=
    fun c hc => Option.some.inj hc ▸ rfl
  obtain ⟨htake, hdrop⟩ := span_append hwhole hpoint
  have htake' : fraction.takeWhile Char.isDigit = fraction :=
    List.takeWhile_eq_self_iff.mpr hfraction
  have hdrop' : fraction.dropWhile Char.isDigit = [] := List.dropWhile_eq_nil_iff.mpr hfraction
  simp only [parseUnsigned, htake, hdrop, htake', hdrop', if_neg hne]
  rfl

theorem parseUnsigned_positional (neg : Bool) (mantissa : Nat) (exponent : Int) :
    parseUnsigned neg (positional mantissa exponent) = some (ofDecimal neg mantissa exponent) := by
  have hne := decimal_ne_nil mantissa
  have hdigits : ∀ c ∈ decimal mantissa, c.isDigit = true := fun c => isDigit_of_mem_decimal
  have hvalue := ofDigitChars_decimal mantissa
  have hlen : 0 < (decimal mantissa).length := List.length_pos_of_ne_nil hne
  rw [positional]
  generalize decimal mantissa = ds at *
  have hzeros (n : Nat) : ∀ c ∈ List.replicate n '0', c.isDigit = true := by
    intro c hc
    rw [List.eq_of_mem_replicate hc]
    rfl
  split
  · -- a leading zero, the point and the zeros before the digits
    rename_i hpoint
    have hfraction : ∀ c ∈ List.replicate (-(exponent + ds.length)).toNat '0' ++ ds,
        c.isDigit = true := List.forall_mem_append.mpr ⟨hzeros _, hdigits⟩
    have hparse := parseUnsigned_point neg ['0'] _ (List.cons_ne_nil _ _) (hzeros 1) hfraction
    have hval : Nat.ofDigitChars 10 (['0'] ++ (List.replicate (-(exponent + ds.length)).toNat '0' ++
        ds)) 0 = mantissa := by
      rw [← List.append_assoc, Nat.ofDigitChars_append, Nat.ofDigitChars_append,
        Nat.ofDigitChars_replicate_zero]
      exact hvalue
    have hexp : 0 - (((List.replicate (-(exponent + ds.length)).toNat '0' ++ ds).length : Nat) :
        Int) = exponent := by
      rw [List.length_append, List.length_replicate]
      omega
    rw [hval, hexp] at hparse
    rw [← hparse, List.append_assoc]
    rfl
  · split
    · -- the point among the digits
      rename_i hpoint hlt
      have hparts : ds.take (exponent + ds.length).toNat ++ ds.drop (exponent + ds.length).toNat ≠
          [] := by
        rw [List.take_append_drop]
        exact hne
      have hparse := parseUnsigned_point neg _ _ hparts
        (fun c hc => hdigits c (List.mem_of_mem_take hc))
        (fun c hc => hdigits c (List.mem_of_mem_drop hc))
      have hexp : 0 - ((ds.drop (exponent + ds.length).toNat).length : Int) = exponent := by
        rw [List.length_drop]
        omega
      rw [List.take_append_drop, hvalue, hexp] at hparse
      exact hparse
    · -- a whole number
      rename_i hpoint hge
      have hexp : exponent + ds.length - ds.length = exponent := by omega
      have hwhole : (0 : Int) + exponent.toNat = exponent := by omega
      rw [hexp, parseUnsigned_digits neg (ds ++ List.replicate exponent.toNat '0')
        (List.append_ne_nil_of_left_ne_nil hne _)
        (List.forall_mem_append.mpr ⟨hdigits, hzeros _⟩), Nat.ofDigitChars_append, hvalue,
        Nat.ofDigitChars_replicate_zero, Nat.mul_comm, ofDecimal_shift, hwhole]

theorem positional_head (mantissa : Nat) (exponent : Int) :
    ∃ c cs, positional mantissa exponent = c :: cs ∧ c.isDigit = true := by
  have hdigits : ∀ c ∈ decimal mantissa, c.isDigit = true := fun c => isDigit_of_mem_decimal
  obtain ⟨d, ds, hds⟩ := List.exists_cons_of_ne_nil (decimal_ne_nil mantissa)
  have hd : d.isDigit = true := hdigits d (hds ▸ List.mem_cons_self)
  rw [positional, hds]
  split
  · exact ⟨'0', _, rfl, rfl⟩
  · split
    · rename_i hpoint _
      obtain ⟨n, hn⟩ : ∃ n, (exponent + (d :: ds).length).toNat = n + 1 :=
        ⟨(exponent + (d :: ds).length).toNat - 1, by omega⟩
      rw [hn]
      exact ⟨d, _, rfl, hd⟩
    · exact ⟨d, _, rfl, hd⟩

theorem parse_of_digit {c : Char} {cs : Str} (h : c.isDigit = true) :
    parse (c :: cs) = parseUnsigned false (c :: cs) := by
  have hminus : c ≠ '-' := by
    rintro rfl
    cases h
  have hplus : c ≠ '+' := by
    rintro rfl
    cases h
  rw [parse]
  · intro _ heq
    exact hminus (List.cons.inj heq).1
  · intro _ heq
    exact hplus (List.cons.inj heq).1

theorem parse_decimal (n : Nat) : parse (decimal n) = some (ofDecimal false n 0) := by
  obtain ⟨d, ds, hds⟩ := List.exists_cons_of_ne_nil (decimal_ne_nil n)
  have hdigits : ∀ c ∈ decimal n, c.isDigit = true := fun c => isDigit_of_mem_decimal
  have hread := parseUnsigned_digits false (decimal n) (decimal_ne_nil n) hdigits
  rw [ofDigitChars_decimal] at hread
  rw [← hread, hds]
  exact parse_of_digit (hdigits d (hds ▸ List.mem_cons_self))

theorem parse_neg_decimal (n : Nat) : parse ('-' :: decimal n) = some (ofDecimal true n 0) := by
  have hread := parseUnsigned_digits true (decimal n) (decimal_ne_nil n)
    (fun c => isDigit_of_mem_decimal)
  rw [ofDigitChars_decimal] at hread
  exact hread

theorem ofDecimal_whole (neg : Bool) {n units : Nat} (fits : Representable units)
    (h : n * unitsPerOne = units) : ofDecimal neg n 0 = .finite neg units fits := by
  have hround := roundUnits_self fits Nat.one_pos
  rw [Nat.mul_one] at hround
  have hunits : ofUnits neg units 1 = .finite neg units fits := ofUnits_eq_finite fits hround
  show ofDecimal neg n ((0 : Nat) : Int) = _
  rw [ofDecimal_natCast, Nat.pow_zero, Nat.mul_one, h]
  exact hunits

theorem ofNat_eq_ofDecimal (n : Nat) : ofNat n = ofDecimal false n 0 := by
  show ofNat n = ofDecimal false n ((0 : Nat) : Int)
  rw [ofDecimal_natCast, Nat.pow_zero, Nat.mul_one, ofNat]

/-- A finite double printed is read back as it was. -/
theorem parse_display (neg : Bool) {units : Nat} (fits : Representable units) :
    parse (display (.finite neg units fits)) = some (.finite neg units fits) := by
  rw [display]
  by_cases hzero : units = 0
  · subst hzero
    rw [if_pos rfl]
    cases neg with
    | false =>
        rw [← ofDecimal_whole false fits (Nat.zero_mul _)]
        exact parse_decimal 0
    | true =>
        rw [← ofDecimal_whole true fits (Nat.zero_mul _)]
        exact parse_neg_decimal 0
  · have hback := shortest_readsBack fits (Nat.pos_of_ne_zero hzero)
    rw [if_neg hzero]
    generalize shortest units 17 1 = found at *
    obtain ⟨d, k⟩ := found
    have hread (neg : Bool) : parseUnsigned neg (positional d k) = some (.finite neg units fits) :=
      (parseUnsigned_positional neg d k).trans (congrArg some (ofDecimal_neg hback neg))
    cases neg with
    | true => exact hread true
    | false =>
        obtain ⟨c, cs, hcs, hc⟩ := positional_head d k
        have hfalse := hread false
        rw [hcs, ← parse_of_digit hc, ← hcs] at hfalse
        exact hfalse

example : parse (display (ofNat 15)) = some (ofNat 15) := by decide +kernel

/-! ## The characters of a printed double -/

theorem mem_positional {mantissa : Nat} {exponent : Int} {c : Char}
    (h : c ∈ positional mantissa exponent) : c.isDigit = true ∨ c = '.' := by
  have hdigits : ∀ c ∈ decimal mantissa, c.isDigit = true := fun c => isDigit_of_mem_decimal
  rw [positional] at h
  generalize decimal mantissa = ds at *
  have hzeros {n : Nat} (hc : c ∈ List.replicate n '0') : c.isDigit = true := by
    rw [List.eq_of_mem_replicate hc]
    rfl
  split at h
  · rcases List.mem_append.mp h with h | h
    · rcases List.mem_append.mp h with h | h
      · rcases List.mem_cons.mp h with rfl | h
        · exact .inl rfl
        · exact .inr (List.mem_singleton.mp h)
      · exact .inl (hzeros h)
    · exact .inl (hdigits c h)
  · split at h
    · rcases List.mem_append.mp h with h | h
      · exact .inl (hdigits c (List.mem_of_mem_take h))
      · rcases List.mem_cons.mp h with rfl | h
        · exact .inr rfl
        · exact .inl (hdigits c (List.mem_of_mem_drop h))
    · rcases List.mem_append.mp h with h | h
      · exact .inl (hdigits c h)
      · exact .inl (hzeros h)

/-- A printed finite double is a minus sign or nothing, then digits and a point, a digit first. -/
theorem display_shape (neg : Bool) (units : Nat) (fits : Representable units) :
    ∃ c cs, display (.finite neg units fits) = (if neg then ['-'] else []) ++ c :: cs ∧
      c.isDigit = true ∧ ∀ d ∈ cs, d.isDigit = true ∨ d = '.' := by
  rw [display]
  by_cases hzero : units = 0
  · rw [if_pos hzero]
    refine ⟨'0', [], ?_, rfl, fun _ h => absurd h List.not_mem_nil⟩
    cases neg <;> rfl
  · rw [if_neg hzero]
    generalize shortest units 17 1 = found
    obtain ⟨d, k⟩ := found
    obtain ⟨c, cs, hcs, hc⟩ := positional_head d k
    refine ⟨c, cs, ?_, hc, fun e he => mem_positional (hcs ▸ List.mem_cons_of_mem c he)⟩
    rw [← hcs]
    cases neg <;> rfl

/-! ## Comparison and exact integers -/

def isFinite : F64 → Bool
  | .finite _ _ _ => true
  | .inf _ => false
  | .nan => false

/-- The comparison `==` of doubles: the two zeros are equal, and not-a-number equals nothing. -/
def eq : F64 → F64 → Bool
  | .finite neg units _, .finite neg' units' _ => units = units' && (units = 0 || neg = neg')
  | .inf neg, .inf neg' => neg = neg'
  | _, _ => false

theorem representable_shift {n e : Nat} (h : n < 2 ^ 53) (he : 53 + e ≤ 2098) :
    Representable (n * 2 ^ e) := by
  constructor
  · calc n * 2 ^ e < 2 ^ 53 * 2 ^ e := Nat.mul_lt_mul_of_pos_right h (Nat.two_pow_pos _)
      _ ≤ 2 ^ 2098 := by
        rw [← Nat.pow_add]
        exact Nat.pow_le_pow_right (by decide) he
  · rcases Nat.eq_zero_or_pos n with rfl | hpos
    · rw [Nat.zero_mul]
      exact Nat.dvd_zero _
    · have hlog : (n * 2 ^ e).log2 - 52 ≤ e := by
        have hne : n * 2 ^ e ≠ 0 := Nat.mul_ne_zero hpos.ne' (Nat.two_pow_pos _).ne'
        have hlt : (n * 2 ^ e).log2 < 53 + e := by
          rw [Nat.log2_lt hne, Nat.pow_add]
          exact Nat.mul_lt_mul_of_pos_right h (Nat.two_pow_pos _)
        omega
      exact (Nat.pow_dvd_pow 2 hlog).trans (Nat.dvd_mul_left _ _)

theorem representable_natCast {n : Nat} (h : n < 2 ^ 53) : Representable (n * unitsPerOne) :=
  representable_shift h (by decide)

/-- Below `2 ^ 53` every natural number is a double. -/
theorem ofNat_eq_finite {n : Nat} (h : n < 2 ^ 53) :
    ofNat n = .finite false (n * unitsPerOne) (representable_natCast h) := by
  have hround := roundUnits_self (representable_natCast h) Nat.one_pos
  rw [Nat.mul_one] at hround
  exact ofUnits_eq_finite _ hround

/-! ## Large integers -/

/-- A rounded ratio has at most 53 bits, or is the power of two above them. -/
theorem roundUnits_form (num den : Nat) :
    ∃ m ≤ 2 ^ 53, roundUnits num den = m * 2 ^ ((num / den).log2 - 52) := by
  simp only [roundUnits]
  generalize hdrop : (num / den).log2 - 52 = drop
  refine ⟨_, ?_, rfl⟩
  have hlt : num / (den * 2 ^ drop) < 2 ^ 53 := by
    rw [← Nat.div_div_eq_div_mul, Nat.div_lt_iff_lt_mul (Nat.two_pow_pos drop), ← Nat.pow_add]
    calc num / den < 2 ^ ((num / den).log2 + 1) := Nat.lt_log2_self
      _ ≤ 2 ^ (53 + drop) := Nat.pow_le_pow_right (by decide) (by omega)
  split
  · omega
  · split
    · omega
    · have hpar := Nat.mod_two_eq_zero_or_one (num / (den * 2 ^ drop))
      omega

theorem log2_mul_two_pow {n e : Nat} (hn : n ≠ 0) : (n * 2 ^ e).log2 = n.log2 + e := by
  rw [Nat.log2_eq_iff (Nat.mul_ne_zero hn (Nat.two_pow_pos e).ne')]
  constructor
  · rw [Nat.pow_add]
    exact Nat.mul_le_mul_right _ (Nat.log2_self_le hn)
  · rw [show n.log2 + e + 1 = n.log2 + 1 + e by omega, Nat.pow_add]
    exact Nat.mul_lt_mul_of_pos_right Nat.lt_log2_self (Nat.two_pow_pos e)

theorem representable_rounded {m e : Nat} (hm : m ≤ 2 ^ 53) (he : 106 + e ≤ 2098) :
    Representable (m * 2 ^ e) := by
  by_cases hlt : m < 2 ^ 53
  · exact representable_shift hlt (by omega)
  · have htop : m * 2 ^ e = 1 * 2 ^ (53 + e) := by
      rw [Nat.le_antisymm hm (Nat.le_of_not_lt hlt), ← Nat.pow_add, Nat.one_mul]
    rw [htop]
    exact representable_shift (by decide) (by omega)

theorem roundUnits_whole {n e : Nat} (hlow : 2 ^ 53 ≤ n) (h : n < 2 ^ 64) (he : 117 + e ≤ 2098) :
    ∃ q ≤ 2 ^ 64, Representable (q * 2 ^ e) ∧ roundUnits (n * 2 ^ e) 1 = q * 2 ^ e := by
  have hne : n ≠ 0 := by omega
  have hlog : 53 ≤ n.log2 ∧ n.log2 < 64 :=
    ⟨(Nat.le_log2 hne).mpr hlow, (Nat.log2_lt hne).mpr h⟩
  obtain ⟨m, hm, hform⟩ := roundUnits_form (n * 2 ^ e) 1
  have hdrop : (n * 2 ^ e / 1).log2 - 52 = n.log2 - 52 + e := by
    rw [Nat.div_one, log2_mul_two_pow hne]
    omega
  rw [hdrop] at hform
  have hsplit : m * 2 ^ (n.log2 - 52 + e) = m * 2 ^ (n.log2 - 52) * 2 ^ e := by
    rw [Nat.pow_add, Nat.mul_assoc]
  refine ⟨m * 2 ^ (n.log2 - 52), ?_, ?_, ?_⟩
  · calc m * 2 ^ (n.log2 - 52) ≤ 2 ^ 53 * 2 ^ 11 :=
        Nat.mul_le_mul hm (Nat.pow_le_pow_right (by decide) (by omega))
      _ = 2 ^ 64 := by rw [← Nat.pow_add]
  · rw [← hsplit]
    exact representable_rounded hm (by omega)
  · rw [hform, hsplit]

/-- A `u64` as a double is a whole number no larger than `2 ^ 64`. -/
theorem ofNat_whole {n : Nat} (h : n < 2 ^ 64) :
    ∃ q ≤ 2 ^ 64, ∃ fits, ofNat n = .finite false (q * unitsPerOne) fits := by
  by_cases hsmall : n < 2 ^ 53
  · exact ⟨n, by omega, _, ofNat_eq_finite hsmall⟩
  · obtain ⟨q, hq, hfits, hround⟩ : ∃ q ≤ 2 ^ 64, Representable (q * unitsPerOne) ∧
        roundUnits (n * unitsPerOne) 1 = q * unitsPerOne :=
      roundUnits_whole (Nat.le_of_not_lt hsmall) h (by decide)
    exact ⟨q, hq, hfits, ofUnits_eq_finite hfits hround⟩

/-- The integer read off a whole double. -/
theorem toInt?_whole {q : Nat} (fits : Representable (q * unitsPerOne)) :
    toInt? (.finite false (q * unitsPerOne) fits) = some (q : Int) := by
  have hone := unitsPerOne_pos
  rw [toInt?]
  generalize unitsPerOne = one at *
  rw [if_pos (Nat.mul_mod_left q one), Nat.mul_div_cancel q hone]
  rfl

end F64

end GaussMatrix.Library
