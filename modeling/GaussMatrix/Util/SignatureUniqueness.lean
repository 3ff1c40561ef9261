import GaussMatrix.Util.Ed25519
import Mathlib.GroupTheory.OrderOfElement

/-!
# One signature for a nonce

The base point has a prime order, and a signature scalar is accepted in its least residue only.  So for
a public key, a message and a nonce point there is one scalar at most that passes.
-/

namespace GaussMatrix.Util.Curve25519

open Library

/-! ## The order is prime -/

def orderPrimes : List Nat :=
  [2, 3, 5, 7, 11, 23, 41, 43, 73, 269, 307, 1361, 2851, 5879, 30703, 82163, 132667,
    137849, 531581, 1224481, 58964693]

/-- Tests that end at the order; the primes of each are small or tested before it. -/
def orderTests : List PrimeTest :=
  [⟨292386187, 2, [2, 3, 3, 3, 3, 307, 5879]⟩,
    ⟨213441916511, 13, [292386187, 2, 5, 73]⟩,
    ⟨1257559732178653, 2, [2, 2, 3, 7, 23, 531581, 1224481]⟩,
    ⟨4434155615661930479, 17, [1257559732178653, 2, 41, 43]⟩,
    ⟨172054593956031949258510691, 2, [4434155615661930479, 2, 5, 1361, 2851]⟩,
    ⟨19757330305831588566944191468367130476339, 2,
      [213441916511, 172054593956031949258510691, 2, 269]⟩,
    ⟨276602624281642239937218680557139826668747, 2,
      [19757330305831588566944191468367130476339, 2, 7]⟩,
    ⟨3044861653679985063343, 5, [2, 3, 11, 30703, 82163, 132667, 137849]⟩,
    ⟨198211423230930754013084525763697, 5,
      [3044861653679985063343, 2, 2, 2, 2, 3, 23, 58964693]⟩,
    ⟨order, 2, [198211423230930754013084525763697, 276602624281642239937218680557139826668747,
      2, 2, 3, 11]⟩]

theorem prime_order : order.Prime := by
  have hsmall : ∀ q ∈ orderPrimes, Nat.Prime q := by norm_num [orderPrimes]
  have htests : Certified 256 orderPrimes orderTests := by decide +kernel
  exact prime_of_certified htests hsmall _ (List.getLast_mem (List.cons_ne_nil _ _))

/-! ## Multiples of the base point -/

theorem basePoint_ne_zero : basePoint ≠ 0 := by
  intro h
  have hy : ((baseY : Nat) : Fp) = ((1 : Nat) : Fp) := by
    rw [Nat.cast_one]
    exact congrArg EdwardsCurve.Point.y h
  rw [ZMod.natCast_eq_natCast_iff'] at hy
  exact absurd hy (by decide +kernel)

theorem addOrderOf_basePoint : addOrderOf basePoint = order := by
  have : Fact order.Prime := ⟨prime_order⟩
  exact addOrderOf_eq_prime order_nsmul_basePoint basePoint_ne_zero

/-- Scalars below the order are told apart by their multiples of the base point. -/
theorem nsmul_basePoint_inj {m n : Nat} (hm : m < order) (hn : n < order)
    (h : m • basePoint = n • basePoint) : m = n := by
  have hmod := nsmul_eq_nsmul_iff_modEq.mp h
  rw [addOrderOf_basePoint] at hmod
  exact Nat.ModEq.eq_of_lt_of_lt hmod hm hn

/-! ## Points and their bytes -/

theorem eq_of_extended {C : Extended Fp} {A B : edwards25519.Point} (hA : C.Represents A)
    (hB : C.Represents B) : A = B := by
  apply EdwardsCurve.Point.ext
  · exact mul_right_cancel₀ hA.z_ne (hA.x_eq.symm.trans hB.x_eq)
  · exact mul_right_cancel₀ hA.z_ne (hA.y_eq.symm.trans hB.y_eq)

theorem Point.eq_of_represents {Q : Point} {A B : edwards25519.Point} (hA : Q.Represents A)
    (hB : Q.Represents B) : A = B := by
  obtain ⟨C, hC, hCA⟩ := hA
  obtain ⟨D, hD, hDB⟩ := hB
  have hsame : C = D := by
    cases C
    cases D
    rw [Extended.mk.injEq]
    exact ⟨hC.x.cast.symm.trans hD.x.cast, hC.y.cast.symm.trans hD.y.cast,
      hC.z.cast.symm.trans hD.z.cast, hC.t.cast.symm.trans hD.t.cast⟩
  exact eq_of_extended hCA (hsame ▸ hDB)

/-- The bytes of a point of the curve are those of no other. -/
theorem Point.eq_of_encode {Q R : Point} {A B : edwards25519.Point} (hQ : Q.Represents A)
    (hR : R.Represents B) (h : Q.encode = R.encode) : A = B := by
  obtain ⟨S, hS, hSA⟩ := Point.decode_encode hQ
  obtain ⟨T, hT, hTB⟩ := Point.decode_encode hR
  rw [h, hT] at hS
  obtain rfl := Option.some.inj hS
  exact Point.eq_of_represents hSA hTB

/-! ## Accepted scalars -/

/-- An accepted scalar is reduced, and its multiple of the base point has the bytes that the key, the
nonce point and the message ask for. -/
theorem exists_encode_of_verify (publicEnc : List.Vector UInt8 32) (msg : List UInt8)
    (rEnc : List.Vector UInt8 32) : ∃ asked : List.Vector UInt8 32, ∀ s,
      verify publicEnc msg (ofHalves rEnc s) = true →
        bytesValue s.toList < order ∧ (Point.base.scalarMul s).encode = asked := by
  simp only [verify, lowerHalf_ofHalves, upperHalf_ofHalves]
  cases decode publicEnc with
  | none => exact ⟨rEnc, by simp⟩
  | some aPoint =>
      cases decode rEnc with
      | none => exact ⟨rEnc, by simp⟩
      | some rPoint =>
          refine ⟨(rPoint.add (aPoint.scalarMul (reduceScalarWide
            (sha512 (rEnc.toList ++ publicEnc.toList ++ msg))))).encode, ?_⟩
          intro s h
          split at h
          · rename_i hcanonical
            exact ⟨(scalarIsCanonical_iff s).mp hcanonical, beq_iff_eq.mp h⟩
          · cases h

theorem accepted_unique {publicEnc : List.Vector UInt8 32} {msg : List UInt8}
    {rEnc s s' : List.Vector UInt8 32} (h : verify publicEnc msg (ofHalves rEnc s) = true)
    (h' : verify publicEnc msg (ofHalves rEnc s') = true) : s = s' := by
  obtain ⟨asked, hasked⟩ := exists_encode_of_verify publicEnc msg rEnc
  obtain ⟨hs, hencode⟩ := hasked s h
  obtain ⟨hs', hencode'⟩ := hasked s' h'
  have hpoint : bytesValue s.toList • basePoint = bytesValue s'.toList • basePoint :=
    Point.eq_of_encode (Point.scalarMul_represents Point.base_represents s)
      (Point.scalarMul_represents Point.base_represents s') (hencode.trans hencode'.symm)
  have hlen : s.toList.length = s'.toList.length := by
    rw [s.toList_length, s'.toList_length]
  exact Subtype.ext (bytesValue_inj hlen (nsmul_basePoint_inj hs hs' hpoint))

/-- Whatever the public key, the message and the nonce point, one scalar at most is accepted; and for
the public key of a secret scalar and a reduced nonce it is the one that the signer computes. -/
theorem one_scalar_accepted :
    (∀ publicEnc msg rEnc,
      {s | verify publicEnc msg (ofHalves rEnc s) = true}.Subsingleton) ∧
    ∀ (a : List.Vector UInt8 32) (wide : List.Vector UInt8 64) (msg : List UInt8)
      (s : List.Vector UInt8 32),
      let r := reduceScalarWide wide
      let publicEnc := (Point.base.scalarMul a).encode
      let rPoint := (Point.base.scalarMul r).encode
      let k := reduceScalarWide (sha512 (rPoint.toList ++ publicEnc.toList ++ msg))
      verify publicEnc msg (ofHalves rPoint s) = true ↔ s = scalarMuladd k a r := by
  constructor
  · intro publicEnc msg rEnc s hs s' hs'
    exact accepted_unique hs hs'
  · intro a wide msg s r publicEnc rPoint k
    have hsigned : verify publicEnc msg (ofHalves rPoint (scalarMuladd k a r)) = true :=
      verify_scalars a (reduceScalarWide_lt wide) msg
    constructor
    · intro h
      exact accepted_unique h hsigned
    · rintro rfl
      exact hsigned

end GaussMatrix.Util.Curve25519
