import GaussMatrix.Util.Base64
import GaussMatrix.Util.Scalar25519
import GaussMatrix.Util.Sha512

/-!
# Ed25519

Public keys, signatures and their verification, and that what is signed verifies.
-/

namespace GaussMatrix.Util.Curve25519

/-! ## The code -/

def lowerHalf (h : List.Vector UInt8 64) : List.Vector UInt8 32 := ⟨h.toList.take 32, by simp⟩

def upperHalf (h : List.Vector UInt8 64) : List.Vector UInt8 32 := ⟨h.toList.drop 32, by simp⟩

def ofHalves (lower upper : List.Vector UInt8 32) : List.Vector UInt8 64 :=
  ⟨lower.toList ++ upper.toList, by simp⟩

/-- Clear the three low bits and the top one, and set the one below it. -/
def clamp (a : List.Vector UInt8 32) : List.Vector UInt8 32 :=
  let a := a.set 0 (a.get 0 &&& 248)
  let a := a.set 31 (a.get 31 &&& 127)
  a.set 31 (a.get 31 ||| 64)

def publicKey (seed : List.Vector UInt8 32) : List.Vector UInt8 32 :=
  let a := clamp (lowerHalf (sha512 seed.toList))
  (Point.base.scalarMul a).encode

def sign (seed : List.Vector UInt8 32) (msg : List UInt8) : List.Vector UInt8 64 :=
  let h := sha512 seed.toList
  let a := clamp (lowerHalf h)
  let publicEnc := (Point.base.scalarMul a).encode
  -- r = SHA-512 of the upper half and the message
  let r := reduceScalarWide (sha512 ((upperHalf h).toList ++ msg))
  let rPoint := (Point.base.scalarMul r).encode
  -- k = SHA-512 of R, A and the message
  let k := reduceScalarWide (sha512 (rPoint.toList ++ publicEnc.toList ++ msg))
  -- S = r + k a
  let s := scalarMuladd k a r
  ofHalves rPoint s

def verify (publicEnc : List.Vector UInt8 32) (msg : List UInt8)
    (sig : List.Vector UInt8 64) : Bool :=
  let rEnc := lowerHalf sig
  let s := upperHalf sig
  -- S must be reduced modulo the order.
  if scalarIsCanonical s then
    match decode publicEnc, decode rEnc with
    | some aPoint, some rPoint =>
        let k := reduceScalarWide (sha512 (rEnc.toList ++ publicEnc.toList ++ msg))
        -- S B = R + k A
        let lhs := Point.base.scalarMul s
        let rhs := rPoint.add (aPoint.scalarMul k)
        lhs.encode == rhs.encode
    | _, _ => false
  else false

/-! ## Completeness -/

theorem lowerHalf_ofHalves (a b : List.Vector UInt8 32) : lowerHalf (ofHalves a b) = a :=
  Subtype.ext (List.take_left' a.toList_length)

theorem upperHalf_ofHalves (a b : List.Vector UInt8 32) : upperHalf (ofHalves a b) = b :=
  Subtype.ext (List.drop_left' a.toList_length)

/-- The equation that is checked, for scalars that solve it modulo the order. -/
theorem check_equation {a k r s : Nat} (hs : s = (k * a + r) % order) :
    s • basePoint = r • basePoint + k • (a • basePoint) := by
  rw [hs, mod_order_nsmul, add_nsmul, add_comm, mul_nsmul']

/-- What passes the check: two decoded points and a scalar that solve its equation. -/
theorem verify_of_equation {publicEnc rEnc s : List.Vector UInt8 32} {msg : List UInt8}
    {aPoint rPoint : Point} {A R : edwards25519.Point} (hcanonical : scalarIsCanonical s = true)
    (ha : decode publicEnc = some aPoint) (haRep : aPoint.Represents A)
    (hr : decode rEnc = some rPoint) (hrRep : rPoint.Represents R)
    (hequation : bytesValue s.toList • basePoint = R +
      bytesValue (reduceScalarWide (sha512 (rEnc.toList ++ publicEnc.toList ++ msg))).toList • A) :
    verify publicEnc msg (ofHalves rEnc s) = true := by
  have hlhs := Point.scalarMul_represents Point.base_represents s
  rw [hequation] at hlhs
  have hrhs := Point.add_represents hrRep (Point.scalarMul_represents haRep
    (reduceScalarWide (sha512 (rEnc.toList ++ publicEnc.toList ++ msg))))
  simp only [verify, lowerHalf_ofHalves, upperHalf_ofHalves, hcanonical, ha, hr, if_true]
  rw [beq_iff_eq]
  exact Point.encode_congr hlhs hrhs

/-- Any secret scalar and any nonce below the order make signatures that verify. -/
theorem verify_scalars (a : List.Vector UInt8 32) {r : List.Vector UInt8 32}
    (hr : bytesValue r.toList < order) (msg : List UInt8) :
    let publicEnc := (Point.base.scalarMul a).encode
    let rPoint := (Point.base.scalarMul r).encode
    let k := reduceScalarWide (sha512 (rPoint.toList ++ publicEnc.toList ++ msg))
    verify publicEnc msg (ofHalves rPoint (scalarMuladd k a r)) = true := by
  intro publicEnc rPoint k
  have hs := scalarMuladd_value k a hr
  obtain ⟨_, ha, haRep⟩ := Point.decode_encode (Point.scalarMul_represents Point.base_represents a)
  obtain ⟨_, hrdec, hrRep⟩ :=
    Point.decode_encode (Point.scalarMul_represents Point.base_represents r)
  have hcanonical : scalarIsCanonical (scalarMuladd k a r) = true := by
    rw [scalarIsCanonical_iff, hs]
    exact Nat.mod_lt _ (by decide)
  exact verify_of_equation hcanonical ha haRep hrdec hrRep (check_equation hs)

theorem reduceScalarWide_lt (bytes : List.Vector UInt8 64) :
    bytesValue (reduceScalarWide bytes).toList < order := by
  rw [reduceScalarWide_value]
  exact Nat.mod_lt _ (by decide)

theorem verify_sign (seed : List.Vector UInt8 32) (msg : List UInt8) :
    verify (publicKey seed) msg (sign seed msg) = true :=
  verify_scalars (clamp (lowerHalf (sha512 seed.toList))) (reduceScalarWide_lt _) msg

/-! ## The scheme -/

/-- The signature scheme of the code. -/
def ed25519 : Ed25519 where
  publicKey := publicKey
  sign := sign
  verify := verify

theorem ed25519_complete : ed25519.Complete := by
  intro seed msg
  simp only [ed25519]
  exact verify_scalars (clamp (lowerHalf (sha512 seed.toList))) (reduceScalarWide_lt _) msg

/-- On base64 texts, what a seed signs verifies under its public key. -/
theorem ed25519_verifyB64 {seedB64 publicB64 : Library.Str}
    (h : ed25519.publicKeyB64 seedB64 = some publicB64) (msg : List UInt8) :
    ed25519.verifyB64 msg (ed25519.signB64 msg seedB64) publicB64 = true :=
  Ed25519.verifyB64_signB64 ed25519_complete h msg

end GaussMatrix.Util.Curve25519
