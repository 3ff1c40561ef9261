import GaussMatrix.Library.Digits
import GaussMatrix.Library.MerkleDamgard
import GaussMatrix.Util.Sha512

/-!
# SHA-256 and what the digests bind

The digest of the event ids, over 32-bit words.  No digest of unbounded texts is injective; what holds of
SHA-256 and SHA-512 is that texts with one digest lead to two blocks that collide.
-/

namespace GaussMatrix.Util

open Library Curve25519

/-! ## SHA-256 -/

def sha256K : Array UInt32 :=
  #[
    0x428a2f98, 0x71374491, 0xb5c0fbcf, 0xe9b5dba5, 0x3956c25b, 0x59f111f1, 0x923f82a4,
    0xab1c5ed5, 0xd807aa98, 0x12835b01, 0x243185be, 0x550c7dc3, 0x72be5d74, 0x80deb1fe,
    0x9bdc06a7, 0xc19bf174, 0xe49b69c1, 0xefbe4786, 0x0fc19dc6, 0x240ca1cc, 0x2de92c6f,
    0x4a7484aa, 0x5cb0a9dc, 0x76f988da, 0x983e5152, 0xa831c66d, 0xb00327c8, 0xbf597fc7,
    0xc6e00bf3, 0xd5a79147, 0x06ca6351, 0x14292967, 0x27b70a85, 0x2e1b2138, 0x4d2c6dfc,
    0x53380d13, 0x650a7354, 0x766a0abb, 0x81c2c92e, 0x92722c85, 0xa2bfe8a1, 0xa81a664b,
    0xc24b8b70, 0xc76c51a3, 0xd192e819, 0xd6990624, 0xf40e3585, 0x106aa070, 0x19a4c116,
    0x1e376c08, 0x2748774c, 0x34b0bcb5, 0x391c0cb3, 0x4ed8aa4a, 0x5b9cca4f, 0x682e6ff3,
    0x748f82ee, 0x78a5636f, 0x84c87814, 0x8cc70208, 0x90befffa, 0xa4506ceb, 0xbef9a3f7,
    0xc67178f2]

/-- The initial hash. -/
def sha256Init : List.Vector UInt32 8 :=
  ⟨[0x6a09e667, 0xbb67ae85, 0x3c6ef372, 0xa54ff53a, 0x510e527f, 0x9b05688c, 0x1f83d9ab,
    0x5be0cd19], rfl⟩

def rotateRight32 (x n : UInt32) : UInt32 := (x >>> n) ||| (x <<< (32 - n))

def toBeBytes32 (word : UInt32) : List UInt8 :=
  ((List.range 4).map fun i => UInt8.ofNat (word.toNat / 256 ^ i)).reverse

def fromBeBytes32 (b : List UInt8) : UInt32 := UInt32.ofNat (bytesValue b.reverse)

/-- The length in bits, modulo `2 ^ 64`. -/
def bitLen64 (length : Nat) : UInt64 := UInt64.ofNat length * 8

/-- The message, a `0x80` byte, zeros up to 56 modulo 64 and the number of bits in 8 bytes. -/
def sha256Padding : Padding UInt8 where
  mark := 0x80
  filler := 0
  fill := fun length => (120 - (length + 1) % 64) % 64
  count := fun length =>
    ((List.range 8).map fun i => UInt8.ofNat ((bitLen64 length).toNat / 256 ^ i)).reverse
  width := 8
  width_count := fun _ => by simp

/-- The 64 words of a block. -/
def sha256Schedule (block : List UInt8) : Array UInt32 :=
  let words := (List.range 16).map fun i => fromBeBytes32 ((block.drop (i * 4)).take 4)
  (List.range' 16 48).foldl
    (fun w i =>
      let w15 := w.getD (i - 15) 0
      let w2 := w.getD (i - 2) 0
      let s0 := rotateRight32 w15 7 ^^^ rotateRight32 w15 18 ^^^ (w15 >>> 3)
      let s1 := rotateRight32 w2 17 ^^^ rotateRight32 w2 19 ^^^ (w2 >>> 10)
      w.push (w.getD (i - 16) 0 + s0 + w.getD (i - 7) 0 + s1))
    words.toArray

/-- The eight working variables. -/
structure Sha256Vars where
  a : UInt32
  b : UInt32
  c : UInt32
  d : UInt32
  e : UInt32
  f : UInt32
  g : UInt32
  hh : UInt32

def sha256Round (w : Array UInt32) (v : Sha256Vars) (i : Nat) : Sha256Vars :=
  let s1 := rotateRight32 v.e 6 ^^^ rotateRight32 v.e 11 ^^^ rotateRight32 v.e 25
  let ch := (v.e &&& v.f) ^^^ (~~~v.e &&& v.g)
  let t1 := v.hh + s1 + ch + sha256K.getD i 0 + w.getD i 0
  let s0 := rotateRight32 v.a 2 ^^^ rotateRight32 v.a 13 ^^^ rotateRight32 v.a 22
  let maj := (v.a &&& v.b) ^^^ (v.a &&& v.c) ^^^ (v.b &&& v.c)
  let t2 := s0 + maj
  { a := t1 + t2, b := v.a, c := v.b, d := v.c, e := v.d + t1, f := v.e, g := v.f, hh := v.g }

/-- The hash after a block. -/
def sha256Block (h : List.Vector UInt32 8) (block : List UInt8) : List.Vector UInt32 8 :=
  let start : Sha256Vars :=
    { a := h.get 0, b := h.get 1, c := h.get 2, d := h.get 3, e := h.get 4, f := h.get 5,
      g := h.get 6, hh := h.get 7 }
  let v := (List.range 64).foldl (sha256Round (sha256Schedule block)) start
  ⟨[h.get 0 + v.a, h.get 1 + v.b, h.get 2 + v.c, h.get 3 + v.d, h.get 4 + v.e, h.get 5 + v.f,
    h.get 6 + v.g, h.get 7 + v.hh], rfl⟩

/-- The blocks that are hashed for a message. -/
def sha256Blocks (msg : List UInt8) : List (List UInt8) := blocksOf 64 (sha256Padding.pad msg)

def sha256 (msg : List UInt8) : List.Vector UInt8 32 :=
  let h := run sha256Block sha256Init (sha256Blocks msg)
  ⟨h.toList.flatMap toBeBytes32, by simp [List.length_flatMap, toBeBytes32]⟩

/-! ## Numbers and words in bytes -/

theorem leBytes_inj {k a b : Nat} (ha : a < 256 ^ k) (hb : b < 256 ^ k)
    (h : ((List.range k).map fun i => UInt8.ofNat (a / 256 ^ i)) =
      (List.range k).map fun i => UInt8.ofNat (b / 256 ^ i)) : a = b := by
  have hdigits : ∀ n : Nat, ((List.range k).map fun i => UInt8.ofNat (n / 256 ^ i)).map UInt8.toNat =
      lowDigits 256 k n := by
    intro n
    rw [lowDigits, List.map_map]
    exact List.map_congr_left fun i _ => UInt8.toNat_ofNat'
  have hlow := congrArg (List.map UInt8.toNat) h
  rw [hdigits, hdigits] at hlow
  have hvalue := congrArg (Nat.ofDigits 256) hlow
  rwa [ofDigits_lowDigits, ofDigits_lowDigits, Nat.mod_eq_of_lt ha, Nat.mod_eq_of_lt hb] at hvalue

/-- Words that are written out in a fixed number of bytes each are read off the whole. -/
theorem flatMap_words_inj {α β : Type} {f : α → List β} {n : Nat} (hlen : ∀ a, (f a).length = n)
    (hinj : Function.Injective f) {xs ys : List α} (hsize : xs.length = ys.length)
    (h : xs.flatMap f = ys.flatMap f) : xs = ys := by
  induction xs, ys, hsize using sameLength_induction with
  | nil => rfl
  | cons x xs y ys hsize ih =>
      rw [List.flatMap_cons, List.flatMap_cons] at h
      have hfirst : (f x).length = (f y).length := by rw [hlen, hlen]
      obtain ⟨hword, hrest⟩ := List.append_inj h hfirst
      rw [hinj hword, ih hrest]

theorem toBeBytes32_injective : Function.Injective toBeBytes32 := by
  intro a b h
  exact UInt32.toNat_inj.mp (leBytes_inj a.toNat_lt b.toNat_lt (List.reverse_injective h))

theorem toBeBytes_injective : Function.Injective toBeBytes := by
  intro a b h
  exact UInt64.toNat_inj.mp (leBytes_inj a.toNat_lt b.toNat_lt (List.reverse_injective h))

/-! ## What a digest binds -/

theorem sha256_state {msg msg' : List UInt8} (h : sha256 msg = sha256 msg') :
    run sha256Block sha256Init (sha256Blocks msg) = run sha256Block sha256Init (sha256Blocks msg') := by
  have hlen : ∀ word, (toBeBytes32 word).length = 4 := by simp [toBeBytes32]
  apply List.Vector.toList_injective
  apply flatMap_words_inj hlen toBeBytes32_injective
  · rw [List.Vector.toList_length, List.Vector.toList_length]
  · exact congrArg List.Vector.toList h

theorem dvd_sha256Padding (msg : List UInt8) : 64 ∣ (sha256Padding.pad msg).length := by
  simp only [Padding.pad, sha256Padding, List.length_append, List.length_cons, List.length_replicate,
    List.length_reverse, List.length_map, List.length_range]
  omega

theorem bitLen64_toNat {length : Nat} (h : length < 2 ^ 61) : (bitLen64 length).toNat = length * 8 := by
  rw [bitLen64, UInt64.toNat_mul, UInt64.toNat_ofNat']
  show length % 2 ^ 64 * 8 % 2 ^ 64 = _
  omega

theorem sha256_count_inj : Set.InjOn sha256Padding.count {n | n < 2 ^ 61} := by
  intro m hm n hn h
  have hbits := leBytes_inj (k := 8) (UInt64.toNat_lt _) (UInt64.toNat_lt _) (List.reverse_injective h)
  rw [bitLen64_toNat hm, bitLen64_toNat hn] at hbits
  omega

/-- The padding of SHA-512. -/
def sha512Padding : Padding UInt8 where
  mark := 0x80
  filler := 0
  fill := fun length => (240 - (length + 1) % 128) % 128
  count := fun length => ((List.range 16).map fun i => UInt8.ofNat (length * 8 / 256 ^ i)).reverse
  width := 16
  width_count := fun _ => by simp

def sha512Blocks (msg : List UInt8) : List (List UInt8) := blocksOf 128 (sha512Padding.pad msg)

theorem sha512_toList (msg : List UInt8) :
    (sha512 msg).toList = (run sha512Block sha512Init (sha512Blocks msg)).toList.flatMap toBeBytes :=
  rfl

theorem sha512_state {msg msg' : List UInt8} (h : sha512 msg = sha512 msg') :
    run sha512Block sha512Init (sha512Blocks msg) = run sha512Block sha512Init (sha512Blocks msg') := by
  have hlen : ∀ word, (toBeBytes word).length = 8 := by simp [toBeBytes, toLeBytes]
  apply List.Vector.toList_injective
  apply flatMap_words_inj hlen toBeBytes_injective
  · rw [List.Vector.toList_length, List.Vector.toList_length]
  · rw [← sha512_toList, ← sha512_toList, h]

theorem dvd_sha512Padding (msg : List UInt8) : 128 ∣ (sha512Padding.pad msg).length := by
  simp only [Padding.pad, sha512Padding, List.length_append, List.length_cons, List.length_replicate,
    List.length_reverse, List.length_map, List.length_range]
  omega

theorem sha512_count_inj : Set.InjOn sha512Padding.count {n | n < 2 ^ 61} := by
  intro m hm n hn h
  have hbound : ∀ {n : Nat}, n < 2 ^ 61 → n * 8 < 256 ^ 16 := by
    intro n hn
    omega
  have hbits := leBytes_inj (hbound hm) (hbound hn) (List.reverse_injective h)
  omega

/-- Two messages with one SHA-256 digest are the same, or hashing them comes to two different blocks
that lead to one state; and so for SHA-512. -/
theorem digests_bind {msg msg' : List UInt8} (h : msg.length < 2 ^ 61) (h' : msg'.length < 2 ^ 61) :
    (sha256 msg = sha256 msg' →
      msg = msg' ∨ Collides sha256Block sha256Init (sha256Blocks msg) (sha256Blocks msg')) ∧
    (sha512 msg = sha512 msg' →
      msg = msg' ∨ Collides sha512Block sha512Init (sha512Blocks msg) (sha512Blocks msg')) := by
  constructor
  · intro hsame
    exact sha256Padding.eq_or_collides dvd_sha256Padding sha256_count_inj h h' (sha256_state hsame)
  · intro hsame
    exact sha512Padding.eq_or_collides dvd_sha512Padding sha512_count_inj h h' (sha512_state hsame)

theorem digests_bind_abc :
    (sha256 [97, 98, 99] = sha256 [97, 98, 99] → ([97, 98, 99] : List UInt8) = [97, 98, 99] ∨
      Collides sha256Block sha256Init (sha256Blocks [97, 98, 99]) (sha256Blocks [97, 98, 99])) ∧
    (sha512 [97, 98, 99] = sha512 [97, 98, 99] → ([97, 98, 99] : List UInt8) = [97, 98, 99] ∨
      Collides sha512Block sha512Init (sha512Blocks [97, 98, 99]) (sha512Blocks [97, 98, 99])) :=
  digests_bind (by decide) (by decide)

end GaussMatrix.Util
