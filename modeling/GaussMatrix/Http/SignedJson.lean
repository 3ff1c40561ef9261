import GaussMatrix.Api.JsonObject
import GaussMatrix.Api.JsonRoundTrip
import GaussMatrix.Library.Text
import GaussMatrix.Util.Base64

/-!
# Signed JSON

A signature is taken over the text of an object without its signatures.  An object that was read from
a request is stored as text and read again, which may change its numbers; its text stays, and with it
what its signatures are worth.
-/

namespace GaussMatrix.Http

open Library Util Api

/-! ## Signatures -/

/-- What stands at a signer and a key id among the signatures of an object. -/
def signatureAt (obj : Json) (signer keyId : Str) : Option Json :=
  ((obj.get "signatures").bind fun s => s.get signer).bind fun k => k.get keyId

def hasSignature (obj : Json) (signer keyId : Str) : Bool := (signatureAt obj signer keyId).isSome

/-- The object that is signed. -/
def unsignedJson : Json → Json
  | .object fields => .object (SortedList.erase "unsigned" (SortedList.erase "signatures" fields))
  | obj => obj

/-- Whether the signature of an object verifies under a public key. -/
def signedJsonVerifies (ed : Ed25519) (obj : Json) (signer keyId publicKey : Str) : Bool :=
  match (signatureAt obj signer keyId).bind Json.asStr with
  | none => false
  | some sig => ed.verifyB64 (utf8Bytes (unsignedJson obj).write) sig publicKey

/-- The public key that a cross-signing key advertises: the first entry of its keys for Ed25519. -/
def crossSigningPublic (key : Json) : Option Str :=
  ((key.get "keys").bind Json.asObject).bind fun keys =>
    (keys.find? fun e => startsWith "ed25519:" e.1).bind fun e => e.2.asStr

/-! ## Written and read again -/

section

variable {obj v w : Json} {signer keyId publicKey k : Str} {body : Str}

theorem asStr_written (v : Json) : v.written.asStr = v.asStr := by
  cases v <;> rfl

theorem writtenFields_eq_map (fields : List (Str × Json)) :
    Json.writtenFields fields = fields.map fun f => (f.1, f.2.written) := by
  induction fields with
  | nil => rfl
  | cons f fields ih =>
      obtain ⟨k, v⟩ := f
      rw [Json.writtenFields, ih, List.map_cons]

theorem signatureAt_written (obj : Json) (signer keyId : Str) :
    signatureAt obj.written signer keyId = (signatureAt obj signer keyId).map Json.written := by
  rw [signatureAt, signatureAt, Json.get_written]
  cases obj.get "signatures" with
  | none => rfl
  | some s =>
      simp only [Option.map_some, Option.bind_some, Json.get_written]
      cases s.get signer with
      | none => rfl
      | some k => simp only [Option.map_some, Option.bind_some, Json.get_written]

@[simp] theorem hasSignature_written (obj : Json) (signer keyId : Str) :
    hasSignature obj.written signer keyId = hasSignature obj signer keyId := by
  rw [hasSignature, signatureAt_written, Option.isSome_map, hasSignature]

theorem unsignedJson_written (obj : Json) :
    unsignedJson obj.written = (unsignedJson obj).written := by
  cases obj with
  | object fields =>
      show Json.object (SortedList.erase "unsigned" (SortedList.erase "signatures"
        (Json.writtenFields fields))) = Json.object (Json.writtenFields _)
      rw [writtenFields_eq_map, writtenFields_eq_map]
      simp only [SortedList.erase, List.filter_map]
      rfl
  | _ => rfl

/-- What the signatures of an object are worth does not change when it is written and read again. -/
@[simp] theorem signedJsonVerifies_written (ed : Ed25519) (obj : Json)
    (signer keyId publicKey : Str) :
    signedJsonVerifies ed obj.written signer keyId publicKey =
      signedJsonVerifies ed obj signer keyId publicKey := by
  have hsig : (signatureAt obj.written signer keyId).bind Json.asStr =
      (signatureAt obj signer keyId).bind Json.asStr := by
    rw [signatureAt_written]
    cases signatureAt obj signer keyId with
    | none => rfl
    | some sig => exact asStr_written sig
  rw [signedJsonVerifies, signedJsonVerifies, hsig, unsignedJson_written, Json.write_written]

/-- A string field of an object is read back. -/
@[simp] theorem getStr_written (obj : Json) (k : Str) :
    (obj.written.get k).bind Json.asStr = (obj.get k).bind Json.asStr := by
  rw [Json.get_written]
  cases obj.get k with
  | none => rfl
  | some v => exact asStr_written v

@[simp] theorem crossSigningPublic_written (key : Json) :
    crossSigningPublic key.written = crossSigningPublic key := by
  rw [crossSigningPublic, crossSigningPublic, Json.get_written]
  cases key.get "keys" with
  | none => rfl
  | some keys =>
      cases keys with
      | object fields =>
          -- writing keeps the ids, so the same entry is found
          show ((Json.writtenFields fields).find? _).bind _ = (fields.find? _).bind _
          rw [writtenFields_eq_map, List.find?_map]
          simp only [Function.comp_def]
          cases fields.find? fun e => startsWith "ed25519:" e.1 with
          | none => rfl
          | some e => exact asStr_written e.2
      | _ => rfl

/-- A field of what was read from a body is read back from its own text. -/
theorem parse_write_field (hbody : Json.parse body = .ok v) (hfield : v.get k = some w) :
    Json.parse w.write = .ok w.written := by
  obtain ⟨hnest, hordered⟩ := Json.fits_of_parse hbody
  cases v with
  | object fields =>
      -- a field is nested one level less than its object
      obtain ⟨before, after, hsplit, -⟩ := List.lookup_eq_some_iff.mp hfield
      have hmem : (k, w) ∈ fields := by
        rw [hsplit]
        simp
      have hinner : w.nesting + 1 ≤ maxDepth := Json.nestingFields_le_iff.mp hnest (k, w) hmem
      have hin : Json.Ordered w := (Json.everywhere_object.mp hordered).2 (k, w) hmem
      rw [Json.parse_write hin, if_pos (by omega)]
  | _ => exact nomatch hfield

end

end GaussMatrix.Http
