import GaussMatrix.Api.Pdu

/-!
# Federation transactions

The envelope servers exchange: persistent events and ephemeral data units.  A transaction is read
from JSON another server wrote, and one bad unit rejects the whole of it.
-/

namespace GaussMatrix.Fed

open Library Api

/-- An error decoding a transaction or an ephemeral unit. -/
inductive FedError
  | missingField (key : Str)
  | invalidField (key : Str)
  deriving DecidableEq

/-- An ephemeral data unit. -/
structure Edu where
  eduType : Str
  /-- Opaque content as JSON. -/
  contentJson : Str
  deriving DecidableEq

def Edu.toJson (e : Edu) : Json :=
  Json.ofFields
    [Json.field "edu_type" (.string e.eduType),
      Json.field "content" (((Json.parse e.contentJson).toOption).getD (.object []))]

def Edu.fromJson (value : Json) : Except FedError Edu :=
  match (value.get "edu_type").bind Json.asStr with
  | none => .error (.invalidField "edu_type")
  | some eduType =>
      let contentJson := match value.get "content" with
        | some content => content.write
        | none => "{}".toList
      .ok { eduType, contentJson }

/-- A server-to-server transaction. -/
structure Transaction where
  origin : Str
  originServerTs : UInt64
  pdus : List Pdu
  edus : List Edu
  deriving DecidableEq

namespace Transaction

/-- The wire form of a transaction. -/
def toJson (sha256 : List UInt8 → List UInt8) (t : Transaction) : Json :=
  Json.ofFields
    [Json.field "origin" (.string t.origin),
      Json.field "origin_server_ts" (.number (F64.ofNat t.originServerTs.toNat)),
      Json.field "pdus" (.array (t.pdus.map (Pdu.toJson sha256))),
      Json.field "edus" (.array (t.edus.map Edu.toJson))]

def arrayField (value : Json) (key : Str) : Except FedError (List Json) :=
  match value.get key with
  | none => .error (.missingField key)
  | some v => v.asArray.elim (.error (.invalidField key)) .ok

/-- Parse a transaction, re-validating every PDU.  A missing `edus` is empty. -/
def fromJson (value : Json) : Except FedError Transaction := do
  let origin ← ((value.get "origin").bind Json.asStr).elim
    (.error (.invalidField "origin")) .ok
  let originServerTs ← ((value.get "origin_server_ts").bind Json.asU64).elim
    (.error (.invalidField "origin_server_ts")) .ok
  let items ← arrayField value "pdus"
  let pdus ← items.mapM fun item =>
    match Pdu.fromJson item with
    | .ok pdu => .ok pdu
    | .error _ => .error (.invalidField "pdus")
  let edus ← match value.get "edus" with
    | none => .ok []
    | some items => do
        let items ← items.asArray.elim (.error (.invalidField "edus")) .ok
        items.mapM Edu.fromJson
  return { origin, originServerTs, pdus, edus }

end Transaction

end GaussMatrix.Fed
