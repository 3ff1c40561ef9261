import GaussMatrix.Api.Pdu
import GaussMatrix.Library.Codec
import GaussMatrix.Util.Limbs
import GaussMatrix.Util.Utf8

/-!
# The storage codec of events

Events as the bytes that the store holds: strings behind their length, and ids that are checked
again on the way back.
-/

namespace GaussMatrix.Svc.Codec

open Library Util Api
open Curve25519 (bytesValue bytesValue_lt bytesValue_inj byte_toNat_mem_lt)

/-! ## Writing -/

/-- `to_le_bytes` of a number of so many bytes. -/
def leBytes (width n : Nat) : List UInt8 :=
  (List.range width).map fun i => UInt8.ofNat (n / 256 ^ i)

/-- A count `as u32`. -/
def putCount (n : Nat) : List UInt8 := leBytes 4 (UInt32.ofNat n).toNat

def putStr (s : Str) : List UInt8 := putCount (utf8Bytes s).length ++ utf8Bytes s

def putU64 (n : UInt64) : List UInt8 := leBytes 8 n.toNat

def putStateKey : Option Str → List UInt8
  | some key => 1 :: putStr key
  | none => [0]

def putIds (ids : List EventId) : List UInt8 :=
  putCount ids.length ++ ids.flatMap fun e => putStr e.asStr

/-- Encode a PDU to bytes. -/
def encode (p : Pdu) : List UInt8 :=
  putStr p.eventId.asStr ++ (putStr p.roomId.asStr ++ (putStr p.sender.asStr ++ (putStr p.kind ++
    (putStateKey p.stateKey ++ (putU64 p.originServerTs ++ (putU64 p.depth ++
      (putIds p.prevEvents ++ (putIds p.authEvents ++ putStr p.contentJson))))))))

/-! ## Reading -/

def u32 : Reader UInt8 UInt32 := do return UInt32.ofNat (bytesValue (← takeN 4))

def u64 : Reader UInt8 UInt64 := do return UInt64.ofNat (bytesValue (← takeN 8))

def string : Reader UInt8 Str := do
  let len ← u32
  fromUtf8 (← takeN len.toNat)

def byte : Reader UInt8 UInt8 := do
  let bytes ← takeN 1
  bytes.head?

/-- An id is checked again. -/
def parsed {τ : Type} (parse : Str → Option τ) : Reader UInt8 τ := do parse (← string)

def stateKey : Reader UInt8 (Option Str) := do
  match ← byte with
  | 1 => return some (← string)
  | 0 => return none
  | _ => failure

def ids : Reader UInt8 (List EventId) := do
  let count ← u32
  times (parsed EventId.parse) count.toNat

def pdu : Reader UInt8 Pdu := do
  let eventId ← parsed EventId.parse
  let roomId ← parsed RoomId.parse
  let sender ← parsed UserId.parse
  let kind ← string
  let stateKey ← stateKey
  let originServerTs ← u64
  let depth ← u64
  let prevEvents ← ids
  let authEvents ← ids
  let contentJson ← string
  return {
    eventId := eventId
    roomId := roomId
    sender := sender
    kind := kind
    stateKey := stateKey
    originServerTs := originServerTs
    depth := depth
    prevEvents := prevEvents
    authEvents := authEvents
    contentJson := contentJson }

/-- Decode a PDU from bytes, re-validating every identifier. -/
def decode (bytes : List UInt8) : Option Pdu := (pdu.run bytes).map Prod.fst

/-! ## Numbers -/

theorem length_leBytes (width n : Nat) : (leBytes width n).length = width := by
  rw [leBytes, List.length_map, List.length_range]

theorem bytesValue_leBytes (width n : Nat) : bytesValue (leBytes width n) = n % 256 ^ width := by
  have hdigits : (leBytes width n).map UInt8.toNat = lowDigits 256 width n := by
    rw [leBytes, lowDigits, List.map_map]
    exact List.map_congr_left fun i _ => UInt8.toNat_ofNat'
  rw [bytesValue, hdigits, ofDigits_lowDigits]

/-- Bytes are the number they are the bytes of. -/
theorem bytesValue_eq_iff {bytes : List UInt8} {n width : Nat} (hlen : bytes.length = width)
    (hn : n < 256 ^ width) : bytesValue bytes = n ↔ bytes = leBytes width n := by
  constructor
  · rintro rfl
    refine bytesValue_inj (hlen.trans (length_leBytes _ _).symm) ?_
    rw [bytesValue_leBytes, Nat.mod_eq_of_lt hn]
  · rintro rfl
    rw [bytesValue_leBytes, Nat.mod_eq_of_lt hn]

theorem reads_u32 : Reads u32 (fun n => leBytes 4 n.toNat) fun _ => True := by
  have hnumber : ∀ (bytes : List UInt8) (n : UInt32), bytes.length = 4 →
      (UInt32.ofNat (bytesValue bytes) = n ↔ bytes = leBytes 4 n.toNat) := by
    intro bytes n hlen
    have hlt : bytesValue bytes < 2 ^ 32 := by
      have h := bytesValue_lt bytes
      rwa [hlen] at h
    rw [← bytesValue_eq_iff hlen n.toNat_lt, ← UInt32.toNat_inj, UInt32.toNat_ofNat',
      Nat.mod_eq_of_lt hlt]
  exact ((Reads.takeN 4).map hnumber).congr (fun n => by simp [length_leBytes]) fun _ _ => rfl

theorem reads_u64 : Reads u64 putU64 fun _ => True := by
  have hnumber : ∀ (bytes : List UInt8) (n : UInt64), bytes.length = 8 →
      (UInt64.ofNat (bytesValue bytes) = n ↔ bytes = leBytes 8 n.toNat) := by
    intro bytes n hlen
    have hlt : bytesValue bytes < 2 ^ 64 := by
      have h := bytesValue_lt bytes
      rwa [hlen] at h
    rw [← bytesValue_eq_iff hlen n.toNat_lt, ← UInt64.toNat_inj, UInt64.toNat_ofNat',
      Nat.mod_eq_of_lt hlt]
  exact ((Reads.takeN 8).map hnumber).congr (fun n => by simp [length_leBytes]) fun _ _ => rfl

/-- What is read behind its count, up to the largest count. -/
theorem reads_counted {α : Type} {body : Nat → Reader UInt8 α} {write : α → List UInt8}
    {size : α → Nat} {P : α → Prop} (h : ∀ n, Reads (body n) write fun a => size a = n ∧ P a) :
    Reads (u32 >>= fun n => body n.toNat) (fun a => putCount (size a) ++ write a) fun a =>
      size a < 2 ^ 32 ∧ P a := by
  have hcount : ∀ (n : UInt32) (a : α), True → size a = n.toNat ∧ P a →
      UInt32.ofNat (size a) = n := by
    rintro n a - ⟨hsize, -⟩
    rw [hsize, UInt32.ofNat_toNat]
  refine (reads_u32.bind (fun n => h n.toNat) hcount).congr (fun a => ?_) fun _ _ => rfl
  rw [true_and, UInt32.toNat_ofNat']
  constructor
  · rintro ⟨hsize, ha⟩
    exact ⟨hsize ▸ Nat.mod_lt _ (by decide), ha⟩
  · rintro ⟨hlt, ha⟩
    exact ⟨(Nat.mod_eq_of_lt hlt).symm, ha⟩

/-! ## Fields -/

/-- The length of the string fits its prefix. -/
def StrFits (s : Str) : Prop := (utf8Bytes s).length < 2 ^ 32

instance (s : Str) : Decidable (StrFits s) := inferInstanceAs (Decidable (_ < _))

theorem reads_string : Reads string putStr StrFits := by
  have hbody : ∀ n, Reads (takeN n >>= fun bytes => liftM (fromUtf8 bytes)) utf8Bytes
      fun s => (utf8Bytes s).length = n ∧ True := by
    intro n
    refine ((Reads.takeN n).parsed fun bytes s _ => fromUtf8_eq_some_iff).congr (fun s => ?_)
      fun _ _ => rfl
    exact (and_iff_left trivial).symm
  exact (reads_counted hbody).congr (fun s => and_iff_left trivial) fun _ _ => rfl

theorem reads_byte : Reads byte (fun b => [b]) fun _ => True := by
  refine ((Reads.takeN 1).parsed fun bytes b hlen => ?_).congr (fun b => ?_) fun _ _ => rfl
  · obtain ⟨c, rfl⟩ := List.length_eq_one_iff.mp hlen
    simp
  · exact iff_true_intro rfl

theorem reads_parsed {τ : Type} {parse : Str → Option τ} {asStr : τ → Str}
    (hself : ∀ t, parse (asStr t) = some t) (hback : ∀ {s t}, parse s = some t → asStr t = s) :
    Reads (parsed parse) (fun t => putStr (asStr t)) fun t => StrFits (asStr t) := by
  refine reads_string.parsed fun s t _ => ⟨fun h => (hback h).symm, ?_⟩
  rintro rfl
  exact hself t

theorem reads_eventId :
    Reads (parsed EventId.parse) (fun e => putStr e.asStr) fun e => StrFits e.asStr :=
  reads_parsed EventId.parse_asStr EventId.asStr_of_parse

theorem reads_ids : Reads ids putIds fun ids =>
    ids.length < 2 ^ 32 ∧ ∀ e ∈ ids, StrFits e.asStr :=
  reads_counted reads_eventId.times

/-- The byte before a state key that is there, or in place of one. -/
def tag (key : Option Str) : UInt8 := key.elim 0 fun _ => 1

theorem reads_stateKey : Reads stateKey putStateKey fun key => ∀ s ∈ key, StrFits s := by
  have hbody : ∀ b : UInt8, Reads
      (match b with
        | 1 => string >>= fun s => pure (some s)
        | 0 => pure none
        | _ => failure)
      (fun key => key.elim [] putStr) fun key => tag key = b ∧ ∀ s ∈ key, StrFits s := by
    intro b
    split
    · have hpart : ∀ (s : Str) (key : Option Str), StrFits s → key = some s → key.getD [] = s := by
        rintro s key - rfl
        rfl
      refine (reads_string.bind (fun s => Reads.pure (some s)) hpart).congr (fun key => ?_) ?_
      · cases key <;> simp [tag]
      · rintro key ⟨-, hkey⟩
        rw [hkey]
        exact List.append_nil _
    · refine (Reads.pure none).congr (fun key => ?_) ?_
      · cases key <;> simp [tag]
      · rintro key rfl
        rfl
    · rename_i hone hzero
      intro bytes key rest
      constructor
      · intro hrun
        cases hrun
      · rintro ⟨⟨htag, -⟩, -⟩
        cases key with
        | none => exact absurd htag.symm hzero
        | some s => exact absurd htag.symm hone
  refine (reads_byte.bind hbody fun b key _ hkey => hkey.1).congr (fun key => ?_) fun key _ => ?_
  · simp
  · cases key <;> rfl

/-- The lengths of the strings and the lists of an event fit their prefixes. -/
@[mk_iff]
structure Fits (p : Pdu) : Prop where
  eventId : StrFits p.eventId.asStr
  roomId : StrFits p.roomId.asStr
  sender : StrFits p.sender.asStr
  kind : StrFits p.kind
  stateKey : ∀ s ∈ p.stateKey, StrFits s
  prevEvents : p.prevEvents.length < 2 ^ 32 ∧ ∀ e ∈ p.prevEvents, StrFits e.asStr
  authEvents : p.authEvents.length < 2 ^ 32 ∧ ∀ e ∈ p.authEvents, StrFits e.asStr
  contentJson : StrFits p.contentJson

instance (p : Pdu) : Decidable (Fits p) := decidable_of_iff _ (fits_iff p).symm

theorem reads_mk (eventId : EventId) (roomId : RoomId) (sender : UserId) (kind : Str)
    (stateKey : Option Str) (originServerTs depth : UInt64) (prevEvents authEvents : List EventId)
    (contentJson : Str) :
    Reads (pure (Pdu.mk eventId roomId sender kind stateKey originServerTs depth prevEvents
      authEvents contentJson) : Reader UInt8 Pdu) (fun _ => []) fun p =>
        (p.contentJson = contentJson ∧ p.authEvents = authEvents ∧ p.prevEvents = prevEvents ∧
          p.depth = depth ∧ p.originServerTs = originServerTs ∧ p.stateKey = stateKey ∧
          p.kind = kind ∧ p.sender = sender ∧ p.roomId = roomId ∧ p.eventId = eventId ∧ True) ∧
        True := by
  refine (Reads.pure _).congr (fun p => ?_) fun _ _ => rfl
  constructor
  · rintro rfl
    simp
  · rintro ⟨⟨rfl, rfl, rfl, rfl, rfl, rfl, rfl, rfl, rfl, rfl, -⟩, -⟩
    rfl

/-- The reader takes off exactly the encoding of an event. -/
theorem reads_pdu : Reads pdu encode Fits := by
  have hroom := reads_parsed RoomId.parse_asStr RoomId.asStr_of_parse
  have hsender := reads_parsed UserId.parse_asStr UserId.asStr_of_parse
  have h := reads_eventId.field fun eventId => hroom.field fun roomId => hsender.field fun sender =>
    reads_string.field fun kind => reads_stateKey.field fun stateKey => reads_u64.field fun ts =>
    reads_u64.field fun depth => reads_ids.field fun prevEvents => reads_ids.field fun authEvents =>
    reads_string.field fun contentJson =>
    reads_mk eventId roomId sender kind stateKey ts depth prevEvents authEvents contentJson
  refine h.congr (fun p => ?_) fun p _ => ?_
  · constructor
    · rintro ⟨-, he, hr, hs, hk, hsk, -, -, hp, ha, hc, -⟩
      exact ⟨he, hr, hs, hk, hsk, hp, ha, hc⟩
    · rintro ⟨he, hr, hs, hk, hsk, hp, ha, hc⟩
      exact ⟨trivial, he, hr, hs, hk, hsk, trivial, trivial, hp, ha, hc, trivial⟩
  · rw [encode, List.append_nil]

theorem decode_eq_some_iff {bytes : List UInt8} {p : Pdu} :
    decode bytes = some p ↔ Fits p ∧ encode p <+: bytes :=
  reads_pdu.map_fst_eq_some_iff

/-! ## Records -/

/-- Events come back from their encodings, and no encoding is at the front of another. -/
theorem decode_encode_pdu {p q : Pdu} (hp : Fits p) (hq : Fits q) :
    decode (encode p) = some p ∧ (encode p <+: encode q → p = q) :=
  ⟨decode_eq_some_iff.mpr ⟨hp, List.prefix_refl _⟩, reads_pdu.prefix_free hp hq⟩

/-- A state event with a separator in its content. -/
def topicEvent : Pdu where
  eventId := ⟨"$e".toList, by decide⟩
  roomId := ⟨"!r:g".toList, by decide⟩
  sender := ⟨"@a:g".toList, by decide⟩
  kind := "m.room.topic".toList
  stateKey := some []
  originServerTs := 42
  depth := 7
  prevEvents := [⟨"$p".toList, by decide⟩]
  authEvents := []
  contentJson := "\"x\u001fy\"".toList

theorem decode_encode_topicEvent :
    decode (encode topicEvent) = some topicEvent ∧
      (encode topicEvent <+: encode { topicEvent with stateKey := none } →
        topicEvent = { topicEvent with stateKey := none }) :=
  decode_encode_pdu (by decide) (by decide)

/-- The reader takes nothing but encodings, unless there is more behind one. -/
theorem decode_strict_iff (bytes : List UInt8) :
    (∀ p, decode bytes = some p → encode p = bytes) ↔
      ¬ ∃ p extra, Fits p ∧ extra ≠ [] ∧ bytes = encode p ++ extra := by
  constructor
  · rintro hstrict ⟨p, extra, hp, hextra, rfl⟩
    have heq := hstrict p (decode_eq_some_iff.mpr ⟨hp, List.prefix_append _ _⟩)
    exact hextra (List.self_eq_append_right.mp heq)
  · intro hnone p hdecode
    obtain ⟨hp, extra, rfl⟩ := decode_eq_some_iff.mp hdecode
    by_contra hne
    have hextra : extra ≠ [] := by
      rintro rfl
      exact hne (List.append_nil _).symm
    exact hnone ⟨p, extra, hp, hextra, rfl⟩

/-- A byte behind the record is let pass. -/
theorem decode_trailing_byte :
    ¬ ∀ p, decode (encode topicEvent ++ [0]) = some p → encode p = encode topicEvent ++ [0] := by
  intro h
  have heq := h topicEvent (decode_eq_some_iff.mpr ⟨by decide, List.prefix_append _ _⟩)
  exact absurd (List.self_eq_append_right.mp heq) (List.cons_ne_nil _ _)

end GaussMatrix.Svc.Codec
