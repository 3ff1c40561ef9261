import GaussMatrix.Api.ReferenceBinding
import GaussMatrix.Util.Sha256

/-!
# Event ids under SHA-256

The server's own digest in the place of the parameter.  An id fixes its event but for a collision of the
two digests that the id is made of: that of the redacted event, and that of the whole event inside it.
-/

namespace GaussMatrix.Api

open Library Util

namespace Pdu

/-- The digest of the event ids. -/
def sha256Bytes (msg : List UInt8) : List UInt8 := (sha256 msg).toList

/-- Hashing two texts comes to two different blocks that lead to one state. -/
def TextsCollide (text text' : List UInt8) : Prop :=
  Collides sha256Block sha256Init (sha256Blocks text) (sha256Blocks text')

theorem text_or_collide {text text' : List UInt8} (h : text.length < 2 ^ 61)
    (h' : text'.length < 2 ^ 61) (hsame : sha256Bytes text = sha256Bytes text') :
    text = text' ∨ TextsCollide text text' :=
  sha256Padding.eq_or_collides dvd_sha256Padding sha256_count_inj h h'
    (sha256_state (List.Vector.toList_injective hsame))

/-- The texts that an event's id and its content hash are digests of are short enough to be counted. -/
structure Hashable (roomVersion : Nat) (p : Pdu) : Prop where
  reference : (p.referenceText sha256Bytes roomVersion).length < 2 ^ 61
  content : p.contentText.length < 2 ^ 61

/-- Two events of one room version with one id are the same text but for their ids, or the texts of
their redactions collide, or their own texts do. -/
theorem event_id_binds (roomVersion : Nat) {p q : Pdu} (hp : p.Hashable roomVersion)
    (hq : q.Hashable roomVersion)
    (h : p.referenceId sha256Bytes roomVersion = q.referenceId sha256Bytes roomVersion) :
    p.contentText = q.contentText ∨
      TextsCollide (p.referenceText sha256Bytes roomVersion)
        (q.referenceText sha256Bytes roomVersion) ∨
      TextsCollide p.contentText q.contentText := by
  have hdigest : sha256Bytes (p.referenceText sha256Bytes roomVersion) =
      sha256Bytes (q.referenceText sha256Bytes roomVersion) :=
    base64urlEncode_injective (List.cons.inj h).2
  rcases text_or_collide hp.reference hq.reference hdigest with htext | hcollide
  · -- the redacted event has the hash of the whole one
    have hcontent : sha256Bytes p.contentText = sha256Bytes q.contentText :=
      base64Encode_injective (contentHash_eq_of_text htext)
    exact (text_or_collide hp.content hq.content hcontent).imp_right .inr
  · exact .inr (.inl hcollide)

namespace SampleBinding

theorem toJson_spelling : (message "{ }").toJson sha256Bytes = (message "{}").toJson sha256Bytes := by
  have hunhashed : (message "{ }").unhashed = (message "{}").unhashed := by
    simp only [unhashed, content, compact_parses, spaced_parses]
    rfl
  simp only [toJson, contentHash, hunhashed]
  rfl

theorem hashable_compact : (message "{}").Hashable 12 := ⟨by decide +kernel, by decide +kernel⟩

theorem hashable_spaced : (message "{ }").Hashable 12 := by
  constructor
  · rw [referenceText, referenceFields, toJson_spelling]
    exact hashable_compact.reference
  · decide +kernel

theorem one_id : (message "{}").referenceId sha256Bytes 12 = (message "{ }").referenceId sha256Bytes 12 := by
  simp only [referenceId, toJson_spelling]

end SampleBinding

open SampleBinding in
theorem event_id_binds_spelling :
    (message "{}").contentText = (message "{ }").contentText ∨
      TextsCollide ((message "{}").referenceText sha256Bytes 12)
        ((message "{ }").referenceText sha256Bytes 12) ∨
      TextsCollide (message "{}").contentText (message "{ }").contentText :=
  event_id_binds 12 hashable_compact hashable_spaced one_id

end Pdu

end GaussMatrix.Api
