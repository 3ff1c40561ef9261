import GaussMatrix.Library.HashChain
import GaussMatrix.Store.Families

/-!
# The audit log

Entries of the audit family, one under each position, each with the hash of the entry before.
-/

namespace GaussMatrix.Audit

open Library

/-- A stored value: the bytes of a text in UTF-8, or other bytes. -/
inductive Bytes
  | utf8 (s : Str)
  | other (data : List UInt8)
  deriving DecidableEq

def Bytes.fromUtf8 : Bytes → Option Str
  | utf8 s => some s
  | other _ => none

def sep : Char := '\x1f'

structure AuditEntry where
  actor : Str
  event : Str
  /-- The hash of the entry before; 0 for the first. -/
  prevHash : UInt64
  hash : UInt64
  deriving DecidableEq

/-- The standard hasher over an actor, an event and the hash before. -/
abbrev Digest := Str → Str → UInt64 → UInt64

def encode (e : AuditEntry) : Str :=
  e.actor ++ sep :: (e.event ++ sep :: (decimal e.prevHash.toNat ++ sep :: decimal e.hash.toNat))

/-- Parts after the fourth are ignored. -/
def decode (s : Str) : Option AuditEntry :=
  match s.splitOn sep with
  | actor :: event :: prevHash :: hash :: _ => do
      let prevHash ← parseU64 prevHash
      let hash ← parseU64 hash
      return ⟨actor, event, UInt64.ofNat prevHash, UInt64.ofNat hash⟩
  | _ => none

/-- The key of a position, in twenty digits. -/
def seqKey (seq : Nat) : Str := padDecimal 20 seq

/-- All entries, oldest first; rows that do not decode are skipped. -/
def entries (s : Store Bytes) : List AuditEntry :=
  (s.scan .auditLog).filterMap fun e => e.2.fromUtf8.bind decode

/-- The entry that the log takes next. -/
def nextEntry (digest : Digest) (s : Store Bytes) (actor event : Str) : AuditEntry :=
  let prevHash := ((entries s).getLast?.map fun e => e.hash).getD 0
  ⟨actor, event, prevHash, digest actor event prevHash⟩

/-- Append an event, chained to the last entry. -/
def append (digest : Digest) (s : Store Bytes) (actor event : Str) : Store Bytes :=
  let seq := s.count .auditLog
  s.put .auditLog (seqKey seq) (.utf8 (encode (nextEntry digest s actor event)))

def verifyFrom (digest : Digest) : Nat → UInt64 → List AuditEntry → Except Nat Unit
  | _, _, [] => .ok ()
  | i, expectedPrev, e :: es =>
      if e.prevHash ≠ expectedPrev then .error i
      else if e.hash ≠ digest e.actor e.event e.prevHash then .error i
      else verifyFrom digest (i + 1) e.hash es

/-- Verify the chain: the index of the first bad entry, if there is one. -/
def verify (digest : Digest) (s : Store Bytes) : Except Nat Unit :=
  verifyFrom digest 0 0 (entries s)

/-- Append records, each an actor and an event, in order. -/
def appendAll (digest : Digest) (s : Store Bytes) (records : List (Str × Str)) : Store Bytes :=
  records.foldl (fun s r => append digest s r.1 r.2) s

/-! ## Encoded entries -/

theorem sep_not_mem_decimal (n : Nat) : sep ∉ decimal n := by
  intro h
  have hdigit := Nat.isDigit_of_mem_toDigits (by decide) (by decide) h
  exact absurd hdigit (by decide)

theorem decode_encode {e : AuditEntry} (hactor : sep ∉ e.actor) (hevent : sep ∉ e.event) :
    decode (encode e) = some e := by
  have hsplit : (encode e).splitOn sep =
      [e.actor, e.event, decimal e.prevHash.toNat, decimal e.hash.toNat] := by
    rw [encode, List.splitOn_append_cons_self_of_not_mem hactor,
      List.splitOn_append_cons_self_of_not_mem hevent,
      List.splitOn_append_cons_self_of_not_mem (sep_not_mem_decimal _),
      List.splitOn_eq_singleton (sep_not_mem_decimal _)]
  rw [decode, hsplit]
  simp only [parseU64_decimal e.prevHash.toNat_lt, parseU64_decimal e.hash.toNat_lt]
  show some _ = some _
  rw [UInt64.ofNat_toNat, UInt64.ofNat_toNat]

/-- What a row shows has no separator in its actor and its event. -/
theorem sep_not_mem_of_decode {s : Str} {e : AuditEntry} (h : decode s = some e) :
    sep ∉ e.actor ∧ sep ∉ e.event := by
  rw [decode] at h
  split at h
  · rename_i actor event prevHash hash rest hsplit
    simp only [bind, Option.bind_eq_some_iff] at h
    obtain ⟨p, -, q, -, heq⟩ := h
    obtain rfl := Option.some.inj heq
    constructor
    · exact not_mem_of_mem_splitOn (s := s) (by simp [hsplit])
    · exact not_mem_of_mem_splitOn (s := s) (by simp [hsplit])
  · exact nomatch h

/-! ## Rows in order -/

section

variable {digest : Digest} {s : Store Bytes} {actor event : Str}

/-- The rows of the family are under the positions below their count. -/
def Positioned (s : Store Bytes) : Prop :=
  ∀ row ∈ s.scan .auditLog, ∃ i < s.count .auditLog, row.1 = seqKey i

theorem positioned_empty : Positioned Store.empty := by
  intro row hrow
  exact absurd hrow List.not_mem_nil

/-- While the positions fit their twenty digits an append adds a row at the end. -/
theorem scan_append (h : Positioned s) (hlen : s.count .auditLog < 10 ^ 20) :
    (append digest s actor event).scan .auditLog = s.scan .auditLog ++
      [(seqKey (s.count .auditLog), .utf8 (encode (nextEntry digest s actor event)))] := by
  have hbelow : ∀ row ∈ s.scan .auditLog, row.1 < seqKey (s.count .auditLog) := by
    intro row hrow
    obtain ⟨i, hi, hkey⟩ := h row hrow
    rw [hkey, seqKey, seqKey, padDecimal_lt_iff (by omega) (by omega) hlen]
    exact hi
  show (s.put .auditLog _ _ .auditLog).entries = _
  rw [Store.put_self]
  exact SortedMap.entries_insert_of_gt _ hbelow _

theorem count_append (h : Positioned s) (hlen : s.count .auditLog < 10 ^ 20) :
    (append digest s actor event).count .auditLog = s.count .auditLog + 1 := by
  show ((append digest s actor event).scan .auditLog).length = _
  rw [scan_append h hlen, List.length_append]
  rfl

theorem Positioned.append (h : Positioned s) (hlen : s.count .auditLog < 10 ^ 20) :
    Positioned (append digest s actor event) := by
  intro row hrow
  rw [scan_append h hlen, List.mem_append, List.mem_singleton] at hrow
  rw [count_append h hlen]
  rcases hrow with hrow | rfl
  · obtain ⟨i, hi, hkey⟩ := h row hrow
    exact ⟨i, by omega, hkey⟩
  · exact ⟨s.count .auditLog, by omega, rfl⟩

theorem entries_append (h : Positioned s) (hlen : s.count .auditLog < 10 ^ 20) :
    entries (append digest s actor event) =
      entries s ++ (decode (encode (nextEntry digest s actor event))).toList := by
  rw [entries, scan_append h hlen, List.filterMap_append, ← entries]
  congr 1

end

/-! ## The chain -/

/-- The entry's hash is the digest of its content. -/
def Sealed (digest : Digest) (e : AuditEntry) : Prop := e.hash = digest e.actor e.event e.prevHash

/-- A chain from the genesis hash of entries with their own digests. -/
def Chained (digest : Digest) (es : List AuditEntry) : Prop :=
  Linked AuditEntry.prevHash AuditEntry.hash 0 es ∧ ∀ e ∈ es, Sealed digest e

/-- The entry that a chain takes next. -/
theorem Chained.concat {digest : Digest} {es : List AuditEntry} (h : Chained digest es)
    (actor event : Str) :
    Chained digest (es ++ [⟨actor, event, tipHash AuditEntry.hash 0 es,
      digest actor event (tipHash AuditEntry.hash 0 es)⟩]) := by
  obtain ⟨hlinked, hsealed⟩ := h
  constructor
  · rw [linked_concat]
    exact ⟨hlinked, rfl⟩
  · intro e he
    rcases List.mem_append.mp he with he | he
    · exact hsealed e he
    · rw [List.mem_singleton.mp he]
      rfl

theorem verifyFrom_eq_ok_iff {digest : Digest} {i : Nat} {prev : UInt64} {es : List AuditEntry} :
    verifyFrom digest i prev es = .ok () ↔
      Linked AuditEntry.prevHash AuditEntry.hash prev es ∧ ∀ e ∈ es, Sealed digest e := by
  induction es generalizing i prev with
  | nil => simp [verifyFrom, Linked]
  | cons e es ih =>
      rw [verifyFrom, Linked, List.forall_mem_cons]
      split
      · rename_i hprev
        exact iff_of_false (by simp) fun h => hprev h.1.1
      · rename_i hprev
        split
        · rename_i hseal
          exact iff_of_false (by simp) fun h => hseal h.2.1
        · rename_i hseal
          rw [ih]
          rw [not_not] at hprev hseal
          constructor
          · exact fun h => ⟨⟨hprev, h.1⟩, hseal, h.2⟩
          · exact fun h => ⟨h.1.2, h.2.2⟩

theorem verify_eq_ok_iff {digest : Digest} {s : Store Bytes} :
    verify digest s = .ok () ↔ Chained digest (entries s) :=
  verifyFrom_eq_ok_iff

end GaussMatrix.Audit
