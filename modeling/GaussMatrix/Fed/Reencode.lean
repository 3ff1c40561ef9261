import GaussMatrix.Fed.Delivery
import GaussMatrix.Library.Fallible

/-!
# A transaction passed on

What was decoded from a parsed text has had its integers through a double and its contents printed
already, so encoding and decoding it once more changes nothing.
-/

namespace GaussMatrix.Fed

open Library Util Api

variable {sha256 : List UInt8 → List UInt8}

/-! ## Decoding what was encoded -/

theorem fromJson_toJson (p : Pdu) : Pdu.fromJson (p.toJson sha256) = .ok (deliveredPdu p) := by
  obtain ⟨hid, hroom, hsender, hkind, hkey, htime, hdepth, hprev, hauth, hcontent⟩ :=
    @toJson_fields sha256 p
  exact fromJson_of_fields hid hroom hsender hkind hkey htime hdepth hprev hauth hcontent

theorem edu_fromJson_toJson (e : Edu) : Edu.fromJson e.toJson = .ok (deliveredEdu e) := by
  have hget := Json.get_ofFields (eduFields_nodup e)
  exact edu_of_fields (hget _) (hget _)

theorem transaction_fromJson_toJson (t : Transaction) :
    Transaction.fromJson (t.toJson sha256) = .ok (delivered t) := by
  have hget := Json.get_ofFields (transactionFields_nodup sha256 t)
  exact transaction_of_fields fromJson_toJson edu_fromJson_toJson (hget _) (hget _) (hget _)
    (hget _)

/-! ## What the reader yields -/

theorem representable_of_toInt? {x : F64} {i : Int} (h : x.toInt? = some i) :
    ∃ q : Nat, F64.Representable (q * F64.unitsPerOne) ∧ (i = q ∨ i = -q) := by
  cases x with
  | inf neg => cases h
  | nan => cases h
  | finite neg units fits =>
      rw [F64.toInt?] at h
      split at h
      · rename_i hwhole
        have hunits := Nat.div_mul_cancel (Nat.dvd_of_mod_eq_zero hwhole)
        refine ⟨units / F64.unitsPerOne, by rwa [hunits], ?_⟩
        rw [← Option.some.inj h]
        cases neg with
        | true => exact .inr rfl
        | false => exact .inl rfl
      · cases h

/-- An integer that was read from a double goes through a double unchanged. -/
theorem throughDouble_of_asU64 {v : Json} {n : UInt64} (h : v.asU64 = some n) :
    throughDouble n = n := by
  rw [Json.asU64.eq_def] at h
  split at h
  · rename_i x
    split at h
    · rename_i i hint
      split at h
      · rename_i hrange
        obtain ⟨q, hq, hi⟩ := representable_of_toInt? hint
        have hvalue : i.toNat = q := by omega
        have hn : n.toNat = min q (2 ^ 64 - 1) := by
          rw [← Option.some.inj h, hvalue]
          exact UInt64.toNat_ofNat_of_lt'
            (Nat.lt_of_le_of_lt (Nat.min_le_right _ _) (by decide))
        rw [throughDouble_eq_iff, hn]
        by_cases htop : q ≤ 2 ^ 64 - 1
        · rw [Nat.min_eq_left htop]
          exact .inl hq
        · exact .inr (Nat.min_eq_right (by omega))
      · cases h
    · cases h
  · cases h

/-- A value that stands by itself as a text. -/
def Printable (v : Json) : Prop := v.nesting ≤ maxDepth ∧ Json.Ordered v

theorem Printable.get {v c : Json} {key : Str} (h : Printable v) (hget : v.get key = some c) :
    Printable c := by
  cases v with
  | object fields =>
      obtain ⟨l₁, l₂, hsplit, -⟩ := List.lookup_eq_some_iff.mp hget
      have hmem : (key, c) ∈ fields := by simp [hsplit]
      have hnest := Json.nestingFields_le_iff.mp h.1 _ hmem
      exact ⟨Nat.le_of_succ_le hnest, (Json.everywhere_object.mp h.2).2 _ hmem⟩
  | _ => cases hget

theorem Printable.item {items : List Json} {item : Json} (h : Printable (.array items))
    (hmem : item ∈ items) : Printable item := by
  have hnest := Json.nestingItems_le_iff.mp h.1 _ hmem
  exact ⟨Nat.le_of_succ_le hnest, (Json.everywhere_array.mp h.2).2 _ hmem⟩

/-- The content of a unit, printed, comes back as it is. -/
theorem Printable.content {v : Json} (h : Printable v) {text : Str}
    (htext : text = ((v.get "content".toList).map Json.write).getD "{}".toList) :
    (embedded text).write = text := by
  cases hget : v.get "content".toList with
  | none =>
      rw [htext, hget]
      rfl
  | some c =>
      obtain ⟨hnest, hord⟩ := h.get hget
      rw [htext, hget]
      show (embedded c.write).write = c.write
      rw [embedded, Json.parse_write hord, if_pos hnest]
      exact Json.write_written c

theorem throughDouble_of_u64Field {v : Json} {key : Str} {n : UInt64}
    (h : Pdu.u64Field v key = .ok n) : throughDouble n = n := by
  rw [Pdu.u64Field] at h
  split at h
  · cases h
  · exact throughDouble_of_asU64 (elim_error_eq_ok_iff.mp h)

theorem fields_of_fromJson {v : Json} {p : Pdu} (h : Pdu.fromJson v = .ok p) :
    Pdu.u64Field v "origin_server_ts".toList = .ok p.originServerTs ∧
      Pdu.u64Field v "depth".toList = .ok p.depth ∧
      p.contentJson = ((v.get "content".toList).map Json.write).getD "{}".toList := by
  obtain ⟨eventId, -, h⟩ := bind_eq_ok_iff.mp h
  obtain ⟨roomId, -, h⟩ := bind_eq_ok_iff.mp h
  obtain ⟨sender, -, h⟩ := bind_eq_ok_iff.mp h
  obtain ⟨kind, -, h⟩ := bind_eq_ok_iff.mp h
  dsimp only at h
  split at h
  all_goals
    obtain ⟨stateKey, -, h⟩ := bind_eq_ok_iff.mp h
    obtain ⟨ts, hts, h⟩ := bind_eq_ok_iff.mp h
    obtain ⟨depth, hdepth, h⟩ := bind_eq_ok_iff.mp h
    obtain ⟨prevEvents, -, h⟩ := bind_eq_ok_iff.mp h
    obtain ⟨authEvents, -, h⟩ := bind_eq_ok_iff.mp h
    rw [← Except.ok.inj h]
    refine ⟨hts, hdepth, ?_⟩
    cases v.get "content".toList <;> rfl

theorem deliveredPdu_of_fromJson {v : Json} {p : Pdu} (hv : Printable v)
    (h : Pdu.fromJson v = .ok p) : deliveredPdu p = p := by
  obtain ⟨hts, hdepth, hcontent⟩ := fields_of_fromJson h
  rw [deliveredPdu, throughDouble_of_u64Field hts, throughDouble_of_u64Field hdepth,
    hv.content hcontent]

theorem deliveredEdu_of_fromJson {v : Json} {e : Edu} (hv : Printable v)
    (h : Edu.fromJson v = .ok e) : deliveredEdu e = e := by
  rw [Edu.fromJson] at h
  split at h
  · cases h
  · have htext : e.contentJson = ((v.get "content".toList).map Json.write).getD "{}".toList := by
      rw [← Except.ok.inj h]
      cases v.get "content".toList <;> rfl
    rw [deliveredEdu, hv.content htext]

/-- What was decoded item by item stays as it is, when each item does. -/
theorem map_delivered {α : Type} {f : Json → Except FedError α} {g : α → α} {items : List Json}
    {units : List α} (hv : Printable (.array items)) (h : items.mapM f = .ok units)
    (hunit : ∀ {item unit}, Printable item → f item = .ok unit → g unit = unit) :
    units.map g = units := by
  conv_rhs => rw [← List.map_id units]
  refine List.map_congr_left fun unit hmem => ?_
  obtain ⟨item, hitem, hdecode⟩ := exists_of_mem_mapM h hmem
  exact hunit (hv.item hitem) hdecode

theorem eq_array_of_asArray {v : Json} {items : List Json} (h : v.asArray = some items) :
    v = .array items := by
  cases v with
  | array items' => rw [← Option.some.inj h]
  | _ => cases h

theorem get_of_arrayField {v : Json} {key : Str} {items : List Json}
    (h : Transaction.arrayField v key = .ok items) : v.get key = some (.array items) := by
  rw [Transaction.arrayField] at h
  split at h
  · cases h
  · rename_i x hget
    rw [hget, eq_array_of_asArray (elim_error_eq_ok_iff.mp h)]

theorem delivered_of_fromJson {v : Json} {t : Transaction} (hv : Printable v)
    (h : Transaction.fromJson v = .ok t) : delivered t = t := by
  obtain ⟨origin, -, h⟩ := bind_eq_ok_iff.mp h
  obtain ⟨ts, hts, h⟩ := bind_eq_ok_iff.mp h
  obtain ⟨items, hitems, h⟩ := bind_eq_ok_iff.mp h
  obtain ⟨pdus, hpdus, h⟩ := bind_eq_ok_iff.mp h
  have htime : throughDouble ts = ts := by
    obtain ⟨x, -, hx⟩ := Option.bind_eq_some_iff.mp (elim_error_eq_ok_iff.mp hts)
    exact throughDouble_of_asU64 hx
  have hmap : pdus.map deliveredPdu = pdus := by
    refine map_delivered (hv.get (get_of_arrayField hitems)) hpdus fun {item p} hitem hp => ?_
    split at hp
    · rename_i q hq
      exact Except.ok.inj hp ▸ deliveredPdu_of_fromJson hitem hq
    · cases hp
  dsimp only at h
  split at h
  · rw [← Except.ok.inj h, delivered, htime, hmap]
    rfl
  · rename_i x hget
    obtain ⟨eduItems, heduItems, h⟩ := bind_eq_ok_iff.mp h
    obtain ⟨edus, hedus, h⟩ := bind_eq_ok_iff.mp h
    have harray := eq_array_of_asArray (elim_error_eq_ok_iff.mp heduItems)
    have hmap' := map_delivered (harray ▸ hv.get hget) hedus deliveredEdu_of_fromJson
    rw [← Except.ok.inj h, delivered, htime, hmap, hmap']

/-- A transaction that was decoded from a parsed text is decoded as itself from its own form. -/
theorem reencoded_transaction {s : Str} {v : Json} {t : Transaction}
    (hparse : Json.parse s = .ok v) (hdecode : Transaction.fromJson v = .ok t) :
    Transaction.fromJson (t.toJson sha256) = .ok t := by
  rw [transaction_fromJson_toJson, delivered_of_fromJson (Json.fits_of_parse hparse) hdecode]

/-- A typing notice at the end of time, with a number in it that overflows. -/
def typingText : Str :=
  ("\x7b\"origin\":\"o\",\"origin_server_ts\":18446744073709551616,\"pdus\":[]," ++
    "\"edus\":[\x7b\"edu_type\":\"m.typing\",\"content\":[1e400]\x7d]\x7d").toList

def typing : Transaction where
  origin := "o".toList
  originServerTs := 18446744073709551615
  pdus := []
  edus := [{ eduType := "m.typing".toList, contentJson := "[0]".toList }]

theorem reencoded_typing : ∃ v, Json.parse typingText = .ok v ∧
    Transaction.fromJson v = .ok typing ∧
    Transaction.fromJson (typing.toJson fun _ => []) = .ok typing := by
  have hreceive : receiveText typingText = some typing := by decide +kernel
  obtain ⟨v, hparse, hdecode⟩ := Option.bind_eq_some_iff.mp hreceive
  rw [toOption_eq_some_iff] at hparse hdecode
  exact ⟨v, hparse, hdecode, reencoded_transaction hparse hdecode⟩

end GaussMatrix.Fed
